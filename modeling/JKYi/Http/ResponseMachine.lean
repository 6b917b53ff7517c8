import JKYi.Foundation.Scanner

/-!
# The machine of response heads and chunk headers

The machine that is generated from `httpclient_parser.rl`, state by state.
-/

namespace JKYi.Http.ResponseMachine

open Scanner

inductive Action where
  | mark
  | startField
  | writeField
  | startValue
  | writeContentLen
  | writeConnectionClose
  | writeValue
  | reasonPhrase
  | statusCode
  | httpVersion
  | chunkSize
  | transChunked
  | done
  deriving DecidableEq

/-- `done` has an `fbreak`. -/
def stops (a : Action) : Bool := a == .done

def start : ℕ := 1

def firstFinal : ℕ := 120

def xdigit : List (ℕ × ℕ) := [(48, 57), (65, 70), (97, 102)]

def token : List (ℕ × ℕ) :=
  [(33, 33), (35, 39), (42, 43), (45, 46), (48, 57), (65, 90), (94, 122), (124, 124), (126, 126)]

def blank : List (ℕ × ℕ) := [(9, 9), (11, 12), (32, 32)]

def space : List (ℕ × ℕ) := [(9, 13), (32, 32)]

def spaceButLf : List (ℕ × ℕ) := [(9, 9), (11, 13), (32, 32)]

def digit : List (ℕ × ℕ) := [(48, 57)]

def anyByte : List (ℕ × ℕ) := [(0, 255)]

/-- A state in a name of a header that the machine knows, with the next letter of it. -/
def name (c q : ℕ) : List (Edge Action) :=
  [via 58 [.writeField] 22, go (letter c) [] q, go token [] 21]

def value (c q : ℕ) : List (Edge Action) :=
  [via 10 [.writeValue] 20, via 13 [.writeValue] 24, go (letter c) [] q,
    go anyByte [] 23]

def table : Scanner Action :=
  [[], [go xdigit [.mark] 2, via 72 [.mark] 8],
   [via 10 [.chunkSize, .done] 120, via 13 [.chunkSize] 3, go xdigit [] 2, via 59 [.chunkSize] 4],
   [via 10 [.done] 120], [go token [.startField] 5],
   [via 10 [.writeField, .startValue, .writeValue, .done] 120, via 13 [.writeField, .startValue,
    .writeValue] 3, go token [] 5, via 59 [.writeField, .startValue, .writeValue] 4,
    via 61 [.writeField, .startValue] 6], [go token [.startValue] 7],
   [via 10 [.writeValue, .done] 120, via 13 [.writeValue] 3, go token [] 7, via 59 [.writeValue] 4],
   [on 84 9], [on 84 10],
   -- 10
   [on 80 11], [on 47 12], [go digit [] 13], [on 46 14, go digit [] 13], [go digit [] 15],
   [via 32 [.httpVersion] 16, go digit [] 15], [go digit [.mark] 17],
   [via 32 [.statusCode] 18, go digit [] 17], [go [(0, 9), (11, 255)] [.mark] 19],
   [via 10 [.reasonPhrase] 20, via 13 [.reasonPhrase] 24, go anyByte [] 19],
   -- 20
   [via 10 [.done] 120, on 13 3, go (letter 67) [.startField] 25, go (letter 84) [.startField] 44,
    go token [.startField] 21], [go token [] 21, via 58 [.writeField] 22],
   [go blank [.startValue] 22, via 10 [.startValue, .writeValue] 20, via 13 [.startValue,
    .writeValue] 24, go anyByte [.startValue] 23],
   [via 10 [.writeValue] 20, via 13 [.writeValue] 24, go anyByte [] 23], [on 10 20], name 79 26,
   name 78 27,
   [via 58 [.writeField] 22, go (letter 78) [] 28, go (letter 84) [] 101, go token [] 21],
   name 69 29, name 67 30,
   -- 30
   name 84 31, name 73 32, name 79 33, name 78 34, [go token [] 21, via 58 [.writeField] 35],
   [go blank [.startValue] 35, via 10 [.startValue, .writeValue] 36, via 13 [.startValue,
    .writeValue] 95, go (letter 67) [.startValue] 96, go anyByte [.startValue] 23],
   [go blank [] 37, via 10 [.done] 122, on 13 89, go (letter 67) [.startField] 90,
    go (letter 84) [.startField] 44, go token [.startField] 21],
   [go space [] 37, go (letter 67) [] 38], [go (letter 76) [] 39], [go (letter 79) [] 40],
   -- 40
   [go (letter 83) [] 41], [go (letter 69) [] 42], [on 10 43, on 13 88],
   [via 10 [.writeConnectionClose, .done] 120, via 13 [.writeConnectionClose] 3,
    go (letter 67) [.writeConnectionClose, .startField] 25, go (letter 84) [.writeConnectionClose,
    .startField] 44, go token [.writeConnectionClose, .startField] 21], name 82 45, name 65 46,
   name 78 47, name 83 48, name 70 49, name 69 50,
   -- 50
   name 82 51, [on 45 52, via 58 [.writeField] 22, go token [] 21], name 69 53, name 78 54,
   name 67 55, name 79 56, name 68 57, name 73 58, name 78 59, name 71 60,
   -- 60
   [go token [] 21, via 58 [.writeField] 61],
   [go blank [.startValue] 61, via 10 [.startValue, .writeValue] 62, via 13 [.startValue,
    .writeValue] 80, go (letter 67) [.startValue] 81, go anyByte [.startValue] 23],
   [go blank [] 63, via 10 [.done] 121, on 13 72, go (letter 67) [.startValue, .startField] 73,
    go (letter 84) [.startField] 44, go token [.startField] 21],
   [go space [] 63, go (letter 67) [.startValue] 64], [go (letter 72) [] 65],
   [go (letter 85) [] 66], [go (letter 78) [] 67], [go (letter 75) [] 68], [go (letter 69) [] 69],
   [go (letter 68) [] 70],
   -- 70
   [via 10 [.writeValue, .transChunked] 20, via 13 [.writeValue] 71], [via 10 [.transChunked] 20],
   [go spaceButLf [] 63, via 10 [.done] 121, go (letter 67) [.startValue] 64],
   [via 58 [.writeField] 22, go (letter 72) [] 74, go (letter 79) [] 26, go token [] 21],
   name 85 75, name 78 76, name 75 77, name 69 78, name 68 79,
   [via 10 [.writeValue, .transChunked] 20, via 13 [.writeValue] 71, go token [] 21,
    via 58 [.writeField] 22],
   -- 80
   [go spaceButLf [] 63, on 10 62, go (letter 67) [.startValue] 64], value 72 82, value 85 83,
   value 78 84, value 75 85, value 69 86, value 68 87,
   [via 10 [.writeValue, .transChunked] 20, via 13 [.writeValue] 71, go anyByte [] 23], [on 10 43],
   [go spaceButLf [] 37, via 10 [.done] 122, go (letter 67) [] 38],
   -- 90
   [via 58 [.writeField] 22, go (letter 76) [] 91, go (letter 79) [] 26, go token [] 21],
   name 79 92, name 83 93, name 69 94,
   [on 10 43, on 13 88, go token [] 21, via 58 [.writeField] 22],
   [go spaceButLf [] 37, on 10 36, go (letter 67) [] 38], value 76 97, value 79 98, value 83 99,
   value 69 100,
   -- 100
   [via 10 [.writeValue] 43, via 13 [.writeValue] 88, go anyByte [] 23], name 69 102, name 78 103,
   name 84 104, [on 45 105, via 58 [.writeField] 22, go token [] 21], name 76 106, name 69 107,
   name 78 108, name 71 109, name 84 110,
   -- 110
   name 72 111, [go token [] 21, via 58 [.writeField] 112],
   [go blank [.startValue] 112, via 10 [.startValue, .writeValue] 113, via 13 [.startValue,
    .writeValue] 118, go digit [.startValue] 119, go anyByte [.startValue] 23],
   [go blank [] 114, via 10 [.done] 123, on 13 116, go digit [.startValue, .startField] 117,
    go (letter 67) [.startField] 25, go (letter 84) [.startField] 44, go token [.startField] 21],
   [go space [] 114, go digit [.startValue] 115],
   [via 10 [.writeContentLen, .writeValue] 20, via 13 [.writeContentLen, .writeValue] 24,
    go digit [] 115], [go spaceButLf [] 114, via 10 [.done] 123, go digit [.startValue] 115],
   [via 10 [.writeContentLen, .writeValue] 20, via 13 [.writeContentLen, .writeValue] 24,
    go digit [] 117, via 58 [.writeField] 22, go token [] 21],
   [go spaceButLf [] 114, on 10 113, go digit [.startValue] 115],
   [via 10 [.writeContentLen, .writeValue] 20, via 13 [.writeContentLen, .writeValue] 24,
    go digit [] 119, go anyByte [] 23],
   -- 120
   [], [go space [] 63, go (letter 67) [.startValue] 64], [go space [] 37, go (letter 67) [] 38],
   [go space [] 114, go digit [.startValue] 115]]

end JKYi.Http.ResponseMachine
