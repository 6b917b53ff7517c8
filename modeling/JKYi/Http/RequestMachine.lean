import JKYi.Foundation.Scanner

/-!
# The machine of request heads

The machine that is generated from `http11_parser.rl`, state by state. Ragel reads `0 - 31` as a
difference, so that the names of header fields may have control characters, line ends included.
-/

namespace JKYi.Http.RequestMachine

open Scanner

inductive Action where
  | mark
  | startField
  | writeField
  | startValue
  | writeValue
  | requestMethod
  | requestUri
  | fragment
  | startQuery
  | queryString
  | httpVersion
  | requestPath
  | done
  | xml
  | json
  deriving DecidableEq

/-- `done` has an `fbreak`. -/
def stops (a : Action) : Bool := a == .done

def start : ℕ := 1

def firstFinal : ℕ := 348

def xdigit : List (ℕ × ℕ) := [(48, 57), (65, 70), (97, 102)]

def upperDigit : List (ℕ × ℕ) := [(48, 57), (65, 90)]

def moreDelims : List (ℕ × ℕ) := [(94, 94), (123, 123), (125, 125)]

def userinfo : List (ℕ × ℕ) :=
  [(33, 33), (36, 36), (38, 46), (48, 59), (61, 61), (65, 90), (95, 95), (97, 122), (126, 126)]

def queryChar : List (ℕ × ℕ) :=
  [(33, 33), (36, 36), (38, 59), (61, 61), (63, 90), (95, 95), (97, 122), (126, 126), (128, 255)]

def segmentNzNc : List (ℕ × ℕ) :=
  [(33, 33), (36, 36), (38, 46), (48, 57), (59, 59), (61, 61), (64, 90), (95, 95), (97, 122),
    (126, 126)]

def pchar : List (ℕ × ℕ) :=
  [(33, 33), (36, 36), (38, 46), (48, 59), (61, 61), (64, 90), (95, 95), (97, 122), (126, 126),
    (128, 255)]

def token : List (ℕ × ℕ) :=
  [(33, 33), (35, 39), (42, 43), (45, 46), (48, 57), (65, 90), (94, 122), (124, 124), (126, 126)]

/-! Edges without actions. -/

def hex (target : ℕ) : Edge Action := go xdigit [] target

def hexLetter (target : ℕ) : Edge Action := go [(65, 70), (97, 102)] [] target

def digit (target : ℕ) : Edge Action := go [(48, 57)] [] target

def otherDigit (target : ℕ) : Edge Action := go [(48, 48), (51, 57)] [] target

/-- The edges on which a path ends. -/
def pathEnd : List (Edge Action) :=
  [via 32 [.requestPath, .requestUri] 4, via 35 [.requestPath, .requestUri] 20]

/-- The part of the machine behind the bracket of an address, but for the state 61 in which the
bracket is closed. -/
def literalHead : Scanner Action :=
  [[on 6 48, hex 91, on 58 167, on 118 169], [hex 49], [hex 50, on 58 53],
   -- 50
   [hex 51, on 58 53], [hex 52, on 58 53], [on 58 53],
   [otherDigit 54, on 49 84, on 50 87, hexLetter 90], [on 46 55, hex 77, on 58 80],
   [otherDigit 56, on 49 72, on 50 74], [on 46 57], [otherDigit 58, on 49 67, on 50 69], [on 46 59],
   [otherDigit 60, on 49 62, on 50 64],
   -- 60
   [on 93 61]]

def literalTail : Scanner Action :=
  [[digit 63, on 93 61], [digit 60, on 93 61], [on 48 65, on 53 66, on 93 61], [digit 60],
   [on 48 60], [on 46 59, digit 68], [on 46 59, digit 58], [on 46 59, on 48 70, on 53 71],
   -- 70
   [digit 58], [on 48 58], [on 46 57, digit 73], [on 46 57, digit 56],
   [on 46 57, on 48 75, on 53 76], [digit 56], [on 48 56], [hex 78, on 58 80], [hex 79, on 58 80],
   [on 58 80],
   -- 80
   [hex 81], [hex 82, on 93 61], [hex 83, on 93 61], [hex 60, on 93 61],
   [on 46 55, digit 85, on 58 80, hexLetter 77], [on 46 55, digit 86, on 58 80, hexLetter 78],
   [on 46 55, hex 79, on 58 80], [on 46 55, on 48 88, on 53 89, on 58 80, hex 77],
   [digit 86, on 58 80, hexLetter 78], [on 48 86, on 58 80, hex 78],
   -- 90
   [hex 77, on 58 80], [hex 92, on 58 95], [hex 93, on 58 95], [hex 94, on 58 95], [on 58 95],
   [hex 96, on 58 166], [hex 97, on 58 100], [hex 98, on 58 100], [hex 99, on 58 100], [on 58 100],
   -- 100
   [hex 101, on 58 165], [hex 102, on 58 105], [hex 103, on 58 105], [hex 104, on 58 105],
   [on 58 105], [hex 106, on 58 164], [hex 107, on 58 110], [hex 108, on 58 110],
   [hex 109, on 58 110], [on 58 110],
   -- 110
   [hex 111, on 58 163], [hex 112, on 58 115], [hex 113, on 58 115], [hex 114, on 58 115],
   [on 58 115], [hex 116, on 58 151], [hex 117, on 58 120], [hex 118, on 58 120],
   [hex 119, on 58 120], [on 58 120],
   -- 120
   [hex 121, on 58 150], [hex 122, on 58 125], [hex 123, on 58 125], [hex 124, on 58 125],
   [on 58 125], [hex 121, on 58 126],
   [go [(2, 3)] [] 48, otherDigit 127, on 49 143, on 50 146, hexLetter 149, on 93 61],
   [on 46 55, hex 128, on 58 131, on 93 61], [hex 129, on 58 131, on 93 61],
   [hex 130, on 58 131, on 93 61],
   -- 130
   [on 58 131, on 93 61], [otherDigit 132, on 49 136, on 50 139, hexLetter 142],
   [on 46 55, hex 133, on 58 80, on 93 61], [hex 134, on 58 80, on 93 61],
   [hex 135, on 58 80, on 93 61], [on 58 80, on 93 61],
   [on 46 55, digit 137, on 58 80, hexLetter 133, on 93 61],
   [on 46 55, digit 138, on 58 80, hexLetter 134, on 93 61],
   [on 46 55, hex 135, on 58 80, on 93 61],
   [on 46 55, on 48 140, on 53 141, on 58 80, on 93 61, hex 133],
   -- 140
   [digit 138, on 58 80, hexLetter 134, on 93 61], [on 48 138, on 58 80, on 93 61, hex 134],
   [hex 133, on 58 80, on 93 61], [on 46 55, digit 144, on 58 131, hexLetter 128, on 93 61],
   [on 46 55, digit 145, on 58 131, hexLetter 129, on 93 61],
   [on 46 55, hex 130, on 58 131, on 93 61],
   [on 46 55, on 48 147, on 53 148, on 58 131, on 93 61, hex 128],
   [digit 145, on 58 131, hexLetter 129, on 93 61], [on 48 145, on 58 131, on 93 61, hex 129],
   [hex 128, on 58 131, on 93 61],
   -- 150
   [go [(2, 3)] [] 48, otherDigit 127, on 49 143, on 50 146, hexLetter 149],
   [go [(2, 3)] [] 48, otherDigit 152, on 49 156, on 50 159, hexLetter 162],
   [on 46 55, hex 153, on 58 131], [hex 154, on 58 131], [hex 155, on 58 131], [on 58 131],
   [on 46 55, digit 157, on 58 131, hexLetter 153], [on 46 55, digit 158, on 58 131, hexLetter 154],
   [on 46 55, hex 155, on 58 131], [on 46 55, on 48 160, on 53 161, on 58 131, hex 153],
   -- 160
   [digit 158, on 58 131, hexLetter 154], [on 48 158, on 58 131, hex 154], [hex 153, on 58 131],
   [go [(2, 3)] [] 48, hex 49], [go [(2, 3)] [] 48], [on 3 48], [on 4 48], [on 58 168],
   [go [(2, 5)] [] 48, otherDigit 127, on 49 143, on 50 146, hexLetter 149, on 93 61], [hex 170],
   -- 170
   [on 46 171, hex 170], [go userinfo [] 172, goIf moreDelims [] 172],
   [go userinfo [] 172, on 93 61, goIf moreDelims [] 172]]

/-- The same rows `k` states further on. -/
def shifted (k : ℕ) (rows : Scanner Action) : Scanner Action :=
  rows.map fun row => row.map fun e => { e with target := e.target + k }

/-- The states 222 to 347 are those of a second address. -/
def table : Scanner Action :=
  [[], [go upperDigit [.mark] 2, via 60 [.mark] 194, via 64 [.mark] 198],
   [via 32 [.requestMethod] 3, go upperDigit [] 175],
   [via 32 [.mark, .requestPath, .requestUri] 4, via 35 [.mark, .requestPath, .requestUri] 20,
    via 37 [.mark] 24, via 47 [.mark] 33, via 63 [.mark, .requestPath] 29, go [(65, 90), (97,
    122)] [.mark] 173, goIf moreDelims [.mark] 19, go segmentNzNc [.mark] 19], [via 72 [.mark] 5],
   [on 84 6], [on 84 7], [on 80 8], [on 47 9], [on 49 10],
   -- 10
   [on 46 11], [go [(48, 49)] [] 12], [via 10 [.httpVersion] 13, via 13 [.httpVersion] 17],
   [go ([(1, 8), (11, 12), (14, 31)] ++ token) [.startField] 14, via 10 [.startField, .done] 348,
    via 13 [.startField] 18], [go ([(1, 8), (10, 31)] ++ token) [] 14, via 58 [.writeField] 15],
   [go [(1, 8), (11, 12), (14, 31), (33, 126), (128, 255)] [.startValue] 16, go [(9, 9), (32,
    32)] [.startValue] 15, via 10 [.startValue, .writeValue] 13, via 13 [.startValue,
    .writeValue] 17],
   [go [(1, 9), (11, 12), (14, 126), (128, 255)] [] 16, via 10 [.writeValue] 13,
    via 13 [.writeValue] 17], [on 10 13],
   [go ([(1, 8), (11, 31)] ++ token) [] 14, via 10 [.done] 348, via 58 [.writeField] 15],
   [via 32 [.requestPath, .requestUri] 4, go segmentNzNc [] 19, via 35 [.requestPath,
    .requestUri] 20, on 37 24, on 47 26, via 63 [.requestPath] 29, goIf moreDelims [] 19],
   -- 20
   [via 32 [.mark, .fragment] 4, go queryChar [.mark] 21, via 37 [.mark] 22,
    goIf moreDelims [.mark] 21],
   [via 32 [.fragment] 4, go queryChar [] 21, on 37 22, goIf moreDelims [] 21], [hex 23], [hex 21],
   [hex 25], [hex 19],
   pathEnd ++ [on 37 27, via 63 [.requestPath] 29, goIf moreDelims [] 26, go queryChar [] 26],
   [hex 28], [hex 26],
   [via 32 [.startQuery, .queryString, .requestUri] 4, go queryChar [.startQuery] 30,
    via 35 [.startQuery, .queryString, .requestUri] 20, via 37 [.startQuery] 31,
    goIf moreDelims [.startQuery] 30],
   -- 30
   [via 32 [.queryString, .requestUri] 4, go queryChar [] 30, via 35 [.queryString,
    .requestUri] 20, on 37 31, goIf moreDelims [] 30], [hex 32], [hex 30],
   pathEnd ++ [on 37 27, on 47 34, via 63 [.requestPath] 29, goIf moreDelims [] 26,
    go queryChar [] 26],
   pathEnd ++ [on 37 36, on 47 26, on 58 38, via 63 [.requestPath] 29, on 64 42, on 91 47,
    goIf moreDelims [] 35, go userinfo [] 35],
   pathEnd ++ [on 37 36, on 47 26, on 58 38, via 63 [.requestPath] 29, on 64 42,
    goIf moreDelims [] 35, go userinfo [] 35], [hex 37], [hex 35],
   pathEnd ++ [on 37 40, on 47 26, digit 38, via 63 [.requestPath] 29, on 64 42,
    goIf moreDelims [] 39, go userinfo [] 39],
   [go userinfo [] 39, on 37 40, on 64 42, goIf moreDelims [] 39],
   -- 40
   [hex 41], [hex 39],
   pathEnd ++ [on 37 44, on 47 26, on 58 46, via 63 [.requestPath] 29, on 91 47,
    goIf moreDelims [] 43, go userinfo [] 43],
   pathEnd ++ [on 37 44, on 47 26, on 58 46, via 63 [.requestPath] 29, goIf moreDelims [] 43,
    go userinfo [] 43], [hex 45], [hex 43],
   pathEnd ++ [on 47 26, digit 46, via 63 [.requestPath] 29]] ++
  literalHead ++
  [pathEnd ++ [on 47 26, on 58 46, via 63 [.requestPath] 29]] ++
  literalTail ++
  [pathEnd ++ [on 37 24, go [(43, 43), (45, 46), (48, 57), (65, 90), (97, 122)] [] 173, on 47 26,
    on 58 174, via 63 [.requestPath] 29, goIf moreDelims [] 19, go segmentNzNc [] 19],
   [via 32 [.mark, .requestPath, .requestUri] 4, via 35 [.mark, .requestPath, .requestUri] 20,
    via 37 [.mark] 27, via 47 [.mark] 33, via 63 [.mark, .requestPath] 29,
    goIf moreDelims [.mark] 26, go queryChar [.mark] 26]] ++
  (List.range 18).map (fun i => [via 32 [.requestMethod] 3, go upperDigit [] (176 + i)]) ++
  [[via 32 [.requestMethod] 3], [go [(45, 46), (48, 57), (65, 90), (97, 122)] [] 195],
   [go [(9, 13), (32, 32), (47, 47), (62, 62)] [.requestPath] 196, go [(45, 46), (48, 57), (65,
    90), (97, 122)] [] 195], [go [(0, 61), (63, 255)] [] 196, on 62 197],
   [via 0 [.xml, .done] 349, go [(1, 61), (63, 255)] [] 196, on 62 197],
   [via 32 [.requestPath] 199, go segmentNzNc [] 202, on 37 203, on 47 208, goIf moreDelims [] 202],
   [via 123 [.mark] 200],
   -- 200
   [go [(0, 124), (126, 255)] [] 200, on 125 201],
   [via 0 [.json, .done] 349, go [(1, 124), (126, 255)] [] 200, on 125 201],
   [via 32 [.requestPath] 199, go segmentNzNc [] 202, on 37 203, on 47 205, goIf moreDelims [] 202],
   [hex 204], [hex 202],
   [via 32 [.requestPath] 199, go [(33, 33), (36, 36), (38, 59), (61, 61), (64, 90), (95, 95), (97,
    122), (126, 126), (128, 255)] [] 205, on 37 206, goIf moreDelims [] 205], [hex 207], [hex 205],
   [via 32 [.requestPath] 199, go pchar [] 205, on 37 206, on 47 209, goIf moreDelims [] 205],
   [via 32 [.requestPath] 199, on 37 211, on 47 205, on 58 213, on 64 217, on 91 222,
    goIf moreDelims [] 210, go userinfo [] 210],
   -- 210
   [via 32 [.requestPath] 199, on 37 211, on 47 205, on 58 213, on 64 217, goIf moreDelims [] 210,
    go userinfo [] 210], [hex 212], [hex 210],
   [via 32 [.requestPath] 199, on 37 215, on 47 205, digit 213, on 64 217, goIf moreDelims [] 214,
    go userinfo [] 214], [go userinfo [] 214, on 37 215, on 64 217, goIf moreDelims [] 214],
   [hex 216], [hex 214],
   [via 32 [.requestPath] 199, on 37 219, on 47 205, on 58 221, on 91 222, goIf moreDelims [] 218,
    go userinfo [] 218],
   [via 32 [.requestPath] 199, on 37 219, on 47 205, on 58 221, goIf moreDelims [] 218,
    go userinfo [] 218], [hex 220],
   -- 220
   [hex 218], [via 32 [.requestPath] 199, on 47 205, digit 221]] ++
  shifted 175 literalHead ++
  [[via 32 [.requestPath] 199, on 47 205, on 58 221]] ++
  shifted 175 literalTail ++
  [[go ([(1, 8), (10, 31)] ++ token) [] 14, via 58 [.writeField] 15], []]

end JKYi.Http.RequestMachine
