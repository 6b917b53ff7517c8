import JKYi.ByteArray.Typed
import JKYi.Http2.DynamicTable
import JKYi.Http2.HuffmanDecode

/-!
# Packing and parsing header lists

`HPack` writes header fields to a `ByteArray` and reads them back, against a
table that it only refers to. Its state here is the table together with
`m_headers`; the array is the second component of the state of a run.
-/

namespace JKYi.Http2

open JKYi.ByteArray

inductive IndexType where
  | indexed
  | withIndexingIndexedName
  | withIndexingNewName
  | withoutIndexingIndexedName
  | withoutIndexingNewName
  | nerverIndexedIndexedName
  | nerverIndexedNewName
  | error
  deriving DecidableEq, Repr

structure HeaderField where
  type : IndexType := .error
  hName : Bool := false
  hValue : Bool := false
  index : ℕ := 0
  name : List UInt8 := []
  value : List UInt8 := []
  deriving DecidableEq, Repr

def HeaderField.pair (h : HeaderField) : Entry := (h.name, h.value)

structure HPack where
  table : DynamicTable
  headers : List HeaderField

namespace HPack

/-- The bytes of an integer behind its first one. A continuation is marked with `0x8`. -/
def writeVarIntRest (value : ℕ) : Run Exn ByteArray Unit :=
  if value < 128 then writeFuint8 (UInt8.ofNat value)
  else do
    writeFuint8 (UInt8.ofNat (0x8 ||| (value &&& 0x7f)))
    writeVarIntRest (value >>> 7)
termination_by value
decreasing_by
  rw [Nat.shiftRight_eq_div_pow]
  omega

/-- `WriteVarInt(ba, prefix, value, flags)`. -/
def writeVarInt (pre value : ℕ) (flags : UInt8) : Run Exn ByteArray ℤ := do
  let pos := (← Run.get).getPosition
  if value < 2 ^ pre - 1 then
    writeFuint8 (UInt8.ofNat value ||| flags)
    pure 1
  else
    writeFuint8 (UInt8.ofNat (2 ^ pre - 1) ||| flags)
    writeVarIntRest (value - (2 ^ pre - 1))
    pure (intOfSize ((← Run.get).getPosition - pos))

/-- The loop of `ReadVarInt`. After ten bytes the shift is wider than the word. -/
def readVarIntRest : ℕ → ℕ → ℕ → Run Exn ByteArray ℕ
  | 0, _, _ => do
    let _ ← readFuint8
    Run.crash
  | rounds + 1, m, iv => do
    let b ← readFuint8
    let iv := (iv + (b &&& 0x7f).toNat <<< m) % 2 ^ 64
    if b &&& 0x80 ≠ 0 then readVarIntRest rounds (m + 7) iv else pure iv

/-- `ReadVarInt(ba, b, prefix)`. -/
def readVarInt (b : UInt8) (pre : ℕ) : Run Exn ByteArray ℕ :=
  let v := UInt8.ofNat (2 ^ pre - 1)
  if b &&& v < v then pure (b &&& v).toNat else readVarIntRest 10 0 v.toNat

/-- `ReadVarInt(ba, prefix)`, which also reads the first byte. -/
def readVarIntAt (pre : ℕ) : Run Exn ByteArray ℕ := do
  let b ← readFuint8
  let v := UInt8.ofNat (2 ^ pre - 1)
  if b &&& v < v then pure (b &&& v).toNat else readVarIntRest 10 0 (b &&& v).toNat

/-- `data.resize(len)` and `ba->read(&data[0], len)`. -/
def resizeAndRead (len : ℤ) : Run Exn ByteArray (List UInt8) :=
  readResized (len % 2 ^ 64).toNat

def readContent (ask : ℤ → Run Exn ByteArray (List UInt8)) (type : UInt8) (len : ℤ) :
    Run Exn ByteArray (List UInt8) :=
  if len = 0 then pure []
  else do
    let data ← ask len
    if type &&& 0x80 ≠ 0 then
      let (_, out) ← decodeString data
      pure out
    else pure data

/-- `ReadString` up to how it asks for `len` bytes. -/
def readStringBy (ask : ℤ → Run Exn ByteArray (List UInt8)) : Run Exn ByteArray (List UInt8) := do
  let type ← readFuint8
  let len ← readVarInt type 7
  readContent ask type (intOfSize len)

def readString : Run Exn ByteArray (List UInt8) := readStringBy resizeAndRead

def cStr (s : List UInt8) (n : ℕ) : Option (List UInt8) :=
  if n ≤ s.length + 1 then some ((s ++ [0]).take n) else none

def writeString (str : List UInt8) (h : Bool) : Run Exn ByteArray ℤ := do
  let pos := (← Run.get).getPosition
  if h then
    let (_, newStr) ← encodeString str [] 0
    let _ ← writeVarInt 7 newStr.length 0x80
    match cStr newStr str.length with
    | none => Run.crash
    | some buf => ByteArray.write buf
  else
    let _ ← writeVarInt 7 str.length 0
    ByteArray.write str
  pure (intOfSize ((← Run.get).getPosition - pos))

def readStrings (type : IndexType) (idx : ℕ) : Run Exn ByteArray HeaderField :=
  if idx ≠ 0 then do
    let value ← readString
    pure { type := type, index := idx, value := value }
  else do
    let name ← readString
    let value ← readString
    pure { type := type, index := idx, name := name, value := value }

def readLiteral (b : UInt8) (pre : ℕ) (indexedName newName : IndexType) :
    Run Exn ByteArray HeaderField := do
  let idx ← readVarInt b pre
  readStrings (if 0 < idx % 2 ^ 32 then indexedName else newName) (idx % 2 ^ 32)

/-- The branches of `parse` on the first byte of a representation; `none` is `return -1`. -/
def readRepresentation (type : UInt8) : Run Exn ByteArray (Option HeaderField) :=
  if type &&& 0x80 ≠ 0 then do
    let idx ← readVarInt type 7
    pure (some { type := .indexed, index := idx % 2 ^ 32 })
  else if type &&& 0x40 ≠ 0 then
    some <$> readLiteral type 6 .withIndexingIndexedName .withIndexingNewName
  else if type &&& 0xF0 = 0 then
    some <$> readLiteral type 4 .withoutIndexingIndexedName .withoutIndexingNewName
  else if type &&& 0x10 ≠ 0 then
    some <$> readLiteral type 4 .nerverIndexedIndexedName .nerverIndexedNewName
  else pure none

def readField : Run Exn ByteArray (Option HeaderField) := do
  let type ← readFuint8
  readRepresentation type

/-- What `parse` takes from the table: with an indexed name, the value only. -/
def resolve (table : DynamicTable) (header : HeaderField) : HeaderField :=
  if header.type = .indexed then
    { header with name := (table.getPair header.index).1, value := (table.getPair header.index).2 }
  else if 0 < header.index then { header with value := (table.getPair header.index).2 }
  else header

def store (table : DynamicTable) (header : HeaderField) : Option DynamicTable :=
  match header.type with
  | .withIndexingIndexedName => table.update (table.getName header.index) header.value
  | .withIndexingNewName => table.update header.name header.value
  | _ => some table

def acceptField (header : HeaderField) : Run Exn (HPack × ByteArray) Unit := fun (hp, ba) =>
  let header := resolve hp.table header
  match store hp.table header with
  | none => .crash
  | some table => .ok () (⟨table, hp.headers ++ [header]⟩, ba)

/-- The loop of `parse`. A round reads a byte or throws, so there are at most as many
rounds as there are bytes. -/
def parseLoop (pos length : ℤ) : ℕ → ℤ → Run Exn (HPack × ByteArray) ℤ
  | 0, _ => Run.crash
  | rounds + 1, parsed =>
    if parsed < length then do
      match ← Run.onSnd readField with
      | none => pure (-1)
      | some header =>
        acceptField header
        let (_, ba) ← Run.get
        parseLoop pos length rounds ((ba.getPosition - pos).bmod (2 ^ 32))
    else pure parsed

def parse (length : ℤ) : Run Exn (HPack × ByteArray) ℤ := do
  let (_, ba) ← Run.get
  parseLoop (intOfSize ba.getPosition) length (ba.getReadSize + 1) 0

/-- `~ByteArray` deletes the bytes of every node, whatever `m_owner` says; `fromNew` is whether
those of the root come from `new char[]`. -/
def destroy (fromNew : Bool) : Run Exn HPack Unit := if fromNew then pure () else Run.crash

/-- The array over the bytes of a string goes, on a return or a throw. -/
def dropWrapped : Outcome Exn (HPack × ByteArray) ℤ → Outcome Exn HPack ℤ
  | .ok parsed (hp, _) => (do destroy false; pure parsed) hp
  | .raised e (hp, _) => (do destroy false; Run.throw e) hp
  | .crash => .crash

/-- `parse(std::string&)`. -/
def parseString (data : List UInt8) (heap : ℕ → UInt8) : Run Exn HPack ℤ := fun hp =>
  dropWrapped (parse (intOfSize data.length) (hp, ByteArray.wrap data heap))

theorem dropWrapped_eq (o : Outcome Exn (HPack × ByteArray) ℤ) : dropWrapped o = .crash := by
  cases o <;> rfl

theorem parseString_crash (data : List UInt8) (heap : ℕ → UInt8) (hp : HPack) :
    parseString data heap hp = .crash :=
  dropWrapped_eq _

def packBody (header : HeaderField) : Run Exn ByteArray Unit :=
  match header.type with
  | .indexed => discard (writeVarInt 7 header.index 0x80)
  | .withIndexingIndexedName => do
    discard (writeVarInt 6 header.index 0x40)
    discard (writeString header.value header.hValue)
  | .withIndexingNewName => do
    discard (writeVarInt 6 header.index 0x40)
    discard (writeString header.name header.hName)
    discard (writeString header.value header.hValue)
  | .withoutIndexingIndexedName => do
    discard (writeVarInt 4 header.index 0x00)
    discard (writeString header.value header.hValue)
  | .withoutIndexingNewName => do
    discard (writeVarInt 4 header.index 0x00)
    discard (writeString header.name header.hName)
    discard (writeString header.value header.hValue)
  | .nerverIndexedIndexedName => do
    discard (writeVarInt 4 header.index 0x10)
    discard (writeString header.value header.hValue)
  | .nerverIndexedNewName => do
    discard (writeVarInt 4 header.index 0x10)
    discard (writeString header.name header.hName)
    discard (writeString header.value header.hValue)
  | .error => pure ()

def packField (header : HeaderField) : Run Exn ByteArray ℤ := do
  let pos := (← Run.get).getPosition
  packBody header
  pure (intOfSize ((← Run.get).getPosition - pos))

def packHeader (header : HeaderField) : Run Exn (HPack × ByteArray) ℤ := do
  let (hp, ba) ← Run.get
  Run.set ({ hp with headers := hp.headers ++ [header] }, ba)
  Run.onSnd (packField header)

/-- How `pack` represents a header, and the table after it. An index of -1 counts as found. -/
def classify (table : DynamicTable) (e : Entry) : Option (HeaderField × DynamicTable) :=
  (table.findPair e.1 e.2).bind fun p =>
    if p.2 then some ({ type := .indexed, index := (p.1 % 2 ^ 32).toNat }, table)
    else if p.1 ≠ 0 then
      (shouldEncode e.2).bind fun hValue =>
        (table.update e.1 e.2).map fun table =>
          ({ type := .withIndexingIndexedName, index := (p.1 % 2 ^ 32).toNat, hValue := hValue,
             name := e.1, value := e.2 }, table)
    else
      (shouldEncode e.1).bind fun hName =>
        (shouldEncode e.2).bind fun hValue =>
          (table.update e.1 e.2).map fun table =>
            ({ type := .withIndexingNewName, hName := hName, hValue := hValue,
               name := e.1, value := e.2 }, table)

def packLoop : List Entry → ℤ → Run Exn (HPack × ByteArray) ℤ
  | [], rt => pure rt
  | e :: es, rt => do
    let (hp, ba) ← Run.get
    match classify hp.table e with
    | none => Run.crash
    | some (header, table) =>
      Run.set ({ hp with table := table }, ba)
      let len ← packHeader header
      match checkedInt (rt + len) with
      | none => Run.crash
      | some rt => packLoop es rt

def pack (headers : List Entry) (heap : ℕ → UInt8) : Run Exn HPack (ℤ × List UInt8) :=
  Run.withLocal (ByteArray.create 4096 heap) do
    let rt ← packLoop headers 0
    Run.onSnd (setPosition 0)
    let out ← Run.onSnd toString
    pure (rt, out)

end HPack
end JKYi.Http2
