import JKYi.Foundation.Bytes
import JKYi.ByteArray.Operations

/-!
# Typed writers and readers

Integers are stored with a fixed width in the configured byte order, or with a
variable width of seven bits a byte, signed ones after a zigzag map. Strings
are stored behind their length. Floating point numbers are their bit patterns.
-/

namespace JKYi

def encodeZigzag32 (val : Int32) : UInt32 :=
  if val < 0 then (-val).toUInt32 * 2 - 1 else (val * 2).toUInt32

def encodeZigzag64 (val : Int64) : UInt64 :=
  if val < 0 then (-val).toUInt64 * 2 - 1 else (val * 2).toUInt64

def decodeZigzag32 (val : UInt32) : Int32 := ((val >>> 1) ^^^ -(val &&& 1)).toInt32

def decodeZigzag64 (val : UInt64) : Int64 := ((val >>> 1) ^^^ -(val &&& 1)).toInt64

namespace ByteArray

def writeFixed (k n : ℕ) : Run Exn ByteArray Unit := do
  let ba ← Run.get
  let val := if ba.endian ≠ hostByteOrder then byteswap k n else n
  write (leBytes k val)

def writeFint8 (val : Int8) : Run Exn ByteArray Unit := write (leBytes 1 val.toUInt8.toNat)

def writeFuint8 (val : UInt8) : Run Exn ByteArray Unit := write (leBytes 1 val.toNat)

def writeFint16 (val : Int16) : Run Exn ByteArray Unit := writeFixed 2 val.toUInt16.toNat

def writeFuint16 (val : UInt16) : Run Exn ByteArray Unit := writeFixed 2 val.toNat

def writeFint32 (val : Int32) : Run Exn ByteArray Unit := writeFixed 4 val.toUInt32.toNat

def writeFuint32 (val : UInt32) : Run Exn ByteArray Unit := writeFixed 4 val.toNat

def writeFint64 (val : Int64) : Run Exn ByteArray Unit := writeFixed 8 val.toUInt64.toNat

def writeFuint64 (val : UInt64) : Run Exn ByteArray Unit := writeFixed 8 val.toNat

def writeUint32 (val : UInt32) : Run Exn ByteArray Unit := write (varintBytes val.toNat)

def writeInt32 (val : Int32) : Run Exn ByteArray Unit := writeUint32 (encodeZigzag32 val)

def writeUint64 (val : UInt64) : Run Exn ByteArray Unit := write (varintBytes val.toNat)

def writeInt64 (val : Int64) : Run Exn ByteArray Unit := writeUint64 (encodeZigzag64 val)

def writeFloat (bits : UInt32) : Run Exn ByteArray Unit := writeFuint32 bits

def writeDouble (bits : UInt64) : Run Exn ByteArray Unit := writeFuint64 bits

def writeStringF16 (value : List UInt8) : Run Exn ByteArray Unit := do
  writeFuint16 (UInt16.ofNat value.length)
  write value

def writeStringF32 (value : List UInt8) : Run Exn ByteArray Unit := do
  writeFuint32 (UInt32.ofNat value.length)
  write value

def writeStringF64 (value : List UInt8) : Run Exn ByteArray Unit := do
  writeFuint64 (UInt64.ofNat value.length)
  write value

def writeStringVint (value : List UInt8) : Run Exn ByteArray Unit := do
  writeUint64 (UInt64.ofNat value.length)
  write value

def readFixed (k : ℕ) : Run Exn ByteArray ℕ := do
  let val ← read k
  let ba ← Run.get
  pure (if ba.endian ≠ hostByteOrder then byteswap k (ofLeBytes val) else ofLeBytes val)

def readFint8 : Run Exn ByteArray Int8 := do
  let val ← read 1
  pure (UInt8.ofNat (ofLeBytes val)).toInt8

def readFuint8 : Run Exn ByteArray UInt8 := do
  let val ← read 1
  pure (UInt8.ofNat (ofLeBytes val))

def readFint16 : Run Exn ByteArray Int16 := do pure (UInt16.ofNat (← readFixed 2)).toInt16

def readFuint16 : Run Exn ByteArray UInt16 := do pure (UInt16.ofNat (← readFixed 2))

def readFint32 : Run Exn ByteArray Int32 := do pure (UInt32.ofNat (← readFixed 4)).toInt32

def readFuint32 : Run Exn ByteArray UInt32 := do pure (UInt32.ofNat (← readFixed 4))

def readFint64 : Run Exn ByteArray Int64 := do pure (UInt64.ofNat (← readFixed 8)).toInt64

def readFuint64 : Run Exn ByteArray UInt64 := do pure (UInt64.ofNat (← readFixed 8))

/-- The loop of `readUint32` and `readUint64` over a `w` bit result, with the
number of rounds that `i += 7` leaves before `i` reaches `w`. -/
def readVarint (w : ℕ) : ℕ → ℕ → ℕ → Run Exn ByteArray ℕ
  | 0, _, result => pure result
  | rounds + 1, i, result => do
    let val ← readFuint8
    if val < 0x80 then pure (result ||| (val.toNat <<< i) % 2 ^ w)
    else readVarint w rounds (i + 7) (result ||| ((val &&& 0x7f).toNat <<< i) % 2 ^ w)

def readUint32 : Run Exn ByteArray UInt32 := do pure (UInt32.ofNat (← readVarint 32 5 0 0))

def readInt32 : Run Exn ByteArray Int32 := do pure (decodeZigzag32 (← readUint32))

def readUint64 : Run Exn ByteArray UInt64 := do pure (UInt64.ofNat (← readVarint 64 10 0 0))

def readInt64 : Run Exn ByteArray Int64 := do pure (decodeZigzag64 (← readUint64))

def readFloat : Run Exn ByteArray UInt32 := readFuint32

def readDouble : Run Exn ByteArray UInt64 := readFuint64

def stringMaxSize : ℕ := 2 ^ 63 - 1

def readResized (len : ℕ) : Run Exn ByteArray (List UInt8) :=
  if stringMaxSize < len then Run.throw (.lengthError "basic_string::_M_replace_aux")
  else read len

def readStringF16 : Run Exn ByteArray (List UInt8) := do
  let len ← readFuint16
  readResized len.toNat

def readStringF32 : Run Exn ByteArray (List UInt8) := do
  let len ← readFuint32
  readResized len.toNat

def readStringF64 : Run Exn ByteArray (List UInt8) := do
  let len ← readFuint64
  readResized len.toNat

def readStringVint : Run Exn ByteArray (List UInt8) := do
  let len ← readUint64
  readResized len.toNat

end ByteArray

/-! The 32 and 64 bit maps are the generic ones. -/

theorem encodeZigzag32_eq (val : Int32) :
    encodeZigzag32 val = UInt32.ofBitVec (zigzag val.toBitVec) :=
  (apply_ite UInt32.ofBitVec _ _ _).symm

theorem encodeZigzag64_eq (val : Int64) :
    encodeZigzag64 val = UInt64.ofBitVec (zigzag val.toBitVec) :=
  (apply_ite UInt64.ofBitVec _ _ _).symm

theorem decode_encodeZigzag32 (val : Int32) : decodeZigzag32 (encodeZigzag32 val) = val := by
  apply Int32.toBitVec_inj.mp
  rw [encodeZigzag32_eq]
  exact unzigzag_zigzag (by simp) val.toBitVec

theorem decode_encodeZigzag64 (val : Int64) : decodeZigzag64 (encodeZigzag64 val) = val := by
  apply Int64.toBitVec_inj.mp
  rw [encodeZigzag64_eq]
  exact unzigzag_zigzag (by simp) val.toBitVec

end JKYi
