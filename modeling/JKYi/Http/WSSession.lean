import JKYi.Stream.BufferStream

/-!
# Websocket messages

`WSSendMessage`, `WSPing`, `WSPong` and `WSRecvMessage`. A frame starts with two
bytes of bit fields; the length of the payload follows in two or eight bytes
where seven bits are not enough, then the key of the mask, then the payload. The
functions leave their `do { .. } while` by `break`, which closes the stream:
here a `break` is raised and caught at the end.
-/

namespace JKYi.Http

/-- `WSFrameHead::OPCODE`. -/
inductive WSOpcode where
  | cont
  | textFrame
  | binFrame
  | close
  | ping
  | pong
  deriving DecidableEq

def WSOpcode.code : WSOpcode → BitVec 4
  | cont => 0
  | textFrame => 1
  | binFrame => 2
  | close => 8
  | ping => 9
  | pong => 0xA

structure WSFrameHead where
  opcode : BitVec 4
  rsv1 : Bool
  rsv2 : Bool
  rsv3 : Bool
  fin : Bool
  payload : BitVec 7
  mask : Bool
  deriving DecidableEq

namespace WSFrameHead

def zero : WSFrameHead := ⟨0, false, false, false, false, 0, false⟩

/-- The two bytes of the packed structure; bit fields start at the low end. -/
def bytes (h : WSFrameHead) : List UInt8 :=
  [.ofBitVec (BitVec.ofBool h.fin ++ (BitVec.ofBool h.rsv3 ++ (BitVec.ofBool h.rsv2 ++
    (BitVec.ofBool h.rsv1 ++ h.opcode)))),
   .ofBitVec (BitVec.ofBool h.mask ++ h.payload)]

def ofBytes (b₀ b₁ : UInt8) : WSFrameHead where
  opcode := b₀.toBitVec.extractLsb' 0 4
  rsv1 := b₀.toBitVec.getLsbD 4
  rsv2 := b₀.toBitVec.getLsbD 5
  rsv3 := b₀.toBitVec.getLsbD 6
  fin := b₀.toBitVec.getLsbD 7
  payload := b₁.toBitVec.extractLsb' 0 7
  mask := b₁.toBitVec.getLsbD 7

end WSFrameHead

/-- `class WSFrameMessage`. -/
structure WSFrameMessage where
  opcode : ℤ
  data : List UInt8
  deriving DecidableEq

/-- `toLittleEndian`. The macro that should select the big endian variant is never
defined, so this one is taken on every host. -/
def toLittleEndian (t : ℕ) : ℕ := t

def applyMask (mask data : List UInt8) : List UInt8 :=
  data.mapIdx fun i b => b ^^^ mask.getD (i % 4) 0

section

variable {σ : Type}

def breakIf (c : Prop) [Decidable c] : Run Unit σ Unit := if c then Run.throw () else pure ()

def readOrBreak (n : ℕ) : Run Unit Socket (List UInt8) := do
  let (rt, d) ← SocketStream.readFixBuffer n
  breakIf (rt ≤ 0)
  pure d

def writeOrBreak (d : List UInt8) : Run Unit Socket Unit := do
  let rt ← SocketStream.writeFixBuffer d
  breakIf (rt ≤ 0)

end

/-! Sending. -/

def sendControl (owner : Bool) (opcode : WSOpcode) : Run Unit Socket ℤ := do
  let v ← SocketStream.writeFixBuffer
    { WSFrameHead.zero with fin := true, opcode := opcode.code }.bytes
  if v < 0 then do
    SocketStream.close owner
    pure v
  else pure v

def wsPing (owner : Bool) : Run Unit Socket ℤ := sendControl owner .ping

def wsPong (owner : Bool) : Run Unit Socket ℤ := sendControl owner .pong

def sendHead (msg : WSFrameMessage) (client fin : Bool) : WSFrameHead :=
  let size := msg.data.length
  { WSFrameHead.zero with
    fin := fin
    opcode := .ofInt 4 msg.opcode
    mask := client
    payload := if size < 126 then .ofNat 7 size else if size < 65536 then 126 else 127 }

def writeLength (head : WSFrameHead) (size : ℕ) : Run Unit Socket Unit :=
  if head.payload = 126 then writeOrBreak (leBytes 2 (toLittleEndian (size % 2 ^ 16)))
  else if head.payload = 127 then writeOrBreak (leBytes 8 (toLittleEndian size))
  else pure ()

def writeMask (client : Bool) (randValue : UInt32) : Run Unit (WSFrameMessage × Socket) Unit :=
  if client then do
    let mask := leBytes 4 randValue.toNat
    Run.assign fun msg => { msg with data := applyMask mask msg.data }
    Run.onSnd (writeOrBreak mask)
  else pure ()

def sendBlock (client fin : Bool) (randValue : UInt32) :
    Run Unit (WSFrameMessage × Socket) ℤ := do
  let (msg, _) ← Run.get
  let head := sendHead msg client fin
  let size := msg.data.length
  Run.onSnd (writeOrBreak head.bytes)
  Run.onSnd (writeLength head size)
  writeMask client randValue
  let (msg, _) ← Run.get
  Run.onSnd (writeOrBreak msg.data)
  pure (intOfSize (size + 2))

/-- `WSSendMessage(stream, msg, client, fin)`. -/
def wsSendMessage (owner client fin : Bool) (randValue : UInt32) :
    Run Unit (WSFrameMessage × Socket) ℤ :=
  Run.tryCatch (sendBlock client fin randValue) do
    Run.onSnd (SocketStream.close owner)
    pure (-1)

/-! Receiving. -/

def readHead : Run Unit Socket WSFrameHead := do
  let d ← readOrBreak 2
  pure (WSFrameHead.ofBytes (d.getD 0 0) (d.getD 1 0))

def readLength (head : WSFrameHead) : Run Unit Socket ℕ :=
  if head.payload = 126 then do
    let len ← readOrBreak 2
    pure (toLittleEndian (ofLeBytes len))
  else if head.payload = 127 then do
    let len ← readOrBreak 8
    pure (toLittleEndian (ofLeBytes len))
  else pure head.payload.toNat

def readMask (head : WSFrameHead) : Run Unit Socket (List UInt8) :=
  if head.mask then readOrBreak 4 else pure [0, 0, 0, 0]

/-- The variables `opcode`, `data` and `cur_len`. -/
structure Assembly where
  opcode : ℤ
  data : List UInt8
  curLen : ℤ

/-- `(cur_len + length) >= max_size`; the sum is one of `uint64_t`. -/
def Assembly.tooLong (a : Assembly) (maxSize length : ℕ) : Prop :=
  (maxSize : ℤ) ≤ (a.curLen + length) % 2 ^ 64

instance (a : Assembly) (maxSize length : ℕ) : Decidable (a.tooLong maxSize length) :=
  inferInstanceAs (Decidable ((_ : ℤ) ≤ _))

/-- `data.resize(cur_len + length)`, the same sum. -/
def Assembly.resize (a : Assembly) (length : ℕ) : Assembly :=
  let size := ((a.curLen + length) % 2 ^ 64).toNat
  { a with data := a.data.take size ++ List.replicate (size - a.data.length) 0 }

/-- Adding the `length` bytes that were read at `&data[cur_len]`. The loop that unmasks
them counts in `int`. -/
def Assembly.append (a : Assembly) (head : WSFrameHead) (mask d : List UInt8) (length : ℕ) :
    Run Unit Socket Assembly :=
  if head.mask ∧ 2 ^ 31 < a.curLen + length then Run.crash
  else pure {
    opcode := if a.opcode = 0 ∧ head.opcode ≠ WSOpcode.cont.code then head.opcode.toNat
      else a.opcode
    data := a.data.take a.curLen.toNat ++ (if head.mask then applyMask mask d else d)
    curLen := intOfSize (a.curLen + length).toNat }

/-- `&data[cur_len]` with an index outside of the string is undefined. An index inside means that
the sum for `resize` did not wrap around, so that `length` bytes have room behind it. -/
def readPayload (a : Assembly) (length : ℕ) : Run Unit Socket (List UInt8) :=
  if a.curLen < 0 ∨ a.data.length < a.curLen then Run.crash else readOrBreak length

def recvData (client : Bool) (maxSize : ℕ) (head : WSFrameHead) (a : Assembly) :
    Run Unit Socket Assembly := do
  breakIf (client = false ∧ head.mask = false)
  let length ← readLength head
  breakIf (a.tooLong maxSize length)
  let mask ← readMask head
  let a := a.resize length
  let d ← readPayload a length
  a.append head mask d length

def recvFrame (owner client : Bool) (maxSize : ℕ) (head : WSFrameHead) (a : Assembly) :
    Run Unit Socket (Option Assembly) :=
  if head.opcode = WSOpcode.ping.code then do
    let rt ← wsPong owner
    breakIf (rt ≤ 0)
    pure none
  else if head.opcode = WSOpcode.pong.code then pure none
  else if head.opcode = WSOpcode.cont.code ∨ head.opcode = WSOpcode.textFrame.code ∨
      head.opcode = WSOpcode.binFrame.code then do
    let a ← recvData client maxSize head a
    pure (some a)
  else pure none

/-- The loop of `WSRecvMessage`. A round that goes on has read a head of two bytes. -/
def recvLoop (owner client : Bool) (maxSize : ℕ) : ℕ → Assembly → Run Unit Socket WSFrameMessage
  | 0, _ => Run.crash
  | rounds + 1, a => do
    let head ← readHead
    match ← recvFrame owner client maxSize head a with
    | none => recvLoop owner client maxSize rounds a
    | some a => if head.fin then pure ⟨a.opcode, a.data⟩ else recvLoop owner client maxSize rounds a

/-- `WSRecvMessage(stream, client)`; `none` is the null pointer. -/
def wsRecvMessage (owner client : Bool) (maxSize : ℕ) :
    Run Unit Socket (Option WSFrameMessage) := do
  let s ← Run.get
  Run.tryCatch (some <$> recvLoop owner client maxSize (s.incoming.length + 1) ⟨0, [], 0⟩) do
    SocketStream.close owner
    pure none

end JKYi.Http
