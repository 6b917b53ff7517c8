import JKYi.Foundation.Run
import JKYi.Foundation.Blocks
import JKYi.Foundation.DoubleRounding

/-!
# The block list behind `ByteArray`

A `ByteArray` stores its bytes in a chain of nodes of `m_baseSize` bytes and
keeps a cursor twice: as the number `m_position` and as the node `m_cur` that
holds that position. The chain is a list, `m_root` its head, and a node pointer
is an index into it; `none` is the null pointer. Using a null pointer is
`Outcome.crash`.

Quantities of type `size_t` count bytes that are allocated and are natural
numbers. Memory handed out by `new char[s]` is not initialised: the field
`heap` holds what the next allocations will contain.
-/

namespace JKYi

/-- `JKYI_LITTLE_ENDIAN` and `JKYI_BIG_ENDIAN`. -/
inductive Endian where
  | little
  | big
  deriving DecidableEq, Repr

/-- `JKYI_BYTE_ORDER`, on the little-endian machines the project runs on. -/
def hostByteOrder : Endian := .little

/-- The exceptions the modelled code can throw. -/
inductive Exn where
  | outOfRange (what : String)
  | lengthError (what : String)
  deriving DecidableEq, Repr

/-- `ByteArray::Node`; `size` is the length of the memory at `ptr`. -/
structure Node where
  ptr : List UInt8
  deriving DecidableEq, Repr

def Node.size (n : Node) : ℕ := n.ptr.length

def Node.memcpy (n : Node) (npos : ℕ) (src : List UInt8) : Node := ⟨splice n.ptr npos src⟩

structure IoVec where
  node : ℕ
  base : ℕ
  len : ℕ
  deriving DecidableEq, Repr

structure ByteArray where
  baseSize : ℕ
  position : ℕ
  capacity : ℕ
  size : ℕ
  endian : Endian
  nodes : List Node
  cur : Option ℕ
  heap : ℕ → UInt8

namespace ByteArray

/-- `ByteArray(size_t base_size)`. -/
def create (baseSize : ℕ) (heap : ℕ → UInt8) : ByteArray where
  baseSize := baseSize
  position := 0
  capacity := baseSize
  size := 0
  endian := .big
  nodes := [⟨(List.range baseSize).map heap⟩]
  cur := some 0
  heap := fun i => heap (i + baseSize)

/-- `ByteArray(void *data, size_t size, bool owner)`: one node over the caller's memory. -/
def wrap (data : List UInt8) (heap : ℕ → UInt8) : ByteArray where
  baseSize := data.length
  position := 0
  capacity := data.length
  size := data.length
  endian := .big
  nodes := [⟨data⟩]
  cur := some 0
  heap := heap

def setIsLittleEndian (v : Bool) (ba : ByteArray) : ByteArray :=
  { ba with endian := if v then .little else .big }

def getPosition (ba : ByteArray) : ℕ := ba.position

def getSize (ba : ByteArray) : ℕ := ba.size

def getReadSize (ba : ByteArray) : ℕ := ba.size - ba.position

def getWriteSize (ba : ByteArray) : ℕ := ba.capacity - ba.position

def addNodes : ℕ → ByteArray → ByteArray
  | 0, ba => ba
  | count + 1, ba =>
    addNodes count
      { ba with
        nodes := ba.nodes ++ [⟨(List.range ba.baseSize).map ba.heap⟩]
        heap := fun i => ba.heap (i + ba.baseSize)
        capacity := ba.capacity + ba.baseSize }

/-- Make room for `size` bytes after the cursor. With `m_baseSize == 0` the node
count is an infinite `double`, whose conversion to `size_t` is undefined. -/
def addCapacity (size : ℕ) (ba : ByteArray) : Option ByteArray :=
  if size = 0 then some ba
  else if size ≤ ba.getWriteSize then some ba
  else if ba.baseSize = 0 then none
  else
    let count := ceilQuot (size - ba.getWriteSize) ba.baseSize
    let first := if count = 0 then none else some ba.nodes.length
    let grown := ba.addNodes count
    some (if ba.getWriteSize = 0 then { grown with cur := first } else grown)

def nextNode (rest : List Node) (i : ℕ) : Option ℕ := if rest.isEmpty then none else some (i + 1)

/-- The loop that `write`, both `read`s, `getReadBuffers` and `getWriteBuffers`
share. It walks `len` bytes along the chain, starting at offset `npos` of node
`i`, and calls `visit` with the node, the offset and the length of every piece.
The result is the node behind the last byte, as `m_cur` is left, and the state
that `visit` has built; `none` means the walk has used a null node. -/
def walk {σ : Type} (visit : ℕ → ℕ → ℕ → σ → σ) :
    List Node → ℕ → ℕ → ℕ → σ → Option (Option ℕ × σ)
  | [], _, _, _, _ => none
  | n :: rest, i, npos, len, s =>
    if len = 0 then some (some i, s)
    else
      let ncap := n.size - npos
      if len ≤ ncap then
        some (if n.size = npos + len then nextNode rest i else some i, visit i npos len s)
      else walk visit rest (i + 1) 0 (len - ncap) (visit i npos ncap s)

def walkFrom {σ : Type} (ba : ByteArray) (position : ℕ) (visit : ℕ → ℕ → ℕ → σ → σ) (len : ℕ)
    (s : σ) : Option (Option ℕ × σ) :=
  if ba.baseSize = 0 then none
  else
    match ba.cur with
    | none => none
    | some i => walk visit (ba.nodes.drop i) i (position % ba.baseSize) len s

def writePiece (buf : List UInt8) (i npos k : ℕ) : ByteArray × ℕ → ByteArray × ℕ
  | (ba, bpos) =>
    ({ ba with
        nodes := ba.nodes.modify i (fun n => n.memcpy npos ((buf.drop bpos).take k))
        position := ba.position + k }, bpos + k)

/-- `write(buf, buf.size())`. -/
def write (buf : List UInt8) : Run Exn ByteArray Unit := fun ba =>
  if buf.length = 0 then .ok () ba
  else
    match ba.addCapacity buf.length with
    | none => .crash
    | some ba =>
      match ba.walkFrom ba.position (writePiece buf) buf.length (ba, 0) with
      | none => .crash
      | some (cur, ba, _) =>
        let ba := { ba with cur := cur }
        .ok () (if ba.size < ba.position then { ba with size := ba.position } else ba)

def peek (nodes : List Node) (i npos k : ℕ) : List UInt8 :=
  match nodes[i]? with
  | none => []
  | some n => (n.ptr.drop npos).take k

def readPiece (i npos k : ℕ) : ByteArray × List UInt8 → ByteArray × List UInt8
  | (ba, out) => ({ ba with position := ba.position + k }, out ++ peek ba.nodes i npos k)

/-- `read(buf, len)`; the value is what has been copied to `buf`. -/
def read (len : ℕ) : Run Exn ByteArray (List UInt8) := fun ba =>
  if ba.getReadSize < len then .raised (.outOfRange "not enough data to read") ba
  else
    match ba.walkFrom ba.position readPiece len (ba, []) with
    | none => .crash
    | some (cur, ba, out) => .ok out { ba with cur := cur }

def subSize (a b : ℕ) : ℕ := if b ≤ a then a - b else a + 2 ^ 64 - b

/-- The const `read(buf, len, position)`: it starts in `m_cur` whatever `position` is. -/
def readAt (len position : ℕ) : Run Exn ByteArray (List UInt8) := fun ba =>
  if subSize ba.size position < len then .raised (.outOfRange "not enough data to read") ba
  else
    match ba.walkFrom position (fun i npos k out => out ++ peek ba.nodes i npos k) len [] with
    | none => .crash
    | some (_, out) => .ok out ba

def seek : List Node → ℕ → ℕ → Option (Option ℕ)
  | [], _, _ => none
  | n :: rest, i, v =>
    if n.size < v then seek rest (i + 1) (v - n.size)
    else some (if v = n.size then nextNode rest i else some i)

def setPosition (v : ℕ) : Run Exn ByteArray Unit := fun ba =>
  if ba.capacity < v then .raised (.outOfRange "setPosition out of range") ba
  else
    match seek ba.nodes 0 v with
    | none => .crash
    | some cur => .ok () { ba with position := v, size := max ba.size v, cur := cur }

def clear (ba : ByteArray) : ByteArray :=
  { ba with
    position := 0
    size := 0
    capacity := ba.baseSize
    nodes := ba.nodes.take 1
    cur := some 0 }

def toString : Run Exn ByteArray (List UInt8) := fun ba =>
  if ba.getReadSize = 0 then .ok [] ba else readAt ba.getReadSize ba.position ba

def pushPiece (i npos k : ℕ) (buffers : List IoVec) : List IoVec := buffers ++ [⟨i, npos, k⟩]

def getReadBuffers (buffers : List IoVec) (len : ℕ) : Run Exn ByteArray (ℕ × List IoVec) :=
  fun ba =>
    let len := if ba.getReadSize < len then ba.getReadSize else len
    if len = 0 then .ok (0, buffers) ba
    else
      match ba.walkFrom ba.position pushPiece len buffers with
      | none => .crash
      | some (_, buffers) => .ok (len, buffers) ba

def getWriteBuffers (buffers : List IoVec) (len : ℕ) : Run Exn ByteArray (ℕ × List IoVec) :=
  fun ba =>
    if len = 0 then .ok (0, buffers) ba
    else
      match ba.addCapacity len with
      | none => .crash
      | some ba =>
        match ba.walkFrom ba.position pushPiece len buffers with
        | none => .crash
        | some (_, buffers) => .ok (len, buffers) ba

end ByteArray
end JKYi
