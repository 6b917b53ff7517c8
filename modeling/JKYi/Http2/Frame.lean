import JKYi.Http2.HPack
import JKYi.Stream.SocketStream

/-!
# Frames and their codec

`FrameHeader`, the bodies of frames and `FrameCodec`. Readers run on the object they
fill and a `ByteArray`, so that what they have assigned before an exception stays. Unions
are kept as their bit fields; the words laid over the fields are computed, the first field
in the low bits.
-/

namespace JKYi.Http2

open JKYi.ByteArray

def sizeOfInt (n : ℤ) : ℕ := (n % 2 ^ 64).toNat

def joinWord (top : BitVec 1) (low : BitVec 31) : UInt32 := .ofBitVec (top ++ low)

def topBit (word : UInt32) : BitVec 1 := word.toBitVec.extractLsb' 31 1

def lowBits (word : UInt32) : BitVec 31 := word.toBitVec.extractLsb' 0 31

def attempt {σ : Type} (body : Run Exn σ Unit) : Run Exn σ Bool :=
  Run.tryCatch (do body; pure true) (pure false)

inductive FrameType where
  | data | headers | priority | rstStream | settings | pushPromise | ping | goAway
  | windowUpdate | continuation
  deriving DecidableEq, Repr

def FrameType.code : FrameType → UInt8
  | data => 0x0
  | headers => 0x1
  | priority => 0x2
  | rstStream => 0x3
  | settings => 0x4
  | pushPromise => 0x5
  | ping => 0x6
  | goAway => 0x7
  | windowUpdate => 0x8
  | continuation => 0x9

def FrameType.ofCode (code : UInt8) : Option FrameType :=
  [data, headers, priority, rstStream, settings, pushPromise, ping, goAway, windowUpdate,
    continuation][code.toNat]?

def FrameFlagData.padded : UInt8 := 0x8

def FrameFlagHeaders.padded : UInt8 := 0x8

def FrameFlagHeaders.priority : UInt8 := 0x20

def FrameFlagPromise.padded : UInt8 := 0x8

structure FrameHeader where
  type : UInt8 := 0
  length : BitVec 24 := 0
  flags : UInt8 := 0
  identifier : BitVec 31 := 0
  r : BitVec 1 := 0
  deriving DecidableEq, Repr

namespace FrameHeader

/-- `FrameHeader::SIZE`. -/
def size : ℕ := 9

def lenType (h : FrameHeader) : UInt32 := .ofBitVec (h.length ++ h.type.toBitVec)

def rId (h : FrameHeader) : UInt32 := joinWord h.r h.identifier

def setLenType (word : UInt32) (h : FrameHeader) : FrameHeader :=
  { h with
    type := .ofBitVec (word.toBitVec.extractLsb' 0 8)
    length := word.toBitVec.extractLsb' 8 24 }

def setRId (word : UInt32) (h : FrameHeader) : FrameHeader :=
  { h with identifier := lowBits word, r := topBit word }

def has (h : FrameHeader) (flag : UInt8) : Bool := h.flags &&& flag != 0

def writeTo (h : FrameHeader) : Run Exn ByteArray Bool :=
  Run.tryCatch (do
    writeFuint32 h.lenType
    writeFuint8 h.flags
    writeFuint32 h.rId
    pure true) (pure true)

def readFrom : Run Exn (FrameHeader × ByteArray) Bool := attempt do
  let lenType ← Run.onSnd readFuint32
  Run.assign (setLenType lenType)
  let flags ← Run.onSnd readFuint8
  Run.assign fun h => { h with flags := flags }
  let rId ← Run.onSnd readFuint32
  Run.assign (setRId rId)

end FrameHeader

structure DataFrame where
  pad : UInt8 := 0
  data : List UInt8 := []
  padding : List UInt8 := []
  deriving DecidableEq, Repr

namespace DataFrame

def writeTo (f : DataFrame) (header : FrameHeader) : Run Exn ByteArray Bool := attempt <|
  if header.has FrameFlagData.padded then do
    writeFuint8 f.pad
    write f.data
    write f.padding
  else write f.data

def readFrom (header : FrameHeader) : Run Exn (DataFrame × ByteArray) Bool := attempt <|
  if header.has FrameFlagData.padded then do
    let pad ← Run.onSnd readFuint8
    Run.assign fun f => { f with pad := pad }
    let data ← Run.onSnd
      (readResized (sizeOfInt ((header.length.toNat : ℤ) - pad.toNat - 1)))
    Run.assign fun f => { f with data := data }
    let padding ← Run.onSnd (readResized pad.toNat)
    Run.assign fun f => { f with padding := padding }
  else do
    let data ← Run.onSnd (readResized header.length.toNat)
    Run.assign fun f => { f with data := data }

end DataFrame

structure PriorityFrame where
  streamDep : BitVec 31 := 0
  exclusive : BitVec 1 := 0
  weight : UInt8 := 0
  deriving DecidableEq, Repr

namespace PriorityFrame

def eStreamDep (f : PriorityFrame) : UInt32 := joinWord f.exclusive f.streamDep

def writeTo (f : PriorityFrame) : Run Exn ByteArray Bool := attempt do
  writeFuint32 f.eStreamDep
  writeFuint8 f.weight

def readFrom : Run Exn (PriorityFrame × ByteArray) Bool := attempt do
  let streamDep ← Run.onSnd readFuint32
  Run.assign fun f => { f with streamDep := lowBits streamDep }
  let weight ← Run.onSnd readFuint32
  Run.assign fun f => { f with weight := weight.toUInt8 }

end PriorityFrame

structure HeadersFrame where
  pad : UInt8 := 0
  priority : PriorityFrame := {}
  data : List UInt8 := []
  padding : List UInt8 := []
  hpack : Option HPack := none
  kvs : List Entry := []

namespace HeadersFrame

def packKvs (heap : ℕ → UInt8) : Run Exn (HeadersFrame × ByteArray) Unit := fun (f, ba) =>
  match f.hpack with
  | none => .ok () (f, ba)
  | some hpack =>
    if f.kvs.isEmpty then .ok () (f, ba)
    else
      match HPack.pack f.kvs heap hpack with
      | .ok (_, out) hpack => .ok () ({ f with hpack := some hpack, data := out }, ba)
      | .raised e hpack => .raised e ({ f with hpack := some hpack }, ba)
      | .crash => .crash

def writePad (f : HeadersFrame) (header : FrameHeader) : Run Exn ByteArray Unit :=
  if header.has FrameFlagHeaders.padded then writeFuint8 f.pad else pure ()

def writePriority (f : HeadersFrame) (header : FrameHeader) : Run Exn ByteArray Unit :=
  if header.has FrameFlagHeaders.priority then discard f.priority.writeTo else pure ()

def writePadding (f : HeadersFrame) (header : FrameHeader) : Run Exn ByteArray Unit :=
  if header.has FrameFlagHeaders.padded then write f.padding else pure ()

def writeTo (header : FrameHeader) (heap : ℕ → UInt8) : Run Exn (HeadersFrame × ByteArray) Bool :=
  attempt do
    let (f, _) ← Run.get
    Run.onSnd (f.writePad header)
    Run.onSnd (f.writePriority header)
    packKvs heap
    let (f, _) ← Run.get
    Run.onSnd (write f.data)
    Run.onSnd (f.writePadding header)

def readPad (header : FrameHeader) : Run Exn (HeadersFrame × ByteArray) ℤ :=
  if header.has FrameFlagHeaders.padded then do
    let pad ← Run.onSnd readFuint8
    Run.assign fun f => { f with pad := pad }
    pure ((header.length.toNat : ℤ) - (pad.toNat + 1))
  else pure header.length.toNat

/-- The priority, if there is one, whether it can be read or not, and `len` without it. -/
def readPriority (header : FrameHeader) (len : ℤ) : Run Exn (HeadersFrame × ByteArray) ℤ :=
  if header.has FrameFlagHeaders.priority then do
    let (f, _) ← Run.get
    let r ← Run.onSnd (Run.withObject f.priority PriorityFrame.readFrom)
    Run.assign fun f => { f with priority := r.2 }
    pure (len - 5)
  else pure len

def readPadding (header : FrameHeader) : Run Exn (HeadersFrame × ByteArray) Unit :=
  if header.has FrameFlagHeaders.padded then do
    let (f, _) ← Run.get
    let padding ← Run.onSnd (readResized f.pad.toNat)
    Run.assign fun f => { f with padding := padding }
  else pure ()

def readFrom (header : FrameHeader) : Run Exn (HeadersFrame × ByteArray) Bool := attempt do
  let len ← readPad header
  let len ← readPriority header len
  let data ← Run.onSnd (readResized (sizeOfInt len))
  Run.assign fun f => { f with data := data }
  readPadding header

end HeadersFrame

structure RstStreamFrame where
  errorCode : UInt32 := 0
  deriving DecidableEq, Repr

namespace RstStreamFrame

def writeTo (f : RstStreamFrame) : Run Exn ByteArray Bool := attempt (writeFuint32 f.errorCode)

def readFrom : Run Exn (RstStreamFrame × ByteArray) Bool := attempt do
  let errorCode ← Run.onSnd readFuint32
  Run.assign fun f => { f with errorCode := errorCode }

end RstStreamFrame

structure SettingsItem where
  identifiber : UInt16 := 0
  value : UInt32 := 0
  deriving DecidableEq, Repr

namespace SettingsItem

/-- `sizeof(SettingsItem)`, packed. -/
def size : ℕ := 6

def writeTo (i : SettingsItem) : Run Exn ByteArray Bool := attempt do
  writeFuint16 i.identifiber
  writeFuint32 i.value

def readFrom : Run Exn (SettingsItem × ByteArray) Bool := do
  let identifiber ← Run.onSnd readFuint16
  Run.assign fun i => { i with identifiber := identifiber }
  let value ← Run.onSnd readFuint32
  Run.assign fun i => { i with value := value }
  pure true

end SettingsItem

structure SettingsFrame where
  items : List SettingsItem := []
  deriving DecidableEq, Repr

namespace SettingsFrame

def writeItems : List SettingsItem → Run Exn ByteArray Unit
  | [] => pure ()
  | i :: items => do
    discard i.writeTo
    writeItems items

def writeTo (f : SettingsFrame) : Run Exn ByteArray Bool := attempt (writeItems f.items)

def readItems : ℕ → Run Exn ByteArray (List SettingsItem)
  | 0 => pure []
  | size + 1 => do
    let (_, item) ← Run.withObject {} SettingsItem.readFrom
    let items ← readItems size
    pure (item :: items)

def readFrom (header : FrameHeader) : Run Exn (SettingsFrame × ByteArray) Bool := attempt do
  let items ← Run.onSnd (readItems (header.length.toNat / SettingsItem.size))
  Run.assign fun f => { f with items := items }

end SettingsFrame

structure PushPromisedFrame where
  pad : UInt8 := 0
  streamId : BitVec 31 := 0
  r : BitVec 1 := 0
  data : List UInt8 := []
  padding : List UInt8 := []
  deriving DecidableEq, Repr

namespace PushPromisedFrame

def rStreamId (f : PushPromisedFrame) : UInt32 := joinWord f.r f.streamId

def setRStreamId (word : UInt32) (f : PushPromisedFrame) : PushPromisedFrame :=
  { f with streamId := lowBits word, r := topBit word }

def writeBody (f : PushPromisedFrame) (header : FrameHeader) : Run Exn ByteArray Unit :=
  if header.has FrameFlagPromise.padded then do
    writeFuint8 f.pad
    writeFuint32 f.rStreamId
    write f.data
    write f.padding
  else do
    writeFuint32 f.rStreamId
    write f.data

def writeTo (f : PushPromisedFrame) (header : FrameHeader) : Run Exn ByteArray Bool :=
  Run.tryCatch (do f.writeBody header; pure false) (pure false)

def readFrom (header : FrameHeader) : Run Exn (PushPromisedFrame × ByteArray) Bool := attempt <|
  if header.has FrameFlagPromise.padded then do
    let pad ← Run.onSnd readFuint8
    Run.assign fun f => { f with pad := pad }
    let rStreamId ← Run.onSnd readFuint32
    Run.assign (setRStreamId rStreamId)
    let data ← Run.onSnd
      (readResized (sizeOfInt ((header.length.toNat : ℤ) - pad.toNat - 5)))
    Run.assign fun f => { f with data := data }
    let padding ← Run.onSnd (readResized pad.toNat)
    Run.assign fun f => { f with padding := padding }
  else do
    let rStreamId ← Run.onSnd readUint32
    Run.assign (setRStreamId rStreamId)
    let data ← Run.onSnd (readResized (sizeOfInt ((header.length.toNat : ℤ) - 4)))
    Run.assign fun f => { f with data := data }

end PushPromisedFrame

structure PingFrame where
  uint64 : UInt64 := 0
  deriving DecidableEq, Repr

namespace PingFrame

def data (f : PingFrame) : List UInt8 := leBytes 8 f.uint64.toNat

def writeTo (f : PingFrame) : Run Exn ByteArray Bool := attempt (write f.data)

def readFrom : Run Exn (PingFrame × ByteArray) Bool :=
  Run.tryCatch (do
    let data ← Run.onSnd (read 8)
    Run.assign fun f => { f with uint64 := UInt64.ofNat (ofLeBytes data) }
    pure false) (pure false)

end PingFrame

structure GoAwayFrame where
  lastStreamId : BitVec 31 := 0
  r : BitVec 1 := 0
  errorCode : UInt32 := 0
  data : List UInt8 := []
  deriving DecidableEq, Repr

namespace GoAwayFrame

def rLastStreamId (f : GoAwayFrame) : UInt32 := joinWord f.r f.lastStreamId

def writeData (f : GoAwayFrame) : Run Exn ByteArray Unit :=
  if f.data.isEmpty then pure () else write f.data

def writeTo (f : GoAwayFrame) : Run Exn ByteArray Bool := attempt do
  writeFuint32 f.rLastStreamId
  writeFuint32 f.errorCode
  f.writeData

def readData (header : FrameHeader) : Run Exn (GoAwayFrame × ByteArray) Unit :=
  if header.length.toNat ≠ 0 then do
    let data ← Run.onSnd (readResized (sizeOfInt ((header.length.toNat : ℤ) - 8)))
    Run.assign fun f => { f with data := data }
  else pure ()

def readFrom (header : FrameHeader) : Run Exn (GoAwayFrame × ByteArray) Bool := attempt do
  let rLastStreamId ← Run.onSnd readFuint32
  Run.assign fun f =>
    { f with lastStreamId := lowBits rLastStreamId, r := topBit rLastStreamId }
  let errorCode ← Run.onSnd readFuint32
  Run.assign fun f => { f with errorCode := errorCode }
  readData header

end GoAwayFrame

structure WindowUpdateFrame where
  increment : BitVec 31 := 0
  r : BitVec 1 := 0
  deriving DecidableEq, Repr

namespace WindowUpdateFrame

def rIncrement (f : WindowUpdateFrame) : UInt32 := joinWord f.r f.increment

def writeTo (f : WindowUpdateFrame) : Run Exn ByteArray Bool := attempt (writeFuint32 f.rIncrement)

def readFrom : Run Exn (WindowUpdateFrame × ByteArray) Bool := attempt do
  let rIncrement ← Run.onSnd readFuint32
  Run.assign fun f => { f with increment := lowBits rIncrement, r := topBit rIncrement }

end WindowUpdateFrame

/-- The classes derived from `IFrame`. -/
inductive IFrame where
  | data (f : DataFrame)
  | headers (f : HeadersFrame)
  | priority (f : PriorityFrame)
  | rstStream (f : RstStreamFrame)
  | settings (f : SettingsFrame)
  | pushPromise (f : PushPromisedFrame)
  | ping (f : PingFrame)
  | goAway (f : GoAwayFrame)
  | windowUpdate (f : WindowUpdateFrame)

def IFrame.writeTo (header : FrameHeader) (heap : ℕ → UInt8) :
    IFrame → Run Exn ByteArray (Bool × IFrame)
  | data f => (·, data f) <$> f.writeTo header
  | headers f => Prod.map id headers <$> Run.withObject f (HeadersFrame.writeTo header heap)
  | priority f => (·, priority f) <$> f.writeTo
  | rstStream f => (·, rstStream f) <$> f.writeTo
  | settings f => (·, settings f) <$> f.writeTo
  | pushPromise f => (·, pushPromise f) <$> f.writeTo header
  | ping f => (·, ping f) <$> f.writeTo
  | goAway f => (·, goAway f) <$> f.writeTo
  | windowUpdate f => (·, windowUpdate f) <$> f.writeTo

/-- A frame; the body may be missing. -/
structure Frame where
  header : FrameHeader := {}
  data : Option IFrame := none

namespace FrameCodec

def parseAs {F : Type} (header : FrameHeader) (body : F → IFrame) (f : F)
    (readFrom : Run Exn (F × ByteArray) Bool) : Run Exn ByteArray (Option Frame) := do
  let (ok, f) ← Run.withObject f readFrom
  pure (if ok then some ⟨header, some (body f)⟩ else none)

def parseBody (header : FrameHeader) : Run Exn ByteArray (Option Frame) :=
  match FrameType.ofCode header.type with
  | some .data => parseAs header .data {} (DataFrame.readFrom header)
  | some .headers => parseAs header .headers {} (HeadersFrame.readFrom header)
  | some .priority => parseAs header .priority {} PriorityFrame.readFrom
  | some .rstStream => parseAs header .rstStream {} RstStreamFrame.readFrom
  | some .settings => parseAs header .settings {} (SettingsFrame.readFrom header)
  | some .pushPromise => parseAs header .pushPromise {} (PushPromisedFrame.readFrom header)
  | some .ping => parseAs header .ping {} PingFrame.readFrom
  | some .goAway => parseAs header .goAway {} (GoAwayFrame.readFrom header)
  | some .windowUpdate => parseAs header .windowUpdate {} WindowUpdateFrame.readFrom
  | some .continuation => pure (some ⟨header, none⟩)
  | none => pure none

def receiveBody (header : FrameHeader) : Run Exn (Socket × ByteArray) (Option Frame) :=
  if 0 < header.length.toNat then do
    Run.onSnd (setPosition 0)
    let rt ← SocketStream.readFixSize header.length.toNat
    if rt ≤ 0 then pure none
    else do
      Run.onSnd (setPosition 0)
      Run.onSnd (parseBody header)
  else Run.onSnd (parseBody header)

/-- A failure to receive the header is only logged. -/
def receive : Run Exn (Socket × ByteArray) (Option Frame) := do
  discard (SocketStream.readFixSize FrameHeader.size)
  Run.onSnd (setPosition 0)
  let (ok, header) ← Run.onSnd (Run.withObject {} FrameHeader.readFrom)
  if ok then receiveBody header else pure none

def parseFrom (heap : ℕ → UInt8) : Run Exn Socket (Option Frame) :=
  Run.withLocal (ByteArray.create 4096 heap) (Run.tryCatch receive (pure none))

def sendAll : Run Exn (Socket × ByteArray) ℤ := do
  Run.onSnd (setPosition 0)
  let (_, ba) ← Run.get
  let rt ← SocketStream.writeFixSize ba.getReadSize
  if rt ≤ 0 then pure (-2)
  else do
    let (_, ba) ← Run.get
    pure (intOfSize ba.getSize)

def rewriteHeader (header : FrameHeader) : Run Exn ByteArray FrameHeader := do
  let ba ← Run.get
  let pos := intOfSize ba.getPosition
  setPosition 0
  let header := { header with length := BitVec.ofInt 24 (pos - FrameHeader.size) }
  discard header.writeTo
  pure header

def serializeTo (heap : ℕ → UInt8) (frame : Frame) : Run Exn Socket (ℤ × Frame) :=
  Run.withLocal (ByteArray.create 4096 heap) do
    discard (Run.onSnd frame.header.writeTo)
    match frame.data with
    | none => do
      let rt ← sendAll
      pure (rt, frame)
    | some data => do
      let (ok, data) ← Run.onSnd (data.writeTo frame.header heap)
      if ok then do
        let header ← Run.onSnd (rewriteHeader frame.header)
        let rt ← sendAll
        pure (rt, ⟨header, some data⟩)
      else pure (-1, ⟨frame.header, some data⟩)

end FrameCodec
end JKYi.Http2
