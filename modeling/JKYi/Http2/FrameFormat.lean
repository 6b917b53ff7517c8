import JKYi.Http2.Frame

/-!
# The wire format of frames

A frame is nine bytes of header and a payload. Words are big endian. The format is
stated for every frame, also where the codec does not follow it.
-/

namespace JKYi.Http2

open JKYi.ByteArray

@[simp] theorem lowBits_joinWord (top : BitVec 1) (low : BitVec 31) :
    lowBits (joinWord top low) = low :=
  BitVec.extractLsb'_append_eq_right

@[simp] theorem topBit_joinWord (top : BitVec 1) (low : BitVec 31) :
    topBit (joinWord top low) = top :=
  BitVec.extractLsb'_append_eq_left

def wordBytes (word : UInt32) : List UInt8 := fixedBytes .big 4 word.toNat

@[simp] theorem length_wordBytes (word : UInt32) : (wordBytes word).length = 4 := by
  simp [wordBytes]

/-- `header` with the length of a payload of `n` bytes. -/
def FrameHeader.withLength (header : FrameHeader) (n : ℕ) : FrameHeader :=
  { header with length := BitVec.ofNat 24 n }

def FrameHeader.encode (header : FrameHeader) : List UInt8 :=
  wordBytes header.lenType ++ ([header.flags] ++ wordBytes header.rId)

@[simp] theorem FrameHeader.length_encode (header : FrameHeader) : header.encode.length = 9 := by
  simp [encode]

def PriorityFrame.encode (f : PriorityFrame) : List UInt8 := wordBytes f.eStreamDep ++ [f.weight]

def SettingsItem.encode (i : SettingsItem) : List UInt8 :=
  fixedBytes .big 2 i.identifiber.toNat ++ wordBytes i.value

@[simp] theorem SettingsItem.length_encode (i : SettingsItem) : i.encode.length = 6 := by
  simp [encode]

def DataFrame.payload (header : FrameHeader) (f : DataFrame) : List UInt8 :=
  if header.has FrameFlagData.padded then [f.pad] ++ (f.data ++ f.padding) else f.data

namespace HeadersFrame

def padField (header : FrameHeader) (f : HeadersFrame) : List UInt8 :=
  if header.has FrameFlagHeaders.padded then [f.pad] else []

def priorityField (header : FrameHeader) (f : HeadersFrame) : List UInt8 :=
  if header.has FrameFlagHeaders.priority then f.priority.encode else []

def paddingField (header : FrameHeader) (f : HeadersFrame) : List UInt8 :=
  if header.has FrameFlagHeaders.padded then f.padding else []

def payload (header : FrameHeader) (f : HeadersFrame) : List UInt8 :=
  f.padField header ++ (f.priorityField header ++ (f.data ++ f.paddingField header))

end HeadersFrame

def SettingsFrame.payload (f : SettingsFrame) : List UInt8 := f.items.flatMap SettingsItem.encode

def PushPromisedFrame.payload (header : FrameHeader) (f : PushPromisedFrame) : List UInt8 :=
  if header.has FrameFlagPromise.padded then
    [f.pad] ++ (wordBytes f.rStreamId ++ (f.data ++ f.padding))
  else wordBytes f.rStreamId ++ f.data

def GoAwayFrame.payload (f : GoAwayFrame) : List UInt8 :=
  wordBytes f.rLastStreamId ++ (wordBytes f.errorCode ++ f.data)

namespace IFrame

def frameType : IFrame → FrameType
  | data _ => .data
  | headers _ => .headers
  | priority _ => .priority
  | rstStream _ => .rstStream
  | settings _ => .settings
  | pushPromise _ => .pushPromise
  | ping _ => .ping
  | goAway _ => .goAway
  | windowUpdate _ => .windowUpdate

def payload (header : FrameHeader) : IFrame → List UInt8
  | data f => f.payload header
  | headers f => f.payload header
  | priority f => f.encode
  | rstStream f => wordBytes f.errorCode
  | settings f => f.payload
  | pushPromise f => f.payload header
  | ping f => f.data
  | goAway f => f.payload
  | windowUpdate f => wordBytes f.rIncrement

end IFrame

/-- The payload; there is none without a body. -/
def Frame.payload (frame : Frame) : List UInt8 :=
  match frame.data with
  | none => []
  | some body => body.payload frame.header

end JKYi.Http2
