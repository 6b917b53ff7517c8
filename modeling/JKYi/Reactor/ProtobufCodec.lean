import JKYi.Reactor.BufferDeque
import JKYi.Reactor.BufferInts

/-!
# Frames of protobuf messages

A frame is a length, a tag, a serialised message and a checksum of tag and
message. `fillEmptyBuffer` writes one, and `onMessage` takes as many as have
arrived from a receive buffer. Serialisation and the checksum are libraries:
they are parameters of the codec.
-/

namespace JKYi.Net

/-- `ProtobufCodecLite`, with `SerializeWithCachedSizesToArray`, `ParseFromArray` and `adler32`. -/
structure ProtobufCodecLite (M : Type) where
  tag : List UInt8
  serialize : M → List UInt8
  parseFromArray : List UInt8 → Option M
  adler32 : List UInt8 → BitVec (8 * 4)
  rawCb : Option (List UInt8 → Bool)

namespace ProtobufCodecLite

inductive ErrorCode where
  | kNoError
  | kInvalidLength
  | kCheckSumError
  | kInvalidNameLen
  | kUnknowMessageType
  | kParseError
  deriving DecidableEq

/-- A call of `messageCallback_` or of `errorCallback_`. -/
inductive Callback (M : Type) where
  | message (m : M)
  | error (e : ErrorCode)
  deriving DecidableEq

def kHeaderLen : ℕ := 4

def kChecksumLen : ℕ := 4

def kMaxMessageLen : ℕ := 64 * 1024 * 1024

variable {M : Type} (c : ProtobufCodecLite M) (host : Endian)

def kMinMessageLen : ℕ := c.tag.length + kChecksumLen

def checksum (bytes : List UInt8) : BitVec (8 * 4) := c.adler32 (bytes.take (bytes.length % 2 ^ 32))

def serializeToBuffer (m : M) (buf : Buffer) : Option (ℕ × Buffer) := do
  let byteSize := (c.serialize m).length
  let buf ← buf.write (byteSize + kChecksumLen) (c.serialize m)
  return (byteSize, buf)

def fillEmptyBuffer (buf : Buffer) (m : M) : Option Buffer := do
  Buffer.assert (buf.readableBytes = 0)
  let buf ← buf.append c.tag
  let (byteSize, buf) ← c.serializeToBuffer m buf
  let checkSum := c.checksum buf.contents
  let buf ← buf.appendInt32 host checkSum
  Buffer.assert (buf.readableBytes = c.tag.length + byteSize + kChecksumLen)
  let len : BitVec (8 * 4) := toNetEndian (BitVec.ofNat _ buf.readableBytes)
  buf.prepend (memory host len)

def asInt32 (bytes : List UInt8) : BitVec (8 * 4) := toLittleEndian (ofMemory host 4 bytes)

def validateChecksum (bytes : List UInt8) : Bool :=
  let expectedCheckSum := asInt32 host (bytes.drop (bytes.length - kChecksumLen))
  let checkSum := c.checksum (bytes.take (bytes.length - kChecksumLen))
  checkSum = expectedCheckSum

def parse (bytes : List UInt8) : Except ErrorCode M :=
  if c.validateChecksum host bytes then
    if bytes.take c.tag.length = c.tag then
      let data := (bytes.drop c.tag.length).take (bytes.length - kChecksumLen - c.tag.length)
      match c.parseFromArray data with
      | some m => .ok m
      | none => .error .kParseError
    else .error .kUnknowMessageType
  else .error .kCheckSumError

/-- What one round of the loop in `onMessage` comes to: wait for more bytes, report an error, or
take a frame of `n` bytes off the buffer, with or without a message. -/
inductive Verdict (M : Type) where
  | wait
  | fail (e : ErrorCode)
  | skip (n : ℕ)
  | deliver (n : ℕ) (m : M)

def inspect (buf : Buffer) : Option (Verdict M) :=
  if c.kMinMessageLen + kHeaderLen ≤ buf.readableBytes then do
    let x ← buf.peekInt32 host
    let len := x.toInt
    if len > kMaxMessageLen ∨ len < c.kMinMessageLen then
      return .fail .kInvalidLength
    else if kHeaderLen + len.toNat ≤ buf.readableBytes then
      let frame := buf.contents.take (kHeaderLen + len.toNat)
      if c.rawCb.any fun rawCb => !rawCb frame then
        return .skip (kHeaderLen + len.toNat)
      else
        match c.parse host (frame.drop kHeaderLen) with
        | .ok m => return .deliver (kHeaderLen + len.toNat) m
        | .error e => return .fail e
    else
      return .wait
  else
    return .wait

def onMessageLoop : ℕ → Buffer → Option (List (Callback M) × Buffer)
  | 0, buf => some ([], buf)
  | fuel + 1, buf => do
    match ← c.inspect host buf with
    | .wait => return ([], buf)
    | .fail e => return ([.error e], buf)
    | .skip n =>
      let buf ← buf.retrieve n
      onMessageLoop fuel buf
    | .deliver n m =>
      let buf ← buf.retrieve n
      let (calls, buf) ← onMessageLoop fuel buf
      return (.message m :: calls, buf)

def onMessage (buf : Buffer) : Option (List (Callback M) × Buffer) :=
  c.onMessageLoop host (buf.readableBytes + 1) buf

/-- Segments arrive, and `onMessage` is called after each. -/
def feed : List (List UInt8) → Buffer → Option (List (Callback M) × Buffer)
  | [], buf => some ([], buf)
  | segment :: segments, buf => do
    let buf ← buf.append segment
    let (calls, buf) ← c.onMessage host buf
    let (calls', buf) ← feed segments buf
    return (calls ++ calls', buf)

/-! The codec of RPC messages. -/

def adlerStep (sums : ℕ × ℕ) (byte : UInt8) : ℕ × ℕ :=
  ((sums.1 + byte.toNat) % 65521, (sums.2 + (sums.1 + byte.toNat) % 65521) % 65521)

def adler (bytes : List UInt8) : BitVec (8 * 4) :=
  let sums := bytes.foldl adlerStep (1, 0)
  BitVec.ofNat _ (sums.2 * 2 ^ 16 + sums.1)

def requestHeader : List UInt8 := [0x08, 1, 0x11, 1, 0, 0, 0, 0, 0, 0, 0, 0x2a]

def serializeRequest (request : List UInt8) : List UInt8 :=
  requestHeader ++ (varintBytes request.length ++ request)

def dropVarint : List UInt8 → List UInt8
  | [] => []
  | byte :: bytes => if byte < 128 then bytes else dropVarint bytes

def parseRequest (bytes : List UInt8) : Option (List UInt8) :=
  let request := dropVarint (bytes.drop requestHeader.length)
  if bytes = serializeRequest request then some request else none

/-- `RpcCodec` on requests with id 1. -/
def rpcCodec : ProtobufCodecLite (List UInt8) where
  tag := [0x52, 0x50, 0x43, 0x30]
  serialize := serializeRequest
  parseFromArray := parseRequest
  adler32 := adler
  rawCb := none

end ProtobufCodecLite
end JKYi.Net
