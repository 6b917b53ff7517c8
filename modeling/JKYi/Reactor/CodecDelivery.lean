import JKYi.Reactor.CodecSegments

/-!
# Delivery of frames

The length and the checksum of a frame are written through `toNetEndian` and read
through `toLittleEndian`, so the reader sees both with their bytes reversed. Frames
for which this makes no difference are delivered however their bytes are cut into
segments, and only these are.
-/

namespace JKYi.Net

open Buffer Consumer Nat List
namespace ProtobufCodecLite

open Option

variable {M : Type} (c : ProtobufCodecLite M) (host : Endian)

/-- What the length field counts: tag, message and checksum. -/
def size (m : M) : ℕ := c.tag.length + (c.serialize m).length + kChecksumLen

/-- What the checksum is of. -/
def body (m : M) : List UInt8 := c.tag ++ c.serialize m

def lengthField (m : M) : BitVec (8 * 4) := BitVec.ofNat _ (c.size m)

def checksumField (m : M) : BitVec (8 * 4) := c.adler32 (c.body m)

def frame (m : M) : List UInt8 :=
  memory host (byteswapInt (c.lengthField m)) ++
    (c.body m ++ memory host (byteswapInt (c.checksumField m)))

/-- Reversing the bytes of the length and of the checksum changes neither. -/
def SelfSwapped (m : M) : Prop :=
  byteswapInt (c.lengthField m) = c.lengthField m ∧
    byteswapInt (c.checksumField m) = c.checksumField m

/-- The buffer of `send` for a message. -/
def output (m : M) : Option (List UInt8) := do
  let buf ← Buffer.create kInitialSize
  let buf ← c.fillEmptyBuffer host buf m
  return buf.contents

/-- However the frames of `ms` are cut into segments, a receive buffer of any initial size ends
empty and `messageCallback_` has been called with the messages of `ms` in order and nothing else. -/
def Delivers (ms : List M) : Prop :=
  ∃ frames, ms.mapM (c.output host) = some frames ∧
    ∀ (initialSize : ℕ) (segments : List (List UInt8)), segments.flatten = frames.flatten →
      ∃ buf buf', Buffer.create initialSize = some buf ∧
        c.feed host segments buf = some (ms.map .message, buf') ∧ buf'.contents = []

section

variable {c} {m : M} {buf : Buffer}

theorem length_body : (c.body m).length + kChecksumLen = c.size m := by
  simp [body, size]

theorem length_frame : (c.frame host m).length = kHeaderLen + c.size m := by
  rw [frame, length_append, length_append, length_memory, length_memory, ← length_body]
  rfl

theorem checksum_eq {bytes : List UInt8} (h : bytes.length < 2 ^ 32) :
    c.checksum bytes = c.adler32 bytes := by
  rw [checksum, mod_eq_of_lt h, take_length]

theorem fillEmptyBuffer_spec (h : buf.Wf) (hempty : buf.contents = [])
    (hroom : kHeaderLen ≤ buf.readerIndex) (hsize : c.size m ≤ kMaxMessageLen) :
    ∃ buf', c.fillEmptyBuffer host buf m = some buf' ∧ buf'.Wf ∧
      buf'.contents = c.frame host m := by
  obtain ⟨b₁, h₁, hspec₁⟩ := append_spec h c.tag
  obtain ⟨b₂, h₂, hspec₂⟩ := write_spec hspec₁.wf
    (le_add_right (c.serialize m).length kChecksumLen)
  rw [hspec₁.contents_eq, hempty, nil_append] at hspec₂
  have hsmall : (c.tag ++ c.serialize m).length < 2 ^ 32 := by
    rw [length_append]
    unfold size kMaxMessageLen at hsize
    omega
  have hsum : c.checksum b₂.contents = c.checksumField m := by
    rw [hspec₂.contents_eq, checksum_eq hsmall]
    rfl
  obtain ⟨b₃, h₃, hspec₃⟩ := append_spec hspec₂.wf
    (memory host (byteswapInt (c.checksumField m)))
  rw [hspec₂.contents_eq] at hspec₃
  have hreadable : b₃.readableBytes = c.size m := by
    rw [← hspec₃.wf.length_contents, hspec₃.contents_eq, length_append, length_memory,
      ← length_body]
    rfl
  have hfront : (memory host (byteswapInt (c.lengthField m))).length ≤ b₃.prependableBytes := by
    have hleft := ((hspec₁.trans hspec₂).trans hspec₃).room
    rw [length_memory]
    unfold prependableBytes
    unfold kHeaderLen at hroom
    unfold kCheapPrepend at hleft
    omega
  obtain ⟨b₄, h₄, hwf, hcontents, -⟩ := prepend_spec hspec₃.wf hfront
  refine ⟨b₄, ?_, hwf, ?_⟩
  · have hnone := h.contents_eq_nil_iff.1 hempty
    have happend : appendInt32 host (c.checksumField m) b₂ = some b₃ := by
      rw [appendInt32, appendInt, toNetEndian_eq]
      exact h₃
    have hlen : toNetEndian (BitVec.ofNat (8 * 4) b₃.readableBytes) =
        byteswapInt (c.lengthField m) := by
      rw [toNetEndian_eq, hreadable]
      rfl
    have hparts : b₃.readableBytes = c.tag.length + (c.serialize m).length + kChecksumLen :=
      hreadable
    simp only [fillEmptyBuffer, serializeToBuffer, assert_pos hnone, h₁, h₂,
      bind_eq_bind, bind_some, pure, hsum, happend, hlen]
    rw [assert_pos hparts]
    exact h₄
  · rw [hcontents, hspec₃.contents_eq]
    rfl

theorem output_eq (hsize : c.size m ≤ kMaxMessageLen) :
    c.output host m = some (c.frame host m) := by
  obtain ⟨b, hb, hwf, hempty, hreader⟩ := create_spec kInitialSize
  have hroom : kHeaderLen ≤ b.readerIndex := by
    rw [hreader]
    decide
  obtain ⟨b', hb', -, hcontents⟩ := fillEmptyBuffer_spec host hwf hempty hroom hsize
  rw [output, hb, bind_eq_bind, bind_some, hb', bind_some, hcontents]
  rfl

theorem mapM_output {ms : List M} (hsize : ∀ m ∈ ms, c.size m ≤ kMaxMessageLen) :
    ms.mapM (c.output host) = some (ms.map (c.frame host)) := by
  induction ms with
  | nil => rfl
  | cons m ms ih =>
    obtain ⟨hm, hms⟩ := forall_mem_cons.1 hsize
    rw [mapM_cons, output_eq host hm, bind_eq_bind, bind_some, ih hms]
    rfl

end

section

variable {c host} {m : M}

theorem parse_frame (hsize : c.size m ≤ kMaxMessageLen) :
    c.parse host (c.body m ++ memory host (byteswapInt (c.checksumField m))) =
      if c.checksumField m = byteswapInt (c.checksumField m) then
        (c.parseFromArray (c.serialize m)).elim (.error .kParseError) .ok
      else .error .kCheckSumError := by
  set bytes := c.body m ++ memory host (byteswapInt (c.checksumField m)) with hbytes
  have hlast : bytes.length - kChecksumLen = (c.body m).length := by
    rw [hbytes, length_append, length_memory]
    exact Nat.add_sub_cancel ..
  have htake : bytes.take (bytes.length - kChecksumLen) = c.body m := by
    rw [hlast, hbytes, take_left]
  have hdrop : bytes.drop (bytes.length - kChecksumLen) =
      memory host (byteswapInt (c.checksumField m)) := by
    rw [hlast, hbytes, drop_left]
  have hsmall : (c.body m).length < 2 ^ 32 := by
    have := length_body (c := c) (m := m)
    unfold kMaxMessageLen at hsize
    omega
  have hvalid : c.validateChecksum host bytes =
      decide (c.checksumField m = byteswapInt (c.checksumField m)) := by
    rw [validateChecksum, htake, hdrop, checksum_eq hsmall, asInt32, toLittleEndian_eq,
      ofMemory_memory]
    rfl
  have htag : bytes.take c.tag.length = c.tag := by
    rw [hbytes, body, append_assoc, take_left]
  have hdata : (bytes.drop c.tag.length).take (bytes.length - kChecksumLen - c.tag.length) =
      c.serialize m := by
    have hlength : (c.body m).length - c.tag.length = (c.serialize m).length := by
      rw [body, length_append, Nat.add_sub_cancel_left]
    rw [hlast, hlength, hbytes, body, append_assoc, drop_left, take_left]
  simp only [parse, hvalid, htag, hdata, decide_eq_true_eq, if_true]
  cases c.parseFromArray (c.serialize m) <;> rfl

theorem toInt_lengthField (hsize : c.size m ≤ kMaxMessageLen) :
    (c.lengthField m).toInt = c.size m := by
  unfold kMaxMessageLen at hsize
  have hnat : (c.lengthField m).toNat = c.size m := mod_eq_of_lt (by omega)
  rw [BitVec.toInt_eq_toNat_of_lt, hnat]
  rw [hnat]
  omega

theorem kMinMessageLen_le_size (m : M) : c.kMinMessageLen ≤ c.size m := by
  unfold kMinMessageLen size
  omega

theorem declared_frame (c : ProtobufCodecLite M) (host : Endian) (m : M) (rest : List UInt8) :
    declared host (c.frame host m ++ rest) = (byteswapInt (c.lengthField m)).toInt := by
  have hfour : (memory host (byteswapInt (c.lengthField m))).length = kHeaderLen :=
    length_memory _ _
  rw [declared, frame, append_assoc, take_left' hfour, asInt32, toLittleEndian_eq, ofMemory_memory]

variable (hraw : ∀ rawCb ∈ c.rawCb, ∀ d, rawCb d = true)

include hraw

theorem judge_eq (frame : List UInt8) :
    c.judge host frame = match c.parse host (frame.drop kHeaderLen) with
      | .ok m => .take frame.length [m] ()
      | .error e => .stop 0 e := by
  have hpasses : (c.rawCb.any fun rawCb => !rawCb frame) = false := by
    cases hcb : c.rawCb with
    | none => rfl
    | some rawCb => simp [hraw rawCb hcb]
  rw [judge, hpasses]
  rfl

theorem examine_take {w : List UInt8} {n : ℕ} {out : List M}
    (h : c.examine host w = .take n out ()) : out ≠ [] ∧ n = kHeaderLen + (declared host w).toNat ∧
      c.kMinMessageLen ≤ declared host w ∧ c.judge host (w.take n) = .take n out () := by
  unfold examine at h
  split_ifs at h with henough hlimits hfits
  have hjudge := h
  rw [judge_eq hraw] at h
  split at h <;> cases h
  rw [length_take_of_le hfits]
  rw [length_take_of_le hfits] at hjudge
  exact ⟨nofun, rfl, by omega, hjudge⟩

theorem judge_frame (hsize : c.size m ≤ kMaxMessageLen)
    (hparse : c.parseFromArray (c.serialize m) = some m) :
    c.judge host (c.frame host m) =
      if c.checksumField m = byteswapInt (c.checksumField m) then
        .take (c.frame host m).length [m] ()
      else .stop 0 .kCheckSumError := by
  have hdrop : (c.frame host m).drop kHeaderLen =
      c.body m ++ memory host (byteswapInt (c.checksumField m)) := drop_left' (length_memory _ _)
  rw [judge_eq hraw, hdrop, parse_frame hsize, hparse]
  split_ifs <;> rfl

/-- A frame whose length and checksum are read as written is taken off with its message. -/
theorem run_frame (hsize : c.size m ≤ kMaxMessageLen)
    (hparse : c.parseFromArray (c.serialize m) = some m) (hswap : c.SelfSwapped m)
    (rest : List UInt8) : (c.consumer host).run () (c.frame host m ++ rest) =
      ((c.consumer host).run () rest).after [m] := by
  have hmin := c.kMinMessageLen_le_size m
  have hlength := length_frame host (c := c) (m := m)
  have hdeclared := c.declared_frame host m rest
  rw [hswap.1, toInt_lengthField hsize] at hdeclared
  have hmove : (c.consumer host).move () (c.frame host m ++ rest) =
      .take (c.frame host m).length [m] () := by
    rw [consumer_move, examine, length_append, if_pos (by omega), hdeclared, if_neg (by omega),
      Int.toNat_natCast, if_pos (by omega), take_left' hlength, judge_frame hraw hsize hparse,
      if_pos hswap.2.symm]
  rw [run_take hmove, drop_left]

theorem left_eq_of_run {w left : List UInt8}
    (h : (c.consumer host).run () w = ⟨[], .inl (), left⟩) : left = w := by
  cases hmove : (c.consumer host).move () w with
  | wait =>
    rw [run_wait hmove] at h
    cases h
    rfl
  | stop n e =>
    rw [run_stop hmove] at h
    cases h
  | take n out =>
    rw [run_take hmove] at h
    exact absurd (append_eq_nil_iff.1 (congrArg Progress.outputs h)).1 (examine_take hraw hmove).1

/-- A frame that is taken off with a message, and nothing left, was read with its own length and
checksum. -/
theorem selfSwapped_of_run (hsize : c.size m ≤ kMaxMessageLen)
    (hparse : c.parseFromArray (c.serialize m) = some m)
    (h : (c.consumer host).run () (c.frame host m) = ⟨[m], .inl (), []⟩) : c.SelfSwapped m := by
  cases hmove : (c.consumer host).move () (c.frame host m) with
  | wait =>
    rw [run_wait hmove] at h
    cases h
  | stop n e =>
    rw [run_stop hmove] at h
    cases h
  | take n out =>
    obtain ⟨hout, hn, hlow, hjudge⟩ := examine_take hraw hmove
    have hdeclared := c.declared_frame host m []
    rw [append_nil] at hdeclared
    rw [run_take hmove, Progress.after, Progress.mk.injEq] at h
    obtain ⟨hboth, hstatus, hleft⟩ := h
    have hrest := ((append_eq_singleton_iff.1 hboth).resolve_left fun h => hout h.1).2
    have hall := left_eq_of_run hraw (Progress.ext hrest hstatus hleft)
    have hle := (bounds_of_take hmove).2
    rw [eq_comm, drop_eq_nil_iff] at hall
    have hlength := length_frame host (c := c) (m := m)
    have hint : (byteswapInt (c.lengthField m)).toInt = c.size m := by omega
    refine ⟨BitVec.eq_of_toInt_eq (hint.trans (toInt_lengthField hsize).symm), ?_⟩
    rw [take_of_length_le hall, judge_frame hraw hsize hparse] at hjudge
    split_ifs at hjudge with hsum
    exact hsum.symm

end

section

variable {c host} {buf : Buffer} {ms : List M}

theorem upToError_eq_iff {calls : List (Callback M)} :
    upToError calls = (ms, none) ↔ calls = ms.map .message := by
  induction calls generalizing ms with
  | nil => cases ms <;> simp [upToError]
  | cons call calls ih =>
    cases call with
    | error e => cases ms <;> simp [upToError]
    | message m =>
      cases ms with
      | nil => simp [upToError]
      | cons m' ms =>
        rw [map_cons, cons.injEq, ← ih]
        simp [upToError, Prod.ext_iff, and_assoc]

/-- Without an error, the calls after the segments are those up to the first error. -/
theorem feed_of_feedUntilError {left : List UInt8} {segments : List (List UInt8)}
    (h : c.feedUntilError host segments buf = some (ms, none, left)) :
    ∃ buf', c.feed host segments buf = some (ms.map .message, buf') ∧ buf'.contents = left := by
  induction segments generalizing buf ms with
  | nil =>
    cases h
    exact ⟨buf, rfl, rfl⟩
  | cons segment segments ih =>
    obtain ⟨b₁, h₁, h⟩ := bind_eq_some_iff.1 h
    obtain ⟨⟨calls, b₂⟩, h₂, h⟩ := bind_eq_some_iff.1 h
    dsimp only at h
    split at h
    · cases h
    next ms₁ hcalls =>
    obtain ⟨⟨ms₂, e, left'⟩, hrest, h⟩ := bind_eq_some_iff.1 h
    cases h
    obtain ⟨b₃, h₃, hleft⟩ := ih hrest
    refine ⟨b₃, ?_, hleft⟩
    simp only [feed, h₁, h₂, h₃, bind_eq_bind, bind_some, upToError_eq_iff.1 hcalls, map_append]
    rfl

theorem delivers_iff (hsize : ∀ m ∈ ms, c.size m ≤ kMaxMessageLen) : c.Delivers host ms ↔
    (c.consumer host).run () (ms.flatMap (c.frame host)) = ⟨ms, .inl (), []⟩ := by
  have hframes := mapM_output host hsize
  constructor
  · rintro ⟨frames, hsent, hfeed⟩
    cases hframes.symm.trans hsent
    obtain ⟨b, b', hb, hrun, hempty⟩ := hfeed 0 [(ms.map (c.frame host)).flatten] (append_nil _)
    obtain ⟨b₀, hb₀, hwf, hnil, -⟩ := create_spec 0
    cases hb.symm.trans hb₀
    obtain ⟨b₁, h₁, hspec⟩ := append_spec hwf (ms.map (c.frame host)).flatten
    obtain ⟨b₂, h₂, -, hleft⟩ := onMessage_eq c host hspec.wf
    rw [hspec.contents_eq, hnil, nil_append, ← flatMap_def] at h₂ hleft
    simp only [feed, h₁, h₂, bind_eq_bind, bind_some, pure, append_nil, some.injEq, Prod.mk.injEq]
      at hrun
    obtain ⟨hcalls, rfl⟩ := hrun
    rw [← upToError_eq_iff, upToError_callbacks, Prod.mk.injEq, Sum.getRight?_eq_none_iff,
      Sum.isLeft_iff] at hcalls
    obtain ⟨houtputs, ⟨⟩, hstatus⟩ := hcalls
    exact Progress.ext houtputs hstatus (hleft.symm.trans hempty)
  · intro hrun
    refine ⟨_, hframes, fun n segments hsegments => ?_⟩
    obtain ⟨b, hb, hwf, hempty, -⟩ := create_spec n
    obtain ⟨p, hp, hfeed⟩ := feedUntilError_eq c host segments hwf
    rw [hempty, foldl_resume (consumer_nil c host), hsegments, ← flatMap_def, hrun] at hp
    subst hp
    obtain ⟨b', hrun, hleft⟩ := feed_of_feedUntilError hfeed
    exact ⟨b, b', hb, hrun, hleft⟩

end

/-! Requests. -/

theorem foldl_adlerStep_zeros {a b : ℕ} (ha : a < 65521) (hb : b < 65521) (n : ℕ) :
    (replicate n 0).foldl adlerStep (a, b) = (a, (b + n * a) % 65521) := by
  induction n generalizing b with
  | zero => rw [zero_mul, add_zero, mod_eq_of_lt hb]; rfl
  | succ n ih =>
    have hstep : adlerStep (a, b) 0 = (a, (b + a) % 65521) := by
      simp only [adlerStep, UInt8.toNat_zero, add_zero, mod_eq_of_lt ha]
    rw [replicate_succ, foldl_cons, hstep, ih (mod_lt _ (by decide)),
      mod_add_mod]
    congr 2
    ring

theorem dropVarint_varintBytes (n : ℕ) (bytes : List UInt8) :
    dropVarint (varintBytes n ++ bytes) = bytes := by
  induction n using Nat.strong_induction_on with
  | _ n ih =>
    rcases lt_or_ge n 128 with hlast | hmore
    · have hval : (UInt8.ofNat n).toNat = n :=
        UInt8.toNat_ofNat_of_lt (by rw [UInt8.size]; omega)
      have hbyte : UInt8.ofNat n < 128 := UInt8.lt_iff_toNat_lt.2 (by rw [hval]; exact hlast)
      rw [varintBytes_of_lt hlast, cons_append, dropVarint, if_pos hbyte, nil_append]
    · have hval : (UInt8.ofNat (n % 128 + 128)).toNat = n % 128 + 128 :=
        UInt8.toNat_ofNat_of_lt (by rw [UInt8.size]; omega)
      have hbyte : ¬ UInt8.ofNat (n % 128 + 128) < 128 := by
        rw [UInt8.lt_iff_toNat_lt, hval]
        exact not_lt.mpr (Nat.le_add_left 128 (n % 128))
      rw [varintBytes_of_le hmore, cons_append, dropVarint, if_neg hbyte]
      exact ih (n / 128) (by omega)

theorem parseRequest_serializeRequest (request : List UInt8) :
    parseRequest (serializeRequest request) = some request := by
  have hrequest :
      dropVarint ((serializeRequest request).drop requestHeader.length) = request := by
    rw [serializeRequest, drop_left, dropVarint_varintBytes]
  rw [parseRequest, hrequest, if_pos rfl]

/-- A request whose length and checksum are their own reversals. -/
def palindromicRequest : List UInt8 := replicate 65761 0 ++ 3 :: replicate 7 0

theorem length_palindromicRequest : palindromicRequest.length = 65769 := by
  rw [palindromicRequest, length_append, length_cons, length_replicate, length_replicate]

theorem varint_palindromicRequest : varintBytes palindromicRequest.length = [0xe9, 0x81, 4] := by
  rw [length_palindromicRequest, varintBytes_of_le (by decide), varintBytes_of_le (by decide),
    varintBytes_of_lt (by decide)]
  rfl

theorem body_palindromicRequest : rpcCodec.body palindromicRequest =
    [0x52, 0x50, 0x43, 0x30, 0x08, 1, 0x11, 1, 0, 0, 0, 0, 0, 0, 0, 0x2a, 0xe9, 0x81, 4] ++
      (replicate 65761 0 ++ (3 :: replicate 7 0)) := by
  change rpcCodec.tag ++ serializeRequest palindromicRequest = _
  rw [serializeRequest, varint_palindromicRequest]
  rfl

theorem size_request (request : List UInt8) :
    rpcCodec.size request = 20 + (varintBytes request.length).length + request.length := by
  simp only [size, rpcCodec, serializeRequest, requestHeader, length_append,
    length_cons, length_nil, kChecksumLen]
  omega

theorem size_palindromicRequest : rpcCodec.size palindromicRequest = 65792 := by
  rw [size_request, varint_palindromicRequest, length_palindromicRequest]
  rfl

theorem selfSwapped_palindromicRequest : rpcCodec.SelfSwapped palindromicRequest := by
  constructor
  · rw [lengthField, size_palindromicRequest]
    decide
  · have hsum : rpcCodec.checksumField palindromicRequest = 0xcc0202cc#32 := by
      rw [checksumField, body_palindromicRequest]
      change adler _ = _
      rw [adler, foldl_append, foldl_append]
      have hstart : [(0x52 : UInt8), 0x50, 0x43, 0x30, 0x08, 1, 0x11, 1, 0, 0, 0, 0, 0, 0, 0, 0x2a,
          0xe9, 0x81, 4].foldl adlerStep (1, 0) = (713, 6420) := by decide
      rw [hstart, foldl_adlerStep_zeros (by decide) (by decide)]
      decide
    rw [hsum]
    decide

variable {c : ProtobufCodecLite M} {host : Endian}

theorem run_frames_iff (hparse : ∀ m, c.parseFromArray (c.serialize m) = some m)
    (hraw : ∀ rawCb ∈ c.rawCb, ∀ d, rawCb d = true) {ms : List M}
    (hsize : ∀ m ∈ ms, c.size m ≤ kMaxMessageLen) :
    (∀ k, (c.consumer host).run () ((ms.take k).flatMap (c.frame host)) =
      ⟨ms.take k, .inl (), []⟩) ↔ ∀ m ∈ ms, c.SelfSwapped m := by
  induction ms with
  | nil => simp [run_wait (consumer_nil c host), Progress.waiting]
  | cons m ms ih =>
    obtain ⟨hm, hms⟩ := forall_mem_cons.1 hsize
    have hnext (hswap : c.SelfSwapped m) (k : ℕ) :
        (c.consumer host).run () (((m :: ms).take (k + 1)).flatMap (c.frame host)) =
            ⟨(m :: ms).take (k + 1), .inl (), []⟩ ↔
          (c.consumer host).run () ((ms.take k).flatMap (c.frame host)) =
            ⟨ms.take k, .inl (), []⟩ := by
      rw [take_succ_cons, flatMap_cons, run_frame hraw hm (hparse m) hswap]
      simp [Progress.after, Progress.ext_iff]
    rw [forall_mem_cons, ← ih hms]
    constructor
    · intro h
      have hswap := selfSwapped_of_run hraw hm (hparse m) (by simpa using h 1)
      exact ⟨hswap, fun k => (hnext hswap k).1 (h (k + 1))⟩
    · rintro ⟨hswap, h⟩ (_ | k)
      · exact run_wait (consumer_nil c host)
      · exact (hnext hswap k).2 (h k)

/-- The first messages of a list are delivered, for every number of them, exactly when each
message has a length and a checksum that are the same with their bytes reversed. -/
theorem codec_delivers_iff (hparse : ∀ m, c.parseFromArray (c.serialize m) = some m)
    (hraw : ∀ rawCb ∈ c.rawCb, ∀ d, rawCb d = true) {ms : List M}
    (hsize : ∀ m ∈ ms, c.size m ≤ kMaxMessageLen) :
    (∀ k, c.Delivers host (ms.take k)) ↔ ∀ m ∈ ms, c.SelfSwapped m := by
  have hdelivers (k : ℕ) : c.Delivers host (ms.take k) ↔ _ :=
    delivers_iff fun m hm => hsize m (mem_of_mem_take hm)
  rw [forall_congr' hdelivers]
  exact run_frames_iff hparse hraw hsize

/-- The length of the shortest request is 21, which is read as 352321536. -/
theorem codec_rejects_request : ∃ frame buf buf',
    rpcCodec.output .little [] = some frame ∧ Buffer.create 0 = some buf ∧
      rpcCodec.feed .little [frame] buf = some ([.error .kInvalidLength], buf') := by
  have hrun : (do
      let frame ← rpcCodec.output .little []
      let buf ← Buffer.create 0
      rpcCodec.feed .little [frame] buf).map Prod.fst = some [.error .kInvalidLength] := by
    decide +kernel
  obtain ⟨⟨_, buf'⟩, hrun, rfl⟩ := map_eq_some_iff.1 hrun
  obtain ⟨frame, hframe, hrun⟩ := bind_eq_some_iff.1 hrun
  obtain ⟨buf, hbuf, hrun⟩ := bind_eq_some_iff.1 hrun
  exact ⟨frame, buf, buf', hframe, hbuf, hrun⟩

/-- A request that goes unharmed through the two conversions is delivered. -/
theorem codec_delivers_iff_request : rpcCodec.SelfSwapped palindromicRequest ∧
    rpcCodec.Delivers .little [palindromicRequest] := by
  have hsize : ∀ m ∈ [palindromicRequest], rpcCodec.size m ≤ kMaxMessageLen := by
    intro m hm
    rw [mem_singleton.1 hm, size_palindromicRequest]
    decide
  have hswap : ∀ m ∈ [palindromicRequest], rpcCodec.SelfSwapped m := by
    intro m hm
    rw [mem_singleton.1 hm]
    exact selfSwapped_palindromicRequest
  have hdelivers : ∀ k, rpcCodec.Delivers .little ([palindromicRequest].take k) :=
    (codec_delivers_iff parseRequest_serializeRequest (fun _ h => by cases h) hsize).2 hswap
  exact ⟨selfSwapped_palindromicRequest, hdelivers 1⟩

end ProtobufCodecLite
end JKYi.Net
