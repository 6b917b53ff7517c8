import JKYi.Foundation.Incremental
import JKYi.Reactor.ProtobufCodec

/-!
# Segments of a stream of frames

What `onMessage` makes of a stream up to the first error, and what it leaves of it,
is the same however the stream is cut into segments: a round of its loop decides on
a frame only when the whole frame is there.
-/

namespace JKYi.Net

open Buffer Consumer List
namespace ProtobufCodecLite

open Option

variable {M : Type}

def upToError : List (Callback M) → List M × Option ErrorCode
  | [] => ([], none)
  | .message m :: calls => (m :: (upToError calls).1, (upToError calls).2)
  | .error e :: _ => ([], some e)

variable (c : ProtobufCodecLite M) (host : Endian)

/-- Segments arrive, and `onMessage` is called after each until it reports an error: the messages
and the error, and the bytes that are in the buffer then or have not arrived. -/
def feedUntilError : List (List UInt8) → Buffer →
    Option (List M × Option ErrorCode × List UInt8)
  | [], buf => some ([], none, buf.contents)
  | segment :: segments, buf => do
    let buf ← buf.append segment
    let (calls, buf) ← c.onMessage host buf
    match upToError calls with
    | (ms, some e) => return (ms, some e, buf.contents ++ segments.flatten)
    | (ms, none) =>
      let (ms', e, left) ← feedUntilError segments buf
      return (ms ++ ms', e, left)

section

def declared (w : List UInt8) : ℤ := (asInt32 host (w.take kHeaderLen)).toInt

def judge (frame : List UInt8) : Move Unit M ErrorCode :=
  if c.rawCb.any fun rawCb => !rawCb frame then .take frame.length [] ()
  else
    match c.parse host (frame.drop kHeaderLen) with
    | .ok m => .take frame.length [m] ()
    | .error e => .stop 0 e

def examine (w : List UInt8) : Move Unit M ErrorCode :=
  if c.kMinMessageLen + kHeaderLen ≤ w.length then
    if declared host w > kMaxMessageLen ∨ declared host w < c.kMinMessageLen then
      .stop 0 .kInvalidLength
    else if kHeaderLen + (declared host w).toNat ≤ w.length then
      c.judge host (w.take (kHeaderLen + (declared host w).toNat))
    else .wait
  else .wait

def Verdict.move : Verdict M → Move Unit M ErrorCode
  | .wait => .wait
  | .fail e => .stop 0 e
  | .skip n => .take n [] ()
  | .deliver n m => .take n [m] ()

variable {c host} {buf : Buffer} {w : List UInt8}

theorem peekInt32_declared (hlen : kHeaderLen ≤ buf.readableBytes) :
    ∃ x, buf.peekInt32 host = some x ∧ x.toInt = declared host buf.contents := by
  refine ⟨asInt32 host (buf.contents.take kHeaderLen), ?_, rfl⟩
  have hfour : 4 ≤ buf.readableBytes := hlen
  simp [peekInt32, peekInt, hfour, asInt32, kHeaderLen]

theorem inspect_move (c : ProtobufCodecLite M) (host : Endian) (h : buf.Wf) :
    (c.inspect host buf).map Verdict.move = some (c.examine host buf.contents) := by
  rw [inspect, examine, h.length_contents]
  by_cases henough : c.kMinMessageLen + kHeaderLen ≤ buf.readableBytes
  · obtain ⟨x, hpeek, hx⟩ : ∃ x, buf.peekInt32 host = some x ∧
        x.toInt = declared host buf.contents := peekInt32_declared (by omega)
    rw [if_pos henough, if_pos henough, hpeek]
    simp only [bind_eq_bind, bind_some, hx]
    split
    · rfl
    split
    next hfits =>
      rw [judge, length_take_of_le (by rw [h.length_contents]; exact hfits)]
      split
      · rfl
      · cases c.parse host ((buf.contents.take
          (kHeaderLen + (declared host buf.contents).toNat)).drop kHeaderLen) <;> rfl
    · rfl
  · rw [if_neg henough, if_neg henough]
    rfl

theorem judge_fits {frame : List UInt8} (h : 0 < frame.length) :
    (c.judge host frame).Fits frame.length := by
  rw [judge]
  split
  · exact ⟨h, le_rfl⟩
  · split
    · exact ⟨h, le_rfl⟩
    · exact Nat.zero_le _

/-- When the length is out of bounds or the whole frame is there, bytes behind it do not matter. -/
theorem examine_decided (w : List UInt8) : c.examine host w = .wait ∨
    (c.examine host w).Fits w.length ∧
      ∀ more, c.examine host (w ++ more) = c.examine host w := by
  by_cases henough : c.kMinMessageLen + kHeaderLen ≤ w.length
  · have hmore (more : List UInt8) : c.kMinMessageLen + kHeaderLen ≤ (w ++ more).length := by
      rw [length_append]
      omega
    have hsame (more : List UInt8) : declared host (w ++ more) = declared host w := by
      rw [declared, take_append_of_le_length (by omega), declared]
    by_cases hlimits : declared host w > kMaxMessageLen ∨ declared host w < c.kMinMessageLen
    · have hstop : c.examine host w = .stop 0 .kInvalidLength := by
        rw [examine, if_pos henough, if_pos hlimits]
      refine .inr ⟨hstop ▸ Nat.zero_le _, fun more => ?_⟩
      rw [hstop, examine, if_pos (hmore more), hsame, if_pos hlimits]
    by_cases hfits : kHeaderLen + (declared host w).toNat ≤ w.length
    · have hjudge : c.examine host w =
          c.judge host (w.take (kHeaderLen + (declared host w).toNat)) := by
        rw [examine, if_pos henough, if_neg hlimits, if_pos hfits]
      have hlen := length_take_of_le hfits
      have hpos : 0 < kHeaderLen := by decide
      refine .inr ⟨hjudge ▸ (judge_fits (by omega)).mono (by omega), fun more => ?_⟩
      rw [hjudge, examine, if_pos (hmore more), hsame, if_neg hlimits,
        if_pos (by rw [length_append]; omega), take_append_of_le_length hfits]
    · left
      rw [examine, if_pos henough, if_neg hlimits, if_neg hfits]
  · exact .inl (if_neg henough)

variable (c host)

def consumer : Consumer UInt8 Unit M ErrorCode where
  move _ w := c.examine host w
  decided _ := examine_decided

theorem consumer_move (w : List UInt8) : (c.consumer host).move () w = c.examine host w := rfl

end

section

variable {c host} {buf : Buffer}

def callbacks (p : Consumer.Progress UInt8 Unit M ErrorCode) : List (Callback M) :=
  p.outputs.map .message ++ p.status.getRight?.toList.map .error

theorem upToError_callbacks (p : Consumer.Progress UInt8 Unit M ErrorCode) :
    upToError (callbacks p) = (p.outputs, p.status.getRight?) := by
  obtain ⟨outputs, status, left⟩ := p
  induction outputs with
  | nil => cases status <;> rfl
  | cons m outputs ih =>
    change (m :: (upToError _).1, (upToError _).2) = _
    exact congrArg (fun r => (m :: r.1, r.2)) ih

theorem loop_deliver {fuel n : ℕ} {m : M} {calls : List (Callback M)} {b₁ buf' : Buffer}
    (h : c.inspect host buf = some (.deliver n m)) (hretrieve : buf.retrieve n = some b₁)
    (hrest : c.onMessageLoop host fuel b₁ = some (calls, buf')) :
    c.onMessageLoop host (fuel + 1) buf = some (.message m :: calls, buf') := by
  simp only [onMessageLoop, h, bind_eq_bind, bind_some, hretrieve, hrest]
  rfl

theorem onMessageLoop_eq (fuel : ℕ) (h : buf.Wf) :
    ∃ buf', c.onMessageLoop host fuel buf =
        some (callbacks ((c.consumer host).drain fuel () buf.contents), buf') ∧ buf'.Wf ∧
      buf'.contents = ((c.consumer host).drain fuel () buf.contents).left := by
  induction fuel generalizing buf with
  | zero => exact ⟨buf, rfl, h, rfl⟩
  | succ fuel ih =>
    obtain ⟨v, hv, hv'⟩ := map_eq_some_iff.mp (inspect_move c host h)
    have hmove : (c.consumer host).move () buf.contents = v.move := hv'.symm
    rw [Consumer.drain, hmove]
    cases v with
    | wait | fail e =>
      refine ⟨buf, ?_, h, rfl⟩
      rw [onMessageLoop, hv]
      rfl
    | skip n =>
      have hn := (bounds_of_take hmove).2
      obtain ⟨b₁, hretrieve, hspec⟩ := retrieve_spec h (h.length_contents ▸ hn)
      obtain ⟨b₂, hloop, hwf, hleft⟩ := ih hspec.wf
      rw [hspec.contents_eq] at hloop hleft
      refine ⟨b₂, ?_, hwf, hleft⟩
      simp only [onMessageLoop, hv, hretrieve, bind_eq_bind, bind_some, hloop]
      rfl
    | deliver n m =>
      have hn := (bounds_of_take hmove).2
      obtain ⟨b₁, hretrieve, hspec⟩ := retrieve_spec h (h.length_contents ▸ hn)
      obtain ⟨b₂, hloop, hwf, hleft⟩ := ih hspec.wf
      rw [hspec.contents_eq] at hloop hleft
      exact ⟨b₂, loop_deliver hv hretrieve hloop, hwf, hleft⟩

theorem onMessage_eq (c : ProtobufCodecLite M) (host : Endian) (h : buf.Wf) :
    ∃ buf', c.onMessage host buf =
        some (callbacks ((c.consumer host).run () buf.contents), buf') ∧ buf'.Wf ∧
      buf'.contents = ((c.consumer host).run () buf.contents).left := by
  rw [onMessage, ← h.length_contents]
  exact onMessageLoop_eq _ h

theorem feedUntilError_eq (c : ProtobufCodecLite M) (host : Endian)
    (segments : List (List UInt8)) (h : buf.Wf) :
    ∃ p, segments.foldl (c.consumer host).resume (.waiting () buf.contents) = p ∧
      c.feedUntilError host segments buf = some (p.outputs, p.status.getRight?, p.left) := by
  refine ⟨_, rfl, ?_⟩
  induction segments generalizing buf with
  | nil => rfl
  | cons segment segments ih =>
    obtain ⟨b₁, happend, hspec⟩ := append_spec h segment
    obtain ⟨b₂, hloop, hwf, hleft⟩ := onMessage_eq c host hspec.wf
    rw [hspec.contents_eq] at hloop hleft
    have hfirst : (c.consumer host).resume (.waiting () buf.contents) segment =
        (c.consumer host).run () (buf.contents ++ segment) := rfl
    obtain ⟨⟨outputs, status, left⟩, hrun⟩ :
        ∃ p, (c.consumer host).run () (buf.contents ++ segment) = p := ⟨_, rfl⟩
    rw [hrun] at hloop hleft hfirst
    rw [foldl_cons, hfirst]
    simp only [feedUntilError, happend, hloop, bind_eq_bind, bind_some, upToError_callbacks]
    cases status with
    | inl s =>
      have hrest := ih hwf
      rw [hleft] at hrest
      have hsplit : (⟨outputs, .inl s, left⟩ : Consumer.Progress UInt8 Unit M ErrorCode) =
          (Consumer.Progress.waiting () left).after outputs := by
        simp [Consumer.Progress.after, Consumer.Progress.waiting]
      rw [hsplit, foldl_resume_after]
      simp only [Sum.getRight?_inl, hrest, bind_some]
      rfl
    | inr e =>
      rw [foldl_resume_stopped, hleft]
      rfl

theorem consumer_nil (c : ProtobufCodecLite M) (host : Endian) :
    (c.consumer host).move () [] = .wait := by
  rw [consumer_move]
  refine if_neg fun h => ?_
  unfold kHeaderLen at h
  simp at h

end

/-- However a stream is cut into segments, and whatever the initial sizes of the buffers, the
messages up to the first error, that error and the bytes that are left then are the same. -/
theorem messages_segmentation (c : ProtobufCodecLite M) (host : Endian) (size₁ size₂ : ℕ)
    (segments₁ segments₂ : List (List UInt8)) (h : segments₁.flatten = segments₂.flatten) :
    ∃ result, (Buffer.create size₁).bind (c.feedUntilError host segments₁) = some result ∧
      (Buffer.create size₂).bind (c.feedUntilError host segments₂) = some result := by
  obtain ⟨b₁, h₁, hwf₁, hempty₁, -⟩ := create_spec size₁
  obtain ⟨b₂, h₂, hwf₂, hempty₂, -⟩ := create_spec size₂
  obtain ⟨p₁, hp₁, hfeed₁⟩ := feedUntilError_eq c host segments₁ hwf₁
  obtain ⟨p₂, hp₂, hfeed₂⟩ := feedUntilError_eq c host segments₂ hwf₂
  rw [hempty₁, foldl_resume (consumer_nil c host)] at hp₁
  rw [hempty₂, foldl_resume (consumer_nil c host), ← h, hp₁] at hp₂
  refine ⟨(p₁.outputs, p₁.status.getRight?, p₁.left), ?_, ?_⟩
  · rw [h₁, bind_some, hfeed₁]
  · rw [h₂, bind_some, hfeed₂, hp₂]

/-- A length of zero, cut inside the length field and not cut. -/
theorem messages_segmentation_zero :
    [[0, 0, 0], [0, 8, 1, 2, 3, 4, 5, 6, 7], [9]].flatten =
        [[(0 : UInt8), 0, 0, 0, 8, 1, 2, 3, 4, 5, 6, 7, 9]].flatten ∧
      ∃ result,
        (Buffer.create 0).bind (rpcCodec.feedUntilError .little
          [[0, 0, 0], [0, 8, 1, 2, 3, 4, 5, 6, 7], [9]]) = some result ∧
        (Buffer.create 1024).bind (rpcCodec.feedUntilError .little
          [[0, 0, 0, 0, 8, 1, 2, 3, 4, 5, 6, 7, 9]]) = some result :=
  ⟨by decide, messages_segmentation rpcCodec .little 0 1024 _ _ (by decide)⟩

end ProtobufCodecLite
end JKYi.Net
