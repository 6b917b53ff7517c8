import JKYi.Http2.PayloadIsolation

/-!
# Priorities across a connection

A priority is written as five bytes and read back as eight, so that it arrives, and lets a
header block arrive, only where the rest of the header happens to be what is missing.
-/

namespace JKYi.Http2

open HeadersFrame JKYi.ByteArray FrameCodec List

def CarriesPriority (frame : Frame) : Prop :=
  match frame.data with
  | some (.priority _) => frame.header.type = FrameType.priority.code
  | some (.headers f) => frame.header.type = FrameType.headers.code ∧ f.hpack = none ∧
      frame.header.has FrameFlagHeaders.priority = true
  | _ => False

/-- The same dependency, weight, header block and padding. -/
def SamePriority (frame g : Frame) : Prop :=
  match frame.data, g.data with
  | some (.priority f), some (.priority f') => f' = f
  | some (.headers f), some (.headers f') =>
    f'.priority = f.priority ∧ f'.data = f.data ∧ f'.padding = f.padding
  | _, _ => False

/-- The frames whose priority arrives: not exclusive, next to nothing behind it, and what is
read by mistake is what was meant. -/
def PriorityArrives (frame : Frame) : Prop :=
  match frame.data with
  | some (.priority f) => f.exclusive = 0 ∧ f.weight = frame.header.idByte 1
  | some (.headers f) => f.priority.exclusive = 0 ∧ f.padding = [] ∧
      if frame.header.has FrameFlagHeaders.padded then
        f.pad = 0 ∧ f.data = [] ∧ f.priority.weight = frame.header.idByte 0
      else f.priority.weight = frame.header.idByte 1 ∧
        (f.data = [] ∨ f.data = [frame.header.idByte 0])
  | _ => False

section

variable {frame : Frame}

theorem transfers_priority {f : PriorityFrame} (hdata : frame.data = some (.priority f))
    (htype : frame.header.type = FrameType.priority.code) : Transfers frame fun g =>
      g = ⟨frame.header.withLength frame.payload.length,
        some (.priority ⟨f.streamDep, 0, frame.header.idByte 1⟩)⟩ := by
  have hpayload : frame.payload = f.encode := by rw [Frame.payload, hdata]; rfl
  have hlen : frame.payload.length = 5 := by simp [hpayload, PriorityFrame.encode]
  apply transfers_of_parseBody hdata trivial (by omega)
  intro ba hba
  rw [hpayload] at hba ⊢
  exact parseBody_priority htype hba

theorem samePriority_iff_priority {f : PriorityFrame} (hdata : frame.data = some (.priority f))
    (htype : frame.header.type = FrameType.priority.code) :
    Transfers frame (SamePriority frame) ↔ PriorityArrives frame := by
  have harrives := transfers_priority hdata htype
  have hsame : ∀ g : Frame, g = ⟨frame.header.withLength frame.payload.length,
      some (.priority ⟨f.streamDep, 0, frame.header.idByte 1⟩)⟩ →
      (SamePriority frame g ↔ PriorityArrives frame) := by
    rintro g rfl
    obtain ⟨streamDep, exclusive, weight⟩ := f
    simp only [SamePriority, PriorityArrives, hdata, PriorityFrame.mk.injEq, true_and]
    tauto
  constructor
  · intro h
    obtain ⟨g, hg, hg'⟩ := h.common harrives
    exact (hsame g hg').mp hg
  · intro h
    exact harrives.mono fun g hg => (hsame g hg).mpr h

variable {header : FrameHeader}

theorem parseBody_headers {ba ba' : ByteArray} {g : Frame}
    (htype : header.type = FrameType.headers.code) :
    parseBody header ba = .ok (some g) ba' ↔ ∃ f, g = ⟨header, some (.headers f)⟩ ∧
      readParts header {} ba = .ok ((), f) ba' := by
  rw [parseBody, htype, FrameType.ofCode_code]
  constructor
  · intro hrun
    obtain ⟨⟨ok, f⟩, ba₁, hread, hpure⟩ := Run.bind_eq_ok_iff.mp hrun
    cases ok with
    | false => cases hpure
    | true =>
      cases hpure
      exact ⟨f, rfl, withObject_readFrom _ |>.mp hread⟩
  · rintro ⟨f, rfl, hrun⟩
    exact Run.bind_ok (withObject_readFrom _ |>.mpr hrun)

theorem overruns_of_parseBody {p : List UInt8} {ba ba' : ByteArray} {g : Frame}
    (hba : Received ba header p)
    (hlen : header.length.toNat = p.length) (htype : header.type = FrameType.headers.code)
    (hpriority : header.has FrameFlagHeaders.priority = true)
    (hrun : parseBody header ba = .ok (some g) ba') :
    if header.has FrameFlagHeaders.padded then p.length = 6 ∧ p.head? = some 0
    else p.length = 5 ∨ p.length = 6 := by
  have hcode : FrameType.ofCode header.type = some .headers := by
    rw [htype, FrameType.ofCode_code]
  by_contra h
  have hover : ¬ Overruns header.type header.flags p := by
    rw [Overruns, hcode]
    exact fun hover => h hover.2
  obtain ⟨s, hnone⟩ := rejects_priority hba hlen hcode hpriority hover
  rw [parseBody, hcode] at hrun
  cases hnone.symm.trans hrun

theorem take_eq_of_length {l : List UInt8} {m k : ℕ} (h : (l.take m).length = k) :
    l.take m = l.take k := by
  rw [← h, length_take, ← take_eq_take_min]

theorem HeadersFrame.payload_priority {f : HeadersFrame}
    (hpriority : header.has FrameFlagHeaders.priority = true)
    (hpadded : header.has FrameFlagHeaders.padded = false) :
    f.payload header = f.priority.encode ++ f.data := by
  simp [payload, padField, priorityField, paddingField, hpadded, hpriority]

theorem HeadersFrame.payload_priority_padded {f : HeadersFrame}
    (hpriority : header.has FrameFlagHeaders.priority = true)
    (hpadded : header.has FrameFlagHeaders.padded = true) :
    f.payload header = f.pad :: (f.priority.encode ++ (f.data ++ f.padding)) := by
  simp [payload, padField, priorityField, paddingField, hpadded, hpriority]

variable {f : HeadersFrame} (hdata : frame.data = some (.headers f))
  (htype : frame.header.type = FrameType.headers.code) (hpack : f.hpack = none)
  (hpriority : frame.header.has FrameFlagHeaders.priority = true)

include hdata htype hpriority in
/-- The header that goes out, with the length of the payload. -/
theorem exists_sent : ∃ header, frame.header.withLength frame.payload.length = header ∧
    frame.payload = f.payload frame.header ∧
    header.length.toNat = frame.payload.length % 2 ^ 24 ∧
    header.type = FrameType.headers.code ∧ header.has FrameFlagHeaders.priority = true :=
  ⟨_, rfl, by rw [Frame.payload, hdata]; rfl,
    frame.header.toNat_length_withLength frame.payload.length, htype, hpriority⟩

include hdata htype hpack

/-- It is enough to know what the reader makes of the payload. -/
theorem samePriority_of_readParts {header : FrameHeader} (f' : HeadersFrame)
    (hheader : frame.header.withLength frame.payload.length = header)
    (hlen : frame.payload.length < 2 ^ 24) (hparts : ∀ ba, Received ba header frame.payload →
      ∃ ba', readParts header {} ba = .ok ((), f') ba')
    (hsame : f'.priority = f.priority ∧ f'.data = f.data ∧ f'.padding = f.padding) :
    Transfers frame (SamePriority frame) := by
  have harrives : Transfers frame fun g => g = ⟨header, some (.headers f')⟩ := by
    apply transfers_of_parseBody hdata hpack hlen
    rw [hheader]
    intro ba hba
    obtain ⟨ba', hrun⟩ := hparts ba hba
    exact ⟨ba', (parseBody_headers (hheader ▸ htype)).mpr ⟨f', rfl, hrun⟩⟩
  apply harrives.mono
  rintro g rfl
  simpa only [SamePriority, hdata] using hsame

include hpriority

theorem samePriority_of_arrives (h : PriorityArrives frame) :
    Transfers frame (SamePriority frame) := by
  obtain ⟨header, hheader, hpayload, hlength, -, hpriority'⟩ := exists_sent hdata htype hpriority
  have hread := fun f' => samePriority_of_readParts hdata htype hpack f' hheader
  simp only [PriorityArrives, hdata] at h
  obtain ⟨hexclusive, hpadding, h⟩ := h
  have hdep : f.priority = ⟨f.priority.streamDep, 0, f.priority.weight⟩ := by
    rw [← hexclusive]
  split_ifs at h with hpadded
  · obtain ⟨hpad, hblock, hweight⟩ := h
    have heq : frame.payload = [0] ++ f.priority.encode := by
      rw [hpayload, payload_priority_padded hpriority hpadded, hpad, hblock, hpadding]
      simp
    have hlen : frame.payload.length = 6 := by simp [heq, PriorityFrame.encode]
    rw [hlen] at hlength
    refine hread { priority := ⟨f.priority.streamDep, 0, header.idByte 0⟩ } (by omega) ?_ ?_
    · intro ba hba
      rw [heq] at hba
      exact readParts_padded_short hpriority' (hheader ▸ hpadded) hlength hba
    · refine ⟨?_, hblock.symm, hpadding.symm⟩
      rw [hdep, hweight, ← hheader]
      rfl
  · obtain ⟨hweight, hblock⟩ := h
    have heq := hpayload.trans
      (payload_priority hpriority (Bool.eq_false_iff.mpr hpadded))
    have hlen : frame.payload.length = f.data.length + 5 := by
      simp [heq, PriorityFrame.encode, Nat.add_comm]
    have hone : f.data.length ≤ 1 := by
      rcases hblock with hblock | hblock <;> simp [hblock]
    have hnot : header.has FrameFlagHeaders.padded = false :=
      hheader ▸ Bool.eq_false_iff.mpr hpadded
    rw [hlen, Nat.mod_eq_of_lt (by omega)] at hlength
    refine hread { priority := ⟨f.priority.streamDep, 0, header.idByte 1⟩,
                   data := [header.idByte 0].take f.data.length } (by omega) ?_ ?_
    · intro ba hba
      rw [heq] at hba
      exact readParts_short hpriority' hnot hone hlength hba
    · refine ⟨?_, ?_, hpadding.symm⟩
      · rw [hdep, hweight, ← hheader]
        rfl
      · rcases hblock with hblock | hblock
        · rw [hblock]
          rfl
        · rw [hblock, ← hheader]
          rfl

theorem arrives_of_samePriority (hlen : frame.payload.length + 9 < 2 ^ 31)
    (h : Transfers frame (SamePriority frame)) : PriorityArrives frame := by
  obtain ⟨header, hheader, hpayload, hlength, htype', hpriority'⟩ :=
    exists_sent hdata htype hpriority
  have hfive : f.priority.encode.length = 5 := by simp [PriorityFrame.encode]
  obtain ⟨ba, ba', g, hba, hparsed, hsame⟩ := h.parsed hdata hpack hlen
  rw [hheader] at hba hparsed
  rw [← length_take_of_le (Nat.mod_le frame.payload.length _)] at hlength
  have hover := overruns_of_parseBody hba hlength htype' hpriority' hparsed
  obtain ⟨f', rfl, hrun⟩ := (parseBody_headers htype').mp hparsed
  simp only [SamePriority, hdata] at hsame
  obtain ⟨hprio, hblock, hpadding⟩ := hsame
  simp only [PriorityArrives, hdata]
  split_ifs with hpadded
  · rw [if_pos (hheader ▸ hpadded)] at hover
    obtain ⟨hsix, hhead⟩ := hover
    rw [hsix] at hlength
    rw [take_eq_of_length hsix, hpayload, payload_priority_padded hpriority hpadded] at hba hhead
    have hpad : f.pad = 0 := Option.some.inj hhead
    rw [hpad, take_succ_cons, take_left' hfive] at hba
    obtain ⟨ba₂, hrun₂⟩ :=
      readParts_padded_short hpriority' (hheader ▸ hpadded) hlength hba
    cases hrun.symm.trans hrun₂
    refine ⟨by rw [← hprio], hpadding.symm, hpad, hblock.symm, ?_⟩
    rw [← hprio, ← hheader]
    rfl
  · have hnot : frame.header.has FrameFlagHeaders.padded = false := Bool.eq_false_iff.mpr hpadded
    rw [if_neg (hheader ▸ hpadded)] at hover
    obtain ⟨k, hk, hcount⟩ : ∃ k ≤ 1,
        (frame.payload.take (frame.payload.length % 2 ^ 24)).length = 5 + k := by
      rcases hover with hover | hover
      · exact ⟨0, by omega, hover⟩
      · exact ⟨1, le_rfl, hover⟩
    have htake : frame.payload.take (frame.payload.length % 2 ^ 24) =
        f.priority.encode ++ f.data.take k := by
      rw [take_eq_of_length hcount, hpayload, payload_priority hpriority hnot,
        ← hfive, take_length_add_append]
    rw [htake] at hba hcount hlength
    rw [length_append, hfive] at hcount hlength
    obtain ⟨ba₂, hrun₂⟩ := readParts_short (f := { f with data := f.data.take k })
      hpriority' (hheader ▸ hnot) (by dsimp only; omega) (by dsimp only; omega) hba
    cases hrun.symm.trans hrun₂
    refine ⟨by rw [← hprio], hpadding.symm, ?_, ?_⟩
    · rw [← hprio, ← hheader]
      rfl
    · rw [← hblock, ← hheader]
      cases (f.data.take k).length with
      | zero => exact .inl rfl
      | succ n => exact .inr (congrArg (cons _) take_nil)

end

/-- A priority arrives only by accident. -/
theorem priority_transfer (frame : Frame) (hframe : CarriesPriority frame) :
    (PriorityArrives frame → Transfers frame (SamePriority frame)) ∧
    (frame.payload.length + 9 < 2 ^ 31 →
      Transfers frame (SamePriority frame) → PriorityArrives frame) := by
  unfold CarriesPriority at hframe
  split at hframe
  · rename_i f hdata
    have hiff := samePriority_iff_priority hdata hframe
    exact ⟨hiff.mpr, fun _ => hiff.mp⟩
  · rename_i f hdata
    obtain ⟨htype, hpack, hpriority⟩ := hframe
    exact ⟨samePriority_of_arrives hdata htype hpack hpriority,
      arrives_of_samePriority hdata htype hpack hpriority⟩
  · exact hframe.elim

theorem priority_transfer_weight_one :
    Transfers ⟨{ type := 2, identifier := 256 }, some (.priority { streamDep := 3, weight := 1 })⟩
      (SamePriority
        ⟨{ type := 2, identifier := 256 }, some (.priority { streamDep := 3, weight := 1 })⟩) :=
  (priority_transfer
    ⟨{ type := 2, identifier := 256 }, some (.priority { streamDep := 3, weight := 1 })⟩ rfl).1
    ⟨rfl, by decide⟩

/-- Stream one asks for the weight 16. -/
theorem priority_weight_lost :
    CarriesPriority ⟨{ type := 2, identifier := 1 }, some (.priority { weight := 16 })⟩ ∧
    ¬ Transfers ⟨{ type := 2, identifier := 1 }, some (.priority { weight := 16 })⟩
      (SamePriority ⟨{ type := 2, identifier := 1 }, some (.priority { weight := 16 })⟩) := by
  refine ⟨rfl, fun h => ?_⟩
  have harrives := (samePriority_iff_priority rfl rfl).mp h
  exact absurd harrives.2 (by decide)

end JKYi.Http2
