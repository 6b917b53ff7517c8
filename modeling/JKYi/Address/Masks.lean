import Mathlib.Tactic
import Mathlib.Data.BitVec

/-!
# Network, broadcast and mask addresses

The addresses that `IPv4Address` and `IPv6Address` derive from a prefix length, bit by bit in the
order in which an address is written.
-/

namespace JKYi.Address

/-- `(1<<(sizeof(T)*8-bits))-1` as an `int` of 32 bits. A shift by 32 is undefined; `spill` is what
the machine makes of it. -/
def createMask (spill : BitVec 32) (width bits : ℕ) : BitVec 32 :=
  (if width - bits < 32 then 1#32 <<< (width - bits) else spill) - 1#32

theorem getLsbD_createMask (spill : BitVec 32) {width bits : ℕ} (h : width - bits < 32)
    (i : ℕ) : (createMask spill width bits).getLsbD i = decide (i < width - bits) := by
  have hpow : 2 ^ (width - bits) < 2 ^ 32 := Nat.pow_lt_pow_right (by simp) h
  have hpos := Nat.two_pow_pos (width - bits)
  have hshift : (1#32 <<< (width - bits)).toNat = 2 ^ (width - bits) := by
    rw [BitVec.toNat_shiftLeft, Nat.shiftLeft_eq, BitVec.toNat_ofNat, Nat.one_mod, one_mul,
      Nat.mod_eq_of_lt hpow]
  have hmask : (createMask spill width bits).toNat = 2 ^ (width - bits) - 1 := by
    rw [createMask, if_pos h, BitVec.toNat_sub_of_le, hshift]
    · rfl
    · rw [BitVec.le_def, hshift]
      exact hpos
  rw [BitVec.getLsbD, hmask, Nat.testBit_two_pow_sub_one]

/-- `toNetEndian` of a `uint32_t`, which reverses the bytes. -/
def toNetEndian (x : BitVec 32) : BitVec 32 :=
  x.extractLsb' 0 8 ++ x.extractLsb' 8 8 ++ x.extractLsb' 16 8 ++ x.extractLsb' 24 8

theorem getLsbD_toNetEndian (x : BitVec 32) {i : ℕ} (hi : i < 32) :
    (toNetEndian x).getLsbD i = x.getLsbD (8 * (3 - i / 8) + i % 8) := by
  simp only [toNetEndian, BitVec.getLsbD_append, BitVec.getLsbD_extractLsb']
  grind

/-- A `sockaddr_in`: the address and the port as they are stored, in network byte order. -/
structure IPv4Address where
  s_addr : BitVec 32
  sin_port : BitVec 16
  deriving DecidableEq

namespace IPv4Address

variable (spill : BitVec 32) (a : IPv4Address) (p : ℕ)

def broadcastAddress : Option IPv4Address :=
  if p > 32 then none
  else some { a with s_addr := a.s_addr ||| toNetEndian (createMask spill 32 p) }

def networkAddress : Option IPv4Address :=
  if p > 32 then none
  else some { a with s_addr := a.s_addr &&& ~~~toNetEndian (createMask spill 32 p) }

def subnetMaskAddress : Option IPv4Address :=
  if p > 32 then none else some ⟨~~~toNetEndian (createMask spill 32 p), 0⟩

/-- Bit `i` of the address, the first one being the highest of its first byte. -/
def bit (i : ℕ) : Bool := (toNetEndian a.s_addr).getLsbD (31 - i)

/-- The bits behind the prefix are cleared in `n` and set in `b`; `m` is the mask. -/
structure MasksRight (n b m : IPv4Address) : Prop where
  network : ∀ i < 32, n.bit i = (decide (i < p) && a.bit i)
  broadcast : ∀ i < 32, b.bit i = (a.bit i || decide (p ≤ i))
  mask : ∀ i < 32, m.bit i = decide (i < p)
  port : n.sin_port = a.sin_port ∧ b.sin_port = a.sin_port
  differ : ∀ i < 32, n.bit i ≠ b.bit i ↔ m.bit i = false

variable {a} {i : ℕ}

theorem getLsbD_twice (x : BitVec 32) (hi : i < 32) :
    (toNetEndian x).getLsbD (8 * (3 - i / 8) + i % 8) = x.getLsbD i := by
  rw [getLsbD_toNetEndian x (by omega)]
  congr 1
  omega

theorem bit_or (x : BitVec 32) (port : BitVec 16) (hi : i < 32) :
    bit ⟨a.s_addr ||| toNetEndian x, port⟩ i = (a.bit i || x.getLsbD (31 - i)) := by
  rw [bit, bit, getLsbD_toNetEndian _ (by omega), getLsbD_toNetEndian _ (by omega),
    BitVec.getLsbD_or, getLsbD_twice x (by omega)]

theorem bit_and_not (x : BitVec 32) (port : BitVec 16) (hi : i < 32) :
    bit ⟨a.s_addr &&& ~~~toNetEndian x, port⟩ i = (a.bit i && !x.getLsbD (31 - i)) := by
  have hlt : 8 * (3 - (31 - i) / 8) + (31 - i) % 8 < 32 := by omega
  rw [bit, bit, getLsbD_toNetEndian _ (by omega), getLsbD_toNetEndian _ (by omega),
    BitVec.getLsbD_and, BitVec.getLsbD_not, getLsbD_twice x (by omega)]
  simp [hlt]

theorem bit_not (x : BitVec 32) (port : BitVec 16) (hi : i < 32) :
    bit ⟨~~~toNetEndian x, port⟩ i = !x.getLsbD (31 - i) := by
  have hlt : 8 * (3 - (31 - i) / 8) + (31 - i) % 8 < 32 := by omega
  rw [bit, getLsbD_toNetEndian _ (by omega), BitVec.getLsbD_not, getLsbD_twice x (by omega)]
  simp [hlt]

theorem masksRight_iff (x : BitVec 32) : MasksRight a p
      ⟨a.s_addr &&& ~~~toNetEndian x, a.sin_port⟩ ⟨a.s_addr ||| toNetEndian x, a.sin_port⟩
      ⟨~~~toNetEndian x, 0⟩ ↔ ∀ i < 32, x.getLsbD (31 - i) = decide (p ≤ i) := by
  constructor
  · intro h i hi
    have hmask := h.mask i hi
    rw [bit_not x 0 hi] at hmask
    grind
  · intro h
    refine ⟨fun i hi => ?_, fun i hi => ?_, fun i hi => ?_, ⟨rfl, rfl⟩, fun i hi => ?_⟩
    · rw [bit_and_not x _ hi, h i hi]
      grind
    · rw [bit_or x _ hi, h i hi]
    · rw [bit_not x _ hi, h i hi]
      grind
    · rw [bit_and_not x _ hi, bit_or x _ hi, bit_not x _ hi]
      cases x.getLsbD (31 - i) <;> simp

/-- The three addresses are right for every prefix but 0, where they depend on the undefined
shift. -/
theorem masks_right_iff (spill : BitVec 32) (a : IPv4Address) (p : Fin 33) :
    (∃ n b m, a.networkAddress spill p = some n ∧ a.broadcastAddress spill p = some b ∧
      subnetMaskAddress spill p = some m ∧ MasksRight a p n b m) ↔ p ≠ 0 ∨ spill = 0 := by
  have hp : ¬ (p : ℕ) > 32 := by omega
  simp only [networkAddress, broadcastAddress, subnetMaskAddress, if_neg hp, Option.some.injEq,
    exists_eq_left', exists_and_left, masksRight_iff]
  by_cases hzero : p = 0
  · subst hzero
    have hmask : createMask spill 32 ((0 : Fin 33) : ℕ) = spill - 1#32 := rfl
    rw [hmask]
    constructor
    · intro h
      have hones : spill - 1#32 = BitVec.allOnes 32 := by
        apply BitVec.eq_of_getLsbD_eq
        intro i hi
        have hbit := h (31 - i) (by omega)
        rw [show 31 - (31 - i) = i by omega] at hbit
        rw [hbit, BitVec.getLsbD_allOnes]
        simp [hi]
      exact .inr (BitVec.sub_eq_iff_eq_add.mp hones)
    · rintro (h | rfl) i hi
      · exact absurd rfl h
      · have hones : (0 - 1#32 : BitVec 32) = BitVec.allOnes 32 := rfl
        rw [hones, BitVec.getLsbD_allOnes]
        grind
  · have hshift : 32 - (p : ℕ) < 32 := by grind
    refine iff_of_true (fun i hi => ?_) (.inl hzero)
    rw [getLsbD_createMask spill hshift]
    grind

/-- With the shift of a processor that takes the amount modulo 32, the network of a prefix of
length 0 is the address itself. -/
theorem network_of_zero : networkAddress 1#32 ⟨0x0102a8c0#32, 80#16⟩ 0 =
    some ⟨0x0102a8c0#32, 80#16⟩ ∧ bit ⟨0x0102a8c0#32, 80#16⟩ 0 = true := by
  decide

end IPv4Address

/-- A `sockaddr_in6`; the address is the first 16 bytes of the memory at `s6_addr`. -/
structure IPv6Address where
  s6_addr : ℕ → BitVec 8
  sin6_port : BitVec 16

namespace IPv6Address

open Function

/-- `CreateMask<uint8_t>(bits)`, for less than eight bits. -/
def createMask8 (bits : ℕ) : BitVec 8 := (createMask 0 8 bits).setWidth 8

/-- The loop `for(int i=..;i<16;++i) s6_addr[i] = v;` with `left` rounds to go. -/
def fill (v : BitVec 8) : ℕ → (ℕ → BitVec 8) → ℕ → BitVec 8
  | 0, bytes => bytes
  | left + 1, bytes => fill v left (update bytes (15 - left) v)

/-- Both functions: the partial byte is changed by `f` and the others are set to `v`; `none` is an
access outside of the 16 bytes. -/
def withTail (a : IPv6Address) (p : ℕ) (f : BitVec 8 → BitVec 8) (v : BitVec 8) :
    Option IPv6Address :=
  if p / 8 < 16 then
    some { a with
      s6_addr := fill v (15 - p / 8) (update a.s6_addr (p / 8) (f (a.s6_addr (p / 8)))) }
  else none

def broadcastAddress (a : IPv6Address) (p : ℕ) : Option IPv6Address :=
  a.withTail p (· ||| createMask8 (p % 8)) 0xff#8

def networkAddress (a : IPv6Address) (p : ℕ) : Option IPv6Address :=
  a.withTail p (· &&& ~~~createMask8 (p % 8)) 0#8

/-- `for(uint32_t i=prefix_len/8;i>=0;--i) s6_addr[i] = 0xff;`; `none` is an access outside of the
16 bytes, or no return after so many rounds. -/
def maskLoop : ℕ → ℕ → (ℕ → BitVec 8) → Option (ℕ → BitVec 8)
  | 0, _, _ => none
  | rounds + 1, i, bytes =>
    if i ≥ 0 then
      if i < 16 then maskLoop rounds ((i + (2 ^ 32 - 1)) % 2 ^ 32) (update bytes i 0xff#8) else none
    else some bytes

def subnetMaskAddress (p rounds : ℕ) : Option IPv6Address := do
  guard (p / 8 < 16)
  let bytes ← maskLoop rounds (p / 8) (update (fun _ => 0) (p / 8) (~~~createMask8 (p % 8)))
  pure ⟨bytes, 0⟩

def bit (a : IPv6Address) (i : ℕ) : Bool := (a.s6_addr (i / 8)).getLsbD (7 - i % 8)

theorem fill_apply (v : BitVec 8) {left : ℕ} (hleft : left ≤ 16) (bytes : ℕ → BitVec 8) (j : ℕ) :
    fill v left bytes j = if 16 - left ≤ j ∧ j < 16 then v else bytes j := by
  induction left generalizing bytes with
  | zero => rw [fill, if_neg (by omega)]
  | succ left ih =>
    rw [fill, ih (by omega), update_apply]
    split_ifs <;> first | rfl | omega

/-- The address with the bits behind the prefix cleared; the bytes behind the address are as they
were, here and in the next definition. -/
def NetworkRight (a : IPv6Address) (p : ℕ) : Prop :=
  ∃ b, a.networkAddress p = some b ∧ b.sin6_port = a.sin6_port ∧
    (∀ i < 128, b.bit i = (decide (i < p) && a.bit i)) ∧ ∀ k ≥ 16, b.s6_addr k = a.s6_addr k

/-- The address with the bits behind the prefix set. -/
def BroadcastRight (a : IPv6Address) (p : ℕ) : Prop :=
  ∃ b, a.broadcastAddress p = some b ∧ b.sin6_port = a.sin6_port ∧
    (∀ i < 128, b.bit i = (a.bit i || decide (p ≤ i))) ∧ ∀ k ≥ 16, b.s6_addr k = a.s6_addr k

variable {a : IPv6Address} {p : ℕ}

theorem getLsbD_createMask8 : ∀ r < 8, ∀ j < 8,
    (createMask8 r).getLsbD (7 - j) = decide (r ≤ j) := by
  decide

theorem withTail_bits (hp : p < 128) (f : BitVec 8 → BitVec 8) (v : BitVec 8) :
    ∃ b, a.withTail p f v = some b ∧ b.sin6_port = a.sin6_port ∧ (∀ i < 128, b.bit i =
      if i / 8 = p / 8 then (f (a.s6_addr (i / 8))).getLsbD (7 - i % 8)
      else if p ≤ i then v.getLsbD (7 - i % 8) else a.bit i) ∧
      ∀ k ≥ 16, b.s6_addr k = a.s6_addr k := by
  refine ⟨_, if_pos (by omega), rfl, fun i hi => ?_, fun k hk => ?_⟩
  · dsimp only [bit]
    rw [fill_apply v (by omega), update_apply]
    split_ifs <;> first | rfl | omega | simp_all
  · dsimp only
    rw [fill_apply v (by omega), update_apply]
    split_ifs <;> first | rfl | omega

theorem networkRight_of_lt (hp : p < 128) : NetworkRight a p := by
  obtain ⟨b, hb, hport, hbits, hrest⟩ :=
    withTail_bits (a := a) hp (· &&& ~~~createMask8 (p % 8)) 0#8
  refine ⟨b, hb, hport, fun i hi => ?_, hrest⟩
  have hmask := getLsbD_createMask8 (p % 8) (by omega) (i % 8) (by omega)
  rw [hbits i hi]
  split_ifs with hbyte htail
  · rw [BitVec.getLsbD_and, BitVec.getLsbD_not, hmask, bit]
    grind
  · grind
  · grind

theorem broadcastRight_of_lt (hp : p < 128) : BroadcastRight a p := by
  obtain ⟨b, hb, hport, hbits, hrest⟩ :=
    withTail_bits (a := a) hp (· ||| createMask8 (p % 8)) 0xff#8
  refine ⟨b, hb, hport, fun i hi => ?_, hrest⟩
  have hmask := getLsbD_createMask8 (p % 8) (by omega) (i % 8) (by omega)
  have hones : ∀ j < 8, (0xff#8).getLsbD (7 - j) = true := by decide
  rw [hbits i hi]
  split_ifs with hbyte htail
  · rw [BitVec.getLsbD_or, hmask, bit]
    grind
  · rw [hones (i % 8) (by omega)]
    simp [htail]
  · simp [htail]

theorem maskLoop_eq_none (rounds i : ℕ) (bytes : ℕ → BitVec 8) :
    maskLoop rounds i bytes = none := by
  induction rounds generalizing i bytes with
  | zero => rfl
  | succ rounds ih =>
    rw [maskLoop, if_pos (Nat.zero_le i), ih]
    exact ite_self none

theorem subnetMaskAddress_eq_none (p rounds : ℕ) : subnetMaskAddress p rounds = none := by
  simp [subnetMaskAddress, maskLoop_eq_none]

/-- The network and broadcast addresses are right for every prefix but 128, for which a byte behind
the address is changed; the mask is never returned. -/
theorem tails_right_iff (a : IPv6Address) (p : Fin 129) :
    (NetworkRight a p ↔ (p : ℕ) < 128) ∧ (BroadcastRight a p ↔ (p : ℕ) < 128) ∧
      ∀ rounds, subnetMaskAddress p rounds = none := by
  have hlast : ∀ f v, ¬ (p : ℕ) < 128 → a.withTail p f v = none := by
    intro f v hp
    exact if_neg (by omega)
  refine ⟨⟨?_, networkRight_of_lt⟩, ⟨?_, broadcastRight_of_lt⟩, subnetMaskAddress_eq_none p⟩
  · rintro ⟨b, hb, -⟩
    by_contra hp
    cases (hlast _ _ hp).symm.trans hb
  · rintro ⟨b, hb, -⟩
    by_contra hp
    cases (hlast _ _ hp).symm.trans hb

/-- The mask of a prefix of length 64 is not returned, and the network of the whole address is
computed with a byte behind it. -/
theorem ipv6_masks_fail : (∀ rounds, subnetMaskAddress 64 rounds = none) ∧
    networkAddress ⟨fun _ => 0, 0⟩ 128 = none :=
  ⟨subnetMaskAddress_eq_none 64, rfl⟩

end IPv6Address
end JKYi.Address
