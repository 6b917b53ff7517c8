import JKYi.ByteArray.Basic
import JKYi.Reactor.Buffer

/-!
# Integers in a buffer

`endian.h` selects its conversions by `JKYI_BYTE_ENDIAN`, a macro that nothing
defines, so on every machine `toNetEndian` swaps the bytes and `toLittleEndian`
does not. The functions of `Buffer` write through the first and read through the
second.
-/

namespace JKYi.Net

open List

variable {rest : List UInt8} {b' : Buffer}

/-- The value of `JKYI_BYTE_ENDIAN` in an `#if`; an undefined macro is 0. -/
def jkyiByteEndian : ℕ := 0

def jkyiBigEndian : ℕ := 2

section

variable {k : ℕ}

/-- `byteswap` of an integer of `k` bytes. -/
def byteswapInt (x : BitVec (8 * k)) : BitVec (8 * k) := BitVec.ofNat _ (byteswap k x.toNat)

def toNetEndian (x : BitVec (8 * k)) : BitVec (8 * k) :=
  if jkyiByteEndian = jkyiBigEndian then x else byteswapInt x

def toLittleEndian (x : BitVec (8 * k)) : BitVec (8 * k) :=
  if jkyiByteEndian = jkyiBigEndian then byteswapInt x else x

/-- The bytes of an integer in the memory of a machine. -/
def memory (host : Endian) (x : BitVec (8 * k)) : List UInt8 :=
  match host with
  | .little => leBytes k x.toNat
  | .big => (leBytes k x.toNat).reverse

def ofMemory (host : Endian) (k : ℕ) (bytes : List UInt8) : BitVec (8 * k) :=
  match host with
  | .little => BitVec.ofNat _ (ofLeBytes bytes)
  | .big => BitVec.ofNat _ (ofLeBytes bytes.reverse)

def networkBytes (x : BitVec (8 * k)) : List UInt8 := (leBytes k x.toNat).reverse

theorem pow_width (k : ℕ) : 256 ^ k = 2 ^ (8 * k) := by
  rw [pow_mul]
  norm_num

@[simp] theorem length_memory (host : Endian) (x : BitVec (8 * k)) :
    (memory host x).length = k := by
  cases host <;> simp [memory]

@[simp] theorem ofMemory_memory (host : Endian) (x : BitVec (8 * k)) :
    ofMemory host k (memory host x) = x := by
  have hx : BitVec.ofNat (8 * k) (ofLeBytes (leBytes k x.toNat)) = x := by
    rw [ofLeBytes_leBytes, pow_width, Nat.mod_eq_of_lt x.isLt, BitVec.ofNat_toNat,
      BitVec.setWidth_eq]
  cases host
  · exact hx
  · rw [ofMemory, memory, reverse_reverse]
    exact hx

theorem toNat_byteswapInt (x : BitVec (8 * k)) : (byteswapInt x).toNat = byteswap k x.toNat := by
  have hlt := ofLeBytes_lt (leBytes k x.toNat).reverse
  rw [length_reverse, length_leBytes, pow_width] at hlt
  exact Nat.mod_eq_of_lt hlt

theorem toNetEndian_eq (x : BitVec (8 * k)) : toNetEndian x = byteswapInt x :=
  if_neg (by decide)

theorem toLittleEndian_eq (x : BitVec (8 * k)) : toLittleEndian x = x := if_neg (by decide)

theorem memory_byteswapInt (x : BitVec (8 * k)) :
    memory .little (byteswapInt x) = networkBytes x := by
  rw [memory, toNat_byteswapInt, leBytes_byteswap, networkBytes]

theorem memory_eq_networkBytes (host : Endian) {x : BitVec (8 * k)} (hx : byteswapInt x = x) :
    memory host (byteswapInt x) = networkBytes x := by
  cases host
  · exact memory_byteswapInt x
  · rw [hx]
    rfl

theorem byteswapInt_byte (x : BitVec (8 * 1)) : byteswapInt x = x := by
  apply BitVec.eq_of_toNat_eq
  have hone : (leBytes 1 x.toNat).reverse = leBytes 1 x.toNat := rfl
  rw [toNat_byteswapInt, byteswap, hone, ofLeBytes_leBytes, pow_width, Nat.mod_eq_of_lt x.isLt]

end

inductive Width where
  | w8
  | w16
  | w32
  | w64
  deriving DecidableEq

def Width.size : Width → ℕ
  | .w8 => 1
  | .w16 => 2
  | .w32 => 4
  | .w64 => 8

structure IntN where
  width : Width
  value : BitVec (8 * width.size)
  deriving DecidableEq

namespace Buffer

variable (host : Endian)

def appendInt {k : ℕ} (x : BitVec (8 * k)) (b : Buffer) : Option Buffer :=
  b.append (memory host (toNetEndian x))

def prependInt {k : ℕ} (x : BitVec (8 * k)) (b : Buffer) : Option Buffer :=
  b.prepend (memory host (toNetEndian x))

def peekInt (k : ℕ) (b : Buffer) : Option (BitVec (8 * k)) := do
  assert (k ≤ b.readableBytes)
  return toLittleEndian (ofMemory host k (b.contents.take k))

def appendInt64 (x : BitVec (8 * 8)) (b : Buffer) : Option Buffer := b.appendInt host x

def appendInt32 (x : BitVec (8 * 4)) (b : Buffer) : Option Buffer := b.appendInt host x

def appendInt16 (x : BitVec (8 * 2)) (b : Buffer) : Option Buffer := b.appendInt host x

def appendInt8 (x : BitVec (8 * 1)) (b : Buffer) : Option Buffer := b.append (memory host x)

def prependInt64 (x : BitVec (8 * 8)) (b : Buffer) : Option Buffer := b.prependInt host x

def prependInt32 (x : BitVec (8 * 4)) (b : Buffer) : Option Buffer := b.prependInt host x

def prependInt16 (x : BitVec (8 * 2)) (b : Buffer) : Option Buffer := b.prependInt host x

def prependInt8 (x : BitVec (8 * 1)) (b : Buffer) : Option Buffer := b.prepend (memory host x)

def peekInt64 (b : Buffer) : Option (BitVec (8 * 8)) := b.peekInt host 8

def peekInt32 (b : Buffer) : Option (BitVec (8 * 4)) := b.peekInt host 4

def peekInt16 (b : Buffer) : Option (BitVec (8 * 2)) := b.peekInt host 2

def peekInt8 (b : Buffer) : Option (BitVec (8 * 1)) := do
  assert (1 ≤ b.readableBytes)
  return ofMemory host 1 (b.contents.take 1)

def readInt {k : ℕ} (peek : Buffer → Option (BitVec (8 * k))) (b : Buffer) :
    Option (BitVec (8 * k) × Buffer) := do
  let result ← peek b
  let b ← b.retrieve k
  return (result, b)

def readInt64 (b : Buffer) : Option (BitVec (8 * 8) × Buffer) := b.readInt (peekInt64 host)

def readInt32 (b : Buffer) : Option (BitVec (8 * 4) × Buffer) := b.readInt (peekInt32 host)

def readInt16 (b : Buffer) : Option (BitVec (8 * 2) × Buffer) := b.readInt (peekInt16 host)

def readInt8 (b : Buffer) : Option (BitVec (8 * 1) × Buffer) := b.readInt (peekInt8 host)

def appendIntN (b : Buffer) : IntN → Option Buffer
  | ⟨.w8, x⟩ => b.appendInt8 host x
  | ⟨.w16, x⟩ => b.appendInt16 host x
  | ⟨.w32, x⟩ => b.appendInt32 host x
  | ⟨.w64, x⟩ => b.appendInt64 host x

def prependIntN (b : Buffer) : IntN → Option Buffer
  | ⟨.w8, x⟩ => b.prependInt8 host x
  | ⟨.w16, x⟩ => b.prependInt16 host x
  | ⟨.w32, x⟩ => b.prependInt32 host x
  | ⟨.w64, x⟩ => b.prependInt64 host x

def readIntN (b : Buffer) : Width → Option (IntN × Buffer)
  | .w8 => (b.readInt8 host).map fun r => (⟨.w8, r.1⟩, r.2)
  | .w16 => (b.readInt16 host).map fun r => (⟨.w16, r.1⟩, r.2)
  | .w32 => (b.readInt32 host).map fun r => (⟨.w32, r.1⟩, r.2)
  | .w64 => (b.readInt64 host).map fun r => (⟨.w64, r.1⟩, r.2)

end Buffer

namespace IntN

def swapped (x : IntN) : IntN := ⟨x.width, byteswapInt x.value⟩

def stored (host : Endian) (x : IntN) : List UInt8 := memory host (byteswapInt x.value)

def network (x : IntN) : List UInt8 := networkBytes x.value

theorem stored_eq (host : Endian) (x : IntN) :
    x.stored host = memory host (toNetEndian x.value) := by
  rw [stored, toNetEndian_eq]

theorem stored_byte (host : Endian) (v : BitVec (8 * Width.w8.size)) :
    IntN.stored host ⟨.w8, v⟩ = memory host v :=
  congrArg (memory host) (byteswapInt_byte v)

theorem swapped_eq_iff {x : IntN} : x.swapped = x ↔ byteswapInt x.value = x.value := by
  cases x
  simp [swapped]

end IntN

namespace Buffer

variable {host : Endian} {b : Buffer}

theorem appendIntN_eq (host : Endian) (b : Buffer) (x : IntN) :
    b.appendIntN host x = b.append (x.stored host) := by
  obtain ⟨width, v⟩ := x
  cases width with
  | w8 =>
    rw [IntN.stored_byte]
    rfl
  | w16 | w32 | w64 =>
    rw [IntN.stored_eq]
    rfl

theorem prependIntN_eq (host : Endian) (b : Buffer) (x : IntN) :
    b.prependIntN host x = b.prepend (x.stored host) := by
  obtain ⟨width, v⟩ := x
  cases width with
  | w8 =>
    rw [IntN.stored_byte]
    rfl
  | w16 | w32 | w64 =>
    rw [IntN.stored_eq]
    rfl

theorem peekInt_spec (h : b.Wf) {k : ℕ} {y : BitVec (8 * k)}
    (hb : b.contents = memory host y ++ rest) : b.peekInt host k = some y := by
  have hlen := h.length_contents
  rw [hb, length_append, length_memory] at hlen
  have htake : b.contents.take k = memory host y := by
    rw [hb]
    exact take_left' (length_memory host y)
  simp [peekInt, htake, toLittleEndian_eq, ← hlen]

theorem peekInt8_eq (host : Endian) (b : Buffer) : b.peekInt8 host = b.peekInt host 1 := by
  simp [peekInt8, peekInt, toLittleEndian_eq]

theorem readInt_spec (h : b.Wf) {k : ℕ} {y : BitVec (8 * k)}
    (peek : Buffer → Option (BitVec (8 * k))) (hb : b.contents = memory host y ++ rest)
    (hpeek : peek b = b.peekInt host k) :
    ∃ b', b.readInt peek = some (y, b') ∧ Becomes b b' rest := by
  have hlen := h.length_contents
  rw [hb, length_append, length_memory] at hlen
  have hk : k ≤ b.readableBytes := by omega
  obtain ⟨b', hb', hspec⟩ := retrieve_spec h hk
  rw [hb, drop_left' (length_memory host y)] at hspec
  refine ⟨b', ?_, hspec⟩
  simp [readInt, hpeek, peekInt_spec h hb, hb']

theorem readIntN_spec (h : b.Wf) {x : IntN} (hb : b.contents = x.stored host ++ rest) :
    ∃ b', b.readIntN host x.width = some (x.swapped, b') ∧ Becomes b b' rest := by
  obtain ⟨width, v⟩ := x
  cases width with
  | w8 =>
    obtain ⟨b', hb', hspec⟩ := readInt_spec h (peekInt8 host) hb (peekInt8_eq host b)
    exact ⟨b', congrArg (Option.map _) hb', hspec⟩
  | w16 | w32 | w64 =>
    obtain ⟨b', hb', hspec⟩ := readInt_spec h (peekInt host _) hb rfl
    exact ⟨b', congrArg (Option.map _) hb', hspec⟩

def readInts (host : Endian) : List Width → Buffer → Option (List IntN × Buffer)
  | [], b => some ([], b)
  | w :: ws, b => do
    let (x, b) ← b.readIntN host w
    let (xs, b) ← readInts host ws b
    return (x :: xs, b)

theorem readInts_spec (xs : List IntN) : ∀ {b : Buffer} {rest : List UInt8}, b.Wf →
    b.contents = xs.flatMap (IntN.stored host) ++ rest →
    ∃ b', readInts host (xs.map IntN.width) b = some (xs.map IntN.swapped, b') ∧
      Becomes b b' rest := by
  induction xs with
  | nil =>
    intro b rest h hb
    rw [flatMap_nil, nil_append] at hb
    exact ⟨b, rfl, hb ▸ .refl h⟩
  | cons x xs ih =>
    intro b rest h hb
    rw [flatMap_cons, append_assoc] at hb
    obtain ⟨b₁, h₁, hspec₁⟩ := readIntN_spec h hb
    obtain ⟨b₂, h₂, hspec₂⟩ := ih hspec₁.wf hspec₁.contents_eq
    refine ⟨b₂, ?_, hspec₁.trans hspec₂⟩
    simp [readInts, h₁, h₂]

/-- An integer is written behind the readable bytes or in front of them. -/
inductive Push where
  | back (x : IntN)
  | front (x : IntN)

def push (host : Endian) (b : Buffer) : Push → Option Buffer
  | .back x => b.appendIntN host x
  | .front x => b.prependIntN host x

def pushAll (host : Endian) : List Push → Buffer → Option Buffer
  | [], b => some b
  | p :: ps, b => do
    let b ← b.push host p
    pushAll host ps b

/-- The integers before and behind the old bytes, in the order in which they lie there. -/
def fronts : List Push → List IntN
  | [] => []
  | .back _ :: ps => fronts ps
  | .front x :: ps => fronts ps ++ [x]

def backs : List Push → List IntN
  | [] => []
  | .back x :: ps => x :: backs ps
  | .front _ :: ps => backs ps

/-- Read the integers before the old bytes, skip these, and read the others. -/
def readBack (host : Endian) (ps : List Push) (old : ℕ) (b : Buffer) :
    Option (List IntN × List IntN) := do
  let (xs, b) ← readInts host ((fronts ps).map IntN.width) b
  let b ← b.retrieve old
  let (ys, _) ← readInts host ((backs ps).map IntN.width) b
  return (xs, ys)

theorem prepend_room {d : List UInt8} (h : b.prepend d = some b') :
    d.length ≤ b.prependableBytes := by
  by_contra hroom
  simp [prepend, assert, hroom] at h

theorem pushAll_spec (ps : List Push) : ∀ {b b' : Buffer}, b.Wf → pushAll host ps b = some b' →
    b'.Wf ∧ b'.contents = (fronts ps).flatMap (IntN.stored host) ++ b.contents ++
      (backs ps).flatMap (IntN.stored host) := by
  induction ps with
  | nil =>
    intro b b' h hrun
    cases hrun
    exact ⟨h, by simp [fronts, backs]⟩
  | cons p ps ih =>
    intro b b' h hrun
    obtain ⟨b₁, h₁, hrest⟩ := Option.bind_eq_some_iff.1 hrun
    cases p with
    | back x =>
      rw [push, appendIntN_eq] at h₁
      obtain ⟨b₂, h₂, hspec⟩ := append_spec h (x.stored host)
      cases h₁.symm.trans h₂
      obtain ⟨hwf, hcontents⟩ := ih hspec.wf hrest
      refine ⟨hwf, ?_⟩
      rw [hcontents, hspec.contents_eq]
      simp [fronts, backs]
    | front x =>
      rw [push, prependIntN_eq] at h₁
      obtain ⟨b₂, h₂, hwf₂, hcontents₂, -⟩ := prepend_spec h (prepend_room h₁)
      cases h₁.symm.trans h₂
      obtain ⟨hwf, hcontents⟩ := ih hwf₂ hrest
      refine ⟨hwf, ?_⟩
      rw [hcontents, hcontents₂]
      simp [fronts, backs]

theorem readBack_spec {ps : List Push} (h : b.Wf) (hrun : pushAll host ps b = some b') :
    b'.readBack host ps b.contents.length =
      some ((fronts ps).map IntN.swapped, (backs ps).map IntN.swapped) := by
  obtain ⟨hwf, hcontents⟩ := pushAll_spec ps h hrun
  rw [append_assoc] at hcontents
  obtain ⟨b₁, h₁, hspec₁⟩ := readInts_spec (fronts ps) hwf hcontents
  have hold : b.contents.length ≤ b₁.readableBytes := by
    rw [← hspec₁.wf.length_contents, hspec₁.contents_eq, length_append]
    exact Nat.le_add_right _ _
  obtain ⟨b₂, h₂, hspec₂⟩ := retrieve_spec hspec₁.wf hold
  rw [hspec₁.contents_eq, drop_left] at hspec₂
  have hlast := hspec₂.contents_eq
  rw [← append_nil ((backs ps).flatMap _)] at hlast
  obtain ⟨b₃, h₃, -⟩ := readInts_spec (backs ps) hspec₂.wf hlast
  simp [readBack, h₁, h₂, h₃]

theorem map_swapped_eq_iff {xs : List IntN} :
    xs.map IntN.swapped = xs ↔ ∀ x ∈ xs, byteswapInt x.value = x.value := by
  have hid : xs.map IntN.swapped = xs.map id ↔ ∀ x ∈ xs, x.swapped = x := map_inj_left
  rw [map_id] at hid
  rw [hid]
  exact forall₂_congr fun _ _ => IntN.swapped_eq_iff

theorem flatMap_stored {xs : List IntN} (h : ∀ x ∈ xs, x.stored host = x.network) :
    xs.flatMap (IntN.stored host) = xs.flatMap IntN.network :=
  flatMap_congr h

/-- On a little-endian machine the bytes are in network order; but the integers are read back as
they were written exactly when each of them is the same with its bytes reversed. -/
theorem ints_read_back {b' : Buffer} {ps : List Push} (h : b.Wf)
    (hrun : pushAll host ps b = some b') :
    ((b'.readBack host ps b.contents.length = some (fronts ps, backs ps) ∧
        b'.contents = (fronts ps).flatMap IntN.network ++ b.contents ++
          (backs ps).flatMap IntN.network) ↔
      ∀ x ∈ fronts ps ++ backs ps, byteswapInt x.value = x.value) ∧
    (host = .little → b'.contents = (fronts ps).flatMap IntN.network ++ b.contents ++
      (backs ps).flatMap IntN.network) := by
  obtain ⟨-, hcontents⟩ := pushAll_spec ps h hrun
  refine ⟨⟨?_, fun hall => ?_⟩, ?_⟩
  · rintro ⟨hread, -⟩
    rw [readBack_spec h hrun, Option.some.injEq, Prod.mk.injEq] at hread
    rw [← map_swapped_eq_iff, map_append, hread.1, hread.2]
  · have hfronts : ∀ x ∈ fronts ps, byteswapInt x.value = x.value := fun x hx =>
      hall x (mem_append_left _ hx)
    have hbacks : ∀ x ∈ backs ps, byteswapInt x.value = x.value := fun x hx =>
      hall x (mem_append_right _ hx)
    constructor
    · rw [readBack_spec h hrun, map_swapped_eq_iff.2 hfronts, map_swapped_eq_iff.2 hbacks]
    · rw [hcontents, flatMap_stored fun x hx => memory_eq_networkBytes host (hfronts x hx),
        flatMap_stored fun x hx => memory_eq_networkBytes host (hbacks x hx)]
  · rintro rfl
    rw [hcontents, flatMap_stored fun x _ => memory_byteswapInt x.value,
      flatMap_stored fun x _ => memory_byteswapInt x.value]

/-- `appendInt16(1)`: the bytes are 0 and 1, and `readInt16` returns 256. -/
theorem ints_read_back_swapped : ∃ b b' : Buffer, create 0 = some b ∧
    pushAll .little [.back ⟨.w16, 1#16⟩] b = some b' ∧ b'.contents = [0, 1] ∧
      b'.readBack .little [.back ⟨.w16, 1#16⟩] 0 = some ([], [⟨.w16, 256#16⟩]) ∧
      b'.readBack .little [.back ⟨.w16, 1#16⟩] 0 ≠
        some (fronts [.back ⟨.w16, 1#16⟩], backs [.back ⟨.w16, 1#16⟩]) :=
  ⟨_, _, rfl, rfl, by decide, by decide, by decide⟩

/-- An `int8_t` in front of, and an `int16_t` with two equal bytes behind, the byte 7. -/
theorem ints_read_back_run : ∃ b b' : Buffer, b.Wf ∧ b.contents = [7] ∧
    pushAll .little [.back ⟨.w16, 0x0303#16⟩, .front ⟨.w8, 5#8⟩] b = some b' ∧
      b'.readBack .little [.back ⟨.w16, 0x0303#16⟩, .front ⟨.w8, 5#8⟩] 1 =
        some ([⟨.w8, 5#8⟩], [⟨.w16, 0x0303#16⟩]) := by
  have hwf : (⟨[0, 0, 0, 0, 0, 0, 0, 0, 7], 8, 9⟩ : Buffer).Wf := ⟨by decide, by decide, by decide⟩
  refine ⟨_, _, hwf, rfl, rfl, ?_⟩
  exact ((ints_read_back hwf rfl).1.2 (by decide)).1

end Buffer
end JKYi.Net
