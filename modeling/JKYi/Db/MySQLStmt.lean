import JKYi.Foundation.Bytes

/-!
# Parameters of a prepared statement

The buffers `MySQLStmt` copies bound values into. The binds of numbers take whatever block a
parameter has; those of strings and blobs take the length of the last value for its size.
-/

namespace JKYi.Db.MySQLStmt

open List Function

inductive FieldType where
  | decimal | null | tiny | short | long | longlong | float | double | string | blob

/-- `MYSQL_BIND`, with the block `buffer` points to. `Create` clears all of it. -/
structure MySQLBind where
  bufferType : FieldType := .decimal
  buffer : Option (List UInt8) := none
  bufferLength : ℕ := 0
  isUnsigned : Bool := false

def malloc (size : ℕ) : List UInt8 := replicate size 0

/-- `none` where bytes behind the block are written. -/
def memcpy (block value : List UInt8) : Option (List UInt8) :=
  if value.length ≤ block.length then some (value ++ block.drop value.length) else none

/-- `BIND_COPY` and the assignments around it. -/
def bindCopy (type : FieldType) (size : ℕ) (isUnsigned : Option Bool) (value : BitVec (8 * size))
    (b : MySQLBind) : Option MySQLBind := do
  let block ← memcpy (b.buffer.getD (malloc size)) (leBytes size value.toNat)
  return ⟨type, some block, size, isUnsigned.getD b.isUnsigned⟩

def bindInt8 := bindCopy .tiny 1 (some false)

def bindUint8 := bindCopy .tiny 1 (some true)

def bindInt16 := bindCopy .short 2 (some false)

def bindUint16 := bindCopy .short 2 (some true)

def bindInt32 := bindCopy .long 4 (some false)

def bindUint32 := bindCopy .long 4 (some true)

-- The source marks both kinds of 64-bit values as unsigned.
def bindInt64 := bindCopy .longlong 8 (some true)

def bindUint64 := bindCopy .longlong 8 (some true)

def bindFloat := bindCopy .float 4 none

def bindDouble := bindCopy .double 8 none

/-- The block `BIND_COPY_LEN` copies to. -/
def blockFor (b : MySQLBind) (size : ℕ) : List UInt8 :=
  match b.buffer with
  | none => malloc size
  | some block => if b.bufferLength < size then malloc size else block

def bindCopyLen (type : FieldType) (value : List UInt8) (b : MySQLBind) : Option MySQLBind := do
  let block ← memcpy (blockFor b value.length) value
  return { b with bufferType := type, buffer := some block, bufferLength := value.length }

def bindString := bindCopyLen .string

def bindBlob := bindCopyLen .blob

/-- `text` is what `Time2Str` makes of the time. -/
def bindTime (text : List UInt8) := bindString text

def bindNull (b : MySQLBind) : MySQLBind := { b with bufferType := .null }

/-- The binds of values of `size` bytes. -/
inductive Fixed : ℕ → Type where
  | int8 : Fixed 1
  | uint8 : Fixed 1
  | int16 : Fixed 2
  | uint16 : Fixed 2
  | int32 : Fixed 4
  | uint32 : Fixed 4
  | int64 : Fixed 8
  | uint64 : Fixed 8
  | float : Fixed 4
  | double : Fixed 8

def Fixed.exec {size : ℕ} : Fixed size → BitVec (8 * size) → MySQLBind → Option MySQLBind
  | .int8 => bindInt8
  | .uint8 => bindUint8
  | .int16 => bindInt16
  | .uint16 => bindUint16
  | .int32 => bindInt32
  | .uint32 => bindUint32
  | .int64 => bindInt64
  | .uint64 => bindUint64
  | .float => bindFloat
  | .double => bindDouble

inductive Sized where
  | string | blob | time

def Sized.exec : Sized → List UInt8 → MySQLBind → Option MySQLBind
  | .string => bindString
  | .blob => bindBlob
  | .time => bindTime

/-- A call of one of the binds. -/
inductive Call where
  | fixed {size : ℕ} (kind : Fixed size) (value : BitVec (8 * size))
  | sized (kind : Sized) (value : List UInt8)
  | null

namespace Call

def exec : Call → MySQLBind → Option MySQLBind
  | fixed kind value => kind.exec value
  | sized kind value => kind.exec value
  | null => some ∘ bindNull

/-- The parameter has the value of the call. -/
def HeldBy (b : MySQLBind) : Call → Prop
  | @fixed size _ value => b.buffer.map (take b.bufferLength) = some (leBytes size value.toNat)
  | sized _ value => b.buffer.map (take b.bufferLength) = some value
  | null => b.bufferType = .null

/-- The size of the block that a parameter has after the call, and that of the value in it, from
those before; `none` is no block. -/
def resize : Call → Option (ℕ × ℕ) → Option (ℕ × ℕ)
  | @fixed size _ _, none => some (size, size)
  | @fixed size _ _, some (block, _) => some (block, size)
  | sized _ value, none => some (value.length, value.length)
  | sized _ value, some (block, last) =>
    some (if last < value.length then value.length else block, value.length)
  | null, sizes => sizes

/-- A block that is there is long enough for a value of fixed size. -/
def Fits (sizes : Option (ℕ × ℕ)) : Call → Prop
  | @fixed size _ _ => ∀ x ∈ sizes, size ≤ x.1
  | _ => True

end Call

/-- The block of a parameter after calls on a new statement. -/
def sizesAfter {n : ℕ} (calls : List (Fin n × Call)) (i : Fin n) : Option (ℕ × ℕ) :=
  calls.foldl (fun sizes call => if call.1 = i then call.2.resize sizes else sizes) none

def MySQLBind.sizes (b : MySQLBind) : Option (ℕ × ℕ) :=
  b.buffer.map fun block => (block.length, b.bufferLength)

variable {n : ℕ} {b b' : MySQLBind} {block value : List UInt8} {c : Call}

/-- One call on the parameter `call.1`. -/
def bind (s : Fin n → MySQLBind) (call : Fin n × Call) : Option (Fin n → MySQLBind) :=
  (call.2.exec (s call.1)).map (update s call.1)

def run : (Fin n → MySQLBind) → List (Fin n × Call) → Option (Fin n → MySQLBind) := foldlM bind

/-- What all binds keep: the block is not shorter than the value in it. -/
def Room (b : MySQLBind) : Prop := ∀ block ∈ b.buffer, b.bufferLength ≤ block.length

theorem memcpy_eq_some (h : value.length ≤ block.length) :
    memcpy block value = some (value ++ block.drop value.length) := if_pos h

/-- A copied value stands at the start of a block that has room for it. -/
theorem held_copy {type : FieldType} {isUnsigned : Bool} {rest : List UInt8} {size : ℕ}
    (h : value.length = size) :
    let b : MySQLBind := ⟨type, some (value ++ rest), size, isUnsigned⟩
    Room b ∧ b.buffer.map (take b.bufferLength) = some value := by
  subst h
  refine ⟨fun block hblock => ?_, by simp⟩
  cases hblock
  simp

theorem Fixed.exec_eq {size : ℕ} (kind : Fixed size) :
    ∃ type isUnsigned, kind.exec = bindCopy type size isUnsigned := by
  cases kind <;> exact ⟨_, _, rfl⟩

theorem Sized.exec_eq (kind : Sized) : ∃ type, kind.exec = bindCopyLen type := by
  cases kind <;> exact ⟨_, rfl⟩

theorem Call.fits_sizes {size : ℕ} {kind : Fixed size} {value : BitVec (8 * size)} :
    (fixed kind value).Fits b.sizes ↔ ∀ block ∈ b.buffer, size ≤ block.length := by
  simp [Fits, MySQLBind.sizes]

theorem Call.fits_of_exec (h : c.exec b = some b') : c.Fits b.sizes := by
  cases c with
  | @fixed size kind value =>
    obtain ⟨type, isUnsigned, heq⟩ := kind.exec_eq
    rw [exec, heq] at h
    obtain ⟨block, hcopy, -⟩ := Option.bind_eq_some_iff.mp h
    refine fits_sizes.mpr fun old hold => ?_
    rw [hold, memcpy, length_leBytes] at hcopy
    by_contra hlt
    rw [Option.getD_some, if_neg hlt] at hcopy
    cases hcopy
  | sized | null => trivial

theorem length_memcpy {block' : List UInt8} (h : memcpy block value = some block') :
    block'.length = block.length := by
  obtain ⟨hle, hcopy⟩ := Option.ite_none_right_eq_some.mp h
  cases hcopy
  simp [hle]

/-- The blocks are those that the sizes of the calls give. -/
theorem Call.sizes_exec (h : c.exec b = some b') : b'.sizes = c.resize b.sizes := by
  cases c with
  | fixed kind value =>
    obtain ⟨type, isUnsigned, heq⟩ := kind.exec_eq
    rw [exec, heq] at h
    obtain ⟨block, hcopy, hb⟩ := Option.bind_eq_some_iff.mp h
    cases hb
    have hlen := length_memcpy hcopy
    cases hbuffer : b.buffer <;> simp_all [MySQLBind.sizes, resize, malloc]
  | sized kind value =>
    obtain ⟨type, heq⟩ := kind.exec_eq
    rw [exec, heq] at h
    obtain ⟨block, hcopy, hb⟩ := Option.bind_eq_some_iff.mp h
    cases hb
    have hlen := length_memcpy hcopy
    unfold blockFor at hlen
    cases hbuffer : b.buffer with
    | none => simp_all [MySQLBind.sizes, resize, malloc]
    | some old =>
      simp only [hbuffer] at hlen
      simp only [MySQLBind.sizes, resize, hbuffer, Option.map_some, hlen]
      split_ifs <;> simp [malloc]
  | null =>
    cases h
    rfl

theorem sizes_run {calls : List (Fin n × Call)} {s : Fin n → MySQLBind}
    (h : run (fun _ => {}) calls = some s) (i : Fin n) : (s i).sizes = sizesAfter calls i := by
  induction calls using reverseRecOn generalizing s with
  | nil =>
    cases h
    rfl
  | append_singleton calls call ih =>
    rw [run, foldlM_append] at h
    obtain ⟨t, ht, hlast⟩ := Option.bind_eq_some_iff.mp h
    obtain ⟨u, hbind, hu⟩ := Option.bind_eq_some_iff.mp (foldlM_cons.symm.trans hlast)
    cases hu
    obtain ⟨b, hexec, rfl⟩ := Option.map_eq_some_iff.mp hbind
    rw [sizesAfter, foldl_append, foldl_cons, foldl_nil, ← sizesAfter, ← ih ht]
    split_ifs with hi
    · subst hi
      rw [update_self, Call.sizes_exec hexec]
    · rw [update_of_ne (Ne.symm hi)]

theorem Call.exec_of_fits (hroom : Room b) (hfits : c.Fits b.sizes) :
    ∃ b', c.exec b = some b' ∧ Room b' ∧ c.HeldBy b' := by
  cases c with
  | @fixed size kind value =>
    obtain ⟨type, isUnsigned, heq⟩ := kind.exec_eq
    have hlength : (leBytes size value.toNat).length ≤ (b.buffer.getD (malloc size)).length := by
      rw [length_leBytes]
      cases hb : b.buffer with
      | none => simp [malloc]
      | some block => exact fits_sizes.mp hfits block hb
    rw [exec, heq, bindCopy, memcpy_eq_some hlength]
    exact ⟨_, rfl, held_copy (length_leBytes ..)⟩
  | sized kind value =>
    obtain ⟨type, heq⟩ := kind.exec_eq
    rw [exec, heq, bindCopyLen]
    have hlength : value.length ≤ (blockFor b value.length).length := by
      unfold blockFor
      split
      · simp [malloc]
      · split_ifs
        · simp [malloc]
        · have hle := hroom _ ‹_›
          omega
    rw [memcpy_eq_some hlength]
    exact ⟨_, rfl, held_copy rfl⟩
  | null => exact ⟨_, rfl, hroom, rfl⟩

/-- Fitting calls run, and each parameter has the value of its last call or is as before. -/
theorem run_of_fits (calls : List (Fin n × Call)) : ∀ s : Fin n → MySQLBind, (∀ i, Room (s i)) →
    (∀ before i c after, calls = before ++ (i, c) :: after → ∀ t, run s before = some t →
      c.Fits (t i).sizes) →
    ∃ t, run s calls = some t ∧ (∀ i, (∀ call ∈ calls, call.1 ≠ i) → t i = s i) ∧
      ∀ before i c after, calls = before ++ (i, c) :: after → (∀ call ∈ after, call.1 ≠ i) →
        c.HeldBy (t i) := by
  induction calls with
  | nil => exact fun s _ _ => ⟨s, rfl, fun _ _ => rfl, by simp⟩
  | cons call calls ih =>
    intro s hroom hfits
    obtain ⟨b, hexec, hb, hheld⟩ := Call.exec_of_fits (hroom call.1) (hfits [] _ _ _ rfl s rfl)
    have hbind : bind s call = some (update s call.1 b) := by rw [bind, hexec, Option.map_some]
    have hrun : ∀ calls, run s (call :: calls) = run (update s call.1 b) calls := by
      intro calls
      rw [run, foldlM_cons, hbind]
      rfl
    have hroom' : ∀ i, Room (update s call.1 b i) := by
      intro i
      by_cases hi : i = call.1
      · rwa [hi, update_self]
      · rw [update_of_ne hi]
        exact hroom i
    obtain ⟨t, ht, hsame, hlast⟩ := ih _ hroom' fun before i c after heq u hu =>
      hfits (call :: before) i c after (congrArg _ heq) u ((hrun before).trans hu)
    refine ⟨t, (hrun calls).trans ht, fun i hi => ?_, ?_⟩
    · obtain ⟨hne, hi⟩ := forall_mem_cons.mp hi
      rw [hsame i hi, update_of_ne hne.symm]
    · rintro (_ | ⟨_, before⟩) i c after heq hafter
      · cases heq
        rwa [hsame _ hafter, update_self]
      · exact hlast before i c after (cons.inj heq).2 hafter

/-- A sequence of binds copies within its blocks and leaves each parameter with the value bound
last exactly if no value of fixed size meets a block that the calls before it have left shorter. -/
theorem binds_hold_iff (n : ℕ) (calls : List (Fin n × Call)) :
    (∃ s, run (fun _ => {}) calls = some s ∧ ∀ before i c after,
      calls = before ++ (i, c) :: after → (∀ call ∈ after, call.1 ≠ i) → c.HeldBy (s i)) ↔
    ∀ before i c after, calls = before ++ (i, c) :: after → c.Fits (sizesAfter before i) := by
  constructor
  · rintro ⟨s, hrun, -⟩ before i c after rfl
    rw [run, foldlM_append] at hrun
    obtain ⟨t, ht, hrun⟩ := Option.bind_eq_some_iff.mp hrun
    obtain ⟨u, hbind, -⟩ := Option.bind_eq_some_iff.mp (foldlM_cons.symm.trans hrun)
    obtain ⟨b, hexec, -⟩ := Option.map_eq_some_iff.mp hbind
    rw [← sizes_run ht]
    exact Call.fits_of_exec hexec
  · intro hfits
    obtain ⟨s, hrun, -, hlast⟩ := run_of_fits calls _ (fun _ => by simp [Room])
      fun before i c after heq t ht => sizes_run ht i ▸ hfits before i c after heq
    exact ⟨s, hrun, hlast⟩

/-- The block of an `int8_t` is kept for an `int64_t`. -/
theorem int64_overruns_int8 :
    run (fun _ : Fin 1 => {}) [(0, .fixed .int8 1), (0, .fixed .int64 1)] = none :=
  rfl

end JKYi.Db.MySQLStmt
