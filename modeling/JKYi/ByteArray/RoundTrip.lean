import JKYi.ByteArray.Codec

/-!
# Typed values written and read back

A mixed sequence of typed writes is read back by the matching sequence of typed
reads, whatever the base size and the byte order.
-/

namespace JKYi.ByteArray

/-- The pairs of a typed writer and its reader. -/
inductive Kind where
  | fint8 | fuint8 | fint16 | fuint16 | fint32 | fuint32 | fint64 | fuint64
  | int32 | uint32 | int64 | uint64
  | float | double
  | string (f : StringForm)
  deriving DecidableEq

namespace Kind

abbrev Val : Kind → Type
  | fint8 => Int8
  | fuint8 => UInt8
  | fint16 => Int16
  | fuint16 => UInt16
  | fint32 | int32 => Int32
  | fuint32 | uint32 | float => UInt32
  | fint64 | int64 => Int64
  | fuint64 | uint64 | double => UInt64
  | string _ => List UInt8

def write : (k : Kind) → k.Val → Run Exn ByteArray Unit
  | fint8, v => writeFint8 v
  | fuint8, v => writeFuint8 v
  | fint16, v => writeFint16 v
  | fuint16, v => writeFuint16 v
  | fint32, v => writeFint32 v
  | fuint32, v => writeFuint32 v
  | fint64, v => writeFint64 v
  | fuint64, v => writeFuint64 v
  | int32, v => writeInt32 v
  | uint32, v => writeUint32 v
  | int64, v => writeInt64 v
  | uint64, v => writeUint64 v
  | float, v => writeFloat v
  | double, v => writeDouble v
  | string f, v => f.write v

def read : (k : Kind) → Run Exn ByteArray k.Val
  | fint8 => readFint8
  | fuint8 => readFuint8
  | fint16 => readFint16
  | fuint16 => readFuint16
  | fint32 => readFint32
  | fuint32 => readFuint32
  | fint64 => readFint64
  | fuint64 => readFuint64
  | int32 => readInt32
  | uint32 => readUint32
  | int64 => readInt64
  | uint64 => readUint64
  | float => readFloat
  | double => readDouble
  | string f => f.read

def encode (e : Endian) : (k : Kind) → k.Val → List UInt8
  | fint8, v => [v.toUInt8]
  | fuint8, v => [v]
  | fint16, v => fixedBytes e 2 v.toUInt16.toNat
  | fuint16, v => fixedBytes e 2 v.toNat
  | fint32, v => fixedBytes e 4 v.toUInt32.toNat
  | fuint32, v | float, v => fixedBytes e 4 v.toNat
  | fint64, v => fixedBytes e 8 v.toUInt64.toNat
  | fuint64, v | double, v => fixedBytes e 8 v.toNat
  | int32, v => varintBytes (encodeZigzag32 v).toNat
  | uint32, v => varintBytes v.toNat
  | int64, v => varintBytes (encodeZigzag64 v).toNat
  | uint64, v => varintBytes v.toNat
  | string f, v => f.lengthField e v.length ++ v

/-- Strings are not empty and their length fits its field. -/
def Fits : (k : Kind) → k.Val → Prop
  | string f, v => v ≠ [] ∧ v.length ≤ f.maxLength
  | _, _ => True

end Kind

variable {e : Endian}

theorem writes_kind (k : Kind) (v : k.Val) : Writes e (k.write v) (k.encode e v) := by
  cases k with
  | fint8 =>
    change Writes e (ByteArray.write (leBytes 1 v.toUInt8.toNat)) [v.toUInt8]
    rw [leBytes_one]
    exact writes_write _
  | fuint8 => exact writes_writeFuint8 v
  | fint16 | fuint16 | fint32 | fuint32 | fint64 | fuint64 | float | double =>
    exact writes_writeFixed _ _
  | int32 | uint32 | int64 | uint64 => exact writes_write _
  | string f => exact writes_string f v

theorem reads_kind (k : Kind) (v : k.Val) (hv : k.Fits v) : Reads e k.read v (k.encode e v) := by
  cases k with
  | fint8 => exact reads_byte (f := fun n => (UInt8.ofNat n).toInt8) (by simp)
  | fuint8 => exact reads_readFuint8 v
  | fint16 => exact reads_word (by simp) v.toUInt16.toNat_lt (by simp)
  | fuint16 => exact reads_readFuint16 v
  | fint32 => exact reads_word (by simp) v.toUInt32.toNat_lt (by simp)
  | fuint32 | float => exact reads_readFuint32 v
  | fint64 => exact reads_word (by simp) v.toUInt64.toNat_lt (by simp)
  | fuint64 | double => exact reads_readFuint64 v
  | int32 =>
    have h := (reads_readUint32 (e := e) (encodeZigzag32 v)).map decodeZigzag32
    rwa [decode_encodeZigzag32] at h
  | uint32 => exact reads_readUint32 v
  | int64 =>
    have h := (reads_readUint64 (e := e) (encodeZigzag64 v)).map decodeZigzag64
    rwa [decode_encodeZigzag64] at h
  | uint64 => exact reads_readUint64 v
  | string f => exact reads_string hv.1 hv.2

/-- One typed value. -/
abbrev Item := Σ k : Kind, k.Val

def writeAll : List Item → Run Exn ByteArray Unit
  | [] => pure ()
  | x :: xs => do
    x.1.write x.2
    writeAll xs

def readAll : List Kind → Run Exn ByteArray (List Item)
  | [] => pure []
  | k :: ks => do
    let v ← k.read
    let vs ← readAll ks
    pure (⟨k, v⟩ :: vs)

def encodeAll (e : Endian) (items : List Item) : List UInt8 :=
  items.flatMap fun x => x.1.encode e x.2

theorem writeAll_written (items : List Item) {ba ba' : ByteArray} {u : Unit} (h : ba.Wf)
    (he : ba.endian = e) (hrun : writeAll items ba = .ok u ba') :
    Written ba (encodeAll e items) ba' := by
  induction items generalizing ba with
  | nil =>
    cases hrun
    exact written_nil h
  | cons x xs ih =>
    obtain ⟨_, ba₁, hx, hxs⟩ := Run.bind_eq_ok_iff.mp hrun
    have h₁ := (writes_kind x.1 x.2 ba h he).1 _ _ hx
    exact h₁.append h (ih h₁.wf (h₁.endian_eq.trans he) hxs)

theorem writeAll_returns (items : List Item) {ba : ByteArray} (h : ba.Wf) (he : ba.endian = e)
    (hsize : ∀ x ∈ items, (x.1.encode e x.2).length < 2 ^ 53) :
    ∃ ba', writeAll items ba = .ok () ba' := by
  induction items generalizing ba with
  | nil => exact ⟨ba, rfl⟩
  | cons x xs ih =>
    obtain ⟨ba₁, hx⟩ := (writes_kind x.1 x.2 ba h he).2 (hsize x (by simp))
    have h₁ := (writes_kind x.1 x.2 ba h he).1 _ _ hx
    obtain ⟨ba₂, hxs⟩ := ih h₁.wf (h₁.endian_eq.trans he) (fun y hy => hsize y (by simp [hy]))
    exact ⟨ba₂, (Run.bind_ok hx).trans hxs⟩

theorem reads_readAll (items : List Item) (hfit : ∀ x ∈ items, x.1.Fits x.2) :
    Reads e (readAll (items.map Sigma.fst)) items (encodeAll e items) := by
  induction items with
  | nil => exact reads_pure []
  | cons x xs ih =>
    have htail := (ih fun y hy => hfit y (by simp [hy])).map (fun vs => x :: vs)
    exact (reads_kind x.1 x.2 (hfit x (by simp))).bind htail

/-- Values of any kinds come back unchanged and nothing is left to read. The
writes do return unless a single string is as long as `2 ^ 53` bytes, where the
node count is no longer exact in `double`. -/
theorem typed_round_trip (b : ℕ) (hb : 1 ≤ b) (heap : ℕ → UInt8) (little : Bool)
    (items : List Item) (hfit : ∀ x ∈ items, x.1.Fits x.2) :
    (∀ u ba, writeAll items ((create b heap).setIsLittleEndian little) = .ok u ba →
      ∃ ba₀ ba₁, setPosition 0 ba = .ok () ba₀ ∧
        readAll (items.map Sigma.fst) ba₀ = .ok items ba₁ ∧ ba₁.getReadSize = 0) ∧
    ((∀ x ∈ items, ∀ e, (x.1.encode e x.2).length < 2 ^ 53) →
      ∃ ba, writeAll items ((create b heap).setIsLittleEndian little) = .ok () ba) := by
  have h : ((create b heap).setIsLittleEndian little).Wf := by
    obtain ⟨h1, h2, h3, h4, h5, h6, h7⟩ := create_wf hb heap
    exact ⟨h1, h2, h3, h4, h5, h6, h7⟩
  constructor
  · intro u ba hrun
    have hw := writeAll_written items h rfl hrun
    obtain ⟨ba₀, hset, hp⟩ := setPosition_spec hw.wf (Nat.zero_le ba.capacity)
    have hunread : ba₀.unread = encodeAll ba.endian items ++ [] := by
      rw [hp.unread_eq, hw.contents_eq, hw.endian_eq]
      simp [contents, setIsLittleEndian, create, splice]
    refine ⟨ba₀, _, hset, reads_readAll items hfit ba₀ [] hp.wf hp.endian_eq hunread, ?_⟩
    rw [← length_unread (advance_wf hp.wf (length_le_getReadSize hp.wf hunread)),
      unread_advance_append hunread, List.length_nil]
  · intro hsize
    exact writeAll_returns items h rfl fun x hx => hsize x hx _

theorem typed_round_trip_mixed : ∃ ba ba₀ ba₁,
    writeAll [⟨.fint32, Int32.minValue⟩, ⟨.int64, -1⟩, ⟨.string .f16, [7]⟩]
      ((create 2 fun _ => 0).setIsLittleEndian false) = .ok () ba ∧
    setPosition 0 ba = .ok () ba₀ ∧
    readAll [.fint32, .int64, .string .f16] ba₀ =
      .ok [⟨.fint32, Int32.minValue⟩, ⟨.int64, -1⟩, ⟨.string .f16, [7]⟩] ba₁ ∧
    ba₁.getReadSize = 0 := by
  have hfit : ∀ x ∈ ([⟨.fint32, Int32.minValue⟩, ⟨.int64, -1⟩, ⟨.string .f16, [7]⟩] : List Item),
      x.1.Fits x.2 := by simp [Kind.Fits, StringForm.maxLength]
  obtain ⟨hread, hwrite⟩ := typed_round_trip 2 (by simp) (fun _ => 0) false _ hfit
  have hvarint : varintBytes (encodeZigzag64 (-1)).toNat = [1] := varintBytes_of_lt (by decide)
  obtain ⟨ba, hba⟩ := hwrite (by simp [Kind.encode, StringForm.lengthField, hvarint])
  obtain ⟨ba₀, ba₁, h⟩ := hread () ba hba
  exact ⟨ba, ba₀, ba₁, hba, h⟩

end JKYi.ByteArray
