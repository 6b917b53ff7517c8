import JKYi.Foundation.Blocks
import JKYi.Foundation.Bytes
import JKYi.Foundation.Lines

/-!
# The buffer of the reactor

A vector of bytes with a reader and a writer index. The bytes between the two are
readable; behind them there is room to append, before them to prepend. A failed
assertion and an access outside the vector end the program: `none`.
-/

namespace JKYi.Net

open List Option

structure Buffer where
  buffer : List UInt8
  readerIndex : ℕ
  writerIndex : ℕ
  deriving DecidableEq

namespace Buffer

def kCheapPrepend : ℕ := 8

def kInitialSize : ℕ := 1024

def assert (c : Prop) [Decidable c] : Option Unit := if c then some () else none

/-- `std::vector::resize`. -/
def resize (l : List UInt8) (n : ℕ) : List UInt8 := l.take n ++ List.replicate (n - l.length) 0

section

variable (b : Buffer)

def readableBytes : ℕ := b.writerIndex - b.readerIndex

def writableBytes : ℕ := b.buffer.length - b.writerIndex

def prependableBytes : ℕ := b.readerIndex

/-- The bytes from `peek()` to `beginWrite()`. -/
def contents : List UInt8 := (b.buffer.take b.writerIndex).drop b.readerIndex

def findCRLF : Option ℕ := (pairAt 13 10 b.contents).map (b.readerIndex + ·)

/-- `Buffer(initialSize)`. -/
def create (initialSize : ℕ) : Option Buffer := do
  let b : Buffer :=
    ⟨List.replicate (kCheapPrepend + initialSize) 0, kCheapPrepend, kCheapPrepend⟩
  assert (b.readableBytes = 0)
  assert (b.writableBytes = initialSize)
  assert (b.prependableBytes = kCheapPrepend)
  return b

def copyTo (i : ℕ) (d : List UInt8) : Option Buffer := do
  assert (i + d.length ≤ b.buffer.length)
  return { b with buffer := splice b.buffer i d }

def retrieveAll : Buffer := { b with readerIndex := kCheapPrepend, writerIndex := kCheapPrepend }

def retrieve (len : ℕ) : Option Buffer := do
  assert (len ≤ b.readableBytes)
  if len < b.readableBytes then
    return { b with readerIndex := b.readerIndex + len }
  else
    return b.retrieveAll

def retrieveUntil (last : ℕ) : Option Buffer := do
  assert (b.readerIndex ≤ last)
  assert (last ≤ b.writerIndex)
  b.retrieve (last - b.readerIndex)

def retrieveAsString (len : ℕ) : Option (List UInt8 × Buffer) := do
  assert (len ≤ b.readableBytes)
  let ret := b.contents.take len
  let b' ← b.retrieve len
  return (ret, b')

def makeSpace (len : ℕ) : Option Buffer := do
  if b.writableBytes + b.prependableBytes < len + kCheapPrepend then
    return { b with buffer := resize b.buffer (b.writerIndex + len) }
  else
    assert (kCheapPrepend < b.readerIndex)
    let readable := b.readableBytes
    let b' ← b.copyTo kCheapPrepend b.contents
    let b' := { b' with readerIndex := kCheapPrepend, writerIndex := kCheapPrepend + readable }
    assert (b'.readableBytes = readable)
    return b'

def ensureWritableBytes (len : ℕ) : Option Buffer := do
  let b ← if b.writableBytes < len then b.makeSpace len else some b
  assert (len ≤ b.writableBytes)
  return b

def hasWritten (len : ℕ) : Option Buffer := do
  assert (len ≤ b.writableBytes)
  return { b with writerIndex := b.writerIndex + len }

def unwrite (len : ℕ) : Option Buffer := do
  assert (len ≤ b.readableBytes)
  return { b with writerIndex := b.writerIndex - len }

def append (data : List UInt8) : Option Buffer := do
  let b ← b.ensureWritableBytes data.length
  let b ← b.copyTo b.writerIndex data
  b.hasWritten data.length

def prepend (data : List UInt8) : Option Buffer := do
  assert (data.length ≤ b.prependableBytes)
  let b := { b with readerIndex := b.readerIndex - data.length }
  b.copyTo b.readerIndex data

/-- `append(toStringPiece())` to another buffer: a `StringPiece` has an `int` as its length, and a
negative one is no size that a vector can have. -/
def appendTo (other : Buffer) : Option Buffer := do
  assert (0 ≤ intOfSize b.readableBytes)
  other.append (b.contents.take (intOfSize b.readableBytes).toNat)

def shrink (reserve : ℕ) : Option Buffer := do
  let other ← create kInitialSize
  let other ← other.ensureWritableBytes (b.readableBytes + reserve)
  b.appendTo other

def extraSize : ℕ := 65536

def readRoom : ℕ :=
  if b.writableBytes < extraSize then b.writableBytes + extraSize else b.writableBytes

/-- What `readv` does when the socket has `data` for it: the first bytes go behind the readable
ones, the others to `extrabuf`. An error leaves `errno` in `savedErrno` and returns -1. -/
def readFd (io : Except ℕ (List UInt8)) : Option ((ℤ × Option ℕ) × Buffer) :=
  match io with
  | .error errno => return ((-1, some errno), b)
  | .ok data => do
    let got := data.take b.readRoom
    let writable := b.writableBytes
    let b ← b.copyTo b.writerIndex (got.take writable)
    if got.length ≤ writable then
      return ((got.length, none), { b with writerIndex := b.writerIndex + got.length })
    else
      let b := { b with writerIndex := b.buffer.length }
      let b ← b.append (got.drop writable)
      return ((got.length, none), b)

end

@[simp] theorem assert_pos {c : Prop} [Decidable c] (h : c) : assert c = some () := if_pos h

theorem length_resize (l : List UInt8) (n : ℕ) : (resize l n).length = n := by
  simp [resize]
  omega

/-- The indices are in order, and the room for a header is there. -/
structure Wf (b : Buffer) : Prop where
  reader_le : b.readerIndex ≤ b.writerIndex
  writer_le : b.writerIndex ≤ b.buffer.length
  header : kCheapPrepend ≤ b.buffer.length

variable {b : Buffer}

theorem Wf.length_contents (h : b.Wf) : b.contents.length = b.readableBytes := by
  have := h.writer_le
  simp [contents, readableBytes]
  omega

theorem Wf.contents_eq_nil_iff (h : b.Wf) : b.contents = [] ↔ b.readableBytes = 0 := by
  rw [← h.length_contents, length_eq_zero_iff]

structure Becomes (b b' : Buffer) (c : List UInt8) : Prop where
  wf : b'.Wf
  contents_eq : b'.contents = c
  room : min kCheapPrepend b.readerIndex ≤ b'.readerIndex

theorem Becomes.refl (h : b.Wf) : Becomes b b b.contents := ⟨h, rfl, min_le_right _ _⟩

theorem Becomes.trans {b₁ b₂ : Buffer} {c c' : List UInt8} (h : Becomes b b₁ c)
    (h' : Becomes b₁ b₂ c') : Becomes b b₂ c' :=
  ⟨h'.wf, h'.contents_eq, (le_min (min_le_left _ _) h.room).trans h'.room⟩

theorem create_spec (n : ℕ) : ∃ b, create n = some b ∧ b.Wf ∧ b.contents = [] ∧
    b.readerIndex = kCheapPrepend := by
  refine ⟨⟨List.replicate (kCheapPrepend + n) 0, kCheapPrepend, kCheapPrepend⟩, ?_,
    ⟨le_rfl, ?_, ?_⟩, ?_, rfl⟩
  · simp [create, readableBytes, writableBytes, prependableBytes]
  · simp
  · simp
  · simp [contents]

theorem retrieveAll_spec (h : b.Wf) : Becomes b b.retrieveAll [] := by
  refine ⟨⟨le_rfl, h.header, h.header⟩, ?_, min_le_left _ _⟩
  simp [contents, retrieveAll]

variable {len : ℕ}

theorem retrieve_spec (h : b.Wf) (hlen : len ≤ b.readableBytes) :
    ∃ b', b.retrieve len = some b' ∧ Becomes b b' (b.contents.drop len) := by
  by_cases hless : len < b.readableBytes
  · refine ⟨{ b with readerIndex := b.readerIndex + len }, ?_, ⟨?_, h.writer_le, h.header⟩, ?_, ?_⟩
    · simp [retrieve, hlen, hless]
    · change b.readerIndex + len ≤ b.writerIndex
      have := h.reader_le
      unfold readableBytes at hlen
      omega
    · rw [contents, contents, drop_drop]
    · change min kCheapPrepend b.readerIndex ≤ b.readerIndex + len
      omega
  · refine ⟨b.retrieveAll, ?_, ?_⟩
    · simp [retrieve, hlen, hless]
    · have hall : b.contents.drop len = [] := by
        rw [drop_eq_nil_iff, h.length_contents]
        omega
      rw [hall]
      exact retrieveAll_spec h

theorem retrieveUntil_spec (h : b.Wf) {last : ℕ} (hfirst : b.readerIndex ≤ last)
    (hlast : last ≤ b.writerIndex) :
    ∃ b', b.retrieveUntil last = some b' ∧
      Becomes b b' (b.contents.drop (last - b.readerIndex)) := by
  have hlen : last - b.readerIndex ≤ b.readableBytes := Nat.sub_le_sub_right hlast _
  obtain ⟨b', hb', hspec⟩ := retrieve_spec h hlen
  refine ⟨b', ?_, hspec⟩
  simp [retrieveUntil, hfirst, hlast, hb']

theorem findCRLF_eq_some_iff {last : ℕ} :
    b.findCRLF = some last ↔ ∃ i, pairAt 13 10 b.contents = some i ∧ b.readerIndex + i = last :=
  map_eq_some_iff

theorem findCRLF_eq_none_iff : b.findCRLF = none ↔ pairAt 13 10 b.contents = none :=
  map_eq_none_iff

theorem retrieveLine_spec (h : b.Wf) {i : ℕ} (hi : pairAt 13 10 b.contents = some i) :
    ∃ b', b.retrieveUntil (b.readerIndex + i + 2) = some b' ∧
      Becomes b b' (b.contents.drop (i + 2)) := by
  have hlen := pairAt_bounds hi
  rw [h.length_contents, readableBytes] at hlen
  have hlast : b.readerIndex + i + 2 - b.readerIndex = i + 2 := by omega
  have hfirst : b.readerIndex ≤ b.readerIndex + i + 2 := by omega
  have hspec := retrieveUntil_spec h hfirst (by omega)
  rwa [hlast] at hspec

theorem retrieveAsString_spec (h : b.Wf) (hlen : len ≤ b.readableBytes) :
    ∃ b', b.retrieveAsString len = some (b.contents.take len, b') ∧
      Becomes b b' (b.contents.drop len) := by
  obtain ⟨b', hb', hspec⟩ := retrieve_spec h hlen
  refine ⟨b', ?_, hspec⟩
  simp [retrieveAsString, hlen, hb']

variable {d : List UInt8}

theorem copyTo_eq {i : ℕ} (h : i + d.length ≤ b.buffer.length) :
    b.copyTo i d = some { b with buffer := splice b.buffer i d } := by
  simp [copyTo, h]

theorem contents_resize {n : ℕ} (hw : b.writerIndex ≤ b.buffer.length) (hn : b.writerIndex ≤ n) :
    ({ b with buffer := resize b.buffer n } : Buffer).contents = b.contents := by
  simp only [contents, resize]
  rw [take_append_of_le_length, take_take, min_eq_left hn]
  rw [length_take]
  exact le_min hn hw

theorem contents_written (h : b.Wf) (d : List UInt8) :
    ({ b with buffer := splice b.buffer b.writerIndex d,
              writerIndex := b.writerIndex + d.length } : Buffer).contents = b.contents ++ d := by
  simp only [contents]
  rw [take_splice_end h.writer_le, drop_append_of_le_length]
  rw [length_take]
  exact le_min h.reader_le (h.reader_le.trans h.writer_le)

theorem makeSpace_spec (h : b.Wf) (hlen : b.writableBytes < len) :
    ∃ b', b.makeSpace len = some b' ∧ Becomes b b' b.contents ∧ len ≤ b'.writableBytes := by
  have hr := h.reader_le
  have hw := h.writer_le
  by_cases hgrow : b.writableBytes + b.prependableBytes < len + kCheapPrepend
  · refine ⟨{ b with buffer := resize b.buffer (b.writerIndex + len) }, ?_, ⟨⟨hr, ?_, ?_⟩, ?_, ?_⟩,
      ?_⟩
    · simp [makeSpace, hgrow]
    · rw [length_resize]
      exact Nat.le_add_right _ _
    · rw [length_resize]
      have := h.header
      unfold writableBytes at hlen
      omega
    · exact contents_resize hw (Nat.le_add_right _ _)
    · exact min_le_right _ _
    · rw [writableBytes, length_resize]
      exact (Nat.add_sub_cancel_left ..).ge
  · -- not enough room behind the readable bytes, but there is with the room before them
    have hfront : kCheapPrepend < b.readerIndex := by
      unfold prependableBytes at hgrow
      omega
    have hreadable := h.length_contents
    have hfits : kCheapPrepend + b.contents.length ≤ b.buffer.length := by
      unfold readableBytes at hreadable
      omega
    refine ⟨⟨splice b.buffer kCheapPrepend b.contents, kCheapPrepend,
      kCheapPrepend + b.readableBytes⟩, ?_, ⟨⟨Nat.le_add_right _ _, ?_, ?_⟩, ?_, ?_⟩, ?_⟩
    · simp [makeSpace, hgrow, hfront, copyTo_eq hfits, readableBytes]
    · rw [length_splice h.header, ← hreadable]
      exact le_max_right _ _
    · rw [length_splice h.header]
      exact h.header.trans (le_max_left _ _)
    · rw [contents, ← hreadable, take_splice_end h.header, drop_left']
      rw [length_take]
      exact min_eq_left h.header
    · exact min_le_left _ _
    · rw [writableBytes, length_splice h.header, max_eq_left hfits]
      change len ≤ b.buffer.length - (kCheapPrepend + b.readableBytes)
      unfold writableBytes prependableBytes at hgrow
      unfold readableBytes
      omega

theorem ensureWritableBytes_spec (h : b.Wf) (len : ℕ) :
    ∃ b', b.ensureWritableBytes len = some b' ∧ Becomes b b' b.contents ∧
      len ≤ b'.writableBytes := by
  by_cases hlen : b.writableBytes < len
  · obtain ⟨b', hb', hspec, hroom⟩ := makeSpace_spec h hlen
    refine ⟨b', ?_, hspec, hroom⟩
    simp [ensureWritableBytes, hlen, hb', hroom]
  · have hroom := not_lt.1 hlen
    refine ⟨b, ?_, .refl h, hroom⟩
    simp [ensureWritableBytes, hlen, hroom]

theorem fill_spec (h : b.Wf) (hd : d.length ≤ b.writableBytes) :
    ∃ b', (do let b ← b.copyTo b.writerIndex d; b.hasWritten d.length) = some b' ∧
      Becomes b b' (b.contents ++ d) := by
  have hw := h.writer_le
  have hfits : b.writerIndex + d.length ≤ b.buffer.length := by
    unfold writableBytes at hd
    omega
  have hlength : (splice b.buffer b.writerIndex d).length = b.buffer.length := by
    rw [length_splice hw, max_eq_left hfits]
  refine ⟨{ b with buffer := splice b.buffer b.writerIndex d,
                   writerIndex := b.writerIndex + d.length }, ?_, ⟨⟨?_, ?_, ?_⟩, ?_, ?_⟩⟩
  · rw [copyTo_eq hfits]
    have hroom : d.length ≤ ({ b with buffer := splice b.buffer b.writerIndex d } :
        Buffer).writableBytes := by
      rw [writableBytes, hlength]
      exact hd
    simp [hasWritten, hroom]
  · exact h.reader_le.trans (Nat.le_add_right _ _)
  · rw [hlength]
    exact hfits
  · rw [hlength]
    exact h.header
  · exact contents_written h d
  · exact min_le_right _ _

theorem append_spec (h : b.Wf) (d : List UInt8) :
    ∃ b', b.append d = some b' ∧ Becomes b b' (b.contents ++ d) := by
  obtain ⟨b₁, h₁, hspec₁, hroom⟩ := ensureWritableBytes_spec h d.length
  obtain ⟨b₂, h₂, hspec₂⟩ := fill_spec hspec₁.wf hroom
  rw [hspec₁.contents_eq] at hspec₂
  refine ⟨b₂, ?_, hspec₁.trans hspec₂⟩
  rw [append, h₁, bind_eq_bind, bind_some]
  exact h₂

theorem prepend_spec (h : b.Wf) (hd : d.length ≤ b.prependableBytes) :
    ∃ b', b.prepend d = some b' ∧ b'.Wf ∧ b'.contents = d ++ b.contents ∧
      b'.readerIndex = b.readerIndex - d.length := by
  have hr := h.reader_le
  have hw := h.writer_le
  unfold prependableBytes at hd
  have hend := Nat.sub_add_cancel hd
  have hfits : b.readerIndex - d.length + d.length ≤ b.buffer.length := by omega
  have hstart : b.readerIndex - d.length ≤ b.buffer.length := by omega
  refine ⟨⟨splice b.buffer (b.readerIndex - d.length) d, b.readerIndex - d.length,
    b.writerIndex⟩, ?_, ⟨?_, ?_, ?_⟩, ?_, rfl⟩
  · have hcopy : ({ b with readerIndex := b.readerIndex - d.length } : Buffer).copyTo
        (b.readerIndex - d.length) d = _ := copyTo_eq hfits
    simp [prepend, prependableBytes, hd, hcopy]
  · exact (Nat.sub_le _ _).trans hr
  · rw [length_splice hstart]
    exact hw.trans (le_max_left _ _)
  · rw [length_splice hstart]
    exact h.header.trans (le_max_left _ _)
  · simp only [contents]
    rw [drop_take, drop_splice hstart, hend, take_append, drop_take]
    have hmore : b.writerIndex - (b.readerIndex - d.length) - d.length =
        b.writerIndex - b.readerIndex := by omega
    rw [hmore, take_of_length_le (by omega)]

theorem unwrite_spec (h : b.Wf) (hlen : len ≤ b.readableBytes) :
    ∃ b', b.unwrite len = some b' ∧
      Becomes b b' (b.contents.take (b.contents.length - len)) := by
  have hr := h.reader_le
  have hw := h.writer_le
  have hreadable := h.length_contents
  unfold readableBytes at hlen hreadable
  refine ⟨{ b with writerIndex := b.writerIndex - len }, ?_, ⟨⟨?_, ?_, h.header⟩, ?_, ?_⟩⟩
  · simp [unwrite, readableBytes, hlen]
  · change b.readerIndex ≤ b.writerIndex - len
    omega
  · exact (Nat.sub_le _ _).trans hw
  · rw [hreadable, contents, contents, drop_take, drop_take, take_take]
    congr 1
    change b.writerIndex - len - b.readerIndex = _
    omega
  · exact min_le_right _ _

theorem appendTo_spec {other : Buffer} (h : b.Wf) (ho : other.Wf)
    (hsize : b.readableBytes < 2 ^ 31) :
    ∃ b', b.appendTo other = some b' ∧ Becomes other b' (other.contents ++ b.contents) := by
  obtain ⟨b', hb', hspec⟩ := append_spec ho b.contents
  refine ⟨b', ?_, hspec⟩
  have hint := intOfSize_eq hsize
  have hall := take_of_length_le h.length_contents.le
  simp [appendTo, hint, hall, hb']

theorem shrink_spec (h : b.Wf) (reserve : ℕ) (hsize : b.readableBytes < 2 ^ 31) :
    ∃ b', b.shrink reserve = some b' ∧ b'.Wf ∧ b'.contents = b.contents ∧
      kCheapPrepend ≤ b'.readerIndex := by
  obtain ⟨b₁, h₁, hwf₁, hnil, hreader⟩ := create_spec kInitialSize
  obtain ⟨b₂, h₂, hspec₂, -⟩ := ensureWritableBytes_spec hwf₁ (b.readableBytes + reserve)
  obtain ⟨b₃, h₃, hspec₃⟩ := appendTo_spec h hspec₂.wf hsize
  rw [hspec₂.contents_eq, hnil, nil_append] at hspec₃
  refine ⟨b₃, ?_, hspec₃.wf, hspec₃.contents_eq, ?_⟩
  · rw [shrink, h₁, bind_eq_bind, bind_some, h₂, bind_some, h₃]
  · have hroom := (hspec₂.trans hspec₃).room
    rw [hreader, min_self] at hroom
    exact hroom

theorem readFd_spec (h : b.Wf) (data : List UInt8) :
    ∃ b', b.readFd (.ok data) = some ((((data.take b.readRoom).length : ℤ), none), b') ∧
      Becomes b b' (b.contents ++ data.take b.readRoom) := by
  have hw := h.writer_le
  set got := data.take b.readRoom with hgot
  set first := got.take b.writableBytes with hfirst
  have hlength : first.length = min b.writableBytes got.length := length_take ..
  have hfits : b.writerIndex + first.length ≤ b.buffer.length := by
    unfold writableBytes at hlength
    omega
  have hcopy := copyTo_eq hfits
  have hsize : (splice b.buffer b.writerIndex first).length = b.buffer.length := by
    rw [length_splice hw, max_eq_left hfits]
  by_cases hless : got.length ≤ b.writableBytes
  · have hall : first = got := take_of_length_le hless
    rw [hall] at hcopy hsize hfits
    refine ⟨{ b with buffer := splice b.buffer b.writerIndex got,
                     writerIndex := b.writerIndex + got.length }, ?_, ⟨?_, ?_, ?_⟩,
      contents_written h got, min_le_right _ _⟩
    · simp only [readFd, ← hgot, ← hfirst, hall, hcopy, bind_eq_bind, bind_some, if_pos hless]
      rfl
    · exact h.reader_le.trans (Nat.le_add_right _ _)
    · rw [hsize]
      exact hfits
    · rw [hsize]
      exact h.header
  · have hfull : b.writerIndex + first.length = b.buffer.length := by
      unfold writableBytes at hlength hless
      omega
    set b₁ : Buffer := { b with buffer := splice b.buffer b.writerIndex first,
                                writerIndex := b.writerIndex + first.length } with hb₁
    have hwf₁ : b₁.Wf := by
      refine ⟨h.reader_le.trans (Nat.le_add_right _ _), ?_, ?_⟩
      · rw [hb₁, hsize]
        exact hfits
      · rw [hb₁, hsize]
        exact h.header
    obtain ⟨b₂, h₂, hspec⟩ := append_spec hwf₁ (got.drop b.writableBytes)
    rw [hb₁, contents_written h first, append_assoc, hfirst, take_append_drop] at hspec
    refine ⟨b₂, ?_, hspec.wf, hspec.contents_eq, hspec.room⟩
    have hend : (⟨splice b.buffer b.writerIndex first, b.readerIndex,
        (splice b.buffer b.writerIndex first).length⟩ : Buffer) = b₁ := by
      rw [hb₁, hsize, hfull]
    simp only [readFd, ← hgot, ← hfirst, hcopy, bind_eq_bind, bind_some, if_neg hless, hend, h₂]
    rfl

end Buffer
end JKYi.Net
