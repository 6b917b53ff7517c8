import JKYi.Http2.DynamicTable
import JKYi.Http2.HuffmanEncode

/-!
# The header compression format

What a header block means, apart from any implementation: the dynamic table as
a list with the newest entry first that never exceeds its maximum size, the
representations of a header field with their bytes, and the fields and the
table that a block stands for.
-/

namespace JKYi.Http2.Format

open List

def tableSize (es : List Entry) : ℕ := (es.map entrySize).sum

def keep : ℕ → List Entry → List Entry
  | _, [] => []
  | room, e :: es => if entrySize e ≤ room then e :: keep (room - entrySize e) es else []

@[simp] theorem tableSize_nil : tableSize [] = 0 := rfl

@[simp] theorem tableSize_cons (e : Entry) (es : List Entry) :
    tableSize (e :: es) = entrySize e + tableSize es := by
  simp [tableSize]

@[simp] theorem tableSize_append (es fs : List Entry) :
    tableSize (es ++ fs) = tableSize es + tableSize fs := by
  simp [tableSize]

@[simp] theorem tableSize_reverse (es : List Entry) : tableSize es.reverse = tableSize es := by
  simp [tableSize]

theorem length_le_tableSize (es : List Entry) : 32 * es.length ≤ tableSize es := by
  induction es with
  | nil => simp
  | cons e es ih =>
    rw [length_cons, tableSize_cons, entrySize]
    omega

theorem tableSize_keep_le (room : ℕ) (es : List Entry) : tableSize (keep room es) ≤ room := by
  induction es generalizing room with
  | nil => simp [keep]
  | cons e es ih =>
    rw [keep]
    split_ifs with h
    · have := ih (room - entrySize e)
      rw [tableSize_cons]
      omega
    · simp

variable {es : List Entry}

theorem keep_eq_self {room : ℕ} (h : tableSize es ≤ room) :
    keep room es = es := by
  induction es generalizing room with
  | nil => rfl
  | cons e es ih =>
    rw [tableSize_cons] at h
    rw [keep, if_pos (by omega), ih (by omega)]

theorem keep_append_singleton {room : ℕ} {e : Entry}
    (h : room < tableSize (es ++ [e])) : keep room (es ++ [e]) = keep room es := by
  induction es generalizing room with
  | nil =>
    have hlt : room < entrySize e := by simpa using h
    simp [keep, hlt]
  | cons f es ih =>
    rw [cons_append, tableSize_cons] at h
    simp only [cons_append, keep]
    split_ifs with hf
    · rw [ih (by omega)]
    · rfl

/-- The dynamic table, newest entry first. -/
structure Table where
  entries : List Entry
  maxSize : ℕ
  fits : tableSize entries ≤ maxSize

namespace Table

def empty (n : ℕ) : Table := ⟨[], n, Nat.zero_le n⟩

def insert (e : Entry) (t : Table) : Table where
  entries := if entrySize e ≤ t.maxSize then e :: keep (t.maxSize - entrySize e) t.entries else []
  maxSize := t.maxSize
  fits := by
    split_ifs with h
    · have := tableSize_keep_le (t.maxSize - entrySize e) t.entries
      rw [tableSize_cons]
      omega
    · simp

/-- A dynamic table size update. -/
def resize (n : ℕ) (t : Table) : Table := ⟨keep n t.entries, n, tableSize_keep_le n t.entries⟩

def lookup (t : Table) (i : ℕ) : Option Entry :=
  if i = 0 then none else (staticHeaders ++ t.entries)[i]?

end Table

/-- An integer with `pre` bits in its first byte, below the bits `flags`. -/
def prefixInt (pre flags n : ℕ) : List UInt8 :=
  if n < 2 ^ pre - 1 then [UInt8.ofNat (flags + n)]
  else UInt8.ofNat (flags + (2 ^ pre - 1)) :: varintBytes (n - (2 ^ pre - 1))

/-- The code words of a string, filled up with ones to whole bytes. -/
def huffmanBytes (s : List UInt8) : List UInt8 :=
  let w := encodeBits s
  let k := (w.length + 7) / 8
  packBytes k (w ++ replicate (8 * k - w.length) true)

structure StringLiteral where
  huffman : Bool
  text : List UInt8
  deriving DecidableEq, Repr

def StringLiteral.content (s : StringLiteral) : List UInt8 :=
  if s.huffman then huffmanBytes s.text else s.text

def StringLiteral.encode (s : StringLiteral) : List UInt8 :=
  prefixInt 7 (if s.huffman then 0x80 else 0) s.content.length ++ s.content

inductive Indexing where
  | incremental
  | without
  | never
  deriving DecidableEq, Repr

namespace Indexing

def pre : Indexing → ℕ
  | incremental => 6
  | without => 4
  | never => 4

def flags : Indexing → ℕ
  | incremental => 0x40
  | without => 0
  | never => 0x10

end Indexing

inductive FieldName where
  | indexed (i : ℕ)
  | literal (s : StringLiteral)
  deriving DecidableEq, Repr

inductive Field where
  | indexed (i : ℕ)
  | literal (mode : Indexing) (name : FieldName) (value : StringLiteral)
  deriving DecidableEq, Repr

namespace Field

def encode : Field → List UInt8
  | indexed i => prefixInt 7 0x80 i
  | literal mode (.indexed i) value => prefixInt mode.pre mode.flags i ++ value.encode
  | literal mode (.literal name) value =>
    prefixInt mode.pre mode.flags 0 ++ (name.encode ++ value.encode)

def entry (t : Table) : Field → Option Entry
  | indexed i => t.lookup i
  | literal _ (.indexed i) value => (t.lookup i).map fun e => (e.1, value.text)
  | literal _ (.literal name) value => some (name.text, value.text)

def isStored : Field → Bool
  | literal .incremental _ _ => true
  | _ => false

def strings : Field → List StringLiteral
  | indexed _ => []
  | literal _ (.indexed _) value => [value]
  | literal _ (.literal name) value => [name, value]

end Field

def Table.after (t : Table) (f : Field) (e : Entry) : Table := if f.isStored then t.insert e else t

def decodeFields : Table → List Field → Option (List Entry × Table)
  | t, [] => some ([], t)
  | t, f :: fs =>
    (f.entry t).bind fun e =>
      (decodeFields (t.after f e) fs).map fun r => (e :: r.1, r.2)

def encodeFields (fs : List Field) : List UInt8 := fs.flatMap Field.encode

/-- A header block: size updates stand at its beginning. -/
structure Block where
  updates : List ℕ
  fields : List Field
  deriving DecidableEq, Repr

namespace Block

def encode (b : Block) : List UInt8 :=
  b.updates.flatMap (prefixInt 5 0x20) ++ encodeFields b.fields

def decode (b : Block) (t : Table) : Option (List Entry × Table) :=
  decodeFields (b.updates.foldl (fun t n => t.resize n) t) b.fields

end Block

theorem length_huffmanBytes (s : List UInt8) :
    (huffmanBytes s).length = ((encodeBits s).length + 7) / 8 := by
  simp [huffmanBytes]

theorem byteBits_huffmanBytes (s : List UInt8) : ∃ pad, pad < 8 ∧
    byteBits (huffmanBytes s) = encodeBits s ++ replicate pad true := by
  refine ⟨8 * (((encodeBits s).length + 7) / 8) - (encodeBits s).length, by omega, ?_⟩
  apply byteBits_packBytes
  rw [length_append, length_replicate]
  omega

theorem encodeString_eq {σ : Type} (s : σ) {input : List UInt8}
    (hlen : maxHuffmanBuffLen input.length < 2 ^ 31) :
    encodeString input [] 0 s = .ok (0, huffmanBytes input) s := by
  obtain ⟨out, k, hrun, hk, hbits⟩ := encodeString_ok s hlen
  obtain ⟨pad, hpad, hformat⟩ := byteBits_huffmanBytes input
  have hout := congrArg length hbits
  have hbytes := congrArg length hformat
  rw [length_byteBits, length_append, length_replicate] at hout hbytes
  obtain rfl : k = pad := by omega
  rw [hrun, byteBits_injective (hbits.trans hformat.symm)]

theorem prefixInt_ne_nil (pre flags n : ℕ) : prefixInt pre flags n ≠ [] := by
  unfold prefixInt
  split_ifs <;> simp

theorem Field.length_encode_pos (f : Field) : 0 < f.encode.length := by
  have hpos := fun pre flags n => length_pos_iff.mpr (prefixInt_ne_nil pre flags n)
  cases f with
  | indexed i => exact hpos _ _ _
  | literal mode name value =>
    cases name with
    | indexed i | literal s =>
      rw [encode, length_append]
      exact Nat.add_pos_left (hpos _ _ _) _

theorem StringLiteral.length_content_le (s : StringLiteral) :
    s.content.length ≤ s.encode.length := by
  rw [encode, length_append]
  omega

variable {f : Field}

theorem Field.length_content_le {s : StringLiteral} (hs : s ∈ f.strings) :
    s.content.length ≤ f.encode.length := by
  have hcontent := s.length_content_le
  cases f with
  | indexed i => simp [strings] at hs
  | literal mode name value =>
    cases name with
    | indexed i =>
      obtain rfl : s = value := by simpa [strings] using hs
      rw [encode, length_append]
      omega
    | literal name =>
      rw [encode, length_append, length_append]
      rcases (by simpa [strings] using hs : s = name ∨ s = value) with rfl | rfl <;> omega

@[simp] theorem encodeFields_cons (f : Field) (fs : List Field) :
    encodeFields (f :: fs) = f.encode ++ encodeFields fs := rfl

theorem length_le_encodeFields (fs : List Field) : fs.length ≤ (encodeFields fs).length := by
  induction fs with
  | nil => simp
  | cons f fs ih =>
    have := f.length_encode_pos
    rw [encodeFields_cons, length_append, length_cons]
    omega

theorem length_encode_le {fs : List Field} (hf : f ∈ fs) :
    f.encode.length ≤ (encodeFields fs).length := by
  induction fs with
  | nil => simp at hf
  | cons g fs ih =>
    rw [encodeFields_cons, length_append]
    rcases mem_cons.mp hf with rfl | hf
    · omega
    · have := ih hf
      omega

theorem decodeFields_cons {t t' : Table} {fs : List Field} :
    decodeFields t (f :: fs) = some (es, t') ↔
      ∃ e rest, f.entry t = some e ∧ decodeFields (t.after f e) fs = some (rest, t') ∧
        es = e :: rest := by
  simp only [decodeFields, Option.bind_eq_some_iff, Option.map_eq_some_iff, Prod.mk.injEq]
  constructor
  · rintro ⟨e, he, ⟨rest, t''⟩, hrest, rfl, rfl⟩
    exact ⟨e, rest, he, hrest, rfl⟩
  · rintro ⟨e, rest, he, hrest, rfl⟩
    exact ⟨e, he, (rest, t'), hrest, rfl, rfl⟩

end JKYi.Http2.Format
