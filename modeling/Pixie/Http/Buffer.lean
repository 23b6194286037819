/-
  The growing strings of the HTTP wrapper, as they lie in memory (`simple_buffer.c`).

  A `simple_buffer_t` has a block from `malloc`, the number `used` of its bytes in use, and the
  `length` it was created with.  `sb_append` compares with `length`, and a block that it grows to is
  never recorded there: after the first growth `length` is too small.  That is what makes the code
  grow more often than it must, and what one has to see is that it never grows too seldom.

  1. **The code** — `sbCreate`, `sbAppend`, with the arithmetic of the source: `used` and `length` are
     `int`, sums with the `size_t` argument are taken modulo 2^64.  A copy that would leave its block
     is `none`, and so is the append that makes it.

  2. **`Holds`** — the invariant: the block has the first `kSIMPLE_BUFFER_SIZE` bytes at least, so what
     fits into `length` fits into it, and a block that is grown to has room for what is appended.

  3. `appends_in_block` — any number of appends, by induction; `Holds.appended` says that each of them
     does what the append of byte strings does that the other modules use.
-/
import Pixie.Http.Message
import Pixie.Lib.Cells

namespace Pixie.Sb

open Pixie.Decimal Pixie.Cells

/-! ## The code -/

/-- `kSIMPLE_BUFFER_SIZE`. -/
def kSimpleBufferSize : Nat := 100000

/-- A block from `malloc`. -/
abbrev Block := List (Option UInt8)

/-- `malloc`, which is taken to succeed; the bytes of the block are not determined. -/
def malloc (size : Nat) : Block := List.replicate size none

/-- `simple_buffer_t`, without its guards. -/
structure SimpleBuffer where
  buffer : Block
  used : Int32
  length : Int32
deriving DecidableEq

/-- `sb_create`. -/
def sbCreate : SimpleBuffer where
  buffer := malloc kSimpleBufferSize
  used := 0
  length := Int32.ofNat kSimpleBufferSize

/-- The sum of an `int` and a `size_t`. -/
def sizeSum (n : Int32) (length : Nat) : Nat := (sizeOfInt n + length) % 2 ^ 64

/-- What `sb_append` asks `malloc` for. -/
def grownSize (sb : SimpleBuffer) (length : Nat) : Nat :=
  let minSpaceNeeded := sizeSum sb.used length
  sizeSum sb.length
    (if minSpaceNeeded ≤ kSimpleBufferSize then kSimpleBufferSize else minSpaceNeeded)

/-- The first part of `sb_append`: a new block, if the recorded length is too small. -/
def extend (sb : SimpleBuffer) (length : Nat) : Option SimpleBuffer :=
  if sizeOfInt sb.length < sizeSum sb.used length then do
    let kept ← fetch sb.buffer (sizeOfInt sb.used)
    let b ← copyTo (malloc (grownSize sb length)) 0 kept
    some { sb with buffer := b }
  else some sb

/-- `sb_append`; its special case for one byte makes the same copy. -/
def sbAppend (sb : SimpleBuffer) (data : Bytes) : Option SimpleBuffer := do
  let sb ← extend sb data.length
  let buffer ← copyTo sb.buffer sb.used.toInt (data.map some)
  some { sb with buffer := buffer, used := Int32.ofNat (sizeSum sb.used data.length) }

/-! ## The invariant -/

/-- The buffer holds the bytes, in a block of at least the size that was recorded. -/
structure Holds (sb : SimpleBuffer) (bytes : Bytes) : Prop where
  used : sb.used.toInt = bytes.length
  length : sb.length = 100000
  room : kSimpleBufferSize ≤ sb.buffer.length
  fits : bytes.length ≤ sb.buffer.length
  content : sb.buffer.take bytes.length = bytes.map some

theorem holds_sbCreate : Holds sbCreate [] := by
  have hlength : sbCreate.buffer.length = kSimpleBufferSize := List.length_replicate
  exact ⟨rfl, rfl, hlength.ge, Nat.zero_le _, rfl⟩

variable {sb : SimpleBuffer} {bytes : Bytes}

theorem Holds.size_used (h : Holds sb bytes) : sizeOfInt sb.used = bytes.length := by
  have hnonneg : 0 ≤ sb.used.toInt := by
    rw [h.used]
    omega
  have hused := sizeOfInt_of_nonneg hnonneg
  rw [h.used] at hused
  omega

/-- Below 2^31 bytes nothing wraps. -/
theorem Holds.sum_eq (h : Holds sb bytes) {length : Nat} (hlt : bytes.length + length < 2 ^ 31) :
    sizeSum sb.used length = bytes.length + length := by
  rw [sizeSum, h.size_used]
  omega

/-- A block that is grown to has room for what was there and what is appended. -/
theorem Holds.grown (h : Holds sb bytes) {length : Nat} (hlt : bytes.length + length < 2 ^ 31) :
    kSimpleBufferSize ≤ grownSize sb length ∧ bytes.length + length ≤ grownSize sb length := by
  have hsize : sizeOfInt 100000 = 100000 := by decide
  unfold grownSize
  rw [h.sum_eq hlt, h.length]
  unfold sizeSum kSimpleBufferSize
  rw [hsize]
  dsimp only
  split
  · omega
  · omega

/-- **Room**: after the first part the block holds what it held, and has room for the append. -/
theorem Holds.extended (h : Holds sb bytes) {length : Nat} (hlt : bytes.length + length < 2 ^ 31) :
    ∃ sb', extend sb length = some sb' ∧ Holds sb' bytes ∧
      bytes.length + length ≤ sb'.buffer.length := by
  have hsize : sizeOfInt sb.length = kSimpleBufferSize := by
    rw [h.length]
    decide
  unfold extend
  rw [h.sum_eq hlt, hsize]
  by_cases hgrow : kSimpleBufferSize < bytes.length + length
  · obtain ⟨hroom, hfits⟩ := h.grown hlt
    have hblock : (malloc (grownSize sb length)).length = grownSize sb length :=
      List.length_replicate
    have hfetch : fetch sb.buffer bytes.length = some (bytes.map some) := by
      rw [fetch, if_pos h.fits, h.content]
    obtain ⟨b, hb, hlength, hcontent⟩ :=
      copyTo_append (malloc (grownSize sb length)) [] (bytes.map some) rfl (by
        rw [hblock, List.length_map, List.length_nil]
        omega)
    rw [List.length_nil, Nat.cast_zero] at hb
    rw [List.length_nil, Nat.zero_add, List.length_map, List.nil_append] at hcontent
    refine ⟨{ sb with buffer := b }, ?_, ⟨h.used, h.length, ?_, ?_, hcontent⟩, ?_⟩
    · rw [if_pos hgrow, h.size_used, hfetch]
      show (copyTo (malloc (grownSize sb length)) 0 (bytes.map some)).bind _ = _
      rw [hb]
      rfl
    · show kSimpleBufferSize ≤ b.length
      omega
    · show bytes.length ≤ b.length
      omega
    · show bytes.length + length ≤ b.length
      omega
  · have hroom := h.room
    rw [if_neg hgrow]
    exact ⟨sb, rfl, h, by omega⟩

/-- **One append** stays in the block, and does what the append of byte strings does. -/
theorem Holds.appended (h : Holds sb bytes) (data : Bytes)
    (hlt : bytes.length + data.length < 2 ^ 31) :
    ∃ sb', sbAppend sb data = some sb' ∧ Holds sb' (Http.sbAppend bytes data) := by
  obtain ⟨sb', hextend, h', hroom⟩ := h.extended hlt
  have hbytes : (bytes.map some).length = bytes.length := List.length_map some
  have hdata : (data.map some).length = data.length := List.length_map some
  obtain ⟨b, hb, hlength, hcontent⟩ :=
    copyTo_append sb'.buffer (bytes.map some) (data.map some) (by
      rw [hbytes]
      exact h'.content) (by omega)
  rw [hbytes] at hb
  rw [hbytes, hdata, ← List.map_append, ← List.length_append] at hcontent
  have hfits : (bytes ++ data).length ≤ b.length := by
    rw [List.length_append]
    omega
  refine ⟨{ sb' with
    buffer := b
    used := Int32.ofNat (sizeSum sb'.used data.length) }, ?_, ⟨?_, h'.length, ?_, hfits, hcontent⟩⟩
  · rw [sbAppend, hextend]
    show (copyTo sb'.buffer sb'.used.toInt (data.map some)).bind _ = _
    rw [h'.used, hb]
    rfl
  · show (Int32.ofNat (sizeSum sb'.used data.length)).toInt = ((bytes ++ data).length : Int)
    rw [h'.sum_eq hlt, Int32.toInt_ofNat_of_lt hlt, List.length_append]
  · show kSimpleBufferSize ≤ b.length
    have hold := h'.room
    omega

/-! ## Many appends -/

theorem Holds.appends (pieces : List Bytes) : ∀ {sb : SimpleBuffer} {bytes : Bytes}, Holds sb bytes →
    bytes.length + (pieces.map List.length).sum < 2 ^ 31 →
    ∃ sb', pieces.foldlM sbAppend sb = some sb' ∧ Holds sb' (bytes ++ pieces.flatten) := by
  induction pieces with
  | nil =>
    intro sb bytes h _
    refine ⟨sb, rfl, ?_⟩
    rw [List.flatten_nil, List.append_nil]
    exact h
  | cons data pieces ih =>
    intro sb bytes h hlt
    rw [List.map_cons, List.sum_cons] at hlt
    obtain ⟨sb', hsb', h'⟩ := h.appended data (by omega)
    obtain ⟨sb'', hsb'', h''⟩ := ih h' (by
      show (bytes ++ data).length + _ < _
      rw [List.length_append]
      omega)
    refine ⟨sb'', ?_, ?_⟩
    · rw [List.foldlM_cons, hsb']
      exact hsb''
    · rw [List.flatten_cons, ← List.append_assoc]
      exact h''

/-- **A safe growing string.**  Whatever is appended to a new buffer, below 2^31 bytes in all, every
    copy stays in its block; `used` is the number of bytes appended, and the first `used` bytes of the
    block are those bytes, in order.  The recorded length stays what it was. -/
theorem appends_in_block (pieces : List Bytes) (h : (pieces.map List.length).sum < 2 ^ 31) :
    ∃ sb, pieces.foldlM sbAppend sbCreate = some sb ∧
      sb.used.toInt = (pieces.map List.length).sum ∧
      sb.buffer.take (pieces.map List.length).sum = pieces.flatten.map some ∧
      sb.length = 100000 := by
  obtain ⟨sb, hsb, hholds⟩ := holds_sbCreate.appends pieces (by
    rw [List.length_nil]
    omega)
  rw [List.nil_append] at hholds
  rw [← List.length_flatten]
  exact ⟨sb, hsb, hholds.used, hholds.content, hholds.length⟩

/-- A piece that does not fit after one that does. -/
theorem appends_in_block_grown : ∃ sb,
    [ascii "Host", List.replicate kSimpleBufferSize 97].foldlM sbAppend sbCreate = some sb ∧
      sb.used.toInt = 100004 ∧
      sb.buffer.take 100004 = (ascii "Host" ++ List.replicate kSimpleBufferSize 97).map some ∧
      sb.length = 100000 := by
  have hsum : ([ascii "Host", List.replicate kSimpleBufferSize 97].map List.length).sum = 100004 := by
    rw [List.map_cons, List.map_cons, List.length_replicate]
    rfl
  have h := appends_in_block [ascii "Host", List.replicate kSimpleBufferSize 97] (by
    rw [hsum]
    decide)
  rw [hsum] at h
  simpa only [List.flatten_cons, List.flatten_nil, List.append_nil, Nat.cast_ofNat] using h

end Pixie.Sb
