/-
  The buffer of one tunnel direction (`cbuffer_t`, `twc.c`).

  A `cbuffer` is a block of `buffer_size` bytes with two pointers into it: bytes from the socket are
  stored at `read_ptr` (the producer), bytes to the other socket are taken at `write_ptr` (the
  consumer).  The pointers are offsets here, and a byte of the block is `none` until something has
  been stored there, so that a use of uninitialised memory shows.

  The text of the four functions is followed literally; what it amounts to is:
    * `cb_read_available` is the room from `read_ptr` to the end of the block.  It does not look at
      `write_ptr` at all;
    * `cb_write_available` is `read_ptr - write_ptr`, negative when the producer is behind;
    * both pointers go back to the start when they come to `buffer_size - 1`, one byte before the
      end, and an advance to the very end fails an assertion.

  `cb_init` takes a `size_t` and keeps it as an `int`: the block has the bytes that were asked for,
  and `buffer_size` is that number only below 2^31.  From there on it is some smaller number; if that
  is negative there is no room to read into at all.  (At `-2^31` the source's `buffer_size - 1`
  overflows; wrapped around, `cb_read_available` comes out as below.)
-/
import Pixie.Net.Calls

namespace Pixie.Twc

open Pixie.Decimal

/-- `CB_BUFFER_SIZE`. -/
def cbBufferSize : Nat := 1000

/-- The conversion of a `size_t` to an `int`. -/
def intOfSize (n : Nat) : Int := (n : Int).bmod (2 ^ 32)

/-- `cbuffer_t`; the pointers are offsets into the block. -/
structure Cbuffer where
  buffer : List (Option UInt8)
  bufferSize : Int
  readPtr : Nat
  writePtr : Nat
deriving DecidableEq, Repr

/-- `cb_init`. -/
def cbInit (bufferSize : Nat) : Cbuffer :=
  if bufferSize ≠ 0 then
    { buffer := List.replicate bufferSize none
      bufferSize := intOfSize bufferSize, readPtr := 0, writePtr := 0 }
  else
    { buffer := List.replicate cbBufferSize none
      bufferSize := cbBufferSize, readPtr := 0, writePtr := 0 }

/-- `cb_read_available`. -/
def cbReadAvailable (cb : Cbuffer) : Int := 1 + (cb.bufferSize - 1) - cb.readPtr

/-- `cb_write_available`. -/
def cbWriteAvailable (cb : Cbuffer) : Int := (cb.readPtr : Int) - cb.writePtr

/-- `cb_advance_read_ptr`; `none` is a failing assertion. -/
def cbAdvanceReadPtr (cb : Cbuffer) (n : Nat) : Option Cbuffer :=
  if ¬ (n : Int) ≤ cbReadAvailable cb then none
  else if (cb.readPtr : Int) + n > cb.bufferSize - 1 then none
  else if (cb.readPtr : Int) + n = cb.bufferSize - 1 then some { cb with readPtr := 0 }
  else some { cb with readPtr := cb.readPtr + n }

/-- `cb_advance_write`; `none` is a failing assertion. -/
def cbAdvanceWrite (cb : Cbuffer) (n : Nat) : Option Cbuffer :=
  if ¬ (n : Int) ≤ cbWriteAvailable cb then none
  else if (cb.writePtr : Int) + n > cb.bufferSize - 1 then none
  else if (cb.writePtr : Int) + n = cb.bufferSize - 1 then some { cb with writePtr := 0 }
  else some { cb with writePtr := cb.writePtr + n }

/-- What a `read` into `read_ptr` does to the block. -/
def Cbuffer.store (cb : Cbuffer) (bs : Bytes) : Cbuffer :=
  { cb with
    buffer := cb.buffer.take cb.readPtr ++ bs.map some ++ cb.buffer.drop (cb.readPtr + bs.length) }

/-- The `n` bytes that a `write` from `write_ptr` is given. -/
def Cbuffer.window (cb : Cbuffer) (n : Nat) : List (Option UInt8) :=
  (cb.buffer.drop cb.writePtr).take n

/-- `n` bytes leave the producer of a new buffer below the last index of its block. -/
def Below (size n : Nat) : Prop := n = 0 ∨ (n : Int) + 1 < intOfSize size

instance (size n : Nat) : Decidable (Below size n) := inferInstanceAs (Decidable (_ ∨ _))

/-! ## The small lemmas -/

/-- The conversion never enlarges a size. -/
theorem intOfSize_le (n : Nat) : intOfSize n ≤ n := by
  unfold intOfSize Int.bmod
  dsimp only
  split
  · omega
  · omega

theorem below_zero (size : Nat) : Below size 0 := Or.inl rfl

/-- Fewer bytes are below, too. -/
theorem Below.mono {size m n : Nat} (h : Below size n) (hle : m ≤ n) : Below size m := by
  unfold Below at h ⊢
  omega

/-- The producer of a block of two bytes or more, and the byte behind it, lie in the block. -/
theorem Below.lt {size n : Nat} (h : Below size n) (hsize : 2 ≤ size) : n + 1 < size := by
  have hle := intOfSize_le size
  unfold Below at h
  omega

theorem cbInit_bufferSize {size : Nat} (h : size ≠ 0) :
    (cbInit size).bufferSize = intOfSize size := by
  rw [cbInit, if_pos h]

theorem cbInit_length {size : Nat} (h : size ≠ 0) : (cbInit size).buffer.length = size := by
  rw [cbInit, if_pos h]
  exact List.length_replicate

@[simp] theorem cbInit_readPtr (size : Nat) : (cbInit size).readPtr = 0 := by
  unfold cbInit
  split
  · rfl
  · rfl

@[simp] theorem cbInit_writePtr (size : Nat) : (cbInit size).writePtr = 0 := by
  unfold cbInit
  split
  · rfl
  · rfl

@[simp] theorem store_bufferSize (cb : Cbuffer) (bs : Bytes) :
    (cb.store bs).bufferSize = cb.bufferSize := rfl
@[simp] theorem store_readPtr (cb : Cbuffer) (bs : Bytes) : (cb.store bs).readPtr = cb.readPtr := rfl
@[simp] theorem store_writePtr (cb : Cbuffer) (bs : Bytes) :
    (cb.store bs).writePtr = cb.writePtr := rfl

theorem cbReadAvailable_eq (cb : Cbuffer) : cbReadAvailable cb = cb.bufferSize - cb.readPtr := by
  unfold cbReadAvailable
  omega

/-- A store that fits leaves the block its size. -/
theorem length_store {cb : Cbuffer} {bs : Bytes}
    (h : cb.readPtr + bs.length ≤ cb.buffer.length) :
    (cb.store bs).buffer.length = cb.buffer.length := by
  simp only [Cbuffer.store, List.length_append, List.length_take, List.length_map,
    List.length_drop]
  omega

/-- The block up to the end of what was stored. -/
theorem take_store {cb : Cbuffer} {bs : Bytes} (h : cb.readPtr ≤ cb.buffer.length) :
    (cb.store bs).buffer.take (cb.readPtr + bs.length) =
      cb.buffer.take cb.readPtr ++ bs.map some := by
  have hlen : (cb.buffer.take cb.readPtr ++ bs.map some).length = cb.readPtr + bs.length := by
    simp only [List.length_append, List.length_take, List.length_map]
    omega
  show (cb.buffer.take cb.readPtr ++ bs.map some ++ _).take _ = _
  rw [← hlen, List.take_left']
  rfl

/-- **What an advance of the producer does**, below the last index, at it, and beyond it. -/
theorem cbAdvanceReadPtr_cases (cb : Cbuffer) (n : Nat) :
    ((cb.readPtr : Int) + n + 1 < cb.bufferSize ∧
      cbAdvanceReadPtr cb n = some { cb with readPtr := cb.readPtr + n }) ∨
    ((cb.readPtr : Int) + n + 1 = cb.bufferSize ∧
      cbAdvanceReadPtr cb n = some { cb with readPtr := 0 }) ∨
    (cb.bufferSize < (cb.readPtr : Int) + n + 1 ∧ cbAdvanceReadPtr cb n = none) := by
  unfold cbAdvanceReadPtr
  rw [cbReadAvailable_eq]
  rcases lt_trichotomy ((cb.readPtr : Int) + n + 1) cb.bufferSize with h | h | h
  · refine Or.inl ⟨h, ?_⟩
    rw [if_neg (by omega), if_neg (by omega), if_neg (by omega)]
  · refine Or.inr (Or.inl ⟨h, ?_⟩)
    rw [if_neg (by omega), if_neg (by omega), if_pos (by omega)]
  · refine Or.inr (Or.inr ⟨h, ?_⟩)
    split
    · rfl
    · rw [if_pos (by omega)]

/-- As long as the producer is in front of the consumer and below the last index, an advance of
    the consumer by at most what is available succeeds and does not wrap. -/
theorem cbAdvanceWrite_eq {cb : Cbuffer} {n : Nat} (hn : (n : Int) ≤ cbWriteAvailable cb)
    (hr : (cb.readPtr : Int) + 1 < cb.bufferSize) :
    cbAdvanceWrite cb n = some { cb with writePtr := cb.writePtr + n } := by
  have hle : (n : Int) ≤ (cb.readPtr : Int) - cb.writePtr := hn
  unfold cbAdvanceWrite
  rw [if_neg (not_not.mpr hn), if_neg (by omega), if_neg (by omega)]

end Pixie.Twc
