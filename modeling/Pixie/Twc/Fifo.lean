/-
  Is a `cbuffer` a bounded FIFO?

  A PRODUCE stores some bytes at `read_ptr` and advances it, a CONSUME takes some at `write_ptr` and
  advances that; both are allowed as long as they stay within what `cb_read_available` and
  `cb_write_available` say.  The abstract model is the `Fifo` of the library, and `Refines` runs the
  two side by side: no assertion fails, what comes out is what the `Fifo` puts out, and
  `cb_write_available` is positive exactly as far as there is something to take.

  1. **Below the last index** (`Tame`) the buffer is a plain segment: all that was ever produced lies
     at its start, `write_ptr` counts what was consumed, and the operations are those of the `Fifo`
     (`Tame.produce`, `Tame.consume`).

  2. **At the last index** the producer is sent back to the start with its last byte not yet consumed,
     and `cb_write_available` is not positive; an advance to the very end, which
     `cb_read_available` allows, fails its assertion.

  3. So a run refines the `Fifo` exactly if the producer never gets there: if all the bytes it produces
     stay below the last index (`refines_fifo_iff`).  The consumer never comes back to the start.
-/
import Pixie.Twc.Buffer
import Pixie.Lib.Fifo

namespace Pixie.Twc

open Pixie.Decimal Pixie.Queueing

/-! ## The two operations, and the two models -/

inductive BufOp
  | produce (bs : Bytes)
  | consume (n : Nat)
deriving DecidableEq, Repr

/-- What the operations require. -/
def BufOp.Guard (cb : Cbuffer) : BufOp → Prop
  | produce bs => 1 ≤ bs.length ∧ (bs.length : Int) ≤ cbReadAvailable cb
  | consume n => 1 ≤ n ∧ (n : Int) ≤ cbWriteAvailable cb

instance (cb : Cbuffer) : DecidablePred (BufOp.Guard cb)
  | .produce _ => inferInstanceAs (Decidable (_ ∧ _))
  | .consume _ => inferInstanceAs (Decidable (_ ∧ _))

/-- The buffer afterwards; `none` is a failing assertion. -/
def BufOp.next (cb : Cbuffer) : BufOp → Option Cbuffer
  | produce bs => cbAdvanceReadPtr (cb.store bs) bs.length
  | consume n => cbAdvanceWrite cb n

/-- The bytes that come out. -/
def BufOp.out (cb : Cbuffer) : BufOp → List (Option UInt8)
  | produce _ => []
  | consume n => cb.window n

/-- The operation of the abstract queue. -/
def BufOp.abs (q : Fifo UInt8) : BufOp → Fifo UInt8
  | produce bs => q.push bs
  | consume n => q.pop n

/-- Each operation is allowed when its turn comes. -/
def Allowed : Cbuffer → List BufOp → Prop
  | _, [] => True
  | cb, op :: ops => op.Guard cb ∧ ∀ cb' ∈ op.next cb, Allowed cb' ops

instance decidableAllowed : (ops : List BufOp) → (cb : Cbuffer) → Decidable (Allowed cb ops)
  | [], _ => inferInstanceAs (Decidable True)
  | op :: ops, cb =>
    haveI : DecidablePred fun cb' => Allowed cb' ops := decidableAllowed ops
    inferInstanceAs (Decidable (op.Guard cb ∧ ∀ cb' ∈ op.next cb, Allowed cb' ops))

/-- At each moment, the bytes that have been taken are those that the queue has put out, and
    `cb_write_available` offers no byte that is not in the queue, and some if there are any. -/
structure Serves (cb : Cbuffer) (taken : List (Option UInt8)) (q : Fifo UInt8) : Prop where
  nonneg : 0 ≤ cbWriteAvailable cb
  le : cbWriteAvailable cb ≤ q.queue.length
  pos : 0 < q.queue.length → 0 < cbWriteAvailable cb
  in_order : taken = q.popped.map some

/-- The bytes that have been taken are bytes that were produced, in order and from the first on. -/
theorem Serves.taken_prefix {cb : Cbuffer} {taken : List (Option UInt8)} {q : Fifo UInt8}
    (h : Serves cb taken q) : taken <+: q.pushed.map some := by
  rw [h.in_order]
  exact q.popped_prefix.map some

/-- The buffer and the queue, side by side. -/
def Refines : Cbuffer → List (Option UInt8) → Fifo UInt8 → List BufOp → Prop
  | cb, taken, q, [] => Serves cb taken q
  | cb, taken, q, op :: ops => Serves cb taken q ∧
      ∃ cb', op.next cb = some cb' ∧ Refines cb' (taken ++ op.out cb) (op.abs q) ops

/-- The bytes that are produced in all. -/
def produced : List BufOp → Nat
  | [] => 0
  | .produce bs :: ops => bs.length + produced ops
  | .consume _ :: ops => produced ops

theorem Refines.serves {cb : Cbuffer} {taken : List (Option UInt8)} {q : Fifo UInt8}
    {ops : List BufOp} (h : Refines cb taken q ops) : Serves cb taken q := by
  cases ops with
  | nil => exact h
  | cons op ops => exact h.1

/-- A step that succeeds from a good moment leaves the rest of the run. -/
theorem refines_cons_iff {cb cb' : Cbuffer} {taken : List (Option UInt8)} {q : Fifo UInt8}
    {op : BufOp} {ops : List BufOp} (hs : Serves cb taken q) (hnext : op.next cb = some cb') :
    Refines cb taken q (op :: ops) ↔ Refines cb' (taken ++ op.out cb) (op.abs q) ops := by
  constructor
  · rintro ⟨-, cb'', hnext', hrun⟩
    obtain rfl := Option.some.inj (hnext.symm.trans hnext')
    exact hrun
  · intro hrun
    exact ⟨hs, cb', hnext, hrun⟩

/-! ## Below the last index -/

/-- The producer has not come to the last index: the block starts with all that was produced. -/
structure Tame (size : Nat) (cb : Cbuffer) (taken : List (Option UInt8)) (q : Fifo UInt8) :
    Prop where
  bufferSize : cb.bufferSize = intOfSize size
  block : cb.buffer.length = size
  fits : Below size q.pushed.length
  readPtr : cb.readPtr = q.pushed.length
  writePtr : cb.writePtr = q.popped.length
  stored : cb.buffer.take cb.readPtr = q.pushed.map some
  in_order : taken = q.popped.map some

variable {size : Nat} {cb : Cbuffer} {taken : List (Option UInt8)} {q : Fifo UInt8}

/-- All that is in the queue is offered. -/
theorem Tame.available (h : Tame size cb taken q) : cbWriteAvailable cb = q.queue.length := by
  have hlen := q.length_pushed
  have hr := h.readPtr
  have hw := h.writePtr
  unfold cbWriteAvailable
  omega

theorem Tame.serves (h : Tame size cb taken q) : Serves cb taken q := by
  have havail := h.available
  exact ⟨by omega, by omega, by omega, h.in_order⟩

/-- **A produce that stays below the last index is a push.** -/
theorem Tame.produce (h : Tame size cb taken q) {bs : Bytes} (hne : 1 ≤ bs.length)
    (hfit : Below size (q.pushed.length + bs.length)) :
    ∃ cb', (BufOp.produce bs).next cb = some cb' ∧ Tame size cb' taken (q.push bs) := by
  have hr := h.readPtr
  have hsize := h.bufferSize
  have hle := intOfSize_le size
  have hblock := h.block
  have hlt : ((q.pushed.length + bs.length : Nat) : Int) + 1 < intOfSize size :=
    hfit.resolve_left (by omega)
  have hpush : (q.push bs).pushed.length = q.pushed.length + bs.length := List.length_append
  rcases cbAdvanceReadPtr_cases (cb.store bs) bs.length with ⟨-, hnext⟩ | ⟨hat, -⟩ | ⟨hover, -⟩
  · refine ⟨_, hnext, hsize, ?_, ?_, ?_, h.writePtr, ?_, h.in_order⟩
    · exact (length_store (by omega)).trans hblock
    · rw [hpush]
      exact hfit
    · show cb.readPtr + bs.length = _
      omega
    · show (cb.store bs).buffer.take (cb.readPtr + bs.length) = (q.pushed ++ bs).map some
      rw [take_store (by omega), h.stored, List.map_append]
  · rw [store_readPtr, store_bufferSize] at hat
    omega
  · rw [store_readPtr, store_bufferSize] at hover
    omega

/-- **A consume is a pop**, and puts out what is popped. -/
theorem Tame.consume (h : Tame size cb taken q) {n : Nat} (hpos : 1 ≤ n)
    (hn : (n : Int) ≤ cbWriteAvailable cb) :
    ∃ cb', (BufOp.consume n).next cb = some cb' ∧ Tame size cb' (taken ++ cb.window n) (q.pop n) := by
  have hr := h.readPtr
  have hw := h.writePtr
  have havail := h.available
  have hfits := h.fits
  have hsize := h.bufferSize
  have hlen := q.length_pushed
  have hlt : (q.pushed.length : Int) + 1 < intOfSize size := hfits.resolve_left (by omega)
  have hwindow : cb.window n = (q.queue.take n).map some := by
    calc cb.window n
        = ((cb.buffer.take cb.readPtr).drop cb.writePtr).take n := by
          rw [Cbuffer.window, List.drop_take, List.take_take, Nat.min_eq_left (by omega)]
      _ = (q.queue.take n).map some := by
          rw [h.stored, hw, ← List.map_drop, ← q.queue_eq_drop, ← List.map_take]
  refine ⟨_, cbAdvanceWrite_eq hn (by omega), hsize, h.block, hfits, hr, ?_, h.stored, ?_⟩
  · show cb.writePtr + n = (q.popped ++ q.queue.take n).length
    rw [List.length_append, List.length_take]
    omega
  · show taken ++ cb.window n = (q.popped ++ q.queue.take n).map some
    rw [hwindow, h.in_order, List.map_append]

/-! ## At the last index -/

/-- A produce that comes to the last index sends the producer back to the start, with its bytes in the
    queue and none of them on offer. -/
theorem Tame.not_serves (h : Tame size cb taken q) {bs : Bytes} {cb' : Cbuffer}
    (hne : 1 ≤ bs.length) (hfull : ¬ Below size (q.pushed.length + bs.length))
    (hnext : (BufOp.produce bs).next cb = some cb') : ¬ Serves cb' taken (q.push bs) := by
  have hr := h.readPtr
  have hsize := h.bufferSize
  unfold Below at hfull
  rcases cbAdvanceReadPtr_cases (cb.store bs) bs.length with ⟨hbelow, -⟩ | ⟨-, hat⟩ | ⟨-, hover⟩
  · rw [store_readPtr, store_bufferSize] at hbelow
    omega
  · obtain rfl := Option.some.inj (hnext.symm.trans hat)
    intro hs
    have hqueue : 0 < (q.queue ++ bs).length := by
      rw [List.length_append]
      omega
    have hpos := hs.pos hqueue
    change 0 < ((0 : Nat) : Int) - cb.writePtr at hpos
    omega
  · cases hnext.symm.trans hover

/-! ## Whole runs -/

/-- A run from a state below the last index, by induction on its operations. -/
theorem Tame.refines_iff (h : Tame size cb taken q) {ops : List BufOp} (hall : Allowed cb ops) :
    Refines cb taken q ops ↔ Below size (q.pushed.length + produced ops) := by
  induction ops generalizing cb taken q with
  | nil => exact iff_of_true h.serves h.fits
  | cons op ops ih =>
    obtain ⟨hguard, hlater⟩ := hall
    cases op with
    | produce bs =>
      by_cases hfit : Below size (q.pushed.length + bs.length)
      · obtain ⟨cb', hnext, hcb'⟩ := h.produce hguard.1 hfit
        have hpush : (q.push bs).pushed.length = q.pushed.length + bs.length := List.length_append
        have hout : taken ++ (BufOp.produce bs).out cb = taken := List.append_nil taken
        rw [refines_cons_iff h.serves hnext, hout]
        exact (ih hcb' (hlater cb' hnext)).trans (by rw [hpush, produced, Nat.add_assoc _ bs.length])
      · -- the producer comes to the last index
        refine iff_of_false ?_ ?_
        · rintro ⟨-, cb', hnext, hrun⟩
          have hout : taken ++ (BufOp.produce bs).out cb = taken := List.append_nil taken
          rw [hout] at hrun
          exact h.not_serves hguard.1 hfit hnext hrun.serves
        · rw [produced]
          exact fun hbelow => hfit (hbelow.mono (by omega))
    | consume n =>
      obtain ⟨cb', hnext, hcb'⟩ := h.consume hguard.1 hguard.2
      rw [refines_cons_iff h.serves hnext, produced]
      exact ih hcb' (hlater cb' hnext)

theorem tame_init (hsize : 2 ≤ size) : Tame size (cbInit size) [] Fifo.empty := by
  have hne : size ≠ 0 := by omega
  refine ⟨cbInit_bufferSize hne, cbInit_length hne, below_zero size, cbInit_readPtr size,
    cbInit_writePtr size, ?_, rfl⟩
  rw [cbInit_readPtr]
  exact List.take_zero

/-- **When a buffer is a FIFO**: of all runs whose operations stay within what is available, exactly
    those that produce nothing, or at most `buffer_size - 2` bytes in all. -/
theorem refines_fifo_iff (size : Nat) (hsize : 2 ≤ size) (ops : List BufOp)
    (hall : Allowed (cbInit size) ops) :
    Refines (cbInit size) [] Fifo.empty ops ↔
      produced ops = 0 ∨ (produced ops : Int) + 2 ≤ intOfSize size := by
  have hrun := (tame_init hsize).refines_iff hall
  rw [show (Fifo.empty : Fifo UInt8).pushed.length = 0 from rfl, Nat.zero_add, Below] at hrun
  exact hrun.trans (by omega)

/-- Two bytes in, one out, one in, two out. -/
def threeBytes : List BufOp := [.produce [97, 98], .consume 1, .produce [99], .consume 2]

theorem refines_fifo_iff_three_bytes :
    Refines (cbInit 5) [] Fifo.empty threeBytes ↔
      produced threeBytes = 0 ∨ (produced threeBytes : Int) + 2 ≤ intOfSize 5 :=
  refines_fifo_iff 5 (by decide) threeBytes (by decide)

/-- A produce of all that `cb_read_available` offers fails its assertion. -/
theorem not_refines_exact_fill : ¬ ∀ (size : Nat) (ops : List BufOp), 2 ≤ size →
    Allowed (cbInit size) ops → Refines (cbInit size) [] Fifo.empty ops := by
  intro h
  obtain ⟨-, cb', hnext, -⟩ := h 4 [.produce [97, 98, 99, 100]] (by decide) (by decide)
  cases hnext

end Pixie.Twc
