/-
  One call of `sm_execute`, case by case.

  `Twc.Machine` says what a call does to the counts of a direction.  The questions of status, of
  descriptor sets and of memory need the call itself: which of its two I/O calls is made, what it
  returns, where in the block it works, and which value `status` is left with.

  1. `Writes` and `Reads` — the call makes its `write`, its `read`.  `writeResult` and `readResult`
     are what they return; all four are read off the state BEFORE the call and the turn.

  2. `WriteStep` and `ReadStep` — the two halves of the call as relations, one constructor for each
     way they can go.  On a sound direction every call is such a pair (`smExecute_steps`): the
     write fails or takes bytes, the read fails, stores bytes, or fills the block to its last byte
     and ends the run.

  3. `WriteStep.sm` and `ReadStep.sm` — the machine after each half, in terms of what was taken and
     delivered.
-/
import Pixie.Twc.Fidelity

namespace Pixie.Twc

open Pixie.Decimal Pixie.Net

/-! ## The two I/O calls -/

/-- The call makes its `write`. -/
def Writes (sm : StateMachine) (sets : FdSets) : Prop :=
  sm.writeFd ∈ sets.writeFds ∧ 0 < cbWriteAvailable sm.cbuffer

/-- The call makes its `read`. -/
def Reads (sm : StateMachine) (sets : FdSets) : Prop :=
  sm.readFd ∈ sets.readFds ∧ 0 < cbReadAvailable sm.cbuffer

/-- What the `write` returns. -/
def writeResult (w : Wire) (sm : StateMachine) : Int :=
  w.writeRet sm.writeFd (cbWriteAvailable sm.cbuffer).toNat

/-- What the `read` gives: an error, or bytes (none at the end of file). -/
def readResult (w : Wire) (sm : StateMachine) : Option Bytes :=
  w.readBytes sm.readFd (cbReadAvailable sm.cbuffer).toNat

/-- The event that the `write` leaves in the trace. -/
def writeEvent (w : Wire) (sm : StateMachine) : Event :=
  .write sm.writeFd (sm.cbuffer.window (cbWriteAvailable sm.cbuffer).toNat) (writeResult w sm)

/-- The machine after `bs` has been stored and the producer has advanced, to the start of the block
    if it came to the last index. -/
def StateMachine.stored (sm : StateMachine) (bs : Bytes) : StateMachine :=
  { sm with cbuffer := { sm.cbuffer.store bs with
    readPtr := if (sm.cbuffer.readPtr : Int) + bs.length + 1 = sm.cbuffer.bufferSize then 0
      else sm.cbuffer.readPtr + bs.length } }

/-- "do write first", as a relation. -/
inductive WriteStep (w : Wire) (x : Exec) : Exec → Prop
  | idle : ¬ Writes x.sm x.sets → WriteStep w x x
  | failed : Writes x.sm x.sets → writeResult w x.sm ≤ 0 →
      WriteStep w x { x with status := smIoerr, trace := x.trace ++ [writeEvent w x.sm] }
  | took : Writes x.sm x.sets → 0 < writeResult w x.sm →
      WriteStep w x { x with
        sm := x.sm.sent (writeResult w x.sm).toNat, status := smOk
        trace := x.trace ++ [writeEvent w x.sm] }

/-- The read, as a relation; `error` is the failing assertion. -/
inductive ReadStep (w : Wire) (x : Exec) : Except (List Event) Exec → Prop
  | idle : ¬ Reads x.sm x.sets → ReadStep w x (.ok x)
  | failed {status : Int} : Reads x.sm x.sets → (readResult w x.sm).getD [] = [] → status ≠ 0 →
      ReadStep w x (.ok { x with
        status := status, trace := x.trace ++ [.read x.sm.readFd (readResult w x.sm)] })
  | stored {bs : Bytes} : Reads x.sm x.sets → readResult w x.sm = some bs → bs ≠ [] →
      (x.sm.cbuffer.readPtr : Int) + bs.length < x.sm.cbuffer.bufferSize →
      ReadStep w x (.ok { x with
        sm := x.sm.stored bs, status := smOk
        trace := x.trace ++ [.read x.sm.readFd (some bs)] })
  | full {bs : Bytes} : Reads x.sm x.sets → readResult w x.sm = some bs → bs ≠ [] →
      (x.sm.cbuffer.readPtr : Int) + bs.length = x.sm.cbuffer.bufferSize →
      ReadStep w x (.error (x.trace ++ [.read x.sm.readFd (some bs)]))

variable {size : Nat} {rfd wfd : Fd} {w : Wire}

/-! ## Every call is such a pair -/

/-- A `write` returns at most what it was offered. -/
theorem writeResult_le {sm : StateMachine} {sets : FdSets} (h : Writes sm sets) :
    writeResult w sm ≤ cbWriteAvailable sm.cbuffer := by
  have hle := writeTaken_le w sm sets
  have htaken : writeTaken w sm sets = (writeResult w sm).toNat := if_pos h.1
  have hpos := h.2
  omega

/-- A `read` delivers at most what there is room for. -/
theorem readResult_length_le {sm : StateMachine} {bs : Bytes} (h : readResult w sm = some bs) :
    bs.length ≤ (cbReadAvailable sm.cbuffer).toNat := by
  unfold readResult Wire.readBytes at h
  obtain ⟨got, -, rfl⟩ := Option.map_eq_some_iff.mp h
  exact List.length_take_le _ _

/-- What the `write` of a call takes. -/
theorem writeTaken_of_writes {sm : StateMachine} {sets : FdSets} (h : Writes sm sets) :
    writeTaken w sm sets = (writeResult w sm).toNat :=
  if_pos h.1

theorem writeTaken_of_not_writes {sm : StateMachine} {sets : FdSets} (h : ¬ Writes sm sets) :
    writeTaken w sm sets = 0 := by
  by_cases hready : sm.writeFd ∈ sets.writeFds
  · have hnone : ¬ 0 < cbWriteAvailable sm.cbuffer := fun hpos => h ⟨hready, hpos⟩
    have hle := writeTaken_le w sm sets
    omega
  · exact if_neg hready

/-- What the `read` of a call delivers. -/
theorem readTaken_of_reads {sm : StateMachine} {sets : FdSets} (h : Reads sm sets) :
    readTaken w sm sets = (readResult w sm).getD [] :=
  if_pos h.1

theorem readTaken_of_result {sm : StateMachine} {sets : FdSets} {bs : Bytes} (h : Reads sm sets)
    (hres : readResult w sm = some bs) : readTaken w sm sets = bs := by
  rw [readTaken_of_reads h, hres]
  rfl

theorem readTaken_of_not_reads {sm : StateMachine} {sets : FdSets} (h : ¬ Reads sm sets) :
    readTaken w sm sets = [] := by
  by_cases hready : sm.readFd ∈ sets.readFds
  · exact readTaken_of_no_room fun hroom => h ⟨hready, hroom⟩
  · exact if_neg hready

/-- No more is delivered than there is room for. -/
theorem readTaken_length_le {sm : StateMachine} {sets : FdSets} :
    (readTaken w sm sets).length ≤ (cbReadAvailable sm.cbuffer).toNat := by
  by_cases hreads : Reads sm sets
  · rw [readTaken_of_reads hreads]
    cases hres : readResult w sm with
    | none => exact Nat.zero_le _
    | some bs => exact readResult_length_le hres
  · rw [readTaken_of_not_reads hreads]
    exact Nat.zero_le _

/-- An advance that does not reach the end of the block. -/
theorem cbAdvanceReadPtr_stored {sm : StateMachine} {bs : Bytes}
    (h : (sm.cbuffer.readPtr : Int) + bs.length < sm.cbuffer.bufferSize) :
    cbAdvanceReadPtr (sm.cbuffer.store bs) bs.length = some (sm.stored bs).cbuffer := by
  unfold StateMachine.stored
  rcases cbAdvanceReadPtr_cases (sm.cbuffer.store bs) bs.length with
    ⟨hfit, hcb⟩ | ⟨hfull, hcb⟩ | ⟨hover, -⟩
  · simp only [store_readPtr, store_bufferSize] at hfit
    rw [hcb, if_neg (by omega)]
    rfl
  · simp only [store_readPtr, store_bufferSize] at hfull
    rw [hcb, if_pos hfull]
  · simp only [store_readPtr, store_bufferSize] at hover
    omega

theorem writePhase_step {x : Exec} (h : Sound size rfd wfd x.sm x.trace) :
    ∃ y, writePhase w x = .ok y ∧ WriteStep w x y := by
  unfold writePhase
  by_cases hready : x.sm.writeFd ∈ x.sets.writeFds
  · rw [if_pos hready]
    by_cases havail : cbWriteAvailable x.sm.cbuffer > 0
    · have hwrites : Writes x.sm x.sets := ⟨hready, havail⟩
      have hle := writeResult_le (w := w) hwrites
      rw [if_pos havail]
      set ret := w.writeRet x.sm.writeFd (cbWriteAvailable x.sm.cbuffer).toNat with hret
      have hresult : writeResult w x.sm = ret := rfl
      dsimp only
      by_cases hpos : ret > 0
      · have hadv := @cbAdvanceWrite_eq x.sm.cbuffer ret.toNat (by omega) (h.readPtr_lt havail)
        rw [if_neg (by omega), if_pos hpos, hadv]
        exact ⟨_, rfl, .took hwrites hpos⟩
      · rw [if_neg hpos]
        exact ⟨_, ite_self _, .failed hwrites (by omega)⟩
    · rw [if_neg havail]
      exact ⟨x, rfl, .idle fun hw => havail hw.2⟩
  · rw [if_neg hready]
    exact ⟨x, rfl, .idle fun hw => hready hw.1⟩

theorem readPhase_step {x : Exec} (h : Sound size rfd wfd x.sm x.trace) :
    ReadStep w x (readPhase w x) := by
  by_cases hroom : 0 < cbReadAvailable x.sm.cbuffer
  case neg =>
    rw [readPhase_of_no_room hroom]
    exact .idle fun hreads => hroom hreads.2
  by_cases hready : x.sm.readFd ∈ x.sets.readFds
  · have hreads : Reads x.sm x.sets := ⟨hready, hroom⟩
    unfold readPhase
    rw [if_pos ⟨hready, h.notSuspended (h.cbReadAvailable_pos_iff.mp hroom)⟩, if_pos hroom]
    dsimp only
    cases hres : w.readBytes x.sm.readFd (cbReadAvailable x.sm.cbuffer).toNat with
    | none =>
      have hresult : readResult w x.sm = none := hres
      have hstep := @ReadStep.failed w x smIoerr hreads (by rw [hresult]; rfl) (by decide)
      rw [hresult] at hstep
      exact hstep
    | some bs =>
      have hresult : readResult w x.sm = some bs := hres
      dsimp only
      by_cases hnil : bs = []
      · subst hnil
        have hstep := @ReadStep.failed w x smEof hreads (by rw [hresult]; rfl) (by decide)
        rw [if_pos rfl]
        rw [hresult] at hstep
        exact hstep
      · rw [if_neg hnil]
        have hlen := readResult_length_le hresult
        rw [cbReadAvailable_eq] at hlen hroom
        by_cases hfit : (x.sm.cbuffer.readPtr : Int) + bs.length < x.sm.cbuffer.bufferSize
        · rw [cbAdvanceReadPtr_stored hfit]
          exact .stored hreads hresult hnil hfit
        · have hfull : (x.sm.cbuffer.readPtr : Int) + bs.length = x.sm.cbuffer.bufferSize := by
            omega
          rcases cbAdvanceReadPtr_cases (x.sm.cbuffer.store bs) bs.length with
            ⟨hlow, -⟩ | ⟨hlow, -⟩ | ⟨-, hcb⟩
          · simp only [store_readPtr, store_bufferSize] at hlow
            omega
          · simp only [store_readPtr, store_bufferSize] at hlow
            omega
          · rw [hcb]
            exact .full hreads hresult hnil hfull
  · rw [show readPhase w x = .ok x from if_neg fun hc => hready hc.1]
    exact .idle fun hreads => hready hreads.1

/-! ## After the call -/

theorem WriteStep.sound {x y : Exec} (hstep : WriteStep w x y)
    (h : Sound size rfd wfd x.sm x.trace) : Sound size rfd wfd y.sm y.trace := by
  obtain rfl : x.sm.writeFd = wfd := h.writeFd
  cases hstep with
  | idle _ => exact h
  | failed hwrites hle =>
    have hsent := h.sent (writeResult_le (w := w) hwrites)
    rw [show (writeResult w x.sm).toNat = 0 by omega, StateMachine.sent_zero] at hsent
    exact hsent
  | took hwrites _ => exact h.sent (writeResult_le hwrites)

theorem WriteStep.sets {x y : Exec} (hstep : WriteStep w x y) : y.sets = x.sets := by
  cases hstep with
  | idle _ => rfl
  | failed _ _ => rfl
  | took _ _ => rfl

/-- The write moves the consumer by what it took. -/
theorem WriteStep.sm {x y : Exec} (hstep : WriteStep w x y) :
    y.sm = x.sm.sent (writeTaken w x.sm x.sets) := by
  cases hstep with
  | idle hnot =>
    rw [writeTaken_of_not_writes hnot]
    rfl
  | failed hwrites hle =>
    rw [writeTaken_of_writes hwrites, show (writeResult w x.sm).toNat = 0 by omega]
    rfl
  | took hwrites _ =>
    rw [writeTaken_of_writes hwrites]

theorem ReadStep.sound {x z : Exec} (hstep : ReadStep w x (.ok z))
    (h : Sound size rfd wfd x.sm x.trace) : Sound size rfd wfd z.sm z.trace := by
  obtain rfl : x.sm.readFd = rfd := h.readFd
  cases hstep with
  | idle _ => exact h
  | failed _ hnil _ => exact h.received_nothing hnil
  | stored _ _ hne hfit => exact h.received hne (cbAdvanceReadPtr_stored hfit)

theorem ReadStep.sets {x z : Exec} (hstep : ReadStep w x (.ok z)) : z.sets = x.sets := by
  cases hstep with
  | idle _ => rfl
  | failed _ _ _ => rfl
  | stored _ _ _ _ => rfl

/-- Storing nothing changes nothing. -/
theorem Sound.stored_nil {sm : StateMachine} {tr : List Event} (h : Sound size rfd wfd sm tr) :
    sm.stored [] = sm := by
  have hsize := h.bufferSize
  have hbelow := h.readPtr_below
  unfold Below at hbelow
  -- at the last index only a producer that is at the start
  have hptr : (if (sm.cbuffer.readPtr : Int) + (0 : Nat) + 1 = sm.cbuffer.bufferSize then 0
      else sm.cbuffer.readPtr + 0) = sm.cbuffer.readPtr := by
    split
    · omega
    · rfl
  have hbuf : (sm.cbuffer.store []).buffer = sm.cbuffer.buffer := by
    simp [Cbuffer.store]
  unfold StateMachine.stored
  rw [List.length_nil, hptr]
  show { sm with cbuffer := ⟨(sm.cbuffer.store []).buffer, _, _, _⟩ } = sm
  rw [hbuf]
  rfl

/-- The read stores what it delivered. -/
theorem ReadStep.sm {x z : Exec} (hstep : ReadStep w x (.ok z))
    (h : Sound size rfd wfd x.sm x.trace) : z.sm = x.sm.stored (readTaken w x.sm x.sets) := by
  cases hstep with
  | idle hnot =>
    rw [readTaken_of_not_reads hnot]
    exact h.stored_nil.symm
  | failed hreads hnil _ =>
    rw [readTaken_of_reads hreads, hnil]
    exact h.stored_nil.symm
  | stored hreads hres _ _ => rw [readTaken_of_result hreads hres]

/-- **A call of `sm_execute` is a write step and a read step**, and the sets are rebuilt when the
    status they leave is zero. -/
theorem smExecute_steps (w : Wire) {x : Exec} (h : Sound size rfd wfd x.sm x.trace) :
    ∃ y, WriteStep w x y ∧
      ((∃ tr, ReadStep w y (.error tr) ∧ smExecute w x = .error tr) ∨
       ∃ z, ReadStep w y (.ok z) ∧
        smExecute w x = .ok (if z.status ≠ 0 then z else rebuildSets z)) := by
  obtain ⟨y, hwrite, hstep⟩ := writePhase_step (w := w) h
  refine ⟨y, hstep, ?_⟩
  have hread := readPhase_step (w := w) (hstep.sound h)
  cases hres : readPhase w y with
  | error tr =>
    rw [hres] at hread
    exact Or.inl ⟨tr, hread, smExecute_of_error hwrite hres⟩
  | ok z =>
    rw [hres] at hread
    exact Or.inr ⟨z, hread, smExecute_of_read hwrite hres⟩

/-- Rebuilding the sets adds nothing to the trace of the two halves. -/
theorem traceOf_rebuilt (z : Exec) :
    traceOf (.ok (if z.status ≠ 0 then z else rebuildSets z)) = z.trace := by
  show (if z.status ≠ 0 then z else rebuildSets z).trace = z.trace
  rw [apply_ite Exec.trace, rebuildSets_trace, ite_self]

theorem rebuildSets_cbuffer (z : Exec) : (rebuildSets z).sm.cbuffer = z.sm.cbuffer := by
  unfold rebuildSets
  dsimp only
  split
  · rfl
  · rfl

end Pixie.Twc
