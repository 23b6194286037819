/-
  Failures of a tunnel's I/O, and what `twc_run` makes of them.

  A call of `sm_execute` makes up to one `write` and one `read`, which share one `status`: the read
  that succeeds after a write that failed puts `SM_OK` back.  A turn makes two such calls before it
  looks at the two statuses, and an assertion that fails in either ends the process instead.

  1. `Fails`, `Tells`, `Fills` — what a call meets, read off the state before it and the turn: one of
     its two I/O calls fails; it fails and no later success hides it; the read fills the block to its
     last byte, which is the failing assertion.

  2. `smExecute_failures` — one call: it ends in the assertion exactly if it fills, it leaves a
     failure in the trace exactly if one of its I/O calls fails, and a status other than `SM_OK`
     exactly if it tells.

  3. `reported_iff_told` — one iteration of any run: a failure in it makes `twc_run` return with a
     status other than `SM_OK` if and only if a call that is made tells, and none fills.
-/
import Pixie.Twc.Interest

namespace Pixie.Twc

open Pixie.Decimal Pixie.Net

/-- The I/O call failed: a `write` that took nothing, a `read` that gave an error or the end of file. -/
def Event.Failed : Event → Prop
  | .write _ _ ret => ret ≤ 0
  | .read _ result => result.getD [] = []

/-- The `write` of the call fails. -/
def WriteFails (w : Wire) (sm : StateMachine) (sets : FdSets) : Prop :=
  Writes sm sets ∧ writeResult w sm ≤ 0

/-- The `read` of the call fails. -/
def ReadFails (w : Wire) (sm : StateMachine) (sets : FdSets) : Prop :=
  Reads sm sets ∧ (readResult w sm).getD [] = []

/-- One of the two fails. -/
def Fails (w : Wire) (sm : StateMachine) (sets : FdSets) : Prop :=
  WriteFails w sm sets ∨ ReadFails w sm sets

/-- One of the two fails, and the read does not deliver bytes after it. -/
def Tells (w : Wire) (sm : StateMachine) (sets : FdSets) : Prop :=
  ReadFails w sm sets ∨ (WriteFails w sm sets ∧ readTaken w sm sets = [])

/-- The read fills the block to its last byte. -/
def Fills (w : Wire) (sm : StateMachine) (sets : FdSets) : Prop :=
  readTaken w sm sets ≠ [] ∧
    (sm.cbuffer.readPtr : Int) + (readTaken w sm sets).length = sm.cbuffer.bufferSize

variable {size : Nat} {rfd wfd A B : Fd} {w : Wire}

/-! ## One call -/

/-- The write does not touch what the read depends on. -/
theorem WriteStep.reading {x y : Exec} (hstep : WriteStep w x y) :
    (Reads y.sm y.sets ↔ Reads x.sm x.sets) ∧ readResult w y.sm = readResult w x.sm ∧
      readTaken w y.sm y.sets = readTaken w x.sm x.sets ∧
      y.sm.cbuffer.readPtr = x.sm.cbuffer.readPtr ∧
      y.sm.cbuffer.bufferSize = x.sm.cbuffer.bufferSize := by
  rw [hstep.sets, hstep.sm]
  exact ⟨Iff.rfl, rfl, rfl, rfl, rfl⟩

/-- The write step: what it adds to the trace, and the status it leaves. -/
theorem WriteStep.failures {x y : Exec} (hstep : WriteStep w x y) (hok : x.status = smOk) :
    ∃ es, y.trace = x.trace ++ es ∧ ((∃ e ∈ es, e.Failed) ↔ WriteFails w x.sm x.sets) ∧
      (y.status ≠ smOk ↔ WriteFails w x.sm x.sets) := by
  cases hstep with
  | idle hnot =>
    have hnone : ¬ WriteFails w x.sm x.sets := fun hfail => hnot hfail.1
    exact ⟨[], (List.append_nil _).symm, by simp [hnone], by simp [hnone, hok]⟩
  | failed hwrites hle =>
    have hfail : WriteFails w x.sm x.sets := ⟨hwrites, hle⟩
    have hevent : (writeEvent w x.sm).Failed := hle
    have hstatus : smIoerr ≠ smOk := by decide
    exact ⟨[writeEvent w x.sm], rfl, by simp [hfail, hevent], by simp [hfail, hstatus]⟩
  | took hwrites hpos =>
    have hnone : ¬ WriteFails w x.sm x.sets := by
      intro hfail
      have hle := hfail.2
      omega
    have hevent : ¬ (writeEvent w x.sm).Failed := by
      intro hfail
      have hle : writeResult w x.sm ≤ 0 := hfail
      omega
    exact ⟨[writeEvent w x.sm], rfl, by simp [hnone, hevent], by simp [hnone]⟩

/-- A `read` that delivers bytes has not failed. -/
theorem not_readFails {sm : StateMachine} {sets : FdSets} {bs : Bytes}
    (hres : readResult w sm = some bs) (hne : bs ≠ []) : ¬ ReadFails w sm sets := by
  intro hfail
  have hgot := hfail.2
  rw [hres] at hgot
  exact hne hgot

/-- The read step: what it adds to the trace. -/
theorem ReadStep.events {x : Exec} {r : Except (List Event) Exec} (hstep : ReadStep w x r) :
    ∃ es, traceOf r = x.trace ++ es ∧ ((∃ e ∈ es, e.Failed) ↔ ReadFails w x.sm x.sets) := by
  cases hstep with
  | idle hnot =>
    have hnone : ¬ ReadFails w x.sm x.sets := fun hfail => hnot hfail.1
    exact ⟨[], (List.append_nil _).symm, by simp [hnone]⟩
  | failed hreads hgot hstatus =>
    have hfail : ReadFails w x.sm x.sets := ⟨hreads, hgot⟩
    have hevent : (Event.read x.sm.readFd (readResult w x.sm)).Failed := hgot
    exact ⟨[_], rfl, by simp [hfail, hevent]⟩
  | @stored bs hreads hres hne hfit =>
    have hevent : ¬ (Event.read x.sm.readFd (some bs)).Failed := hne
    exact ⟨[_], rfl, by simp [not_readFails hres hne, hevent]⟩
  | @full bs hreads hres hne hfull =>
    have hevent : ¬ (Event.read x.sm.readFd (some bs)).Failed := hne
    exact ⟨[_], rfl, by simp [not_readFails hres hne, hevent]⟩

/-- Whether it comes to its end. -/
theorem ReadStep.fills_iff {x : Exec} {r : Except (List Event) Exec} (hstep : ReadStep w x r) :
    (∃ tr, r = .error tr) ↔ Fills w x.sm x.sets := by
  cases hstep with
  | idle hnot => exact iff_of_false nofun fun hfills => hfills.1 (readTaken_of_not_reads hnot)
  | failed hreads hgot hstatus =>
    exact iff_of_false nofun fun hfills => hfills.1 ((readTaken_of_reads hreads).trans hgot)
  | stored hreads hres hne hfit =>
    refine iff_of_false nofun ?_
    rw [Fills, readTaken_of_result hreads hres]
    omega
  | full hreads hres hne hfull =>
    refine iff_of_true ⟨_, rfl⟩ ?_
    rw [Fills, readTaken_of_result hreads hres]
    exact ⟨hne, hfull⟩

/-- The status it leaves. -/
theorem ReadStep.status_iff {x z : Exec} (hstep : ReadStep w x (.ok z)) :
    z.status ≠ smOk ↔ ReadFails w x.sm x.sets ∨
      (x.status ≠ smOk ∧ readTaken w x.sm x.sets = []) := by
  cases hstep with
  | idle hnot =>
    have hnone : ¬ ReadFails w x.sm x.sets := fun hfail => hnot hfail.1
    have hnil := readTaken_of_not_reads (w := w) hnot
    simp [hnone, hnil]
  | failed hreads hgot hstatus => exact iff_of_true hstatus (Or.inl ⟨hreads, hgot⟩)
  | stored hreads hres hne hfit =>
    have htaken := readTaken_of_result hreads hres
    simp [not_readFails hres hne, htaken, hne]

/-- **The failures of a call.** -/
theorem smExecute_failures {x : Exec} (h : Sound size rfd wfd x.sm x.trace)
    (hok : x.status = smOk) :
    (∃ es, traceOf (smExecute w x) = x.trace ++ es ∧
      ((∃ e ∈ es, e.Failed) ↔ Fails w x.sm x.sets)) ∧
      ((∃ tr, smExecute w x = .error tr) ↔ Fills w x.sm x.sets) ∧
      ∀ u, smExecute w x = .ok u → (u.status ≠ smOk ↔ Tells w x.sm x.sets) := by
  obtain ⟨y, hwrite, hcalls⟩ := smExecute_steps w h
  obtain ⟨hreads, hresult, htaken, hptr, hsize⟩ := hwrite.reading
  obtain ⟨ws, hws, hwfail, hwstatus⟩ := hwrite.failures hok
  have hrf : ReadFails w y.sm y.sets ↔ ReadFails w x.sm x.sets := by
    unfold ReadFails
    rw [hreads, hresult]
  have hfl : Fills w y.sm y.sets ↔ Fills w x.sm x.sets := by
    unfold Fills
    rw [htaken, hptr, hsize]
  -- the trace of the two halves together
  have htrace : ∀ {r : Except (List Event) Exec}, ReadStep w y r →
      ∃ es, traceOf r = x.trace ++ es ∧ ((∃ e ∈ es, e.Failed) ↔ Fails w x.sm x.sets) := by
    intro r hread
    obtain ⟨rs, hrs, hrfail⟩ := hread.events
    refine ⟨ws ++ rs, by rw [hrs, hws, List.append_assoc], ?_⟩
    rw [Fails, ← hwfail, ← hrf, ← hrfail]
    simp only [List.mem_append, or_and_right, exists_or]
  rcases hcalls with ⟨tr, hread, heq⟩ | ⟨z, hread, heq⟩
  · have hfill := hread.fills_iff
    rw [heq]
    exact ⟨htrace hread, iff_of_true ⟨tr, rfl⟩ (hfl.mp (hfill.mp ⟨tr, rfl⟩)), nofun⟩
  · have hfill := hread.fills_iff
    have hnofill : ¬ Fills w x.sm x.sets := by
      intro hf
      obtain ⟨tr, htr⟩ := hfill.mpr (hfl.mpr hf)
      cases htr
    have hz : z.status ≠ smOk ↔ Tells w x.sm x.sets := by
      rw [hread.status_iff, hrf, hwstatus, htaken]
      rfl
    obtain ⟨es, hes, hfails⟩ := htrace hread
    rw [heq]
    refine ⟨⟨es, ?_, hfails⟩, iff_of_false nofun hnofill, ?_⟩
    · rw [← hes]
      exact traceOf_rebuilt z
    · intro u hu
      obtain rfl := Except.ok.inj hu
      rw [← hz]
      by_cases hne : z.status ≠ 0
      · rw [if_pos hne]
      · rw [if_neg hne, rebuildSets_status]
        exact iff_of_false (fun hc => hc rfl) hne

/-! ## One turn -/

/-- To the second call the first one's work on the sets makes no difference. -/
theorem Inv.second_failures (hne : A ≠ B) {s : Loop} (h : Inv size A B s) {x : Exec}
    (hx : smExecute w (execA2B s) = .ok x) :
    (Fails w s.twc.smB2A x.sets ↔ Fails w s.twc.smB2A s.sets) ∧
    (Tells w s.twc.smB2A x.sets ↔ Tells w s.twc.smB2A s.sets) ∧
    (Fills w s.twc.smB2A x.sets ↔ Fills w s.twc.smB2A s.sets) := by
  have hax := h.first hne hx
  obtain ⟨-, hrt⟩ := h.second_taken hne hx
  have hwrite : WriteFails w s.twc.smB2A x.sets ↔ WriteFails w s.twc.smB2A s.sets := by
    unfold WriteFails Writes
    rw [h.b2a.writeFd]
    exact and_congr_left fun _ => and_congr_left fun _ => hax.writeFds
  have hread : ReadFails w s.twc.smB2A x.sets ↔ ReadFails w s.twc.smB2A s.sets := by
    unfold ReadFails Reads
    rw [h.b2a.readFd]
    exact and_congr_left fun _ => and_congr_left fun _ => hax.readFds
  unfold Fails Tells Fills
  rw [hwrite, hread, hrt]
  exact ⟨Iff.rfl, Iff.rfl, Iff.rfl⟩

/-- An I/O call that is made in the turn fails.  The second machine is not run when the first one
    fills its block. -/
def TurnFails (w : Wire) (s : Loop) : Prop :=
  Fails w s.twc.smA2B s.sets ∨ (¬ Fills w s.twc.smA2B s.sets ∧ Fails w s.twc.smB2A s.sets)

/-- **The failures of a turn.** -/
theorem runPair_failures (hne : A ≠ B) {s : Loop} (h : Inv size A B s) (hA : s.statusA2B = smOk)
    (hB : s.statusB2A = smOk) :
    (∃ es, pairTrace (runPair w s) = s.trace ++ es ∧ ((∃ e ∈ es, e.Failed) ↔ TurnFails w s)) ∧
    ((∃ tr, runPair w s = .error tr) ↔
      Fills w s.twc.smA2B s.sets ∨ Fills w s.twc.smB2A s.sets) ∧
    ∀ s', runPair w s = .ok s' →
      (s'.statusA2B ≠ smOk ↔ Tells w s.twc.smA2B s.sets) ∧
      (s'.statusB2A ≠ smOk ↔ Tells w s.twc.smB2A s.sets) := by
  obtain ⟨⟨es, hes, hfail⟩, hfill, htell⟩ := smExecute_failures (w := w) (x := execA2B s) h.a2b hA
  rcases runPair_cases w s with ⟨tr, hx, hpair⟩ | ⟨x, hx, hsnd⟩
  · have hfills : Fills w s.twc.smA2B s.sets := hfill.mp ⟨tr, hx⟩
    rw [hx] at hes
    rw [hpair]
    refine ⟨⟨es, hes, ?_⟩, iff_of_true ⟨tr, rfl⟩ (Or.inl hfills), ?_⟩
    · rw [hfail]
      exact ⟨Or.inl, fun hor => hor.elim id fun hc => absurd hfills hc.1⟩
    · intro s' hs'
      cases hs'
  · have hnofill : ¬ Fills w s.twc.smA2B s.sets := by
      intro hf
      obtain ⟨tr, htr⟩ := hfill.mpr hf
      rw [hx] at htr
      cases htr
    rw [hx] at hes
    have hes : x.trace = s.trace ++ es := hes
    have hsecond := h.second hne hx
    obtain ⟨hcf, hct, hcl⟩ := h.second_failures hne hx
    obtain ⟨⟨es', hes', hfail'⟩, hfill', htell'⟩ := smExecute_failures (w := w) hsecond hB
    -- the two calls together
    have htrace : ∃ fs, traceOf (smExecute w (execB2A s x)) = s.trace ++ fs ∧
        ((∃ e ∈ fs, e.Failed) ↔ TurnFails w s) := by
      refine ⟨es ++ es', ?_, ?_⟩
      · rw [hes', ← List.append_assoc, ← hes]
        rfl
      · rw [TurnFails, ← hcf, ← show _ ↔ Fails w s.twc.smB2A x.sets from hfail',
          ← show _ ↔ Fails w s.twc.smA2B s.sets from hfail]
        simp only [List.mem_append, or_and_right, exists_or, hnofill, not_false_eq_true, true_and]
    rcases hsnd with ⟨tr, hy, hpair⟩ | ⟨y, hy, hpair⟩
    · have hfills : Fills w s.twc.smB2A s.sets := hcl.mp (hfill'.mp ⟨tr, hy⟩)
      rw [hy] at htrace
      rw [hpair]
      refine ⟨htrace, iff_of_true ⟨tr, rfl⟩ (Or.inr hfills), ?_⟩
      intro s' hs'
      cases hs'
    · have hnofill' : ¬ Fills w s.twc.smB2A s.sets := by
        intro hf
        obtain ⟨tr, htr⟩ := hfill'.mpr (hcl.mpr hf)
        rw [hy] at htr
        cases htr
      rw [hy] at htrace
      rw [hpair]
      refine ⟨htrace, iff_of_false nofun (not_or.mpr ⟨hnofill, hnofill'⟩), ?_⟩
      intro s' hs'
      obtain rfl := Except.ok.inj hs'
      exact ⟨htell x hx, (htell' y hy).trans hct⟩

/-! ## One iteration of a run -/

/-- The I/O calls of an iteration. -/
def newEvents (s : Loop) (t : Turn) : List Event := (iterate s t).trace.drop s.trace.length

/-- If an I/O call of the iteration fails, `twc_run` returns in it, with a status that says so. -/
def Reported (s : Loop) (t : Turn) : Prop :=
  (∃ e ∈ newEvents s t, e.Failed) →
    ∃ status s', iterate s t = .returned status s' ∧ status ≠ smOk

/-- If an I/O call fails on what `select` leaves of the sets, no block is filled and a machine tells. -/
def TurnTold (s : Loop) (t : Turn) : Prop :=
  ∀ readable writable, t.select = .ready readable writable →
    TurnFails t.wire { s with sets := s.sets.select readable writable } →
      ¬ Fills t.wire s.twc.smA2B (s.sets.select readable writable) ∧
      ¬ Fills t.wire s.twc.smB2A (s.sets.select readable writable) ∧
      (Tells t.wire s.twc.smA2B (s.sets.select readable writable) ∨
       Tells t.wire s.twc.smB2A (s.sets.select readable writable))

/-- On empty sets no call is made. -/
theorem not_turnFails_of_empty {s : Loop} (hr : s.sets.readFds = ∅) (hw : s.sets.writeFds = ∅) :
    ¬ TurnFails w s := by
  have hnone : ∀ sm : StateMachine, ¬ Fails w sm s.sets := by
    intro sm hfail
    rcases hfail with hfail | hfail
    · have hmem := hfail.1.1
      rw [hw] at hmem
      exact Finset.notMem_empty _ hmem
    · have hmem : sm.readFd ∈ s.sets.readFds := hfail.1.1
      rw [hr] at hmem
      exact Finset.notMem_empty _ hmem
  rintro (hfail | ⟨-, hfail⟩)
  · exact hnone _ hfail
  · exact hnone _ hfail

/-- Between turns both statuses are `SM_OK`. -/
theorem twcRun_status (hsize : 2 ≤ size) (hne : A ≠ B) {ts : List Turn} :
    ∀ {s}, twcRun (twcInit A B size) ts = .running s → s.statusA2B = smOk ∧ s.statusB2A = smOk := by
  refine twcRun_keeps (I := fun s => s.statusA2B = smOk ∧ s.statusB2A = smOk) ?_ ?_
  · intro s hs
    obtain ⟨s₁, hrun, -, -, hA, hB, -⟩ := twcRun_start hsize hne
    obtain rfl := Outcome.running.inj (hrun.symm.trans hs)
    exact ⟨hA, hB⟩
  · intro s t s' hstatus hrun
    rcases iterate_running hrun with ⟨e, -, rfl⟩ | ⟨readable, writable, -, -, hA, hB⟩
    · exact hstatus
    · exact ⟨hA, hB⟩

/-- An iteration that leaves the trace alone has nothing to report. -/
theorem reported_of_quiet {s : Loop} {t : Turn} (htr : (iterate s t).trace = s.trace) :
    Reported s t := by
  rintro ⟨e, he, -⟩
  rw [newEvents, htr, List.drop_length] at he
  cases he

section Turn

variable {s : Loop} {t : Turn} {readable writable : Finset Fd}

/-- What the turn tells, for the descriptors that `select` does find ready. -/
theorem turnTold_ready (hsel : t.select = .ready readable writable) :
    TurnTold s t ↔ (TurnFails t.wire { s with sets := s.sets.select readable writable } →
      ¬ Fills t.wire s.twc.smA2B (s.sets.select readable writable) ∧
      ¬ Fills t.wire s.twc.smB2A (s.sets.select readable writable) ∧
      (Tells t.wire s.twc.smA2B (s.sets.select readable writable) ∨
       Tells t.wire s.twc.smB2A (s.sets.select readable writable))) := by
  constructor
  · intro h
    exact h readable writable hsel
  · intro h readable' writable' hready
    obtain ⟨rfl, rfl⟩ := SelectOutcome.ready.inj (hsel.symm.trans hready)
    exact h

/-- The statuses that the two calls leave decide whether the iteration returns a failure. -/
theorem returned_iff_status (hsel : t.select = .ready readable writable)
    (hcard : (s.sets.select readable writable).readFds.card +
      (s.sets.select readable writable).writeFds.card > 0) {s' : Loop}
    (hpair : runPair t.wire { s with sets := s.sets.select readable writable } = .ok s') :
    (∃ status s₁, iterate s t = .returned status s₁ ∧ status ≠ smOk) ↔
      s'.statusA2B ≠ smOk ∨ s'.statusB2A ≠ smOk := by
  have hit := iterate_called hsel hcard hpair
  by_cases hA : s'.statusA2B ≠ smOk
  · rw [if_pos hA] at hit
    exact iff_of_true ⟨_, s', hit, hA⟩ (Or.inl hA)
  · rw [if_neg hA] at hit
    by_cases hB : s'.statusB2A ≠ smOk
    · rw [if_pos hB] at hit
      exact iff_of_true ⟨_, s', hit, hB⟩ (Or.inr hB)
    · rw [if_neg hB] at hit
      refine iff_of_false ?_ (not_or.mpr ⟨hA, hB⟩)
      rintro ⟨status, s₁, hret, -⟩
      rw [hit] at hret
      cases hret

/-- The trace of an iteration that makes the two calls. -/
theorem iterate_trace (hsel : t.select = .ready readable writable)
    (hcard : (s.sets.select readable writable).readFds.card +
      (s.sets.select readable writable).writeFds.card > 0) :
    (iterate s t).trace =
      pairTrace (runPair t.wire { s with sets := s.sets.select readable writable }) := by
  cases hpair : runPair t.wire { s with sets := s.sets.select readable writable } with
  | error tr =>
    rw [iterate_aborted hsel hcard hpair]
    rfl
  | ok s' =>
    rw [iterate_called hsel hcard hpair]
    split
    · rfl
    · split
      · rfl
      · rfl

/-- An iteration that makes the two calls reports its failures exactly when it tells them. -/
theorem reported_of_ready (hne : A ≠ B) (hinv : Inv size A B s) (hA : s.statusA2B = smOk)
    (hB : s.statusB2A = smOk) (hsel : t.select = .ready readable writable)
    (hcard : (s.sets.select readable writable).readFds.card +
      (s.sets.select readable writable).writeFds.card > 0) : Reported s t ↔ TurnTold s t := by
  obtain ⟨⟨es, hes, hfail⟩, herror, htell⟩ :=
    runPair_failures (w := t.wire) hne (hinv.select (s.sets.select readable writable)) hA hB
  have hnew : newEvents s t = es := by
    rw [newEvents, iterate_trace hsel hcard, hes]
    exact List.drop_left
  rw [turnTold_ready hsel, Reported, hnew, hfail]
  refine imp_congr_right fun _ => ?_
  cases hpair : runPair t.wire { s with sets := s.sets.select readable writable } with
  | error tr =>
    have hfills := herror.mp ⟨tr, hpair⟩
    refine iff_of_false ?_ ?_
    · rintro ⟨status, s', hret, -⟩
      rw [iterate_aborted hsel hcard hpair] at hret
      cases hret
    · rintro ⟨hnA, hnB, -⟩
      exact not_or.mpr ⟨hnA, hnB⟩ hfills
  | ok s' =>
    obtain ⟨htA, htB⟩ := htell s' hpair
    have hnofill : ¬ (Fills t.wire s.twc.smA2B (s.sets.select readable writable) ∨
        Fills t.wire s.twc.smB2A (s.sets.select readable writable)) := by
      intro hf
      obtain ⟨tr, htr⟩ := herror.mpr hf
      rw [hpair] at htr
      cases htr
    obtain ⟨hnA, hnB⟩ := not_or.mp hnofill
    rw [returned_iff_status hsel hcard hpair, htA, htB]
    exact ⟨fun htells => ⟨hnA, hnB, htells⟩, fun htold => htold.2.2⟩

/-- A time-out makes no call: it has nothing to report and nothing to tell. -/
theorem reported_of_timeout (hsel : t.select = .ready readable writable)
    (hcard : ¬ (s.sets.select readable writable).readFds.card +
      (s.sets.select readable writable).writeFds.card > 0) : Reported s t ↔ TurnTold s t := by
  refine iff_of_true (reported_of_quiet ?_) ?_
  · rw [iterate_timeout hsel hcard]
    rfl
  · rw [turnTold_ready hsel]
    have hr : (s.sets.select readable writable).readFds = ∅ := Finset.card_eq_zero.mp (by omega)
    have hw : (s.sets.select readable writable).writeFds = ∅ := Finset.card_eq_zero.mp (by omega)
    intro hturn
    exact absurd hturn (not_turnFails_of_empty hr hw)

/-- Nor does a `select` that fails. -/
theorem reported_of_fails {e : Int} (hsel : t.select = .fails e) : Reported s t ↔ TurnTold s t := by
  refine iff_of_true (reported_of_quiet ?_) ?_
  · rw [iterate_fails hsel]
    split
    · rfl
    · rfl
  · intro readable writable hready
    rw [hsel] at hready
    cases hready

end Turn

/-- **No failure is masked, exactly when it is told.**  In every iteration of every run: a failing I/O
    call makes `twc_run` return in that iteration with a status other than `SM_OK` if and only if no
    read of the iteration fills its block, and a failure is not followed by a successful read of
    the same call — in at least one of the two calls. -/
theorem reported_iff_told (size : Nat) (A B : Fd) (hsize : 2 ≤ size) (hne : A ≠ B)
    (ts : List Turn) (s : Loop) (hs : twcRun (twcInit A B size) ts = .running s) (t : Turn) :
    Reported s t ↔ TurnTold s t := by
  have hinv := twcRun_inv hsize hne hs
  obtain ⟨hA, hB⟩ := twcRun_status hsize hne hs
  cases hsel : t.select with
  | fails e => exact reported_of_fails hsel
  | ready readable writable =>
    by_cases hcard : (s.sets.select readable writable).readFds.card +
        (s.sets.select readable writable).writeFds.card > 0
    · exact reported_of_ready hne hinv hA hB hsel hcard
    · exact reported_of_timeout hsel hcard

/-- A turn in which `out` is ready but fails, and `inp` delivers bytes. -/
def brokenTurn (inp out : Fd) (bs : Bytes) : Turn :=
  ⟨.ready {inp} {out}, fun _ => none, fun f => if f = inp then some bs else none⟩

/-- A failing write with no read beside it is told. -/
theorem reported_iff_told_broken :
    ∃ s, twcRun (twcInit 3 4 10) [readTurn 3 [1, 2]] = .running s ∧
      (Reported s ⟨.ready ∅ {4}, fun _ => none, fun _ => none⟩ ↔
        TurnTold s ⟨.ready ∅ {4}, fun _ => none, fun _ => none⟩) :=
  ⟨_, rfl, reported_iff_told 10 3 4 (by decide) (by decide) [readTurn 3 [1, 2]] _ rfl _⟩

/-- One byte is pending for descriptor 4, whose write now fails, while descriptor 3 delivers another:
    the failure is overwritten and the loop goes on. -/
theorem failure_masked : ¬ ∀ (size : Nat) (A B : Fd), 2 ≤ size → A ≠ B → ∀ (ts : List Turn) (s : Loop),
    twcRun (twcInit A B size) ts = .running s → ∀ t, Reported s t := by
  intro h
  have hrep := h 10 3 4 (by decide) (by decide) [readTurn 3 [1]] _ rfl (brokenTurn 3 4 [2])
  have hfailed : Event.Failed (.write 4 [some 1] (-1)) := show (-1 : Int) ≤ 0 by decide
  obtain ⟨status, s', hret, -⟩ := hrep ⟨.write 4 [some 1] (-1), by decide, hfailed⟩
  cases hret

end Pixie.Twc
