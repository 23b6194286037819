/-
  Do the two directions of a tunnel get in each other's way?

  Both calls of `sm_execute` work on the same two sets, and each descriptor is the input of one
  direction and the output of the other; the entries of the sets are consumed and rebuilt in the course
  of a call.  Nevertheless the order of the calls makes no difference.

  1. **Locality** — a call sees two entries of the sets, its input's among the readable descriptors and
     its output's among the writable ones, and it changes these two only.  As an equation: run on other
     sets with the same two entries, and behind another trace, it does the same (`smExecute_under`).
     What it does to the sets is a PATCH at its two entries.

  2. **The two directions use four different entries**, so each call leaves the other's entries as they
     are, and patches at different places commute (`patch_comm`).

  3. Hence both orders make the two calls that each direction makes on its own (`alone`), and end in
     the same state, with the same bytes on each descriptor (`runPair_reversed`).
-/
import Pixie.Twc.Machine
import Pixie.Lib.Patch

namespace Pixie.Twc

open Pixie.Net Pixie.Patch

/-- The two calls of `sm_execute` in the opposite order. -/
def runPairReversed (w : Wire) (s : Loop) : Except (List Event) Loop :=
  match smExecute w ⟨s.twc.smB2A, s.sets, s.statusB2A, s.trace⟩ with
  | .error tr => .error tr
  | .ok y =>
    match smExecute w ⟨s.twc.smA2B, y.sets, s.statusA2B, y.trace⟩ with
    | .error tr => .error tr
    | .ok x =>
      .ok ⟨{ s.twc with smA2B := x.sm, smB2A := y.sm }, x.sets, x.status, y.status, x.trace⟩

/-- The same machines, sets and statuses, and the same bytes on each descriptor. -/
structure SameOutcome (x y : Loop) : Prop where
  twc : x.twc = y.twc
  sets : x.sets = y.sets
  statusA2B : x.statusA2B = y.statusA2B
  statusB2A : x.statusB2A = y.statusB2A
  sent : ∀ fd, sentTo fd x.trace = sentTo fd y.trace

/-! ## Patches of the sets -/

/-- Both sets, patched at the entries of a machine. -/
def FdSets.patch (s : FdSets) (sm : StateMachine) (t : FdSets) : FdSets :=
  ⟨Patch.patch sm.readFd s.readFds t.readFds, Patch.patch sm.writeFd s.writeFds t.writeFds⟩

/-- The entries that a machine sees are the same. -/
structure SameEntries (sm : StateMachine) (s t : FdSets) : Prop where
  readFds : sm.readFd ∈ s.readFds ↔ sm.readFd ∈ t.readFds
  writeFds : sm.writeFd ∈ s.writeFds ↔ sm.writeFd ∈ t.writeFds

theorem SameEntries.patch {sm : StateMachine} {s t : FdSets} (h : SameEntries sm s t) :
    s.patch sm t = s := by
  rw [FdSets.patch, patch_of_iff h.readFds, patch_of_iff h.writeFds]

/-! ## Locality -/

/-- An execution on other sets, behind another trace. -/
def Exec.under (x : Exec) (sets : FdSets) (tr : List Event) : Exec :=
  ⟨x.sm, sets, x.status, tr ++ x.trace⟩

/-- The same of the end of a phase. -/
def endUnder (sets : FdSets) (tr : List Event) : Except (List Event) Exec → Except (List Event) Exec
  | .error es => .error (tr ++ es)
  | .ok y => .ok (y.under sets tr)

variable {w : Wire} {x y : Exec} {sets : FdSets} {tr : List Event}

theorem writePhase_under
    (hbit : x.sm.writeFd ∈ sets.writeFds ↔ x.sm.writeFd ∈ x.sets.writeFds) :
    writePhase w (x.under sets tr) = endUnder sets tr (writePhase w x) := by
  rw [writePhase, writePhase]
  by_cases hready : x.sm.writeFd ∈ x.sets.writeFds
  · have hready' : (x.under sets tr).sm.writeFd ∈ (x.under sets tr).sets.writeFds := hbit.mpr hready
    rw [if_pos hready, if_pos hready']
    dsimp only [Exec.under]
    by_cases havail : cbWriteAvailable x.sm.cbuffer > 0
    · rw [if_pos havail, if_pos havail]
      by_cases hzero : w.writeRet x.sm.writeFd (cbWriteAvailable x.sm.cbuffer).toNat = 0
      · rw [if_pos hzero, if_pos hzero, List.append_assoc]
        rfl
      · rw [if_neg hzero, if_neg hzero]
        by_cases hpos : w.writeRet x.sm.writeFd (cbWriteAvailable x.sm.cbuffer).toNat > 0
        · rw [if_pos hpos, if_pos hpos]
          cases cbAdvanceWrite x.sm.cbuffer
              (w.writeRet x.sm.writeFd (cbWriteAvailable x.sm.cbuffer).toNat).toNat with
          | none => exact congrArg Except.error (List.append_assoc ..)
          | some cb =>
            dsimp only
            rw [List.append_assoc]
            rfl
        · rw [if_neg hpos, if_neg hpos, List.append_assoc]
          rfl
    · rw [if_neg havail, if_neg havail]
      rfl
  · have hready' : (x.under sets tr).sm.writeFd ∉ (x.under sets tr).sets.writeFds :=
      fun h => hready (hbit.mp h)
    rw [if_neg hready, if_neg hready']
    rfl

theorem readPhase_under
    (hbit : x.sm.readFd ∈ sets.readFds ↔ x.sm.readFd ∈ x.sets.readFds) :
    readPhase w (x.under sets tr) = endUnder sets tr (readPhase w x) := by
  rw [readPhase, readPhase]
  by_cases hready : x.sm.readFd ∈ x.sets.readFds ∧ x.sm.readSuspended = false
  · have hready' : (x.under sets tr).sm.readFd ∈ (x.under sets tr).sets.readFds ∧
        (x.under sets tr).sm.readSuspended = false := ⟨hbit.mpr hready.1, hready.2⟩
    rw [if_pos hready, if_pos hready']
    dsimp only [Exec.under]
    by_cases havail : cbReadAvailable x.sm.cbuffer > 0
    · rw [if_pos havail, if_pos havail]
      cases w.readBytes x.sm.readFd (cbReadAvailable x.sm.cbuffer).toNat with
      | none =>
        dsimp only
        rw [List.append_assoc]
        rfl
      | some bs =>
        dsimp only
        by_cases hnil : bs = []
        · rw [if_pos hnil, if_pos hnil, List.append_assoc]
          rfl
        · rw [if_neg hnil, if_neg hnil]
          cases cbAdvanceReadPtr (x.sm.cbuffer.store bs) bs.length with
          | none => exact congrArg Except.error (List.append_assoc ..)
          | some cb =>
            dsimp only
            rw [List.append_assoc]
            rfl
    · rw [if_neg havail, if_neg havail]
      rfl
  · have hready' : ¬ ((x.under sets tr).sm.readFd ∈ (x.under sets tr).sets.readFds ∧
        (x.under sets tr).sm.readSuspended = false) := fun h => hready ⟨hbit.mp h.1, h.2⟩
    rw [if_neg hready, if_neg hready']
    rfl

/-- What a phase leaves as it was; its events are those of the machine. -/
structure Keeps (x y : Exec) : Prop where
  sets : y.sets = x.sets
  readFd : y.sm.readFd = x.sm.readFd
  writeFd : y.sm.writeFd = x.sm.writeFd
  events : ∃ es, y.trace = x.trace ++ es ∧ ∀ e ∈ es, e.Of x.sm.readFd x.sm.writeFd

theorem Keeps.refl (x : Exec) : Keeps x x :=
  ⟨rfl, rfl, rfl, [], (List.append_nil _).symm, nofun⟩

theorem Keeps.trans {z : Exec} (h : Keeps x y) (h' : Keeps y z) : Keeps x z := by
  obtain ⟨es, hes, hof⟩ := h.events
  obtain ⟨es', hes', hof'⟩ := h'.events
  refine ⟨h'.sets.trans h.sets, h'.readFd.trans h.readFd, h'.writeFd.trans h.writeFd, es ++ es', ?_, ?_⟩
  · rw [hes', hes, List.append_assoc]
  · rw [h.readFd, h.writeFd] at hof'
    exact List.forall_mem_append.mpr ⟨hof, hof'⟩

theorem writePhase_keeps (h : writePhase w x = .ok y) : Keeps x y := by
  have hevent : ∀ {o ret}, ∀ e ∈ [Event.write x.sm.writeFd o ret], e.Of x.sm.readFd x.sm.writeFd :=
    List.forall_mem_singleton.mpr rfl
  rw [writePhase] at h
  dsimp only at h
  split at h
  · split at h
    · split at h
      · cases h
        exact ⟨rfl, rfl, rfl, _, rfl, hevent⟩
      · split at h
        · split at h
          · cases h
          · cases h
            exact ⟨rfl, rfl, rfl, _, rfl, hevent⟩
        · cases h
          exact ⟨rfl, rfl, rfl, _, rfl, hevent⟩
    · cases h
      exact .refl x
  · cases h
    exact .refl x

theorem readPhase_keeps (h : readPhase w x = .ok y) : Keeps x y := by
  have hevent : ∀ {r}, ∀ e ∈ [Event.read x.sm.readFd r], e.Of x.sm.readFd x.sm.writeFd :=
    List.forall_mem_singleton.mpr rfl
  rw [readPhase] at h
  dsimp only at h
  split at h
  · split at h
    · split at h
      · cases h
        exact ⟨rfl, rfl, rfl, _, rfl, hevent⟩
      · split at h
        · cases h
          exact ⟨rfl, rfl, rfl, _, rfl, hevent⟩
        · split at h
          · cases h
          · cases h
            exact ⟨rfl, rfl, rfl, _, rfl, hevent⟩
    · cases h
      exact .refl x
  · cases h
    exact .refl x

/-- Rebuilding patches the two entries. -/
theorem rebuildSets_under (hbit : x.sm.writeFd ∈ sets.writeFds ↔ x.sm.writeFd ∈ x.sets.writeFds) :
    rebuildSets (x.under sets tr) =
      (rebuildSets x).under (sets.patch x.sm (rebuildSets x).sets) tr := by
  have hwrite : (if cbWriteAvailable x.sm.cbuffer > 0 then insert x.sm.writeFd sets.writeFds
      else sets.writeFds) = patch x.sm.writeFd sets.writeFds
      (if cbWriteAvailable x.sm.cbuffer > 0 then insert x.sm.writeFd x.sets.writeFds
      else x.sets.writeFds) := by
    split
    · exact patch_insert.symm
    · exact (patch_of_iff hbit).symm
  by_cases hroom : cbReadAvailable x.sm.cbuffer > 0
  · have hx : rebuildSets x = _ := if_pos hroom
    have hunder : rebuildSets (x.under sets tr) = _ := if_pos hroom
    rw [hx, hunder, FdSets.patch]
    dsimp only [Exec.under]
    rw [patch_insert, ← hwrite]
    rfl
  · have hx : rebuildSets x = _ := if_neg hroom
    have hunder : rebuildSets (x.under sets tr) = _ := if_neg hroom
    rw [hx, hunder, FdSets.patch]
    dsimp only [Exec.under]
    rw [patch_erase, ← hwrite]
    rfl

/-- The end of a call, on other sets and behind another trace. -/
def callUnder (sm : StateMachine) (sets : FdSets) (tr : List Event) :
    Except (List Event) Exec → Except (List Event) Exec
  | .error es => .error (tr ++ es)
  | .ok z => .ok (z.under (sets.patch sm z.sets) tr)

/-- **Locality.**  A call sees the two entries of its machine, and patches them. -/
theorem smExecute_under (h : SameEntries x.sm sets x.sets) :
    smExecute w (x.under sets tr) = callUnder x.sm sets tr (smExecute w x) := by
  have hwrite := @writePhase_under w x sets tr h.writeFds
  cases hy : writePhase w x with
  | error es =>
    rw [hy, endUnder] at hwrite
    rw [smExecute, hwrite, smExecute, hy]
    rfl
  | ok y =>
    rw [hy, endUnder] at hwrite
    have hkeep := writePhase_keeps hy
    have hread := @readPhase_under w y sets tr (by rw [hkeep.readFd, hkeep.sets]; exact h.readFds)
    cases hz : readPhase w y with
    | error es =>
      rw [hz, endUnder] at hread
      rw [smExecute_of_error hwrite hread, smExecute_of_error hy hz]
      rfl
    | ok z =>
      rw [hz, endUnder] at hread
      have hkeep' := hkeep.trans (readPhase_keeps hz)
      rw [smExecute_of_read hwrite hread, smExecute_of_read hy hz, callUnder]
      congr 1
      by_cases hst : z.status = 0
      · -- the sets are rebuilt
        have hstop : ¬ z.status ≠ 0 := not_not.mpr hst
        have hstop' : ¬ (z.under sets tr).status ≠ 0 := hstop
        rw [if_neg hstop, if_neg hstop', rebuildSets_under
          (by rw [hkeep'.writeFd, hkeep'.sets]; exact h.writeFds)]
        rw [FdSets.patch, FdSets.patch, hkeep'.readFd, hkeep'.writeFd]
      · have hstop' : (z.under sets tr).status ≠ 0 := hst
        rw [if_pos hst, if_pos hstop', hkeep'.sets, h.patch]

/-- The events of a call are those of its machine. -/
theorem smExecute_events (h : smExecute w x = .ok y) :
    ∃ es, y.trace = x.trace ++ es ∧ ∀ e ∈ es, e.Of x.sm.readFd x.sm.writeFd := by
  cases hy : writePhase w x with
  | error es =>
    rw [smExecute, hy] at h
    cases h
  | ok u =>
    cases hz : readPhase w u with
    | error es =>
      rw [smExecute_of_error hy hz] at h
      cases h
    | ok z =>
      rw [smExecute_of_read hy hz] at h
      obtain rfl := Except.ok.inj h
      rw [apply_ite Exec.trace, rebuildSets_trace, ite_self]
      exact ((writePhase_keeps hy).trans (readPhase_keeps hz)).events

/-! ## The two orders -/

/-- Patches at other entries are not seen. -/
theorem sameEntries_patch {sm sm' : StateMachine} {s t : FdSets} (hr : sm.readFd ≠ sm'.readFd)
    (hw : sm.writeFd ≠ sm'.writeFd) : SameEntries sm (s.patch sm' t) s := by
  constructor
  · exact mem_patch.trans (by rw [if_neg hr])
  · exact mem_patch.trans (by rw [if_neg hw])

theorem FdSets.patch_comm {sm sm' : StateMachine} {s t t' : FdSets} (hr : sm.readFd ≠ sm'.readFd)
    (hw : sm.writeFd ≠ sm'.writeFd) : (s.patch sm t).patch sm' t' = (s.patch sm' t').patch sm t := by
  simp only [FdSets.patch]
  rw [Patch.patch_comm hr, Patch.patch_comm hw]

/-- A call on its own: on the sets as they are, with nothing in the trace. -/
def alone (w : Wire) (sm : StateMachine) (sets : FdSets) (status : Int) : Except (List Event) Exec :=
  smExecute w ⟨sm, sets, status, []⟩

/-- Wherever a call sees the same entries, it does what it does on its own. -/
theorem smExecute_alone {sm : StateMachine} {sets sets' : FdSets} {status : Int} {tr : List Event}
    (h : SameEntries sm sets' sets) : smExecute w ⟨sm, sets', status, tr⟩ =
      callUnder sm sets' tr (alone w sm sets status) := by
  have hunder := @smExecute_under w ⟨sm, sets, status, []⟩ sets' tr h
  rw [Exec.under, List.append_nil] at hunder
  exact hunder

section Orders

variable {s : Loop} {a b : Exec}

/-- The state after both calls, in terms of what each does on its own. -/
def Loop.after (s : Loop) (a b : Exec) (sets : FdSets) (trace : List Event) : Loop :=
  ⟨{ s.twc with smA2B := a.sm, smB2A := b.sm }, sets, a.status, b.status, trace⟩

theorem SameEntries.refl (sm : StateMachine) (t : FdSets) : SameEntries sm t t := ⟨.rfl, .rfl⟩

theorem runPair_after (hr : s.twc.smB2A.readFd ≠ s.twc.smA2B.readFd)
    (hw : s.twc.smB2A.writeFd ≠ s.twc.smA2B.writeFd)
    (ha : alone w s.twc.smA2B s.sets s.statusA2B = .ok a)
    (hb : alone w s.twc.smB2A s.sets s.statusB2A = .ok b) :
    runPair w s = .ok (s.after a b ((s.sets.patch s.twc.smA2B a.sets).patch s.twc.smB2A b.sets)
      (s.trace ++ a.trace ++ b.trace)) := by
  rw [runPair, smExecute_alone (.refl _ _), ha]
  dsimp only [callUnder, Exec.under]
  rw [smExecute_alone (sameEntries_patch hr hw), hb]
  rfl

theorem runPairReversed_after (hr : s.twc.smA2B.readFd ≠ s.twc.smB2A.readFd)
    (hw : s.twc.smA2B.writeFd ≠ s.twc.smB2A.writeFd)
    (ha : alone w s.twc.smA2B s.sets s.statusA2B = .ok a)
    (hb : alone w s.twc.smB2A s.sets s.statusB2A = .ok b) :
    runPairReversed w s = .ok (s.after a b
      ((s.sets.patch s.twc.smB2A b.sets).patch s.twc.smA2B a.sets)
      (s.trace ++ b.trace ++ a.trace)) := by
  rw [runPairReversed, smExecute_alone (.refl _ _), hb]
  dsimp only [callUnder, Exec.under]
  rw [smExecute_alone (sameEntries_patch hr hw), ha]
  rfl

/-- An order that comes to its end has made both calls. -/
theorem alone_of_runPair {x : Loop} (hr : s.twc.smB2A.readFd ≠ s.twc.smA2B.readFd)
    (hw : s.twc.smB2A.writeFd ≠ s.twc.smA2B.writeFd) (h : runPair w s = .ok x) :
    ∃ a b, alone w s.twc.smA2B s.sets s.statusA2B = .ok a ∧
      alone w s.twc.smB2A s.sets s.statusB2A = .ok b := by
  rw [runPair, smExecute_alone (.refl _ _)] at h
  cases ha : alone w s.twc.smA2B s.sets s.statusA2B with
  | error es =>
    rw [ha] at h
    cases h
  | ok a =>
    rw [ha] at h
    dsimp only [callUnder, Exec.under] at h
    rw [smExecute_alone (sameEntries_patch hr hw)] at h
    cases hb : alone w s.twc.smB2A s.sets s.statusB2A with
    | error es =>
      rw [hb] at h
      cases h
    | ok b => exact ⟨a, b, rfl, rfl⟩

/-- The bytes of two calls that write to different descriptors, in either order. -/
theorem sentTo_swap {r f r' f' : Fd} (hne : f ≠ f') {es es' : List Event}
    (h : ∀ e ∈ es, e.Of r f) (h' : ∀ e ∈ es', e.Of r' f') (tr : List Event) (fd : Fd) :
    sentTo fd (tr ++ es ++ es') = sentTo fd (tr ++ es' ++ es) := by
  simp only [sentTo_append]
  by_cases hfd : fd = f
  · rw [sentTo_of (hfd ▸ hne) h', List.append_nil, List.append_nil]
  · rw [sentTo_of hfd h, List.append_nil, List.append_nil]

/-- **The two directions do not interfere**: between two descriptors, whatever is in the buffers and the
    sets and whatever the calls give, both orders of the calls lead to the same state. -/
theorem runPair_reversed (w : Wire) (A B : Fd) (hne : A ≠ B) (s x y : Loop)
    (hA2B : s.twc.smA2B.readFd = A ∧ s.twc.smA2B.writeFd = B)
    (hB2A : s.twc.smB2A.readFd = B ∧ s.twc.smB2A.writeFd = A)
    (hx : runPair w s = .ok x) (hy : runPairReversed w s = .ok y) : SameOutcome x y := by
  obtain ⟨hAr, hAw⟩ := hA2B
  obtain ⟨hBr, hBw⟩ := hB2A
  have hr : s.twc.smA2B.readFd ≠ s.twc.smB2A.readFd := by rw [hAr, hBr]; exact hne
  have hw : s.twc.smA2B.writeFd ≠ s.twc.smB2A.writeFd := by rw [hAw, hBw]; exact Ne.symm hne
  obtain ⟨a, b, ha, hb⟩ := alone_of_runPair (Ne.symm hr) (Ne.symm hw) hx
  obtain rfl := Except.ok.inj ((runPair_after (Ne.symm hr) (Ne.symm hw) ha hb).symm.trans hx)
  obtain rfl := Except.ok.inj ((runPairReversed_after hr hw ha hb).symm.trans hy)
  obtain ⟨es, hes, hof⟩ := smExecute_events ha
  obtain ⟨es', hes', hof'⟩ := smExecute_events hb
  refine ⟨rfl, FdSets.patch_comm hr hw, rfl, rfl, fun fd => ?_⟩
  show sentTo fd (s.trace ++ a.trace ++ b.trace) = sentTo fd (s.trace ++ b.trace ++ a.trace)
  rw [hes, hes']
  exact sentTo_swap hw hof hof' s.trace fd

end Orders

/-- Both descriptors are ready for everything, and a byte has come on each. -/
def bothReady : Loop := ⟨twcInit 3 4 8, ⟨{3, 4}, {3, 4}⟩, smOk, smOk, []⟩

def oneByteEach : Wire := ⟨fun _ => some 1, fun fd => some [if fd = 3 then 97 else 98]⟩

theorem runPair_reversed_bothReady : ∃ x y, runPair oneByteEach bothReady = .ok x ∧
    runPairReversed oneByteEach bothReady = .ok y ∧ SameOutcome x y :=
  ⟨_, _, rfl, rfl, runPair_reversed oneByteEach 3 4 (by decide) bothReady _ _ ⟨rfl, rfl⟩ ⟨rfl, rfl⟩
    rfl rfl⟩

end Pixie.Twc
