/-
  The descriptor sets that `twc_run` hands to `select`.

  `Exact s` says that the sets ask for what the two machines can do: a descriptor is watched for
  writing when bytes are pending for it, and for reading when there is room (which is the same as
  not being suspended).  The reads are always right, because `sm_execute` sets or clears the read
  descriptor at the end of every call.  The writes are not: the write descriptor is set when bytes
  are pending and NEVER CLEARED, so what `select` reported ready stays in the set.

  The steps:
    * `smExecute_sets` — the sets after a call with a zero status;
    * `pending_after` — what is pending after a call, from the state before it;
    * `runPair_exact` — after one turn the sets are exact if and only if each direction whose output
      was reported writable still has bytes to send (`KeepsPending`), whatever they were before.

  A run starts with exact sets (`exact_start`), so all its calls of `select` get exact sets if and
  only if each of its turns keeps something pending (`exact_iff_keepsPending`).
-/
import Pixie.Twc.Phases

namespace Pixie.Twc

open Pixie.Decimal Pixie.Net

/-- The sets are exact for a machine. -/
def Interest (sm : StateMachine) (sets : FdSets) : Prop :=
  (sm.writeFd ∈ sets.writeFds ↔ 0 < cbWriteAvailable sm.cbuffer) ∧
  (sm.readFd ∈ sets.readFds ↔ 0 < cbReadAvailable sm.cbuffer) ∧
  (sm.readFd ∈ sets.readFds ↔ sm.readSuspended = false)

/-- The sets that the next `select` is called with are exact for both machines. -/
def Exact (s : Loop) : Prop := Interest s.twc.smA2B s.sets ∧ Interest s.twc.smB2A s.sets

/-- When the output descriptor is ready, the write and the read of the call leave bytes pending: the
    write takes less than what is pending and what comes in, and the producer is not reset. -/
def KeepsPending (w : Wire) (sm : StateMachine) (sets : FdSets) : Prop :=
  sm.writeFd ∈ sets.writeFds →
    (writeTaken w sm sets : Int) < cbWriteAvailable sm.cbuffer + (readTaken w sm sets).length ∧
    (sm.cbuffer.readPtr : Int) + (readTaken w sm sets).length + 1 ≠ sm.cbuffer.bufferSize

variable {size : Nat} {rfd wfd A B : Fd} {w : Wire}

/-! ## One call -/

/-- The buffer after a call: the write's bytes are gone, then the read's are stored. -/
theorem smExecute_cbuffer {x u : Exec} (h : Sound size rfd wfd x.sm x.trace)
    (hok : smExecute w x = .ok u) :
    u.sm.cbuffer =
      ((x.sm.sent (writeTaken w x.sm x.sets)).stored (readTaken w x.sm x.sets)).cbuffer := by
  obtain ⟨y, hwrite, ⟨tr, -, herr⟩ | ⟨z, hread, hz⟩⟩ := smExecute_steps w h
  · rw [herr] at hok
    cases hok
  · obtain rfl := Except.ok.inj (hz.symm.trans hok)
    have hsm : z.sm =
        (x.sm.sent (writeTaken w x.sm x.sets)).stored (readTaken w x.sm x.sets) := by
      rw [hread.sm (hwrite.sound h), hwrite.sets, hwrite.sm]
      rfl
    rw [← hsm]
    split
    · rfl
    · exact rebuildSets_cbuffer z

/-- **What is pending after a call**, from the state before it. -/
theorem pending_after {x u : Exec} (h : Sound size rfd wfd x.sm x.trace)
    (hok : smExecute w x = .ok u) :
    0 < cbWriteAvailable u.sm.cbuffer ↔
      (writeTaken w x.sm x.sets : Int) <
        cbWriteAvailable x.sm.cbuffer + (readTaken w x.sm x.sets).length ∧
      (x.sm.cbuffer.readPtr : Int) + (readTaken w x.sm x.sets).length + 1 ≠
        x.sm.cbuffer.bufferSize := by
  have hafter : cbWriteAvailable u.sm.cbuffer =
      ((if (x.sm.cbuffer.readPtr : Int) + (readTaken w x.sm x.sets).length + 1 = x.sm.cbuffer.bufferSize
        then 0 else x.sm.cbuffer.readPtr + (readTaken w x.sm x.sets).length : Nat) : Int) -
      (x.sm.cbuffer.writePtr + writeTaken w x.sm x.sets : Nat) := by
    rw [smExecute_cbuffer h hok]
    rfl
  have hbefore : cbWriteAvailable x.sm.cbuffer =
      (x.sm.cbuffer.readPtr : Int) - x.sm.cbuffer.writePtr := rfl
  rw [hafter, hbefore]
  split
  · rename_i hreset
    have hneg : ¬ (0 : Int) < ((0 : Nat) : Int) -
        (x.sm.cbuffer.writePtr + writeTaken w x.sm x.sets : Nat) := by omega
    exact ⟨fun hpos => absurd hpos hneg, fun hkeep => absurd hreset hkeep.2⟩
  · rename_i hon
    constructor
    · intro hpos
      exact ⟨by omega, hon⟩
    · rintro ⟨hlt, -⟩
      omega

/-- What rebuilding leaves: the read descriptor is in if there is room, the write descriptor if it
    was or if bytes are pending. -/
theorem rebuildSets_sets (z : Exec) :
    (z.sm.writeFd ∈ (rebuildSets z).sets.writeFds ↔
      z.sm.writeFd ∈ z.sets.writeFds ∨ 0 < cbWriteAvailable z.sm.cbuffer) ∧
    (z.sm.readFd ∈ (rebuildSets z).sets.readFds ↔ 0 < cbReadAvailable z.sm.cbuffer) ∧
    ((rebuildSets z).sm.readSuspended = false ↔ 0 < cbReadAvailable z.sm.cbuffer) := by
  have hwrite : z.sm.writeFd ∈ (if cbWriteAvailable z.sm.cbuffer > 0 then
      insert z.sm.writeFd z.sets.writeFds else z.sets.writeFds) ↔
      z.sm.writeFd ∈ z.sets.writeFds ∨ 0 < cbWriteAvailable z.sm.cbuffer := by
    by_cases hpos : cbWriteAvailable z.sm.cbuffer > 0
    · rw [if_pos hpos]
      exact iff_of_true (Finset.mem_insert_self _ _) (Or.inr hpos)
    · rw [if_neg hpos, or_iff_left hpos]
  unfold rebuildSets
  dsimp only
  by_cases hroom : cbReadAvailable z.sm.cbuffer > 0
  · rw [if_pos hroom]
    exact ⟨hwrite, iff_of_true (Finset.mem_insert_self _ _) hroom, iff_of_true rfl hroom⟩
  · rw [if_neg hroom]
    exact ⟨hwrite, iff_of_false (Finset.notMem_erase _ _) hroom, iff_of_false nofun hroom⟩

/-- **The sets after a call** that leaves a zero status. -/
theorem smExecute_sets {x u : Exec} (h : Sound size rfd wfd x.sm x.trace)
    (hok : smExecute w x = .ok u) (hstatus : u.status = smOk) :
    (wfd ∈ u.sets.writeFds ↔ wfd ∈ x.sets.writeFds ∨ 0 < cbWriteAvailable u.sm.cbuffer) ∧
    (rfd ∈ u.sets.readFds ↔ 0 < cbReadAvailable u.sm.cbuffer) ∧
    (u.sm.readSuspended = false ↔ 0 < cbReadAvailable u.sm.cbuffer) := by
  obtain ⟨y, hwrite, ⟨tr, -, herr⟩ | ⟨z, hread, hz⟩⟩ := smExecute_steps w h
  · rw [herr] at hok
    cases hok
  · obtain rfl := Except.ok.inj (hz.symm.trans hok)
    by_cases hne : z.status ≠ 0
    · rw [if_pos hne] at hstatus
      exact absurd hstatus hne
    · rw [if_neg hne, rebuildSets_cbuffer]
      have hz := hread.sound (hwrite.sound h)
      have hsets : z.sets = x.sets := hread.sets.trans hwrite.sets
      have hrebuilt := rebuildSets_sets z
      rw [hz.readFd, hz.writeFd, hsets] at hrebuilt
      exact hrebuilt

/-! ## One turn -/

/-- **After a turn** that leaves zero statuses the sets are exact if and only if both directions keep
    something pending for an output that was ready. -/
theorem runPair_exact (hne : A ≠ B) {s s' : Loop} (h : Inv size A B s) (hok : runPair w s = .ok s')
    (hA : s'.statusA2B = smOk) (hB : s'.statusB2A = smOk) :
    Exact s' ↔ KeepsPending w s.twc.smA2B s.sets ∧ KeepsPending w s.twc.smB2A s.sets := by
  obtain ⟨x, y, hx, hy, rfl⟩ := runPair_ok.mp hok
  have hinv := (runPair_inv hne h hok).1
  have hsecond := h.second hne hx
  obtain ⟨hwt, hrt⟩ := h.second_taken hne hx
  have hax := h.first hne hx
  have hay := smExecute_advances (Ne.symm hne) hsecond hy
  obtain ⟨hwx, hrx, hsx⟩ := smExecute_sets (x := execA2B s) h.a2b hx hA
  obtain ⟨hwy, hry, hsy⟩ := smExecute_sets hsecond hy hB
  have hpx := pending_after (x := execA2B s) h.a2b hx
  have hpy := pending_after hsecond hy
  -- neither call touches the entries of the other machine
  have hwx' : B ∈ y.sets.writeFds ↔ B ∈ s.sets.writeFds ∨ 0 < cbWriteAvailable x.sm.cbuffer :=
    hay.writeFds.trans hwx
  have hrx' : A ∈ y.sets.readFds ↔ 0 < cbReadAvailable x.sm.cbuffer := hay.readFds.trans hrx
  have hwy' : A ∈ y.sets.writeFds ↔ A ∈ s.sets.writeFds ∨ 0 < cbWriteAvailable y.sm.cbuffer := by
    rw [hwy]
    exact or_congr_left hax.writeFds
  have hkA : (B ∈ y.sets.writeFds ↔ 0 < cbWriteAvailable x.sm.cbuffer) ↔
      KeepsPending w s.twc.smA2B s.sets := by
    unfold KeepsPending
    rw [hwx', or_iff_right_iff_imp, h.a2b.writeFd]
    exact imp_congr_right fun _ => hpx
  have hkB : (A ∈ y.sets.writeFds ↔ 0 < cbWriteAvailable y.sm.cbuffer) ↔
      KeepsPending w s.twc.smB2A s.sets := by
    unfold KeepsPending
    rw [hwy', or_iff_right_iff_imp, h.b2a.writeFd, ← hwt, ← hrt]
    exact imp_congr_right fun _ => hpy
  rw [← hkA, ← hkB]
  constructor
  · rintro ⟨⟨hwA, -⟩, hwB, -⟩
    rw [hinv.a2b.writeFd] at hwA
    rw [hinv.b2a.writeFd] at hwB
    exact ⟨hwA, hwB⟩
  · rintro ⟨hwA, hwB⟩
    constructor
    · show (x.sm.writeFd ∈ _ ↔ _) ∧ (x.sm.readFd ∈ _ ↔ _) ∧ (x.sm.readFd ∈ _ ↔ _)
      rw [hax.sound.writeFd, hax.sound.readFd]
      exact ⟨hwA, hrx', hrx'.trans hsx.symm⟩
    · show (y.sm.writeFd ∈ _ ↔ _) ∧ (y.sm.readFd ∈ _ ↔ _) ∧ (y.sm.readFd ∈ _ ↔ _)
      rw [hay.sound.writeFd, hay.sound.readFd]
      exact ⟨hwB, hry, hry.trans hsy.symm⟩

/-! ## Runs -/

/-- **The start of a run.**  It finds empty sets, and leaves exact ones. -/
theorem exact_start (hsize : 2 ≤ size) (hne : A ≠ B) {s : Loop}
    (hs : twcRun (twcInit A B size) [] = .running s) : Exact s := by
  obtain ⟨s₁, hrun, hpair, -, hA, hB, -⟩ := twcRun_start hsize hne
  obtain rfl := Outcome.running.inj (hrun.symm.trans hs)
  have hinv : Inv size A B (twcStart (twcInit A B size)) := ⟨sound_init hsize, sound_init hsize⟩
  exact (runPair_exact hne hinv hpair hA hB).mpr
    ⟨fun hmem => absurd hmem (Finset.notMem_empty _), fun hmem => absurd hmem (Finset.notMem_empty _)⟩

/-- The turn keeps something pending in both directions, given what `select` leaves of the sets. -/
def TurnKeepsPending (s : Loop) (t : Turn) : Prop :=
  ∀ readable writable, t.select = .ready readable writable →
    KeepsPending t.wire s.twc.smA2B (s.sets.select readable writable) ∧
    KeepsPending t.wire s.twc.smB2A (s.sets.select readable writable)

/-- One turn, from exact sets to the next call of `select`. -/
theorem iterate_exact (hne : A ≠ B) {s s' : Loop} {t : Turn} (h : Inv size A B s) (hs : Exact s)
    (hrun : iterate s t = .running s') : Exact s' ↔ TurnKeepsPending s t := by
  rcases iterate_running hrun with ⟨e, hsel, rfl⟩ | ⟨readable, writable, hsel, hpair, hA, hB⟩
  · refine iff_of_true hs ?_
    intro readable writable hready
    rw [hsel] at hready
    cases hready
  · rw [runPair_exact hne (h.select (s.sets.select readable writable)) hpair hA hB]
    constructor
    · intro hkeep readable' writable' hready
      obtain ⟨rfl, rfl⟩ := SelectOutcome.ready.inj (hsel.symm.trans hready)
      exact hkeep
    · intro hkeep
      exact hkeep readable writable hsel

/-- **When the sets are exact.**  In a run, every call of `select` gets exact sets if and only if every
    turn after which the loop goes on keeps something pending for each output it found ready. -/
theorem exact_iff_keepsPending (size : Nat) (A B : Fd) (hsize : 2 ≤ size) (hne : A ≠ B)
    (ts : List Turn) :
    (∀ pre s, pre <+: ts → twcRun (twcInit A B size) pre = .running s → Exact s) ↔
      ∀ pre t s s', pre ++ [t] <+: ts → twcRun (twcInit A B size) pre = .running s →
        iterate s t = .running s' → TurnKeepsPending s t := by
  constructor
  · intro hall pre t s s' hpre hs hrun
    have hbefore := hall pre s ((List.prefix_append pre [t]).trans hpre) hs
    have hafter := hall (pre ++ [t]) s' hpre (twcRun_snoc_running.mpr ⟨s, hs, hrun⟩)
    exact (iterate_exact hne (twcRun_inv hsize hne hs) hbefore hrun).mp hafter
  · intro hkeep pre
    -- induction on the turns that led to the call of `select`
    induction pre using List.reverseRecOn with
    | nil =>
      intro s _ hs
      exact exact_start hsize hne hs
    | append_singleton pre t ih =>
      intro s' hpre hs'
      obtain ⟨s, hs, hrun⟩ := twcRun_snoc_running.mp hs'
      have hbefore := ih s ((List.prefix_append pre [t]).trans hpre) hs
      exact (iterate_exact hne (twcRun_inv hsize hne hs) hbefore hrun).mpr
        (hkeep pre t s s' hpre hs hrun)

theorem exact_iff_keepsPending_two_bytes :
    (∀ pre s, pre <+: [readTurn 3 [1, 2], writeTurn 4 1] →
      twcRun (twcInit 3 4 10) pre = .running s → Exact s) ↔
    ∀ pre t s s', pre ++ [t] <+: [readTurn 3 [1, 2], writeTurn 4 1] →
      twcRun (twcInit 3 4 10) pre = .running s → iterate s t = .running s' → TurnKeepsPending s t :=
  exact_iff_keepsPending 10 3 4 (by decide) (by decide) _

/-- One byte comes in and is written: nothing is pending, and the output is still watched. -/
theorem watched_in_vain : ¬ ∀ (size : Nat) (A B : Fd), 2 ≤ size → A ≠ B → ∀ (ts pre : List Turn) s,
    pre <+: ts → twcRun (twcInit A B size) pre = .running s → Exact s := by
  intro h
  have hexact := h 10 3 4 (by decide) (by decide) [readTurn 3 [1], writeTurn 4 1] _ _
    (List.prefix_refl _) rfl
  have hpending := hexact.1.1.mp (by decide)
  revert hpending
  decide

end Pixie.Twc
