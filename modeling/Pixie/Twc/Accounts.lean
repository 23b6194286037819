/-
  Tunnel fidelity: nothing is lost, duplicated, reordered or overwritten.

  What has been read in a direction has either been written, or it is pending: it lies between the
  two pointers, where the next write will find it.  `Accounted` says so of one direction as an
  equation, what was sent and what is pending being together what was received.

  1. `Sound.accounted_iff` — whatever the schedule, a direction is accounted for if and only if its
     producer has never come to the last index of its block.  There the producer is sent back to the
     start, what was pending is forgotten, and the next bytes are stored over it.

  2. `iterate_early_iff` — a turn brings a producer to the last index if and only if one of its reads
     delivers exactly the bytes up to it (`TurnResets`), which is a matter of the state before
     the turn and of what the turn meets.

  3. `faithful_iff_neverResets` — a run is faithful at every point of its trace and accounted for in
     every state it comes to, if and only if none of its turns resets a producer.
-/
import Pixie.Twc.Failures

namespace Pixie.Twc

open Pixie.Decimal Pixie.Net Pixie.Run

/-- What lies between the two pointers, and a write is offered. -/
def Cbuffer.pending (cb : Cbuffer) : List (Option UInt8) := cb.window (cbWriteAvailable cb).toNat

/-- What was read from `rfd` is what was written to `wfd`, and behind it what is pending. -/
def Accounted (rfd wfd : Fd) (sm : StateMachine) (tr : List Event) : Prop :=
  sentTo wfd tr ++ sm.cbuffer.pending = (receivedFrom rfd tr).map some

/-- The read delivers exactly the bytes up to the last index of the block. -/
def Resets (w : Wire) (sm : StateMachine) (sets : FdSets) : Prop :=
  readTaken w sm sets ≠ [] ∧
    (sm.cbuffer.readPtr : Int) + (readTaken w sm sets).length + 1 = sm.cbuffer.bufferSize

/-- A read of the turn brings its producer to the last index, and no assertion fails. -/
def TurnResets (s : Loop) (t : Turn) : Prop :=
  ∃ readable writable, t.select = .ready readable writable ∧
    (Resets t.wire s.twc.smA2B (s.sets.select readable writable) ∨
     Resets t.wire s.twc.smB2A (s.sets.select readable writable)) ∧
    ¬ Fills t.wire s.twc.smA2B (s.sets.select readable writable) ∧
    ¬ Fills t.wire s.twc.smB2A (s.sets.select readable writable)

variable {size : Nat} {rfd wfd A B : Fd} {w : Wire}

/-! ## One direction -/

/-- The length of what is pending: all that the two pointers say. -/
theorem Sound.length_pending {sm : StateMachine} {tr : List Event} (h : Sound size rfd wfd sm tr) :
    sm.cbuffer.pending.length = (cbWriteAvailable sm.cbuffer).toNat := by
  have hlen := h.length
  have hle := h.readPtr_le
  have havail : cbWriteAvailable sm.cbuffer = (sm.cbuffer.readPtr : Int) - sm.cbuffer.writePtr := rfl
  simp only [Cbuffer.pending, Cbuffer.window, List.length_take, List.length_drop]
  omega

/-- **Accounts of a direction.** -/
theorem Sound.accounted_iff {sm : StateMachine} {tr : List Event} (h : Sound size rfd wfd sm tr) :
    Accounted rfd wfd sm tr ↔ Below size (receivedFrom rfd tr).length := by
  have hptr := h.writePtr_eq
  have havail : cbWriteAvailable sm.cbuffer = (sm.cbuffer.readPtr : Int) - sm.cbuffer.writePtr := rfl
  constructor
  · intro heq
    have hlen : (sentTo wfd tr).length + (cbWriteAvailable sm.cbuffer).toNat =
        (receivedFrom rfd tr).length := by
      rw [← h.length_pending, ← List.length_append, show _ ++ _ = _ from heq, List.length_map]
    -- as far as the consumer, or as far as the producer, whichever is in front
    rcases Nat.le_total sm.cbuffer.readPtr sm.cbuffer.writePtr with hle | hle
    · exact h.sent_below.mono (by omega)
    · exact h.readPtr_below.mono (by omega)
  · intro hbelow
    obtain ⟨hr, htake, hpre⟩ := h.early hbelow
    have hsent : sentTo wfd tr = ((receivedFrom rfd tr).map some).take sm.cbuffer.writePtr := by
      rw [hptr]
      exact List.prefix_iff_eq_take.mp hpre
    have hpending : sm.cbuffer.pending =
        ((receivedFrom rfd tr).map some).drop sm.cbuffer.writePtr := by
      rw [← htake, List.drop_take, Cbuffer.pending, Cbuffer.window]
      congr 1
      omega
    rw [Accounted, hsent, hpending, List.take_append_drop]

/-- A read that does not fill the block keeps the direction early unless it resets its producer. -/
theorem Sound.below_iff {sm : StateMachine} {sets : FdSets} {tr : List Event}
    (h : Sound size rfd wfd sm tr) (hbelow : Below size (receivedFrom rfd tr).length)
    (hfills : ¬ Fills w sm sets) :
    Below size ((receivedFrom rfd tr).length + (readTaken w sm sets).length) ↔
      ¬ Resets w sm sets := by
  have hsize := h.bufferSize
  have hr := (h.early hbelow).1
  have hle := @readTaken_length_le w sm sets
  rw [cbReadAvailable_eq] at hle
  unfold Fills Resets Below at *
  rw [← List.length_pos_iff] at hfills ⊢
  omega

/-! ## Turns -/

/-- Both directions are accounted for. -/
structure AccountedBoth (A B : Fd) (s : Loop) : Prop where
  a2b : Accounted A B s.twc.smA2B s.trace
  b2a : Accounted B A s.twc.smB2A s.trace

theorem Inv.accounted_iff {s : Loop} (h : Inv size A B s) :
    AccountedBoth A B s ↔ Early size A B s := by
  constructor
  · intro hacc
    exact ⟨h.a2b.accounted_iff.mp hacc.a2b, h.b2a.accounted_iff.mp hacc.b2a⟩
  · intro hearly
    exact ⟨h.a2b.accounted_iff.mpr hearly.a2b, h.b2a.accounted_iff.mpr hearly.b2a⟩

/-- **One turn**, begun early: unless it resets a producer, so is the next. -/
theorem runPair_early_iff (hne : A ≠ B) {s s' : Loop} (h : Inv size A B s)
    (hearly : Early size A B s) (hA : ¬ Fills w s.twc.smA2B s.sets)
    (hB : ¬ Fills w s.twc.smB2A s.sets) (hok : runPair w s = .ok s') :
    Early size A B s' ↔ ¬ (Resets w s.twc.smA2B s.sets ∨ Resets w s.twc.smB2A s.sets) := by
  obtain ⟨-, -, hrecvA, -, hrecvB⟩ := runPair_inv hne h hok
  have hlenA : (receivedFrom A s'.trace).length =
      (receivedFrom A s.trace).length + (readTaken w s.twc.smA2B s.sets).length := by
    rw [hrecvA, List.length_append]
  have hlenB : (receivedFrom B s'.trace).length =
      (receivedFrom B s.trace).length + (readTaken w s.twc.smB2A s.sets).length := by
    rw [hrecvB, List.length_append]
  rw [not_or, ← h.a2b.below_iff hearly.a2b hA, ← h.b2a.below_iff hearly.b2a hB, ← hlenA, ← hlenB]
  exact ⟨fun hearly' => ⟨hearly'.a2b, hearly'.b2a⟩, fun hboth => ⟨hboth.1, hboth.2⟩⟩

/-- Where nothing is ready to be read nothing is reset. -/
theorem not_resets_of_empty {sm : StateMachine} {sets : FdSets} (h : sets.readFds = ∅) :
    ¬ Resets w sm sets := by
  rintro ⟨hne, -⟩
  refine hne (readTaken_of_not_reads ?_)
  rintro ⟨hmem, -⟩
  rw [h] at hmem
  exact Finset.notMem_empty _ hmem

/-- What it is for a turn whose `select` has answered. -/
theorem turnResets_iff {s : Loop} {t : Turn} {readable writable : Finset Fd}
    (hsel : t.select = .ready readable writable) :
    TurnResets s t ↔
      (Resets t.wire s.twc.smA2B (s.sets.select readable writable) ∨
        Resets t.wire s.twc.smB2A (s.sets.select readable writable)) ∧
      ¬ Fills t.wire s.twc.smA2B (s.sets.select readable writable) ∧
      ¬ Fills t.wire s.twc.smB2A (s.sets.select readable writable) := by
  constructor
  · rintro ⟨readable', writable', hready, hturn⟩
    obtain ⟨rfl, rfl⟩ := SelectOutcome.ready.inj (hsel.symm.trans hready)
    exact hturn
  · intro hturn
    exact ⟨readable, writable, hsel, hturn⟩

/-- Two calls that return lead to the state they leave, whatever the iteration does then. -/
theorem iterate_called_state {s s' : Loop} {t : Turn} {readable writable : Finset Fd}
    (hsel : t.select = .ready readable writable)
    (hcard : (s.sets.select readable writable).readFds.card +
      (s.sets.select readable writable).writeFds.card > 0)
    (hpair : runPair t.wire { s with sets := s.sets.select readable writable } = .ok s') :
    (iterate s t).state = some s' := by
  rw [iterate_called hsel hcard hpair]
  split
  · rfl
  · split
    · rfl
    · rfl

/-- **One iteration**, begun early, that comes to a state. -/
theorem iterate_early_iff (hne : A ≠ B) {s s' : Loop} {t : Turn} (h : Inv size A B s)
    (hstatus : s.statusA2B = smOk ∧ s.statusB2A = smOk) (hearly : Early size A B s)
    (hs' : (iterate s t).state = some s') : Early size A B s' ↔ ¬ TurnResets s t := by
  cases hsel : t.select with
  | fails e =>
    have htr : s'.trace = s.trace := by
      rw [iterate_fails hsel] at hs'
      split at hs'
      · rw [← Option.some.inj hs']
      · rw [← Option.some.inj hs']
    refine iff_of_true ⟨htr ▸ hearly.a2b, htr ▸ hearly.b2a⟩ ?_
    rintro ⟨readable, writable, hready, -⟩
    rw [hsel] at hready
    cases hready
  | ready readable writable =>
    rw [turnResets_iff hsel]
    by_cases hcard : (s.sets.select readable writable).readFds.card +
        (s.sets.select readable writable).writeFds.card > 0
    · have hinv := h.select (s.sets.select readable writable)
      obtain ⟨-, herror, -⟩ := runPair_failures (w := t.wire) hne hinv hstatus.1 hstatus.2
      cases hpair : runPair t.wire { s with sets := s.sets.select readable writable } with
      | error tr =>
        rw [iterate_aborted hsel hcard hpair] at hs'
        cases hs'
      | ok s₁ =>
        obtain rfl := Option.some.inj ((iterate_called_state hsel hcard hpair).symm.trans hs')
        have hfills := mt herror.mpr (by rw [hpair]; rintro ⟨tr, htr⟩; cases htr)
        obtain ⟨hA, hB⟩ := not_or.mp hfills
        rw [and_iff_left ⟨hA, hB⟩]
        exact runPair_early_iff hne hinv ⟨hearly.a2b, hearly.b2a⟩ hA hB hpair
    · -- the time-out makes no call
      have hempty : (s.sets.select readable writable).readFds = ∅ :=
        Finset.card_eq_zero.mp (by omega)
      rw [iterate_timeout hsel hcard] at hs'
      rw [← Option.some.inj hs']
      refine iff_of_true ⟨hearly.a2b, hearly.b2a⟩ ?_
      rintro ⟨hA | hB, -⟩
      · exact not_resets_of_empty hempty hA
      · exact not_resets_of_empty hempty hB

/-- A turn that resets a producer comes to a state. -/
theorem TurnResets.state (hne : A ≠ B) {s : Loop} {t : Turn} (h : Inv size A B s)
    (hstatus : s.statusA2B = smOk ∧ s.statusB2A = smOk) (hresets : TurnResets s t) :
    ∃ s', (iterate s t).state = some s' := by
  obtain ⟨readable, writable, hsel, -, hA, hB⟩ := hresets
  by_cases hcard : (s.sets.select readable writable).readFds.card +
      (s.sets.select readable writable).writeFds.card > 0
  · obtain ⟨-, herror, -⟩ := runPair_failures (w := t.wire) hne
      (h.select (s.sets.select readable writable)) hstatus.1 hstatus.2
    cases hpair : runPair t.wire { s with sets := s.sets.select readable writable } with
    | error tr => exact absurd (herror.mp ⟨tr, hpair⟩) (not_or.mpr ⟨hA, hB⟩)
    | ok s' => exact ⟨s', iterate_called_state hsel hcard hpair⟩
  · rw [iterate_timeout hsel hcard]
    exact ⟨_, rfl⟩

/-! ## Runs -/

/-- Every state of a run is early if no turn of it resets a producer. -/
theorem twcRun_early (hsize : 2 ≤ size) (hne : A ≠ B) {ts : List Turn}
    (hnever : ∀ pre t post s, ts = pre ++ t :: post →
      twcRun (twcInit A B size) pre = .running s → ¬ TurnResets s t) :
    ∀ s, (twcRun (twcInit A B size) ts).state = some s → Early size A B s := by
  induction ts using List.reverseRecOn with
  | nil =>
    intro s hs
    obtain ⟨s₁, hrun, -, htr⟩ := twcRun_nil hsize hne
    rw [hrun] at hs
    obtain rfl := Option.some.inj hs
    constructor
    · rw [htr]
      exact below_zero size
    · rw [htr]
      exact below_zero size
  | append_singleton ts t ih =>
    intro s' hs'
    have hbefore := ih fun pre u post s hts hs =>
      hnever pre u (post ++ [t]) s (by rw [hts]; simp) hs
    rw [twcRun_snoc] at hs'
    cases hrun : twcRun (twcInit A B size) ts with
    | running s =>
      rw [hrun] at hs' hbefore
      exact (iterate_early_iff hne (twcRun_inv hsize hne hrun) (twcRun_status hsize hne hrun)
        (hbefore s rfl) hs').mpr (hnever ts t [] s rfl hrun)
    | returned status s =>
      rw [hrun] at hs' hbefore
      exact hbefore s' hs'
    | aborted tr =>
      rw [hrun] at hs'
      cases hs'

/-- **Fidelity.**  At every point of a run what was written to each side is a prefix of what was read
    from the other, and in every state it comes to the bytes read and not yet written are pending,
    if and only if no turn of the run resets a producer. -/
theorem faithful_iff_neverResets (size : Nat) (A B : Fd) (hsize : 2 ≤ size) (hne : A ≠ B)
    (ts : List Turn) :
    (Always (fun tr => sentTo B tr <+: (receivedFrom A tr).map some ∧
        sentTo A tr <+: (receivedFrom B tr).map some) (twcRun (twcInit A B size) ts).trace ∧
      ∀ pre s, pre <+: ts → (twcRun (twcInit A B size) pre).state = some s → AccountedBoth A B s) ↔
    ∀ pre t post s, ts = pre ++ t :: post → twcRun (twcInit A B size) pre = .running s →
      ¬ TurnResets s t := by
  constructor
  · rintro ⟨-, hacc⟩ pre t post s hts hs hresets
    have hinv := twcRun_inv hsize hne hs
    have hstatus := twcRun_status hsize hne hs
    have hpre : pre ++ [t] <+: ts := ⟨post, by rw [hts]; simp⟩
    have hearly := hinv.accounted_iff.mp
      (hacc pre s ((List.prefix_append pre [t]).trans hpre) (by rw [hs]; rfl))
    obtain ⟨s', hs'⟩ := hresets.state hne hinv hstatus
    have hnext := hacc (pre ++ [t]) s' hpre (by rw [twcRun_snoc, hs]; exact hs')
    exact (iterate_early_iff hne hinv hstatus hearly hs').mp
      ((iterate_state_inv hne hinv hs').accounted_iff.mp hnext) hresets
  · intro hnever
    -- the condition passes to the initial parts of the run
    have hearly : ∀ pre s, pre <+: ts → (twcRun (twcInit A B size) pre).state = some s →
        Early size A B s := by
      rintro pre s ⟨rest, rfl⟩ hs
      refine twcRun_early hsize hne ?_ s hs
      intro pre' t post s' hpre hs'
      exact hnever pre' t (post ++ rest) s' (by rw [hpre]; simp) hs'
    constructor
    · refine faithful_of_early hsize hne ?_
      intro pre t post s hts hs
      exact hearly pre s ⟨t :: post, hts.symm⟩ (by rw [hs]; rfl)
    · intro pre s hpre hs
      exact (twcRun_state_inv hsize hne hs).accounted_iff.mpr (hearly pre s hpre hs)

theorem faithful_iff_neverResets_three_bytes :
    (Always (fun tr => sentTo 4 tr <+: (receivedFrom 3 tr).map some ∧
        sentTo 3 tr <+: (receivedFrom 4 tr).map some)
        (twcRun (twcInit 3 4 10) [readTurn 3 [1, 2, 3], writeTurn 4 2]).trace ∧
      ∀ pre s, pre <+: [readTurn 3 [1, 2, 3], writeTurn 4 2] →
        (twcRun (twcInit 3 4 10) pre).state = some s → AccountedBoth 3 4 s) ↔
    ∀ pre t post s, [readTurn 3 [1, 2, 3], writeTurn 4 2] = pre ++ t :: post →
      twcRun (twcInit 3 4 10) pre = .running s → ¬ TurnResets s t :=
  faithful_iff_neverResets 10 3 4 (by decide) (by decide) _

/-- Nine bytes fill a block of ten: the producer is reset, and the consumer sends what comes next. -/
theorem overwritten : ¬ ∀ (size : Nat) (A B : Fd), 2 ≤ size → A ≠ B → ∀ ts : List Turn,
    Always (fun tr => sentTo B tr <+: (receivedFrom A tr).map some ∧
      sentTo A tr <+: (receivedFrom B tr).map some) (twcRun (twcInit A B size) ts).trace := by
  intro h
  have hlast := (h 10 3 4 (by decide) (by decide) [readTurn 3 [1, 2, 3, 4, 5, 6, 7, 8, 9],
    readTurn 3 [10, 11, 12], writeTurn 4 3]).last.1
  revert hlast
  decide

end Pixie.Twc
