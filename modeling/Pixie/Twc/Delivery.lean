/-
  The end of a tunnel: what `twc_run` leaves behind when it returns `SM_EOF`.

  `Delivered A B tr` says that everything received from either side has been sent to the other.
  `twc_run` returns as soon as one of the two statuses is not zero, and looks at what is pending in
  neither buffer, so this is a matter of what the LAST TURN meets.

  1. `Sound.delivered_iff` — one direction, at any point: everything was delivered if and only if
     the block was never filled and the two counts agree.

  2. `delivered_iff_drains` — the last turn: the counts agree after it if and only if its write
     took all that was pending before it and its read delivered nothing.

  3. `twcRun_returned` splits a run that returns at the turn it returns in, and `delivered_at_eof`
     is about all of them.
-/
import Pixie.Twc.Fidelity

namespace Pixie.Twc

open Pixie.Decimal Pixie.Net

variable {size : Nat} {rfd wfd A B : Fd}

/-- Everything read from either side has been written to the other. -/
def Delivered (A B : Fd) (tr : List Event) : Prop :=
  sentTo B tr = (receivedFrom A tr).map some ∧ sentTo A tr = (receivedFrom B tr).map some

/-- A direction has delivered everything if and only if its block was never filled and as many
    bytes were sent as received. -/
theorem Sound.delivered_iff {sm : StateMachine} {tr : List Event} (h : Sound size rfd wfd sm tr) :
    sentTo wfd tr = (receivedFrom rfd tr).map some ↔
      Below size (receivedFrom rfd tr).length ∧
      (sentTo wfd tr).length = (receivedFrom rfd tr).length := by
  constructor
  · intro heq
    have hlen : (sentTo wfd tr).length = (receivedFrom rfd tr).length := by
      rw [heq, List.length_map]
    exact ⟨hlen ▸ h.sent_below, hlen⟩
  · rintro ⟨hearly, hlen⟩
    obtain ⟨-, -, hpre⟩ := h.early hearly
    exact hpre.eq_of_length (by rw [hlen, List.length_map])

/-- A direction whose block was never filled, whose write takes in this turn all that is pending,
    and whose read brings nothing. -/
def Drains (size : Nat) (rfd : Fd) (w : Wire) (sm : StateMachine) (sets : FdSets)
    (tr : List Event) : Prop :=
  Below size (receivedFrom rfd tr).length ∧
  (writeTaken w sm sets : Int) = cbWriteAvailable sm.cbuffer ∧ readTaken w sm sets = []

/-- **The last turn of a direction**: it ends with everything delivered exactly if it drains. -/
theorem delivered_iff_drains {w : Wire} {sm sm' : StateMachine} {sets : FdSets}
    {tr tr' : List Event} (h : Sound size rfd wfd sm tr) (h' : Sound size rfd wfd sm' tr')
    (hsent : (sentTo wfd tr').length = (sentTo wfd tr).length + writeTaken w sm sets)
    (hrecv : receivedFrom rfd tr' = receivedFrom rfd tr ++ readTaken w sm sets) :
    sentTo wfd tr' = (receivedFrom rfd tr').map some ↔ Drains size rfd w sm sets tr := by
  have hlen : (receivedFrom rfd tr').length =
      (receivedFrom rfd tr).length + (readTaken w sm sets).length := by
    rw [hrecv, List.length_append]
  rw [h'.delivered_iff, hsent, hlen]
  constructor
  · rintro ⟨hearly', heq⟩
    have hearly : Below size (receivedFrom rfd tr).length := hearly'.mono (Nat.le_add_right _ _)
    have havail := h.cbWriteAvailable_eq hearly
    have hle := writeTaken_le w sm sets
    -- no more was taken than was pending, so nothing can have come in
    have hnone : (readTaken w sm sets).length = 0 := by
      have := (h.early hearly).2.2.length_le
      rw [List.length_map] at this
      omega
    exact ⟨hearly, by omega, List.length_eq_zero_iff.mp hnone⟩
  · rintro ⟨hearly, htaken, hnone⟩
    have havail := h.cbWriteAvailable_eq hearly
    rw [hnone, List.length_nil]
    exact ⟨hearly, by omega⟩

/-- The last turn drains both directions. -/
def DrainsBoth (size : Nat) (A B : Fd) (s : Loop) (t : Turn) : Prop :=
  ∃ readable writable, t.select = .ready readable writable ∧
    Drains size A t.wire s.twc.smA2B (s.sets.select readable writable) s.trace ∧
    Drains size B t.wire s.twc.smB2A (s.sets.select readable writable) s.trace

/-- **The turn in which `SM_EOF` is returned.** -/
theorem iterate_delivered_iff (hne : A ≠ B) {s s' : Loop} {t : Turn} (h : Inv size A B s)
    (hret : iterate s t = .returned smEof s') :
    Delivered A B s'.trace ↔ DrainsBoth size A B s t := by
  rcases iterate_cases s t with ⟨e, -, heq | heq⟩ |
    ⟨readable, writable, hsel, heq | ⟨tr, -, heq⟩ | ⟨s₁, hok, ⟨status, heq⟩ | heq⟩⟩
  · rw [heq] at hret
    cases hret
  · rw [heq] at hret
    exact absurd (Outcome.returned.inj hret).1 (by decide)
  · rw [heq] at hret
    exact absurd (Outcome.returned.inj hret).1 (by decide)
  · rw [heq] at hret
    cases hret
  · rw [heq] at hret
    obtain rfl := (Outcome.returned.inj hret).2
    have hsets := h.select (s.sets.select readable writable)
    obtain ⟨h₁, hsentB, hrecvA, hsentA, hrecvB⟩ := runPair_inv hne hsets hok
    have hA := delivered_iff_drains hsets.a2b h₁.a2b hsentB hrecvA
    have hB := delivered_iff_drains hsets.b2a h₁.b2a hsentA hrecvB
    constructor
    · rintro ⟨hdA, hdB⟩
      exact ⟨readable, writable, hsel, hA.mp hdA, hB.mp hdB⟩
    · rintro ⟨readable', writable', hsel', hdA, hdB⟩
      obtain ⟨rfl, rfl⟩ := SelectOutcome.ready.inj (hsel.symm.trans hsel')
      exact ⟨hA.mpr hdA, hB.mpr hdB⟩
  · rw [heq] at hret
    cases hret

/-- A run that returns does so in one of its turns. -/
theorem twcRun_returned (hsize : 2 ≤ size) (hne : A ≠ B) {ts : List Turn} {status : Int} {s' : Loop}
    (h : twcRun (twcInit A B size) ts = .returned status s') :
    ∃ pre t post s, ts = pre ++ t :: post ∧ twcRun (twcInit A B size) pre = .running s ∧
      iterate s t = .returned status s' := by
  induction ts using List.reverseRecOn with
  | nil =>
    obtain ⟨s, hrun, -⟩ := twcRun_nil hsize hne
    rw [hrun] at h
    cases h
  | append_singleton ts t ih =>
    rw [twcRun_snoc] at h
    cases hrun : twcRun (twcInit A B size) ts with
    | running s =>
      rw [hrun] at h
      exact ⟨ts, t, [], s, rfl, hrun, h⟩
    | returned status₁ s₁ =>
      rw [hrun] at h ih
      obtain ⟨pre, u, post, s, rfl, hs, hit⟩ := ih h
      exact ⟨pre, u, post ++ [t], s, by simp, hs, hit⟩
    | aborted tr =>
      rw [hrun] at h
      cases h

/-- **What is delivered at the end of file.**  A run that returns `SM_EOF` has written everything it
    read to the other side, in both directions, if and only if neither block was ever filled and
    the turn in which it returns drains both directions. -/
theorem delivered_at_eof (size : Nat) (A B : Fd) (hsize : 2 ≤ size) (hne : A ≠ B) (ts : List Turn)
    (s' : Loop) (hret : twcRun (twcInit A B size) ts = .returned smEof s') :
    ∃ pre t post s, ts = pre ++ t :: post ∧ twcRun (twcInit A B size) pre = .running s ∧
      iterate s t = .returned smEof s' ∧
      (Delivered A B s'.trace ↔ DrainsBoth size A B s t) := by
  obtain ⟨pre, t, post, s, hts, hrun, hit⟩ := twcRun_returned hsize hne hret
  exact ⟨pre, t, post, s, hts, hrun, hit, iterate_delivered_iff hne (twcRun_inv hsize hne hrun) hit⟩

theorem delivered_at_eof_two_bytes :
    ∃ s', twcRun (twcInit 3 4 10) [readTurn 3 [1, 2], writeTurn 4 2, readTurn 3 []] =
        .returned smEof s' ∧
      ∃ pre t post s, [readTurn 3 [1, 2], writeTurn 4 2, readTurn 3 []] = pre ++ t :: post ∧
        twcRun (twcInit 3 4 10) pre = .running s ∧ iterate s t = .returned smEof s' ∧
        (Delivered 3 4 s'.trace ↔ DrainsBoth 10 3 4 s t) :=
  ⟨_, rfl, delivered_at_eof 10 3 4 (by decide) (by decide) _ _ rfl⟩

/-- One byte and the end of file, while the other side does not take the byte. -/
theorem pending_dropped : ¬ ∀ (size : Nat) (A B : Fd), 2 ≤ size → A ≠ B →
    ∀ (ts : List Turn) (s' : Loop), twcRun (twcInit A B size) ts = .returned smEof s' →
    (∀ fd offered ret, Event.write fd offered ret ∈ s'.trace → 0 < ret) →
    Delivered A B s'.trace := by
  intro h
  have hdel := h 10000 3 4 (by decide) (by decide) [readTurn 3 [1], readTurn 3 []] _ rfl
    (by
      intro fd offered ret hmem
      have hmem : Event.write fd offered ret ∈ [Event.read 3 (some [1]), .read 3 (some [])] := hmem
      simp at hmem)
  have hsent := hdel.1
  revert hsent
  decide

end Pixie.Twc
