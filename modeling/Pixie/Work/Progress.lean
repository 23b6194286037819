/-
  The work queue makes progress.

  `Busy` is a step of a thread that is inside `add` or `remove` and awake: no new call, no spurious
  wake-up.  The broadcast sends waiting threads back to the mutex, so the steps that are left are not
  simply fewer after each step; but there are only as many broadcasts as there are calls of `add`.

  1. `busy_wellFounded` — every run of such steps ends.  What goes down is the pair of what is left of
     the `add`s and, for the same value of that, of the `remove`s.

  2. `enabled_of_holds` — the thread that has the mutex can always go on, so in a state in which nothing
     is left to be done the mutex is free and nobody wants it.

  3. `queue_settles` — **no deadlock and no lost wake-up**: left to themselves the threads come to rest,
     and then every `add` has returned and every `remove` has returned or waits at an empty queue.
-/
import Mathlib.Algebra.Order.BigOperators.Group.Finset
import Mathlib.Data.Fintype.BigOperators
import Pixie.Work.Threads

namespace Pixie.Work

open Pixie.Net Pixie.Run

variable {T : Type} [DecidableEq T] {s s' : Machine T} {t u : T}

/-- A step of a thread that is inside and awake. -/
def Busy (s s' : Machine T) : Prop := ∃ t, s.pc t ≠ .outside ∧ s.pc t ≠ .wait ∧ MStep s t s'

theorem Busy.steps (h : Busy s s') : Steps s s' := by
  obtain ⟨t, -, -, hs⟩ := h
  exact ⟨t, hs⟩

/-! ## Every run ends -/

/-- What is left of an `add`. -/
def addRank : Pc → Nat
  | .addLock _ => 4
  | .addPush _ => 3
  | .addTest => 2
  | .addUnlock => 1
  | _ => 0

/-- What is left of a `remove`, up to its return or its wait. -/
def removeRank : Pc → Nat
  | .removeLock | .relock => 4
  | .removeTest => 3
  | .removePop => 2
  | .removeUnlock _ => 1
  | _ => 0

section Measure

variable [Fintype T]

def addsLeft (s : Machine T) : Nat := ∑ t, addRank (s.pc t)

def removesLeft (s : Machine T) : Nat := ∑ t, removeRank (s.pc t)

/-- Fewer operations of `add`s are left, or as many and fewer of `remove`s. -/
def Less (s' s : Machine T) : Prop :=
  addsLeft s' < addsLeft s ∨ (addsLeft s' = addsLeft s ∧ removesLeft s' < removesLeft s)

/-- One thread goes on and the others stay. -/
theorem sum_lt_of_moved {f : Pc → Nat} (hmoved : f (s'.pc t) < f (s.pc t))
    (hothers : ∀ u, u ≠ t → f (s'.pc u) = f (s.pc u)) : ∑ u, f (s'.pc u) < ∑ u, f (s.pc u) := by
  refine Finset.sum_lt_sum (fun u _ => ?_) ⟨t, Finset.mem_univ t, hmoved⟩
  by_cases hut : u = t
  · rw [hut]
    exact Nat.le_of_lt hmoved
  · exact Nat.le_of_eq (hothers u hut)

theorem Less.add (hmoved : addRank (s'.pc t) < addRank (s.pc t))
    (hothers : ∀ u, u ≠ t → addRank (s'.pc u) = addRank (s.pc u)) : Less s' s :=
  .inl (sum_lt_of_moved hmoved hothers)

theorem Less.remove (hadd : addRank (s'.pc t) = addRank (s.pc t))
    (hmoved : removeRank (s'.pc t) < removeRank (s.pc t))
    (hothers : ∀ u, u ≠ t → s'.pc u = s.pc u) : Less s' s := by
  refine .inr ⟨Finset.sum_congr rfl fun u _ => ?_, sum_lt_of_moved hmoved fun u hu => ?_⟩
  · by_cases hut : u = t
    · rw [hut, hadd]
    · rw [hothers u hut]
  · rw [hothers u hu]

omit [DecidableEq T] in
theorem less_wellFounded : WellFounded (Less (T := T)) := by
  have hlex := (Prod.lex Nat.lt_wfRel Nat.lt_wfRel).wf
  refine (InvImage.wf (fun s : Machine T => (addsLeft s, removesLeft s)) hlex).mono ?_
  rintro s' s (hadds | ⟨hadds, hremoves⟩)
  · exact Prod.Lex.left _ _ hadds
  · show Prod.Lex _ _ (addsLeft s', removesLeft s') (addsLeft s, removesLeft s)
    rw [hadds]
    exact Prod.Lex.right _ hremoves

theorem busy_less (h : Busy s s') : Less s' s := by
  obtain ⟨t, hout, hwait, hs⟩ := h
  have hothers : ∀ p u, u ≠ t → (s.goto t p).pc u = s.pc u := fun p u hu => goto_pc_of_ne s p hu
  -- a step of an `add`, and one of a `remove`, that moves its own thread only
  have adds : ∀ p, s'.pc = (s.goto t p).pc → addRank p < addRank (s.pc t) → Less s' s := by
    intro p hpc hlt
    refine Less.add (t := t) ?_ fun u hu => ?_
    · rw [hpc, goto_pc_self]
      exact hlt
    · rw [hpc, hothers p u hu]
  have removes : ∀ p, s'.pc = (s.goto t p).pc → addRank p = addRank (s.pc t) →
      removeRank p < removeRank (s.pc t) → Less s' s := by
    intro p hpc heq hlt
    refine Less.remove (t := t) ?_ ?_ fun u hu => ?_
    · rw [hpc, goto_pc_self]
      exact heq
    · rw [hpc, goto_pc_self]
      exact hlt
    · rw [hpc, hothers p u hu]
  cases hs with
  | callAdd a hp => exact absurd hp hout
  | callRemove hp => exact absurd hp hout
  | lockAdd a hp _ => exact adds (.addPush a) rfl (by simp [hp, addRank])
  | push a hp => exact adds .addTest rfl (by simp [hp, addRank])
  | notify hp _ =>
    -- the notified threads have more to do, but not of an `add`
    refine Less.add (t := t) ?_ fun u hu => ?_
    · rw [goto_pc_self, hp]
      decide
    · rw [goto_pc_of_ne _ _ hu]
      show addRank (notifyAll s.pc u) = _
      unfold notifyAll
      split
      · next hw =>
        rw [hw]
        rfl
      · rfl
  | keepQuiet hp _ => exact adds .addUnlock rfl (by rw [hp]; decide)
  | unlockAdd hp => exact adds .outside rfl (by rw [hp]; decide)
  | lockRemove hp _ =>
    rcases hp with hp | hp
    · exact removes .removeTest rfl (by rw [hp]; rfl) (by rw [hp]; decide)
    · exact removes .removeTest rfl (by rw [hp]; rfl) (by rw [hp]; decide)
  | wait hp _ => exact removes .wait rfl (by rw [hp]; rfl) (by rw [hp]; decide)
  | leaveLoop hp _ => exact removes .removePop rfl (by rw [hp]; rfl) (by rw [hp]; decide)
  | pop r rest hp _ => exact removes (.removeUnlock r) rfl (by rw [hp]; rfl) (by simp [hp, removeRank])
  | unlockRemove r hp => exact removes .outside rfl (by rw [hp]; rfl) (by simp [hp, removeRank])
  | spurious hp => exact absurd hp hwait

end Measure

/-- **Every run ends.** -/
theorem busy_wellFounded [Finite T] : WellFounded fun s' s : Machine T => Busy s s' := by
  obtain ⟨_⟩ := nonempty_fintype T
  exact less_wellFounded.mono fun _ _ h => busy_less h

/-! ## Where a run ends -/

/-- Only a thread inside a critical section has the mutex. -/
def Kept (s : Machine T) : Prop := ∀ t, s.mutex = some t → (s.pc t).holds = true

/-- The thread that moves has the mutex afterwards only if it is in a critical section, and another
    one that has it stays where it is. -/
theorem Kept.step (h : Kept s) (hmutex : s'.mutex = s.mutex ∨ s'.mutex = none ∨ s'.mutex = some t)
    (hself : s'.mutex = some t → (s'.pc t).holds = true)
    (hothers : ∀ u, u ≠ t → s.mutex = some u → s'.pc u = s.pc u) : Kept s' := by
  intro u hu
  by_cases hut : u = t
  · rw [hut] at hu ⊢
    exact hself hu
  · rcases hmutex with heq | hnone | hmine
    · rw [heq] at hu
      rw [hothers u hut hu]
      exact h u hu
    · rw [hnone] at hu
      cases hu
    · exact absurd (Option.some.inj (hu.symm.trans hmine)) hut

theorem kept_step (s s' : Machine T) (h : Kept s) (hs : Steps s s') : Kept s' := by
  obtain ⟨t, hs⟩ := hs
  have hgoto : ∀ p u, u ≠ t → s.mutex = some u → (s.goto t p).pc u = s.pc u :=
    fun p u hu _ => goto_pc_of_ne s p hu
  -- a thread outside of the critical sections does not have the mutex
  have hfree : ∀ p, s.pc t = p → p.holds = false → s.mutex ≠ some t := by
    intro p hp hout hm
    have := h t hm
    rw [hp, hout] at this
    cases this
  have hself : ∀ (s : Machine T) p, p.holds = true → ((s.goto t p).pc t).holds = true := by
    intro s p hp
    rw [goto_pc_self]
    exact hp
  cases hs with
  | callAdd a hp =>
    exact h.step (.inl rfl) (fun hm => absurd hm (hfree _ hp rfl)) (hgoto (.addLock a))
  | callRemove hp =>
    exact h.step (.inl rfl) (fun hm => absurd hm (hfree _ hp rfl)) (hgoto .removeLock)
  | lockAdd a hp hm =>
    exact h.step (.inr (.inr rfl)) (fun _ => hself s (.addPush a) rfl) (hgoto (.addPush a))
  | push a hp => exact h.step (.inl rfl) (fun _ => hself s .addTest rfl) (hgoto .addTest)
  | notify hp hq =>
    refine h.step (t := t) (.inl rfl) (fun _ => hself _ .addUnlock rfl) fun u hut hu => ?_
    rw [goto_pc_of_ne _ _ hut]
    exact notifyAll_of_holds (h u hu)
  | keepQuiet hp hq => exact h.step (.inl rfl) (fun _ => hself s .addUnlock rfl) (hgoto .addUnlock)
  | unlockAdd hp => exact h.step (.inr (.inl rfl)) nofun (hgoto .outside)
  | lockRemove hp hm =>
    exact h.step (.inr (.inr rfl)) (fun _ => hself s .removeTest rfl) (hgoto .removeTest)
  | wait hp hq => exact h.step (.inr (.inl rfl)) nofun (hgoto .wait)
  | leaveLoop hp hq => exact h.step (.inl rfl) (fun _ => hself s .removePop rfl) (hgoto .removePop)
  | pop r rest hp hq =>
    exact h.step (.inl rfl) (fun _ => hself s (.removeUnlock r) rfl) (hgoto (.removeUnlock r))
  | unlockRemove r hp => exact h.step (.inr (.inl rfl)) nofun (hgoto .outside)
  | spurious hp =>
    exact h.step (.inl rfl) (fun hm => absurd hm (hfree _ hp rfl)) (hgoto .relock)

omit [DecidableEq T] in
theorem kept_init (s : Machine T) (h : MInit s) : Kept s := by
  obtain ⟨hm, -⟩ := h
  intro t ht
  rw [hm] at ht
  cases ht

theorem kept_reachable (h : Reachable MInit Steps s) : Kept s := h.invariant kept_init kept_step

/-- **The thread that has the mutex can go on.** -/
theorem enabled_of_holds (howned : Owned s) (hp : (s.pc t).holds = true) : ∃ s', Busy s s' := by
  have hbusy : ∀ s', MStep s t s' → ∃ s', Busy s s' := by
    intro s' hs
    refine ⟨s', t, ?_, ?_, hs⟩
    · intro hc
      rw [hc] at hp
      cases hp
    · intro hc
      rw [hc] at hp
      cases hp
  cases hpc : s.pc t with
  | addPush a => exact hbusy _ (.push a hpc)
  | addTest =>
    by_cases hq : s.q.length = 1
    · exact hbusy _ (.notify hpc hq)
    · exact hbusy _ (.keepQuiet hpc hq)
  | addUnlock => exact hbusy _ (.unlockAdd hpc)
  | removeTest =>
    by_cases hq : s.q.length = 0
    · exact hbusy _ (.wait hpc hq)
    · exact hbusy _ (.leaveLoop hpc hq)
  | removePop =>
    obtain ⟨r, rest, hq⟩ := List.exists_cons_of_ne_nil (howned.nonempty t hpc)
    exact hbusy _ (.pop r rest hpc hq)
  | removeUnlock r => exact hbusy _ (.unlockRemove r hpc)
  | _ =>
    rw [hpc] at hp
    cases hp

/-- With nothing left to be done, the mutex is free. -/
theorem mutex_of_stuck (howned : Owned s) (hkept : Kept s) (hstuck : ∀ s', ¬ Busy s s') :
    s.mutex = none := by
  cases hm : s.mutex with
  | none => rfl
  | some u =>
    obtain ⟨s', hs⟩ := enabled_of_holds howned (hkept u hm)
    exact absurd hs (hstuck s')

/-- And every thread is outside or waits. -/
theorem pc_of_stuck (howned : Owned s) (hkept : Kept s) (hstuck : ∀ s', ¬ Busy s s') (t : T) :
    s.pc t = .outside ∨ s.pc t = .wait := by
  have hfree := mutex_of_stuck howned hkept hstuck
  have hnot : ∀ s', MStep s t s' → s.pc t ≠ .outside → s.pc t ≠ .wait → False :=
    fun s' hs hout hwait => hstuck s' ⟨t, hout, hwait, hs⟩
  have hholds : (s.pc t).holds ≠ true := by
    intro hh
    obtain ⟨s', hs⟩ := enabled_of_holds howned hh
    exact hstuck s' hs
  cases hpc : s.pc t with
  | outside => exact .inl rfl
  | wait => exact .inr rfl
  | addLock a => exact (hnot _ (.lockAdd a hpc hfree) (by rw [hpc]; nofun) (by rw [hpc]; nofun)).elim
  | removeLock =>
    exact (hnot _ (.lockRemove (.inl hpc) hfree) (by rw [hpc]; nofun) (by rw [hpc]; nofun)).elim
  | relock =>
    exact (hnot _ (.lockRemove (.inr hpc) hfree) (by rw [hpc]; nofun) (by rw [hpc]; nofun)).elim
  | _ => exact absurd (by rw [hpc]; rfl) hholds

/-- Reachable states stay so. -/
theorem reachable_busy (h : Reachable MInit Steps s) (hs : Relation.ReflTransGen Busy s s') :
    Reachable MInit Steps s' := by
  induction hs with
  | refl => exact h
  | tail _ hs ih => exact ih.next hs.steps

/-- **The queue settles.**  From every reachable state, the threads that are inside `add` and `remove`
    come to rest after finitely many operations, in whatever order they take them.  Then no `add` is
    under way; a `remove` is under way only if it waits and nothing is queued; and what was removed,
    followed by what is queued, is what was added. -/
theorem queue_settles [Finite T] (s : Machine T) (h : Reachable MInit Steps s) :
    Acc (fun s' s => Busy s s') s ∧
    ∀ s', Relation.ReflTransGen Busy s s' → (∀ s'', ¬ Busy s' s'') →
      (∀ t, s'.pc t = .outside ∨ (s'.pc t = .wait ∧ s'.q = [])) ∧
        s'.removed.map Prod.snd ++ s'.q = s'.added := by
  refine ⟨busy_wellFounded.apply s, ?_⟩
  intro s' hrun hstuck
  have hreach := reachable_busy h hrun
  have howned := owned_reachable s' hreach
  have hkept := kept_reachable hreach
  have hinv := inv_reachable (refines hreach)
  refine ⟨fun t => (pc_of_stuck howned hkept hstuck t).imp_right fun hwait => ⟨hwait, ?_⟩, hinv.account⟩
  by_contra hne
  -- no broadcast is due, so the thread that waits is not notified
  have hdue : s'.broadcastDue = false :=
    broadcastDue_eq_false (t := t) (.inl (mutex_of_stuck howned hkept hstuck)) (by rw [hwait]; nofun)
  apply hinv.no_waiter hne t
  show (s'.pc t).position s'.broadcastDue = .waiting
  rw [hdue, hwait]
  rfl

/-- A worker waits, and the listener has pushed: left to themselves they hand the value over. -/
theorem queue_settles_woken : ∃ s : Machine Bool, s.pc true = .wait ∧ s.pc false = .addTest ∧
    s.q = [7] ∧ Acc (fun s' s => Busy s s') s ∧
    ∀ s', Relation.ReflTransGen Busy s s' → (∀ s'', ¬ Busy s' s'') →
      (∀ t, s'.pc t = .outside ∨ (s'.pc t = .wait ∧ s'.q = [])) ∧
        s'.removed.map Prod.snd ++ s'.q = s'.added := by
  have h0 : Reachable MInit Steps (⟨none, [], fun _ => .outside, [], []⟩ : Machine Bool) :=
    .start ⟨rfl, rfl, rfl, rfl, fun _ => rfl⟩
  have h1 := h0.next ⟨true, .callRemove rfl⟩
  have h2 := h1.next ⟨true, .lockRemove (.inl rfl) rfl⟩
  have h3 := h2.next ⟨true, .wait rfl rfl⟩
  have h4 := h3.next ⟨false, .callAdd 7 rfl⟩
  have h5 := h4.next ⟨false, .lockAdd 7 rfl rfl⟩
  have h6 := h5.next ⟨false, .push 7 rfl⟩
  exact ⟨_, rfl, rfl, rfl, queue_settles _ h6⟩

end Pixie.Work
