/-
  The work queue at the level of single operations, and its refinement.

  Here a thread runs the text of `Queue::add` and `Queue::remove` one operation at a time: it takes
  the mutex when it is free, tests `q.size()`, pushes, pops, broadcasts, waits (which frees the mutex)
  and unlocks, and any other thread may run between two of these.  A waiting thread that was notified
  competes for the mutex like everybody else.

  1. `Owned` — the mutex works: a thread inside a critical section holds it, so there is at most one;
     and a thread that is past the loop of `remove` finds a value (`Owned.nonempty`), so that
     `q[0]` is never taken of an empty queue.

  2. `abs` — what the state amounts to at the level of the lock-protected steps.  A step takes
     effect at its push, its pop or its wait.  The broadcast of an `add` comes after its push; while
     it is due (`broadcastDue`), the threads it will notify count as notified.

  3. `refines` — every reachable state amounts to a reachable state of the abstract queue, so the
     invariant of the abstract queue holds of the code (`threads_correct`): the only moment at which
     something is queued and somebody is waiting un-notified is the one between the push and the
     broadcast of an `add` that is holding the mutex.
-/
import Pixie.Work.Queue

namespace Pixie.Work

open Pixie.Net Pixie.Run

variable {T : Type} [DecidableEq T]

/-- The operation that a thread is about to execute. -/
inductive Pc
  | outside
  | addLock (a : Fd)
  | addPush (a : Fd)
  | addTest
  | addUnlock
  | removeLock
  | removeTest
  | wait
  | relock
  | removePop
  | removeUnlock (r : Fd)
deriving DecidableEq, Repr

/-- Inside a critical section. -/
def Pc.holds : Pc → Bool
  | addPush _ | addTest | addUnlock | removeTest | removePop | removeUnlock _ => true
  | _ => false

/-- The shared state, where each thread is, and what has been done. -/
structure Machine (T : Type) where
  mutex : Option T
  q : List Fd
  pc : T → Pc
  added : List Fd
  removed : List (T × Fd)

/-- A thread goes on to its next operation. -/
def Machine.goto (s : Machine T) (t : T) (p : Pc) : Machine T :=
  { s with pc := Function.update s.pc t p }

/-- The same with the mutex taken, and with the mutex given back. -/
def Machine.lock (s : Machine T) (t : T) (p : Pc) : Machine T :=
  { s.goto t p with mutex := some t }

def Machine.unlock (s : Machine T) (t : T) (p : Pc) : Machine T :=
  { s.goto t p with mutex := none }

/-- `q.push_back(a)`. -/
def Machine.push (s : Machine T) (t : T) (a : Fd) : Machine T :=
  { s.goto t .addTest with q := s.q ++ [a] }

/-- `q.pop_front()`, with the front value kept for the return. -/
def Machine.pop (s : Machine T) (t : T) (r : Fd) (rest : List Fd) : Machine T :=
  { s.goto t (.removeUnlock r) with q := rest }

/-- `pthread_cond_broadcast`: the waiting threads go to take the mutex again. -/
def notifyAll (pc : T → Pc) : T → Pc := fun t => if pc t = .wait then .relock else pc t

/-- One operation of the thread `t`, with an entry in the record where a call takes effect.  The calls
    of `add` and `remove` come from outside, and a spurious wake-up may come at any time. -/
inductive MStep (s : Machine T) (t : T) : Machine T → Prop
  | callAdd (a : Fd) : s.pc t = .outside → MStep s t (s.goto t (.addLock a))
  | callRemove : s.pc t = .outside → MStep s t (s.goto t .removeLock)
  | lockAdd (a : Fd) : s.pc t = .addLock a → s.mutex = none →
      MStep s t (s.lock t (.addPush a))
  | push (a : Fd) : s.pc t = .addPush a → MStep s t { s.push t a with added := s.added ++ [a] }
  | notify : s.pc t = .addTest → s.q.length = 1 →
      MStep s t (({ s with pc := notifyAll s.pc } : Machine T).goto t .addUnlock)
  | keepQuiet : s.pc t = .addTest → s.q.length ≠ 1 → MStep s t (s.goto t .addUnlock)
  | unlockAdd : s.pc t = .addUnlock → MStep s t (s.unlock t .outside)
  | lockRemove : s.pc t = .removeLock ∨ s.pc t = .relock → s.mutex = none →
      MStep s t (s.lock t .removeTest)
  | wait : s.pc t = .removeTest → s.q.length = 0 → MStep s t (s.unlock t .wait)
  | leaveLoop : s.pc t = .removeTest → s.q.length ≠ 0 → MStep s t (s.goto t .removePop)
  | pop (r : Fd) (rest : List Fd) : s.pc t = .removePop → s.q = r :: rest →
      MStep s t { s.pop t r rest with removed := s.removed ++ [(t, r)] }
  | unlockRemove (r : Fd) : s.pc t = .removeUnlock r →
      MStep s t (s.unlock t .outside)
  | spurious : s.pc t = .wait → MStep s t (s.goto t .relock)

/-- A step of some thread. -/
def Steps (s s' : Machine T) : Prop := ∃ t, MStep s t s'

def MInit (s : Machine T) : Prop :=
  s.mutex = none ∧ s.q = [] ∧ s.added = [] ∧ s.removed = [] ∧ ∀ t, s.pc t = .outside

/-! ## The mutex -/

/-- A thread in a critical section holds the mutex, and one past the loop of `remove` has something
    to take. -/
structure Owned (s : Machine T) : Prop where
  holder : ∀ t, (s.pc t).holds = true → s.mutex = some t
  nonempty : ∀ t, s.pc t = .removePop → s.q ≠ []

/-- What a step of `t` must respect: the other threads stay where they are, up to a notification;
    the mutex changes hands only from `t` or to `t`; and the queue changes in `t`'s hands only. -/
theorem Owned.step {s s' : Machine T} {t : T} (h : Owned s)
    (hothers : ∀ u, u ≠ t → s'.pc u = s.pc u ∨ (s'.pc u).holds = false)
    (hself : (s'.pc t).holds = true → s'.mutex = some t)
    (hmutex : s'.mutex = s.mutex ∨ s.mutex = none ∨ s.mutex = some t)
    (hq : s'.q = s.q ∨ s.mutex = some t)
    (hpop : s'.pc t = .removePop → s'.q ≠ []) : Owned s' := by
  -- another thread in a critical section keeps the mutex through the step
  have hkeep : ∀ u, u ≠ t → (s'.pc u).holds = true → s'.pc u = s.pc u ∧ s.mutex = some u := by
    intro u hut hu
    rcases hothers u hut with heq | hout
    · exact ⟨heq, h.holder u (heq ▸ hu)⟩
    · rw [hout] at hu
      cases hu
  constructor
  · intro u hu
    by_cases hut : u = t
    · rw [hut] at hu ⊢
      exact hself hu
    · have hheld := (hkeep u hut hu).2
      rcases hmutex with heq | hnone | hmine
      · rw [heq]
        exact hheld
      · rw [hnone] at hheld
        cases hheld
      · exact absurd (Option.some.inj (hheld.symm.trans hmine)) hut
  · intro u hu
    by_cases hut : u = t
    · rw [hut] at hu
      exact hpop hu
    · obtain ⟨heq, hheld⟩ := hkeep u hut (by rw [hu]; rfl)
      rcases hq with hsame | hmine
      · rw [hsame]
        exact h.nonempty u (heq ▸ hu)
      · exact absurd (Option.some.inj (hheld.symm.trans hmine)) hut

theorem goto_pc_of_ne (s : Machine T) {t u : T} (p : Pc) (hut : u ≠ t) :
    (s.goto t p).pc u = s.pc u := Function.update_of_ne hut ..

@[simp] theorem goto_pc_self (s : Machine T) (t : T) (p : Pc) : (s.goto t p).pc t = p :=
  Function.update_self ..

/-- A step that touches no more than the stepping thread's position and the mutex. -/
theorem Owned.goto {s : Machine T} {t : T} (h : Owned s) (p : Pc) (m : Option T)
    (hself : p.holds = true → m = some t)
    (hmutex : m = s.mutex ∨ s.mutex = none ∨ s.mutex = some t) (hpop : p = .removePop → s.q ≠ []) :
    Owned { s.goto t p with mutex := m } := by
  refine @Owned.step T _ s _ t h ?_ ?_ hmutex (Or.inl rfl) ?_
  · intro u hut
    exact Or.inl (goto_pc_of_ne s p hut)
  · rw [show ({ s.goto t p with mutex := m } : Machine T).pc t = p from goto_pc_self s t p]
    exact hself
  · rw [show ({ s.goto t p with mutex := m } : Machine T).pc t = p from goto_pc_self s t p]
    exact hpop

omit [DecidableEq T] in
theorem notifyAll_of_holds {pc : T → Pc} {u : T} (h : (pc u).holds = true) :
    notifyAll pc u = pc u := by
  unfold notifyAll
  split
  · next hw =>
    rw [hw] at h
    cases h
  · rfl

/-- **The mutex works.** -/
theorem owned_step (s s' : Machine T) (h : Owned s) (hs : Steps s s') : Owned s' := by
  obtain ⟨t, hs⟩ := hs
  have held : ∀ p, s.pc t = p → p.holds = true → s.mutex = some t := by
    intro p hp hh
    exact h.holder t (hp ▸ hh)
  cases hs with
  | callAdd a hp => exact h.goto _ s.mutex nofun (Or.inl rfl) nofun
  | callRemove hp => exact h.goto _ s.mutex nofun (Or.inl rfl) nofun
  | lockAdd a hp hm => exact h.goto _ _ (fun _ => rfl) (Or.inr (Or.inl hm)) nofun
  | push a hp =>
    have hm := held _ hp rfl
    refine @Owned.step T _ s _ t h ?_ (fun _ => hm) (Or.inl rfl) (Or.inr hm) ?_
    · intro u hut
      exact Or.inl (goto_pc_of_ne s _ hut)
    · intro _
      exact List.append_ne_nil_of_right_ne_nil _ (List.cons_ne_nil _ _)
  | notify hp _ =>
    have hm := held _ hp rfl
    refine @Owned.step T _ s _ t h ?_ (fun _ => hm) (Or.inl rfl) (Or.inl rfl) ?_
    · intro u hut
      rw [goto_pc_of_ne _ _ hut]
      show notifyAll s.pc u = s.pc u ∨ _
      by_cases hu : (s.pc u).holds = true
      · exact Or.inl (notifyAll_of_holds hu)
      · refine Or.inr ?_
        show (notifyAll s.pc u).holds = false
        unfold notifyAll
        split
        · rfl
        · exact Bool.not_eq_true _ ▸ hu
    · rw [goto_pc_self]
      nofun
  | keepQuiet hp _ => exact h.goto _ s.mutex (fun _ => held _ hp rfl) (Or.inl rfl) nofun
  | unlockAdd hp => exact h.goto _ _ nofun (Or.inr (Or.inr (held _ hp rfl))) nofun
  | lockRemove hp hm => exact h.goto _ _ (fun _ => rfl) (Or.inr (Or.inl hm)) nofun
  | wait hp _ => exact h.goto _ _ nofun (Or.inr (Or.inr (held _ hp rfl))) nofun
  | leaveLoop hp hq =>
    refine h.goto _ s.mutex (fun _ => held _ hp rfl) (Or.inl rfl) ?_
    intro _ hnil
    exact hq (List.length_eq_zero_iff.mpr hnil)
  | pop r rest hp hq =>
    have hm := held _ hp rfl
    refine @Owned.step T _ s _ t h ?_ (fun _ => hm) (Or.inl rfl) (Or.inr hm) ?_
    · intro u hut
      exact Or.inl (goto_pc_of_ne s _ hut)
    · show (s.goto t (.removeUnlock r)).pc t = _ → _
      rw [goto_pc_self]
      nofun
  | unlockRemove r hp => exact h.goto _ _ nofun (Or.inr (Or.inr (held _ hp rfl))) nofun
  | spurious hp => exact h.goto _ s.mutex nofun (Or.inl rfl) nofun

omit [DecidableEq T] in
theorem owned_init {s : Machine T} (h : MInit s) : Owned s := by
  obtain ⟨-, -, -, -, hpc⟩ := h
  constructor
  · intro t ht
    rw [hpc t] at ht
    cases ht
  · intro t ht
    rw [hpc t] at ht
    cases ht

theorem owned_reachable (s : Machine T) (h : Reachable MInit Steps s) : Owned s :=
  h.invariant (fun _ => owned_init) owned_step

/-! ## The refinement -/

/-- The broadcast of an `add` is still to come: its thread holds the mutex and has pushed. -/
def Machine.broadcastDue (s : Machine T) : Bool :=
  match s.mutex with
  | none => false
  | some t => s.pc t = .addTest && s.q.length = 1

/-- Where a thread stands at the level of the lock-protected steps; `due` tells whether the waiting
    threads count as notified. -/
def Pc.position (due : Bool) : Pc → Position
  | .wait => if due then .ready else .waiting
  | .removeLock | .removeTest | .relock | .removePop => .ready
  | _ => .outside

/-- What a state amounts to. -/
def Machine.abs (s : Machine T) : State T :=
  ⟨⟨s.q, fun t => (s.pc t).position s.broadcastDue⟩, s.added, s.removed⟩

/-- The position of the thread that moves, and of the others. -/
theorem position_goto (s : Machine T) (t : T) (p : Pc) (due : Bool) :
    (fun u => ((s.goto t p).pc u).position due) =
      Function.update (fun u => (s.pc u).position due) t (p.position due) := by
  funext u
  by_cases hut : u = t
  · rw [hut, goto_pc_self, Function.update_self]
  · rw [goto_pc_of_ne s p hut, Function.update_of_ne hut]

omit [DecidableEq T] in
/-- While the mutex is free, or held by a thread that is not between push and broadcast, no
    broadcast is due. -/
theorem broadcastDue_eq_false {s : Machine T} {t : T} (hm : s.mutex = none ∨ s.mutex = some t)
    (hp : s.pc t ≠ .addTest) : s.broadcastDue = false := by
  unfold Machine.broadcastDue
  rcases hm with hm | hm
  · simp only [hm]
  · simp only [hm, hp, decide_false, Bool.false_and]

/-- A move that is neither from nor to the place between push and broadcast changes nothing
    about a broadcast that is due. -/
theorem broadcastDue_goto (s : Machine T) {t : T} {p : Pc} (hold : s.pc t ≠ .addTest)
    (hnew : p ≠ .addTest) : (s.goto t p).broadcastDue = s.broadcastDue := by
  unfold Machine.broadcastDue
  show (match s.mutex with
    | none => false
    | some u => (s.goto t p).pc u = Pc.addTest && s.q.length = 1) = _
  cases s.mutex with
  | none => rfl
  | some u =>
    by_cases hut : u = t
    · subst hut
      simp only [goto_pc_self, hold, hnew]
    · simp only [goto_pc_of_ne s p hut]

/-- **A step of the moving thread only**, while no broadcast is due before or after. -/
theorem abs_move {s : Machine T} {t : T} (s' : Machine T) (p : Pc) (hpc : s'.pc = (s.goto t p).pc)
    (hs : s.mutex = none ∨ s.mutex = some t) (hs' : s'.mutex = none ∨ s'.mutex = some t)
    (hold : s.pc t ≠ .addTest) (hnew : p ≠ .addTest) :
    s'.abs = ⟨⟨s'.q, Function.update s.abs.threads t (p.position false)⟩, s'.added, s'.removed⟩ := by
  have hdue := broadcastDue_eq_false hs hold
  have hdue' : s'.broadcastDue = false :=
    broadcastDue_eq_false hs' (by rw [hpc, goto_pc_self]; exact hnew)
  unfold Machine.abs
  rw [hdue, hdue', hpc]
  exact congrArg (State.mk ⟨s'.q, ·⟩ s'.added s'.removed) (position_goto s t p false)

theorem abs_lock {s : Machine T} {t : T} (p : Pc) (hm : s.mutex = none)
    (hold : s.pc t ≠ .addTest) (hnew : p ≠ .addTest) :
    (s.lock t p).abs =
      { s.abs with threads := Function.update s.abs.threads t (p.position false) } :=
  abs_move (s.lock t p) p rfl (Or.inl hm) (Or.inr rfl) hold hnew

theorem abs_unlock {s : Machine T} {t : T} (p : Pc) (hm : s.mutex = some t)
    (hold : s.pc t ≠ .addTest) (hnew : p ≠ .addTest) :
    (s.unlock t p).abs =
      { s.abs with threads := Function.update s.abs.threads t (p.position false) } :=
  abs_move (s.unlock t p) p rfl (Or.inr hm) (Or.inl rfl) hold hnew

theorem abs_pop {s : Machine T} {t : T} {r : Fd} {rest : List Fd} (hm : s.mutex = some t)
    (hold : s.pc t ≠ .addTest) :
    ({ s.pop t r rest with removed := s.removed ++ [(t, r)] } : Machine T).abs =
      ⟨⟨rest, Function.update s.abs.threads t .outside⟩, s.added, s.removed ++ [(t, r)]⟩ :=
  abs_move _ (.removeUnlock r) rfl (Or.inr hm) (Or.inr hm) hold nofun

/-- The same while another thread may hold the mutex. -/
theorem abs_goto {s : Machine T} {t : T} (p : Pc) (hold : s.pc t ≠ .addTest)
    (hnew : p ≠ .addTest) :
    (s.goto t p).abs =
      { s.abs with threads := Function.update s.abs.threads t (p.position s.broadcastDue) } := by
  unfold Machine.abs
  rw [broadcastDue_goto s hold hnew]
  exact congrArg (State.mk ⟨s.q, ·⟩ s.added s.removed) (position_goto s t p s.broadcastDue)

/-- A thread that stays in its position. -/
theorem update_position {s : State T} {t : T} {p : Position} (h : s.threads t = p) :
    { s with threads := Function.update s.threads t p } = s := by
  rw [← h, Function.update_eq_self]

/-- An operation that leaves its thread in the position it was in amounts to no step. -/
theorem goto_stays {s : Machine T} {t : T} (p : Pc) (hold : s.pc t ≠ .addTest)
    (hnew : p ≠ .addTest) (h : s.abs.threads t = p.position s.broadcastDue) :
    (s.goto t p).abs = s.abs := by
  rw [abs_goto p hold hnew]
  exact update_position h

theorem lock_stays {s : Machine T} {t : T} (p : Pc) (hm : s.mutex = none) (hold : s.pc t ≠ .addTest)
    (hnew : p ≠ .addTest) (h : s.abs.threads t = p.position false) : (s.lock t p).abs = s.abs := by
  rw [abs_lock p hm hold hnew]
  exact update_position h

theorem unlock_stays {s : Machine T} {t : T} (p : Pc) (hm : s.mutex = some t)
    (hold : s.pc t ≠ .addTest) (hnew : p ≠ .addTest) (h : s.abs.threads t = p.position false) :
    (s.unlock t p).abs = s.abs := by
  rw [abs_unlock p hm hold hnew]
  exact update_position h

omit [DecidableEq T] in
/-- A broadcast of the abstract queue is what counting the waiting threads as notified means. -/
theorem broadcast_position (pc : T → Pc) (u : T) :
    broadcast (fun u => (pc u).position false) u = (pc u).position true := by
  show (if (pc u).position false = .waiting then Position.ready else (pc u).position false) = _
  cases pc u <;> rfl

/-- The push, with the broadcast that may follow, is the `add` of the abstract queue. -/
theorem abs_push {s : Machine T} {t : T} {a : Fd} (hp : s.pc t = .addPush a)
    (hm : s.mutex = some t) :
    ({ s.push t a with added := s.added ++ [a] } : Machine T).abs =
      ⟨s.abs.toQueue.add a, s.added ++ [a], s.removed⟩ := by
  have hdue : s.broadcastDue = false :=
    broadcastDue_eq_false (Or.inr hm) (by rw [hp]; nofun)
  have hdue' : ({ s.push t a with added := s.added ++ [a] } : Machine T).broadcastDue =
      decide ((s.q ++ [a]).length = 1) := by
    unfold Machine.broadcastDue
    show (match s.mutex with
      | none => false
      | some u => (s.goto t .addTest).pc u = Pc.addTest && (s.q ++ [a]).length = 1) = _
    simp only [hm, goto_pc_self, decide_true, Bool.true_and]
  unfold Machine.abs Queue.add
  rw [hdue, hdue']
  refine congrArg (State.mk ⟨s.q ++ [a], ·⟩ _ _) ?_
  funext u
  show ((s.goto t .addTest).pc u).position _ =
    (if (s.q ++ [a]).length = 1 then broadcast fun u => (s.pc u).position false
      else fun u => (s.pc u).position false) u
  -- the pushing thread is outside of `remove` all along, and the others stay where they are
  have hsame : ∀ due, ((s.goto t .addTest).pc u).position due = (s.pc u).position due := by
    intro due
    by_cases hut : u = t
    · rw [hut, goto_pc_self, hp]
      rfl
    · rw [goto_pc_of_ne s _ hut]
  rw [hsame]
  by_cases hlen : (s.q ++ [a]).length = 1
  · rw [if_pos hlen, decide_eq_true hlen, broadcast_position]
  · rw [if_neg hlen, decide_eq_false hlen]

/-- The broadcast itself changes nothing any more. -/
theorem abs_notify {s : Machine T} {t : T} (hp : s.pc t = .addTest) (hm : s.mutex = some t)
    (hq : s.q.length = 1) :
    (({ s with pc := notifyAll s.pc } : Machine T).goto t .addUnlock).abs = s.abs := by
  have hdue : s.broadcastDue = true := by
    unfold Machine.broadcastDue
    simp only [hm, hp, hq, decide_true, Bool.and_true]
  have hdue' : (({ s with pc := notifyAll s.pc } : Machine T).goto t .addUnlock).broadcastDue =
      false := broadcastDue_eq_false (Or.inr hm) (by rw [goto_pc_self]; nofun)
  unfold Machine.abs
  rw [hdue, hdue']
  refine congrArg (State.mk ⟨s.q, ·⟩ _ _) ?_
  funext u
  by_cases hut : u = t
  · rw [hut, goto_pc_self, hp]
    rfl
  · rw [goto_pc_of_ne _ _ hut]
    show (notifyAll s.pc u).position false = (s.pc u).position true
    unfold notifyAll
    cases s.pc u <;> rfl

/-- With more than one value queued no broadcast is due, and none is made. -/
theorem abs_keepQuiet {s : Machine T} {t : T} (hp : s.pc t = .addTest) (hm : s.mutex = some t)
    (hq : s.q.length ≠ 1) : (s.goto t .addUnlock).abs = s.abs := by
  have hdue : s.broadcastDue = false := by
    unfold Machine.broadcastDue
    simp only [hm, hq, decide_false, Bool.and_false]
  have hdue' : (s.goto t .addUnlock).broadcastDue = false :=
    broadcastDue_eq_false (Or.inr hm) (by rw [goto_pc_self]; nofun)
  unfold Machine.abs
  rw [hdue, hdue']
  refine congrArg (State.mk ⟨s.q, ·⟩ _ _) ?_
  rw [position_goto]
  apply Function.update_eq_iff.mpr
  exact ⟨by rw [hp]; rfl, fun _ _ => rfl⟩

/-- **Each operation amounts to a step of the abstract queue, or to none.** -/
theorem abs_step (s s' : Machine T) (h : Owned s) (hs : Steps s s') :
    s'.abs = s.abs ∨ Step s.abs s'.abs := by
  obtain ⟨t, hs⟩ := hs
  have held : ∀ p, s.pc t = p → p.holds = true → s.mutex = some t := by
    intro p hp hh
    exact h.holder t (hp ▸ hh)
  have hpos : ∀ p, s.pc t = p → s.abs.threads t = p.position s.broadcastDue := by
    intro p hp
    rw [← hp]
    rfl
  -- the thread that moves does not come from the test of `add`
  have moved : ∀ p, s.pc t = p → p ≠ .addTest → s.pc t ≠ .addTest := by
    intro p hp hne
    rw [hp]
    exact hne
  cases hs with
  | callAdd a hp =>
    left
    exact goto_stays (.addLock a) (moved _ hp nofun) nofun (hpos .outside hp)
  | callRemove hp =>
    right
    rw [abs_goto .removeLock (moved _ hp nofun) nofun]
    exact .call s.abs t (hpos _ hp)
  | lockAdd a hp hm =>
    left
    exact lock_stays (.addPush a) hm (moved _ hp nofun) nofun (hpos _ hp)
  | push a hp =>
    right
    rw [abs_push hp (held _ hp rfl)]
    exact .add s.abs t a (hpos _ hp)
  | notify hp hq => exact Or.inl (abs_notify hp (held _ hp rfl) hq)
  | keepQuiet hp hq => exact Or.inl (abs_keepQuiet hp (held _ hp rfl) hq)
  | unlockAdd hp =>
    left
    exact unlock_stays .outside (held _ hp rfl) (moved _ hp nofun) nofun (hpos _ hp)
  | lockRemove hp hm =>
    left
    rcases hp with hp | hp
    · exact lock_stays .removeTest hm (moved _ hp nofun) nofun (hpos _ hp)
    · exact lock_stays .removeTest hm (moved _ hp nofun) nofun (hpos _ hp)
  | wait hp hq =>
    right
    rw [abs_unlock .wait (held _ hp rfl) (moved _ hp nofun) nofun]
    exact step_wait (hpos _ hp) (List.length_eq_zero_iff.mp hq)
  | leaveLoop hp hq =>
    left
    exact goto_stays .removePop (moved _ hp nofun) nofun (hpos .removeTest hp)
  | pop r rest hp hq =>
    right
    rw [abs_pop (held _ hp rfl) (moved _ hp nofun)]
    exact step_leave (hpos _ hp) hq
  | unlockRemove r hp =>
    left
    exact unlock_stays .outside (held _ hp rfl) (moved _ hp nofun) nofun (hpos _ hp)
  | spurious hp =>
    rw [abs_goto .relock (moved _ hp nofun) nofun]
    have hwait := hpos _ hp
    cases hdue : s.broadcastDue with
    | true =>
      left
      rw [hdue] at hwait
      exact update_position hwait
    | false =>
      right
      rw [hdue] at hwait
      exact .spurious s.abs t hwait

omit [DecidableEq T] in
theorem abs_init (s : Machine T) (h : MInit s) : Init s.abs := by
  obtain ⟨-, hq, hadded, hremoved, hpc⟩ := h
  refine ⟨hq, hadded, hremoved, fun t => ?_⟩
  show (s.pc t).position _ = .outside
  rw [hpc t]
  rfl

/-- **Refinement.**  What the threads come to is what the abstract queue comes to. -/
theorem refines {s : Machine T} (h : Reachable MInit Steps s) : Reachable Init Step s.abs :=
  Reachable.simulated Machine.abs owned_reachable abs_init abs_step h

/-- **The queue of the code.**  Whatever the interleaving of the single operations, what was removed
    followed by what is queued is what was added; and if something is queued while a thread waits
    un-notified, then a thread that holds the mutex is about to broadcast. -/
theorem threads_correct {s : Machine T} (h : Reachable MInit Steps s) :
    s.removed.map Prod.snd ++ s.q = s.added ∧
    (s.q ≠ [] → ∀ t, s.pc t = .wait → ∃ u, s.mutex = some u ∧ s.pc u = .addTest ∧ s.q.length = 1) := by
  have hinv := inv_reachable (refines h)
  refine ⟨hinv.account, ?_⟩
  intro hne t ht
  have hwait : (Pc.wait).position s.broadcastDue ≠ .waiting := ht ▸ hinv.no_waiter hne t
  have hdue : s.broadcastDue = true := by
    cases hdue : s.broadcastDue with
    | true => rfl
    | false => exact absurd (by rw [hdue]; rfl) hwait
  unfold Machine.broadcastDue at hdue
  cases hm : s.mutex with
  | none => simp [hm] at hdue
  | some u =>
    refine ⟨u, rfl, ?_⟩
    simpa [hm] using hdue

end Pixie.Work
