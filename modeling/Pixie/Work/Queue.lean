/-
  The work queue (`Queue.cpp`) at the level of its lock-protected steps.

  The listener and the workers share a `deque`, a mutex and a condition variable.  Between two
  moments at which the mutex is free, exactly one of the following has happened:
    * a thread has run `add`: the value is pushed, and when it is the first one, a broadcast makes
      every waiting thread runnable;
    * a thread inside `remove` has held the mutex, either to find the queue empty and wait, or to
      take the front value and return it;
    * a thread has entered `remove`, or a waiting thread has woken up spuriously.
  `Step` is the union of these, for any set of threads.  It also records the calls: beside the queue
  (`Queue`), which is all that the functions see, a `State` has the values that `add` was given and
  those that `remove` has returned so far, in the order in which this was done.

  The invariant that carries everything is `Inv`: what was removed, followed by what is queued, is
  what was added; and while anything is queued NO thread is waiting un-notified.  The second part is
  kept by an `add` that does not notify because the queue was not empty before it, so nobody was
  waiting; and by a `remove` that leaves values behind because it makes nobody wait.
-/
import Pixie.Lib.Run
import Pixie.Net.Calls

namespace Pixie.Work

open Pixie.Net Pixie.Run

variable {T : Type} [DecidableEq T]

/-- Where a thread stands: not in `remove`; in `remove` and about to take the mutex; or in
    `pthread_cond_wait`, not notified. -/
inductive Position
  | outside
  | ready
  | waiting
deriving DecidableEq, Repr

/-- The queue and its threads. -/
structure Queue (T : Type) where
  q : List Fd
  threads : T → Position

/-- `pthread_cond_broadcast`. -/
def broadcast (threads : T → Position) : T → Position :=
  fun t => if threads t = .waiting then .ready else threads t

/-- `Queue::add`. -/
def Queue.add (s : Queue T) (a : Fd) : Queue T :=
  let q := s.q ++ [a]
  ⟨q, if q.length = 1 then broadcast s.threads else s.threads⟩

/-- A round of the loop of `Queue::remove` by the thread that holds the mutex: it waits, or it leaves
    with the front value, which it returns. -/
def Queue.remove (s : Queue T) (t : T) : Queue T × Option Fd :=
  match s.q with
  | [] => (⟨[], Function.update s.threads t .waiting⟩, none)
  | r :: rest => (⟨rest, Function.update s.threads t .outside⟩, some r)

theorem remove_of_nil {s : Queue T} (t : T) (hq : s.q = []) :
    s.remove t = ({ s with threads := Function.update s.threads t .waiting }, none) := by
  unfold Queue.remove
  simp only [hq]

theorem remove_of_cons {s : Queue T} (t : T) {r : Fd} {rest : List Fd} (hq : s.q = r :: rest) :
    s.remove t = (⟨rest, Function.update s.threads t .outside⟩, some r) := by
  unfold Queue.remove
  simp only [hq]

/-- A thread moves to `ready`: it calls `remove`, or it wakes up spuriously. -/
def Queue.toReady (s : Queue T) (t : T) : Queue T :=
  { s with threads := Function.update s.threads t .ready }

/-- The queue, and what has been done with it: the values of the calls of `add`, and the values that
    calls of `remove` returned, with the threads that made them. -/
structure State (T : Type) extends Queue T where
  added : List Fd
  removed : List (T × Fd)

/-- A step is a call, or a part of one, by some thread, and its entry in the record. -/
inductive Step : State T → State T → Prop
  | add (s : State T) (t : T) (a : Fd) : s.threads t = .outside →
      Step s ⟨s.toQueue.add a, s.added ++ [a], s.removed⟩
  | call (s : State T) (t : T) : s.threads t = .outside →
      Step s ⟨s.toQueue.toReady t, s.added, s.removed⟩
  | remove (s : State T) (t : T) : s.threads t = .ready →
      Step s ⟨(s.toQueue.remove t).1, s.added,
        s.removed ++ ((s.toQueue.remove t).2.map (Prod.mk t)).toList⟩
  | spurious (s : State T) (t : T) : s.threads t = .waiting →
      Step s ⟨s.toQueue.toReady t, s.added, s.removed⟩

/-- The two ways in which a round of the loop ends. -/
theorem step_wait {s : State T} {t : T} (ht : s.threads t = .ready) (hq : s.q = []) :
    Step s { s with threads := Function.update s.threads t .waiting } := by
  have hstep := Step.remove s t ht
  rw [remove_of_nil t hq] at hstep
  simpa using hstep

theorem step_leave {s : State T} {t : T} {r : Fd} {rest : List Fd} (ht : s.threads t = .ready)
    (hq : s.q = r :: rest) :
    Step s ⟨⟨rest, Function.update s.threads t .outside⟩, s.added, s.removed ++ [(t, r)]⟩ := by
  have hstep := Step.remove s t ht
  rw [remove_of_cons t hq] at hstep
  exact hstep

/-- Nothing has been done, and no thread is inside. -/
def Init (s : State T) : Prop :=
  s.q = [] ∧ s.added = [] ∧ s.removed = [] ∧ ∀ t, s.threads t = .outside

/-! ## The invariant -/

/-- What holds in every reachable state. -/
structure Inv (s : State T) : Prop where
  account : s.removed.map Prod.snd ++ s.q = s.added
  no_waiter : s.q ≠ [] → ∀ t, s.threads t ≠ .waiting

omit [DecidableEq T] in
theorem broadcast_ne_waiting (threads : T → Position) (t : T) : broadcast threads t ≠ .waiting := by
  unfold broadcast
  split
  · nofun
  · assumption

omit [DecidableEq T] in
theorem inv_init {s : State T} (h : Init s) : Inv s := by
  obtain ⟨hq, hadded, hremoved, -⟩ := h
  constructor
  · rw [hq, hadded, hremoved]
    rfl
  · intro hne
    exact absurd hq hne

omit [DecidableEq T] in
theorem inv_add {s : State T} (h : Inv s) (a : Fd) :
    Inv ⟨s.toQueue.add a, s.added ++ [a], s.removed⟩ := by
  constructor
  · show s.removed.map Prod.snd ++ (s.q ++ [a]) = s.added ++ [a]
    rw [← List.append_assoc, h.account]
  · intro _ t
    show (if (s.q ++ [a]).length = 1 then broadcast s.threads else s.threads) t ≠ .waiting
    by_cases hq : s.q = []
    · -- the first value: everybody is notified
      have hlen : (s.q ++ [a]).length = 1 := by rw [hq]; rfl
      rw [if_pos hlen]
      exact broadcast_ne_waiting s.threads t
    · -- not the first value: nobody was waiting
      have hlen : (s.q ++ [a]).length ≠ 1 := by
        have := List.length_pos_of_ne_nil hq
        rw [List.length_append, List.length_singleton]
        omega
      rw [if_neg hlen]
      exact h.no_waiter hq t

theorem inv_remove {s : State T} (h : Inv s) (t : T) :
    Inv ⟨(s.toQueue.remove t).1, s.added,
      s.removed ++ ((s.toQueue.remove t).2.map (Prod.mk t)).toList⟩ := by
  cases hq : s.q with
  | nil =>
    rw [remove_of_nil t hq]
    constructor
    · show (s.removed ++ []).map Prod.snd ++ s.q = s.added
      rw [List.append_nil]
      exact h.account
    · intro hne
      exact absurd hq hne
  | cons r rest =>
    rw [remove_of_cons t hq]
    constructor
    · show (s.removed ++ [(t, r)]).map Prod.snd ++ rest = s.added
      rw [← h.account, hq, List.map_append, List.append_assoc]
      rfl
    · intro _ t'
      show Function.update s.threads t .outside t' ≠ .waiting
      by_cases htt : t' = t
      · rw [htt, Function.update_self]
        nofun
      · rw [Function.update_of_ne htt]
        exact h.no_waiter (by rw [hq]; exact List.cons_ne_nil _ _) t'

theorem inv_toReady {s : State T} (h : Inv s) (t : T) :
    Inv ⟨s.toQueue.toReady t, s.added, s.removed⟩ := by
  constructor
  · exact h.account
  · intro hne t'
    show Function.update s.threads t .ready t' ≠ .waiting
    by_cases htt : t' = t
    · rw [htt, Function.update_self]
      nofun
    · rw [Function.update_of_ne htt]
      exact h.no_waiter hne t'

/-- Every step keeps the invariant. -/
theorem inv_step (s s' : State T) (h : Inv s) (hs : Step s s') : Inv s' := by
  cases hs with
  | add t a _ => exact inv_add h a
  | call t _ => exact inv_toReady h t
  | remove t _ => exact inv_remove h t
  | spurious t _ => exact inv_toReady h t

theorem inv_reachable {s : State T} (h : Reachable Init Step s) : Inv s :=
  h.invariant (fun _ => inv_init) inv_step

/-! ## The queue under any schedule -/

/-- **The queue is correct under any schedule.**  In every reachable state the values removed so far
    are the first of the values added, in the same order, and the queue holds the rest: each added
    value is handed out at most once, and to one thread; and the queue is never non-empty while some
    thread is waiting un-notified. -/
theorem queue_correct (s : State T) (h : Reachable Init Step s) :
    s.removed.map Prod.snd <+: s.added ∧ s.removed.map Prod.snd ++ s.q = s.added ∧
    ¬ (s.q ≠ [] ∧ ∃ t, s.threads t = .waiting) := by
  have hinv := inv_reachable h
  refine ⟨⟨s.q, hinv.account⟩, hinv.account, ?_⟩
  rintro ⟨hne, t, hwait⟩
  exact hinv.no_waiter hne t hwait

/-- A worker waits, is woken by the listener, and takes the socket. -/
theorem queue_correct_hand_over : ∃ s : State Bool, s.added = [7] ∧ s.removed = [(true, 7)] ∧
    s.removed.map Prod.snd <+: s.added ∧ s.removed.map Prod.snd ++ s.q = s.added ∧
    ¬ (s.q ≠ [] ∧ ∃ t, s.threads t = .waiting) := by
  refine ⟨_, rfl, rfl, queue_correct _ (.next (.next (.next (.next
    (.start (s := ⟨⟨[], fun _ => .outside⟩, [], []⟩) ⟨rfl, rfl, rfl, fun _ => rfl⟩)
    (.call _ true rfl)) (.remove _ true rfl)) (.add _ false 7 rfl)) (.remove _ true rfl))⟩

end Pixie.Work
