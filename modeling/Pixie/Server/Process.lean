/-
  The server process (`Server.cpp`, `Listener.cpp`, `Worker.cpp`): a listener and any number of workers
  around one work queue, in one table of descriptors.

  `PStep` interleaves what the threads do:
    * the listener accepts a connection and adds its descriptor to the queue, or ends;
    * a thread inside the queue executes one of its operations (`MStep`);
    * a worker calls `remove`, and handles the descriptor that it returns: one call of its handler after
      the other, as far as a run of `handle` goes (`Follows`), and then the next descriptor.

  The table `live` says which connection a descriptor denotes.  The kernel numbers the connections, and
  may give a descriptor that is not open to anybody who opens one.  A close of a descriptor closes what
  it denotes, whoever has opened that; the close of an indeterminate descriptor may be of any.

  `accepted`, `served` and `dialed` record what has happened: the connections accepted, those that
  workers were handed (what their descriptor denoted then), and those that workers have opened.

  1. `pending` — the descriptors between the `accept` of the listener and the return of `remove`.
  2. `Roles` — the listener only adds, the workers only remove.
  3. `pending_mstep` — inside the queue nothing is lost, added or put out of order.

  A stop that ends the process (an exit, a failing assertion) is not followed: the other threads go on,
  which only adds runs.
-/
import Pixie.Work.Threads
import Pixie.Lib.Ownership
import Pixie.Proxy.Ownership

namespace Pixie.Server

open Pixie.Net Pixie.Blk Pixie.Proxy Pixie.Work Pixie.Run Pixie.Wp

variable {W : Type} [DecidableEq W]

/-- What a worker is at: waiting for a descriptor, or handling one, with the calls made so far. -/
inductive Ctrl
  | idle
  | handling (fd : Fd) (tr : List Event)

/-- The process; among the threads of the queue `none` is the listener. -/
structure Process (W : Type) where
  queue : Machine (Option W)
  listening : Bool
  ctrl : W → Ctrl
  live : Fd → Option Nat
  next : Nat
  accepted : List Nat
  served : List (W × Option Nat)
  dialed : List (W × Nat)

/-- These calls are a part of a run of the handler. -/
def Follows (protocol : Protocol) (fd : Fd) (tr : List Event) : Prop :=
  ∃ env, tr <+: (handle protocol fd env).trace

/-- These calls are a whole run, and the worker goes on after it. -/
def Returns (protocol : Protocol) (fd : Fd) (tr : List Event) : Prop :=
  ∃ env, (handle protocol fd env).trace = tr ∧ workerReady (handle protocol fd env).fin = true

/-- What a call of a worker does to the table of descriptors. -/
inductive Kernel (s : Process W) (w : W) : Event → Process W → Prop
  | opens (e : Event) (n : Fd) : e.opens = some n → s.live n = none →
      Kernel s w e { s with
        live := Function.update s.live n (some s.next)
        next := s.next + 1
        dialed := s.dialed ++ [(w, s.next)] }
  | closes (x : Option Fd) (n : Fd) : (∀ y ∈ x, y = n) →
      Kernel s w (.close x) { s with live := Function.update s.live n none }
  | quiet (e : Event) : e.opens = none → (∀ x, e ≠ .close x) → Kernel s w e s

/-- A step of one thread. -/
inductive PStep (protocol : Protocol) (s : Process W) : Process W → Prop
  /-- `accept` returns a connection, and `queue.add` is called with it. -/
  | accept (n : Nat) : s.listening = true → s.queue.pc none = .outside → 0 < n → s.live n = none →
      PStep protocol s { s with
        queue := s.queue.goto none (.addLock n)
        live := Function.update s.live n (some s.next)
        next := s.next + 1
        accepted := s.accepted ++ [s.next] }
  /-- `accept` returns descriptor `0`, which the listener takes for a failure. -/
  | acceptZero : s.listening = true → s.queue.pc none = .outside → s.live 0 = none →
      PStep protocol s { s with
        listening := false
        live := Function.update s.live 0 (some s.next)
        next := s.next + 1 }
  | acceptFails : s.listening = true → s.queue.pc none = .outside →
      PStep protocol s { s with listening := false }
  /-- An operation inside `add` or `remove`, up to the return of `remove`. -/
  | inside (t : Option W) (q : Machine (Option W)) : s.queue.pc t ≠ .outside →
      (∀ r, s.queue.pc t ≠ .removeUnlock r) → MStep s.queue t q → PStep protocol s { s with queue := q }
  | callRemove (w : W) : s.ctrl w = .idle → s.queue.pc (some w) = .outside →
      PStep protocol s { s with queue := s.queue.goto (some w) .removeLock }
  /-- `remove` unlocks and returns, and the handler is made. -/
  | take (w : W) (r : Fd) : s.queue.pc (some w) = .removeUnlock r →
      PStep protocol s { s with
        queue := s.queue.unlock (some w) .outside
        ctrl := Function.update s.ctrl w (.handling r [])
        served := s.served ++ [(w, s.live r)] }
  | call (w : W) (fd : Fd) (tr : List Event) (e : Event) (s' : Process W) :
      s.ctrl w = .handling fd tr → Follows protocol fd (tr ++ [e]) → Kernel s w e s' →
      PStep protocol s { s' with ctrl := Function.update s'.ctrl w (.handling fd (tr ++ [e])) }
  | finish (w : W) (fd : Fd) (tr : List Event) : s.ctrl w = .handling fd tr →
      Returns protocol fd tr → PStep protocol s { s with ctrl := Function.update s.ctrl w .idle }

/-- The threads have been created; what is open from before has a number. -/
def PInit (s : Process W) : Prop :=
  MInit s.queue ∧ (∀ w, s.ctrl w = .idle) ∧ s.accepted = [] ∧ s.served = [] ∧ s.dialed = [] ∧
    ∀ fd c, s.live fd = some c → c < s.next

/-! ## What the queue holds -/

/-- The value that a thread is about to add. -/
def entering : Pc → List Fd
  | .addLock a | .addPush a => [a]
  | _ => []

/-- The value that a thread is about to return from `remove`. -/
def leaving : Pc → List Fd
  | .removeUnlock r => [r]
  | _ => []

/-- The value that the thread with the mutex is about to return. -/
def outgoing (q : Machine (Option W)) : List Fd :=
  match q.mutex with
  | none => []
  | some t => leaving (q.pc t)

/-- The descriptors that the queue answers for, first come first. -/
def pending (q : Machine (Option W)) : List Fd := outgoing q ++ q.q ++ entering (q.pc none)

/-- In the course of an `add`, and of a `remove`. -/
def adding : Pc → Bool
  | .addLock _ | .addPush _ | .addTest | .addUnlock => true
  | _ => false

def removing : Pc → Bool
  | .removeLock | .removeTest | .wait | .relock | .removePop | .removeUnlock _ => true
  | _ => false

/-- The listener only adds, and the workers only remove. -/
structure Roles (q : Machine (Option W)) : Prop where
  listener : removing (q.pc none) = false
  worker : ∀ w, adding (q.pc (some w)) = false

variable {q q' : Machine (Option W)} {t : Option W} {p : Pc}

omit [DecidableEq W] in
theorem Roles.none_of_adding (h : Roles q) (hp : adding (q.pc t) = true) : t = none := by
  cases t with
  | none => rfl
  | some w =>
    rw [h.worker w] at hp
    cases hp

omit [DecidableEq W] in
theorem Roles.ne_none_of_removing (h : Roles q) (hp : removing (q.pc t) = true) : t ≠ none := by
  rintro rfl
  rw [h.listener] at hp
  cases hp

/-- A thread goes on on its side. -/
theorem Roles.goto (h : Roles q) (p : Pc) (hpc : q'.pc = (q.goto t p).pc)
    (hadd : adding p = true → t = none) (hremove : removing p = true → t ≠ none) : Roles q' := by
  constructor
  · rw [hpc]
    by_cases ht : none = t
    · rw [← ht, goto_pc_self]
      exact Bool.not_eq_true _ ▸ fun hc => hremove hc ht.symm
    · rw [goto_pc_of_ne q p ht]
      exact h.listener
  · intro w
    rw [hpc]
    by_cases ht : some w = t
    · rw [← ht, goto_pc_self]
      exact Bool.not_eq_true _ ▸ fun hc => by cases ht.trans (hadd hc)
    · rw [goto_pc_of_ne q p ht]
      exact h.worker w

/-! ## Inside the queue -/

theorem entering_goto (hp : entering p = entering (q.pc t)) :
    entering ((q.goto t p).pc none) = entering (q.pc none) := by
  by_cases ht : none = t
  · rw [← ht, goto_pc_self, hp, ht]
  · rw [goto_pc_of_ne q p ht]

theorem leaving_goto (hp : leaving p = leaving (q.pc t)) (u : Option W) :
    leaving ((q.goto t p).pc u) = leaving (q.pc u) := by
  by_cases hu : u = t
  · rw [hu, goto_pc_self, hp]
  · rw [goto_pc_of_ne q p hu]

/-- A thread that goes on without taking or giving back the mutex. -/
theorem pending_goto (hent : entering p = entering (q.pc t)) (hleave : leaving p = leaving (q.pc t)) :
    pending (q.goto t p) = pending q := by
  have hout : outgoing (q.goto t p) = outgoing q := by
    show (match q.mutex with
      | none => []
      | some u => leaving ((q.goto t p).pc u)) = outgoing q
    unfold outgoing
    cases q.mutex with
    | none => rfl
    | some u => exact leaving_goto hleave u
  unfold pending
  rw [hout, entering_goto hent]
  rfl

theorem pending_lock (hm : q.mutex = none) (hent : entering p = entering (q.pc t))
    (hleave : leaving p = []) : pending (q.lock t p) = pending q := by
  have hbefore : outgoing q = [] := by simp only [outgoing, hm]
  have hafter : outgoing (q.lock t p) = [] := by
    show leaving ((q.goto t p).pc t) = []
    rw [goto_pc_self, hleave]
  unfold pending
  rw [hbefore, hafter]
  exact congrArg (q.q ++ ·) (entering_goto hent)

theorem pending_unlock (hm : q.mutex = some t) (hent : entering p = entering (q.pc t))
    (hleave : leaving (q.pc t) = []) : pending (q.unlock t p) = pending q := by
  have hbefore : outgoing q = [] := by simp only [outgoing, hm, hleave]
  have hafter : outgoing (q.unlock t p) = [] := rfl
  unfold pending
  rw [hbefore, hafter]
  exact congrArg (q.q ++ ·) (entering_goto hent)

/-- An `add` is called: the value is now the last. -/
theorem pending_enter {a : Fd} (hp : q.pc none = .outside) :
    pending (q.goto none (.addLock a)) = pending q ++ [a] := by
  have hout : outgoing (q.goto none (.addLock a)) = outgoing q := by
    show (match q.mutex with
      | none => []
      | some u => leaving ((q.goto none (.addLock a)).pc u)) = outgoing q
    unfold outgoing
    cases q.mutex with
    | none => rfl
    | some u => exact leaving_goto (by rw [hp]; rfl) u
  unfold pending
  rw [hout, hp, goto_pc_self]
  show outgoing q ++ q.q ++ [a] = _
  rw [show entering Pc.outside = [] from rfl, List.append_nil]

/-- A `remove` returns: the value was the first. -/
theorem pending_leave {w : W} {r : Fd} (hm : q.mutex = some (some w))
    (hp : q.pc (some w) = .removeUnlock r) :
    pending q = r :: pending (q.unlock (some w) .outside) := by
  have hbefore : outgoing q = [r] := by simp only [outgoing, hm, hp, leaving]
  unfold pending
  rw [hbefore]
  show [r] ++ q.q ++ _ = r :: ([] ++ q.q ++ entering ((q.goto (some w) .outside).pc none))
  rw [goto_pc_of_ne q _ (Option.some_ne_none w).symm]
  rfl

/-- The push moves the value from the listener to the end of the queue. -/
theorem pending_push {a : Fd} (hm : q.mutex = some none) (hp : q.pc none = .addPush a) :
    pending (q.push none a) = pending q := by
  have hbefore : outgoing q = [] := by simp only [outgoing, hm, hp, leaving]
  have hafter : outgoing (q.push none a) = [] := by
    show (match q.mutex with
      | none => []
      | some u => leaving ((q.goto none .addTest).pc u)) = []
    simp only [hm, goto_pc_self, leaving]
  unfold pending
  rw [hbefore, hafter, hp]
  show ([] ++ (q.q ++ [a])) ++ entering ((q.goto none .addTest).pc none) = _
  rw [goto_pc_self]
  simp [entering]

/-- The pop moves the front of the queue to the worker. -/
theorem pending_pop {w : W} {r : Fd} {rest : List Fd} (hm : q.mutex = some (some w))
    (hp : q.pc (some w) = .removePop) (hq : q.q = r :: rest) :
    pending (q.pop (some w) r rest) = pending q := by
  have hbefore : outgoing q = [] := by simp only [outgoing, hm, hp, leaving]
  have hafter : outgoing (q.pop (some w) r rest) = [r] := by
    show (match q.mutex with
      | none => []
      | some u => leaving ((q.goto (some w) (.removeUnlock r)).pc u)) = [r]
    simp only [hm, goto_pc_self, leaving]
  unfold pending
  rw [hbefore, hafter, hq]
  show [r] ++ rest ++ entering ((q.goto (some w) (.removeUnlock r)).pc none) = _
  rw [goto_pc_of_ne q _ (Option.some_ne_none w).symm]
  rfl

omit [DecidableEq W] in
theorem notifyAll_same (pc : Option W → Pc) (u : Option W) :
    entering (notifyAll pc u) = entering (pc u) ∧ leaving (notifyAll pc u) = leaving (pc u) ∧
      adding (notifyAll pc u) = adding (pc u) ∧ removing (notifyAll pc u) = removing (pc u) := by
  unfold notifyAll
  split
  · next h =>
    rw [h]
    exact ⟨rfl, rfl, rfl, rfl⟩
  · exact ⟨rfl, rfl, rfl, rfl⟩

/-- The broadcast moves no value and no thread to the other side. -/
theorem notify_same (hroles : Roles q) (hp : q.pc t = .addTest) :
    Roles (({ q with pc := notifyAll q.pc } : Machine (Option W)).goto t .addUnlock) ∧
      pending (({ q with pc := notifyAll q.pc } : Machine (Option W)).goto t .addUnlock) = pending q := by
  let n : Machine (Option W) := { q with pc := notifyAll q.pc }
  have hn : Roles n := by
    refine ⟨?_, fun w => ?_⟩
    · rw [show n.pc = notifyAll q.pc from rfl, (notifyAll_same q.pc none).2.2.2]
      exact hroles.listener
    · rw [show n.pc = notifyAll q.pc from rfl, (notifyAll_same q.pc (some w)).2.2.1]
      exact hroles.worker w
  have ht : t = none := hroles.none_of_adding (by rw [hp]; rfl)
  have hpn : n.pc t = .addTest := by
    show notifyAll q.pc t = .addTest
    unfold notifyAll
    rw [hp]
    rfl
  have hpending : pending n = pending q := by
    unfold pending outgoing
    show (match q.mutex with
      | none => []
      | some u => leaving (notifyAll q.pc u)) ++ q.q ++ entering (notifyAll q.pc none) = _
    rw [(notifyAll_same q.pc none).1]
    cases q.mutex with
    | none => rfl
    | some u =>
      show leaving (notifyAll q.pc u) ++ _ ++ _ = _
      rw [(notifyAll_same q.pc u).2.1]
  refine ⟨hn.goto .addUnlock rfl (fun _ => ht) nofun, ?_⟩
  rw [← hpending]
  exact pending_goto (by rw [hpn]; rfl) (by rw [hpn]; rfl)

/-- A thread outside stays there while others move. -/
theorem outside_mstep {u : Option W} (hs : MStep q t q') (hout : q.pc t ≠ .outside)
    (hu : q.pc u = .outside) : q'.pc u = .outside := by
  have hut : u ≠ t := fun hc => hout (hc ▸ hu)
  have hgoto : ∀ p, (q.goto t p).pc u = .outside := fun p => by rw [goto_pc_of_ne q p hut, hu]
  cases hs with
  | notify hp _ =>
    rw [goto_pc_of_ne _ _ hut]
    show notifyAll q.pc u = .outside
    unfold notifyAll
    rw [hu]
    rfl
  | _ => exact hgoto _

/-- **Inside the queue** nothing is lost, added or put out of order. -/
theorem pending_mstep (hown : Owned q) (hroles : Roles q) (hout : q.pc t ≠ .outside)
    (hreturn : ∀ r, q.pc t ≠ .removeUnlock r) (hs : MStep q t q') :
    Roles q' ∧ pending q' = pending q := by
  have held : ∀ p, q.pc t = p → p.holds = true → q.mutex = some t :=
    fun p hp hh => hown.holder t (hp ▸ hh)
  have isAdding : ∀ p, q.pc t = p → adding p = true → t = none :=
    fun p hp ha => hroles.none_of_adding (hp ▸ ha)
  have isRemoving : ∀ p, q.pc t = p → removing p = true → t ≠ none :=
    fun p hp hr => hroles.ne_none_of_removing (hp ▸ hr)
  cases hs with
  | callAdd a hp => exact absurd hp hout
  | callRemove hp => exact absurd hp hout
  | lockAdd a hp hm =>
    refine ⟨hroles.goto (.addPush a) rfl (fun _ => isAdding _ hp rfl) nofun, pending_lock hm ?_ rfl⟩
    rw [hp]
    rfl
  | push a hp =>
    have hm := held _ hp rfl
    obtain rfl := isAdding _ hp rfl
    exact ⟨hroles.goto .addTest rfl (fun _ => rfl) nofun, pending_push hm hp⟩
  | notify hp _ => exact notify_same hroles hp
  | keepQuiet hp _ =>
    refine ⟨hroles.goto .addUnlock rfl (fun _ => isAdding _ hp rfl) nofun, pending_goto ?_ ?_⟩
    · rw [hp]
      rfl
    · rw [hp]
      rfl
  | unlockAdd hp =>
    refine ⟨hroles.goto .outside rfl nofun nofun, pending_unlock (held _ hp rfl) ?_ ?_⟩
    · rw [hp]
      rfl
    · rw [hp]
      rfl
  | lockRemove hp hm =>
    have ht : t ≠ none := hp.elim (fun hp => isRemoving _ hp rfl) fun hp => isRemoving _ hp rfl
    refine ⟨hroles.goto .removeTest rfl nofun (fun _ => ht), pending_lock hm ?_ rfl⟩
    rcases hp with hp | hp
    · rw [hp]
      rfl
    · rw [hp]
      rfl
  | wait hp _ =>
    refine ⟨hroles.goto .wait rfl nofun (fun _ => isRemoving _ hp rfl), pending_unlock (held _ hp rfl) ?_ ?_⟩
    · rw [hp]
      rfl
    · rw [hp]
      rfl
  | leaveLoop hp _ =>
    refine ⟨hroles.goto .removePop rfl nofun (fun _ => isRemoving _ hp rfl), pending_goto ?_ ?_⟩
    · rw [hp]
      rfl
    · rw [hp]
      rfl
  | pop r rest hp hq =>
    have hm := held _ hp rfl
    have ht := isRemoving _ hp rfl
    obtain ⟨w, rfl⟩ := Option.ne_none_iff_exists'.mp ht
    exact ⟨hroles.goto (.removeUnlock r) rfl nofun (fun _ => ht), pending_pop hm hp hq⟩
  | unlockRemove r hp => exact absurd hp (hreturn r)
  | spurious hp =>
    refine ⟨hroles.goto .relock rfl nofun (fun _ => isRemoving _ hp rfl), pending_goto ?_ ?_⟩
    · rw [hp]
      rfl
    · rw [hp]
      rfl

end Pixie.Server
