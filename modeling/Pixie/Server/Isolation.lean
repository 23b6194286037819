/-
  Isolation: whatever the schedule, no worker touches a connection of another.

  1. `Inv` — the invariant of the process.  What the queue answers for and what the workers hold are
     apart (`Isolated`); what a worker holds denotes a connection that it was handed or has opened
     (`mine`); and the connections handed out so far, followed by those that the queued descriptors
     denote, are the accepted ones in their order (`account`).

  2. One lemma for each step.  A call is where the threads could meet: the kernel opens and closes by
     number.  That the number is the worker's own is what the monitor of the handlers is about
     (`watched_of_contained`), as long as the worker's calls are `Contained`.

  3. `process_isolated` — **every descriptor that a call of a worker names denotes a connection of that
     worker**; the accepted connections are handed out in the order in which they came; and none of them
     to two workers.
-/
import Pixie.Server.Process

namespace Pixie.Server

open Pixie.Net Pixie.Blk Pixie.Proxy Pixie.Work Pixie.Run Pixie.Wp Pixie.Ownership

variable {W : Type} [DecidableEq W]

/-- What a worker holds. -/
def holding : Ctrl → List Fd
  | .idle => []
  | .handling fd tr =>
      match watched watch (Holding.start fd) tr with
      | .ok h => h.opn
      | .error _ => []

/-- What the queue answers for, and what the workers hold. -/
def holds (q : Machine (Option W)) (ctrl : W → Ctrl) : Option W → List Fd
  | none => pending q
  | some w => holding (ctrl w)

/-- The worker was handed the connection, or has opened it. -/
def Has (s : Process W) (w : W) (c : Nat) : Prop := (w, some c) ∈ s.served ∨ (w, c) ∈ s.dialed

/-- Different numbers, all of them given out. -/
def Numbered (next : Nat) (cs : List Nat) : Prop := cs.Nodup ∧ ∀ c ∈ cs, c < next

/-- What holds in every state that the process comes to. -/
structure Inv (s : Process W) : Prop where
  owned : Owned s.queue
  roles : Roles s.queue
  /-- a worker that handles something is not in the queue -/
  busy : ∀ w fd tr, s.ctrl w = .handling fd tr → s.queue.pc (some w) = .outside
  kept : ∀ w fd tr, s.ctrl w = .handling fd tr →
    ∃ h, watched watch (Holding.start fd) tr = .ok h
  isolated : Isolated s.live (holds s.queue s.ctrl)
  mine : ∀ w, ∀ fd ∈ holding (s.ctrl w), ∃ c, s.live fd = some c ∧ Has s w c
  account : s.served.map Prod.snd ++ (pending s.queue).map s.live = s.accepted.map some
  /-- connections are numbered in the order in which they are made -/
  old : ∀ fd c, s.live fd = some c → c < s.next
  numbered : Numbered s.next (s.accepted ++ s.dialed.map Prod.snd)

/-- The workers' calls have been contained. -/
def Sound (s : Process W) : Prop := ∀ w fd tr, s.ctrl w = .handling fd tr → Contained tr

/-- A step after which they still are. -/
def SoundStep (protocol : Protocol) (s s' : Process W) : Prop := PStep protocol s s' ∧ Sound s'

variable {protocol : Protocol} {s s' : Process W} {q q' : Machine (Option W)} {ctrl : W → Ctrl}
  {w : W}

/-! ## Holders -/

theorem holds_ctrl (c : Ctrl) : holds q (Function.update ctrl w c) =
    Function.update (holds q ctrl) (some w) (holding c) := by
  funext i
  cases i with
  | none => rw [Function.update_of_ne (Option.some_ne_none w).symm]; rfl
  | some v =>
    by_cases hv : v = w
    · rw [hv, Function.update_self]
      show holding (Function.update ctrl w c w) = _
      rw [Function.update_self]
    · rw [Function.update_of_ne (fun hc => hv (Option.some.inj hc))]
      show holding (Function.update ctrl w c v) = _
      rw [Function.update_of_ne hv]
      rfl

theorem holds_queue : holds q' ctrl = Function.update (holds q ctrl) none (pending q') := by
  funext i
  cases i with
  | none => rw [Function.update_self]; rfl
  | some v => rw [Function.update_of_ne (Option.some_ne_none v)]; rfl

theorem holding_ok {fd : Fd} {tr : List Event} {h : Holding}
    (hw : watched watch (Holding.start fd) tr = .ok h) : holding (.handling fd tr) = h.opn := by
  show (match watched watch (Holding.start fd) tr with
    | .ok h => h.opn
    | .error _ => []) = h.opn
  rw [hw]

omit [DecidableEq W] in
/-- What is not in use is not queued. -/
theorem Inv.not_pending (h : Inv s) {n : Fd} (hn : s.live n = none) : n ∉ pending s.queue :=
  h.isolated.not_mem hn none

theorem map_update_of_not_mem {l : List Fd} {live : Fd → Option Nat} {n : Fd} (hn : n ∉ l)
    (c : Option Nat) : l.map (Function.update live n c) = l.map live := by
  apply List.map_congr_left
  intro x hx
  have hxn : x ≠ n := by
    rintro rfl
    exact hn hx
  exact Function.update_of_ne hxn ..

omit [DecidableEq W] in
/-- What the workers hold does not change when a descriptor that nobody holds is opened. -/
theorem Inv.mine_update (h : Inv s) {n : Fd} (hn : s.live n = none) (c : Option Nat) (w : W) :
    ∀ fd ∈ holding (s.ctrl w), ∃ k, Function.update s.live n c fd = some k ∧ Has s w k := by
  intro fd hfd
  have hfn : fd ≠ n := by
    rintro rfl
    exact h.isolated.not_mem hn (some w) hfd
  rw [Function.update_of_ne hfn]
  exact h.mine w fd hfd

omit [DecidableEq W] in
/-- A new connection gets the next number. -/
theorem Inv.old_update (h : Inv s) (n : Fd) :
    ∀ fd c, Function.update s.live n (some s.next) fd = some c → c < s.next + 1 := by
  intro fd c hc
  by_cases hfn : fd = n
  · rw [hfn, Function.update_self] at hc
    cases hc
    exact Nat.lt_succ_self _
  · rw [Function.update_of_ne hfn] at hc
    exact Nat.lt_succ_of_lt (h.old fd c hc)

theorem Numbered.insert {k : Nat} {cs ds : List Nat} (h : Numbered k (cs ++ ds)) :
    Numbered (k + 1) (cs ++ k :: ds) := by
  refine ⟨List.nodup_middle.mpr (List.nodup_cons.mpr ⟨?_, h.1⟩), ?_⟩
  · exact fun hc => Nat.lt_irrefl k (h.2 k hc)
  · intro c hc
    rcases List.mem_cons.mp (List.perm_middle.subset hc) with rfl | hc
    · exact Nat.lt_succ_self c
    · exact Nat.lt_succ_of_lt (h.2 c hc)

/-! ## The listener -/

theorem inv_accept (h : Inv s) {n : Nat} (hpc : s.queue.pc none = .outside) (hn : s.live n = none) :
    Inv { s with
      queue := s.queue.goto none (.addLock n)
      live := Function.update s.live n (some s.next)
      next := s.next + 1
      accepted := s.accepted ++ [s.next] } := by
  have hpending : pending (s.queue.goto none (.addLock n)) = pending s.queue ++ [(n : Fd)] :=
    pending_enter hpc
  refine { h with
    owned := owned_step _ _ h.owned ⟨none, .callAdd _ hpc⟩
    roles := h.roles.goto (.addLock n) rfl (fun _ => rfl) nofun
    busy := ?_, isolated := ?_, mine := ?_, account := ?_, old := ?_, numbered := ?_ }
  · intro w fd tr hw
    rw [goto_pc_of_ne _ _ (Option.some_ne_none w)]
    exact h.busy w fd tr hw
  · have hacquired := h.isolated.acquire hn none s.next
    refine hacquired.drop fun i => ?_
    rw [holds_queue (q := s.queue), hpending]
    cases i with
    | none =>
      rw [Function.update_self, Function.update_self]
      exact (List.perm_append_singleton ..).subperm
    | some w =>
      have hw := Option.some_ne_none w
      rw [Function.update_of_ne hw, Function.update_of_ne hw]
  · exact h.mine_update hn _
  · dsimp only
    rw [hpending, List.map_append, map_update_of_not_mem (h.not_pending hn), ← List.append_assoc,
      h.account, List.map_append]
    simp [Function.update_self]
  · exact h.old_update n
  · dsimp only
    rw [List.append_assoc]
    exact h.numbered.insert

omit [DecidableEq W] in
theorem inv_acceptZero (h : Inv s) (hn : s.live 0 = none) :
    Inv { s with
      listening := false
      live := Function.update s.live 0 (some s.next)
      next := s.next + 1 } := by
  refine { h with
    isolated := h.isolated.leak s.next, mine := h.mine_update hn _, account := ?_,
    old := h.old_update 0, numbered := ?_ }
  · dsimp only
    rw [map_update_of_not_mem (h.not_pending hn)]
    exact h.account
  · exact ⟨h.numbered.1, fun c hc => Nat.lt_succ_of_lt (h.numbered.2 c hc)⟩

/-! ## The queue -/

/-- A step inside the queue that keeps the descriptors in it. -/
theorem Inv.withQueue (h : Inv s) (howned : Owned q) (hroles : Roles q)
    (hpending : pending q = pending s.queue)
    (hbusy : ∀ w fd tr, s.ctrl w = .handling fd tr → q.pc (some w) = .outside) :
    Inv { s with queue := q } := by
  refine { h with
    owned := howned, roles := hroles, busy := hbusy, isolated := ?_, account := ?_ }
  · dsimp only
    rw [holds_queue (q := s.queue), hpending]
    exact (Function.update_eq_self none (holds s.queue s.ctrl)).symm ▸ h.isolated
  · dsimp only
    rw [hpending]
    exact h.account

theorem inv_inside (h : Inv s) {t : Option W} (hout : s.queue.pc t ≠ .outside)
    (hreturn : ∀ r, s.queue.pc t ≠ .removeUnlock r) (hs : MStep s.queue t q) :
    Inv { s with queue := q } := by
  obtain ⟨hroles, hpending⟩ := pending_mstep h.owned h.roles hout hreturn hs
  exact h.withQueue (owned_step _ _ h.owned ⟨t, hs⟩) hroles hpending
    fun w fd tr hw => outside_mstep hs hout (h.busy w fd tr hw)

theorem inv_callRemove (h : Inv s) (hidle : s.ctrl w = .idle) (hpc : s.queue.pc (some w) = .outside) :
    Inv { s with queue := s.queue.goto (some w) .removeLock } := by
  refine h.withQueue (owned_step _ _ h.owned ⟨some w, .callRemove hpc⟩)
    (h.roles.goto .removeLock rfl nofun fun _ => Option.some_ne_none w)
    (pending_goto (by rw [hpc]; rfl) (by rw [hpc]; rfl)) ?_
  intro v fd tr hv
  have hne : some v ≠ some w := by
    intro hc
    rw [Option.some.inj hc, hidle] at hv
    cases hv
  rw [goto_pc_of_ne _ _ hne]
  exact h.busy v fd tr hv

/-! ## The workers -/

omit [DecidableEq W] in
/-- A worker inside `remove` handles nothing. -/
theorem Inv.idle_of_inside (h : Inv s) (hpc : s.queue.pc (some w) ≠ .outside) : s.ctrl w = .idle := by
  cases hc : s.ctrl w with
  | idle => rfl
  | handling fd tr => exact absurd (h.busy w fd tr hc) hpc

/-- **The hand-over**: the first of the queued descriptors becomes the worker's. -/
theorem inv_take (h : Inv s) {r : Fd} (hpc : s.queue.pc (some w) = .removeUnlock r) :
    Inv { s with
      queue := s.queue.unlock (some w) .outside
      ctrl := Function.update s.ctrl w (.handling r [])
      served := s.served ++ [(w, s.live r)] } := by
  have hm : s.queue.mutex = some (some w) := h.owned.holder _ (by rw [hpc]; rfl)
  have hidle : s.ctrl w = .idle := h.idle_of_inside (by rw [hpc]; nofun)
  have hpending := pending_leave hm hpc
  have hr : r ∈ holds s.queue s.ctrl none := by
    show r ∈ pending s.queue
    rw [hpending]
    exact List.mem_cons_self
  obtain ⟨c, hc⟩ := Option.ne_none_iff_exists'.mp (h.isolated.live none r hr)
  have hnew : holding (.handling r []) = [r] := rfl
  refine { h with
    owned := owned_step _ _ h.owned ⟨some w, .unlockRemove r hpc⟩
    roles := h.roles.goto .outside rfl nofun nofun
    busy := ?_, kept := ?_, isolated := ?_, mine := ?_, account := ?_ }
  · intro v fd tr hv
    by_cases hvw : v = w
    · rw [hvw]
      exact goto_pc_self ..
    · dsimp only at hv
      rw [Function.update_of_ne hvw] at hv
      show (s.queue.goto (some w) .outside).pc (some v) = _
      rw [goto_pc_of_ne _ _ fun hc => hvw (Option.some.inj hc)]
      exact h.busy v fd tr hv
  · intro v fd tr hv
    by_cases hvw : v = w
    · dsimp only at hv
      rw [hvw, Function.update_self] at hv
      cases hv
      exact ⟨_, rfl⟩
    · dsimp only at hv
      rw [Function.update_of_ne hvw] at hv
      exact h.kept v fd tr hv
  · have hmoved := h.isolated.transfer hr (Option.some_ne_none w).symm
    dsimp only
    rw [holds_ctrl, holds_queue (q := s.queue), hnew]
    have hfront : (holds s.queue s.ctrl none).erase r = pending (s.queue.unlock (some w) .outside) := by
      show (pending s.queue).erase r = _
      rw [hpending, List.erase_cons_head]
    have hnone : holds s.queue s.ctrl (some w) = [] := by
      show holding (s.ctrl w) = []
      rw [hidle]
      rfl
    rw [hfront, hnone] at hmoved
    exact hmoved
  · intro v fd hfd
    by_cases hvw : v = w
    · dsimp only at hfd
      rw [hvw, Function.update_self, hnew, List.mem_singleton] at hfd
      rw [hfd, hvw]
      refine ⟨c, hc, .inl ?_⟩
      show (w, some c) ∈ s.served ++ [(w, s.live r)]
      rw [hc]
      exact List.mem_append_right _ (List.mem_singleton_self _)
    · dsimp only at hfd
      rw [Function.update_of_ne hvw] at hfd
      obtain ⟨k, hk, hhas⟩ := h.mine v fd hfd
      exact ⟨k, hk, hhas.imp_left fun hin => List.mem_append_left _ hin⟩
  · have haccount := h.account
    rw [hpending, List.map_cons] at haccount
    dsimp only
    rw [List.map_append, List.append_assoc, ← haccount]
    rfl

omit [DecidableEq W] in
/-- What a worker that handles something holds. -/
theorem Inv.holdingOf (h : Inv s) {fd : Fd} {tr : List Event} (hw : s.ctrl w = .handling fd tr) :
    ∃ k, watched watch (Holding.start fd) tr = .ok k ∧ holding (s.ctrl w) = k.opn := by
  obtain ⟨k, hk⟩ := h.kept w fd tr hw
  exact ⟨k, hk, by rw [hw, holding_ok hk]⟩

/-- A worker's call, when the table has done its part. -/
theorem Inv.called (h : Inv s) {fd : Fd} {tr : List Event} {e : Event} {k : Holding}
    (hw : s.ctrl w = .handling fd tr) (hk : watched watch (Holding.start fd) (tr ++ [e]) = .ok k)
    {live : Fd → Option Nat} {next : Nat} {dialed : List (W × Nat)}
    (hisolated : Isolated live (Function.update (holds s.queue s.ctrl) (some w) k.opn))
    (hmine : ∀ x ∈ k.opn, ∃ c, live x = some c ∧ ((w, some c) ∈ s.served ∨ (w, c) ∈ dialed))
    (hothers : ∀ v, v ≠ w → ∀ x ∈ holding (s.ctrl v), live x = s.live x)
    (hdialed : ∀ y ∈ s.dialed, y ∈ dialed)
    (hpending : (pending s.queue).map live = (pending s.queue).map s.live)
    (hold : ∀ fd c, live fd = some c → c < next)
    (hnumbered : Numbered next (s.accepted ++ dialed.map Prod.snd)) :
    Inv { s with
      live := live
      next := next
      dialed := dialed
      ctrl := Function.update s.ctrl w (.handling fd (tr ++ [e])) } := by
  refine { h with
    busy := ?_, kept := ?_, isolated := ?_, mine := ?_, account := ?_, old := hold,
    numbered := hnumbered }
  · intro v fd' tr' hv
    by_cases hvw : v = w
    · rw [hvw]
      exact h.busy w fd tr hw
    · dsimp only at hv
      rw [Function.update_of_ne hvw] at hv
      exact h.busy v fd' tr' hv
  · intro v fd' tr' hv
    by_cases hvw : v = w
    · dsimp only at hv
      rw [hvw, Function.update_self] at hv
      cases hv
      exact ⟨k, hk⟩
    · dsimp only at hv
      rw [Function.update_of_ne hvw] at hv
      exact h.kept v fd' tr' hv
  · dsimp only
    rw [holds_ctrl, holding_ok hk]
    exact hisolated
  · intro v x hx
    by_cases hvw : v = w
    · dsimp only at hx
      rw [hvw, Function.update_self, holding_ok hk] at hx
      rw [hvw]
      exact hmine x hx
    · dsimp only at hx
      rw [Function.update_of_ne hvw] at hx
      obtain ⟨c, hc, hhas⟩ := h.mine v x hx
      refine ⟨c, ?_, hhas.imp_right (hdialed _)⟩
      show live x = some c
      rw [hothers v hvw x hx, hc]
  · dsimp only
    rw [hpending]
    exact h.account

/-- **A call**: what it opens becomes the worker's own, and what it closes was. -/
theorem inv_call (h : Inv s) {fd : Fd} {tr : List Event} {e : Event}
    (hw : s.ctrl w = .handling fd tr) (hfollows : Follows protocol fd (tr ++ [e]))
    (hcontained : Contained (tr ++ [e])) (hkernel : Kernel s w e s') :
    Inv { s' with ctrl := Function.update s'.ctrl w (.handling fd (tr ++ [e])) } := by
  obtain ⟨env, hprefix⟩ := hfollows
  obtain ⟨k, hk⟩ := watched_of_contained hprefix hcontained
  obtain ⟨k₀, hk₀, hholding⟩ := h.holdingOf hw
  have hwatch : watch k₀ e = .ok k := (watched_snoc hk₀ e).symm.trans hk
  obtain ⟨hpermits, hsettle⟩ := watch_inv hwatch
  have hholds : holds s.queue s.ctrl (some w) = k₀.opn := hholding
  have hmine : ∀ x ∈ k₀.opn, ∃ c, s.live x = some c ∧ Has s w c := fun x hx =>
    h.mine w x (hholding ▸ hx)
  cases hkernel with
  | opens e n hopens hn =>
    have hopn : n :: k₀.opn = k.opn := Option.some.inj ((settle_of_opens hopens).symm.trans hsettle)
    have hfresh : ∀ i, n ∉ holds s.queue s.ctrl i := h.isolated.not_mem hn
    refine h.called hw hk ?_ ?_ ?_ ?_ ?_ (h.old_update n) ?_
    · rw [← hopn, ← hholds]
      exact h.isolated.acquire hn (some w) s.next
    · rw [← hopn]
      intro x hx
      rcases List.mem_cons.mp hx with rfl | hmem
      · refine ⟨s.next, Function.update_self .., .inr ?_⟩
        exact List.mem_append_right _ (List.mem_singleton_self _)
      · have hxn : x ≠ n := by
          rintro rfl
          exact hfresh (some w) (by rw [hholds]; exact hmem)
        obtain ⟨c, hc, hhas⟩ := hmine x hmem
        refine ⟨c, ?_, hhas.imp_right fun hin => List.mem_append_left _ hin⟩
        exact (Function.update_of_ne hxn ..).trans hc
    · intro v _ x hx
      have hxn : x ≠ n := by
        rintro rfl
        exact hfresh (some v) hx
      exact Function.update_of_ne hxn ..
    · exact fun y hy => List.mem_append_left _ hy
    · exact map_update_of_not_mem (hfresh none) _
    · rw [List.map_append, ← List.append_assoc]
      have := h.numbered
      rw [← List.append_nil (s.accepted ++ _)] at this
      exact this.insert
  | closes x n hx =>
    -- the descriptor is named, so it is one that is held
    obtain ⟨f, hf, rfl⟩ := List.mem_map.mp (hpermits x (List.mem_singleton_self x))
    obtain rfl : f = n := hx f rfl
    have hopn : k₀.opn.erase f = k.opn := Option.some.inj ((if_pos hf).symm.trans hsettle)
    have hheld : f ∈ holds s.queue s.ctrl (some w) := by
      rw [hholds]
      exact hf
    have hreleased := h.isolated.release hheld
    rw [hholds, hopn] at hreleased
    have hother : ∀ i, i ≠ some w → f ∉ holds s.queue s.ctrl i := fun i hi hc =>
      hi (h.isolated.apart i (some w) f hc hheld)
    refine h.called hw hk hreleased ?_ ?_ (fun _ hy => hy) ?_ ?_ h.numbered
    · intro y hy
      have hyf : y ≠ f := by
        rintro rfl
        rw [← hopn] at hy
        have hnodup := h.isolated.nodup (some w)
        rw [hholds] at hnodup
        exact hnodup.not_mem_erase hy
      obtain ⟨c, hc, hhas⟩ := hmine y (by rw [← hopn] at hy; exact List.mem_of_mem_erase hy)
      exact ⟨c, (Function.update_of_ne hyf ..).trans hc, hhas⟩
    · intro v hv y hy
      have hyf : y ≠ f := by
        rintro rfl
        exact hother (some v) (fun hc => hv (Option.some.inj hc)) hy
      exact Function.update_of_ne hyf ..
    · exact map_update_of_not_mem (hother none (Option.some_ne_none w).symm) _
    · intro y c hc
      by_cases hyf : y = f
      · dsimp only at hc
        rw [hyf, Function.update_self] at hc
        cases hc
      · dsimp only at hc
        rw [Function.update_of_ne hyf] at hc
        exact h.old y c hc
  | quiet e hopens hclose =>
    have hopn : k₀.opn = k.opn := Option.some.inj ((settle_of_quiet hopens hclose).symm.trans hsettle)
    refine h.called hw hk ?_ (hopn ▸ hmine) (fun _ _ _ _ => rfl) (fun _ hy => hy) rfl h.old h.numbered
    rw [← hopn, ← hholds, Function.update_eq_self]
    exact h.isolated

/-- The handler has returned.  What it has not closed stays open, and nobody holds it. -/
theorem inv_finish (h : Inv s) : Inv { s with ctrl := Function.update s.ctrl w .idle } := by
  have hctrl : ∀ v fd tr, Function.update s.ctrl w .idle v = .handling fd tr →
      s.ctrl v = .handling fd tr := by
    intro v fd tr hv
    by_cases hvw : v = w
    · rw [hvw, Function.update_self] at hv
      cases hv
    · rw [Function.update_of_ne hvw] at hv
      exact hv
  refine { h with
    busy := fun v fd tr hv => h.busy v fd tr (hctrl v fd tr hv)
    kept := fun v fd tr hv => h.kept v fd tr (hctrl v fd tr hv)
    isolated := ?_, mine := ?_ }
  · dsimp only
    rw [holds_ctrl]
    refine h.isolated.drop fun i => ?_
    by_cases hi : i = some w
    · rw [hi, Function.update_self]
      exact List.nil_subperm
    · rw [Function.update_of_ne hi]
  · intro v x hx
    by_cases hvw : v = w
    · dsimp only at hx
      rw [hvw, Function.update_self] at hx
      cases hx
    · dsimp only at hx
      rw [Function.update_of_ne hvw] at hx
      exact h.mine v x hx

/-! ## Every run -/

/-- **Every step keeps the invariant.** -/
theorem inv_step (s s' : Process W) (h : Inv s) (hs : SoundStep protocol s s') : Inv s' := by
  obtain ⟨hstep, hsound⟩ := hs
  cases hstep with
  | accept n _ hpc _ hn => exact inv_accept h hpc hn
  | acceptZero _ _ hn => exact inv_acceptZero h hn
  | acceptFails _ _ => exact { h with }
  | inside t q hout hreturn hs => exact inv_inside h hout hreturn hs
  | callRemove w hidle hpc => exact inv_callRemove h hidle hpc
  | take w r hpc => exact inv_take h hpc
  | call w fd tr e s' hw hfollows hkernel =>
    exact inv_call h hw hfollows (hsound w fd _ (Function.update_self ..)) hkernel
  | finish w fd tr _ _ => exact inv_finish h

omit [DecidableEq W] in
theorem inv_init (s : Process W) (h : PInit s) : Inv s := by
  obtain ⟨hqueue, hidle, haccepted, hserved, hdialed, hold⟩ := h
  have hpending : pending s.queue = [] := by
    obtain ⟨hm, hq, -, -, hpc⟩ := hqueue
    unfold pending outgoing
    rw [hm, hq, hpc]
    rfl
  have hholds : ∀ i, holds s.queue s.ctrl i = [] := by
    intro i
    cases i with
    | none => exact hpending
    | some w =>
      show holding (s.ctrl w) = []
      rw [hidle w]
      rfl
  have hctrl : ∀ {w fd tr}, s.ctrl w ≠ .handling fd tr := fun {w fd tr} hc => by
    rw [hidle w] at hc
    cases hc
  refine ⟨owned_init hqueue, ⟨?_, ?_⟩, fun w fd tr hc => absurd hc hctrl,
    fun w fd tr hc => absurd hc hctrl, ⟨?_, ?_, ?_⟩, ?_, ?_, hold, ?_⟩
  · rw [hqueue.2.2.2.2]
    rfl
  · intro w
    rw [hqueue.2.2.2.2]
    rfl
  · intro i r hr
    rw [hholds] at hr
    cases hr
  · intro i
    rw [hholds]
    exact List.nodup_nil
  · intro i j r hr
    rw [hholds] at hr
    cases hr
  · intro w fd hfd
    rw [hidle] at hfd
    cases hfd
  · rw [hserved, hpending, haccepted]
    rfl
  · rw [haccepted, hdialed]
    exact ⟨List.nodup_nil, nofun⟩

theorem inv_reachable (h : Reachable PInit (SoundStep protocol) s) : Inv s :=
  h.invariant inv_init inv_step

end Pixie.Server
