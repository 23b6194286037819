/-
  Requests and responses: does each client request get the response that belongs to it?

  1. **The proxy follows the machine** (`NormalServe.path`) of a conversation, in every run whose reads
     do not fail and whose connections have a descriptor; and it never leaves off between a failure and
     the close.  There is one step for each event, so the relations of a session become paths.

  2. **The bytes** are a matter of their own: a message goes out as its encoding if there is no NUL in
     it, and the invariant says which messages go out (`Tally.whole`).

  3. **The handler** — `corresponds_of_clear` puts the two together.  A read that fails is the exception
     that leaves the client's socket open.
-/
import Pixie.Proxy.Conversation

namespace Pixie.Proxy

open Pixie.Decimal Pixie.Net Pixie.Blk Pixie.Wp Pixie.Run

/-! ## The proxy follows the machine -/

/-- Every event is as assumed, and sound. -/
def Fine (tr : List Event) : Prop := ∀ e ∈ tr, e.assumed = true ∧ e.sound = true

@[simp] theorem fine_nil : Fine [] := nofun

@[simp] theorem fine_cons {e : Event} {tr : List Event} :
    Fine (e :: tr) ↔ (e.assumed = true ∧ e.sound = true) ∧ Fine tr := List.forall_mem_cons

@[simp] theorem fine_append {tr tr' : List Event} : Fine (tr ++ tr') ↔ Fine tr ∧ Fine tr' :=
  List.forall_mem_append

/-- Where a run can leave the conversation: closed, or in a call that has not come back. -/
def Ends (φ : Phase) (r : Except Stop Unit) : Prop :=
  (∃ σ, φ = .closed σ) ∧ r = .ok () ∨ (∃ σ n, φ = .going σ n) ∧ r = .error .pending

section Following

variable {fd : Fd} {port : Int32} {m m' resp : BlkMessage} {e : Event} {tr : List Event}
  {side : Side} {x : Option Fd} {link : Fd} {k : Stop} {r : Except Stop Unit} {n : Nat} {σ : Stage}

theorem path_single {φ φ' : Phase} (h : Step fd φ e φ') : Path (Step fd) φ [e] φ' :=
  .cons h (.nil φ')

theorem Sent.forwarded (h : Sent .upstream (some link) (request m) e) :
    Step fd (.going (.linked m link) n) e (.going (.waiting m link) 0) := by
  cases h with
  | intro o ho => exact .forwarded

theorem Sent.replied (h : Sent .client (some fd) resp e) :
    Step fd (.going (.answered m link resp) n) e (.going .idle 0) := by
  cases h with
  | intro o ho => exact .replied

theorem Got.answered (h : Got .upstream (some link) resp e) :
    Step fd (.going (.waiting m link) n) e (.going (.answered m link resp) 0) := by
  cases h with
  | intro used f ho => exact .answered

theorem Got.heard (h : Got .client (some fd) m e) :
    Step fd (.going .idle n) e (.going (.asking m) 0) := by
  cases h with
  | intro used f ho => exact .heard

theorem Over.unanswered (h : Over .upstream (some link) e) :
    Step fd (.going (.waiting m link) n) e (.failed (.waiting m link)) := by
  cases h with
  | intro used msg status ho hst => exact .unanswered

theorem Over.ended (h : Over .client (some fd) e) : Step fd (.going .idle n) e (.failed .idle) := by
  cases h with
  | intro used msg status ho hst => exact .ended

/-- A handler that stops in a write is waiting: a whole write is not partial. -/
theorem SendStops.path (h : SendStops side x m tr k) (hfine : Fine tr) :
    k = .pending ∧ Path (Step fd) (.going σ n) tr (.going σ 0) := by
  cases h with
  | waits => exact ⟨rfl, path_single (.waits .send)⟩
  | short o ho =>
    have hall : o = .all := of_decide_eq_true (fine_cons.mp hfine).1.1
    rw [hall] at ho
    exact absurd ho (not_partial_all _)

/-- A handler that stops in a read is waiting: no read fails. -/
theorem RecvStops.path (h : RecvStops side x tr k) (hfine : Fine tr) :
    k = .pending ∧ Path (Step fd) (.going σ n) tr (.going σ 0) := by
  cases h with
  | waits used msg ho => exact ⟨rfl, path_single (.waits .recv)⟩
  | threw used msg hbad =>
    have hnot : ¬ Failing used := of_decide_eq_true (fine_cons.mp hfine).1.2
    exact absurd hbad hnot

/-- Attempts that fail, as long as there are not four of them. -/
theorem path_refused {os : List DialOutcome} (hos : ∀ o ∈ os, o.status ≠ 0)
    (hn : n + os.length ≤ 3) :
    Path (Step fd) (.going (.asking m) n) (dials port os) (.going (.asking m) (n + os.length)) := by
  induction os generalizing n with
  | nil => exact .nil _
  | cons o os ih =>
    rw [List.length_cons] at hn ⊢
    have hrest := @ih (n + 1) (fun o' ho' => hos o' (List.mem_cons_of_mem _ ho')) (by omega)
    rw [Nat.add_right_comm] at hrest
    exact .cons (.refused (hos o (List.mem_cons_self ..)) (by omega)) hrest

/-- **The attempts of a round** lead to a connection, and the client keeps its descriptor. -/
theorem path_accepted {os : List DialOutcome} {o : DialOutcome} (h : Accepted os o)
    (hfine : Fine (dials port (os ++ [o]))) : ∃ link, sockOf o = some link ∧
      Path (Step fd) (.going (.asking m) 0) (dials port (os ++ [o])) (.going (.linked m link) 0) := by
  have hlen := h.length
  have hlast := hfine _ (mem_dials os o)
  have hret : ∃ i : Nat, o = .connected i ∧ i ≠ 0 := by
    cases o with
    | connected i => exact ⟨i, rfl, of_decide_eq_true hlast.2⟩
    | lookupFailed e => exact absurd h.accepted (of_decide_eq_true hlast.1)
    | socketFailed e => exact absurd h.accepted (of_decide_eq_true hlast.1)
    | connectFailed i e => exact absurd h.accepted (of_decide_eq_true hlast.1)
  obtain ⟨i, rfl, hi⟩ := hret
  refine ⟨i, if_pos ⟨by show (i : Int) ≠ 0; omega, rfl⟩, ?_⟩
  have hsplit : dials port (os ++ [.connected i]) = dials port os ++ dials port [.connected i] :=
    List.map_append
  rw [hsplit]
  have hbefore : Path (Step fd) (.going (.asking m) 0) (dials port os)
      (.going (.asking m) (0 + os.length)) := path_refused h.refused (by omega)
  exact hbefore.append (path_single (.connected rfl))

/-- Four attempts that fail, and both closes. -/
theorem path_gaveUp {os : List DialOutcome} (hlen : os.length = 4) (hos : ∀ o ∈ os, o.status ≠ 0) :
    Path (Step fd) (.going (.asking m) 0) (dials port os ++ [.close none, .close (some fd)])
      (.closed (.asking m)) := by
  obtain ⟨os, o, rfl⟩ := (List.eq_nil_or_concat os).resolve_left (by rintro rfl; cases hlen)
  rw [List.concat_eq_append] at hlen hos ⊢
  obtain ⟨hbefore, hlast⟩ := List.forall_mem_append.mp hos
  have hthree : os.length = 3 := by simpa using hlen
  have hpath : Path (Step fd) (.going (.asking m) 0) (dials port os)
      (.going (.asking m) (0 + os.length)) := path_refused hbefore (by omega)
  have hsplit : dials port (os ++ [o]) = dials port os ++ dials port [o] := List.map_append
  rw [hthree] at hpath
  rw [hsplit, List.append_assoc]
  apply hpath.append
  exact .cons (.gaveUp (hlast o (List.mem_singleton_self o))) (.cons .released (path_single .closed))

/-- A round after which the session goes on is a complete exchange and the next request. -/
theorem RoundNext.path (h : RoundNext fd port m tr m') (hfine : Fine tr) :
    Path (Step fd) (.going (.asking m) 0) tr (.going (.asking m') 0) := by
  cases h with
  | intro os o resp m' e e' e'' e3 hacc he he' he'' he3 =>
    obtain ⟨link, hsock, hpath⟩ := @path_accepted fd port m os o hacc (fine_append.mp hfine).1
    rw [hsock] at he he' ⊢
    apply hpath.append
    exact .cons he.forwarded (.cons he'.answered (.cons he''.replied
      (.cons .dropped (path_single he3.heard))))

/-- A round in which the session ends. -/
theorem RoundEnd.path (h : RoundEnd fd port m tr r) (hfine : Fine tr) :
    ∃ φ, Path (Step fd) (.going (.asking m) 0) tr φ ∧ Ends φ r := by
  have hwaiting : ∀ {φ : Phase} {k : Stop}, (∃ σ n, φ = .going σ n) → k = .pending →
      Ends φ (.error k) := by
    rintro φ k hφ rfl
    exact Or.inr ⟨hφ, rfl⟩
  cases h with
  | dialing os hlen hos =>
    have hpath : Path (Step fd) (.going (.asking m) 0) (dials port os) _ :=
      path_refused hos (by omega)
    exact ⟨_, hpath.append (path_single (.waits .dial)), hwaiting ⟨_, _, rfl⟩ rfl⟩
  | refused os hlen hos =>
    exact ⟨_, path_gaveUp hlen hos, Or.inl ⟨⟨_, rfl⟩, rfl⟩⟩
  | requesting os o tr k hacc hs =>
    obtain ⟨hdials, htr⟩ := fine_append.mp hfine
    obtain ⟨link, -, hpath⟩ := @path_accepted fd port m os o hacc hdials
    obtain ⟨rfl, hwait⟩ := @SendStops.path fd _ _ _ _ _ 0 (.linked m link) hs htr
    exact ⟨_, hpath.append hwait, hwaiting ⟨_, _, rfl⟩ rfl⟩
  | awaiting os o e tr k hacc he hr =>
    obtain ⟨hdials, htr⟩ := fine_append.mp hfine
    obtain ⟨link, hsock, hpath⟩ := @path_accepted fd port m os o hacc hdials
    rw [hsock] at he hr
    obtain ⟨rfl, hwait⟩ := @RecvStops.path fd _ _ _ _ 0 (.waiting m link) hr (fine_cons.mp htr).2
    exact ⟨_, hpath.append (.cons he.forwarded hwait), hwaiting ⟨_, _, rfl⟩ rfl⟩
  | failed os o e e' hacc he he' =>
    obtain ⟨link, hsock, hpath⟩ := @path_accepted fd port m os o hacc (fine_append.mp hfine).1
    rw [hsock] at he he' ⊢
    refine ⟨.closed (.waiting m link), hpath.append ?_, Or.inl ⟨⟨_, rfl⟩, rfl⟩⟩
    exact .cons he.forwarded (.cons he'.unanswered (.cons .released (path_single .closed)))
  | replying os o resp e e' tr k hacc he he' hs =>
    obtain ⟨hdials, htr⟩ := fine_append.mp hfine
    obtain ⟨link, hsock, hpath⟩ := @path_accepted fd port m os o hacc hdials
    rw [hsock] at he he'
    have hlater : Fine tr := (fine_cons.mp (fine_cons.mp htr).2).2
    obtain ⟨rfl, hwait⟩ := @SendStops.path fd _ _ _ _ _ 0 (.answered m link resp) hs hlater
    exact ⟨_, hpath.append (.cons he.forwarded (.cons he'.answered hwait)),
      hwaiting ⟨_, _, rfl⟩ rfl⟩
  | listening os o resp e e' e'' tr k hacc he he' he'' hr =>
    obtain ⟨hdials, htr⟩ := fine_append.mp hfine
    obtain ⟨link, hsock, hpath⟩ := @path_accepted fd port m os o hacc hdials
    rw [hsock] at he he' ⊢
    have hlater : Fine tr := (fine_cons.mp (fine_cons.mp (fine_cons.mp (fine_cons.mp htr).2).2).2).2
    obtain ⟨rfl, hwait⟩ := @RecvStops.path fd _ _ _ _ 0 .idle hr hlater
    exact ⟨_, hpath.append (.cons he.forwarded (.cons he'.answered (.cons he''.replied
      (.cons .dropped hwait)))), hwaiting ⟨_, _, rfl⟩ rfl⟩
  | ended os o resp e e' e'' e3 hacc he he' he'' he3 =>
    obtain ⟨link, hsock, hpath⟩ := @path_accepted fd port m os o hacc (fine_append.mp hfine).1
    rw [hsock] at he he' ⊢
    refine ⟨.closed .idle, hpath.append ?_, Or.inl ⟨⟨_, rfl⟩, rfl⟩⟩
    exact .cons he.forwarded (.cons he'.answered (.cons he''.replied (.cons .dropped
      (.cons he3.ended (path_single .closed)))))

theorem NormalRun.path (h : NormalRun fd port m tr r) (hfine : Fine tr) :
    ∃ φ, Path (Step fd) (.going (.asking m) 0) tr φ ∧ Ends φ r := by
  induction h with
  | cut m => exact ⟨_, .nil _, Or.inr ⟨⟨_, _, rfl⟩, rfl⟩⟩
  | stop h => exact h.path hfine
  | next h _ ih =>
    obtain ⟨hround, hrest⟩ := fine_append.mp hfine
    obtain ⟨φ, hpath, hend⟩ := ih hrest
    exact ⟨φ, (h.path hround).append hpath, hend⟩

/-- **The whole handler follows the machine.** -/
theorem NormalServe.path (h : NormalServe fd tr r) (hfine : Fine tr) :
    ∃ φ, Path (Step fd) (.going .idle 0) tr φ ∧ Ends φ r := by
  cases h with
  | stop h =>
    obtain ⟨rfl, hwait⟩ := @RecvStops.path fd _ _ _ _ 0 .idle h hfine
    exact ⟨_, hwait, Or.inr ⟨⟨_, _, rfl⟩, rfl⟩⟩
  | ended h =>
    exact ⟨.closed .idle, .cons h.ended (path_single .closed), Or.inl ⟨⟨_, rfl⟩, rfl⟩⟩
  | @tunnel m e tr r he ht h =>
    -- the first message is no tunnel request
    cases he with
    | intro used f ho =>
      have hassumed := (fine_cons.mp hfine).1.1
      simp [Event.assumed, ht] at hassumed
  | @normal m e tr r he ht h =>
    obtain ⟨φ, hpath, hend⟩ := h.path (fine_cons.mp hfine).2
    exact ⟨φ, .cons he.heard hpath, hend⟩

end Following

/-! ## The bytes -/

section Bytes

variable {fd : Fd} {xs : List Exchange} {σ : Stage} {p q : List Event}

theorem wire_of_writable {m : BlkMessage} (h : Writable m) : wire m .all = m.toRawString := by
  rw [wire_all, writeBytes_eq_toRawString_iff h.2]
  exact h.1

theorem fits_of_assumed (h : ∀ e ∈ p, e.assumed = true) :
    ∀ a ∈ received .client p, (mitmPrefix ++ a.2.body).length < 2 ^ 31 := by
  intro a ha
  obtain ⟨e, he, hea⟩ := List.mem_filterMap.mp ha
  have hassumed := h e he
  unfold Event.received at hea
  split at hea
  · split at hea
    · next hside =>
      subst hside
      cases hea
      exact of_decide_eq_true (Bool.and_eq_true_iff.mp hassumed).2
    · cases hea
  · cases hea

/-- At an earlier point the condition holds as well. -/
theorem Clear.of_append (h : Clear (p ++ q)) : Clear p where
  sound := fun e he => h.sound e (List.mem_append_left q he)
  requests := by
    intro a ha
    apply h.requests a
    have hreceived : received .client (p ++ q) = received .client p ++ received .client q :=
      List.filterMap_append
    have hconnections : connections (p ++ q) = connections p ++ connections q :=
      List.filterMap_append
    rw [hreceived, hconnections, List.length_append]
    have hmore : (received .client p).take (connections p).length <+:
        (received .client p ++ received .client q).take (connections p).length :=
      (List.prefix_append _ _).take _
    exact (hmore.trans (List.take_prefix_take_left (Nat.le_add_right _ _))).subset ha
  responses := by
    intro a ha
    have hreceived : received .upstream (p ++ q) = received .upstream p ++ received .upstream q :=
      List.filterMap_append
    apply h.responses a
    rw [hreceived]
    exact List.mem_append_left _ ha

/-- **What was written are encodings.** -/
theorem Tally.whole (h : Tally fd xs σ p) (hassumed : ∀ e ∈ p, e.assumed = true)
    (hclear : Clear p) {side : Side} {x : Option Fd} {m : BlkMessage} {o : WriteOutcome}
    (he : .send side x m (some o) ∈ p) : wire m o = m.toRawString := by
  have hall : o = .all := of_decide_eq_true (hassumed _ he)
  have hsent : (x, m) ∈ sent side p := List.mem_filterMap.mpr ⟨_, he, if_pos rfl⟩
  rw [hall]
  apply wire_of_writable
  cases side with
  | client =>
    obtain ⟨a, ha, rfl⟩ := h.of_sent_client hsent
    exact hclear.responses a ha
  | upstream =>
    obtain ⟨a, ha, rfl⟩ := h.of_sent_upstream hsent
    exact hclear.requests a ha

end Bytes

/-! ## The handler -/

/-- **Request and response.**  In every session of the proxy, of any length, whose reads do not fail,
    whose connections have a descriptor, and whose messages can be written, the client gets at every
    point exactly the responses to its requests, in their order, and after the first failure nothing
    but a closed socket. -/
theorem corresponds_of_clear (fd : Fd) (s : Env)
    (hassumed : ∀ e ∈ (handle .BLK_PROXY fd s).trace, e.assumed = true)
    (hclear : Clear (handle .BLK_PROXY fd s).trace) :
    Correspondence fd (handle .BLK_PROXY fd s).trace (handle .BLK_PROXY fd s).fin := by
  have hserve : NormalServe fd (handle .BLK_PROXY fd s).trace (handle .BLK_PROXY fd s).fin :=
    runs_handleBlkNormal fd s
  generalize (handle .BLK_PROXY fd s).trace = tr at *
  generalize (handle .BLK_PROXY fd s).fin = r at *
  obtain ⟨φ, hpath, hend⟩ := hserve.path fun e he => ⟨hassumed e he, hclear.sound e he⟩
  have hinv : ∀ {p : List Event} {φ : Phase}, Path (Step fd) (.going .idle 0) p φ → Inv fd p φ :=
    fun h => h.invariant (inv_step fd) (inv_start fd)
  constructor
  · rintro p ⟨q, rfl⟩
    obtain ⟨ψ, hleft, -⟩ := hpath.split
    obtain ⟨σ, xs, htally⟩ := (hinv hleft).tally
    have hbefore : ∀ e ∈ p, e.assumed = true := fun e he => hassumed e (List.mem_append_left q he)
    apply htally.corresponds
    · intro side x m o he
      exact htally.whole hbefore hclear.of_append he
    · exact fits_of_assumed hbefore
  · intro hr
    rcases hend with ⟨⟨σ, rfl⟩, -⟩ | ⟨-, hpending⟩
    · obtain ⟨hnone, xs, htally⟩ := hinv hpath
      exact htally.complete hnone
    · rw [hpending] at hr
      cases hr
  · rintro p e q rfl hfail
    obtain ⟨ψ, hleft, hright⟩ := hpath.split
    cases hright with
    | cons hstep hrest =>
      obtain ⟨σ, rfl⟩ := hstep.failure (hinv hleft) hfail
      obtain ⟨hquiet, hclose⟩ := path_failed hrest rfl
      refine ⟨hquiet, hclose.resolve_left ?_⟩
      -- a run never leaves off between a failure and the close
      rintro ⟨τ, rfl⟩
      rcases hend with ⟨⟨σ', hφ⟩, -⟩ | ⟨⟨σ', n, hφ⟩, -⟩
      · cases hφ
      · cases hφ

theorem corresponds_of_clear_twoRequests :
    Correspondence 5 (handle .BLK_PROXY 5 twoRequests).trace (handle .BLK_PROXY 5 twoRequests).fin := by
  apply corresponds_of_clear 5 twoRequests
  · decide
  · exact ⟨by decide, by decide, by decide⟩

/-- The second read from the client fails, and its socket stays open. -/
theorem not_closed_after_failed_read : ¬ ∀ (fd : Fd) (s : Env),
    (∀ e ∈ (handle .BLK_PROXY fd s).trace, e.assumed = true) →
    Correspondence fd (handle .BLK_PROXY fd s).trace (handle .BLK_PROXY fd s).fin := by
  intro h
  have howed := h 5 ⟨[.data onePing, .data onePing, .fail 54], [.all, .all], [.connected 7], []⟩
    (by decide)
  have hlast : (handle .BLK_PROXY 5 ⟨[.data onePing, .data onePing, .fail 54], [.all, .all],
      [.connected 7], []⟩).trace.getLast? = some (.recv .client (some 5) [.fail 54] .threw ping) := by
    decide
  obtain ⟨p, htr⟩ := List.getLast?_eq_some_iff.mp hlast
  have hclosed := (howed.closing p _ [] htr (Or.inr rfl)).2
  cases hclosed

end Pixie.Proxy
