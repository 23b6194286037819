/-
  Descriptors: is everything that was opened closed, once, and nothing else?

  `ledger` goes through a trace with the list of the descriptors that are open: the accepted one to
  begin with, one more for every socket that a connection attempt creates (a refused `connect` leaves
  its socket behind), one less for every `close`.  A `close` of anything that is not on the list, or
  of an indeterminate descriptor, has no ledger.  `Settled` says that the list is empty in the end.

  1. `handleBlkNormal` settles its descriptors in every run that lets the worker go on and is
     `Orderly`: no read fails (the exception skips every `close`), no attempt of a `BlkClient` fails
     after its socket was created, no attempt is taken for what it is not (`cleanDial`), and no request
     uses up its four attempts (after which the client closes an indeterminate descriptor).

  2. `handleBlkLoopBack` never does: it closes nothing at all.
-/
import Pixie.Proxy.Routing

namespace Pixie.Proxy

open Pixie.Decimal Pixie.Net Pixie.Blk Pixie.Wp

/-! ## The ledger -/

/-- What an event does to the list of open descriptors. -/
def Event.settle (opn : List Fd) : Event → Option (List Fd)
  | .dial _ _ _ (some o) =>
      match o.opened with
      | some fd => some ((fd : Fd) :: opn)
      | none => some opn
  | .close none => none
  | .close (some fd) => if fd ∈ opn then some (opn.erase fd) else none
  | _ => some opn

/-- The open descriptors after a trace; `none` if something was closed that was not open. -/
def ledger (opn : List Fd) : List Event → Option (List Fd)
  | [] => some opn
  | e :: tr => (e.settle opn).bind fun opn' => ledger opn' tr

/-- Everything that was received or opened has been closed, and nothing else. -/
def Settled (fd : Fd) (tr : List Event) : Prop := ledger [fd] tr = some []

instance (fd : Fd) (tr : List Event) : Decidable (Settled fd tr) :=
  inferInstanceAs (Decidable (_ = _))

/-! ## The condition -/

instance (reads : List ReadOutcome) : Decidable (Failing reads) :=
  decidable_of_iff (reads.any fun o => match o with | .fail _ => true | _ => false) (by
    unfold Failing
    rw [List.any_eq_true]
    constructor
    · rintro ⟨o, ho, hf⟩
      cases o with
      | data c => cases hf
      | eof => cases hf
      | fail e => exact ⟨e, ho⟩
    · rintro ⟨e, he⟩
      exact ⟨_, he, rfl⟩)

/-- No failing read, and an attempt that leaves nothing behind (that of a tunnel ends the process when
    it fails). -/
def Event.orderly : Event → Bool
  | .dial .blkClient _ _ (some (.connectFailed _ _)) => false
  | .dial d _ _ (some o) => cleanDial d o
  | .recv _ _ used _ _ => decide (¬ Failing used)
  | _ => true

/-- An attempt of a `BlkClient` that failed. -/
def Event.refusal : Event → Bool
  | .dial .blkClient _ _ (some o) => o.status ≠ 0
  | _ => false

/-- Four failed attempts in a row, `n` of which have been made. -/
def exhausted (n : Nat) : List Event → Bool
  | [] => false
  | e :: tr => if e.refusal then decide (4 ≤ n + 1) || exhausted (n + 1) tr else exhausted 0 tr

def Orderly (tr : List Event) : Prop := (∀ e ∈ tr, e.orderly = true) ∧ exhausted 0 tr = false

instance (tr : List Event) : Decidable (Orderly tr) := inferInstanceAs (Decidable (_ ∧ _))

theorem exhausted_cons (n : Nat) (e : Event) (tr : List Event) : exhausted n (e :: tr) =
    if e.refusal then decide (4 ≤ n + 1) || exhausted (n + 1) tr else exhausted 0 tr := rfl

theorem exhausted_mono {tr : List Event} : ∀ {m n : Nat}, m ≤ n → exhausted n tr = false →
    exhausted m tr = false := by
  induction tr with
  | nil => exact fun _ _ => rfl
  | cons e tr ih =>
    intro m n hmn h
    rw [exhausted_cons] at h ⊢
    split at h
    · next hr =>
      rw [Bool.or_eq_false_iff, decide_eq_false_iff_not] at h
      rw [if_pos hr, ih (Nat.succ_le_succ hmn) h.2, decide_eq_false (by omega), Bool.or_false]
    · next hr =>
      rw [if_neg hr]
      exact h

/-- What comes later in a trace has no more attempts in a row. -/
theorem exhausted_later {tr' : List Event} : ∀ (tr : List Event) {n : Nat},
    exhausted n (tr ++ tr') = false → exhausted 0 tr' = false
  | [], n, h => exhausted_mono (Nat.zero_le n) h
  | e :: tr, n, h => by
    rw [List.cons_append, exhausted_cons] at h
    split at h
    · exact exhausted_later tr (Bool.or_eq_false_iff.mp h).2
    · exact exhausted_later tr h

variable {fd : Fd} {port : Int32} {m m' : BlkMessage} {e : Event} {tr tr' : List Event}
  {side : Side} {sock : Option Fd} {k : Stop} {r : Except Stop Unit} {opn : List Fd}

theorem exhausted_refused (os : List DialOutcome) : ∀ {n : Nat}, n < 4 → 4 ≤ n + os.length →
    (∀ o ∈ os, o.status ≠ 0) → exhausted n (dials port os ++ tr) = true := by
  induction os with
  | nil =>
    intro n hn hlen _
    simp at hlen
    omega
  | cons o os ih =>
    intro n hn hlen hos
    have hr : (Event.dial .blkClient HandlerBlk.localhost (portOfInt port) (some o)).refusal = true :=
      decide_eq_true (hos o (List.mem_cons_self ..))
    show exhausted n (.dial .blkClient HandlerBlk.localhost (portOfInt port) (some o) ::
      (dials port os ++ tr)) = true
    rw [exhausted_cons, if_pos hr]
    by_cases hfour : 4 ≤ n + 1
    · rw [decide_eq_true hfour, Bool.true_or]
    · rw [ih (by omega) (by rw [List.length_cons] at hlen; omega)
        fun o' ho' => hos o' (List.mem_cons_of_mem _ ho'), Bool.or_true]

/-! ## Keeping the ledger -/

theorem ledger_cons (opn : List Fd) (e : Event) (tr : List Event) :
    ledger opn (e :: tr) = (e.settle opn).bind fun opn' => ledger opn' tr := rfl

/-- Messages, whole or not, leave the ledger alone. -/
theorem Sent.ledger {msg : BlkMessage} (h : Sent side sock msg e) :
    ledger opn (e :: tr) = Proxy.ledger opn tr := by
  cases h with
  | intro o ho => rfl

theorem Got.ledger {msg : BlkMessage} (h : Got side sock msg e) :
    ledger opn (e :: tr) = Proxy.ledger opn tr := by
  cases h with
  | intro used f ho => rfl

theorem Over.ledger (h : Over side sock e) : ledger opn (e :: tr) = Proxy.ledger opn tr := by
  cases h with
  | intro used m status ho hst => rfl

theorem SendStops.ledger {msg : BlkMessage} (h : SendStops side sock msg tr k) :
    ledger opn tr = some opn := by
  cases h <;> rfl

theorem RecvStops.ledger (h : RecvStops side sock tr k) : ledger opn tr = some opn := by
  cases h <;> rfl

/-- Closing what was opened last. -/
theorem ledger_close (fd : Fd) (opn : List Fd) (tr : List Event) :
    ledger (fd :: opn) (.close (some fd) :: tr) = ledger opn tr := by
  have hsettle : (Event.close (some fd)).settle (fd :: opn) = some opn := by
    show (if fd ∈ fd :: opn then some ((fd :: opn).erase fd) else none) = _
    rw [if_pos (List.mem_cons_self ..), List.erase_cons_head]
  rw [ledger_cons, hsettle]
  rfl

/-- Closing two descriptors in the order in which they were opened. -/
theorem ledger_close_both (x y : Fd) :
    ledger [x, y] [.close (some y), .close (some x)] = some [] := by
  have hsettle : (Event.close (some y)).settle [x, y] = some [x] := by
    show (if y ∈ [x, y] then some ([x, y].erase y) else none) = _
    rw [if_pos (List.mem_cons_of_mem _ (List.mem_singleton_self y))]
    by_cases hxy : x = y
    · rw [hxy, List.erase_cons_head]
    · rw [List.erase_cons_tail (by simpa using hxy), List.erase_cons_head]
  rw [ledger_cons, hsettle]
  exact ledger_close x [] []

/-- An orderly attempt of a `BlkClient` that failed has opened nothing. -/
theorem opened_of_refused {o : DialOutcome} {host : Bytes} {p : UInt16} (h : o.status ≠ 0)
    (hord : (Event.dial .blkClient host p (some o)).orderly = true) : o.opened = none := by
  cases o with
  | lookupFailed e => rfl
  | socketFailed e => rfl
  | connectFailed fd e => cases hord
  | connected fd => exact absurd rfl h

theorem ledger_refused (os : List DialOutcome) (hos : ∀ o ∈ os, o.status ≠ 0)
    (hord : ∀ e ∈ dials port os, e.orderly = true) :
    ledger opn (dials port os ++ tr) = ledger opn tr := by
  induction os with
  | nil => rfl
  | cons o os ih =>
    have hopened : o.opened = none :=
      opened_of_refused (hos o (List.mem_cons_self ..)) (hord _ (List.mem_cons_self ..))
    have hsettle : (Event.dial .blkClient HandlerBlk.localhost (portOfInt port) (some o)).settle opn =
        some opn := by
      simp only [Event.settle, hopened]
    show ledger opn (.dial .blkClient HandlerBlk.localhost (portOfInt port) (some o) ::
      (dials port os ++ tr)) = _
    rw [ledger_cons, hsettle]
    exact ih (fun o' ho' => hos o' (List.mem_cons_of_mem _ ho'))
      fun e he => hord e (List.mem_cons_of_mem _ he)

/-- An orderly attempt that succeeded has opened the descriptor that the client keeps. -/
theorem orderly_connected {o : DialOutcome} {d : Dialer} {host : Bytes} {p : UInt16}
    (h : o.status = 0) (hord : (Event.dial d host p (some o)).orderly = true) :
    ∃ n : Nat, o = .connected n ∧ (d = .blkClient → n ≠ 0) := by
  have hclean : cleanDial d o = true := by
    cases o with
    | lookupFailed e => cases d <;> exact hord
    | socketFailed e => cases d <;> exact hord
    | connectFailed fd e =>
      cases d with
      | blkClient => cases hord
      | tunnel => exact hord
    | connected fd => cases d <;> exact hord
  exact connected_of_clean h hclean

/-- **The attempts of a round** open one descriptor, the one the client closes. -/
theorem ledger_accepted {os : List DialOutcome} {o : DialOutcome} (hacc : Accepted os o)
    (hord : ∀ e ∈ dials port (os ++ [o]), e.orderly = true) :
    ∃ n : Nat, sockOf o = some (n : Fd) ∧
      ∀ tr, ledger opn (dials port (os ++ [o]) ++ tr) = ledger ((n : Fd) :: opn) tr := by
  have hsplit : dials port (os ++ [o]) = dials port os ++ dials port [o] := List.map_append
  rw [hsplit] at hord ⊢
  obtain ⟨n, rfl, hn⟩ := orderly_connected hacc.accepted
    (hord _ (List.mem_append_right _ (List.mem_singleton_self _)))
  have hret : (DialOutcome.connected n).ret ≠ 0 := by
    show (n : Int) ≠ 0
    have := hn rfl
    omega
  refine ⟨n, if_pos ⟨hret, rfl⟩, fun tr => ?_⟩
  rw [List.append_assoc, ledger_refused os hacc.refused
    fun e he => hord e (List.mem_append_left _ he)]
  rfl

/-! ## Rounds -/

/-- A write in which the handler stops does not let the worker go on. -/
theorem SendStops.not_ready {msg : BlkMessage} (h : SendStops side sock msg tr k) :
    workerReady (.error k) = false := by
  cases h <;> rfl

/-- A read in which the handler stops does so only by an exception, after a failing read. -/
theorem RecvStops.not_ready (h : RecvStops side sock tr k)
    (hord : ∀ e ∈ tr, e.orderly = true) : workerReady (.error k) = false := by
  cases h with
  | waits used m ho => rfl
  | threw used m hbad =>
    have := hord _ (List.mem_singleton_self _)
    exact absurd hbad (of_decide_eq_true this)

theorem RoundEnd.settled (h : RoundEnd fd port m tr r) (hready : workerReady r = true)
    (hord : Orderly tr) : ledger [fd] tr = some [] := by
  obtain ⟨horderly, hattempts⟩ := hord
  have hdials : ∀ {os o tr'}, tr = dials port (os ++ [o]) ++ tr' →
      ∀ e ∈ dials port (os ++ [o]), e.orderly = true := by
    rintro os o tr' rfl e he
    exact horderly e (List.mem_append_left _ he)
  have hclosing : ∀ n : Nat, ledger [(n : Fd), fd] [.close (some (n : Fd)), .close (some fd)] =
      some [] := fun n => (ledger_close _ _ _).trans (ledger_close _ _ _)
  cases h with
  | dialing os hlen hos => cases hready
  | refused os hlen hos =>
    rw [exhausted_refused os (by decide) (by omega) hos] at hattempts
    cases hattempts
  | requesting os o tr k hacc hs =>
    rw [hs.not_ready] at hready
    cases hready
  | awaiting os o e tr k hacc he hr =>
    rw [hr.not_ready fun x hx => horderly x (by simp [hx])] at hready
    cases hready
  | failed os o e e' hacc he he' =>
    obtain ⟨n, hsock, hopen⟩ := @ledger_accepted port [fd] os o hacc (hdials rfl)
    rw [hopen, hsock, he.ledger, he'.ledger]
    exact hclosing n
  | replying os o resp e e' tr k hacc he he' hs =>
    rw [hs.not_ready] at hready
    cases hready
  | listening os o resp e e' e'' tr k hacc he he' he'' hr =>
    rw [hr.not_ready fun x hx => horderly x (by simp [hx])] at hready
    cases hready
  | ended os o resp e e' e'' e3 hacc he he' he'' he3 =>
    obtain ⟨n, hsock, hopen⟩ := @ledger_accepted port [fd] os o hacc (hdials rfl)
    rw [hopen, hsock, he.ledger, he'.ledger, he''.ledger, ledger_close, he3.ledger]
    exact ledger_close fd [] []

/-- After a round the accepted descriptor is the only one that is open. -/
theorem RoundNext.ledger (h : RoundNext fd port m tr m') (hord : ∀ e ∈ tr, e.orderly = true) :
    ledger [fd] (tr ++ tr') = Proxy.ledger [fd] tr' := by
  cases h with
  | intro os o resp m' e e' e'' e3 hacc he he' he'' he3 =>
    obtain ⟨n, hsock, hopen⟩ := @ledger_accepted port [fd] os o hacc
      (fun x hx => hord x (List.mem_append_left _ hx))
    rw [List.append_assoc, hopen, hsock]
    show Proxy.ledger _ (e :: e' :: e'' :: .close (some (n : Fd)) :: e3 :: tr') = _
    rw [he.ledger, he'.ledger, he''.ledger, ledger_close, he3.ledger]

theorem NormalRun.settled (h : NormalRun fd port m tr r) (hready : workerReady r = true)
    (hord : Orderly tr) : ledger [fd] tr = some [] := by
  induction h with
  | cut m => cases hready
  | stop h => exact h.settled hready hord
  | @next m m' tr tr' r h _ ih =>
    rw [h.ledger fun e he => hord.1 e (List.mem_append_left _ he)]
    exact ih hready ⟨fun e he => hord.1 e (List.mem_append_right _ he), exhausted_later tr hord.2⟩

/-- A tunnel closes both of its ends. -/
theorem TunnelRun.settled (h : TunnelRun fd m tr r) (hready : workerReady r = true)
    (hord : ∀ e ∈ tr, e.orderly = true) : ledger [fd] tr = some [] := by
  cases h with
  | dialing => cases hready
  | refused o ho => cases hready
  | greeting o tr k ho hs =>
    rw [hs.not_ready] at hready
    cases hready
  | relaying o e ts k ho he hk => rcases hk with rfl | rfl <;> cases hready
  | relayed o e ts ho he =>
    obtain ⟨n, rfl, -⟩ := orderly_connected ho (hord _ (List.mem_cons_self ..))
    show Proxy.ledger [(n : Fd), fd] (e :: .relay fd n _ :: _) = _
    rw [he.ledger]
    exact ledger_close_both (n : Fd) fd

theorem NormalServe.settled (h : NormalServe fd tr r) (hready : workerReady r = true)
    (hord : Orderly tr) : Settled fd tr := by
  obtain ⟨horderly, hattempts⟩ := hord
  cases h with
  | stop h =>
    rw [h.not_ready horderly] at hready
    cases hready
  | ended h =>
    show Proxy.ledger _ _ = _
    rw [h.ledger]
    exact ledger_close fd [] []
  | @tunnel m e tr r he _ h =>
    show Proxy.ledger _ _ = _
    rw [he.ledger]
    exact h.settled hready fun x hx => horderly x (List.mem_cons_of_mem _ hx)
  | @normal m e tr r he _ h =>
    show Proxy.ledger _ _ = _
    rw [he.ledger]
    exact h.settled hready ⟨fun x hx => horderly x (List.mem_cons_of_mem _ hx),
      exhausted_later [e] hattempts⟩

/-- The loopback handler opens and closes nothing. -/
theorem LoopRun.ledger (h : LoopRun fd tr r) : ledger [fd] tr = some [fd] := by
  induction h with
  | cut => rfl
  | stop h => exact h.ledger
  | ended h => exact h.ledger
  | echoing he hs => exact he.ledger.trans hs.ledger
  | next he he' _ ih => exact he.ledger.trans (he'.ledger.trans ih)

/-! ## The handlers -/

/-- **Descriptors.**  An orderly run of the proxy that lets the worker go on has closed the accepted
    descriptor and everything it opened, each once, and nothing else; a run of the loopback never has. -/
theorem settled_of_orderly (fd : Fd) (s : Env) :
    (workerReady (handle .BLK_PROXY fd s).fin = true → Orderly (handle .BLK_PROXY fd s).trace →
      Settled fd (handle .BLK_PROXY fd s).trace) ∧
    ¬ Settled fd (handle .LOOPBACK fd s).trace := by
  constructor
  · intro hready hord
    exact (runs_handleBlkNormal fd s).settled hready hord
  · intro h
    have hopen : Proxy.ledger [fd] (handle .LOOPBACK fd s).trace = some [fd] :=
      (runs_handleBlkLoopBack fd s).ledger
    cases hopen.symm.trans h

/-- Two requests and their responses; the first attempt for the first one gets no socket. -/
theorem settled_of_orderly_twoRequests :
    Settled 5 (handle .BLK_PROXY 5 ⟨[.data onePing, .data onePing, .data onePing, .data onePing, .eof],
      [.all, .all, .all, .all], [.socketFailed 24, .connected 7, .connected 8], []⟩).trace ∧
    ¬ Settled 5 (handle .LOOPBACK 5 ⟨[.eof], [], [], []⟩).trace :=
  ⟨(settled_of_orderly 5 _).1 (by decide) (by decide), (settled_of_orderly 5 _).2⟩

/-- The loopback at the end of its stream, with the worker going on to the next connection. -/
theorem loopback_leaves_open : ¬ ∀ (protocol : Protocol) (fd : Fd) (s : Env),
    protocol = .BLK_PROXY ∨ protocol = .LOOPBACK →
    workerReady (handle protocol fd s).fin = true → Settled fd (handle protocol fd s).trace := by
  intro h
  have hsettled := h .LOOPBACK 5 ⟨[.eof], [], [], []⟩ (Or.inr rfl) (by decide)
  revert hsettled
  decide

end Pixie.Proxy
