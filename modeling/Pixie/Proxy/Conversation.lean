/-
  A conversation: requests, connections, responses and replies, as they should follow each other.

  1. **What is owed** — five lists are read off a trace: the requests that came from the client, the
     connections that were made, what was sent upstream, the responses that came from there, and what
     was sent to the client.  `Corresponds` relates them at one point of a session; `Correspondence`
     asks for it at every point, for all the replies at the end, and for silence and a closed socket
     after the first failure.

  2. **A model of the conversation** — `Step` is a small machine that only knows the STAGE of the
     current exchange (`idle`, `asking`, `linked`, `waiting`, `answered`) and whether the session is
     going on.  It forgets everything about how the proxy gets there.

  3. **The invariant** (`Inv`) — the lists are those of a list of complete exchanges, one entry in each
     list for each, followed by what the current stage has so far.  `inv_step` has one case for each rule
     of the machine, and `Tally.corresponds` reads the result off.
-/
import Pixie.Proxy.Descriptors
import Pixie.Lib.Run
import Mathlib.Data.List.Forall2

namespace Pixie.Proxy

open Pixie.Decimal Pixie.Net Pixie.Blk Pixie.Wp Pixie.Run

/-! ## What is owed -/

/-- A message that has come in on a side, with the descriptor. -/
def Event.received (side : Side) : Event → Option (Option Fd × BlkMessage)
  | .recv side' x _ (.returned true _) m => if side' = side then some (x, m) else none
  | _ => none

/-- A message that has gone out on a side. -/
def Event.sent (side : Side) : Event → Option (Option Fd × BlkMessage)
  | .send side' x m (some _) => if side' = side then some (x, m) else none
  | _ => none

/-- The descriptor of a connection that a `BlkClient` was told it has. -/
def Event.connection : Event → Option Fd
  | .dial .blkClient _ _ (some o) => if o.status = 0 then some o.ret else none
  | _ => none

def received (side : Side) (tr : List Event) : List (Option Fd × BlkMessage) :=
  tr.filterMap (Event.received side)

def sent (side : Side) (tr : List Event) : List (Option Fd × BlkMessage) :=
  tr.filterMap (Event.sent side)

def connections (tr : List Event) : List Fd := tr.filterMap Event.connection

/-- What is sent upstream for a request. -/
structure Rewritten (q x : BlkMessage) : Prop where
  firstLine : x.firstLine = q.firstLine
  destinationPort : x.destinationPort = q.destinationPort
  requestVerb : x.requestVerb = q.requestVerb
  body : x.body = ascii "MITM 8002 : " ++ q.body
  messageLength : x.messageLength.toInt = x.body.length

/-- The state of a session at one point.
      * What has been written is the encoding of what was to be written.
      * The replies are the first of the responses, all but at most one of them.
      * What was sent upstream are the first of the requests, rewritten, each on its own connection;
        the response to a request came on that connection, after the request.
      * No request was read before the reply to the one before it was written. -/
structure Corresponds (fd : Fd) (p : List Event) : Prop where
  whole : ∀ side x m o, .send side x m (some o) ∈ p → wire m o = m.toRawString
  replies : sent .client p <+: (received .upstream p).map fun a => (some fd, a.2)
  forwarded : ∃ qs, qs <+: received .client p ∧
    List.Forall₂ (fun q x => Rewritten q.2 x.2) qs (sent .upstream p)
  linked : (sent .upstream p).map Prod.fst <+: (connections p).map some
  answered : (received .upstream p).map Prod.fst <+: (sent .upstream p).map Prod.fst
  asked : (connections p).length ≤ (received .client p).length
  turn : (received .client p).length ≤ (sent .client p).length + 1

/-- How many connection attempts have failed in a row. -/
def refusals (p : List Event) : Nat := (p.reverse.takeWhile Event.refusal).length

/-- A read that has brought no message. -/
def Event.broken : Event → Bool
  | .recv _ _ _ (.returned false _) _ => true
  | .recv _ _ _ .threw _ => true
  | .recv _ _ _ .asserted _ => true
  | _ => false

/-- After `p` the event fails the session: the last attempt, or a read. -/
def Failure (p : List Event) (e : Event) : Prop :=
  e.refusal = true ∧ 3 ≤ refusals p ∨ e.broken = true

def Event.toClient : Event → Bool
  | .send .client _ _ _ => true
  | _ => false

/-- What the proxy owes its client, over a session that left `tr` and ended with `r`. -/
structure Correspondence (fd : Fd) (tr : List Event) (r : Except Stop Unit) : Prop where
  points : Always (Corresponds fd) tr
  complete : r = .ok () →
    sent .client tr = (received .upstream tr).map fun a => (some fd, a.2)
  closing : ∀ p e q, tr = p ++ e :: q → Failure p e →
    (∀ x ∈ q, x.toClient = false) ∧ .close (some fd) ∈ q

/-! ## The condition -/

/-- What is taken for granted: the messages are no tunnel requests and fit, a failed attempt leaves a
    status, and a write takes what it is given. -/
def Event.assumed : Event → Bool
  | .recv .client _ _ (.returned true _) m =>
      !m.isTunnelRequest && decide ((mitmPrefix ++ m.body).length < 2 ^ 31)
  | .dial _ _ _ (some o) => (linkOf (some o)).isSome || decide (o.status ≠ 0)
  | .send _ _ _ (some o) => decide (o = .all)
  | _ => true

/-- No read fails, and a connection that was made has a descriptor that is not zero. -/
def Event.sound : Event → Bool
  | .recv _ _ used _ _ => decide (¬ Failing used)
  | .dial _ _ _ (some (.connected n)) => decide (n ≠ 0)
  | _ => true

/-- A message that can be written: no NUL in its encoding, which an `int` can count. -/
def Writable (m : BlkMessage) : Prop := 0 ∉ m.toRawString ∧ m.toRawString.length < 2 ^ 31

instance (m : BlkMessage) : Decidable (Writable m) := inferInstanceAs (Decidable (_ ∧ _))

/-- The condition on a session: its calls are sound, and the requests that found a connection can be
    written, rewritten as they are, and so can the responses. -/
structure Clear (tr : List Event) : Prop where
  sound : ∀ e ∈ tr, e.sound = true
  requests : ∀ a ∈ (received .client tr).take (connections tr).length, Writable (request a.2)
  responses : ∀ a ∈ received .upstream tr, Writable a.2

/-! ## Reading the lists -/

section Lists

variable {side : Side} {e : Event} {p tr : List Event}

theorem received_snoc : received side (p ++ [e]) = received side p ++ (e.received side).toList := by
  rw [received, List.filterMap_append]
  cases h : e.received side <;> simp [received, h]

theorem sent_snoc : sent side (p ++ [e]) = sent side p ++ (e.sent side).toList := by
  rw [sent, List.filterMap_append]
  cases h : e.sent side <;> simp [sent, h]

theorem connections_snoc : connections (p ++ [e]) = connections p ++ e.connection.toList := by
  rw [connections, List.filterMap_append]
  cases h : e.connection <;> simp [connections, h]

theorem refusals_snoc : refusals (p ++ [e]) = if e.refusal = true then refusals p + 1 else 0 := by
  rw [refusals, List.reverse_append, List.reverse_singleton, List.singleton_append,
    List.takeWhile_cons]
  split <;> rfl

end Lists

/-- The rewriting does what it should as long as the length fits. -/
theorem rewritten_request {q : BlkMessage} (h : (mitmPrefix ++ q.body).length < 2 ^ 31) :
    Rewritten q (request q) where
  firstLine := rfl
  destinationPort := rfl
  requestVerb := rfl
  body := rfl
  messageLength := Int32.toInt_ofNat_of_lt h

/-! ## The machine -/

/-- How far the current exchange has come. -/
inductive Stage
  | idle
  | asking (q : BlkMessage)
  | linked (q : BlkMessage) (link : Fd)
  | waiting (q : BlkMessage) (link : Fd)
  | answered (q : BlkMessage) (link : Fd) (resp : BlkMessage)

/-- The session is going on, `refused` attempts having just failed; or it has failed; or its socket
    has been closed as well. -/
inductive Phase
  | going (σ : Stage) (refused : Nat)
  | failed (σ : Stage)
  | closed (σ : Stage)

/-- A call that has not come back. -/
inductive Waits : Event → Prop
  | dial {d host port} : Waits (.dial d host port none)
  | send {side x m} : Waits (.send side x m none)
  | recv {side x used m} : Waits (.recv side x used .pending m)

/-- The conversation, one event at a time. -/
inductive Step (fd : Fd) : Phase → Event → Phase → Prop
  | heard {n used status q} :
      Step fd (.going .idle n) (.recv .client (some fd) used (.returned true status) q)
        (.going (.asking q) 0)
  | refused {q n host port o} : o.status ≠ 0 → n < 3 →
      Step fd (.going (.asking q) n) (.dial .blkClient host port (some o)) (.going (.asking q) (n + 1))
  | connected {q n host port o} : o.status = 0 →
      Step fd (.going (.asking q) n) (.dial .blkClient host port (some o)) (.going (.linked q o.ret) 0)
  | forwarded {q link n o} :
      Step fd (.going (.linked q link) n) (.send .upstream (some link) (request q) (some o))
        (.going (.waiting q link) 0)
  | answered {q link n used status resp} :
      Step fd (.going (.waiting q link) n)
        (.recv .upstream (some link) used (.returned true status) resp)
        (.going (.answered q link resp) 0)
  | replied {q link resp n o} :
      Step fd (.going (.answered q link resp) n) (.send .client (some fd) resp (some o))
        (.going .idle 0)
  | dropped {n x} : Step fd (.going .idle n) (.close x) (.going .idle 0)
  | waits {σ n e} : Waits e → Step fd (.going σ n) e (.going σ 0)
  | gaveUp {q host port o} : o.status ≠ 0 →
      Step fd (.going (.asking q) 3) (.dial .blkClient host port (some o)) (.failed (.asking q))
  | unanswered {q link n used status m} :
      Step fd (.going (.waiting q link) n)
        (.recv .upstream (some link) used (.returned false status) m) (.failed (.waiting q link))
  | ended {n used status m} :
      Step fd (.going .idle n) (.recv .client (some fd) used (.returned false status) m)
        (.failed .idle)
  | released {σ x} : Step fd (.failed σ) (.close x) (.failed σ)
  | closed {σ} : Step fd (.failed σ) (.close (some fd)) (.closed σ)

/-! ## The invariant -/

/-- A complete exchange. -/
structure Exchange where
  asked : BlkMessage
  link : Fd
  response : BlkMessage

/-- What the stage adds to the five lists; a stage adds no reply. -/
def Stage.requests : Stage → List BlkMessage
  | .idle => []
  | .asking q | .linked q _ | .waiting q _ | .answered q _ _ => [q]

def Stage.links : Stage → List Fd
  | .idle | .asking _ => []
  | .linked _ link | .waiting _ link | .answered _ link _ => [link]

def Stage.forwarded : Stage → List (Option Fd × BlkMessage)
  | .idle | .asking _ | .linked _ _ => []
  | .waiting q link | .answered q link _ => [(some link, request q)]

def Stage.responses : Stage → List (Option Fd × BlkMessage)
  | .answered _ link resp => [(some link, resp)]
  | _ => []

namespace Stage

/-- A stage that has forwarded has its connection, ... -/
theorem forwarded_links (σ : Stage) : σ.forwarded.map Prod.fst <+: σ.links.map some := by
  cases σ with
  | idle => exact List.nil_prefix
  | asking q => exact List.nil_prefix
  | linked q link => exact List.nil_prefix
  | waiting q link => exact List.prefix_refl _
  | answered q link resp => exact List.prefix_refl _

/-- ... its response has come on that connection, ... -/
theorem responses_forwarded (σ : Stage) :
    σ.responses.map Prod.fst <+: σ.forwarded.map Prod.fst := by
  cases σ with
  | idle => exact List.nil_prefix
  | asking q => exact List.nil_prefix
  | linked q link => exact List.nil_prefix
  | waiting q link => exact List.nil_prefix
  | answered q link resp => exact List.prefix_refl _

/-- ... and a connection is only made for a request, of which there is at most one. -/
theorem links_requests (σ : Stage) : σ.links.length ≤ σ.requests.length := by
  cases σ <;> simp [Stage.links, Stage.requests]

theorem length_requests_le (σ : Stage) : σ.requests.length ≤ 1 := by
  cases σ <;> simp [Stage.requests]

/-- What a stage has forwarded is its request. -/
theorem mem_forwarded {σ : Stage} {a : Option Fd × BlkMessage} (h : a ∈ σ.forwarded) :
    ∃ q ∈ σ.requests.take σ.links.length, a.2 = request q := by
  cases σ with
  | idle => cases h
  | asking q => cases h
  | linked q link => cases h
  | waiting q link =>
    rw [List.mem_singleton.mp h]
    exact ⟨q, List.mem_singleton_self q, rfl⟩
  | answered q link resp =>
    rw [List.mem_singleton.mp h]
    exact ⟨q, List.mem_singleton_self q, rfl⟩

/-- The request of a stage is rewritten as it should be, if it has been forwarded. -/
theorem forwarded_rewritten {σ : Stage} {fd : Fd} (h : ∀ q ∈ σ.requests, Rewritten q (request q)) :
    List.Forall₂ (fun q x => Rewritten q.2 x.2)
      ((σ.requests.map fun q => ((some fd, q) : Option Fd × BlkMessage)).take σ.forwarded.length)
      σ.forwarded := by
  cases σ with
  | idle => exact .nil
  | asking q => exact .nil
  | linked q link => exact .nil
  | waiting q link => exact .cons (h q (List.mem_singleton_self q)) .nil
  | answered q link resp => exact .cons (h q (List.mem_singleton_self q)) .nil

end Stage

/-- The lists of a trace are those of the exchanges `xs` and of the stage. -/
structure Tally (fd : Fd) (xs : List Exchange) (σ : Stage) (p : List Event) : Prop where
  requests : received .client p =
    xs.map (fun x => (some fd, x.asked)) ++ σ.requests.map fun q => (some fd, q)
  links : connections p = xs.map Exchange.link ++ σ.links
  forwarded : sent .upstream p = xs.map (fun x => (some x.link, request x.asked)) ++ σ.forwarded
  responses : received .upstream p = xs.map (fun x => (some x.link, x.response)) ++ σ.responses
  replies : sent .client p = xs.map fun x => (some fd, x.response)

/-- **The invariant**: a number of complete exchanges, and the current one as far as it has come. -/
def Inv (fd : Fd) (p : List Event) : Phase → Prop
  | .going σ n => n = refusals p ∧ ∃ xs, Tally fd xs σ p
  | .failed σ => σ.responses = [] ∧ ∃ xs, Tally fd xs σ p
  | .closed σ => σ.responses = [] ∧ ∃ xs, Tally fd xs σ p

section Invariant

variable {fd : Fd} {xs : List Exchange} {σ : Stage} {e : Event} {p : List Event}

/-- An event adds to the lists what the stage gains. -/
theorem Tally.grow {τ : Stage} (h : Tally fd xs σ p)
    (hrequests : (σ.requests.map fun q => (some fd, q)) ++ (e.received .client).toList =
      τ.requests.map fun q => (some fd, q))
    (hlinks : σ.links ++ e.connection.toList = τ.links)
    (hforwarded : σ.forwarded ++ (e.sent .upstream).toList = τ.forwarded)
    (hresponses : σ.responses ++ (e.received .upstream).toList = τ.responses)
    (hreply : e.sent .client = none) : Tally fd xs τ (p ++ [e]) := by
  constructor
  · rw [received_snoc, h.requests, List.append_assoc, hrequests]
  · rw [connections_snoc, h.links, List.append_assoc, hlinks]
  · rw [sent_snoc, h.forwarded, List.append_assoc, hforwarded]
  · rw [received_snoc, h.responses, List.append_assoc, hresponses]
  · rw [sent_snoc, hreply, h.replies]
    exact List.append_nil _

/-- An event that is in none of the lists. -/
theorem Tally.quiet (h : Tally fd xs σ p) (hrc : e.received .client = none)
    (hru : e.received .upstream = none) (hsc : e.sent .client = none)
    (hsu : e.sent .upstream = none) (hc : e.connection = none) : Tally fd xs σ (p ++ [e]) := by
  apply h.grow
  · rw [hrc]; exact List.append_nil _
  · rw [hc]; exact List.append_nil _
  · rw [hsu]; exact List.append_nil _
  · rw [hru]; exact List.append_nil _
  · exact hsc

theorem Tally.waits (h : Tally fd xs σ p) (he : Waits e) : Tally fd xs σ (p ++ [e]) := by
  cases he with
  | @dial d host port => exact h.quiet rfl rfl rfl rfl (by cases d <;> rfl)
  | send => exact h.quiet rfl rfl rfl rfl rfl
  | recv => exact h.quiet rfl rfl rfl rfl rfl

/-- A call that has not come back has not failed. -/
theorem Waits.not_failed (he : Waits e) : e.refusal = false ∧ e.broken = false := by
  cases he with
  | @dial d host port => exact ⟨by cases d <;> rfl, rfl⟩
  | send => exact ⟨rfl, rfl⟩
  | recv => exact ⟨rfl, rfl⟩

/-- **Each step keeps the invariant**: one case for each rule. -/
theorem inv_step (fd : Fd) (p : List Event) (φ : Phase) (e : Event) (φ' : Phase) (hp : Inv fd p φ)
    (h : Step fd φ e φ') : Inv fd (p ++ [e]) φ' := by
  -- the counter after an event that is no failed attempt
  have hzero : ∀ {e : Event}, e.refusal = false → 0 = refusals (p ++ [e]) := by
    intro e he
    rw [refusals_snoc, he]
    rfl
  cases h with
  | heard =>
    obtain ⟨-, xs, h⟩ := hp
    exact ⟨hzero rfl, xs, h.grow rfl rfl rfl rfl rfl⟩
  | @refused q n host port o hs hn =>
    obtain ⟨hcount, xs, h⟩ := hp
    have hr : (Event.dial .blkClient host port (some o)).refusal = true := decide_eq_true hs
    have hc : (Event.dial .blkClient host port (some o)).connection = none := if_neg hs
    refine ⟨?_, xs, h.quiet rfl rfl rfl rfl hc⟩
    rw [refusals_snoc, if_pos hr, hcount]
  | @connected q n host port o hs =>
    obtain ⟨-, xs, h⟩ := hp
    have hr : (Event.dial .blkClient host port (some o)).refusal = false := by
      simp [Event.refusal, hs]
    have hc : (Event.dial .blkClient host port (some o)).connection = some o.ret := if_pos hs
    have hlinks : (Stage.asking q).links ++ Option.toList (some o.ret) =
        (Stage.linked q o.ret).links := rfl
    rw [← hc] at hlinks
    exact ⟨hzero hr, xs, h.grow rfl hlinks rfl rfl rfl⟩
  | forwarded =>
    obtain ⟨-, xs, h⟩ := hp
    exact ⟨hzero rfl, xs, h.grow rfl rfl rfl rfl rfl⟩
  | answered =>
    obtain ⟨-, xs, h⟩ := hp
    exact ⟨hzero rfl, xs, h.grow rfl rfl rfl rfl rfl⟩
  | @replied q link resp n o =>
    -- the exchange is complete
    obtain ⟨-, xs, h⟩ := hp
    refine ⟨hzero rfl, xs ++ [⟨q, link, resp⟩], ?_⟩
    constructor
    · rw [received_snoc, h.requests, List.map_append]; rfl
    · rw [connections_snoc, h.links, List.map_append]; rfl
    · rw [sent_snoc, h.forwarded, List.map_append]; rfl
    · rw [received_snoc, h.responses, List.map_append]; rfl
    · rw [sent_snoc, h.replies, List.map_append]; rfl
  | dropped =>
    obtain ⟨-, xs, h⟩ := hp
    exact ⟨hzero rfl, xs, h.quiet rfl rfl rfl rfl rfl⟩
  | waits he =>
    obtain ⟨-, xs, h⟩ := hp
    exact ⟨hzero he.not_failed.1, xs, h.waits he⟩
  | @gaveUp q host port o hs =>
    obtain ⟨-, xs, h⟩ := hp
    have hc : (Event.dial .blkClient host port (some o)).connection = none := if_neg hs
    exact ⟨rfl, xs, h.quiet rfl rfl rfl rfl hc⟩
  | unanswered =>
    obtain ⟨-, xs, h⟩ := hp
    exact ⟨rfl, xs, h.quiet rfl rfl rfl rfl rfl⟩
  | ended =>
    obtain ⟨-, xs, h⟩ := hp
    exact ⟨rfl, xs, h.quiet rfl rfl rfl rfl rfl⟩
  | released =>
    obtain ⟨hnone, xs, h⟩ := hp
    exact ⟨hnone, xs, h.quiet rfl rfl rfl rfl rfl⟩
  | closed =>
    obtain ⟨hnone, xs, h⟩ := hp
    exact ⟨hnone, xs, h.quiet rfl rfl rfl rfl rfl⟩

end Invariant

/-! ## What the invariant says -/

section Reading

variable {fd : Fd} {xs : List Exchange} {σ : Stage} {e : Event} {p : List Event}

/-- What goes upstream is the rewritten form of a request that has found a connection. -/
theorem Tally.of_sent_upstream (h : Tally fd xs σ p) {x : Option Fd} {m : BlkMessage}
    (hm : (x, m) ∈ sent .upstream p) :
    ∃ a ∈ (received .client p).take (connections p).length, m = request a.2 := by
  have htake : (received .client p).take (connections p).length =
      xs.map (fun x => (some fd, x.asked)) ++
        (σ.requests.take σ.links.length).map fun q => (some fd, q) := by
    have hlen : (xs.map Exchange.link ++ σ.links).length =
        (xs.map fun x => ((some fd, x.asked) : Option Fd × BlkMessage)).length + σ.links.length := by
      rw [List.length_append, List.length_map, List.length_map]
    rw [h.requests, h.links, hlen, List.take_length_add_append, List.map_take]
  rw [htake]
  rw [h.forwarded] at hm
  rcases List.mem_append.mp hm with hm | hm
  · obtain ⟨y, hy, heq⟩ := List.mem_map.mp hm
    cases heq
    exact ⟨(some fd, y.asked), List.mem_append_left _ (List.mem_map.mpr ⟨y, hy, rfl⟩), rfl⟩
  · obtain ⟨q, hq, rfl⟩ := Stage.mem_forwarded hm
    exact ⟨(some fd, q), List.mem_append_right _ (List.mem_map.mpr ⟨q, hq, rfl⟩), rfl⟩

/-- What goes to the client is a response. -/
theorem Tally.of_sent_client (h : Tally fd xs σ p) {x : Option Fd} {m : BlkMessage}
    (hm : (x, m) ∈ sent .client p) : ∃ a ∈ received .upstream p, m = a.2 := by
  rw [h.replies] at hm
  obtain ⟨y, hy, heq⟩ := List.mem_map.mp hm
  cases heq
  refine ⟨(some y.link, y.response), ?_, rfl⟩
  rw [h.responses]
  exact List.mem_append_left _ (List.mem_map.mpr ⟨y, hy, rfl⟩)

/-- **The lists correspond**, if the bytes do and the requests fit. -/
theorem Tally.corresponds (h : Tally fd xs σ p)
    (hwhole : ∀ side x m o, .send side x m (some o) ∈ p → wire m o = m.toRawString)
    (hfits : ∀ a ∈ received .client p, (mitmPrefix ++ a.2.body).length < 2 ^ 31) :
    Corresponds fd p where
  whole := hwhole
  replies := by
    rw [h.replies, h.responses, List.map_append, List.map_map]
    exact List.prefix_append _ _
  forwarded := by
    rw [h.requests] at hfits ⊢
    rw [h.forwarded]
    refine ⟨xs.map (fun x => (some fd, x.asked)) ++
      (σ.requests.map fun q => (some fd, q)).take σ.forwarded.length, ?_, ?_⟩
    · rw [List.prefix_append_right_inj]
      exact List.take_prefix _ _
    · apply List.rel_append
      · rw [List.forall₂_map_left_iff, List.forall₂_map_right_iff, List.forall₂_same]
        intro x hx
        apply rewritten_request
        exact hfits _ (List.mem_append_left _ (List.mem_map.mpr ⟨x, hx, rfl⟩))
      · apply Stage.forwarded_rewritten
        intro q hq
        apply rewritten_request
        exact hfits _ (List.mem_append_right _ (List.mem_map.mpr ⟨q, hq, rfl⟩))
  linked := by
    rw [h.forwarded, h.links, List.map_append, List.map_append, List.map_map, List.map_map]
    show xs.map (fun x => some x.link) ++ _ <+: xs.map (fun x => some x.link) ++ _
    rw [List.prefix_append_right_inj]
    exact σ.forwarded_links
  answered := by
    rw [h.responses, h.forwarded, List.map_append, List.map_append, List.map_map, List.map_map]
    show xs.map (fun x => some x.link) ++ _ <+: xs.map (fun x => some x.link) ++ _
    rw [List.prefix_append_right_inj]
    exact σ.responses_forwarded
  asked := by
    have hlinks := σ.links_requests
    rw [h.links, h.requests]
    simp only [List.length_append, List.length_map]
    omega
  turn := by
    have hone := σ.length_requests_le
    rw [h.requests, h.replies]
    simp only [List.length_append, List.length_map]
    omega

/-- Once no response is waiting, none is missing. -/
theorem Tally.complete (h : Tally fd xs σ p) (hnone : σ.responses = []) :
    sent .client p = (received .upstream p).map fun a => (some fd, a.2) := by
  rw [h.replies, h.responses, hnone, List.append_nil, List.map_map]
  rfl

/-- Somebody has kept the tally, whatever the phase. -/
theorem Inv.tally {φ : Phase} (h : Inv fd p φ) : ∃ σ xs, Tally fd xs σ p := by
  cases φ with
  | going σ n => exact ⟨σ, h.2⟩
  | failed σ => exact ⟨σ, h.2⟩
  | closed σ => exact ⟨σ, h.2⟩

theorem inv_start (fd : Fd) : Inv fd [] (.going .idle 0) :=
  ⟨rfl, [], ⟨rfl, rfl, rfl, rfl, rfl⟩⟩

/-- **A failure ends the conversation.** -/
theorem Step.failure {φ φ' : Phase} (h : Step fd φ e φ') (hp : Inv fd p φ) (he : Failure p e) :
    ∃ σ, φ' = .failed σ := by
  have hquiet : e.refusal = false → e.broken = false → False := by
    intro hr hb
    rcases he with ⟨he, -⟩ | he
    · exact Bool.false_ne_true (hr.symm.trans he)
    · exact Bool.false_ne_true (hb.symm.trans he)
  cases h with
  | heard => exact (hquiet rfl rfl).elim
  | refused hs hn =>
    -- the fourth attempt in a row would have been the last
    rcases he with ⟨-, hthree⟩ | hb
    · have hcount := hp.1
      omega
    · cases hb
  | connected hs => exact (hquiet (by simp [Event.refusal, hs]) rfl).elim
  | forwarded => exact (hquiet rfl rfl).elim
  | answered => exact (hquiet rfl rfl).elim
  | replied => exact (hquiet rfl rfl).elim
  | dropped => exact (hquiet rfl rfl).elim
  | waits hw => exact (hquiet hw.not_failed.1 hw.not_failed.2).elim
  | gaveUp hs => exact ⟨_, rfl⟩
  | unanswered => exact ⟨_, rfl⟩
  | ended => exact ⟨_, rfl⟩
  | released => exact ⟨_, rfl⟩
  | closed => exact (hquiet rfl rfl).elim

/-- **After a failure** nothing is sent, and unless the path leaves off there the socket is closed. -/
theorem path_failed {φ φ' : Phase} {tr : List Event} (h : Path (Step fd) φ tr φ') :
    ∀ {σ : Stage}, φ = .failed σ →
      (∀ x ∈ tr, x.toClient = false) ∧ ((∃ τ, φ' = .failed τ) ∨ .close (some fd) ∈ tr) := by
  induction h with
  | nil φ =>
    rintro σ rfl
    exact ⟨nofun, Or.inl ⟨σ, rfl⟩⟩
  | cons hs h ih =>
    rintro σ rfl
    cases hs with
    | released =>
      obtain ⟨hquiet, hend⟩ := ih rfl
      refine ⟨?_, hend.imp_right fun hx => List.mem_cons_of_mem _ hx⟩
      intro x hx
      rcases List.mem_cons.mp hx with rfl | hx
      · rfl
      · exact hquiet x hx
    | closed =>
      -- nothing comes after the close
      cases h with
      | nil φ =>
        refine ⟨?_, Or.inr (List.mem_singleton_self _)⟩
        intro x hx
        rw [List.mem_singleton.mp hx]
        rfl
      | cons hs' h' => cases hs'

end Reading

end Pixie.Proxy
