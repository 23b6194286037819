/-
  Routing: is each message treated according to its own header?

  `Route.next` follows a session event by event and keeps what the proxy owes for the message that
  has come last.  In each state there is only so much it may do, and something it must:
    * a message has come: a connection is asked for, to the message's OWN port, and by the tunnel
      exactly if its verb is `TUNNEL`; when an attempt has failed there may be another, or the
      proxy gives up;
    * a connection was made for a request: the next thing is that the message, rewritten by
      `blkProxyRules`, is sent on this connection;
    * a connection was made for a tunnel: the client is told so, and then the tunnel runs between the
      client and this connection;
    * nothing is owed: no connection is asked for, nothing is sent upstream, no tunnel is started.
  What is owed at the end must be held up by a call that does not come back, or by the failing
  assertion of the write that tells the client (`Route.Settled`).

  The code looks at the verb of the first message only, and takes the port from it, so this holds of
  a session whose later messages are no tunnel requests and name the same port (`OneRoute`), as long as
  the connection attempts are what they seem (`CleanDials`): `routed_of_oneRoute`.
-/
import Pixie.Proxy.Session
import Pixie.Blk.Stream

namespace Pixie.Proxy

open Pixie.Decimal Pixie.Net Pixie.Blk Pixie.Wp

/-! ## The law -/

/-- What is owed for the message that has come last. -/
inductive Route
  /-- nothing: no message has come, or it was treated -/
  | idle
  /-- a connection; whether an attempt was made -/
  | seeking (m : BlkMessage) (tried : Bool)
  /-- the treatment of the message on the connection that was made for it -/
  | linked (m : BlkMessage) (link : Fd)
  /-- the tunnel that the client was told of -/
  | greeted (link : Fd)
deriving DecidableEq

/-- The descriptor of a connection, if the attempt has made one. -/
def linkOf : Option DialOutcome → Option Fd
  | some (.connected fd) => some fd
  | _ => none

/-- What an attempt for a message leads to. -/
def afterDial (m : BlkMessage) : Option Fd → Route
  | some link => .linked m link
  | none => .seeking m true

/-- The attempt is the one that the message asks for. -/
def AsksFor (m : BlkMessage) (d : Dialer) (port : UInt16) : Prop :=
  (port.toNat : Int) = m.destinationPort.toInt ∧ (d = .tunnel ↔ m.isTunnelRequest = true)

instance (m : BlkMessage) (d : Dialer) (port : UInt16) : Decidable (AsksFor m d port) :=
  inferInstanceAs (Decidable (_ ∧ _))

/-- The next event, of a session on the socket `own`; `none` if it breaks the law. -/
def Route.next (own : Fd) : Route → Event → Option Route
  | .idle, .recv .client _ _ (.returned true _) m => some (.seeking m false)
  | .idle, .dial _ _ _ _ => none
  | .idle, .send .upstream _ _ _ => none
  | .idle, .relay _ _ _ => none
  | .idle, _ => some .idle
  | .seeking m _, .dial d _ port o => if AsksFor m d port then some (afterDial m (linkOf o)) else none
  | .seeking _ true, .close _ => some .idle
  | .linked m link, .send .upstream fd msg _ =>
      if m.isTunnelRequest = false ∧ fd = some link ∧ msg = request m then some .idle else none
  | .linked m link, .send .client fd msg _ =>
      if m.isTunnelRequest = true ∧ fd = some own ∧ msg = okMessage then some (.greeted link)
      else none
  | .greeted link, .relay client upstream _ =>
      if client = own ∧ upstream = link then some .idle else none
  | _, _ => none

/-- The law, over a trace. -/
def follow (own : Fd) (c : Route) (tr : List Event) : Option Route := tr.foldlM (Route.next own) c

/-- What may still be owed when a session has come to its end in this way. -/
def Route.Settled (fin : Except Stop Unit) : Route → Prop
  | .idle => True
  | .seeking _ tried => tried = true ∨ fin = .error .pending
  | .linked _ _ => fin = .error .pending
  | .greeted _ => fin = .error .pending ∨ fin = .error .aborted

/-- **The law**, over a session that starts with no message. -/
def Routed (own : Fd) (tr : List Event) (fin : Except Stop Unit) : Prop :=
  ∃ c, follow own .idle tr = some c ∧ c.Settled fin

/-! ## The condition -/

/-- The messages that have come from the client. -/
def clientMessages (tr : List Event) : List BlkMessage :=
  tr.filterMap fun
    | .recv .client _ _ (.returned true _) m => some m
    | _ => none

/-- The first message names a port that exists, and all later ones are requests to the same port. -/
def OneRoute (tr : List Event) : Prop :=
  ∀ m ms, clientMessages tr = m :: ms →
    (0 ≤ m.destinationPort.toInt ∧ m.destinationPort.toInt < 2 ^ 16) ∧
    ∀ m' ∈ ms, m'.isTunnelRequest = false ∧ m'.destinationPort = m.destinationPort

/-- An attempt whose status says whether there is a connection, and, for a `BlkClient`, whose
    descriptor is not taken for a failure. -/
def cleanDial (d : Dialer) : DialOutcome → Bool
  | .lookupFailed e => e ≠ 0
  | .socketFailed e => e ≠ 0
  | .connectFailed _ e => e ≠ 0
  | .connected fd => d == .tunnel || fd ≠ 0

def Event.clean : Event → Bool
  | .dial d _ _ (some o) => cleanDial d o
  | _ => true

def CleanDials (tr : List Event) : Prop := ∀ e ∈ tr, e.clean = true

/-! ## Reading a trace -/

variable {fd : Fd} {port : Int32} {m m' : BlkMessage} {e : Event} {tr tr' : List Event}
  {sock : Option Fd} {link : Fd} {k : Stop} {r : Except Stop Unit} {tried : Bool} {c c' : Route}

/-- One event, and those that follow. -/
theorem follow_cons (h : c.next fd e = some c') : follow fd c (e :: tr) = follow fd c' tr := by
  rw [follow, List.foldlM_cons, h]
  rfl

theorem follow_last (h : c.next fd e = some c') : follow fd c [e] = some c' := follow_cons h

theorem follow_append (h : follow fd c tr = some c') :
    follow fd c (tr ++ tr') = follow fd c' tr' := by
  rw [follow, List.foldlM_append, ← follow, h]
  rfl

/-! ### Nothing is owed -/

theorem idle_close {x : Option Fd} : Route.next fd .idle (.close x) = some .idle := rfl

/-- A message for the client is no request. -/
theorem Sent.idle {msg : BlkMessage} (h : Sent .client sock msg e) :
    Route.next fd .idle e = some .idle := by
  cases h with
  | intro o ho => rfl

theorem SendStops.idle {msg : BlkMessage} (h : SendStops .client sock msg tr k) :
    follow fd .idle tr = some .idle := by
  cases h with
  | waits => rfl
  | short o ho => rfl

/-- Nor is a response. -/
theorem Got.idle_upstream {msg : BlkMessage} (h : Got .upstream sock msg e) :
    Route.next fd .idle e = some .idle := by
  cases h with
  | intro used f ho => rfl

/-- A message from the client is to be treated. -/
theorem Got.idle_client (h : Got .client sock m e) :
    Route.next fd .idle e = some (.seeking m false) := by
  cases h with
  | intro used f ho => rfl

theorem Over.idle {side : Side} (h : Over side sock e) : Route.next fd .idle e = some .idle := by
  cases h with
  | intro used m status ho hst =>
    cases side with
    | client => rfl
    | upstream => rfl

theorem RecvStops.idle {side : Side} (h : RecvStops side sock tr k) :
    follow fd .idle tr = some .idle := by
  cases h with
  | waits used msg ho =>
    cases side with
    | client => rfl
    | upstream => rfl
  | threw used msg ho =>
    cases side with
    | client => rfl
    | upstream => rfl

/-! ### A message has come -/

/-- The attempt of the function that looks at the message, to the message's port. -/
theorem seeking_dial {d : Dialer} {host : Bytes} (hd : d = .tunnel ↔ m.isTunnelRequest = true)
    (hport : ((portOfInt m.destinationPort).toNat : Int) = m.destinationPort.toInt)
    (o : Option DialOutcome) :
    Route.next fd (.seeking m tried) (.dial d host (portOfInt m.destinationPort) o) =
      some (afterDial m (linkOf o)) := by
  cases tried with
  | true => exact if_pos ⟨hport, hd⟩
  | false => exact if_pos ⟨hport, hd⟩

/-- An attempt that has failed has made no connection. -/
theorem linkOf_refused {o : DialOutcome} (h : o.status ≠ 0) : linkOf (some o) = none := by
  cases o with
  | lookupFailed e => rfl
  | socketFailed e => rfl
  | connectFailed fd e => rfl
  | connected fd => exact absurd rfl h

/-- A clean attempt with a zero status has made a connection. -/
theorem connected_of_clean {d : Dialer} {o : DialOutcome} (h : o.status = 0)
    (hc : cleanDial d o = true) : ∃ fd, o = .connected fd ∧ (d = .blkClient → fd ≠ 0) := by
  cases o with
  | lookupFailed e => exact absurd h (of_decide_eq_true hc)
  | socketFailed e => exact absurd h (of_decide_eq_true hc)
  | connectFailed fd e => exact absurd h (of_decide_eq_true hc)
  | connected fd =>
    refine ⟨fd, rfl, ?_⟩
    rintro rfl
    simpa [cleanDial] using hc

/-- The connection of a clean attempt is the one the client keeps. -/
theorem sockOf_clean {o : DialOutcome} (h : o.status = 0) (hc : cleanDial .blkClient o = true) :
    linkOf (some o) = sockOf o ∧ (sockOf o).isSome = true := by
  obtain ⟨n, rfl, hn⟩ := connected_of_clean h hc
  have hret : (DialOutcome.connected n).ret ≠ 0 := by
    show (n : Int) ≠ 0
    have := hn rfl
    omega
  have hsock : sockOf (.connected n) = some (n : Int) := if_pos ⟨hret, rfl⟩
  rw [hsock]
  exact ⟨rfl, rfl⟩

/-- **A connection was made for a request**, and the request goes out on it. -/
theorem Sent.linked (h : Sent .upstream (some link) (request m) e) (hm : m.isTunnelRequest = false) :
    Route.next fd (.linked m link) e = some .idle := by
  cases h with
  | intro o ho => exact if_pos ⟨hm, rfl, rfl⟩

theorem SendStops.linked (h : SendStops .upstream (some link) (request m) tr k)
    (hm : m.isTunnelRequest = false) : follow fd (.linked m link) tr = some .idle := by
  cases h with
  | waits => exact follow_last (if_pos ⟨hm, rfl, rfl⟩)
  | short o ho => exact follow_last (if_pos ⟨hm, rfl, rfl⟩)

/-- **A connection was made for a tunnel**, and the client is told. -/
theorem Sent.greeted (h : Sent .client (some fd) okMessage e) (hm : m.isTunnelRequest = true) :
    Route.next fd (.linked m link) e = some (.greeted link) := by
  cases h with
  | intro o ho => exact if_pos ⟨hm, rfl, rfl⟩

theorem SendStops.greeted (h : SendStops .client (some fd) okMessage tr k)
    (hm : m.isTunnelRequest = true) :
    follow fd (.linked m link) tr = some (.greeted link) ∧
      (Route.greeted link).Settled (.error k) := by
  cases h with
  | waits => exact ⟨follow_last (if_pos ⟨hm, rfl, rfl⟩), Or.inl rfl⟩
  | short o ho => exact ⟨follow_last (if_pos ⟨hm, rfl, rfl⟩), Or.inr rfl⟩

/-- The tunnel runs on the connection. -/
theorem greeted_relay {t : List Twc.Event} :
    Route.next fd (.greeted link) (.relay fd link t) = some .idle := if_pos ⟨rfl, rfl⟩

/-! ## Rounds -/

theorem mem_dials (os : List DialOutcome) (o : DialOutcome) :
    .dial .blkClient HandlerBlk.localhost (portOfInt port) (some o) ∈ dials port (os ++ [o]) :=
  List.mem_map.mpr ⟨o, List.mem_append_right _ (List.mem_singleton_self o), rfl⟩

section Rounds

variable (hm : m.isTunnelRequest = false)
  (hport : ((portOfInt m.destinationPort).toNat : Int) = m.destinationPort.toInt)

include hm hport

/-- An attempt of the client of a request. -/
theorem seeking_attempt (o : Option DialOutcome) :
    Route.next fd (.seeking m tried)
        (.dial .blkClient HandlerBlk.localhost (portOfInt m.destinationPort) o) =
      some (afterDial m (linkOf o)) :=
  seeking_dial (by simp [hm]) hport o

/-- Attempts that have failed leave the proxy seeking. -/
theorem follow_refused {os : List DialOutcome} (hos : ∀ o ∈ os, o.status ≠ 0) :
    follow fd (.seeking m tried) (dials m.destinationPort os) =
      some (.seeking m (tried || !os.isEmpty)) := by
  induction os generalizing tried with
  | nil =>
    rw [List.isEmpty_nil, Bool.not_true, Bool.or_false]
    rfl
  | cons o os ih =>
    have hnext := @seeking_attempt fd m tried hm hport (some o)
    rw [linkOf_refused (hos o (List.mem_cons_self ..))] at hnext
    have hrest := @ih true fun o' ho' => hos o' (List.mem_cons_of_mem _ ho')
    rw [List.isEmpty_cons, Bool.not_false, Bool.or_true]
    exact (follow_cons hnext).trans hrest

/-- **The attempts of a round** lead to the connection that the client keeps. -/
theorem follow_accepted {os : List DialOutcome} {o : DialOutcome} (hacc : Accepted os o)
    (hclean : cleanDial .blkClient o = true) :
    ∃ link, sockOf o = some link ∧
      follow fd (.seeking m tried) (dials m.destinationPort (os ++ [o])) =
        some (.linked m link) := by
  obtain ⟨hlink, hsome⟩ := sockOf_clean hacc.accepted hclean
  obtain ⟨link, hsock⟩ := Option.isSome_iff_exists.mp hsome
  refine ⟨link, hsock, ?_⟩
  have hlast := @seeking_attempt fd m (tried || !os.isEmpty) hm hport (some o)
  rw [hlink, hsock] at hlast
  rw [show dials m.destinationPort (os ++ [o]) = dials m.destinationPort os ++ _ from
    List.map_append]
  exact (follow_append (follow_refused hm hport hacc.refused)).trans (follow_last hlast)

/-- **A round that ends the session** leaves nothing owed that could be paid. -/
theorem RoundEnd.routed (h : RoundEnd fd m.destinationPort m tr r) (hclean : CleanDials tr) :
    ∃ c, follow fd (.seeking m false) tr = some c ∧ c.Settled r := by
  -- the attempt that succeeded is clean
  have haccepted : ∀ {os o tr'}, tr = dials m.destinationPort (os ++ [o]) ++ tr' →
      Accepted os o → ∃ link, sockOf o = some link ∧
        follow fd (.seeking m false) tr = follow fd (.linked m link) tr' := by
    intro os o tr' htr hacc
    obtain ⟨link, hsock, hlink⟩ := @follow_accepted fd m false hm hport os o hacc
      (hclean (.dial .blkClient HandlerBlk.localhost (portOfInt m.destinationPort) (some o)) (by
        rw [htr]
        exact List.mem_append_left _ (mem_dials os o)))
    rw [htr]
    exact ⟨link, hsock, follow_append hlink⟩
  cases h with
  | dialing os hlen hos =>
    refine ⟨.seeking m true, ?_, Or.inl rfl⟩
    rw [follow_append (follow_refused hm hport hos)]
    exact follow_last (seeking_attempt hm hport none)
  | refused os hlen hos =>
    refine ⟨.idle, ?_, trivial⟩
    have htried : (false || !os.isEmpty) = true := by
      cases os with
      | nil => cases hlen
      | cons o os => rfl
    rw [follow_append (follow_refused hm hport hos), htried]
    rfl
  | requesting os o tr k hacc hs =>
    obtain ⟨link, hsock, htr⟩ := haccepted rfl hacc
    rw [hsock] at hs
    exact ⟨.idle, htr.trans (hs.linked hm), trivial⟩
  | awaiting os o e tr k hacc he hr =>
    obtain ⟨link, hsock, htr⟩ := haccepted rfl hacc
    rw [hsock] at he
    exact ⟨.idle, htr.trans ((follow_cons (he.linked hm)).trans hr.idle), trivial⟩
  | failed os o e e' hacc he he' =>
    obtain ⟨link, hsock, htr⟩ := haccepted rfl hacc
    rw [hsock] at he
    exact ⟨.idle, htr.trans ((follow_cons (he.linked hm)).trans (follow_cons he'.idle)), trivial⟩
  | replying os o resp e e' tr k hacc he he' hs =>
    obtain ⟨link, hsock, htr⟩ := haccepted rfl hacc
    rw [hsock] at he
    refine ⟨.idle, htr.trans ?_, trivial⟩
    rw [follow_cons (he.linked hm), follow_cons he'.idle_upstream]
    exact hs.idle
  | listening os o resp e e' e'' tr k hacc he he' he'' hr =>
    obtain ⟨link, hsock, htr⟩ := haccepted rfl hacc
    rw [hsock] at he
    refine ⟨.idle, htr.trans ?_, trivial⟩
    rw [follow_cons (he.linked hm), follow_cons he'.idle_upstream, follow_cons he''.idle,
      follow_cons idle_close]
    exact hr.idle
  | ended os o resp e e' e'' e3 hacc he he' he'' he3 =>
    obtain ⟨link, hsock, htr⟩ := haccepted rfl hacc
    rw [hsock] at he
    refine ⟨.idle, htr.trans ?_, trivial⟩
    rw [follow_cons (he.linked hm), follow_cons he'.idle_upstream, follow_cons he''.idle,
      follow_cons idle_close, follow_cons he3.idle]
    rfl

/-- **A round after which the session goes on** has treated its message, and leaves the next one. -/
theorem RoundNext.routed (h : RoundNext fd m.destinationPort m tr m') (hclean : CleanDials tr) :
    follow fd (.seeking m false) tr = some (.seeking m' false) := by
  cases h with
  | intro os o resp m' e e' e'' e3 hacc he he' he'' he3 =>
    obtain ⟨link, hsock, hlink⟩ := @follow_accepted fd m false hm hport os o hacc
      (hclean _ (List.mem_append_left _ (mem_dials os o)))
    rw [hsock] at he
    rw [follow_append hlink, follow_cons (he.linked hm), follow_cons he'.idle_upstream,
      follow_cons he''.idle, follow_cons idle_close, follow_cons he3.idle_client]
    rfl

end Rounds

theorem Got.mem_clientMessages (h : Got .client sock m e) (he : e ∈ tr) :
    m ∈ clientMessages tr := by
  cases h with
  | intro used f ho => exact List.mem_filterMap.mpr ⟨_, he, rfl⟩

/-- The message with which a round leaves off is one that came from the client. -/
theorem RoundNext.mem_clientMessages (h : RoundNext fd port m tr m') :
    m' ∈ clientMessages tr := by
  cases h with
  | intro os o resp m' e e' e'' e3 hacc he he' he'' he3 =>
    exact he3.mem_clientMessages (by simp)

/-- A message from the client comes before those that follow. -/
theorem Got.clientMessages_cons (h : Got .client sock m e) (tr : List Event) :
    clientMessages (e :: tr) = m :: clientMessages tr := by
  cases h with
  | intro used f ho => rfl

theorem clientMessages_append : clientMessages (tr ++ tr') = clientMessages tr ++ clientMessages tr' :=
  List.filterMap_append

/-- **A session of requests to one port is routed.** -/
theorem NormalRun.routed (h : NormalRun fd port m tr r)
    (hport : ((portOfInt port).toNat : Int) = port.toInt)
    (hm : m.isTunnelRequest = false ∧ m.destinationPort = port)
    (hms : ∀ m' ∈ clientMessages tr, m'.isTunnelRequest = false ∧ m'.destinationPort = port)
    (hclean : CleanDials tr) : ∃ c, follow fd (.seeking m false) tr = some c ∧ c.Settled r := by
  -- induction on the rounds; each leaves the message that the next one treats
  induction h with
  | cut m => exact ⟨.seeking m false, rfl, Or.inr rfl⟩
  | stop h =>
    obtain ⟨hverb, rfl⟩ := hm
    exact h.routed hverb hport hclean
  | @next m m' tr tr' r h hrun ih =>
    obtain ⟨hverb, rfl⟩ := hm
    have hleft : CleanDials tr := fun x hx => hclean x (List.mem_append_left _ hx)
    have hright : CleanDials tr' := fun x hx => hclean x (List.mem_append_right _ hx)
    rw [follow_append (h.routed hverb hport hleft)]
    rw [clientMessages_append] at hms
    apply ih
    · exact hms m' (List.mem_append_left _ h.mem_clientMessages)
    · exact fun x hx => hms x (List.mem_append_right _ hx)
    · exact hright

/-- **A tunnel** to the port of its request. -/
theorem TunnelRun.routed (h : TunnelRun fd m tr r) (hm : m.isTunnelRequest = true)
    (hport : ((portOfInt m.destinationPort).toNat : Int) = m.destinationPort.toInt)
    (hclean : CleanDials tr) : ∃ c, follow fd (.seeking m false) tr = some c ∧ c.Settled r := by
  have hdial : ∀ o, Route.next fd (.seeking m false)
      (.dial .tunnel HandlerBlk.localhost (portOfInt m.destinationPort) o) =
        some (afterDial m (linkOf o)) := fun o => seeking_dial (by simp [hm]) hport o
  -- an attempt with a zero status has made the connection
  have hlinked : ∀ {o : DialOutcome}, o.status = 0 → cleanDial .tunnel o = true →
      Route.next fd (.seeking m false)
        (.dial .tunnel HandlerBlk.localhost (portOfInt m.destinationPort) (some o)) =
          some (.linked m o.ret) := by
    intro o ho hc
    obtain ⟨n, rfl, -⟩ := connected_of_clean ho hc
    exact hdial _
  cases h with
  | dialing => exact ⟨.seeking m true, follow_last (hdial none), Or.inl rfl⟩
  | refused o ho =>
    refine ⟨.seeking m true, ?_, Or.inl rfl⟩
    have hnext := hdial (some o)
    rw [linkOf_refused ho] at hnext
    exact follow_last hnext
  | greeting o tr k ho hs =>
    obtain ⟨hgreeted, hsettled⟩ := @SendStops.greeted fd m tr o.ret k hs hm
    rw [follow_cons (hlinked ho (hclean _ (List.mem_cons_self ..)))]
    exact ⟨_, hgreeted, hsettled⟩
  | relaying o e ts k ho he hk =>
    refine ⟨.idle, ?_, trivial⟩
    rw [follow_cons (hlinked ho (hclean _ (List.mem_cons_self ..))), follow_cons (he.greeted hm)]
    exact follow_last greeted_relay
  | relayed o e ts ho he =>
    refine ⟨.idle, ?_, trivial⟩
    rw [follow_cons (hlinked ho (hclean _ (List.mem_cons_self ..))), follow_cons (he.greeted hm),
      follow_cons greeted_relay]
    rfl

/-! ## The handler -/

/-- **Routing.**  In every session of the proxy whose later messages are no tunnel requests and name
    the port of the first one, and whose connection attempts are what they seem, each message is
    treated according to its own header. -/
theorem routed_of_oneRoute (fd : Fd) (s : Env)
    (hroute : OneRoute (handle .BLK_PROXY fd s).trace)
    (hclean : CleanDials (handle .BLK_PROXY fd s).trace) :
    Routed fd (handle .BLK_PROXY fd s).trace (handle .BLK_PROXY fd s).fin := by
  have hserve : NormalServe fd (handle .BLK_PROXY fd s).trace (handle .BLK_PROXY fd s).fin :=
    runs_handleBlkNormal fd s
  generalize (handle .BLK_PROXY fd s).trace = tr at *
  generalize (handle .BLK_PROXY fd s).fin = r at hserve ⊢
  have htail : ∀ {e tr'}, tr = e :: tr' → CleanDials tr' := by
    rintro e tr' rfl x hx
    exact hclean x (List.mem_cons_of_mem _ hx)
  cases hserve with
  | stop h => exact ⟨.idle, h.idle, trivial⟩
  | ended h => exact ⟨.idle, (follow_cons h.idle).trans (follow_last idle_close), trivial⟩
  | @tunnel m e tr r he ht h =>
    obtain ⟨⟨h0, h1⟩, -⟩ := hroute m _ (he.clientMessages_cons tr)
    obtain ⟨c, hc, hsettled⟩ := h.routed ht (toNat_portOfInt h0 h1) (htail rfl)
    exact ⟨c, (follow_cons he.idle_client).trans hc, hsettled⟩
  | @normal m e tr r he ht h =>
    obtain ⟨⟨h0, h1⟩, hlater⟩ := hroute m _ (he.clientMessages_cons tr)
    obtain ⟨c, hc, hsettled⟩ := h.routed (toNat_portOfInt h0 h1) ⟨ht, rfl⟩ hlater (htail rfl)
    exact ⟨c, (follow_cons he.idle_client).trans hc, hsettled⟩

/-- A session of two requests to one port: client, response, client, response, end. -/
def twoRequests : Env :=
  ⟨[.data onePing, .data onePing, .data onePing, .data onePing, .eof], [.all, .all, .all, .all],
    [.connectFailed 6 61, .connected 7, .connected 7], []⟩

theorem routed_of_oneRoute_twoRequests :
    Routed 5 (handle .BLK_PROXY 5 twoRequests).trace (handle .BLK_PROXY 5 twoRequests).fin := by
  apply routed_of_oneRoute 5 twoRequests
  · intro m ms hms
    have hboth : clientMessages (handle .BLK_PROXY 5 twoRequests).trace = [ping, ping] := by decide
    obtain ⟨rfl, rfl⟩ := List.cons_eq_cons.mp (hboth.symm.trans hms)
    decide
  · unfold CleanDials
    decide

/-- A request to another port. -/
def pingElsewhere : Chunk :=
  ⟨(BlkMessage.make 81 NORMAL (ascii "a")).toRawString, by decide, by decide⟩

/-- The second request names port 81 and is sent to the first one's port 80. -/
theorem routed_to_first_port : ¬ ∀ (fd : Fd) (s : Env), CleanDials (handle .BLK_PROXY fd s).trace →
    Routed fd (handle .BLK_PROXY fd s).trace (handle .BLK_PROXY fd s).fin := by
  intro h
  obtain ⟨c, hc, -⟩ := h 5 ⟨[.data onePing, .data onePing, .data pingElsewhere], [.all, .all],
    [.connected 7, .connected 8], []⟩ (by unfold CleanDials; decide)
  revert hc
  rw [show follow 5 .idle _ = none by decide]
  exact nofun

end Pixie.Proxy
