/-
  What a connection can look like from outside: the traces of the handlers.

  Each handler is inverted ONCE.  The relations below say which traces it leaves and how it ends, and
  the theorems `runs_*` say that it can do nothing else, in any environment.  Everything that is
  later said about sessions is proved of these relations, by induction on the rounds.

  1. **Messages** — `Sent`, `SendStops`: a message goes out whole (or fails without a trace in the
     status), or the handler stops in the write.  `Got`, `Over`, `RecvStops`: a frame comes in, the
     stream is over, or the handler stops in the read.

  2. **A round of the proxy** — up to four connection attempts; the request and the response; the
     response to the client; the next request.  `RoundNext` is a round after which the session goes
     on, `RoundEnd` one in which it ends.  `NormalRun` strings rounds together.

  3. **Tunnel and loopback** — `TunnelRun` and `LoopRun`.

  4. **The whole handler** — `NormalServe` starts with the first message and branches on its verb.
-/
import Pixie.Proxy.Handler

namespace Pixie.Proxy

open Pixie.Decimal Pixie.Net Pixie.Blk Pixie.Wp

/-! ## Messages on a socket -/

/-- The message was handed to `write`, which took all of it or failed. -/
inductive Sent (side : Side) (fd : Option Fd) (msg : BlkMessage) : Event → Prop
  | intro (o : WriteOutcome) : ¬ o.Partial (bufferLength msg) →
      Sent side fd msg (.send side fd msg (some o))

/-- The handler stops in the write. -/
inductive SendStops (side : Side) (fd : Option Fd) (msg : BlkMessage) : List Event → Stop → Prop
  | waits : SendStops side fd msg [.send side fd msg none] .pending
  | short (o : WriteOutcome) : o.Partial (bufferLength msg) →
      SendStops side fd msg [.send side fd msg (some o)] .aborted

/-- A message has come in; it is the message of a frame. -/
inductive Got (side : Side) (fd : Option Fd) : BlkMessage → Event → Prop
  | intro (used : List ReadOutcome) (f : Frame) : ¬ Failing used →
      Got side fd f.message (.recv side fd used (.returned true blkReadStatusOk) f.message)

/-- The stream has ended, or does not parse. -/
inductive Over (side : Side) (fd : Option Fd) : Event → Prop
  | intro (used : List ReadOutcome) (msg : BlkMessage) (status : Int) : ¬ Failing used →
      status = blkReadStatusEof ∨ status = blkReadStatusParseError →
      Over side fd (.recv side fd used (.returned false status) msg)

/-- The handler stops in the read. -/
inductive RecvStops (side : Side) (fd : Option Fd) : List Event → Stop → Prop
  | waits (used : List ReadOutcome) (msg : BlkMessage) : ¬ Failing used →
      RecvStops side fd [.recv side fd used .pending msg] .pending
  | threw (used : List ReadOutcome) (msg : BlkMessage) : Failing used →
      RecvStops side fd [.recv side fd used .threw msg] .raised

/-! ## A round of the proxy -/

/-- The attempts that came back. -/
def dials (port : Int32) (os : List DialOutcome) : List Event :=
  os.map fun o => .dial .blkClient HandlerBlk.localhost (portOfInt port) (some o)

/-- The descriptor that a `BlkClient` keeps of an attempt. -/
def sockOf (o : DialOutcome) : Option Fd :=
  if o.ret ≠ 0 ∧ o.status = socketStatusGood then some o.ret else none

/-- Attempts that did not succeed, followed by one that did: at most four. -/
structure Accepted (os : List DialOutcome) (o : DialOutcome) : Prop where
  length : os.length ≤ 3
  refused : ∀ o' ∈ os, o'.status ≠ 0
  accepted : o.status = 0

/-- What is sent upstream for a message. -/
def request (m : BlkMessage) : BlkMessage := blkProxyRules m m

/-- A round in which the session ends. -/
inductive RoundEnd (fd : Fd) (port : Int32) (m : BlkMessage) :
    List Event → Except Stop Unit → Prop
  | dialing (os : List DialOutcome) : os.length ≤ 3 → (∀ o ∈ os, o.status ≠ 0) →
      RoundEnd fd port m
        (dials port os ++ [.dial .blkClient HandlerBlk.localhost (portOfInt port) none])
        (.error .pending)
  | refused (os : List DialOutcome) : os.length = 4 → (∀ o ∈ os, o.status ≠ 0) →
      RoundEnd fd port m (dials port os ++ [.close none, .close (some fd)]) (.ok ())
  | requesting (os : List DialOutcome) (o : DialOutcome) (tr : List Event) (k : Stop) :
      Accepted os o → SendStops .upstream (sockOf o) (request m) tr k →
      RoundEnd fd port m (dials port (os ++ [o]) ++ tr) (.error k)
  | awaiting (os : List DialOutcome) (o : DialOutcome) (e : Event) (tr : List Event) (k : Stop) :
      Accepted os o → Sent .upstream (sockOf o) (request m) e →
      RecvStops .upstream (sockOf o) tr k →
      RoundEnd fd port m (dials port (os ++ [o]) ++ e :: tr) (.error k)
  | failed (os : List DialOutcome) (o : DialOutcome) (e e' : Event) :
      Accepted os o → Sent .upstream (sockOf o) (request m) e → Over .upstream (sockOf o) e' →
      RoundEnd fd port m (dials port (os ++ [o]) ++ [e, e', .close (sockOf o), .close (some fd)])
        (.ok ())
  | replying (os : List DialOutcome) (o : DialOutcome) (resp : BlkMessage) (e e' : Event)
      (tr : List Event) (k : Stop) :
      Accepted os o → Sent .upstream (sockOf o) (request m) e → Got .upstream (sockOf o) resp e' →
      SendStops .client (some fd) resp tr k →
      RoundEnd fd port m (dials port (os ++ [o]) ++ e :: e' :: tr) (.error k)
  | listening (os : List DialOutcome) (o : DialOutcome) (resp : BlkMessage) (e e' e'' : Event)
      (tr : List Event) (k : Stop) :
      Accepted os o → Sent .upstream (sockOf o) (request m) e → Got .upstream (sockOf o) resp e' →
      Sent .client (some fd) resp e'' → RecvStops .client (some fd) tr k →
      RoundEnd fd port m (dials port (os ++ [o]) ++ e :: e' :: e'' :: .close (sockOf o) :: tr)
        (.error k)
  | ended (os : List DialOutcome) (o : DialOutcome) (resp : BlkMessage) (e e' e'' e''' : Event) :
      Accepted os o → Sent .upstream (sockOf o) (request m) e → Got .upstream (sockOf o) resp e' →
      Sent .client (some fd) resp e'' → Over .client (some fd) e''' →
      RoundEnd fd port m
        (dials port (os ++ [o]) ++ [e, e', e'', .close (sockOf o), e''', .close (some fd)]) (.ok ())

/-- A round after which the session goes on, with the message `m'`. -/
inductive RoundNext (fd : Fd) (port : Int32) (m : BlkMessage) : List Event → BlkMessage → Prop
  | intro (os : List DialOutcome) (o : DialOutcome) (resp m' : BlkMessage) (e e' e'' e''' : Event) :
      Accepted os o → Sent .upstream (sockOf o) (request m) e → Got .upstream (sockOf o) resp e' →
      Sent .client (some fd) resp e'' → Got .client (some fd) m' e''' →
      RoundNext fd port m (dials port (os ++ [o]) ++ [e, e', e'', .close (sockOf o), e''']) m'

/-- The rounds of `normalBlkProxy`. -/
inductive NormalRun (fd : Fd) (port : Int32) :
    BlkMessage → List Event → Except Stop Unit → Prop
  | cut (m : BlkMessage) : NormalRun fd port m [] (.error .pending)
  | stop {m : BlkMessage} {tr : List Event} {r : Except Stop Unit} :
      RoundEnd fd port m tr r → NormalRun fd port m tr r
  | next {m m' : BlkMessage} {tr tr' : List Event} {r : Except Stop Unit} :
      RoundNext fd port m tr m' → NormalRun fd port m' tr' r → NormalRun fd port m (tr ++ tr') r

/-! ## The tunnel and the loopback -/

/-- The message that tells the client that its tunnel is open. -/
def okMessage : BlkMessage := BlkMessage.make 8001 TUNNEL (ascii "OK TO TUNNEL")

/-- `tunnelBlkProxy`. -/
inductive TunnelRun (fd : Fd) (m : BlkMessage) : List Event → Except Stop Unit → Prop
  | dialing : TunnelRun fd m
      [.dial .tunnel HandlerBlk.localhost (portOfInt m.destinationPort) none] (.error .pending)
  | refused (o : DialOutcome) : o.status ≠ 0 → TunnelRun fd m
      [.dial .tunnel HandlerBlk.localhost (portOfInt m.destinationPort) (some o)]
      (.error (.exited 1))
  | greeting (o : DialOutcome) (tr : List Event) (k : Stop) : o.status = 0 →
      SendStops .client (some fd) okMessage tr k → TunnelRun fd m
      (.dial .tunnel HandlerBlk.localhost (portOfInt m.destinationPort) (some o) :: tr) (.error k)
  | relaying (o : DialOutcome) (e : Event) (ts : List Twc.Turn) (k : Stop) : o.status = 0 →
      Sent .client (some fd) okMessage e → k = .pending ∨ k = .relayAborted → TunnelRun fd m
      [.dial .tunnel HandlerBlk.localhost (portOfInt m.destinationPort) (some o), e,
        .relay fd o.ret (Twc.twcRun (Twc.twcInit fd o.ret 10000) ts).trace] (.error k)
  | relayed (o : DialOutcome) (e : Event) (ts : List Twc.Turn) : o.status = 0 →
      Sent .client (some fd) okMessage e → TunnelRun fd m
      [.dial .tunnel HandlerBlk.localhost (portOfInt m.destinationPort) (some o), e,
        .relay fd o.ret (Twc.twcRun (Twc.twcInit fd o.ret 10000) ts).trace,
        .close (some fd), .close (some o.ret)] (.ok ())

/-- The rounds of `handleBlkLoopBack`. -/
inductive LoopRun (fd : Fd) : List Event → Except Stop Unit → Prop
  | cut : LoopRun fd [] (.error .pending)
  | stop {tr : List Event} {k : Stop} : RecvStops .client (some fd) tr k → LoopRun fd tr (.error k)
  | ended {e : Event} : Over .client (some fd) e → LoopRun fd [e, .flush (some fd)] (.ok ())
  | echoing {m : BlkMessage} {e : Event} {tr : List Event} {k : Stop} :
      Got .client (some fd) m e → SendStops .client (some fd) m tr k →
      LoopRun fd (e :: tr) (.error k)
  | next {m : BlkMessage} {e e' : Event} {tr : List Event} {r : Except Stop Unit} :
      Got .client (some fd) m e → Sent .client (some fd) m e' → LoopRun fd tr r →
      LoopRun fd (e :: e' :: tr) r

/-! ## The whole handler -/

/-- `handleBlkNormal`. -/
inductive NormalServe (fd : Fd) : List Event → Except Stop Unit → Prop
  | stop {tr : List Event} {k : Stop} : RecvStops .client (some fd) tr k →
      NormalServe fd tr (.error k)
  | ended {e : Event} : Over .client (some fd) e → NormalServe fd [e, .close (some fd)] (.ok ())
  | tunnel {m : BlkMessage} {e : Event} {tr : List Event} {r : Except Stop Unit} :
      Got .client (some fd) m e → m.isTunnelRequest = true → TunnelRun fd m tr r →
      NormalServe fd (e :: tr) r
  | normal {m : BlkMessage} {e : Event} {tr : List Event} {r : Except Stop Unit} :
      Got .client (some fd) m e → m.isTunnelRequest = false →
      NormalRun fd m.destinationPort m tr r → NormalServe fd (e :: tr) r

/-! ## The handlers do nothing else -/

/-- The rule for a message that is sent. -/
theorem runs_send {side : Side} {fd : Option Fd} {msg : BlkMessage}
    {Q : List Event → Except Stop Bool → Prop}
    (hstop : ∀ tr k, SendStops side fd msg tr k → Q tr (.error k))
    (hok : ∀ e, Sent side fd msg e → Q [e] (.ok true)) :
    Runs (BlkSocket.writeMessage ⟨side, fd⟩ msg) Q :=
  runs_writeMessage (hstop _ _ .waits) (fun o ho => hstop _ _ (.short o ho))
    fun o ho => hok _ (.intro o ho)

/-- The rule for a message that is read. -/
theorem runs_recv {side : Side} {fd : Option Fd} {msg : BlkMessage}
    {Q : List Event → Except Stop (Bool × Int × BlkMessage) → Prop}
    (hstop : ∀ tr k, RecvStops side fd tr k → Q tr (.error k))
    (hover : ∀ e status m, Over side fd e → status = blkReadStatusEof ∨
      status = blkReadStatusParseError → Q [e] (.ok (false, status, m)))
    (hgot : ∀ e m, Got side fd m e → Q [e] (.ok (true, blkReadStatusOk, m))) :
    Runs (BlkSocket.readMessage ⟨side, fd⟩ msg) Q :=
  runs_readMessage (fun used m h => hstop _ _ (.waits used m h))
    (fun used m h => hstop _ _ (.threw used m h))
    (fun used m status h hs => hover _ status m (.intro used m status h hs) hs)
    fun used f h => hgot _ f.message (.intro used f h)

/-- The client of a round, before and after a connection was made. -/
def clientOf (port : Int32) (m : BlkMessage) (fd : Option Fd) : BlkClient :=
  ⟨HandlerBlk.localhost, port, fd, m, .blank, ⟨.upstream, fd⟩⟩

/-- One attempt. -/
theorem runs_clientConnect {port : Int32} {m : BlkMessage}
    {Q : List Event → Except Stop (Bool × Int × BlkClient) → Prop}
    (hpending : Q [.dial .blkClient HandlerBlk.localhost (portOfInt port) none] (.error .pending))
    (hrefused : ∀ o, o.status ≠ 0 →
      Q (dials port [o]) (.ok (false, o.status, clientOf port m none)))
    (haccepted : ∀ o, o.status = 0 →
      Q (dials port [o]) (.ok (true, 0, clientOf port m (sockOf o)))) :
    Runs (clientOf port m none).connect Q := by
  refine Runs.bind (runs_connect hpending fun o => ?_)
  refine Runs.after (Runs.pure ?_)
  show Q (dials port [o]) (.ok (o.status == 0, o.status,
    if o.ret ≠ 0 ∧ o.status = socketStatusGood then clientOf port m (some o.ret)
    else clientOf port m none))
  by_cases hs : o.status = 0
  · have hclient : (if o.ret ≠ 0 ∧ o.status = socketStatusGood then clientOf port m (some o.ret)
        else clientOf port m none) = clientOf port m (sockOf o) := by
      unfold sockOf
      split
      · rfl
      · rfl
    rw [hclient, hs]
    exact haccepted o hs
  · have hbad : ¬ (o.ret ≠ 0 ∧ o.status = socketStatusGood) := fun h => hs h.2
    rw [if_neg hbad, beq_false_of_ne hs]
    exact hrefused o hs

/-- **The connect loop**, with its attempts that fail and the one that may succeed. -/
theorem runs_connectLoop {port : Int32} {m : BlkMessage} (retries : Nat)
    {Q : List Event → Except Stop (Bool × Int × BlkClient) → Prop}
    (hpending : ∀ os, os.length ≤ retries → (∀ o ∈ os, o.status ≠ 0) →
      Q (dials port os ++ [.dial .blkClient HandlerBlk.localhost (portOfInt port) none])
        (.error .pending))
    (hrefused : ∀ os status, os.length = retries + 1 → (∀ o ∈ os, o.status ≠ 0) → status ≠ 0 →
      Q (dials port os) (.ok (false, status, clientOf port m none)))
    (haccepted : ∀ os o, os.length ≤ retries → (∀ o' ∈ os, o'.status ≠ 0) → o.status = 0 →
      Q (dials port (os ++ [o])) (.ok (true, 0, clientOf port m (sockOf o)))) :
    Runs (HandlerBlk.connectLoop (clientOf port m none) retries) Q := by
  induction retries generalizing Q with
  | zero =>
    refine Runs.bind (runs_clientConnect (hpending [] (Nat.le_refl 0) nofun) ?_ ?_)
    · intro o hs
      exact Runs.after (Runs.pure (hrefused [o] o.status rfl (by simpa using hs) hs))
    · intro o hs
      exact Runs.after (Runs.pure (haccepted [] o (Nat.le_refl 0) nofun hs))
  | succ n ih =>
    refine Runs.bind (runs_clientConnect (hpending [] (Nat.zero_le _) nofun) ?_ ?_)
    · -- the first attempt has failed, and `n` retries are left
      intro o hs
      have hcons : ∀ {os : List DialOutcome}, (∀ o' ∈ os, o'.status ≠ 0) →
          ∀ o' ∈ o :: os, o'.status ≠ 0 := by
        intro os hos o' ho'
        rcases List.mem_cons.mp ho' with rfl | ho'
        · exact hs
        · exact hos o' ho'
      refine Runs.after (ih ?_ ?_ ?_)
      · intro os hlen hos
        exact hpending (o :: os) (Nat.succ_le_succ hlen) (hcons hos)
      · intro os status hlen hos hst
        exact hrefused (o :: os) status (congrArg Nat.succ hlen) (hcons hos) hst
      · intro os o' hlen hos ho'
        exact haccepted (o :: os) o' (Nat.succ_le_succ hlen) (hcons hos) ho'
    · intro o hs
      exact Runs.after (Runs.pure (haccepted [] o (Nat.zero_le _) nofun hs))

theorem status_ne_zero {status : Int}
    (h : status = blkReadStatusEof ∨ status = blkReadStatusParseError) : status ≠ 0 := by
  rcases h with rfl | rfl
  · decide
  · decide

/-- The request and the response. -/
theorem runs_executeRequest {sock : Option Fd} {c : BlkClient}
    (hc : c.messageSocket = ⟨.upstream, sock⟩)
    {Q : List Event → Except Stop (Bool × Int × BlkClient) → Prop}
    (hrequesting : ∀ tr k, SendStops .upstream sock c.requestMessage tr k → Q tr (.error k))
    (hawaiting : ∀ e tr k, Sent .upstream sock c.requestMessage e →
      RecvStops .upstream sock tr k → Q (e :: tr) (.error k))
    (hfailed : ∀ e e' status m, Sent .upstream sock c.requestMessage e → Over .upstream sock e' →
      status ≠ 0 → Q [e, e'] (.ok (false, status, { c with responseMessage := m })))
    (hgot : ∀ e e' resp, Sent .upstream sock c.requestMessage e → Got .upstream sock resp e' →
      Q [e, e'] (.ok (true, 0, { c with responseMessage := resp }))) :
    Runs (c.executeRequest 0) Q := by
  obtain ⟨host, port, socket, requestMessage, responseMessage, messageSocket⟩ := c
  obtain rfl : messageSocket = ⟨.upstream, sock⟩ := hc
  refine Runs.bind (runs_send hrequesting fun e he => Runs.after ?_)
  -- `connect` has left a zero in `status`, and the write leaves it there
  refine Runs.of_pos (by rfl) (Runs.bind (runs_recv (hawaiting e · · he) ?_ ?_))
  · intro e' status m he' hst
    have hne := status_ne_zero hst
    refine Runs.after (Runs.pure ?_)
    show Q [e, e'] (.ok (status == 0, status, _))
    rw [beq_false_of_ne hne]
    exact hfailed e e' status m he he' hne
  · intro e' resp he'
    exact Runs.after (Runs.pure (hgot e e' resp he he'))

/-- **The exchange of a round**, on a connection that was made. -/
theorem runs_exchange {fd : Fd} {port : Int32} {m : BlkMessage} {sock : Option Fd} {h : HandlerBlk}
    (hh : h.messageSocket = ⟨.client, some fd⟩)
    {Q : List Event → Except Stop (Int × BlkClient) → Prop}
    (hrequesting : ∀ tr k, SendStops .upstream sock (request m) tr k → Q tr (.error k))
    (hawaiting : ∀ e tr k, Sent .upstream sock (request m) e → RecvStops .upstream sock tr k →
      Q (e :: tr) (.error k))
    (hfailed : ∀ e e' status c, Sent .upstream sock (request m) e → Over .upstream sock e' →
      status ≠ 0 → c.socket = sock → Q [e, e'] (.ok (status, c)))
    (hreplying : ∀ resp e e' tr k, Sent .upstream sock (request m) e → Got .upstream sock resp e' →
      SendStops .client (some fd) resp tr k → Q (e :: e' :: tr) (.error k))
    (hdone : ∀ resp e e' e'' c, Sent .upstream sock (request m) e → Got .upstream sock resp e' →
      Sent .client (some fd) resp e'' → c.socket = sock → Q [e, e', e''] (.ok (0, c))) :
    Runs (h.exchange m (clientOf port m sock) 0) Q := by
  refine Runs.bind (runs_executeRequest rfl hrequesting hawaiting ?_ ?_)
  · intro e e' status m' he he' hne
    exact Runs.after (Runs.of_neg Bool.false_ne_true (Runs.pure (hfailed e e' status _ he he' hne rfl)))
  · intro e e' resp he he'
    refine Runs.after (Runs.of_pos rfl ?_)
    rw [hh]
    refine Runs.bind (runs_send (hreplying resp e e' · · he he') fun e'' he'' => ?_)
    exact Runs.after (Runs.pure (hdone resp e e' e'' _ he he' he'' rfl))

/-- **Every run of `normalBlkProxy`.** -/
theorem runs_normalLoop {fd : Fd} {port : Int32} {h : HandlerBlk}
    (hh : h.messageSocket = ⟨.client, some fd⟩) (hp : h.pipeliningSupported = true) (rounds : Nat)
    (m : BlkMessage) :
    Runs (h.normalLoop HandlerBlk.localhost port rounds m) (NormalRun fd port m) := by
  induction rounds generalizing m with
  | zero => exact Runs.stop (.cut m)
  | succ n ih =>
    unfold HandlerBlk.normalLoop BlkSocket.close
    rw [hh]
    refine Runs.bind (runs_connectLoop 3 ?_ ?_ ?_)
    · intro os hlen hos
      exact .stop (.dialing os hlen hos)
    · -- four attempts have failed
      intro os status hlen hos hst
      refine Runs.after (Runs.bind (Runs.pure (Runs.after ?_)))
      refine Runs.bind (Runs.emit (Runs.after (Runs.of_pos hst (Runs.emit ?_))))
      have hrun := NormalRun.stop (@RoundEnd.refused fd port m os hlen hos)
      simpa [clientOf] using hrun
    · intro os o hlen hos ho
      have hacc : Accepted os o := ⟨hlen, hos, ho⟩
      refine Runs.after (Runs.bind (runs_exchange hh ?_ ?_ ?_ ?_ ?_))
      · intro tr k hs
        exact .stop (.requesting os o tr k hacc hs)
      · intro e tr k he hr
        exact .stop (.awaiting os o e tr k hacc he hr)
      · intro e e' status c he he' hst hc
        refine Runs.after (Runs.bind (Runs.emit (Runs.after (Runs.of_pos hst (Runs.emit ?_)))))
        rw [hc]
        have hrun := NormalRun.stop (@RoundEnd.failed fd port m os o e e' hacc he he')
        simpa using hrun
      · intro resp e e' tr k he he' hs
        exact .stop (.replying os o resp e e' tr k hacc he he' hs)
      · intro resp e e' e'' c he he' he'' hc
        refine Runs.after (Runs.bind (Runs.emit (Runs.after (Runs.of_neg (not_not.mpr rfl) ?_))))
        rw [hc]
        refine Runs.bind (runs_recv ?_ ?_ ?_)
        · intro tr k hr
          have hrun := NormalRun.stop (@RoundEnd.listening fd port m os o resp e e' e'' tr k
            hacc he he' he'' hr)
          show NormalRun fd port m _ (.error k)
          simpa using hrun
        · intro e3 status m' he3 _
          refine Runs.after (Runs.of_neg (fun hc => Bool.false_ne_true hc.1) (Runs.emit ?_))
          have hrun := NormalRun.stop (@RoundEnd.ended fd port m os o resp e e' e'' e3
            hacc he he' he'' he3)
          simpa using hrun
        · -- the next request: another round
          intro e3 m' he3
          refine Runs.after (Runs.of_pos ⟨rfl, rfl, hp⟩ ((ih m').mono fun tr' r hrun => ?_))
          have hnext := NormalRun.next (@RoundNext.intro fd port m os o resp m' e e' e'' e3
            hacc he he' he'' he3) hrun
          simpa using hnext

/-- **Every run of `tunnelBlkProxy`.** -/
theorem runs_tunnelBlkProxy (h : HandlerBlk) (m : BlkMessage) :
    Runs (h.tunnelBlkProxy m) (TunnelRun h.socketFd m) := by
  refine Runs.bind (runs_connect .dialing fun o => Runs.after (Runs.ite (fun hs => ?_) fun hs => ?_))
  · refine Runs.bind (runs_send (fun tr k hk => .greeting o tr k hs hk) fun e he => ?_)
    refine Runs.after (Runs.of_pos hs (Runs.bind (runs_relay ?_ ?_)))
    · intro ts
      refine Runs.after (Runs.bind (Runs.emit (Runs.after (Runs.emit ?_))))
      exact .relayed o e ts hs he
    · intro ts k hk
      exact .relaying o e ts k hs he hk
  · exact Runs.stop (.refused o hs)

/-- **Every run of `handleBlkLoopBack`.** -/
theorem runs_loopBack (fd : Fd) (rounds : Nat) :
    Runs (HandlerBlk.loopBack ⟨.client, some fd⟩ rounds) (LoopRun fd) := by
  induction rounds with
  | zero => exact Runs.stop .cut
  | succ n ih =>
    refine Runs.bind (runs_recv (fun tr k hk => .stop hk) ?_ ?_)
    · intro e status m he hst
      refine Runs.after ?_
      rcases hst with rfl | rfl
      · exact Runs.emit (.ended he)
      · exact Runs.emit (.ended he)
    · intro e m he
      refine Runs.after (Runs.bind (runs_send (fun tr k hk => .echoing he hk) fun e' he' => ?_))
      exact Runs.after (ih.mono fun tr r hrun => .next he he' hrun)

/-- **Every run of `handleBlkNormal`.** -/
theorem runs_handleBlkNormal (fd : Fd) :
    Runs (HandlerBlk.new fd).handleBlkNormal (NormalServe fd) := by
  refine Runs.bind (runs_recv (fun tr k hk => .stop hk) ?_ ?_)
  · intro e status m he hst
    refine Runs.after (Runs.of_neg (fun hc => Bool.false_ne_true hc.1) (Runs.of_pos ?_ ?_))
    · exact hst.imp_right Or.inl
    · exact Runs.emit (.ended he)
  · intro e m he
    refine Runs.after (Runs.of_pos ⟨rfl, rfl⟩ (Runs.ite (fun ht => ?_) fun ht => ?_))
    · exact (runs_tunnelBlkProxy _ m).mono fun tr r hrun => .tunnel he ht hrun
    · intro s
      have hrun := @runs_normalLoop fd m.destinationPort
        { HandlerBlk.new fd with messageSocket := ⟨.client, some fd⟩ } rfl rfl
        (s.dials.length + 1) m s
      exact .normal he (Bool.eq_false_iff.mpr ht) hrun

/-- Every run of `handleBlkLoopBack`. -/
theorem runs_handleBlkLoopBack (fd : Fd) :
    Runs (HandlerBlk.new fd).handleBlkLoopBack (LoopRun fd) :=
  fun s => runs_loopBack fd (s.reads.length + 1) s

end Pixie.Proxy
