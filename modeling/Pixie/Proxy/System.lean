/-
  The calls a handler makes, and what it leaves in the world.

  A handler is a program against an environment that holds, for each kind of call, the outcomes in
  the order in which the calls are made: reads (all sockets together), writes, connection attempts,
  and the turns of a tunnel.  A call for which no outcome is left does not come back (`pending`), so
  every finite part of every session is a run.

  The EVENTS are the calls with their outcomes (`none` for one that does not come back).  They also say
  from which side of the proxy a message was read and to which side it was written: `client` for
  the socket that was accepted, `upstream` for the one a `BlkClient` has opened.  A descriptor is an
  `Option`, because `BlkClient` leaves its two descriptors indeterminate until a connection is made;
  `none` is such a value.

  The STOPS are the ways in which handling ends other than by returning: an exception, `exit`, a
  failing `assert` of the message sockets, one of the tunnel's, and a call that does not come back.
-/
import Pixie.Blk.Socket
import Pixie.Twc.Channel
import Pixie.Lib.Prog

namespace Pixie.Proxy

open Pixie.Decimal Pixie.Net Pixie.Blk Pixie.Wp

/-! ## Environment, events, stops -/

/-- The outcomes of the calls to come. -/
structure Env where
  reads : List ReadOutcome
  writes : List WriteOutcome
  dials : List DialOutcome
  turns : List Twc.Turn

/-- The side of the proxy that a message socket belongs to. -/
inductive Side
  | client
  | upstream
deriving DecidableEq, Repr

/-- Which function asks for a connection. -/
inductive Dialer
  | blkClient
  | tunnel
deriving DecidableEq, Repr

inductive Event
  /-- `socket_connect_host_port`, with the port it is given -/
  | dial (dialer : Dialer) (host : Bytes) (port : UInt16) (outcome : Option DialOutcome)
  /-- `BlkSocket::readMessage`: the reads it used, its end, and the message argument afterwards -/
  | recv (side : Side) (fd : Option Fd) (reads : List ReadOutcome) (fin : ReadEnd) (msg : BlkMessage)
  /-- `BlkSocket::writeMessage` of a message -/
  | send (side : Side) (fd : Option Fd) (msg : BlkMessage) (outcome : Option WriteOutcome)
  | flush (fd : Option Fd)
  | close (fd : Option Fd)
  /-- `twc_run` between two sockets, with its calls -/
  | relay (client upstream : Fd) (trace : List Twc.Event)
deriving DecidableEq

inductive Stop
  | raised
  | exited (code : Int)
  | aborted
  | relayAborted
  | pending
deriving DecidableEq, Repr

/-- A handler. -/
abbrev Sys := Prog Env Event Stop

/-! ## The calls -/

/-- `socket_connect_host_port`: the descriptor and `*status`; the `int` port of the callers is
    converted to the parameter's `unsigned short`. -/
def socketConnectHostPort (dialer : Dialer) (host : Bytes) (port : Int32) : Sys (Fd × Int) := fun s =>
  match s.dials with
  | [] => ⟨[.dial dialer host (portOfInt port) none], .error .pending, s⟩
  | o :: rest =>
      ⟨[.dial dialer host (portOfInt port) (some o)], .ok (o.ret, o.status), { s with dials := rest }⟩

/-- `socket_close`. -/
def socketClose (fd : Option Fd) : Sys Unit := emit (.close fd)

/-- `BlkSocket`: its side, and its `socket`. -/
structure BlkSocket where
  side : Side
  socket : Option Fd
deriving DecidableEq, Repr

namespace BlkSocket

/-- What a call of `readMessage` that ended so means for its caller. -/
def endOfRead (msg : BlkMessage) : ReadEnd → Except Stop (Bool × Int × BlkMessage)
  | .returned ret status => .ok (ret, status, msg)
  | .threw => .error .raised
  | .asserted => .error .aborted
  | .pending => .error .pending

/-- `BlkSocket::readMessage`: the result, `status`, and the message. -/
def readMessage (b : BlkSocket) (msg : BlkMessage) : Sys (Bool × Int × BlkMessage) := fun s =>
  let r := Blk.readMessage msg s.reads
  let used := s.reads.take (s.reads.length - r.rest.length)
  ⟨[.recv b.side b.socket used r.fin r.msg], endOfRead r.msg r.fin, { s with reads := r.rest }⟩

/-- `BlkSocket::writeMessage`.  It never assigns its `status` argument, which is therefore left out:
    a caller's `status` is afterwards what it was. -/
def writeMessage (b : BlkSocket) (msg : BlkMessage) : Sys Bool := fun s =>
  match s.writes with
  | [] => ⟨[.send b.side b.socket msg none], .error .pending, s⟩
  | o :: rest =>
      ⟨[.send b.side b.socket msg (some o)],
        match socketWriteData o (bufferLength msg) with
        | none => .error .aborted
        | some _ => .ok true,
        { s with writes := rest }⟩

/-- `BlkSocket::flush`; what `shutdown`, `recv` and `getsockopt` answer has no influence. -/
def flush (b : BlkSocket) : Sys Unit := emit (.flush b.socket)

/-- `BlkSocket::close`. -/
def close (b : BlkSocket) : Sys Unit := socketClose b.socket

end BlkSocket

/-- What the end of a `twc_run` means for its caller. -/
def endOfRelay : Twc.Outcome → Except Stop Unit
  | .running _ => .error .pending
  | .returned _ _ => .ok ()
  | .aborted _ => .error .relayAborted

/-- `twc_run` on a channel with the buffer size of `RawTwoWayChannel`. -/
def relay (socketHandleClient socketHandleServer : Fd) : Sys Unit := fun s =>
  let o := Twc.twcRun (Twc.twcInit socketHandleClient socketHandleServer 10000) s.turns
  ⟨[.relay socketHandleClient socketHandleServer o.trace], endOfRelay o, { s with turns := [] }⟩

/-- `RawTwoWayChannel::start`: the two-way channel until it ends, and then both sockets are closed. -/
def rawTwoWayChannelStart (socketHandleClient socketHandleServer : Fd) : Sys Unit := do
  relay socketHandleClient socketHandleServer
  socketClose (some socketHandleClient)
  socketClose (some socketHandleServer)

/-! ## The calls on their outcomes -/

theorem socketConnectHostPort_waits (dialer : Dialer) (host : Bytes) (port : Int32) {s : Env}
    (hs : s.dials = []) : socketConnectHostPort dialer host port s =
      ⟨[.dial dialer host (portOfInt port) none], .error .pending, s⟩ := by
  rw [socketConnectHostPort, hs]

theorem socketConnectHostPort_returns (dialer : Dialer) (host : Bytes) (port : Int32) {s : Env}
    {o : DialOutcome} {rest : List DialOutcome} (hs : s.dials = o :: rest) :
    socketConnectHostPort dialer host port s =
      ⟨[.dial dialer host (portOfInt port) (some o)], .ok (o.ret, o.status),
        { s with dials := rest }⟩ := by
  rw [socketConnectHostPort, hs]

theorem writeMessage_waits (b : BlkSocket) (msg : BlkMessage) {s : Env} (hs : s.writes = []) :
    b.writeMessage msg s = ⟨[.send b.side b.socket msg none], .error .pending, s⟩ := by
  rw [BlkSocket.writeMessage, hs]

theorem writeMessage_aborts (b : BlkSocket) (msg : BlkMessage) {s : Env} {o : WriteOutcome}
    {rest : List WriteOutcome} (hs : s.writes = o :: rest) (ho : o.Partial (bufferLength msg)) :
    b.writeMessage msg s =
      ⟨[.send b.side b.socket msg (some o)], .error .aborted, { s with writes := rest }⟩ := by
  rw [BlkSocket.writeMessage, hs]
  simp only [socketWriteData_eq_none.mpr ho]

/-- Whatever else `write` has done, `writeMessage` returns `true`. -/
theorem writeMessage_returns (b : BlkSocket) (msg : BlkMessage) {s : Env} {o : WriteOutcome}
    {rest : List WriteOutcome} (hs : s.writes = o :: rest) (ho : ¬ o.Partial (bufferLength msg)) :
    b.writeMessage msg s =
      ⟨[.send b.side b.socket msg (some o)], .ok true, { s with writes := rest }⟩ := by
  obtain ⟨r, hr⟩ := Option.ne_none_iff_exists'.mp (mt socketWriteData_eq_none.mp ho)
  rw [BlkSocket.writeMessage, hs]
  simp only [hr]

/-! ## What the calls use -/

/-- The connection attempts that are still to be answered. -/
def Env.attempts (s : Env) : Nat := s.dials.length

/-- The reads that are still to be answered. -/
def Env.unread (s : Env) : Nat := s.reads.length

theorem socketConnectHostPort_spares (dialer : Dialer) (host : Bytes) (port : Int32) :
    Spares Env.attempts (socketConnectHostPort dialer host port) := by
  intro s
  unfold socketConnectHostPort
  split
  · exact Nat.le_refl _
  · next o rest hdials =>
    show rest.length ≤ s.dials.length
    rw [hdials, List.length_cons]
    omega

theorem socketConnectHostPort_spends (dialer : Dialer) (host : Bytes) (port : Int32) :
    Spends Env.attempts (socketConnectHostPort dialer host port) := by
  intro s a ha
  unfold socketConnectHostPort at ha ⊢
  split at ha
  · cases ha
  · next o rest hdials =>
    show rest.length < s.dials.length
    rw [hdials, List.length_cons]
    omega

theorem readMessage_attempts (b : BlkSocket) (msg : BlkMessage) :
    Spares Env.attempts (b.readMessage msg) := fun s => Nat.le_refl s.attempts

theorem readMessage_unread (b : BlkSocket) (msg : BlkMessage) :
    Spends Env.unread (b.readMessage msg) := by
  intro s a ha
  have hrest : (Blk.readMessage msg s.reads).rest.length ≤ s.reads.length - 1 :=
    length_rest_readLoop _ _
  show (Blk.readMessage msg s.reads).rest.length < s.reads.length
  cases hreads : s.reads with
  | nil =>
    -- without an outcome the call does not come back
    change BlkSocket.endOfRead _ (Blk.readMessage msg s.reads).fin = _ at ha
    rw [hreads] at ha
    cases ha
  | cons o rest =>
    rw [hreads, List.length_cons] at hrest
    rw [List.length_cons]
    omega

theorem writeMessage_spares {μ : Env → Nat} (hμ : ∀ s ws, μ { s with writes := ws } = μ s)
    (b : BlkSocket) (msg : BlkMessage) : Spares μ (b.writeMessage msg) := by
  intro s
  unfold BlkSocket.writeMessage
  split
  · exact Nat.le_refl _
  · exact Nat.le_of_eq (hμ s _)

/-! ## The rules of the calls -/

section Rules

variable {α : Type}

theorem runs_connect {dialer : Dialer} {host : Bytes} {port : Int32}
    {Q : List Event → Except Stop (Fd × Int) → Prop}
    (hpending : Q [.dial dialer host (portOfInt port) none] (.error .pending))
    (hok : ∀ o, Q [.dial dialer host (portOfInt port) (some o)] (.ok (o.ret, o.status))) :
    Runs (socketConnectHostPort dialer host port) Q := by
  intro s
  cases hs : s.dials with
  | nil =>
    rw [socketConnectHostPort_waits dialer host port hs]
    exact hpending
  | cons o rest =>
    rw [socketConnectHostPort_returns dialer host port hs]
    exact hok o

/-- **What a call of `readMessage` comes to**: a complete frame has been read, or the stream has
    ended or does not parse, or a `read` has failed and the exception is on its way, or a `read`
    has not come back. -/
theorem runs_readMessage {b : BlkSocket} {msg : BlkMessage}
    {Q : List Event → Except Stop (Bool × Int × BlkMessage) → Prop}
    (hpending : ∀ used m, ¬ Failing used →
      Q [.recv b.side b.socket used .pending m] (.error .pending))
    (hthrew : ∀ used m, Failing used → Q [.recv b.side b.socket used .threw m] (.error .raised))
    (hfailed : ∀ used m status, ¬ Failing used →
      status = blkReadStatusEof ∨ status = blkReadStatusParseError →
      Q [.recv b.side b.socket used (.returned false status) m] (.ok (false, status, m)))
    (hgot : ∀ used (f : Frame), ¬ Failing used →
      Q [.recv b.side b.socket used (.returned true blkReadStatusOk) f.message]
        (.ok (true, blkReadStatusOk, f.message))) :
    Runs (b.readMessage msg) Q := by
  intro s
  obtain ⟨used, hused, hend⟩ := readMessage_ends msg s.reads
  have hlen : s.reads.length - (Blk.readMessage msg s.reads).rest.length = used.length := by
    have := congrArg List.length hused
    rw [List.length_append] at this
    omega
  have htake : s.reads.take used.length = used := by
    calc s.reads.take used.length
        = (used ++ (Blk.readMessage msg s.reads).rest).take used.length := by rw [← hused]
      _ = used := List.take_left
  show Q [.recv b.side b.socket (s.reads.take (s.reads.length - _)) _ _] (BlkSocket.endOfRead _ _)
  rw [hlen, htake]
  rcases hend with ⟨hfin, hok⟩ | ⟨hfin, hbad⟩ | ⟨hfin | hfin, hok⟩ | ⟨f, hfin, hmsg, hok⟩
  · rw [hfin]
    exact hpending used _ hok
  · rw [hfin]
    exact hthrew used _ hbad
  · rw [hfin]
    exact hfailed used _ _ hok (Or.inl rfl)
  · rw [hfin]
    exact hfailed used _ _ hok (Or.inr rfl)
  · rw [hfin, hmsg]
    exact hgot used f hok

theorem runs_writeMessage {b : BlkSocket} {msg : BlkMessage} {Q : List Event → Except Stop Bool → Prop}
    (hpending : Q [.send b.side b.socket msg none] (.error .pending))
    (hshort : ∀ o, o.Partial (bufferLength msg) →
      Q [.send b.side b.socket msg (some o)] (.error .aborted))
    (hok : ∀ o, ¬ o.Partial (bufferLength msg) →
      Q [.send b.side b.socket msg (some o)] (.ok true)) :
    Runs (b.writeMessage msg) Q := by
  intro s
  cases hs : s.writes with
  | nil =>
    rw [writeMessage_waits b msg hs]
    exact hpending
  | cons o rest =>
    by_cases ho : o.Partial (bufferLength msg)
    · rw [writeMessage_aborts b msg hs ho]
      exact hshort o ho
    · rw [writeMessage_returns b msg hs ho]
      exact hok o ho

theorem runs_relay {c u : Fd} {Q : List Event → Except Stop Unit → Prop}
    (hok : ∀ ts, Q [.relay c u (Twc.twcRun (Twc.twcInit c u 10000) ts).trace] (.ok ()))
    (hstop : ∀ ts k, k = .pending ∨ k = .relayAborted →
      Q [.relay c u (Twc.twcRun (Twc.twcInit c u 10000) ts).trace] (.error k)) :
    Runs (relay c u) Q := by
  intro s
  have hend : endOfRelay (Twc.twcRun (Twc.twcInit c u 10000) s.turns) = .ok () ∨
      ∃ k, (k = .pending ∨ k = .relayAborted) ∧
        endOfRelay (Twc.twcRun (Twc.twcInit c u 10000) s.turns) = .error k := by
    cases Twc.twcRun (Twc.twcInit c u 10000) s.turns with
    | running s' => exact Or.inr ⟨.pending, Or.inl rfl, rfl⟩
    | returned status s' => exact Or.inl rfl
    | aborted tr => exact Or.inr ⟨.relayAborted, Or.inr rfl, rfl⟩
  show Q [.relay c u (Twc.twcRun (Twc.twcInit c u 10000) s.turns).trace] (endOfRelay _)
  rcases hend with heq | ⟨k, hk, heq⟩
  · rw [heq]
    exact hok s.turns
  · rw [heq]
    exact hstop s.turns k hk

end Rules

end Pixie.Proxy
