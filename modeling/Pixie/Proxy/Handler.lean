/-
  The handlers of a connection (`HandlerBlk.cpp`, `BlkClient.cpp`, `Handler.cpp`, `Worker.cpp`).

  They are written as the source has them, one definition for each function, with the loops of
  `normalBlkProxy` and `handleBlkLoopBack` followed for a number of rounds that their callers choose
  large enough: a round of the one makes at least one connection attempt, a round of the other uses
  at least one read, and there are only so many outcomes.  More rounds change nothing
  (`normalBlkProxy_eq`, `handleBlkLoopBack_eq`).

  What to look out for:
    * `status` is one variable through a whole round of `normalBlkProxy`: `connect` assigns it,
      `writeMessage` does not, `readMessage` does;
    * the port is taken from the FIRST message, and the verb is only looked at in `handleBlkNormal`;
    * `BlkClient::connect` keeps the descriptor only if it is not zero, but reports success by the
      status alone, and `BlkClient::close` closes whatever is there;
    * the loopback handler returns without closing its socket, and so does an exception everywhere.
-/
import Pixie.Proxy.System

namespace Pixie.Proxy

open Pixie.Decimal Pixie.Net Pixie.Blk Pixie.Wp

/-! ## `BlkClient` -/

/-- `BlkClient`; the `url` is never used. -/
structure BlkClient where
  host : Bytes
  port : Int32
  socket : Option Fd
  requestMessage : BlkMessage
  responseMessage : BlkMessage
  messageSocket : BlkSocket
deriving DecidableEq

namespace BlkClient

/-- `BlkClient::BlkClient(host, url, port, requestMessage)`. -/
def new (host : Bytes) (port : Int32) (requestMessage : BlkMessage) : BlkClient :=
  ⟨host, port, none, requestMessage, .blank, ⟨.upstream, none⟩⟩

/-- `BlkClient::connect`: the result, `status`, and the client. -/
def connect (c : BlkClient) : Sys (Bool × Int × BlkClient) := do
  let (sock, localStatus) ← socketConnectHostPort .blkClient c.host c.port
  let c' := if sock ≠ 0 ∧ localStatus = socketStatusGood then
      { c with socket := some sock, messageSocket := ⟨.upstream, some sock⟩ }
    else c
  return (localStatus == 0, localStatus, c')

/-- `BlkClient::executeRequest`, with the caller's `status`. -/
def executeRequest (c : BlkClient) (status : Int) : Sys (Bool × Int × BlkClient) := do
  let _ ← c.messageSocket.writeMessage c.requestMessage
  if status = blkWriteStatusOk then
    let (_, status', response) ← c.messageSocket.readMessage c.responseMessage
    return (status' == 0, status', { c with responseMessage := response })
  else
    return (status == 0, status, c)

/-- `BlkClient::close`. -/
def close (c : BlkClient) : Sys Unit := socketClose c.socket

end BlkClient

/-! ## `HandlerBlk` -/

/-- `Protocol`. -/
inductive Protocol
  | BLK_PROXY
  | HTTP_PROXY
  | LOOPBACK
deriving DecidableEq, Repr

/-- `HandlerBlk`, without the worker's number. -/
structure HandlerBlk where
  pipeliningSupported : Bool
  socketFd : Fd
  messageSocket : BlkSocket
deriving DecidableEq

namespace HandlerBlk

/-- `HandlerBlk::HandlerBlk`. -/
def new (socketHandle : Fd) : HandlerBlk := ⟨true, socketHandle, ⟨.client, none⟩⟩

/-- The `host` that both proxies connect to. -/
def localhost : Bytes := ascii "localhost"

/-- `HandlerBlk::tunnelBlkProxy`. -/
def tunnelBlkProxy (h : HandlerBlk) (msg : BlkMessage) : Sys Unit := do
  let (upstreamRawSocket, status) ← socketConnectHostPort .tunnel localhost msg.destinationPort
  let okMessage := BlkMessage.make 8001 TUNNEL (ascii "OK TO TUNNEL")
  let myMessageSocket : BlkSocket := ⟨.client, some h.socketFd⟩
  if status = socketStatusGood then
    let _ ← myMessageSocket.writeMessage okMessage
    if status = blkWriteStatusOk then
      rawTwoWayChannelStart h.socketFd upstreamRawSocket
    else
      return ()
  else
    stop [] (.exited 1)

/-- The connect loop of `normalBlkProxy`: one attempt, and again while `retries` are left. -/
def connectLoop (client : BlkClient) (retries : Nat) : Sys (Bool × Int × BlkClient) := do
  let (isConnected, status, client') ← client.connect
  if isConnected = true then
    return (true, status, client')
  else
    match retries with
    | 0 => return (false, status, client')
    | n + 1 => connectLoop client' n

/-- The exchange of a round: the rewritten request, the response, and its way to the client. -/
def exchange (h : HandlerBlk) (msg : BlkMessage) (client : BlkClient) (status : Int) :
    Sys (Int × BlkClient) := do
  let client := { client with requestMessage := blkProxyRules msg client.requestMessage }
  let (ok, status, client) ← client.executeRequest status
  if ok = true then
    let _ ← h.messageSocket.writeMessage client.responseMessage
    return (status, client)
  else
    return (status, client)

/-- The loop of `normalBlkProxy`, for so many rounds. -/
def normalLoop (h : HandlerBlk) (host : Bytes) (port : Int32) : Nat → BlkMessage → Sys Unit
  | 0, _ => stop [] .pending
  | rounds + 1, msg => do
      let (isConnected, status, client) ← connectLoop (BlkClient.new host port msg) 3
      let (status, client) ←
        if isConnected = true then h.exchange msg client status else pure (status, client)
      client.close
      if status ≠ 0 then
        h.messageSocket.close
      else
        let (gotMessage, status, msg) ← h.messageSocket.readMessage msg
        if gotMessage = true ∧ status = blkReadStatusOk ∧ h.pipeliningSupported = true then
          normalLoop h host port rounds msg
        else
          h.messageSocket.close

/-- `HandlerBlk::normalBlkProxy`. -/
def normalBlkProxy (h : HandlerBlk) (msg : BlkMessage) : Sys Unit := fun s =>
  normalLoop h localhost msg.destinationPort (s.dials.length + 1) msg s

/-- `HandlerBlk::handleBlkNormal`. -/
def handleBlkNormal (h : HandlerBlk) : Sys Unit := do
  let myMessageSocket : BlkSocket := ⟨.client, some h.socketFd⟩
  let h := { h with messageSocket := ⟨.client, some h.socketFd⟩ }
  let (gotMessage, status, msg) ← myMessageSocket.readMessage .blank
  if gotMessage = true ∧ status = blkReadStatusOk then
    if msg.isTunnelRequest = true then h.tunnelBlkProxy msg else h.normalBlkProxy msg
  else if status = blkReadStatusEof ∨ status = blkReadStatusParseError ∨
      status = blkReadStatusIoerror then
    myMessageSocket.close
  else
    return ()

/-- The loop of `handleBlkLoopBack`, for so many rounds. -/
def loopBack (b : BlkSocket) : Nat → Sys Unit
  | 0 => stop [] .pending
  | rounds + 1 => do
      let (gotMessage, status, msg) ← b.readMessage .blank
      if gotMessage = true then
        let _ ← b.writeMessage msg
        -- the inner `status` of the write is another variable
        if status = blkReadStatusParseError then b.flush
        else if status = blkReadStatusIoerror then return ()
        else loopBack b rounds
      else if status = blkReadStatusEof then
        b.flush
      else if status = blkReadStatusParseError then
        b.flush
      else if status = blkReadStatusIoerror then
        return ()
      else
        loopBack b rounds

/-- `HandlerBlk::handleBlkLoopBack`. -/
def handleBlkLoopBack (h : HandlerBlk) : Sys Unit := fun s =>
  loopBack ⟨.client, some h.socketFd⟩ (s.reads.length + 1) s

end HandlerBlk

/-! ## The rounds are enough -/

theorem connect_spends (c : BlkClient) : Spends Env.attempts c.connect :=
  Spends.bind (socketConnectHostPort_spends _ _ _) fun _ => .pure

theorem connect_spares (c : BlkClient) : Spares Env.attempts c.connect :=
  Spares.bind (socketConnectHostPort_spares _ _ _) fun _ => .pure

theorem connectLoop_spares (client : BlkClient) (retries : Nat) :
    Spares Env.attempts (HandlerBlk.connectLoop client retries) := by
  induction retries generalizing client with
  | zero => exact Spares.bind (connect_spares client) fun _ => .ite .pure .pure
  | succ n ih => exact Spares.bind (connect_spares client) fun _ => .ite .pure (ih _)

theorem connectLoop_spends (client : BlkClient) (retries : Nat) :
    Spends Env.attempts (HandlerBlk.connectLoop client retries) := by
  cases retries with
  | zero => exact Spends.bind (connect_spends client) fun _ => .ite .pure .pure
  | succ n => exact Spends.bind (connect_spends client) fun _ => .ite .pure (connectLoop_spares _ n)

theorem exchange_spares (h : HandlerBlk) (msg : BlkMessage) (client : BlkClient) (status : Int) :
    Spares Env.attempts (h.exchange msg client status) := by
  have hwrite : ∀ b msg, Spares Env.attempts (BlkSocket.writeMessage b msg) :=
    writeMessage_spares fun _ _ => rfl
  refine Spares.bind (Spares.bind (hwrite _ _) fun _ => .ite ?_ .pure) fun _ => .ite ?_ .pure
  · exact Spares.bind (readMessage_attempts _ _) fun _ => .pure
  · exact Spares.bind (hwrite _ _) fun _ => .pure

/-- **More rounds change nothing**: each uses up a connection attempt. -/
theorem normalLoop_rounds (h : HandlerBlk) (host : Bytes) (port : Int32) (n k : Nat) (hnk : n ≤ k)
    (msg : BlkMessage) :
    Agree Env.attempts n (h.normalLoop host port n msg) (h.normalLoop host port k msg) := by
  induction n generalizing k msg with
  | zero => exact fun s hs => absurd hs (Nat.not_lt_zero _)
  | succ n ih =>
    obtain ⟨k, rfl⟩ : ∃ k', k = k' + 1 := ⟨k - 1, by omega⟩
    apply Agree.spend (connectLoop_spends _ 3)
    rintro ⟨isConnected, status, client⟩
    dsimp only
    apply Agree.ite_bind (exchange_spares _ _ _ _) .pure
    intro _
    apply Agree.bind .emit
    intro _
    apply Agree.ite (.refl _)
    apply Agree.bind (readMessage_attempts _ _)
    intro _
    exact .ite (ih k (by omega) _) (.refl _)

/-- **More rounds change nothing** in the loopback either: each uses up a read. -/
theorem loopBack_rounds (b : BlkSocket) (n k : Nat) (hnk : n ≤ k) :
    Agree Env.unread n (HandlerBlk.loopBack b n) (HandlerBlk.loopBack b k) := by
  induction n generalizing k with
  | zero => exact fun s hs => absurd hs (Nat.not_lt_zero _)
  | succ n ih =>
    obtain ⟨k, rfl⟩ : ∃ k', k = k' + 1 := ⟨k - 1, by omega⟩
    have hnext := ih k (by omega)
    apply Agree.spend (readMessage_unread b .blank)
    intro _
    refine .ite ?_ (.ite (.refl _) (.ite (.refl _) (.ite (.refl _) hnext)))
    apply Agree.bind (writeMessage_spares (fun _ _ => rfl) _ _)
    intro _
    exact .ite (.refl _) (.ite (.refl _) hnext)

/-- `normalBlkProxy` is its loop without a bound on the rounds. -/
theorem normalBlkProxy_eq (h : HandlerBlk) (msg : BlkMessage) (s : Env) (rounds : Nat)
    (hrounds : s.attempts < rounds) : h.normalBlkProxy msg s =
      h.normalLoop HandlerBlk.localhost msg.destinationPort rounds msg s :=
  normalLoop_rounds h _ _ (s.attempts + 1) rounds hrounds msg s (Nat.lt_succ_self _)

/-- `handleBlkLoopBack` is its loop without a bound on the rounds. -/
theorem handleBlkLoopBack_eq (h : HandlerBlk) (s : Env) (rounds : Nat) (hrounds : s.unread < rounds) :
    h.handleBlkLoopBack s = HandlerBlk.loopBack ⟨.client, some h.socketFd⟩ rounds s :=
  loopBack_rounds _ (s.unread + 1) rounds hrounds s (Nat.lt_succ_self _)

/-! ## The worker -/

/-- `Handler::handle`; the HTTP handler is empty. -/
def handle (protocol : Protocol) (socketFd : Fd) : Sys Unit :=
  match protocol with
  | .BLK_PROXY => (HandlerBlk.new socketFd).handleBlkNormal
  | .HTTP_PROXY => pure ()
  | .LOOPBACK => (HandlerBlk.new socketFd).handleBlkLoopBack

/-- A round of `Worker::main` catches every `std::exception`: afterwards the worker is ready for the
    next socket if the handler has returned or has thrown. -/
def workerReady : Except Stop Unit → Bool
  | .ok () => true
  | .error .raised => true
  | .error _ => false

end Pixie.Proxy
