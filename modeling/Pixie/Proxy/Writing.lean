/-
  Is a failed write ever taken for a success?

  `BlkSocket::writeMessage` returns `true` whatever `write` did, and leaves the caller's `status` as
  it was; for its two callers this is the zero of a successful connect.  So the result is right when
  it says what has happened, and only then.

  `SendsWhole m o` is the condition, on the message and the outcome of the `write`: `write` is given
  as many bytes as the encoding has (below 2^31 bytes this means that there is no NUL byte in it) and
  takes that many.  `write_honest_iff` puts together what follows for
    * `writeMessage` itself, for every incoming `status`;
    * `BlkClient::executeRequest`, which may return `true` on a request that was not sent, if a
      response arrives all the same;
    * `HandlerBlk::tunnelBlkProxy`, which may start the channel behind a greeting that was not sent.

  A partial write does not get that far: it fails the assertion of `socket_write_data`.
-/
import Pixie.Proxy.Session
import Pixie.Blk.Reading
import Pixie.Lib.Run

namespace Pixie.Proxy

open Pixie.Decimal Pixie.Net Pixie.Blk Pixie.Wp Pixie.Run

/-! ## What the callers rely on -/

/-- `BlkSocket::writeMessage` with its `status` argument, which it never assigns. -/
def BlkSocket.writeWithStatus (b : BlkSocket) (msg : BlkMessage) (status : Int) :
    Sys (Bool × Int) := do
  let ret ← b.writeMessage msg
  return (ret, status)

/-- With the outcome `o` of its `write`, the call comes back, either with `true` and a good status
    after the whole encoding, or with `false` and a bad one. -/
def WriteHonest (b : BlkSocket) (msg : BlkMessage) (status : Int) (o : WriteOutcome) : Prop :=
  ∀ (s : Env) (rest : List WriteOutcome), s.writes = o :: rest →
    ∃ ret status', (b.writeWithStatus msg status s).fin = .ok (ret, status') ∧
      (ret = true ∧ status' = blkWriteStatusOk ∧ wire msg o = msg.toRawString ∨
        ret = false ∧ status' ≠ blkWriteStatusOk)

/-- A `true` of `executeRequest` means that the whole request was sent and that the response is
    that of a complete frame. -/
def ExecuteHonest (c : BlkClient) (status : Int) (s : Env) : Prop :=
  ∀ status' c', (c.executeRequest status s).fin = .ok (true, status', c') →
    (∃ o rest, s.writes = o :: rest ∧ wire c.requestMessage o = c.requestMessage.toRawString) ∧
    ∃ f : Frame, c'.responseMessage = f.message

/-- The greeting of a tunnel has gone out whole. -/
def Greeted (fd : Fd) (tr : List Event) : Prop :=
  ∃ o, .send .client (some fd) okMessage (some o) ∈ tr ∧ wire okMessage o = okMessage.toRawString

/-- A channel is started only after the greeting. -/
def GreetedFirst (fd : Fd) : List Event → Prop :=
  Each fun before e => ∀ c u t, e = .relay c u t → Greeted fd before

/-! ## The condition -/

/-- `write` is given as many bytes as the encoding has, and takes that many. -/
structure SendsWhole (msg : BlkMessage) (o : WriteOutcome) : Prop where
  given : msg.toRawString.length ≤ sizeOfInt (bufferLength msg)
  taken : o.takes msg.toRawString.length = true

/-- Below 2^31 bytes the whole encoding is given exactly if no NUL byte is in it. -/
theorem given_iff {msg : BlkMessage} (h : msg.toRawString.length < 2 ^ 31) :
    msg.toRawString.length ≤ sizeOfInt (bufferLength msg) ↔ 0 ∉ msg.toRawString := by
  rw [← writeBytes_eq_toRawString_iff h]
  exact (List.take_eq_self_iff _).symm

/-- **The wire has the whole encoding** exactly under the condition. -/
theorem wire_eq_toRawString_iff {msg : BlkMessage} {o : WriteOutcome} :
    wire msg o = msg.toRawString ↔ SendsWhole msg o := by
  have hpos := msg.length_toRawString_pos
  rw [wire, writeBytes, List.take_take, List.take_eq_self_iff, Nat.le_min, WriteOutcome.le_ret_iff hpos]
  constructor
  · rintro ⟨⟨hgiven, htaken⟩, -⟩
    exact ⟨hgiven, htaken⟩
  · rintro ⟨hgiven, htaken⟩
    exact ⟨⟨hgiven, htaken⟩, hgiven⟩

/-- A write that has taken the whole encoding is not partial: what it has taken is what it was
    given. -/
theorem SendsWhole.not_partial {msg : BlkMessage} {o : WriteOutcome} (h : SendsWhole msg o) :
    ¬ o.Partial (bufferLength msg) := by
  obtain ⟨hgiven, htaken⟩ := h
  rintro ⟨hpos, hlt⟩
  rw [Int32.lt_iff_toInt_lt] at hpos hlt
  have hlen : 0 < msg.toRawString.length := msg.length_toRawString_pos
  have hret := (WriteOutcome.le_ret_iff hlen).mpr ⟨hgiven, htaken⟩
  have hle := o.ret_le_size (sizeOfInt (bufferLength msg))
  -- the length is no negative `int`, so the casts have changed nothing
  have hzero : (0 : Int32).toInt = 0 := rfl
  have hsize := sizeOfInt_of_nonneg (n := bufferLength msg) (by omega)
  have hhi := Int32.toInt_lt (bufferLength msg)
  have hstr : strlen msg.toRawString ≤ msg.toRawString.length :=
    (List.takeWhile_sublist _).length_le
  have hint : (bufferLength msg).toInt = strlen msg.toRawString :=
    Int32.toInt_ofNat_of_lt (by omega)
  have hres : (o.res (bufferLength msg)).toInt = o.ret (sizeOfInt (bufferLength msg)) :=
    Int32.toInt_ofInt_of_le (by omega) (by omega)
  omega

/-! ## `writeMessage` -/

/-- **When `writeMessage` tells what happened.** -/
theorem writeHonest_iff {b : BlkSocket} {msg : BlkMessage} {status : Int} {o : WriteOutcome} :
    WriteHonest b msg status o ↔ status = blkWriteStatusOk ∧ SendsWhole msg o := by
  constructor
  · intro h
    obtain ⟨ret, status', hfin, hsays⟩ := h ⟨[], [o], [], []⟩ [] rfl
    by_cases ho : o.Partial (bufferLength msg)
    · rw [BlkSocket.writeWithStatus, bind_of_error (writeMessage_aborts b msg rfl ho)] at hfin
      cases hfin
    · rw [BlkSocket.writeWithStatus, bind_of_ok (writeMessage_returns b msg rfl ho)] at hfin
      obtain ⟨rfl, rfl⟩ := Prod.mk.inj (Except.ok.inj hfin)
      rcases hsays with ⟨-, hstatus, hwire⟩ | ⟨hfalse, -⟩
      · exact ⟨hstatus, wire_eq_toRawString_iff.mp hwire⟩
      · cases hfalse
  · rintro ⟨rfl, hwhole⟩ s rest hs
    refine ⟨true, blkWriteStatusOk, ?_, Or.inl ⟨rfl, rfl, wire_eq_toRawString_iff.mpr hwhole⟩⟩
    rw [BlkSocket.writeWithStatus, bind_of_ok (writeMessage_returns b msg hs hwhole.not_partial)]
    rfl

/-! ## `executeRequest` -/

/-- The upstream delivers a complete frame. -/
def Answered (reads : List ReadOutcome) : Prop :=
  ∃ (cs : List Chunk) (rest : List ReadOutcome), reads = cs.map .data ++ rest ∧ Completes (text cs)

/-- A message that comes back is that of a frame that was delivered. -/
theorem answered_of_returned {msg : BlkMessage} {reads : List ReadOutcome} {status : Int}
    (h : (Blk.readMessage msg reads).fin = .returned true status) :
    Answered reads ∧ ∃ f : Frame, (Blk.readMessage msg reads).msg = f.message := by
  have hread : Blk.readMessage msg reads = ⟨.returned true status,
      (Blk.readMessage msg reads).msg, (Blk.readMessage msg reads).rest⟩ := by rw [← h]
  obtain ⟨f, cs, c, t, u, hreads, hc, hbytes, hmsg, -⟩ := readMessage_true hread
  refine ⟨⟨cs ++ [c], (Blk.readMessage msg reads).rest, ?_, f, u, ?_⟩, f, hmsg.symm⟩
  · rw [List.map_append, List.append_assoc]
    exact hreads
  · simp [← hbytes, hc]

/-- What `executeRequest` makes of what its read has returned. -/
def BlkClient.answer (c : BlkClient) (r : Bool × Int × BlkMessage) : Bool × Int × BlkClient :=
  (r.2.1 == 0, r.2.1, { c with responseMessage := r.2.2 })

/-- **The end of `executeRequest`** after a write that did not abort: the read decides. -/
theorem executeRequest_fin (c : BlkClient) {s : Env} {o : WriteOutcome} {rest : List WriteOutcome}
    (hs : s.writes = o :: rest) (ho : ¬ o.Partial (bufferLength c.requestMessage)) :
    (c.executeRequest blkWriteStatusOk s).fin =
      (BlkSocket.endOfRead (Blk.readMessage c.responseMessage s.reads).msg
        (Blk.readMessage c.responseMessage s.reads).fin).map c.answer := by
  obtain ⟨tr, s', hread⟩ : ∃ tr s',
      c.messageSocket.readMessage c.responseMessage { s with writes := rest } =
        ⟨tr, BlkSocket.endOfRead (Blk.readMessage c.responseMessage s.reads).msg
          (Blk.readMessage c.responseMessage s.reads).fin, s'⟩ := ⟨_, _, rfl⟩
  rw [BlkClient.executeRequest, bind_of_ok (writeMessage_returns _ _ hs ho)]
  dsimp only
  rw [if_pos rfl]
  cases hend : BlkSocket.endOfRead (Blk.readMessage c.responseMessage s.reads).msg
      (Blk.readMessage c.responseMessage s.reads).fin with
  | error k =>
    rw [hend] at hread
    rw [bind_of_error hread]
    rfl
  | ok r =>
    rw [hend] at hread
    rw [bind_of_ok hread]
    rfl

/-- A `true` comes from a good `status`, a write that did not abort, and a frame that was read. -/
theorem executeRequest_true {c c' : BlkClient} {status status' : Int} {s : Env}
    (h : (c.executeRequest status s).fin = .ok (true, status', c')) :
    status = blkWriteStatusOk ∧
      (∃ o rest, s.writes = o :: rest ∧ ¬ o.Partial (bufferLength c.requestMessage)) ∧
      Answered s.reads ∧ ∃ f : Frame, c'.responseMessage = f.message := by
  cases hs : s.writes with
  | nil =>
    rw [BlkClient.executeRequest, bind_of_error (writeMessage_waits _ _ hs)] at h
    cases h
  | cons o rest =>
    by_cases ho : o.Partial (bufferLength c.requestMessage)
    · rw [BlkClient.executeRequest, bind_of_error (writeMessage_aborts _ _ hs ho)] at h
      cases h
    by_cases hst : status = blkWriteStatusOk
    · subst hst
      rw [executeRequest_fin c hs ho] at h
      refine ⟨rfl, ⟨o, rest, rfl, ho⟩, ?_⟩
      obtain ⟨used, -, ⟨hfin, -⟩ | ⟨hfin, -⟩ | ⟨hfin | hfin, -⟩ | ⟨f, hfin, hmsg, -⟩⟩ :=
        readMessage_ends c.responseMessage s.reads
      · rw [hfin] at h
        cases h
      · rw [hfin] at h
        cases h
      · rw [hfin] at h
        cases h
      · rw [hfin] at h
        cases h
      · obtain ⟨hans, -⟩ := answered_of_returned hfin
        refine ⟨hans, f, ?_⟩
        rw [hfin, hmsg] at h
        cases h
        rfl
    · -- a status that was bad before is returned as such
      rw [BlkClient.executeRequest, bind_of_ok (writeMessage_returns _ _ hs ho)] at h
      dsimp only at h
      rw [if_neg hst] at h
      obtain ⟨hzero, -⟩ := Prod.mk.inj (Except.ok.inj h)
      exact absurd (beq_iff_eq.mp hzero) hst

/-- **When a `true` of `executeRequest` can be relied on.** -/
theorem executeHonest_iff {c : BlkClient} {status : Int} {s : Env} :
    ExecuteHonest c status s ↔ (status = blkWriteStatusOk → Answered s.reads →
      ∀ o rest, s.writes = o :: rest →
        o.Partial (bufferLength c.requestMessage) ∨ SendsWhole c.requestMessage o) := by
  constructor
  · rintro h rfl ⟨cs, rest', hreads, f, hf⟩ o rest hs
    rw [or_iff_not_imp_left]
    intro ho
    obtain ⟨ds, es, -, -, hread⟩ := readMessage_prefix c.responseMessage f hf rest'
    rw [← hreads] at hread
    have hfin := executeRequest_fin c hs ho
    rw [hread] at hfin
    obtain ⟨⟨o', rest'', hs', hwire⟩, -⟩ := h _ _ hfin
    obtain ⟨rfl, -⟩ := List.cons.inj (hs.symm.trans hs')
    exact wire_eq_toRawString_iff.mp hwire
  · intro h status' c' hfin
    obtain ⟨hst, ⟨o, rest, hs, ho⟩, hans, hframe⟩ := executeRequest_true hfin
    have hwhole := (h hst hans o rest hs).resolve_left ho
    exact ⟨⟨o, rest, hs, wire_eq_toRawString_iff.mpr hwhole⟩, hframe⟩

/-! ## `tunnelBlkProxy` -/

/-- Behind a greeting that has gone out nothing more is asked for. -/
theorem greetedFirst_append {fd : Fd} {tr tr' : List Event} (h : Greeted fd tr) :
    GreetedFirst fd (tr ++ tr') ↔ GreetedFirst fd tr := by
  rw [GreetedFirst, each_append]
  refine and_iff_left ?_
  rintro before e after - c u t -
  obtain ⟨o, ho, hwire⟩ := h
  exact ⟨o, List.mem_append_left before ho, hwire⟩

/-- Without a channel nothing is asked for. -/
theorem greetedFirst_of_not_mem {fd : Fd} {tr : List Event} (h : ∀ c u t, .relay c u t ∉ tr) :
    GreetedFirst fd tr := by
  rintro before e after rfl c u t rfl
  exact absurd (List.mem_append_right before (List.mem_cons_self ..)) (h c u t)

/-- The event of the attempt of a tunnel. -/
def tunnelDial (m : BlkMessage) (d : DialOutcome) : Event :=
  .dial .tunnel HandlerBlk.localhost (portOfInt m.destinationPort) (some d)

theorem rawTwoWayChannelStart_trace (c u : Fd) (s : Env) :
    ∃ t tr, (rawTwoWayChannelStart c u s).trace = .relay c u t :: tr := by
  obtain ⟨tr, htr⟩ := bind_trace (relay c u) _ s
  exact ⟨_, tr, htr⟩

/-- **A tunnel starts no channel**, or it has connected and has come back from writing its greeting. -/
theorem tunnelBlkProxy_trace (h : HandlerBlk) (m : BlkMessage) (s : Env) :
    ((∀ c u t, .relay c u t ∉ (h.tunnelBlkProxy m s).trace) ∧
      ∀ d ds o rest, s.dials = d :: ds → d.status = 0 → s.writes = o :: rest →
        o.Partial (bufferLength okMessage)) ∨
    ∃ d ds o rest u t tr, s.dials = d :: ds ∧ d.status = 0 ∧ s.writes = o :: rest ∧
      ¬ o.Partial (bufferLength okMessage) ∧
      (h.tunnelBlkProxy m s).trace = [tunnelDial m d,
        .send .client (some h.socketFd) okMessage (some o)] ++ .relay h.socketFd u t :: tr := by
  obtain ⟨reads, writes, dials, turns⟩ := s
  rw [HandlerBlk.tunnelBlkProxy]
  cases dials with
  | nil =>
    rw [bind_of_error (socketConnectHostPort_waits .tunnel _ _ rfl)]
    exact Or.inl ⟨by simp, nofun⟩
  | cons d ds =>
    rw [bind_of_ok (socketConnectHostPort_returns .tunnel _ _ rfl)]
    dsimp only
    by_cases hst : d.status = socketStatusGood
    · rw [if_pos hst, ← okMessage]
      cases writes with
      | nil =>
        rw [bind_of_error (writeMessage_waits _ _ rfl)]
        exact Or.inl ⟨by simp, nofun⟩
      | cons o rest =>
        by_cases ho : o.Partial (bufferLength okMessage)
        · rw [bind_of_error (writeMessage_aborts _ _ rfl ho)]
          refine Or.inl ⟨by simp, ?_⟩
          rintro _ _ o' rest' - - hw
          obtain ⟨rfl, -⟩ := List.cons.inj hw
          exact ho
        · rw [bind_of_ok (writeMessage_returns _ _ rfl ho)]
          dsimp only
          obtain ⟨t, tr, htr⟩ := rawTwoWayChannelStart_trace h.socketFd d.ret ⟨reads, rest, ds, turns⟩
          refine Or.inr ⟨d, ds, o, rest, d.ret, t, tr, rfl, hst, rfl, ho, ?_⟩
          rw [if_pos (by rw [hst]; rfl), htr]
          rfl
    · rw [if_neg hst]
      refine Or.inl ⟨by simp [stop], ?_⟩
      rintro d' ds' _ _ hd hgood -
      obtain ⟨rfl, -⟩ := List.cons.inj hd
      exact absurd hgood hst

/-- **When the channel waits for the greeting.** -/
theorem greetedFirst_iff {h : HandlerBlk} {m : BlkMessage} {s : Env} :
    GreetedFirst h.socketFd (h.tunnelBlkProxy m s).trace ↔
      ∀ d ds o rest, s.dials = d :: ds → d.status = 0 → s.writes = o :: rest →
        o.Partial (bufferLength okMessage) ∨ SendsWhole okMessage o := by
  rcases tunnelBlkProxy_trace h m s with ⟨hno, hpart⟩ |
    ⟨d, ds, o, rest, u, t, tr, hd, hst, hw, ho, htr⟩
  · refine iff_of_true (greetedFirst_of_not_mem hno) fun d ds o rest hd hst hw => ?_
    exact Or.inl (hpart d ds o rest hd hst hw)
  · have hcond : (∀ d ds o rest, s.dials = d :: ds → d.status = 0 → s.writes = o :: rest →
        o.Partial (bufferLength okMessage) ∨ SendsWhole okMessage o) ↔ SendsWhole okMessage o := by
      constructor
      · intro hall
        exact (hall d ds o rest hd hst hw).resolve_left ho
      · intro hwhole d' ds' o' rest' _ _ hw'
        obtain ⟨rfl, -⟩ := List.cons.inj (hw.symm.trans hw')
        exact Or.inr hwhole
    rw [hcond, htr]
    constructor
    · intro hgreet
      obtain ⟨o', ho', hwire⟩ := hgreet _ _ _ rfl h.socketFd u t rfl
      obtain rfl : o' = o := by simpa [tunnelDial] using ho'
      exact wire_eq_toRawString_iff.mp hwire
    · intro hwhole
      have hgreet : Greeted h.socketFd
          [tunnelDial m d, .send .client (some h.socketFd) okMessage (some o)] :=
        ⟨o, by simp, wire_eq_toRawString_iff.mpr hwhole⟩
      rw [greetedFirst_append hgreet]
      exact greetedFirst_of_not_mem (by simp [tunnelDial])

/-! ## The three together -/

/-- **When a failed write is not taken for a success.**
    `writeMessage` tells what happened exactly if its incoming `status` is good and the whole encoding
    has gone out; a `true` of `executeRequest` can be relied on exactly if a request that is answered
    under a good `status` has gone out whole, unless its write aborts; and a channel starts only behind
    its greeting exactly if the greeting goes out whole on every connection, unless its write aborts. -/
theorem write_honest_iff (b : BlkSocket) (msg : BlkMessage) (status : Int) (o : WriteOutcome)
    (c : BlkClient) (h : HandlerBlk) (m : BlkMessage) (s : Env) :
    (WriteHonest b msg status o ↔ status = blkWriteStatusOk ∧ SendsWhole msg o) ∧
    (ExecuteHonest c status s ↔ (status = blkWriteStatusOk → Answered s.reads →
      ∀ o rest, s.writes = o :: rest →
        o.Partial (bufferLength c.requestMessage) ∨ SendsWhole c.requestMessage o)) ∧
    (GreetedFirst h.socketFd (h.tunnelBlkProxy m s).trace ↔
      ∀ d ds o rest, s.dials = d :: ds → d.status = 0 → s.writes = o :: rest →
        o.Partial (bufferLength okMessage) ∨ SendsWhole okMessage o) :=
  ⟨writeHonest_iff, executeHonest_iff, greetedFirst_iff⟩

/-- The peer is gone and the write fails: `writeMessage` reports a success, so does
    `executeRequest` when a response was under way, and the tunnel, whose client has reset its
    connection, starts its channel. -/
theorem not_honest_of_broken_pipe :
    (¬ ∀ b msg status o, WriteHonest b msg status o) ∧
    (¬ ∀ c status s, ExecuteHonest c status s) ∧
    ¬ ∀ (h : HandlerBlk) m s, GreetedFirst h.socketFd (h.tunnelBlkProxy m s).trace := by
  -- EPIPE (32) upstream, where SIGPIPE is off, and ECONNRESET (54) on the accepted socket
  have hno : ∀ msg errno, ¬ SendsWhole msg (.fail errno) := fun msg errno h =>
    Bool.false_ne_true h.taken
  refine ⟨?_, ?_, ?_⟩
  · intro h
    exact hno _ _ (writeHonest_iff.mp (h ⟨.upstream, some 7⟩ ping 0 (.fail 32))).2
  · intro h
    have hans : Answered [.data onePing] :=
      (answered_of_returned (by decide : (Blk.readMessage .blank [.data onePing]).fin =
        .returned true blkReadStatusOk)).1
    have hrel := executeHonest_iff.mp (h (clientOf 80 ping (some 7)) 0
      ⟨[.data onePing], [.fail 32], [], []⟩) rfl hans _ _ rfl
    exact hrel.elim (by decide) (hno _ _)
  · intro h
    have hrel := greetedFirst_iff.mp (h (HandlerBlk.new 5) ping
      ⟨[], [.fail 54], [.connected 7], []⟩) _ _ _ _ rfl rfl rfl
    exact hrel.elim (by decide) (hno _ _)

end Pixie.Proxy
