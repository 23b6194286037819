/-
  Ownership: a handler touches no descriptor but its own.

  Descriptors are numbers of the whole process, and the workers of a server share them.  So what a
  handler may use, at each moment, are the descriptors it HOLDS: the one it was given, and those that
  its own connection attempts have opened, until it closes them.

  1. `watch` — the monitor of a handler.  Its state is what the handler holds, with the number of
     attempts that have been refused in a row.  A call on anything else is a fault.  Excused is what the
     environment may not do: an attempt that is not what it seems (`cleanDial`), and the fourth refusal
     in a row, after which `BlkClient::close` closes an indeterminate descriptor.

  2. `Keeps watch` for each function of the handlers, from the calls up; `Held fds` says that at least
     `fds` are held.  Leaks do no harm: a handler that forgets a descriptor goes on holding it.

  3. `handle_keeps` — **no handler, of any protocol, ever commits a fault.**
-/
import Pixie.Proxy.Descriptors
import Pixie.Lib.Monitor

namespace Pixie.Proxy

open Pixie.Decimal Pixie.Net Pixie.Blk Pixie.Wp

/-! ## The monitor -/

/-- The descriptors that a call names. -/
def Event.uses : Event → List (Option Fd)
  | .dial .. => []
  | .recv _ fd _ _ _ => [fd]
  | .send _ fd _ _ => [fd]
  | .flush fd => [fd]
  | .close fd => [fd]
  | .relay client upstream _ => [some client, some upstream]

/-- The descriptor that a call opens. -/
def Event.opens : Event → Option Fd
  | .dial _ _ _ (some o) => o.opened.map Int.ofNat
  | _ => none

/-- What a handler holds, and the attempts refused since the last other call. -/
structure Holding where
  opn : List Fd
  refusals : Nat
deriving DecidableEq, Repr

/-- A call may name what is held and nothing else. -/
def Holding.permits (h : Holding) (e : Event) : Prop := ∀ x ∈ e.uses, x ∈ h.opn.map some

instance (h : Holding) (e : Event) : Decidable (h.permits e) :=
  inferInstanceAs (Decidable (∀ x ∈ e.uses, x ∈ h.opn.map some))

/-- What the environment is assumed not to do. -/
def Holding.excuses (h : Holding) (e : Event) : Prop :=
  e.clean = false ∨ (e.refusal = true ∧ 3 ≤ h.refusals)

instance (h : Holding) (e : Event) : Decidable (h.excuses e) := inferInstanceAs (Decidable (_ ∨ _))

/-- The monitor. -/
def watch (h : Holding) (e : Event) : Except Verdict Holding :=
  if h.excuses e then .error .excused
  else if h.permits e then
    match e.settle h.opn with
    | some opn => .ok ⟨opn, if e.refusal = true then h.refusals + 1 else 0⟩
    | none => .error .fault
  else .error .fault

/-- What a handler is given. -/
def Holding.start (fd : Fd) : Holding := ⟨[fd], 0⟩

/-- At least these are held. -/
def Held (fds : List Fd) (h : Holding) : Prop := fds.Subperm h.opn

variable {fds : List Fd} {h h' : Holding} {e : Event} {fd : Fd}

theorem watch_ok {opn : List Fd} (hclean : ¬ h.excuses e) (huses : h.permits e)
    (hsettle : e.settle h.opn = some opn) :
    watch h e = .ok ⟨opn, if e.refusal = true then h.refusals + 1 else 0⟩ := by
  unfold watch
  rw [if_neg hclean, if_pos huses, hsettle]

/-- **What the monitor lets pass**: what is named was held, and what is held changes with what is opened
    and closed. -/
theorem watch_inv (hw : watch h e = .ok h') : h.permits e ∧ e.settle h.opn = some h'.opn := by
  unfold watch at hw
  split at hw
  · cases hw
  · split at hw
    · next hpermits =>
      refine ⟨hpermits, ?_⟩
      split at hw
      · next opn hsettle =>
        cases hw
        exact hsettle
      · cases hw
    · cases hw

theorem settle_of_opens {opn : List Fd} (he : e.opens = some fd) : e.settle opn = some (fd :: opn) := by
  cases e with
  | dial d host port o =>
    cases o with
    | none => cases he
    | some o =>
      cases o <;> cases he <;> rfl
  | _ => cases he

theorem settle_of_quiet {opn : List Fd} (hopens : e.opens = none) (hclose : ∀ x, e ≠ .close x) :
    e.settle opn = some opn := by
  cases e with
  | dial d host port o =>
    cases o with
    | none => rfl
    | some o =>
      cases o <;> first
        | rfl
        | cases hopens
  | close x => exact absurd rfl (hclose x)
  | _ => rfl

theorem Held.mem (hh : Held fds h) (hfd : fd ∈ fds) : some fd ∈ h.opn.map some :=
  List.mem_map_of_mem (hh.subset hfd)

/-- A call on what is held that opens and closes nothing. -/
theorem Held.uses (hh : Held fds h) (hclean : e.clean = true) (hrefusal : e.refusal = false)
    (hsettle : e.settle h.opn = some h.opn) (huses : ∀ x ∈ e.uses, ∃ fd ∈ fds, x = some fd) :
    ∃ h', watch h e = .ok h' ∧ Held fds h' := by
  refine ⟨_, watch_ok ?_ ?_ hsettle, hh⟩
  · rintro (hc | ⟨hc, -⟩)
    · rw [hclean] at hc
      cases hc
    · rw [hrefusal] at hc
      cases hc
  · intro x hx
    obtain ⟨fd, hfd, rfl⟩ := huses x hx
    exact hh.mem hfd

/-- Closing what is held. -/
theorem Held.close (hh : Held (fd :: fds) h) :
    ∃ h', watch h (.close (some fd)) = .ok h' ∧ Held fds h' := by
  have hmem : fd ∈ h.opn := hh.subset List.mem_cons_self
  have hsettle : (Event.close (some fd)).settle h.opn = some (h.opn.erase fd) := if_pos hmem
  refine ⟨_, watch_ok ?_ ?_ hsettle, ?_⟩
  · rintro (hc | ⟨hc, -⟩) <;> cases hc
  · intro x hx
    rw [List.mem_singleton.mp hx]
    exact List.mem_map_of_mem hmem
  · have herase : ((fd :: fds).erase fd).Subperm (h.opn.erase fd) := hh.erase fd
    rw [List.erase_cons_head] at herase
    exact herase

/-! ## The calls -/

variable {α : Type}

/-- A call with one event, on what is held. -/
theorem keeps_call {x : Sys α} (e : Env → Event) (htrace : ∀ s, (x s).trace = [e s])
    (hclean : ∀ s, (e s).clean = true) (hrefusal : ∀ s, (e s).refusal = false)
    (hsettle : ∀ s opn, (e s).settle opn = some opn)
    (huses : ∀ s, ∀ y ∈ (e s).uses, ∃ fd ∈ fds, y = some fd) :
    Keeps watch (Held fds) x fun _ => Held fds := by
  refine Keeps.single e htrace fun s m hm => ?_
  obtain ⟨m', hok, hm'⟩ := hm.uses (hclean s) (hrefusal s) (hsettle s _) (huses s)
  rw [hok]
  exact fun _ _ => hm'

theorem mem_uses (hfd : fd ∈ fds) : ∀ y ∈ [some fd], ∃ fd ∈ fds, y = some fd := by
  intro y hy
  exact ⟨fd, hfd, List.mem_singleton.mp hy⟩

theorem readMessage_keeps {b : BlkSocket} (msg : BlkMessage) (hfd : fd ∈ fds)
    (hb : b.socket = some fd) : Keeps watch (Held fds) (b.readMessage msg) fun _ => Held fds := by
  refine keeps_call _ (fun _ => rfl) (fun _ => rfl) (fun _ => rfl) (fun _ _ => rfl) fun s => ?_
  show ∀ y ∈ [b.socket], _
  rw [hb]
  exact mem_uses hfd

theorem writeMessage_keeps {b : BlkSocket} (msg : BlkMessage) (hfd : fd ∈ fds)
    (hb : b.socket = some fd) : Keeps watch (Held fds) (b.writeMessage msg) fun _ => Held fds := by
  refine keeps_call (fun s => .send b.side b.socket msg s.writes.head?) ?_ (fun _ => rfl)
    (fun _ => rfl) (fun _ _ => rfl) fun s => ?_
  · intro s
    unfold BlkSocket.writeMessage
    cases s.writes <;> rfl
  · show ∀ y ∈ [b.socket], _
    rw [hb]
    exact mem_uses hfd

theorem flush_keeps {b : BlkSocket} (hfd : fd ∈ fds) (hb : b.socket = some fd) :
    Keeps watch (Held fds) b.flush fun _ => Held fds := by
  refine keeps_call _ (fun _ => rfl) (fun _ => rfl) (fun _ => rfl) (fun _ _ => rfl) fun s => ?_
  show ∀ y ∈ [b.socket], _
  rw [hb]
  exact mem_uses hfd

theorem relay_keeps {c u : Fd} (hc : c ∈ fds) (hu : u ∈ fds) :
    Keeps watch (Held fds) (relay c u) fun _ => Held fds := by
  refine keeps_call _ (fun _ => rfl) (fun _ => rfl) (fun _ => rfl) (fun _ _ => rfl) fun s => ?_
  intro y hy
  rcases List.mem_cons.mp hy with rfl | hy
  · exact ⟨c, hc, rfl⟩
  · exact mem_uses hu y hy

theorem close_keeps : Keeps watch (Held (fd :: fds)) (socketClose (some fd)) fun _ => Held fds := by
  refine Keeps.emit fun m hm => ?_
  obtain ⟨m', hok, hm'⟩ := hm.close
  rw [hok]
  exact hm'

/-- What is wanted of an attempt with `k` more to come: a connection that is held from then on, or a
    refusal that leaves something of `k`. -/
def Dialed (d : Dialer) (fds : List Fd) (k : Nat) (r : Fd × Int) (h : Holding) : Prop :=
  (r.2 = 0 ∧ (d = .blkClient → r.1 ≠ 0) ∧ Held (r.1 :: fds) h) ∨
    (r.2 ≠ 0 ∧ (d = .blkClient → ∃ j, k = j + 1 ∧ 3 ≤ h.refusals + j) ∧ Held fds h)

/-- The refusals so far and the attempts that are left come to four. -/
def Trying (fds : List Fd) (k : Nat) (h : Holding) : Prop := Held fds h ∧ 3 ≤ h.refusals + k

/-- An attempt that leaves nothing to be used. -/
theorem Trying.refused {k : Nat} (hh : Trying fds k h) {d : Dialer} {host : Bytes} {port : UInt16}
    {o : DialOutcome} {opn : List Fd} (hexcused : ¬ h.excuses (.dial d host port (some o)))
    (hstatus : o.status ≠ 0) (hsettle : (Event.dial d host port (some o)).settle h.opn = some opn)
    (hopn : fds.Subperm opn) :
    match watch h (.dial d host port (some o)) with
    | .ok h' => Dialed d fds k (o.ret, o.status) h'
    | .error v => v = .excused := by
  rw [watch_ok hexcused (fun x hx => nomatch hx) hsettle]
  refine .inr ⟨hstatus, ?_, hopn⟩
  rintro rfl
  have hrefusal : (Event.dial .blkClient host port (some o)).refusal = true := decide_eq_true hstatus
  -- the fourth refusal would have been excused
  have hfew : ¬ 3 ≤ h.refusals := fun hc => hexcused (.inr ⟨hrefusal, hc⟩)
  have htries := hh.2
  refine ⟨k - 1, by omega, ?_⟩
  show 3 ≤ (if _ then h.refusals + 1 else 0) + (k - 1)
  rw [if_pos hrefusal]
  omega

/-- **One attempt.** -/
theorem Trying.dialed {k : Nat} (hh : Trying fds k h) (d : Dialer) (host : Bytes) (port : UInt16)
    (o : DialOutcome) :
    match watch h (.dial d host port (some o)) with
    | .ok h' => Dialed d fds k (o.ret, o.status) h'
    | .error v => v = .excused := by
  by_cases hexcused : h.excuses (.dial d host port (some o))
  · unfold watch
    rw [if_pos hexcused]
  have hclean : cleanDial d o = true := by
    by_contra hc
    exact hexcused (.inl (Bool.not_eq_true _ ▸ hc))
  cases o with
  | connected n =>
    rw [watch_ok hexcused (fun x hx => nomatch hx)
      (rfl : Event.settle h.opn _ = some ((n : Fd) :: h.opn))]
    refine .inl ⟨rfl, ?_, (List.subperm_cons (n : Fd)).mpr hh.1⟩
    rintro rfl
    have hn : n ≠ 0 := by simpa [cleanDial] using hclean
    show (n : Int) ≠ 0
    omega
  | lookupFailed errno => exact hh.refused hexcused (of_decide_eq_true hclean) rfl hh.1
  | socketFailed errno => exact hh.refused hexcused (of_decide_eq_true hclean) rfl hh.1
  | connectFailed n errno =>
    -- the new descriptor stays with the handler
    exact hh.refused hexcused (of_decide_eq_true hclean) rfl (hh.1.cons_right (n : Fd))

theorem connect_call_keeps {k : Nat} (d : Dialer) (host : Bytes) (port : Int32) :
    Keeps watch (Trying fds k) (socketConnectHostPort d host port) (Dialed d fds k) := by
  refine Keeps.single (fun s => .dial d host (portOfInt port) s.dials.head?) ?_ fun s m hm => ?_
  · intro s
    unfold socketConnectHostPort
    cases s.dials <;> rfl
  · cases hs : s.dials with
    | nil =>
      rw [socketConnectHostPort_waits d host port hs]
      have hclean : ¬ m.excuses (.dial d host (portOfInt port) none) := by
        rintro (hc | ⟨hc, -⟩) <;> cases d <;> cases hc
      rw [List.head?_nil, watch_ok hclean (fun x hx => nomatch hx) rfl]
      exact fun _ ha => nomatch ha
    | cons o rest =>
      rw [socketConnectHostPort_returns d host port hs]
      have hdialed := hm.dialed d host (portOfInt port) o
      rw [List.head?_cons]
      split
      · next m' hw =>
        rw [hw] at hdialed
        rintro a ha
        cases ha
        exact hdialed
      · next v hw =>
        rw [hw] at hdialed
        exact hdialed

/-! ## The functions -/

/-- A client that is connected to a descriptor. -/
def BlkClient.On (c : BlkClient) (link : Fd) : Prop :=
  c.socket = some link ∧ c.messageSocket.socket = some link

/-- What `connect` leaves. -/
def Connected (fds : List Fd) (k : Nat) (r : Bool × Int × BlkClient) (h : Holding) : Prop :=
  (r.1 = true ∧ ∃ link, r.2.2.On link ∧ Held (link :: fds) h) ∨
    (r.1 = false ∧ ∃ j, k = j + 1 ∧ Trying fds j h)

theorem connect_keeps (c : BlkClient) {k : Nat} :
    Keeps watch (Trying fds k) c.connect (Connected fds k) := by
  refine (connect_call_keeps .blkClient c.host c.port).bind ?_
  rintro ⟨sock, status⟩
  refine Keeps.pure ?_
  rintro m (⟨rfl, hsock, hheld⟩ | ⟨hstatus, hleft, hheld⟩)
  · refine .inl ⟨rfl, sock, ?_, hheld⟩
    dsimp only
    rw [if_pos ⟨hsock rfl, rfl⟩]
    exact ⟨rfl, rfl⟩
  · obtain ⟨j, rfl, hj⟩ := hleft rfl
    exact .inr ⟨beq_false_of_ne hstatus, j, rfl, hheld, hj⟩

/-- **The connect loop ends connected**, or the environment has refused four times. -/
theorem connectLoop_keeps (c : BlkClient) (k : Nat) :
    Keeps watch (Trying fds k) (HandlerBlk.connectLoop c k) fun r h =>
      r.1 = true ∧ ∃ link, r.2.2.On link ∧ Held (link :: fds) h := by
  induction k generalizing c with
  | zero =>
    refine (connect_keeps c).bind ?_
    rintro ⟨ok, status, c'⟩
    refine Keeps.ite (fun hok => ?_) fun hok => ?_
    · refine Keeps.pure ?_
      rintro m (⟨-, hlink⟩ | ⟨-, j, hj, -⟩)
      · exact ⟨rfl, hlink⟩
      · omega
    · refine Keeps.pure ?_
      rintro m (⟨hc, -⟩ | ⟨-, j, hj, -⟩)
      · exact absurd hc hok
      · omega
  | succ k ih =>
    refine (connect_keeps c).bind ?_
    rintro ⟨ok, status, c'⟩
    refine Keeps.ite (fun hok => ?_) fun hok => ?_
    · refine Keeps.pure ?_
      rintro m (⟨-, hlink⟩ | ⟨hc, -⟩)
      · exact ⟨rfl, hlink⟩
      · rw [hok] at hc
        cases hc
    · refine (ih c').mono ?_ fun _ _ h => h
      rintro m (⟨hc, -⟩ | ⟨-, j, hj, htrying⟩)
      · exact absurd hc hok
      · obtain rfl : k = j := by omega
        exact htrying

theorem executeRequest_keeps {c : BlkClient} {link : Fd} (hc : c.On link) (hlink : link ∈ fds)
    (status : Int) : Keeps watch (Held fds) (c.executeRequest status) fun r h =>
      r.2.2.On link ∧ Held fds h := by
  refine (writeMessage_keeps _ hlink hc.2).bind fun _ => ?_
  refine Keeps.ite (fun _ => ?_) fun _ => Keeps.pure fun m hm => ⟨hc, hm⟩
  refine (readMessage_keeps _ hlink hc.2).bind ?_
  rintro ⟨_, status', response⟩
  exact Keeps.pure fun m hm => ⟨hc, hm⟩

theorem exchange_keeps {b : HandlerBlk} {c : BlkClient} {link : Fd} (hc : c.On link)
    (hlink : link ∈ fds) (hfd : fd ∈ fds) (hb : b.messageSocket.socket = some fd) (msg : BlkMessage)
    (status : Int) : Keeps watch (Held fds) (b.exchange msg c status) fun r h =>
      r.2.On link ∧ Held fds h := by
  refine (executeRequest_keeps (c := { c with requestMessage := blkProxyRules msg c.requestMessage })
    hc hlink status).bind ?_
  rintro ⟨ok, status', c'⟩
  refine Keeps.of_fact fun hc' => Keeps.ite (fun _ => ?_) fun _ => Keeps.pure fun m hm => ⟨hc', hm⟩
  refine (writeMessage_keeps _ hfd hb).bind fun _ => ?_
  exact Keeps.pure fun m hm => ⟨hc', hm⟩

/-- **The rounds of `normalBlkProxy`**: what a round opens it closes, and the accepted descriptor is
    held until the end. -/
theorem normalLoop_keeps {b : HandlerBlk} (hb : b.messageSocket.socket = some fd) (host : Bytes)
    (port : Int32) (rounds : Nat) (msg : BlkMessage) :
    Keeps watch (Held [fd]) (b.normalLoop host port rounds msg) fun _ _ => True := by
  induction rounds generalizing msg with
  | zero => exact Keeps.stop
  | succ rounds ih =>
    have hstart : ∀ m : Holding, Held [fd] m → Trying [fd] 3 m := fun m hm => ⟨hm, Nat.le_add_left ..⟩
    refine ((connectLoop_keeps _ 3).mono hstart fun _ _ h => h).bind ?_
    rintro ⟨isConnected, status, client⟩
    refine Keeps.of_fact fun hconnected => Keeps.of_exists fun link => Keeps.of_fact fun hlink => ?_
    change isConnected = true at hconnected
    dsimp only
    rw [if_pos hconnected]
    have hfds : link ∈ [link, fd] ∧ fd ∈ [link, fd] := by simp
    refine (exchange_keeps hlink hfds.1 hfds.2 hb msg status).bind ?_
    rintro ⟨status', client'⟩
    refine Keeps.of_fact fun hlink' => ?_
    have hclose : Keeps watch (Held [link, fd]) client'.close fun _ => Held [fd] := by
      unfold BlkClient.close
      rw [hlink'.1]
      exact close_keeps
    refine hclose.bind fun _ => ?_
    have hend : Keeps watch (Held [fd]) b.messageSocket.close fun _ _ => True := by
      unfold BlkSocket.close
      rw [hb]
      exact close_keeps.mono (fun _ h => h) fun _ _ _ => trivial
    refine Keeps.ite (fun _ => hend) fun _ => ?_
    refine (readMessage_keeps msg (List.mem_singleton_self fd) hb).bind ?_
    rintro ⟨gotMessage, status'', msg'⟩
    exact Keeps.ite (fun _ => ih msg') fun _ => hend

/-- `tunnelBlkProxy` holds both ends while it relays, and closes both. -/
theorem tunnelBlkProxy_keeps {b : HandlerBlk} (msg : BlkMessage) :
    Keeps watch (Held [b.socketFd]) (b.tunnelBlkProxy msg) fun _ _ => True := by
  have hstart : ∀ m : Holding, Held [b.socketFd] m → Trying [b.socketFd] 3 m :=
    fun m hm => ⟨hm, Nat.le_add_left ..⟩
  refine ((connect_call_keeps .tunnel _ _).mono hstart fun _ _ h => h).bind ?_
  rintro ⟨upstream, status⟩
  refine Keeps.ite (fun hstatus => ?_) fun _ => Keeps.stop
  change status = 0 at hstatus
  subst hstatus
  have hdialed : ∀ m, Dialed .tunnel [b.socketFd] 3 (upstream, 0) m → Held [upstream, b.socketFd] m := by
    rintro m (⟨-, -, hheld⟩ | ⟨hc, -⟩)
    · exact hheld
    · exact absurd rfl hc
  have hfds : upstream ∈ [upstream, b.socketFd] ∧ b.socketFd ∈ [upstream, b.socketFd] := by simp
  refine ((writeMessage_keeps _ hfds.2 rfl).mono hdialed fun _ _ h => h).bind fun _ => ?_
  refine Keeps.ite (fun _ => ?_) fun _ => Keeps.pure fun _ _ => trivial
  have hswap : ∀ m, Held [upstream, b.socketFd] m → Held [b.socketFd, upstream] m :=
    fun m hm => (List.Perm.swap ..).subperm.trans hm
  refine (relay_keeps hfds.2 hfds.1).bind fun _ => ?_
  refine (close_keeps.mono hswap fun _ _ h => h).bind fun _ => ?_
  exact close_keeps.mono (fun _ h => h) fun _ _ _ => trivial

/-- The loopback holds its descriptor, and never closes it. -/
theorem loopBack_keeps {b : BlkSocket} (hb : b.socket = some fd) (rounds : Nat) :
    Keeps watch (Held [fd]) (HandlerBlk.loopBack b rounds) fun _ _ => True := by
  have hfd := List.mem_singleton_self fd
  have hflush : Keeps watch (Held [fd]) b.flush fun _ _ => True :=
    (flush_keeps hfd hb).mono (fun _ h => h) fun _ _ _ => trivial
  have hreturn : Keeps watch (Held [fd]) (pure () : Sys Unit) fun _ _ => True :=
    Keeps.pure fun _ _ => trivial
  induction rounds with
  | zero => exact Keeps.stop
  | succ rounds ih =>
    refine (readMessage_keeps .blank hfd hb).bind ?_
    rintro ⟨gotMessage, status, msg⟩
    refine Keeps.ite (fun _ => ?_) fun _ => ?_
    · refine (writeMessage_keeps msg hfd hb).bind fun _ => ?_
      exact Keeps.ite (fun _ => hflush) fun _ => Keeps.ite (fun _ => hreturn) fun _ => ih
    · refine Keeps.ite (fun _ => hflush) fun _ => Keeps.ite (fun _ => hflush) fun _ => ?_
      exact Keeps.ite (fun _ => hreturn) fun _ => ih

theorem handleBlkNormal_keeps (fd : Fd) :
    Keeps watch (Held [fd]) (HandlerBlk.new fd).handleBlkNormal fun _ _ => True := by
  let b : HandlerBlk := { HandlerBlk.new fd with messageSocket := ⟨.client, some fd⟩ }
  refine (readMessage_keeps .blank (List.mem_singleton_self fd) rfl).bind ?_
  rintro ⟨gotMessage, status, msg⟩
  refine Keeps.ite (fun _ => Keeps.ite (fun _ => ?_) fun _ => ?_) fun _ =>
    Keeps.ite (fun _ => ?_) fun _ => ?_
  · exact tunnelBlkProxy_keeps (b := b) msg
  · exact fun s m hm => normalLoop_keeps (b := b) rfl _ _ _ msg s m hm
  · exact close_keeps.mono (fun _ h => h) fun _ _ _ => trivial
  · exact Keeps.pure fun _ _ => trivial

/-- **A handler of any protocol keeps to what it holds.** -/
theorem handle_keeps (protocol : Protocol) (fd : Fd) :
    Keeps watch (Held [fd]) (handle protocol fd) fun _ _ => True := by
  cases protocol with
  | BLK_PROXY => exact handleBlkNormal_keeps fd
  | HTTP_PROXY => exact Keeps.pure fun _ _ => trivial
  | LOOPBACK => exact fun s m hm => loopBack_keeps rfl _ s m hm

/-! ## Any part of a run -/

/-- A trace in which the environment has kept to what is assumed of it. -/
def Contained (tr : List Event) : Prop := CleanDials tr ∧ exhausted 0 tr = false

theorem watched_not_excused : ∀ {tr : List Event} {h : Holding}, (∀ e ∈ tr, e.clean = true) →
    exhausted h.refusals tr = false → watched watch h tr ≠ .error .excused
  | [], _, _, _ => nofun
  | e :: tr, h, hclean, hfew => by
    have hexcuses : ¬ h.excuses e := by
      rintro (hc | ⟨hr, hthree⟩)
      · rw [hclean e List.mem_cons_self] at hc
        cases hc
      · rw [exhausted_cons, if_pos hr, decide_eq_true (by omega : 4 ≤ h.refusals + 1)] at hfew
        cases hfew
    have hrest : exhausted (if e.refusal = true then h.refusals + 1 else 0) tr = false := by
      rw [exhausted_cons] at hfew
      split at hfew
      · next hr =>
        rw [if_pos hr]
        exact (Bool.or_eq_false_iff.mp hfew).2
      · next hr =>
        rw [if_neg hr]
        exact hfew
    rw [watched_cons]
    unfold watch
    rw [if_neg hexcuses]
    split
    · split
      · exact watched_not_excused (fun e' he' => hclean e' (List.mem_cons_of_mem _ he')) hrest
      · nofun
    · nofun

/-- **Whatever part of its run a handler has made**, it has only used what it held. -/
theorem watched_of_contained {protocol : Protocol} {tr : List Event} {s : Env}
    (hp : tr <+: (handle protocol fd s).trace) (hc : Contained tr) :
    ∃ h, watched watch (Holding.start fd) tr = .ok h := by
  have hheld : Held [fd] (Holding.start fd) := List.Subperm.refl _
  cases hw : watched watch (Holding.start fd) tr with
  | ok h => exact ⟨h, rfl⟩
  | error v =>
    cases v with
    | excused => exact absurd hw (watched_not_excused hc.1 hc.2)
    | fault => exact absurd hw ((handle_keeps protocol fd).no_fault hheld hp)

end Pixie.Proxy
