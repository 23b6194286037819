/-
  Does `BlkClient::connect` report the truth?

  Success is encoded twice, by a descriptor that is not zero and by a status that is zero.  The client
  stores the descriptor when both say so, but returns `true` on the status alone; and the status of
  a failure is whatever `errno` holds after it, which a failing lookup does not set.

  `Retried` are the clients that a number of calls of `connect`, on whatever outcomes, leave.  On each
  of them the next call reports the truth exactly if its outcome is clean (`connect_truthful_iff`):
  a failure leaves an `errno` other than zero, and a connection has a descriptor other than zero.
-/
import Pixie.Proxy.Routing

namespace Pixie.Proxy

open Pixie.Decimal Pixie.Net Pixie.Blk Pixie.Wp

/-- The clients for a host and a port, after any number of calls of `connect`. -/
inductive Retried (host : Bytes) (port : Int32) (request : BlkMessage) : BlkClient → Prop
  | new : Retried host port request (BlkClient.new host port request)
  | again {c c' : BlkClient} {s : Env} {ret : Bool} {status : Int} : Retried host port request c →
      (c.connect s).fin = .ok (ret, status, c') → Retried host port request c'

/-- A call of `connect` that meets the outcome `o` returns `true` with a good status if and only if
    that very attempt has succeeded on the descriptor that the client now holds; and a `false` comes
    with a status that is not zero. -/
def Truthful (c : BlkClient) (o : DialOutcome) : Prop :=
  ∀ (s : Env) (rest : List DialOutcome), s.dials = o :: rest →
    ∃ ret status c', (c.connect s).fin = .ok (ret, status, c') ∧
      ((ret = true ∧ status = socketStatusGood) ↔
        ∃ n : Nat, o = .connected n ∧ c'.messageSocket.socket = some (n : Fd)) ∧
      (ret = false → status ≠ 0)

/-- The client after an attempt. -/
def BlkClient.after (c : BlkClient) (o : DialOutcome) : BlkClient :=
  if o.ret ≠ 0 ∧ o.status = socketStatusGood then
    { c with socket := some o.ret, messageSocket := ⟨.upstream, some o.ret⟩ }
  else c

/-- **What a call of `connect` comes to.** -/
theorem connect_fin (c : BlkClient) {s : Env} {o : DialOutcome} {rest : List DialOutcome}
    (hs : s.dials = o :: rest) :
    (c.connect s).fin = .ok (o.status == 0, o.status, c.after o) := by
  obtain ⟨reads, writes, dials, turns⟩ := s
  obtain rfl : dials = o :: rest := hs
  rfl

/-- A call that comes back has met an outcome. -/
theorem dials_of_connect {c c' : BlkClient} {s : Env} {ret : Bool} {status : Int}
    (h : (c.connect s).fin = .ok (ret, status, c')) :
    ∃ o rest, s.dials = o :: rest ∧ c' = c.after o := by
  obtain ⟨reads, writes, dials, turns⟩ := s
  cases dials with
  | nil => cases h
  | cons o rest =>
    rw [connect_fin c rfl] at h
    obtain ⟨-, heq⟩ := Prod.mk.inj (Except.ok.inj h)
    obtain ⟨-, rfl⟩ := Prod.mk.inj heq
    exact ⟨o, rest, rfl, rfl⟩

/-- The descriptor zero is never stored. -/
theorem Retried.socket_ne_zero {host : Bytes} {port : Int32} {request : BlkMessage} {c : BlkClient}
    (h : Retried host port request c) : c.messageSocket.socket ≠ some 0 := by
  induction h with
  | new => exact nofun
  | @again c c' s ret status _ hconn ih =>
    obtain ⟨o, rest, -, rfl⟩ := dials_of_connect hconn
    unfold BlkClient.after
    split
    · next hgood =>
      intro hzero
      exact hgood.1 (Option.some.inj hzero)
    · exact ih

/-- A failed attempt that is clean has a status to show for it, and leaves the client as it was. -/
theorem after_of_failed {c : BlkClient} {o : DialOutcome} (hret : o.ret = 0) : c.after o = c :=
  if_neg fun h => h.1 hret

/-- One environment decides: the call sees nothing of it but the outcome.  A result of `false` always
    has a status to show for it, because it is the test of the status. -/
theorem truthful_iff (c : BlkClient) (o : DialOutcome) : Truthful c o ↔ (o.status = 0 ↔
    ∃ n : Nat, o = .connected n ∧ (c.after o).messageSocket.socket = some (n : Fd)) := by
  have hboth : (o.status == 0) = true ∧ o.status = socketStatusGood ↔ o.status = 0 := by
    rw [beq_iff_eq]
    exact and_self_iff
  constructor
  · intro ht
    obtain ⟨ret, status, c', hfin, hgood, -⟩ := ht ⟨[], [], [o], []⟩ [] rfl
    rw [connect_fin c rfl] at hfin
    obtain ⟨rfl, heq⟩ := Prod.mk.inj (Except.ok.inj hfin)
    obtain ⟨rfl, rfl⟩ := Prod.mk.inj heq
    exact hboth.symm.trans hgood
  · intro hb s rest hs
    exact ⟨_, _, _, connect_fin c hs, hboth.trans hb, fun hs => ne_of_beq_false hs⟩

/-- **When `connect` reports the truth**: on every client, new or retried, exactly when a failure
    leaves an `errno` other than zero, and a connection is not made on the descriptor zero. -/
theorem connect_truthful_iff (host : Bytes) (port : Int32) (request : BlkMessage) (c : BlkClient)
    (h : Retried host port request c) (o : DialOutcome) :
    Truthful c o ↔ cleanDial .blkClient o = true := by
  rw [truthful_iff]
  cases o with
  | lookupFailed e => simp [DialOutcome.status, cleanDial]
  | socketFailed e => simp [DialOutcome.status, cleanDial]
  | connectFailed fd e => simp [DialOutcome.status, cleanDial]
  | connected fd =>
    have hgood : (DialOutcome.connected fd).status = 0 := rfl
    rw [iff_true_left hgood]
    by_cases hfd : fd = 0
    · -- the connection is good, and is not stored
      subst hfd
      rw [after_of_failed rfl]
      refine iff_of_false ?_ (by decide)
      rintro ⟨n, hn, hsock⟩
      obtain rfl := DialOutcome.connected.inj hn
      exact h.socket_ne_zero hsock
    · have hret : (DialOutcome.connected fd).ret ≠ 0 := by
        show (fd : Int) ≠ 0
        omega
      refine iff_of_true ⟨fd, rfl, ?_⟩ (by simp [cleanDial, hfd])
      rw [BlkClient.after, if_pos ⟨hret, rfl⟩]
      rfl

/-- The second attempt of a client whose first was refused. -/
theorem connect_truthful_iff_retry :
    Truthful (BlkClient.new HandlerBlk.localhost 80 ping) (.connected 7) ↔
      cleanDial .blkClient (.connected 7) = true :=
  connect_truthful_iff HandlerBlk.localhost 80 ping _
    (@Retried.again _ _ _ (BlkClient.new HandlerBlk.localhost 80 ping) _
      ⟨[], [], [.connectFailed 6 61], []⟩ false 61 .new rfl) (.connected 7)

/-- The lookup fails and leaves `errno` at zero: `connect` returns `true`. -/
theorem not_truthful_of_lookup : ¬ ∀ (host : Bytes) (port : Int32) (request : BlkMessage)
    (c : BlkClient), Retried host port request c → ∀ o, Truthful c o := by
  intro h
  obtain ⟨ret, status, c', hfin, hgood, -⟩ :=
    h HandlerBlk.localhost 80 ping _ .new (.lookupFailed 0) ⟨[], [], [.lookupFailed 0], []⟩ [] rfl
  rw [connect_fin _ rfl] at hfin
  obtain ⟨rfl, heq⟩ := Prod.mk.inj (Except.ok.inj hfin)
  obtain ⟨rfl, -⟩ := Prod.mk.inj heq
  obtain ⟨n, hn, -⟩ := hgood.mp ⟨rfl, rfl⟩
  cases hn

end Pixie.Proxy
