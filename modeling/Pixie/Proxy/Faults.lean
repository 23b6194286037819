/-
  Fault isolation: when does handling one connection bring down the process?

  `exit` and a failing `assert` end the process, and every other connection with it; an exception is
  caught by the worker.  Following every path of the three layers leaves exactly two ways
  (`terminated_iff`):
    * a `write` that takes some of the bytes it is given and not all of them
      (`assert(false)` in `socket_write_data`);
    * a tunnel request whose connection attempt fails (`exit(1)` in `tunnelBlkProxy`).

  The `assert(false)` of `readMessage` is NOT one of them: a `read` that would have to reach it has
  already thrown `std::length_error` a line earlier.

  Signals are left out.  The accepted socket is not given `SO_NOSIGPIPE` (upstream sockets are), so the
  system answers a write to a client that has gone with a SIGPIPE before `write` could return EPIPE.

  `Deadly tr` collects the two, and each relation of the sessions is gone through once.
-/
import Pixie.Proxy.Session

namespace Pixie.Proxy

open Pixie.Decimal Pixie.Net Pixie.Blk Pixie.Wp

/-- The process has ended: `exit`, or an `assert` of the message sockets. -/
def Terminated : Except Stop Unit → Prop
  | .error (.exited _) => True
  | .error .aborted => True
  | _ => False

/-- A partial write, or the failed connection attempt of a tunnel. -/
def Event.Fatal : Event → Prop
  | .send _ _ msg (some o) => o.Partial (bufferLength msg)
  | .dial .tunnel _ _ (some o) => o.status ≠ 0
  | _ => False

/-- The trace has a fatal event. -/
def Deadly (tr : List Event) : Prop := ∃ e ∈ tr, e.Fatal

@[simp] theorem deadly_nil : ¬ Deadly [] := by
  rintro ⟨e, he, -⟩
  cases he

@[simp] theorem deadly_cons (e : Event) (tr : List Event) :
    Deadly (e :: tr) ↔ e.Fatal ∨ Deadly tr := by
  simp [Deadly]

theorem deadly_singleton {e : Event} : Deadly [e] ↔ e.Fatal := by simp

@[simp] theorem deadly_append (tr tr' : List Event) :
    Deadly (tr ++ tr') ↔ Deadly tr ∨ Deadly tr' := by
  simp only [Deadly, List.mem_append, or_and_right, exists_or]

/-! ## The parts of a session -/

variable {side : Side} {sock : Option Fd} {msg : BlkMessage} {e : Event} {tr : List Event}
  {k : Stop} {r : Except Stop Unit} {fd : Fd} {port : Int32}

@[simp] theorem close_not_fatal (x : Option Fd) : ¬ (Event.close x).Fatal := nofun
@[simp] theorem flush_not_fatal (x : Option Fd) : ¬ (Event.flush x).Fatal := nofun
@[simp] theorem relay_not_fatal (a b : Fd) (t : List Twc.Event) : ¬ (Event.relay a b t).Fatal := nofun

@[simp] theorem dial_none_not_fatal (d : Dialer) (host : Bytes) (p : UInt16) :
    ¬ (Event.dial d host p none).Fatal := by
  cases d <;> nofun

@[simp] theorem dial_tunnel_fatal (host : Bytes) (p : UInt16) (o : DialOutcome) :
    (Event.dial .tunnel host p (some o)).Fatal ↔ o.status ≠ 0 := Iff.rfl

theorem Sent.not_fatal (h : Sent side sock msg e) : ¬ e.Fatal := by
  cases h with
  | intro o ho => exact ho

theorem Got.not_fatal (h : Got side sock msg e) : ¬ e.Fatal := by
  cases h with
  | intro used f hok => nofun

theorem Over.not_fatal (h : Over side sock e) : ¬ e.Fatal := by
  cases h with
  | intro used m status hok hst => nofun

/-- A write in which the handler stops is fatal exactly if the process ends. -/
theorem SendStops.terminated_iff (h : SendStops side sock msg tr k) :
    Terminated (.error k) ↔ Deadly tr := by
  cases h with
  | waits => exact ⟨nofun, fun h => nomatch deadly_singleton.mp h⟩
  | short o ho => exact ⟨fun _ => deadly_singleton.mpr ho, fun _ => trivial⟩

/-- A read in which the handler stops never ends the process. -/
theorem RecvStops.terminated_iff (h : RecvStops side sock tr k) :
    Terminated (.error k) ↔ Deadly tr := by
  cases h with
  | waits used m hok => exact ⟨nofun, fun h => nomatch deadly_singleton.mp h⟩
  | threw used m hbad => exact ⟨nofun, fun h => nomatch deadly_singleton.mp h⟩

/-- The attempts of a `BlkClient` are never fatal. -/
@[simp] theorem dials_not_deadly (os : List DialOutcome) : ¬ Deadly (dials port os) := by
  rintro ⟨e, he, hf⟩
  obtain ⟨o, -, rfl⟩ := List.mem_map.mp he
  cases hf

theorem RoundEnd.terminated_iff {m : BlkMessage} (h : RoundEnd fd port m tr r) :
    Terminated r ↔ Deadly tr := by
  cases h with
  | dialing os hlen hos => simp [Terminated]
  | refused os hlen hos => simp [Terminated]
  | requesting os o tr k hacc hs => simp [hs.terminated_iff]
  | awaiting os o e tr k hacc he hr => simp [he.not_fatal, hr.terminated_iff]
  | failed os o e e' hacc he he' => simp [he.not_fatal, he'.not_fatal, Terminated]
  | replying os o resp e e' tr k hacc he he' hs =>
    simp [he.not_fatal, he'.not_fatal, hs.terminated_iff]
  | listening os o resp e e' e'' tr k hacc he he' he'' hr =>
    simp [he.not_fatal, he'.not_fatal, he''.not_fatal, hr.terminated_iff]
  | ended os o resp e e' e'' e3 hacc he he' he'' he3 =>
    simp [he.not_fatal, he'.not_fatal, he''.not_fatal, he3.not_fatal, Terminated]

theorem RoundNext.not_deadly {m m' : BlkMessage} (h : RoundNext fd port m tr m') :
    ¬ Deadly tr := by
  cases h with
  | intro os o resp m' e e' e'' e3 hacc he he' he'' he3 =>
    simp [he.not_fatal, he'.not_fatal, he''.not_fatal, he3.not_fatal]

theorem NormalRun.terminated_iff {m : BlkMessage} (h : NormalRun fd port m tr r) :
    Terminated r ↔ Deadly tr := by
  induction h with
  | cut m => simp [Terminated]
  | stop h => exact h.terminated_iff
  | next h _ ih => simp [h.not_deadly, ih]

theorem TunnelRun.terminated_iff {m : BlkMessage} (h : TunnelRun fd m tr r) :
    Terminated r ↔ Deadly tr := by
  cases h with
  | dialing => simp [Terminated]
  | refused o ho => simp [Terminated, ho]
  | greeting o tr k ho hs => simp [ho, hs.terminated_iff]
  | relaying o e ts k ho he hk =>
    rcases hk with rfl | rfl
    · simp [Terminated, ho, he.not_fatal]
    · simp [Terminated, ho, he.not_fatal]
  | relayed o e ts ho he => simp [Terminated, ho, he.not_fatal]

theorem LoopRun.terminated_iff (h : LoopRun fd tr r) : Terminated r ↔ Deadly tr := by
  induction h with
  | cut => simp [Terminated]
  | stop h => exact h.terminated_iff
  | ended h => simp [h.not_fatal, Terminated]
  | echoing he hs => simp [he.not_fatal, hs.terminated_iff]
  | next he he' _ ih => simp [he.not_fatal, he'.not_fatal, ih]

theorem NormalServe.terminated_iff (h : NormalServe fd tr r) : Terminated r ↔ Deadly tr := by
  cases h with
  | stop h => exact h.terminated_iff
  | ended h => simp [h.not_fatal, Terminated]
  | tunnel he _ h => simp [he.not_fatal, h.terminated_iff]
  | normal he _ h => simp [he.not_fatal, h.terminated_iff]

/-! ## The handlers -/

/-- **What brings the process down.**  Whatever the client sends and whatever the calls answer, the
    handling of a connection ends the process if and only if one of its writes is partial, or the
    connection attempt of its tunnel request fails (signals apart).  Otherwise it returns, throws what
    the worker catches, waits in a call, or has handed over to the tunnel. -/
theorem terminated_iff_deadly (protocol : Protocol) (fd : Fd) (s : Env) :
    Terminated (handle protocol fd s).fin ↔ Deadly (handle protocol fd s).trace := by
  cases protocol with
  | BLK_PROXY => exact (runs_handleBlkNormal fd s).terminated_iff
  | HTTP_PROXY => exact ⟨nofun, fun h => absurd h deadly_nil⟩
  | LOOPBACK => exact (runs_handleBlkLoopBack fd s).terminated_iff

/-- A tunnel request to a port that refuses. -/
def tunnelRequest : Chunk :=
  ⟨(BlkMessage.make 81 TUNNEL (ascii "a")).toRawString, by decide, by decide⟩

theorem exits_on_refused_tunnel : ¬ ∀ (protocol : Protocol) (fd : Fd) (s : Env),
    ¬ Terminated (handle protocol fd s).fin := by
  intro h
  have hend : (handle .BLK_PROXY 5 ⟨[.data tunnelRequest], [], [.connectFailed 7 61], []⟩).fin =
      .error (.exited 1) := by decide
  apply h .BLK_PROXY 5 ⟨[.data tunnelRequest], [], [.connectFailed 7 61], []⟩
  rw [hend]
  trivial

end Pixie.Proxy
