/-
  Is the port that is connected to the port that was requested?

  The port goes from the text of the message through `std::stoi` to an `int`, stays one through two
  layers, and becomes an `unsigned short` only as the parameter of `socket_connect_host_port`; there
  is no range check.  And `normalBlkProxy` takes it from the first message of the session.

  1. `PortsKept` is what is wanted, over the trace of a session: at each attempt, the port that is
     passed on is the number in the message that is being treated, and a port that exists.

  2. `OnePort` is the condition: at each attempt, the message that is being treated names the port of
     the first message, and this one is in 1..65535.

  3. **The crux** — every attempt of a session goes to the first message's port, narrowed to 16 bits
     (`NormalRun.dialled`, `TunnelRun.dialled`), and the first thing that happens to the first
     message is an attempt (`NormalRun.dials_first`).  The first attempt so forces the first port
     into its range, where the narrowing does nothing, and then every later one compares two ports
     (`portsKept_iff`).
-/
import Pixie.Proxy.Routing
import Pixie.Lib.Run

namespace Pixie.Proxy

open Pixie.Decimal Pixie.Net Pixie.Blk Pixie.Wp Pixie.Run

/-! ## The law and the condition -/

/-- The port that an attempt is made to. -/
def Event.dialled : Event → Option UInt16
  | .dial _ _ port _ => some port
  | _ => none

/-- Each attempt passes on the number in the message that is being treated, and no message whose
    number is not a port is passed on. -/
def PortsKept : List Event → Prop :=
  Each fun before e => ∀ port, e.dialled = some port →
    ∃ m, (clientMessages before).getLast? = some m ∧
      (port.toNat : Int) = m.destinationPort.toInt ∧ 1 ≤ m.destinationPort.toInt

/-- At each attempt the message that is being treated names the port of the first message, which is in
    1..65535. -/
def OnePort : List Event → Prop :=
  Each fun before e => ∀ port, e.dialled = some port →
    ∃ first m, (clientMessages before).head? = some first ∧
      (clientMessages before).getLast? = some m ∧ m.destinationPort = first.destinationPort ∧
      1 ≤ first.destinationPort.toInt ∧ first.destinationPort.toInt < 2 ^ 16

/-! ## Where a session connects to -/

section Sessions

variable {fd : Fd} {port : Int32} {m m' : BlkMessage} {e : Event} {tr tr' : List Event}
  {side : Side} {sock : Option Fd} {k : Stop} {r : Except Stop Unit} {p : UInt16}

/-- All attempts are made to the port `p`. -/
def DialsTo (p : UInt16) (tr : List Event) : Prop := ∀ e ∈ tr, ∀ q, e.dialled = some q → q = p

theorem dialsTo_nil : DialsTo p [] := nofun

theorem dialsTo_cons : DialsTo p (e :: tr) ↔ (∀ q, e.dialled = some q → q = p) ∧ DialsTo p tr :=
  List.forall_mem_cons

theorem dialsTo_append : DialsTo p (tr ++ tr') ↔ DialsTo p tr ∧ DialsTo p tr' :=
  List.forall_mem_append

/-- An event that is no attempt. -/
theorem dialsTo_cons_of_none (he : e.dialled = none) : DialsTo p (e :: tr) ↔ DialsTo p tr := by
  rw [dialsTo_cons, and_iff_right]
  intro q hq
  rw [he] at hq
  cases hq

theorem Sent.dialled (h : Sent side sock m e) : e.dialled = none := by
  cases h with
  | intro o ho => rfl

theorem Got.dialled (h : Got side sock m e) : e.dialled = none := by
  cases h with
  | intro used f ho => rfl

theorem Over.dialled (h : Over side sock e) : e.dialled = none := by
  cases h with
  | intro used msg status ho hst => rfl

theorem SendStops.dialled (h : SendStops side sock m tr k) : DialsTo p tr := by
  cases h with
  | waits => exact (dialsTo_cons_of_none rfl).mpr dialsTo_nil
  | short o ho => exact (dialsTo_cons_of_none rfl).mpr dialsTo_nil

theorem RecvStops.not_dialled (h : RecvStops side sock tr k) : ∀ e ∈ tr, e.dialled = none := by
  cases h with
  | waits used msg ho => exact List.forall_mem_singleton.mpr rfl
  | threw used msg ho => exact List.forall_mem_singleton.mpr rfl

theorem RecvStops.dialled (h : RecvStops side sock tr k) : DialsTo p tr := by
  intro e he q hq
  rw [h.not_dialled e he] at hq
  cases hq

/-- The attempts of a round. -/
theorem dialsTo_attempts {os : List DialOutcome} (h : DialsTo (portOfInt port) tr) :
    DialsTo (portOfInt port) (dials port os ++ tr) := by
  refine dialsTo_append.mpr ⟨?_, h⟩
  intro e he q hq
  obtain ⟨o, -, rfl⟩ := List.mem_map.mp he
  exact (Option.some.inj hq).symm

theorem dialsTo_close {fd : Option Fd} : DialsTo p (.close fd :: tr) ↔ DialsTo p tr :=
  dialsTo_cons_of_none rfl

theorem RoundEnd.dialled (h : RoundEnd fd port m tr r) : DialsTo (portOfInt port) tr := by
  cases h with
  | dialing os hlen hos =>
    apply dialsTo_attempts
    exact dialsTo_cons.mpr ⟨fun q hq => (Option.some.inj hq).symm, dialsTo_nil⟩
  | refused os hlen hos =>
    apply dialsTo_attempts
    rw [dialsTo_close, dialsTo_close]
    exact dialsTo_nil
  | requesting os o tr k hacc hs => exact dialsTo_attempts hs.dialled
  | awaiting os o e tr k hacc he hr =>
    apply dialsTo_attempts
    rw [dialsTo_cons_of_none he.dialled]
    exact hr.dialled
  | failed os o e e' hacc he he' =>
    apply dialsTo_attempts
    rw [dialsTo_cons_of_none he.dialled, dialsTo_cons_of_none he'.dialled, dialsTo_close,
      dialsTo_close]
    exact dialsTo_nil
  | replying os o resp e e' tr k hacc he he' hs =>
    apply dialsTo_attempts
    rw [dialsTo_cons_of_none he.dialled, dialsTo_cons_of_none he'.dialled]
    exact hs.dialled
  | listening os o resp e e' e'' tr k hacc he he' he'' hr =>
    apply dialsTo_attempts
    rw [dialsTo_cons_of_none he.dialled, dialsTo_cons_of_none he'.dialled,
      dialsTo_cons_of_none he''.dialled, dialsTo_close]
    exact hr.dialled
  | ended os o resp e e' e'' e3 hacc he he' he'' he3 =>
    apply dialsTo_attempts
    rw [dialsTo_cons_of_none he.dialled, dialsTo_cons_of_none he'.dialled,
      dialsTo_cons_of_none he''.dialled, dialsTo_close, dialsTo_cons_of_none he3.dialled,
      dialsTo_close]
    exact dialsTo_nil

theorem RoundNext.dialled (h : RoundNext fd port m tr m') : DialsTo (portOfInt port) tr := by
  cases h with
  | intro os o resp m' e e' e'' e3 hacc he he' he'' he3 =>
    apply dialsTo_attempts
    rw [dialsTo_cons_of_none he.dialled, dialsTo_cons_of_none he'.dialled,
      dialsTo_cons_of_none he''.dialled, dialsTo_close, dialsTo_cons_of_none he3.dialled]
    exact dialsTo_nil

/-- **The rounds of a session connect to the port they started with.** -/
theorem NormalRun.dialled (h : NormalRun fd port m tr r) : DialsTo (portOfInt port) tr := by
  induction h with
  | cut m => exact dialsTo_nil
  | stop h => exact h.dialled
  | next h _ ih => exact dialsTo_append.mpr ⟨h.dialled, ih⟩

theorem TunnelRun.dialled (h : TunnelRun fd m tr r) : DialsTo (portOfInt m.destinationPort) tr := by
  have hdial : ∀ {o tr'}, DialsTo (portOfInt m.destinationPort) tr' →
      DialsTo (portOfInt m.destinationPort)
        (.dial .tunnel HandlerBlk.localhost (portOfInt m.destinationPort) o :: tr') :=
    fun htr => dialsTo_cons.mpr ⟨fun q hq => (Option.some.inj hq).symm, htr⟩
  have hrelay : ∀ {c u t tr'}, DialsTo (portOfInt m.destinationPort) (.relay c u t :: tr') ↔
      DialsTo (portOfInt m.destinationPort) tr' := dialsTo_cons_of_none rfl
  cases h with
  | dialing => exact hdial dialsTo_nil
  | refused o ho => exact hdial dialsTo_nil
  | greeting o tr k ho hs => exact hdial hs.dialled
  | relaying o e ts k ho he hk =>
    apply hdial
    rw [dialsTo_cons_of_none he.dialled, hrelay]
    exact dialsTo_nil
  | relayed o e ts ho he =>
    apply hdial
    rw [dialsTo_cons_of_none he.dialled, hrelay, dialsTo_close, dialsTo_close]
    exact dialsTo_nil

/-- The trace is empty or starts with an attempt. -/
def DialsFirst (tr : List Event) : Prop :=
  tr = [] ∨ ∃ e tr' q, tr = e :: tr' ∧ e.dialled = some q

theorem dialsFirst_attempts {os : List DialOutcome} (h : DialsFirst tr) :
    DialsFirst (dials port os ++ tr) := by
  cases os with
  | nil => exact h
  | cons o os => exact Or.inr ⟨_, _, _, rfl, rfl⟩

theorem dialsFirst_accepted {os : List DialOutcome} {o : DialOutcome} :
    DialsFirst (dials port (os ++ [o]) ++ tr) := by
  cases os with
  | nil => exact Or.inr ⟨_, _, _, rfl, rfl⟩
  | cons o' os => exact Or.inr ⟨_, _, _, rfl, rfl⟩

theorem RoundEnd.dials_first (h : RoundEnd fd port m tr r) : DialsFirst tr := by
  cases h with
  | dialing os hlen hos => exact dialsFirst_attempts (Or.inr ⟨_, _, _, rfl, rfl⟩)
  | refused os hlen hos =>
    cases os with
    | nil => cases hlen
    | cons o os => exact Or.inr ⟨_, _, _, rfl, rfl⟩
  | requesting os o tr k hacc hs => exact dialsFirst_accepted
  | awaiting os o e tr k hacc he hr => exact dialsFirst_accepted
  | failed os o e e' hacc he he' => exact dialsFirst_accepted
  | replying os o resp e e' tr k hacc he he' hs => exact dialsFirst_accepted
  | listening os o resp e e' e'' tr k hacc he he' he'' hr => exact dialsFirst_accepted
  | ended os o resp e e' e'' e3 hacc he he' he'' he3 => exact dialsFirst_accepted

/-- **A message is first of all connected for.** -/
theorem NormalRun.dials_first (h : NormalRun fd port m tr r) : DialsFirst tr := by
  cases h with
  | cut => exact Or.inl rfl
  | stop h => exact h.dials_first
  | next h hrun =>
    cases h with
    | intro os o resp m' e e' e'' e3 hacc he he' he'' he3 =>
      rw [List.append_assoc]
      exact dialsFirst_accepted

theorem TunnelRun.dials_first (h : TunnelRun fd m tr r) : DialsFirst tr := by
  cases h <;> exact Or.inr ⟨_, _, _, rfl, rfl⟩

/-! ## The law is the condition -/

/-- A trace without attempts. -/
theorem each_of_not_dialled {P : List Event → UInt16 → Prop} (h : ∀ e ∈ tr, e.dialled = none) :
    Each (fun before e => ∀ q, e.dialled = some q → P before q) tr := by
  rintro before e after rfl q hq
  rw [h e (List.mem_append_right before (List.mem_cons_self ..))] at hq
  cases hq

/-- An attempt comes after the first message, and goes to the first message's port. -/
theorem Got.attempt (he : Got .client sock m e)
    (hdials : DialsTo (portOfInt m.destinationPort) tr) {before after : List Event} {x : Event}
    (heq : e :: tr = before ++ x :: after) {q : UInt16} (hq : x.dialled = some q) :
    q = portOfInt m.destinationPort ∧ (clientMessages before).head? = some m := by
  cases before with
  | nil =>
    obtain ⟨rfl, -⟩ := List.cons.inj heq
    rw [he.dialled] at hq
    cases hq
  | cons y before =>
    obtain ⟨rfl, rfl⟩ := List.cons.inj heq
    rw [he.clientMessages_cons]
    exact ⟨hdials x (List.mem_append_right before (List.mem_cons_self ..)) q hq, rfl⟩

/-- The first attempt is the first message's, so a law that holds of it puts that message's port into
    its range. -/
theorem PortsKept.first_in_range (hkept : PortsKept (e :: tr)) (he : Got .client sock m e)
    (hdials : DialsTo (portOfInt m.destinationPort) tr) (hfirst : DialsFirst tr) (hne : tr ≠ []) :
    1 ≤ m.destinationPort.toInt ∧ m.destinationPort.toInt < 2 ^ 16 := by
  obtain ⟨y, tr', p, rfl, hp⟩ := hfirst.resolve_left hne
  obtain ⟨rfl, -⟩ := @Got.attempt _ _ _ _ he hdials [e] tr' y rfl p hp
  obtain ⟨m', hlast, hport, hpos⟩ := hkept [e] y tr' rfl _ hp
  rw [he.clientMessages_cons] at hlast
  obtain rfl : m = m' := Option.some.inj hlast
  exact ⟨hpos, (toNat_portOfInt_iff.mp hport).2⟩

/-- Behind the first message, with all attempts to its port, the law and the condition agree. -/
theorem portsKept_iff_of_first (he : Got .client sock m e)
    (hdials : DialsTo (portOfInt m.destinationPort) tr) (hfirst : DialsFirst tr) :
    PortsKept (e :: tr) ↔ OnePort (e :: tr) := by
  constructor
  · intro hkept before x after heq q hq
    obtain ⟨rfl, hm⟩ := he.attempt hdials heq hq
    have hne : tr ≠ [] := by
      rintro rfl
      have hx : x ∈ [e] := heq ▸ List.mem_append_right before (List.mem_cons_self ..)
      rw [List.mem_singleton.mp hx, he.dialled] at hq
      cases hq
    obtain ⟨m', hlast, hport, -⟩ := hkept before x after heq _ hq
    have hrange := hkept.first_in_range he hdials hfirst hne
    refine ⟨m, m', hm, hlast, ?_, hrange⟩
    rw [toNat_portOfInt (by omega) hrange.2] at hport
    exact (Int32.toInt_inj.mp hport).symm
  · intro hone before x after heq q hq
    obtain ⟨rfl, hm⟩ := he.attempt hdials heq hq
    obtain ⟨first, m', hhead', hlast, hport, h1, h2⟩ := hone before x after heq _ hq
    obtain rfl : first = m := Option.some.inj (hhead'.symm.trans hm)
    refine ⟨m', hlast, ?_, ?_⟩
    · rw [hport]
      exact toNat_portOfInt (by omega) h2
    · rw [hport]
      exact h1

end Sessions

/-- **When each session connects to the ports that are requested**: exactly when, at every attempt, the
    message that is being treated names the port of the first one, and that is in 1..65535. -/
theorem portsKept_iff (fd : Fd) (s : Env) :
    PortsKept (handle .BLK_PROXY fd s).trace ↔ OnePort (handle .BLK_PROXY fd s).trace := by
  have hserve : NormalServe fd (handle .BLK_PROXY fd s).trace (handle .BLK_PROXY fd s).fin :=
    runs_handleBlkNormal fd s
  generalize (handle .BLK_PROXY fd s).trace = tr at *
  generalize (handle .BLK_PROXY fd s).fin = r at hserve
  cases hserve with
  | stop h => exact iff_of_true (each_of_not_dialled h.not_dialled) (each_of_not_dialled h.not_dialled)
  | @ended e h =>
    have hnone : ∀ x ∈ [e, .close (some fd)], x.dialled = none :=
      List.forall_mem_cons.mpr ⟨h.dialled, List.forall_mem_singleton.mpr rfl⟩
    exact iff_of_true (each_of_not_dialled hnone) (each_of_not_dialled hnone)
  | tunnel he ht h => exact portsKept_iff_of_first he h.dialled h.dials_first
  | normal he ht h => exact portsKept_iff_of_first he h.dialled h.dials_first

/-- A request to the port 65616, which is 65536 more than 80. -/
def pingBeyond : Chunk :=
  ⟨(BlkMessage.make 65616 NORMAL (ascii "a")).toRawString, by decide, by decide⟩

/-- It is connected to port 80. -/
theorem not_portsKept_beyond : ¬ ∀ (fd : Fd) (s : Env),
    PortsKept (handle .BLK_PROXY fd s).trace := by
  intro h
  have hrun : (handle .BLK_PROXY 5 ⟨[.data pingBeyond], [], [.connected 7], []⟩).trace =
      [.recv .client (some 5) [.data pingBeyond] (.returned true blkReadStatusOk)
        (BlkMessage.make 65616 NORMAL (ascii "a"))] ++
      .dial .blkClient HandlerBlk.localhost 80 (some (.connected 7)) ::
      [.send .upstream (some 7) (request (BlkMessage.make 65616 NORMAL (ascii "a"))) none] := by
    decide
  obtain ⟨m, hlast, hport, -⟩ := h 5 _ _ _ _ hrun 80 rfl
  obtain rfl : BlkMessage.make 65616 NORMAL (ascii "a") = m := Option.some.inj hlast
  revert hport
  decide

end Pixie.Proxy
