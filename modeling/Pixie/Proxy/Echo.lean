/-
  Does a message survive being written?

  Three notions of length meet in `writeMessage` and `readMessage`: the encoder builds a counted
  string, the writer takes the length of it from `strlen`, and the reader counts the body against the
  declared length.  `Survives m` says what that owes a message `m`:
    * the bytes that a complete write puts on the wire are its encoding;
    * whoever reads them back gets `m`, however the stream is cut and whatever follows;
    * the loopback handler, having accepted `m`, sends it back, in these bytes.

  A reader only ever returns the message of a frame, and such a message can be written out again as a
  frame (`Frame.reencoded`), so all three come down to the first, and the first to the absence of a NUL
  byte from the body: `survives_iff`.
-/
import Pixie.Proxy.Session
import Pixie.Blk.Stream

namespace Pixie.Proxy

open Pixie.Decimal Pixie.Net Pixie.Blk Pixie.Wp

/-! ## What can be read -/

/-- Some call of `readMessage` returns the message. -/
def Readable (m : BlkMessage) : Prop :=
  ∃ msg reads status rest, Blk.readMessage msg reads = ⟨.returned true status, m, rest⟩

/-- What can be read is the message of a frame. -/
theorem Readable.frame {m : BlkMessage} (h : Readable m) : ∃ f : Frame, f.message = m := by
  obtain ⟨msg, reads, status, rest, hread⟩ := h
  obtain ⟨f, cs, c, t, u, -, -, -, hm, -⟩ := readMessage_true hread
  exact ⟨f, hm⟩

/-! ## The echo -/

/-- The message that an event has brought from the client. -/
def Event.accepted : Event → Option BlkMessage
  | .recv .client _ _ (.returned true _) m => some m
  | _ => none

/-- Wherever `m` was accepted, it is the next thing to be sent back; and when that write has taken
    everything, the bytes on the wire are its encoding. -/
def Echoes (fd : Fd) (m : BlkMessage) : List Event → Prop
  | [] => True
  | e :: tr => (e.accepted = some m → ∃ o tr', tr = .send .client (some fd) m o :: tr' ∧
      (o = some .all → wire m .all = m.toRawString)) ∧ Echoes fd m tr

/-- What the loopback owes a message. -/
structure Survives (m : BlkMessage) : Prop where
  written : wire m .all = m.toRawString
  reread : ∀ (msg : BlkMessage) (cs : List Chunk) (rest : List ReadOutcome),
    wire m .all <+: text cs → ∃ rest',
      Blk.readMessage msg (cs.map .data ++ rest) = ⟨.returned true blkReadStatusOk, m, rest'⟩
  echoed : ∀ (fd : Fd) (s : Env), Echoes fd m (handle .LOOPBACK fd s).trace

section Sessions

variable {fd : Fd} {m m' : BlkMessage} {e : Event} {tr : List Event} {sock : Option Fd}
  {side : Side} {k : Stop} {r : Except Stop Unit}

theorem Got.accepted (h : Got .client sock m e) : e.accepted = some m := by
  cases h with
  | intro used f ho => rfl

theorem Sent.accepted (h : Sent side sock m e) : e.accepted = none := by
  cases h with
  | intro o ho => rfl

theorem Over.accepted (h : Over side sock e) : e.accepted = none := by
  cases h with
  | intro used msg status ho hst => cases side <;> rfl

/-- An event that brings no message owes nothing. -/
theorem echoes_cons_of_none (he : e.accepted = none) :
    Echoes fd m (e :: tr) ↔ Echoes fd m tr := by
  constructor
  · exact fun h => h.2
  · intro h
    refine ⟨fun hm => ?_, h⟩
    rw [he] at hm
    cases hm

theorem RecvStops.echoes (h : RecvStops side sock tr k) : Echoes fd m tr := by
  cases h with
  | waits used msg ho => exact (echoes_cons_of_none (by cases side <;> rfl)).mpr trivial
  | threw used msg ho => exact (echoes_cons_of_none (by cases side <;> rfl)).mpr trivial

theorem SendStops.echoes (h : SendStops side sock m' tr k) : Echoes fd m tr := by
  cases h with
  | waits => exact (echoes_cons_of_none rfl).mpr trivial
  | short o ho => exact (echoes_cons_of_none rfl).mpr trivial

/-- A message that came in is followed by a write of it. -/
theorem Got.echoes {x : Option WriteOutcome} (he : Got .client (some fd) m' e)
    (hwire : wire m .all = m.toRawString)
    (htr : Echoes fd m (.send .client (some fd) m' x :: tr)) :
    Echoes fd m (e :: .send .client (some fd) m' x :: tr) := by
  refine ⟨?_, htr⟩
  intro hm
  obtain rfl : m' = m := by
    have := he.accepted.symm.trans hm
    cases this
    rfl
  exact ⟨x, tr, rfl, fun _ => hwire⟩

/-- **The loopback sends back what it has accepted**: one case for each way a round can go. -/
theorem LoopRun.echoes (h : LoopRun fd tr r) (hwire : wire m .all = m.toRawString) :
    Echoes fd m tr := by
  induction h with
  | cut => trivial
  | stop h => exact h.echoes
  | ended h =>
    apply (echoes_cons_of_none h.accepted).mpr
    exact (echoes_cons_of_none rfl).mpr trivial
  | @echoing m' e tr k he hs =>
    have htr : Echoes fd m tr := hs.echoes
    cases hs with
    | waits => exact he.echoes hwire htr
    | short o ho => exact he.echoes hwire htr
  | @next m' e e' tr r he he' hrun ih =>
    have htr : Echoes fd m (e' :: tr) := (echoes_cons_of_none he'.accepted).mpr ih
    cases he' with
    | intro o ho => exact he.echoes hwire htr

end Sessions

/-! ## The identity -/

/-- **Which messages survive**: of those that can be read, with an encoding below 2^31 bytes, exactly
    the ones without a NUL byte in their body. -/
theorem survives_iff (m : BlkMessage) (hm : Readable m) (hlen : m.toRawString.length < 2 ^ 31) :
    Survives m ↔ 0 ∉ m.body := by
  obtain ⟨f, rfl⟩ := hm.frame
  have hzero : 0 ∈ f.message.toRawString ↔ 0 ∈ f.message.body :=
    zero_mem_toRawString_iff rfl f.verb_ok
  have hwire : wire f.message .all = f.message.toRawString ↔ 0 ∉ f.message.body := by
    rw [wire_all, writeBytes_eq_toRawString_iff hlen, hzero]
  constructor
  · intro h
    exact hwire.mp h.written
  · intro hbody
    have hwritten := hwire.mpr hbody
    have hshort : f.body.length < 2 ^ 31 := by
      rw [BlkMessage.length_toRawString] at hlen
      change _ + f.body.length + 4 < 2 ^ 31 at hlen
      omega
    obtain ⟨g, hbytes, hmsg⟩ := f.reencoded hshort
    refine ⟨hwritten, ?_, ?_⟩
    · intro msg cs rest hcut
      rw [hwritten, ← hbytes] at hcut
      obtain ⟨ds, es, -, -, hread⟩ := readMessage_prefix msg g hcut rest
      rw [hmsg] at hread
      exact ⟨_, hread⟩
    · intro fd s
      exact (runs_handleBlkLoopBack fd s).echoes hwritten

theorem survives_iff_ping : Survives ping ↔ 0 ∉ ping.body :=
  survives_iff ping ⟨.blank, [.data onePing], blkReadStatusOk, [], by decide⟩ (by decide)

/-- A body of three bytes, the second of them NUL. -/
def withNul : Chunk :=
  ⟨(BlkMessage.make 80 NORMAL [97, 0, 98]).toRawString, by decide, by decide⟩

/-- It is read as it was sent, and written without its last two bytes. -/
theorem not_survives_nul : ¬ ∀ m : BlkMessage, Readable m → m.toRawString.length < 2 ^ 31 →
    Survives m := by
  intro h
  have hread : Readable (BlkMessage.make 80 NORMAL [97, 0, 98]) :=
    ⟨.blank, [.data withNul], blkReadStatusOk, [], by decide⟩
  have hwritten := (h _ hread (by decide)).written
  revert hwritten
  decide

end Pixie.Proxy
