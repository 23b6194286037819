/-
  What holds of a `BlkParser` at every byte, and how long it can go on.

  1. **`Invariant msg p`** — of a parser on the message `msg`, up to and including the byte that raises
     a flag: no step both fails and completes, the message is untouched until the completing byte,
     and the body branch (the only place where `msgLength` and `destinationPort` are used) is entered
     with both assigned by a header line.  `error` only sets a flag, so a failing line is still
     pushed and a failing body byte still appended: that the lines are counted right is a fact about
     EVERY step (`parseCharacter_lines`), the rest comes from the three ways in which a step from a
     quiet input can end (`progress_step`).

  2. **`BodyBounded`** — after a header the parser raises a flag within `max(L, 0) + 1` body bytes.
     `body.length()` is unsigned and the declared length is not: a negative `L` is compared as a huge
     number, and the parser goes on for almost 2^64 bytes (`quiet_of_negative`).  So the bound holds
     exactly for the lengths from 0 on (`bodyBounded_iff`).
-/
import Pixie.Blk.Decoder

namespace Pixie.Blk

open Pixie.Decimal

namespace BlkParser

/-! ## The lines -/

/-- No line was added. -/
def SameLines (p q : BlkParser) : Prop := q.lines = p.lines ∧ q.lineCount = p.lineCount

/-- One line was added, and counted. -/
def OneMore (p q : BlkParser) : Prop :=
  (∃ l, q.lines = p.lines ++ [l]) ∧ q.lineCount = p.lineCount + 1

section Lines

variable (p : BlkParser) (ch : UInt8)

theorem parseStart_lines : SameLines p (p.parseStart ch) ∨ OneMore p (p.parseStart ch) := by
  unfold parseStart
  split
  · right
    split
    · exact ⟨⟨p.currentLine, rfl⟩, rfl⟩
    · exact ⟨⟨p.currentLine, rfl⟩, rfl⟩
  · left
    dsimp only
    split
    · exact ⟨rfl, rfl⟩
    · exact ⟨rfl, rfl⟩

theorem parsePort_lines : SameLines p (p.parsePort ch) ∨ OneMore p (p.parsePort ch) := by
  unfold parsePort
  split
  · right
    split
    · exact ⟨⟨p.currentLine, rfl⟩, rfl⟩
    · exact ⟨⟨p.currentLine, rfl⟩, rfl⟩
  · exact Or.inl ⟨rfl, rfl⟩

theorem parseVerb_lines : SameLines p (p.parseVerb ch) ∨ OneMore p (p.parseVerb ch) := by
  unfold parseVerb
  split
  · right
    dsimp only
    split
    · exact ⟨⟨p.currentLine, rfl⟩, rfl⟩
    · exact ⟨⟨p.currentLine, rfl⟩, rfl⟩
  · left
    dsimp only
    split
    · exact ⟨rfl, rfl⟩
    · exact ⟨rfl, rfl⟩

theorem parseLength_lines : SameLines p (p.parseLength ch) ∨ OneMore p (p.parseLength ch) := by
  unfold parseLength
  split
  · right
    split
    · exact ⟨⟨p.currentLine, rfl⟩, rfl⟩
    · exact ⟨⟨p.currentLine, rfl⟩, rfl⟩
  · exact Or.inl ⟨rfl, rfl⟩

/-- A body byte adds no line, whether it is refused, taken or the last. -/
theorem parseBody_lines : SameLines p (p.parseBody ch) := by
  unfold parseBody
  split
  · exact ⟨rfl, rfl⟩
  · dsimp only
    split
    · split
      · exact ⟨rfl, rfl⟩
      · exact ⟨rfl, rfl⟩
    · split
      · exact ⟨rfl, rfl⟩
      · exact ⟨rfl, rfl⟩

/-- **The lines, in one step** from any state: none is added, or one of the first four is. -/
theorem parseCharacter_lines : SameLines p (p.parseCharacter ch) ∨
    (p.lineCount ≤ 3 ∧ OneMore p (p.parseCharacter ch)) := by
  unfold parseCharacter
  dsimp only
  split
  · next h0 => exact (parseStart_lines _ ch).imp_right fun h => ⟨by omega, h⟩
  · split
    · next h1 => exact (parsePort_lines _ ch).imp_right fun h => ⟨by omega, h⟩
    · split
      · next h2 => exact (parseVerb_lines _ ch).imp_right fun h => ⟨by omega, h⟩
      · split
        · next h3 => exact (parseLength_lines _ ch).imp_right fun h => ⟨by omega, h⟩
        · exact Or.inl (parseBody_lines _ ch)

end Lines

/-- **The lines, in a whole run**: they are counted right, and there are at most four. -/
theorem run_lines {p : BlkParser} (hlen : p.lines.length = p.lineCount) (hle : p.lineCount ≤ 4)
    (s : Bytes) : (p.run s).lines.length = (p.run s).lineCount ∧ (p.run s).lineCount ≤ 4 := by
  induction s generalizing p with
  | nil => exact ⟨hlen, hle⟩
  | cons ch s ih =>
    rcases parseCharacter_lines p ch with ⟨hlines, hcount⟩ | ⟨h3, ⟨l, hlines⟩, hcount⟩
    · apply ih
      · rw [hlines, hcount, hlen]
      · rw [hcount]
        exact hle
    · apply ih
      · rw [hlines, hcount, List.length_append, hlen, List.length_singleton]
      · omega

/-! ## The invariant -/

/-- The values that the body branch uses were assigned by the header lines. -/
def Assigned (p : BlkParser) : Prop :=
  ∃ l0 l1 l2 l3 len, p.lines = [l0, l1, l2, l3] ∧ parseInt l1 = some p.destinationPort ∧
    p.actionVerb = l2 ∧ parseInt l3 = some len ∧ p.msgLength = some len

/-- What a completed parser has made of its message: the first line, the port, the verb and the
    length of the header, and as many body bytes, at least one. -/
structure Delivered (p : BlkParser) : Prop where
  fields : p.msg.firstLine = p.lines.headD [] ∧ p.msg.destinationPort = p.destinationPort ∧
    p.msg.requestVerb = p.actionVerb ∧ some p.msg.messageLength = p.msgLength ∧ p.msg.body = p.body
  body_length : (p.msg.body.length : Int) = p.msg.messageLength.toInt
  positive : 0 < p.msg.messageLength.toInt

/-- What holds of a parser on `msg`, up to and including the byte that raises a flag. -/
structure Invariant (msg : BlkMessage) (p : BlkParser) : Prop where
  exclusive : ¬ (p.messageComplete = true ∧ p.parseError = true)
  untouched : p.messageComplete = false → p.msg = msg
  determinate : p.indeterminate = false
  counted : p.lines.length = p.lineCount
  bounded : p.lineCount ≤ 4
  assigned : p.lineCount = 4 → p.parseError = false → Assigned p
  delivered : p.messageComplete = true → p.lineCount = 4 ∧ Delivered p

variable {msg : BlkMessage}

/-- Between two bytes of a quiet input. -/
theorem Progress.invariant {s : Bytes} {p : BlkParser} (hp : Progress msg s p) :
    Invariant msg p := by
  cases hp with
  | start hpre => exact ⟨nofun, fun _ => rfl, rfl, rfl, Nat.le_of_ble_eq_true rfl, nofun,
      nofun⟩
  | port h0 h1 => exact ⟨nofun, fun _ => rfl, rfl, rfl, Nat.le_of_ble_eq_true rfl, nofun,
      nofun⟩
  | verb h0 h1 hport hpre => exact ⟨nofun, fun _ => rfl, rfl, rfl, Nat.le_of_ble_eq_true rfl, nofun,
      nofun⟩
  | length h0 h1 hport hv h3 => exact ⟨nofun, fun _ => rfl, rfl, rfl, Nat.le_of_ble_eq_true rfl, nofun,
      nofun⟩
  | body h hb =>
    refine ⟨nofun, fun _ => rfl, rfl, rfl, Nat.le_of_ble_eq_true rfl, fun _ _ => ?_, nofun⟩
    exact ⟨START, h.port, h.verb.map toupper, h.length, h.lenVal, rfl, h.port_ok, rfl, h.length_ok,
      rfl⟩

/-- After a byte that is refused. -/
theorem Failed.invariant {p : BlkParser} (hp : Failed msg p) (hlen : p.lines.length = p.lineCount)
    (hle : p.lineCount ≤ 4) : Invariant msg p := by
  obtain ⟨herr, hnot, hmsg, hind⟩ := hp
  refine ⟨fun h => ?_, fun _ => hmsg, hind, hlen, hle, fun _ h => ?_, fun h => ?_⟩
  · rw [hnot] at h
    cases h.1
  · rw [herr] at h
    cases h
  · rw [hnot] at h
    cases h

/-- After the last byte of a frame whose body a machine can hold. -/
theorem afterFrame_invariant (msg : BlkMessage) (f : Frame) (hbody : f.body.length < 2 ^ 31) :
    Invariant msg (afterFrame msg f) := by
  have hint := f.toInt_lenVal (by omega)
  have hpos := List.length_pos_iff.mpr f.body_ne
  refine ⟨nofun, nofun, rfl, rfl, Nat.le_of_ble_eq_true rfl, fun _ _ => ?_, fun _ => ⟨rfl, ?_⟩⟩
  · exact ⟨START, f.port, f.verb.map toupper, f.length, f.lenVal, rfl, f.port_ok, rfl, f.length_ok,
      rfl⟩
  · refine ⟨⟨rfl, rfl, rfl, rfl, rfl⟩, hint.symm, ?_⟩
    show 0 < f.lenVal.toInt
    omega

/-- A quiet input and one more byte. -/
theorem invariant_snoc {t : Bytes} {ch : UInt8} (hlen : (t ++ [ch]).length < 2 ^ 31)
    (hq : (new msg).Quiet t) : Invariant msg ((new msg).run (t ++ [ch])) := by
  obtain ⟨hlines, hle⟩ := run_lines (p := new msg) rfl (Nat.zero_le 4) (t ++ [ch])
  have hrun : (new msg).run (t ++ [ch]) = ((new msg).run t).parseCharacter ch := run_append _ _ _
  rcases progress_step (progress_of_quiet hq) ch with hp | hf | ⟨f, hbytes, hdone⟩
  · rw [hrun]
    exact hp.invariant
  · rw [← hrun] at hf
    exact hf.invariant hlines hle
  · rw [hrun, hdone]
    apply afterFrame_invariant
    have hpart : f.body.length ≤ f.bytes.length := by simp [Frame.bytes]
    rw [hbytes] at hpart
    omega

/-- **The parser's invariant and atomic result.**  Fed a stream of fewer than 2^31 bytes, a parser on
    any message keeps the invariant at every byte up to and including the one that raises a flag;
    and in whatever pieces the stream comes, it is in one of these states. -/
theorem invariant_of_stream (msg : BlkMessage) (s : Bytes) (hs : s.length < 2 ^ 31) :
    (∀ k ≤ s.length, (new msg).Quiet (s.take (k - 1)) →
      Invariant msg ((new msg).run (s.take k))) ∧
    ∀ cs : List Bytes, cs.flatten = s → ∃ k ≤ s.length, (new msg).Quiet (s.take (k - 1)) ∧
      (new msg).appendAll cs = (new msg).run (s.take k) := by
  constructor
  · intro k hk hq
    cases k with
    | zero =>
      have hp : Progress msg [] ((new msg).run []) := progress_of_quiet trivial
      exact hp.invariant
    | succ k =>
      have hlt : k < s.length := hk
      rw [Nat.add_sub_cancel] at hq
      rw [List.take_add_one, List.getElem?_eq_getElem hlt]
      apply invariant_snoc _ hq
      simp only [List.length_append, List.length_take, List.length_singleton]
      omega
  · rintro cs rfl
    rw [← feed_fst]
    rcases feed_cases (p := new msg) rfl cs with ⟨hq, heq⟩ | ⟨k, hk, heq⟩
    · refine ⟨cs.flatten.length, Nat.le_refl _, ?_, ?_⟩
      · have hsplit := List.take_append_drop (cs.flatten.length - 1) cs.flatten
        rw [← hsplit] at hq
        exact hq.left
      · rw [heq, List.take_length]
    · obtain ⟨hle, -, hq⟩ := hk.run_take
      exact ⟨k, hle, hq, by rw [heq]⟩

/-- A frame whose keyword and body are cut. -/
theorem invariant_of_stream_ping : ∃ k ≤ (ascii "START\n80\nNORMAL\n4\nping").length,
    (new BlkMessage.blank).Quiet ((ascii "START\n80\nNORMAL\n4\nping").take (k - 1)) ∧
      (new BlkMessage.blank).appendAll [ascii "STA", ascii "RT\n80\nNORMAL\n4\npi", ascii "ng"] =
        (new BlkMessage.blank).run ((ascii "START\n80\nNORMAL\n4\nping").take k) :=
  (invariant_of_stream BlkMessage.blank (ascii "START\n80\nNORMAL\n4\nping") (by decide)).2
    [ascii "STA", ascii "RT\n80\nNORMAL\n4\npi", ascii "ng"] (by decide)

/-! ## The length of a body -/

/-- A fresh parser has read `s` without a flag, and stands at the first body byte of a header that
    declares `len`. -/
def AcceptsHeader (msg : BlkMessage) (s : Bytes) (len : Int32) : Prop :=
  (new msg).Quiet s ∧ ((new msg).run s).lineCount = 4 ∧ ((new msg).run s).body = [] ∧
    ((new msg).run s).msgLength = some len

theorem acceptsHeader_of_header (msg : BlkMessage) (h : Header) :
    AcceptsHeader msg h.bytes h.lenVal := by
  obtain ⟨hq, hrun⟩ := reads_header msg h
  refine ⟨hq, ?_⟩
  rw [run, hrun]
  exact ⟨rfl, rfl, rfl⟩

/-- What is accepted as a header is one. -/
theorem AcceptsHeader.header {s : Bytes} {len : Int32} (h : AcceptsHeader msg s len) :
    ∃ g : Header, g.bytes = s ∧ g.lenVal = len := by
  obtain ⟨hq, hcount, hbody, hlen⟩ := h
  have hp := progress_of_quiet hq
  generalize (new msg).run s = p at hp hcount hbody hlen
  cases hp with
  | start hpre => cases hcount
  | port h0 h1 => cases hcount
  | verb h0 h1 hport hpre => cases hcount
  | length h0 h1 hport hv h3 => cases hcount
  | @body g b hb =>
    obtain rfl : b = [] := hbody
    exact ⟨g, (List.append_nil _).symm, Option.some.inj hlen⟩

/-- However the stream goes on, a flag is raised within `max(len, 0) + 1` body bytes. -/
def BodyBounded (msg : BlkMessage) (s : Bytes) (len : Int32) : Prop :=
  ∀ u : Bytes, max len.toInt 0 + 1 ≤ u.length →
    ∃ k : Nat, (k : Int) ≤ max len.toInt 0 + 1 ∧ (new msg).FlagAt (s ++ u) (s.length + k)

/-- A body byte for which there is no room is refused. -/
theorem flagAt_of_empty (msg : BlkMessage) (h : Header) (ch : UInt8) (u : Bytes)
    (hlen : sizeOfInt h.lenVal = 0) :
    (new msg).FlagAt (h.bytes ++ ch :: u) (h.bytes.length + 1) := by
  obtain ⟨hq, hrun⟩ := reads_header msg h
  refine ⟨h.bytes, ch, u, rfl, rfl, hq, ?_⟩
  rw [run_append, show (new msg).run h.bytes = _ from hrun]
  have hfail : Failed msg ((afterHeader msg h []).parseCharacter ch) := by
    apply step_body_bad
    rw [hlen]
    exact Nat.zero_le _
  show ((afterHeader msg h []).parseCharacter ch).flagged = true
  rw [flagged, hfail.1, Bool.true_or]

/-- The last byte of a body completes the message. -/
theorem flagAt_of_body (msg : BlkMessage) (h : Header) {b : Bytes} (u : Bytes) (hne : b ≠ [])
    (hlen : b.length = sizeOfInt h.lenVal) :
    (new msg).FlagAt (h.bytes ++ (b ++ u)) (h.bytes.length + b.length) := by
  obtain ⟨t, ch, htext, hq, hrun⟩ := reads_frame msg ⟨h, b, hne, hlen⟩
  have hbytes : h.bytes ++ b = t ++ [ch] := htext
  rw [htext] at hrun
  refine ⟨t, ch, u, ?_, ?_, hq, ?_⟩
  · rw [← List.append_assoc, hbytes, List.append_assoc, List.singleton_append]
  · rw [← List.length_append, hbytes, List.length_append, List.length_singleton]
  · rw [hrun]
    rfl

/-- **A negative length is a huge one**: the parser goes on buffering. -/
theorem quiet_of_negative (msg : BlkMessage) (h : Header) (hneg : h.lenVal.toInt < 0) (u : Bytes)
    (hu : u.length < 2 ^ 63) : (new msg).Quiet (h.bytes ++ u) := by
  have hlo := Int32.le_toInt h.lenVal
  have hsize : u.length < sizeOfInt h.lenVal := by
    unfold sizeOfInt
    omega
  exact ((reads_header msg h).trans (reads_body (Or.inr hsize))).1

/-- **When the body is bounded**: after a header that is accepted, exactly when the length that it
    declares is not negative. -/
theorem bodyBounded_iff (msg : BlkMessage) (s : Bytes) (len : Int32)
    (h : AcceptsHeader msg s len) : BodyBounded msg s len ↔ 0 ≤ len.toInt := by
  obtain ⟨g, rfl, rfl⟩ := h.header
  constructor
  · intro hbound
    by_contra hneg
    have hmax : max g.lenVal.toInt 0 = 0 := by omega
    rw [BodyBounded, hmax] at hbound
    obtain ⟨k, -, hk⟩ := hbound [0] (by decide)
    exact hk.not_quiet (quiet_of_negative msg g (by omega) [0] (by decide))
  · intro hpos u hu
    have hsize := sizeOfInt_of_nonneg hpos
    rcases Nat.eq_zero_or_pos (sizeOfInt g.lenVal) with hzero | hlen
    · cases u with
      | nil =>
        rw [List.length_nil] at hu
        omega
      | cons ch u => exact ⟨1, by omega, flagAt_of_empty msg g ch u hzero⟩
    · -- the first `len` bytes are the body
      have hle : sizeOfInt g.lenVal ≤ u.length := by omega
      have htake : (u.take (sizeOfInt g.lenVal)).length = sizeOfInt g.lenVal := by
        rw [List.length_take]
        omega
      have hne : u.take (sizeOfInt g.lenVal) ≠ [] := by
        intro hnil
        rw [hnil, List.length_nil] at htake
        omega
      have hflag := flagAt_of_body msg g (u.drop (sizeOfInt g.lenVal)) hne htake
      rw [List.take_append_drop, htake] at hflag
      exact ⟨_, by omega, hflag⟩

/-- A header that declares `length`, spelled in any way. -/
def headerOf (length : Bytes) (lenVal : Int32) (hline : newline ∉ length)
    (hok : stoi length = some lenVal) : Header :=
  ⟨START, ascii "80", NORMAL, length, 80, lenVal, map_toupper_START, by decide, by decide,
    map_toupper_keyword (Or.inl rfl), hline, hok⟩

theorem bodyBounded_iff_four :
    BodyBounded BlkMessage.blank (ascii "START\n80\nNORMAL\n4\n") 4 ↔ 0 ≤ (4 : Int32).toInt :=
  bodyBounded_iff BlkMessage.blank (ascii "START\n80\nNORMAL\n4\n") 4
    (acceptsHeader_of_header BlkMessage.blank (headerOf (ascii "4") 4 (by decide) (by decide)))

/-- After `START\n80\nNORMAL\n-1\n` one body byte should be enough, and is not. -/
theorem not_bodyBounded_negative : ¬ ∀ (msg : BlkMessage) (s : Bytes) (len : Int32),
    AcceptsHeader msg s len → BodyBounded msg s len := by
  intro hall
  let h := headerOf (ascii "-1") (-1) (by decide) (by decide)
  obtain ⟨k, -, hk⟩ := hall BlkMessage.blank h.bytes (-1)
    (acceptsHeader_of_header BlkMessage.blank h) [0] (by decide)
  exact hk.not_quiet (quiet_of_negative BlkMessage.blank h (by decide) [0] (by decide))

end BlkParser

end Pixie.Blk
