/-
  The documented grammar of a BLK message (the comment of `BlkMessage.h`), against what `BlkParser`
  accepts.

  The comment asks for strings of ASCII digits on the port line and on the length line.  The parser
  leaves both to `std::stoi`, which skips blanks, takes a sign, and ignores whatever follows the
  digits.  A `Frame` (what the parser accepts) and `Documented` (what the comment describes) differ
  in nothing else: what completes the parser is documented exactly if the two lines hold nothing but
  digits (`documented_iff_digits`).

  `line n s` is the text of the `n`-th line of `s`, counted from 0.
-/
import Pixie.Blk.Decoder

namespace Pixie.Blk

open Pixie.Decimal BlkParser

/-! ## Lines -/

/-- The `n`-th line of a text, without its newline. -/
def line : Nat → Bytes → Bytes
  | 0, s => s.takeWhile (· ≠ newline)
  | n + 1, s => line n ((s.dropWhile (· ≠ newline)).drop 1)

/-- A line ends at its newline. -/
theorem line_zero {l : Bytes} (hl : newline ∉ l) (rest : Bytes) :
    line 0 (l ++ newline :: rest) = l := by
  have hall : ∀ c ∈ l, decide (c ≠ newline) = true := by
    intro c hc
    exact decide_eq_true fun h => hl (h ▸ hc)
  rw [line, List.takeWhile_append_of_pos hall]
  simp

/-- The lines after the first are those of the rest. -/
theorem line_succ {l : Bytes} (hl : newline ∉ l) (n : Nat) (rest : Bytes) :
    line (n + 1) (l ++ newline :: rest) = line n rest := by
  have hall : ∀ c ∈ l, decide (c ≠ newline) = true := by
    intro c hc
    exact decide_eq_true fun h => hl (h ▸ hc)
  rw [line, List.dropWhile_append_of_pos hall]
  simp

/-- A line of digits only. -/
def Digits (l : Bytes) : Prop := ∀ c ∈ l, isdigit c = true

instance (l : Bytes) : Decidable (Digits l) := inferInstanceAs (Decidable (∀ c ∈ l, _))

theorem Digits.newline {l : Bytes} (h : Digits l) : newline ∉ l := by
  intro hmem
  have hnl := h _ hmem
  revert hnl
  decide

/-! ## The grammar -/

/-- The documented form of a message: `START`, a port, a verb and a length, each ended by a newline,
    and a body of that length; the keywords in either case, the two numbers strings of digits. -/
def Documented (s : Bytes) : Prop :=
  ∃ start port verb length body : Bytes,
    s = start ++ newline :: (port ++ newline :: (verb ++ newline :: (length ++ newline :: body))) ∧
    start.map toupper = START ∧
    port ≠ [] ∧ Digits port ∧
    (verb.map toupper = NORMAL ∨ verb.map toupper = TUNNEL) ∧
    length ≠ [] ∧ Digits length ∧
    value length = body.length

/-- A keyword, in whatever case, is on one line. -/
theorem newline_not_mem_of_keyword {l w : Bytes} (hw : newline ∉ w) (h : l.map toupper = w) :
    newline ∉ l :=
  newline_not_mem_keyword hw (h ▸ List.prefix_rfl)

theorem newline_not_mem_of_verb {l : Bytes}
    (h : l.map toupper = NORMAL ∨ l.map toupper = TUNNEL) : newline ∉ l := by
  rcases h with h | h
  · exact newline_not_mem_of_keyword (by decide) h
  · exact newline_not_mem_of_keyword (by decide) h

/-- The two numbers of four lines, wherever the text goes on. -/
theorem number_lines {start port verb length rest : Bytes} (hs : start.map toupper = START)
    (hp : newline ∉ port) (hv : verb.map toupper = NORMAL ∨ verb.map toupper = TUNNEL)
    (hl : newline ∉ length) :
    line 1 (start ++ newline :: (port ++ newline :: (verb ++ newline :: (length ++
        newline :: rest)))) = port ∧
      line 3 (start ++ newline :: (port ++ newline :: (verb ++ newline :: (length ++
        newline :: rest)))) = length := by
  have hstart := newline_not_mem_of_keyword (by decide) hs
  have hverb := newline_not_mem_of_verb hv
  constructor
  · rw [line_succ hstart, line_zero hp]
  · rw [line_succ hstart, line_succ hp, line_succ hverb, line_zero hl]

theorem Documented.digits {s : Bytes} (h : Documented s) :
    Digits (line 1 s) ∧ Digits (line 3 s) := by
  obtain ⟨start, port, verb, length, body, rfl, hstart, -, hp, hverb, -, hl, -⟩ := h
  obtain ⟨h1, h3⟩ := @number_lines start port verb length body hstart hp.newline hverb hl.newline
  rw [h1, h3]
  exact ⟨hp, hl⟩

/-- The two numbers of a frame, in any text that starts with it. -/
theorem Frame.number_lines (f : Frame) (u : Bytes) :
    line 1 (f.bytes ++ u) = f.port ∧ line 3 (f.bytes ++ u) = f.length := by
  have hbytes : f.bytes ++ u = f.start ++ newline :: (f.port ++ newline :: (f.verb ++ newline ::
      (f.length ++ newline :: (f.body ++ u)))) := by
    simp [Frame.bytes, Header.bytes]
  rw [hbytes]
  exact Blk.number_lines f.start_ok f.port_line f.verb_ok f.length_line

/-- A frame whose numbers are written with digits is of the documented form. -/
theorem Frame.documented (f : Frame) (hport : Digits f.port) (hlen : Digits f.length) :
    Documented f.bytes := by
  obtain ⟨hpne, -⟩ := toInt_of_stoi_digits hport f.port_ok
  obtain ⟨hlne, hval⟩ := toInt_of_stoi_digits hlen f.length_ok
  have hsize := sizeOfInt_of_nonneg (n := f.lenVal) (by omega)
  have hbody := f.body_len
  refine ⟨f.start, f.port, f.verb, f.length, f.body, by simp [Frame.bytes, Header.bytes],
    f.start_ok, hpne, hport, f.verb_ok, hlne, hlen, ?_⟩
  omega

/-- **Which accepted strings are documented**: those whose port line and whose length line hold
    nothing but digits. -/
theorem documented_iff_digits (msg : BlkMessage) (s : Bytes) (k : Nat) (h : CompletesAt msg s k) :
    Documented (s.take k) ↔ Digits (line 1 s) ∧ Digits (line 3 s) := by
  obtain ⟨-, f, hf⟩ := completesAt_iff_frame.mp h
  have hs : s = f.bytes ++ s.drop k := by rw [hf, List.take_append_drop]
  obtain ⟨hport, hlen⟩ := f.number_lines (s.drop k)
  rw [← hs] at hport hlen
  rw [hport, hlen, ← hf]
  constructor
  · intro hdoc
    -- the lines of the grammar are the lines of the frame
    obtain ⟨h1, h3⟩ := f.number_lines []
    rw [List.append_nil] at h1 h3
    have hdig := hdoc.digits
    rw [h1, h3] at hdig
    exact hdig
  · rintro ⟨hp, hl⟩
    exact f.documented hp hl

theorem documented_iff_digits_ping :
    Documented ((ascii "Start\n80\nnormal\n04\nping!").take 23) ↔
      Digits (line 1 (ascii "Start\n80\nnormal\n04\nping!")) ∧
        Digits (line 3 (ascii "Start\n80\nnormal\n04\nping!")) :=
  documented_iff_digits BlkMessage.blank (ascii "Start\n80\nnormal\n04\nping!") 23 (by
    refine ⟨by decide, by decide, ?_⟩
    decide)

/-- A sign, a blank, and a letter after the length. -/
def loosePing : Bytes := ascii "START\n +80\nNORMAL\n4x\nping"

theorem accepts_undocumented : ¬ ∀ (msg : BlkMessage) (s : Bytes) (k : Nat), CompletesAt msg s k →
    Documented (s.take k) := by
  intro h
  have hdone : CompletesAt BlkMessage.blank loosePing 25 := by
    refine ⟨by decide, by decide, ?_⟩
    decide
  have hdig := (h BlkMessage.blank loosePing 25 hdone).digits
  revert hdig
  decide

end Pixie.Blk
