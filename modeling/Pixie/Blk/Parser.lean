/-
  The push parser `BlkParser` (`BlkMessage.h`, `BlkMessage.cpp`), byte by byte as the source has it.

  `parseCharacter` looks at `lineCount` and does one of five things: two keyword lines (compared
  upper-cased, prefix by prefix, so that a wrong line is refused at its first wrong byte), two
  integer lines (collected until the newline and then read by `std::stoi`), and the body.  Each
  branch is a definition of its own below, in the order of the source.

  Three points of the C++ text decide what the branches do:
    * the body branch compares `body.length()` with the `int` `msgLength`, so the `int` is first
      converted to `size_t` (`sizeOfInt`): a negative length becomes a huge one;
    * completion is only tested AFTER a body byte has been appended;
    * `error` sets a flag and returns, so a branch goes on after it (`nextLine` is still called).

  `msgLength` is not initialised by the constructor; it is `none` until a header line assigns it.
  The ghost field `indeterminate` records a use of such a value (or of `lines[0]` on an empty
  vector), so that its absence is a statement about the parser and not an assumption.
-/
import Pixie.Blk.Message
import Pixie.Lib.Scan

namespace Pixie.Blk

open Pixie.Decimal

/-- `class BlkParser`; `msg` is the message the reference member refers to. -/
structure BlkParser where
  lineCount : Nat
  msg : BlkMessage
  msgLength : Option Int32
  destinationPort : Int32
  messageComplete : Bool
  actionVerb : Bytes
  currentLine : Bytes
  currentBuffer : Bytes
  body : Bytes
  lines : List Bytes
  parseError : Bool
  errorMessage : Bytes
  indeterminate : Bool
deriving DecidableEq, Repr

namespace BlkParser

/-! ## Construction and the small members -/

/-- `BlkParser::BlkParser(BlkMessage&)`. -/
def new (message : BlkMessage) : BlkParser where
  lineCount := 0
  msg := message
  msgLength := none
  destinationPort := -1
  messageComplete := false
  actionVerb := []
  currentLine := []
  currentBuffer := []
  body := []
  lines := []
  parseError := false
  errorMessage := []
  indeterminate := false

/-- `BlkParser::error`. -/
def error (p : BlkParser) (m : Bytes) : BlkParser :=
  { p with errorMessage := m, parseError := true }

/-- `BlkParser::nextLine`. -/
def nextLine (p : BlkParser) : BlkParser :=
  { p with
    lines := p.lines ++ [p.currentLine]
    currentLine := []
    lineCount := p.lineCount + 1 }

/-- `BlkParser::finishedParsing`. -/
def finishedParsing (p : BlkParser) : BlkParser :=
  { p with
    msg := ⟨p.lines.headD [], p.destinationPort, p.actionVerb, p.msgLength.getD 0, p.body⟩
    messageComplete := true
    indeterminate := p.indeterminate || p.lines.isEmpty || p.msgLength.isNone }

/-- `BlkParser::parseInt`; `none` is the result `false`. -/
def parseInt (s : Bytes) : Option Int32 := stoi s

/-! ## The five branches of `parseCharacter` -/

/-- `lineCount == 0`: the line `START`. -/
def parseStart (p : BlkParser) (ch : UInt8) : BlkParser :=
  if ch = newline then
    (if p.currentLine ≠ START then p.error (ascii "first line must be text 'START'")
     else p).nextLine
  else
    let line := p.currentLine ++ [toupper ch]
    let q := { p with currentLine := line }
    if line ≠ START.take line.length then
      q.error (ascii "invalid start to message [" ++ line ++ ascii "]")
    else q

/-- `lineCount == 1`: the destination port. -/
def parsePort (p : BlkParser) (ch : UInt8) : BlkParser :=
  if ch = newline then
    (match parseInt p.currentLine with
     | none => p.error (ascii "destination port must be numeric ")
     | some val => { p with destinationPort := val }).nextLine
  else { p with currentLine := p.currentLine ++ [ch] }

/-- `lineCount == 2`: the verb, kept upper-cased. -/
def parseVerb (p : BlkParser) (ch : UInt8) : BlkParser :=
  if ch = newline then
    let q := if p.currentLine ≠ NORMAL ∧ p.currentLine ≠ TUNNEL then
        p.error (ascii "verb line must be text 'NORMAL' or 'TUNNEL'") else p
    { q with actionVerb := q.currentLine }.nextLine
  else
    let line := p.currentLine ++ [toupper ch]
    let q := { p with currentLine := line }
    if line ≠ NORMAL.take line.length ∧ line ≠ TUNNEL.take line.length then
      q.error (ascii "invalid verb to message [" ++ line ++ ascii "]")
    else q

/-- `lineCount == 3`: the body length. -/
def parseLength (p : BlkParser) (ch : UInt8) : BlkParser :=
  if ch = newline then
    (match parseInt p.currentLine with
     | none => p.error (ascii "second line must be numeric - message body length")
     | some val => { p with msgLength := some val }).nextLine
  else { p with currentLine := p.currentLine ++ [ch] }

/-- Every later byte belongs to the body. -/
def parseBody (p : BlkParser) (ch : UInt8) : BlkParser :=
  match p.msgLength with
  | none => { p with indeterminate := true }
  | some len =>
    let q := if p.body.length ≥ sizeOfInt len then p.error (ascii "message body too long") else p
    let q := { q with body := q.body ++ [ch] }
    if q.body.length = sizeOfInt len then q.finishedParsing else q

/-- `BlkParser::parseCharacter`. -/
def parseCharacter (p : BlkParser) (ch : UInt8) : BlkParser :=
  let p := { p with currentBuffer := p.currentBuffer ++ [ch] }
  if p.lineCount = 0 then p.parseStart ch
  else if p.lineCount = 1 then p.parsePort ch
  else if p.lineCount = 2 then p.parseVerb ch
  else if p.lineCount = 3 then p.parseLength ch
  else p.parseBody ch

/-! ## `append`: one buffer, left at the first flag -/

/-- The loop of `append`, at the byte whose 1-based index is `bytesConsumed`. -/
def appendFrom (p : BlkParser) (bytesConsumed : Nat) : Bytes → BlkParser × Int
  | [] => (p, -1)
  | ch :: rest =>
      if (p.parseCharacter ch).parseError then (p.parseCharacter ch, bytesConsumed)
      else if (p.parseCharacter ch).messageComplete then (p.parseCharacter ch, bytesConsumed)
      else appendFrom (p.parseCharacter ch) (bytesConsumed + 1) rest

/-- `BlkParser::append`: the parser afterwards, and `bytes_consumed` or `-1`. -/
def append (p : BlkParser) (buf : Bytes) : BlkParser × Int := p.appendFrom 1 buf

/-- Successive `append` calls on one parser, as its callers make them: none once a flag is set. -/
def appendAll : BlkParser → List Bytes → BlkParser
  | p, [] => p
  | p, c :: cs =>
      if (p.append c).1.parseError || (p.append c).1.messageComplete then (p.append c).1
      else appendAll (p.append c).1 cs

/-- The parser wants no more input. -/
def flagged (p : BlkParser) : Bool := p.parseError || p.messageComplete

/-- The raw steps, without the early exit. -/
abbrev run (p : BlkParser) (s : Bytes) : BlkParser := s.foldl parseCharacter p

/-- No byte of `s` sets a flag. -/
abbrev Quiet (p : BlkParser) (s : Bytes) : Prop := Scan.Quiet parseCharacter flagged p s

/-! ## `append` is the scan of `Lib.Scan` -/

theorem appendFrom_cons (p : BlkParser) (k : Nat) (ch : UInt8) (rest : Bytes) :
    p.appendFrom k (ch :: rest) = if (p.parseCharacter ch).flagged then (p.parseCharacter ch, ↑k)
      else (p.parseCharacter ch).appendFrom (k + 1) rest := by
  rw [appendFrom, flagged]
  cases (p.parseCharacter ch).parseError <;> cases (p.parseCharacter ch).messageComplete <;> rfl

theorem appendFrom_eq_scan (p : BlkParser) (k : Nat) (buf : Bytes) :
    p.appendFrom k buf = ((Scan.scan parseCharacter flagged p buf).1,
      match (Scan.scan parseCharacter flagged p buf).2 with
      | none => -1
      | some n => ((k + n : Nat) : Int) - 1) := by
  induction buf generalizing p k with
  | nil => rfl
  | cons ch rest ih =>
    rw [appendFrom_cons, Scan.scan]
    split
    · simp
    · rw [ih]
      cases (Scan.scan parseCharacter flagged (p.parseCharacter ch) rest).2 with
      | none => rfl
      | some n =>
        have hidx : ((k + 1 + n : Nat) : Int) - 1 = ((k + (n + 1) : Nat) : Int) - 1 := by omega
        exact Prod.ext rfl hidx

theorem append_of_quiet {p : BlkParser} {buf : Bytes} (h : p.Quiet buf) :
    p.append buf = (p.run buf, -1) := by
  rw [append, appendFrom_eq_scan, Scan.scan_of_quiet h]

/-- The call returns at the byte that sets a flag, with that byte's index. -/
theorem append_of_flagged {p : BlkParser} {t u : Bytes} {ch : UInt8} (h : p.Quiet t)
    (hf : (p.run (t ++ [ch])).flagged = true) :
    p.append (t ++ ch :: u) = (p.run (t ++ [ch]), ((t ++ [ch]).length : Int)) := by
  rw [append, appendFrom_eq_scan, Scan.scan_of_stop h hf]
  simp only [List.length_append, List.length_singleton, Prod.mk.injEq, true_and]
  omega

theorem run_append (p : BlkParser) (s t : Bytes) : p.run (s ++ t) = (p.run s).run t :=
  List.foldl_append

/-- A quiet input, empty or not, leaves a parser without a flag without one. -/
theorem flagged_run {p : BlkParser} {s : Bytes} (hp : p.flagged = false) (h : p.Quiet s) :
    (p.run s).flagged = false := by
  rcases List.eq_nil_or_concat s with rfl | ⟨t, ch, rfl⟩
  · exact hp
  · exact h.stop_foldl (by simp)

/-- Pieces that together set no flag are all consumed. -/
theorem appendAll_of_quiet {p : BlkParser} {cs : List Bytes} (h : p.Quiet cs.flatten)
    (hp : p.flagged = false) : p.appendAll cs = p.run cs.flatten := by
  induction cs generalizing p with
  | nil => rfl
  | cons c cs ih =>
    rw [List.flatten_cons] at h ⊢
    have hrun : (p.run c).flagged = false := flagged_run hp h.left
    unfold appendAll
    have hgo : ((p.run c).parseError || (p.run c).messageComplete) = false := hrun
    rw [append_of_quiet h.left, if_neg (by rw [hgo]; decide), ih h.right hrun]
    exact (run_append p c cs.flatten).symm

end BlkParser

end Pixie.Blk
