/-
  Text in lines that end in CR LF, with a header section.

  A text protocol of this kind has a first line, then lines up to an empty one, then a body of any
  bytes.  `cutLine` takes the first line off a text, `cutSection` the lines up to the empty one; both
  are `none` where the line, or the empty line, does not come.

  A line without a CR is cut off as it was put on (`cutLine_line`), and so is a section of such lines
  that are not empty (`cutSection_lines`), whatever follows.
-/
import Pixie.Lib.Decimal

namespace Pixie.Crlf

open Pixie.Decimal

/-- The end of a line. -/
def crlf : Bytes := [13, 10]

/-- The first line of a text, and the rest. -/
def cutLine : Bytes → Option (Bytes × Bytes)
  | 13 :: 10 :: rest => some ([], rest)
  | c :: rest => (cutLine rest).map fun r => (c :: r.1, r.2)
  | [] => none

/-- The lines up to the first empty one, and the rest; `line` is what has been read of a line. -/
def cutSection : Bytes → Bytes → Option (List Bytes × Bytes)
  | line, 13 :: 10 :: rest =>
    if line = [] then some ([], rest)
    else (cutSection [] rest).map fun r => (line :: r.1, r.2)
  | line, c :: rest => cutSection (line ++ [c]) rest
  | _, [] => none

theorem cutLine_cons {c : UInt8} (hc : c ≠ 13) (rest : Bytes) :
    cutLine (c :: rest) = (cutLine rest).map fun r => (c :: r.1, r.2) := by
  rw [cutLine]
  rintro rest' rfl
  exact absurd rfl hc

/-- **A line** without a CR, whatever follows. -/
theorem cutLine_line {line : Bytes} (h : 13 ∉ line) (rest : Bytes) :
    cutLine (line ++ crlf ++ rest) = some (line, rest) := by
  induction line with
  | nil => rfl
  | cons c line ih =>
    obtain ⟨hc, hline⟩ := List.ne_and_not_mem_of_not_mem_cons h
    rw [List.cons_append, List.cons_append, cutLine_cons (Ne.symm hc), ih hline]
    rfl

theorem cutSection_cons {c : UInt8} (hc : c ≠ 13) (line rest : Bytes) :
    cutSection line (c :: rest) = cutSection (line ++ [c]) rest := by
  rw [cutSection]
  rintro rest' rfl
  exact absurd rfl hc

theorem cutSection_line {line : Bytes} (h : 13 ∉ line) (rest : Bytes) : ∀ before : Bytes,
    cutSection before (line ++ crlf ++ rest) =
      if before ++ line = [] then some ([], rest)
      else (cutSection [] rest).map fun r => ((before ++ line) :: r.1, r.2) := by
  induction line with
  | nil =>
    intro before
    rw [List.append_nil]
    rfl
  | cons c line ih =>
    intro before
    obtain ⟨hc, hline⟩ := List.ne_and_not_mem_of_not_mem_cons h
    rw [List.cons_append, List.cons_append, cutSection_cons (Ne.symm hc), ih hline,
      List.append_assoc, List.singleton_append]

/-- **A section** of lines without a CR that are not empty, whatever follows. -/
theorem cutSection_lines {lines : List Bytes} (h : ∀ l ∈ lines, l ≠ [] ∧ 13 ∉ l) (rest : Bytes) :
    cutSection [] (lines.flatMap (· ++ crlf) ++ (crlf ++ rest)) = some (lines, rest) := by
  induction lines with
  | nil => rfl
  | cons l lines ih =>
    obtain ⟨hne, hcr⟩ := h l List.mem_cons_self
    have hrest := ih fun l' hl' => h l' (List.mem_cons_of_mem l hl')
    rw [List.flatMap_cons, List.append_assoc, cutSection_line hcr, List.nil_append, if_neg hne, hrest]
    rfl

end Pixie.Crlf
