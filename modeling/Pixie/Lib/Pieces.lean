/-
  Strings that are reported in pieces.

  A parser that reports a string while it is still reading may report it in pieces, and where the
  pieces begin and end depends on how its input arrives.  What does not depend on it is the list of
  reports after adjacent pieces of one string have been joined.

  `piece k d` is the report of the bytes `d` of a string of kind `k`, among other reports.
    * `Join` — two adjacent pieces of one kind become one;
    * `Joins` — any number of such steps; it is kept by what stands before and behind, and joins of
      two parts compose (`Joins.comp`);
    * `Joins.preserves` — what a single join does not change, joins do not change.
-/
import Mathlib.Logic.Relation

namespace Pixie.Pieces

variable {κ β ε : Type} (piece : κ → List β → ε)

/-- Two adjacent pieces of one kind are joined. -/
inductive Join : List ε → List ε → Prop
  | two (before : List ε) (k : κ) (d d' : List β) (after : List ε) :
    Join (before ++ piece k d :: piece k d' :: after) (before ++ piece k (d ++ d') :: after)

/-- Some pieces are joined. -/
def Joins : List ε → List ε → Prop := Relation.ReflTransGen (Join piece)

variable {piece} {es es' fs fs' : List ε}

theorem joins_refl (es : List ε) : Joins piece es es := .refl

theorem Joins.trans (h : Joins piece es es') (h' : Joins piece es' fs) : Joins piece es fs :=
  Relation.ReflTransGen.trans h h'

theorem joins_two (k : κ) (d d' : List β) : Joins piece [piece k d, piece k d'] [piece k (d ++ d')] :=
  .single (.two [] k d d' [])

theorem Join.around (h : Join piece es es') (before after : List ε) :
    Join piece (before ++ es ++ after) (before ++ es' ++ after) := by
  cases h with
  | two l k d d' r =>
    have hjoin : Join piece _ _ := .two (before ++ l) k d d' (r ++ after)
    simpa only [List.append_assoc, List.cons_append] using hjoin

theorem Joins.around (h : Joins piece es es') (before after : List ε) :
    Joins piece (before ++ es ++ after) (before ++ es' ++ after) := by
  induction h with
  | refl => exact .refl
  | tail _ hj ih => exact .tail ih (hj.around before after)

theorem Joins.append_left (h : Joins piece es es') (before : List ε) :
    Joins piece (before ++ es) (before ++ es') := by
  simpa only [List.append_nil] using h.around before []

theorem Joins.append_right (h : Joins piece es es') (after : List ε) :
    Joins piece (es ++ after) (es' ++ after) := by
  simpa only [List.nil_append] using h.around [] after

/-- **Composition**: the pieces `mid` that the first part leaves behind come before the second. -/
theorem Joins.comp {lead mid tail : List ε} (h : Joins piece (lead ++ es) (es' ++ mid))
    (h' : Joins piece (mid ++ fs) (fs' ++ tail)) :
    Joins piece (lead ++ (es ++ fs)) (es' ++ fs' ++ tail) := by
  have hfirst := h.append_right fs
  have hrest := h'.append_left es'
  simp only [List.append_assoc] at hfirst hrest ⊢
  exact hfirst.trans hrest

/-- **Invariant rule**: where `P` holds, a single join keeps it and does not change `run`. -/
theorem Joins.preserves {ρ : Type} {P : List ε → Prop} {run : List ε → ρ}
    (hstep : ∀ {l l' : List ε}, P l → Join piece l l' → P l' ∧ run l = run l')
    (h : Joins piece es es') (hP : P es) : P es' ∧ run es = run es' := by
  induction h with
  | refl => exact ⟨hP, rfl⟩
  | tail _ hj ih =>
    obtain ⟨hP', hrun⟩ := ih
    obtain ⟨hP'', hrun'⟩ := hstep hP' hj
    exact ⟨hP'', hrun.trans hrun'⟩

end Pixie.Pieces
