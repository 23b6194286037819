/-
  What a deterministic machine accepts, from each of its states.

  `rest s` is a language for each state `s`: what may still come there.  Two conditions make it the
  right one: a state with nothing more to come is an accepting one, and one letter leads from the
  language of a state to that of the next.  Then the machine accepts exactly these words; the language
  is found by looking at one letter at a time, and there is no induction left to do.
-/
namespace Pixie.Residual

variable {σ α : Type} {step : σ → α → σ}

/-- **The residual rule.** -/
theorem foldl_residual (accepting : σ → Prop) (rest : σ → List α → Prop)
    (hnil : ∀ s, rest s [] ↔ accepting s) (hcons : ∀ s a w, rest s (a :: w) ↔ rest (step s a) w)
    (s : σ) (w : List α) : accepting (w.foldl step s) ↔ rest s w := by
  induction w generalizing s with
  | nil => exact (hnil s).symm
  | cons a w ih =>
    rw [List.foldl_cons, hcons]
    exact ih (step s a)

end Pixie.Residual
