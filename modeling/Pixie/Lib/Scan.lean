/-
  Scanning a stream that arrives in pieces, with an early exit.

  A push parser is a step function `σ → α → σ` together with a test `stop : σ → Bool` that says
  when it wants no more input.  Its driver hands it the elements of one piece after another and
  leaves the loop at the first element that raises the test.  Everything such a driver can do is
  said once here, over arbitrary `σ` and `α`:

  1. `Quiet step stop s xs` — no element of `xs`, stepped from `s`, raises the test.  It is
     recursive on `xs`, and `quiet_append` cuts it at any point, which is what makes the way a
     stream is cut into pieces irrelevant.

  2. `scan step stop s xs` — the driver on one piece: the state it ends in and the 1-based index
     of the element that raised the test (`none` when none did).

  3. `scan_of_quiet`, `scan_of_stop`, `scan_cases` — the driver ran through, or it stopped at a
     known element; nothing else can happen.
-/
import Mathlib.Data.List.Induction

namespace Pixie.Scan

variable {σ α : Type} (step : σ → α → σ) (stop : σ → Bool)

/-- No element of the input, stepped from `s`, raises the test. -/
def Quiet : σ → List α → Prop
  | _, [] => True
  | s, a :: as => stop (step s a) = false ∧ Quiet (step s a) as

/-- The driver's loop on one piece: the state it ends in, and the 1-based index of the element
    that made it leave. -/
def scan : σ → List α → σ × Option Nat
  | s, [] => (s, none)
  | s, a :: as =>
      if stop (step s a) then (step s a, some 1)
      else ((scan (step s a) as).1, (scan (step s a) as).2.map (· + 1))

variable {step stop}

@[simp] theorem quiet_nil (s : σ) : Quiet step stop s [] := trivial

@[simp] theorem quiet_cons {s : σ} {a : α} {as : List α} :
    Quiet step stop s (a :: as) ↔ stop (step s a) = false ∧ Quiet step stop (step s a) as :=
  Iff.rfl

/-- A stream may be cut anywhere: what follows the cut is scanned from the state at the cut. -/
theorem quiet_append {s : σ} {xs ys : List α} :
    Quiet step stop s (xs ++ ys) ↔
      Quiet step stop s xs ∧ Quiet step stop (xs.foldl step s) ys := by
  induction xs generalizing s with
  | nil => simp
  | cons a as ih => simp [ih, and_assoc]

theorem Quiet.left {s : σ} {xs ys : List α} (h : Quiet step stop s (xs ++ ys)) :
    Quiet step stop s xs :=
  (quiet_append.mp h).1

theorem Quiet.right {s : σ} {xs ys : List α} (h : Quiet step stop s (xs ++ ys)) :
    Quiet step stop (xs.foldl step s) ys :=
  (quiet_append.mp h).2

theorem quiet_append_singleton {s : σ} {xs : List α} {a : α} :
    Quiet step stop s (xs ++ [a]) ↔
      Quiet step stop s xs ∧ stop ((xs ++ [a]).foldl step s) = false := by
  simp [quiet_append, List.foldl_append]

/-- A quiet, non-empty input ends in a state that does not raise the test. -/
theorem Quiet.stop_foldl {s : σ} {xs : List α} (h : Quiet step stop s xs) (hne : xs ≠ []) :
    stop (xs.foldl step s) = false := by
  induction xs using List.reverseRecOn with
  | nil => exact absurd rfl hne
  | append_singleton xs a _ => exact (quiet_append_singleton.mp h).2

/-- A quiet piece is consumed whole. -/
theorem scan_of_quiet {s : σ} {xs : List α} (h : Quiet step stop s xs) :
    scan step stop s xs = (xs.foldl step s, none) := by
  induction xs generalizing s with
  | nil => rfl
  | cons a as ih =>
    rw [scan, if_neg (by rw [h.1]; decide), ih h.2]
    rfl

/-- The first element that raises the test ends the scan, whatever follows it. -/
theorem scan_of_stop {s : σ} {xs ys : List α} {a : α} (h : Quiet step stop s xs)
    (hstop : stop ((xs ++ [a]).foldl step s) = true) :
    scan step stop s (xs ++ a :: ys) = ((xs ++ [a]).foldl step s, some (xs.length + 1)) := by
  induction xs generalizing s with
  | nil => exact if_pos hstop
  | cons b bs ih =>
    rw [List.cons_append, scan, if_neg (by rw [h.1]; decide), ih h.2 hstop]
    rfl

/-- **Everything a driver can do**: the input is quiet, or it splits at the first element that
    raises the test. -/
theorem scan_cases (s : σ) (xs : List α) :
    Quiet step stop s xs ∨
      ∃ t a u, xs = t ++ a :: u ∧ Quiet step stop s t ∧ stop ((t ++ [a]).foldl step s) = true := by
  induction xs generalizing s with
  | nil => exact Or.inl trivial
  | cons b bs ih =>
    cases hb : stop (step s b) with
    | true => exact Or.inr ⟨[], b, bs, rfl, trivial, hb⟩
    | false =>
      rcases ih (step s b) with hq | ⟨t, a, u, rfl, hq, hs⟩
      · exact Or.inl ⟨hb, hq⟩
      · exact Or.inr ⟨b :: t, a, u, rfl, ⟨hb, hq⟩, hs⟩

/-! ## Reading a stretch of input -/

/-- `xs` is quiet from `s` and leads to `t`. -/
def Reads (step : σ → α → σ) (stop : σ → Bool) (s : σ) (xs : List α) (t : σ) : Prop :=
  Quiet step stop s xs ∧ xs.foldl step s = t

theorem Reads.trans {s t u : σ} {xs ys : List α} (h : Reads step stop s xs t)
    (h' : Reads step stop t ys u) : Reads step stop s (xs ++ ys) u := by
  obtain ⟨hq, rfl⟩ := h
  exact ⟨quiet_append.mpr ⟨hq, h'.1⟩, by rw [List.foldl_append]; exact h'.2⟩

theorem Reads.single {s t : σ} {a : α} (h : step s a = t) (hs : stop t = false) :
    Reads step stop s [a] t :=
  ⟨⟨by rw [h]; exact hs, trivial⟩, h⟩

/-- **A stretch described by its states**: when the state after each input `l` with `P l` is
    known to be
    `S l`, and none of these raises the test, every such input is read from `S []`. -/
theorem reads_family {S : List α → σ} {P : List α → Prop}
    (hpre : ∀ l a, P (l ++ [a]) → P l)
    (hstep : ∀ l a, P (l ++ [a]) → step (S l) a = S (l ++ [a]))
    (hstop : ∀ l, stop (S l) = false) :
    ∀ l, P l → Reads step stop (S []) l (S l) := by
  intro l
  induction l using List.reverseRecOn with
  | nil => intro _; exact ⟨trivial, rfl⟩
  | append_singleton l a ih =>
    intro hg
    exact (ih (hpre l a hg)).trans (Reads.single (hstep l a hg) (hstop _))

end Pixie.Scan
