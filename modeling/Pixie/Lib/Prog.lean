/-
  Programs that make calls, seen from outside.

  A program (`Prog σ ε κ α`) runs in an environment `σ` that answers its calls, leaves a trace of
  events `ε`, and ends with a value or STOPS with a reason `κ` (an exception, an exit, an abort, a
  call that does not come back).  A stop ends the whole program; nothing after it runs.

  1. `Runs x Q` — whatever the environment, the trace and the end of `x` satisfy `Q`.  It is a
     weakest-precondition judgement without the precondition: the rules go backwards through the
     program, `Runs.pure` at a value, `Runs.bind` at a sequence.

  2. `After f Q` is the postcondition that `x` owes when `f` runs after it and `Q` is wanted in the
     end: at a stop `Q` itself, at a value that `f` runs to what is missing from `Q`.

  3. **How long a loop can go on** — a measure `μ` of the environment bounds the rounds of a loop that
     `Spends` some of it in every round and otherwise `Spares` it.  `Agree μ n x y`: the two programs do
     the same wherever the measure is below `n`.  It is what two bounds on one loop come to when both
     are large enough.
-/
import Mathlib.Data.List.Basic

namespace Pixie.Wp

variable {σ ε κ α β : Type}

/-- What a run leaves behind. -/
structure Outcome (σ ε κ α : Type) where
  trace : List ε
  fin : Except κ α
  env : σ

/-- A program is a function of the environment that answers its calls. -/
def Prog (σ ε κ α : Type) := σ → Outcome σ ε κ α

/-- The second part of a sequence, or nothing after a stop. -/
def Outcome.andThen (o : Outcome σ ε κ α) (f : α → Prog σ ε κ β) : Outcome σ ε κ β :=
  match o.fin with
  | .error k => ⟨o.trace, .error k, o.env⟩
  | .ok a =>
      let o' := f a o.env
      ⟨o.trace ++ o'.trace, o'.fin, o'.env⟩

instance : Monad (Prog σ ε κ) where
  pure a := fun s => ⟨[], .ok a, s⟩
  bind x f := fun s => (x s).andThen f

/-- A sequence goes on from where its first part has come to. -/
theorem bind_of_ok {x : Prog σ ε κ α} {f : α → Prog σ ε κ β} {s s' : σ} {tr : List ε} {a : α}
    (h : x s = ⟨tr, .ok a, s'⟩) :
    (x >>= f) s = ⟨tr ++ (f a s').trace, (f a s').fin, (f a s').env⟩ := by
  show (x s).andThen f = _
  rw [h]
  rfl

/-- A stop in the first part stops the sequence. -/
theorem bind_of_error {x : Prog σ ε κ α} {f : α → Prog σ ε κ β} {s s' : σ} {tr : List ε} {k : κ}
    (h : x s = ⟨tr, .error k, s'⟩) : (x >>= f) s = ⟨tr, .error k, s'⟩ := by
  show (x s).andThen f = _
  rw [h]
  rfl

/-- The trace of a sequence starts with that of its first part. -/
theorem bind_trace (x : Prog σ ε κ α) (f : α → Prog σ ε κ β) (s : σ) :
    ∃ tr, ((x >>= f) s).trace = (x s).trace ++ tr := by
  cases hx : x s with
  | mk tr fin s' =>
    cases fin with
    | error k => exact ⟨[], by rw [bind_of_error hx, List.append_nil]⟩
    | ok a => exact ⟨(f a s').trace, by rw [bind_of_ok hx]⟩

/-- An event that stops the program. -/
def stop (tr : List ε) (k : κ) : Prog σ ε κ α := fun s => ⟨tr, .error k, s⟩

/-- A program that only leaves an event. -/
def emit (e : ε) : Prog σ ε κ Unit := fun s => ⟨[e], .ok (), s⟩

/-! ## The judgement -/

/-- Whatever the environment, trace and end satisfy `Q`. -/
def Runs (x : Prog σ ε κ α) (Q : List ε → Except κ α → Prop) : Prop :=
  ∀ s, Q (x s).trace (x s).fin

/-- What `x` owes when `f` comes after it. -/
def After (f : α → Prog σ ε κ β) (Q : List ε → Except κ β → Prop) (tr : List ε) :
    Except κ α → Prop
  | .error k => Q tr (.error k)
  | .ok a => Runs (f a) fun tr' r => Q (tr ++ tr') r

variable {Q : List ε → Except κ β → Prop}

/-- After a value the second part has to run to what is missing. -/
theorem Runs.after {f : α → Prog σ ε κ β} {tr : List ε} {a : α}
    (h : Runs (f a) fun tr' r => Q (tr ++ tr') r) : After f Q tr (.ok a) := h

theorem Runs.pure {a : β} (h : Q [] (.ok a)) : Runs (Pure.pure a : Prog σ ε κ β) Q := fun _ => h

theorem Runs.bind {x : Prog σ ε κ α} {f : α → Prog σ ε κ β} (h : Runs x (After f Q)) :
    Runs (x >>= f) Q := by
  intro s
  have hx := h s
  show Q ((x s).andThen f).trace ((x s).andThen f).fin
  unfold Outcome.andThen
  cases hfin : (x s).fin with
  | error k =>
    rw [hfin] at hx
    exact hx
  | ok a =>
    rw [hfin] at hx
    exact hx (x s).env

theorem Runs.stop {tr : List ε} {k : κ} (h : Q tr (.error k)) :
    Runs (Wp.stop tr k : Prog σ ε κ β) Q := fun _ => h

theorem Runs.emit {e : ε} {Q : List ε → Except κ Unit → Prop} (h : Q [e] (.ok ())) :
    Runs (Wp.emit e : Prog σ ε κ Unit) Q := fun _ => h

/-- The postcondition may be weakened. -/
theorem Runs.mono {x : Prog σ ε κ β} {P : List ε → Except κ β → Prop} (h : Runs x P)
    (hPQ : ∀ tr r, P tr r → Q tr r) : Runs x Q := fun s => hPQ _ _ (h s)

/-- A program that is chosen by a test. -/
theorem Runs.ite {c : Prop} [Decidable c] {x y : Prog σ ε κ β} (hx : c → Runs x Q)
    (hy : ¬ c → Runs y Q) : Runs (if c then x else y) Q := by
  split
  · exact hx ‹_›
  · exact hy ‹_›

theorem Runs.of_pos {c : Prop} [Decidable c] {x y : Prog σ ε κ β} (h : c) (hx : Runs x Q) :
    Runs (if c then x else y) Q := Runs.ite (fun _ => hx) fun hc => absurd h hc

theorem Runs.of_neg {c : Prop} [Decidable c] {x y : Prog σ ε κ β} (h : ¬ c) (hy : Runs y Q) :
    Runs (if c then x else y) Q := Runs.ite (fun hc => absurd hc h) fun _ => hy

/-! ## Measures -/

section Measures

variable (μ : σ → Nat)

/-- The program never adds to the measure. -/
def Spares (x : Prog σ ε κ α) : Prop := ∀ s, μ (x s).env ≤ μ s

/-- A run that ends with a value has made the measure smaller. -/
def Spends (x : Prog σ ε κ α) : Prop := ∀ s a, (x s).fin = .ok a → μ (x s).env < μ s

/-- The programs do the same wherever the measure is below `n`. -/
def Agree (n : Nat) (x y : Prog σ ε κ α) : Prop := ∀ s, μ s < n → x s = y s

variable {μ} {n : Nat}

theorem Spares.pure {a : α} : Spares μ (Pure.pure a : Prog σ ε κ α) := fun s => Nat.le_refl (μ s)

theorem Spares.emit {e : ε} : Spares μ (Wp.emit e : Prog σ ε κ Unit) := fun s => Nat.le_refl (μ s)

theorem Spares.ite {c : Prop} [Decidable c] {x y : Prog σ ε κ α} (hx : Spares μ x)
    (hy : Spares μ y) : Spares μ (if c then x else y) := by
  split
  · exact hx
  · exact hy

theorem Spares.bind {x : Prog σ ε κ α} {f : α → Prog σ ε κ β} (hx : Spares μ x)
    (hf : ∀ a, Spares μ (f a)) : Spares μ (x >>= f) := by
  intro s
  show μ ((x s).andThen f).env ≤ μ s
  unfold Outcome.andThen
  split
  · exact hx s
  · next a ha =>
    have hfirst := hx s
    have hsecond := hf a (x s).env
    show μ (f a (x s).env).env ≤ μ s
    omega

/-- Once spent, the measure stays below. -/
theorem Spends.bind {x : Prog σ ε κ α} {f : α → Prog σ ε κ β} (hx : Spends μ x)
    (hf : ∀ a, Spares μ (f a)) : Spends μ (x >>= f) := by
  intro s b hb
  change ((x s).andThen f).fin = .ok b at hb
  show μ ((x s).andThen f).env < μ s
  unfold Outcome.andThen at hb ⊢
  split at hb
  · cases hb
  · next a ha =>
    have hfirst := hx s a ha
    have hsecond := hf a (x s).env
    show μ (f a (x s).env).env < μ s
    omega

theorem Agree.refl (x : Prog σ ε κ α) : Agree μ n x x := fun _ _ => rfl

/-- After a value of the first part the second parts have to agree where it has led. -/
theorem andThen_congr {o : Outcome σ ε κ α} {f g : α → Prog σ ε κ β}
    (h : ∀ a, o.fin = .ok a → f a o.env = g a o.env) : o.andThen f = o.andThen g := by
  unfold Outcome.andThen
  split
  · rfl
  · next a ha => rw [h a ha]

theorem Agree.bind {x : Prog σ ε κ α} {f g : α → Prog σ ε κ β} (hx : Spares μ x)
    (h : ∀ a, Agree μ n (f a) (g a)) : Agree μ n (x >>= f) (x >>= g) := by
  intro s hs
  apply andThen_congr
  intro a _
  have hfirst := hx s
  apply h a
  omega

/-- What is spent in the first part need not be covered by the second. -/
theorem Agree.spend {x : Prog σ ε κ α} {f g : α → Prog σ ε κ β} (hx : Spends μ x)
    (h : ∀ a, Agree μ n (f a) (g a)) : Agree μ (n + 1) (x >>= f) (x >>= g) := by
  intro s hs
  apply andThen_congr
  intro a ha
  have hfirst := hx s a ha
  apply h a
  omega

theorem Agree.ite {c : Prop} [Decidable c] {x x' y y' : Prog σ ε κ α} (hx : Agree μ n x x')
    (hy : Agree μ n y y') : Agree μ n (if c then x else y) (if c then x' else y') := by
  split
  · exact hx
  · exact hy

/-- A test with one continuation for both of its branches. -/
theorem Agree.ite_bind {c : Prop} [Decidable c] {x y : Prog σ ε κ α} {f g : α → Prog σ ε κ β}
    (hx : Spares μ x) (hy : Spares μ y) (h : ∀ a, Agree μ n (f a) (g a)) :
    Agree μ n (if c then x >>= f else y >>= f) (if c then x >>= g else y >>= g) :=
  .ite (.bind hx h) (.bind hy h)

end Measures

end Pixie.Wp
