/-
  Monitors: a program watched event by event.

  A monitor is a state machine over the events of a program.  At an event it goes on, or it gives a
  VERDICT: `fault`, the program has done what it must not do; or `excused`, the environment has done
  what it was assumed not to do, and from there on nothing is asked of the program.

  1. `Keeps w P x Q` — from a monitor state with `P`, whatever the environment answers, the program `x`
     commits no fault, and if it ends with a value and was not excused, `Q` holds of the value and of
     the monitor state.  The rules follow the program: `Keeps.pure`, `Keeps.bind`, `Keeps.ite` and so on.

  2. `Keeps.no_fault` — verdicts stay, so a part of a run in which nothing is excused has none.  This is
     the form that a scheduler needs, which lets a program go only part of its way.
-/
import Pixie.Lib.Prog

namespace Pixie.Wp

variable {σ ε κ α β τ : Type}

inductive Verdict
  | excused
  | fault
deriving DecidableEq, Repr

/-- The part of a trace that has been watched leads to a monitor state or to a verdict. -/
def watched (w : τ → ε → Except Verdict τ) (m : τ) (tr : List ε) : Except Verdict τ := tr.foldlM w m

variable {w : τ → ε → Except Verdict τ} {m : τ} {tr tr' : List ε}

@[simp] theorem watched_nil : watched w m [] = .ok m := rfl

theorem watched_cons (e : ε) : watched w m (e :: tr) = (w m e).bind fun m' => watched w m' tr :=
  List.foldlM_cons

theorem watched_singleton (e : ε) : watched w m [e] = w m e := by
  rw [watched_cons]
  cases w m e <;> rfl

theorem watched_append : watched w m (tr ++ tr') = (watched w m tr).bind fun m' => watched w m' tr' :=
  List.foldlM_append

/-- What the watched part has come to goes on with one more event. -/
theorem watched_snoc {m' : τ} (h : watched w m tr = .ok m') (e : ε) :
    watched w m (tr ++ [e]) = w m' e := by
  rw [watched_append, h]
  exact watched_singleton e

/-- A verdict stays. -/
theorem watched_stays {v : Verdict} (h : watched w m tr = .error v) (hp : tr <+: tr') :
    watched w m tr' = .error v := by
  obtain ⟨rest, rfl⟩ := hp
  rw [watched_append, h]
  rfl

/-! ## The judgement -/

/-- From `P` no fault is committed, and a value comes with `Q`. -/
def Keeps (w : τ → ε → Except Verdict τ) (P : τ → Prop) (x : Prog σ ε κ α) (Q : α → τ → Prop) : Prop :=
  ∀ s m, P m → match watched w m (x s).trace with
    | .ok m' => ∀ a, (x s).fin = .ok a → Q a m'
    | .error v => v = .excused

variable {P P' : τ → Prop} {Q : α → τ → Prop} {x y : Prog σ ε κ α}

theorem Keeps.pure {a : α} (h : ∀ m, P m → Q a m) : Keeps w P (Pure.pure a : Prog σ ε κ α) Q := by
  intro s m hm a' ha'
  cases ha'
  exact h m hm

/-- A program that stops without an event. -/
theorem Keeps.stop {k : κ} : Keeps w P (Wp.stop [] k : Prog σ ε κ α) Q :=
  fun _ _ _ _ ha => nomatch ha

/-- A program that leaves one event, whatever it does then. -/
theorem Keeps.single {x : Prog σ ε κ α} (e : σ → ε) (htrace : ∀ s, (x s).trace = [e s])
    (h : ∀ s m, P m → match w m (e s) with
      | .ok m' => ∀ a, (x s).fin = .ok a → Q a m'
      | .error v => v = .excused) : Keeps w P x Q := by
  intro s m hm
  rw [htrace, watched_singleton]
  exact h s m hm

theorem Keeps.emit {e : ε} {Q : Unit → τ → Prop}
    (h : ∀ m, P m → match w m e with
      | .ok m' => Q () m'
      | .error v => v = .excused) : Keeps w P (Wp.emit e : Prog σ ε κ Unit) Q := by
  refine Keeps.single (fun _ => e) (fun _ => rfl) fun s m hm => ?_
  have he := h m hm
  split
  · next m' hok =>
    rw [hok] at he
    exact fun _ _ => he
  · next v herr =>
    rw [herr] at he
    exact he

theorem Keeps.bind {x : Prog σ ε κ α} {f : α → Prog σ ε κ β} {R : β → τ → Prop}
    (hx : Keeps w P x Q) (hf : ∀ a, Keeps w (Q a) (f a) R) : Keeps w P (x >>= f) R := by
  intro s m hm
  have hfirst := hx s m hm
  show match watched w m ((x s).andThen f).trace with
    | .ok m' => ∀ b, ((x s).andThen f).fin = .ok b → R b m'
    | .error v => v = .excused
  unfold Outcome.andThen
  cases hfin : (x s).fin with
  | error k =>
    dsimp only
    cases hw : watched w m (x s).trace with
    | error v =>
      rw [hw] at hfirst
      exact hfirst
    | ok m' => exact fun _ hb => nomatch hb
  | ok a =>
    dsimp only
    rw [watched_append]
    cases hw : watched w m (x s).trace with
    | error v =>
      rw [hw] at hfirst
      exact hfirst
    | ok m' =>
      rw [hw] at hfirst
      exact hf a (x s).env m' (hfirst a hfin)

theorem Keeps.ite {c : Prop} [Decidable c] (hx : c → Keeps w P x Q) (hy : ¬ c → Keeps w P y Q) :
    Keeps w P (if c then x else y) Q := by
  split
  · exact hx ‹_›
  · exact hy ‹_›

/-- **Consequence.** -/
theorem Keeps.mono (h : Keeps w P x Q) (hP : ∀ m, P' m → P m) {Q' : α → τ → Prop}
    (hQ : ∀ a m, Q a m → Q' a m) : Keeps w P' x Q' := by
  intro s m hm
  have hx := h s m (hP m hm)
  split
  · next m' hw =>
    rw [hw] at hx
    exact fun a ha => hQ a m' (hx a ha)
  · next v hw =>
    rw [hw] at hx
    exact hx

/-- A fact that does not depend on the monitor may be used before the program is looked at. -/
theorem Keeps.of_fact {c : Prop} (h : c → Keeps w P x Q) : Keeps w (fun m => c ∧ P m) x Q :=
  fun s m hm => h hm.1 s m hm.2

theorem Keeps.of_exists {ι : Type} {P : ι → τ → Prop} (h : ∀ i, Keeps w (P i) x Q) :
    Keeps w (fun m => ∃ i, P i m) x Q := by
  rintro s m ⟨i, hm⟩
  exact h i s m hm

/-- **No fault in any part of a run.** -/
theorem Keeps.no_fault (h : Keeps w P x Q) (hm : P m) {s : σ} (hp : tr <+: (x s).trace) :
    watched w m tr ≠ .error .fault := by
  intro hfault
  have hx := h s m hm
  rw [watched_stays hfault hp] at hx
  cases hx

end Pixie.Wp
