/-
  Runs of a system, seen as the trace of what happened in it.

  1. `Always P tr` — `P` holds of every initial part of the trace `tr`, that is at every POINT of
     the run that left this trace.  A trace grows at its end, so the rule for one more event is
     `Always.snoc`, and `Always.mono` weakens the property pointwise.

  2. `Reachable init step s` — the states of a transition relation that a run can come to.
     `Reachable.invariant` packages the induction once: what holds initially and is kept by each
     step holds of every reachable state.

  3. **Refinement** — `Reachable.simulated`: when a function takes the states of one system to those
     of another, and each step to a step or to nothing, it takes reachable states to reachable ones.
     What was proved of the abstract system then holds of every state of the concrete one.

  4. `Each P tr` — each event of the trace satisfies `P`, given the part of the trace before it.
     `always_iff_each` takes a property of every point to one of each event; `since p tr` is the
     part of the trace after the last event with `p`.

  5. `Path step s tr t` — a run from `s` to `t` whose steps leave the events `tr`.  Paths are put
     together and taken apart where their traces are, a weaker relation has them too (`Path.mono`), and
     an invariant may speak of the trace so far (`Path.invariant`).

  6. **Runs that may stop** — a function that follows a trace event by event and may fail at one.  What
     it keeps where it goes on holds at the end (`foldlM_keeps`, `Path.keeps`); when it fails at exactly
     the events that break `P`, it gets to the end if and only if each event satisfies `P`
     (`Path.succeeds`, `Path.fails`).
-/
import Mathlib.Data.List.Infix

namespace Pixie.Run

section Traces

variable {ε : Type}

/-- `P` holds at every point of the trace. -/
def Always (P : List ε → Prop) (tr : List ε) : Prop := ∀ t, t <+: tr → P t

theorem Always.last {P : List ε → Prop} {tr : List ε} (h : Always P tr) : P tr :=
  h tr List.prefix_rfl

theorem always_nil {P : List ε → Prop} (h : P []) : Always P [] := by
  intro t ht
  rw [List.prefix_nil.mp ht]
  exact h

theorem Always.snoc {P : List ε → Prop} {tr : List ε} {e : ε} (h : Always P tr)
    (he : P (tr ++ [e])) : Always P (tr ++ [e]) := by
  intro t ht
  rcases List.prefix_concat_iff.mp ht with rfl | ht
  · exact he
  · exact h t ht

theorem Always.mono {P Q : List ε → Prop} {tr : List ε} (h : Always P tr)
    (hPQ : ∀ t, P t → Q t) : Always Q tr := fun t ht => hPQ t (h t ht)

/-- Each event of the trace satisfies `P`, given the events before it. -/
def Each (P : List ε → ε → Prop) (tr : List ε) : Prop :=
  ∀ before e after, tr = before ++ e :: after → P before e

theorem each_nil (P : List ε → ε → Prop) : Each P [] := by
  intro before e after h
  simp at h

theorem each_cons {P : List ε → ε → Prop} {e : ε} {tr : List ε} :
    Each P (e :: tr) ↔ P [] e ∧ Each (fun before => P (e :: before)) tr := by
  constructor
  · intro h
    refine ⟨h [] e tr rfl, ?_⟩
    intro before e' after heq
    exact h (e :: before) e' after (by rw [heq, List.cons_append])
  · rintro ⟨hfirst, hrest⟩ before e' after heq
    cases before with
    | nil =>
      obtain ⟨rfl, -⟩ := List.cons.inj heq
      exact hfirst
    | cons b before =>
      obtain ⟨rfl, htail⟩ := List.cons.inj heq
      exact hrest before e' after htail

theorem each_append {tr tr' : List ε} : ∀ {P : List ε → ε → Prop},
    Each P (tr ++ tr') ↔ Each P tr ∧ Each (fun before => P (tr ++ before)) tr' := by
  induction tr with
  | nil =>
    intro P
    exact ⟨fun h => ⟨each_nil P, h⟩, And.right⟩
  | cons e tr ih =>
    intro P
    rw [List.cons_append, each_cons, each_cons, ih, and_assoc]
    rfl

theorem each_snoc {P : List ε → ε → Prop} {tr : List ε} {e : ε} :
    Each P (tr ++ [e]) ↔ Each P tr ∧ P tr e := by
  rw [each_append, each_cons, List.append_nil]
  exact ⟨fun h => ⟨h.1, h.2.1⟩, fun h => ⟨h.1, h.2, each_nil _⟩⟩

/-- A property that holds at first and that an event keeps exactly if it satisfies `Q` holds at every
    point if and only if each event satisfies `Q`. -/
theorem always_iff_each {P : List ε → Prop} {Q : List ε → ε → Prop} (hnil : P [])
    (hstep : ∀ t e, P t → (P (t ++ [e]) ↔ Q t e)) (tr : List ε) : Always P tr ↔ Each Q tr := by
  induction tr using List.reverseRecOn with
  | nil => exact ⟨fun _ => each_nil Q, fun _ => always_nil hnil⟩
  | append_singleton tr e ih =>
    rw [each_snoc, ← ih]
    constructor
    · intro h
      have hbefore : Always P tr := fun t ht => h t (ht.trans (List.prefix_append tr [e]))
      exact ⟨hbefore, (hstep tr e hbefore.last).mp h.last⟩
    · rintro ⟨hbefore, he⟩
      exact hbefore.snoc ((hstep tr e hbefore.last).mpr he)

/-- The events since the last one with `p`, or all of them. -/
def since (p : ε → Prop) [DecidablePred p] (tr : List ε) : List ε :=
  tr.foldl (fun after e => if p e then [] else after ++ [e]) []

section Since

variable {p : ε → Prop} [DecidablePred p]

theorem since_snoc_of {e : ε} (he : p e) (tr : List ε) : since p (tr ++ [e]) = [] := by
  rw [since, List.foldl_append]
  exact if_pos he

theorem since_snoc_of_not {e : ε} (he : ¬ p e) (tr : List ε) :
    since p (tr ++ [e]) = since p tr ++ [e] := by
  rw [since, List.foldl_append]
  exact if_neg he

theorem since_append_of_not {tr' : List ε} (h : ∀ e ∈ tr', ¬ p e) (tr : List ε) :
    since p (tr ++ tr') = since p tr ++ tr' := by
  induction tr' using List.reverseRecOn with
  | nil => rw [List.append_nil, List.append_nil]
  | append_singleton tr' e ih =>
    have he : ¬ p e := h e (by simp)
    rw [← List.append_assoc, since_snoc_of_not he, ih fun x hx => h x (by simp [hx]),
      List.append_assoc]

theorem mem_of_mem_since {tr : List ε} {e : ε} (h : e ∈ since p tr) : e ∈ tr := by
  induction tr using List.reverseRecOn with
  | nil => exact h
  | append_singleton tr x ih =>
    by_cases hx : p x
    · rw [since_snoc_of hx] at h
      cases h
    · rw [since_snoc_of_not hx] at h
      exact List.mem_append.mpr ((List.mem_append.mp h).imp_left ih)

/-- A trace is cut at its last event with `p`. -/
theorem since_cut {before after : List ε} {e : ε} (he : p e) (h : ∀ x ∈ after, ¬ p x) :
    since p (before ++ e :: after) = after := by
  have hsplit : before ++ e :: after = (before ++ [e]) ++ after := by simp
  rw [hsplit, since_append_of_not h, since_snoc_of he, List.nil_append]

theorem exists_since {tr : List ε} (h : ∃ e ∈ tr, p e) :
    ∃ before e, tr = before ++ e :: since p tr ∧ p e ∧ ∀ x ∈ since p tr, ¬ p x := by
  induction tr using List.reverseRecOn with
  | nil =>
    obtain ⟨e, he, -⟩ := h
    cases he
  | append_singleton tr x ih =>
    by_cases hx : p x
    · refine ⟨tr, x, ?_, hx, ?_⟩
      · rw [since_snoc_of hx]
      · rw [since_snoc_of hx]
        exact nofun
    · obtain ⟨e, he, hpe⟩ := h
      have hmem : e ∈ tr := by
        rcases List.mem_append.mp he with he | he
        · exact he
        · exact absurd (List.mem_singleton.mp he ▸ hpe) hx
      obtain ⟨before, e', htr, he', hsince⟩ := ih ⟨e, hmem, hpe⟩
      rw [since_snoc_of_not hx]
      refine ⟨before, e', ?_, he', ?_⟩
      · rw [← List.cons_append, ← List.append_assoc, ← htr]
      · intro y hy
        rcases List.mem_append.mp hy with hy | hy
        · exact hsince y hy
        · rw [List.mem_singleton.mp hy]
          exact hx

end Since

end Traces

section Reachability

variable {σ : Type} (init : σ → Prop) (step : σ → σ → Prop)

/-- The states that a run from an initial state comes to. -/
inductive Reachable : σ → Prop
  | start {s : σ} : init s → Reachable s
  | next {s s' : σ} : Reachable s → step s s' → Reachable s'

variable {init step}

/-- **Invariant rule.** -/
theorem Reachable.invariant {I : σ → Prop} (hinit : ∀ s, init s → I s)
    (hstep : ∀ s s', I s → step s s' → I s') : ∀ {s : σ}, Reachable init step s → I s := by
  intro s h
  induction h with
  | start h => exact hinit _ h
  | next _ hs ih => exact hstep _ _ ih hs

/-- **Refinement rule.**  `abs` takes each step of a system, from a state with the invariant `I`, to
    a step of the other system or to no step at all. -/
theorem Reachable.simulated {τ : Type} {init' : τ → Prop} {step' : τ → τ → Prop} {I : σ → Prop}
    (abs : σ → τ) (hI : ∀ s, Reachable init step s → I s) (hinit : ∀ s, init s → init' (abs s))
    (hstep : ∀ s s', I s → step s s' → abs s' = abs s ∨ step' (abs s) (abs s')) :
    ∀ {s : σ}, Reachable init step s → Reachable init' step' (abs s) := by
  intro s h
  induction h with
  | start h => exact .start (hinit _ h)
  | @next s s' hs hss' ih =>
    rcases hstep s s' (hI s hs) hss' with heq | hstep'
    · rw [heq]
      exact ih
    · exact .next ih hstep'

end Reachability

section Stops

variable {τ κ ε : Type}

/-- A result of two steps has one in between. -/
theorem bind_ok {α β : Type} {x : Except κ α} {f : α → Except κ β} {b : β} :
    x.bind f = .ok b ↔ ∃ a, x = .ok a ∧ f a = .ok b := by
  constructor
  · intro h
    cases x with
    | ok a => exact ⟨a, rfl, h⟩
    | error k => cases h
  · rintro ⟨a, rfl, h⟩
    exact h

/-- **Invariant rule for a fold that may stop**: what each event keeps, the fold keeps. -/
theorem foldlM_keeps {f : τ → ε → Except κ τ} {I : List ε → τ → Prop}
    (hstep : ∀ p e x y, I p x → f x e = .ok y → I (p ++ [e]) y) {tr : List ε} :
    ∀ {p : List ε} {x y : τ}, I p x → tr.foldlM f x = .ok y → I (p ++ tr) y := by
  induction tr with
  | nil =>
    intro p x y hI hrun
    cases hrun
    rw [List.append_nil]
    exact hI
  | cons e tr ih =>
    intro p x y hI hrun
    obtain ⟨z, hz, hrest⟩ := bind_ok.mp (List.foldlM_cons.symm.trans hrun)
    have hI' := ih (hstep p e x z hI hz) hrest
    rw [List.append_assoc] at hI'
    exact hI'

end Stops

section Paths

variable {σ ε : Type} {step : σ → ε → σ → Prop}

/-- A run from one state to another, with the events of its steps. -/
inductive Path (step : σ → ε → σ → Prop) : σ → List ε → σ → Prop
  | nil (s : σ) : Path step s [] s
  | cons {s u t : σ} {e : ε} {tr : List ε} : step s e u → Path step u tr t → Path step s (e :: tr) t

theorem Path.append {s u t : σ} {tr tr' : List ε} (h : Path step s tr u) (h' : Path step u tr' t) :
    Path step s (tr ++ tr') t := by
  induction h with
  | nil s => exact h'
  | cons hs _ ih => exact .cons hs (ih h')

/-- A path of one relation is a path of a weaker one. -/
theorem Path.mono {step' : σ → ε → σ → Prop} (hle : ∀ s e t, step s e t → step' s e t) {s t : σ}
    {tr : List ε} (h : Path step s tr t) : Path step' s tr t := by
  induction h with
  | nil s => exact .nil s
  | cons hs _ ih => exact .cons (hle _ _ _ hs) ih

/-- A path can be cut where its trace is. -/
theorem Path.split {s t : σ} {tr tr' : List ε} (h : Path step s (tr ++ tr') t) :
    ∃ u, Path step s tr u ∧ Path step u tr' t := by
  induction tr generalizing s with
  | nil => exact ⟨s, .nil s, h⟩
  | cons e tr ih =>
    cases h with
    | cons hs h =>
      obtain ⟨u, hleft, hright⟩ := ih h
      exact ⟨u, .cons hs hleft, hright⟩

/-- **Invariant rule along a path**: the invariant sees the trace that has been left so far. -/
theorem Path.invariant {I : List ε → σ → Prop}
    (hstep : ∀ p s e s', I p s → step s e s' → I (p ++ [e]) s') {s t : σ} {tr : List ε}
    (h : Path step s tr t) : ∀ {p : List ε}, I p s → I (p ++ tr) t := by
  induction h with
  | nil s =>
    intro p hp
    rw [List.append_nil]
    exact hp
  | cons hs _ ih =>
    intro p hp
    have hnext := ih (hstep p _ _ _ hp hs)
    rw [List.append_assoc] at hnext
    exact hnext

section Stopping

variable {τ κ : Type} {f : τ → ε → Except κ τ} {I : List ε → σ → τ → Prop}
  {P : List ε → ε → Prop}

/-- **Invariant rule for runs that may stop**: what a function that follows the path keeps, as long as
    it goes on. -/
theorem Path.keeps
    (hstep : ∀ p s e s' x y, I p s x → step s e s' → f x e = .ok y → I (p ++ [e]) s' y)
    {s t : σ} {tr : List ε} (h : Path step s tr t) : ∀ {p : List ε} {x y : τ}, I p s x →
      tr.foldlM f x = .ok y → I (p ++ tr) t y := by
  induction h with
  | nil s =>
    intro p x y hI hrun
    cases hrun
    rw [List.append_nil]
    exact hI
  | @cons s u t e tr hs _ ih =>
    intro p x y hI hrun
    obtain ⟨z, hz, hrest⟩ := bind_ok.mp (List.foldlM_cons.symm.trans hrun)
    have hI' := ih (hstep p s e u x z hI hs hz) hrest
    rw [List.append_assoc] at hI'
    exact hI'

/-- **Runs that may stop**: a function that goes on at the events with `P` goes on to the end. -/
theorem Path.succeeds
    (hok : ∀ p s e s' x, I p s x → step s e s' → P p e → ∃ y, f x e = .ok y ∧ I (p ++ [e]) s' y)
    {s t : σ} {tr : List ε} (h : Path step s tr t) : ∀ {p : List ε} {x : τ}, I p s x →
      Each (fun before => P (p ++ before)) tr → ∃ y, tr.foldlM f x = .ok y ∧ I (p ++ tr) t y := by
  induction h with
  | nil s =>
    intro p x hI _
    rw [List.append_nil]
    exact ⟨x, rfl, hI⟩
  | @cons s u t e tr hs _ ih =>
    intro p x hI heach
    obtain ⟨hfirst, hrest⟩ := each_cons.mp heach
    rw [List.append_nil] at hfirst
    obtain ⟨y, hy, hI'⟩ := hok p s e u x hI hs hfirst
    have hrest' : Each (fun before => P (p ++ [e] ++ before)) tr := by
      simpa only [List.append_assoc, List.singleton_append] using hrest
    obtain ⟨z, hz, hI''⟩ := ih hI' hrest'
    refine ⟨z, ?_, ?_⟩
    · rw [List.foldlM_cons, hy]
      exact hz
    · rw [List.append_assoc] at hI''
      exact hI''

/-- One that stops at the others does not get past them. -/
theorem Path.fails
    (hok : ∀ p s e s' x, I p s x → step s e s' → P p e → ∃ y, f x e = .ok y ∧ I (p ++ [e]) s' y)
    (hstop : ∀ p s e s' x, I p s x → step s e s' → ¬ P p e → ∃ k, f x e = .error k)
    {s t : σ} {tr : List ε} (h : Path step s tr t) : ∀ {p : List ε} {x : τ}, I p s x →
      ¬ Each (fun before => P (p ++ before)) tr → ∃ k, tr.foldlM f x = .error k := by
  induction h with
  | nil s => exact fun {p} {x} _ heach => absurd (each_nil _) heach
  | @cons s u t e tr hs _ ih =>
    intro p x hI heach
    by_cases hP : P p e
    · obtain ⟨y, hy, hI'⟩ := hok p s e u x hI hs hP
      have hrest : ¬ Each (fun before => P (p ++ [e] ++ before)) tr := by
        intro hrest
        apply heach
        refine each_cons.mpr ⟨?_, ?_⟩
        · rw [List.append_nil]
          exact hP
        · simpa only [List.append_assoc, List.singleton_append] using hrest
      obtain ⟨k, hk⟩ := ih hI' hrest
      refine ⟨k, ?_⟩
      rw [List.foldlM_cons, hy]
      exact hk
    · obtain ⟨k, hk⟩ := hstop p s e u x hI hs hP
      exact ⟨k, by rw [List.foldlM_cons, hk]; rfl⟩

end Stopping

end Paths

end Pixie.Run
