/-
  Resources and their holders.

  A resource is a name that is in use or not; `live r` is what the name `r` stands for while it is.
  Names are used again: what is released may be acquired by anybody, and then stands for something else.
  Each holder keeps a list of the names that it believes to be its own.

  `Isolated live holds` says that the belief is right: what is held is in use, no holder has a name
  twice, and no two holders have the same name.  The rules are those of a name's life: `acquire` a name
  that nobody uses, `transfer` it, `release` it, or `drop` it, that is forget it while it is in use.
-/
import Mathlib.Data.List.Nodup
import Mathlib.Logic.Function.Basic
import Mathlib.Data.List.Perm.Subperm

namespace Pixie.Ownership

variable {ι ρ κ : Type}

structure Isolated (live : ρ → Option κ) (holds : ι → List ρ) : Prop where
  /-- what is held is in use -/
  live : ∀ i, ∀ r ∈ holds i, live r ≠ none
  nodup : ∀ i, (holds i).Nodup
  /-- what is held is held by one -/
  apart : ∀ i j, ∀ r ∈ holds i, r ∈ holds j → i = j

variable {live : ρ → Option κ} {holds holds' : ι → List ρ} {i j : ι} {r : ρ}

/-- Holders may forget what they have, and the order in which they have it. -/
theorem Isolated.drop (h : Isolated live holds) (hsub : ∀ i, (holds' i).Subperm (holds i)) :
    Isolated live holds' where
  live i r hr := h.live i r ((hsub i).subset hr)
  nodup i := by
    obtain ⟨l, hperm, hl⟩ := hsub i
    exact hperm.nodup_iff.mp ((h.nodup i).sublist hl)
  apart i j r hi hj := h.apart i j r ((hsub i).subset hi) ((hsub j).subset hj)

/-- A name that nobody uses is held by nobody. -/
theorem Isolated.not_mem (h : Isolated live holds) (hr : live r = none) (j : ι) : r ∉ holds j :=
  fun hc => h.live j r hc hr

section Rules

variable [DecidableEq ι] [DecidableEq ρ]

omit [DecidableEq ι] in
/-- A name is taken into use, and nobody holds it. -/
theorem Isolated.leak (h : Isolated live holds) (k : κ) :
    Isolated (Function.update live r (some k)) holds where
  live j x hx := by
    by_cases hxr : x = r
    · rw [hxr, Function.update_self]
      exact Option.some_ne_none k
    · rw [Function.update_of_ne hxr]
      exact h.live j x hx
  nodup := h.nodup
  apart := h.apart

/-- A name is taken into use by a holder. -/
theorem Isolated.acquire (h : Isolated live holds) (hr : live r = none) (i : ι) (k : κ) :
    Isolated (Function.update live r (some k)) (Function.update holds i (r :: holds i)) := by
  -- in the new lists a name is the new one, or an old one with its old holder
  have hmem : ∀ j x, x ∈ Function.update holds i (r :: holds i) j → (x = r ∧ j = i) ∨ x ∈ holds j := by
    intro j x hx
    by_cases hji : j = i
    · rw [hji, Function.update_self] at hx
      rcases List.mem_cons.mp hx with hx | hx
      · exact .inl ⟨hx, hji⟩
      · exact .inr (hji ▸ hx)
    · rw [Function.update_of_ne hji] at hx
      exact .inr hx
  constructor
  · intro j x hx
    by_cases hxr : x = r
    · rw [hxr, Function.update_self]
      exact Option.some_ne_none k
    · rw [Function.update_of_ne hxr]
      exact h.live j x ((hmem j x hx).resolve_left fun hc => hxr hc.1)
  · intro j
    by_cases hji : j = i
    · rw [hji, Function.update_self]
      exact List.nodup_cons.mpr ⟨h.not_mem hr i, h.nodup i⟩
    · rw [Function.update_of_ne hji]
      exact h.nodup j
  · intro j j' x hx hx'
    rcases hmem j x hx with ⟨rfl, rfl⟩ | hold
    · rcases hmem j' x hx' with ⟨-, rfl⟩ | hold'
      · rfl
      · exact absurd hold' (h.not_mem hr j')
    · rcases hmem j' x hx' with ⟨rfl, -⟩ | hold'
      · exact absurd hold (h.not_mem hr j)
      · exact h.apart j j' x hold hold'

/-- A holder gives a name back. -/
theorem Isolated.release (h : Isolated live holds) (hr : r ∈ holds i) :
    Isolated (Function.update live r none) (Function.update holds i ((holds i).erase r)) := by
  have hdropped : Isolated live (Function.update holds i ((holds i).erase r)) := by
    refine h.drop fun j => ?_
    by_cases hji : j = i
    · rw [hji, Function.update_self]
      exact (List.erase_sublist ..).subperm
    · rw [Function.update_of_ne hji]
  refine ⟨fun j x hx => ?_, hdropped.nodup, hdropped.apart⟩
  have hxr : x ≠ r := by
    rintro rfl
    by_cases hji : j = i
    · rw [hji, Function.update_self] at hx
      exact (h.nodup i).not_mem_erase hx
    · rw [Function.update_of_ne hji] at hx
      exact hji (h.apart j i x hx hr)
  rw [Function.update_of_ne hxr]
  exact hdropped.live j x hx

/-- A holder hands a name over. -/
theorem Isolated.transfer (h : Isolated live holds) (hr : r ∈ holds i) (hij : i ≠ j) :
    Isolated live
      (Function.update (Function.update holds i ((holds i).erase r)) j (r :: holds j)) := by
  obtain ⟨k, hk⟩ := Option.ne_none_iff_exists'.mp (h.live i r hr)
  -- given back and taken again by the other
  have hgiven := (h.release hr).acquire (Function.update_self r none live) j k
  rw [Function.update_idem, ← hk, Function.update_eq_self, Function.update_of_ne hij.symm] at hgiven
  exact hgiven

end Rules

end Pixie.Ownership
