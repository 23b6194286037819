/-
  Patches of a finite set.

  `patch a s t` is the set `s` with the entry of `a` as it is in `t`.  It is what a step does that looks
  at, and changes, one entry of a set only; steps with different entries commute (`patch_comm`).
-/
import Mathlib.Data.Finset.Basic

namespace Pixie.Patch

variable {α : Type} [DecidableEq α]

def patch (a : α) (s t : Finset α) : Finset α := if a ∈ t then insert a s else s.erase a

theorem mem_patch {a b : α} {s t : Finset α} : b ∈ patch a s t ↔ if b = a then b ∈ t else b ∈ s := by
  unfold patch
  by_cases hb : b = a
  · subst hb
    by_cases ht : b ∈ t
    · simp [ht]
    · simp [ht]
  · by_cases ht : a ∈ t
    · simp [ht, hb]
    · simp [ht, hb]

/-- **Patches at different places commute.** -/
theorem patch_comm {a b : α} (hne : a ≠ b) (s t u : Finset α) :
    patch b (patch a s t) u = patch a (patch b s u) t := by
  ext c
  simp only [mem_patch]
  by_cases hc : c = a
  · subst hc
    simp [hne]
  · simp [hc]

/-- A patch with the same entry changes nothing. -/
theorem patch_of_iff {a : α} {s t : Finset α} (h : a ∈ s ↔ a ∈ t) : patch a s t = s := by
  ext b
  rw [mem_patch]
  by_cases hb : b = a
  · subst hb
    simp [h]
  · simp [hb]

theorem patch_insert {a : α} {s t : Finset α} : patch a s (insert a t) = insert a s :=
  if_pos (Finset.mem_insert_self a t)

theorem patch_erase {a : α} {s t : Finset α} : patch a s (t.erase a) = s.erase a :=
  if_neg (Finset.notMem_erase a t)

end Pixie.Patch
