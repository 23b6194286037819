/-
  Recognising a keyword one letter at a time.

  A machine that reads a text letter by letter, and has to know at its end whether the text was a
  keyword, spelled in any case and with padding behind it, stands in one of three ways to the keyword:

    * `Partly` — it has read a proper beginning of the keyword;
    * `Spells` — it has read the keyword, and maybe padding;
    * `Dead` — whatever it reads from here on, the text will not be the keyword.

  Each of the four moves that are possible has its lemma: `Partly.next`, `Partly.dead`, `Spells.padded`,
  `Spells.dead`; and a dead keyword stays dead (`Dead.append`).
-/
import Mathlib.Data.List.DropRight

namespace Pixie.Words

variable {α β : Type}

/-- A keyword over the letters `β`: what each symbol of a text counts as, and the symbol that may be
    put behind it, which is none of its letters. -/
structure Keyword (α β : Type) where
  fold : α → β
  pad : α
  word : List β
  pad_not_mem : fold pad ∉ word

/-- The beginnings of a list that are one longer. -/
theorem prefix_snoc {w word : List β} {c : β} :
    w ++ [c] <+: word ↔ w <+: word ∧ word[w.length]? = some c := by
  constructor
  · rintro ⟨rest, rfl⟩
    exact ⟨⟨c :: rest, by simp⟩, by simp⟩
  · rintro ⟨⟨rest, rfl⟩, hc⟩
    rw [List.getElem?_append_right le_rfl, Nat.sub_self] at hc
    cases rest with
    | nil => cases hc
    | cons d rest =>
      cases hc
      exact ⟨rest, by simp⟩

namespace Keyword

variable [DecidableEq α] {K : Keyword α β} {v : List α} {c : α}

/-- The text is the keyword, with padding behind it. -/
def Spells (K : Keyword α β) (v : List α) : Prop := (v.rdropWhile (· == K.pad)).map K.fold = K.word

instance [DecidableEq β] (K : Keyword α β) (v : List α) : Decidable (K.Spells v) :=
  inferInstanceAs (Decidable (_ = _))

/-- The text so far is a proper beginning of the keyword. -/
def Partly (K : Keyword α β) (v : List α) : Prop :=
  v.map K.fold <+: K.word ∧ v.length < K.word.length

/-- The text so far cannot become the keyword. -/
def Dead (K : Keyword α β) (v : List α) : Prop := ∀ more, ¬ K.Spells (v ++ more)

theorem spells_iff :
    K.Spells v ↔ ∃ u k, v = u ++ List.replicate k K.pad ∧ u.map K.fold = K.word := by
  constructor
  · intro h
    refine ⟨_, (v.rtakeWhile (· == K.pad)).length, ?_, h⟩
    have hall : v.rtakeWhile (· == K.pad) = List.replicate _ K.pad :=
      List.eq_replicate_of_mem fun c hc => by simpa using List.mem_rtakeWhile_imp hc
    rw [← hall]
    exact (List.rdropWhile_append_rtakeWhile ..).symm
  · rintro ⟨u, k, rfl, hu⟩
    have hlast : u.rdropWhile (· == K.pad) = u := by
      refine List.rdropWhile_eq_self_iff.mpr fun hne => ?_
      rw [beq_iff_eq]
      intro hpad
      refine K.pad_not_mem ?_
      rw [← hu, ← hpad]
      exact List.mem_map_of_mem (List.getLast_mem hne)
    unfold Spells
    induction k with
    | zero =>
      rw [List.replicate_zero, List.append_nil, hlast]
      exact hu
    | succ k ih =>
      have hpad : (K.pad == K.pad) = true := beq_self_eq_true _
      rw [List.replicate_succ', ← List.append_assoc,
        List.rdropWhile_concat_pos (· == K.pad) _ K.pad hpad]
      exact ih

/-- The keyword takes so many symbols at least. -/
theorem Spells.length (h : K.Spells v) : K.word.length ≤ v.length := by
  obtain ⟨u, k, rfl, hu⟩ := spells_iff.mp h
  rw [← hu, List.length_map, List.length_append]
  omega

theorem Partly.not_spells (h : K.Partly v) : ¬ K.Spells v := fun hspells =>
  absurd hspells.length (Nat.not_le.mpr h.2)

theorem Dead.not_spells (h : K.Dead v) : ¬ K.Spells v := by
  have hnil := h []
  rwa [List.append_nil] at hnil

theorem Dead.append (h : K.Dead v) (more : List α) : K.Dead (v ++ more) := by
  intro rest
  rw [List.append_assoc]
  exact h _

/-- A text that is no longer than the keyword, and not the beginning of it. -/
theorem dead_of_not_prefix (hlength : v.length ≤ K.word.length) (h : ¬ v.map K.fold <+: K.word) :
    K.Dead v := by
  intro more hspells
  obtain ⟨u, k, heq, hu⟩ := spells_iff.mp hspells
  refine h ?_
  have hprefix : v <+: u := by
    have hword : u.length = K.word.length := by rw [← hu, List.length_map]
    exact List.prefix_of_prefix_length_le ⟨more, heq⟩ ⟨_, rfl⟩ (hword ▸ hlength)
  rw [← hu]
  exact hprefix.map K.fold

/-- The next letter of the keyword. -/
theorem Partly.next (h : K.Partly v) (hc : K.word[v.length]? = some (K.fold c)) :
    v.length + 1 < K.word.length ∧ K.Partly (v ++ [c]) ∨
      v.length + 1 = K.word.length ∧ K.Spells (v ++ [c]) := by
  have hprefix : (v ++ [c]).map K.fold <+: K.word := by
    rw [List.map_append]
    exact prefix_snoc.mpr ⟨h.1, by rwa [List.length_map]⟩
  have hlength : (v ++ [c]).length = v.length + 1 := List.length_append
  rcases Nat.lt_or_ge (v.length + 1) K.word.length with hlt | hge
  · exact .inl ⟨hlt, hprefix, by rwa [hlength]⟩
  · refine .inr ⟨le_antisymm h.2 hge, spells_iff.mpr ⟨v ++ [c], 0, (List.append_nil _).symm, ?_⟩⟩
    refine hprefix.eq_of_length_le ?_
    rwa [List.length_map, hlength]

/-- Another letter. -/
theorem Partly.dead (h : K.Partly v) (hc : K.word[v.length]? ≠ some (K.fold c)) :
    K.Dead (v ++ [c]) := by
  refine dead_of_not_prefix ?_ fun hprefix => hc ?_
  · rw [List.length_append]
    exact h.2
  · rw [List.map_append] at hprefix
    have hlast := (prefix_snoc.mp hprefix).2
    rwa [List.length_map] at hlast

theorem Spells.padded (h : K.Spells v) : K.Spells (v ++ [K.pad]) := by
  obtain ⟨u, k, rfl, hu⟩ := spells_iff.mp h
  refine spells_iff.mpr ⟨u, k + 1, ?_, hu⟩
  rw [List.replicate_succ', List.append_assoc]

/-- Behind the keyword only padding may stand. -/
theorem Spells.dead (h : K.Spells v) (hc : c ≠ K.pad) : K.Dead (v ++ [c]) := by
  intro more hspells
  obtain ⟨u, k, rfl, hu⟩ := spells_iff.mp h
  obtain ⟨u', k', heq, hu'⟩ := spells_iff.mp hspells
  have hlength : u.length = u'.length := by
    rw [← List.length_map K.fold, hu, ← hu', List.length_map]
  rw [List.append_assoc, List.append_assoc] at heq
  have hrest := (List.append_inj heq hlength).2
  have hmem : c ∈ List.replicate k' K.pad := by
    rw [← hrest]
    simp
  exact hc (List.eq_of_mem_replicate hmem)

end Keyword

end Pixie.Words
