/-
  A block of cells and the log of what was stored into it.

  A cell is `none` until something has been stored there.  A store puts a list of values at an
  offset (`put`); the log is the list of stores so far, and `latest log i` is the value most recently
  stored at offset `i`, read off the log alone.  `Agrees` says that a block holds exactly what its
  log says, and `Agrees.put` that this is kept by every store that fits.

  A copy of cells from one block to another is checked: `fetch` and `copyTo` are `none` where they
  would leave a block.
-/
import Mathlib.Data.List.Basic

namespace Pixie.Cells

variable {α : Type}

/-- The block after `vs` has been stored from offset `off` on. -/
def put (cells : List (Option α)) (off : Nat) (vs : List α) : List (Option α) :=
  cells.take off ++ vs.map some ++ cells.drop (off + vs.length)

/-- What one store leaves at an offset that held `old`. -/
def overlay (old : Option α) (i : Nat) (s : Nat × List α) : Option α :=
  if s.1 ≤ i ∧ i < s.1 + s.2.length then s.2[i - s.1]? else old

/-- The value most recently stored at offset `i`. -/
def latest (log : List (Nat × List α)) (i : Nat) : Option α :=
  log.foldl (fun old s => overlay old i s) none

@[simp] theorem latest_nil (i : Nat) : latest ([] : List (Nat × List α)) i = none := rfl

@[simp] theorem latest_snoc (log : List (Nat × List α)) (s : Nat × List α) (i : Nat) :
    latest (log ++ [s]) i = overlay (latest log i) i s := by
  rw [latest, List.foldl_append]
  rfl

theorem overlay_inside {old : Option α} {off i : Nat} {vs : List α} (h : i < vs.length) :
    overlay old (off + i) (off, vs) = vs[i]? := by
  rw [overlay, if_pos ⟨Nat.le_add_right _ _, Nat.add_lt_add_left h _⟩, Nat.add_sub_cancel_left]

theorem overlay_outside {old : Option α} {off i : Nat} {vs : List α}
    (h : i < off ∨ off + vs.length ≤ i) : overlay old i (off, vs) = old := by
  refine if_neg ?_
  show ¬ (off ≤ i ∧ i < off + vs.length)
  omega

/-- A store leaves no cell empty that was not. -/
theorem overlay_ne_none {old : Option α} {i : Nat} {s : Nat × List α} (h : old ≠ none) :
    overlay old i s ≠ none := by
  unfold overlay
  split
  · rename_i hin
    have hlt : i - s.1 < s.2.length := by omega
    rw [List.getElem?_eq_getElem hlt]
    exact Option.some_ne_none _
  · exact h

/-- The block holds what the log says. -/
def Agrees (cells : List (Option α)) (log : List (Nat × List α)) : Prop :=
  ∀ i < cells.length, cells[i]? = some (latest log i)

/-- A block into which nothing has been stored. -/
theorem agrees_replicate (n : Nat) : Agrees (List.replicate n (none : Option α)) [] := by
  intro i hi
  rw [List.length_replicate] at hi
  rw [List.getElem?_replicate, if_pos hi, latest_nil]

theorem length_put {cells : List (Option α)} {off : Nat} {vs : List α}
    (h : off + vs.length ≤ cells.length) : (put cells off vs).length = cells.length := by
  simp only [put, List.length_append, List.length_take, List.length_map, List.length_drop]
  omega

/-- **A store that fits** keeps the block and its log together. -/
theorem Agrees.put {cells : List (Option α)} {log : List (Nat × List α)} {off : Nat} {vs : List α}
    (h : Agrees cells log) (hfit : off + vs.length ≤ cells.length) :
    Agrees (put cells off vs) (log ++ [(off, vs)]) := by
  intro i hi
  rw [length_put hfit] at hi
  have htake : (cells.take off).length = off := by
    rw [List.length_take]
    omega
  rw [latest_snoc, Cells.put, List.append_assoc]
  -- below the store, in it, and above it
  rcases Nat.lt_or_ge i off with hlow | hlow
  · rw [List.getElem?_append_left (by omega), List.getElem?_take_of_lt hlow, h i hi,
      overlay_outside (Or.inl hlow)]
  · obtain ⟨j, rfl⟩ := Nat.exists_eq_add_of_le hlow
    rw [List.getElem?_append_right (by omega), htake, Nat.add_sub_cancel_left]
    rcases Nat.lt_or_ge j vs.length with hin | hout
    · rw [overlay_inside hin, List.getElem?_append_left (by rw [List.length_map]; exact hin),
        List.getElem?_map, List.getElem?_eq_getElem hin]
      rfl
    · rw [overlay_outside (Or.inr (by omega)),
        List.getElem?_append_right (by rw [List.length_map]; exact hout), List.length_map,
        List.getElem?_drop, ← h (off + j) hi]
      congr 1
      omega

/-! ## Checked copies -/

/-- The first `n` cells. -/
def fetch (cells : List (Option α)) (n : Nat) : Option (List (Option α)) :=
  if n ≤ cells.length then some (cells.take n) else none

/-- The block after the cells `vs` have been copied to offset `off`. -/
def copyTo (cells : List (Option α)) (off : Int) (vs : List (Option α)) :
    Option (List (Option α)) :=
  if 0 ≤ off ∧ off + vs.length ≤ cells.length then
    some (cells.take off.toNat ++ vs ++ cells.drop (off.toNat + vs.length))
  else none

/-- **A copy that fits** keeps the length of the block and the cells below it, and is there above
    them. -/
theorem copyTo_append (cells us vs : List (Option α)) (hbelow : cells.take us.length = us)
    (hfit : us.length + vs.length ≤ cells.length) :
    ∃ cells', copyTo cells us.length vs = some cells' ∧ cells'.length = cells.length ∧
      cells'.take (us.length + vs.length) = us ++ vs := by
  have hin : (0 : Int) ≤ us.length ∧ (us.length : Int) + vs.length ≤ cells.length := by omega
  refine ⟨us ++ vs ++ cells.drop (us.length + vs.length), ?_, ?_, ?_⟩
  · rw [copyTo, if_pos hin, Int.toNat_natCast, hbelow]
  · simp only [List.length_append, List.length_drop]
    omega
  · rw [← List.length_append, List.take_left]

end Pixie.Cells
