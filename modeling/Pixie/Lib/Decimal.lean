/-
  Decimal numerals over byte strings, at the width of a C `int`.

  `to_string` and `stoi` are the two conversions of the C++ standard library that a text protocol
  leans on: `std::to_string(int)` writes the shortest decimal spelling, `std::stoi` reads one the
  way `strtol` does in the C locale — blanks first, then one optional sign, then as many digits
  as there are, the rest ignored.  Both are executable, and a 32-bit `int` is Lean's `Int32`.

  1. **Writing** — `digits n` is `Nat.toDigits 10 n` as bytes; `to_string` puts a `-` in front of a
     negative number.  `mem_to_string` says which bytes can occur at all (a digit or the sign), so
     a caller knows that a numeral never contains a separator.

  2. **Reading** — `stoi` is `none` where `std::stoi` throws: `invalid_argument` when no digit is
     there, `out_of_range` when the value does not fit an `int`.

  3. **The two laws** — `stoi_to_string`: reading back what was written gives the number, for every
     `int`; `length_to_string_le`: what was written is a SHORTEST spelling, so any other text that
     reads as the same number is at least as long.
-/
import Mathlib.Data.List.Induction
import Mathlib.Data.List.TakeWhile
import Mathlib.Tactic.IntervalCases

namespace Pixie.Decimal

/-! ## Bytes, ASCII literals, and `int` as a size -/

/-- A counted byte string (`std::string`, or a buffer together with its length). -/
abbrev Bytes := List UInt8

/-- The bytes of an ASCII literal. -/
def ascii (s : String) : Bytes := s.toList.map fun c => c.toNat.toUInt8

/-- The conversion of an `int` to `size_t`. -/
def sizeOfInt (n : Int32) : Nat := (n.toInt % 2 ^ 64).toNat

theorem sizeOfInt_of_nonneg {n : Int32} (h : 0 ≤ n.toInt) : (sizeOfInt n : Int) = n.toInt := by
  have := Int32.toInt_lt n
  unfold sizeOfInt
  omega

/-- `isspace` in the C locale: the blank and `\t \n \v \f \r`. -/
def isspace (c : UInt8) : Bool := c == 32 || (9 ≤ c && c ≤ 13)

/-- `isdigit`: `0` to `9`. -/
def isdigit (c : UInt8) : Bool := 48 ≤ c && c ≤ 57

theorem isdigit_iff {c : UInt8} : isdigit c = true ↔ 48 ≤ c.toNat ∧ c.toNat ≤ 57 := by
  simp [isdigit, UInt8.le_iff_toNat_le]

theorem not_isspace_of_isdigit {c : UInt8} (h : isdigit c = true) : isspace c = false := by
  rw [isdigit_iff] at h
  have hne : c ≠ 32 := by rintro rfl; simp at h
  simp only [isspace, UInt8.le_iff_toNat_le]
  simp [hne]
  omega

/-! ## Unsigned numerals -/

/-- The byte of one decimal digit. -/
def digitByte (d : Nat) : UInt8 := (Nat.digitChar d).toNat.toUInt8

/-- The decimal digits of `n`, most significant first. -/
def digits (n : Nat) : Bytes := (Nat.toDigits 10 n).map fun c => c.toNat.toUInt8

/-- The number a string of digits stands for. -/
def value (ds : Bytes) : Nat := ds.foldl (fun v c => 10 * v + (c.toNat - 48)) 0

theorem toNat_digitByte {d : Nat} (h : d < 10) : (digitByte d).toNat = 48 + d := by
  interval_cases d <;> rfl

theorem digits_eq_if (n : Nat) :
    digits n = if n < 10 then [digitByte n] else digits (n / 10) ++ [digitByte (n % 10)] := by
  unfold digits
  rw [Nat.toDigits_eq_if (by omega : 1 < 10)]
  split <;> simp [digitByte]

theorem digits_ne_nil (n : Nat) : digits n ≠ [] := by
  simp [digits]

theorem isdigit_of_mem_digits (n : Nat) : ∀ c ∈ digits n, isdigit c = true := by
  induction n using Nat.strong_induction_on with
  | _ n ih =>
    intro c hc
    rw [digits_eq_if] at hc
    have hlast : n % 10 < 10 := Nat.mod_lt _ (by omega)
    split at hc
    · rename_i hn
      rw [List.mem_singleton] at hc
      rw [hc, isdigit_iff, toNat_digitByte hn]
      omega
    · rcases List.mem_append.mp hc with hc | hc
      · exact ih (n / 10) (by omega) c hc
      · rw [List.mem_singleton] at hc
        rw [hc, isdigit_iff, toNat_digitByte hlast]
        omega

theorem value_append_singleton (ds : Bytes) (c : UInt8) :
    value (ds ++ [c]) = 10 * value ds + (c.toNat - 48) := by
  simp [value, List.foldl_append]

/-- Reading the digits of `n` gives `n` back. -/
theorem value_digits (n : Nat) : value (digits n) = n := by
  induction n using Nat.strong_induction_on with
  | _ n ih =>
    rw [digits_eq_if]
    split
    · rename_i hn
      show 10 * 0 + ((digitByte n).toNat - 48) = n
      rw [toNat_digitByte hn]; omega
    · rw [value_append_singleton, ih (n / 10) (by omega),
        toNat_digitByte (Nat.mod_lt _ (by omega))]
      omega

/-- `k` digits stand for a number below `10 ^ k`. -/
theorem value_lt (ds : Bytes) (h : ∀ c ∈ ds, isdigit c = true) : value ds < 10 ^ ds.length := by
  induction ds using List.reverseRecOn with
  | nil => simp [value]
  | append_singleton ds c ih =>
    have hc := isdigit_iff.mp (h c (by simp))
    have hds := ih fun x hx => h x (by simp [hx])
    rw [value_append_singleton, List.length_append, List.length_singleton, Nat.pow_succ]
    omega

/-- No spelling of a number is shorter than its `digits`. -/
theorem length_digits_value_le (ds : Bytes) (hne : ds ≠ []) (h : ∀ c ∈ ds, isdigit c = true) :
    (digits (value ds)).length ≤ ds.length := by
  have hpos : 0 < ds.length := List.length_pos_iff.mpr hne
  unfold digits
  rw [List.length_map, Nat.length_toDigits_le_iff (by omega) hpos]
  exact value_lt ds h

/-! ## `std::to_string(int)` -/

/-- `std::to_string(int)`. -/
def to_string (n : Int32) : Bytes :=
  if n.toInt < 0 then 45 :: digits n.toInt.natAbs else digits n.toInt.natAbs

/-- A numeral is made of digits and at most a leading `-`. -/
theorem mem_to_string {n : Int32} {c : UInt8} (h : c ∈ to_string n) : c = 45 ∨ isdigit c = true := by
  unfold to_string at h
  split at h
  · rcases List.mem_cons.mp h with h | h
    · exact Or.inl h
    · exact Or.inr (isdigit_of_mem_digits _ c h)
  · exact Or.inr (isdigit_of_mem_digits _ c h)

/-- A byte that is neither a digit nor `-` does not occur in a numeral. -/
theorem not_mem_to_string {n : Int32} {c : UInt8} (hs : c ≠ 45) (hd : isdigit c = false) :
    c ∉ to_string n := by
  intro h
  rcases mem_to_string h with h | h
  · exact hs h
  · rw [hd] at h; cases h

/-! ## `std::stoi` -/

/-- The optional sign: whether it is `-`, and what follows it. -/
def sign : Bytes → Bool × Bytes
  | [] => (false, [])
  | c :: s => if c = 45 then (true, s) else if c = 43 then (false, s) else (false, c :: s)

/-- The integer a signed digit string stands for. -/
def signed (neg : Bool) (ds : Bytes) : Int := if neg then -(value ds : Int) else value ds

/-- `std::stoi(s)`; `none` where it throws (`invalid_argument` when there is no digit,
    `out_of_range` when the value does not fit an `int`). -/
def stoi (s : Bytes) : Option Int32 :=
  let (neg, t) := sign (s.dropWhile isspace)
  let ds := t.takeWhile isdigit
  if ds = [] then none
  else if -2 ^ 31 ≤ signed neg ds ∧ signed neg ds < 2 ^ 31 then some (Int32.ofInt (signed neg ds))
  else none

/-- What a successful `stoi` has read: blanks, a sign, a non-empty run of digits, and a rest that
    it ignored. -/
theorem stoi_eq_some {s : Bytes} {n : Int32} (h : stoi s = some n) :
    ∃ neg t, sign (s.dropWhile isspace) = (neg, t) ∧ t.takeWhile isdigit ≠ [] ∧
      signed neg (t.takeWhile isdigit) = n.toInt := by
  rcases hs : sign (s.dropWhile isspace) with ⟨neg, t⟩
  simp only [stoi, hs] at h
  refine ⟨neg, t, rfl, ?_⟩
  split at h
  · cases h
  · rename_i hne
    split at h
    · rename_i hrange
      obtain rfl := Option.some.inj h
      exact ⟨hne, (Int32.toInt_ofInt_of_le hrange.1 hrange.2).symm⟩
    · cases h

theorem takeWhile_isdigit_digits (n : Nat) : (digits n).takeWhile isdigit = digits n :=
  List.takeWhile_eq_self_iff.mpr (isdigit_of_mem_digits n)

/-- Digits start with neither a blank nor a sign. -/
theorem sign_digits {ds : Bytes} (hne : ds ≠ []) (hall : ∀ c ∈ ds, isdigit c = true) :
    sign (ds.dropWhile isspace) = (false, ds) := by
  rcases ds with _ | ⟨c, ds⟩
  · exact absurd rfl hne
  · have hc : isdigit c = true := hall c (by simp)
    have hv := isdigit_iff.mp hc
    have h45 : c ≠ 45 := by rintro rfl; simp at hv
    have h43 : c ≠ 43 := by rintro rfl; simp at hv
    rw [List.dropWhile_cons_of_neg (by rw [not_isspace_of_isdigit hc]; decide)]
    show (if c = 45 then _ else if c = 43 then _ else _) = _
    rw [if_neg h45, if_neg h43]

/-- Numerals carry no leading blank, and their sign is read off as it was written. -/
theorem sign_to_string (n : Int32) :
    sign ((to_string n).dropWhile isspace) = (decide (n.toInt < 0), digits n.toInt.natAbs) := by
  unfold to_string
  split
  · rename_i hneg
    rw [List.dropWhile_cons_of_neg (by decide), decide_eq_true hneg]
    rfl
  · rename_i hpos
    rw [decide_eq_false hpos]
    exact sign_digits (digits_ne_nil _) (isdigit_of_mem_digits _)

/-- What `stoi` makes of digits alone is the number they stand for. -/
theorem toInt_of_stoi_digits {ds : Bytes} {n : Int32} (hall : ∀ c ∈ ds, isdigit c = true)
    (h : stoi ds = some n) : ds ≠ [] ∧ n.toInt = value ds := by
  have hne : ds ≠ [] := by
    rintro rfl
    cases h
  obtain ⟨neg, t, hsign, -, hval⟩ := stoi_eq_some h
  rw [sign_digits hne hall] at hsign
  obtain ⟨rfl, rfl⟩ := Prod.mk.inj hsign
  rw [List.takeWhile_eq_self_iff.mpr hall] at hval
  exact ⟨hne, hval.symm⟩

/-- **Round trip**: `std::stoi(std::to_string(n)) == n` for every `int`. -/
theorem stoi_to_string (n : Int32) : stoi (to_string n) = some n := by
  have hval : signed (decide (n.toInt < 0)) (digits n.toInt.natAbs) = n.toInt := by
    simp only [signed, value_digits, decide_eq_true_eq]
    split <;> omega
  have hlo := Int32.le_toInt n
  have hhi := Int32.toInt_lt n
  simp only [stoi, sign_to_string, takeWhile_isdigit_digits, hval]
  rw [if_neg (digits_ne_nil _), if_pos ⟨hlo, hhi⟩, Int32.ofInt_toInt]

/-- **Shortest spelling**: whatever text reads as `n` is at least as long as `to_string n`. -/
theorem length_to_string_le {s : Bytes} {n : Int32} (h : stoi s = some n) :
    (to_string n).length ≤ s.length := by
  obtain ⟨neg, t, hsign, hne, hval⟩ := stoi_eq_some h
  have hblank : (s.dropWhile isspace).length ≤ s.length := List.length_dropWhile_le _ _
  have htake : (t.takeWhile isdigit).length ≤ t.length :=
    (List.takeWhile_sublist _).length_le
  have hdig := length_digits_value_le (t.takeWhile isdigit) hne
    fun c hc => List.mem_takeWhile_imp hc
  -- a sign that was read costs one byte of the text
  have hlen : t.length + (if neg then 1 else 0) ≤ (s.dropWhile isspace).length := by
    rcases hd : s.dropWhile isspace with _ | ⟨c, u⟩
    · rw [hd] at hsign; cases hsign; simp
    · rw [hd] at hsign
      simp only [sign] at hsign
      split at hsign
      · cases hsign; simp
      · split at hsign <;> · cases hsign; simp
  unfold to_string
  cases neg with
  | true =>
    have hv : n.toInt = -(value (t.takeWhile isdigit) : Int) := hval.symm
    have habs : n.toInt.natAbs = value (t.takeWhile isdigit) := by omega
    rw [habs]
    simp only [if_true] at hlen
    split
    · rw [List.length_cons]; omega
    · omega
  | false =>
    have hv : n.toInt = (value (t.takeWhile isdigit) : Int) := hval.symm
    have habs : n.toInt.natAbs = value (t.takeWhile isdigit) := by omega
    rw [if_neg (by omega), habs]
    simp only [Bool.false_eq_true, if_false] at hlen
    omega

example : stoi (ascii " \t+0080xyz") = some 80 := by decide

end Pixie.Decimal
