/-
  What a header line does to the machine.

  `heed name value` says what a header line means to the parser, with whole words: `connection` and
  `proxy-connection` set a flag for `keep-alive` or `close`, `transfer-encoding` for `chunked`,
  `upgrade` for any value, and the value of `content-length` is a decimal number, in which blanks do
  not count.  Names and words count in any case, the blanks before a value and behind a word do not.

    * `valueChar_heard` — the words of a value, letter by letter as the names;
    * `length_runs`, `length_refused` — the number: `lengthChar` is one character of it, and the check
      that the code makes before it multiplies is the bound on the number (`readLength_eq`);
    * `fieldLine_runs`, `fieldLine_refused` — **a whole line** is read to its end as `heed` has it,
      its name and value are reported, or it is refused.
-/
import Pixie.Engine.Names
import Pixie.Lib.Crlf

namespace Pixie.Engine

open Pixie.Decimal Pixie.Words Pixie.Http Pixie.Crlf

variable {p q : HttpParser} {ks : List (Keyword UInt8 UInt8)} {k : Keyword UInt8 UInt8} {v : Bytes}
  {i n : Nat} {h : HeaderStates} {ch : UInt8} {d : Bytes}

/-! ## What a line means -/

/-- The number of a `Content-Length`: blanks do not count, and the last numbers below 2^64 are refused
    with the larger ones. -/
def readLength (v : Bytes) : Option Nat :=
  if (v.all fun c => isNum c || c == byte ' ') ∧ value (v.filter isNum) ≤ 2 ^ 64 - 7 then
    some (value (v.filter isNum))
  else none

/-- What a header line means to the parser; `none` is an error. -/
def HttpParser.heed (p : HttpParser) (name value : Bytes) : Option HttpParser :=
  let v := value.dropWhile isBlank
  if v = [] then some p
  else match fieldKind name with
  | .connection =>
    some (if keepAliveValue.Spells v then { p with flags := { p.flags with connectionKeepAlive := true } }
      else if closeValue.Spells v then { p with flags := { p.flags with connectionClose := true } }
      else p)
  | .transferEncoding =>
    some (if chunkedValue.Spells v then { p with flags := { p.flags with chunked := true } } else p)
  | .contentLength => (readLength v).map fun n => { p with contentLength := n }
  | .upgrade => some { p with flags := { p.flags with upgrade := true } }
  | _ => some p

/-- A header line. -/
def fieldLine (name value : Bytes) : Bytes := name ++ byte ':' :: (value ++ crlf)

/-! ## Words in values -/

/-- The words that are looked out for in the value of a header. -/
def valueWords : HeaderStates → List (Keyword UInt8 UInt8)
  | .connection => [keepAliveValue, closeValue]
  | .transferEncoding => [chunkedValue]
  | _ => []

/-- What `header_state` and `index` say of a value so far. -/
def Heard (ks : List (Keyword UInt8 UInt8)) (v : Bytes) (i : Nat) : HeaderStates → Prop
  | .general => AllDead ks v
  | .matchingTransferEncodingChunked => Towards ks chunkedValue v i
  | .matchingConnectionKeepAlive => Towards ks keepAliveValue v i
  | .matchingConnectionClose => Towards ks closeValue v i
  | .transferEncodingChunked => Found ks chunkedValue v
  | .connectionKeepAlive => Found ks keepAliveValue v
  | .connectionClose => Found ks closeValue v
  | _ => False

/-- **One more character of a value.** -/
theorem valueChar_heard (hv : Heard ks v i h) (ch : UInt8) :
    ∃ i' h', valueChar (p.matched i h) ch = some (.ok (p.matched i' h')) ∧
      Heard ks (v ++ [ch]) i' h' := by
  have hmatching : ∀ (k : Keyword UInt8 UInt8) (found : HeaderStates), k.fold = lower →
      k.word.length < 256 → Towards ks k v i → (∀ v i, Towards ks k v i → Heard ks v i h) →
      (∀ v i, Found ks k v → Heard ks v i found) →
      ∃ i' h', (some (.ok (matching (p.matched i h) (lower ch) k.word found)) :
          Option (Except Errno HttpParser)) = some (.ok (p.matched i' h')) ∧
        Heard ks (v ++ [ch]) i' h' := by
    intro k found hfold hshort ht hthis hfound
    obtain ⟨h', heq, hcases⟩ := matching_among (p := p) (h := h) found ch ht hshort
    rw [hfold] at heq
    refine ⟨i + 1, h', congrArg (some ∘ Except.ok) heq, ?_⟩
    rcases hcases with ⟨rfl, ht'⟩ | ⟨rfl, hf⟩ | ⟨rfl, hdead⟩
    · exact hthis _ _ ht'
    · exact hfound _ _ hf
    · exact hdead
  have hbehind : ∀ k, k.pad = byte ' ' → Found ks k v → (∀ v i, Found ks k v → Heard ks v i h) →
      ∃ i' h', (some (.ok (if ch ≠ byte ' ' then (p.matched i h).expect .general else p.matched i h)) :
          Option (Except Errno HttpParser)) = some (.ok (p.matched i' h')) ∧
        Heard ks (v ++ [ch]) i' h' := by
    intro k hpad hf hthis
    split
    · rename_i hne
      exact ⟨i, .general, rfl, (hf.only.append _).allDead (hf.spells.dead (hpad ▸ hne))⟩
    · rename_i hblank
      refine ⟨i, h, rfl, hthis _ _ ⟨hf.mem, ?_, hf.only.append _⟩⟩
      rw [not_not.mp hblank, ← hpad]
      exact hf.spells.padded
  unfold valueChar
  rw [show (p.matched i h).headerState = h from rfl]
  cases h with
  | general => exact ⟨i, .general, rfl, AllDead.append hv _⟩
  | matchingTransferEncodingChunked =>
    exact hmatching chunkedValue _ rfl (by decide) hv (fun _ _ h => h) fun _ _ h => h
  | matchingConnectionKeepAlive =>
    exact hmatching keepAliveValue _ rfl (by decide) hv (fun _ _ h => h) fun _ _ h => h
  | matchingConnectionClose =>
    exact hmatching closeValue _ rfl (by decide) hv (fun _ _ h => h) fun _ _ h => h
  | transferEncodingChunked => exact hbehind chunkedValue rfl hv fun _ _ h => h
  | connectionKeepAlive => exact hbehind keepAliveValue rfl hv fun _ _ h => h
  | connectionClose => exact hbehind closeValue rfl hv fun _ _ h => h
  | _ => exact hv.elim

theorem Heard.found (hv : Heard ks v i h) (hk : k ∈ ks) (hspells : k.Spells v) :
    (h = .connectionKeepAlive ∧ k = keepAliveValue) ∨ (h = .connectionClose ∧ k = closeValue) ∨
      (h = .transferEncodingChunked ∧ k = chunkedValue) := by
  have htowards : ∀ {k'}, Towards ks k' v i → False := by
    intro k' ht
    rcases ht.only k hk with rfl | hdead
    · exact ht.begun.not_spells hspells
    · exact hdead.not_spells hspells
  have hfound : ∀ {k'}, Found ks k' v → k = k' := fun hf =>
    (hf.only k hk).resolve_right fun hdead => hdead.not_spells hspells
  cases h with
  | general => exact ((hv k hk).not_spells hspells).elim
  | matchingTransferEncodingChunked => exact (htowards hv).elim
  | matchingConnectionKeepAlive => exact (htowards hv).elim
  | matchingConnectionClose => exact (htowards hv).elim
  | transferEncodingChunked => exact .inr (.inr ⟨rfl, hfound hv⟩)
  | connectionKeepAlive => exact .inl ⟨rfl, hfound hv⟩
  | connectionClose => exact .inr (.inl ⟨rfl, hfound hv⟩)
  | _ => exact hv.elim

/-- The flags at the end of a header line. -/
def settle (h : HeaderStates) (f : Flags) : Flags :=
  match h with
  | .connectionKeepAlive => { f with connectionKeepAlive := true }
  | .connectionClose => { f with connectionClose := true }
  | .transferEncodingChunked => { f with chunked := true }
  | _ => f

/-- The value of a `Connection` line. -/
theorem settle_connection (hv : Heard (valueWords .connection) v i h) (f : Flags) :
    settle h f =
      if keepAliveValue.Spells v then { f with connectionKeepAlive := true }
      else if closeValue.Spells v then { f with connectionClose := true }
      else f := by
  have hwords : keepAliveValue ∈ valueWords .connection ∧ closeValue ∈ valueWords .connection :=
    ⟨List.mem_cons_self, List.mem_cons_of_mem _ List.mem_cons_self⟩
  have hne : keepAliveValue ≠ closeValue ∧ keepAliveValue ≠ chunkedValue ∧ closeValue ≠ chunkedValue :=
    ⟨fun hc => absurd (congrArg Keyword.word hc) (by decide),
      fun hc => absurd (congrArg Keyword.word hc) (by decide),
      fun hc => absurd (congrArg Keyword.word hc) (by decide)⟩
  by_cases hkeep : keepAliveValue.Spells v
  · rw [if_pos hkeep]
    rcases hv.found hwords.1 hkeep with ⟨rfl, -⟩ | ⟨-, hc⟩ | ⟨-, hc⟩
    · rfl
    · exact absurd hc hne.1
    · exact absurd hc hne.2.1
  rw [if_neg hkeep]
  by_cases hclose : closeValue.Spells v
  · rw [if_pos hclose]
    rcases hv.found hwords.2 hclose with ⟨-, hc⟩ | ⟨rfl, -⟩ | ⟨-, hc⟩
    · exact absurd hc.symm hne.1
    · rfl
    · exact absurd hc hne.2.2
  rw [if_neg hclose]
  cases h with
  | connectionKeepAlive => exact absurd hv.spells hkeep
  | connectionClose => exact absurd hv.spells hclose
  | transferEncodingChunked =>
    have hmem : chunkedValue = keepAliveValue ∨ chunkedValue = closeValue := by
      simpa [valueWords] using hv.mem
    rcases hmem with hc | hc
    · exact absurd hc.symm hne.2.1
    · exact absurd hc.symm hne.2.2
  | _ => rfl

/-- The value of a `Transfer-Encoding` line. -/
theorem settle_transferEncoding (hv : Heard (valueWords .transferEncoding) v i h) (f : Flags) :
    settle h f = if chunkedValue.Spells v then { f with chunked := true } else f := by
  have hword : chunkedValue ∈ valueWords .transferEncoding := List.mem_cons_self
  have honly : ∀ k ∈ valueWords .transferEncoding, k = chunkedValue := fun k hk =>
    List.mem_singleton.mp hk
  by_cases hchunked : chunkedValue.Spells v
  · rw [if_pos hchunked]
    rcases hv.found hword hchunked with ⟨-, hc⟩ | ⟨-, hc⟩ | ⟨rfl, -⟩
    · exact absurd (congrArg Keyword.word hc) (by decide)
    · exact absurd (congrArg Keyword.word hc) (by decide)
    · rfl
  rw [if_neg hchunked]
  cases h with
  | connectionKeepAlive => exact absurd (congrArg Keyword.word (honly _ hv.mem)) (by decide)
  | connectionClose => exact absurd (congrArg Keyword.word (honly _ hv.mem)) (by decide)
  | transferEncodingChunked => exact absurd hv.spells hchunked
  | _ => rfl

/-- The value of another line. -/
theorem settle_other (hv : Heard [] v i h) (f : Flags) : settle h f = f := by
  cases h with
  | connectionKeepAlive => exact (List.not_mem_nil hv.mem).elim
  | connectionClose => exact (List.not_mem_nil hv.mem).elim
  | transferEncodingChunked => exact (List.not_mem_nil hv.mem).elim
  | _ => rfl

/-! ## Lengths -/

/-- One character of a length. -/
def lengthChar (m : Nat) (c : UInt8) : Option Nat :=
  if c = byte ' ' then some m
  else if ¬ isNum c then none
  else if 10 * m + (c.toNat - 48) ≤ 2 ^ 64 - 7 then some (10 * m + (c.toNat - 48))
  else none

theorem le_foldl_value (ds : Bytes) (m : Nat) :
    m ≤ ds.foldl (fun v c => 10 * v + (c.toNat - 48)) m := by
  induction ds generalizing m with
  | nil => exact le_rfl
  | cons c ds ih =>
    have hrest := ih (10 * m + (c.toNat - 48))
    rw [List.foldl_cons]
    omega

/-- The characters of a length one by one, from a number on. -/
theorem foldlM_lengthChar (v : Bytes) (m : Nat) (hm : m ≤ 2 ^ 64 - 7) :
    v.foldlM lengthChar m =
      if (v.all fun c => isNum c || c == byte ' ') ∧
          (v.filter isNum).foldl (fun v c => 10 * v + (c.toNat - 48)) m ≤ 2 ^ 64 - 7 then
        some ((v.filter isNum).foldl (fun v c => 10 * v + (c.toNat - 48)) m)
      else none := by
  induction v generalizing m with
  | nil =>
    rw [if_pos ⟨rfl, hm⟩]
    rfl
  | cons c v ih =>
    rw [List.foldlM_cons, lengthChar, List.all_cons]
    by_cases hblank : c = byte ' '
    · subst hblank
      rw [if_pos rfl]
      show v.foldlM lengthChar m = _
      rw [ih m hm, List.filter_cons_of_neg (by decide)]
      rfl
    rw [if_neg hblank]
    by_cases hnum : isNum c = true
    · rw [if_neg (not_not.mpr hnum), List.filter_cons_of_pos hnum, List.foldl_cons, hnum, Bool.true_or,
        Bool.true_and]
      by_cases hfits : 10 * m + (c.toNat - 48) ≤ 2 ^ 64 - 7
      · rw [if_pos hfits]
        exact ih _ hfits
      · have hlarge := le_foldl_value (v.filter isNum) (10 * m + (c.toNat - 48))
        rw [if_neg hfits, if_neg fun hc => hfits (hlarge.trans hc.2)]
        rfl
    · rw [if_pos hnum, if_neg]
      · rfl
      · rintro ⟨hall, -⟩
        rw [Bool.eq_false_iff.mpr hnum, beq_eq_false_iff_ne.mpr hblank] at hall
        cases hall

theorem readLength_eq (v : Bytes) : v.foldlM lengthChar 0 = readLength v :=
  foldlM_lengthChar v 0 (Nat.zero_le _)

/-- The parser in the value of a `Content-Length`. -/
def HttpParser.lengthSoFar (p : HttpParser) (i m : Nat) : HttpParser :=
  { p with contentLength := m }.matched i .contentLength

/-- The code's check against overflow refuses what `lengthChar` refuses. -/
theorem moreLength_eq (m : Nat) (hnum : isNum ch = true) :
    moreLength (p.lengthSoFar i m) 10 (ch.toNat - 48) =
      if 10 * m + (ch.toNat - 48) ≤ 2 ^ 64 - 7 then
        .ok (p.lengthSoFar i (10 * m + (ch.toNat - 48)))
      else .error .invalidContentLength := by
  have hdigit := isNum_digit hnum
  have hcheck : (ullongMax - 10) / 10 < (p.lengthSoFar i m).contentLength ↔
      ¬ 10 * m + (ch.toNat - 48) ≤ 2 ^ 64 - 7 := by
    show (2 ^ 64 - 1 - 10) / 10 < m ↔ _
    omega
  unfold moreLength
  by_cases hfits : 10 * m + (ch.toNat - 48) ≤ 2 ^ 64 - 7
  · have hvalue : ((p.lengthSoFar i m).contentLength * 10 + (ch.toNat - 48)) % 2 ^ 64 =
        10 * m + (ch.toNat - 48) := by
      show (m * 10 + (ch.toNat - 48)) % 2 ^ 64 = _
      omega
    rw [if_neg fun hc => hcheck.mp hc hfits, if_pos hfits, hvalue]
    rfl
  · rw [if_pos (hcheck.mpr hfits), if_neg hfits]

theorem valueChar_length {m m' : Nat} (h : lengthChar m ch = some m') :
    valueChar (p.lengthSoFar i m) ch = some (.ok (p.lengthSoFar i m')) := by
  show (if ch = byte ' ' then some (.ok (p.lengthSoFar i m))
    else if ¬ isNum ch then some (.error .invalidContentLength)
    else some (moreLength (p.lengthSoFar i m) 10 (ch.toNat - 48))) = _
  unfold lengthChar at h
  split at h
  · rename_i hblank
    cases h
    rw [if_pos hblank]
  · rename_i hblank
    rw [if_neg hblank]
    split at h
    · cases h
    · rename_i hnum
      split at h
      · rename_i hfits
        cases h
        rw [if_neg hnum, moreLength_eq m (not_not.mp hnum), if_pos hfits]
      · cases h

theorem valueChar_not_length {m : Nat} (h : lengthChar m ch = none) :
    valueChar (p.lengthSoFar i m) ch = some (.error .invalidContentLength) := by
  show (if ch = byte ' ' then some (.ok (p.lengthSoFar i m))
    else if ¬ isNum ch then some (.error .invalidContentLength)
    else some (moreLength (p.lengthSoFar i m) 10 (ch.toNat - 48))) = _
  unfold lengthChar at h
  split at h
  · cases h
  · rename_i hblank
    rw [if_neg hblank]
    split at h
    · rename_i hnum
      rw [if_pos hnum]
    · rename_i hnum
      split at h
      · cases h
      · rename_i hfits
        rw [if_neg hnum, moreLength_eq m (not_not.mp hnum), if_neg hfits]

/-! ## Runs over values -/

/-- A line ends before these. -/
def IsText (v : Bytes) : Prop := ∀ c ∈ v, c ≠ cr ∧ c ≠ lf

instance (v : Bytes) : Decidable (IsText v) :=
  decidable_of_iff ((v.all fun c => c != cr && c != lf) = true) (by simp [IsText])

/-- A character of a value. -/
theorem value_char (hc : ch ≠ cr ∧ ch ≠ lf) (hroom : p.nread + n < httpMaxHeaderSize)
    (hchar : valueChar (p.reach .headerValue (n + 1)) ch = some (.ok q)) :
    Runs (p.reach .headerValue n) (some (.headerValue, d)) [ch] [] q
      (some (.headerValue, d ++ [ch])) := by
  refine runs_go rfl hroom ?_
  show headerValue _ ch = _
  unfold headerValue
  rw [if_neg hc.1, if_neg hc.2, hchar]
  rfl

/-- A character that a value cannot have. -/
theorem value_refused {o : Open} {e : Errno} (hc : ch ≠ cr ∧ ch ≠ lf)
    (hroom : p.nread + n < httpMaxHeaderSize)
    (hchar : valueChar (p.reach .headerValue (n + 1)) ch = some (.error e)) :
    Refused (p.reach .headerValue n) o [ch] [] e := by
  refine refused_pass (m := { parser := (p.reach .headerValue (n + 1)).setErrno e, exit := .error })
    rfl hroom ?_ rfl rfl rfl
  show headerValue _ ch = _
  unfold headerValue
  rw [if_neg hc.1, if_neg hc.2, hchar]
  rfl

/-- The rest of a value that words are looked out for in. -/
theorem word_runs (cs : Bytes) (hv : Heard ks v i h) (htext : IsText cs)
    (hroom : p.nread + n + cs.length ≤ httpMaxHeaderSize) :
    ∃ i' h', Runs ((p.matched i h).reach .headerValue n) (some (.headerValue, v)) cs []
        ((p.matched i' h').reach .headerValue (n + cs.length)) (some (.headerValue, v ++ cs)) ∧
      Heard ks (v ++ cs) i' h' := by
  induction cs generalizing v i h n with
  | nil =>
    rw [List.append_nil]
    exact ⟨i, h, .nil _ _, hv⟩
  | cons c cs ih =>
    rw [List.length_cons] at hroom ⊢
    obtain ⟨i₁, h₁, hchar, hv₁⟩ := valueChar_heard (p := p.reach .headerValue (n + 1)) hv c
    obtain ⟨i', h', hruns, hv'⟩ := ih (n := n + 1) hv₁ (fun c hc => htext c (List.mem_cons_of_mem _ hc))
      (by omega)
    rw [List.append_assoc, Nat.add_right_comm] at hruns
    rw [List.append_assoc] at hv'
    have hone : Runs ((p.matched i h).reach .headerValue n) (some (.headerValue, v)) [c] []
        ((p.matched i₁ h₁).reach .headerValue (n + 1)) (some (.headerValue, v ++ [c])) :=
      value_char (htext c List.mem_cons_self) (by show p.nread + n < _; omega) hchar
    exact ⟨i', h', hone.quiet hruns, hv'⟩

/-- The rest of a length. -/
theorem length_runs (cs : Bytes) {m m' : Nat} (hlength : cs.foldlM lengthChar m = some m')
    (htext : IsText cs) (hroom : p.nread + n + cs.length ≤ httpMaxHeaderSize) :
    Runs ((p.lengthSoFar i m).reach .headerValue n) (some (.headerValue, v)) cs []
      ((p.lengthSoFar i m').reach .headerValue (n + cs.length)) (some (.headerValue, v ++ cs)) := by
  induction cs generalizing v m n with
  | nil =>
    cases hlength
    rw [List.append_nil]
    exact .nil _ _
  | cons c cs ih =>
    rw [List.length_cons] at hroom ⊢
    rw [List.foldlM_cons] at hlength
    obtain ⟨m₁, hc, hrest⟩ := Option.bind_eq_some_iff.mp hlength
    have hruns := ih (v := v ++ [c]) (n := n + 1) hrest
      (fun c hc => htext c (List.mem_cons_of_mem _ hc)) (by omega)
    rw [List.append_assoc, Nat.add_right_comm] at hruns
    have hone : Runs ((p.lengthSoFar i m).reach .headerValue n) (some (.headerValue, v)) [c] []
        ((p.lengthSoFar i m₁).reach .headerValue (n + 1)) (some (.headerValue, v ++ [c])) :=
      value_char (htext c List.mem_cons_self) (by show p.nread + n < _; omega)
        (valueChar_length (p := p.reach .headerValue (n + 1)) hc)
    exact hone.quiet hruns

/-- A length that is refused. -/
theorem length_refused (cs : Bytes) {m : Nat} (hlength : cs.foldlM lengthChar m = none)
    (htext : IsText cs) (hroom : p.nread + n + cs.length ≤ httpMaxHeaderSize) :
    Refused ((p.lengthSoFar i m).reach .headerValue n) (some (.headerValue, v)) cs []
      .invalidContentLength := by
  induction cs generalizing v m n with
  | nil => cases hlength
  | cons c cs ih =>
    rw [List.length_cons] at hroom
    rw [List.foldlM_cons] at hlength
    have hroom' : (p.lengthSoFar i m).nread + n < httpMaxHeaderSize := by
      show p.nread + n < _
      omega
    cases hc : lengthChar m c with
    | none =>
      exact (value_refused (htext c List.mem_cons_self) hroom'
        (valueChar_not_length (p := p.reach .headerValue (n + 1)) hc)).more cs
    | some m₁ =>
      rw [hc] at hlength
      have hone : Runs ((p.lengthSoFar i m).reach .headerValue n) (some (.headerValue, v)) [c] []
          ((p.lengthSoFar i m₁).reach .headerValue (n + 1)) (some (.headerValue, v ++ [c])) :=
        value_char (htext c List.mem_cons_self) hroom'
          (valueChar_length (p := p.reach .headerValue (n + 1)) hc)
      exact hone.refused (ih hlength (fun c hc => htext c (List.mem_cons_of_mem _ hc)) (by omega))

/-! ## The parts of a line -/

theorem token_blank : token cr = 0 ∧ token lf = 0 ∧ token (byte ':') = 0 ∧ token (byte ' ') = 0 ∧
    token 9 = 0 := by decide

theorem ne_of_token {c : UInt8} (hc : token ch ≠ 0) (h : token c = 0) : ch ≠ c := by
  rintro rfl
  exact hc h

/-- The first character of a name. -/
theorem name_first (hc : token ch ≠ 0) (hroom : p.nread + n < httpMaxHeaderSize) :
    Runs (p.reach .headerFieldStart n) none [ch] []
      ((p.matched 0 (firstOfName (token ch))).reach .headerField (n + 1))
      (some (.headerField, [ch])) := by
  refine runs_mark rfl hroom ?_
  show headerFieldStart _ ch = _
  unfold headerFieldStart
  rw [if_neg (ne_of_token hc token_blank.1), if_neg (ne_of_token hc token_blank.2.1), if_neg hc]
  rfl

/-- The rest of a name. -/
theorem name_more (cs : Bytes) (hn : Named v i h) (htoken : ∀ c ∈ cs, token c ≠ 0)
    (hroom : p.nread + n + cs.length ≤ httpMaxHeaderSize) :
    ∃ i' h', Runs ((p.matched i h).reach .headerField n) (some (.headerField, v)) cs []
        ((p.matched i' h').reach .headerField (n + cs.length)) (some (.headerField, v ++ cs)) ∧
      Named (v ++ cs) i' h' := by
  induction cs generalizing v i h n with
  | nil =>
    rw [List.append_nil]
    exact ⟨i, h, .nil _ _, hn⟩
  | cons c cs ih =>
    rw [List.length_cons] at hroom ⊢
    have hc := htoken c List.mem_cons_self
    obtain ⟨i₁, h₁, hchar, hn₁⟩ := nameToken_named (p := p.reach .headerField (n + 1)) hn hc
    obtain ⟨i', h', hruns, hn'⟩ := ih (n := n + 1) hn₁ (fun c hc => htoken c (List.mem_cons_of_mem _ hc))
      (by omega)
    rw [List.append_assoc, Nat.add_right_comm] at hruns
    rw [List.append_assoc] at hn'
    have hone : Runs ((p.matched i h).reach .headerField n) (some (.headerField, v)) [c] []
        ((p.matched i₁ h₁).reach .headerField (n + 1)) (some (.headerField, v ++ [c])) := by
      refine runs_go rfl (by show p.nread + n < _; omega) ?_
      show headerField _ c = _
      unfold headerField
      rw [if_pos hc]
      exact congrArg (fun r : Option HttpParser => r.bind stay) hchar
    exact ⟨i', h', hone.quiet hruns, hn'⟩

/-- A whole name, with its colon. -/
theorem name_runs {name : Bytes} (hname : name ≠ []) (htoken : ∀ c ∈ name, token c ≠ 0)
    (hroom : p.nread + n + name.length < httpMaxHeaderSize) :
    ∃ i h, Named name i h ∧ Runs (p.reach .headerFieldStart n) none (name ++ [byte ':'])
      [.headerField name] ((p.matched i h).reach .headerValueStart (n + name.length + 1)) none := by
  obtain ⟨c, cs, rfl⟩ := List.exists_cons_of_ne_nil hname
  rw [List.length_cons] at hroom
  have hc := htoken c List.mem_cons_self
  have hfirst := name_first (p := p) (n := n) hc (by omega)
  obtain ⟨i, h, hmore, hn⟩ := name_more (p := p) (n := n + 1) cs (firstOfName_named c)
    (fun c hc => htoken c (List.mem_cons_of_mem _ hc)) (by omega)
  have hcolon : Runs ((p.matched i h).reach .headerField (n + 1 + cs.length))
      (some (.headerField, c :: cs)) [byte ':'] [.headerField (c :: cs)]
      ((p.matched i h).reach .headerValueStart (n + 1 + cs.length + 1)) none :=
    runs_close (k := .headerField) rfl (by show p.nread + _ < _; omega) rfl
  refine ⟨i, h, hn, ?_⟩
  rw [List.length_cons, show n + (cs.length + 1) + 1 = n + 1 + cs.length + 1 by omega]
  exact hfirst.quiet (hmore.append hcolon)

/-- The blanks before a value. -/
theorem blanks_runs (bs : Bytes) (hblank : ∀ c ∈ bs, isBlank c = true)
    (hroom : p.nread + n + bs.length ≤ httpMaxHeaderSize) :
    Runs (p.reach .headerValueStart n) none bs [] (p.reach .headerValueStart (n + bs.length)) none := by
  induction bs generalizing n with
  | nil => exact .nil _ _
  | cons c bs ih =>
    rw [List.length_cons] at hroom ⊢
    have hrest := ih (n := n + 1) (fun c hc => hblank c (List.mem_cons_of_mem _ hc)) (by omega)
    rw [Nat.add_right_comm] at hrest
    have hc : c = byte ' ' ∨ c = 9 := by
      have hc := hblank c List.mem_cons_self
      rw [isBlank, Bool.or_eq_true, beq_iff_eq, beq_iff_eq] at hc
      exact hc
    have hpass : pass (p.reach .headerValueStart (n + 1)) c 1 =
        some { parser := p.reach .headerValueStart (n + 1) } := by
      show headerValueStart _ c = _
      unfold headerValueStart
      rw [if_pos hc]
      rfl
    have hone : Runs (p.reach .headerValueStart n) none [c] [] (p.reach .headerValueStart (n + 1)) none :=
      runs_go (o := none) rfl (by omega) hpass
    exact hone.quiet hrest

/-- The end of a line. -/
theorem almostDone_runs (hroom : p.nread + n < httpMaxHeaderSize) :
    Runs (p.reach .headerAlmostDone n) none [lf] []
      ({ p with flags := settle p.headerState p.flags }.reach .headerValueLws (n + 1)) none := by
  refine runs_go (o := none) rfl hroom ?_
  show headerAlmostDone _ lf = _
  unfold headerAlmostDone
  rw [if_neg (not_not.mpr rfl)]
  rfl

/-- The end of a value. -/
theorem value_end (hroom : p.nread + n + 1 < httpMaxHeaderSize) :
    Runs (p.reach .headerValue n) (some (.headerValue, v)) crlf [.headerValue v]
      ({ p with flags := settle p.headerState p.flags }.reach .headerValueLws (n + 2)) none := by
  have hcr : Runs (p.reach .headerValue n) (some (.headerValue, v)) [cr] [.headerValue v]
      (p.reach .headerAlmostDone (n + 1)) none :=
    runs_close (k := .headerValue) rfl (by omega) rfl
  exact hcr.append (almostDone_runs (n := n + 1) (by omega))

/-! ## Whole lines -/

/-- The parser when a value has begun. -/
def HttpParser.begun (p : HttpParser) (kind : HeaderStates) : HttpParser :=
  if kind = .upgrade then { p with flags := { p.flags with upgrade := true } } else p

theorem fieldKind_cases (name : Bytes) :
    fieldKind name = .connection ∨ fieldKind name = .contentLength ∨
      fieldKind name = .transferEncoding ∨ fieldKind name = .upgrade ∨ fieldKind name = .general := by
  unfold fieldKind
  split_ifs <;> simp

/-- A word of a value begins with this letter, and no other does. -/
theorem heard_start {w : UInt8} (hch : lower ch = w) (hks : k ∈ ks) (hfold : ∀ k ∈ ks, k.fold = lower)
    (hk : [w] <+: k.word ∧ 1 < k.word.length)
    (hothers : ∀ k' ∈ ks, k' = k ∨ 1 ≤ k'.word.length ∧ ¬ [w] <+: k'.word) : Towards ks k [ch] 0 := by
  subst hch
  refine ⟨hks, ⟨?_, hk.2⟩, rfl, fun k' hk' => (hothers k' hk').imp_right fun ho => ?_⟩
  · rw [hfold k hks]
    exact hk.1
  · refine Keyword.dead_of_not_prefix ho.1 ?_
    rw [hfold k' hk']
    exact ho.2

/-- No word of a value begins with this letter. -/
theorem heard_none (hfold : ∀ k ∈ ks, k.fold = lower)
    (hks : ∀ k ∈ ks, 1 ≤ k.word.length ∧ k.word[0]? ≠ some (lower ch)) : AllDead ks [ch] := by
  intro k hk
  refine Keyword.dead_of_not_prefix (hks k hk).1 fun hprefix => (hks k hk).2 ?_
  rw [hfold k hk] at hprefix
  exact (prefix_snoc (w := []).mp hprefix).2

theorem valueWords_connection {P : Keyword UInt8 UInt8 → Prop} (hkeep : P keepAliveValue)
    (hclose : P closeValue) : ∀ k ∈ valueWords .connection, P k := by
  intro k hk
  rcases List.mem_cons.mp hk with rfl | hk
  · exact hkeep
  · rw [List.mem_singleton.mp hk]
    exact hclose

theorem valueWords_transferEncoding {P : Keyword UInt8 UInt8 → Prop} (hchunked : P chunkedValue) :
    ∀ k ∈ valueWords .transferEncoding, P k := by
  intro k hk
  rw [List.mem_singleton.mp hk]
  exact hchunked

/-- The first character of a value, but for a length. -/
theorem firstOfValue_heard (name : Bytes) (hkind : fieldKind name ≠ .contentLength) (ch : UInt8) :
    ∃ h, firstOfValue (p.matched 0 (fieldKind name)) ch =
        .ok ((p.begun (fieldKind name)).matched 0 h) ∧
      Heard (valueWords (fieldKind name)) [ch] 0 h := by
  rcases fieldKind_cases name with hk | hk | hk | hk | hk
  · rw [hk]
    refine ⟨_, rfl, ?_⟩
    have hfold : ∀ k ∈ valueWords .connection, k.fold = lower := valueWords_connection rfl rfl
    split
    · rename_i hch
      exact heard_start hch List.mem_cons_self hfold (by decide)
        (valueWords_connection (.inl rfl) (.inr (by decide)))
    · split
      · rename_i hch
        exact heard_start hch (List.mem_cons_of_mem _ List.mem_cons_self) hfold (by decide)
          (valueWords_connection (.inr (by decide)) (.inl rfl))
      · rename_i hkeep hclose
        exact heard_none hfold (valueWords_connection
          ⟨by decide, fun hc => hkeep (Option.some.inj hc).symm⟩
          ⟨by decide, fun hc => hclose (Option.some.inj hc).symm⟩)
  · exact absurd hk hkind
  · rw [hk]
    refine ⟨_, rfl, ?_⟩
    have hfold : ∀ k ∈ valueWords .transferEncoding, k.fold = lower := valueWords_transferEncoding rfl
    split
    · rename_i hch
      exact heard_start hch List.mem_cons_self hfold (by decide)
        (valueWords_transferEncoding (.inl rfl))
    · rename_i hchunked
      exact heard_none hfold (valueWords_transferEncoding
        ⟨by decide, fun hc => hchunked (Option.some.inj hc).symm⟩)
  · rw [hk]
    exact ⟨.general, rfl, fun k hk => (List.not_mem_nil hk).elim⟩
  · rw [hk]
    exact ⟨.general, rfl, fun k hk => (List.not_mem_nil hk).elim⟩

/-- What the words of a value come to is what the line means. -/
theorem heed_words {name value : Bytes} (hkind : fieldKind name ≠ .contentLength)
    (hne : value.dropWhile isBlank ≠ [])
    (hv : Heard (valueWords (fieldKind name)) (value.dropWhile isBlank) i h) :
    p.heed name value = some { p.begun (fieldKind name) with
      flags := settle h (p.begun (fieldKind name)).flags } := by
  unfold HttpParser.heed
  dsimp only
  rw [if_neg hne]
  rcases fieldKind_cases name with hk | hk | hk | hk | hk
  · rw [hk] at hv ⊢
    rw [settle_connection hv, show p.begun .connection = p from rfl]
    dsimp only
    split_ifs <;> rfl
  · exact absurd hk hkind
  · rw [hk] at hv ⊢
    rw [settle_transferEncoding hv, show p.begun .transferEncoding = p from rfl]
    dsimp only
    split_ifs <;> rfl
  · rw [hk] at hv ⊢
    rw [settle_other hv]
    rfl
  · rw [hk] at hv ⊢
    rw [settle_other hv]
    rfl

theorem heed_length {name value : Bytes} (hkind : fieldKind name = .contentLength)
    (hne : value.dropWhile isBlank ≠ []) :
    p.heed name value =
      ((value.dropWhile isBlank).foldlM lengthChar 0).map fun n => { p with contentLength := n } := by
  unfold HttpParser.heed
  dsimp only
  rw [if_neg hne, hkind, readLength_eq]

theorem not_blank (hblank : isBlank ch = false) : ¬ (ch = byte ' ' ∨ ch = 9) := by
  rw [isBlank, Bool.or_eq_false_iff, beq_eq_false_iff_ne, beq_eq_false_iff_ne] at hblank
  exact not_or.mpr hblank

/-- The first character of a value that is not a blank. -/
theorem value_first (hc : ch ≠ cr ∧ ch ≠ lf) (hblank : isBlank ch = false)
    (hroom : p.nread + n < httpMaxHeaderSize)
    (hfirst : firstOfValue ({ p with index := 0 }.reach .headerValue (n + 1)) ch = .ok q) :
    Runs (p.reach .headerValueStart n) none [ch] [] q (some (.headerValue, [ch])) := by
  refine runs_mark rfl hroom ?_
  show headerValueStart _ ch = _
  unfold headerValueStart
  rw [if_neg (not_blank hblank)]
  dsimp only
  rw [if_neg hc.1, if_neg hc.2, show firstOfValue
    { p.reach .headerValueStart (n + 1) with state := .headerValue, index := 0 } ch = .ok q from hfirst]

theorem value_first_refused {e : Errno} (hc : ch ≠ cr ∧ ch ≠ lf) (hblank : isBlank ch = false)
    (hroom : p.nread + n < httpMaxHeaderSize)
    (hfirst : firstOfValue ({ p with index := 0 }.reach .headerValue (n + 1)) ch = .error e) :
    Refused (p.reach .headerValueStart n) none [ch] [] e := by
  refine refused_pass (m :=
    { parser := ({ p with index := 0 }.reach .headerValue (n + 1)).setErrno e
      mark := some .headerValue
      exit := .error }) rfl hroom ?_ rfl rfl rfl
  show headerValueStart _ ch = _
  unfold headerValueStart
  rw [if_neg (not_blank hblank)]
  dsimp only
  rw [if_neg hc.1, if_neg hc.2, show firstOfValue
    { p.reach .headerValueStart (n + 1) with state := .headerValue, index := 0 } ch = .error e
      from hfirst]
  rfl

/-- The value of a line that has none. -/
theorem empty_value (hroom : p.nread + n + 1 < httpMaxHeaderSize) :
    Runs (p.reach .headerValueStart n) none crlf [.headerValue []]
      ((p.matched 0 .general).reach .headerValueLws (n + 2)) none := by
  have hcr : Runs (p.reach .headerValueStart n) none [cr] [.headerValue []]
      ((p.matched 0 .general).reach .headerAlmostDone (n + 1)) none := by
    refine runs_pass (o := none)
      (m :=
        { parser := (p.matched 0 .general).reach .headerAlmostDone (n + 1)
          mark := some .headerValue
          callback := some (.data .headerValue) }) rfl (by omega) rfl rfl
  exact hcr.append (almostDone_runs (p := p.matched 0 .general) (n := n + 1)
    (by show p.nread + _ + 1 < _; omega))

theorem begun_reach (p : HttpParser) (kind : HeaderStates) (s : State) (n : Nat) :
    (p.reach s n).begun kind = (p.begun kind).reach s n := by
  unfold HttpParser.begun
  split <;> rfl

theorem begun_nread (p : HttpParser) (kind : HeaderStates) : (p.begun kind).nread = p.nread := by
  unfold HttpParser.begun
  split <;> rfl

/-- The first digit of a length. -/
theorem firstOfValue_length (hblank : isBlank ch = false) :
    firstOfValue (p.matched i .contentLength) ch =
      if (lengthChar 0 ch).isSome then .ok (p.lengthSoFar i (ch.toNat - 48))
      else .error .invalidContentLength := by
  show (if ¬ isNum ch then _ else _) = _
  unfold lengthChar
  rw [if_neg fun hc => not_blank hblank (.inl hc)]
  by_cases hnum : isNum ch = true
  · have hdigit := isNum_digit hnum
    rw [if_neg (not_not.mpr hnum), if_neg (not_not.mpr hnum),
      if_pos (show 10 * 0 + (ch.toNat - 48) ≤ 2 ^ 64 - 7 by omega)]
    rfl
  · rw [if_pos hnum, if_pos hnum]
    rfl

/-- A value behind its blanks, up to the end of the line, where its header is not a length. -/
theorem words_line {name value cs : Bytes} {c : UInt8} (hn : Named name i h)
    (hkind : fieldKind name ≠ .contentLength) (hv : value.dropWhile isBlank = c :: cs)
    (hblank : isBlank c = false) (htext : IsText (c :: cs))
    (hroom : p.nread + n + (cs.length + 1) + 2 ≤ httpMaxHeaderSize) :
    ∃ q i' h', p.heed name value = some q ∧ Runs ((p.matched i h).reach .headerValueStart n) none
      (c :: cs ++ crlf) [.headerValue (c :: cs)]
      ((q.matched i' h').reach .headerValueLws (n + (cs.length + 1) + 2)) none := by
  have hnread := begun_nread p (fieldKind name)
  obtain ⟨h₁, hfirst, hheard⟩ := firstOfValue_heard (p := p.reach .headerValue (n + 1)) name hkind c
  rw [begun_reach] at hfirst
  have hone : Runs ((p.matched i h).reach .headerValueStart n) none [c] []
      (((p.begun (fieldKind name)).matched 0 h₁).reach .headerValue (n + 1))
      (some (.headerValue, [c])) :=
    value_first (htext c List.mem_cons_self) hblank (by show p.nread + n < _; omega)
      ((named_firstOfValue (p := p.reach .headerValue (n + 1)) hn 0 c).trans hfirst)
  obtain ⟨i', h', hmore, hheard'⟩ := word_runs (p := p.begun (fieldKind name)) (n := n + 1) cs hheard
    (fun c hc => htext c (List.mem_cons_of_mem _ hc)) (by omega)
  have hend := value_end (p := (p.begun (fieldKind name)).matched i' h') (n := n + 1 + cs.length)
    (v := [c] ++ cs) (by show (p.begun (fieldKind name)).nread + _ + 1 < _; omega)
  refine ⟨_, i', h', heed_words hkind (by rw [hv]; exact List.cons_ne_nil _ _)
    (by rw [hv]; exact hheard'), ?_⟩
  rw [show n + (cs.length + 1) + 2 = n + 1 + cs.length + 2 by omega]
  exact hone.quiet (hmore.append hend)

theorem lengthChar_zero {m : Nat} (hblank : isBlank ch = false) (h : lengthChar 0 ch = some m) :
    m = ch.toNat - 48 := by
  unfold lengthChar at h
  rw [if_neg fun hc => not_blank hblank (.inl hc)] at h
  split at h
  · cases h
  · split at h
    · cases h
      omega
    · cases h

/-- A length, up to the end of the line. -/
theorem length_line {name cs : Bytes} {c : UInt8} {m : Nat} (hn : Named name i h)
    (hkind : fieldKind name = .contentLength) (hblank : isBlank c = false)
    (hlength : (c :: cs).foldlM lengthChar 0 = some m) (htext : IsText (c :: cs))
    (hroom : p.nread + n + (cs.length + 1) + 2 ≤ httpMaxHeaderSize) :
    Runs ((p.matched i h).reach .headerValueStart n) none (c :: cs ++ crlf) [.headerValue (c :: cs)]
      ((p.lengthSoFar 0 m).reach .headerValueLws (n + (cs.length + 1) + 2)) none := by
  rw [List.foldlM_cons] at hlength
  obtain ⟨m₁, hc, hrest⟩ := Option.bind_eq_some_iff.mp hlength
  have hfirst := named_firstOfValue (p := p.reach .headerValue (n + 1)) hn 0 c
  rw [hkind, firstOfValue_length hblank, hc, if_pos (Option.isSome_some), ← lengthChar_zero hblank hc] at hfirst
  have hone : Runs ((p.matched i h).reach .headerValueStart n) none [c] []
      ((p.lengthSoFar 0 m₁).reach .headerValue (n + 1)) (some (.headerValue, [c])) :=
    value_first (htext c List.mem_cons_self) hblank (by show p.nread + n < _; omega) hfirst
  have hmore := length_runs (p := p) (i := 0) (n := n + 1) (v := [c]) cs hrest
    (fun c hc => htext c (List.mem_cons_of_mem _ hc)) (by omega)
  have hend := value_end (p := p.lengthSoFar 0 m) (n := n + 1 + cs.length) (v := [c] ++ cs)
    (by show p.nread + _ + 1 < _; omega)
  rw [show n + (cs.length + 1) + 2 = n + 1 + cs.length + 2 by omega]
  exact hone.quiet (hmore.append hend)

/-- A length that is refused. -/
theorem length_line_refused {name cs : Bytes} {c : UInt8} (hn : Named name i h)
    (hkind : fieldKind name = .contentLength) (hblank : isBlank c = false)
    (hlength : (c :: cs).foldlM lengthChar 0 = none) (htext : IsText (c :: cs))
    (hroom : p.nread + n + (cs.length + 1) ≤ httpMaxHeaderSize) :
    Refused ((p.matched i h).reach .headerValueStart n) none (c :: cs) [] .invalidContentLength := by
  rw [List.foldlM_cons] at hlength
  have hroom' : (p.matched i h).nread + n < httpMaxHeaderSize := by
    show p.nread + n < _
    omega
  have hfirst := named_firstOfValue (p := p.reach .headerValue (n + 1)) hn 0 c
  rw [hkind, firstOfValue_length hblank] at hfirst
  cases hc : lengthChar 0 c with
  | none =>
    rw [hc, if_neg (by decide)] at hfirst
    exact (value_first_refused (htext c List.mem_cons_self) hblank hroom' hfirst).more cs
  | some m₁ =>
    rw [hc] at hlength
    rw [hc, if_pos (Option.isSome_some), ← lengthChar_zero hblank hc] at hfirst
    have hone : Runs ((p.matched i h).reach .headerValueStart n) none [c] []
        ((p.lengthSoFar 0 m₁).reach .headerValue (n + 1)) (some (.headerValue, [c])) :=
      value_first (htext c List.mem_cons_self) hblank hroom' hfirst
    exact hone.refused (length_refused (p := p) (i := 0) (n := n + 1) cs hlength
      (fun c hc => htext c (List.mem_cons_of_mem _ hc)) (by omega))

/-- The value behind the blanks, up to the end of the line. -/
theorem value_runs {name value : Bytes} (hn : Named name i h) (htext : IsText value)
    (hroom : p.nread + n + (value.dropWhile isBlank).length + 2 ≤ httpMaxHeaderSize)
    (hheed : p.heed name value = some q) :
    ∃ i' h', Runs ((p.matched i h).reach .headerValueStart n) none
      (value.dropWhile isBlank ++ crlf) [.headerValue (value.dropWhile isBlank)]
      ((q.matched i' h').reach .headerValueLws (n + (value.dropWhile isBlank).length + 2)) none := by
  have htext' : IsText (value.dropWhile isBlank) := fun c hc =>
    htext c ((List.dropWhile_sublist _).subset hc)
  cases hv : value.dropWhile isBlank with
  | nil =>
    rw [hv] at hroom
    unfold HttpParser.heed at hheed
    rw [hv] at hheed
    cases hheed
    exact ⟨0, .general, empty_value (p := p.matched i h) (by show p.nread + _ + 1 < _; omega)⟩
  | cons c cs =>
    rw [hv] at hroom htext'
    have hblank : isBlank c = false := by
      have hhead := List.head_dropWhile_not isBlank (by rw [hv]; exact List.cons_ne_nil c cs)
      simpa [hv] using hhead
    by_cases hkind : fieldKind name = .contentLength
    · rw [heed_length hkind (by rw [hv]; exact List.cons_ne_nil _ _), hv] at hheed
      obtain ⟨m, hm, rfl⟩ := Option.map_eq_some_iff.mp hheed
      exact ⟨0, .contentLength, length_line hn hkind hblank hm htext' hroom⟩
    · obtain ⟨q', i', h', hheed', hruns⟩ := words_line hn hkind hv hblank htext' hroom
      obtain rfl : q = q' := Option.some.inj (hheed.symm.trans hheed')
      exact ⟨i', h', hruns⟩

theorem value_refused_line {name value : Bytes} (hn : Named name i h) (htext : IsText value)
    (hroom : p.nread + n + (value.dropWhile isBlank).length + 2 ≤ httpMaxHeaderSize)
    (hheed : p.heed name value = none) :
    Refused ((p.matched i h).reach .headerValueStart n) none (value.dropWhile isBlank) []
      .invalidContentLength := by
  have htext' : IsText (value.dropWhile isBlank) := fun c hc =>
    htext c ((List.dropWhile_sublist _).subset hc)
  cases hv : value.dropWhile isBlank with
  | nil =>
    unfold HttpParser.heed at hheed
    rw [hv] at hheed
    cases hheed
  | cons c cs =>
    rw [hv] at hroom htext'
    rw [List.length_cons] at hroom
    have hblank : isBlank c = false := by
      have hhead := List.head_dropWhile_not isBlank (by rw [hv]; exact List.cons_ne_nil c cs)
      simpa [hv] using hhead
    by_cases hkind : fieldKind name = .contentLength
    · rw [heed_length hkind (by rw [hv]; exact List.cons_ne_nil _ _), hv] at hheed
      exact length_line_refused hn hkind hblank (Option.map_eq_none_iff.mp hheed) htext' (by omega)
    · obtain ⟨q', i', h', hheed', -⟩ := words_line (p := p) (n := n) hn hkind hv hblank htext' hroom
      rw [hheed] at hheed'
      cases hheed'

/-- A name and a value that a header line may have. -/
structure IsField (name value : Bytes) : Prop where
  named : name ≠ []
  token : ∀ c ∈ name, token c ≠ 0
  text : IsText value

instance (name value : Bytes) : Decidable (IsField name value) :=
  decidable_of_iff (name ≠ [] ∧ (name.all fun c => token c != 0) = true ∧ IsText value)
    ⟨fun h => ⟨h.1, by simpa using h.2.1, h.2.2⟩, fun h => ⟨h.named, by simpa using h.token, h.text⟩⟩

theorem fieldLine_eq (name value : Bytes) : fieldLine name value =
    (name ++ [byte ':']) ++ (value.takeWhile isBlank ++ (value.dropWhile isBlank ++ crlf)) := by
  unfold fieldLine
  rw [← List.append_assoc (value.takeWhile isBlank), List.takeWhile_append_dropWhile,
    List.append_assoc]
  rfl

theorem fieldLine_length (name value : Bytes) : (fieldLine name value).length =
    name.length + 1 + (value.takeWhile isBlank).length + (value.dropWhile isBlank).length + 2 := by
  rw [fieldLine_eq]
  simp only [List.length_append, List.length_singleton]
  rw [show crlf.length = 2 from rfl]
  omega

theorem blanks_of_takeWhile (value : Bytes) : ∀ c ∈ value.takeWhile isBlank, isBlank c = true :=
  fun _ hc => List.mem_takeWhile_imp hc

/-- **A header line** does what it means: it is read to its end, and its name and value are
    reported, the value without the blanks before it. -/
theorem fieldLine_runs {name value : Bytes} (hf : IsField name value)
    (hroom : p.nread + n + (fieldLine name value).length ≤ httpMaxHeaderSize)
    (hheed : p.heed name value = some q) :
    ∃ i h, Runs (p.reach .headerFieldStart n) none (fieldLine name value)
      [.headerField name, .headerValue (value.dropWhile isBlank)]
      ((q.matched i h).reach .headerValueLws (n + (fieldLine name value).length)) none := by
  rw [fieldLine_length] at hroom ⊢
  obtain ⟨i, h, hn, hname⟩ := name_runs (p := p) (n := n) hf.named hf.token (by omega)
  have hblanks := blanks_runs (p := p.matched i h) (n := n + name.length + 1) _
    (blanks_of_takeWhile value) (by show p.nread + _ + _ ≤ _; omega)
  obtain ⟨i', h', hvalue⟩ := value_runs (p := p)
    (n := n + name.length + 1 + (value.takeWhile isBlank).length) hn hf.text (by omega) hheed
  refine ⟨i', h', ?_⟩
  rw [fieldLine_eq, show n + (name.length + 1 + (value.takeWhile isBlank).length +
    (value.dropWhile isBlank).length + 2) = n + name.length + 1 + (value.takeWhile isBlank).length +
      (value.dropWhile isBlank).length + 2 by omega]
  exact hname.append (hblanks.append hvalue)

/-- **A header line that is refused** is one with a length that is no number, or too large. -/
theorem fieldLine_refused {name value : Bytes} (hf : IsField name value)
    (hroom : p.nread + n + (fieldLine name value).length ≤ httpMaxHeaderSize)
    (hheed : p.heed name value = none) :
    Refused (p.reach .headerFieldStart n) none (fieldLine name value) [.headerField name]
      .invalidContentLength := by
  rw [fieldLine_length] at hroom
  obtain ⟨i, h, hn, hname⟩ := name_runs (p := p) (n := n) hf.named hf.token (by omega)
  have hblanks := blanks_runs (p := p.matched i h) (n := n + name.length + 1) _
    (blanks_of_takeWhile value) (by show p.nread + _ + _ ≤ _; omega)
  have hvalue := value_refused_line (p := p)
    (n := n + name.length + 1 + (value.takeWhile isBlank).length) hn hf.text (by omega) hheed
  rw [fieldLine_eq]
  exact hname.refused (hblanks.refused (hvalue.more crlf))

end Pixie.Engine
