/-
  The names and values that `http_parser` recognises.

  In a header line the machine looks out for five names and three values.  It does so letter by letter,
  in the states of `header_state`, with the number of the letter in `index`; the words are those of
  `Words.Keyword`, in lower case:

    * `Heard ks v i h` — what `header_state = h` and `index = i` say of the text `v` so far, and of the
      words `ks` that are looked out for;
    * `matching_among` — the step that all the states `h_matching_…` share;
    * `nameToken_named` — one more character of a name; the states `h_C`, `h_CO` and `h_CON` are
      where `connection` and `content-length` have not parted yet;
    * `fieldKind` — what a name comes to.
-/
import Pixie.Engine.Runs
import Pixie.Lib.Words

namespace Pixie.Engine

open Pixie.Decimal Pixie.Words

variable {p : HttpParser} {ks : List (Keyword UInt8 UInt8)} {k : Keyword UInt8 UInt8} {v : Bytes}
  {i : Nat} {h : HeaderStates} {ch : UInt8}

/-! ## The words -/

/-- A word that is the name of a header. -/
def fieldName (word : Bytes) (h : token (byte ' ') ∉ word) : Keyword UInt8 UInt8 :=
  ⟨token, byte ' ', word, h⟩

/-- `CONNECTION`. -/
def connectionName := fieldName (ascii "connection") (by decide)

/-- `PROXY_CONNECTION`. -/
def proxyConnectionName := fieldName (ascii "proxy-connection") (by decide)

/-- `CONTENT_LENGTH`. -/
def contentLengthName := fieldName (ascii "content-length") (by decide)

/-- `TRANSFER_ENCODING`. -/
def transferEncodingName := fieldName (ascii "transfer-encoding") (by decide)

/-- `UPGRADE`. -/
def upgradeName := fieldName (ascii "upgrade") (by decide)

/-- The names that are looked out for. -/
def fieldNames : List (Keyword UInt8 UInt8) :=
  [connectionName, proxyConnectionName, contentLengthName, transferEncodingName, upgradeName]

/-- A word that is the value of a header. -/
def valueWord (word : Bytes) (h : lower (byte ' ') ∉ word) : Keyword UInt8 UInt8 :=
  ⟨lower, byte ' ', word, h⟩

/-- `CHUNKED`. -/
def chunkedValue := valueWord (ascii "chunked") (by decide)

/-- `KEEP_ALIVE`. -/
def keepAliveValue := valueWord (ascii "keep-alive") (by decide)

/-- `CLOSE`. -/
def closeValue := valueWord (ascii "close") (by decide)

/-! ## Matching -/

/-- No other word is possible. -/
def Only (ks : List (Keyword UInt8 UInt8)) (k : Keyword UInt8 UInt8) (v : Bytes) : Prop :=
  ∀ k' ∈ ks, k' = k ∨ k'.Dead v

/-- The text is on its way to the word, with its last letter at the index. -/
structure Towards (ks : List (Keyword UInt8 UInt8)) (k : Keyword UInt8 UInt8) (v : Bytes) (i : Nat) :
    Prop where
  mem : k ∈ ks
  begun : k.Partly v
  index : v.length = i + 1
  only : Only ks k v

/-- The text is the word. -/
structure Found (ks : List (Keyword UInt8 UInt8)) (k : Keyword UInt8 UInt8) (v : Bytes) : Prop where
  mem : k ∈ ks
  spells : k.Spells v
  only : Only ks k v

/-- No word is possible. -/
def AllDead (ks : List (Keyword UInt8 UInt8)) (v : Bytes) : Prop := ∀ k ∈ ks, k.Dead v

theorem Only.append (h : Only ks k v) (more : Bytes) : Only ks k (v ++ more) := fun k' hk' =>
  (h k' hk').imp_right fun hdead => hdead.append more

theorem AllDead.append (h : AllDead ks v) (more : Bytes) : AllDead ks (v ++ more) := fun k hk =>
  (h k hk).append more

theorem Only.allDead (h : Only ks k v) (hdead : k.Dead v) : AllDead ks v := by
  intro k' hk'
  rcases h k' hk' with rfl | hk'
  · exact hdead
  · exact hk'

/-- One more letter, while a word is matched. -/
theorem matching_among (found : HeaderStates) (ch : UInt8) (ht : Towards ks k v i)
    (hshort : k.word.length < 256) :
    ∃ h', matching (p.matched i h) (k.fold ch) k.word found = p.matched (i + 1) h' ∧
      (h' = h ∧ Towards ks k (v ++ [ch]) (i + 1) ∨ h' = found ∧ Found ks k (v ++ [ch]) ∨
        h' = .general ∧ AllDead ks (v ++ [ch])) := by
  have hlength := ht.begun.2
  rw [ht.index] at hlength
  have hadvance : advance (p.matched i h) = p.matched (i + 1) h := by
    unfold advance
    rw [show (p.matched i h).index + 1 = i + 1 from rfl, Nat.mod_eq_of_lt (hlength.trans hshort)]
    rfl
  have hletter : (k.word ++ [0])[i + 1]? = k.word[v.length]? := by
    rw [List.getElem?_append_left hlength, ht.index]
  unfold matching
  rw [hadvance]
  dsimp only
  rw [show (p.matched (i + 1) h).index = i + 1 from rfl, hletter]
  by_cases hc : k.word[v.length]? = some (k.fold ch)
  · rw [if_neg (not_or.mpr ⟨Nat.not_lt.mpr hlength.le, not_not.mpr hc⟩)]
    rcases ht.begun.next hc with ⟨hlt, hbegun⟩ | ⟨hend, hspells⟩
    · rw [if_neg (by have hi := ht.index; omega)]
      refine ⟨h, rfl, .inl ⟨rfl, ht.mem, hbegun, ?_, ht.only.append _⟩⟩
      rw [List.length_append, ht.index]
      rfl
    · rw [if_pos (by have hi := ht.index; omega)]
      exact ⟨found, rfl, .inr (.inl ⟨rfl, ht.mem, hspells, ht.only.append _⟩)⟩
  · rw [if_pos (.inr hc)]
    exact ⟨.general, rfl, .inr (.inr ⟨rfl, (ht.only.append _).allDead (ht.begun.dead hc)⟩)⟩

/-! ## Names -/

theorem fieldNames_eq (hk : k ∈ fieldNames) : ∃ word h, k = fieldName word h := by
  simp only [fieldNames, List.mem_cons, List.not_mem_nil, or_false] at hk
  rcases hk with rfl | rfl | rfl | rfl | rfl
  · exact ⟨_, _, rfl⟩
  · exact ⟨_, _, rfl⟩
  · exact ⟨_, _, rfl⟩
  · exact ⟨_, _, rfl⟩
  · exact ⟨_, _, rfl⟩

theorem fieldNames_inj {k' : Keyword UInt8 UInt8} (hk : k ∈ fieldNames) (hk' : k' ∈ fieldNames)
    (h : k'.word = k.word) : k' = k := by
  obtain ⟨word, hword, rfl⟩ := fieldNames_eq hk
  obtain ⟨word', hword', rfl⟩ := fieldNames_eq hk'
  obtain rfl : word' = word := h
  rfl

/-- A text that no name begins with. -/
theorem allDead_start {w : Bytes} (hv : v.map token = w)
    (hw : ∀ k ∈ fieldNames, w.length ≤ k.word.length ∧ ¬ w <+: k.word) : AllDead fieldNames v := by
  intro k hk
  obtain ⟨hlength, hprefix⟩ := hw k hk
  obtain ⟨word, hword, rfl⟩ := fieldNames_eq hk
  subst hv
  rw [List.length_map] at hlength
  exact Keyword.dead_of_not_prefix hlength hprefix

/-- A character that no name goes on with. -/
theorem allDead_branch {w : Bytes} (hv : v.map token = w) (hlength : w.length < 7)
    (hw : ∀ k ∈ fieldNames, w <+: k.word → k.word[w.length]? ≠ some (token ch)) :
    AllDead fieldNames (v ++ [ch]) := by
  have hseven : ∀ k ∈ fieldNames, 7 ≤ k.word.length := by decide
  refine allDead_start (w := w ++ [token ch]) (by rw [List.map_append, hv]; rfl) fun k hk => ?_
  have hk7 := hseven k hk
  refine ⟨by rw [List.length_append, List.length_singleton]; omega, fun hprefix => ?_⟩
  obtain ⟨hbegun, hnext⟩ := prefix_snoc.mp hprefix
  exact hw k hk hbegun hnext

/-- The beginning of one name. -/
theorem towards_start {w : Bytes} (hv : v.map token = w) (hk : k ∈ fieldNames) (hi : w.length = i + 1)
    (hw : w <+: k.word ∧ w.length < k.word.length)
    (hothers : ∀ k' ∈ fieldNames, k'.word = k.word ∨ w.length ≤ k'.word.length ∧ ¬ w <+: k'.word) :
    Towards fieldNames k v i := by
  have hlength : v.length = w.length := by rw [← hv, List.length_map]
  refine ⟨hk, ⟨?_, by rw [hlength]; exact hw.2⟩, by rw [hlength, hi], fun k' hk' => ?_⟩
  · obtain ⟨word, hword, rfl⟩ := fieldNames_eq hk
    show v.map token <+: word
    rw [hv]
    exact hw.1
  · rcases hothers k' hk' with heq | ⟨hle, hprefix⟩
    · exact .inl (fieldNames_inj hk hk' heq)
    · obtain ⟨word, hword, rfl⟩ := fieldNames_eq hk'
      subst hv
      rw [List.length_map] at hle
      exact .inr (Keyword.dead_of_not_prefix hle hprefix)

/-- What `header_state` and `index` say of a name so far. -/
def Named (v : Bytes) (i : Nat) : HeaderStates → Prop
  | .general => AllDead fieldNames v
  | .C => v.map token = ascii "c" ∧ i = 0
  | .CO => v.map token = ascii "co" ∧ i = 1
  | .CON => v.map token = ascii "con" ∧ i = 2
  | .matchingConnection => Towards fieldNames connectionName v i
  | .matchingProxyConnection => Towards fieldNames proxyConnectionName v i
  | .matchingContentLength => Towards fieldNames contentLengthName v i
  | .matchingTransferEncoding => Towards fieldNames transferEncodingName v i
  | .matchingUpgrade => Towards fieldNames upgradeName v i
  | .connection => Found fieldNames connectionName v ∨ Found fieldNames proxyConnectionName v
  | .contentLength => Found fieldNames contentLengthName v
  | .transferEncoding => Found fieldNames transferEncodingName v
  | .upgrade => Found fieldNames upgradeName v
  | _ => False

/-- The first character of a name. -/
theorem firstOfName_named (ch : UInt8) : Named [ch] 0 (firstOfName (token ch)) := by
  unfold firstOfName
  split
  · rename_i hc
    exact ⟨congrArg (fun c => [c]) hc, rfl⟩
  · split
    · rename_i hc
      exact towards_start (congrArg (fun c => [c]) hc) (by simp [fieldNames]) rfl (by decide) (by decide)
    · split
      · rename_i hc
        exact towards_start (congrArg (fun c => [c]) hc) (by simp [fieldNames]) rfl (by decide)
          (by decide)
      · split
        · rename_i hc
          exact towards_start (congrArg (fun c => [c]) hc) (by simp [fieldNames]) rfl (by decide)
            (by decide)
        · rename_i hC hp ht hu
          have hfirst : ∀ k ∈ fieldNames, k.word[0]? = some (byte 'c') ∨ k.word[0]? = some (byte 'p') ∨
              k.word[0]? = some (byte 't') ∨ k.word[0]? = some (byte 'u') := by decide
          refine allDead_branch (v := []) rfl (by decide) fun k hk _ hletter => ?_
          replace hletter : k.word[0]? = some (token ch) := hletter
          rcases hfirst k hk with heq | heq | heq | heq
          · exact hC (Option.some.inj (hletter.symm.trans heq))
          · exact hp (Option.some.inj (hletter.symm.trans heq))
          · exact ht (Option.some.inj (hletter.symm.trans heq))
          · exact hu (Option.some.inj (hletter.symm.trans heq))

/-- **One more character of a name.** -/
theorem nameToken_named (hn : Named v i h) (hc : token ch ≠ 0) :
    ∃ i' h', nameToken (p.matched i h) ch (token ch) = some (p.matched i' h') ∧
      Named (v ++ [ch]) i' h' := by
  have hblank : ch ≠ byte ' ' := by
    rintro rfl
    exact hc (by decide)
  have hindex : ∀ i h', i < 255 → (advance (p.matched i h)).expect h' = p.matched (i + 1) h' := by
    intro i h' hi
    unfold advance
    rw [show (p.matched i h).index + 1 = i + 1 from rfl, Nat.mod_eq_of_lt (by omega)]
    rfl
  have hmatching : ∀ (k : Keyword UInt8 UInt8) (found : HeaderStates),
      Towards fieldNames k v i → (∀ v i, Towards fieldNames k v i → Named v i h) →
      (∀ v i, Found fieldNames k v → Named v i found) →
      ∃ i' h', some (matching (p.matched i h) (token ch) k.word found) = some (p.matched i' h') ∧
        Named (v ++ [ch]) i' h' := by
    intro k found ht hthis hfound
    have hshort : ∀ k ∈ fieldNames, k.word.length < 256 := by decide
    obtain ⟨word, hword, rfl⟩ := fieldNames_eq ht.mem
    obtain ⟨h', heq, hcases⟩ := matching_among (p := p) (h := h) found ch ht
      (hshort _ ht.mem)
    refine ⟨i + 1, h', congrArg some heq, ?_⟩
    rcases hcases with ⟨rfl, ht'⟩ | ⟨rfl, hf⟩ | ⟨rfl, hdead⟩
    · exact hthis _ _ ht'
    · exact hfound _ _ hf
    · exact hdead
  have hbehind : ∀ k, Found fieldNames k v → ∃ i' h',
      some (if ch ≠ byte ' ' then (p.matched i h).expect .general else p.matched i h) =
        some (p.matched i' h') ∧ Named (v ++ [ch]) i' h' := by
    intro k hf
    obtain ⟨word, hword, rfl⟩ := fieldNames_eq hf.mem
    rw [if_pos hblank]
    exact ⟨i, .general, rfl, (hf.only.append _).allDead (hf.spells.dead hblank)⟩
  unfold nameToken
  rw [show (p.matched i h).headerState = h from rfl]
  cases h with
  | general => exact ⟨i, .general, rfl, AllDead.append hn _⟩
  | C =>
    obtain ⟨hv, rfl⟩ := hn
    dsimp only
    rw [hindex 0 _ (by decide)]
    refine ⟨1, _, rfl, ?_⟩
    split
    · rename_i hc
      exact ⟨by rw [List.map_append, hv, List.map_singleton, hc]; rfl, rfl⟩
    · rename_i hc
      have hnext : ∀ k ∈ fieldNames, ascii "c" <+: k.word → k.word[1]? = some (byte 'o') := by decide
      exact allDead_branch hv (by decide) fun k hk hw hletter =>
        hc (Option.some.inj (hletter.symm.trans (hnext k hk hw)))
  | CO =>
    obtain ⟨hv, rfl⟩ := hn
    dsimp only
    rw [hindex 1 _ (by decide)]
    refine ⟨2, _, rfl, ?_⟩
    split
    · rename_i hc
      exact ⟨by rw [List.map_append, hv, List.map_singleton, hc]; rfl, rfl⟩
    · rename_i hc
      have hnext : ∀ k ∈ fieldNames, ascii "co" <+: k.word → k.word[2]? = some (byte 'n') := by decide
      exact allDead_branch hv (by decide) fun k hk hw hletter =>
        hc (Option.some.inj (hletter.symm.trans (hnext k hk hw)))
  | CON =>
    obtain ⟨hv, rfl⟩ := hn
    dsimp only
    rw [hindex 2 _ (by decide)]
    refine ⟨3, _, rfl, ?_⟩
    split
    · rename_i hc
      exact towards_start (w := ascii "conn")
        (by rw [List.map_append, hv, List.map_singleton, hc]; rfl) (by simp [fieldNames]) rfl
        (by decide) (by decide)
    · split
      · rename_i hc
        exact towards_start (w := ascii "cont")
          (by rw [List.map_append, hv, List.map_singleton, hc]; rfl) (by simp [fieldNames]) rfl
          (by decide) (by decide)
      · rename_i hn ht
        have hnext : ∀ k ∈ fieldNames, ascii "con" <+: k.word →
            k.word[3]? = some (byte 'n') ∨ k.word[3]? = some (byte 't') := by decide
        refine allDead_branch hv (by decide) fun k hk hw hletter => ?_
        rcases hnext k hk hw with heq | heq
        · exact hn (Option.some.inj (hletter.symm.trans heq))
        · exact ht (Option.some.inj (hletter.symm.trans heq))
  | matchingConnection =>
    exact hmatching connectionName _ hn (fun _ _ h => h) fun _ _ h => .inl h
  | matchingProxyConnection =>
    exact hmatching proxyConnectionName _ hn (fun _ _ h => h)
      fun _ _ h => .inr h
  | matchingContentLength =>
    exact hmatching contentLengthName _ hn (fun _ _ h => h) fun _ _ h => h
  | matchingTransferEncoding =>
    exact hmatching transferEncodingName _ hn (fun _ _ h => h) fun _ _ h => h
  | matchingUpgrade =>
    exact hmatching upgradeName _ hn (fun _ _ h => h) fun _ _ h => h
  | connection =>
    rcases hn with hn | hn
    · exact hbehind _ hn
    · exact hbehind _ hn
  | contentLength => exact hbehind _ hn
  | transferEncoding => exact hbehind _ hn
  | upgrade => exact hbehind _ hn
  | matchingTransferEncodingChunked => exact hn.elim
  | matchingConnectionKeepAlive => exact hn.elim
  | matchingConnectionClose => exact hn.elim
  | transferEncodingChunked => exact hn.elim
  | connectionKeepAlive => exact hn.elim
  | connectionClose => exact hn.elim

/-! ## What a name comes to -/

/-- The header that a name is recognised as. -/
def fieldKind (name : Bytes) : HeaderStates :=
  if connectionName.Spells name ∨ proxyConnectionName.Spells name then .connection
  else if contentLengthName.Spells name then .contentLength
  else if transferEncodingName.Spells name then .transferEncoding
  else if upgradeName.Spells name then .upgrade
  else .general

theorem Only.not_spells (h : Only fieldNames k v) {k' : Keyword UInt8 UInt8} (hk' : k' ∈ fieldNames)
    (hne : k'.word ≠ k.word) : ¬ k'.Spells v := by
  rcases h k' hk' with rfl | hdead
  · exact absurd rfl hne
  · exact hdead.not_spells

/-- A name that is none of the words. -/
theorem fieldKind_general (h : ∀ k ∈ fieldNames, ¬ k.Spells v) : fieldKind v = .general := by
  unfold fieldKind
  rw [if_neg (not_or.mpr ⟨h _ (by simp [fieldNames]), h _ (by simp [fieldNames])⟩),
    if_neg (h _ (by simp [fieldNames])), if_neg (h _ (by simp [fieldNames])),
    if_neg (h _ (by simp [fieldNames]))]

theorem Towards.fieldKind (h : Towards fieldNames k v i) : fieldKind v = .general := by
  refine fieldKind_general fun k' hk' => ?_
  rcases h.only k' hk' with rfl | hdead
  · exact h.begun.not_spells
  · exact hdead.not_spells

/-- **At the end of a name** the first character of the value is taken as what the whole name says. -/
theorem named_firstOfValue (hn : Named v i h) (j : Nat) (ch : UInt8) :
    firstOfValue (p.matched j h) ch = firstOfValue (p.matched j (fieldKind v)) ch := by
  have hshort : v.length < 7 → fieldKind v = .general := by
    intro hv
    have hseven : ∀ k ∈ fieldNames, 7 ≤ k.word.length := by decide
    refine fieldKind_general fun k hk hspells => ?_
    have hlength := hspells.length
    have hk7 := hseven k hk
    omega
  cases h with
  | general =>
    have hkind := fieldKind_general fun k hk => (hn k hk).not_spells
    rw [hkind]
  | C =>
    have hlength : (v.map token).length = _ := congrArg List.length hn.1
    rw [List.length_map] at hlength
    rw [hshort (hlength ▸ by decide)]
    rfl
  | CO =>
    have hlength : (v.map token).length = _ := congrArg List.length hn.1
    rw [List.length_map] at hlength
    rw [hshort (hlength ▸ by decide)]
    rfl
  | CON =>
    have hlength : (v.map token).length = _ := congrArg List.length hn.1
    rw [List.length_map] at hlength
    rw [hshort (hlength ▸ by decide)]
    rfl
  | matchingConnection => rw [Towards.fieldKind hn]; rfl
  | matchingProxyConnection => rw [Towards.fieldKind hn]; rfl
  | matchingContentLength => rw [Towards.fieldKind hn]; rfl
  | matchingTransferEncoding => rw [Towards.fieldKind hn]; rfl
  | matchingUpgrade => rw [Towards.fieldKind hn]; rfl
  | connection =>
    have hkind : fieldKind v = .connection := if_pos (hn.imp Found.spells Found.spells)
    rw [hkind]
  | contentLength =>
    have hkind : fieldKind v = .contentLength := by
      unfold fieldKind
      rw [if_neg (not_or.mpr ⟨hn.only.not_spells (by simp [fieldNames]) (by decide),
        hn.only.not_spells (by simp [fieldNames]) (by decide)⟩), if_pos hn.spells]
    rw [hkind]
  | transferEncoding =>
    have hkind : fieldKind v = .transferEncoding := by
      unfold fieldKind
      rw [if_neg (not_or.mpr ⟨hn.only.not_spells (by simp [fieldNames]) (by decide),
        hn.only.not_spells (by simp [fieldNames]) (by decide)⟩),
        if_neg (hn.only.not_spells (by simp [fieldNames]) (by decide)), if_pos hn.spells]
    rw [hkind]
  | upgrade =>
    have hkind : fieldKind v = .upgrade := by
      unfold fieldKind
      rw [if_neg (not_or.mpr ⟨hn.only.not_spells (by simp [fieldNames]) (by decide),
        hn.only.not_spells (by simp [fieldNames]) (by decide)⟩),
        if_neg (hn.only.not_spells (by simp [fieldNames]) (by decide)),
        if_neg (hn.only.not_spells (by simp [fieldNames]) (by decide)), if_pos hn.spells]
    rw [hkind]
  | matchingTransferEncodingChunked => exact hn.elim
  | matchingConnectionKeepAlive => exact hn.elim
  | matchingConnectionClose => exact hn.elim
  | transferEncodingChunked => exact hn.elim
  | connectionKeepAlive => exact hn.elim
  | connectionClose => exact hn.elim

end Pixie.Engine
