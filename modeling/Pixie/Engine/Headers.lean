/-
  The switch of `http_parser_execute` in headers and trailers.

  What is recognised of a name or of a value is one of the kinds that the switch of the state knows
  (`HeaderStates.ofName`, `HeaderStates.ofValue`): so its `assert(0)` is not met.  A length that takes
  one more digit stays below `ULLONG_MAX`, because the digit is refused before it could get there:
  `ULLONG_MAX` says that there was no length, and nothing else does.
-/
import Pixie.Engine.FirstLine

namespace Pixie.Engine

open Pixie.Decimal Pixie.Http Pixie.Run

variable {s s' : State} {o : Open} {ph : Phase} {ch : UInt8} {p q : HttpParser}

theorem InLine.inHeaders {t : Bool} (h : InLine t ph) : InHeaders t ph := .inr h

theorem emits_headerField {t : Bool} (h : InHeaders t ph) (d : Bytes) :
    Emits ph (.headerField d) (.field t) := by
  rcases h with rfl | rfl | rfl
  · cases t with
    | false => exact .firstField d
    | true => exact .firstTrailer d
  · exact .field t d
  · exact .nextField t d

theorem emits_headerValue {t : Bool} (h : InLine t ph) (d : Bytes) :
    Emits ph (.headerValue d) (.value t) := by
  rcases h with rfl | rfl
  · exact .value t d
  · exact .moreValue t d

theorem firstOfName_ofName (c : UInt8) : (firstOfName c).ofName = true := by
  unfold firstOfName
  split_ifs <;> rfl

theorem headerFieldStart_good (hlive : Live q) (hph : InHeaders q.flags.trailing ph) :
    Good .headerFieldStart none ph ch (headerFieldStart q ch) := by
  unfold headerFieldStart
  split
  · exact good_stay ⟨hlive, hph, rfl⟩ (rests_of_settled rfl)
  · split
    · exact good_again ⟨hlive, hph, rfl⟩ (by decide) rfl
    · split
      · exact good_fail (by decide)
      · exact good_mark ⟨hlive, ⟨hph, firstOfName_ofName _⟩, rfl⟩ (rests_of_settled rfl)

/-- Matching a word changes what is recognised and nothing else. -/
theorem matching_eq (p : HttpParser) (c : UInt8) (word : Bytes) (found : HeaderStates) :
    ∃ i h, matching p c word found = { p with index := i, headerState := h } ∧
      (h = .general ∨ h = found ∨ h = p.headerState) := by
  unfold matching
  dsimp only
  split
  · exact ⟨_, _, rfl, .inl rfl⟩
  · split
    · exact ⟨_, _, rfl, .inr (.inl rfl)⟩
    · exact ⟨_, _, rfl, .inr (.inr rfl)⟩

theorem nameToken_eq (c : UInt8) (hname : p.headerState.ofName = true) :
    ∃ i h, nameToken p ch c = some { p with index := i, headerState := h } ∧ h.ofName = true := by
  have hmatching : ∀ (word : Bytes) (found : HeaderStates), found.ofName = true →
      ∃ i h, some (matching p c word found) = some { p with index := i, headerState := h } ∧
        h.ofName = true := by
    intro word found hfound
    obtain ⟨i, h, heq, hh⟩ := matching_eq p c word found
    refine ⟨i, h, congrArg some heq, ?_⟩
    rcases hh with rfl | rfl | rfl
    · rfl
    · exact hfound
    · exact hname
  have hfound : ∃ i h, some (if ch ≠ byte ' ' then p.expect .general else p) =
      some { p with index := i, headerState := h } ∧ h.ofName = true := by
    split
    · exact ⟨_, _, rfl, rfl⟩
    · exact ⟨_, _, rfl, hname⟩
  unfold nameToken
  cases hs : p.headerState with
  | general => exact ⟨_, _, rfl, hname⟩
  | C => exact ⟨_, _, rfl, by split <;> rfl⟩
  | CO => exact ⟨_, _, rfl, by split <;> rfl⟩
  | CON => exact ⟨_, _, rfl, by split_ifs <;> rfl⟩
  | matchingConnection => exact hmatching _ _ rfl
  | matchingProxyConnection => exact hmatching _ _ rfl
  | matchingContentLength => exact hmatching _ _ rfl
  | matchingTransferEncoding => exact hmatching _ _ rfl
  | matchingUpgrade => exact hmatching _ _ rfl
  | connection => exact hfound
  | contentLength => exact hfound
  | transferEncoding => exact hfound
  | upgrade => exact hfound
  | matchingTransferEncodingChunked => rw [hs] at hname; cases hname
  | matchingConnectionKeepAlive => rw [hs] at hname; cases hname
  | matchingConnectionClose => rw [hs] at hname; cases hname
  | transferEncodingChunked => rw [hs] at hname; cases hname
  | connectionKeepAlive => rw [hs] at hname; cases hname
  | connectionClose => rw [hs] at hname; cases hname

theorem headerField_good {d : Bytes} (hlive : Live q) (hs : q.state = .headerField)
    (hph : InHeaders q.flags.trailing ph) (hname : q.headerState.ofName = true) :
    Good .headerField (some (.headerField, d)) ph ch (headerField q ch) := by
  have hemits := emits_headerField hph d
  unfold headerField
  split
  · obtain ⟨i, h, heq, hh⟩ := nameToken_eq (token ch) hname
    rw [heq]
    refine good_stay ⟨hlive, ?_, ?_⟩ (rests_of_settled ((congrArg State.settled hs).trans rfl))
    · simp only [At, hs]
      exact ⟨hph, hh⟩
    · show Fits q.state _
      rw [hs]
      rfl
  · split
    · exact good_close hemits ⟨hlive, .inl rfl, rfl⟩ (rests_of_settled rfl)
    · split
      · exact good_close hemits ⟨hlive, .inl rfl, rfl⟩ (rests_of_settled rfl)
      · split
        · exact good_close hemits ⟨hlive, InLine.inHeaders (.inl rfl), rfl⟩ (rests_of_settled rfl)
        · exact good_fail (by decide)

/-- What a header line keeps, besides `header_state`. -/
theorem stands_line {t : Bool} (hlive : Live q) (ht : q.flags.trailing = t) (hph : InLine t ph)
    (hs : q.state = .headerValueStart ∨ q.state = .headerAlmostDone ∨ q.state = .headerValueLws) :
    Stands q none ph := by
  subst ht
  rcases hs with hs | hs | hs
  · exact ⟨hlive, by simp only [At, hs]; exact hph, by simp [Fits, hs, State.inBody, openMark]⟩
  · exact ⟨hlive, by simp only [At, hs]; exact hph, by simp [Fits, hs, State.inBody, openMark]⟩
  · exact ⟨hlive, by simp only [At, hs]; exact hph, by simp [Fits, hs, State.inBody, openMark]⟩

/-- A value that has begun. -/
theorem stands_headerValue {d : Bytes} (hlive : Live q) (hs : q.state = .headerValue)
    (hph : InLine q.flags.trailing ph) (hvalue : q.headerState.ofValue = true) :
    Stands q (some (.headerValue, d)) ph :=
  ⟨hlive, by simp only [At, hs]; exact ⟨hph, hvalue⟩, by simp [Fits, hs, State.inBody, openMark]⟩

theorem isNum_digit {c : UInt8} (h : isNum c = true) : c.toNat - 48 ≤ 9 := by
  have hle : c.toNat ≤ 57 := by
    simp only [isNum, isdigit, Bool.and_eq_true, decide_eq_true_eq, UInt8.le_iff_toNat_le] at h
    exact h.2
  omega

theorem firstOfValue_ok (hlive : Live p) (h : firstOfValue p ch = .ok q) :
    Live q ∧ q.state = p.state ∧ q.flags.trailing = p.flags.trailing ∧
      q.headerState.ofValue = true := by
  unfold firstOfValue at h
  split at h
  · cases h
    exact ⟨hlive, rfl, rfl, rfl⟩
  · cases h
    exact ⟨hlive, rfl, rfl, by show HeaderStates.ofValue (if _ then _ else _) = true; split <;> rfl⟩
  · rename_i hs
    split at h
    · cases h
    · rename_i hnum
      cases h
      have hdigit := isNum_digit (not_not.mp hnum)
      refine ⟨⟨hlive.1, ?_⟩, rfl, rfl, ?_⟩
      · show ch.toNat - 48 ≤ 2 ^ 64 - 1
        omega
      · show p.headerState.ofValue = true
        rw [hs]
        rfl
  · cases h
    exact ⟨hlive, rfl, rfl, by show HeaderStates.ofValue (if _ then _ else _) = true; split_ifs <;> rfl⟩
  · cases h
    exact ⟨hlive, rfl, rfl, rfl⟩

theorem firstOfValue_error {e : Errno} (h : firstOfValue p ch = .error e) : e ≠ .ok := by
  unfold firstOfValue at h
  split at h <;> try cases h
  split at h <;> cases h
  decide

theorem headerValueStart_good (hlive : Live q) (hs : q.state = .headerValueStart)
    (hph : InLine q.flags.trailing ph) :
    Good .headerValueStart none ph ch (headerValueStart q ch) := by
  have hempty : Path Emits ph [.headerValue []] (.value q.flags.trailing) :=
    .cons (emits_headerValue hph []) (.nil _)
  unfold headerValueStart
  split
  · exact good_stay (stands_line hlive rfl hph (.inl hs))
      (rests_of_settled ((congrArg State.settled hs).trans rfl))
  · dsimp only
    split
    · exact ⟨_, rfl, rfl, by rintro _ ⟨⟩; exact within_mark rfl (.inr (.inl rfl)), _, hempty,
        stands_line hlive rfl (.inr rfl) (.inr (.inl rfl)), rests_of_settled rfl⟩
    · split
      · exact ⟨_, rfl, rfl, by rintro _ ⟨⟩; exact within_mark rfl (.inr (.inl rfl)), _, hempty,
          ⟨hlive, InLine.inHeaders (.inr rfl), rfl⟩, rests_of_settled rfl⟩
      · split
        · rename_i r hr
          obtain ⟨hlive', hstate, ht, hvalue⟩ := firstOfValue_ok (p := { q with state := .headerValue, index := 0 }) hlive hr
          refine good_mark (stands_headerValue hlive' hstate ?_ hvalue)
            (rests_of_settled ((congrArg State.settled hstate).trans rfl))
          rw [ht]
          exact hph
        · rename_i e he
          exact ⟨_, rfl, rfl, by rintro _ ⟨⟩; exact within_mark rfl (.inl rfl), ph, .nil _,
            firstOfValue_error he⟩

/-- A length that takes one more digit stays below `ULLONG_MAX`: it does not wrap. -/
theorem moreLength_ok {base digit : Nat} (hbase : base ≤ 16) (hdigit : digit < base)
    (h : moreLength p base digit = .ok q) :
    q = { p with contentLength := p.contentLength * base + digit } ∧
      p.contentLength * base + digit < ullongMax := by
  unfold moreLength at h
  split at h
  · cases h
  · rename_i hle
    have hmul : p.contentLength * base ≤ ullongMax - base :=
      (Nat.le_div_iff_mul_le (Nat.zero_lt_of_lt hdigit)).mp (not_lt.mp hle)
    have hlt : p.contentLength * base + digit < ullongMax := by
      simp only [ullongMax] at hmul ⊢
      omega
    cases h
    refine ⟨?_, hlt⟩
    rw [Nat.mod_eq_of_lt (hlt.trans (by decide))]

theorem moreLength_error {base digit : Nat} {e : Errno} (h : moreLength p base digit = .error e) :
    e ≠ .ok := by
  unfold moreLength at h
  split at h
  · cases h
    decide
  · cases h

/-- A character of a value that is no error: it changes what is recognised, or the length. -/
theorem valueChar_good (hlive : Live p) (hs : p.state = .headerValue)
    (hvalue : p.headerState.ofValue = true) :
    (∃ e, valueChar p ch = some (.error e) ∧ e ≠ .ok) ∨
      ∃ q, valueChar p ch = some (.ok q) ∧ Live q ∧ q.state = .headerValue ∧
        q.flags.trailing = p.flags.trailing ∧ q.headerState.ofValue = true := by
  have hmatching : ∀ (word : Bytes) (found : HeaderStates), found.ofValue = true →
      ∃ q, some (Except.ok (ε := Errno) (matching p (lower ch) word found)) = some (.ok q) ∧ Live q ∧
        q.state = .headerValue ∧ q.flags.trailing = p.flags.trailing ∧
          q.headerState.ofValue = true := by
    intro word found hfound
    obtain ⟨i, h, heq, hh⟩ := matching_eq p (lower ch) word found
    rw [heq]
    refine ⟨_, rfl, hlive, hs, rfl, ?_⟩
    rcases hh with rfl | rfl | rfl
    · rfl
    · exact hfound
    · exact hvalue
  have hfound : ∃ q, some (Except.ok (ε := Errno) (if ch ≠ byte ' ' then p.expect .general else p)) =
      some (.ok q) ∧ Live q ∧ q.state = .headerValue ∧ q.flags.trailing = p.flags.trailing ∧
        q.headerState.ofValue = true := by
    split
    · exact ⟨_, rfl, hlive, hs, rfl, rfl⟩
    · exact ⟨_, rfl, hlive, hs, rfl, hvalue⟩
  unfold valueChar
  split
  · exact .inr ⟨_, rfl, hlive, hs, rfl, hvalue⟩
  · rename_i heq
    rw [heq] at hvalue
    cases hvalue
  · rename_i heq
    rw [heq] at hvalue
    cases hvalue
  · split
    · exact .inr ⟨_, rfl, hlive, hs, rfl, hvalue⟩
    · split
      · exact .inl ⟨_, rfl, by decide⟩
      · rename_i hnum
        have hdigit : ch.toNat - 48 < 10 := Nat.lt_succ_of_le (isNum_digit (not_not.mp hnum))
        cases hmore : moreLength p 10 (ch.toNat - 48) with
        | error e => exact .inl ⟨e, rfl, moreLength_error hmore⟩
        | ok q =>
          obtain ⟨rfl, hlt⟩ := moreLength_ok (by decide) hdigit hmore
          exact .inr ⟨_, rfl, ⟨hlive.1, hlt.le⟩, hs, rfl, hvalue⟩
  · exact .inr (hmatching _ _ rfl)
  · exact .inr (hmatching _ _ rfl)
  · exact .inr (hmatching _ _ rfl)
  · exact .inr hfound
  · exact .inr hfound
  · exact .inr hfound
  · exact .inr ⟨_, rfl, hlive, rfl, rfl, rfl⟩

theorem headerValue_good {d : Bytes} (hlive : Live q) (hs : q.state = .headerValue)
    (hph : InLine q.flags.trailing ph) (hvalue : q.headerState.ofValue = true) :
    Good .headerValue (some (.headerValue, d)) ph ch (headerValue q ch) := by
  have hstands : Stands (q.goto .headerAlmostDone) none (.value q.flags.trailing) :=
    stands_line hlive rfl (.inr rfl) (.inr (.inl rfl))
  unfold headerValue
  split
  · exact good_close (emits_headerValue hph d) hstands (rests_of_settled rfl)
  · split
    · -- The byte is looked at again: it ends the line.
      have hresult : handOver .headerValue (some (.headerValue, d)) [] =
          ([.headerValue d], none) := by
        rw [handOver_same, List.append_nil]
        rfl
      refine ⟨_, rfl, rfl, ?_, .value q.flags.trailing, ?_, ?_⟩
      · rintro _ ⟨⟩
        exact within_data rfl rfl
      · show Path Emits ph (handOver .headerValue (some (.headerValue, d)) []).1 _
        rw [hresult]
        exact .cons (emits_headerValue hph d) (.nil _)
      · show Stands _ (handOver .headerValue (some (.headerValue, d)) []).2 _ ∧ _
        rw [hresult]
        exact ⟨hstands, Nat.zero_lt_one, rfl⟩
    · rcases valueChar_good hlive hs hvalue with ⟨e, heq, he⟩ | ⟨r, heq, hlive', hstate, ht, hvalue'⟩
      · rw [heq]
        exact good_fail he
      · rw [heq]
        refine good_stay (stands_headerValue hlive' hstate ?_ hvalue')
          (rests_of_settled ((congrArg State.settled hstate).trans rfl))
        rw [ht]
        exact hph

theorem headerAlmostDone_good (hlive : Live q) (hph : InLine q.flags.trailing ph) :
    Good .headerAlmostDone none ph ch (headerAlmostDone q ch) := by
  unfold headerAlmostDone
  split
  · exact good_fail (by decide)
  · refine good_stay (stands_line hlive ?_ hph (.inr (.inr rfl))) (rests_of_settled rfl)
    dsimp only [HttpParser.goto]
    split <;> rfl

theorem headerValueLws_good (hlive : Live q) (hph : InLine q.flags.trailing ph) :
    Good .headerValueLws none ph ch (headerValueLws q ch) := by
  unfold headerValueLws
  split
  · exact good_stay (stands_line hlive rfl hph (.inl rfl)) (rests_of_settled rfl)
  · exact good_again ⟨hlive, InLine.inHeaders hph, rfl⟩ (by decide) rfl

theorem headersAlmostDone_good (hlive : Live q) (hph : InHeaders q.flags.trailing ph) :
    Good .headersAlmostDone none ph ch (headersAlmostDone q ch) := by
  unfold headersAlmostDone
  split
  · exact good_fail (by decide)
  · split
    · rename_i ht
      rw [ht] at hph
      exact complete_good hlive hph
    · rename_i ht
      rw [Bool.not_eq_true] at ht
      rw [ht] at hph
      dsimp only
      refine ⟨_, rfl, rfl, within_none rfl, _, .cons (.headersComplete ph _ _ hph ?_) (.nil _),
        ⟨hlive, rfl, rfl⟩, Nat.zero_lt_one, rfl⟩
      split
      · exact .inr rfl
      · exact .inl rfl

theorem headersDone_good (hlive : Live q) (hph : ph = if readsToEof q then .bodyEof else .body) :
    Good .headersDone none ph ch (headersDone q ch) := by
  -- But for the last way out the end of the body can be told.
  have hbody : ¬ readsToEof q → ph = .body := fun h => by rw [hph, if_neg h]
  unfold headersDone
  split
  · exact good_fail (by decide)
  · dsimp only
    split
    · rename_i hup
      have hp : ph = .body := hbody fun h => by simp [h.1] at hup
      exact ⟨_, rfl, rfl, within_none rfl, .between, .cons (.messageComplete ph (.inl hp)) (.nil _),
        stands_newMessage (q := { q with nread := 0 }) hlive, rests_newMessage { q with nread := 0 }, rfl⟩
    · rename_i hup
      split
      · rename_i hskip
        exact complete_good (q := { q with nread := 0 }) hlive
          (.inl (hbody fun h => by simp [h.2.1] at hskip))
      · rename_i hskip
        split
        · rename_i hchunked
          exact good_stay ⟨hlive, ⟨hbody fun h => by simp [h.2.2.1] at hchunked, hchunked⟩, rfl⟩
            (rests_chunkSizeStart rfl)
        · rename_i hchunked
          split
          · rename_i hlength
            exact complete_good (q := { q with nread := 0 }) hlive
              (.inl (hbody fun h => absurd (hlength.symm.trans h.2.2.2.1) (by decide)))
          · rename_i hlength
            split
            · rename_i hmax
              exact good_stay ⟨hlive, ⟨hbody fun h => hmax h.2.2.2.1, lt_of_le_of_ne hlive.2 hmax,
                hlength⟩, .inl rfl⟩ (rests_of_settled rfl)
            · rename_i hmax
              split
              · rename_i hreq
                refine complete_good (q := { q with nread := 0 }) hlive (.inl (hbody fun h => ?_))
                rcases hreq with hreq | hreq
                · exact h.2.2.2.2.1 hreq
                · exact hreq h.2.2.2.2.2
              · rename_i hreq
                have heof : readsToEof q :=
                  ⟨Bool.eq_false_of_not_eq_true hup, Bool.eq_false_of_not_eq_true hskip,
                    Bool.eq_false_of_not_eq_true hchunked, not_not.mp hmax,
                    fun h => hreq (.inl h), by_contra fun h => hreq (.inr h)⟩
                rw [if_pos heof] at hph
                exact good_stay ⟨hlive, hph, .inl rfl⟩ (rests_of_settled rfl)

end Pixie.Engine
