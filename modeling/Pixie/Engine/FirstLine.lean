/-
  The switch of `http_parser_execute` in first lines and between messages.

  In each state the switch meets no assertion, makes only callbacks that the grammar of the wrapper
  allows there, and leaves the parser as the next byte expects it (`Good`).  What one has to know of
  the states of a first line:
    * no string is open but the status and the url, and `flags` say nothing yet (`Line`);
    * `index` stays inside the string of the method, whichever method it turns into;
    * after each character of the url the machine is in a state of the url, or gives up.
-/
import Pixie.Engine.Step

namespace Pixie.Engine

open Pixie.Decimal Pixie.Http Pixie.Run

variable {s s' : State} {o : Open} {ph : Phase} {ch : UInt8} {p q : HttpParser}

/-! ## Between messages and first lines -/

/-- The states of a first line in which no string is open. -/
def State.inLine : State → Bool
  | .resOrRespH | .resH | .resHT | .resHTT | .resHTTP | .resFirstHttpMajor | .resHttpMajor
  | .resFirstHttpMinor | .resHttpMinor | .resFirstStatusCode | .resStatusCode | .resStatusStart
  | .resLineAlmostDone | .reqSpacesBeforeUrl | .reqHttpStart | .reqHttpH | .reqHttpHT | .reqHttpHTT
  | .reqHttpHTTP | .reqFirstHttpMajor | .reqHttpMajor | .reqFirstHttpMinor | .reqHttpMinor
  | .reqLineAlmostDone => true
  | _ => false

theorem at_of_inLine (hs : q.state.inLine = true) :
    At q ph ↔ ph = .start ∧ q.flags.trailing = false := by
  unfold At
  revert hs
  cases q.state <;> simp [State.inLine]

theorem fits_of_inLine (hs : s.inLine = true) : Fits s o ↔ o = none := by
  unfold Fits
  revert hs
  cases s <;> simp [State.inLine, State.inBody, openMark]

/-- What a first line keeps. -/
def Line (q : HttpParser) : Prop := Live q ∧ q.flags.trailing = false

theorem stands_of_inLine (hs : q.state.inLine = true) :
    Stands q o ph ↔ Line q ∧ ph = .start ∧ o = none := by
  constructor
  · rintro ⟨hlive, hat, hfits⟩
    obtain ⟨hph, ht⟩ := (at_of_inLine hs).mp hat
    exact ⟨⟨hlive, ht⟩, hph, (fits_of_inLine hs).mp hfits⟩
  · rintro ⟨⟨hlive, ht⟩, hph, ho⟩
    exact ⟨hlive, (at_of_inLine hs).mpr ⟨hph, ht⟩, (fits_of_inLine hs).mpr ho⟩

theorem rests_of_inLine (hs : q.state.inLine = true) : Rests q := by
  apply rests_of_settled
  revert hs
  cases q.state <;> simp [State.inLine, State.settled]

theorem line_stay (h : Line q) (hs : q.state.inLine = true) : Good s none .start ch (stay q) :=
  good_stay ((stands_of_inLine hs).mpr ⟨h, rfl, rfl⟩) (rests_of_inLine hs)

theorem line_go (h : Line q) (hs : s'.inLine = true) : Good s none .start ch (go q s') :=
  line_stay (q := q.goto s') h hs

/-- The end of a first line. -/
theorem stands_headers (h : Line q) : Stands (q.goto .headerFieldStart) none .start := by
  refine ⟨h.1, ?_, rfl⟩
  show InHeaders q.flags.trailing .start
  rw [h.2]
  exact .inl rfl

theorem line_end (h : Line q) : Good s none .start ch (go q .headerFieldStart) :=
  good_stay (stands_headers h) (rests_of_settled rfl)

theorem literal_good {c : UInt8} (h : Line q) (hs : s'.inLine = true) :
    Good s none .start ch (literal q ch c s') := by
  unfold literal
  split
  · exact good_fail (by decide)
  · exact line_go h hs

theorem literal_end {c : UInt8} (h : Line q) :
    Good s none .start ch (literal q ch c .headerFieldStart) := by
  unfold literal
  split
  · exact good_fail (by decide)
  · exact line_end h

/-- Between messages. -/
theorem stands_between (hlive : Live q)
    (hs : q.state = .dead ∨ q.state = .startReqOrRes ∨ q.state = .startRes ∨ q.state = .startReq) :
    Stands q none .between := by
  rcases hs with hs | hs | hs | hs
  · exact ⟨hlive, by simp [At, hs], by simp [Fits, hs, State.inBody, openMark]⟩
  · exact ⟨hlive, by simp [At, hs], by simp [Fits, hs, State.inBody, openMark]⟩
  · exact ⟨hlive, by simp [At, hs], by simp [Fits, hs, State.inBody, openMark]⟩
  · exact ⟨hlive, by simp [At, hs], by simp [Fits, hs, State.inBody, openMark]⟩

theorem newMessage_cases (q : HttpParser) :
    q.newMessage = .dead ∨ q.newMessage = .startReq ∨ q.newMessage = .startRes := by
  unfold HttpParser.newMessage HttpParser.startState
  split
  · split
    · exact .inr (.inl rfl)
    · exact .inr (.inr rfl)
  · exact .inl rfl

theorem stands_newMessage (hlive : Live q) : Stands (q.goto q.newMessage) none .between := by
  refine stands_between hlive ?_
  rcases newMessage_cases q with h | h | h
  · exact .inl h
  · exact .inr (.inr (.inr h))
  · exact .inr (.inr (.inl h))

theorem rests_newMessage (q : HttpParser) : Rests (q.goto q.newMessage) := by
  apply rests_of_settled
  show q.newMessage.settled = true
  rcases newMessage_cases q with h | h | h
  · rw [h]; rfl
  · rw [h]; rfl
  · rw [h]; rfl

theorem complete_good (hlive : Live q)
    (hph : ph = .body ∨ ph = .field true ∨ ph = .value true) :
    Good s none ph ch (complete q) := by
  exact good_notify (.messageComplete ph hph) (stands_newMessage hlive) (rests_newMessage q)

theorem live_fresh (hlive : Live p) : Live (fresh p) := ⟨hlive.1, le_rfl⟩

theorem startReqOrRes_good (hlive : Live p) (hs : p.state = .startReqOrRes) :
    Good .startReqOrRes none .between ch (startReqOrRes p ch) := by
  have hfresh := live_fresh hlive
  unfold startReqOrRes
  split
  · exact good_stay (stands_between hlive (.inr (.inl hs))) (rests_of_settled (by rw [hs]; rfl))
  · split
    · exact good_notify .messageBegin
        ((stands_of_inLine rfl).mpr ⟨⟨hfresh, rfl⟩, rfl, rfl⟩) (rests_of_settled rfl)
    · exact good_again (stands_between hfresh (.inr (.inr (.inr rfl)))) (by decide) rfl

theorem startRes_good (hlive : Live p) :
    Good .startRes none .between ch (startRes p ch) := by
  have hfresh := live_fresh hlive
  unfold startRes
  split
  · exact good_notify .messageBegin
      ((stands_of_inLine rfl).mpr ⟨⟨hfresh, rfl⟩, rfl, rfl⟩) (rests_of_settled rfl)
  · split
    · exact good_notify .blankLine (stands_between hfresh (.inr (.inr (.inl rfl))))
        (rests_of_settled rfl)
    · exact good_fail (by decide)

theorem firstHttpMajor_good {least : UInt8} (h : Line q) (hs : s'.inLine = true) :
    Good s none .start ch (firstHttpMajor q ch least s') := by
  unfold firstHttpMajor
  split
  · exact good_fail (by decide)
  · exact line_go h hs

theorem httpMajor_good {dot : State} (h : Line q) (hs : q.state.inLine = true)
    (hdot : dot.inLine = true) : Good s none .start ch (httpMajor q ch dot) := by
  unfold httpMajor
  split
  · exact line_go h hdot
  · split
    · exact good_fail (by decide)
    · split
      · exact good_fail (by decide)
      · exact line_stay h hs

theorem firstHttpMinor_good (h : Line q) (hs : s'.inLine = true) :
    Good s none .start ch (firstHttpMinor q ch s') := by
  unfold firstHttpMinor
  split
  · exact good_fail (by decide)
  · exact line_go h hs

theorem httpMinor_good (h : Line q) (hs : q.state.inLine = true) :
    Good s none .start ch (httpMinor q ch) := by
  unfold httpMinor
  split
  · exact good_fail (by decide)
  · split
    · exact good_fail (by decide)
    · exact line_stay h hs

theorem resHttpMinor_good (h : Line q) (hs : q.state.inLine = true) :
    Good s none .start ch (resHttpMinor q ch) := by
  unfold resHttpMinor
  split
  · exact line_go h rfl
  · exact httpMinor_good h hs

theorem reqHttpMinor_good (h : Line q) (hs : q.state.inLine = true) :
    Good s none .start ch (reqHttpMinor q ch) := by
  unfold reqHttpMinor
  split
  · exact line_go h rfl
  · split
    · exact line_end h
    · exact httpMinor_good h hs

theorem resOrRespH_good (h : Line q) : Good s none .start ch (resOrRespH q ch) := by
  unfold resOrRespH
  split
  · exact line_go h rfl
  · split
    · exact good_fail (by decide)
    · refine good_stay ⟨h.1, ⟨rfl, h.2, ?_⟩, rfl⟩ (rests_of_settled rfl)
      show 2 ≤ (methodString .head).length
      decide

theorem resFirstStatusCode_good (h : Line q) (hs : q.state.inLine = true) :
    Good s none .start ch (resFirstStatusCode q ch) := by
  unfold resFirstStatusCode
  split
  · split
    · exact line_stay h hs
    · exact good_fail (by decide)
  · exact line_go h rfl

theorem resStatusCode_good (h : Line q) (hs : q.state.inLine = true) :
    Good s none .start ch (resStatusCode q ch) := by
  unfold resStatusCode
  split
  · split
    · exact line_go h rfl
    · split
      · exact line_go h rfl
      · split
        · exact line_end h
        · exact good_fail (by decide)
  · split
    · exact good_fail (by decide)
    · exact line_stay h hs

theorem resStatusStart_good (h : Line q) : Good s none .start ch (resStatusStart q ch) := by
  unfold resStatusStart
  split
  · exact line_go h rfl
  · split
    · exact line_end h
    · exact good_mark ⟨h.1, ⟨rfl, h.2⟩, rfl⟩ (rests_of_settled rfl)

theorem resStatus_good {d : Bytes} (h : Line q) (hs : q.state = .resStatus) :
    Good s (some (.status, d)) .start ch (resStatus q ch) := by
  unfold resStatus
  split
  · exact good_close (.status d) ((stands_of_inLine rfl).mpr ⟨h, rfl, rfl⟩) (rests_of_settled rfl)
  · split
    · exact good_close (.status d) (stands_headers h) (rests_of_settled rfl)
    · refine good_stay ⟨h.1, ?_, ?_⟩ (rests_of_settled (by rw [hs]; rfl))
      · simp only [At, hs]
        exact ⟨trivial, h.2⟩
      · simp [Fits, hs, State.inBody, openMark]

theorem reqHttpStart_good (h : Line q) (hs : q.state.inLine = true) :
    Good s none .start ch (reqHttpStart q ch) := by
  unfold reqHttpStart
  split
  · exact line_go h rfl
  · split
    · exact line_stay h hs
    · exact good_fail (by decide)

theorem reqLineAlmostDone_good (h : Line q) : Good s none .start ch (reqLineAlmostDone q ch) := by
  unfold reqLineAlmostDone
  split
  · exact good_fail (by decide)
  · exact line_end h

/-! ## Methods -/

/-- The letter that turns one method into another is a letter of the other. -/
theorem otherMethod_length {m m' : Method} {index : Nat} (h : otherMethod m index ch = some m') :
    index < (methodString m').length := by
  unfold otherMethod at h
  split_ifs at h <;> cases h <;> simp_all <;> decide

theorem startReq_good (hlive : Live p) (hs : p.state = .startReq) :
    Good .startReq none .between ch (startReq p ch) := by
  have hfresh := live_fresh hlive
  unfold startReq
  split
  · exact good_stay (stands_between hlive (.inr (.inr (.inr hs)))) (rests_of_settled (by rw [hs]; rfl))
  · split
    · exact good_fail (by decide)
    · cases hm : firstMethod ch with
      | none => exact good_fail (by decide)
      | some m =>
        refine good_notify .messageBegin ⟨hfresh, ⟨rfl, rfl, ?_⟩, rfl⟩
          (rests_of_settled rfl)
        show 1 ≤ (methodString m).length
        cases m <;> decide

theorem reqMethod_good (h : Line q) (hs : q.state = .reqMethod)
    (hindex : q.index ≤ (methodString q.method).length) :
    Good s none .start ch (reqMethod q ch) := by
  have hlength : ∀ m : Method, (methodString m).length < 256 := by
    intro m
    cases m <;> decide
  have hstay : ∀ m : Method, q.index < (methodString m).length →
      Good s none .start ch (stay (advance { q with method := m })) := by
    intro m hlt
    refine good_stay ⟨h.1, ?_, ?_⟩ (rests_of_settled ((congrArg State.settled hs).trans rfl))
    · have hmod : (q.index + 1) % 256 = q.index + 1 := Nat.mod_eq_of_lt (by have := hlength m; omega)
      have hstate : (advance { q with method := m }).state = .reqMethod := hs
      simp only [At, hstate]
      refine ⟨trivial, h.2, ?_⟩
      show (q.index + 1) % 256 ≤ _
      rw [hmod]
      exact hlt
    · show Fits q.state none
      rw [hs]
      rfl
  unfold reqMethod
  split
  · exact good_fail (by decide)
  · rename_i hch
    have hbound : q.index < (methodString q.method ++ [0]).length := by
      rw [List.length_append, List.length_singleton]
      omega
    rw [List.getElem?_eq_getElem hbound]
    show Good s none .start ch (if _ then _ else _)
    split
    · exact line_go h rfl
    · split
      · rename_i heq
        refine hstay q.method ?_
        by_contra hge
        have hlast : (methodString q.method ++ [0])[q.index] = 0 := by
          rw [List.getElem_append_right (by omega)]
          simp
        exact hch (heq.trans hlast)
      · cases hother : otherMethod q.method q.index ch with
        | none => exact good_fail (by decide)
        | some m => exact hstay m (otherMethod_length hother)

/-! ## The url -/

/-- The states in which the url is open. -/
def State.inUrl (s : State) : Bool := openMark s = some .url

theorem parseUrlChar_cases (s : State) (ch : UInt8) :
    parseUrlChar s ch = .dead ∨ (parseUrlChar s ch).inUrl = true := by
  have hserver : parseUrlChar.server ch = .dead ∨ (parseUrlChar.server ch).inUrl = true := by
    unfold parseUrlChar.server
    split_ifs <;> first | exact .inl rfl | exact .inr rfl
  unfold parseUrlChar
  split
  · exact .inl rfl
  · split
    · exact .inl rfl
    · split <;> first
        | exact hserver
        | exact .inl rfl
        | split_ifs <;> first | exact .inl rfl | exact .inr rfl | exact hserver

theorem stands_inUrl {d : Bytes} (h : Line q) (hs : q.state.inUrl = true) :
    Stands q (some (.url, d)) .start := by
  refine ⟨h.1, ?_, ?_⟩
  · have ht := h.2
    unfold At
    revert hs
    cases q.state <;> simp [State.inUrl, openMark, ht]
  · unfold Fits
    revert hs
    cases q.state <;> simp [State.inUrl, State.inBody, openMark]

theorem rests_inUrl (hs : q.state.inUrl = true) : Rests q := by
  apply rests_of_settled
  revert hs
  cases q.state <;> simp [State.inUrl, openMark, State.settled]

theorem reqSpacesBeforeUrl_good (h : Line q) (hs : q.state.inLine = true) :
    Good s none .start ch (reqSpacesBeforeUrl q ch) := by
  unfold reqSpacesBeforeUrl
  split
  · exact line_stay h hs
  · dsimp only
    generalize (if q.method = .connect then .reqServerStart else q.state) = from_
    split
    · refine ⟨_, rfl, rfl, ?_, .start, .nil _, ?_⟩
      · rintro _ ⟨⟩
        exact within_mark rfl (.inl rfl)
      · show Errno.invalidUrl ≠ .ok
        decide
    · rename_i hne
      have hurl := (parseUrlChar_cases from_ ch).resolve_left hne
      exact good_mark (stands_inUrl (q := q.goto (parseUrlChar from_ ch)) h hurl) (rests_inUrl hurl)

/-- The url goes on. -/
theorem url_good {d : Bytes} {s' : State} (h : Line q) (hs : s'.inUrl = true) :
    Good s (some (.url, d)) .start ch (go q s') :=
  good_stay (stands_inUrl (q := q.goto s') h hs) (rests_inUrl (q := q.goto s') hs)

theorem reqSchema_good {d : Bytes} (h : Line q) :
    Good s (some (.url, d)) .start ch (reqSchema q ch) := by
  unfold reqSchema
  split
  · exact good_fail (by decide)
  · split
    · exact good_fail (by decide)
    · rename_i hne
      exact url_good h ((parseUrlChar_cases _ ch).resolve_left hne)

theorem reqUrl_good {d : Bytes} (h : Line q) :
    Good s (some (.url, d)) .start ch (reqUrl q ch) := by
  unfold reqUrl
  split
  · exact good_close (.url d) ((stands_of_inLine rfl).mpr ⟨h, rfl, rfl⟩) (rests_of_settled rfl)
  · split
    · split
      · exact good_close (.url d) ((stands_of_inLine rfl).mpr ⟨h, rfl, rfl⟩) (rests_of_settled rfl)
      · exact good_close (.url d) (stands_headers (q := { q with httpMajor := 0, httpMinor := 9 }) h)
          (rests_of_settled rfl)
    · split
      · exact good_fail (by decide)
      · rename_i hne
        exact url_good h ((parseUrlChar_cases _ ch).resolve_left hne)

end Pixie.Engine
