/-
  The whole switch of `http_parser_execute`, and a byte.

  `pass_good` puts the states together.  `stepSwitch_good` is about the executions on one byte: each
  takes the machine to a state of lower rank, if it does not end them, so there are four at most.
  `step_good` adds the count of the bytes of headers.
-/
import Pixie.Engine.Bodies

namespace Pixie.Engine

open Pixie.Decimal Pixie.Http Pixie.Run

variable {s s' : State} {o : Open} {ph : Phase} {ch : UInt8} {p q : HttpParser}

/-! ## The whole switch -/

/-- No string is open in a state that has no mark of its own. -/
theorem fits_none (hbody : s.inBody = false) (hmark : openMark s = none) (h : Fits s o) : o = none := by
  unfold Fits at h
  rw [hbody, hmark] at h
  simpa using h

/-- In a state with a mark of its own, the string that begins there is open. -/
theorem fits_some {k : Mark} (hbody : s.inBody = false) (hmark : openMark s = some k)
    (h : Fits s o) : ∃ d, o = some (k, d) := by
  unfold Fits at h
  rw [hbody, hmark] at h
  obtain ⟨⟨k', d⟩, rfl, rfl⟩ := Option.map_eq_some_iff.mp h
  exact ⟨d, rfl⟩

theorem pass_inLine (h : Stands p o ph) (hs : p.state.inLine = true) :
    Good p.state o ph ch (pass p ch 1) := by
  obtain ⟨hline, rfl, rfl⟩ := (stands_of_inLine hs).mp h
  unfold pass
  revert hs
  cases hstate : p.state <;> first | (intro hs; cases hs; done) | intro hs
  case resOrRespH => exact resOrRespH_good hline
  case resH => exact literal_good hline rfl
  case resHT => exact literal_good hline rfl
  case resHTT => exact literal_good hline rfl
  case resHTTP => exact literal_good hline rfl
  case resFirstHttpMajor => exact firstHttpMajor_good hline rfl
  case resHttpMajor => exact httpMajor_good hline (by rw [hstate]; rfl) rfl
  case resFirstHttpMinor => exact firstHttpMinor_good hline rfl
  case resHttpMinor => exact resHttpMinor_good hline (by rw [hstate]; rfl)
  case resFirstStatusCode => exact resFirstStatusCode_good hline (by rw [hstate]; rfl)
  case resStatusCode => exact resStatusCode_good hline (by rw [hstate]; rfl)
  case resStatusStart => exact resStatusStart_good hline
  case resLineAlmostDone => exact literal_end hline
  case reqSpacesBeforeUrl => exact reqSpacesBeforeUrl_good hline (by rw [hstate]; rfl)
  case reqHttpStart => exact reqHttpStart_good hline (by rw [hstate]; rfl)
  case reqHttpH => exact literal_good hline rfl
  case reqHttpHT => exact literal_good hline rfl
  case reqHttpHTT => exact literal_good hline rfl
  case reqHttpHTTP => exact literal_good hline rfl
  case reqFirstHttpMajor => exact firstHttpMajor_good hline rfl
  case reqHttpMajor => exact httpMajor_good hline (by rw [hstate]; rfl) rfl
  case reqFirstHttpMinor => exact firstHttpMinor_good hline rfl
  case reqHttpMinor => exact reqHttpMinor_good hline (by rw [hstate]; rfl)
  case reqLineAlmostDone => exact reqLineAlmostDone_good hline

theorem pass_inUrl (h : Stands p o ph) (hs : p.state.inUrl = true) :
    Good p.state o ph ch (pass p ch 1) := by
  obtain ⟨hlive, hat, hfits⟩ := h
  have hmark : openMark p.state = some .url := of_decide_eq_true hs
  obtain ⟨d, rfl⟩ := fits_some (by revert hs; cases p.state <;> simp [State.inUrl, openMark, State.inBody]) hmark hfits
  obtain ⟨rfl, ht⟩ : ph = .start ∧ p.flags.trailing = false := by
    unfold At at hat
    revert hs hat
    cases p.state <;> simp [State.inUrl, openMark]
  have hline : Line p := ⟨hlive, ht⟩
  have hschema : Good p.state (some (.url, d)) .start ch (reqSchema p ch) := reqSchema_good hline
  have hurl : Good p.state (some (.url, d)) .start ch (reqUrl p ch) := reqUrl_good hline
  unfold pass
  revert hs hschema hurl
  cases p.state <;> simp_all [State.inUrl, openMark]

/-- After a message that closes the connection blank lines are read, and nothing else. -/
theorem dead_good (hlive : Live p) (hs : p.state = .dead) :
    Good .dead none .between ch
      (if ch = cr ∨ ch = lf then stay p else fail p .closedConnection) := by
  split
  · exact good_stay (stands_between hlive (.inl hs)) (rests_of_settled (by rw [hs]; rfl))
  · exact good_fail (by decide)

/-- The switch does what the wrapper relies on, on a byte that is the last of the buffer. -/
theorem pass_good (ch : UInt8) (h : Stands p o ph) (hnread : p.state = .chunkSizeStart → p.nread = 1) :
    Good p.state o ph ch (pass p ch 1) := by
  by_cases hline : p.state.inLine = true
  · exact pass_inLine h hline
  by_cases hurl : p.state.inUrl = true
  · exact pass_inUrl h hurl
  obtain ⟨hlive, hat, hfits⟩ := h
  unfold pass
  unfold At at hat
  revert hline hurl hat hfits hnread
  cases hstate : p.state <;> intro hnread hline hurl hat hfits <;>
    first | exact absurd rfl hline | exact absurd rfl hurl | skip
  case dead =>
    cases fits_none rfl rfl hfits
    cases hat
    exact dead_good hlive hstate
  case startReqOrRes =>
    cases fits_none rfl rfl hfits
    cases hat
    exact startReqOrRes_good hlive hstate
  case startRes =>
    cases fits_none rfl rfl hfits
    cases hat
    exact startRes_good hlive
  case startReq =>
    cases fits_none rfl rfl hfits
    cases hat
    exact startReq_good hlive hstate
  case resStatus =>
    obtain ⟨d, rfl⟩ := fits_some rfl rfl hfits
    obtain ⟨rfl, ht⟩ := hat
    exact resStatus_good ⟨hlive, ht⟩ hstate
  case reqMethod =>
    cases fits_none rfl rfl hfits
    obtain ⟨rfl, ht, hindex⟩ := hat
    exact reqMethod_good ⟨hlive, ht⟩ hstate hindex
  case headerFieldStart =>
    cases fits_none rfl rfl hfits
    exact headerFieldStart_good hlive hat
  case headerField =>
    obtain ⟨d, rfl⟩ := fits_some rfl rfl hfits
    exact headerField_good hlive hstate hat.1 hat.2
  case headerValueStart =>
    cases fits_none rfl rfl hfits
    exact headerValueStart_good hlive hstate hat
  case headerValue =>
    obtain ⟨d, rfl⟩ := fits_some rfl rfl hfits
    exact headerValue_good hlive hstate hat.1 hat.2
  case headerValueLws =>
    cases fits_none rfl rfl hfits
    exact headerValueLws_good hlive hat
  case headerAlmostDone =>
    cases fits_none rfl rfl hfits
    exact headerAlmostDone_good hlive hat
  case chunkSizeStart =>
    cases fits_none rfl rfl hfits
    exact chunkSizeStart_good hlive hat.1 hat.2 (hnread rfl)
  case chunkSize =>
    cases fits_none rfl rfl hfits
    exact chunkSize_good hlive hstate hat
  case chunkParameters =>
    cases fits_none rfl rfl hfits
    exact chunkParameters_good hlive hstate hat
  case chunkSizeAlmostDone =>
    cases fits_none rfl rfl hfits
    exact chunkSizeAlmostDone_good hlive hat
  case headersAlmostDone =>
    cases fits_none rfl rfl hfits
    exact headersAlmostDone_good hlive hat
  case headersDone =>
    cases fits_none rfl rfl hfits
    exact headersDone_good hlive hat
  case chunkData => exact chunkData_good hlive hstate hat ((fits_of_inBody rfl).mp hfits)
  case chunkDataAlmostDone => exact chunkDataAlmostDone_good hlive hat ((fits_of_inBody rfl).mp hfits)
  case chunkDataDone =>
    cases fits_none rfl rfl hfits
    exact chunkDataDone_good hlive hat.1 hat.2
  case bodyIdentity => exact bodyIdentity_good hlive hstate hat ((fits_of_inBody rfl).mp hfits)
  case bodyIdentityEof =>
    exact bodyIdentityEof_good hlive hstate hat ((fits_of_inBody rfl).mp hfits)
  case messageDone =>
    cases fits_none rfl rfl hfits
    exact complete_good hlive (.inl hat)

/-! ## The executions on one byte -/

/-- What a byte comes to. -/
def Step.Good (ph : Phase) (s : Step) : Prop :=
  ∃ ph', Path Emits ph s.events ph' ∧
    match s.exit with
    | .next => Stands s.parser s.opened ph' ∧ Rests s.parser
    | .leave => Stands s.parser s.opened ph' ∧ Rests s.parser ∧ ∃ es, s.events = es ++ [.messageComplete]
    | .error => s.parser.httpErrno ≠ .ok
    | .reexecute => False

theorem stepSwitch_good (ch : UInt8) (fuel : Nat) (p : HttpParser) (o : Open) (ph : Phase)
    (hrank : p.state.rank < fuel) (h : Stands p o ph)
    (hnread : p.state = .chunkSizeStart → p.nread = 1) :
    ∃ s, stepSwitch ch fuel p o = some s ∧ s.Good ph := by
  induction fuel generalizing p o ph with
  | zero => exact absurd hrank (Nat.not_lt_zero _)
  | succ fuel ih =>
    obtain ⟨m, hm, -, -, ph', hpath, hexit⟩ := pass_good ch h hnread
    have hunfold : stepSwitch ch (fuel + 1) p o =
        if m.exit = .reexecute then
          (stepSwitch ch fuel m.parser (m.result o ch).2).map fun s =>
            { s with events := (m.result o ch).1 ++ s.events }
        else some ⟨m.parser, (m.result o ch).2, (m.result o ch).1, m.exit⟩ := by
      rw [stepSwitch, hm]
      rfl
    rw [hunfold]
    cases hm' : m.exit with
    | next =>
      rw [hm'] at hexit
      exact ⟨_, rfl, ph', hpath, hexit⟩
    | leave =>
      rw [hm'] at hexit
      exact ⟨_, rfl, ph', hpath, hexit.1, hexit.2.1, [], hexit.2.2⟩
    | error =>
      rw [hm'] at hexit
      exact ⟨_, rfl, ph', hpath, hexit⟩
    | reexecute =>
      rw [hm'] at hexit
      obtain ⟨hstands, hlower, hagain⟩ := hexit
      have hne : m.parser.state ≠ .chunkSizeStart := by
        intro hc
        rw [hc] at hagain
        cases hagain
      obtain ⟨s, hs, ph'', hpath', hgood⟩ :=
        ih m.parser (m.result o ch).2 ph' (by omega) hstands (fun hc => absurd hc hne)
      refine ⟨_, by rw [if_pos rfl, hs]; rfl, ph'', hpath.append hpath', ?_⟩
      cases hs' : s.exit with
      | next =>
        rw [hs'] at hgood
        exact hgood
      | leave =>
        rw [hs'] at hgood
        obtain ⟨hstands', hrests, es, hes⟩ := hgood
        refine ⟨hstands', hrests, (m.result o ch).1 ++ es, ?_⟩
        show (m.result o ch).1 ++ s.events = _
        rw [hes, List.append_assoc]
      | error =>
        rw [hs'] at hgood
        exact hgood
      | reexecute =>
        rw [hs'] at hgood
        exact hgood

theorem rank_lt (s : State) : s.rank < 4 := by
  cases s <;> decide

/-- The count of the bytes of headers is no part of what a state says. -/
theorem stands_count (h : Stands p o ph) : Stands (count p) o ph := by
  unfold count
  split
  · exact ⟨h.live, h.at_, h.fits⟩
  · exact h

theorem nread_count (h : Rests p) (hs : (count p).state = .chunkSizeStart) : (count p).nread = 1 := by
  unfold count at hs ⊢
  split at hs
  · rename_i hheader
    rw [if_pos hheader]
    show (p.nread + 1) % 2 ^ 32 = 1
    rw [h.2 hs]
    rfl
  · rename_i hheader
    rw [hs] at hheader
    exact absurd rfl hheader

theorem stands_push (h : Stands p o ph) : Stands p (push ch o) ph := by
  refine ⟨h.live, h.at_, ?_⟩
  have hfits := h.fits
  unfold Fits at hfits ⊢
  cases o with
  | none => exact hfits
  | some s =>
    split
    · rename_i hbody
      rw [if_pos hbody] at hfits
      exact .inr (hfits.resolve_left (Option.some_ne_none _))
    · rename_i hbody
      rw [if_neg hbody] at hfits
      exact hfits

/-- One byte: no assertion fails, the callbacks may follow, and the machine rests where it should. -/
theorem step_good (ch : UInt8) (h : Stands p o ph) (hr : Rests p) :
    ∃ s, step p o ch = some s ∧ s.Good ph := by
  unfold step
  dsimp only
  split
  · exact ⟨_, rfl, ph, .nil _, (by decide : Errno.headerOverflow ≠ .ok)⟩
  · obtain ⟨s, hs, ph', hpath, hgood⟩ :=
      stepSwitch_good ch 4 (count p) o ph (rank_lt _) (stands_count h) (nread_count hr)
    rw [hs, Option.map_some]
    by_cases hexit : s.exit = .next
    · rw [hexit] at hgood
      rw [if_pos hexit]
      refine ⟨_, rfl, ph', hpath, ?_⟩
      rw [hexit]
      exact ⟨stands_push hgood.1, hgood.2⟩
    · rw [if_neg hexit]
      exact ⟨s, rfl, ph', hpath, hgood⟩

end Pixie.Engine
