/-
  What the headers of a message do to the machine.

  1. `lines_runs` — header lines one after the other: each of them does what it means (`heedAll`), or is
     refused (`lines_refused`).  Behind a line the machine is in `s_header_value_lws`, where a blank
     would go on with the value; any other byte is read as the start of a line is (`scan_lws`).
     `section_runs` — up to the CR of the empty line.

  2. `headers_end` — the LF of the empty line, on which the switch is executed twice: the second time in
     `s_headers_done`, which decides how the body is framed (`HttpParser.framing`, `headersDone_eq`).
-/
import Pixie.Engine.Start

namespace Pixie.Engine

open Pixie.Decimal Pixie.Http Pixie.Crlf

variable {p q : HttpParser} {o : Open} {n : Nat} {s : State} {ch : UInt8}

/-! ## Header lines -/

/-- The name and the value of a header. -/
abbrev Field := Bytes × Bytes

/-- The line of a header. -/
def Field.text (f : Field) : Bytes := fieldLine f.1 f.2

/-- What is reported of a header. -/
def Field.events (f : Field) : List Event := [.headerField f.1, .headerValue (f.2.dropWhile isBlank)]

/-- What header lines mean, one after the other. -/
def HttpParser.heedAll (p : HttpParser) (fs : List Field) : Option HttpParser :=
  fs.foldlM (fun p f => p.heed f.1 f.2) p

/-- What has been recognised last does not matter. -/
theorem heed_matched (p : HttpParser) (i : Nat) (h : HeaderStates) (name value : Bytes) :
    (p.matched i h).heed name value = (p.heed name value).map (·.matched i h) := by
  unfold HttpParser.heed
  dsimp only
  by_cases hempty : value.dropWhile isBlank = []
  · rw [if_pos hempty, if_pos hempty]
    rfl
  · rw [if_neg hempty, if_neg hempty]
    rcases fieldKind_cases name with hk | hk | hk | hk | hk
    · rw [hk]
      dsimp only
      split_ifs <;> rfl
    · rw [hk]
      dsimp only
      rw [Option.map_map]
      rfl
    · rw [hk]
      dsimp only
      split_ifs <;> rfl
    · rw [hk]
      rfl
    · rw [hk]
      rfl

theorem heedAll_matched (fs : List Field) (p : HttpParser) (i : Nat) (h : HeaderStates) :
    (p.matched i h).heedAll fs = (p.heedAll fs).map (·.matched i h) := by
  induction fs generalizing p with
  | nil => rfl
  | cons f fs ih =>
    unfold HttpParser.heedAll
    rw [List.foldlM_cons, List.foldlM_cons, heed_matched]
    cases p.heed f.1 f.2 with
    | none => rfl
    | some q => exact ih q

/-- What header lines leave as it is. -/
theorem heed_keeps {name value : Bytes} (h : p.heed name value = some q) :
    q = { p with flags := q.flags, contentLength := q.contentLength } ∧
      q.flags.trailing = p.flags.trailing ∧ q.flags.skipbody = p.flags.skipbody := by
  unfold HttpParser.heed at h
  dsimp only at h
  split at h
  · cases h
    exact ⟨rfl, rfl, rfl⟩
  · rcases fieldKind_cases name with hk | hk | hk | hk | hk
    · rw [hk] at h
      dsimp only at h
      cases h
      split_ifs <;> exact ⟨rfl, rfl, rfl⟩
    · rw [hk] at h
      obtain ⟨m, -, rfl⟩ := Option.map_eq_some_iff.mp h
      exact ⟨rfl, rfl, rfl⟩
    · rw [hk] at h
      dsimp only at h
      cases h
      split_ifs <;> exact ⟨rfl, rfl, rfl⟩
    · rw [hk] at h
      cases h
      exact ⟨rfl, rfl, rfl⟩
    · rw [hk] at h
      cases h
      exact ⟨rfl, rfl, rfl⟩

theorem heedAll_keeps (fs : List Field) (h : p.heedAll fs = some q) :
    q = { p with flags := q.flags, contentLength := q.contentLength } ∧
      q.flags.trailing = p.flags.trailing ∧ q.flags.skipbody = p.flags.skipbody := by
  induction fs generalizing p with
  | nil =>
    cases h
    exact ⟨rfl, rfl, rfl⟩
  | cons f fs ih =>
    unfold HttpParser.heedAll at h
    rw [List.foldlM_cons] at h
    obtain ⟨r, hr, hrest⟩ := Option.bind_eq_some_iff.mp h
    obtain ⟨hparser, htrailing, hskip⟩ := heed_keeps hr
    obtain ⟨hparser', htrailing', hskip'⟩ := ih hrest
    refine ⟨?_, htrailing'.trans htrailing, hskip'.trans hskip⟩
    rw [hparser', hparser]

/-- Behind a line, the first byte of the next one is read as it is at its start. -/
theorem scan_lws {bs : Bytes} {m : Pass} (hblank : ch ≠ byte ' ') (htab : ch ≠ 9)
    (hroom : p.nread + n < httpMaxHeaderSize)
    (hm : pass (p.reach .headerFieldStart (n + 1)) ch 1 = some m) (hexit : m.exit ≠ .reexecute) :
    scan (p.reach .headerValueLws n) none (ch :: bs) =
      scan (p.reach .headerFieldStart n) none (ch :: bs) := by
  have hthree : stepSwitch ch 3 (p.reach .headerFieldStart (n + 1)) none =
      some ⟨m.parser, (m.result none ch).2, (m.result none ch).1, m.exit⟩ := by
    rw [stepSwitch, hm]
    dsimp only [Option.bind_eq_bind, Option.bind_some]
    rw [if_neg hexit]
  rw [scan, scan, step_lws hblank htab hroom hthree]

theorem pass_name_first (hc : token ch ≠ 0) :
    pass (p.reach .headerFieldStart (n + 1)) ch 1 = some
      { parser := (p.matched 0 (firstOfName (token ch))).reach .headerField (n + 1)
        mark := some .headerField } := by
  show headerFieldStart _ ch = _
  unfold headerFieldStart
  rw [if_neg (ne_of_token hc token_blank.1), if_neg (ne_of_token hc token_blank.2.1), if_neg hc]
  rfl

/-- So a header line is read behind another as it is behind the first line. -/
theorem scan_line {f : Field} (hf : IsField f.1 f.2) (hs : s = .headerFieldStart ∨ s = .headerValueLws)
    (hroom : p.nread + n < httpMaxHeaderSize) :
    scan (p.reach s n) none f.text = scan (p.reach .headerFieldStart n) none f.text := by
  rcases hs with rfl | rfl
  · rfl
  · obtain ⟨c, cs, hname⟩ := List.exists_cons_of_ne_nil hf.named
    have hc : token c ≠ 0 := hf.token c (by rw [hname]; exact List.mem_cons_self)
    have htext : f.text = c :: (cs ++ byte ':' :: (f.2 ++ crlf)) := by
      unfold Field.text fieldLine
      rw [hname]
      rfl
    rw [htext]
    exact scan_lws (ne_of_token hc token_blank.2.2.2.1) (ne_of_token hc token_blank.2.2.2.2) hroom
      (pass_name_first hc) (by show Exit.next ≠ .reexecute; decide)

theorem Field.text_pos (f : Field) : 0 < f.text.length := by
  unfold Field.text
  rw [fieldLine_length]
  omega

/-- **Header lines**, behind the first line or behind another. -/
theorem lines_runs (fs : List Field) (hs : s = .headerFieldStart ∨ s = .headerValueLws)
    (hfields : ∀ f ∈ fs, IsField f.1 f.2)
    (hroom : p.nread + n + (fs.flatMap Field.text).length ≤ httpMaxHeaderSize)
    (hheed : p.heedAll fs = some q) :
    ∃ i h s', (s' = .headerFieldStart ∨ s' = .headerValueLws) ∧
      Runs (p.reach s n) none (fs.flatMap Field.text) (fs.flatMap Field.events)
        ((q.matched i h).reach s' (n + (fs.flatMap Field.text).length)) none := by
  induction fs generalizing p q n s with
  | nil =>
    cases hheed
    exact ⟨p.index, p.headerState, s, hs, .nil _ _⟩
  | cons f fs ih =>
    rw [List.flatMap_cons, List.length_append] at hroom
    unfold HttpParser.heedAll at hheed
    rw [List.foldlM_cons] at hheed
    obtain ⟨r, hr, hrest⟩ := Option.bind_eq_some_iff.mp hheed
    have hf := hfields f List.mem_cons_self
    have hpos := f.text_pos
    have hnread : r.nread = p.nread := by rw [(heed_keeps hr).1]
    obtain ⟨i, h, hline⟩ : ∃ i h, Runs (p.reach .headerFieldStart n) none f.text f.events
        ((r.matched i h).reach .headerValueLws (n + f.text.length)) none :=
      fieldLine_runs hf (by show p.nread + n + f.text.length ≤ _; omega) hr
    have hmatched : (r.matched i h).heedAll fs = some (q.matched i h) := by
      rw [heedAll_matched]
      exact congrArg (Option.map (·.matched i h)) hrest
    obtain ⟨i', h', s', hs', hmore⟩ := ih (p := r.matched i h) (n := n + f.text.length) (.inr rfl)
      (fun f hf => hfields f (List.mem_cons_of_mem _ hf)) (by show r.nread + _ + _ ≤ _; omega) hmatched
    refine ⟨i', h', s', hs', ?_⟩
    unfold Runs at hline
    rw [← scan_line hf hs (by omega)] at hline
    rw [List.flatMap_cons, List.flatMap_cons, List.length_append, ← Nat.add_assoc]
    exact Runs.append hline hmore

/-- Header lines up to the CR of the empty line. -/
theorem section_runs (fs : List Field) (hs : s = .headerFieldStart ∨ s = .headerValueLws)
    (hfields : ∀ f ∈ fs, IsField f.1 f.2)
    (hroom : p.nread + n + (fs.flatMap Field.text).length + 1 ≤ httpMaxHeaderSize)
    (hheed : p.heedAll fs = some q) :
    ∃ i h, Runs (p.reach s n) none (fs.flatMap Field.text ++ [cr]) (fs.flatMap Field.events)
      ((q.matched i h).reach .headersAlmostDone (n + (fs.flatMap Field.text).length + 1)) none := by
  obtain ⟨i, h, s', hs', hlines⟩ := lines_runs (n := n) fs hs hfields (by omega) hheed
  have hroom' : (q.matched i h).nread + (n + (fs.flatMap Field.text).length) < httpMaxHeaderSize := by
    have hnread : q.nread = p.nread := by rw [(heedAll_keeps fs hheed).1]
    show q.nread + _ < _
    omega
  have hstart : Runs ((q.matched i h).reach .headerFieldStart (n + (fs.flatMap Field.text).length)) none
      [cr] [] ((q.matched i h).reach .headersAlmostDone (n + (fs.flatMap Field.text).length + 1)) none :=
    runs_go (o := none) rfl hroom' rfl
  have hend : Runs ((q.matched i h).reach s' (n + (fs.flatMap Field.text).length)) none [cr] []
      ((q.matched i h).reach .headersAlmostDone (n + (fs.flatMap Field.text).length + 1)) none := by
    rcases hs' with rfl | rfl
    · exact hstart
    · unfold Runs at hstart ⊢
      rw [scan_lws (by decide) (by decide) hroom' rfl (by show Exit.next ≠ .reexecute; decide)]
      exact hstart
  refine ⟨i, h, ?_⟩
  have hall := hlines.append hend
  rw [List.append_nil] at hall
  exact hall

/-- **Header lines of which one is refused.** -/
theorem lines_refused (fs : List Field) (hs : s = .headerFieldStart ∨ s = .headerValueLws)
    (hfields : ∀ f ∈ fs, IsField f.1 f.2)
    (hroom : p.nread + n + (fs.flatMap Field.text).length ≤ httpMaxHeaderSize)
    (hheed : p.heedAll fs = none) :
    ∃ es, Refused (p.reach s n) none (fs.flatMap Field.text) es .invalidContentLength := by
  induction fs generalizing p n s with
  | nil => cases hheed
  | cons f fs ih =>
    rw [List.flatMap_cons, List.length_append] at hroom
    unfold HttpParser.heedAll at hheed
    rw [List.foldlM_cons] at hheed
    have hf := hfields f List.mem_cons_self
    have hpos := f.text_pos
    rw [List.flatMap_cons]
    cases hr : p.heed f.1 f.2 with
    | none =>
      have hline : Refused (p.reach .headerFieldStart n) none f.text [.headerField f.1]
          .invalidContentLength :=
        fieldLine_refused hf (by show p.nread + n + f.text.length ≤ _; omega) hr
      unfold Refused at hline
      rw [← scan_line hf hs (by omega)] at hline
      exact ⟨_, Refused.more hline _⟩
    | some r =>
      rw [hr] at hheed
      have hnread : r.nread = p.nread := by rw [(heed_keeps hr).1]
      obtain ⟨i, h, hline⟩ : ∃ i h, Runs (p.reach .headerFieldStart n) none f.text f.events
          ((r.matched i h).reach .headerValueLws (n + f.text.length)) none :=
        fieldLine_runs hf (by show p.nread + n + f.text.length ≤ _; omega) hr
      have hmatched : (r.matched i h).heedAll fs = none := by
        rw [heedAll_matched]
        exact congrArg (Option.map (·.matched i h)) hheed
      obtain ⟨es, hmore⟩ := ih (p := r.matched i h) (n := n + f.text.length) (.inr rfl)
        (fun f hf => hfields f (List.mem_cons_of_mem _ hf)) (by show r.nread + _ + _ ≤ _; omega) hmatched
      unfold Runs at hline
      rw [← scan_line hf hs (by omega)] at hline
      exact ⟨_, Runs.refused hline hmore⟩

/-! ## The end of the headers -/

/-- How the body of a message is framed. -/
inductive Framing
  | nothing
  | length (n : Nat)
  | chunked
  | toEof
deriving DecidableEq, Repr

namespace HttpParser

/-- What the headers say about the body, where they do not ask for an upgrade. -/
def framing (p : HttpParser) : Framing :=
  if p.flags.chunked then .chunked
  else if p.contentLength = 0 then .nothing
  else if p.contentLength ≠ ullongMax then .length p.contentLength
  else if p.type = .request ∨ ¬ p.messageNeedsEof then .nothing
  else .toEof

/-- The state in which a body is read; without one the next message begins. -/
def bodyState (p : HttpParser) : State :=
  match p.framing with
  | .nothing => p.newMessage
  | .length _ => .bodyIdentity
  | .chunked => .chunkSizeStart
  | .toEof => .bodyIdentityEof

/-- The headers do not ask for an upgrade. -/
def Stays (p : HttpParser) : Prop := p.flags.upgrade = false ∧ p.method ≠ .connect

instance (p : HttpParser) : Decidable p.Stays :=
  inferInstanceAs (Decidable (p.flags.upgrade = false ∧ p.method ≠ .connect))

end HttpParser

/-- `s_headers_done`. -/
theorem headersDone_eq (hup : p.upgrade = false) (hskip : p.flags.skipbody = false) :
    headersDone p lf = some
      { parser := { p with nread := 0, state := p.bodyState }
        callback := if p.framing = .nothing then some (.notify .messageComplete) else none } := by
  have hcomplete : ∀ q : HttpParser, complete q = some
      { parser := { q with state := q.newMessage }
        callback := some (.notify .messageComplete) } := fun _ => rfl
  unfold headersDone
  dsimp only
  rw [if_neg (not_not.mpr rfl), hup, if_neg (by decide), hskip, if_neg (by decide)]
  unfold HttpParser.bodyState HttpParser.framing
  by_cases hchunked : p.flags.chunked = true
  · rw [if_pos hchunked, if_pos hchunked, if_neg (by decide)]
    rfl
  rw [if_neg hchunked, if_neg hchunked]
  by_cases hzero : p.contentLength = 0
  · rw [if_pos hzero, if_pos hzero, hcomplete, if_pos rfl]
    rfl
  rw [if_neg hzero, if_neg hzero]
  by_cases hmax : p.contentLength ≠ ullongMax
  · rw [if_pos hmax, if_pos hmax, if_neg (by simp)]
    rfl
  rw [if_neg hmax, if_neg hmax]
  by_cases hnone : p.type = .request ∨ ¬ p.messageNeedsEof
  · rw [if_pos hnone, hcomplete, if_pos rfl]
    exact if_pos hnone
  · rw [if_neg hnone]
    exact if_neg hnone

/-- The end of the headers: the parser knows what it needs to know about the message. -/
theorem headers_end (hstays : p.Stays) (htrailing : p.flags.trailing = false)
    (hskip : p.flags.skipbody = false) (hroom : p.nread + n < httpMaxHeaderSize) :
    Runs (p.reach .headersAlmostDone n) none [lf]
      (.headersComplete p.firstLine ::
        if p.framing = .nothing then [.messageComplete] else [])
      { p with upgrade := false, nread := 0, state := p.bodyState } none := by
  have hup : (p.flags.upgrade || decide (p.method = .connect)) = false := by
    rw [hstays.1, decide_eq_false hstays.2]
    rfl
  have hfirst : pass (p.reach .headersAlmostDone (n + 1)) lf 1 = some
      { parser := { p with upgrade := false }.reach .headersDone (n + 1)
        callback := some (.notify (.headersComplete p.firstLine))
        exit := .reexecute } := by
    show headersAlmostDone _ lf = _
    unfold headersAlmostDone
    rw [if_neg (not_not.mpr rfl), show (p.reach .headersAlmostDone (n + 1)).flags.trailing = false
      from htrailing, if_neg (by decide)]
    dsimp only
    rw [show ((p.reach .headersAlmostDone (n + 1)).flags.upgrade ||
      decide ((p.reach .headersAlmostDone (n + 1)).method = .connect)) = false from hup]
    rfl
  have hsecond : pass ({ p with upgrade := false }.reach .headersDone (n + 1)) lf 1 = some
      { parser := { p with upgrade := false, nread := 0, state := p.bodyState }
        callback := if p.framing = .nothing then some (.notify .messageComplete) else none } :=
    headersDone_eq rfl hskip
  have hsmall : ¬ (p.reach .headersAlmostDone (n + 1)).nread > httpMaxHeaderSize := Nat.not_lt.mpr hroom
  refine runs_step ?_
  unfold step
  dsimp only
  rw [count_reach rfl hroom, if_neg (fun h => hsmall h.2), stepSwitch, hfirst]
  dsimp only [Option.bind_eq_bind, Option.bind_some]
  rw [if_pos rfl, stepSwitch]
  show ((stepSwitch lf 3 ({ p with upgrade := false }.reach .headersDone (n + 1)) none).map _).map _ = _
  rw [stepSwitch, hsecond]
  dsimp only [Option.bind_eq_bind, Option.bind_some]
  rw [if_neg (by decide)]
  by_cases hnothing : p.framing = .nothing
  · rw [if_pos hnothing, if_pos hnothing]
    rfl
  · rw [if_neg hnothing, if_neg hnothing]
    rfl

end Pixie.Engine
