/-
  Which streams are safe to feed: `feed` ends in a `Fault`, or it does not.

  The wrapper expects each header line to give a field and then a value.  `http_parser` gives a field
  alone for a line without a colon, and the two disagree at three places:
    * `headers_complete_cb` saves a name whose value is NULL;
    * a trailer without a value leaves `header_state` at `FIELD` when the message ends.  In a stream
      the name is freed then, and the next header field is appended to a NULL pointer; in single mode
      name and state stay as they are, until the next message's headers are complete;
    * `appendBytes` calls the parse-error delegate without asking whether there is one.

  1. `endsInField`, `own` — what the callbacks so far say about the last header line; `Harmless` — the
     callbacks that may come then.

  2. **`Tracks`** — the invariant: `header_state` and the two buffers as functions of those.  One
     lemma for each callback, `callback_tracks` and `callback_stops` for all of them.

  3. `safe_iff` — a session is fed without a fault if and only if each callback is harmless where it
     comes, and the parse-error delegate is set or never wanted.
-/
import Pixie.Http.Grammar
import Pixie.Http.Callbacks

namespace Pixie.Http

open Pixie.Decimal Pixie.Run

/-! ## The last header line -/

/-- Whether a field is the last part of a header line that was seen, after one more event. -/
def lineOpen (opened : Bool) : Event → Bool
  | .headerField _ => true
  | .headerValue _ => false
  | _ => opened

/-- The last header line, or trailer, of the events has a field and no value. -/
def endsInField (es : List Event) : Bool := es.foldl lineOpen false

/-- The events that the buffers of the parser come from: in a stream, those since a message was last
    complete. -/
def own (streaming : Bool) (es : List Event) : List Event :=
  if streaming then since (· = .messageComplete) es else es

/-- The callbacks that may come after the events `es`: the headers are not completed after a line
    without a value, and a stream has no field after a message that ended in such a line. -/
def Harmless (streaming : Bool) (es : List Event) : Event → Prop
  | .headersComplete _ => endsInField (own streaming es) = false
  | .headerField _ => endsInField es = true → endsInField (own streaming es) = true
  | _ => True

theorem endsInField_snoc (es : List Event) (e : Event) :
    endsInField (es ++ [e]) = lineOpen (endsInField es) e := by
  unfold endsInField
  rw [List.foldl_append]
  rfl

theorem own_snoc (streaming : Bool) (es : List Event) {e : Event} (he : e ≠ .messageComplete) :
    own streaming (es ++ [e]) = own streaming es ++ [e] := by
  cases streaming with
  | false => rfl
  | true => exact since_snoc_of_not (p := (· = Event.messageComplete)) he es

theorem own_complete (streaming : Bool) (es : List Event) :
    own streaming (es ++ [.messageComplete]) =
      if streaming then [] else es ++ [.messageComplete] := by
  cases streaming with
  | false => rfl
  | true => exact since_snoc_of (p := (· = Event.messageComplete)) rfl es

/-- An open line of the message is one of the stream. -/
theorem endsInField_own (streaming : Bool) (es : List Event) :
    endsInField (own streaming es) = true → endsInField es = true := by
  induction es using List.reverseRecOn with
  | nil =>
    cases streaming with
    | false => exact id
    | true => exact id
  | append_singleton es e ih =>
    by_cases he : e = .messageComplete
    · subst he
      rw [own_complete, endsInField_snoc]
      cases streaming with
      | false =>
        intro h
        rw [← endsInField_snoc]
        exact h
      | true => exact fun h => nomatch h
    · rw [own_snoc streaming es he, endsInField_snoc, endsInField_snoc]
      cases e with
      | headerField data => exact id
      | headerValue data => exact id
      | _ => exact ih

/-! ## The invariant -/

/-- The parser `p` after the events `es`, with `http_parser` at `ph`. -/
structure Tracks (streaming parseError : Bool) (es : List Event) (ph : Phase) (p : HTTPParser) :
    Prop where
  mode : p.streamMessagesOption = streaming
  errorSet : p.onParseErrorLambdaCB = parseError
  state : p.parserContext.headerState = .field ↔ endsInField es = true
  opened : endsInField es = true → p.parserContext.value = none ∧
    (p.parserContext.name = none ↔ endsInField (own streaming es) = false)
  closed : endsInField es = false → p.parserContext.value = none → p.parserContext.name = none
  field : ∀ t, ph = .field t → endsInField (own streaming es) = true
  value : ∀ t, ph = .value t →
    p.parserContext.headerState = .value ∧ p.parserContext.value ≠ none

theorem tracks_configured (streaming headers message parseError : Bool) :
    Tracks streaming parseError [] .between
      (HTTPParser.configured streaming headers message parseError) := by
  refine ⟨rfl, rfl, ?_, ?_, fun _ _ => rfl, nofun, nofun⟩
  · constructor
    · intro h
      cases h
    · intro h
      cases h
  · intro h
    cases h

variable {streaming parseError : Bool} {es : List Event} {ph ph' : Phase} {p q : HTTPParser}

/-- The two buffers and the state of the header lines are the same. -/
structure SameHeader (p q : HTTPParser) : Prop where
  mode : q.streamMessagesOption = p.streamMessagesOption
  errorSet : q.onParseErrorLambdaCB = p.onParseErrorLambdaCB
  state : q.parserContext.headerState = p.parserContext.headerState
  name : q.parserContext.name = p.parserContext.name
  value : q.parserContext.value = p.parserContext.value

/-- A callback that is not about header lines. -/
theorem Tracks.neutral (h : Tracks streaming parseError es ph p) {e : Event}
    (hopen : ∀ o, lineOpen o e = o) (he : e ≠ .messageComplete) (hsame : SameHeader p q)
    (hph : (∀ t, ph' ≠ .field t) ∧ ∀ t, ph' ≠ .value t) :
    Tracks streaming parseError (es ++ [e]) ph' q := by
  have hends : endsInField (es ++ [e]) = endsInField es := by rw [endsInField_snoc, hopen]
  have hown : endsInField (own streaming (es ++ [e])) = endsInField (own streaming es) := by
    rw [own_snoc streaming es he, endsInField_snoc, hopen]
  refine ⟨hsame.mode.trans h.mode, hsame.errorSet.trans h.errorSet, ?_, ?_, ?_,
    fun t ht => absurd ht (hph.1 t), fun t ht => absurd ht (hph.2 t)⟩
  · rw [hsame.state, hends]
    exact h.state
  · rw [hends, hown, hsame.value, hsame.name]
    exact h.opened
  · rw [hends, hsame.value, hsame.name]
    exact h.closed

/-! ## Header fields and values -/

/-- After a field: its line is open. -/
theorem tracks_field (hstreaming : q.streamMessagesOption = streaming)
    (herror : q.onParseErrorLambdaCB = parseError) (data : Bytes)
    (hstate : q.parserContext.headerState = .field) (hname : q.parserContext.name ≠ none)
    (hvalue : q.parserContext.value = none) (hph : ∀ t, ph' ≠ .value t) :
    Tracks streaming parseError (es ++ [.headerField data]) ph' q := by
  have hends : endsInField (es ++ [.headerField data]) = true := endsInField_snoc es _
  have hown : endsInField (own streaming (es ++ [.headerField data])) = true := by
    rw [own_snoc streaming es (by simp)]
    exact endsInField_snoc _ _
  refine ⟨hstreaming, herror, ?_, ?_, ?_, fun _ _ => hown, fun t ht => absurd ht (hph t)⟩
  · exact ⟨fun _ => hends, fun _ => hstate⟩
  · intro _
    refine ⟨hvalue, fun h => absurd h hname, ?_⟩
    intro h
    rw [hown] at h
    cases h
  · intro h
    rw [hends] at h
    cases h

/-- After a value: its line is not. -/
theorem tracks_value (hstreaming : q.streamMessagesOption = streaming)
    (herror : q.onParseErrorLambdaCB = parseError) (data : Bytes)
    (hstate : q.parserContext.headerState = .value) (hvalue : q.parserContext.value ≠ none)
    (hph : ∀ t, ph' ≠ .field t) :
    Tracks streaming parseError (es ++ [.headerValue data]) ph' q := by
  have hends : endsInField (es ++ [.headerValue data]) = false := endsInField_snoc es _
  refine ⟨hstreaming, herror, ?_, ?_, fun _ h => absurd h hvalue, fun t ht => absurd ht (hph t),
    fun _ _ => ⟨hstate, hvalue⟩⟩
  · rw [hends, hstate]
    simp
  · intro h
    rw [hends] at h
    cases h

theorem Tracks.headerField (h : Tracks streaming parseError es ph p) {data : Bytes} {t : Bool}
    (hP : Harmless streaming es (.headerField data)) :
    ∃ q, headerFieldDataCb p data = .ok q ∧
      Tracks streaming parseError (es ++ [.headerField data]) (.field t) q := by
  by_cases hends : endsInField es = true
  · obtain ⟨hvalue, hname⟩ := h.opened hends
    have hstate := h.state.mpr hends
    cases hn : p.parserContext.name with
    | none =>
      have hown := hname.mp hn
      rw [hP hends] at hown
      cases hown
    | some n =>
      refine ⟨_, headerFieldDataCb_next hstate hn data, ?_⟩
      refine tracks_field ?_ ?_ data rfl (Option.some_ne_none _) hvalue nofun
      · exact h.mode
      · exact h.errorSet
  · have hstate : p.parserContext.headerState ≠ .field := fun hs => hends (h.state.mp hs)
    have hsave := h.closed (Bool.eq_false_of_not_eq_true hends)
    refine ⟨_, headerFieldDataCb_first hstate hsave data, ?_⟩
    refine tracks_field ?_ ?_ data rfl (Option.some_ne_none _) rfl nofun
    · exact h.mode
    · exact h.errorSet

theorem Tracks.headerField_stops (h : Tracks streaming parseError es ph p) {data : Bytes}
    (hP : ¬ Harmless streaming es (.headerField data)) :
    headerFieldDataCb p data = .error .nullName := by
  obtain ⟨hends, hown⟩ := Classical.not_imp.mp hP
  have hname := (h.opened hends).2.mpr (Bool.eq_false_of_not_eq_true hown)
  unfold headerFieldDataCb
  rw [h.state.mpr hends, hname]

theorem Tracks.headerValue (h : Tracks streaming parseError es ph p) {data : Bytes} {t : Bool}
    (hph : ph = .field t ∨ ph = .value t) :
    ∃ q, headerValueDataCb p data = .ok q ∧
      Tracks streaming parseError (es ++ [.headerValue data]) (.value t) q := by
  rcases hph with hph | hph
  · have hends := endsInField_own streaming es (h.field t hph)
    refine ⟨_, headerValueDataCb_first (h.state.mpr hends) data, ?_⟩
    refine tracks_value ?_ ?_ data rfl (Option.some_ne_none _) nofun
    · exact h.mode
    · exact h.errorSet
  · obtain ⟨hstate, hvalue⟩ := h.value t hph
    obtain ⟨v, hv⟩ := Option.ne_none_iff_exists'.mp hvalue
    refine ⟨_, headerValueDataCb_next hstate hv data, ?_⟩
    refine tracks_value ?_ ?_ data rfl (Option.some_ne_none _) nofun
    · exact h.mode
    · exact h.errorSet

/-! ## The end of the headers, the end of a message -/

theorem Tracks.headersComplete (h : Tracks streaming parseError es ph p) {line : FirstLine}
    (hph : (∀ t, ph' ≠ .field t) ∧ ∀ t, ph' ≠ .value t)
    (hP : Harmless streaming es (.headersComplete line)) :
    ∃ q, headersCompleteCb p line = .ok q ∧
      Tracks streaming parseError (es ++ [.headersComplete line]) ph' q := by
  have hsave : p.parserContext.value = none → p.parserContext.name = none := by
    by_cases hends : endsInField es = true
    · exact fun _ => (h.opened hends).2.mpr hP
    · exact h.closed (Bool.eq_false_of_not_eq_true hends)
  exact ⟨_, headersCompleteCb_ok hsave line,
    h.neutral (fun _ => rfl) nofun ⟨rfl, rfl, rfl, rfl, rfl⟩ hph⟩

theorem Tracks.headersComplete_stops (h : Tracks streaming parseError es ph p) {line : FirstLine}
    (hP : ¬ Harmless streaming es (.headersComplete line)) :
    headersCompleteCb p line = .error .nullValue := by
  have hown : endsInField (own streaming es) = true := Bool.eq_true_of_not_eq_false hP
  obtain ⟨hvalue, hname⟩ := h.opened (endsInField_own streaming es hown)
  have hne : p.parserContext.name ≠ none := by
    intro hn
    rw [hname.mp hn] at hown
    cases hown
  unfold headersCompleteCb
  rw [saveIfNamed_error hne hvalue]
  rfl

/-- In a stream the buffers go with the message, and the state stays. -/
theorem Tracks.messageComplete (h : Tracks streaming parseError es ph p)
    (hph : (∀ t, ph' ≠ .field t) ∧ ∀ t, ph' ≠ .value t) :
    Tracks streaming parseError (es ++ [.messageComplete]) ph' (messageCompleteCb p) := by
  have hends : endsInField (es ++ [.messageComplete]) = endsInField es := endsInField_snoc es _
  have hown := own_complete streaming es
  cases streaming with
  | true =>
    rw [if_pos rfl] at hown
    rw [messageCompleteCb_streaming h.mode]
    refine ⟨h.mode, h.errorSet, ?_, ?_, fun _ _ => rfl, fun t ht => absurd ht (hph.1 t),
      fun t ht => absurd ht (hph.2 t)⟩
    · rw [hends]
      exact h.state
    · rw [hown]
      exact fun _ => ⟨rfl, fun _ => rfl, fun _ => rfl⟩
  | false =>
    rw [messageCompleteCb_single h.mode]
    refine ⟨h.mode, h.errorSet, ?_, ?_, ?_, fun t ht => absurd ht (hph.1 t),
      fun t ht => absurd ht (hph.2 t)⟩
    · rw [hends]
      exact h.state
    · rw [hown, if_neg Bool.false_ne_true, hends]
      exact h.opened
    · rw [hends]
      exact h.closed

/-! ## One callback -/

/-- **A harmless callback** is made without a fault. -/
theorem callback_tracks {e : Event} (h : Tracks streaming parseError es ph p)
    (he : Occurs ph e ph') (hP : Harmless streaming es e) :
    ∃ q, callback p e = .ok q ∧ Tracks streaming parseError (es ++ [e]) ph' q := by
  have hsame : SameHeader p p := ⟨rfl, rfl, rfl, rfl, rfl⟩
  cases he with
  | emits he =>
    cases he with
    | messageBegin => exact ⟨p, rfl, h.neutral (fun _ => rfl) nofun hsame ⟨nofun, nofun⟩⟩
    | blankLine => exact ⟨p, rfl, h.neutral (fun _ => rfl) nofun hsame ⟨nofun, nofun⟩⟩
    | url data =>
      exact ⟨_, rfl, h.neutral (fun _ => rfl) nofun ⟨rfl, rfl, rfl, rfl, rfl⟩ ⟨nofun, nofun⟩⟩
    | status data =>
      exact ⟨_, rfl, h.neutral (fun _ => rfl) nofun ⟨rfl, rfl, rfl, rfl, rfl⟩ ⟨nofun, nofun⟩⟩
    | firstField data => exact h.headerField hP
    | firstTrailer data => exact h.headerField hP
    | field t data => exact h.headerField hP
    | nextField t data => exact h.headerField hP
    | value t data => exact h.headerValue (.inl rfl)
    | moreValue t data => exact h.headerValue (.inr rfl)
    | headersComplete _ _ line _ hph' =>
      have hph : (∀ t, ph' ≠ .field t) ∧ ∀ t, ph' ≠ .value t := by
        rcases hph' with rfl | rfl
        · exact ⟨nofun, nofun⟩
        · exact ⟨nofun, nofun⟩
      exact h.headersComplete hph hP
    | body data =>
      exact ⟨_, rfl, h.neutral (fun _ => rfl) nofun ⟨rfl, rfl, rfl, rfl, rfl⟩ ⟨nofun, nofun⟩⟩
    | bodyEof data =>
      exact ⟨_, rfl, h.neutral (fun _ => rfl) nofun ⟨rfl, rfl, rfl, rfl, rfl⟩ ⟨nofun, nofun⟩⟩
    | messageComplete => exact ⟨_, rfl, h.messageComplete ⟨nofun, nofun⟩⟩
  | endOfStream => exact ⟨_, rfl, h.messageComplete ⟨nofun, nofun⟩⟩

/-- **Any other callback** follows a NULL pointer. -/
theorem callback_stops {e : Event} (h : Tracks streaming parseError es ph p)
    (hP : ¬ Harmless streaming es e) : ∃ k, callback p e = .error k := by
  cases e with
  | headerField data => exact ⟨.nullName, h.headerField_stops hP⟩
  | headersComplete line => exact ⟨.nullValue, h.headersComplete_stops hP⟩
  | _ => exact absurd trivial hP

/-! ## One call, and a session -/

/-- The call may be made after the calls before it: its callbacks are harmless, and the parse-error
    delegate is there if it is wanted. -/
def HarmlessCall (streaming parseError : Bool) (calls : List (Bytes × Execute))
    (c : Bytes × Execute) : Prop :=
  Each (fun before => Harmless streaming (eventsOf calls ++ before)) c.2.events ∧
    (parseError = true ∨ c.2.nparsed = c.1.length)

/-- Nothing else of the parser object matters. -/
theorem Tracks.congr (h : Tracks streaming parseError es ph p) (hsame : SameHeader p q) :
    Tracks streaming parseError es ph q := by
  refine ⟨hsame.mode.trans h.mode, hsame.errorSet.trans h.errorSet, ?_, ?_, ?_, h.field, ?_⟩
  · rw [hsame.state]
    exact h.state
  · rw [hsame.value, hsame.name]
    exact h.opened
  · rw [hsame.value, hsame.name]
    exact h.closed
  · rw [hsame.state, hsame.value]
    exact h.value

/-- The callbacks of a call, from the state that `http_parser` is in. -/
theorem call_tracks {calls : List (Bytes × Execute)} {c : Bytes × Execute}
    (h : Tracks streaming parseError (eventsOf calls) ph p) (hpath : Path Occurs ph c.2.events ph') :
    (Each (fun before => Harmless streaming (eventsOf calls ++ before)) c.2.events →
      ∃ q, callbacks { p with messageData := p.messageData ++ c.1 } c.2.events = .ok q ∧
        Tracks streaming parseError (eventsOf (calls ++ [c])) ph' q) ∧
    (¬ Each (fun before => Harmless streaming (eventsOf calls ++ before)) c.2.events →
      ∃ k, callbacks { p with messageData := p.messageData ++ c.1 } c.2.events = .error k) := by
  have hstart : Tracks streaming parseError (eventsOf calls) ph
      { p with messageData := p.messageData ++ c.1 } := h.congr ⟨rfl, rfl, rfl, rfl, rfl⟩
  have hok := fun p s e s' x (hI : Tracks streaming parseError p s x) (hs : Occurs s e s') hP =>
    callback_tracks hI hs hP
  rw [eventsOf_snoc]
  refine ⟨hpath.succeeds hok hstart, hpath.fails hok ?_ hstart⟩
  exact fun p s e s' x hI _ hP => callback_stops hI hP

/-- What holds of the parser after a list of calls. -/
def AfterCalls (streaming parseError : Bool) (calls : List (Bytes × Execute)) (ph : Phase)
    (p : HTTPParser) : Prop :=
  ∃ ph', Tracks streaming parseError (eventsOf calls) ph' p ∧ (ph = ph' ∨ ph = .failed)

/-- The callbacks of a call continue those of the calls before it. -/
theorem Executes.continues {calls : List (Bytes × Execute)} {c : Bytes × Execute}
    (h : Executes ph c ph') (hafter : AfterCalls streaming parseError calls ph p) :
    ∃ u v, Tracks streaming parseError (eventsOf calls) u p ∧ Path Occurs u c.2.events v ∧
      (ph' = v ∨ ph' = .failed) := by
  obtain ⟨u, htracks, rfl | rfl⟩ := hafter
  · obtain ⟨v, hpath, hv⟩ := h.occurs
    exact ⟨ph, v, htracks, hpath, hv⟩
  · obtain ⟨hsilent, hend⟩ := h.silent
    refine ⟨u, u, htracks, ?_, .inr hend⟩
    rw [hsilent]
    exact .nil u

theorem appendBytes_tracks {calls : List (Bytes × Execute)} {c : Bytes × Execute}
    (hafter : AfterCalls streaming parseError calls ph p) (hc : Executes ph c ph')
    (hP : HarmlessCall streaming parseError calls c) :
    ∃ q, (appendBytes p c.1 c.2).map Prod.fst = .ok q ∧
      AfterCalls streaming parseError (calls ++ [c]) ph' q := by
  obtain ⟨u, v, htracks, hpath, hv⟩ := hc.continues hafter
  obtain ⟨q, hq, htracks'⟩ := (call_tracks htracks hpath).1 hP.1
  rw [appendBytes_eq hq]
  by_cases hn : c.2.nparsed = c.1.length
  · rw [if_neg (not_not_intro hn)]
    exact ⟨q, rfl, v, htracks', hv⟩
  · have hset : q.onParseErrorLambdaCB = true := by
      rw [htracks'.errorSet]
      exact hP.2.resolve_right hn
    rw [if_pos hn, if_pos hset]
    exact ⟨_, rfl, v, htracks'.congr ⟨rfl, rfl, rfl, rfl, rfl⟩, hv⟩

theorem appendBytes_stops {calls : List (Bytes × Execute)} {c : Bytes × Execute}
    (hafter : AfterCalls streaming parseError calls ph p) (hc : Executes ph c ph')
    (hP : ¬ HarmlessCall streaming parseError calls c) :
    ∃ k, (appendBytes p c.1 c.2).map Prod.fst = .error k := by
  obtain ⟨u, v, htracks, hpath, -⟩ := hc.continues hafter
  by_cases heach : Each (fun before => Harmless streaming (eventsOf calls ++ before)) c.2.events
  · obtain ⟨q, hq, htracks'⟩ := (call_tracks htracks hpath).1 heach
    obtain ⟨hunset, hn⟩ := not_or.mp fun h => hP ⟨heach, h⟩
    refine ⟨.unsetDelegate, ?_⟩
    rw [appendBytes_eq hq, if_pos hn, if_neg]
    rw [htracks'.errorSet]
    exact hunset
  · obtain ⟨k, hk⟩ := (call_tracks htracks hpath).2 heach
    refine ⟨k, ?_⟩
    unfold appendBytes
    rw [hk]
    rfl

/-- The calls of a session may each be made when their callbacks may. -/
theorem each_harmlessCall (calls : List (Bytes × Execute)) :
    Each (HarmlessCall streaming parseError) calls ↔
      Each (Harmless streaming) (eventsOf calls) ∧
        (parseError = true ∨ ∀ c ∈ calls, c.2.nparsed = c.1.length) := by
  induction calls using List.reverseRecOn with
  | nil => exact ⟨fun _ => ⟨each_nil _, .inr nofun⟩, fun _ => each_nil _⟩
  | append_singleton calls c ih =>
    rw [each_snoc, ih, eventsOf_snoc, each_append]
    simp only [HarmlessCall, List.mem_append, List.mem_singleton, or_imp, forall_and, forall_eq]
    tauto

/-- **Crash safety, exactly.**  A session is fed without a fault if and only if its headers are never
    completed after a line without a value, a stream has no header after a message that ended in such
    a trailer, and the parse-error delegate is set or every buffer is read to its end. -/
theorem safe_iff (streaming headers message parseError : Bool) {calls : List (Bytes × Execute)}
    {ph : Phase} (h : Path Appends .between calls ph) :
    (∃ p, feed (HTTPParser.configured streaming headers message parseError) calls = .ok p) ↔
      Each (Harmless streaming) (eventsOf calls) ∧
        (parseError = true ∨ ∀ c ∈ calls, c.2.nparsed = c.1.length) := by
  have hpath := executes_of_appends h
  have hinit : AfterCalls streaming parseError [] .between
      (HTTPParser.configured streaming headers message parseError) :=
    ⟨.between, tracks_configured streaming headers message parseError, .inl rfl⟩
  have hok := fun calls ph c ph' p (hI : AfterCalls streaming parseError calls ph p)
    (hs : Executes ph c ph') hP => appendBytes_tracks hI hs hP
  rw [← each_harmlessCall]
  constructor
  · rintro ⟨p, hp⟩
    by_contra heach
    obtain ⟨k, hk⟩ := hpath.fails hok
      (fun calls ph c ph' p hI hs hP => appendBytes_stops hI hs hP) hinit heach
    have hboth : (Except.ok p : Except Fault HTTPParser) = .error k := hp.symm.trans hk
    cases hboth
  · intro heach
    obtain ⟨p, hp, -⟩ := hpath.succeeds hok hinit heach
    exact ⟨p, hp⟩

/-- `GET / HTTP/1.1` with the header `A: b`, in one buffer. -/
def getRequest : Bytes × Execute :=
  (ascii "GET / HTTP/1.1\r\nA: b\r\n\r\n",
    ⟨[.messageBegin, .url (ascii "/"), .headerField (ascii "A"), .headerValue (ascii "b"),
      .headersComplete ⟨1, 0, 1, 1⟩, .messageComplete], 24⟩)

/-- The same with the header line `Foo`. -/
def colonlessRequest : Bytes × Execute :=
  (ascii "GET / HTTP/1.1\r\nFoo\r\n\r\n",
    ⟨[.messageBegin, .url (ascii "/"), .headerField (ascii "Foo"),
      .headersComplete ⟨1, 0, 1, 1⟩, .messageComplete], 23⟩)

/-- A byte that no message starts with. -/
def garbage : Bytes × Execute := ([0], ⟨[], 0⟩)

theorem getRequest_appends : Path Appends .between [getRequest] .between := by
  refine .cons ⟨by decide, .read nofun nofun ?_⟩ (.nil _)
  exact .cons .messageBegin (.cons (.url _) (.cons (.firstField _) (.cons (.value _ _)
    (.cons (.headersComplete _ .body _ (by simp) (by simp))
      (.cons (.messageComplete _ (by simp)) (.nil _))))))

theorem safe_iff_getRequest :
    Each (Harmless true) (eventsOf [getRequest]) ∧
      (false = true ∨ ∀ c ∈ [getRequest], c.2.nparsed = c.1.length) :=
  (safe_iff true false true false getRequest_appends).mp ⟨_, rfl⟩

/-- A header line without a colon ends the process, whatever delegates are set; so does the first
    byte of garbage when the parse-error delegate is not. -/
theorem colonless_header_faults :
    (Path Appends .between [colonlessRequest] .between ∧
      feed (HTTPParser.configured false true true true) [colonlessRequest] = .error .nullValue ∧
      feed (HTTPParser.configured true true true true) [colonlessRequest] = .error .nullValue) ∧
    (Path Appends .between [garbage] .failed ∧
      feed (HTTPParser.configured false true true false) [garbage] = .error .unsetDelegate) := by
  refine ⟨⟨?_, rfl, rfl⟩, ?_, rfl⟩
  · refine .cons ⟨by decide, .read nofun nofun ?_⟩ (.nil _)
    exact .cons .messageBegin (.cons (.url _) (.cons (.firstField _)
      (.cons (.headersComplete _ .body _ (by simp) (by simp))
        (.cons (.messageComplete _ (by simp)) (.nil _)))))
  · exact .cons ⟨by decide, .error nofun (by decide) (.nil _)⟩ (.nil _)

end Pixie.Http
