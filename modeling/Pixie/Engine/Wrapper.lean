/-
  The wrapper on top of the machine.

  `HTTPParser` gets the strings of a message in pieces, and puts them together again.  So what it
  makes of a stream does not depend on the buffers either:

    * `callback_two` — two adjacent pieces leave what the two as one piece would; for the value of a
      header this needs that its field has been reported (`Begun`), which the grammar sees to;
    * `callbacks_joined` — so joining pieces does not change the wrapper;
    * `feed_whole` — calls that read their buffers to the end are their callbacks, but for
      `messageData`, the bytes as they have come (`bare` is the wrapper without them);
    * `feed_cut`, `wrapper_cut` — buffers against one buffer with all their bytes.
-/
import Pixie.Engine.Segments
import Pixie.Http.Errors

namespace Pixie.Engine

open Pixie.Decimal Pixie.Http Pixie.Run Pixie.Pieces

variable {p q : HTTPParser} {ph ph' u : Phase} {k : Mark} {d d' : Bytes}

/-! ## Two pieces -/

/-- In a header line the wrapper knows that there is one. -/
def Begun (ph : Phase) (p : HTTPParser) : Prop :=
  ∀ t, ph = .field t ∨ ph = .value t → p.parserContext.headerState ≠ .nothing

theorem headerField_state (h : headerFieldDataCb p d = .ok q) :
    q.parserContext.headerState = .field := by
  have hsaved : (saveIfNamed p).bind (fun r => .ok { r with
      parserContext :=
        { r.parserContext with name := some (sbAppend sbCreate d), value := none,
                               headerState := .field } }) = .ok q →
      q.parserContext.headerState = .field := by
    intro h
    obtain ⟨r, -, hr⟩ := bind_ok.mp h
    cases hr
    rfl
  unfold headerFieldDataCb at h
  cases hstate : p.parserContext.headerState with
  | nothing => exact hsaved (by rw [hstate] at h; exact h)
  | value => exact hsaved (by rw [hstate] at h; exact h)
  | field =>
    rw [hstate] at h
    cases hname : p.parserContext.name with
    | none =>
      rw [hname] at h
      cases h
    | some n =>
      rw [hname] at h
      cases h
      rfl

theorem headerValue_state (h : headerValueDataCb p d = .ok q) :
    q.parserContext.headerState = .value := by
  unfold headerValueDataCb at h
  cases hstate : p.parserContext.headerState with
  | nothing =>
    rw [hstate] at h
    cases h
    rfl
  | field =>
    rw [hstate] at h
    cases h
    rfl
  | value =>
    rw [hstate] at h
    cases hvalue : p.parserContext.value with
    | none =>
      rw [hvalue] at h
      cases h
    | some v =>
      rw [hvalue] at h
      cases h
      rfl

/-- Only a piece of a header line leads into one. -/
theorem occurs_line {e : Event} {t : Bool} (he : Occurs ph e ph') (ht : ph' = .field t ∨ ph' = .value t) :
    (∃ d, e = .headerField d) ∨ ∃ d, e = .headerValue d := by
  cases he with
  | endOfStream => rcases ht with ht | ht <;> cases ht
  | emits he =>
    cases he with
    | firstField d => exact .inl ⟨d, rfl⟩
    | firstTrailer d => exact .inl ⟨d, rfl⟩
    | field t d => exact .inl ⟨d, rfl⟩
    | nextField t d => exact .inl ⟨d, rfl⟩
    | value t d => exact .inr ⟨d, rfl⟩
    | moreValue t d => exact .inr ⟨d, rfl⟩
    | headersComplete _ _ _ _ hbody =>
      rcases ht with rfl | rfl
      · rcases hbody with hc | hc <;> cases hc
      · rcases hbody with hc | hc <;> cases hc
    | _ => rcases ht with ht | ht <;> cases ht

theorem callback_begun {e : Event} (he : Occurs ph e ph') (hq : callback p e = .ok q) :
    Begun ph' q := by
  intro t ht
  rcases occurs_line he ht with ⟨d, rfl⟩ | ⟨d, rfl⟩
  · rw [headerField_state hq]
    decide
  · rw [headerValue_state hq]
    decide

theorem callbacks_begun {es : List Event} (hp : Begun ph p) (h : Path Occurs ph es ph')
    (hq : callbacks p es = .ok q) : Begun ph' q := by
  induction h generalizing p with
  | nil ph =>
    cases hq
    exact hp
  | cons he _ ih =>
    rw [callbacks_cons] at hq
    obtain ⟨r, hr, hrest⟩ := bind_ok.mp hq
    exact ih (callback_begun he hr) hrest

theorem callback_two (hp : Begun ph p) (he : Occurs ph (k.event d) u) (d' : Bytes) :
    (callback p (k.event d)).bind (fun q => callback q (k.event d')) =
      callback p (k.event (d ++ d')) := by
  cases k with
  | url => simp [callback, Mark.event, urlDataCb, sbAppend, Except.bind]
  | status => simp [callback, Mark.event, statusDataCb, sbAppend, Except.bind]
  | body =>
    show Except.ok (bodyDataCb (bodyDataCb p d) d') = .ok (bodyDataCb p (d ++ d'))
    unfold bodyDataCb
    rw [HTTPParser.updateMessage_updateMessage]
    simp only [List.append_assoc]
  | headerField =>
    show (headerFieldDataCb p d).bind (fun q => headerFieldDataCb q d') = headerFieldDataCb p (d ++ d')
    unfold headerFieldDataCb
    cases hstate : p.parserContext.headerState with
    | field =>
      cases hname : p.parserContext.name with
      | none => rfl
      | some n => simp [Except.bind, sbAppend]
    | nothing =>
      cases hsave : saveIfNamed p with
      | error f => rfl
      | ok r => simp [Except.bind, bind, sbAppend]
    | value =>
      cases hsave : saveIfNamed p with
      | error f => rfl
      | ok r => simp [Except.bind, bind, sbAppend]
  | headerValue =>
    have hnot : p.parserContext.headerState ≠ .nothing := by
      cases he with
      | emits he =>
        cases he with
        | value t => exact hp t (.inl rfl)
        | moreValue t => exact hp t (.inr rfl)
    show (headerValueDataCb p d).bind (fun q => headerValueDataCb q d') = headerValueDataCb p (d ++ d')
    unfold headerValueDataCb
    cases hstate : p.parserContext.headerState with
    | nothing => exact absurd hstate hnot
    | field => simp [Except.bind, sbAppend]
    | value =>
      cases hvalue : p.parserContext.value with
      | none => rfl
      | some v => simp [Except.bind, sbAppend]

/-- Where two pieces may be reported, so may the two as one. -/
theorem occurs_two (he : Occurs ph (k.event d) u) (he' : Occurs u (k.event d') ph') :
    Occurs ph (k.event (d ++ d')) ph' := by
  cases k with
  | url =>
    cases he with
    | emits he =>
      cases he
      cases he' with
      | emits he' =>
        cases he'
        exact .emits (.url _)
  | status =>
    cases he with
    | emits he =>
      cases he
      cases he' with
      | emits he' =>
        cases he'
        exact .emits (.status _)
  | body =>
    cases he with
    | emits he =>
      cases he' with
      | emits he' =>
        cases he with
        | body =>
          cases he'
          exact .emits (.body _)
        | bodyEof =>
          cases he'
          exact .emits (.bodyEof _)
  | headerField =>
    cases he with
    | emits he =>
      cases he' with
      | emits he' =>
        cases he with
        | firstField =>
          cases he'
          exact .emits (.firstField _)
        | firstTrailer =>
          cases he'
          exact .emits (.firstTrailer _)
        | field t =>
          cases he'
          exact .emits (.field t _)
        | nextField t =>
          cases he'
          exact .emits (.nextField t _)
  | headerValue =>
    cases he with
    | emits he =>
      cases he' with
      | emits he' =>
        cases he with
        | value t =>
          cases he'
          exact .emits (.value t _)
        | moreValue t =>
          cases he'
          exact .emits (.moreValue t _)

/-! ## Many pieces -/

/-- A single join. -/
theorem callbacks_join {es es' : List Event} (hp : Begun ph p) (h : Path Occurs ph es ph')
    (hj : Join Mark.event es es') : Path Occurs ph es' ph' ∧ callbacks p es = callbacks p es' := by
  cases hj with
  | two before k d d' after =>
    obtain ⟨u, hbefore, hrest⟩ := h.split
    cases hrest with
    | cons he hrest =>
      cases hrest with
      | cons he' hafter =>
        refine ⟨hbefore.append (.cons (occurs_two he he') hafter), ?_⟩
        rw [callbacks_append, callbacks_append]
        cases hb : callbacks p before with
        | error f => rfl
        | ok r =>
          have htwo := callback_two (callbacks_begun hp hbefore hb) he d'
          show callbacks r _ = callbacks r _
          rw [callbacks_cons, callbacks_cons, ← htwo]
          cases callback r (k.event d) with
          | error f => rfl
          | ok r' =>
            show callbacks r' _ = _
            rw [callbacks_cons]
            rfl

/-- **Joining pieces does not change the wrapper.** -/
theorem callbacks_joined {es es' : List Event} (hp : Begun ph p) (h : Path Occurs ph es ph')
    (hj : Joined es es') : callbacks p es = callbacks p es' :=
  (hj.preserves (P := fun es => Path Occurs ph es ph') (fun h hj => callbacks_join hp h hj) h).2

/-! ## Calls -/

/-- The wrapper without the bytes as they have come. -/
def bare (p : HTTPParser) : HTTPParser := { p with messageData := [] }

/-- No callback looks at the bytes as they have come. -/
theorem callback_bare (p : HTTPParser) (e : Event) :
    (callback (bare p) e).map bare = (callback p e).map bare := by
  obtain ⟨streaming, hflag, mflag, data, ⟨message, state, url, status, name, value⟩, last, onHeaders,
    onMessage, onError, heap, allocated, calls⟩ := p
  cases e with
  | messageBegin => rfl
  | url d => rfl
  | status d => rfl
  | body d => rfl
  | headerField d => cases state <;> cases name <;> cases value <;> rfl
  | headerValue d => cases state <;> cases value <;> rfl
  | headersComplete line => cases name <;> cases value <;> cases onHeaders <;> rfl
  | messageComplete => cases streaming <;> cases onMessage <;> rfl

theorem callbacks_bare (es : List Event) {p q : HTTPParser} (h : bare p = bare q) :
    (callbacks p es).map bare = (callbacks q es).map bare := by
  induction es generalizing p q with
  | nil => exact congrArg Except.ok h
  | cons e es ih =>
    have he : (callback p e).map bare = (callback q e).map bare := by
      rw [← callback_bare p e, ← callback_bare q e, h]
    rw [callbacks_cons, callbacks_cons]
    cases hp : callback p e with
    | error f =>
      cases hq : callback q e with
      | error f' =>
        rw [hp, hq] at he
        cases he
        rfl
      | ok q' =>
        rw [hp, hq] at he
        cases he
    | ok p' =>
      cases hq : callback q e with
      | error f' =>
        rw [hp, hq] at he
        cases he
      | ok q' =>
        rw [hp, hq] at he
        exact ih (Except.ok.inj he)

/-- Calls that read their buffers to the end are their callbacks. -/
theorem feed_whole (calls : List (Bytes × Execute)) {p q : HTTPParser} (h : bare p = bare q)
    (hwhole : ∀ c ∈ calls, c.2.nparsed = c.1.length) :
    (feed p calls).map bare = (callbacks q (eventsOf calls)).map bare := by
  induction calls generalizing p q with
  | nil => exact congrArg Except.ok h
  | cons c calls ih =>
    have hfirst : (callbacks { p with messageData := p.messageData ++ c.1 } c.2.events).map bare =
        (callbacks q c.2.events).map bare :=
      callbacks_bare c.2.events h
    have hfeed : feed p (c :: calls) =
        (callbacks { p with messageData := p.messageData ++ c.1 } c.2.events).bind fun p =>
          feed p calls := by
      show ((appendBytes p c.1 c.2).map Prod.fst).bind (fun p => feed p calls) = _
      unfold appendBytes
      rw [hwhole c List.mem_cons_self]
      cases callbacks { p with messageData := p.messageData ++ c.1 } c.2.events with
      | error f => rfl
      | ok r => simp [bind, Except.bind, Except.map]
    rw [hfeed, eventsOf_cons, callbacks_append]
    cases hp : callbacks { p with messageData := p.messageData ++ c.1 } c.2.events with
    | error f =>
      cases hq : callbacks q c.2.events with
      | error f' =>
        rw [hp, hq] at hfirst
        cases hfirst
        rfl
      | ok q' =>
        rw [hp, hq] at hfirst
        cases hfirst
    | ok p' =>
      cases hq : callbacks q c.2.events with
      | error f' =>
        rw [hp, hq] at hfirst
        cases hfirst
      | ok q' =>
        rw [hp, hq] at hfirst
        exact ih (Except.ok.inj hfirst) fun c' hc' => hwhole c' (List.mem_cons_of_mem _ hc')

/-! ## The whole parser -/

/-- What has been read of each buffer is no more than it holds. -/
theorem executes_le {c : Bytes × Execute} (h : Executes ph c ph') (hne : c.1 ≠ []) :
    c.2.nparsed ≤ c.1.length := by
  cases h with
  | read => exact le_rfl
  | error _ hlt => exact hlt.le
  | upgrade hlt => exact hlt.le
  | failed => exact Nat.zero_le _
  | empty => exact absurd rfl hne

theorem bytesRead_le {calls : List (Bytes × Execute)} (h : Path Executes ph calls ph')
    (hne : ∀ c ∈ calls, c.1 ≠ []) : bytesRead calls ≤ (calls.map Prod.fst).flatten.length := by
  induction h with
  | nil => exact le_rfl
  | @cons _ _ _ c calls hc _ ih =>
    have hfirst := executes_le hc (hne c List.mem_cons_self)
    have hrest := ih fun c' hc' => hne c' (List.mem_cons_of_mem _ hc')
    rw [bytesRead_cons, List.map_cons, List.flatten_cons, List.length_append]
    omega

/-- Calls that have read all there is have read each buffer to its end. -/
theorem all_whole {calls : List (Bytes × Execute)} (h : Path Executes ph calls ph')
    (hne : ∀ c ∈ calls, c.1 ≠ []) (hsum : bytesRead calls = (calls.map Prod.fst).flatten.length) :
    ∀ c ∈ calls, c.2.nparsed = c.1.length := by
  induction h with
  | nil => exact fun _ hc => (List.not_mem_nil hc).elim
  | @cons _ _ _ c calls hc hrest ih =>
    have hne' : ∀ c' ∈ calls, c'.1 ≠ [] := fun c' hc' => hne c' (List.mem_cons_of_mem _ hc')
    have hfirst := executes_le hc (hne c List.mem_cons_self)
    have hothers := bytesRead_le hrest hne'
    rw [bytesRead_cons, List.map_cons, List.flatten_cons, List.length_append] at hsum
    have hwhole : c.2.nparsed = c.1.length := by omega
    have hrest' := ih hne' (by omega)
    intro c' hc'
    rcases List.mem_cons.mp hc' with hc' | hc'
    · rw [hc']
      exact hwhole
    · exact hrest' c' hc'

/-- Buffers with bytes in them leave the wrapper as the callbacks of one buffer with all their bytes
    do, if that one is read to its end. -/
theorem feed_cut (streaming headers message parseError : Bool) (earlier buffers : List Bytes)
    {m m' : HttpParser} {calls₀ : List (Bytes × Execute)} {ex : Execute} {p : HTTPParser}
    (hm : session (.init .both) earlier = some (m, calls₀))
    (hp : feed (HTTPParser.configured streaming headers message parseError) calls₀ = .ok p)
    (hne : buffers ≠ []) (hbuffers : ∀ b ∈ buffers, b ≠ [])
    (hone : httpParserExecute m buffers.flatten = some (m', ex))
    (hwhole : ex.nparsed = buffers.flatten.length) :
    ∃ calls, session m buffers = some (m', calls) ∧ m'.httpErrno = .ok ∧
      (feed p calls).map bare = (callbacks p ex.events).map bare := by
  obtain ⟨m₁, calls₁, ph, hm₁, -, hpath, hfollows⟩ := session_good earlier (follows_init .both)
  obtain ⟨rfl, rfl⟩ : m = m₁ ∧ calls₀ = calls₁ := Prod.mk.inj (Option.some.inj (hm.symm.trans hm₁))
  have hdata : buffers.flatten ≠ [] := by
    obtain ⟨b, bs, rfl⟩ := List.exists_cons_of_ne_nil hne
    rw [List.flatten_cons]
    exact fun hc => hbuffers b List.mem_cons_self (List.append_eq_nil_iff.mp hc).1
  -- The one buffer is read to its end, so there is no error.
  obtain ⟨q, ex', ph', hcall, hexecutes, hfollows'⟩ := call_good buffers.flatten hfollows
  obtain ⟨rfl, rfl⟩ : m' = q ∧ ex = ex' := Prod.mk.inj (Option.some.inj (hone.symm.trans hcall))
  have hok : m'.httpErrno = .ok := by
    by_contra hfail
    have hph' : ph' = .failed := (if_neg hfail).mp hfollows'
    exact hexecutes.short.mpr (.inr ⟨hph', .inr hdata⟩) hwhole
  obtain ⟨calls, tail, hsession, hsum, hjoined, -, htail⟩ :=
    follows_cut buffers hfollows hne hbuffers hone (.inl hwhole)
  rw [htail hok, List.append_nil] at hjoined
  obtain ⟨m₂, calls₂, ph'', hsession', hfst, hpath', -⟩ := session_good buffers hfollows
  obtain ⟨-, rfl⟩ : m' = m₂ ∧ calls = calls₂ :=
    Prod.mk.inj (Option.some.inj (hsession.symm.trans hsession'))
  have hmem : ∀ c ∈ calls, c.1 ≠ [] := by
    intro c hc
    refine hbuffers c.1 ?_
    rw [← hfst]
    exact List.mem_map_of_mem hc
  have hcalls := all_whole hpath' hmem (by rw [hsum, hwhole, hfst])
  refine ⟨calls, hsession, hok, ?_⟩
  -- The wrapper stands where the callbacks may go on.
  have hbegun : Begun ph p := by
    obtain ⟨u, htracks, hu⟩ := feed_tracks hpath hp
    rintro t (rfl | rfl)
    · obtain rfl := hu.resolve_right (by simp)
      rw [htracks.state.mpr (endsInField_own _ _ (htracks.field t rfl))]
      decide
    · obtain rfl := hu.resolve_right (by simp)
      rw [(htracks.value t rfl).1]
      decide
  obtain ⟨v, hevents', -⟩ := session_occurs hpath'
  rw [feed_whole calls rfl hcalls, callbacks_joined hbegun hevents' hjoined]

/-- **The wrapper does not see the buffers.**  After anything it has been fed, buffers with bytes in
    them leave `HTTPParser` as one buffer with all their bytes would, if that one is read to its end:
    the same messages under construction and delivered, the same calls of delegates with the same
    contents, the same faults; only `messageData` holds other bytes. -/
theorem wrapper_cut (streaming headers message parseError : Bool) (earlier buffers : List Bytes)
    {m m' : HttpParser} {calls₀ : List (Bytes × Execute)} {ex : Execute} {p : HTTPParser}
    (hm : session (.init .both) earlier = some (m, calls₀))
    (hp : feed (HTTPParser.configured streaming headers message parseError) calls₀ = .ok p)
    (hne : buffers ≠ []) (hbuffers : ∀ b ∈ buffers, b ≠ [])
    (hone : httpParserExecute m buffers.flatten = some (m', ex))
    (hwhole : ex.nparsed = buffers.flatten.length) :
    ∃ calls, session m buffers = some (m', calls) ∧
      (feed p calls).map bare = (feed p [(buffers.flatten, ex)]).map bare := by
  obtain ⟨calls, hsession, -, hfeed⟩ :=
    feed_cut streaming headers message parseError earlier buffers hm hp hne hbuffers hone hwhole
  refine ⟨calls, hsession, ?_⟩
  rw [hfeed, feed_whole [(buffers.flatten, ex)] rfl (by simp [hwhole]), eventsOf_cons, eventsOf_nil,
    List.append_nil]

theorem wrapper_cut_get : ∃ m' ex calls, session (.init .both) cutGet = some (m', calls) ∧
    (feed (HTTPParser.configured true true true true) calls).map bare =
      (feed (HTTPParser.configured true true true true) [(cutGet.flatten, ex)]).map bare := by
  have hrun : (httpParserExecute (.init .both) cutGet.flatten).map (fun r => r.2.nparsed) =
      some cutGet.flatten.length := by decide
  obtain ⟨⟨m', ex⟩, hone, hwhole⟩ := Option.map_eq_some_iff.mp hrun
  obtain ⟨calls, hsession, hsame⟩ := wrapper_cut true true true true [] cutGet rfl rfl (by decide)
    (by decide) hone hwhole
  exact ⟨m', ex, calls, hsession, hsame⟩

end Pixie.Engine
