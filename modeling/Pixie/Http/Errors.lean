/-
  Which calls of `appendBytes` report a parse error.

  `appendBytes` does not look at `http_errno`.  It compares the count that `http_parser_execute`
  returns with the length of the buffer, and the two tests differ at both ends:
    * the message of an upgrade ends the call with the rest of the buffer not read and no error
      recorded: the bytes behind a CONNECT are reported as a parse error;
    * once an error is recorded nothing is read any more, and of an empty buffer that is all there is:
      the error is not reported.

  1. `Tunnelled`, `Invokes` — the two sides: `http_parser` stopped before the end without an error;
     `appendBytes` calls the parse-error delegate.

  2. `Executes.short` — when the count is not the length, by the grammar; `invokes_iff` — when the
     delegate is called, by the code; `tunnel_delivers` — what the upgrade gets right.

  3. `flagsExactly_iff` — puts them together, for any call after any calls.
-/
import Pixie.Http.Safety
import Pixie.Http.EndOfStream

namespace Pixie.Http

open Pixie.Decimal Pixie.Run

/-! ## What is asked of a call -/

/-- `http_parser` has left bytes of the buffer unread, and has recorded no error: they belong to the
    protocol that a CONNECT or an upgrade has changed to. -/
def Tunnelled (c : Bytes × Execute) (ph' : Phase) : Prop :=
  ph' ≠ .failed ∧ c.2.nparsed < c.1.length

/-- `appendBytes` calls the parse-error delegate, or ends in the attempt if it is not set. -/
def Invokes (p : HTTPParser) (c : Bytes × Execute) : Prop :=
  match appendBytes p c.1 c.2 with
  | .ok (q, _) => .parseError ∈ q.calls.drop p.calls.length
  | .error k => k = .unsetDelegate

/-- What is asked of a call that leaves `http_parser` at `ph'`: the delegate is called if and only if
    an error has been recorded; and the message before tunnelled bytes is delivered, with the offset
    of the first of them returned. -/
structure FlagsExactly (p : HTTPParser) (c : Bytes × Execute) (ph' : Phase) : Prop where
  invoked : Invokes p c ↔ ph' = .failed
  tunnel : Tunnelled c ph' → ∃ q, appendBytes p c.1 c.2 = .ok (q, c.2.nparsed) ∧
    (p.onMessageLambdaCB = true →
      (deliveries q).length = (deliveries p).length + c.2.events.count .messageComplete)

/-! ## The count -/

theorem emits_not_failed {ph ph' : Phase} {es : List Event} (h : Path Emits ph es ph')
    (hph : ph ≠ .failed) : ph' ≠ .failed := by
  induction h with
  | nil => exact hph
  | cons he _ ih =>
    refine ih ?_
    cases he with
    | headersComplete _ _ _ _ h =>
      rcases h with rfl | rfl
      · exact nofun
      · exact nofun
    | _ => exact nofun

/-- **The count is short** at the bytes behind an upgrade, and at an error, but for an empty buffer
    when the error is an earlier one. -/
theorem Executes.short {ph ph' : Phase} {c : Bytes × Execute} (h : Executes ph c ph') :
    c.2.nparsed ≠ c.1.length ↔
      Tunnelled c ph' ∨ (ph' = .failed ∧ (ph ≠ .failed ∨ c.1 ≠ [])) := by
  cases h with
  | read hph _ hes =>
    have hph' := emits_not_failed hes hph
    refine ⟨fun hne => absurd rfl hne, ?_⟩
    rintro (⟨-, hlt⟩ | ⟨hfailed, -⟩)
    · exact absurd hlt (lt_irrefl _)
    · exact absurd hfailed hph'
  | error hph hlt => exact ⟨fun _ => .inr ⟨rfl, .inl hph⟩, fun _ => hlt.ne⟩
  | upgrade hlt => exact ⟨fun _ => .inl ⟨nofun, hlt⟩, fun _ => hlt.ne⟩
  | failed buffer =>
    constructor
    · intro hne
      refine .inr ⟨rfl, .inr fun hnil => hne ?_⟩
      rw [hnil]
      rfl
    · rintro (⟨hne, -⟩ | ⟨-, hne | hne⟩)
      · exact absurd rfl hne
      · exact absurd rfl hne
      · exact fun hzero => hne (List.length_eq_zero_iff.mp hzero.symm)
  | empty ph =>
    cases ph with
    | bodyEof => simp [Tunnelled, zeroLength]
    | between => simp [Tunnelled, zeroLength]
    | failed => simp [Tunnelled, zeroLength]
    | _ => simp [zeroLength]

/-- Behind tunnelled bytes there is the end of a message. -/
theorem Executes.tunnelled {ph ph' : Phase} {c : Bytes × Execute} (h : Executes ph c ph')
    (ht : Tunnelled c ph') : ph' = .between ∧ ∃ es, c.2.events = es ++ [.messageComplete] := by
  obtain ⟨hph', hlt⟩ := ht
  cases h with
  | read => exact absurd hlt (lt_irrefl _)
  | error => exact absurd rfl hph'
  | @upgrade _ _ es => exact ⟨rfl, es, rfl⟩
  | failed => exact absurd rfl hph'
  | empty => exact absurd hlt (Nat.not_lt_zero _)

/-! ## The delegate -/

/-- No callback calls the parse-error delegate. -/
theorem callback_calls {p q : HTTPParser} {e : Event} (h : callback p e = .ok q) :
    ∃ cs, q.calls = p.calls ++ cs ∧ .parseError ∉ cs := by
  have hnone : q.calls = p.calls → ∃ cs, q.calls = p.calls ++ cs ∧ .parseError ∉ cs :=
    fun hcalls => ⟨[], hcalls.trans (List.append_nil _).symm, List.not_mem_nil⟩
  have hedits : Edits p q → q.calls = p.calls := by
    rintro ⟨f, c, -, rfl⟩
    rfl
  -- one of the two other delegates, if it is set
  have hone : ∀ (isSet : Bool) (call : Call), call ≠ .parseError →
      (q.calls = if isSet then p.calls ++ [call] else p.calls) →
      ∃ cs, q.calls = p.calls ++ cs ∧ .parseError ∉ cs := by
    intro isSet call hcall hcalls
    cases isSet with
    | true => exact ⟨[call], hcalls, fun hmem => hcall (List.mem_singleton.mp hmem).symm⟩
    | false => exact hnone hcalls
  cases e with
  | headerField data => exact hnone (hedits (headerField_edits h))
  | headerValue data => exact hnone (hedits (headerValue_edits h))
  | headersComplete line =>
    have hq := headersCompleteCb_ok (headersComplete_saves h) line
    rw [callback, hq] at h
    cases h
    exact hone p.onHeadersLambdaCB (.headers p.parserContext.message (headed p line)) nofun rfl
  | messageComplete =>
    cases h
    refine hone p.onMessageLambdaCB (.message p.parserContext.message p.building) nofun ?_
    by_cases hstream : p.streamMessagesOption = true
    · rw [messageCompleteCb_streaming hstream]
    · rw [messageCompleteCb_single (Bool.eq_false_of_not_eq_true hstream)]
  | _ =>
    cases h
    exact hnone rfl

theorem callbacks_calls {p q : HTTPParser} {es : List Event} (h : callbacks p es = .ok q) :
    ∃ cs, q.calls = p.calls ++ cs ∧ .parseError ∉ cs := by
  refine foldlM_keeps (p := []) (I := fun _ q => ∃ cs, q.calls = p.calls ++ cs ∧ .parseError ∉ cs) ?_
    ⟨[], (List.append_nil _).symm, List.not_mem_nil⟩ h
  rintro _ e x y ⟨cs, hx, hcs⟩ hy
  obtain ⟨cs', hy', hcs'⟩ := callback_calls hy
  refine ⟨cs ++ cs', ?_, ?_⟩
  · rw [hy', hx, List.append_assoc]
  · rw [List.mem_append, not_or]
    exact ⟨hcs, hcs'⟩

/-- Nor does it look whether the delegate is set. -/
theorem saveIfNamed_fault {p : HTTPParser} {k : Fault} (h : saveIfNamed p = .error k) :
    k = .nullValue := by
  have hname : p.parserContext.name ≠ none := by
    intro hnone
    rw [saveIfNamed, hnone] at h
    cases h
  have hvalue : p.parserContext.value = none := by
    by_contra hne
    rw [saveIfNamed_ok fun hnone => absurd hnone hne] at h
    cases h
  rw [saveIfNamed_error hname hvalue] at h
  cases h
  rfl

theorem saved_fault {p : HTTPParser} {f : HTTPParser → HTTPParser} {k : Fault}
    (h : (saveIfNamed p).bind (fun r => .ok (f r)) = .error k) : k ≠ .unsetDelegate := by
  cases hsave : saveIfNamed p with
  | ok r =>
    rw [hsave] at h
    cases h
  | error k' =>
    rw [hsave] at h
    cases h
    rw [saveIfNamed_fault hsave]
    decide

theorem headerField_fault {p : HTTPParser} {data : Bytes} {k : Fault}
    (h : headerFieldDataCb p data = .error k) : k ≠ .unsetDelegate := by
  rw [headerFieldDataCb] at h
  cases hstate : p.parserContext.headerState with
  | nothing =>
    rw [hstate] at h
    exact saved_fault h
  | value =>
    rw [hstate] at h
    exact saved_fault h
  | field =>
    rw [hstate] at h
    cases hname : p.parserContext.name with
    | none =>
      rw [hname] at h
      cases h
      decide
    | some n =>
      rw [hname] at h
      cases h

theorem headerValue_fault {p : HTTPParser} {data : Bytes} {k : Fault}
    (h : headerValueDataCb p data = .error k) : k ≠ .unsetDelegate := by
  cases hstate : p.parserContext.headerState with
  | nothing =>
    rw [headerValueDataCb, hstate] at h
    cases h
  | field =>
    rw [headerValueDataCb_first hstate] at h
    cases h
  | value =>
    rw [headerValueDataCb, hstate] at h
    cases hvalue : p.parserContext.value with
    | none =>
      rw [hvalue] at h
      cases h
      decide
    | some v =>
      rw [hvalue] at h
      cases h

theorem callback_fault {p : HTTPParser} {e : Event} {k : Fault} (h : callback p e = .error k) :
    k ≠ .unsetDelegate := by
  cases e with
  | headerField data => exact headerField_fault h
  | headerValue data => exact headerValue_fault h
  | headersComplete line => exact saved_fault h
  | _ => cases h

theorem callbacks_fault {es : List Event} : ∀ {p : HTTPParser} {k : Fault},
    callbacks p es = .error k → k ≠ .unsetDelegate := by
  induction es with
  | nil => exact fun h => nomatch h
  | cons e es ih =>
    intro p k h
    rw [callbacks_cons] at h
    cases hcb : callback p e with
    | ok q =>
      rw [hcb] at h
      exact ih h
    | error k' =>
      rw [hcb] at h
      cases h
      exact callback_fault hcb

/-- After callbacks that all return, the delegate is called if the count is short. -/
theorem invokes_iff {p q : HTTPParser} {c : Bytes × Execute}
    (hq : callbacks { p with messageData := p.messageData ++ c.1 } c.2.events = .ok q) :
    Invokes p c ↔ c.2.nparsed ≠ c.1.length := by
  obtain ⟨cs, hcalls, hcs⟩ := callbacks_calls hq
  unfold Invokes
  rw [appendBytes_ok hq]
  by_cases hn : c.2.nparsed = c.1.length
  · rw [if_neg (not_not_intro hn)]
    refine ⟨fun hmem => ?_, fun hne => absurd hn hne⟩
    dsimp only at hmem
    rw [hcalls, List.drop_left] at hmem
    exact absurd hmem hcs
  · rw [if_pos hn]
    by_cases hset : q.onParseErrorLambdaCB
    · rw [if_pos hset]
      refine ⟨fun _ => hn, fun _ => ?_⟩
      show Call.parseError ∈ (q.calls ++ [Call.parseError]).drop p.calls.length
      rw [hcalls, List.append_assoc, List.drop_left]
      simp
    · rw [if_neg hset]
      exact ⟨fun _ => hn, fun _ => rfl⟩

/-- After one that faults it is not. -/
theorem not_invokes {p : HTTPParser} {c : Bytes × Execute} {k : Fault}
    (hk : callbacks { p with messageData := p.messageData ++ c.1 } c.2.events = .error k) :
    ¬ Invokes p c := by
  unfold Invokes
  rw [appendBytes, hk]
  exact callbacks_fault hk

/-! ## A call after any calls -/

variable {streaming parseError : Bool} {calls : List (Bytes × Execute)} {c : Bytes × Execute}
  {ph ph' : Phase} {p : HTTPParser}

/-- What holds of the parser after calls that have all returned. -/
theorem feed_tracks {headers message : Bool} (h : Path Executes .between calls ph)
    (hp : feed (HTTPParser.configured streaming headers message parseError) calls = .ok p) :
    AfterCalls streaming parseError calls ph p := by
  refine h.keeps (p := []) (I := AfterCalls streaming parseError) ?_ ?_ hp
  · intro calls ph c ph' x y hI hs hy
    by_cases hP : HarmlessCall streaming parseError calls c
    · obtain ⟨q, hq, hafter⟩ := appendBytes_tracks hI hs hP
      cases hy.symm.trans hq
      exact hafter
    · obtain ⟨k, hk⟩ := appendBytes_stops hI hs hP
      cases hy.symm.trans hk
  · exact ⟨.between, tracks_configured streaming headers message parseError, .inl rfl⟩

/-- The calls that report as they should: `http_parser` has not left bytes to another protocol, and
    if there is an error by now, then it is not an old one that an empty buffer follows, and no
    callback of this call follows a NULL pointer before it. -/
def FlagsWhen (streaming : Bool) (calls : List (Bytes × Execute)) (ph : Phase) (c : Bytes × Execute)
    (ph' : Phase) : Prop :=
  ¬ Tunnelled c ph' ∧ (ph' = .failed → (ph ≠ .failed ∨ c.1 ≠ []) ∧
    Each (fun before => Harmless streaming (eventsOf calls ++ before)) c.2.events)

/-- **Tunnelled bytes**: the messages before them are delivered, one at least, and the offset of the
    first of them is returned; the error that is reported besides is the only thing wrong. -/
theorem tunnel_delivers {headers : Bool} (h : Path Appends .between calls ph)
    (hp : feed (HTTPParser.configured streaming headers true true) calls = .ok p)
    (hc : Appends ph c ph') (ht : Tunnelled c ph')
    (heach : Each (fun before => Harmless streaming (eventsOf calls ++ before)) c.2.events) :
    ∃ q, appendBytes p c.1 c.2 = .ok (q, c.2.nparsed) ∧
      (deliveries q).length = (deliveries p).length + c.2.events.count .messageComplete ∧
      0 < c.2.events.count .messageComplete ∧ Invokes p c := by
  obtain ⟨u, v, htracks, hpath, -⟩ := hc.executes.continues (feed_tracks (executes_of_appends h) hp)
  obtain ⟨q, hq, htracks'⟩ := (call_tracks htracks hpath).1 heach
  have hcount := feed_counted (counted_configured streaming headers true) hp
  have hcounted : Counted streaming (eventsOf calls ++ c.2.events) q :=
    callbacks_counted (p := { p with messageData := p.messageData ++ c.1 })
      ⟨hcount.mode, hcount.delegate, hcount.flag, hcount.count⟩ hq
  obtain ⟨-, es, hevents⟩ := hc.executes.tunnelled ht
  refine ⟨q.call .parseError, ?_, ?_, ?_, (invokes_iff hq).mpr ht.2.ne⟩
  · rw [appendBytes_ok hq, if_pos ht.2.ne, if_pos htracks'.errorSet]
  · rw [deliveries_call_parseError, hcounted.count, List.count_append, hcount.count]
  · rw [hevents, List.count_append, List.count_singleton_self]
    exact Nat.succ_pos _

/-- **Parse errors, exactly.**  After any calls that have returned, a call reports a parse error if and
    only if `http_parser` has recorded one by then, and treats tunnelled bytes as it should, if and
    only if it is one of those of `FlagsWhen`. -/
theorem flagsExactly_iff (streaming headers message parseError : Bool)
    {calls : List (Bytes × Execute)} {c : Bytes × Execute} {ph ph' : Phase} {p : HTTPParser}
    (h : Path Appends .between calls ph)
    (hp : feed (HTTPParser.configured streaming headers message parseError) calls = .ok p)
    (hc : Appends ph c ph') :
    FlagsExactly p c ph' ↔ FlagsWhen streaming calls ph c ph' := by
  obtain ⟨u, v, htracks, hpath, -⟩ := hc.executes.continues (feed_tracks (executes_of_appends h) hp)
  by_cases heach : Each (fun before => Harmless streaming (eventsOf calls ++ before)) c.2.events
  · obtain ⟨q, hq, -⟩ := (call_tracks htracks hpath).1 heach
    have hinvokes := (invokes_iff hq).trans hc.executes.short
    constructor
    · rintro ⟨hinvoked, -⟩
      refine ⟨fun ht => ht.1 (hinvoked.mp (hinvokes.mpr (.inl ht))), fun hfailed => ⟨?_, heach⟩⟩
      rcases hinvokes.mp (hinvoked.mpr hfailed) with ht | ⟨-, hlate⟩
      · exact absurd hfailed ht.1
      · exact hlate
    · rintro ⟨ht, hfailed⟩
      refine ⟨hinvokes.trans ⟨?_, fun hph' => .inr ⟨hph', (hfailed hph').1⟩⟩, fun h => absurd h ht⟩
      rintro (h | ⟨hph', -⟩)
      · exact absurd h ht
      · exact hph'
  · obtain ⟨k, hk⟩ := (call_tracks htracks hpath).2 heach
    constructor
    · rintro ⟨hinvoked, htunnel⟩
      refine ⟨fun ht => ?_, fun hfailed => absurd (hinvoked.mpr hfailed) (not_invokes hk)⟩
      obtain ⟨q, hq, -⟩ := htunnel ht
      rw [appendBytes, hk] at hq
      cases hq
    · rintro ⟨ht, hfailed⟩
      refine ⟨⟨fun hinvoked => absurd hinvoked (not_invokes hk), fun hph' => ?_⟩,
        fun h => absurd h ht⟩
      exact absurd (hfailed hph').2 heach

theorem flagsExactly_iff_garbage :
    FlagsExactly (HTTPParser.configured true false true true) garbage .failed ↔
      FlagsWhen true [] .between garbage .failed :=
  flagsExactly_iff true false true true (.nil _) rfl
    ⟨by decide, .error nofun (by decide) (.nil _)⟩

/-- `CONNECT a:1`, with the first byte of what the client sends through the tunnel. -/
def connectRequest : Bytes × Execute :=
  (ascii "CONNECT a:1 HTTP/1.1\r\n\r\n" ++ [22],
    ⟨[.messageBegin, .url (ascii "a:1"), .headersComplete ⟨5, 0, 1, 1⟩, .messageComplete], 24⟩)

/-- The request is delivered and the offset 24 returned, and a parse error is reported with no error
    recorded. -/
theorem tunnelled_byte_flagged :
    Appends .between connectRequest .between ∧
      ∃ q, appendBytes (HTTPParser.configured true true true true) connectRequest.1
          connectRequest.2 = .ok (q, 24) ∧
        (deliveries q).map (fun d => d.2.url) = [ascii "a:1"] ∧ .parseError ∈ q.calls ∧
        ¬ FlagsExactly (HTTPParser.configured true true true true) connectRequest .between := by
  have hpath : Path Emits .between ([.messageBegin, .url (ascii "a:1"),
      .headersComplete ⟨5, 0, 1, 1⟩] ++ [.messageComplete]) .between :=
    .cons .messageBegin (.cons (.url _) (.cons (.headersComplete _ .body _ (by simp) (by simp))
      (.cons (.messageComplete _ (by simp)) (.nil _))))
  have hcall : Appends .between connectRequest .between := ⟨by decide, .upgrade (by decide) hpath⟩
  refine ⟨hcall, _, rfl, rfl, List.mem_append_right _ (List.mem_singleton_self _), ?_⟩
  rintro ⟨hinvoked, -⟩
  have hflag : Invokes (HTTPParser.configured true true true true) connectRequest :=
    (invokes_iff rfl).mpr (by decide)
  cases hinvoked.mp hflag

end Pixie.Http
