/-
  What each callback leaves, in one piece.

  The callbacks of `Parser.lean` are written as the source has them, a statement at a time.  Here each
  of them, in each state it can be called in, is one update of the parser object: what a proof needs
  to know of a callback is its equation below, and the body is not opened again.

  `pending` is the header map with the pair that is still in the two buffers, `headed` the message
  that `headers_complete_cb` leaves, `deliveries` what the message delegate has been given.
-/
import Pixie.Http.Parser
import Pixie.Lib.Run

namespace Pixie.Http

open Pixie.Decimal Pixie.Run

/-! ## The message under construction -/

theorem HTTPParser.building_updateMessage (p : HTTPParser) (f : HTTPMessage → HTTPMessage) :
    (p.updateMessage f).building = f p.building :=
  Function.update_self ..

theorem HTTPParser.updateMessage_self {p : HTTPParser} {f : HTTPMessage → HTTPMessage}
    (h : f p.building = p.building) : p.updateMessage f = p := by
  unfold HTTPParser.updateMessage
  rw [h]
  unfold HTTPParser.building
  rw [Function.update_eq_self]

theorem HTTPParser.updateMessage_updateMessage (p : HTTPParser) (f g : HTTPMessage → HTTPMessage) :
    (p.updateMessage f).updateMessage g = p.updateMessage fun m => g (f m) := by
  have hbuilding := p.building_updateMessage f
  unfold HTTPParser.updateMessage at hbuilding ⊢
  rw [hbuilding]
  dsimp only
  rw [Function.update_idem]

/-! ## Header lines -/

/-- The headers of the message, with the pair that the two buffers hold. -/
def pending (p : HTTPParser) : MessageHeaders :=
  match p.parserContext.name, p.parserContext.value with
  | some n, some v => p.building.headers.insert n v
  | _, _ => p.building.headers

/-- A save stores the pending pair, if there is one. -/
theorem saveIfNamed_ok {p : HTTPParser}
    (h : p.parserContext.value = none → p.parserContext.name = none) :
    saveIfNamed p = .ok (p.updateMessage fun m => { m with headers := pending p }) := by
  unfold saveIfNamed pending
  cases hname : p.parserContext.name with
  | none =>
    have hself : p.updateMessage (fun m => { m with headers := p.building.headers }) = p :=
      HTTPParser.updateMessage_self rfl
    simp [hself]
  | some n =>
    cases hvalue : p.parserContext.value with
    | none => simp [h hvalue] at hname
    | some v => rfl

/-- A save of a name without a value follows the NULL pointer. -/
theorem saveIfNamed_error {p : HTTPParser} (hname : p.parserContext.name ≠ none)
    (hvalue : p.parserContext.value = none) : saveIfNamed p = .error .nullValue := by
  unfold saveIfNamed
  cases hn : p.parserContext.name with
  | none => exact absurd hn hname
  | some n => rw [hvalue]; rfl

/-- A field after a value, or the first: the pair before it is saved. -/
theorem headerFieldDataCb_first {p : HTTPParser} (hstate : p.parserContext.headerState ≠ .field)
    (hsave : p.parserContext.value = none → p.parserContext.name = none) (data : Bytes) :
    headerFieldDataCb p data = .ok { p with
      heap := Function.update p.heap p.parserContext.message
        { p.building with headers := pending p }
      parserContext :=
        { p.parserContext with name := some data, value := none, headerState := .field } } := by
  unfold headerFieldDataCb
  rw [saveIfNamed_ok hsave]
  cases hs : p.parserContext.headerState with
  | field => exact absurd hs hstate
  | nothing => rfl
  | value => rfl

/-- A field after a field. -/
theorem headerFieldDataCb_next {p : HTTPParser} {n : SimpleBuffer}
    (hstate : p.parserContext.headerState = .field) (hname : p.parserContext.name = some n)
    (data : Bytes) :
    headerFieldDataCb p data = .ok { p with
      parserContext :=
        { p.parserContext with name := some (n ++ data), headerState := .field } } := by
  unfold headerFieldDataCb
  rw [hstate, hname]
  rfl

/-- A value after a field. -/
theorem headerValueDataCb_first {p : HTTPParser} (hstate : p.parserContext.headerState = .field)
    (data : Bytes) :
    headerValueDataCb p data = .ok { p with
      parserContext := { p.parserContext with value := some data, headerState := .value } } := by
  unfold headerValueDataCb
  rw [hstate]
  rfl

/-- A value after a value. -/
theorem headerValueDataCb_next {p : HTTPParser} {v : SimpleBuffer}
    (hstate : p.parserContext.headerState = .value) (hvalue : p.parserContext.value = some v)
    (data : Bytes) :
    headerValueDataCb p data = .ok { p with
      parserContext :=
        { p.parserContext with value := some (v ++ data), headerState := .value } } := by
  unfold headerValueDataCb
  rw [hstate, hvalue]
  rfl

/-! ## The end of the headers, the end of a message -/

/-- The message once its headers are complete. -/
def headed (p : HTTPParser) (line : FirstLine) : HTTPMessage :=
  { p.building with
    method := some line.method
    url := p.parserContext.urlBuf.getD []
    statusCode := some line.statusCode
    status := p.parserContext.statusBuf.getD []
    httpMajor := some line.httpMajor
    httpMinor := some line.httpMinor
    headers := pending p }

/-- The end of the headers. -/
theorem headersCompleteCb_ok {p : HTTPParser}
    (hsave : p.parserContext.value = none → p.parserContext.name = none) (line : FirstLine) :
    headersCompleteCb p line = .ok { p with
      headersCompleteFlag := true
      lastMessage := some p.parserContext.message
      heap := Function.update p.heap p.parserContext.message (headed p line)
      calls := if p.onHeadersLambdaCB then
        p.calls ++ [.headers p.parserContext.message (headed p line)] else p.calls } := by
  have hstore : storeFirstLine (p.updateMessage fun m => { m with headers := pending p }) line =
      p.updateMessage fun _ => headed p line := by
    unfold storeFirstLine
    rw [HTTPParser.updateMessage_updateMessage]
    rfl
  unfold headersCompleteCb
  rw [saveIfNamed_ok hsave]
  show Except.ok (if (storeFirstLine _ line).onHeadersLambdaCB then _ else _) = _
  rw [hstore]
  by_cases hset : p.onHeadersLambdaCB
  · rw [if_pos hset, if_pos (by exact hset)]
    exact congrArg (fun m => Except.ok { p with
      headersCompleteFlag := true
      lastMessage := some p.parserContext.message
      heap := Function.update p.heap p.parserContext.message (headed p line)
      calls := p.calls ++ [Call.headers p.parserContext.message m] })
      (p.building_updateMessage fun _ => headed p line)
  · rw [if_neg hset, if_neg (by exact hset)]
    rfl

/-- The end of a message in a stream. -/
theorem messageCompleteCb_streaming {p : HTTPParser} (hstream : p.streamMessagesOption = true) :
    messageCompleteCb p = { p with
      messageCompleteFlag := false
      headersCompleteFlag := false
      messageData := []
      parserContext := ⟨p.allocated, p.parserContext.headerState, none, none, none, none⟩
      lastMessage := some p.parserContext.message
      heap := Function.update p.heap p.allocated HTTPMessage.new
      allocated := p.allocated + 1
      calls := if p.onMessageLambdaCB then
        p.calls ++ [.message p.parserContext.message p.building] else p.calls } := by
  unfold messageCompleteCb HTTPParser.setUpNextMessage
  by_cases hset : p.onMessageLambdaCB
  · simp only [hset, if_true, HTTPParser.call, hstream]
    rfl
  · simp only [hset, hstream]
    rfl

/-- The end of a message otherwise. -/
theorem messageCompleteCb_single {p : HTTPParser} (hsingle : p.streamMessagesOption = false) :
    messageCompleteCb p = { p with
      messageCompleteFlag := true
      lastMessage := some p.parserContext.message
      calls := if p.onMessageLambdaCB then
        p.calls ++ [.message p.parserContext.message p.building] else p.calls } := by
  unfold messageCompleteCb HTTPParser.setUpNextMessage
  by_cases hset : p.onMessageLambdaCB
  · simp only [hset, if_true, HTTPParser.call, hsingle]
    rfl
  · simp only [hset, hsingle]
    rfl

/-! ## Deliveries -/

/-- The messages that the delegate has been given, with their pointers. -/
def deliveries (p : HTTPParser) : List (Nat × HTTPMessage) :=
  p.calls.filterMap fun
    | .message message seen => some (message, seen)
    | _ => none

theorem deliveries_call_message (p : HTTPParser) (n : Nat) (m : HTTPMessage) :
    deliveries (p.call (.message n m)) = deliveries p ++ [(n, m)] := by
  unfold deliveries HTTPParser.call
  rw [List.filterMap_append]
  rfl

theorem deliveries_call_headers (p : HTTPParser) (n : Nat) (m : HTTPMessage) :
    deliveries (p.call (.headers n m)) = deliveries p := by
  unfold deliveries HTTPParser.call
  rw [List.filterMap_append]
  exact List.append_nil _

theorem deliveries_call_parseError (p : HTTPParser) : deliveries (p.call .parseError) = deliveries p := by
  unfold deliveries HTTPParser.call
  rw [List.filterMap_append]
  exact List.append_nil _

/-! ## Within a message -/

/-- `q` comes after `p`, within the same message: the options are the same, nothing is delivered, only
    the message is written to, and no other is made the last. -/
structure Within (p q : HTTPParser) : Prop where
  streaming : q.streamMessagesOption = p.streamMessagesOption
  delegate : q.onMessageLambdaCB = p.onMessageLambdaCB
  completeFlag : q.messageCompleteFlag = p.messageCompleteFlag
  message : q.parserContext.message = p.parserContext.message
  allocated : q.allocated = p.allocated
  deliveries : deliveries q = deliveries p
  last : q.lastMessage = p.lastMessage ∨ q.lastMessage = some p.parserContext.message
  elsewhere : ∀ n, n ≠ p.parserContext.message → q.heap n = p.heap n

theorem Within.refl (p : HTTPParser) : Within p p :=
  ⟨rfl, rfl, rfl, rfl, rfl, rfl, .inl rfl, fun _ _ => rfl⟩

theorem Within.trans {p q r : HTTPParser} (h : Within p q) (h' : Within q r) : Within p r := by
  refine ⟨h'.streaming.trans h.streaming, h'.delegate.trans h.delegate,
    h'.completeFlag.trans h.completeFlag, h'.message.trans h.message,
    h'.allocated.trans h.allocated, h'.deliveries.trans h.deliveries, ?_, ?_⟩
  · rcases h'.last with hlast | hlast
    · rw [hlast]
      exact h.last
    · rw [hlast, h.message]
      exact .inr rfl
  intro n hn
  have hq : n ≠ q.parserContext.message := by
    rw [h.message]
    exact hn
  exact (h'.elsewhere n hq).trans (h.elsewhere n hn)

/-- A callback may put other buffers into the context. -/
theorem within_context (p : HTTPParser) (c : ParserContext)
    (hc : c.message = p.parserContext.message) : Within p { p with parserContext := c } :=
  ⟨rfl, rfl, rfl, hc, rfl, rfl, .inl rfl, fun _ _ => rfl⟩

/-- A callback may write to the message. -/
theorem within_updateMessage (p : HTTPParser) (f : HTTPMessage → HTTPMessage) :
    Within p (p.updateMessage f) :=
  ⟨rfl, rfl, rfl, rfl, rfl, rfl, .inl rfl, fun _ hn => Function.update_of_ne hn _ _⟩

/-- A save, if it does not fault, writes to the message. -/
theorem saveIfNamed_inv {p q : HTTPParser} (h : saveIfNamed p = .ok q) :
    (p.parserContext.value = none → p.parserContext.name = none) ∧ Within p q := by
  have hsave : p.parserContext.value = none → p.parserContext.name = none := by
    intro hvalue
    by_contra hname
    rw [saveIfNamed_error hname hvalue] at h
    cases h
  rw [saveIfNamed_ok hsave] at h
  cases h
  exact ⟨hsave, within_updateMessage p _⟩

/-- `q` is `p` with other buffers, and perhaps with other headers in its message. -/
def Edits (p q : HTTPParser) : Prop :=
  ∃ f c, c.message = p.parserContext.message ∧ q = { p.updateMessage f with parserContext := c }

/-- Buffers only. -/
theorem edits_context (p : HTTPParser) (c : ParserContext)
    (hc : c.message = p.parserContext.message) : Edits p { p with parserContext := c } := by
  refine ⟨id, c, hc, ?_⟩
  rw [HTTPParser.updateMessage_self (f := id) rfl]

theorem Edits.within {p q : HTTPParser} (h : Edits p q) : Within p q := by
  obtain ⟨f, c, hc, rfl⟩ := h
  exact (within_updateMessage p f).trans (within_context _ _ hc)

theorem headerField_edits {p q : HTTPParser} {data : Bytes} (h : headerFieldDataCb p data = .ok q) :
    Edits p q := by
  by_cases hstate : p.parserContext.headerState = .field
  · cases hname : p.parserContext.name with
    | none =>
      rw [headerFieldDataCb, hstate, hname] at h
      cases h
    | some n =>
      rw [headerFieldDataCb_next hstate hname] at h
      cases h
      exact edits_context p _ rfl
  · have hsave : p.parserContext.value = none → p.parserContext.name = none := by
      rw [headerFieldDataCb] at h
      cases hstate' : p.parserContext.headerState with
      | field => exact absurd hstate' hstate
      | nothing =>
        rw [hstate'] at h
        obtain ⟨r, hr, -⟩ := bind_ok.mp h
        exact (saveIfNamed_inv hr).1
      | value =>
        rw [hstate'] at h
        obtain ⟨r, hr, -⟩ := bind_ok.mp h
        exact (saveIfNamed_inv hr).1
    rw [headerFieldDataCb_first hstate hsave] at h
    cases h
    exact ⟨fun m => { m with headers := pending p },
      { p.parserContext with name := some data, value := none, headerState := .field }, rfl, rfl⟩

theorem headerValue_edits {p q : HTTPParser} {data : Bytes} (h : headerValueDataCb p data = .ok q) :
    Edits p q := by
  cases hstate : p.parserContext.headerState with
  | field =>
    rw [headerValueDataCb_first hstate] at h
    cases h
    exact edits_context p _ rfl
  | nothing =>
    rw [headerValueDataCb, hstate] at h
    cases h
    exact edits_context p _ rfl
  | value =>
    cases hvalue : p.parserContext.value with
    | none =>
      rw [headerValueDataCb, hstate, hvalue] at h
      cases h
    | some v =>
      rw [headerValueDataCb_next hstate hvalue] at h
      cases h
      exact edits_context p _ rfl

/-- When the headers have been completed, there was no name without a value. -/
theorem headersComplete_saves {p q : HTTPParser} {line : FirstLine}
    (h : headersCompleteCb p line = .ok q) :
    p.parserContext.value = none → p.parserContext.name = none := by
  obtain ⟨r, hr, -⟩ := bind_ok.mp h
  exact (saveIfNamed_inv hr).1

theorem headersComplete_within {p q : HTTPParser} {line : FirstLine}
    (h : headersCompleteCb p line = .ok q) : Within p q := by
  rw [headersCompleteCb_ok (headersComplete_saves h)] at h
  cases h
  refine ⟨rfl, rfl, rfl, rfl, rfl, ?_, .inr rfl, fun _ hn => Function.update_of_ne hn _ _⟩
  by_cases hset : p.onHeadersLambdaCB
  · rw [if_pos hset]
    exact deliveries_call_headers p _ _
  · rw [if_neg hset]
    rfl

/-- **Every callback but the last of a message** stays within it. -/
theorem callback_within {p q : HTTPParser} {e : Event} (he : e ≠ .messageComplete)
    (h : callback p e = .ok q) : Within p q := by
  cases e with
  | messageComplete => exact absurd rfl he
  | messageBegin =>
    cases h
    exact Within.refl p
  | url data =>
    cases h
    exact within_context p _ rfl
  | status data =>
    cases h
    exact within_context p _ rfl
  | headerField data => exact (headerField_edits h).within
  | headerValue data => exact (headerValue_edits h).within
  | headersComplete line => exact headersComplete_within h
  | body data =>
    cases h
    exact within_updateMessage p _

theorem callbacks_within {p q : HTTPParser} {es : List Event} (hes : .messageComplete ∉ es)
    (h : callbacks p es = .ok q) : Within p q := by
  refine foldlM_keeps (p := []) (I := fun es q => .messageComplete ∉ es → Within p q) ?_
    (fun _ => Within.refl p) h hes
  intro es e x y hI hcb hes
  have hnot := List.mem_append.not.mp hes
  rw [List.mem_singleton, not_or] at hnot
  exact (hI hnot.1).trans (callback_within (Ne.symm hnot.2) hcb)

/-! ## Calls -/

/-- After the callbacks of a call, `appendBytes` has only the count to look at. -/
theorem appendBytes_ok {p q : HTTPParser} {buffer : Bytes} {r : Execute}
    (hq : callbacks { p with messageData := p.messageData ++ buffer } r.events = .ok q) :
    appendBytes p buffer r =
      if r.nparsed ≠ buffer.length then
        if q.onParseErrorLambdaCB then .ok (q.call .parseError, r.nparsed) else .error .unsetDelegate
      else .ok (q, r.nparsed) := by
  rw [appendBytes, hq]
  rfl

/-- The parser it leaves. -/
theorem appendBytes_eq {p q : HTTPParser} {buffer : Bytes} {r : Execute}
    (hq : callbacks { p with messageData := p.messageData ++ buffer } r.events = .ok q) :
    (appendBytes p buffer r).map Prod.fst =
      if r.nparsed ≠ buffer.length then
        if q.onParseErrorLambdaCB then .ok (q.call .parseError) else .error .unsetDelegate
      else .ok q := by
  rw [appendBytes_ok hq]
  split
  · split
    · rfl
    · rfl
  · rfl

/-- What `appendBytes` leaves, if it does not fault. -/
theorem appendBytes_inv {p q : HTTPParser} {buffer : Bytes} {r : Execute}
    (h : (appendBytes p buffer r).map Prod.fst = .ok q) :
    ∃ q', callbacks { p with messageData := p.messageData ++ buffer } r.events = .ok q' ∧
      (q = q' ∨ q = q'.call .parseError) := by
  cases hcb : callbacks { p with messageData := p.messageData ++ buffer } r.events with
  | error k =>
    rw [appendBytes, hcb] at h
    cases h
  | ok q' =>
    rw [appendBytes_eq hcb] at h
    refine ⟨q', rfl, ?_⟩
    split at h
    · split at h
      · cases h
        exact .inr rfl
      · cases h
    · cases h
      exact .inl rfl

end Pixie.Http
