/-
  Single mode: what further events do to the message that has been finished.

  Without the streaming option nothing is reset when a message is complete.  The parser goes on into
  the next message of the same buffer, and its callbacks work on the same `HTTPMessage`, with the same
  four buffers: the url of the next message is appended to the url of this one and stored when its
  headers are complete, its headers are saved with the others, its body goes to the same body, and its
  end calls the delegate again.

  1. `urlText`, `statusText`, `lastLine` — the buffers as functions of all the events since the start;
     `Buffered` says that they are that, whatever the events.  `touched` is what an event does to the
     message.

  2. `completed_text` — when a message is complete, its url and status are those of the events.

  3. `Untouching` — the events that leave the finished message as it is, and `step_keeps`: they are
     the only ones.  `currentMessage_kept_iff` says it of every state that a run comes to.
-/
import Pixie.Http.EndOfStream

namespace Pixie.Http

open Pixie.Decimal Pixie.Run

/-! ## The buffers as functions of the events -/

/-- The url fragments of the events, one after the other. -/
def urlText (es : List Event) : Bytes :=
  es.flatMap fun
    | .url data => data
    | _ => []

/-- The status fragments. -/
def statusText (es : List Event) : Bytes :=
  es.flatMap fun
    | .status data => data
    | _ => []

/-- A header line: its name, and its value if it has one. -/
abbrev Line := Option (Bytes × Option Bytes)

/-- The last header line after one more event. -/
def nextLine : Line → Event → Line
  | some (n, none), .headerField data => some (n ++ data, none)
  | _, .headerField data => some (data, none)
  | some (n, none), .headerValue data => some (n, some data)
  | some (n, some v), .headerValue data => some (n, some (v ++ data))
  | line, _ => line

/-- The last header line, or trailer, of the events. -/
def lastLine (es : List Event) : Line := es.foldl nextLine none

/-- The headers with a line saved, if it is whole. -/
def saved : Line → MessageHeaders → MessageHeaders
  | some (n, some v), headers => headers.insert n v
  | _, headers => headers

/-- The line, if it is whole, is among the headers. -/
def Known (headers : MessageHeaders) : Line → Prop
  | some (n, some v) => headers.lookup n = some v
  | _ => True

/-- The context holds the line. -/
def Holds (c : ParserContext) : Line → Prop
  | none => c.headerState ≠ .field ∧ c.name = none ∧ c.value = none
  | some (n, none) => c.headerState = .field ∧ c.name = some n ∧ c.value = none
  | some (n, some v) => c.headerState = .value ∧ c.name = some n ∧ c.value = some v

theorem urlText_append (es es' : List Event) : urlText (es ++ es') = urlText es ++ urlText es' :=
  List.flatMap_append

theorem statusText_append (es es' : List Event) :
    statusText (es ++ es') = statusText es ++ statusText es' :=
  List.flatMap_append

theorem lastLine_snoc (es : List Event) (e : Event) :
    lastLine (es ++ [e]) = nextLine (lastLine es) e := by
  rw [lastLine, List.foldl_append]
  rfl

/-- Saving a line that is known changes nothing, and saving another does. -/
theorem saved_eq_iff (headers : MessageHeaders) (line : Line) :
    saved line headers = headers ↔ Known headers line := by
  rcases line with _ | ⟨n, _ | v⟩
  · exact ⟨fun _ => trivial, fun _ => rfl⟩
  · exact ⟨fun _ => trivial, fun _ => rfl⟩
  · show headers.insert n v = headers ↔ headers.lookup n = some v
    constructor
    · intro h
      rw [← h]
      exact Finmap.lookup_insert headers
    · intro h
      apply Finmap.ext_lookup
      intro x
      by_cases hx : x = n
      · rw [hx, Finmap.lookup_insert, h]
      · exact Finmap.lookup_insert_of_ne headers hx

/-- What an event, after the events `es`, does to the message. -/
def touched (es : List Event) (m : HTTPMessage) : Event → HTTPMessage
  | .headerField _ => { m with headers := saved (lastLine es) m.headers }
  | .headersComplete line =>
    { m with
      method := some line.method
      url := urlText es
      statusCode := some line.statusCode
      status := statusText es
      httpMajor := some line.httpMajor
      httpMinor := some line.httpMinor
      headers := saved (lastLine es) m.headers }
  | .body data => { m with body := m.body ++ data }
  | _ => m

/-- The parser `p` after the events `es`, in single mode. -/
structure Buffered (es : List Event) (p : HTTPParser) : Prop where
  mode : p.streamMessagesOption = false
  url : p.parserContext.urlBuf.getD [] = urlText es
  status : p.parserContext.statusBuf.getD [] = statusText es
  line : Holds p.parserContext (lastLine es)

variable {es : List Event} {p q : HTTPParser}

theorem buffered_configured (headers message parseError : Bool) :
    Buffered [] (HTTPParser.configured false headers message parseError) :=
  ⟨rfl, rfl, rfl, nofun, rfl, rfl⟩

theorem Buffered.pending (h : Buffered es p) :
    pending p = saved (lastLine es) p.building.headers := by
  have hline := h.line
  rw [Http.pending]
  rcases hl : lastLine es with _ | ⟨n, _ | v⟩
  · rw [hl] at hline
    obtain ⟨-, hname, -⟩ := hline
    rw [hname]
    rfl
  · rw [hl] at hline
    obtain ⟨-, hname, hvalue⟩ := hline
    rw [hname, hvalue]
    rfl
  · rw [hl] at hline
    obtain ⟨-, hname, hvalue⟩ := hline
    rw [hname, hvalue]
    rfl

/-! ## One callback -/

/-- The event is part of a header line. -/
def Event.isHeader : Event → Bool
  | .headerField _ => true
  | .headerValue _ => true
  | _ => false

/-- Other events leave the line as it is. -/
theorem nextLine_other {e : Event} (he : e.isHeader = false) (line : Line) :
    nextLine line e = line := by
  cases e with
  | headerField data => cases he
  | headerValue data => cases he
  | _ =>
    rcases line with _ | ⟨n, _ | v⟩
    · rfl
    · rfl
    · rfl

/-- After an event that is no fragment of a first line or a header. -/
theorem Buffered.other (h : Buffered es p) {e : Event} (hurl : urlText [e] = [])
    (hstatus : statusText [e] = []) (hline : ∀ line, nextLine line e = line)
    (hmode : q.streamMessagesOption = p.streamMessagesOption)
    (hcontext : q.parserContext = p.parserContext) : Buffered (es ++ [e]) q := by
  refine ⟨hmode.trans h.mode, ?_, ?_, ?_⟩
  · rw [hcontext, urlText_append, hurl, List.append_nil]
    exact h.url
  · rw [hcontext, statusText_append, hstatus, List.append_nil]
    exact h.status
  · rw [hcontext, lastLine_snoc, hline]
    exact h.line

/-- After an event that changes the header line only. -/
theorem Buffered.header (h : Buffered es p) {e : Event} (hurl : urlText [e] = [])
    (hstatus : statusText [e] = []) (hmode : q.streamMessagesOption = p.streamMessagesOption)
    (hurlBuf : q.parserContext.urlBuf = p.parserContext.urlBuf)
    (hstatusBuf : q.parserContext.statusBuf = p.parserContext.statusBuf)
    (hline : Holds q.parserContext (nextLine (lastLine es) e)) : Buffered (es ++ [e]) q := by
  refine ⟨hmode.trans h.mode, ?_, ?_, ?_⟩
  · rw [hurlBuf, urlText_append, hurl, List.append_nil]
    exact h.url
  · rw [hstatusBuf, statusText_append, hstatus, List.append_nil]
    exact h.status
  · rw [lastLine_snoc]
    exact hline

theorem Buffered.headerField (h : Buffered es p) {data : Bytes}
    (hq : headerFieldDataCb p data = .ok q) :
    Buffered (es ++ [.headerField data]) q ∧
      q.building = touched es p.building (.headerField data) := by
  have hpending := h.pending
  have hline := h.line
  have hbuilding : touched es p.building (.headerField data) =
      { p.building with headers := saved (lastLine es) p.building.headers } := rfl
  -- In the middle of a name nothing is saved; otherwise the line before is.
  rcases hl : lastLine es with _ | ⟨n, _ | v⟩
  · rw [hl] at hline hpending hbuilding
    obtain ⟨hstate, hname, -⟩ := hline
    rw [headerFieldDataCb_first hstate fun _ => hname, hpending, ← hbuilding] at hq
    cases hq
    refine ⟨h.header rfl rfl rfl rfl rfl ?_, Function.update_self ..⟩
    rw [hl]
    exact ⟨rfl, rfl, rfl⟩
  · rw [hl] at hline hbuilding
    obtain ⟨hstate, hname, hvalue⟩ := hline
    rw [headerFieldDataCb_next hstate hname] at hq
    cases hq
    refine ⟨h.header rfl rfl rfl rfl rfl ?_, hbuilding.symm⟩
    rw [hl]
    exact ⟨rfl, rfl, hvalue⟩
  · rw [hl] at hline hpending hbuilding
    obtain ⟨hstate, -, hvalue⟩ := hline
    have hne : p.parserContext.headerState ≠ .field := by
      rw [hstate]
      decide
    have hsave : p.parserContext.value = none → p.parserContext.name = none := by
      intro hnone
      rw [hnone] at hvalue
      cases hvalue
    rw [headerFieldDataCb_first hne hsave, hpending, ← hbuilding] at hq
    cases hq
    refine ⟨h.header rfl rfl rfl rfl rfl ?_, Function.update_self ..⟩
    rw [hl]
    exact ⟨rfl, rfl, rfl⟩

theorem Buffered.headerValue (h : Buffered es p) {data : Bytes}
    (hq : headerValueDataCb p data = .ok q) :
    Buffered (es ++ [.headerValue data]) q ∧ q.building = p.building := by
  have hline := h.line
  rcases hl : lastLine es with _ | ⟨n, _ | v⟩
  · rw [hl] at hline
    obtain ⟨hstate, hname, hvalue⟩ := hline
    rw [headerValueDataCb] at hq
    cases hs : p.parserContext.headerState with
    | field => exact absurd hs hstate
    | value =>
      rw [hs, hvalue] at hq
      cases hq
    | nothing =>
      rw [hs] at hq
      cases hq
      refine ⟨h.header rfl rfl rfl rfl rfl ?_, rfl⟩
      rw [hl]
      refine ⟨?_, hname, hvalue⟩
      show HeaderState.value ≠ .field
      decide
  · rw [hl] at hline
    obtain ⟨hstate, hname, -⟩ := hline
    rw [headerValueDataCb_first hstate] at hq
    cases hq
    refine ⟨h.header rfl rfl rfl rfl rfl ?_, rfl⟩
    rw [hl]
    exact ⟨rfl, hname, rfl⟩
  · rw [hl] at hline
    obtain ⟨hstate, hname, hvalue⟩ := hline
    rw [headerValueDataCb_next hstate hvalue] at hq
    cases hq
    refine ⟨h.header rfl rfl rfl rfl rfl ?_, rfl⟩
    rw [hl]
    exact ⟨rfl, hname, rfl⟩

theorem Buffered.headersComplete (h : Buffered es p) {line : FirstLine}
    (hq : headersCompleteCb p line = .ok q) :
    Buffered (es ++ [.headersComplete line]) q ∧
      q.building = touched es p.building (.headersComplete line) := by
  have hheaded : headed p line = touched es p.building (.headersComplete line) := by
    rw [headed, h.url, h.status, h.pending]
    rfl
  rw [headersCompleteCb_ok (headersComplete_saves hq), hheaded] at hq
  cases hq
  exact ⟨h.other rfl rfl (nextLine_other rfl) rfl rfl, Function.update_self ..⟩

/-- **One callback**, in single mode, whatever came before. -/
theorem callback_buffered (h : Buffered es p) {e : Event} (hq : callback p e = .ok q) :
    Buffered (es ++ [e]) q ∧ q.building = touched es p.building e := by
  cases e with
  | messageBegin =>
    cases hq
    exact ⟨h.other rfl rfl (nextLine_other rfl) rfl rfl, rfl⟩
  | url data =>
    cases hq
    refine ⟨⟨h.mode, ?_, ?_, ?_⟩, rfl⟩
    · rw [urlText_append, ← h.url]
      exact congrArg _ (List.append_nil data).symm
    · rw [statusText_append]
      exact h.status.trans (List.append_nil _).symm
    · rw [lastLine_snoc, nextLine_other (e := .url data) rfl]
      exact h.line
  | status data =>
    cases hq
    refine ⟨⟨h.mode, ?_, ?_, ?_⟩, rfl⟩
    · rw [urlText_append]
      exact h.url.trans (List.append_nil _).symm
    · rw [statusText_append, ← h.status]
      exact congrArg _ (List.append_nil data).symm
    · rw [lastLine_snoc, nextLine_other (e := .status data) rfl]
      exact h.line
  | headerField data => exact h.headerField hq
  | headerValue data => exact h.headerValue hq
  | headersComplete line => exact h.headersComplete hq
  | body data =>
    cases hq
    exact ⟨h.other rfl rfl (nextLine_other rfl) rfl rfl, p.building_updateMessage _⟩
  | messageComplete =>
    cases hq
    rw [messageCompleteCb_single h.mode]
    exact ⟨h.other rfl rfl (nextLine_other rfl) rfl rfl, rfl⟩

/-! ## The first completion -/

/-- The headers of the message at hand are complete, and it is not. -/
def Phase.Headed (ph : Phase) : Prop :=
  ph = .body ∨ ph = .bodyEof ∨ ph = .field true ∨ ph = .value true

/-- The message has the url and the status of the events. -/
def Spelled (es : List Event) (p : HTTPParser) : Prop :=
  p.building.url = urlText es ∧ p.building.status = statusText es

/-- What is spelled stays so when the event has no part in it. -/
theorem Spelled.other (h : Spelled es p) {e : Event} (hurl : urlText [e] = [])
    (hstatus : statusText [e] = []) (hq : q.building = touched es p.building e)
    (htouched : (touched es p.building e).url = p.building.url ∧
      (touched es p.building e).status = p.building.status) : Spelled (es ++ [e]) q := by
  refine ⟨?_, ?_⟩
  · rw [hq, htouched.1, urlText_append, hurl, List.append_nil]
    exact h.1
  · rw [hq, htouched.2, statusText_append, hstatus, List.append_nil]
    exact h.2

/-- The end of the headers spells the message; no first line comes before its end. -/
theorem callback_spelled {ph ph' : Phase} {e : Event} (h : Buffered es p)
    (hspelled : ph.Headed → Spelled es p) (he : Occurs ph e ph') (hq : callback p e = .ok q)
    (hph' : ph'.Headed) : Spelled (es ++ [e]) q := by
  have hbuilding := (callback_buffered h hq).2
  cases he with
  | emits he =>
    cases he with
    | headersComplete _ _ line _ _ =>
      refine ⟨?_, ?_⟩
      · rw [hbuilding, urlText_append]
        exact (List.append_nil _).symm
      · rw [hbuilding, statusText_append]
        exact (List.append_nil _).symm
    | firstTrailer data =>
      exact (hspelled (.inl rfl)).other rfl rfl hbuilding ⟨rfl, rfl⟩
    | body data => exact (hspelled (.inl rfl)).other rfl rfl hbuilding ⟨rfl, rfl⟩
    | bodyEof data => exact (hspelled (.inr (.inl rfl))).other rfl rfl hbuilding ⟨rfl, rfl⟩
    | field t data =>
      cases t with
      | true => exact (hspelled (.inr (.inr (.inl rfl)))).other rfl rfl hbuilding ⟨rfl, rfl⟩
      | false => simp [Phase.Headed] at hph'
    | nextField t data =>
      cases t with
      | true => exact (hspelled (.inr (.inr (.inr rfl)))).other rfl rfl hbuilding ⟨rfl, rfl⟩
      | false => simp [Phase.Headed] at hph'
    | value t data =>
      cases t with
      | true => exact (hspelled (.inr (.inr (.inl rfl)))).other rfl rfl hbuilding ⟨rfl, rfl⟩
      | false => simp [Phase.Headed] at hph'
    | moreValue t data =>
      cases t with
      | true => exact (hspelled (.inr (.inr (.inr rfl)))).other rfl rfl hbuilding ⟨rfl, rfl⟩
      | false => simp [Phase.Headed] at hph'
    | messageBegin => simp [Phase.Headed] at hph'
    | blankLine => simp [Phase.Headed] at hph'
    | url data => simp [Phase.Headed] at hph'
    | status data => simp [Phase.Headed] at hph'
    | firstField data => simp [Phase.Headed] at hph'
    | messageComplete => simp [Phase.Headed] at hph'
  | endOfStream => exact (hspelled (.inr (.inl rfl))).other rfl rfl hbuilding ⟨rfl, rfl⟩

/-- A run keeps both. -/
theorem callbacks_spelled {ph ph' : Phase} {es' : List Event} (hpath : Path Occurs ph es' ph')
    (h : Buffered es p) (hspelled : ph.Headed → Spelled es p) (hq : callbacks p es' = .ok q) :
    Buffered (es ++ es') q ∧ (ph'.Headed → Spelled (es ++ es') q) := by
  refine hpath.keeps (I := fun es ph p => Buffered es p ∧ (ph.Headed → Spelled es p)) ?_
    ⟨h, hspelled⟩ hq
  intro es ph e ph' x y hI he hcb
  exact ⟨(callback_buffered hI.1 hcb).1, callback_spelled hI.1 hI.2 he hcb⟩

/-- **When a message is complete** its url and its status are those of the events so far. -/
theorem completed_text (headers message parseError : Bool) {ph : Phase}
    (h : Path Occurs .between (es ++ [.messageComplete]) ph)
    (hp : callbacks (HTTPParser.configured false headers message parseError)
      (es ++ [.messageComplete]) = .ok p) :
    Buffered (es ++ [.messageComplete]) p ∧ Spelled (es ++ [.messageComplete]) p ∧
      p.lastMessage = some p.parserContext.message ∧ p.messageCompleteFlag = true := by
  obtain ⟨u, hes, hlast⟩ := h.split
  rw [callbacks_snoc] at hp
  obtain ⟨r, hr, hcb⟩ := bind_ok.mp hp
  obtain ⟨hbuffered, hspelled⟩ := callbacks_spelled hes
    (buffered_configured headers message parseError) (by simp [Phase.Headed]) hr
  rw [List.nil_append] at hbuffered hspelled
  have hheaded : u.Headed := by
    cases hlast with
    | cons he _ =>
      cases he with
      | emits he =>
        cases he with
        | messageComplete _ hu =>
          rcases hu with hu | hu | hu
          · exact .inl hu
          · exact .inr (.inr (.inl hu))
          · exact .inr (.inr (.inr hu))
      | endOfStream => exact .inr (.inl rfl)
  obtain ⟨hbuffered', hbuilding⟩ := callback_buffered hbuffered hcb
  refine ⟨hbuffered', (hspelled hheaded).other rfl rfl hbuilding ⟨rfl, rfl⟩, ?_⟩
  cases hcb
  rw [messageCompleteCb_single hbuffered.mode]
  exact ⟨rfl, rfl⟩

/-! ## What keeps the message -/

/-- The url, status, headers and body of a message. -/
def SameText (m c : HTTPMessage) : Prop :=
  c.url = m.url ∧ c.status = m.status ∧ c.headers = m.headers ∧ c.body = m.body

/-- The delegate has been called once, and `currentMessage` says what `m` says. -/
def Keeps (m : HTTPMessage) (q : HTTPParser) : Prop :=
  (deliveries q).length = 1 ∧ ∃ c, q.currentMessage = some c ∧ SameText m c

/-- The events that leave the finished message `m` as it is: `first` are the events up to its end,
    `es` those since.  No message may be completed; a piece of body must be empty; the header line
    before a field, or before the end of the headers, must be one that `m` has; and when headers are
    completed there must have been no url and no status since. -/
def Untouching (m : HTTPMessage) (first es : List Event) : Event → Prop
  | .headerField _ => Known m.headers (lastLine (first ++ es))
  | .headersComplete _ =>
    Known m.headers (lastLine (first ++ es)) ∧ urlText es = [] ∧ statusText es = []
  | .body data => data = []
  | .messageComplete => False
  | _ => True

variable {first : List Event} {m : HTTPMessage}

/-- The text of the message is the same after an event exactly if the event does not touch it. -/
theorem touched_sameText {c : HTTPMessage} {e : Event} (he : e ≠ .messageComplete)
    (hurl : m.url = urlText first) (hstatus : m.status = statusText first) (hc : SameText m c) :
    SameText m (touched (first ++ es) c e) ↔ Untouching m first es e := by
  obtain ⟨hcurl, hcstatus, hcheaders, hcbody⟩ := hc
  cases e with
  | messageComplete => exact absurd rfl he
  | headerField data =>
    show (c.url = m.url ∧ c.status = m.status ∧ saved _ c.headers = m.headers ∧ c.body = m.body) ↔
      Known m.headers (lastLine (first ++ es))
    rw [hcheaders, saved_eq_iff]
    exact ⟨fun h => h.2.2.1, fun h => ⟨hcurl, hcstatus, h, hcbody⟩⟩
  | headersComplete line =>
    show (urlText (first ++ es) = m.url ∧ statusText (first ++ es) = m.status ∧
      saved _ c.headers = m.headers ∧ c.body = m.body) ↔
        (Known m.headers (lastLine (first ++ es)) ∧ urlText es = [] ∧ statusText es = [])
    rw [hcheaders, saved_eq_iff, hurl, hstatus, urlText_append, statusText_append,
      List.append_right_eq_self, List.append_right_eq_self]
    exact ⟨fun h => ⟨h.2.2.1, h.1, h.2.1⟩, fun h => ⟨h.2.1, h.2.2, h.1, hcbody⟩⟩
  | body data =>
    show (c.url = m.url ∧ c.status = m.status ∧ c.headers = m.headers ∧ c.body ++ data = m.body) ↔
      data = []
    rw [hcbody, List.append_right_eq_self]
    exact ⟨fun h => h.2.2.2, fun h => ⟨hcurl, hcstatus, hcheaders, h⟩⟩
  | _ => exact ⟨fun _ => trivial, fun _ => ⟨hcurl, hcstatus, hcheaders, hcbody⟩⟩

/-- The parser `p` after the events `es`, with the message at hand the last one. -/
structure Finished (es : List Event) (p : HTTPParser) : Prop where
  buffered : Buffered es p
  counted : Counted false es p
  last : p.lastMessage = some p.parserContext.message

theorem Finished.currentMessage (h : Finished es p) : p.currentMessage = some p.building := by
  rw [HTTPParser.currentMessage, h.last]
  rfl

theorem Finished.keeps_iff (h : Finished es p) :
    Keeps m p ↔ (deliveries p).length = 1 ∧ SameText m p.building := by
  rw [Keeps, h.currentMessage]
  constructor
  · rintro ⟨honce, c, hc, htext⟩
    cases hc
    exact ⟨honce, htext⟩
  · exact fun h => ⟨h.1, _, rfl, h.2⟩

theorem callback_finished (h : Finished es p) {e : Event} (hq : callback p e = .ok q) :
    Finished (es ++ [e]) q := by
  refine ⟨(callback_buffered h.buffered hq).1, callback_counted h.counted hq, ?_⟩
  by_cases he : e = .messageComplete
  · subst he
    cases hq
    rw [messageCompleteCb_single h.buffered.mode]
  · have hwithin := callback_within he hq
    rw [hwithin.message]
    rcases hwithin.last with hlast | hlast
    · rw [hlast]
      exact h.last
    · exact hlast

/-- **One more event** keeps the message exactly if it does not touch it. -/
theorem step_keeps {e : Event} (hurl : m.url = urlText first) (hstatus : m.status = statusText first)
    (h : Finished (first ++ es) p) (hkeeps : Keeps m p) (hq : callback p e = .ok q) :
    Keeps m q ↔ Untouching m first es e := by
  obtain ⟨honce, htext⟩ := h.keeps_iff.mp hkeeps
  rw [(callback_finished h hq).keeps_iff, (callback_buffered h.buffered hq).2]
  by_cases he : e = .messageComplete
  · subst he
    have htwo : (deliveries q).length = 2 := by
      rw [(callback_counted h.counted hq).count, List.count_append, ← h.counted.count, honce]
      rfl
    rw [htwo]
    exact ⟨fun h => by simp at h, False.elim⟩
  · rw [(callback_within he hq).deliveries, honce, touched_sameText he hurl hstatus htext]
    exact ⟨And.right, fun h => ⟨rfl, h⟩⟩

/-! ## Every run after the first message -/

theorem callbacks_finished {es' : List Event} (h : Finished es p) (hq : callbacks p es' = .ok q) :
    Finished (es ++ es') q :=
  foldlM_keeps (I := Finished) (fun _ _ _ _ h hq => callback_finished h hq) h hq

/-- **Single mode, exactly.**  `first` are the callbacks of a first message up to its end; `m` is what
    `currentMessage` points to when `finishedMessage` first becomes true.  In every state that a run
    comes to after that the delegate has been called once and `currentMessage` says what it said if and
    only if each event of the run is one of those of `Untouching`. -/
theorem currentMessage_kept_iff (headers parseError : Bool) {first : List Event} {ph : Phase}
    {p : HTTPParser} (h : Path Occurs .between (first ++ [.messageComplete]) ph)
    (hfirst : .messageComplete ∉ first)
    (hp : callbacks (HTTPParser.configured false headers true parseError)
      (first ++ [.messageComplete]) = .ok p) :
    (∀ pre r, pre <+: first →
      callbacks (HTTPParser.configured false headers true parseError) pre = .ok r →
        r.finishedMessage = false) ∧
    p.finishedMessage = true ∧ ∃ m, p.currentMessage = some m ∧ ∀ es : List Event,
      (Always (fun pre => ∀ q, callbacks p pre = .ok q → Keeps m q) es ↔
        Each (fun pre e => ∀ q, callbacks p (pre ++ [e]) = .ok q →
          Untouching m (first ++ [.messageComplete]) pre e) es) := by
  have hnew := counted_configured false headers parseError
  obtain ⟨hbuffered, ⟨hurl, hstatus⟩, hlast, hflag⟩ := completed_text headers true parseError h hp
  have hcounted := callbacks_counted hnew hp
  rw [List.nil_append] at hcounted
  have hfinished : Finished (first ++ [.messageComplete]) p := ⟨hbuffered, hcounted, hlast⟩
  refine ⟨?_, hflag, p.building, hfinished.currentMessage, fun es => ?_⟩
  · intro pre r hpre hr
    have hmem : Event.messageComplete ∉ pre := fun hmem => hfirst (hpre.subset hmem)
    rw [HTTPParser.finishedMessage, (callbacks_counted hnew hr).flag]
    exact decide_eq_false hmem
  · have honce : (deliveries p).length = 1 := by
      rw [hcounted.count, List.count_append, List.count_eq_zero.mpr hfirst]
      rfl
    have hstart : Keeps p.building p := hfinished.keeps_iff.mpr ⟨honce, rfl, rfl, rfl, rfl⟩
    refine always_iff_each ?_ ?_ es
    · intro q hq
      cases hq
      exact hstart
    · intro pre e hpre
      constructor
      · intro hkeeps q hq'
        obtain ⟨r, hr, hcb⟩ := bind_ok.mp ((callbacks_snoc p pre e).symm.trans hq')
        exact (step_keeps hurl hstatus (callbacks_finished hfinished hr) (hpre r hr) hcb).mp
          (hkeeps q hq')
      · intro huntouching q hq'
        obtain ⟨r, hr, hcb⟩ := bind_ok.mp ((callbacks_snoc p pre e).symm.trans hq')
        exact (step_keeps hurl hstatus (callbacks_finished hfinished hr) (hpre r hr) hcb).mpr
          (huntouching q hq')

/-- The callbacks of `GET /a HTTP/1.1` without headers, up to its end. -/
def getA : List Event := [.messageBegin, .url (ascii "/a"), .headersComplete ⟨1, 0, 1, 1⟩]

/-- Those of `GET /b HTTP/1.1`, which comes in the same buffer. -/
def getB : List Event :=
  [.messageBegin, .url (ascii "/b"), .headersComplete ⟨1, 0, 1, 1⟩, .messageComplete]

theorem getA_occurs : Path Occurs .between (getA ++ [.messageComplete]) .between :=
  occurs_of_emits (.cons .messageBegin (.cons (.url _)
    (.cons (.headersComplete _ .body _ (by simp) (by simp))
      (.cons (.messageComplete _ (by simp)) (.nil _)))))

theorem currentMessage_kept_iff_getA : ∃ p,
    callbacks (HTTPParser.configured false false true false) (getA ++ [.messageComplete]) = .ok p ∧ p.finishedMessage = true ∧
      ∃ m, p.currentMessage = some m ∧ m.url = ascii "/a" ∧
        (Always (fun pre => ∀ q, callbacks p pre = .ok q → Keeps m q) getB ↔
          Each (fun pre e => ∀ q, callbacks p (pre ++ [e]) = .ok q →
            Untouching m (getA ++ [.messageComplete]) pre e) getB) := by
  obtain ⟨-, hflag, m, hm, hkeeps⟩ := currentMessage_kept_iff false false getA_occurs (by decide) rfl
  refine ⟨_, rfl, hflag, m, hm, ?_, hkeeps getB⟩
  cases hm
  rfl

/-- Two requests in one buffer: the delegate is called twice, and the url of the first becomes that of
    both. -/
theorem pipelined_request_changes :
    Path Occurs .between (getA ++ .messageComplete :: getB) .between ∧
    ∃ p q m c, callbacks (HTTPParser.configured false true true true)
        (getA ++ [.messageComplete]) = .ok p ∧
      p.currentMessage = some m ∧ m.url = ascii "/a" ∧ callbacks p getB = .ok q ∧
      q.currentMessage = some c ∧ c.url = ascii "/a/b" ∧ (deliveries q).length = 2 ∧
      ¬ Keeps m q := by
  refine ⟨?_, _, _, _, _, rfl, rfl, rfl, rfl, rfl, rfl, rfl, ?_⟩
  · refine getA_occurs.append (occurs_of_emits ?_)
    exact .cons .messageBegin (.cons (.url _)
      (.cons (.headersComplete _ .body _ (by simp) (by simp))
        (.cons (.messageComplete _ (by simp)) (.nil _))))
  · rintro ⟨honce, -⟩
    cases honce

end Pixie.Http
