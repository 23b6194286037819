/-
  Trailers: the header lines that come after the body of a chunked message.

  `http_parser` reports a trailer by the two callbacks of a header, so the same code takes it: the
  line BEFORE it is saved when its field begins, and it is left in the two buffers.  For the headers
  `headers_complete_cb` saves the last one.  There is no such save in `message_complete_cb`: the last
  trailer is still in the buffers when the message is delivered, and the others are in the message.

  1. `ChunkedEvents` — a message with trailers as a sequence of fragments; `lines` are its headers and
     trailers, `flushed` all of them but the last trailer.

  2. `opening_ready` — up to the trailers, in any state between two messages; what the buffers hold
     then is the last header, which the message has too.  `trailers_saved` — the trailers.

  3. `Between` — what holds between two messages, in both modes: the header map goes on in single mode,
     and is a new one in a stream.  `ChunkedEvents.delivered` is the step, `messages_between` the run.

  4. `trailersKept_iff` — the delivered message has every trailer if and only if the last one says
     what the lines before it say already.
-/
import Pixie.Http.Assembly

namespace Pixie.Http

open Pixie.Decimal Pixie.Run

/-! ## The messages -/

/-- A chunked message as `http_parser` reports it: a message with its body in pieces, and then its
    trailers, each a name and a value in fragments. -/
structure ChunkedEvents where
  message : MessageEvents
  trailers : List HeaderLine

/-- What a header line says. -/
def HeaderLine.text (l : HeaderLine) : Bytes × Bytes := (l.fields.flatten, l.values.flatten)

namespace ChunkedEvents

def events (m : ChunkedEvents) : List Event :=
  m.message.opening ++ (m.trailers.flatMap HeaderLine.events ++ [.messageComplete])

/-- The headers and the trailers. -/
def lines (m : ChunkedEvents) : List (Bytes × Bytes) :=
  (m.message.headers ++ m.trailers).map HeaderLine.text

/-- The headers and the trailers but the last trailer. -/
def flushed (m : ChunkedEvents) : List (Bytes × Bytes) :=
  (m.message.headers ++ m.trailers.dropLast).map HeaderLine.text

/-- `http_parser` goes through such a message from between two messages to there again. -/
theorem emitted (m : ChunkedEvents) : Path Emits .between m.events .between := by
  obtain ⟨ph, hph, htrailers⟩ := headers_emitted .firstTrailer m.trailers (.inl rfl)
  have hend : Emits ph .messageComplete .between := by
    refine .messageComplete _ ?_
    rcases hph with rfl | rfl
    · exact .inl rfl
    · exact .inr (.inr rfl)
  exact m.message.opening_emitted.append (htrailers.append (.cons hend (.nil _)))

end ChunkedEvents

/-- A header map after some more lines have been saved. -/
def saveAll (headers : MessageHeaders) (lines : List (Bytes × Bytes)) : MessageHeaders :=
  lines.foldl (fun hs l => hs.insert l.1 l.2) headers

theorem saveAll_append (headers : MessageHeaders) (lines lines' : List (Bytes × Bytes)) :
    saveAll headers (lines ++ lines') = saveAll (saveAll headers lines) lines' :=
  List.foldl_append

/-- The names of some lines have the values that these lines give them, whatever came before. -/
theorem lastValue_append_of_mem {before lines : List (Bytes × Bytes)} {l : Bytes × Bytes}
    (hl : l ∈ lines) : lastValue (before ++ lines) l.1 = lastValue lines l.1 := by
  have hfound : (lines.reverse.find? fun h => h.1 = l.1).isSome := by
    rw [List.find?_isSome]
    exact ⟨l, List.mem_reverse.mpr hl, decide_eq_true rfl⟩
  rw [lastValue, lastValue, List.reverse_append, List.find?_append, Option.or_of_isSome hfound]

/-! ## Up to the trailers -/

/-- What is pending is saved once: doing so again changes nothing. -/
theorem pending_saved {p q : HTTPParser} (hname : q.parserContext.name = p.parserContext.name)
    (hvalue : q.parserContext.value = p.parserContext.value)
    (hheaders : q.building.headers = pending p) : pending q = pending p := by
  unfold pending at hheaders ⊢
  rw [hname, hvalue, hheaders]
  cases p.parserContext.name with
  | none => rfl
  | some n =>
    cases p.parserContext.value with
    | none => rfl
    | some v => exact Finmap.insert_insert _

/-- The end of the headers leaves them in the message, and the last one in the buffers. -/
theorem headersComplete_ready {d : HTTPMessage} {p : HTTPParser} (h : Ready d p) (line : FirstLine) :
    ∃ q d', callback p (.headersComplete line) = .ok q ∧ Ready d' q ∧
      d'.headers = d.headers ∧ q.building.headers = d.headers := by
  have hd : pending p = d.headers := by
    rw [← h.draft]
    rfl
  let q : HTTPParser := { p with
    headersCompleteFlag := true
    lastMessage := some p.parserContext.message
    heap := Function.update p.heap p.parserContext.message (headed p line)
    calls := if p.onHeadersLambdaCB then
      p.calls ++ [.headers p.parserContext.message (headed p line)] else p.calls }
  have hbuilding : q.building = headed p line := Function.update_self ..
  have hpending : pending q = pending p :=
    pending_saved rfl rfl (by rw [hbuilding]; rfl)
  refine ⟨q, draft q, headersCompleteCb_ok h.whole line, ⟨h.state, h.whole, rfl⟩, ?_, ?_⟩
  · show pending q = d.headers
    rw [hpending, hd]
  · rw [hbuilding]
    exact hd

/-- The body leaves the headers as they are. -/
theorem body_ready (ds : List Bytes) {d : HTTPMessage} {p : HTTPParser} (h : Ready d p)
    (hbuilding : p.building.headers = d.headers) :
    ∃ q d', callbacks p (ds.map Event.body) = .ok q ∧ Ready d' q ∧ d'.headers = d.headers ∧
      q.building.headers = d.headers := by
  induction ds generalizing d p with
  | nil => exact ⟨p, d, rfl, h, rfl, hbuilding⟩
  | cons data ds ih =>
    have hwrite : (bodyDataCb p data).building = { p.building with body := p.building.body ++ data } :=
      p.building_updateMessage _
    have hpending : pending (bodyDataCb p data) = pending p := by
      unfold pending
      rw [hwrite]
      rfl
    have hd : (draft (bodyDataCb p data)).headers = d.headers := by
      show pending (bodyDataCb p data) = d.headers
      rw [hpending, ← h.draft]
      rfl
    obtain ⟨q, d', hq, hready, hheaders, hbuilding'⟩ :=
      ih (d := draft (bodyDataCb p data)) (p := bodyDataCb p data) ⟨h.state, h.whole, rfl⟩ (by
        rw [hwrite, hd]
        exact hbuilding)
    exact ⟨q, d', hq, hready, hheaders.trans hd, hbuilding'.trans hd⟩

/-- **Up to the trailers** the headers of the message are saved one after the other. -/
theorem opening_ready (m : MessageEvents) {d : HTTPMessage} {p : HTTPParser} (h : Ready d p) :
    ∃ q d', callbacks p m.opening = .ok q ∧ Ready d' q ∧
      d'.headers = saveAll d.headers (m.headers.map HeaderLine.text) ∧
      q.building.headers = d'.headers := by
  obtain ⟨p₁, h₁, hstart⟩ := start_assembled m.start h
  obtain ⟨p₂, h₂, hheaders⟩ := headers_assembled m.headers hstart
  obtain ⟨p₃, d₃, h₃, hready, hd₃, hb₃⟩ := headersComplete_ready hheaders m.line
  obtain ⟨p₄, d₄, h₄, hready', hd₄, hb₄⟩ := body_ready m.body hready (hb₃.trans hd₃.symm)
  refine ⟨p₄, d₄, m.callbacks_opening h₁ h₂ h₃ h₄, hready', ?_, hb₄.trans hd₄.symm⟩
  rw [hd₄, hd₃, saveAll, List.foldl_map]
  rfl

/-! ## The trailers -/

/-- **The trailers**: the message has all of them but the last, which is in the buffers. -/
theorem trailers_saved (ls : List HeaderLine) {d : HTTPMessage} {p : HTTPParser} (h : Ready d p)
    (hbuilding : p.building.headers = d.headers) :
    ∃ q d', callbacks p (ls.flatMap HeaderLine.events) = .ok q ∧ Ready d' q ∧
      d'.headers = saveAll d.headers (ls.map HeaderLine.text) ∧
      q.building.headers = saveAll d.headers (ls.dropLast.map HeaderLine.text) := by
  rcases ls.eq_nil_or_concat' with rfl | ⟨ls, l, rfl⟩
  · exact ⟨p, d, rfl, h, rfl, hbuilding⟩
  · obtain ⟨r, hr, hready⟩ := headers_assembled ls h
    obtain ⟨q, hq, hready', hlast⟩ := l.assembled hready
    have hmap : saveAll d.headers (ls.map HeaderLine.text) =
        ls.foldl (fun hs l => hs.insert l.fields.flatten l.values.flatten) d.headers := List.foldl_map
    refine ⟨q, _, ?_, hready', ?_, ?_⟩
    · rw [List.flatMap_append, List.flatMap_singleton, callbacks_append, hr]
      exact hq
    · rw [List.map_append, saveAll_append, hmap]
      rfl
    · rw [hlast, List.dropLast_concat, hmap]

/-- Header lines leave the rest of the message as it is. -/
theorem headers_building (ls : List HeaderLine) {d : HTTPMessage} {p : HTTPParser} (h : Ready d p) :
    ∃ q, callbacks p (ls.flatMap HeaderLine.events) = .ok q ∧
      Ready { d with headers := saveAll d.headers (ls.map HeaderLine.text) } q ∧
      q.building = { p.building with headers := q.building.headers } := by
  induction ls generalizing d p with
  | nil => exact ⟨p, rfl, h, rfl⟩
  | cons l ls ih =>
    obtain ⟨r, hr, hready, hbuilding⟩ := l.assembled h
    obtain ⟨q, hq, hready', hbuilding'⟩ := ih hready
    refine ⟨q, ?_, hready', ?_⟩
    · rw [List.flatMap_cons, callbacks_append, hr]
      exact hq
    · rw [hbuilding', hbuilding]

/-- **The trailers** of a message whose header map is complete. -/
theorem trailers_assembled (ls : List HeaderLine) {m d : HTTPMessage} {p : HTTPParser}
    (hm : InBody m p) (h : Ready d p) (hheaders : m.headers = d.headers) :
    ∃ q, callbacks p (ls.flatMap HeaderLine.events) = .ok q ∧
      InBody { m with headers := saveAll m.headers (ls.dropLast.map HeaderLine.text) } q := by
  rcases ls.eq_nil_or_concat' with rfl | ⟨ls, l, rfl⟩
  · exact ⟨p, rfl, hm⟩
  · obtain ⟨r, hr, hready, hbuilding⟩ := headers_building ls h
    obtain ⟨q, hq, hready', hlast⟩ := l.assembled hready
    refine ⟨q, ?_, hready'.state, ?_⟩
    · rw [List.flatMap_append, List.flatMap_singleton, callbacks_append, hr]
      exact hq
    · rw [hlast, hbuilding, hm.building, List.dropLast_concat, hheaders]

/-- What is delivered of a chunked message in a stream. -/
def ChunkedEvents.record (m : ChunkedEvents) : HTTPMessage :=
  { m.message.text.message with headers := headerMap m.flushed }

/-- **A chunked message of a stream**: all of it is delivered but the last trailer. -/
theorem ChunkedEvents.assembled (m : ChunkedEvents) {p : HTTPParser} (hp : Fresh p) :
    ∃ q, callbacks p m.events = .ok q ∧ Fresh q ∧
      deliveries q = deliveries p ++ [(p.parserContext.message, m.record)] := by
  obtain ⟨r, hr, hbody⟩ := m.message.opening_assembled hp.ready
  obtain ⟨r', d, hr', hready, hd, hbuilding⟩ := opening_ready m.message hp.ready
  obtain rfl : r = r' := Except.ok.inj (hr.symm.trans hr')
  have hheaders : m.message.text.message.headers = d.headers := by
    rw [← hbuilding, hbody.building]
  obtain ⟨q, hq, hdone⟩ := trailers_assembled m.trailers hbody hready hheaders
  have htrailers : .messageComplete ∉ m.trailers.flatMap HeaderLine.events := by
    simp [HeaderLine.events]
  have hwithin := (callbacks_within m.message.opening_open hr).trans (callbacks_within htrailers hq)
  have hrecord : { m.message.text.message with
      headers := saveAll m.message.text.message.headers (m.trailers.dropLast.map HeaderLine.text) } =
        m.record := by
    have hflushed : headerMap m.flushed =
        saveAll (headerMap m.message.text.headers) (m.trailers.dropLast.map HeaderLine.text) := by
      unfold flushed
      rw [List.map_append]
      exact saveAll_append ∅ _ _
    unfold record
    rw [hflushed]
    rfl
  rw [hrecord] at hdone
  obtain ⟨hfresh, hdel⟩ := messageComplete_assembled hp hwithin hdone
  refine ⟨messageCompleteCb q, ?_, hfresh, hdel⟩
  rw [events, callbacks_append, hr]
  show callbacks r _ = _
  rw [callbacks_append, hq]
  rfl

/-- A stream of chunked messages. -/
theorem chunked_assembled (ms : List ChunkedEvents) {p : HTTPParser} (hp : Fresh p) :
    ∃ q, callbacks p (ms.flatMap ChunkedEvents.events) = .ok q ∧ Fresh q ∧
      (deliveries q).map Prod.snd = (deliveries p).map Prod.snd ++ ms.map ChunkedEvents.record := by
  induction ms generalizing p with
  | nil => exact ⟨p, rfl, hp, (List.append_nil _).symm⟩
  | cons m ms ih =>
    obtain ⟨r, hr, hfresh, hdel⟩ := m.assembled hp
    obtain ⟨q, hq, hfresh', hdel'⟩ := ih hfresh
    refine ⟨q, ?_, hfresh', ?_⟩
    · rw [List.flatMap_cons, callbacks_append, hr]
      exact hq
    · rw [hdel', hdel, List.map_append, List.map_cons, List.append_assoc]
      rfl

/-! ## Between messages -/

/-- What holds between two messages: no header is half read, and the header map of the message at hand,
    with the pair in the buffers, is that of the lines. -/
structure Between (streaming : Bool) (lines : List (Bytes × Bytes)) (p : HTTPParser) : Prop where
  mode : p.streamMessagesOption = streaming
  delegate : p.onMessageLambdaCB = true
  ready : ∃ d, Ready d p ∧ d.headers = headerMap lines

/-- The lines of earlier messages that go into the next one. -/
def carried (streaming : Bool) (ms : List ChunkedEvents) : List (Bytes × Bytes) :=
  if streaming then [] else ms.flatMap ChunkedEvents.lines

theorem between_configured (streaming headers parseError : Bool) :
    Between streaming (carried streaming [])
      (HTTPParser.configured streaming headers true parseError) := by
  refine ⟨rfl, rfl, _, ⟨nofun, fun _ => rfl, rfl⟩, ?_⟩
  cases streaming with
  | true => rfl
  | false => rfl

/-- The end of a message: a new header map in a stream, the same one in single mode. -/
theorem messageComplete_between {streaming : Bool} {lines : List (Bytes × Bytes)} {p : HTTPParser}
    (h : Between streaming lines p) :
    Between streaming (if streaming then [] else lines) (messageCompleteCb p) ∧
      deliveries (messageCompleteCb p) =
        deliveries p ++ [(p.parserContext.message, p.building)] := by
  obtain ⟨d, hready, hd⟩ := h.ready
  cases streaming with
  | true =>
    have hempty : ∀ q : HTTPParser, q.parserContext.name = none → q.building = HTTPMessage.new →
        (draft q).headers = headerMap [] := by
      intro q hname hnew
      show pending q = ∅
      rw [pending, hname, hnew]
      rfl
    rw [messageCompleteCb_streaming h.mode, if_pos h.delegate]
    exact ⟨⟨h.mode, h.delegate, _, ⟨hready.state, fun _ => rfl, rfl⟩,
      hempty _ rfl (Function.update_self ..)⟩, deliveries_call_message p _ _⟩
  | false =>
    rw [messageCompleteCb_single h.mode, if_pos h.delegate]
    exact ⟨⟨h.mode, h.delegate, d, ⟨hready.state, hready.whole, hready.draft⟩, hd⟩,
      deliveries_call_message p _ _⟩

/-- **A chunked message**: it is delivered without its last trailer. -/
theorem ChunkedEvents.delivered (m : ChunkedEvents) {streaming : Bool}
    {before : List (Bytes × Bytes)} {p : HTTPParser} (h : Between streaming before p) :
    ∃ q n seen, callbacks p m.events = .ok q ∧ deliveries q = deliveries p ++ [(n, seen)] ∧
      seen.headers = headerMap (before ++ m.flushed) ∧
      Between streaming (if streaming then [] else before ++ m.lines) q := by
  obtain ⟨d, hready, hd⟩ := h.ready
  obtain ⟨r, d₁, hr, hready₁, hd₁, hb₁⟩ := opening_ready m.message hready
  obtain ⟨q, d₂, hq, hready₂, hd₂, hb₂⟩ := trailers_saved m.trailers hready₁ hb₁
  have htrailers : .messageComplete ∉ m.trailers.flatMap HeaderLine.events := by
    simp [HeaderLine.events]
  have hwithin := (callbacks_within m.message.opening_open hr).trans (callbacks_within htrailers hq)
  have hlines : d₂.headers = headerMap (before ++ m.lines) := by
    show _ = saveAll ∅ (before ++ (m.message.headers ++ m.trailers).map HeaderLine.text)
    rw [hd₂, hd₁, hd, List.map_append, saveAll_append, saveAll_append]
    rfl
  have hflushed : q.building.headers = headerMap (before ++ m.flushed) := by
    show _ = saveAll ∅ (before ++ (m.message.headers ++ m.trailers.dropLast).map HeaderLine.text)
    rw [hb₂, hd₁, hd, List.map_append, saveAll_append, saveAll_append]
    rfl
  have hbetween : Between streaming (before ++ m.lines) q :=
    ⟨hwithin.streaming.trans h.mode, hwithin.delegate.trans h.delegate, d₂, hready₂, hlines⟩
  obtain ⟨hnext, hdel⟩ := messageComplete_between hbetween
  refine ⟨messageCompleteCb q, q.parserContext.message, _, ?_, ?_, hflushed, hnext⟩
  · rw [events, callbacks_append, hr]
    show callbacks r _ = _
    rw [callbacks_append, hq]
    rfl
  · rw [hdel, hwithin.deliveries]

theorem messages_between (streaming headers parseError : Bool) (ms : List ChunkedEvents) :
    ∃ q, callbacks (HTTPParser.configured streaming headers true parseError)
        (ms.flatMap ChunkedEvents.events) = .ok q ∧ Between streaming (carried streaming ms) q := by
  induction ms using List.reverseRecOn with
  | nil => exact ⟨_, rfl, between_configured streaming headers parseError⟩
  | append_singleton ms m ih =>
    obtain ⟨r, hr, hbetween⟩ := ih
    obtain ⟨q, n, seen, hq, -, -, hnext⟩ := m.delivered hbetween
    have hcarried : carried streaming (ms ++ [m]) =
        if streaming then [] else carried streaming ms ++ m.lines := by
      cases streaming with
      | true => rfl
      | false =>
        show (ms ++ [m]).flatMap ChunkedEvents.lines = ms.flatMap ChunkedEvents.lines ++ m.lines
        rw [List.flatMap_append, List.flatMap_singleton]
    refine ⟨q, ?_, ?_⟩
    · rw [List.flatMap_append, List.flatMap_singleton, callbacks_append, hr]
      exact hq
    · rw [hcarried]
      exact hnext

/-! ## What is kept -/

/-- What is asked of the message that is delivered: each name among the headers and the trailers has
    the value of its last occurrence. -/
def TrailersKept (m : ChunkedEvents) (seen : HTTPMessage) : Prop :=
  ∀ l ∈ m.lines, seen.headers.lookup l.1 = lastValue m.lines l.1

/-- The last trailer, if there is one, says what the lines before it say already. -/
def LastTrailerKnown (before : List (Bytes × Bytes)) (m : ChunkedEvents) : Prop :=
  ∀ l ∈ m.trailers.getLast?, lastValue (before ++ m.flushed) l.text.1 = some l.text.2

/-- A message with the headers of all lines but the last trailer. -/
theorem trailersKept_iff_of_flushed {before : List (Bytes × Bytes)} {m : ChunkedEvents}
    {seen : HTTPMessage} (hseen : seen.headers = headerMap (before ++ m.flushed)) :
    TrailersKept m seen ↔ LastTrailerKnown before m := by
  have hlookup : ∀ name, seen.headers.lookup name = lastValue (before ++ m.flushed) name := by
    intro name
    rw [hseen, lookup_headerMap]
  rcases m.trailers.eq_nil_or_concat' with hnil | ⟨ts, t, hconcat⟩
  · have hlines : m.lines = m.flushed := by
      unfold ChunkedEvents.lines ChunkedEvents.flushed
      rw [hnil]
      rfl
    refine ⟨fun _ => ?_, fun _ l hl => ?_⟩
    · unfold LastTrailerKnown
      rw [hnil]
      exact nofun
    · rw [hlookup, ← hlines]
      exact lastValue_append_of_mem hl
  · have hlines : m.lines = m.flushed ++ [t.text] := by
      unfold ChunkedEvents.lines ChunkedEvents.flushed
      rw [hconcat, List.dropLast_concat, ← List.append_assoc, List.map_append]
      rfl
    have hlast : LastTrailerKnown before m ↔
        lastValue (before ++ m.flushed) t.text.1 = some t.text.2 := by
      unfold LastTrailerKnown
      rw [hconcat, List.getLast?_concat]
      exact ⟨fun h => h t rfl, fun h l hl => by cases hl; exact h⟩
    rw [hlast, ← hlookup]
    unfold TrailersKept
    rw [hlines]
    constructor
    · intro h
      rw [h t.text (by simp), lastValue_snoc, if_pos rfl]
    · intro h l hl
      rw [lastValue_snoc]
      by_cases hname : t.text.1 = l.1
      · rw [if_pos hname, ← hname, h]
      · rw [if_neg hname, hlookup]
        rcases List.mem_append.mp hl with hl | hl
        · exact lastValue_append_of_mem hl
        · exact absurd (congrArg Prod.fst (List.mem_singleton.mp hl)).symm hname

/-- **Trailers, exactly.**  In both modes, after any messages, the message that is delivered has every
    trailer and every header with its last value if and only if it has no trailer, or the last one
    repeats what was there before it. -/
theorem trailersKept_iff (streaming headers parseError : Bool) (ms : List ChunkedEvents)
    (m : ChunkedEvents) :
    ∃ q n seen, callbacks (HTTPParser.configured streaming headers true parseError)
        ((ms ++ [m]).flatMap ChunkedEvents.events) = .ok q ∧
      (deliveries q).getLast? = some (n, seen) ∧
      (TrailersKept m seen ↔ LastTrailerKnown (carried streaming ms) m) := by
  obtain ⟨r, hr, hbetween⟩ := messages_between streaming headers parseError ms
  obtain ⟨q, n, seen, hq, hdel, hseen, -⟩ := m.delivered hbetween
  refine ⟨q, n, seen, ?_, ?_, trailersKept_iff_of_flushed hseen⟩
  · rw [List.flatMap_append, List.flatMap_singleton, callbacks_append, hr]
    exact hq
  · rw [hdel, List.getLast?_concat]

/-- A request with the header `Transfer-Encoding: chunked` and the trailer `Sum: 7`. -/
def oneTrailer : ChunkedEvents where
  message :=
    { start := [.url (ascii "/")]
      headers := [⟨[ascii "Transfer-Encoding"], [ascii "chunked"], by simp, by simp⟩]
      line := ⟨3, 0, 1, 1⟩
      body := [ascii "data"] }
  trailers := [⟨[ascii "Sum"], [ascii "7"], by simp, by simp⟩]

/-- Its trailer is lost. -/
theorem trailer_lost : ∃ q n seen,
    callbacks (HTTPParser.configured true true true true) oneTrailer.events = .ok q ∧
      deliveries q = [(n, seen)] ∧ seen.headers.lookup (ascii "Sum") = none ∧
      ¬ TrailersKept oneTrailer seen := by
  obtain ⟨q, n, seen, hq, hdel, hseen, -⟩ := oneTrailer.delivered (between_configured true true true)
  have hlost : seen.headers.lookup (ascii "Sum") = none := by
    rw [hseen, lookup_headerMap]
    decide
  refine ⟨q, n, seen, hq, hdel, hlost, fun hkept => ?_⟩
  have hsum := hkept (ascii "Sum", ascii "7") (by decide)
  rw [hlost] at hsum
  revert hsum
  decide

end Pixie.Http
