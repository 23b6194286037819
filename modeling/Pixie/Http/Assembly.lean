/-
  Streaming: each message is put together from its own fragments, and delivered once.

  `header_field_data_cb` does not save a header when its line ends; it saves the one BEFORE it, and
  `headers_complete_cb` saves the last.  What has been seen of a message so far is therefore in three
  places: the message, the two header buffers, the buffers of the first line.

  1. **The stream** — `MessageEvents` is one message as a sequence of fragments, `MessageText` what
     the fragments spell, `MessageText.message` the record a reader of the text would write down.

  2. **`draft`** — the message that would result if the headers ended here.  `Ready` says that the
     pending header is whole or absent.  A fragment of the first line extends the draft; a header
     line leads from a ready state to a ready one, with its pair in the draft.

  3. **`Fresh`** — between two messages of a stream: no buffer is left, the message is new, and what
     has been delivered is out of reach.  `header_state` is not reset, but it is never `FIELD`.

  4. `streaming_assembles` — a stream of whole messages, by induction on the messages.
-/
import Pixie.Http.Grammar
import Pixie.Http.Callbacks

namespace Pixie.Http

open Pixie.Decimal Pixie.Run

/-! ## The stream -/

/-- A fragment of a first line. -/
inductive StartFragment
  | url (data : Bytes)
  | status (data : Bytes)

namespace StartFragment

def event : StartFragment → Event
  | url data => .url data
  | status data => .status data

def urlPart : StartFragment → Bytes
  | url data => data
  | status _ => []

def statusPart : StartFragment → Bytes
  | url _ => []
  | status data => data

end StartFragment

/-- A header line: a name and a value, each in one or more fragments. -/
structure HeaderLine where
  fields : List Bytes
  values : List Bytes
  fields_ne : fields ≠ []
  values_ne : values ≠ []

def HeaderLine.events (l : HeaderLine) : List Event :=
  l.fields.map Event.headerField ++ l.values.map Event.headerValue

/-- A message as `http_parser` reports it; each string may be cut anywhere, and into empty
    fragments. -/
structure MessageEvents where
  start : List StartFragment
  headers : List HeaderLine
  line : FirstLine
  body : List Bytes

def MessageEvents.events (m : MessageEvents) : List Event :=
  .messageBegin :: (m.start.map StartFragment.event ++ (m.headers.flatMap HeaderLine.events ++
    (.headersComplete m.line :: (m.body.map Event.body ++ [.messageComplete]))))

/-- What a message says, whatever the fragments. -/
structure MessageText where
  url : Bytes
  status : Bytes
  headers : List (Bytes × Bytes)
  line : FirstLine
  body : Bytes
deriving DecidableEq, Repr

def MessageEvents.text (m : MessageEvents) : MessageText where
  url := m.start.flatMap StartFragment.urlPart
  status := m.start.flatMap StartFragment.statusPart
  headers := m.headers.map fun l => (l.fields.flatten, l.values.flatten)
  line := m.line
  body := m.body.flatten

/-- The header map of a list of headers. -/
def headerMap (headers : List (Bytes × Bytes)) : MessageHeaders :=
  headers.foldl (fun hs h => hs.insert h.1 h.2) ∅

/-- The value of the last header with the name. -/
def lastValue (headers : List (Bytes × Bytes)) (name : Bytes) : Option Bytes :=
  (headers.reverse.find? fun h => h.1 = name).map Prod.snd

/-- The record of a text. -/
def MessageText.message (t : MessageText) : HTTPMessage where
  method := some t.line.method
  url := t.url
  statusCode := some t.line.statusCode
  status := t.status
  httpMajor := some t.line.httpMajor
  httpMinor := some t.line.httpMinor
  headers := headerMap t.headers
  body := t.body

theorem lastValue_snoc (headers : List (Bytes × Bytes)) (h : Bytes × Bytes) (name : Bytes) :
    lastValue (headers ++ [h]) name = if h.1 = name then some h.2 else lastValue headers name := by
  unfold lastValue
  rw [List.reverse_append, List.reverse_singleton, List.singleton_append, List.find?_cons]
  by_cases hn : h.1 = name <;> simp [hn]

/-- **The last occurrence of a name counts.** -/
theorem lookup_headerMap (headers : List (Bytes × Bytes)) (name : Bytes) :
    (headerMap headers).lookup name = lastValue headers name := by
  induction headers using List.reverseRecOn with
  | nil => exact Finmap.lookup_empty name
  | append_singleton headers h ih =>
    have hmap : headerMap (headers ++ [h]) = (headerMap headers).insert h.1 h.2 := by
      unfold headerMap
      rw [List.foldl_append]
      rfl
    rw [hmap, lastValue_snoc]
    by_cases hn : h.1 = name
    · rw [if_pos hn, ← hn, Finmap.lookup_insert]
    · rw [if_neg hn, Finmap.lookup_insert_of_ne _ (Ne.symm hn), ih]

/-! ## The stream is one that `http_parser` reports -/

theorem fragments_emitted {f : Bytes → Event} {ph : Phase} (hf : ∀ data, Emits ph (f data) ph)
    (ds : List Bytes) : Path Emits ph (ds.map f) ph := by
  induction ds with
  | nil => exact .nil ph
  | cons d ds ih => exact .cons (hf d) ih

/-- A header line, or a trailer, may come where a field may. -/
theorem HeaderLine.emitted (l : HeaderLine) {ph : Phase} {t : Bool}
    (hph : ∀ data, Emits ph (.headerField data) (.field t)) :
    Path Emits ph l.events (.value t) := by
  obtain ⟨fields, values, hf, hv⟩ := l
  obtain ⟨f, fs, rfl⟩ := List.exists_cons_of_ne_nil hf
  obtain ⟨v, vs, rfl⟩ := List.exists_cons_of_ne_nil hv
  have hfields := fragments_emitted (Emits.field t) fs
  have hvalues := fragments_emitted (Emits.moreValue t) vs
  exact (Path.cons (hph f) hfields).append (Path.cons (.value t v) hvalues)

theorem headers_emitted {first : Phase} {t : Bool}
    (hfirst : ∀ data, Emits first (.headerField data) (.field t)) (ls : List HeaderLine) :
    ∀ {ph : Phase}, ph = first ∨ ph = .value t →
      ∃ ph', (ph' = first ∨ ph' = .value t) ∧
        Path Emits ph (ls.flatMap HeaderLine.events) ph' := by
  induction ls with
  | nil => exact fun {ph} hph => ⟨ph, hph, .nil ph⟩
  | cons l ls ih =>
    intro ph hph
    obtain ⟨ph', hph', hrest⟩ := ih (.inr rfl)
    have hline : Path Emits ph l.events (.value t) := by
      rcases hph with rfl | rfl
      · exact l.emitted hfirst
      · exact l.emitted (.nextField t)
    exact ⟨ph', hph', hline.append hrest⟩

theorem start_emitted (ss : List StartFragment) :
    Path Emits .start (ss.map StartFragment.event) .start := by
  induction ss with
  | nil => exact .nil _
  | cons s ss ih =>
    cases s with
    | url data => exact .cons (.url data) ih
    | status data => exact .cons (.status data) ih

/-- The callbacks of a message before the last. -/
def MessageEvents.opening (m : MessageEvents) : List Event :=
  .messageBegin :: (m.start.map StartFragment.event ++ (m.headers.flatMap HeaderLine.events ++
    (.headersComplete m.line :: m.body.map Event.body)))

theorem MessageEvents.events_eq (m : MessageEvents) :
    m.events = m.opening ++ [.messageComplete] := by
  simp only [events, opening, List.cons_append, List.append_assoc]

theorem MessageEvents.opening_open (m : MessageEvents) : .messageComplete ∉ m.opening := by
  have hstart : ∀ s : StartFragment, s.event ≠ .messageComplete := by
    intro s
    cases s with
    | url data => exact nofun
    | status data => exact nofun
  simp [opening, HeaderLine.events, hstart]

theorem MessageEvents.opening_emitted (m : MessageEvents) :
    Path Emits .between m.opening .body := by
  obtain ⟨ph, hph, hheaders⟩ := headers_emitted .firstField m.headers (.inl rfl)
  have hcomplete : Emits ph (.headersComplete m.line) .body := by
    refine .headersComplete _ _ _ ?_ (.inl rfl)
    rcases hph with rfl | rfl
    · exact .inl rfl
    · exact .inr (.inr rfl)
  have hbody := fragments_emitted Emits.body m.body
  exact .cons .messageBegin ((start_emitted m.start).append (hheaders.append (.cons hcomplete hbody)))

/-- **A message of the stream** leads `http_parser` from between two messages to there again. -/
theorem MessageEvents.emitted (m : MessageEvents) : Path Emits .between m.events .between := by
  have hend : Emits .body .messageComplete .between := .messageComplete _ (.inl rfl)
  rw [m.events_eq]
  exact m.opening_emitted.append (.cons hend (.nil _))

/-! ## A message under construction -/

/-- The message that there would be if its headers ended here. -/
def draft (p : HTTPParser) : HTTPMessage :=
  { p.building with
    url := p.parserContext.urlBuf.getD []
    status := p.parserContext.statusBuf.getD []
    headers := pending p }

/-- No header is half read: the draft is `d`, and the pending header is whole or absent. -/
structure Ready (d : HTTPMessage) (p : HTTPParser) : Prop where
  state : p.parserContext.headerState ≠ .field
  whole : p.parserContext.value = none → p.parserContext.name = none
  draft : draft p = d

/-- The name `n` of a header is being read. -/
structure InField (d : HTTPMessage) (n : Bytes) (p : HTTPParser) : Prop where
  state : p.parserContext.headerState = .field
  name : p.parserContext.name = some n
  value : p.parserContext.value = none
  draft : Http.draft p = d

/-- The value `v` of the header `n` is being read. -/
structure InValue (d : HTTPMessage) (n v : Bytes) (p : HTTPParser) : Prop where
  state : p.parserContext.headerState = .value
  name : p.parserContext.name = some n
  value : p.parserContext.value = some v
  draft : Http.draft p = { d with headers := d.headers.insert n v }

/-- The headers are complete: the message is `m`. -/
structure InBody (m : HTTPMessage) (p : HTTPParser) : Prop where
  state : p.parserContext.headerState ≠ .field
  building : p.building = m

/-! ## Fragments -/

/-- **Fragments of one string**: what holds after each with what has been read of the string, holds
    after all of them with the whole. -/
theorem callbacks_fragments {f : Bytes → Event} {I : Bytes → HTTPParser → Prop}
    (hstep : ∀ acc p data, I acc p → ∃ q, callback p (f data) = .ok q ∧ I (acc ++ data) q)
    (ds : List Bytes) : ∀ {acc : Bytes} {p : HTTPParser}, I acc p →
      ∃ q, callbacks p (ds.map f) = .ok q ∧ I (acc ++ ds.flatten) q := by
  induction ds with
  | nil =>
    intro acc p hp
    refine ⟨p, rfl, ?_⟩
    rw [List.flatten_nil, List.append_nil]
    exact hp
  | cons d ds ih =>
    intro acc p hp
    obtain ⟨q, hq, hI⟩ := hstep acc p d hp
    obtain ⟨r, hr, hI'⟩ := ih hI
    refine ⟨r, ?_, ?_⟩
    · rw [List.map_cons, callbacks_cons, hq]
      exact hr
    · rw [List.flatten_cons, ← List.append_assoc]
      exact hI'

/-- The fragments of a first line go to the draft. -/
theorem start_assembled (ss : List StartFragment) : ∀ {d : HTTPMessage} {p : HTTPParser}, Ready d p →
    ∃ q, callbacks p (ss.map StartFragment.event) = .ok q ∧
      Ready { d with
        url := d.url ++ ss.flatMap StartFragment.urlPart
        status := d.status ++ ss.flatMap StartFragment.statusPart } q := by
  induction ss with
  | nil =>
    intro d p hp
    refine ⟨p, rfl, ?_⟩
    simp only [List.flatMap_nil, List.append_nil]
    exact hp
  | cons s ss ih =>
    intro d p hp
    simp only [List.flatMap_cons, ← List.append_assoc]
    cases s with
    | url data =>
      have hq : Ready { d with url := d.url ++ data } (urlDataCb p data) :=
        ⟨hp.state, hp.whole, by rw [← hp.draft]; rfl⟩
      simp only [StartFragment.urlPart, StartFragment.statusPart, List.append_nil]
      exact ih hq
    | status data =>
      have hq : Ready { d with status := d.status ++ data } (statusDataCb p data) :=
        ⟨hp.state, hp.whole, by rw [← hp.draft]; rfl⟩
      simp only [StartFragment.urlPart, StartFragment.statusPart, List.append_nil]
      exact ih hq

/-! ## Header lines -/

/-- The first fragment of a name saves the header before it. -/
theorem firstField_assembled {d : HTTPMessage} {p : HTTPParser} (h : Ready d p) (data : Bytes) :
    ∃ q, callback p (.headerField data) = .ok q ∧ InField d data q ∧
      q.building = { p.building with headers := d.headers } := by
  refine ⟨_, headerFieldDataCb_first h.state h.whole data, ⟨rfl, rfl, rfl, ?_⟩, ?_⟩
  · rw [← h.draft]
    simp only [draft, pending, HTTPParser.building, Function.update_self]
  · rw [← h.draft]
    exact Function.update_self ..

/-- Further fragments are appended to it. -/
theorem nextField_assembled {d : HTTPMessage} {n : Bytes} {p : HTTPParser} (h : InField d n p)
    (data : Bytes) :
    ∃ q, callback p (.headerField data) = .ok q ∧ InField d (n ++ data) q ∧
      q.building = p.building := by
  refine ⟨_, headerFieldDataCb_next h.state h.name data, ⟨rfl, rfl, h.value, ?_⟩, rfl⟩
  rw [← h.draft, draft, draft, pending, pending, h.name, h.value]
  rfl

/-- The first fragment of a value makes the pair. -/
theorem firstValue_assembled {d : HTTPMessage} {n : Bytes} {p : HTTPParser} (h : InField d n p)
    (data : Bytes) :
    ∃ q, callback p (.headerValue data) = .ok q ∧ InValue d n data q ∧
      q.building = p.building := by
  refine ⟨_, headerValueDataCb_first h.state data, ⟨rfl, h.name, rfl, ?_⟩, rfl⟩
  rw [← h.draft, draft, draft, pending, pending, h.name, h.value]
  rfl

/-- Further fragments are appended to it. -/
theorem nextValue_assembled {d : HTTPMessage} {n v : Bytes} {p : HTTPParser} (h : InValue d n v p)
    (data : Bytes) :
    ∃ q, callback p (.headerValue data) = .ok q ∧ InValue d n (v ++ data) q ∧
      q.building = p.building := by
  have hdraft : draft { p with
      parserContext :=
        { p.parserContext with value := some (v ++ data), headerState := .value } } =
      { draft p with headers := (draft p).headers.insert n (v ++ data) } := by
    simp only [draft, pending, h.name, h.value, Finmap.insert_insert]
    rfl
  refine ⟨_, headerValueDataCb_next h.state h.value data, ⟨rfl, h.name, rfl, ?_⟩, rfl⟩
  rw [hdraft, h.draft]
  simp only [Finmap.insert_insert]

/-- **A header line** leads from a whole header to a whole header: its own, which the message does not
    have yet. -/
theorem HeaderLine.assembled (l : HeaderLine) {d : HTTPMessage} {p : HTTPParser} (h : Ready d p) :
    ∃ q, callbacks p l.events = .ok q ∧
      Ready { d with headers := d.headers.insert l.fields.flatten l.values.flatten } q ∧
      q.building = { p.building with headers := d.headers } := by
  obtain ⟨fields, values, hf, hv⟩ := l
  obtain ⟨f, fs, rfl⟩ := List.exists_cons_of_ne_nil hf
  obtain ⟨v, vs, rfl⟩ := List.exists_cons_of_ne_nil hv
  obtain ⟨p₁, h₁, hfield⟩ := firstField_assembled h f
  obtain ⟨p₂, h₂, hfields, hb₂⟩ := callbacks_fragments
    (I := fun n q => InField d n q ∧ q.building = { p.building with headers := d.headers })
    (fun _ _ data hp => by
      obtain ⟨q, hq, hin, hb⟩ := nextField_assembled hp.1 data
      exact ⟨q, hq, hin, hb.trans hp.2⟩) fs hfield
  obtain ⟨p₃, h₃, hvalue, hb₃⟩ := firstValue_assembled hfields v
  obtain ⟨p₄, h₄, hvalues, hb₄⟩ := callbacks_fragments
    (I := fun v q => InValue d _ v q ∧ q.building = { p.building with headers := d.headers })
    (fun _ _ data hp => by
      obtain ⟨q, hq, hin, hb⟩ := nextValue_assembled hp.1 data
      exact ⟨q, hq, hin, hb.trans hp.2⟩) vs ⟨hvalue, hb₃.trans hb₂⟩
  refine ⟨p₄, ?_, ⟨?_, ?_, hvalues.draft⟩, hb₄⟩
  · show callbacks p ((f :: fs).map Event.headerField ++ (v :: vs).map Event.headerValue) = _
    rw [callbacks_append, List.map_cons, callbacks_cons, h₁]
    show (callbacks p₁ (fs.map Event.headerField)).bind _ = _
    rw [h₂, List.map_cons]
    show callbacks p₂ (Event.headerValue v :: vs.map Event.headerValue) = _
    rw [callbacks_cons, h₃]
    exact h₄
  · rw [hvalues.state]
    decide
  · rw [hvalues.value]
    simp

theorem headers_assembled (ls : List HeaderLine) : ∀ {d : HTTPMessage} {p : HTTPParser}, Ready d p →
    ∃ q, callbacks p (ls.flatMap HeaderLine.events) = .ok q ∧
      Ready { d with
        headers := ls.foldl (fun hs l => hs.insert l.fields.flatten l.values.flatten) d.headers } q := by
  induction ls with
  | nil => exact fun {d} {p} hp => ⟨p, rfl, hp⟩
  | cons l ls ih =>
    intro d p hp
    obtain ⟨q, hq, hready, -⟩ := l.assembled hp
    obtain ⟨r, hr, hready'⟩ := ih hready
    refine ⟨r, ?_, hready'⟩
    rw [List.flatMap_cons, callbacks_append, hq]
    exact hr

/-! ## The end of the headers, the body -/

/-- The draft becomes the message. -/
theorem headersComplete_assembled {d : HTTPMessage} {p : HTTPParser} (h : Ready d p)
    (line : FirstLine) :
    ∃ q, callback p (.headersComplete line) = .ok q ∧
      InBody { d with
        method := some line.method
        statusCode := some line.statusCode
        httpMajor := some line.httpMajor
        httpMinor := some line.httpMinor } q := by
  refine ⟨_, headersCompleteCb_ok h.whole line, h.state, ?_⟩
  rw [← h.draft]
  exact Function.update_self ..

/-- A fragment of the body goes to the message. -/
theorem body_assembled {m : HTTPMessage} {acc : Bytes} {p : HTTPParser}
    (h : InBody { m with body := acc } p) (data : Bytes) :
    ∃ q, callback p (.body data) = .ok q ∧ InBody { m with body := acc ++ data } q := by
  refine ⟨bodyDataCb p data, rfl, h.state, ?_⟩
  rw [bodyDataCb, HTTPParser.building_updateMessage, h.building]

/-! ## Between messages -/

/-- What holds between two messages of a stream. -/
structure Fresh (p : HTTPParser) : Prop where
  streaming : p.streamMessagesOption = true
  delegate : p.onMessageLambdaCB = true
  next : p.allocated = p.parserContext.message + 1
  state : p.parserContext.headerState ≠ .field
  buffers : p.parserContext.urlBuf = none ∧ p.parserContext.statusBuf = none ∧
    p.parserContext.name = none ∧ p.parserContext.value = none
  building : p.building = HTTPMessage.new
  kept : ∀ d ∈ deliveries p, d.1 < p.parserContext.message ∧ p.heap d.1 = d.2
  distinct : ((deliveries p).map Prod.fst).Nodup

theorem fresh_configured (headers parseError : Bool) :
    Fresh (HTTPParser.configured true headers true parseError) := by
  refine ⟨rfl, rfl, rfl, ?_, ⟨rfl, rfl, rfl, rfl⟩, rfl, ?_, List.nodup_nil⟩
  · show HeaderState.nothing ≠ .field
    decide
  · intro d hd
    exact absurd hd List.not_mem_nil

theorem Fresh.ready {p : HTTPParser} (h : Fresh p) : Ready HTTPMessage.new p := by
  obtain ⟨hurl, hstatus, hname, hvalue⟩ := h.buffers
  refine ⟨h.state, fun _ => hname, ?_⟩
  unfold draft pending
  rw [hurl, hstatus, hname, hvalue, h.building]
  rfl

/-- **The end of a message** delivers it and makes a new one: the delivered one is not written to
    again. -/
theorem messageComplete_assembled {m : HTTPMessage} {p q : HTTPParser} (hp : Fresh p)
    (hw : Within p q) (hq : InBody m q) :
    Fresh (messageCompleteCb q) ∧
      deliveries (messageCompleteCb q) = deliveries p ++ [(p.parserContext.message, m)] := by
  have hstream : q.streamMessagesOption = true := hw.streaming.trans hp.streaming
  have hset : q.onMessageLambdaCB = true := hw.delegate.trans hp.delegate
  have hnext : q.allocated = p.parserContext.message + 1 := hw.allocated.trans hp.next
  have hdel : deliveries (messageCompleteCb q) =
      deliveries p ++ [(p.parserContext.message, m)] := by
    rw [← hw.deliveries, ← hw.message, ← hq.building, messageCompleteCb_streaming hstream,
      if_pos hset]
    exact deliveries_call_message q _ _
  have hold : ∀ n, n ≤ p.parserContext.message → (messageCompleteCb q).heap n = q.heap n := by
    intro n hn
    rw [messageCompleteCb_streaming hstream]
    exact Function.update_of_ne (by omega) _ _
  have hmessage : (messageCompleteCb q).parserContext.message = q.allocated := by
    rw [messageCompleteCb_streaming hstream]
  refine ⟨⟨?_, ?_, ?_, ?_, ?_, ?_, ?_, ?_⟩, hdel⟩
  · rw [messageCompleteCb_streaming hstream]
    exact hstream
  · rw [messageCompleteCb_streaming hstream]
    exact hset
  · rw [messageCompleteCb_streaming hstream]
  · rw [messageCompleteCb_streaming hstream]
    exact hq.state
  · rw [messageCompleteCb_streaming hstream]
    exact ⟨rfl, rfl, rfl, rfl⟩
  · rw [messageCompleteCb_streaming hstream]
    exact Function.update_self ..
  · intro d hd
    rw [hdel] at hd
    rw [hmessage]
    rcases List.mem_append.mp hd with hd | hd
    · obtain ⟨hlt, hkept⟩ := hp.kept d hd
      refine ⟨by omega, ?_⟩
      rw [hold d.1 (by omega), hw.elsewhere d.1 (by omega), hkept]
    · obtain rfl := List.mem_singleton.mp hd
      refine ⟨by omega, ?_⟩
      rw [hold _ le_rfl, ← hw.message]
      exact hq.building
  · rw [hdel, List.map_append]
    refine List.nodup_append.mpr ⟨hp.distinct, List.nodup_singleton _, ?_⟩
    rintro n hn n' hn' rfl
    obtain ⟨d, hd, rfl⟩ := List.mem_map.mp hn
    have hlt := (hp.kept d hd).1
    have heq : d.1 = p.parserContext.message := List.mem_singleton.mp hn'
    omega

/-- The opening of a message, put together from what its four parts do. -/
theorem MessageEvents.callbacks_opening (m : MessageEvents) {p p₁ p₂ p₃ p₄ : HTTPParser}
    (h₁ : callbacks p (m.start.map StartFragment.event) = .ok p₁)
    (h₂ : callbacks p₁ (m.headers.flatMap HeaderLine.events) = .ok p₂)
    (h₃ : callback p₂ (.headersComplete m.line) = .ok p₃)
    (h₄ : callbacks p₃ (m.body.map Event.body) = .ok p₄) : callbacks p m.opening = .ok p₄ := by
  show callbacks p (m.start.map StartFragment.event ++ (m.headers.flatMap HeaderLine.events ++
    (.headersComplete m.line :: m.body.map Event.body))) = _
  rw [callbacks_append, h₁]
  show callbacks p₁ _ = _
  rw [callbacks_append, h₂]
  show callbacks p₂ _ = _
  rw [callbacks_cons, h₃]
  exact h₄

/-- The message is there before the last callback. -/
theorem MessageEvents.opening_assembled (m : MessageEvents) {p : HTTPParser}
    (hp : Ready HTTPMessage.new p) :
    ∃ q, callbacks p m.opening = .ok q ∧ InBody m.text.message q := by
  obtain ⟨p₁, h₁, hstart⟩ := start_assembled m.start hp
  obtain ⟨p₂, h₂, hheaders⟩ := headers_assembled m.headers hstart
  obtain ⟨p₃, h₃, hcomplete⟩ := headersComplete_assembled hheaders m.line
  have hmap : headerMap m.text.headers =
      m.headers.foldl (fun hs l => hs.insert l.fields.flatten l.values.flatten) ∅ := List.foldl_map
  have hopen : InBody { m.text.message with body := [] } p₃ := by
    refine ⟨hcomplete.state, ?_⟩
    rw [hcomplete.building, MessageText.message, hmap]
    rfl
  obtain ⟨p₄, h₄, hbody⟩ := callbacks_fragments
    (I := fun acc => InBody { m.text.message with body := acc })
    (fun _ _ data hp => body_assembled hp data) m.body hopen
  exact ⟨p₄, m.callbacks_opening h₁ h₂ h₃ h₄, hbody⟩

/-- **A message of the stream**: it is delivered as its text says, and nothing of it is left. -/
theorem MessageEvents.assembled (m : MessageEvents) {p : HTTPParser} (hp : Fresh p) :
    ∃ q, callbacks p m.events = .ok q ∧ Fresh q ∧
      deliveries q = deliveries p ++ [(p.parserContext.message, m.text.message)] := by
  obtain ⟨r, hr, hbody⟩ := m.opening_assembled hp.ready
  have hwithin := callbacks_within m.opening_open hr
  obtain ⟨hfresh, hdel⟩ := messageComplete_assembled hp hwithin hbody
  refine ⟨messageCompleteCb r, ?_, hfresh, hdel⟩
  rw [m.events_eq, callbacks_append, hr]
  rfl

/-- A stream of messages. -/
theorem messages_assembled (ms : List MessageEvents) : ∀ {p : HTTPParser}, Fresh p →
    ∃ q, callbacks p (ms.flatMap MessageEvents.events) = .ok q ∧ Fresh q ∧
      (deliveries q).map Prod.snd =
        (deliveries p).map Prod.snd ++ ms.map fun m => m.text.message := by
  induction ms with
  | nil => exact fun {p} hp => ⟨p, rfl, hp, (List.append_nil _).symm⟩
  | cons m ms ih =>
    intro p hp
    obtain ⟨q, hq, hfresh, hdel⟩ := m.assembled hp
    obtain ⟨r, hr, hfresh', hdel'⟩ := ih hfresh
    refine ⟨r, ?_, hfresh', ?_⟩
    · rw [List.flatMap_cons, callbacks_append, hq]
      exact hr
    · rw [hdel', hdel, List.map_append, List.map_cons, List.append_assoc]
      rfl

/-- **Streaming assembly.**  The delegate is called once for each message of a stream, in order; what
    it is given is the record of that message's text, whatever the fragments were; a header name has
    the value of its last occurrence; and each delivered message stays as it was delivered. -/
theorem streaming_assembles (headers parseError : Bool) (ms : List MessageEvents) :
    ∃ p, callbacks (HTTPParser.configured true headers true parseError)
        (ms.flatMap MessageEvents.events) = .ok p ∧
      (deliveries p).map Prod.snd = ms.map (fun m => m.text.message) ∧
      (∀ m ∈ ms, ∀ name,
        m.text.message.headers.lookup name = lastValue m.text.headers name) ∧
      (∀ d ∈ deliveries p, p.heap d.1 = d.2) ∧ ((deliveries p).map Prod.fst).Nodup := by
  obtain ⟨p, hp, hfresh, hdel⟩ := messages_assembled ms (fresh_configured headers parseError)
  refine ⟨p, hp, hdel, ?_, fun d hd => (hfresh.kept d hd).2, hfresh.distinct⟩
  intro m _ name
  exact lookup_headerMap m.text.headers name

end Pixie.Http
