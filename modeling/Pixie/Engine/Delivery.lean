/-
  From the bytes of messages to the messages that are delivered.

  This is what the parser is for: whole messages, one after the other on a connection, arrive in
  buffers that have nothing to do with where the messages begin and end, and the delegate of a
  streaming `HTTPParser` is called once for each of them, in order, with the record of its parts.

  1. `Sent.reported` — the callbacks of a message are those of a chunked message of the wrapper, each
     string in one piece (`reported_events`).  `Sent.record` is what is delivered of it: its headers
     with the values of their last occurrence, without the last trailer.

  2. `messages_parsed`, `messages_delivered` — the machine, and the wrapper on top of it.
-/
import Pixie.Http.Trailers
import Pixie.Engine.Wrapper
import Pixie.Engine.Calls

namespace Pixie.Engine

open Pixie.Decimal Pixie.Http Pixie.Crlf

variable {p q : HttpParser} {o : Open}

/-! ## What is reported -/

/-- A header, with the blanks before its value left out. -/
def Field.pair (f : Field) : Bytes × Bytes := (f.1, f.2.dropWhile isBlank)

/-- A header line in two pieces. -/
def Field.reported (f : Field) : HeaderLine :=
  ⟨[f.1], [f.2.dropWhile isBlank], List.cons_ne_nil _ _, List.cons_ne_nil _ _⟩

/-- The strings of a first line. -/
def StartLine.reported : StartLine → List StartFragment
  | .request _ url _ _ => [.url url]
  | .response _ _ _ reason => if reason = [] then [] else [.status reason]

/-- The pieces of a body. -/
def Content.pieces : Content → List Bytes
  | .nothing => []
  | .plain data => [data]
  | .chunks cs _ _ => cs.map Chunk.data

/-- The trailers behind a body. -/
def Content.trailers : Content → List Field
  | .chunks _ _ trailers => trailers
  | _ => []

/-- A message as it is reported. -/
def Sent.reported (m : Sent) : ChunkedEvents where
  message :=
    { start := m.start.reported
      headers := m.fields.map Field.reported
      line := m.start.line
      body := m.content.pieces }
  trailers := m.content.trailers.map Field.reported

theorem fields_reported (fs : List Field) :
    (fs.map Field.reported).flatMap HeaderLine.events = fs.flatMap Field.events := by
  rw [List.flatMap_map]
  rfl

theorem start_reported (l : StartLine) :
    l.events = .messageBegin :: l.reported.map StartFragment.event := by
  cases l with
  | request => rfl
  | response major minor code reason =>
    unfold StartLine.events StartLine.reported
    dsimp only
    split <;> rfl

theorem content_reported (c : Content) :
    c.events = c.pieces.map Event.body ++ c.trailers.flatMap Field.events := by
  cases c with
  | nothing => rfl
  | plain data => rfl
  | chunks cs last trailers =>
    show _ = (cs.map Chunk.data).map Event.body ++ _
    rw [List.map_map]
    rfl

/-- **The callbacks of a message** are those that the wrapper is proved for. -/
theorem reported_events (m : Sent) : m.reported.events = m.events := by
  unfold Sent.events Sent.reported ChunkedEvents.events MessageEvents.opening
  dsimp only
  rw [fields_reported, fields_reported, start_reported, content_reported]
  simp only [List.cons_append, List.append_assoc]

/-! ## What is delivered -/

/-- The record of a message: its parts, without its last trailer. -/
def Sent.record (m : Sent) : HTTPMessage where
  method := some m.start.line.method
  url := match m.start with
    | .request _ url _ _ => url
    | .response .. => []
  statusCode := some m.start.line.statusCode
  status := match m.start with
    | .request .. => []
    | .response _ _ _ reason => reason
  httpMajor := some m.start.line.httpMajor
  httpMinor := some m.start.line.httpMinor
  headers := headerMap ((m.fields ++ m.content.trailers.dropLast).map Field.pair)
  body := m.content.pieces.flatten

theorem reported_text (fs : List Field) :
    (fs.map Field.reported).map HeaderLine.text = fs.map Field.pair := by
  rw [List.map_map]
  refine List.map_congr_left fun f _ => ?_
  show (([f.1] : List Bytes).flatten, ([f.2.dropWhile isBlank] : List Bytes).flatten) = _
  rw [List.flatten_singleton, List.flatten_singleton]
  rfl

theorem reported_record (m : Sent) : m.reported.record = m.record := by
  obtain ⟨start, fields, content⟩ := m
  have hheaders : (Sent.reported ⟨start, fields, content⟩).flushed =
      (fields ++ content.trailers.dropLast).map Field.pair := by
    unfold Sent.reported ChunkedEvents.flushed
    dsimp only
    rw [← List.map_dropLast, ← List.map_append, reported_text]
  unfold ChunkedEvents.record Sent.record
  rw [hheaders]
  cases start with
  | request method url major minor =>
    show HTTPMessage.mk _ (([StartFragment.url url] : List _).flatMap _) _ _ _ _ _ _ = _
    rw [List.flatMap_singleton]
    rfl
  | response major minor code reason =>
    by_cases hreason : reason = []
    · subst hreason
      rfl
    · unfold Sent.reported StartLine.reported
      dsimp only
      rw [if_neg hreason]
      show HTTPMessage.mk _ _ _ (([StartFragment.status reason] : List _).flatMap _) _ _ _ _ = _
      rw [List.flatMap_singleton]
      rfl

theorem Sent.text_ne (m : Sent) : m.text ≠ [] := by
  intro hc
  have hhead := (List.append_eq_nil_iff.mp hc).1
  have hsection := (List.append_eq_nil_iff.mp hhead).2
  exact List.cons_ne_nil _ _ (List.append_eq_nil_iff.mp hsection).2

/-! ## All of it -/

/-- **Messages in turn**, in one buffer: each is reported with its own callbacks, to the last byte. -/
theorem messages_parsed (request : Bool) (ms : List Sent) (hne : ms ≠ []) (hturn : InTurn request 0 ms) :
    ∃ q, httpParserExecute (.init .both) (ms.flatMap Sent.text) =
      some (q, ⟨ms.flatMap Sent.events, (ms.flatMap Sent.text).length⟩) := by
  obtain ⟨q, hruns⟩ := stream_runs ms (waits_init request) hturn
  refine ⟨q, runs_init hruns ?_⟩
  obtain ⟨m, ms, rfl⟩ := List.exists_cons_of_ne_nil hne
  rw [List.flatMap_cons]
  exact fun hc => m.text_ne (List.append_eq_nil_iff.mp hc).1

theorem bare_deliveries {p p' : HTTPParser} (h : bare p = bare p') : deliveries p = deliveries p' := by
  have hbare : ∀ p : HTTPParser, deliveries (bare p) = deliveries p := fun _ => rfl
  rw [← hbare p, h, hbare]

/-- Calls that the wrapper takes as it takes some callbacks. -/
theorem feed_ok {p r : HTTPParser} {calls : List (Bytes × Execute)} {es : List Event}
    (h : (feed p calls).map bare = (callbacks p es).map bare) (hr : callbacks p es = .ok r) :
    ∃ q, feed p calls = .ok q ∧ bare q = bare r := by
  rw [hr] at h
  cases hfeed : feed p calls with
  | error f =>
    rw [hfeed] at h
    cases h
  | ok q =>
    rw [hfeed] at h
    exact ⟨q, rfl, Except.ok.inj h⟩

/-- **Messages in turn are delivered**, in whatever buffers their bytes come: the delegate of a
    streaming parser is called once for each of them, in order, with its record. -/
theorem messages_delivered (headers parseError request : Bool) (ms : List Sent) (buffers : List Bytes)
    (hturn : InTurn request 0 ms) (hbuffers : ∀ b ∈ buffers, b ≠ [])
    (hbytes : buffers.flatten = ms.flatMap Sent.text) :
    ∃ m calls p, session (.init .both) buffers = some (m, calls) ∧ m.httpErrno = .ok ∧
      feed (HTTPParser.configured true headers true parseError) calls = .ok p ∧
        (deliveries p).map Prod.snd = ms.map Sent.record := by
  by_cases hms : ms = []
  · subst hms
    obtain rfl : buffers = [] := by
      by_contra hne
      obtain ⟨b, bs, rfl⟩ := List.exists_cons_of_ne_nil hne
      exact hbuffers b List.mem_cons_self (List.append_eq_nil_iff.mp hbytes).1
    exact ⟨_, _, _, rfl, rfl, rfl, rfl⟩
  have hne : buffers ≠ [] := by
    rintro rfl
    obtain ⟨m, ms, rfl⟩ := List.exists_cons_of_ne_nil hms
    rw [List.flatMap_cons] at hbytes
    exact m.text_ne (List.append_eq_nil_iff.mp hbytes.symm).1
  obtain ⟨m, hone⟩ := messages_parsed request ms hms hturn
  rw [← hbytes] at hone
  obtain ⟨calls, hsession, hok, hfeed⟩ := feed_cut true headers true parseError [] buffers
    (p := HTTPParser.configured true headers true parseError) rfl rfl hne hbuffers hone rfl
  obtain ⟨r, hr, -, hdel⟩ :=
    chunked_assembled (ms.map Sent.reported) (fresh_configured headers parseError)
  have hevents : (ms.map Sent.reported).flatMap ChunkedEvents.events = ms.flatMap Sent.events := by
    rw [List.flatMap_map]
    exact List.flatMap_congr fun m _ => reported_events m
  rw [hevents] at hr
  obtain ⟨q, hq, hbare⟩ := feed_ok hfeed hr
  refine ⟨m, calls, q, hsession, hok, hq, ?_⟩
  rw [bare_deliveries hbare, hdel, List.map_map]
  exact List.map_congr_left fun m _ => reported_record m

/-- Two requests on one connection, the first with a chunk and a trailer. -/
def postThenGet : List Sent :=
  [{ start := .request .post (ascii "/a?b") (ascii "1") (ascii "1")
     fields := [(ascii "Host", ascii " h"), (ascii "transfer-encoding", ascii " Chunked")]
     content :=
      .chunks [⟨ascii "5", ascii ";x", ascii "hello"⟩] ⟨ascii "0", [], []⟩
        [(ascii "Sum", ascii " 7")] },
   { start := .request .get (ascii "http://h:80/c") (ascii "1") (ascii "0")
     fields := [(ascii "Connection", ascii " keep-alive"), (ascii "Content-Length", ascii " 02")]
     content := .plain (ascii "hi") }]

/-- Their bytes one by one. -/
def oneByOne : List Bytes := (postThenGet.flatMap Sent.text).map fun c => [c]

theorem messages_delivered_two : ∃ m calls p,
    session (.init .both) oneByOne = some (m, calls) ∧ m.httpErrno = .ok ∧
      feed (HTTPParser.configured true true true true) calls = .ok p ∧
        (deliveries p).map Prod.snd = postThenGet.map Sent.record := by
  refine messages_delivered true true true postThenGet oneByOne (by decide) ?_ ?_
  · intro b hb
    obtain ⟨c, -, rfl⟩ := List.mem_map.mp hb
    exact List.cons_ne_nil c []
  · exact List.flatMap_singleton' _

end Pixie.Engine
