/-
  What the bundled `http_parser` can do, as far as the wrapper sees it (`http_parser.c`).

  `http_parser` is a machine of some sixty states; the wrapper sees the callbacks it makes and the
  count that `http_parser_execute` returns.  A `Phase` is a group of its states between which the
  same callbacks can follow, and the relations below allow what the source can do in each.

  1. `Emits` — one callback made while bytes are read.  Where it is looser than one would think:
       * a header line without a colon gives its field and no value (`s_header_field` at CR or LF);
       * a value may be continued on the next line, so values follow values;
       * trailers are fields and values after the body, and only `message_complete` ends them;
       * `s_start_res` calls `message_begin` on a blank line too, and stays where it is.

  2. `zeroLength` — `http_parser_execute` with no bytes: the body that is read until the end of the
     stream is complete, and the state stays; between messages nothing happens; an error elsewhere.

  3. `Executes` — one call of `http_parser_execute`.  An error ends the call at the byte it is met
     and is kept for good; the message of an upgrade ends the call, with the rest of the buffer not
     read.

  4. `Appends` — a call that `appendBytes` makes.  It passes the length of the buffer as an `int`:
     from 2^31 bytes on that is no length, so its buffers are shorter.
-/
import Pixie.Http.Parser
import Pixie.Lib.Run

namespace Pixie.Http

open Pixie.Decimal Pixie.Run

/-- Where `http_parser` is.  `between` messages: `s_dead` and the `s_start_` states; `start`: in the
    first line or after it; `field` and `value`: a header line, or a trailer, was last reported by
    its field or its value; `body`: in a body whose end it can tell, or in the chunks of one;
    `bodyEof`: `s_body_identity_eof`; `failed`: `http_errno` is set. -/
inductive Phase
  | between
  | start
  | field (trailing : Bool)
  | value (trailing : Bool)
  | body
  | bodyEof
  | failed
deriving DecidableEq, Repr

/-- One callback made while bytes are read. -/
inductive Emits : Phase → Event → Phase → Prop
  | messageBegin : Emits .between .messageBegin .start
  | blankLine : Emits .between .messageBegin .between
  | url (data : Bytes) : Emits .start (.url data) .start
  | status (data : Bytes) : Emits .start (.status data) .start
  | firstField (data : Bytes) : Emits .start (.headerField data) (.field false)
  | firstTrailer (data : Bytes) : Emits .body (.headerField data) (.field true)
  | field (t : Bool) (data : Bytes) : Emits (.field t) (.headerField data) (.field t)
  | nextField (t : Bool) (data : Bytes) : Emits (.value t) (.headerField data) (.field t)
  | value (t : Bool) (data : Bytes) : Emits (.field t) (.headerValue data) (.value t)
  | moreValue (t : Bool) (data : Bytes) : Emits (.value t) (.headerValue data) (.value t)
  | headersComplete (ph ph' : Phase) (line : FirstLine) :
      ph = .start ∨ ph = .field false ∨ ph = .value false → ph' = .body ∨ ph' = .bodyEof →
      Emits ph (.headersComplete line) ph'
  | body (data : Bytes) : Emits .body (.body data) .body
  | bodyEof (data : Bytes) : Emits .bodyEof (.body data) .bodyEof
  | messageComplete (ph : Phase) : ph = .body ∨ ph = .field true ∨ ph = .value true →
      Emits ph .messageComplete .between

/-- `http_parser_execute` with a length of 0. -/
def zeroLength : Phase → Execute × Phase
  | .bodyEof => (⟨[.messageComplete], 0⟩, .bodyEof)
  | .between => (⟨[], 0⟩, .between)
  | .failed => (⟨[], 0⟩, .failed)
  | .start | .field _ | .value _ | .body => (⟨[], 1⟩, .failed)

/-- One call of `http_parser_execute`, on the bytes of a buffer. -/
inductive Executes : Phase → Bytes × Execute → Phase → Prop
  | read {ph ph' : Phase} {buffer : Bytes} {es : List Event} :
      ph ≠ .failed → buffer ≠ [] → Path Emits ph es ph' →
      Executes ph (buffer, ⟨es, buffer.length⟩) ph'
  | error {ph ph' : Phase} {buffer : Bytes} {es : List Event} {n : Nat} :
      ph ≠ .failed → n < buffer.length → Path Emits ph es ph' →
      Executes ph (buffer, ⟨es, n⟩) .failed
  | upgrade {ph : Phase} {buffer : Bytes} {es : List Event} {n : Nat} :
      n < buffer.length → Path Emits ph (es ++ [.messageComplete]) .between →
      Executes ph (buffer, ⟨es ++ [.messageComplete], n⟩) .between
  | failed (buffer : Bytes) : Executes .failed (buffer, ⟨[], 0⟩) .failed
  | empty (ph : Phase) : Executes ph ([], (zeroLength ph).1) (zeroLength ph).2

/-- The call that `appendBytes` makes: `(int)length` is the length of the buffer. -/
structure Appends (ph : Phase) (c : Bytes × Execute) (ph' : Phase) : Prop where
  short : c.1.length < 2 ^ 31
  executes : Executes ph c ph'

theorem executes_of_appends {ph ph' : Phase} {calls : List (Bytes × Execute)}
    (h : Path Appends ph calls ph') : Path Executes ph calls ph' := h.mono fun _ _ _ => Appends.executes

/-! ## The events of many calls -/

/-- One callback, whichever call it is made in: those of `Emits`, and the completion of a body that
    is read until the end of the stream. -/
inductive Occurs : Phase → Event → Phase → Prop
  | emits {ph ph' : Phase} {e : Event} : Emits ph e ph' → Occurs ph e ph'
  | endOfStream : Occurs .bodyEof .messageComplete .bodyEof

/-- All the callbacks of a list of calls. -/
def eventsOf (calls : List (Bytes × Execute)) : List Event := calls.flatMap fun c => c.2.events

@[simp] theorem eventsOf_nil : eventsOf [] = [] := rfl

@[simp] theorem eventsOf_cons (c : Bytes × Execute) (calls : List (Bytes × Execute)) :
    eventsOf (c :: calls) = c.2.events ++ eventsOf calls := List.flatMap_cons

theorem eventsOf_snoc (calls : List (Bytes × Execute)) (c : Bytes × Execute) :
    eventsOf (calls ++ [c]) = eventsOf calls ++ c.2.events := by
  rw [eventsOf, List.flatMap_append, List.flatMap_singleton]
  rfl

theorem occurs_of_emits {ph ph' : Phase} {es : List Event} (h : Path Emits ph es ph') :
    Path Occurs ph es ph' := h.mono fun _ _ _ => .emits

/-- The callbacks of one call follow each other as they should; the call leaves `http_parser` where
    the last of them does, or failed. -/
theorem Executes.occurs {ph ph' : Phase} {c : Bytes × Execute} (h : Executes ph c ph') :
    ∃ ph'', Path Occurs ph c.2.events ph'' ∧ (ph' = ph'' ∨ ph' = .failed) := by
  cases h with
  | read _ _ hes => exact ⟨ph', occurs_of_emits hes, .inl rfl⟩
  | @error _ ph'' _ _ _ _ _ hes => exact ⟨ph'', occurs_of_emits hes, .inr rfl⟩
  | upgrade _ hes => exact ⟨.between, occurs_of_emits hes, .inl rfl⟩
  | failed => exact ⟨.failed, .nil _, .inl rfl⟩
  | empty ph =>
    cases ph with
    | bodyEof => exact ⟨.bodyEof, .cons .endOfStream (.nil _), .inl rfl⟩
    | between => exact ⟨.between, .nil _, .inl rfl⟩
    | failed => exact ⟨.failed, .nil _, .inl rfl⟩
    | start => exact ⟨.start, .nil _, .inr rfl⟩
    | field t => exact ⟨.field t, .nil _, .inr rfl⟩
    | value t => exact ⟨.value t, .nil _, .inr rfl⟩
    | body => exact ⟨.body, .nil _, .inr rfl⟩

/-- After an error there are no more callbacks. -/
theorem Executes.silent {ph : Phase} {c : Bytes × Execute} (h : Executes .failed c ph) :
    c.2.events = [] ∧ ph = .failed := by
  cases h with
  | read hne => exact absurd rfl hne
  | error hne => exact absurd rfl hne
  | @upgrade _ _ es _ _ hes =>
    -- No callback is made from `failed`, so not the last one.
    exfalso
    cases es with
    | nil => cases hes with | cons he _ => cases he with | messageComplete _ h => simp at h
    | cons e es =>
      cases hes with
      | cons he _ =>
        cases he with
        | headersComplete _ _ _ h => simp at h
        | messageComplete _ h => simp at h
  | failed => exact ⟨rfl, rfl⟩
  | empty => exact ⟨rfl, rfl⟩

theorem failed_silent {ph : Phase} {calls : List (Bytes × Execute)}
    (h : Path Executes .failed calls ph) : eventsOf calls = [] ∧ ph = .failed := by
  induction calls with
  | nil =>
    cases h
    exact ⟨rfl, rfl⟩
  | cons c tr ih =>
    cases h with
    | cons hc htr =>
      obtain ⟨hev, rfl⟩ := hc.silent
      obtain ⟨htail, hend⟩ := ih htr
      exact ⟨by rw [eventsOf_cons, hev, htail, List.nil_append], hend⟩

/-- **The callbacks of a session** follow each other as they should. -/
theorem session_occurs {ph ph' : Phase} {calls : List (Bytes × Execute)}
    (h : Path Executes ph calls ph') :
    ∃ ph'', Path Occurs ph (eventsOf calls) ph'' ∧ (ph' = ph'' ∨ ph' = .failed) := by
  induction h with
  | nil ph => exact ⟨ph, .nil ph, .inl rfl⟩
  | @cons ph u ph' c tr hc htr ih =>
    obtain ⟨v, hfirst, rfl | rfl⟩ := hc.occurs
    · obtain ⟨w, hrest, hw⟩ := ih
      exact ⟨w, by rw [eventsOf_cons]; exact hfirst.append hrest, hw⟩
    · obtain ⟨hsilent, hend⟩ := failed_silent htr
      exact ⟨v, by rw [eventsOf_cons, hsilent, List.append_nil]; exact hfirst, .inr hend⟩

end Pixie.Http
