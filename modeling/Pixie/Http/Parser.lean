/-
  The HTTP wrapper (`HTTPParser.cpp`, `ParserContext.cpp`): the callbacks it gives to `http_parser`
  and the calls that feed it.

  1. **The parser object.**  `HTTPParser` has its three flags and options, the `ParserContext` with
     the message under construction and its four buffers, and which of its three delegates are set.
     Messages live behind pointers: `heap` holds the content of each, `allocated` counts the `new`s.
     What a delegate was called with, and what it saw there, is kept in `calls`; delegates are taken
     to leave the parser alone.

  2. **The callbacks** — one definition for each, as `http_parser` calls it.  A buffer pointer is an
     `Option`; where the source follows a NULL one, or calls a delegate that is not set, the callback
     ends in a `Fault`.

  3. **The calls.**  `http_parser_execute` is the environment: an `Execute` is what one call of it
     does, the callbacks it makes and the count it returns.  `appendBytes` and `appendEOF` take it as
     an argument.  The debug strings that `saveNameValuePair` formats and frees have no effect here.
-/
import Pixie.Http.Message

namespace Pixie.Http

open Pixie.Decimal

/-! ## The parser object -/

/-- `kHEADER_STATE_NOTHING`, `kHEADER_STATE_FIELD`, `kHEADER_STATE_VALUE`. -/
inductive HeaderState
  | nothing
  | field
  | value
deriving DecidableEq, Repr

/-- `class ParserContext`; `message` is a pointer, the buffers are pointers that may be NULL. -/
structure ParserContext where
  message : Nat
  headerState : HeaderState
  urlBuf : Option SimpleBuffer
  statusBuf : Option SimpleBuffer
  name : Option SimpleBuffer
  value : Option SimpleBuffer
deriving DecidableEq, Repr

/-- A call of a delegate: the message it is given a pointer to, with the content it has then. -/
inductive Call
  | headers (message : Nat) (seen : HTTPMessage)
  | message (message : Nat) (seen : HTTPMessage)
  | parseError
deriving DecidableEq

/-- `class HTTPParser`.  The three `CB` fields say whether the delegate has been set. -/
structure HTTPParser where
  streamMessagesOption : Bool
  headersCompleteFlag : Bool
  messageCompleteFlag : Bool
  messageData : Bytes
  parserContext : ParserContext
  lastMessage : Option Nat
  onHeadersLambdaCB : Bool
  onMessageLambdaCB : Bool
  onParseErrorLambdaCB : Bool
  heap : Nat → HTTPMessage
  allocated : Nat
  calls : List Call

/-- What stops the process in a callback. -/
inductive Fault
  | nullName
  | nullValue
  | unsetDelegate
deriving DecidableEq, Repr

namespace HTTPParser

/-- `HTTPParser::HTTPParser()`, with the context that `ParserContext::ParserContext()` makes. -/
def new : HTTPParser where
  streamMessagesOption := false
  headersCompleteFlag := false
  messageCompleteFlag := false
  messageData := []
  parserContext := ⟨0, .nothing, none, none, none, none⟩
  lastMessage := none
  onHeadersLambdaCB := false
  onMessageLambdaCB := false
  onParseErrorLambdaCB := false
  heap := fun _ => HTTPMessage.new
  allocated := 1
  calls := []

/-- `setStreamingOption`. -/
def setStreamingOption (p : HTTPParser) (streamingOption : Bool) : HTTPParser :=
  { p with streamMessagesOption := streamingOption }

/-- `onHeadersLambda`; the function it is given may be empty. -/
def onHeadersLambda (p : HTTPParser) (cbLambda : Bool) : HTTPParser :=
  { p with onHeadersLambdaCB := cbLambda }

/-- `onMessageLambda`. -/
def onMessageLambda (p : HTTPParser) (cbLambda : Bool) : HTTPParser :=
  { p with onMessageLambdaCB := cbLambda }

/-- `onParseErrorLambda`. -/
def onParseErrorLambda (p : HTTPParser) (cbLambda : Bool) : HTTPParser :=
  { p with onParseErrorLambdaCB := cbLambda }

/-- A new parser with its mode chosen and its delegates set, or not. -/
def configured (streaming headers message parseError : Bool) : HTTPParser :=
  (((new.setStreamingOption streaming).onHeadersLambda headers).onMessageLambda
    message).onParseErrorLambda parseError

/-- The content of the message under construction. -/
def building (p : HTTPParser) : HTTPMessage := p.heap p.parserContext.message

/-- A write through the pointer `parserContext.message`. -/
def updateMessage (p : HTTPParser) (f : HTTPMessage → HTTPMessage) : HTTPParser :=
  { p with heap := Function.update p.heap p.parserContext.message (f p.building) }

/-- A call of a delegate, noted. -/
def call (p : HTTPParser) (c : Call) : HTTPParser := { p with calls := p.calls ++ [c] }

/-- `finishedMessage`. -/
def finishedMessage (p : HTTPParser) : Bool := p.messageCompleteFlag

/-- `currentMessage`, followed: the message that it points to. -/
def currentMessage (p : HTTPParser) : Option HTTPMessage := p.lastMessage.map p.heap

/-- `HTTPParser::setUpNextMessage`.  It leaves `header_state` as it is. -/
def setUpNextMessage (p : HTTPParser) : HTTPParser :=
  if p.streamMessagesOption then
    { p with
      messageCompleteFlag := false
      headersCompleteFlag := false
      messageData := []
      parserContext :=
        { p.parserContext with
          message := p.allocated
          urlBuf := none
          statusBuf := none
          name := none
          value := none }
      heap := Function.update p.heap p.allocated HTTPMessage.new
      allocated := p.allocated + 1 }
  else p

end HTTPParser

/-! ## The callbacks -/

/-- `saveNameValuePair`. -/
def saveNameValuePair (p : HTTPParser) (name value : Option SimpleBuffer) :
    Except Fault HTTPParser :=
  match name, value with
  | none, _ => .error .nullName
  | some _, none => .error .nullValue
  | some n, some v => .ok (p.updateMessage fun m => { m with headers := m.headers.insert n v })

/-- `url_data_cb`. -/
def urlDataCb (p : HTTPParser) (data : Bytes) : HTTPParser :=
  let c := p.parserContext
  { p with parserContext := { c with urlBuf := some (sbAppend (c.urlBuf.getD sbCreate) data) } }

/-- `status_data_cb`. -/
def statusDataCb (p : HTTPParser) (data : Bytes) : HTTPParser :=
  let c := p.parserContext
  { p with parserContext := { c with statusBuf := some (sbAppend (c.statusBuf.getD sbCreate) data) } }

/-- The save that `header_field_data_cb` and `headers_complete_cb` make if there is a name. -/
def saveIfNamed (p : HTTPParser) : Except Fault HTTPParser :=
  if p.parserContext.name.isSome then
    saveNameValuePair p p.parserContext.name p.parserContext.value
  else .ok p

/-- `header_field_data_cb`. -/
def headerFieldDataCb (p : HTTPParser) (data : Bytes) : Except Fault HTTPParser :=
  match p.parserContext.headerState with
  | .nothing | .value => do
    let p ← saveIfNamed p
    .ok { p with
      parserContext :=
        { p.parserContext with
          name := some (sbAppend sbCreate data)
          value := none
          headerState := .field } }
  | .field =>
    match p.parserContext.name with
    | none => .error .nullName
    | some sb =>
      .ok { p with
        parserContext :=
          { p.parserContext with name := some (sbAppend sb data), headerState := .field } }

/-- `header_value_data_cb`. -/
def headerValueDataCb (p : HTTPParser) (data : Bytes) : Except Fault HTTPParser :=
  match p.parserContext.headerState with
  | .field =>
    .ok { p with
      parserContext :=
        { p.parserContext with value := some (sbAppend sbCreate data), headerState := .value } }
  | .value =>
    match p.parserContext.value with
    | none => .error .nullValue
    | some sb =>
      .ok { p with
        parserContext :=
          { p.parserContext with value := some (sbAppend sb data), headerState := .value } }
  | .nothing => .ok { p with parserContext := { p.parserContext with headerState := .value } }

/-- What `headers_complete_cb` stores in the message. -/
def storeFirstLine (p : HTTPParser) (line : FirstLine) : HTTPParser :=
  p.updateMessage fun m =>
    { m with
      statusCode := some line.statusCode
      httpMajor := some line.httpMajor
      httpMinor := some line.httpMinor
      url := p.parserContext.urlBuf.getD []
      status := p.parserContext.statusBuf.getD []
      method := some line.method }

/-- `headers_complete_cb`. -/
def headersCompleteCb (p : HTTPParser) (line : FirstLine) : Except Fault HTTPParser := do
  let p ← saveIfNamed p
  let p := storeFirstLine p line
  let p := { p with headersCompleteFlag := true, lastMessage := some p.parserContext.message }
  .ok (if p.onHeadersLambdaCB then p.call (.headers p.parserContext.message p.building) else p)

/-- `body_data_cb`. -/
def bodyDataCb (p : HTTPParser) (data : Bytes) : HTTPParser :=
  p.updateMessage fun m => { m with body := m.body ++ data }

/-- `message_complete_cb`. -/
def messageCompleteCb (p : HTTPParser) : HTTPParser :=
  let p := { p with lastMessage := some p.parserContext.message, messageCompleteFlag := true }
  let p := if p.onMessageLambdaCB then p.call (.message p.parserContext.message p.building) else p
  p.setUpNextMessage

/-! ## Events -/

/-- A callback that `http_parser` makes, with what it passes. -/
inductive Event
  | messageBegin
  | url (data : Bytes)
  | status (data : Bytes)
  | headerField (data : Bytes)
  | headerValue (data : Bytes)
  | headersComplete (line : FirstLine)
  | body (data : Bytes)
  | messageComplete
deriving DecidableEq, Repr

/-- The callback that an event makes; `message_begin_cb` does nothing. -/
def callback (p : HTTPParser) : Event → Except Fault HTTPParser
  | .messageBegin => .ok p
  | .url data => .ok (urlDataCb p data)
  | .status data => .ok (statusDataCb p data)
  | .headerField data => headerFieldDataCb p data
  | .headerValue data => headerValueDataCb p data
  | .headersComplete line => headersCompleteCb p line
  | .body data => .ok (bodyDataCb p data)
  | .messageComplete => .ok (messageCompleteCb p)

/-- The callbacks of a list of events, one after the other. -/
def callbacks (p : HTTPParser) (es : List Event) : Except Fault HTTPParser := es.foldlM callback p

@[simp] theorem callbacks_nil (p : HTTPParser) : callbacks p [] = .ok p := rfl

@[simp] theorem callbacks_cons (p : HTTPParser) (e : Event) (es : List Event) :
    callbacks p (e :: es) = (callback p e).bind fun p => callbacks p es := rfl

theorem callbacks_append (p : HTTPParser) (es fs : List Event) :
    callbacks p (es ++ fs) = (callbacks p es).bind fun p => callbacks p fs :=
  List.foldlM_append

theorem callbacks_snoc (p : HTTPParser) (es : List Event) (e : Event) :
    callbacks p (es ++ [e]) = (callbacks p es).bind fun r => callback r e := by
  rw [callbacks_append]
  congr 1
  funext r
  cases h : callback r e with
  | ok q => rw [callbacks_cons, h]; rfl
  | error k => rw [callbacks_cons, h]; rfl

/-! ## The calls -/

/-- What one call of `http_parser_execute` does. -/
structure Execute where
  events : List Event
  nparsed : Nat
deriving DecidableEq, Repr

/-- `HTTPParser::appendBytes`; the parse-error delegate is called without a look at whether it is
    set. -/
def appendBytes (p : HTTPParser) (buffer : Bytes) (r : Execute) :
    Except Fault (HTTPParser × Nat) := do
  let p ← callbacks { p with messageData := p.messageData ++ buffer } r.events
  if r.nparsed ≠ buffer.length then
    if p.onParseErrorLambdaCB then .ok (p.call .parseError, r.nparsed) else .error .unsetDelegate
  else .ok (p, r.nparsed)

/-- The buffers of a session, appended one after the other. -/
def feed (p : HTTPParser) (calls : List (Bytes × Execute)) : Except Fault HTTPParser :=
  calls.foldlM (fun p c => (appendBytes p c.1 c.2).map Prod.fst) p

/-- `HTTPParser::appendEOF`; what `http_parser_execute` returns is printed and forgotten. -/
def appendEOF (p : HTTPParser) (r : Execute) : Except Fault HTTPParser :=
  if !p.messageCompleteFlag then callbacks p r.events else .ok p

end Pixie.Http
