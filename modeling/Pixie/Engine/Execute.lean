/-
  `http_parser_execute`, in its strict form (`http_parser.c`).

  The function reads a buffer byte by byte and switches on the state for each.  What a byte does
  besides is put into macros, and the model takes them over:
    * `MARK(k)` notes where a string begins, and `CALLBACK_DATA(k)` hands over what is between the
      mark and `p`; strings that are open when the buffer ends are handed over there, and go on at
      the start of the next one;
    * `CALLBACK_NOTIFY(e)` calls a callback without data;
    * `goto reexecute_byte` switches again on the same byte, in another state;
    * in a body `p` goes to the last byte that is there of it.

  1. `pass` — one execution of the switch, one definition for each state or family of states: the
     parser after it, and the macros it comes to (`Pass`).  `none` is an assertion that fails, or a
     read behind the end of a table.

  2. `Cursor` — the local variables; `httpParserExecute` is the loop over them.

  The callbacks are those of the wrapper: all of them are set, return 0 and do not pause the parser.
-/
import Pixie.Engine.State

namespace Pixie.Engine

open Pixie.Decimal Pixie.Http

/-! ## What the switch can do -/

/-- The five marks. -/
inductive Mark
  | headerField
  | headerValue
  | url
  | body
  | status
deriving DecidableEq, Repr

/-- The callback that gets the bytes from a mark on. -/
def Mark.event : Mark → Bytes → Event
  | .headerField => .headerField
  | .headerValue => .headerValue
  | .url => .url
  | .body => .body
  | .status => .status

/-- `CALLBACK_NOTIFY`; `CALLBACK_DATA` and its form that does not advance, which differ in what an
    error returns; and `CALLBACK_DATA_` with the byte at `p` in it. -/
inductive Callback
  | notify (e : Event)
  | data (k : Mark)
  | dataThrough (k : Mark)
deriving DecidableEq, Repr

/-- How the switch is left: `break`, `goto reexecute_byte`, `return (p - data) + 1`, `goto error`. -/
inductive Exit
  | next
  | reexecute
  | leave
  | error
deriving DecidableEq, Repr

/-- One execution of the switch: a mark, `p += skip`, a callback and the way out, in this order. -/
structure Pass where
  parser : HttpParser
  mark : Option Mark := none
  skip : Nat := 0
  callback : Option Callback := none
  exit : Exit := .next
deriving DecidableEq, Repr

/-- `break`. -/
def stay (p : HttpParser) : Option Pass := some { parser := p }

/-- `parser->state = s; break`. -/
def go (p : HttpParser) (s : State) : Option Pass := stay (p.goto s)

/-- `parser->state = s; goto reexecute_byte`. -/
def again (p : HttpParser) (s : State) : Option Pass :=
  some { parser := p.goto s, exit := .reexecute }

/-- `SET_ERRNO(e); goto error`. -/
def fail (p : HttpParser) (e : Errno) : Option Pass :=
  some { parser := p.setErrno e, exit := .error }

/-- `parser->state = s; CALLBACK_DATA(k); break`. -/
def close (p : HttpParser) (s : State) (k : Mark) : Option Pass :=
  some { parser := p.goto s, callback := some (.data k) }

/-- `parser->state = s; CALLBACK_NOTIFY(e); break`. -/
def notify (p : HttpParser) (s : State) (e : Event) : Option Pass :=
  some { parser := p.goto s, callback := some (.notify e) }

/-- `parser->state = NEW_MESSAGE(); CALLBACK_NOTIFY(message_complete); break`. -/
def complete (p : HttpParser) : Option Pass := notify p p.newMessage .messageComplete

/-- `STRICT_CHECK(ch != c); parser->state = s; break`. -/
def literal (p : HttpParser) (ch c : UInt8) (s : State) : Option Pass :=
  if ch ≠ c then fail p .strict else go p s

/-! ## First lines -/

/-- A message begins: `flags = 0; content_length = ULLONG_MAX`. -/
def fresh (p : HttpParser) : HttpParser := { p with flags := .none, contentLength := ullongMax }

/-- `s_start_req_or_res`. -/
def startReqOrRes (p : HttpParser) (ch : UInt8) : Option Pass :=
  if ch = cr ∨ ch = lf then stay p
  else if ch = byte 'H' then notify (fresh p) .resOrRespH .messageBegin
  else again { fresh p with type := .request } .startReq

/-- `s_res_or_resp_H`. -/
def resOrRespH (p : HttpParser) (ch : UInt8) : Option Pass :=
  if ch = byte 'T' then go { p with type := .response } .resHT
  else if ch ≠ byte 'E' then fail p .invalidConstant
  else go { p with type := .request, method := .head, index := 2 } .reqMethod

/-- `s_start_res`. -/
def startRes (p : HttpParser) (ch : UInt8) : Option Pass :=
  if ch = byte 'H' then notify (fresh p) .resH .messageBegin
  else if ch = cr ∨ ch = lf then notify (fresh p) .startRes .messageBegin
  else fail (fresh p) .invalidConstant

/-- The digits of `s_res_http_major` and `s_req_http_major`, and of the minor versions: the version
    after one more digit. -/
def moreVersion (v : Nat) (ch : UInt8) : Nat := (v * 10 + (ch.toNat - 48)) % 2 ^ 16

/-- `s_res_first_http_major` and `s_req_first_http_major`; the smallest digit is `0` and `1`. -/
def firstHttpMajor (p : HttpParser) (ch least : UInt8) (s : State) : Option Pass :=
  if ch < least ∨ byte '9' < ch then fail p .invalidVersion
  else go { p with httpMajor := ch.toNat - 48 } s

/-- `s_res_http_major` and `s_req_http_major`. -/
def httpMajor (p : HttpParser) (ch : UInt8) (dot : State) : Option Pass :=
  if ch = byte '.' then go p dot
  else if ¬ isNum ch then fail p .invalidVersion
  else if moreVersion p.httpMajor ch > 999 then
    fail { p with httpMajor := moreVersion p.httpMajor ch } .invalidVersion
  else stay { p with httpMajor := moreVersion p.httpMajor ch }

/-- `s_res_first_http_minor` and `s_req_first_http_minor`. -/
def firstHttpMinor (p : HttpParser) (ch : UInt8) (s : State) : Option Pass :=
  if ¬ isNum ch then fail p .invalidVersion
  else go { p with httpMinor := ch.toNat - 48 } s

/-- One more digit of the minor version. -/
def httpMinor (p : HttpParser) (ch : UInt8) : Option Pass :=
  if ¬ isNum ch then fail p .invalidVersion
  else if moreVersion p.httpMinor ch > 999 then
    fail { p with httpMinor := moreVersion p.httpMinor ch } .invalidVersion
  else stay { p with httpMinor := moreVersion p.httpMinor ch }

/-- `s_res_http_minor`. -/
def resHttpMinor (p : HttpParser) (ch : UInt8) : Option Pass :=
  if ch = byte ' ' then go p .resFirstStatusCode else httpMinor p ch

/-- `s_req_http_minor`. -/
def reqHttpMinor (p : HttpParser) (ch : UInt8) : Option Pass :=
  if ch = cr then go p .reqLineAlmostDone
  else if ch = lf then go p .headerFieldStart
  else httpMinor p ch

/-- `s_res_first_status_code`. -/
def resFirstStatusCode (p : HttpParser) (ch : UInt8) : Option Pass :=
  if ¬ isNum ch then if ch = byte ' ' then stay p else fail p .invalidStatus
  else go { p with statusCode := ch.toNat - 48 } .resStatusCode

/-- `s_res_status_code`. -/
def resStatusCode (p : HttpParser) (ch : UInt8) : Option Pass :=
  if ¬ isNum ch then
    if ch = byte ' ' then go p .resStatusStart
    else if ch = cr then go p .resLineAlmostDone
    else if ch = lf then go p .headerFieldStart
    else fail p .invalidStatus
  else if moreVersion p.statusCode ch > 999 then
    fail { p with statusCode := moreVersion p.statusCode ch } .invalidStatus
  else stay { p with statusCode := moreVersion p.statusCode ch }

/-- `s_res_status_start`. -/
def resStatusStart (p : HttpParser) (ch : UInt8) : Option Pass :=
  if ch = cr then go p .resLineAlmostDone
  else if ch = lf then go p .headerFieldStart
  else some { parser := { p with state := .resStatus, index := 0 }, mark := some .status }

/-- `s_res_status`. -/
def resStatus (p : HttpParser) (ch : UInt8) : Option Pass :=
  if ch = cr then close p .resLineAlmostDone .status
  else if ch = lf then close p .headerFieldStart .status
  else stay p

/-- The method that a first letter stands for. -/
def firstMethod (ch : UInt8) : Option Method :=
  if ch = byte 'C' then some .connect
  else if ch = byte 'D' then some .delete
  else if ch = byte 'G' then some .get
  else if ch = byte 'H' then some .head
  else if ch = byte 'L' then some .lock
  else if ch = byte 'M' then some .mkcol
  else if ch = byte 'N' then some .notify
  else if ch = byte 'O' then some .options
  else if ch = byte 'P' then some .post
  else if ch = byte 'R' then some .report
  else if ch = byte 'S' then some .subscribe
  else if ch = byte 'T' then some .trace
  else if ch = byte 'U' then some .unlock
  else none

/-- `s_start_req`. -/
def startReq (p : HttpParser) (ch : UInt8) : Option Pass :=
  if ch = cr ∨ ch = lf then stay p
  else if ¬ isAlpha ch then fail (fresh p) .invalidMethod
  else match firstMethod ch with
  | some m => notify { fresh p with method := m, index := 1 } .reqMethod .messageBegin
  | none => fail { fresh p with method := .delete, index := 1 } .invalidMethod

/-- The method that it is instead, where a letter is not the next one of the method so far. -/
def otherMethod (m : Method) (index : Nat) (ch : UInt8) : Option Method :=
  if m = .connect then
    if index = 1 ∧ ch = byte 'H' then some .checkout
    else if index = 2 ∧ ch = byte 'P' then some .copy
    else none
  else if m = .mkcol then
    if index = 1 ∧ ch = byte 'O' then some .move
    else if index = 1 ∧ ch = byte 'E' then some .merge
    else if index = 1 ∧ ch = byte '-' then some .msearch
    else if index = 2 ∧ ch = byte 'A' then some .mkactivity
    else none
  else if m = .subscribe then
    if index = 1 ∧ ch = byte 'E' then some .search else none
  else if index = 1 ∧ m = .post then
    if ch = byte 'R' then some .propfind
    else if ch = byte 'U' then some .put
    else if ch = byte 'A' then some .patch
    else none
  else if index = 2 then
    if m = .put then if ch = byte 'R' then some .purge else none
    else if m = .unlock then if ch = byte 'S' then some .unsubscribe else none
    else none
  else if index = 4 ∧ m = .propfind ∧ ch = byte 'P' then some .proppatch
  else none

/-- `++parser->index`, in its eight bits. -/
def advance (p : HttpParser) : HttpParser := { p with index := (p.index + 1) % 256 }

/-- `s_req_method`; the string of a method ends in a 0. -/
def reqMethod (p : HttpParser) (ch : UInt8) : Option Pass :=
  if ch = 0 then fail p .invalidMethod
  else do
    let c ← (methodString p.method ++ [0])[p.index]?
    if ch = byte ' ' ∧ c = 0 then go (advance p) .reqSpacesBeforeUrl
    else if ch = c then stay (advance p)
    else match otherMethod p.method p.index ch with
    | some m => stay (advance { p with method := m })
    | none => fail p .invalidMethod

/-- `s_req_spaces_before_url`. -/
def reqSpacesBeforeUrl (p : HttpParser) (ch : UInt8) : Option Pass :=
  if ch = byte ' ' then stay p
  else
    let s := parseUrlChar (if p.method = .connect then .reqServerStart else p.state) ch
    if s = .dead then
      some { parser := (p.goto s).setErrno .invalidUrl, mark := some .url, exit := .error }
    else some { parser := p.goto s, mark := some .url }

/-- `s_req_schema` to `s_req_server_start`. -/
def reqSchema (p : HttpParser) (ch : UInt8) : Option Pass :=
  if ch = byte ' ' ∨ ch = cr ∨ ch = lf then fail p .invalidUrl
  else if parseUrlChar p.state ch = .dead then fail (p.goto .dead) .invalidUrl
  else go p (parseUrlChar p.state ch)

/-- `s_req_server` to `s_req_fragment`. -/
def reqUrl (p : HttpParser) (ch : UInt8) : Option Pass :=
  if ch = byte ' ' then close p .reqHttpStart .url
  else if ch = cr ∨ ch = lf then
    close { p with httpMajor := 0, httpMinor := 9 }
      (if ch = cr then .reqLineAlmostDone else .headerFieldStart) .url
  else if parseUrlChar p.state ch = .dead then fail (p.goto .dead) .invalidUrl
  else go p (parseUrlChar p.state ch)

/-- `s_req_http_start`. -/
def reqHttpStart (p : HttpParser) (ch : UInt8) : Option Pass :=
  if ch = byte 'H' then go p .reqHttpH
  else if ch = byte ' ' then stay p
  else fail p .invalidConstant

/-- `s_req_line_almost_done`. -/
def reqLineAlmostDone (p : HttpParser) (ch : UInt8) : Option Pass :=
  if ch ≠ lf then fail p .lfExpected else go p .headerFieldStart

/-! ## Headers -/

/-- What the first character of a name can begin. -/
def firstOfName (c : UInt8) : HeaderStates :=
  if c = byte 'c' then .C
  else if c = byte 'p' then .matchingProxyConnection
  else if c = byte 't' then .matchingTransferEncoding
  else if c = byte 'u' then .matchingUpgrade
  else .general

/-- `s_header_field_start`. -/
def headerFieldStart (p : HttpParser) (ch : UInt8) : Option Pass :=
  if ch = cr then go p .headersAlmostDone
  else if ch = lf then again p .headersAlmostDone
  else if token ch = 0 then fail p .invalidHeaderToken
  else some
    { parser := { p with index := 0, state := .headerField, headerState := firstOfName (token ch) }
      mark := some .headerField }

/-- One more character of a word that is matched, from its second on; the word ends in a 0. -/
def matching (p : HttpParser) (c : UInt8) (word : Bytes) (found : HeaderStates) : HttpParser :=
  let p := advance p
  if p.index > word.length ∨ (word ++ [0])[p.index]? ≠ some c then p.expect .general
  else if p.index = word.length - 1 then p.expect found
  else p

/-- One more character of a name; `c` is its token. -/
def nameToken (p : HttpParser) (ch c : UInt8) : Option HttpParser :=
  match p.headerState with
  | .general => some p
  | .C => some ((advance p).expect (if c = byte 'o' then .CO else .general))
  | .CO => some ((advance p).expect (if c = byte 'n' then .CON else .general))
  | .CON =>
    some ((advance p).expect
      (if c = byte 'n' then .matchingConnection
       else if c = byte 't' then .matchingContentLength
       else .general))
  | .matchingConnection => some (matching p c (ascii "connection") .connection)
  | .matchingProxyConnection => some (matching p c (ascii "proxy-connection") .connection)
  | .matchingContentLength => some (matching p c (ascii "content-length") .contentLength)
  | .matchingTransferEncoding => some (matching p c (ascii "transfer-encoding") .transferEncoding)
  | .matchingUpgrade => some (matching p c (ascii "upgrade") .upgrade)
  | .connection | .contentLength | .transferEncoding | .upgrade =>
    some (if ch ≠ byte ' ' then p.expect .general else p)
  | _ => none

/-- `s_header_field`. -/
def headerField (p : HttpParser) (ch : UInt8) : Option Pass :=
  if token ch ≠ 0 then do
    let p ← nameToken p ch (token ch)
    stay p
  else if ch = byte ':' then close p .headerValueStart .headerField
  else if ch = cr then close p .headerAlmostDone .headerField
  else if ch = lf then close p .headerFieldStart .headerField
  else fail p .invalidHeaderToken

/-- The first character of a value, for the header that it is the value of. -/
def firstOfValue (p : HttpParser) (ch : UInt8) : Except Errno HttpParser :=
  match p.headerState with
  | .upgrade => .ok ({ p with flags := { p.flags with upgrade := true } }.expect .general)
  | .transferEncoding =>
    .ok (p.expect (if lower ch = byte 'c' then .matchingTransferEncodingChunked else .general))
  | .contentLength =>
    if ¬ isNum ch then .error .invalidContentLength
    else .ok { p with contentLength := ch.toNat - 48 }
  | .connection =>
    .ok (p.expect
      (if lower ch = byte 'k' then .matchingConnectionKeepAlive
       else if lower ch = byte 'c' then .matchingConnectionClose
       else .general))
  | _ => .ok (p.expect .general)

/-- `s_header_value_start`. -/
def headerValueStart (p : HttpParser) (ch : UInt8) : Option Pass :=
  if ch = byte ' ' ∨ ch = 9 then stay p
  else
    let q := { p with state := .headerValue, index := 0 }
    if ch = cr then some
      { parser := (q.expect .general).goto .headerAlmostDone
        mark := some .headerValue
        callback := some (.data .headerValue) }
    else if ch = lf then some
      { parser := q.goto .headerFieldStart
        mark := some .headerValue
        callback := some (.data .headerValue) }
    else match firstOfValue q ch with
    | .ok q => some { parser := q, mark := some .headerValue }
    | .error e => some { parser := q.setErrno e, mark := some .headerValue, exit := .error }

/-- A digit of a length, decimal or hexadecimal; the product wraps before it is looked at whether it
    does. -/
def moreLength (p : HttpParser) (base digit : Nat) : Except Errno HttpParser :=
  if (ullongMax - base) / base < p.contentLength then .error .invalidContentLength
  else .ok { p with contentLength := (p.contentLength * base + digit) % 2 ^ 64 }

/-- One more character of a value; `none` is an assertion. -/
def valueChar (p : HttpParser) (ch : UInt8) : Option (Except Errno HttpParser) :=
  match p.headerState with
  | .general => some (.ok p)
  | .connection | .transferEncoding => none
  | .contentLength =>
    if ch = byte ' ' then some (.ok p)
    else if ¬ isNum ch then some (.error .invalidContentLength)
    else some (moreLength p 10 (ch.toNat - 48))
  | .matchingTransferEncodingChunked =>
    some (.ok (matching p (lower ch) (ascii "chunked") .transferEncodingChunked))
  | .matchingConnectionKeepAlive =>
    some (.ok (matching p (lower ch) (ascii "keep-alive") .connectionKeepAlive))
  | .matchingConnectionClose =>
    some (.ok (matching p (lower ch) (ascii "close") .connectionClose))
  | .transferEncodingChunked | .connectionKeepAlive | .connectionClose =>
    some (.ok (if ch ≠ byte ' ' then p.expect .general else p))
  | _ => some (.ok ((p.goto .headerValue).expect .general))

/-- `s_header_value`. -/
def headerValue (p : HttpParser) (ch : UInt8) : Option Pass :=
  if ch = cr then close p .headerAlmostDone .headerValue
  else if ch = lf then some
    { parser := p.goto .headerAlmostDone
      callback := some (.data .headerValue)
      exit := .reexecute }
  else do
    match ← valueChar p ch with
    | .ok p => stay p
    | .error e => fail p e

/-- `s_header_almost_done`. -/
def headerAlmostDone (p : HttpParser) (ch : UInt8) : Option Pass :=
  if ch ≠ lf then fail p .strict
  else
    let flags := match p.headerState with
      | .connectionKeepAlive => { p.flags with connectionKeepAlive := true }
      | .connectionClose => { p.flags with connectionClose := true }
      | .transferEncodingChunked => { p.flags with chunked := true }
      | _ => p.flags
    go { p with flags := flags } .headerValueLws

/-- `s_header_value_lws`. -/
def headerValueLws (p : HttpParser) (ch : UInt8) : Option Pass :=
  if ch = byte ' ' ∨ ch = 9 then go p .headerValueStart else again p .headerFieldStart

/-- `s_headers_almost_done`. -/
def headersAlmostDone (p : HttpParser) (ch : UInt8) : Option Pass :=
  if ch ≠ lf then fail p .strict
  else if p.flags.trailing then complete p
  else
    let q := { p with
      state := .headersDone
      upgrade := p.flags.upgrade || p.method = .connect }
    some
      { parser := q
        callback := some (.notify (.headersComplete q.firstLine))
        exit := .reexecute }

/-- `s_headers_done`. -/
def headersDone (p : HttpParser) (ch : UInt8) : Option Pass :=
  if ch ≠ lf then fail p .strict
  else
    let p := { p with nread := 0 }
    if p.upgrade then some
      { parser := p.goto p.newMessage
        callback := some (.notify .messageComplete)
        exit := .leave }
    else if p.flags.skipbody then complete p
    else if p.flags.chunked then go p .chunkSizeStart
    else if p.contentLength = 0 then complete p
    else if p.contentLength ≠ ullongMax then go p .bodyIdentity
    else if p.type = .request ∨ ¬ p.messageNeedsEof then complete p
    else go p .bodyIdentityEof

/-! ## Bodies -/

/-- `s_body_identity`; `left` is the number of bytes from `p` to the end of the buffer. -/
def bodyIdentity (p : HttpParser) (left : Nat) : Option Pass :=
  let toRead := min p.contentLength left
  if p.contentLength = 0 ∨ p.contentLength = ullongMax then none
  else
    let q := { p with contentLength := p.contentLength - toRead }
    if q.contentLength = 0 then some
      { parser := q.goto .messageDone
        mark := some .body
        skip := toRead - 1
        callback := some (.dataThrough .body)
        exit := .reexecute }
    else some { parser := q, mark := some .body, skip := toRead - 1 }

/-- `s_body_identity_eof`. -/
def bodyIdentityEof (p : HttpParser) (left : Nat) : Option Pass :=
  some { parser := p, mark := some .body, skip := left - 1 }

/-- `s_chunk_size_start`. -/
def chunkSizeStart (p : HttpParser) (ch : UInt8) : Option Pass :=
  if p.nread ≠ 1 ∨ ¬ p.flags.chunked then none
  else match unhex ch with
  | none => fail p .invalidChunkSize
  | some v => go { p with contentLength := v } .chunkSize

/-- `s_chunk_size`. -/
def chunkSize (p : HttpParser) (ch : UInt8) : Option Pass :=
  if ¬ p.flags.chunked then none
  else if ch = cr then go p .chunkSizeAlmostDone
  else match unhex ch with
  | none =>
    if ch = byte ';' ∨ ch = byte ' ' then go p .chunkParameters else fail p .invalidChunkSize
  | some v =>
    match moreLength p 16 v with
    | .ok p => stay p
    | .error e => fail p e

/-- `s_chunk_parameters`. -/
def chunkParameters (p : HttpParser) (ch : UInt8) : Option Pass :=
  if ¬ p.flags.chunked then none
  else if ch = cr then go p .chunkSizeAlmostDone
  else stay p

/-- `s_chunk_size_almost_done`. -/
def chunkSizeAlmostDone (p : HttpParser) (ch : UInt8) : Option Pass :=
  if ¬ p.flags.chunked then none
  else if ch ≠ lf then fail p .strict
  else if p.contentLength = 0 then
    go { p with nread := 0, flags := { p.flags with trailing := true } } .headerFieldStart
  else go { p with nread := 0 } .chunkData

/-- `s_chunk_data`. -/
def chunkData (p : HttpParser) (left : Nat) : Option Pass :=
  let toRead := min p.contentLength left
  if ¬ p.flags.chunked ∨ p.contentLength = 0 ∨ p.contentLength = ullongMax then none
  else
    let q := { p with contentLength := p.contentLength - toRead }
    some
      { parser := if q.contentLength = 0 then q.goto .chunkDataAlmostDone else q
        mark := some .body
        skip := toRead - 1 }

/-- `s_chunk_data_almost_done`. -/
def chunkDataAlmostDone (p : HttpParser) (ch : UInt8) : Option Pass :=
  if ¬ p.flags.chunked ∨ p.contentLength ≠ 0 then none
  else if ch ≠ cr then fail p .strict
  else close p .chunkDataDone .body

/-- `s_chunk_data_done`. -/
def chunkDataDone (p : HttpParser) (ch : UInt8) : Option Pass :=
  if ¬ p.flags.chunked then none
  else if ch ≠ lf then fail p .strict
  else go { p with nread := 0 } .chunkSizeStart

/-! ## The switch -/

/-- `switch (parser->state)`. -/
def pass (p : HttpParser) (ch : UInt8) (left : Nat) : Option Pass :=
  match p.state with
  | .dead => if ch = cr ∨ ch = lf then stay p else fail p .closedConnection
  | .startReqOrRes => startReqOrRes p ch
  | .resOrRespH => resOrRespH p ch
  | .startRes => startRes p ch
  | .resH => literal p ch (byte 'T') .resHT
  | .resHT => literal p ch (byte 'T') .resHTT
  | .resHTT => literal p ch (byte 'P') .resHTTP
  | .resHTTP => literal p ch (byte '/') .resFirstHttpMajor
  | .resFirstHttpMajor => firstHttpMajor p ch (byte '0') .resHttpMajor
  | .resHttpMajor => httpMajor p ch .resFirstHttpMinor
  | .resFirstHttpMinor => firstHttpMinor p ch .resHttpMinor
  | .resHttpMinor => resHttpMinor p ch
  | .resFirstStatusCode => resFirstStatusCode p ch
  | .resStatusCode => resStatusCode p ch
  | .resStatusStart => resStatusStart p ch
  | .resStatus => resStatus p ch
  | .resLineAlmostDone => literal p ch lf .headerFieldStart
  | .startReq => startReq p ch
  | .reqMethod => reqMethod p ch
  | .reqSpacesBeforeUrl => reqSpacesBeforeUrl p ch
  | .reqSchema | .reqSchemaSlash | .reqSchemaSlashSlash | .reqServerStart => reqSchema p ch
  | .reqServer | .reqServerWithAt | .reqPath | .reqQueryStringStart | .reqQueryString
  | .reqFragmentStart | .reqFragment => reqUrl p ch
  | .reqHttpStart => reqHttpStart p ch
  | .reqHttpH => literal p ch (byte 'T') .reqHttpHT
  | .reqHttpHT => literal p ch (byte 'T') .reqHttpHTT
  | .reqHttpHTT => literal p ch (byte 'P') .reqHttpHTTP
  | .reqHttpHTTP => literal p ch (byte '/') .reqFirstHttpMajor
  | .reqFirstHttpMajor => firstHttpMajor p ch (byte '1') .reqHttpMajor
  | .reqHttpMajor => httpMajor p ch .reqFirstHttpMinor
  | .reqFirstHttpMinor => firstHttpMinor p ch .reqHttpMinor
  | .reqHttpMinor => reqHttpMinor p ch
  | .reqLineAlmostDone => reqLineAlmostDone p ch
  | .headerFieldStart => headerFieldStart p ch
  | .headerField => headerField p ch
  | .headerValueStart => headerValueStart p ch
  | .headerValue => headerValue p ch
  | .headerValueLws => headerValueLws p ch
  | .headerAlmostDone => headerAlmostDone p ch
  | .chunkSizeStart => chunkSizeStart p ch
  | .chunkSize => chunkSize p ch
  | .chunkParameters => chunkParameters p ch
  | .chunkSizeAlmostDone => chunkSizeAlmostDone p ch
  | .headersAlmostDone => headersAlmostDone p ch
  | .headersDone => headersDone p ch
  | .chunkData => chunkData p left
  | .chunkDataAlmostDone => chunkDataAlmostDone p ch
  | .chunkDataDone => chunkDataDone p ch
  | .bodyIdentity => bodyIdentity p left
  | .bodyIdentityEof => bodyIdentityEof p left
  | .messageDone => complete p

/-! ## The loop -/

/-- The local variables of `http_parser_execute`, and the callbacks it has made. -/
structure Cursor where
  parser : HttpParser
  p : Nat
  marks : Mark → Option Nat
  events : List Event

namespace Cursor

/-- `MARK`: a mark that is set already stays. -/
def mark (x : Cursor) (k : Mark) : Cursor :=
  if (x.marks k).isNone then { x with marks := Function.update x.marks k (some x.p) } else x

/-- `CALLBACK_DATA_`: the bytes from the mark to `stop`, if there is a mark. -/
def callbackData (x : Cursor) (data : Bytes) (k : Mark) (stop : Nat) : Cursor :=
  match x.marks k with
  | none => x
  | some m =>
    { x with
      marks := Function.update x.marks k none
      events := x.events ++ [k.event ((data.drop m).take (stop - m))] }

/-- A callback. -/
def callback (x : Cursor) (data : Bytes) : Callback → Cursor
  | .notify e => { x with events := x.events ++ [e] }
  | .data k => x.callbackData data k x.p
  | .dataThrough k => x.callbackData data k (x.p + 1)

/-- What one execution of the switch does to the local variables. -/
def apply (x : Cursor) (data : Bytes) (m : Pass) : Cursor :=
  let x := { x with parser := m.parser }
  let x := match m.mark with
    | none => x
    | some k => x.mark k
  let x := { x with p := x.p + m.skip }
  match m.callback with
  | none => x
  | some c => x.callback data c

end Cursor

/-- The switch, executed again as long as it says so. -/
def switch (data : Bytes) (ch : UInt8) : Nat → Cursor → Option (Cursor × Exit)
  | 0, _ => none
  | fuel + 1, x => do
    let m ← pass x.parser ch (data.length - x.p)
    if m.exit = .reexecute then switch data ch fuel (x.apply data m)
    else some (x.apply data m, m.exit)

/-- The end of the buffer: the strings that are open are handed over. -/
def finish (data : Bytes) (x : Cursor) : Option (HttpParser × Execute) :=
  let order : List Mark := [.headerField, .headerValue, .url, .body, .status]
  if (order.filter fun k => (x.marks k).isSome).length ≤ 1 then
    let x := order.foldl (fun x k => x.callbackData data k x.p) x
    some (x.parser, ⟨x.events, data.length⟩)
  else none

/-- `++parser->nread`. -/
def count (p : HttpParser) : HttpParser :=
  if p.state.parsingHeader then { p with nread := (p.nread + 1) % 2 ^ 32 } else p

/-- The loop over the buffer.  Each round takes a byte at least, and the switch is executed four times
    at most, so the bounds are never met. -/
def loop (data : Bytes) : Nat → Cursor → Option (HttpParser × Execute)
  | 0, _ => none
  | fuel + 1, x =>
    match data[x.p]? with
    | none => finish data x
    | some ch =>
      let q := count x.parser
      if x.parser.state.parsingHeader ∧ q.nread > httpMaxHeaderSize then
        some (q.setErrno .headerOverflow, ⟨x.events, x.p⟩)
      else do
        let (x, exit) ← switch data ch 4 { x with parser := q }
        match exit with
        | .next => loop data fuel { x with p := x.p + 1 }
        | .leave => some (x.parser, ⟨x.events, x.p + 1⟩)
        | .error => some (x.parser, ⟨x.events, x.p⟩)
        | .reexecute => none

/-- The mark that is set at the start of a buffer, where a string goes on. -/
def openMark : State → Option Mark
  | .headerField => some .headerField
  | .headerValue => some .headerValue
  | .reqPath | .reqSchema | .reqSchemaSlash | .reqSchemaSlashSlash | .reqServerStart | .reqServer
  | .reqServerWithAt | .reqQueryStringStart | .reqQueryString | .reqFragmentStart
  | .reqFragment => some .url
  | .resStatus => some .status
  | _ => none

/-- The local variables at the start. -/
def Cursor.start (p : HttpParser) : Cursor where
  parser := p
  p := 0
  marks := fun k => if openMark p.state = some k then some 0 else none
  events := []

/-- A call with a length of 0. -/
def executeEof (p : HttpParser) : HttpParser × Execute :=
  match p.state with
  | .bodyIdentityEof => (p, ⟨[.messageComplete], 0⟩)
  | .dead | .startReqOrRes | .startRes | .startReq => (p, ⟨[], 0⟩)
  | _ => (p.setErrno .invalidEofState, ⟨[], 1⟩)

/-- `http_parser_execute`. -/
def httpParserExecute (p : HttpParser) (data : Bytes) : Option (HttpParser × Execute) :=
  if p.httpErrno ≠ .ok then some (p, ⟨[], 0⟩)
  else if data = [] then some (executeEof p)
  else loop data (data.length + 1) (Cursor.start p)

end Pixie.Engine
