/-
  The state of the bundled `http_parser`, and its tables (`http_parser.h`, `http_parser.c`).

  `struct http_parser` is what stays between two calls of `http_parser_execute`: the state of the
  machine, how far a header is recognised (`header_state`, `index`), what the headers have said
  (`flags`, `content_length`), the numbers of the first line, and the error once there is one.

  The bit fields and the unsigned integers of the source are natural numbers here, and the arithmetic
  that `http_parser_execute` does on them is taken modulo their width where it is done.  The parser is
  compiled in its strict form (`HTTP_PARSER_STRICT` is 1 unless it is set).

  1. The enumerations, each with the constructors of the source in its order.
  2. The character tables: a table lists 128 characters and leaves the other 128 entries 0, which for
     `unhex` makes each byte from 128 on a hexadecimal digit 0.
  3. `struct http_parser` with `http_parser_init`, and the questions one asks of it.
  4. `parse_url_char`.
-/
import Pixie.Http.Text

namespace Pixie.Engine

open Pixie.Decimal

/-! ## Enumerations -/

/-- `enum state`. -/
inductive State
  | dead
  | startReqOrRes
  | resOrRespH
  | startRes
  | resH
  | resHT
  | resHTT
  | resHTTP
  | resFirstHttpMajor
  | resHttpMajor
  | resFirstHttpMinor
  | resHttpMinor
  | resFirstStatusCode
  | resStatusCode
  | resStatusStart
  | resStatus
  | resLineAlmostDone
  | startReq
  | reqMethod
  | reqSpacesBeforeUrl
  | reqSchema
  | reqSchemaSlash
  | reqSchemaSlashSlash
  | reqServerStart
  | reqServer
  | reqServerWithAt
  | reqPath
  | reqQueryStringStart
  | reqQueryString
  | reqFragmentStart
  | reqFragment
  | reqHttpStart
  | reqHttpH
  | reqHttpHT
  | reqHttpHTT
  | reqHttpHTTP
  | reqFirstHttpMajor
  | reqHttpMajor
  | reqFirstHttpMinor
  | reqHttpMinor
  | reqLineAlmostDone
  | headerFieldStart
  | headerField
  | headerValueStart
  | headerValue
  | headerValueLws
  | headerAlmostDone
  | chunkSizeStart
  | chunkSize
  | chunkParameters
  | chunkSizeAlmostDone
  | headersAlmostDone
  | headersDone
  | chunkData
  | chunkDataAlmostDone
  | chunkDataDone
  | bodyIdentity
  | bodyIdentityEof
  | messageDone
deriving DecidableEq, Repr

/-- `PARSING_HEADER`: the states up to `s_headers_done`. -/
def State.parsingHeader : State → Bool
  | .chunkData | .chunkDataAlmostDone | .chunkDataDone => false
  | .bodyIdentity | .bodyIdentityEof | .messageDone => false
  | _ => true

/-- `enum header_states`. -/
inductive HeaderStates
  | general
  | C
  | CO
  | CON
  | matchingConnection
  | matchingProxyConnection
  | matchingContentLength
  | matchingTransferEncoding
  | matchingUpgrade
  | connection
  | contentLength
  | transferEncoding
  | upgrade
  | matchingTransferEncodingChunked
  | matchingConnectionKeepAlive
  | matchingConnectionClose
  | transferEncodingChunked
  | connectionKeepAlive
  | connectionClose
deriving DecidableEq, Repr

/-- `enum http_errno`, but for the errors of callbacks, the pause, and those that nothing sets. -/
inductive Errno
  | ok
  | invalidEofState
  | headerOverflow
  | closedConnection
  | invalidVersion
  | invalidStatus
  | invalidMethod
  | invalidUrl
  | lfExpected
  | invalidHeaderToken
  | invalidContentLength
  | invalidChunkSize
  | invalidConstant
  | strict
deriving DecidableEq, Repr

/-- `enum http_parser_type`. -/
inductive ParserType
  | request
  | response
  | both
deriving DecidableEq, Repr

/-- `enum http_method`. -/
inductive Method
  | delete
  | get
  | head
  | post
  | put
  | connect
  | options
  | trace
  | copy
  | lock
  | mkcol
  | move
  | propfind
  | proppatch
  | search
  | unlock
  | report
  | mkactivity
  | checkout
  | merge
  | msearch
  | notify
  | subscribe
  | unsubscribe
  | patch
  | purge
deriving DecidableEq, Repr

/-- The number of a method in `HTTP_METHOD_MAP`. -/
def Method.num (m : Method) : Nat := m.ctorIdx

/-- `method_strings`. -/
def methodString (m : Method) : Bytes := (Http.methodStrings[m.num]?).getD []

/-- `enum flags`, a bit each. -/
structure Flags where
  chunked : Bool
  connectionKeepAlive : Bool
  connectionClose : Bool
  trailing : Bool
  upgrade : Bool
  skipbody : Bool
deriving DecidableEq, Repr

/-- `flags = 0`. -/
def Flags.none : Flags := ⟨false, false, false, false, false, false⟩

/-! ## Characters -/

/-- The code of an ASCII character. -/
abbrev byte (c : Char) : UInt8 := c.val.toUInt8

/-- `CR`. -/
abbrev cr : UInt8 := 13

/-- `LF`. -/
abbrev lf : UInt8 := 10

/-- `LOWER`. -/
def lower (c : UInt8) : UInt8 := c ||| 32

/-- `IS_ALPHA`. -/
def isAlpha (c : UInt8) : Bool := byte 'a' ≤ lower c && lower c ≤ byte 'z'

/-- `IS_NUM`. -/
abbrev isNum (c : UInt8) : Bool := isdigit c

/-- `IS_MARK`; 39 is the apostrophe. -/
def isMark (c : UInt8) : Bool := c ∈ ascii "-_.!~*()" || c == 39

/-- `IS_USERINFO_CHAR`. -/
def isUserinfoChar (c : UInt8) : Bool := isAlpha c || isNum c || isMark c || c ∈ ascii "%;:&=+$,"

/-- `IS_URL_CHAR`: the characters of `normal_url_char`, all that are visible but `#` and `?`. -/
def isUrlChar (c : UInt8) : Bool := 33 ≤ c && c ≤ 126 && c != byte '#' && c != byte '?'

/-- `TOKEN`: the table `tokens`, with the letters in lower case; 0 for what is in no token. -/
def token (c : UInt8) : UInt8 :=
  if byte 'A' ≤ c ∧ c ≤ byte 'Z' then c + 32 else if Http.isToken c then c else 0

/-- `unhex`; `none` is -1. -/
def unhex (c : UInt8) : Option Nat :=
  if isNum c then some (c.toNat - 48)
  else if byte 'A' ≤ c ∧ c ≤ byte 'F' then some (c.toNat - 55)
  else if byte 'a' ≤ c ∧ c ≤ byte 'f' then some (c.toNat - 87)
  else if 128 ≤ c then some 0
  else none

/-! ## The parser -/

/-- `ULLONG_MAX`. -/
abbrev ullongMax : Nat := 2 ^ 64 - 1

/-- `HTTP_MAX_HEADER_SIZE`. -/
abbrev httpMaxHeaderSize : Nat := 80 * 1024

/-- `struct http_parser`. -/
structure HttpParser where
  type : ParserType
  flags : Flags
  state : State
  headerState : HeaderStates
  index : Nat
  nread : Nat
  contentLength : Nat
  httpMajor : Nat
  httpMinor : Nat
  statusCode : Nat
  method : Method
  httpErrno : Errno
  upgrade : Bool
deriving DecidableEq, Repr

namespace HttpParser

/-- `http_parser_init`. -/
def init (t : ParserType) : HttpParser where
  type := t
  flags := .none
  state := match t with
    | .request => .startReq
    | .response => .startRes
    | .both => .startReqOrRes
  headerState := .general
  index := 0
  nread := 0
  contentLength := 0
  httpMajor := 0
  httpMinor := 0
  statusCode := 0
  method := .delete
  httpErrno := .ok
  upgrade := false

/-- `parser->state = s`. -/
def goto (p : HttpParser) (s : State) : HttpParser := { p with state := s }

/-- `parser->header_state = h`. -/
def expect (p : HttpParser) (h : HeaderStates) : HttpParser := { p with headerState := h }

/-- `SET_ERRNO`. -/
def setErrno (p : HttpParser) (e : Errno) : HttpParser := { p with httpErrno := e }

/-- What `on_headers_complete` can read. -/
def firstLine (p : HttpParser) : Http.FirstLine := ⟨p.method.num, p.statusCode, p.httpMajor, p.httpMinor⟩

/-- `http_message_needs_eof`. -/
def messageNeedsEof (p : HttpParser) : Bool :=
  if p.type = .request then false
  else if p.statusCode / 100 = 1 ∨ p.statusCode = 204 ∨ p.statusCode = 304 ∨ p.flags.skipbody then
    false
  else if p.flags.chunked ∨ p.contentLength ≠ ullongMax then false
  else true

/-- `http_should_keep_alive`. -/
def shouldKeepAlive (p : HttpParser) : Bool :=
  if p.httpMajor > 0 ∧ p.httpMinor > 0 then
    if p.flags.connectionClose then false else !p.messageNeedsEof
  else if !p.flags.connectionKeepAlive then false
  else !p.messageNeedsEof

/-- `start_state`. -/
def startState (p : HttpParser) : State := if p.type = .request then .startReq else .startRes

/-- `NEW_MESSAGE`. -/
def newMessage (p : HttpParser) : State := if p.shouldKeepAlive then p.startState else .dead

end HttpParser

/-! ## The url -/

/-- `parse_url_char`. -/
def parseUrlChar (s : State) (ch : UInt8) : State :=
  if ch = byte ' ' ∨ ch = cr ∨ ch = lf then .dead
  else if ch = 9 ∨ ch = 12 then .dead
  else match s with
  | .reqSpacesBeforeUrl =>
    if ch = byte '/' ∨ ch = byte '*' then .reqPath
    else if isAlpha ch then .reqSchema
    else .dead
  | .reqSchema =>
    if isAlpha ch then .reqSchema
    else if ch = byte ':' then .reqSchemaSlash
    else .dead
  | .reqSchemaSlash => if ch = byte '/' then .reqSchemaSlashSlash else .dead
  | .reqSchemaSlashSlash => if ch = byte '/' then .reqServerStart else .dead
  | .reqServerWithAt => if ch = byte '@' then .dead else server ch
  | .reqServerStart | .reqServer => server ch
  | .reqPath =>
    if isUrlChar ch then .reqPath
    else if ch = byte '?' then .reqQueryStringStart
    else if ch = byte '#' then .reqFragmentStart
    else .dead
  | .reqQueryStringStart | .reqQueryString =>
    if isUrlChar ch then .reqQueryString
    else if ch = byte '?' then .reqQueryString
    else if ch = byte '#' then .reqFragmentStart
    else .dead
  | .reqFragmentStart =>
    if isUrlChar ch then .reqFragment
    else if ch = byte '?' then .reqFragment
    else if ch = byte '#' then .reqFragmentStart
    else .dead
  | .reqFragment =>
    if isUrlChar ch then .reqFragment
    else if ch = byte '?' ∨ ch = byte '#' then .reqFragment
    else .dead
  | _ => .dead
where
  /-- The part that the three server states share. -/
  server (ch : UInt8) : State :=
    if ch = byte '/' then .reqPath
    else if ch = byte '?' then .reqQueryStringStart
    else if ch = byte '@' then .reqServerWithAt
    else if isUserinfoChar ch || ch = byte '[' || ch = byte ']' then .reqServer
    else .dead

end Pixie.Engine
