/-
  A message as text, and the text split again (`HTTPMessage.cpp`).

  `messageAsString` puts a first line, the headers and the body together.  Four functions decide on
  the separators and on the form of the first line, and they do not fit:
    * the form of the first line hangs on `method != 0`, and DELETE is method 0;
    * the first line of a request has no url;
    * each header ends its own line, and two ends of line follow them all: the first is the empty line
      that ends the header section, and the second stands in front of the body.

  1. **The code** — each function under its name; an `Option` is `none` where it reads a number that
     nothing has stored, or a method that is not in the table.

  2. **The rules of HTTP/1.x** — `splitText` cuts a text into first line, header lines and body;
     `readStartLine` and `readHeader` read them.

  3. `splitText_messageAsString` — what the split of a message gives.  The header map is right
     (`sameHeaders_headerLines`), the first line is right for a response and wrong for a request
     (`sameStart_iff`), and the body is never right: `not_faithful`.
-/
import Mathlib.Data.Finset.Sort
import Mathlib.Data.List.DropRight
import Pixie.Http.Assembly
import Pixie.Lib.Crlf

namespace Pixie.Http

open Pixie.Decimal Pixie.Crlf

/-! ## The code -/

/-- `_method_strings`: the strings of `HTTP_METHOD_MAP`, by their numbers. -/
def methodStrings : List Bytes :=
  ["DELETE", "GET", "HEAD", "POST", "PUT", "CONNECT", "OPTIONS", "TRACE", "COPY", "LOCK", "MKCOL",
    "MOVE", "PROPFIND", "PROPPATCH", "SEARCH", "UNLOCK", "REPORT", "MKACTIVITY", "CHECKOUT", "MERGE",
    "M-SEARCH", "NOTIFY", "SUBSCRIBE", "UNSUBSCRIBE", "PATCH", "PURGE"].map ascii

/-- `methodStringFromEnum`. -/
def methodStringFromEnum (method : Nat) : Option Bytes := methodStrings[method]?

/-- A header map in the order of a `std::map`: by name, byte by byte. -/
def inOrder (headers : MessageHeaders) : List (Bytes × Bytes) :=
  (headers.keys.sort (· ≤ ·)).map fun name => (name, (headers.lookup name).getD [])

namespace HTTPMessage

/-- `isRequest`. -/
def isRequest (m : HTTPMessage) : Option Bool := m.method.map (· != 0)

/-- `methodAsString`. -/
def methodAsString (m : HTTPMessage) : Option Bytes := m.method.bind methodStringFromEnum

/-- `firstLineAsString`. -/
def firstLineAsString (m : HTTPMessage) : Option Bytes := do
  if ← m.isRequest then
    let method ← m.methodAsString
    let major ← m.httpMajor
    let minor ← m.httpMinor
    some (method ++ ascii " HTTP/" ++ digits major ++ ascii "." ++ digits minor)
  else
    let major ← m.httpMajor
    let minor ← m.httpMinor
    let statusCode ← m.statusCode
    some (ascii "HTTP/" ++ digits major ++ ascii "." ++ digits minor ++ ascii " " ++
      digits statusCode ++ ascii " " ++ m.status)

/-- `headersAsString`. -/
def headersAsString (m : HTTPMessage) : Bytes :=
  (inOrder m.headers).flatMap fun h => h.1 ++ ascii " : " ++ h.2 ++ ascii "\r\n"

/-- `messageAsString`. -/
def messageAsString (m : HTTPMessage) : Option Bytes := do
  let firstLine ← m.firstLineAsString
  some (firstLine ++ ascii "\r\n" ++ (m.headersAsString ++ ascii "\r\n\r\n" ++ m.body))

end HTTPMessage

/-! ## The rules of HTTP/1.x -/

/-- The parts of a text. -/
structure TextParts where
  startLine : Bytes
  headerLines : List Bytes
  body : Bytes
deriving DecidableEq, Repr

/-- The first line of a text, its header lines up to the empty one, and the rest. -/
def splitText (text : Bytes) : Option TextParts := do
  let (startLine, rest) ← cutLine text
  let (headerLines, body) ← cutSection [] rest
  some ⟨startLine, headerLines, body⟩

/-- What a first line says. -/
inductive StartLine
  | request (method url : Bytes) (major minor : Nat)
  | response (major minor statusCode : Nat) (status : Bytes)
deriving DecidableEq, Repr

/-- The number at the front. -/
def readNumber (s : Bytes) : Option (Nat × Bytes) :=
  if s.takeWhile isdigit = [] then none
  else some (value (s.takeWhile isdigit), s.dropWhile isdigit)

/-- The version at the front: `HTTP/`, a number, a dot and a number. -/
def readVersion (s : Bytes) : Option ((Nat × Nat) × Bytes) := do
  let s ← s.dropPrefix? (ascii "HTTP/")
  let (major, s) ← readNumber s
  let s ← s.dropPrefix? (ascii ".")
  let (minor, s) ← readNumber s
  some ((major, minor), s)

/-- The bytes up to the first blank, at least one, and what follows the blank. -/
def readWord (s : Bytes) : Option (Bytes × Bytes) :=
  match s.takeWhile (· != 32), s.dropWhile (· != 32) with
  | w :: word, _ :: rest => some (w :: word, rest)
  | _, _ => none

/-- A version, a blank, a number, a blank and any text. -/
def readStatusLine (s : Bytes) : Option StartLine := do
  let (version, s) ← readVersion s
  let s ← s.dropPrefix? (ascii " ")
  let (statusCode, s) ← readNumber s
  let status ← s.dropPrefix? (ascii " ")
  some (.response version.1 version.2 statusCode status)

/-- Two words and a version. -/
def readRequestLine (s : Bytes) : Option StartLine := do
  let (method, s) ← readWord s
  let (url, s) ← readWord s
  let (version, s) ← readVersion s
  if s = [] then some (.request method url version.1 version.2) else none

/-- The first line of a response or of a request. -/
def readStartLine (s : Bytes) : Option StartLine :=
  (readStatusLine s).or (readRequestLine s)

/-- A blank or a tab. -/
def isBlank (c : UInt8) : Bool := c == 32 || c == 9

/-- The name before the first colon and the value behind it, without the blanks around it. -/
def readHeader (line : Bytes) : Option (Bytes × Bytes) :=
  match line.dropWhile (· != 58) with
  | [] => none
  | _ :: value => some ((line.takeWhile (· != 58)).rdropWhile isBlank, value.dropWhile isBlank)

/-! ## What is asked of the text -/

/-- A request or a response. -/
inductive Kind
  | request
  | response
deriving DecidableEq, Repr

/-- What the first line of a message of the kind should say. -/
def startLineOf (m : HTTPMessage) : Kind → Option StartLine
  | .request => do
    let method ← m.methodAsString
    let major ← m.httpMajor
    let minor ← m.httpMinor
    some (.request method m.url major minor)
  | .response => do
    let major ← m.httpMajor
    let minor ← m.httpMinor
    let statusCode ← m.statusCode
    some (.response major minor statusCode m.status)

/-- The first line reads as what it should say. -/
def SameStart (kind : Kind) (m : HTTPMessage) (line : Bytes) : Prop :=
  ∃ start, startLineOf m kind = some start ∧ readStartLine line = some start

/-- The header lines read as the header map, up to the blanks around the colons. -/
def SameHeaders (m : HTTPMessage) (lines : List Bytes) : Prop :=
  ∃ hs, lines.mapM readHeader = some hs ∧
    ∀ name, (headerMap hs).lookup name = (m.headers.lookup name).map (·.dropWhile isBlank)

/-- The text of the message, split, gives the message back. -/
def Faithful (kind : Kind) (m : HTTPMessage) : Prop :=
  ∃ text parts, m.messageAsString = some text ∧ splitText text = some parts ∧
    SameStart kind m parts.startLine ∧ SameHeaders m parts.headerLines ∧ parts.body = m.body

/-- The fields as the parser fills them in: the numbers have at most three digits; a request has a
    method of the table, a url and no status, a response has method 0, no url and a reason of one
    line. -/
structure FilledIn (kind : Kind) (m : HTTPMessage) : Prop where
  version : ∃ major minor, m.httpMajor = some major ∧ m.httpMinor = some minor ∧
    major ≤ 999 ∧ minor ≤ 999
  request : kind = .request → (∃ method < methodStrings.length, m.method = some method) ∧
    (m.url ≠ [] ∧ 32 ∉ m.url ∧ 13 ∉ m.url ∧ 10 ∉ m.url) ∧ m.statusCode = some 0 ∧ m.status = []
  response : kind = .response → m.method = some 0 ∧ m.url = [] ∧
    (∃ statusCode ≤ 999, m.statusCode = some statusCode) ∧ 13 ∉ m.status ∧ 10 ∉ m.status

/-- A byte of an HTTP token. -/
def isToken (c : UInt8) : Bool :=
  isdigit c || (65 ≤ c && c ≤ 90) || (97 ≤ c && c ≤ 122) || c ∈ ascii "!#$%&*+-.^_|~" ||
    c == 39 || c == 96

/-- Every header has a token for a name and a value of one line. -/
def WellFormedHeaders (headers : MessageHeaders) : Prop :=
  ∀ name value, headers.lookup name = some value →
    (name ≠ [] ∧ ∀ c ∈ name, isToken c = true) ∧ 13 ∉ value ∧ 10 ∉ value

/-! ## Header lines -/

/-- The header lines as they are written. -/
def headerLines (m : HTTPMessage) : List Bytes :=
  (inOrder m.headers).map fun h => h.1 ++ ascii " : " ++ h.2

theorem headersAsString_eq (m : HTTPMessage) :
    m.headersAsString = (headerLines m).flatMap (· ++ crlf) := by
  rw [headerLines, List.flatMap_map]
  rfl

/-- The list of a header map has the pairs of the map. -/
theorem mem_inOrder {headers : MessageHeaders} {name value : Bytes} :
    (name, value) ∈ inOrder headers ↔ headers.lookup name = some value := by
  unfold inOrder
  rw [List.mem_map]
  constructor
  · rintro ⟨n, hn, heq⟩
    obtain ⟨rfl, hvalue⟩ := Prod.mk.inj heq
    rw [Finset.mem_sort, Finmap.mem_keys, ← Finmap.lookup_isSome] at hn
    obtain ⟨v, hv⟩ := Option.isSome_iff_exists.mp hn
    rw [hv] at hvalue ⊢
    exact congrArg some hvalue
  · intro hvalue
    refine ⟨name, ?_, by rw [hvalue]; rfl⟩
    rw [Finset.mem_sort, Finmap.mem_keys, ← Finmap.lookup_isSome, hvalue]
    rfl

/-- No name twice. -/
theorem nodup_inOrder (headers : MessageHeaders) : ((inOrder headers).map Prod.fst).Nodup := by
  have hfst : (inOrder headers).map Prod.fst = headers.keys.sort (· ≤ ·) := by
    rw [inOrder, List.map_map]
    exact List.map_id _
  rw [hfst]
  exact Finset.sort_nodup _ _

/-- Where no name comes twice, each pair counts. -/
theorem lastValue_of_nodup {hs : List (Bytes × Bytes)} (hnodup : (hs.map Prod.fst).Nodup)
    {name value : Bytes} : lastValue hs name = some value ↔ (name, value) ∈ hs := by
  unfold lastValue
  rw [Option.map_eq_some_iff]
  constructor
  · rintro ⟨h, hfind, rfl⟩
    have hname := List.find?_some hfind
    obtain rfl := of_decide_eq_true hname
    exact List.mem_reverse.mp (List.mem_of_find?_eq_some hfind)
  · intro hmem
    obtain ⟨h, hfind⟩ : ∃ h, hs.reverse.find? (fun h => h.1 = name) = some h := by
      rw [← Option.isSome_iff_exists, List.find?_isSome]
      exact ⟨_, List.mem_reverse.mpr hmem, decide_eq_true rfl⟩
    have hname : h.1 = name := by simpa using List.find?_some hfind
    have hin : h ∈ hs := List.mem_reverse.mp (List.mem_of_find?_eq_some hfind)
    have hsame : h = (name, value) := List.inj_on_of_nodup_map hnodup hin hmem hname
    exact ⟨h, hfind, by rw [hsame]⟩

/-- What a token is not. -/
theorem not_token : isToken 58 = false ∧ isToken 32 = false ∧ isToken 9 = false ∧
    isToken 13 = false ∧ isToken 10 = false := by decide

theorem ne_of_isToken {c d : UInt8} (hc : isToken c = true) (hd : isToken d = false) : c ≠ d := by
  rintro rfl
  rw [hc] at hd
  cases hd

/-- **A header line** reads as the pair it was written from. -/
theorem readHeader_line {name : Bytes} (hne : name ≠ []) (hname : ∀ c ∈ name, isToken c = true)
    (value : Bytes) :
    readHeader (name ++ ascii " : " ++ value) = some (name, value.dropWhile isBlank) := by
  have hcolon : ∀ c ∈ name ++ [32], (c != 58) = true := by
    intro c hc
    rw [bne_iff_ne]
    rcases List.mem_append.mp hc with hc | hc
    · exact ne_of_isToken (hname c hc) not_token.1
    · rw [List.mem_singleton.mp hc]
      decide
  have hline : name ++ ascii " : " ++ value = (name ++ [32]) ++ 58 :: 32 :: value := by
    rw [List.append_assoc, List.append_assoc]
    rfl
  have hlast : (name ++ [32]).rdropWhile isBlank = name := by
    rw [List.rdropWhile_concat_pos _ _ _ (by decide), List.rdropWhile_eq_self_iff]
    intro _ hblank
    have hc := hname _ (List.getLast_mem hne)
    unfold isBlank at hblank
    rw [Bool.or_eq_true, beq_iff_eq, beq_iff_eq] at hblank
    rcases hblank with h | h
    · exact ne_of_isToken hc not_token.2.1 h
    · exact ne_of_isToken hc not_token.2.2.1 h
  unfold readHeader
  rw [hline, List.dropWhile_append_of_pos hcolon, List.takeWhile_append_of_pos hcolon]
  show some ((name ++ [32] ++ []).rdropWhile isBlank, (32 :: value).dropWhile isBlank) = _
  rw [List.append_nil, hlast]
  rfl

/-- Lines with tokens for names read as the pairs they were written from. -/
theorem readHeaders_lines : ∀ {hs : List (Bytes × Bytes)},
    (∀ h ∈ hs, h.1 ≠ [] ∧ ∀ c ∈ h.1, isToken c = true) →
    (hs.map fun h => h.1 ++ ascii " : " ++ h.2).mapM readHeader =
      some (hs.map fun h => (h.1, h.2.dropWhile isBlank)) := by
  intro hs
  induction hs with
  | nil => exact fun _ => rfl
  | cons h hs ih =>
    intro hall
    obtain ⟨hne, hname⟩ := hall h List.mem_cons_self
    rw [List.map_cons, List.mapM_cons, readHeader_line hne hname,
      ih fun x hx => hall x (List.mem_cons_of_mem h hx)]
    rfl

/-- **The header map** comes back. -/
theorem sameHeaders_headerLines {m : HTTPMessage} (h : WellFormedHeaders m.headers) :
    SameHeaders m (headerLines m) := by
  have hnames : ∀ x ∈ inOrder m.headers, x.1 ≠ [] ∧ ∀ c ∈ x.1, isToken c = true :=
    fun x hx => (h x.1 x.2 (mem_inOrder.mp hx)).1
  refine ⟨_, readHeaders_lines hnames, fun name => ?_⟩
  have hnodup : (((inOrder m.headers).map fun h => (h.1, h.2.dropWhile isBlank)).map Prod.fst).Nodup := by
    rw [List.map_map]
    exact nodup_inOrder m.headers
  rw [lookup_headerMap]
  ext value
  rw [lastValue_of_nodup hnodup, List.mem_map, Option.map_eq_some_iff]
  constructor
  · rintro ⟨⟨n, v⟩, hmem, heq⟩
    obtain ⟨rfl, rfl⟩ := Prod.mk.inj heq
    exact ⟨v, mem_inOrder.mp hmem, rfl⟩
  · rintro ⟨v, hv, rfl⟩
    exact ⟨(name, v), mem_inOrder.mpr hv, rfl⟩

/-- No header line is empty or has a CR. -/
theorem headerLines_plain {m : HTTPMessage} (h : WellFormedHeaders m.headers) :
    ∀ l ∈ headerLines m, l ≠ [] ∧ 13 ∉ l := by
  intro l hl
  obtain ⟨⟨name, value⟩, hmem, rfl⟩ := List.mem_map.mp hl
  obtain ⟨⟨hne, hname⟩, hcr, -⟩ := h name value (mem_inOrder.mp hmem)
  refine ⟨by simp [hne], fun hin => ?_⟩
  rcases List.mem_append.mp hin with hin | hin
  · rcases List.mem_append.mp hin with hin | hin
    · exact ne_of_isToken (hname 13 hin) not_token.2.2.2.1 rfl
    · revert hin
      decide
  · exact hcr hin

/-! ## First lines -/

/-- The number at the front is the one that was written there. -/
theorem readNumber_digits (n : Nat) {c : UInt8} (hc : isdigit c = false) (rest : Bytes) :
    readNumber (digits n ++ c :: rest) = some (n, c :: rest) := by
  have hall := isdigit_of_mem_digits n
  have htake : (digits n ++ c :: rest).takeWhile isdigit = digits n := by
    rw [List.takeWhile_append_of_pos hall, List.takeWhile_cons_of_neg (by rw [hc]; decide),
      List.append_nil]
  have hdrop : (digits n ++ c :: rest).dropWhile isdigit = c :: rest := by
    rw [List.dropWhile_append_of_pos hall, List.dropWhile_cons_of_neg (by rw [hc]; decide)]
  rw [readNumber, htake, hdrop, if_neg (digits_ne_nil n), value_digits]

theorem dropPrefix_append (text rest : Bytes) : (text ++ rest).dropPrefix? text = some rest :=
  List.dropPrefix?_append_of_beq rest (beq_self_eq_true text)

/-- The version of a message, as both forms of the first line write it. -/
def versionText (major minor : Nat) : Bytes :=
  ascii "HTTP/" ++ digits major ++ ascii "." ++ digits minor

theorem readVersion_versionText (major minor : Nat) {c : UInt8} (hc : isdigit c = false)
    (rest : Bytes) :
    readVersion (versionText major minor ++ c :: rest) = some ((major, minor), c :: rest) := by
  have hassoc : versionText major minor ++ c :: rest =
      ascii "HTTP/" ++ (digits major ++ 46 :: (digits minor ++ c :: rest)) := by
    simp only [versionText, List.append_assoc]
    rfl
  have hdot : (46 :: (digits minor ++ c :: rest)).dropPrefix? (ascii ".") =
      some (digits minor ++ c :: rest) := dropPrefix_append (ascii ".") _
  rw [readVersion, hassoc, dropPrefix_append]
  show (readNumber (digits major ++ _)).bind _ = _
  rw [readNumber_digits major (by decide)]
  show (List.dropPrefix? (46 :: _) (ascii ".")).bind _ = _
  rw [hdot]
  show (readNumber (digits minor ++ _)).bind _ = _
  rw [readNumber_digits minor hc]
  rfl

/-- The bytes of a version are digits and those of `HTTP/.`. -/
theorem mem_versionText {major minor : Nat} {c : UInt8} (h : c ∈ versionText major minor) :
    isdigit c = true ∨ c ∈ ascii "HTTP/." := by
  simp only [versionText, List.mem_append] at h
  rcases h with ((h | h) | h) | h
  · exact .inr (List.mem_append_left (ascii ".") h)
  · exact .inl (isdigit_of_mem_digits major c h)
  · exact .inr (List.mem_append_right (ascii "HTTP/") h)
  · exact .inl (isdigit_of_mem_digits minor c h)

theorem not_mem_versionText {c : UInt8} (hdigit : isdigit c = false) (h : c ∉ ascii "HTTP/.")
    (major minor : Nat) : c ∉ versionText major minor := by
  intro hmem
  rcases mem_versionText hmem with hc | hc
  · rw [hdigit] at hc
    cases hc
  · exact h hc

/-- The first line of a response. -/
def statusLine (major minor statusCode : Nat) (status : Bytes) : Bytes :=
  versionText major minor ++ 32 :: (digits statusCode ++ 32 :: status)

/-- **The first line of a response** reads as what it was written from. -/
theorem readStartLine_statusLine (major minor statusCode : Nat) (status : Bytes) :
    readStartLine (statusLine major minor statusCode status) =
      some (.response major minor statusCode status) := by
  have hread : readStatusLine (statusLine major minor statusCode status) =
      some (.response major minor statusCode status) := by
    have hblank : ∀ rest : Bytes, (32 :: rest).dropPrefix? (ascii " ") = some rest :=
      dropPrefix_append (ascii " ")
    rw [readStatusLine, statusLine, readVersion_versionText _ _ (by decide)]
    show (List.dropPrefix? (32 :: _) (ascii " ")).bind _ = _
    rw [hblank]
    show (readNumber (digits statusCode ++ _)).bind _ = _
    rw [readNumber_digits statusCode (by decide)]
    show (List.dropPrefix? (32 :: _) (ascii " ")).bind _ = _
    rw [hblank]
    rfl
  rw [readStartLine, hread]
  rfl

/-- A response is read where a status line is. -/
theorem readStatusLine_response {s : Bytes} {start : StartLine} (h : readStatusLine s = some start) :
    ∃ major minor statusCode status, start = .response major minor statusCode status := by
  simp only [readStatusLine, Option.bind_eq_bind, Option.bind_eq_some_iff] at h
  obtain ⟨version, -, _, -, statusCode, -, status, -, hstart⟩ := h
  exact ⟨version.1.1, version.1.2, statusCode.1, status, (Option.some.inj hstart).symm⟩

theorem bne_blank_of_not_mem {w : Bytes} (h : 32 ∉ w) : ∀ c ∈ w, (c != 32) = true := by
  intro c hc
  rw [bne_iff_ne]
  rintro rfl
  exact h hc

/-- Where there is no blank, there is no word. -/
theorem readWord_none {w : Bytes} (h : 32 ∉ w) : readWord w = none := by
  have hdrop : w.dropWhile (· != 32) = [] :=
    List.dropWhile_eq_nil_iff.mpr (bne_blank_of_not_mem h)
  rw [readWord, hdrop]
  cases w.takeWhile (· != 32) with
  | nil => rfl
  | cons c w => rfl

theorem readWord_append {w : Bytes} (hne : w ≠ []) (h : 32 ∉ w) (rest : Bytes) :
    readWord (w ++ 32 :: rest) = some (w, rest) := by
  have hall := bne_blank_of_not_mem h
  obtain ⟨c, w, rfl⟩ := List.exists_cons_of_ne_nil hne
  rw [readWord, List.takeWhile_append_of_pos hall, List.dropWhile_append_of_pos hall]
  show some (c :: w ++ [], rest) = _
  rw [List.append_nil]

/-- The first line of a request, as the code writes it. -/
def requestLine (method : Bytes) (major minor : Nat) : Bytes :=
  method ++ 32 :: versionText major minor

/-- **The first line of a request** does not read as that of any request: it has two words, not
    three. -/
theorem readStartLine_requestLine {method : Bytes} (hne : method ≠ []) (hmethod : 32 ∉ method)
    (major minor : Nat) (word url : Bytes) (major' minor' : Nat) :
    readStartLine (requestLine method major minor) ≠ some (.request word url major' minor') := by
  have hversion : 32 ∉ versionText major minor :=
    not_mem_versionText (by decide) (by decide) major minor
  have hrequest : readRequestLine (requestLine method major minor) = none := by
    rw [readRequestLine, requestLine, readWord_append hne hmethod]
    show (readWord (versionText major minor)).bind _ = _
    rw [readWord_none hversion]
    rfl
  intro h
  rw [readStartLine, hrequest, Option.or_none] at h
  obtain ⟨_, _, _, _, hstart⟩ := readStatusLine_response h
  cases hstart

/-- The names of the methods are words. -/
theorem method_word {method : Nat} (h : method < methodStrings.length) :
    ∃ word, methodStringFromEnum method = some word ∧ word ≠ [] ∧ 32 ∉ word ∧ 13 ∉ word := by
  have hwords : ∀ word ∈ methodStrings, word ≠ [] ∧ 32 ∉ word ∧ 13 ∉ word := by decide
  exact ⟨methodStrings[method], List.getElem?_eq_getElem h, hwords _ (List.getElem_mem h)⟩

/-- The first line of a message, in the form that the method selects. -/
theorem firstLineAsString_of_method {m : HTTPMessage} {method major minor statusCode : Nat}
    {word : Bytes} (hmethod : m.method = some method)
    (hword : methodStringFromEnum method = some word) (hmajor : m.httpMajor = some major)
    (hminor : m.httpMinor = some minor) (hstatus : m.statusCode = some statusCode) :
    m.firstLineAsString = some (if method = 0 then statusLine major minor statusCode m.status
      else requestLine word major minor) := by
  unfold HTTPMessage.firstLineAsString HTTPMessage.isRequest HTTPMessage.methodAsString
  rw [hmethod, hmajor, hminor, hstatus]
  show (if (method != 0) = true then _ else _) = _
  by_cases hzero : method = 0
  · rw [if_pos hzero, if_neg (by simp [hzero])]
    simp only [statusLine, versionText, List.append_assoc]
    rfl
  · rw [if_neg hzero, if_pos (by simp [hzero])]
    show ((methodStringFromEnum method).bind fun _ => _) = _
    rw [hword]
    show some _ = some _
    simp only [requestLine, versionText, List.append_assoc]
    rfl

theorem statusLine_plain (major minor statusCode : Nat) {status : Bytes} (h : 13 ∉ status) :
    13 ∉ statusLine major minor statusCode status := by
  have hversion : 13 ∉ versionText major minor :=
    not_mem_versionText (by decide) (by decide) major minor
  have hcode : 13 ∉ digits statusCode := by
    intro hmem
    have hdigit := isdigit_of_mem_digits statusCode 13 hmem
    revert hdigit
    decide
  simp [statusLine, hversion, hcode, h]

theorem requestLine_plain {method : Bytes} (h : 13 ∉ method) (major minor : Nat) :
    13 ∉ requestLine method major minor := by
  have hversion : 13 ∉ versionText major minor :=
    not_mem_versionText (by decide) (by decide) major minor
  simp [requestLine, hversion, h]

/-- **The first line** says what it should for a response, and not for a request. -/
theorem sameStart_iff {kind : Kind} {m : HTTPMessage} (h : FilledIn kind m) :
    ∃ line, m.firstLineAsString = some line ∧ 13 ∉ line ∧
      (SameStart kind m line ↔ kind = .response) := by
  obtain ⟨major, minor, hmajor, hminor, -, -⟩ := h.version
  cases kind with
  | response =>
    obtain ⟨hmethod, -, ⟨statusCode, -, hstatus⟩, hcr, -⟩ := h.response rfl
    have hline := firstLineAsString_of_method hmethod rfl hmajor hminor hstatus
    refine ⟨_, hline, statusLine_plain major minor statusCode hcr, fun _ => rfl, fun _ => ?_⟩
    refine ⟨.response major minor statusCode m.status, ?_, readStartLine_statusLine ..⟩
    rw [startLineOf, hmajor, hminor, hstatus]
    rfl
  | request =>
    obtain ⟨⟨method, hlt, hmethod⟩, -, hstatus, hreason⟩ := h.request rfl
    obtain ⟨word, hword, hne, hblank, hcr⟩ := method_word hlt
    have hline := firstLineAsString_of_method hmethod hword hmajor hminor hstatus
    have hstart : startLineOf m .request = some (.request word m.url major minor) := by
      rw [startLineOf, HTTPMessage.methodAsString, hmethod, hmajor, hminor]
      show ((methodStringFromEnum method).bind fun _ => _) = _
      rw [hword]
      rfl
    refine ⟨_, hline, ?_, fun hsame => ?_, nofun⟩
    · split
      · exact statusLine_plain major minor 0 (by rw [hreason]; exact List.not_mem_nil)
      · exact requestLine_plain hcr major minor
    · -- DELETE comes out as a response, the others as no first line at all.
      obtain ⟨start, hwanted, hread⟩ := hsame
      cases hstart.symm.trans hwanted
      split at hread
      · rw [readStartLine_statusLine] at hread
        cases hread
      · exact absurd hread (readStartLine_requestLine hne hblank major minor _ _ _ _)

/-! ## The whole text -/

/-- **The split of a message**: its first line, its header lines, and an end of line before its
    body. -/
theorem splitText_messageAsString {m : HTTPMessage} {line : Bytes}
    (hline : m.firstLineAsString = some line) (hcr : 13 ∉ line)
    (h : WellFormedHeaders m.headers) :
    ∃ text, m.messageAsString = some text ∧
      splitText text = some ⟨line, headerLines m, crlf ++ m.body⟩ := by
  refine ⟨line ++ crlf ++ ((headerLines m).flatMap (· ++ crlf) ++ (crlf ++ (crlf ++ m.body))), ?_, ?_⟩
  · rw [HTTPMessage.messageAsString, hline, headersAsString_eq]
    show some _ = some _
    simp only [List.append_assoc]
    rfl
  · rw [splitText, cutLine_line hcr]
    show (cutSection [] _).bind _ = _
    rw [cutSection_lines (headerLines_plain h)]
    rfl

/-- **The text is never faithful**: whatever the message is, the split gives a body that begins with an
    end of line that the body of the message does not have. -/
theorem not_faithful (kind : Kind) (m : HTTPMessage) (h : FilledIn kind m)
    (hheaders : WellFormedHeaders m.headers) : ¬ Faithful kind m := by
  rintro ⟨text, parts, htext, hparts, -, -, hbody⟩
  obtain ⟨line, hline, hcr, -⟩ := sameStart_iff h
  obtain ⟨text', htext', hsplit⟩ := splitText_messageAsString hline hcr hheaders
  cases htext.symm.trans htext'
  cases hparts.symm.trans hsplit
  have hlength := congrArg List.length hbody
  rw [List.length_append] at hlength
  simp [crlf] at hlength

/-- A response with one header. -/
def okMessage : HTTPMessage where
  method := some 0
  url := []
  statusCode := some 200
  status := ascii "OK"
  httpMajor := some 1
  httpMinor := some 1
  headers := headerMap [(ascii "Content-Length", ascii "2")]
  body := ascii "hi"

theorem okMessage_not_faithful : ¬ Faithful .response okMessage := by
  refine not_faithful .response okMessage ⟨⟨1, 1, rfl, rfl, by decide, by decide⟩, nofun, fun _ => ?_⟩ ?_
  · exact ⟨rfl, rfl, ⟨200, by decide, rfl⟩, by decide, by decide⟩
  · intro name value hvalue
    have hlast : lastValue [(ascii "Content-Length", ascii "2")] name = some value := by
      rw [← lookup_headerMap]
      exact hvalue
    rw [lastValue_of_nodup (by decide), List.mem_singleton] at hlast
    cases hlast
    exact ⟨⟨List.cons_ne_nil _ _, List.all_eq_true.mp (by decide)⟩, by decide, by decide⟩

/-- A request for `/index`, with a body and no headers. -/
def getIndex : HTTPMessage where
  method := some 1
  url := ascii "/index"
  statusCode := some 0
  status := []
  httpMajor := some 1
  httpMinor := some 1
  headers := ∅
  body := ascii "hi"

/-- Its url is not in its text, and there is an end of line too many before its body. -/
theorem getIndex_text :
    FilledIn .request getIndex ∧ WellFormedHeaders getIndex.headers ∧
      getIndex.messageAsString = some (ascii "GET HTTP/1.1\r\n\r\n\r\nhi") ∧
      splitText (ascii "GET HTTP/1.1\r\n\r\n\r\nhi") =
        some ⟨ascii "GET HTTP/1.1", [], ascii "\r\nhi"⟩ ∧
      readStartLine (ascii "GET HTTP/1.1") = none ∧ ¬ Faithful .request getIndex := by
  have hempty : inOrder ∅ = [] := by simp [inOrder]
  have htext : getIndex.messageAsString = some (ascii "GET HTTP/1.1\r\n\r\n\r\nhi") := by
    have hheaders : getIndex.headersAsString = [] := by
      show (inOrder ∅).flatMap _ = []
      rw [hempty]
      rfl
    rw [HTTPMessage.messageAsString, hheaders]
    decide
  have hsplit : splitText (ascii "GET HTTP/1.1\r\n\r\n\r\nhi") =
      some ⟨ascii "GET HTTP/1.1", [], ascii "\r\nhi"⟩ := by decide
  refine ⟨⟨⟨1, 1, rfl, rfl, by decide, by decide⟩, fun _ => ⟨⟨1, by decide, rfl⟩, by decide, rfl, rfl⟩,
    nofun⟩, ?_, htext, hsplit, by decide, ?_⟩
  · intro name value hvalue
    cases (Finmap.lookup_empty name).symm.trans hvalue
  · rintro ⟨text, parts, htext', hparts, -, -, hbody⟩
    cases htext'.symm.trans htext
    cases hparts.symm.trans hsplit
    revert hbody
    decide

end Pixie.Http
