/-
  Texts that `messageAsString` writes, read by `http_parser`.

  The program prints a message with a blank before the colon of each header, and a request without its
  url.  Neither is what its own parser reads: in a name a blank is no token character, and the version
  stands where the url should be.  So **no message with a header comes through** (`printed_refused`),
  and the error says why: the header, or the url before it.

    * DELETE is printed as a response, and is refused for its header too;
    * CONNECT takes any host for its url, `HTTP/1.1` as well; its line is one of HTTP/0.9, and what is
      refused is the header.
-/
import Pixie.Http.Text
import Pixie.Engine.Urls

namespace Pixie.Engine

open Pixie.Decimal Pixie.Http Pixie.Crlf

variable {p : HttpParser} {n : Nat} {m : HTTPMessage} {line : Bytes}

/-! ## Names with a blank behind them -/

/-- The classes of characters that the two modules have. -/
theorem classes (c : UInt8) : (!isToken c || token c != 0) = true ∧ (!isdigit c || isUrlChar c) = true ∧
    (!isUrlChar c || parseUrlChar .reqPath c == .reqPath) = true := by
  revert c
  exact all_bytes (by decide +kernel)

theorem isToken_token {c : UInt8} (hc : isToken c = true) : token c ≠ 0 := by
  simpa [hc] using (classes c).1

/-- A name is refused at the blank. -/
theorem name_refused {name : Bytes} (hname : name ≠ []) (htoken : ∀ c ∈ name, token c ≠ 0)
    (hroom : p.nread + n + name.length < httpMaxHeaderSize) :
    Refused (p.reach .headerFieldStart n) none (name ++ [byte ' ']) [] .invalidHeaderToken := by
  obtain ⟨c, cs, rfl⟩ := List.exists_cons_of_ne_nil hname
  rw [List.length_cons] at hroom
  have hfirst := name_first (p := p) (n := n) (htoken c List.mem_cons_self) (by omega)
  obtain ⟨i, h, hmore, -⟩ := name_more (p := p) (n := n + 1) cs (firstOfName_named c)
    (fun c hc => htoken c (List.mem_cons_of_mem _ hc)) (by omega)
  have hblank : Refused ((p.matched i h).reach .headerField (n + 1 + cs.length))
      (some (.headerField, [c] ++ cs)) [byte ' '] [] .invalidHeaderToken :=
    refused_pass (m := _) rfl (by show p.nread + _ < _; omega) rfl rfl rfl rfl
  exact hfirst.refused (hmore.refused hblank)

/-- The header lines begin with the name of a header and a blank. -/
theorem headersAsString_name (hne : m.headers ≠ ∅) : ∃ name value,
    m.headers.lookup name = some value ∧ name ++ [byte ' '] <+: m.headersAsString := by
  have hkeys : m.headers.keys.sort (· ≤ ·) ≠ [] := by
    intro hc
    refine hne (Finmap.ext_lookup fun name => ?_)
    rw [Finmap.lookup_empty, Finmap.lookup_eq_none, ← Finmap.mem_keys, ← Finset.mem_sort (· ≤ ·), hc]
    exact List.not_mem_nil
  obtain ⟨name, names, hnames⟩ := List.exists_cons_of_ne_nil hkeys
  have hmem : name ∈ m.headers := by
    rw [← Finmap.mem_keys, ← Finset.mem_sort (· ≤ ·), hnames]
    exact List.mem_cons_self
  obtain ⟨value, hvalue⟩ := Finmap.mem_iff.mp hmem
  have hline : name ++ [byte ' '] <+: name ++ ascii " : " ++ value ++ ascii "\r\n" := by
    refine ⟨ascii ": " ++ (value ++ ascii "\r\n"), ?_⟩
    simp only [List.append_assoc]
    rfl
  refine ⟨name, value, hvalue, hline.trans ?_⟩
  unfold HTTPMessage.headersAsString inOrder
  rw [hnames, List.map_cons, List.flatMap_cons, hvalue]
  exact List.prefix_append _ _

/-! ## First lines -/

/-- The methods in the order of their numbers. -/
def methods : List Method :=
  [.delete, .get, .head, .post, .put, .connect, .options, .trace, .copy, .lock, .mkcol, .move,
    .propfind, .proppatch, .search, .unlock, .report, .mkactivity, .checkout, .merge, .msearch,
    .notify, .subscribe, .unsubscribe, .patch, .purge]

theorem method_of_num {num : Nat} (h : num < methodStrings.length) : ∃ method : Method,
    method.num = num ∧ methodStringFromEnum num = some (methodString method) := by
  have hnum : methods.map Method.num = List.range 26 := by decide
  have hlength : num < methods.length := h
  obtain ⟨method, hmethod⟩ : ∃ method, methods[num]? = some method :=
    ⟨_, List.getElem?_eq_getElem hlength⟩
  have hsame : method.num = num := by
    have hget := congrArg (·[num]?) hnum
    simp only [List.getElem?_map, hmethod, Option.map_some] at hget
    exact Option.some.inj (hget.trans (List.getElem?_range h))
  refine ⟨method, hsame, ?_⟩
  rw [← hsame]
  cases method <;> rfl

theorem num_inj (method : Method) :
    (method.num = Method.delete.num → method = .delete) ∧
      (method.num = Method.connect.num → method = .connect) := by
  cases method <;> decide

theorem digits_isNumber (h : n ≤ 999) : IsNumber (digits n) where
  some_digit := digits_ne_nil n
  digits := isdigit_of_mem_digits n
  small := by
    rw [value_digits]
    exact h

/-- What stands in a first line for the version. -/
def version (major minor : Nat) : Bytes := ascii "HTTP/" ++ (digits major ++ byte '.' :: digits minor)

/-- A request without its url: the version is read as one, and ends in its scheme. -/
theorem version_refused (hmethod : p.method ≠ .connect) (hroom : p.nread + n + 4 < httpMaxHeaderSize) :
    Refused (p.reach .reqSpacesBeforeUrl n) none (ascii "HTTP/") [] .invalidUrl := by
  have hend : urlEnd p.method (ascii "HTTP") = .reqSchema := by
    unfold urlEnd urlStart
    rw [if_neg hmethod]
    decide
  have hscheme := url_whole (p := p) (n := n) (ascii "HTTP") (by decide) (by rw [hend]; decide)
    hroom.le
  rw [hend] at hscheme
  have hslash := url_char_refused (p := p) (n := n + 4) (u := ascii "HTTP") rfl
    (by decide : parseUrlChar .reqSchema (byte '/') = .dead) (by decide) hroom
  exact hscheme.refused hslash

theorem path_stays (ds : Bytes) (hds : ∀ c ∈ ds, isUrlChar c = true) :
    ds.foldl parseUrlChar .reqPath = .reqPath := by
  have hchar : ∀ c, isUrlChar c = true → parseUrlChar .reqPath c = .reqPath := fun c hc => by
    simpa [hc] using (classes c).2.2
  induction ds with
  | nil => rfl
  | cons c ds ih =>
    rw [List.foldl_cons, hchar c (hds c List.mem_cons_self)]
    exact ih fun c hc => hds c (List.mem_cons_of_mem _ hc)

/-- CONNECT takes the version for a host with a path. -/
theorem version_end (major minor : Nat) : urlEnd .connect (version major minor) = .reqPath := by
  have hdigit : ∀ c, isdigit c = true → isUrlChar c = true := fun c hc => by
    simpa [hc] using (classes c).2.1
  have hdigits : ∀ n, ∀ c ∈ digits n, isUrlChar c = true := fun n c hc =>
    hdigit c (isdigit_of_mem_digits n c hc)
  unfold urlEnd version
  rw [List.foldl_append,
    show (ascii "HTTP/").foldl parseUrlChar (urlStart .connect) = .reqPath by decide]
  refine path_stays _ fun c hc => ?_
  rcases List.mem_append.mp hc with hc | hc
  · exact hdigits major c hc
  · rcases List.mem_cons.mp hc with rfl | hc
    · decide
    · exact hdigits minor c hc

/-- So its line ends behind the url, and is one of HTTP/0.9. -/
theorem version_runs (major minor : Nat) (hmethod : p.method = .connect)
    (hroom : p.nread + n + (version major minor).length + 2 ≤ httpMaxHeaderSize) :
    Runs (p.reach .reqSpacesBeforeUrl n) none (version major minor ++ crlf) [.url (version major minor)]
      ({ p with httpMajor := 0, httpMinor := 9 }.reach .headerFieldStart
        (n + (version major minor).length + 2)) none := by
  have hend := version_end major minor
  rw [← hmethod] at hend
  have hurl := url_whole (p := p) (n := n) (version major minor) (List.cons_ne_nil _ _)
    (by rw [hend]; decide) (by omega)
  rw [hend] at hurl
  have hcr : Runs (p.reach .reqPath (n + (version major minor).length))
      (some (.url, version major minor)) [cr] [.url (version major minor)]
      ({ p with httpMajor := 0, httpMinor := 9 }.reach .reqLineAlmostDone
        (n + (version major minor).length + 1)) none :=
    runs_close (k := .url) rfl (by omega) rfl
  have hlf : Runs ({ p with httpMajor := 0, httpMinor := 9 }.reach .reqLineAlmostDone
      (n + (version major minor).length + 1)) none [lf] []
      ({ p with httpMajor := 0, httpMinor := 9 }.reach .headerFieldStart
        (n + (version major minor).length + 2)) none :=
    runs_go (o := none) rfl (by show p.nread + _ < _; omega) rfl
  exact hurl.append (hcr.append hlf)

/-- What the first line of a printed message is. -/
theorem printed_line {kind : Kind} (h : FilledIn kind m) (hline : m.firstLineAsString = some line) :
    (m.method = some Method.delete.num ∧
      ∃ l : StartLine, l.WellFormed ∧ l.isRequest = false ∧ line ++ crlf = l.text) ∨
    ∃ (method : Method) (major minor : Nat), method ≠ .delete ∧ m.method = some method.num ∧
      line = methodString method ++ ([byte ' '] ++ version major minor) := by
  obtain ⟨major, minor, hmajor, hminor, hmajor999, hminor999⟩ := h.version
  obtain ⟨num, hnum⟩ : ∃ num, m.method = some num := by
    cases kind with
    | request =>
      obtain ⟨⟨num, -, hnum⟩, -⟩ := h.request rfl
      exact ⟨num, hnum⟩
    | response => exact ⟨0, (h.response rfl).1⟩
  unfold HTTPMessage.firstLineAsString HTTPMessage.isRequest at hline
  rw [hnum, hmajor, hminor] at hline
  by_cases hzero : num = 0
  · left
    obtain ⟨code, hcode, hcode999, hstatus⟩ : ∃ code, m.statusCode = some code ∧ code ≤ 999 ∧
        IsText m.status := by
      cases kind with
      | request =>
        obtain ⟨-, -, hcode, hstatus⟩ := h.request rfl
        refine ⟨0, hcode, by decide, ?_⟩
        rw [hstatus]
        exact List.forall_mem_nil _
      | response =>
        obtain ⟨-, -, ⟨code, hcode999, hcode⟩, hcr, hlf⟩ := h.response rfl
        refine ⟨code, hcode, hcode999, fun c hc => ⟨?_, ?_⟩⟩
        · rintro rfl
          exact hcr hc
        · rintro rfl
          exact hlf hc
    subst hzero
    rw [hcode] at hline
    cases hline
    refine ⟨hnum, .response (digits major) (digits minor) (digits code) m.status,
      ⟨digits_isNumber hmajor999, digits_isNumber hminor999, digits_isNumber hcode999, hstatus⟩, rfl, ?_⟩
    unfold StartLine.text
    simp only [List.append_assoc]
    rfl
  · right
    have hsmall : num < methodStrings.length := by
      cases kind with
      | request =>
        obtain ⟨⟨num', hsmall, hnum'⟩, -⟩ := h.request rfl
        obtain rfl : num = num' := Option.some.inj (hnum.symm.trans hnum')
        exact hsmall
      | response =>
        exact absurd (Option.some.inj (hnum.symm.trans (h.response rfl).1)) hzero
    obtain ⟨method, rfl, hstring⟩ := method_of_num hsmall
    have htrue : (method.num != 0) = true := by simpa using hzero
    simp only [Option.map_some, htrue, Option.bind_eq_bind, Option.bind_some, if_true,
      HTTPMessage.methodAsString, hnum, hstring] at hline
    refine ⟨method, major, minor, fun hc => hzero (by rw [hc]; rfl), hnum, ?_⟩
    rw [← Option.some.inj hline]
    unfold version
    simp only [List.append_assoc]
    rfl

/-! ## The whole text -/

/-- The error that a printed message ends in. -/
def printedErrno (m : HTTPMessage) : Errno :=
  if m.method = some Method.delete.num ∨ m.method = some Method.connect.num then .invalidHeaderToken
  else .invalidUrl

/-- The first line and the name of a header are read to the error. -/
theorem printed_head {kind : Kind} {name : Bytes} (h : FilledIn kind m)
    (hline : m.firstLineAsString = some line) (hname : name ≠ []) (htoken : ∀ c ∈ name, token c ≠ 0)
    (hroom : line.length + 2 + name.length < httpMaxHeaderSize) :
    ∃ es, Refused (.init .both) none (line ++ crlf ++ (name ++ [byte ' '])) es (printedErrno m) ∧
      ∀ l, Event.headersComplete l ∉ es := by
  unfold printedErrno
  rcases printed_line h hline with ⟨hnum, l, hl, hresponse, htext⟩ | ⟨method, major, minor, hne, hnum, rfl⟩
  · have hlength : l.text.length = line.length + 2 := by
      rw [← htext, List.length_append]
      rfl
    obtain ⟨i, hstart⟩ := start_runs hl (init_waits l) (by show 0 + _ ≤ _; omega)
    have hrefused := name_refused (p := { (HttpParser.init .both).begins l with index := i })
      (n := l.text.length) hname htoken (by
        have hnread := (begins_fresh (p := .init .both) l).1
        show ((HttpParser.init .both).begins l).nread + _ + _ < _
        rw [hnread]
        show 0 + _ + _ < _
        omega)
    rw [if_pos (.inl hnum), htext]
    refine ⟨_, hstart.refused hrefused, ?_⟩
    cases l with
    | request => cases hresponse
    | response major minor code reason =>
      unfold StartLine.events
      split <;> simp
  · have hfive : 5 ≤ (version major minor).length := Nat.le_add_left 5 _
    rw [List.length_append, List.length_append, List.length_singleton] at hroom
    have hstart := method_start method (init_waits (.request method [] [] [])) (by show 0 + _ ≤ _; omega)
    obtain ⟨i, hblank⟩ := method_end (p := { fresh (.init .both) with type := .request })
      (n := (methodString method).length) method (by show 0 + _ < _; omega)
    by_cases hconnect : method = .connect
    · subst hconnect
      have hversion := version_runs (n := (methodString .connect).length + 1) major minor
        (p := { fresh (.init .both) with type := .request }.spelling .connect i) rfl
        (by show 0 + _ + _ + 2 ≤ _; omega)
      have hrefused := name_refused (n := (methodString .connect).length + 1 + (version major minor).length + 2)
        (p := { { fresh (.init .both) with type := .request }.spelling .connect i with
          httpMajor := 0, httpMinor := 9 }) hname htoken (by show 0 + _ + _ < _; omega)
      rw [if_pos (.inr hnum)]
      refine ⟨[.messageBegin] ++ ([] ++ ([.url (version major minor)] ++ [])), ?_, by simp⟩
      have hall := hstart.refused (hblank.refused (hversion.refused hrefused))
      simpa only [List.append_assoc] using hall
    · have hrefused := version_refused (n := (methodString method).length + 1)
        (p := { fresh (.init .both) with type := .request }.spelling method i) hconnect
        (by show 0 + _ + 4 < _; omega)
      have hnot : ¬ (m.method = some Method.delete.num ∨ m.method = some Method.connect.num) := by
        rintro (hc | hc)
        · exact hne ((num_inj method).1 (Option.some.inj (hnum.symm.trans hc)))
        · exact hconnect ((num_inj method).2 (Option.some.inj (hnum.symm.trans hc)))
      rw [if_neg hnot]
      refine ⟨[.messageBegin] ++ ([] ++ []), ?_, by simp⟩
      have hall := (hstart.refused (hblank.refused hrefused)).more
        (digits major ++ byte '.' :: digits minor ++ crlf ++ (name ++ [byte ' ']))
      unfold version
      simpa only [List.append_assoc] using hall

/-- **No message with a header comes through.**  A message that is filled in as the parser fills it in,
    printed by `messageAsString` and read by `http_parser`, ends in an error before its headers are
    complete: at the blank behind the name of its first header, or, for a request that is not DELETE
    or CONNECT, at the version that stands in place of its url. -/
theorem printed_refused (kind : Kind) (m : HTTPMessage) (line : Bytes) (h : FilledIn kind m)
    (hheaders : WellFormedHeaders m.headers) (hne : m.headers ≠ ∅) (hline : m.firstLineAsString = some line)
    (hroom : (line ++ m.headersAsString).length + 2 ≤ httpMaxHeaderSize) :
    ∃ text q ex, m.messageAsString = some text ∧ httpParserExecute (.init .both) text = some (q, ex) ∧
      q.httpErrno = printedErrno m ∧ ∀ l, Event.headersComplete l ∉ ex.events := by
  obtain ⟨name, value, hvalue, rest, hrest⟩ := headersAsString_name hne
  obtain ⟨⟨hname, htoken⟩, -⟩ := hheaders name value hvalue
  rw [← hrest, List.length_append, List.length_append, List.length_append, List.length_singleton] at hroom
  obtain ⟨es, hrefused, hes⟩ := printed_head h hline hname
    (fun c hc => isToken_token (htoken c hc)) (by omega)
  have htext : m.messageAsString = some (line ++ crlf ++ (name ++ [byte ' ']) ++
      (rest ++ ascii "\r\n\r\n" ++ m.body)) := by
    unfold HTTPMessage.messageAsString
    rw [hline, ← hrest]
    show some _ = some _
    simp only [List.append_assoc]
    rfl
  obtain ⟨q, n, hcall, he, -⟩ := refused_init (hrefused.more (rest ++ ascii "\r\n\r\n" ++ m.body)) (by simp)
  exact ⟨_, q, _, htext, hcall, he, hes⟩

/-- A request with one header, and its text. -/
def postData : HTTPMessage where
  method := some 3
  url := ascii "/"
  statusCode := some 0
  status := []
  httpMajor := some 1
  httpMinor := some 1
  headers := (∅ : MessageHeaders).insert (ascii "Content-Length") (ascii "2")
  body := ascii "hi"

theorem postData_lookup (name : Bytes) : postData.headers.lookup name =
    if name = ascii "Content-Length" then some (ascii "2") else none := by
  by_cases hname : name = ascii "Content-Length"
  · rw [if_pos hname, hname]
    exact Finmap.lookup_insert _
  · rw [if_neg hname]
    exact (Finmap.lookup_insert_of_ne _ hname).trans (Finmap.lookup_empty name)

theorem postData_headers : postData.headersAsString = ascii "Content-Length : 2\r\n" := by
  have hkeys : postData.headers.keys = {ascii "Content-Length"} := by
    ext name
    rw [Finmap.mem_keys, Finset.mem_singleton]
    exact Finmap.mem_insert.trans (or_iff_left Finmap.notMem_empty)
  unfold HTTPMessage.headersAsString inOrder
  rw [hkeys, Finset.sort_singleton, List.map_singleton, List.flatMap_singleton, postData_lookup, if_pos rfl]
  decide

theorem printed_refused_post : ∃ text q ex, postData.messageAsString = some text ∧
    httpParserExecute (.init .both) text = some (q, ex) ∧ q.httpErrno = .invalidUrl ∧
      ∀ l, Event.headersComplete l ∉ ex.events := by
  refine printed_refused .request postData (ascii "POST HTTP/1.1") ?_ ?_ ?_ ?_ ?_
  · exact ⟨⟨1, 1, rfl, rfl, by decide, by decide⟩,
      fun _ => ⟨⟨3, by decide, rfl⟩, by decide, rfl, rfl⟩, fun h => by cases h⟩
  · intro name value hvalue
    rw [postData_lookup] at hvalue
    split at hvalue
    · rename_i hname
      subst hname
      cases hvalue
      exact ⟨⟨List.cons_ne_nil _ _, List.all_eq_true.mp (by decide)⟩, by decide, by decide⟩
    · cases hvalue
  · intro hc
    have hlookup := postData_lookup (ascii "Content-Length")
    rw [hc, Finmap.lookup_empty, if_pos rfl] at hlookup
    cases hlookup
  · decide
  · rw [postData_headers]
    decide

end Pixie.Engine
