/-
  Which urls are accepted.

  `parse_url_char` reads a url character by character, in eleven states of the big machine.  What it
  accepts is a plain language, `IsTarget`:
    * `/` or `*`, and then any visible characters;
    * letters, `://`, and an authority; for CONNECT, an authority alone.
  An authority (`IsAuthority`) is a host and what follows it: no two `@` stand together in the host,
  which ends at a `/` or a `?`, and from there on any visible characters do.

  1. `UrlRest s` — what may still come in the state `s`; `urlRest_cons` — one character of it.

  2. `endsUrl_iff` — the states in which a url may end, by the residual rule `foldl_residual`.

  3. `requestLine_iff` — **a request line is accepted if and only if its url is in the language**, and
     the error is `HPE_INVALID_URL` otherwise.
-/
import Pixie.Lib.Residual
import Pixie.Engine.Calls

namespace Pixie.Engine

open Pixie.Decimal Pixie.Http Pixie.Residual

variable {s : State} {ch : UInt8} {cs : Bytes}

/-! ## The language -/

/-- A visible character of ASCII. -/
def isVisible (c : UInt8) : Bool := 33 ≤ c && c ≤ 126

/-- A character of a host, and of what may stand before it. -/
def isHostChar (c : UInt8) : Bool := isUserinfoChar c || c == byte '[' || c == byte ']' || c == byte '@'

/-- Not one `@` after another. -/
def Apart (c d : UInt8) : Prop := ¬ (c = byte '@' ∧ d = byte '@')

/-- The rest of a host, behind the character `c` if there is one, and what follows it. -/
def HostRest (c : Option UInt8) (cs : Bytes) : Prop :=
  (c.toList ++ cs.takeWhile isHostChar).IsChain Apart ∧
    (∀ d ∈ (cs.dropWhile isHostChar).head?, d = byte '/' ∨ d = byte '?') ∧
      ∀ d ∈ cs.dropWhile isHostChar, isVisible d = true

/-- A host and what follows it. -/
def IsAuthority (cs : Bytes) : Prop := cs ≠ [] ∧ HostRest none cs

/-- The url of a request. -/
def IsTarget (m : Method) (url : Bytes) : Prop :=
  if m = .connect then IsAuthority url
  else
    (∃ c cs, url = c :: cs ∧ (c = byte '/' ∨ c = byte '*') ∧ ∀ d ∈ cs, isVisible d = true) ∨
      ∃ scheme rest, url = scheme ++ byte ':' :: byte '/' :: byte '/' :: rest ∧ scheme ≠ [] ∧
        (∀ c ∈ scheme, isAlpha c = true) ∧ IsAuthority rest

/-! ## What may still come -/

/-- What may still come of a url. -/
def UrlRest : State → Bytes → Prop
  | .reqSpacesBeforeUrl, cs =>
    (∃ c rest, cs = c :: rest ∧ (c = byte '/' ∨ c = byte '*') ∧ ∀ d ∈ rest, isVisible d = true) ∨
      ∃ scheme rest, cs = scheme ++ byte ':' :: byte '/' :: byte '/' :: rest ∧ scheme ≠ [] ∧
        (∀ c ∈ scheme, isAlpha c = true) ∧ IsAuthority rest
  | .reqSchema, cs =>
    ∃ scheme rest, cs = scheme ++ byte ':' :: byte '/' :: byte '/' :: rest ∧ (∀ c ∈ scheme, isAlpha c = true) ∧
      IsAuthority rest
  | .reqSchemaSlash, cs => ∃ rest, cs = byte '/' :: byte '/' :: rest ∧ IsAuthority rest
  | .reqSchemaSlashSlash, cs => ∃ rest, cs = byte '/' :: rest ∧ IsAuthority rest
  | .reqServerStart, cs => IsAuthority cs
  | .reqServer, cs => HostRest none cs
  | .reqServerWithAt, cs => HostRest (some (byte '@')) cs
  | .reqPath, cs | .reqQueryStringStart, cs | .reqQueryString, cs | .reqFragmentStart, cs
  | .reqFragment, cs => ∀ d ∈ cs, isVisible d = true
  | _, _ => False

/-! ## One character -/

/-- What is true of each byte. -/
theorem all_bytes {P : UInt8 → Prop} [DecidablePred P]
    (h : ((List.range 256).all fun n => decide (P (UInt8.ofNat n))) = true) (c : UInt8) : P c := by
  have hc := List.all_eq_true.mp h c.toNat (List.mem_range.mpr c.toNat_lt)
  rw [UInt8.ofNat_toNat] at hc
  exact of_decide_eq_true hc

/-- The states behind the host. -/
def State.inTail : State → Bool
  | .reqPath | .reqQueryStringStart | .reqQueryString | .reqFragmentStart | .reqFragment => true
  | _ => false

/-- The states behind the host, as a list. -/
def tailStates : List State :=
  [.reqPath, .reqQueryStringStart, .reqQueryString, .reqFragmentStart, .reqFragment]

/-- **One character in each state of a url.**  The blanks that `parse_url_char` looks at first are in none
    of the classes. -/
theorem parseUrlChar_table (c : UInt8) :
    (tailStates.all fun s =>
      if isVisible c then (parseUrlChar s c).inTail else parseUrlChar s c == .dead) = true ∧
    parseUrlChar .reqSpacesBeforeUrl c =
      (if c = byte '/' ∨ c = byte '*' then .reqPath else if isAlpha c then .reqSchema else .dead) ∧
    parseUrlChar .reqSchema c =
      (if isAlpha c then .reqSchema else if c = byte ':' then .reqSchemaSlash else .dead) ∧
    parseUrlChar .reqSchemaSlash c = (if c = byte '/' then .reqSchemaSlashSlash else .dead) ∧
    parseUrlChar .reqSchemaSlashSlash c = (if c = byte '/' then .reqServerStart else .dead) ∧
    parseUrlChar .reqServer c =
      (if isHostChar c then if c = byte '@' then .reqServerWithAt else .reqServer
      else if c = byte '/' then .reqPath
      else if c = byte '?' then .reqQueryStringStart
      else .dead) ∧
    parseUrlChar .reqServerStart c = parseUrlChar .reqServer c ∧
    parseUrlChar .reqServerWithAt c = (if c = byte '@' then .dead else parseUrlChar .reqServer c) := by
  revert c
  exact all_bytes (by decide +kernel)

theorem tail_char (hs : s.inTail = true) (c : UInt8) :
    if isVisible c then (parseUrlChar s c).inTail = true else parseUrlChar s c = .dead := by
  have hmem : s ∈ tailStates := by
    revert hs
    cases s <;> first
      | (intro hc; cases hc; done)
      | (intro _; decide)
  have hchar := List.all_eq_true.mp (parseUrlChar_table c).1 s hmem
  by_cases hc : isVisible c = true
  · rw [if_pos hc] at hchar ⊢
    exact hchar
  · rw [if_neg hc] at hchar ⊢
    exact eq_of_beq hchar

/-- The states of the machine that are not in a url. -/
def State.noUrl : State → Bool
  | .reqSpacesBeforeUrl | .reqSchema | .reqSchemaSlash | .reqSchemaSlashSlash | .reqServerStart
  | .reqServer | .reqServerWithAt | .reqPath | .reqQueryStringStart | .reqQueryString
  | .reqFragmentStart | .reqFragment => false
  | _ => true

theorem other_char (hs : s.noUrl = true) (c : UInt8) : parseUrlChar s c = .dead := by
  unfold parseUrlChar
  by_cases hblank : c = byte ' ' ∨ c = cr ∨ c = lf
  · rw [if_pos hblank]
  rw [if_neg hblank]
  by_cases hstrict : c = 9 ∨ c = 12
  · rw [if_pos hstrict]
  rw [if_neg hstrict]
  revert hs
  cases s <;> first
    | (intro hc; cases hc; done)
    | (intro _; rfl)

theorem urlRest_tail (hs : s.inTail = true) : UrlRest s cs ↔ ∀ d ∈ cs, isVisible d = true := by
  revert hs
  cases s <;> first
    | (intro _; rfl)
    | (intro hc; cases hc)

/-! ## Hosts -/

theorem hostRest_host (o : Option UInt8) {c : UInt8} (hc : isHostChar c = true) :
    HostRest o (c :: cs) ↔ (∀ d ∈ o, Apart d c) ∧ HostRest (some c) cs := by
  unfold HostRest
  rw [List.takeWhile_cons_of_pos hc, List.dropWhile_cons_of_pos hc]
  cases o with
  | none => simp
  | some d => simp [List.isChain_cons_cons, and_assoc]

theorem hostRest_some {c : UInt8} (hc : c ≠ byte '@') : HostRest (some c) cs ↔ HostRest none cs := by
  unfold HostRest
  have hapart : ∀ d ∈ (cs.takeWhile isHostChar).head?, Apart c d := fun _ _ h => hc h.1
  rw [show (some c).toList ++ cs.takeWhile isHostChar = c :: cs.takeWhile isHostChar from rfl,
    List.isChain_cons, and_iff_right hapart]
  rfl

theorem hostRest_end (o : Option UInt8) {c : UInt8} (hc : isHostChar c = false) :
    HostRest o (c :: cs) ↔ (c = byte '/' ∨ c = byte '?') ∧ ∀ d ∈ cs, isVisible d = true := by
  have hvisible : c = byte '/' ∨ c = byte '?' → isVisible c = true := by
    rintro (rfl | rfl) <;> decide
  unfold HostRest
  rw [List.takeWhile_cons_of_neg (by simp [hc]), List.dropWhile_cons_of_neg (by simp [hc])]
  cases o <;> simp <;> tauto

/-- One character of a host, or the first one behind it. -/
theorem urlRest_server (o : Option UInt8) (c : UInt8) (ho : ∀ d ∈ o, Apart d c) :
    HostRest o (c :: cs) ↔ UrlRest (parseUrlChar .reqServer c) cs := by
  obtain ⟨-, -, -, -, -, hserver, -⟩ := parseUrlChar_table c
  rw [hserver]
  by_cases hhost : isHostChar c = true
  · rw [if_pos hhost, hostRest_host o hhost, and_iff_right ho]
    by_cases hat : c = byte '@'
    · rw [if_pos hat, hat]
      rfl
    · rw [if_neg hat, hostRest_some hat]
      rfl
  · rw [if_neg hhost, hostRest_end o (Bool.not_eq_true _ ▸ hhost)]
    by_cases hslash : c = byte '/'
    · rw [if_pos hslash]
      exact and_iff_right (.inl hslash)
    rw [if_neg hslash]
    by_cases hquery : c = byte '?'
    · rw [if_pos hquery]
      exact and_iff_right (.inr hquery)
    · rw [if_neg hquery]
      exact iff_of_false (fun h => (not_or.mpr ⟨hslash, hquery⟩) h.1) id

/-! ## Schemes -/

/-- A scheme with what follows it, if there is one. -/
theorem scheme_cons (c : UInt8) : UrlRest .reqSchema (c :: cs) ↔
    UrlRest (if isAlpha c then .reqSchema else if c = byte ':' then .reqSchemaSlash else .dead) cs := by
  constructor
  · rintro ⟨scheme, rest, heq, halpha, hrest⟩
    cases scheme with
    | nil =>
      obtain ⟨rfl, rfl⟩ := List.cons.inj heq
      rw [if_neg (by decide), if_pos rfl]
      exact ⟨rest, rfl, hrest⟩
    | cons d scheme =>
      obtain ⟨rfl, rfl⟩ := List.cons.inj heq
      rw [if_pos (halpha c List.mem_cons_self)]
      exact ⟨scheme, rest, rfl, fun d hd => halpha d (List.mem_cons_of_mem _ hd), hrest⟩
  · intro h
    by_cases hc : isAlpha c = true
    · rw [if_pos hc] at h
      obtain ⟨scheme, rest, rfl, halpha, hrest⟩ := h
      exact ⟨c :: scheme, rest, rfl, List.forall_mem_cons.mpr ⟨hc, halpha⟩, hrest⟩
    rw [if_neg hc] at h
    by_cases hc' : c = byte ':'
    · rw [if_pos hc'] at h
      obtain ⟨rest, rfl, hrest⟩ := h
      exact ⟨[], rest, by rw [hc']; rfl, fun d hd => (List.not_mem_nil hd).elim, hrest⟩
    · rw [if_neg hc'] at h
      exact h.elim

/-- The first character of a url. -/
theorem spaces_cons (c : UInt8) : UrlRest .reqSpacesBeforeUrl (c :: cs) ↔
    UrlRest (if c = byte '/' ∨ c = byte '*' then .reqPath else if isAlpha c then .reqSchema else .dead)
      cs := by
  have hnot : c = byte '/' ∨ c = byte '*' → isAlpha c = false := by
    rintro (rfl | rfl) <;> decide
  constructor
  · rintro (⟨d, rest, heq, hd, hvisible⟩ | ⟨scheme, rest, heq, hne, halpha, hrest⟩)
    · obtain ⟨rfl, rfl⟩ := List.cons.inj heq
      rw [if_pos hd]
      exact hvisible
    · obtain ⟨d, scheme, rfl⟩ := List.exists_cons_of_ne_nil hne
      obtain ⟨rfl, rfl⟩ := List.cons.inj heq
      have hc : isAlpha c = true := halpha c List.mem_cons_self
      rw [if_neg (fun h => by rw [hnot h] at hc; cases hc), if_pos hc]
      exact ⟨scheme, rest, rfl, fun d hd => halpha d (List.mem_cons_of_mem _ hd), hrest⟩
  · intro h
    by_cases hc : c = byte '/' ∨ c = byte '*'
    · rw [if_pos hc] at h
      exact .inl ⟨c, cs, rfl, hc, h⟩
    rw [if_neg hc] at h
    by_cases hc' : isAlpha c = true
    · rw [if_pos hc'] at h
      obtain ⟨scheme, rest, rfl, halpha, hrest⟩ := h
      exact .inr ⟨c :: scheme, rest, rfl, List.cons_ne_nil _ _, List.forall_mem_cons.mpr ⟨hc', halpha⟩, hrest⟩
    · rw [if_neg hc'] at h
      exact h.elim

theorem slash_cons (c : UInt8) :
    (UrlRest .reqSchemaSlash (c :: cs) ↔
      UrlRest (if c = byte '/' then .reqSchemaSlashSlash else .dead) cs) ∧
    (UrlRest .reqSchemaSlashSlash (c :: cs) ↔
      UrlRest (if c = byte '/' then .reqServerStart else .dead) cs) := by
  by_cases hc : c = byte '/'
  · subst hc
    refine ⟨⟨?_, ?_⟩, ⟨?_, ?_⟩⟩
    · rintro ⟨rest, heq, hrest⟩
      exact ⟨rest, (List.cons.inj heq).2, hrest⟩
    · rintro ⟨rest, rfl, hrest⟩
      exact ⟨rest, rfl, hrest⟩
    · rintro ⟨rest, heq, hrest⟩
      obtain ⟨-, rfl⟩ := List.cons.inj heq
      exact hrest
    · exact fun hrest => ⟨cs, rfl, hrest⟩
  · rw [if_neg hc]
    constructor
    · exact iff_of_false (fun ⟨_, heq, _⟩ => hc (List.cons.inj heq).1) id
    · rw [if_neg hc]
      exact iff_of_false (fun ⟨_, heq, _⟩ => hc (List.cons.inj heq).1) id

/-! ## All states -/

theorem tail_cons (hs : s.inTail = true) (c : UInt8) :
    UrlRest s (c :: cs) ↔ UrlRest (parseUrlChar s c) cs := by
  have hchar := tail_char hs c
  rw [urlRest_tail hs, List.forall_mem_cons]
  by_cases hc : isVisible c = true
  · rw [if_pos hc] at hchar
    rw [and_iff_right hc, urlRest_tail hchar]
  · rw [if_neg hc] at hchar
    rw [hchar]
    exact iff_of_false (fun h => hc h.1) id

/-- **One character** leads from what may come in a state to what may come in the next. -/
theorem urlRest_cons (s : State) (c : UInt8) (cs : Bytes) :
    UrlRest s (c :: cs) ↔ UrlRest (parseUrlChar s c) cs := by
  obtain ⟨-, hspaces, hschema, hslash, hslash', -, hstart, hat⟩ := parseUrlChar_table c
  have hnone : ∀ d ∈ (none : Option UInt8), Apart d c := fun d hd => by cases hd
  cases s with
  | reqSpacesBeforeUrl => rw [hspaces, spaces_cons]
  | reqSchema => rw [hschema, scheme_cons]
  | reqSchemaSlash => rw [hslash, (slash_cons c).1]
  | reqSchemaSlashSlash => rw [hslash', (slash_cons c).2]
  | reqServerStart =>
    rw [hstart, ← urlRest_server none c hnone]
    exact and_iff_right (List.cons_ne_nil c cs)
  | reqServer => exact urlRest_server none c hnone
  | reqServerWithAt =>
    rw [hat]
    by_cases hc : c = byte '@'
    · rw [if_pos hc]
      show HostRest _ _ ↔ False
      rw [hostRest_host _ (by rw [hc]; decide)]
      exact iff_of_false (fun h => h.1 _ rfl ⟨rfl, hc⟩) id
    · rw [if_neg hc]
      refine urlRest_server _ c ?_
      rintro d -
      exact fun h => hc h.2
  | reqPath => exact tail_cons rfl c
  | reqQueryStringStart => exact tail_cons rfl c
  | reqQueryString => exact tail_cons rfl c
  | reqFragmentStart => exact tail_cons rfl c
  | reqFragment => exact tail_cons rfl c
  | _ =>
    rw [other_char rfl c]
    exact Iff.rfl

/-- Where a url may end, nothing more needs to come. -/
theorem urlRest_nil (s : State) : UrlRest s [] ↔ s.endsUrl = true := by
  have hhost : ∀ o, HostRest o [] := fun o => by
    refine ⟨?_, fun d hd => (Option.not_mem_none d hd).elim, List.forall_mem_nil _⟩
    cases o with
    | none => exact .nil
    | some d => exact .singleton d
  cases s with
  | reqSpacesBeforeUrl =>
    refine iff_of_false ?_ Bool.false_ne_true
    rintro (⟨c, rest, heq, -⟩ | ⟨scheme, rest, heq, -⟩)
    · cases heq
    · exact List.append_ne_nil_of_right_ne_nil _ (List.cons_ne_nil _ _) heq.symm
  | reqSchema =>
    refine iff_of_false ?_ Bool.false_ne_true
    rintro ⟨scheme, rest, heq, -⟩
    exact List.append_ne_nil_of_right_ne_nil _ (List.cons_ne_nil _ _) heq.symm
  | reqSchemaSlash => exact iff_of_false (fun ⟨_, heq, _⟩ => by cases heq) Bool.false_ne_true
  | reqSchemaSlashSlash => exact iff_of_false (fun ⟨_, heq, _⟩ => by cases heq) Bool.false_ne_true
  | reqServerStart => exact iff_of_false (fun h => h.1 rfl) Bool.false_ne_true
  | reqServer => exact iff_of_true (hhost _) rfl
  | reqServerWithAt => exact iff_of_true (hhost _) rfl
  | reqPath => exact iff_of_true (List.forall_mem_nil _) rfl
  | reqQueryStringStart => exact iff_of_true (List.forall_mem_nil _) rfl
  | reqQueryString => exact iff_of_true (List.forall_mem_nil _) rfl
  | reqFragmentStart => exact iff_of_true (List.forall_mem_nil _) rfl
  | reqFragment => exact iff_of_true (List.forall_mem_nil _) rfl
  | _ => exact iff_of_false id Bool.false_ne_true

/-- **The urls that may end** are those of the language. -/
theorem endsUrl_iff (m : Method) (url : Bytes) : (urlEnd m url).endsUrl = true ↔ IsTarget m url := by
  have hrest := foldl_residual (fun s => s.endsUrl = true) UrlRest urlRest_nil urlRest_cons (urlStart m)
    url
  refine hrest.trans ?_
  unfold urlStart IsTarget
  by_cases hm : m = .connect
  · rw [if_pos hm, if_pos hm]
    rfl
  · rw [if_neg hm, if_neg hm]
    rfl

/-! ## Request lines -/

/-- A request line up to a url that may not end where it does. -/
theorem request_refused (m : Method) {url major minor : Bytes} (hne : url ≠ [])
    (hurl : ∀ c ∈ url, c ≠ byte ' ' ∧ c ≠ cr ∧ c ≠ lf) (hend : (urlEnd m url).endsUrl = false)
    (hroom : (StartLine.request m url major minor).text.length ≤ httpMaxHeaderSize) :
    Refused (.init .both) none (StartLine.request m url major minor).text [.messageBegin] .invalidUrl := by
  rw [request_text] at hroom ⊢
  simp only [List.length_append, List.length_cons, List.length_nil, show (ascii "HTTP/").length = 5 from rfl]
    at hroom
  have hmethod := method_start m (init_waits (.request m url major minor))
    (by show 0 + _ ≤ _; omega)
  obtain ⟨i, hblank⟩ := method_end (p := { fresh (.init .both) with type := .request })
    (n := (methodString m).length) m (by show 0 + _ < _; omega)
  have hto := url_refused (p := { fresh (.init .both) with type := .request }.spelling m i)
    (n := (methodString m).length + 1) hne hend hurl (by show 0 + _ + _ < _; omega)
  exact hmethod.refused (hblank.refused (hto.more _))

/-- **A request line is accepted if and only if its url is in the language.**  If so it says what it
    says, and nothing else is reported than the url; if not the error is `HPE_INVALID_URL`. -/
theorem requestLine_iff (m : Method) (url major minor : Bytes) (hne : url ≠ [])
    (hurl : ∀ c ∈ url, c ≠ byte ' ' ∧ c ≠ cr ∧ c ≠ lf) (hmajor : IsNumber major)
    (hzero : major.head? ≠ some (byte '0')) (hminor : IsNumber minor)
    (hroom : (StartLine.request m url major minor).text.length ≤ httpMaxHeaderSize) :
    ∃ q ex, httpParserExecute (.init .both) (StartLine.request m url major minor).text = some (q, ex) ∧
      (IsTarget m url → q.httpErrno = .ok ∧
        Agree ((HttpParser.init .both).begins (.request m url major minor)) q ∧
          ex = ⟨[.messageBegin, .url url], (StartLine.request m url major minor).text.length⟩) ∧
      (¬ IsTarget m url → q.httpErrno = .invalidUrl ∧ ex.events = [.messageBegin]) := by
  have htext : (StartLine.request m url major minor).text ≠ [] :=
    List.length_pos_iff.mp (StartLine.text_pos _)
  by_cases htarget : IsTarget m url
  · obtain ⟨i, hstart⟩ := start_runs (l := .request m url major minor)
      ⟨hne, (endsUrl_iff m url).mpr htarget, hmajor, hzero, hminor⟩ (init_waits _)
      (by show 0 + _ ≤ _; omega)
    exact ⟨_, _, runs_init hstart htext, fun _ => ⟨rfl, rfl, rfl⟩, fun hc => absurd htarget hc⟩
  · have hend : (urlEnd m url).endsUrl = false :=
      Bool.not_eq_true _ ▸ fun hc => htarget ((endsUrl_iff m url).mp hc)
    obtain ⟨q, n, hcall, he, -⟩ := refused_init (request_refused m hne hurl hend hroom) htext
    exact ⟨q, _, hcall, fun hc => absurd hc htarget, fun _ => ⟨he, rfl⟩⟩

instance (m : Method) (url : Bytes) : Decidable (IsTarget m url) := decidable_of_iff _ (endsUrl_iff m url)

theorem plain_of_all {url : Bytes} (h : (url.all fun c => c != byte ' ' && c != cr && c != lf) = true) :
    ∀ c ∈ url, c ≠ byte ' ' ∧ c ≠ cr ∧ c ≠ lf := by
  simpa [and_assoc] using h

/-- One `@` behind another, and one that is not. -/
theorem requestLine_iff_at :
    (∃ q ex, httpParserExecute (.init .both)
        (StartLine.request .get (ascii "http://u@@h/") (ascii "1") (ascii "1")).text = some (q, ex) ∧
      q.httpErrno = .invalidUrl) ∧
    ∃ q ex, httpParserExecute (.init .both)
        (StartLine.request .get (ascii "http://u@v@h/?#") (ascii "1") (ascii "1")).text = some (q, ex) ∧
      q.httpErrno = .ok := by
  constructor
  · obtain ⟨q, ex, hcall, -, hrefused⟩ := requestLine_iff .get (ascii "http://u@@h/")
      (ascii "1") (ascii "1") (by decide) (plain_of_all (by decide)) (by decide) (by decide) (by decide)
      (by decide)
    exact ⟨q, ex, hcall, (hrefused (by decide)).1⟩
  · obtain ⟨q, ex, hcall, haccepted, -⟩ := requestLine_iff .get (ascii "http://u@v@h/?#")
      (ascii "1") (ascii "1") (by decide) (plain_of_all (by decide)) (by decide) (by decide) (by decide)
      (by decide)
    exact ⟨q, ex, hcall, (haccepted (by decide)).1⟩

end Pixie.Engine
