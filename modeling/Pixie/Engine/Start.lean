/-
  What a first line does to the machine.

  1. `StartLine` — a first line in its parts, with what makes it one that is accepted: a method, a url
     that `parse_url_char` takes to a state where it may end, numbers of at most three digits that
     matter.

  2. The method is guessed from its first letter and corrected at the letters where two methods part:
     `methodChar` is one letter, and it finds each method (`methodChar_finds`).

  3. `start_runs` — **a first line** is read to its end, with what it says in the parser;
     `url_refused` — a url that cannot end where it does is refused.
-/
import Pixie.Engine.Fields

namespace Pixie.Engine

open Pixie.Decimal Pixie.Http Pixie.Crlf

variable {p q : HttpParser} {n v : Nat} {s : State} {ch : UInt8} {d : Bytes}

/-! ## First lines -/

/-- The states of a url in which a blank may follow. -/
def State.endsUrl : State → Bool
  | .reqServer | .reqServerWithAt | .reqPath | .reqQueryStringStart | .reqQueryString
  | .reqFragmentStart | .reqFragment => true
  | _ => false

/-- The state in which `parse_url_char` begins. -/
def urlStart (m : Method) : State := if m = .connect then .reqServerStart else .reqSpacesBeforeUrl

/-- The state to which a url leads. -/
def urlEnd (m : Method) (url : Bytes) : State := url.foldl parseUrlChar (urlStart m)

/-- A number of a version, or a status code. -/
structure IsNumber (ds : Bytes) : Prop where
  some_digit : ds ≠ []
  digits : ∀ c ∈ ds, isNum c = true
  small : value ds ≤ 999

instance (ds : Bytes) : Decidable (IsNumber ds) :=
  decidable_of_iff (ds ≠ [] ∧ (ds.all fun c => isNum c) = true ∧ value ds ≤ 999)
    ⟨fun h => ⟨h.1, List.all_eq_true.mp h.2.1, h.2.2⟩,
      fun h => ⟨h.some_digit, List.all_eq_true.mpr h.digits, h.small⟩⟩

/-- A first line: the numbers are written as they stand there. -/
inductive StartLine
  | request (method : Method) (url major minor : Bytes)
  | response (major minor code reason : Bytes)
deriving DecidableEq

namespace StartLine

/-- The text of a first line. -/
def text : StartLine → Bytes
  | .request method url major minor =>
    methodString method ++ byte ' ' :: (url ++ (ascii " HTTP/" ++ (major ++ byte '.' :: (minor ++ crlf))))
  | .response major minor code reason =>
    ascii "HTTP/" ++ (major ++ byte '.' :: (minor ++ byte ' ' :: (code ++ byte ' ' :: (reason ++ crlf))))

/-- The callbacks of a first line. -/
def events : StartLine → List Event
  | .request _ url _ _ => [.messageBegin, .url url]
  | .response _ _ _ reason => .messageBegin :: if reason = [] then [] else [.status reason]

/-- A first line that is accepted. -/
def WellFormed : StartLine → Prop
  | .request method url major minor =>
    url ≠ [] ∧ (urlEnd method url).endsUrl = true ∧ IsNumber major ∧ major.head? ≠ some (byte '0') ∧
      IsNumber minor
  | .response major minor code reason =>
    IsNumber major ∧ IsNumber minor ∧ IsNumber code ∧ IsText reason

instance : ∀ l : StartLine, Decidable l.WellFormed
  | .request method url major minor =>
    inferInstanceAs (Decidable (url ≠ [] ∧ (urlEnd method url).endsUrl = true ∧ IsNumber major ∧
      major.head? ≠ some (byte '0') ∧ IsNumber minor))
  | .response major minor code reason =>
    inferInstanceAs (Decidable (IsNumber major ∧ IsNumber minor ∧ IsNumber code ∧ IsText reason))

end StartLine

/-- What a first line says to the parser. -/
def HttpParser.begins (p : HttpParser) : StartLine → HttpParser
  | .request method _ major minor =>
    { fresh p with
      type := .request, method := method, httpMajor := value major, httpMinor := value minor }
  | .response major minor code _ =>
    { fresh p with
      type := .response, httpMajor := value major, httpMinor := value minor
      statusCode := value code }

/-- The parser waits for such a message. -/
def HttpParser.Awaits (p : HttpParser) : StartLine → Prop
  | .request .. => p.state = .startReqOrRes ∨ p.state = .startReq ∧ p.type = .request
  | .response .. => p.state = .startReqOrRes ∨ p.state = .startRes ∧ p.type = .response

/-! ## Methods -/

/-- One letter of a method, from its second on. -/
def methodChar (m : Method × Nat) (ch : UInt8) : Option (Method × Nat) := do
  let c ← (methodString m.1 ++ [0])[m.2]?
  if ch = c then some (m.1, m.2 + 1) else (otherMethod m.1 m.2 ch).map fun m' => (m', m.2 + 1)

/-- **Each method is found** from its first letter on, and leaves the number of its letters. -/
theorem methodChar_finds (m : Method) :
    ((methodString m).head?.bind firstMethod).bind
      (fun m₁ => (methodString m).tail.foldlM methodChar (m₁, 1)) =
        some (m, (methodString m).length) := by
  cases m <;> decide

theorem letters_of_all {cs : Bytes} (h : (cs.all fun c => c != 0 && c != byte ' ') = true) :
    ∀ c ∈ cs, c ≠ 0 ∧ c ≠ byte ' ' := by
  simpa using h

theorem methodString_letters (m : Method) :
    (∀ c ∈ methodString m, c ≠ 0 ∧ c ≠ byte ' ') ∧
      ∀ c ∈ (methodString m).head?, isAlpha c = true ∧ c ≠ cr ∧ c ≠ lf := by
  have hfirst : ((methodString m).head?.all fun c => isAlpha c && c != cr && c != lf) = true := by
    cases m <;> decide
  refine ⟨letters_of_all ?_, ?_⟩
  · cases m <;> decide
  · simpa [Option.all_eq_true, and_assoc] using hfirst

theorem methodString_length (m : Method) :
    0 < (methodString m).length ∧ (methodString m).length < 20 := by
  cases m <;> decide

/-- The parser while it reads a method. -/
def HttpParser.spelling (p : HttpParser) (m : Method) (i : Nat) : HttpParser :=
  { p with method := m, index := i }

/-- One letter of a method is an execution of the switch. -/
theorem reqMethod_methodChar {m : Method} {i : Nat} {r : Method × Nat}
    (hchar : methodChar (m, i) ch = some r) (hzero : ch ≠ 0) (hblank : ch ≠ byte ' ') (hi : i < 255) :
    r.2 = i + 1 ∧ reqMethod (p.spelling m i) ch = stay (p.spelling r.1 (i + 1)) := by
  have hadvance : ∀ m, advance (p.spelling m i) = p.spelling m (i + 1) := by
    intro m
    unfold advance
    rw [show (p.spelling m i).index + 1 = i + 1 from rfl, Nat.mod_eq_of_lt (by omega)]
    rfl
  obtain ⟨c, hc, hr⟩ := Option.bind_eq_some_iff.mp hchar
  unfold reqMethod
  rw [if_neg hzero, show (methodString (p.spelling m i).method ++ [0])[(p.spelling m i).index]? =
    some c from hc]
  dsimp only [Option.bind_eq_bind, Option.bind_some]
  rw [if_neg fun h => hblank h.1]
  by_cases hsame : ch = c
  · rw [if_pos hsame] at hr ⊢
    cases hr
    rw [hadvance]
    exact ⟨rfl, rfl⟩
  · rw [if_neg hsame] at hr ⊢
    obtain ⟨m', hm', rfl⟩ := Option.map_eq_some_iff.mp hr
    rw [show otherMethod (p.spelling m i).method (p.spelling m i).index ch = some m' from hm']
    dsimp only
    rw [show advance { p.spelling m i with method := m' } = p.spelling m' (i + 1) from hadvance m']
    exact ⟨rfl, rfl⟩

/-- The rest of a method. -/
theorem method_runs (cs : Bytes) {m m' : Method} {i i' : Nat}
    (hfold : cs.foldlM methodChar (m, i) = some (m', i')) (hletters : ∀ c ∈ cs, c ≠ 0 ∧ c ≠ byte ' ')
    (hshort : i + cs.length < 256) (hroom : p.nread + n + cs.length ≤ httpMaxHeaderSize) :
    Runs ((p.spelling m i).reach .reqMethod n) none cs []
      ((p.spelling m' i').reach .reqMethod (n + cs.length)) none := by
  induction cs generalizing m i n with
  | nil =>
    cases hfold
    exact .nil _ _
  | cons c cs ih =>
    rw [List.length_cons] at hroom hshort ⊢
    rw [List.foldlM_cons] at hfold
    obtain ⟨⟨m₁, i₁⟩, hc, hrest⟩ := Option.bind_eq_some_iff.mp hfold
    obtain ⟨hzero, hblank⟩ := hletters c List.mem_cons_self
    obtain ⟨hi, hpass⟩ := reqMethod_methodChar (p := p.reach .reqMethod (n + 1)) hc hzero hblank
      (by omega)
    obtain rfl : i₁ = i + 1 := hi
    have hruns := ih (n := n + 1) hrest (fun c hc => hletters c (List.mem_cons_of_mem _ hc)) (by omega)
      (by omega)
    rw [Nat.add_right_comm] at hruns
    have hone : Runs ((p.spelling m i).reach .reqMethod n) none [c] []
        ((p.spelling m₁ (i + 1)).reach .reqMethod (n + 1)) none :=
      runs_go (o := none) rfl (by show p.nread + n < _; omega) hpass
    exact hone.quiet hruns

/-- The blank behind a method. -/
theorem method_end (m : Method) (hroom : p.nread + n < httpMaxHeaderSize) :
    ∃ i, Runs ((p.spelling m (methodString m).length).reach .reqMethod n) none [byte ' '] []
      ((p.spelling m i).reach .reqSpacesBeforeUrl (n + 1)) none := by
  refine ⟨((methodString m).length + 1) % 256, runs_go (o := none) rfl hroom ?_⟩
  show reqMethod ((p.reach .reqMethod (n + 1)).spelling m (methodString m).length) (byte ' ') = _
  have hend : (methodString m ++ [0])[(methodString m).length]? = some 0 := by
    rw [List.getElem?_append_right le_rfl, Nat.sub_self]
    rfl
  unfold reqMethod
  rw [if_neg (by decide), show (methodString ((p.reach .reqMethod (n + 1)).spelling m _).method ++
    [0])[((p.reach .reqMethod (n + 1)).spelling m _).index]? = some 0 from hend]
  rfl

/-! ## Urls -/

theorem parseUrlChar_dead (ch : UInt8) : parseUrlChar .dead ch = .dead := by
  unfold parseUrlChar
  split
  · rfl
  · split <;> rfl

theorem foldl_parseUrlChar_dead (cs : Bytes) : cs.foldl parseUrlChar .dead = .dead := by
  induction cs with
  | nil => rfl
  | cons c cs ih =>
    rw [List.foldl_cons, parseUrlChar_dead]
    exact ih

theorem ne_of_parseUrlChar (h : parseUrlChar s ch ≠ .dead) : ch ≠ byte ' ' ∧ ch ≠ cr ∧ ch ≠ lf := by
  refine ⟨fun hc => h ?_, fun hc => h ?_, fun hc => h ?_⟩
  · exact if_pos (.inl hc)
  · exact if_pos (.inr (.inl hc))
  · exact if_pos (.inr (.inr hc))

/-- What the switch does with a character of a url. -/
theorem pass_url (hs : p.state.inUrl = true) (hc : ch ≠ byte ' ' ∧ ch ≠ cr ∧ ch ≠ lf) :
    pass p ch 1 = if parseUrlChar p.state ch = .dead then fail (p.goto .dead) .invalidUrl
      else go p (parseUrlChar p.state ch) := by
  have hschema : reqSchema p ch = if parseUrlChar p.state ch = .dead then fail (p.goto .dead) .invalidUrl
      else go p (parseUrlChar p.state ch) := by
    unfold reqSchema
    rw [if_neg (not_or.mpr ⟨hc.1, not_or.mpr hc.2⟩)]
  have hurl : reqUrl p ch = if parseUrlChar p.state ch = .dead then fail (p.goto .dead) .invalidUrl
      else go p (parseUrlChar p.state ch) := by
    unfold reqUrl
    rw [if_neg hc.1, if_neg (not_or.mpr hc.2)]
  unfold pass
  revert hs
  cases hstate : p.state <;> first
    | (intro hc; cases hc; done)
    | (rw [hstate] at hschema; exact fun _ => hschema)
    | (rw [hstate] at hurl; exact fun _ => hurl)

theorem inUrl_header (hs : s.inUrl = true) : s.parsingHeader = true := by
  revert hs
  cases s <;> first | (intro _; rfl) | (intro hc; cases hc)

theorem endsUrl_inUrl (hs : s.endsUrl = true) : s.inUrl = true := by
  revert hs
  cases s <;> first | (intro _; rfl) | (intro hc; cases hc)

theorem url_char {u : Bytes} (hs : s.inUrl = true) (hnext : parseUrlChar s ch ≠ .dead)
    (hroom : p.nread + n < httpMaxHeaderSize) :
    Runs (p.reach s n) (some (.url, u)) [ch] [] (p.reach (parseUrlChar s ch) (n + 1))
      (some (.url, u ++ [ch])) := by
  refine runs_go (inUrl_header hs) hroom ?_
  rw [pass_url (p := p.reach s (n + 1)) hs (ne_of_parseUrlChar hnext)]
  exact if_neg hnext

theorem url_char_refused {u : Bytes} (hs : s.inUrl = true) (hnext : parseUrlChar s ch = .dead)
    (hc : ch ≠ byte ' ' ∧ ch ≠ cr ∧ ch ≠ lf) (hroom : p.nread + n < httpMaxHeaderSize) :
    Refused (p.reach s n) (some (.url, u)) [ch] [] .invalidUrl := by
  refine refused_pass (m := { parser := ((p.reach s (n + 1)).goto .dead).setErrno .invalidUrl, exit := .error })
    (inUrl_header hs) hroom ?_ rfl rfl rfl
  rw [pass_url (p := p.reach s (n + 1)) hs hc]
  exact if_pos hnext

/-- The rest of a url. -/
theorem url_more (cs : Bytes) {u : Bytes} (hs : s.inUrl = true)
    (hend : cs.foldl parseUrlChar s ≠ .dead) (hroom : p.nread + n + cs.length ≤ httpMaxHeaderSize) :
    Runs (p.reach s n) (some (.url, u)) cs [] (p.reach (cs.foldl parseUrlChar s) (n + cs.length))
      (some (.url, u ++ cs)) := by
  induction cs generalizing s n u with
  | nil =>
    rw [List.append_nil]
    exact .nil _ _
  | cons c cs ih =>
    rw [List.length_cons] at hroom ⊢
    rw [List.foldl_cons] at hend ⊢
    have hnext : parseUrlChar s c ≠ .dead := by
      intro hc
      rw [hc] at hend
      exact hend (foldl_parseUrlChar_dead cs)
    have hrest := ih (n := n + 1) (u := u ++ [c]) ((parseUrlChar_cases s c).resolve_left hnext) hend
      (by omega)
    rw [List.append_assoc, Nat.add_right_comm] at hrest
    exact (url_char hs hnext (by omega)).quiet hrest

/-- The rest of a url that is refused, at one of its characters or at the blank behind it. -/
theorem url_more_refused (cs : Bytes) {u : Bytes} (hs : s.inUrl = true)
    (hend : (cs.foldl parseUrlChar s).endsUrl = false)
    (hcs : ∀ c ∈ cs, c ≠ byte ' ' ∧ c ≠ cr ∧ c ≠ lf)
    (hroom : p.nread + n + cs.length < httpMaxHeaderSize) :
    Refused (p.reach s n) (some (.url, u)) (cs ++ [byte ' ']) [] .invalidUrl := by
  induction cs generalizing s n u with
  | nil =>
    have hschema : pass (p.reach s (n + 1)) (byte ' ') 1 =
        some { parser := (p.reach s (n + 1)).setErrno .invalidUrl, exit := .error } := by
      revert hs hend
      cases s <;> first
        | (intro _ _; rfl)
        | (intro hc; cases hc; done)
        | (intro _ hc; cases hc)
    exact refused_pass (inUrl_header hs) (by rw [List.length_nil] at hroom; omega) hschema rfl rfl rfl
  | cons c cs ih =>
    rw [List.length_cons] at hroom
    rw [List.foldl_cons] at hend
    have hc := hcs c List.mem_cons_self
    by_cases hnext : parseUrlChar s c = .dead
    · exact (url_char_refused (u := u) hs hnext hc (by omega)).more (cs ++ [byte ' '])
    · have hone := url_char (p := p) (n := n) (u := u) hs hnext (by omega)
      exact hone.refused (ih ((parseUrlChar_cases s c).resolve_left hnext) hend
        (fun c hc => hcs c (List.mem_cons_of_mem _ hc)) (by omega))

/-- The first character of a url. -/
theorem pass_url_first (hs : p.state = .reqSpacesBeforeUrl) (hc : ch ≠ byte ' ') :
    pass p ch 1 =
      if parseUrlChar (urlStart p.method) ch = .dead then
        some
          { parser := (p.goto .dead).setErrno .invalidUrl
            mark := some .url
            exit := .error }
      else some { parser := p.goto (parseUrlChar (urlStart p.method) ch), mark := some .url } := by
  unfold pass
  rw [hs]
  show reqSpacesBeforeUrl p ch = _
  unfold reqSpacesBeforeUrl
  dsimp only
  rw [if_neg hc, hs, show (if p.method = .connect then State.reqServerStart else .reqSpacesBeforeUrl) =
    urlStart p.method from rfl]
  split
  · rename_i hdead
    rw [hdead]
  · rfl

theorem url_first (hnext : parseUrlChar (urlStart p.method) ch ≠ .dead)
    (hroom : p.nread + n < httpMaxHeaderSize) :
    Runs (p.reach .reqSpacesBeforeUrl n) none [ch] []
      (p.reach (parseUrlChar (urlStart p.method) ch) (n + 1)) (some (.url, [ch])) := by
  refine runs_mark rfl hroom ?_
  rw [pass_url_first rfl (ne_of_parseUrlChar hnext).1]
  exact if_neg hnext

/-- A url, up to its last character. -/
theorem url_whole (url : Bytes) (hne : url ≠ []) (hend : urlEnd p.method url ≠ .dead)
    (hroom : p.nread + n + url.length ≤ httpMaxHeaderSize) :
    Runs (p.reach .reqSpacesBeforeUrl n) none url [] (p.reach (urlEnd p.method url) (n + url.length))
      (some (.url, url)) := by
  obtain ⟨c, cs, rfl⟩ := List.exists_cons_of_ne_nil hne
  rw [List.length_cons] at hroom ⊢
  unfold urlEnd at hend ⊢
  rw [List.foldl_cons] at hend ⊢
  have hnext : parseUrlChar (urlStart p.method) c ≠ .dead := by
    intro hc
    rw [hc] at hend
    exact hend (foldl_parseUrlChar_dead cs)
  have hmore := url_more (p := p) (n := n + 1) (u := [c]) cs
    ((parseUrlChar_cases _ c).resolve_left hnext) hend (by omega)
  rw [show n + (cs.length + 1) = n + 1 + cs.length by omega]
  exact (url_first hnext (by omega)).quiet hmore

/-- **A url that ends where it may**, up to the blank behind it. -/
theorem url_runs {url : Bytes} (hne : url ≠ []) (hend : (urlEnd p.method url).endsUrl = true)
    (hroom : p.nread + n + url.length < httpMaxHeaderSize) :
    Runs (p.reach .reqSpacesBeforeUrl n) none (url ++ [byte ' ']) [.url url]
      (p.reach .reqHttpStart (n + url.length + 1)) none := by
  have hdead : urlEnd p.method url ≠ .dead := by
    intro hc
    rw [hc] at hend
    cases hend
  have hurl := url_whole (n := n) url hne hdead (by omega)
  generalize urlEnd p.method url = last at hend hurl
  have hblank : Runs (p.reach last (n + url.length)) (some (.url, url)) [byte ' '] [.url url]
      (p.reach .reqHttpStart (n + url.length + 1)) none := by
    refine runs_close (k := .url) (inUrl_header (endsUrl_inUrl hend)) (by omega) ?_
    revert hend
    cases last <;> first | (intro _; rfl) | (intro hc; cases hc)
  exact hurl.append hblank

/-- **A url that may not end where it does** is refused. -/
theorem url_refused {url : Bytes} (hne : url ≠ []) (hend : (urlEnd p.method url).endsUrl = false)
    (hurl : ∀ c ∈ url, c ≠ byte ' ' ∧ c ≠ cr ∧ c ≠ lf)
    (hroom : p.nread + n + url.length < httpMaxHeaderSize) :
    Refused (p.reach .reqSpacesBeforeUrl n) none (url ++ [byte ' ']) [] .invalidUrl := by
  obtain ⟨c, cs, rfl⟩ := List.exists_cons_of_ne_nil hne
  rw [List.length_cons] at hroom
  unfold urlEnd at hend
  rw [List.foldl_cons] at hend
  have hc := hurl c List.mem_cons_self
  have hpass := pass_url_first (p := p.reach .reqSpacesBeforeUrl (n + 1)) rfl hc.1
  by_cases hnext : parseUrlChar (urlStart p.method) c = .dead
  · rw [show urlStart (p.reach .reqSpacesBeforeUrl (n + 1)).method = urlStart p.method from rfl,
      if_pos hnext] at hpass
    exact (refused_pass rfl (by omega) hpass rfl rfl rfl).more (cs ++ [byte ' '])
  · have hfirst := url_first (p := p) (n := n) hnext (by omega)
    exact hfirst.refused (url_more_refused cs ((parseUrlChar_cases _ c).resolve_left hnext) hend
      (fun c hc => hurl c (List.mem_cons_of_mem _ hc)) (by omega))

/-! ## Numbers -/

theorem ne_of_isNum {c : UInt8} (hc : isNum ch = true) (h : isNum c = false) : ch ≠ c := by
  rintro rfl
  rw [hc] at h
  cases h

theorem not_isNum : isNum (byte '.') = false ∧ isNum (byte ' ') = false ∧ isNum cr = false ∧
    isNum lf = false := by decide

theorem moreVersion_eq (h : 10 * v + (ch.toNat - 48) ≤ 999) :
    moreVersion v ch = 10 * v + (ch.toNat - 48) := by
  unfold moreVersion
  omega

/-- A number that goes to a field of the parser, digit by digit: `f v` is the parser with it. -/
theorem digits_runs {f : Nat → HttpParser} (hs : s.parsingHeader = true)
    (hnread : ∀ v, (f v).nread = p.nread)
    (hdigit : ∀ v n c, isNum c = true → moreVersion v c ≤ 999 →
      pass ((f v).reach s n) c 1 = stay ((f (moreVersion v c)).reach s n))
    (cs : Bytes) (hcs : ∀ c ∈ cs, isNum c = true)
    (hsmall : cs.foldl (fun v c => 10 * v + (c.toNat - 48)) v ≤ 999)
    (hroom : p.nread + n + cs.length ≤ httpMaxHeaderSize) :
    Runs ((f v).reach s n) none cs []
      ((f (cs.foldl (fun v c => 10 * v + (c.toNat - 48)) v)).reach s (n + cs.length)) none := by
  induction cs generalizing v n with
  | nil => exact .nil _ _
  | cons c cs ih =>
    rw [List.length_cons] at hroom ⊢
    rw [List.foldl_cons] at hsmall ⊢
    have hfits : 10 * v + (c.toNat - 48) ≤ 999 := (le_foldl_value cs _).trans hsmall
    have hrest := ih (n := n + 1) (fun c hc => hcs c (List.mem_cons_of_mem _ hc)) hsmall (by omega)
    have hpass := hdigit v (n + 1) c (hcs c List.mem_cons_self) (by rw [moreVersion_eq hfits]; exact hfits)
    rw [moreVersion_eq hfits] at hpass
    rw [Nat.add_right_comm] at hrest
    exact (runs_go (o := none) hs (by rw [hnread]; omega) hpass).quiet hrest

/-- A whole number: its first digit has a state of its own. -/
theorem number_runs {f : Nat → HttpParser} {ds : Bytes} (s₀ : State) (hds : IsNumber ds)
    (hs₀ : s₀.parsingHeader = true) (hs : s.parsingHeader = true) (hnread : ∀ v, (f v).nread = p.nread)
    (hfirst : ∀ c ∈ ds.head?, isNum c = true →
      pass (p.reach s₀ (n + 1)) c 1 = stay ((f (c.toNat - 48)).reach s (n + 1)))
    (hdigit : ∀ v n c, isNum c = true → moreVersion v c ≤ 999 →
      pass ((f v).reach s n) c 1 = stay ((f (moreVersion v c)).reach s n))
    (hroom : p.nread + n + ds.length ≤ httpMaxHeaderSize) :
    Runs (p.reach s₀ n) none ds [] ((f (value ds)).reach s (n + ds.length)) none := by
  obtain ⟨c, cs, rfl⟩ := List.exists_cons_of_ne_nil hds.some_digit
  rw [List.length_cons] at hroom ⊢
  have hone := runs_go (o := none) hs₀ (by omega) (hfirst c rfl (hds.digits c List.mem_cons_self))
  have hvalue : value (c :: cs) = cs.foldl (fun v c => 10 * v + (c.toNat - 48)) (c.toNat - 48) := by
    show cs.foldl _ (10 * 0 + (c.toNat - 48)) = _
    rw [Nat.mul_zero, Nat.zero_add]
  have hsmall := hds.small
  rw [hvalue] at hsmall ⊢
  have hmore := digits_runs (p := p) (n := n + 1) hs hnread hdigit cs
    (fun c hc => hds.digits c (List.mem_cons_of_mem _ hc)) hsmall (by omega)
  rw [Nat.add_right_comm] at hmore
  exact hone.quiet hmore

theorem httpMajor_digit {dot : State} (hch : isNum ch = true) (hsmall : moreVersion p.httpMajor ch ≤ 999) :
    httpMajor p ch dot = stay { p with httpMajor := moreVersion p.httpMajor ch } := by
  unfold httpMajor
  rw [if_neg (ne_of_isNum hch not_isNum.1), if_neg (not_not.mpr hch), if_neg (Nat.not_lt.mpr hsmall)]

theorem httpMinor_digit (hch : isNum ch = true) (hsmall : moreVersion p.httpMinor ch ≤ 999) :
    httpMinor p ch = stay { p with httpMinor := moreVersion p.httpMinor ch } := by
  unfold httpMinor
  rw [if_neg (not_not.mpr hch), if_neg (Nat.not_lt.mpr hsmall)]

theorem statusCode_digit (hch : isNum ch = true) (hsmall : moreVersion p.statusCode ch ≤ 999) :
    resStatusCode p ch = stay { p with statusCode := moreVersion p.statusCode ch } := by
  unfold resStatusCode
  rw [if_neg (not_not.mpr hch), if_neg (Nat.not_lt.mpr hsmall)]

/-- The first digit of a major version. -/
theorem firstHttpMajor_digit {least : UInt8} (hch : isNum ch = true) (hleast : least ≤ ch) :
    firstHttpMajor p ch least s = go { p with httpMajor := ch.toNat - 48 } s := by
  have hnine : ¬ byte '9' < ch := by
    rw [isNum, isdigit, Bool.and_eq_true, decide_eq_true_eq, decide_eq_true_eq] at hch
    exact UInt8.not_lt.mpr hch.2
  unfold firstHttpMajor
  rw [if_neg (not_or.mpr ⟨UInt8.not_lt.mpr hleast, hnine⟩)]

theorem isNum_ge (hch : isNum ch = true) : byte '0' ≤ ch := by
  rw [isNum, isdigit, Bool.and_eq_true, decide_eq_true_eq] at hch
  exact hch.1

/-- A digit that is not the smallest. -/
theorem isNum_gt (hch : isNum ch = true) (hne : ch ≠ byte '0') : byte '1' ≤ ch := by
  have hlow : 48 ≤ ch.toNat := UInt8.le_iff_toNat_le.mp (isNum_ge hch)
  have hnat : ch.toNat ≠ 48 := fun h => hne (UInt8.toNat_inj.mp h)
  refine UInt8.le_iff_toNat_le.mpr ?_
  show 49 ≤ ch.toNat
  omega

theorem firstHttpMinor_digit (hch : isNum ch = true) :
    firstHttpMinor p ch s = go { p with httpMinor := ch.toNat - 48 } s := by
  unfold firstHttpMinor
  rw [if_neg (not_not.mpr hch)]

/-- The version of a request, from the first digit to the end of the line. -/
theorem request_version {major minor : Bytes} (hmajor : IsNumber major)
    (hzero : major.head? ≠ some (byte '0')) (hminor : IsNumber minor)
    (hroom : p.nread + n + major.length + 1 + minor.length + 2 ≤ httpMaxHeaderSize) :
    Runs (p.reach .reqFirstHttpMajor n) none (major ++ byte '.' :: (minor ++ crlf)) []
      ({ p with httpMajor := value major, httpMinor := value minor }.reach .headerFieldStart
        (n + major.length + 1 + minor.length + 2)) none := by
  have hfirst := number_runs (f := fun v => { p with httpMajor := v }) (s := .reqHttpMajor)
    .reqFirstHttpMajor (n := n) hmajor rfl rfl (fun _ => rfl)
    (fun c hc hnum => firstHttpMajor_digit hnum
      (isNum_gt hnum fun hc' => hzero (hc' ▸ Option.mem_def.mp hc)))
    (fun v n c hnum hsmall => httpMajor_digit hnum hsmall) (by omega)
  have hdot : Runs ({ p with httpMajor := value major }.reach .reqHttpMajor (n + major.length)) none
      [byte '.'] [] ({ p with httpMajor := value major }.reach .reqFirstHttpMinor
        (n + major.length + 1)) none :=
    runs_go (o := none) rfl (by show p.nread + _ < _; omega) rfl
  have hsecond := number_runs (p := { p with httpMajor := value major })
    (f := fun v => { p with httpMajor := value major, httpMinor := v }) (s := .reqHttpMinor)
    .reqFirstHttpMinor (n := n + major.length + 1) hminor rfl rfl (fun _ => rfl)
    (fun c _ hnum => firstHttpMinor_digit hnum)
    (fun v n c hnum hsmall => by
      show reqHttpMinor _ c = _
      unfold reqHttpMinor
      rw [if_neg (ne_of_isNum hnum not_isNum.2.2.1), if_neg (ne_of_isNum hnum not_isNum.2.2.2)]
      exact httpMinor_digit hnum hsmall)
    (by show p.nread + _ + _ ≤ _; omega)
  have hcr : Runs ({ p with httpMajor := value major, httpMinor := value minor }.reach .reqHttpMinor
      (n + major.length + 1 + minor.length)) none [cr] []
      ({ p with httpMajor := value major, httpMinor := value minor }.reach .reqLineAlmostDone
        (n + major.length + 1 + minor.length + 1)) none :=
    runs_go (o := none) rfl (by show p.nread + _ < _; omega) rfl
  have hlf : Runs ({ p with httpMajor := value major, httpMinor := value minor }.reach .reqLineAlmostDone
      (n + major.length + 1 + minor.length + 1)) none [lf] []
      ({ p with httpMajor := value major, httpMinor := value minor }.reach .headerFieldStart
        (n + major.length + 1 + minor.length + 2)) none :=
    runs_go (o := none) rfl (by show p.nread + _ < _; omega) rfl
  exact hfirst.append (hdot.quiet (hsecond.append (hcr.quiet hlf)))

/-- The version and the status of a response, up to the blank before its reason. -/
theorem response_version {major minor code : Bytes} (hmajor : IsNumber major) (hminor : IsNumber minor)
    (hcode : IsNumber code)
    (hroom : p.nread + n + major.length + 1 + minor.length + 1 + code.length + 1 ≤ httpMaxHeaderSize) :
    Runs (p.reach .resFirstHttpMajor n) none
      (major ++ byte '.' :: (minor ++ byte ' ' :: (code ++ [byte ' ']))) []
      ({ p with httpMajor := value major, httpMinor := value minor, statusCode := value code }.reach
        .resStatusStart (n + major.length + 1 + minor.length + 1 + code.length + 1)) none := by
  have hfirst := number_runs (f := fun v => { p with httpMajor := v }) (s := .resHttpMajor)
    .resFirstHttpMajor (n := n) hmajor rfl rfl (fun _ => rfl)
    (fun c hc hnum => firstHttpMajor_digit hnum (isNum_ge hnum))
    (fun v n c hnum hsmall => httpMajor_digit hnum hsmall) (by omega)
  have hdot : Runs ({ p with httpMajor := value major }.reach .resHttpMajor (n + major.length)) none
      [byte '.'] [] ({ p with httpMajor := value major }.reach .resFirstHttpMinor
        (n + major.length + 1)) none :=
    runs_go (o := none) rfl (by show p.nread + _ < _; omega) rfl
  have hsecond := number_runs (p := { p with httpMajor := value major })
    (f := fun v => { p with httpMajor := value major, httpMinor := v }) (s := .resHttpMinor)
    .resFirstHttpMinor (n := n + major.length + 1) hminor rfl rfl (fun _ => rfl)
    (fun c _ hnum => firstHttpMinor_digit hnum)
    (fun v n c hnum hsmall => by
      show resHttpMinor _ c = _
      unfold resHttpMinor
      rw [if_neg (ne_of_isNum hnum not_isNum.2.1)]
      exact httpMinor_digit hnum hsmall)
    (by show p.nread + _ + _ ≤ _; omega)
  have hblank : Runs ({ p with httpMajor := value major, httpMinor := value minor }.reach .resHttpMinor
      (n + major.length + 1 + minor.length)) none [byte ' '] []
      ({ p with httpMajor := value major, httpMinor := value minor }.reach .resFirstStatusCode
        (n + major.length + 1 + minor.length + 1)) none :=
    runs_go (o := none) rfl (by show p.nread + _ < _; omega) rfl
  have hstatus := number_runs (p := { p with httpMajor := value major, httpMinor := value minor })
    (f := fun v =>
      { p with httpMajor := value major, httpMinor := value minor, statusCode := v })
    (s := .resStatusCode) .resFirstStatusCode (n := n + major.length + 1 + minor.length + 1)
    hcode rfl rfl (fun _ => rfl)
    (fun c _ hnum => by
      show resFirstStatusCode _ c = _
      unfold resFirstStatusCode
      rw [if_neg (not_not.mpr hnum)]
      rfl)
    (fun v n c hnum hsmall => statusCode_digit hnum hsmall)
    (by show p.nread + _ + _ ≤ _; omega)
  have hend : Runs ({ p with
        httpMajor := value major, httpMinor := value minor, statusCode := value code }.reach
        .resStatusCode (n + major.length + 1 + minor.length + 1 + code.length)) none [byte ' '] []
      ({ p with httpMajor := value major, httpMinor := value minor, statusCode := value code }.reach
        .resStatusStart (n + major.length + 1 + minor.length + 1 + code.length + 1)) none :=
    runs_go (o := none) rfl (by show p.nread + _ < _; omega) rfl
  exact hfirst.append (hdot.quiet (hsecond.append (hblank.quiet (hstatus.append hend))))

/-- The rest of a reason. -/
theorem reason_more (cs : Bytes) (htext : IsText cs)
    (hroom : p.nread + n + cs.length ≤ httpMaxHeaderSize) :
    Runs (p.reach .resStatus n) (some (.status, d)) cs [] (p.reach .resStatus (n + cs.length))
      (some (.status, d ++ cs)) := by
  induction cs generalizing n d with
  | nil =>
    rw [List.append_nil]
    exact .nil _ _
  | cons c cs ih =>
    rw [List.length_cons] at hroom ⊢
    have hc := htext c List.mem_cons_self
    have hrest := ih (n := n + 1) (d := d ++ [c]) (fun c hc => htext c (List.mem_cons_of_mem _ hc))
      (by omega)
    rw [List.append_assoc, Nat.add_right_comm] at hrest
    have hone : Runs (p.reach .resStatus n) (some (.status, d)) [c] [] (p.reach .resStatus (n + 1))
        (some (.status, d ++ [c])) := by
      refine runs_go rfl (by omega) ?_
      show resStatus _ c = _
      unfold resStatus
      rw [if_neg hc.1, if_neg hc.2]
      rfl
    exact hone.quiet hrest

/-- The reason of a response, and the end of the line. -/
theorem reason_runs {reason : Bytes} (htext : IsText reason)
    (hroom : p.nread + n + reason.length + 2 ≤ httpMaxHeaderSize) :
    ∃ i, Runs (p.reach .resStatusStart n) none (reason ++ crlf)
      (if reason = [] then [] else [.status reason])
      ({ p with index := i }.reach .headerFieldStart (n + reason.length + 2)) none := by
  cases reason with
  | nil =>
    have hcr : Runs (p.reach .resStatusStart n) none [cr] [] (p.reach .resLineAlmostDone (n + 1)) none :=
      runs_go (o := none) rfl (by rw [List.length_nil] at hroom; omega) rfl
    have hlf : Runs (p.reach .resLineAlmostDone (n + 1)) none [lf] []
        (p.reach .headerFieldStart (n + 2)) none :=
      runs_go (o := none) rfl (by rw [List.length_nil] at hroom; omega) rfl
    exact ⟨p.index, hcr.quiet hlf⟩
  | cons c cs =>
    rw [List.length_cons] at hroom ⊢
    have hc := htext c List.mem_cons_self
    have hfirst : Runs (p.reach .resStatusStart n) none [c] []
        ({ p with index := 0 }.reach .resStatus (n + 1)) (some (.status, [c])) := by
      refine runs_mark rfl (by omega) ?_
      show resStatusStart _ c = _
      unfold resStatusStart
      rw [if_neg hc.1, if_neg hc.2]
      rfl
    have hmore := reason_more (p := { p with index := 0 }) (n := n + 1) (d := [c]) cs
      (fun c hc => htext c (List.mem_cons_of_mem _ hc)) (by show p.nread + _ + _ ≤ _; omega)
    have hcr : Runs ({ p with index := 0 }.reach .resStatus (n + 1 + cs.length))
        (some (.status, c :: cs)) [cr] [.status (c :: cs)]
        ({ p with index := 0 }.reach .resLineAlmostDone (n + 1 + cs.length + 1)) none :=
      runs_close (k := .status) rfl (by show p.nread + _ < _; omega) rfl
    have hlf : Runs ({ p with index := 0 }.reach .resLineAlmostDone (n + 1 + cs.length + 1)) none [lf] []
        ({ p with index := 0 }.reach .headerFieldStart (n + 1 + cs.length + 2)) none :=
      runs_go (o := none) rfl (by show p.nread + _ < _; omega) rfl
    refine ⟨0, ?_⟩
    rw [show n + (cs.length + 1) + 2 = n + 1 + cs.length + 2 by omega]
    exact hfirst.quiet (hmore.append (hcr.append hlf))

/-! ## Whole lines -/

theorem firstLetter_startReq {c : UInt8} {m₁ : Method} (halpha : isAlpha c = true)
    (hline : c ≠ cr ∧ c ≠ lf) (hfirst : firstMethod c = some m₁) :
    startReq p c = notify ((fresh p).spelling m₁ 1) .reqMethod .messageBegin := by
  unfold startReq
  rw [if_neg (not_or.mpr hline), if_neg (not_not.mpr halpha), hfirst]
  rfl

theorem headMethod {m : Method} (h : (methodString m).head? = some (byte 'H')) : m = .head := by
  revert h
  cases m <;> decide

/-- The method of a request. -/
theorem method_start (m : Method) {url major minor : Bytes}
    (hawaits : p.Awaits (.request m url major minor))
    (hroom : p.nread + (methodString m).length ≤ httpMaxHeaderSize) :
    Runs p none (methodString m) [.messageBegin]
      (({ fresh p with type := .request }.spelling m (methodString m).length).reach .reqMethod
        (methodString m).length) none := by
  obtain ⟨hpos, hshort⟩ := methodString_length m
  obtain ⟨m₁, hfirst, hfold⟩ := Option.bind_eq_some_iff.mp (methodChar_finds m)
  obtain ⟨hletters, halpha⟩ := methodString_letters m
  have hhead := headMethod (m := m)
  obtain ⟨c, cs, hword⟩ := List.exists_cons_of_ne_nil (List.length_pos_iff.mp hpos)
  rw [hword] at hfirst hfold hletters halpha hhead hshort hroom ⊢
  obtain ⟨halpha, hline⟩ := halpha c rfl
  rw [List.length_cons] at hfold hroom hshort ⊢
  have hmore : Runs (({ fresh p with type := .request }.spelling m₁ 1).reach .reqMethod 1) none cs []
      (({ fresh p with type := .request }.spelling m (cs.length + 1)).reach .reqMethod
        (cs.length + 1)) none := by
    rw [Nat.add_comm cs.length 1] at hfold ⊢
    exact method_runs cs hfold (fun c hc => hletters c (List.mem_cons_of_mem _ hc)) (by omega)
      (by show p.nread + 1 + cs.length ≤ _; omega)
  rcases hawaits with hs | ⟨hs, htype⟩
  · rw [← reach_self p, hs]
    by_cases hH : c = byte 'H'
    · -- HEAD: the second letter says that it is a request.
      obtain rfl := hhead (congrArg some hH)
      obtain ⟨rfl, rfl⟩ : c = byte 'H' ∧ cs = ascii "EAD" := List.cons.inj hword.symm
      rw [show (ascii "EAD").length = 3 from rfl] at hroom
      have hone : Runs (p.reach .startReqOrRes 0) none [byte 'H'] [.messageBegin]
          ((fresh p).reach .resOrRespH 1) none := runs_notify rfl (by omega) rfl
      have htwo : Runs ((fresh p).reach .resOrRespH 1) none [byte 'E'] []
          (({ fresh p with type := .request }.spelling .head 2).reach .reqMethod 2) none :=
        runs_go (o := none) rfl (by show p.nread + 1 < _; omega) rfl
      have hrest : Runs (({ fresh p with type := .request }.spelling .head 2).reach .reqMethod 2) none
          (ascii "AD") [] (({ fresh p with type := .request }.spelling .head 4).reach .reqMethod 4)
          none :=
        method_runs (ascii "AD") (by decide) (letters_of_all (by decide)) (by decide)
          (by show p.nread + 2 + 2 ≤ _; omega)
      exact hone.append (htwo.quiet hrest)
    · have hpass : pass (p.reach .startReqOrRes 1) c 1 = some
          { parser := { fresh p with type := .request }.reach .startReq 1, exit := .reexecute } := by
        show startReqOrRes _ c = _
        unfold startReqOrRes
        rw [if_neg (not_or.mpr hline), if_neg hH]
        rfl
      have hone : Runs (p.reach .startReqOrRes 0) none [c] [.messageBegin]
          (({ fresh p with type := .request }.spelling m₁ 1).reach .reqMethod 1) none :=
        runs_again (o := none) rfl (by omega) hpass (firstLetter_startReq halpha hline hfirst) rfl
      exact hone.append hmore
  · have hone : Runs p none [c] [.messageBegin]
        (({ fresh p with type := .request }.spelling m₁ 1).reach .reqMethod 1) none := by
      rw [← reach_self p, hs, ← htype]
      exact runs_notify rfl (by omega) (firstLetter_startReq halpha hline hfirst)
    exact hone.append hmore

/-- The beginning of a response, up to its version. -/
theorem response_start {major minor code reason : Bytes}
    (hawaits : p.Awaits (.response major minor code reason)) (hroom : p.nread + 5 ≤ httpMaxHeaderSize) :
    Runs p none (ascii "HTTP/") [.messageBegin]
      ({ fresh p with type := .response }.reach .resFirstHttpMajor 5) none := by
  have htwo : Runs p none [byte 'H', byte 'T'] [.messageBegin]
      ({ fresh p with type := .response }.reach .resHT 2) none := by
    rcases hawaits with hs | ⟨hs, htype⟩
    · have hone : Runs (p.reach .startReqOrRes 0) none [byte 'H'] [.messageBegin]
          ((fresh p).reach .resOrRespH 1) none := runs_notify rfl (by omega) rfl
      have hnext : Runs ((fresh p).reach .resOrRespH 1) none [byte 'T'] []
          ({ fresh p with type := .response }.reach .resHT 2) none :=
        runs_go (o := none) rfl (by show p.nread + 1 < _; omega) rfl
      rw [← reach_self p, hs]
      exact hone.append hnext
    · have hone : Runs (p.reach .startRes 0) none [byte 'H'] [.messageBegin]
          ((fresh p).reach .resH 1) none := runs_notify rfl (by omega) rfl
      have hnext : Runs ((fresh p).reach .resH 1) none [byte 'T'] [] ((fresh p).reach .resHT 2) none :=
        runs_literal (o := none) _ _ rfl (by show p.nread + 1 < _; omega) rfl
      have hfresh : { fresh p with type := .response } = fresh p := by
        rw [← htype]
        rfl
      rw [hfresh]
      rw [← hs, reach_self] at hone
      exact hone.append hnext
  have hT : Runs ({ fresh p with type := .response }.reach .resHT 2) none [byte 'T'] []
      ({ fresh p with type := .response }.reach .resHTT 3) none :=
    runs_literal (o := none) _ _ rfl (by show p.nread + 2 < _; omega) rfl
  have hP : Runs ({ fresh p with type := .response }.reach .resHTT 3) none [byte 'P'] []
      ({ fresh p with type := .response }.reach .resHTTP 4) none :=
    runs_literal (o := none) _ _ rfl (by show p.nread + 3 < _; omega) rfl
  have hslash : Runs ({ fresh p with type := .response }.reach .resHTTP 4) none [byte '/'] []
      ({ fresh p with type := .response }.reach .resFirstHttpMajor 5) none :=
    runs_literal (o := none) _ _ rfl (by show p.nread + 4 < _; omega) rfl
  exact htwo.append (hT.quiet (hP.quiet hslash))

/-- `HTTP/` in a request, behind its url. -/
theorem request_http (hroom : p.nread + n + 5 ≤ httpMaxHeaderSize) :
    Runs (p.reach .reqHttpStart n) none (ascii "HTTP/") [] (p.reach .reqFirstHttpMajor (n + 5)) none := by
  have hH : Runs (p.reach .reqHttpStart n) none [byte 'H'] [] (p.reach .reqHttpH (n + 1)) none :=
    runs_go (o := none) rfl (by omega) rfl
  have hT : Runs (p.reach .reqHttpH (n + 1)) none [byte 'T'] [] (p.reach .reqHttpHT (n + 2)) none :=
    runs_literal (o := none) _ _ rfl (by omega) rfl
  have hTT : Runs (p.reach .reqHttpHT (n + 2)) none [byte 'T'] [] (p.reach .reqHttpHTT (n + 3)) none :=
    runs_literal (o := none) _ _ rfl (by omega) rfl
  have hP : Runs (p.reach .reqHttpHTT (n + 3)) none [byte 'P'] [] (p.reach .reqHttpHTTP (n + 4)) none :=
    runs_literal (o := none) _ _ rfl (by omega) rfl
  have hslash : Runs (p.reach .reqHttpHTTP (n + 4)) none [byte '/'] []
      (p.reach .reqFirstHttpMajor (n + 5)) none :=
    runs_literal (o := none) _ _ rfl (by omega) rfl
  exact hH.quiet (hT.quiet (hTT.quiet (hP.quiet hslash)))

theorem request_text (m : Method) (url major minor : Bytes) :
    (StartLine.request m url major minor).text = methodString m ++ ([byte ' '] ++ ((url ++ [byte ' ']) ++
      (ascii "HTTP/" ++ (major ++ byte '.' :: (minor ++ crlf))))) := by
  show methodString m ++ byte ' ' :: (url ++ (byte ' ' :: ascii "HTTP/" ++ _)) = _
  simp only [List.append_assoc, List.cons_append, List.nil_append]

theorem response_text (major minor code reason : Bytes) :
    (StartLine.response major minor code reason).text = ascii "HTTP/" ++
      ((major ++ byte '.' :: (minor ++ byte ' ' :: (code ++ [byte ' ']))) ++ (reason ++ crlf)) := by
  show ascii "HTTP/" ++ (major ++ byte '.' :: (minor ++ byte ' ' :: (code ++ byte ' ' :: (reason ++ crlf)))) = _
  simp only [List.append_assoc, List.cons_append, List.nil_append]

/-- **A first line** is read to its end, and says what it says. -/
theorem start_runs {l : StartLine} (hl : l.WellFormed) (hawaits : p.Awaits l)
    (hroom : p.nread + l.text.length ≤ httpMaxHeaderSize) :
    ∃ i, Runs p none l.text l.events ({ p.begins l with index := i }.reach .headerFieldStart l.text.length)
      none := by
  cases l with
  | request m url major minor =>
    obtain ⟨hne, hurl, hmajor, hzero, hminor⟩ := hl
    rw [request_text] at hroom ⊢
    generalize hlength : (methodString m ++ ([byte ' '] ++ ((url ++ [byte ' ']) ++
      (ascii "HTTP/" ++ (major ++ byte '.' :: (minor ++ crlf)))))).length = size at hroom ⊢
    simp only [List.length_append, List.length_cons, List.length_nil, show (ascii "HTTP/").length = 5 from rfl,
      show crlf.length = 2 from rfl] at hlength
    have hmethod := method_start m hawaits (by omega)
    obtain ⟨i, hblank⟩ := method_end (p := { fresh p with type := .request })
      (n := (methodString m).length) m (by show p.nread + _ < _; omega)
    have hto := url_runs (p := { fresh p with type := .request }.spelling m i)
      (n := (methodString m).length + 1) hne hurl (by show p.nread + _ + _ < _; omega)
    have hhttp := request_http (p := { fresh p with type := .request }.spelling m i)
      (n := (methodString m).length + 1 + url.length + 1) (by show p.nread + _ + _ ≤ _; omega)
    have hversion := request_version (p := { fresh p with type := .request }.spelling m i)
      (n := (methodString m).length + 1 + url.length + 1 + 5) hmajor hzero hminor
      (by show p.nread + _ + _ + _ + _ + _ ≤ _; omega)
    refine ⟨i, ?_⟩
    rw [← hlength, show (methodString m).length + (0 + 1 + (url.length + (0 + 1) + (5 +
      (major.length + (minor.length + 2 + 1))))) = (methodString m).length + 1 + url.length + 1 + 5 +
        major.length + 1 + minor.length + 2 by omega]
    exact hmethod.append (hblank.append (hto.append (hhttp.append hversion)))
  | response major minor code reason =>
    obtain ⟨hmajor, hminor, hcode, hreason⟩ := hl
    rw [response_text] at hroom ⊢
    generalize hlength : (ascii "HTTP/" ++ ((major ++ byte '.' :: (minor ++ byte ' ' :: (code ++
      [byte ' ']))) ++ (reason ++ crlf))).length = size at hroom ⊢
    simp only [List.length_append, List.length_cons, List.length_nil, show (ascii "HTTP/").length = 5 from rfl,
      show crlf.length = 2 from rfl] at hlength
    have hstart := response_start hawaits (by omega)
    have hversion := response_version (p := { fresh p with type := .response }) (n := 5) hmajor hminor
      hcode (by show p.nread + _ + _ + _ + _ + _ + _ + _ ≤ _; omega)
    obtain ⟨i, hto⟩ := reason_runs (p := p.begins (.response major minor code reason))
      (n := 5 + major.length + 1 + minor.length + 1 + code.length + 1) hreason
      (by show p.nread + _ + _ + _ ≤ _; omega)
    refine ⟨i, ?_⟩
    rw [← hlength, show 5 + (major.length + (minor.length + (code.length + (0 + 1) + 1) + 1) +
      (reason.length + 2)) = 5 + major.length + 1 + minor.length + 1 + code.length + 1 + reason.length + 2
        by omega]
    exact hstart.append (hversion.append hto)

end Pixie.Engine
