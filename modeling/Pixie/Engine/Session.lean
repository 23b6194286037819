/-
  The calls of `http_parser_execute` are those that the wrapper is proved for.

  `session` is `http_parser_execute` on buffer after buffer, as the wrapper calls it: the empty ones
  are ends of the stream, and the calls go on after an error.  The wrapper's results assume that the
  calls follow the grammar `Executes`; here the machine itself is shown to follow it, whatever the
  buffers hold:

    * `scan_good` — the bytes of a list, from `step_good`, one by one;
    * `flush_good` — the string that is handed over where the buffer ends;
    * `execute_good`, `executeEof_good` — one call, from a machine that `Follows` a phase;
    * `session_executes` — all of them.

  In passing no assertion of `http_parser_execute` fails, and no table is read behind its end.
-/
import Pixie.Engine.Scan

namespace Pixie.Engine

open Pixie.Decimal Pixie.Http Pixie.Run

variable {p q : HttpParser} {o : Open} {ph : Phase}

/-! ## Many bytes -/

/-- What the bytes of a list come to, when there are `size` of them. -/
def Scanned.Good (ph : Phase) (size : Nat) (r : Scanned) : Prop :=
  ∃ ph', Path Emits ph r.events ph' ∧
    match r.exit with
    | .next => Stands r.parser r.opened ph' ∧ Rests r.parser ∧ r.count = size
    | .leave =>
      Stands r.parser r.opened ph' ∧ Rests r.parser ∧ r.count ≤ size ∧
        ∃ es, r.events = es ++ [.messageComplete]
    | .error => r.parser.httpErrno ≠ .ok ∧ r.count < size
    | .reexecute => False

theorem scan_good (bs : Bytes) (h : Stands p o ph) (hr : Rests p) :
    ∃ r, scan p o bs = some r ∧ r.Good ph bs.length := by
  induction bs generalizing p o ph with
  | nil => exact ⟨_, rfl, ph, .nil ph, h, hr, rfl⟩
  | cons ch bs ih =>
    obtain ⟨s, hs, ph', hpath, hgood⟩ := step_good ch h hr
    rw [scan, hs]
    dsimp only [Option.bind_eq_bind, Option.bind_some]
    cases hexit : s.exit with
    | next =>
      rw [hexit] at hgood
      obtain ⟨r, hscan, ph'', hpath', hr'⟩ := ih hgood.1 hgood.2
      rw [if_pos rfl, hscan]
      refine ⟨_, rfl, ph'', hpath.append hpath', ?_⟩
      unfold Scanned.after
      dsimp only
      cases hexit' : r.exit with
      | next =>
        rw [hexit'] at hr'
        exact ⟨hr'.1, hr'.2.1, congrArg (· + 1) hr'.2.2⟩
      | leave =>
        rw [hexit'] at hr'
        obtain ⟨hstands, hrests, hcount, es, hes⟩ := hr'
        exact ⟨hstands, hrests, Nat.succ_le_succ hcount, s.events ++ es, by rw [hes, List.append_assoc]⟩
      | error =>
        rw [hexit'] at hr'
        exact ⟨hr'.1, Nat.succ_lt_succ hr'.2⟩
      | reexecute =>
        rw [hexit'] at hr'
        exact hr'
    | leave =>
      rw [hexit] at hgood
      exact ⟨_, rfl, ph', hpath, hgood.1, hgood.2.1, Nat.succ_le_succ (Nat.zero_le _), hgood.2.2⟩
    | error =>
      rw [hexit] at hgood
      exact ⟨_, rfl, ph', hpath, hgood, Nat.succ_pos _⟩
    | reexecute =>
      rw [hexit] at hgood
      exact hgood.elim

/-- The url is open in the states of its first line. -/
theorem at_inUrl (hs : p.state.inUrl = true) : At p ph ↔ ph = .start ∧ p.flags.trailing = false := by
  unfold At
  revert hs
  cases p.state <;> simp [State.inUrl, openMark]

theorem at_inBody (hs : p.state.inBody = true) (h : At p ph) :
    ph = .body ∨ ph = .bodyEof := by
  unfold At at h
  revert hs h
  cases p.state <;> simp +contextual [State.inBody]

/-- The string that is open may be handed over at any time. -/
theorem emits_open {k : Mark} {d : Bytes} (h : Stands p (some (k, d)) ph) :
    ∃ ph', Emits ph (k.event d) ph' ∧ At p ph' := by
  obtain ⟨-, hat, hfits⟩ := h
  unfold Fits at hfits
  split at hfits
  · rename_i hbody
    obtain rfl : k = .body := Option.some.inj (hfits.resolve_left (Option.some_ne_none _))
    rcases at_inBody hbody hat with rfl | rfl
    · exact ⟨_, .body d, hat⟩
    · exact ⟨_, .bodyEof d, hat⟩
  · have hk : openMark p.state = some k := hfits.symm
    cases k with
    | body => cases hs : p.state <;> rw [hs] at hk <;> cases hk
    | url =>
      have hurl : p.state.inUrl = true := decide_eq_true hk
      obtain ⟨rfl, ht⟩ := (at_inUrl hurl).mp hat
      exact ⟨_, .url d, (at_inUrl hurl).mpr ⟨rfl, ht⟩⟩
    | headerField =>
      have hs : p.state = .headerField := by
        revert hk
        cases p.state <;> simp [openMark]
      simp only [At, hs] at hat ⊢
      exact ⟨_, emits_headerField hat.1 d, .inr (.inl rfl), hat.2⟩
    | headerValue =>
      have hs : p.state = .headerValue := by
        revert hk
        cases p.state <;> simp [openMark]
      simp only [At, hs] at hat ⊢
      exact ⟨_, emits_headerValue hat.1 d, .inr rfl, hat.2⟩
    | status =>
      have hs : p.state = .resStatus := by
        revert hk
        cases p.state <;> simp [openMark]
      simp only [At, hs] at hat ⊢
      obtain ⟨rfl, ht⟩ := hat
      exact ⟨_, .status d, rfl, ht⟩

theorem flush_good (h : Stands p o ph) :
    ∃ ph', Path Emits ph (flush o) ph' ∧ Stands p (reopened p.state) ph' := by
  cases o with
  | none => exact ⟨ph, .nil ph, h.reopen⟩
  | some s =>
    obtain ⟨ph', he, hat⟩ := emits_open h
    exact ⟨ph', .cons he (.nil _), h.live, hat, fits_reopened p.state⟩

/-! ## One call -/

/-- The machine follows the grammar: it stands where a buffer may begin, or has failed. -/
def Follows (p : HttpParser) (ph : Phase) : Prop :=
  if p.httpErrno = .ok then Stands p (reopened p.state) ph ∧ Rests p else ph = .failed

theorem follows_init (t : ParserType) : Follows (.init t) .between := by
  refine (if_pos rfl).mpr ⟨⟨⟨rfl, Nat.zero_le _⟩, ?_, fits_reopened _⟩, rests_of_settled ?_⟩
  · cases t <;> rfl
  · cases t <;> rfl

theorem follows_stands (h : Stands p (reopened p.state) ph) (hr : Rests p) : Follows p ph :=
  (if_pos h.live.1).mpr ⟨h, hr⟩

theorem follows_failed (h : p.httpErrno ≠ .ok) : Follows p .failed := (if_neg h).mpr rfl

/-- In a message, but not in a body that goes on to the end of the stream. -/
def Phase.Midway (ph : Phase) : Prop := ph ≠ .between ∧ ph ≠ .bodyEof ∧ ph ≠ .failed

theorem inHeaders_midway {t : Bool} (h : InHeaders t ph) : Phase.Midway ph := by
  rcases h with rfl | rfl | rfl
  · cases t <;> exact ⟨by decide, by decide, by decide⟩
  · exact ⟨by simp, by simp, by simp⟩
  · exact ⟨by simp, by simp, by simp⟩

/-- Where the machine rests, its state says whether it is in a message. -/
theorem phase_cases (hat : At p ph) (hne : p.state ≠ .headersDone) :
    (p.state = .dead ∨ p.state = .startReqOrRes ∨ p.state = .startRes ∨ p.state = .startReq) ∧
        ph = .between ∨
      p.state = .bodyIdentityEof ∧ ph = .bodyEof ∨
      p.state ≠ .bodyIdentityEof ∧
        (p.state ≠ .dead ∧ p.state ≠ .startReqOrRes ∧ p.state ≠ .startRes ∧ p.state ≠ .startReq) ∧
          Phase.Midway ph := by
  have hbody : Phase.Midway .body := ⟨by decide, by decide, by decide⟩
  have hstart : Phase.Midway .start := ⟨by decide, by decide, by decide⟩
  unfold At at hat
  revert hat hne
  cases hs : p.state <;> intro hat hne
  case dead => exact .inl ⟨.inl rfl, hat⟩
  case startReqOrRes => exact .inl ⟨.inr (.inl rfl), hat⟩
  case startRes => exact .inl ⟨.inr (.inr (.inl rfl)), hat⟩
  case startReq => exact .inl ⟨.inr (.inr (.inr rfl)), hat⟩
  case bodyIdentityEof => exact .inr (.inl ⟨rfl, hat⟩)
  case headersDone => exact absurd rfl hne
  case headerFieldStart =>
    exact .inr (.inr ⟨by decide, by decide, inHeaders_midway hat⟩)
  case headersAlmostDone =>
    exact .inr (.inr ⟨by decide, by decide, inHeaders_midway hat⟩)
  case headerField =>
    exact .inr (.inr ⟨by decide, by decide, inHeaders_midway hat.1⟩)
  case headerValueStart =>
    exact .inr (.inr ⟨by decide, by decide, inHeaders_midway (InLine.inHeaders hat)⟩)
  case headerAlmostDone =>
    exact .inr (.inr ⟨by decide, by decide, inHeaders_midway (InLine.inHeaders hat)⟩)
  case headerValueLws =>
    exact .inr (.inr ⟨by decide, by decide, inHeaders_midway (InLine.inHeaders hat)⟩)
  case headerValue =>
    exact .inr (.inr ⟨by decide, by decide,
      inHeaders_midway (InLine.inHeaders hat.1)⟩)
  case messageDone =>
    cases hat
    exact .inr (.inr ⟨by decide, by decide, hbody⟩)
  all_goals
    obtain ⟨rfl, -⟩ := hat
    first
    | exact .inr (.inr ⟨by decide, by decide, hstart⟩)
    | exact .inr (.inr ⟨by decide, by decide, hbody⟩)

theorem stands_not_failed (h : Stands p o ph) (hr : Rests p) : ph ≠ .failed := by
  rcases phase_cases h.at_ hr.1 with ⟨-, rfl⟩ | ⟨-, rfl⟩ | ⟨-, -, hmid⟩
  · decide
  · decide
  · exact hmid.2.2

/-- After an error nothing is read. -/
theorem execute_failed (data : Bytes) (h : p.httpErrno ≠ .ok) :
    httpParserExecute p data = some (p, ⟨[], 0⟩) := by
  unfold httpParserExecute
  rw [if_pos h]

theorem path_messageComplete {es : List Event} {ph' : Phase}
    (h : Path Emits ph (es ++ [.messageComplete]) ph') : ph' = .between := by
  obtain ⟨u, -, hlast⟩ := h.split
  cases hlast with
  | cons he hnil =>
    cases he
    cases hnil
    rfl

/-- A call on a buffer with bytes. -/
theorem execute_good (data : Bytes) (hdata : data ≠ []) (h : Stands p o ph) (hr : Rests p) :
    ∃ q ex ph', httpParserExecute p data = some (q, ex) ∧ Executes ph (data, ex) ph' ∧
      Follows q ph' := by
  have hnot := stands_not_failed h hr
  obtain ⟨r, hscan, hexecute⟩ := execute_eq data hdata h hr
  obtain ⟨r', hscan', ph', hpath, hgood⟩ := scan_good data h.reopen hr
  obtain rfl : r = r' := Option.some.inj (hscan.symm.trans hscan')
  rw [hexecute]
  unfold Scanned.execute
  cases hexit : r.exit with
  | next =>
    rw [hexit] at hgood
    obtain ⟨hstands, hrests, hcount⟩ := hgood
    obtain ⟨ph'', hflush, hreopen⟩ := flush_good hstands
    refine ⟨_, _, ph'', rfl, ?_, follows_stands hreopen hrests⟩
    rw [if_pos rfl, hcount]
    exact .read hnot hdata (hpath.append hflush)
  | leave =>
    rw [hexit] at hgood
    obtain ⟨hstands, hrests, hcount, es, hes⟩ := hgood
    rw [hes] at hpath
    obtain rfl := path_messageComplete hpath
    refine ⟨_, _, .between, rfl, ?_, follows_stands hstands.reopen hrests⟩
    rw [if_neg (by decide), hes]
    rcases Nat.lt_or_ge r.count data.length with hlt | hge
    · exact .upgrade hlt hpath
    · rw [show r.count = data.length from le_antisymm hcount hge]
      exact .read hnot hdata hpath
  | error =>
    rw [hexit] at hgood
    refine ⟨_, _, .failed, rfl, ?_, follows_failed hgood.1⟩
    rw [if_neg (by decide)]
    exact .error hnot hgood.2 hpath
  | reexecute =>
    rw [hexit] at hgood
    exact hgood.elim

/-- A call on an empty buffer. -/
theorem executeEof_good (h : Stands p o ph) (hr : Rests p) :
    ∃ q ex ph', httpParserExecute p [] = some (q, ex) ∧ Executes ph ([], ex) ph' ∧ Follows q ph' := by
  have hfollows := follows_stands h.reopen hr
  have hat := h.at_
  have hexecute : httpParserExecute p [] = some (executeEof p) := by
    unfold httpParserExecute
    rw [if_neg (not_not.mpr h.live.1), if_pos rfl]
  suffices hone : (executeEof p).2 = (zeroLength ph).1 ∧ Follows (executeEof p).1 (zeroLength ph).2 from
    ⟨_, _, _, hexecute, hone.1 ▸ .empty ph, hone.2⟩
  unfold executeEof
  rcases phase_cases hat hr.1 with ⟨hs, rfl⟩ | ⟨hs, rfl⟩ | ⟨hs, hs', hmid⟩
  · rcases hs with hs | hs | hs | hs
    · rw [hs]
      exact ⟨rfl, hfollows⟩
    · rw [hs]
      exact ⟨rfl, hfollows⟩
    · rw [hs]
      exact ⟨rfl, hfollows⟩
    · rw [hs]
      exact ⟨rfl, hfollows⟩
  · rw [hs]
    exact ⟨rfl, hfollows⟩
  · have hzero : zeroLength ph = (⟨[], 1⟩, .failed) := by
      cases ph with
      | between => exact absurd rfl hmid.1
      | bodyEof => exact absurd rfl hmid.2.1
      | failed => exact absurd rfl hmid.2.2
      | _ => rfl
    rw [hzero]
    split
    · exact absurd ‹_› hs
    · exact absurd ‹_› hs'.1
    · exact absurd ‹_› hs'.2.1
    · exact absurd ‹_› hs'.2.2.1
    · exact absurd ‹_› hs'.2.2.2
    · exact ⟨rfl, follows_failed Errno.noConfusion⟩

/-- Any call. -/
theorem call_good (data : Bytes) (h : Follows p ph) :
    ∃ q ex ph', httpParserExecute p data = some (q, ex) ∧ Executes ph (data, ex) ph' ∧
      Follows q ph' := by
  by_cases hok : p.httpErrno = .ok
  · obtain ⟨hstands, hrests⟩ := (if_pos hok).mp h
    by_cases hdata : data = []
    · subst hdata
      exact executeEof_good hstands hrests
    · exact execute_good data hdata hstands hrests
  · obtain rfl : ph = .failed := (if_neg hok).mp h
    exact ⟨p, _, .failed, execute_failed data hok, .failed data, follows_failed hok⟩

/-! ## All the calls -/

/-- `http_parser_execute` on one buffer after the other. -/
def session (p : HttpParser) : List Bytes → Option (HttpParser × List (Bytes × Execute))
  | [] => some (p, [])
  | data :: buffers => do
    let (p, ex) ← httpParserExecute p data
    let (p, calls) ← session p buffers
    some (p, (data, ex) :: calls)

theorem session_good (buffers : List Bytes) (h : Follows p ph) :
    ∃ q calls ph', session p buffers = some (q, calls) ∧ calls.map Prod.fst = buffers ∧
      Path Executes ph calls ph' ∧ Follows q ph' := by
  induction buffers generalizing p ph with
  | nil => exact ⟨p, [], ph, rfl, rfl, .nil ph, h⟩
  | cons data buffers ih =>
    obtain ⟨q, ex, ph', hcall, hexecutes, hfollows⟩ := call_good data h
    obtain ⟨r, calls, ph'', hsession, hbuffers, hpath, hfollows'⟩ := ih hfollows
    refine ⟨r, (data, ex) :: calls, ph'', ?_, ?_, .cons hexecutes hpath, hfollows'⟩
    · rw [session, hcall]
      dsimp only [Option.bind_eq_bind, Option.bind_some]
      rw [hsession]
      rfl
    · rw [List.map_cons, hbuffers]

/-- **The machine follows the grammar.**  A parser of any type, fed any buffers: `http_parser_execute`
    meets no assertion, and its calls are those that the results about the wrapper assume. -/
theorem session_executes (t : ParserType) (buffers : List Bytes) :
    ∃ p calls ph, session (.init t) buffers = some (p, calls) ∧ calls.map Prod.fst = buffers ∧
      Path Executes .between calls ph := by
  obtain ⟨p, calls, ph, hsession, hbuffers, hpath, -⟩ := session_good buffers (follows_init t)
  exact ⟨p, calls, ph, hsession, hbuffers, hpath⟩

end Pixie.Engine
