/-
  The end of the stream: what `appendEOF` does to the messages of a session.

  `appendEOF` runs `http_parser` on no bytes unless `messageCompleteFlag` is set.  In a stream the flag
  is reset in the callback that sets it, so the guard never holds anything back, and `http_parser`
  stays in the body it has just completed: each further call completes, and delivers, a message that
  is not there.  In single mode the flag of an EARLIER message is still set, and the body that the end
  of the stream would complete is not delivered.  An error that `http_parser` reports for a message
  that is cut off is not passed on at all.

  1. `Part`, `DeliveredOnce` — the callbacks of one message of a trace; they end in the delivery, and
     there is no other.

  2. `part_delivered` — by the grammar alone this holds of every message but one in a body that is
     read until the end of the stream.

  3. `Counted` — the deliveries and the flag as functions of the callbacks so far; `endCalls_silent`,
     `endCalls_streaming` and `endCalls_single` say which callbacks the calls of `appendEOF` make.

  4. `exactlyOnce_iff` — puts them together.
-/
import Pixie.Http.Grammar
import Pixie.Http.Callbacks

namespace Pixie.Http

open Pixie.Decimal Pixie.Run

/-! ## The end of a stream -/

/-- `n` calls of `appendEOF`, with `http_parser` at `ph`: the parser they leave, and the callbacks
    they made. -/
def endCalls : Nat → HTTPParser → Phase → Except Fault (HTTPParser × List Event)
  | 0, p, _ => .ok (p, [])
  | n + 1, p, ph => do
    let q ← appendEOF p (zeroLength ph).1
    -- With the flag set `http_parser_execute` is not called.
    if p.messageCompleteFlag then endCalls n q ph
    else
      (endCalls n q (zeroLength ph).2).map fun r => (r.1, (zeroLength ph).1.events ++ r.2)

/-! ## The messages of a trace -/

/-- `own` are the callbacks between a `message_begin` and the next, or the end: `after` is what
    follows them. -/
def Part (tr own after : List Event) : Prop :=
  .messageBegin ∉ own ∧ (after = [] ∨ ∃ rest, after = .messageBegin :: rest) ∧
    ∃ before, tr = before ++ .messageBegin :: (own ++ after)

/-- The callbacks of a message end in its delivery, and there is no other. -/
def DeliveredOnce (own : List Event) : Prop :=
  ∃ es, own = es ++ [.messageComplete] ∧ .messageComplete ∉ es

/-- The stream stopped within a message. -/
def Phase.Cut (ph : Phase) : Prop := ph ≠ .between ∧ ph ≠ .bodyEof

instance (ph : Phase) : Decidable ph.Cut := inferInstanceAs (Decidable (_ ∧ _))

theorem deliveredOnce_snoc (es : List Event) :
    DeliveredOnce (es ++ [.messageComplete]) ↔ .messageComplete ∉ es := by
  constructor
  · rintro ⟨es', heq, hes'⟩
    obtain ⟨rfl, -⟩ := List.append_inj' heq rfl
    exact hes'
  · exact fun h => ⟨es, rfl, h⟩

/-! ## What the grammar says -/

theorem bodyEof_stays {ph : Phase} {es : List Event} (h : Path Occurs .bodyEof es ph) :
    ph = .bodyEof := by
  generalize hv : Phase.bodyEof = v at h
  induction h with
  | nil => rfl
  | cons he _ ih =>
    subst hv
    cases he with
    | emits he =>
      cases he with
      | bodyEof => exact ih rfl
      | headersComplete _ _ _ h => simp at h
      | messageComplete _ h => simp at h
    | endOfStream => exact ih rfl

/-- Between messages only a message can begin. -/
theorem between_begins {ph : Phase} {e : Event} (h : Occurs .between e ph) : e = .messageBegin := by
  cases h with
  | emits h =>
    cases h with
    | messageBegin => rfl
    | blankLine => rfl
    | headersComplete _ _ _ h => simp at h
    | messageComplete _ h => simp at h

/-- And only there. -/
theorem begins_between {v ph : Phase} (h : Occurs v .messageBegin ph) : v = .between := by
  cases h with
  | emits h =>
    cases h with
    | messageBegin => rfl
    | blankLine => rfl

/-- A message is ended by its last callback, and nothing else. -/
theorem ends_message {v : Phase} {e : Event} (hv : v ≠ .between) (h : Occurs v e .between) :
    e = .messageComplete := by
  cases h with
  | emits h =>
    cases h with
    | blankLine => exact absurd rfl hv
    | headersComplete _ _ _ _ h => simp at h
    | messageComplete => rfl

/-- The last callback ends it, except for the body that is read until the end of the stream. -/
theorem completes_message {v ph : Phase} (h : Occurs v .messageComplete ph) :
    ph = .between ∨ ph = .bodyEof := by
  cases h with
  | emits h => cases h with | messageComplete => exact .inl rfl
  | endOfStream => exact .inr rfl

/-- The callbacks made within a message, from any point in it. -/
theorem message_run {v u : Phase} {own : List Event} (h : Path Occurs v own u)
    (hv : v ≠ .between) (hown : .messageBegin ∉ own) :
    (u = .between ∧ DeliveredOnce own) ∨ u = .bodyEof ∨ (u.Cut ∧ .messageComplete ∉ own) := by
  induction h with
  | nil v =>
    by_cases hbody : v = .bodyEof
    · exact .inr (.inl hbody)
    · exact .inr (.inr ⟨⟨hv, hbody⟩, List.not_mem_nil⟩)
  | @cons v w u e own he hpath ih =>
    have htail := (List.ne_and_not_mem_of_not_mem_cons hown).2
    by_cases hw : w = .between
    · -- The message ends here: nothing more is its own.
      subst hw
      obtain rfl := ends_message hv he
      cases hpath with
      | nil => exact .inl ⟨rfl, [], rfl, List.not_mem_nil⟩
      | cons he' _ =>
        obtain rfl := between_begins he'
        exact absurd List.mem_cons_self htail
    · by_cases hcomplete : e = .messageComplete
      · subst hcomplete
        obtain rfl := (completes_message he).resolve_left hw
        exact .inr (.inl (bodyEof_stays hpath))
      · rcases ih hw htail with ⟨hu, es, rfl, hes⟩ | hu | ⟨hu, hown'⟩
        · refine .inl ⟨hu, e :: es, rfl, ?_⟩
          exact List.not_mem_cons_of_ne_of_not_mem (Ne.symm hcomplete) hes
        · exact .inr (.inl hu)
        · refine .inr (.inr ⟨hu, ?_⟩)
          exact List.not_mem_cons_of_ne_of_not_mem (Ne.symm hcomplete) hown'

/-- **Each message of a trace** is delivered once, unless it is the last and the trace ends in it. -/
theorem part_delivered {ph : Phase} {tr own after : List Event} (h : Path Occurs .between tr ph)
    (hpart : Part tr own after) :
    own = [] ∨ DeliveredOnce own ∨
      (after = [] ∧ own = since (· = .messageBegin) tr ∧ (ph = .bodyEof ∨ ph.Cut)) := by
  obtain ⟨hown, hafter, before, rfl⟩ := hpart
  obtain ⟨v, -, hrun⟩ := h.split
  cases hrun with
  | @cons _ w _ _ _ hbegin hrun =>
    obtain ⟨u, hown', hrest⟩ := hrun.split
    by_cases hw : w = .between
    · -- A blank line: the next message begins at once.
      subst hw
      cases hown' with
      | nil => exact .inl rfl
      | cons he _ =>
        obtain rfl := between_begins he
        exact absurd List.mem_cons_self hown
    · rcases message_run hown' hw hown with ⟨-, honce⟩ | hu
      · exact .inr (.inl honce)
      · have hnotBetween : u ≠ .between := by
          rcases hu with rfl | ⟨⟨hu, -⟩, -⟩
          · exact nofun
          · exact hu
        rcases hafter with rfl | ⟨rest, rfl⟩
        · cases hrest with
          | nil =>
            refine .inr (.inr ⟨rfl, ?_, hu.imp_right And.left⟩)
            rw [List.append_nil]
            exact (since_cut (p := (· = Event.messageBegin)) rfl
              fun x hx hb => hown (hb ▸ hx)).symm
        · cases hrest with
          | cons he _ => exact absurd (begins_between he) hnotBetween

/-! ## Deliveries and the flag -/

/-- The parser `p` after the callbacks `es`: the flag is set by a completion, in single mode for good,
    and each completion is a delivery. -/
structure Counted (streaming : Bool) (es : List Event) (p : HTTPParser) : Prop where
  mode : p.streamMessagesOption = streaming
  delegate : p.onMessageLambdaCB = true
  flag : p.messageCompleteFlag = (!streaming && decide (.messageComplete ∈ es))
  count : (deliveries p).length = es.count .messageComplete

variable {streaming : Bool} {es : List Event} {ph : Phase} {p q : HTTPParser} {n : Nat}

theorem counted_configured (streaming headers parseError : Bool) :
    Counted streaming [] (HTTPParser.configured streaming headers true parseError) :=
  ⟨rfl, rfl, by cases streaming <;> rfl, rfl⟩

theorem Counted.messageComplete (h : Counted streaming es p) :
    Counted streaming (es ++ [.messageComplete]) (messageCompleteCb p) := by
  have hcount : (deliveries p ++ [(p.parserContext.message, p.building)]).length =
      (es ++ [Event.messageComplete]).count .messageComplete := by
    rw [List.length_append, List.count_append, h.count]
    rfl
  cases streaming with
  | true =>
    rw [messageCompleteCb_streaming h.mode]
    refine ⟨h.mode, h.delegate, rfl, ?_⟩
    rw [if_pos h.delegate, ← hcount]
    exact congrArg List.length (deliveries_call_message p _ _)
  | false =>
    rw [messageCompleteCb_single h.mode]
    refine ⟨h.mode, h.delegate, by simp, ?_⟩
    rw [if_pos h.delegate, ← hcount]
    exact congrArg List.length (deliveries_call_message p _ _)

theorem callback_counted {e : Event} (h : Counted streaming es p) (hq : callback p e = .ok q) :
    Counted streaming (es ++ [e]) q := by
  by_cases he : e = .messageComplete
  · subst he
    cases hq
    exact h.messageComplete
  · have hwithin := callback_within he hq
    refine ⟨hwithin.streaming.trans h.mode, hwithin.delegate.trans h.delegate, ?_, ?_⟩
    · rw [hwithin.completeFlag, h.flag]
      simp [Ne.symm he]
    · rw [hwithin.deliveries, h.count, List.count_append, List.count_singleton]
      simp [he]

theorem callbacks_counted {es' : List Event} (h : Counted streaming es p)
    (hq : callbacks p es' = .ok q) : Counted streaming (es ++ es') q :=
  foldlM_keeps (fun _ _ _ _ h hq => callback_counted h hq) h hq

theorem appendBytes_counted {buffer : Bytes} {r : Execute} (h : Counted streaming es p)
    (hq : (appendBytes p buffer r).map Prod.fst = .ok q) :
    Counted streaming (es ++ r.events) q := by
  obtain ⟨q', hq', hcall⟩ := appendBytes_inv hq
  have hcallbacks : Counted streaming (es ++ r.events) q' :=
    callbacks_counted (p := { p with messageData := p.messageData ++ buffer })
      ⟨h.mode, h.delegate, h.flag, h.count⟩ hq'
  rcases hcall with rfl | rfl
  · exact hcallbacks
  · refine ⟨hcallbacks.mode, hcallbacks.delegate, hcallbacks.flag, ?_⟩
    rw [deliveries_call_parseError]
    exact hcallbacks.count

theorem feed_counted {calls : List (Bytes × Execute)} (h : Counted streaming [] p)
    (hq : feed p calls = .ok q) : Counted streaming (eventsOf calls) q := by
  refine foldlM_keeps (p := []) (I := fun calls => Counted streaming (eventsOf calls)) ?_ h hq
  intro calls c x y hx hy
  rw [eventsOf_snoc]
  exact appendBytes_counted hx hy

/-! ## The calls of `appendEOF` -/

/-- The callbacks that `n` calls of `appendEOF` make. -/
def endMade (streaming : Bool) (n : Nat) (es : List Event) : Phase → List Event
  | .bodyEof =>
    if streaming then List.replicate n .messageComplete
    else if .messageComplete ∈ es then [] else [.messageComplete]
  | _ => []

theorem endCalls_flagged (hflag : p.messageCompleteFlag = true) :
    endCalls n p ph = .ok (p, []) := by
  induction n with
  | zero => rfl
  | succ n ih =>
    rw [endCalls, appendEOF, hflag]
    exact ih

theorem endCalls_silent : ∀ {ph : Phase}, ph ≠ .bodyEof → endCalls n p ph = .ok (p, []) := by
  induction n with
  | zero => exact fun _ => rfl
  | succ n ih =>
    intro ph hph
    have hzero : (zeroLength ph).1.events = [] ∧ (zeroLength ph).2 ≠ .bodyEof := by
      cases ph with
      | bodyEof => exact absurd rfl hph
      | _ => exact ⟨rfl, nofun⟩
    have heof : appendEOF p (zeroLength ph).1 = .ok p := by
      rw [appendEOF, hzero.1]
      exact ite_self _
    rw [endCalls, heof]
    by_cases hflag : p.messageCompleteFlag = true
    · show (if p.messageCompleteFlag then _ else _) = _
      rw [if_pos hflag]
      exact endCalls_flagged hflag
    · show (if p.messageCompleteFlag then _ else _) = _
      rw [if_neg hflag, ih hzero.2, hzero.1]
      rfl

/-- In a body that is read until the end of the stream, with the flag not set. -/
theorem endCalls_bodyEof (hflag : p.messageCompleteFlag = false) :
    endCalls (n + 1) p .bodyEof =
      (endCalls n (messageCompleteCb p) .bodyEof).map fun r => (r.1, .messageComplete :: r.2) := by
  have heof : appendEOF p (zeroLength .bodyEof).1 = .ok (messageCompleteCb p) := by
    rw [appendEOF, hflag]
    rfl
  rw [endCalls, heof]
  show (if p.messageCompleteFlag then _ else _) = _
  rw [if_neg (by rw [hflag]; exact Bool.false_ne_true)]
  rfl

/-- In a stream each call completes the body once more. -/
theorem endCalls_streaming : ∀ {es : List Event} {p : HTTPParser}, Counted true es p →
    ∃ q, endCalls n p .bodyEof = .ok (q, List.replicate n .messageComplete) ∧
      Counted true (es ++ List.replicate n .messageComplete) q := by
  induction n with
  | zero =>
    intro es p h
    refine ⟨p, rfl, ?_⟩
    rw [List.replicate_zero, List.append_nil]
    exact h
  | succ n ih =>
    intro es p h
    obtain ⟨q, hq, hcount⟩ := ih h.messageComplete
    refine ⟨q, ?_, ?_⟩
    · rw [endCalls_bodyEof h.flag, hq]
      rfl
    · rw [List.append_assoc] at hcount
      exact hcount

/-- In single mode the flag stops the second, and the first too if a message has been completed. -/
theorem endCalls_single (h : Counted false es p) (hn : 1 ≤ n) :
    ∃ q, endCalls n p .bodyEof = .ok (q, endMade false n es .bodyEof) ∧
      Counted false (es ++ endMade false n es .bodyEof) q := by
  show ∃ q, endCalls n p .bodyEof = .ok (q, if .messageComplete ∈ es then [] else _) ∧
    Counted false (es ++ if .messageComplete ∈ es then [] else _) q
  by_cases hes : Event.messageComplete ∈ es
  · have hflag : p.messageCompleteFlag = true := by
      rw [h.flag]
      exact decide_eq_true hes
    rw [if_pos hes, List.append_nil]
    exact ⟨p, endCalls_flagged hflag, h⟩
  · have hflag : p.messageCompleteFlag = false := by
      rw [h.flag]
      exact decide_eq_false hes
    obtain ⟨m, rfl⟩ : ∃ m, n = m + 1 := ⟨n - 1, by omega⟩
    have hflag' : (messageCompleteCb p).messageCompleteFlag = true := by
      rw [h.messageComplete.flag]
      simp
    rw [if_neg hes]
    refine ⟨messageCompleteCb p, ?_, h.messageComplete⟩
    rw [endCalls_bodyEof hflag, endCalls_flagged hflag']
    rfl

/-- **The calls of `appendEOF`** never fault, make the callbacks of `endMade`, and leave the parser as
    it is outside a body that is read until the end of the stream. -/
theorem endCalls_made (h : Counted streaming es p) (hn : 1 ≤ n) (ph : Phase) :
    ∃ q, endCalls n p ph = .ok (q, endMade streaming n es ph) ∧
      Counted streaming (es ++ endMade streaming n es ph) q ∧ (ph ≠ .bodyEof → q = p) := by
  by_cases hph : ph = .bodyEof
  · subst hph
    cases streaming with
    | true =>
      obtain ⟨q, hq, hcount⟩ := endCalls_streaming (n := n) h
      exact ⟨q, hq, hcount, fun hne => absurd rfl hne⟩
    | false =>
      obtain ⟨q, hq, hcount⟩ := endCalls_single h hn
      exact ⟨q, hq, hcount, fun hne => absurd rfl hne⟩
  · have hmade : endMade streaming n es ph = [] := by
      cases ph with
      | bodyEof => exact absurd rfl hph
      | _ => rfl
    rw [hmade, List.append_nil]
    exact ⟨p, endCalls_silent hph, h, fun _ => rfl⟩

/-! ## Exactly once -/

/-- What is asked of the end of a stream that stopped at `ph`, when `tr` are all its callbacks and `q`
    is the parser that was `p` before the end: each call of the message delegate is for a completion,
    each message ends in one delivery, and one that is cut off has none and is reported. -/
structure ExactlyOnce (ph : Phase) (tr : List Event) (p q : HTTPParser) : Prop where
  count : (deliveries q).length = tr.count .messageComplete
  once : ∀ own after, Part tr own after →
    if after = [] ∧ ph.Cut then .messageComplete ∉ own else own = [] ∨ DeliveredOnce own
  reported : ph.Cut → .parseError ∈ q.calls.drop p.calls.length

/-- The streams that end as they should: between messages; in a body that is read until the end, if
    in a stream nothing of it was delivered before and `appendEOF` is called once, and in single mode
    if it is the first message or an empty buffer, the last of all, has delivered it. -/
def EndsOnce (streaming : Bool) (n : Nat) (es : List Event) : Phase → Prop
  | .between => True
  | .bodyEof =>
    if streaming then n = 1 ∧ .messageComplete ∉ since (· = .messageBegin) es
    else .messageComplete ∉ es ∨ DeliveredOnce (since (· = .messageBegin) es)
  | _ => False

/-- The callbacks of the end continue those of the session. -/
theorem endMade_occurs (streaming : Bool) (n : Nat) (es : List Event) (ph : Phase) :
    Path Occurs ph (endMade streaming n es ph) ph := by
  have hrepeat : ∀ n, Path Occurs .bodyEof (List.replicate n .messageComplete) .bodyEof := by
    intro n
    induction n with
    | zero => exact .nil _
    | succ n ih => exact .cons .endOfStream ih
  cases ph with
  | bodyEof =>
    cases streaming with
    | true => exact hrepeat n
    | false =>
      show Path Occurs .bodyEof (if .messageComplete ∈ es then [] else [.messageComplete]) .bodyEof
      split
      · exact .nil _
      · exact hrepeat 1
  | _ => exact .nil _

/-- In a body that is read until the end, everything hangs on the last message. -/
theorem once_bodyEof {tr : List Event} (h : Path Occurs .between tr .bodyEof) :
    (∀ own after, Part tr own after → own = [] ∨ DeliveredOnce own) ↔
      DeliveredOnce (since (· = .messageBegin) tr) := by
  constructor
  · intro hparts
    have hbegin : ∃ e ∈ tr, e = Event.messageBegin := by
      cases h with
      | cons he _ => exact ⟨_, List.mem_cons_self, between_begins he⟩
    obtain ⟨before, e, htr, rfl, hsince⟩ := exists_since hbegin
    have hpart : Part tr (since (· = .messageBegin) tr) [] :=
      ⟨fun hmem => hsince _ hmem rfl, .inl rfl, before, by rw [List.append_nil]; exact htr⟩
    refine (hparts _ _ hpart).resolve_left ?_
    -- The trace does not stop right where the message begins.
    intro hnil
    rw [hnil] at htr
    rw [htr] at h
    obtain ⟨v, -, hlast⟩ := h.split
    cases hlast with
    | cons he hrest =>
      cases hrest with
      | nil => cases he with | emits he => cases he
  · intro honce own after hpart
    rcases part_delivered h hpart with hnil | hown | ⟨-, hown, -⟩
    · exact .inl hnil
    · exact .inr hown
    · rw [hown]
      exact .inr honce

/-- A stream has one delivery at its end exactly if there is one call. -/
theorem deliveredOnce_replicate (own : List Event) (hn : 1 ≤ n) :
    DeliveredOnce (own ++ List.replicate n .messageComplete) ↔
      n = 1 ∧ .messageComplete ∉ own := by
  obtain ⟨m, rfl⟩ : ∃ m, n = m + 1 := ⟨n - 1, by omega⟩
  rw [List.replicate_succ', ← List.append_assoc, deliveredOnce_snoc, List.mem_append, not_or,
    List.mem_replicate]
  constructor
  · rintro ⟨hown, hm⟩
    have hzero : m = 0 := by
      by_contra hne
      exact hm ⟨hne, rfl⟩
    exact ⟨by omega, hown⟩
  · rintro ⟨hm, hown⟩
    exact ⟨hown, fun h => h.1 (by omega)⟩

/-- What the last message has been through when the end has been reached. -/
theorem endsOnce_bodyEof (streaming : Bool) (es : List Event) (hn : 1 ≤ n) :
    DeliveredOnce (since (· = .messageBegin) (es ++ endMade streaming n es .bodyEof)) ↔
      EndsOnce streaming n es .bodyEof := by
  have hmade : ∀ e ∈ endMade streaming n es .bodyEof, ¬ e = Event.messageBegin := by
    intro e he hbegin
    subst hbegin
    revert he
    cases streaming with
    | true => exact fun he => nomatch (List.eq_of_mem_replicate he : Event.messageBegin = _)
    | false =>
      show Event.messageBegin ∈ (if .messageComplete ∈ es then [] else [.messageComplete]) → _
      split
      · exact List.not_mem_nil
      · exact fun he => nomatch List.mem_singleton.mp he
  rw [since_append_of_not hmade]
  cases streaming with
  | true => exact deliveredOnce_replicate _ hn
  | false =>
    show DeliveredOnce (_ ++ if .messageComplete ∈ es then [] else [.messageComplete]) ↔
      (.messageComplete ∉ es ∨ DeliveredOnce (since (· = .messageBegin) es))
    by_cases hes : Event.messageComplete ∈ es
    · rw [if_pos hes, List.append_nil, or_iff_right (not_not_intro hes)]
    · rw [if_neg hes, deliveredOnce_snoc]
      exact ⟨fun _ => .inl hes, fun _ hown => hes (mem_of_mem_since hown)⟩

/-- A message that is cut off is not reported by calls that change nothing. -/
theorem not_exactlyOnce_of_cut {tr : List Event} (hcut : ph.Cut) : ¬ ExactlyOnce ph tr p p := by
  intro honce
  have hreported := honce.reported hcut
  rw [List.drop_length] at hreported
  cases hreported

/-- With no message cut off, it is the deliveries that count. -/
theorem exactlyOnce_whole {tr : List Event} (hcut : ¬ ph.Cut)
    (hcount : (deliveries q).length = tr.count .messageComplete) :
    ExactlyOnce ph tr p q ↔
      ∀ own after, Part tr own after → own = [] ∨ DeliveredOnce own := by
  constructor
  · intro honce own after hpart
    have hown := honce.once own after hpart
    rw [if_neg fun hc => hcut hc.2] at hown
    exact hown
  · intro hparts
    refine ⟨hcount, fun own after hpart => ?_, fun hc => absurd hc hcut⟩
    rw [if_neg fun hc => hcut hc.2]
    exact hparts own after hpart

/-- Between messages nothing is open. -/
theorem once_between {tr : List Event} (h : Path Occurs .between tr .between) {own after : List Event}
    (hpart : Part tr own after) : own = [] ∨ DeliveredOnce own := by
  rcases part_delivered h hpart with hnil | hown | ⟨-, -, hend⟩
  · exact .inl hnil
  · exact .inr hown
  · rcases hend with hend | hend
    · cases hend
    · exact absurd rfl hend.1

/-- **End of stream, exactly.**  After a session without a parse error and at least one `appendEOF`,
    every complete message has been delivered once and a message that was cut off has been reported
    if and only if the stream is one of those of `EndsOnce`; none that is cut off is. -/
theorem exactlyOnce_iff (streaming headers parseError : Bool) {calls : List (Bytes × Execute)}
    {ph : Phase} {p : HTTPParser} {n : Nat} (h : Path Appends .between calls ph)
    (hp : feed (HTTPParser.configured streaming headers true parseError) calls = .ok p)
    (hph : ph ≠ .failed) (hn : 1 ≤ n) :
    ∃ q made, endCalls n p ph = .ok (q, made) ∧
      (ExactlyOnce ph (eventsOf calls ++ made) p q ↔
        EndsOnce streaming n (eventsOf calls) ph) := by
  obtain ⟨ph', hevents, hph'⟩ := session_occurs (executes_of_appends h)
  obtain rfl := hph'.resolve_right hph
  have hcounted := feed_counted (counted_configured streaming headers parseError) hp
  obtain ⟨q, hq, hcounted', hsame⟩ := endCalls_made hcounted hn ph
  have htrace := hevents.append (endMade_occurs streaming n (eventsOf calls) ph)
  refine ⟨q, _, hq, ?_⟩
  by_cases hcut : ph.Cut
  · rw [hsame hcut.2]
    refine ⟨fun honce => absurd honce (not_exactlyOnce_of_cut hcut), fun hends => ?_⟩
    obtain ⟨hbetween, hbody⟩ := hcut
    cases ph with
    | between => exact absurd rfl hbetween
    | bodyEof => exact absurd rfl hbody
    | _ => exact hends.elim
  · rw [exactlyOnce_whole hcut hcounted'.count]
    by_cases hbody : ph = .bodyEof
    · subst hbody
      rw [once_bodyEof htrace]
      exact endsOnce_bodyEof streaming (eventsOf calls) hn
    · have hbetween : ph = .between := by
        by_contra hne
        exact hcut ⟨hne, hbody⟩
      subst hbetween
      exact ⟨fun _ => trivial, fun _ own after hpart => once_between htrace hpart⟩

/-- A response whose body is read until the end of the stream. -/
def eofResponse : Bytes × Execute :=
  (ascii "HTTP/1.0 200 OK\r\n\r\nhi",
    ⟨[.messageBegin, .status (ascii "OK"), .headersComplete ⟨0, 200, 1, 0⟩, .body (ascii "hi")], 21⟩)

/-- A request that stops after its first line. -/
def cutRequest : Bytes × Execute :=
  (ascii "GET / HTTP/1.1\r\n", ⟨[.messageBegin, .url (ascii "/")], 16⟩)

theorem eofResponse_appends : Path Appends .between [eofResponse] .bodyEof := by
  refine .cons ⟨by decide, .read nofun nofun ?_⟩ (.nil _)
  exact .cons .messageBegin (.cons (.status _)
    (.cons (.headersComplete _ .bodyEof _ (by simp) (by simp)) (.cons (.bodyEof _) (.nil _))))

theorem exactlyOnce_iff_eofResponse : ∃ p q made,
    feed (HTTPParser.configured true false true false) [eofResponse] = .ok p ∧
      endCalls 1 p .bodyEof = .ok (q, made) ∧
      (ExactlyOnce .bodyEof (eventsOf [eofResponse] ++ made) p q ↔
        EndsOnce true 1 (eventsOf [eofResponse]) .bodyEof) := by
  obtain ⟨q, made, h⟩ := exactlyOnce_iff true false false eofResponse_appends rfl nofun le_rfl
  exact ⟨_, q, made, rfl, h⟩

/-- A second `appendEOF` delivers a message that is not there, and a request that is cut off is not
    reported. -/
theorem endOfStream_not_once :
    (Path Appends .between [eofResponse] .bodyEof ∧
      ∃ p q, feed (HTTPParser.configured true true true true) [eofResponse] = .ok p ∧
        endCalls 2 p .bodyEof = .ok (q, [.messageComplete, .messageComplete]) ∧
        (deliveries q).map (fun d => d.2.body) = [ascii "hi", []] ∧
        ¬ ExactlyOnce .bodyEof
          (eventsOf [eofResponse] ++ [.messageComplete, .messageComplete]) p q) ∧
    (Path Appends .between [cutRequest] .start ∧
      ∃ p, feed (HTTPParser.configured true true true true) [cutRequest] = .ok p ∧
        endCalls 1 p .start = .ok (p, []) ∧ p.calls = [] ∧
        ¬ ExactlyOnce .start (eventsOf [cutRequest] ++ []) p p) := by
  refine ⟨⟨eofResponse_appends, _, _, rfl, rfl, rfl, ?_⟩, ?_, _, rfl, rfl, rfl, ?_⟩
  · intro honce
    have hpart : Part (eventsOf [eofResponse] ++ [.messageComplete, .messageComplete])
        ([.status (ascii "OK"), .headersComplete ⟨0, 200, 1, 0⟩, .body (ascii "hi")] ++
          List.replicate 2 .messageComplete) [] := ⟨by decide, .inl rfl, [], rfl⟩
    have hown := honce.once _ _ hpart
    rw [if_neg (by decide), deliveredOnce_replicate _ (by decide)] at hown
    rcases hown with hown | ⟨htwo, -⟩
    · cases hown
    · cases htwo
  · exact .cons ⟨by decide, .read nofun nofun (.cons .messageBegin (.cons (.url _) (.nil _)))⟩ (.nil _)
  · exact not_exactlyOnce_of_cut ⟨nofun, nofun⟩

end Pixie.Http
