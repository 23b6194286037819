/-
  What a text does to the machine.

  `Runs p o bs es q o'` — the bytes `bs` are read to the last, with the callbacks `es`, and lead from
  the parser `p` with the string `o` open to `q` and `o'`.  Such runs are put together
  (`Runs.append`), so a text is followed piece by piece.

  In headers `nread` grows with each byte, up to `HTTP_MAX_HEADER_SIZE`: `p.reach s n` is the parser `p`
  in the state `s`, after `n` more bytes of headers.  For one byte there is a lemma for each way
  that the switch can go on: `runs_go`, `runs_mark`, `runs_close`, `runs_notify`.
-/
import Pixie.Engine.Segments

namespace Pixie.Engine

open Pixie.Decimal Pixie.Http

variable {p q r : HttpParser} {o o' o'' : Open} {s s' : State} {n : Nat} {ch : UInt8} {k : Mark}

/-- The bytes are read to the last. -/
def Runs (p : HttpParser) (o : Open) (bs : Bytes) (es : List Event) (q : HttpParser) (o' : Open) :
    Prop :=
  scan p o bs = some ⟨q, o', es, bs.length, .next⟩

theorem Runs.nil (p : HttpParser) (o : Open) : Runs p o [] [] p o := rfl

theorem Runs.append {bs bs' : Bytes} {es es' : List Event} (h : Runs p o bs es q o')
    (h' : Runs q o' bs' es' r o'') : Runs p o (bs ++ bs') (es ++ es') r o'' := by
  unfold Runs at h h' ⊢
  rw [scan_append bs' h, if_pos rfl]
  dsimp only
  rw [h', List.length_append]
  rfl

/-- One byte. -/
theorem runs_step {es : List Event} (h : step p o ch = some ⟨q, o', es, .next⟩) :
    Runs p o [ch] es q o' := by
  unfold Runs
  rw [scan, h]
  show some (Scanned.after es ⟨q, o', [], 0, .next⟩) = _
  rw [Scanned.after, List.append_nil]
  rfl

/-- A byte without a callback, before others. -/
theorem Runs.quiet {bs : Bytes} {es : List Event} (h : Runs p o [ch] [] q o')
    (h' : Runs q o' bs es r o'') : Runs p o (ch :: bs) es r o'' :=
  h.append h'

/-- The bytes are read to an error, with these callbacks before it. -/
def Refused (p : HttpParser) (o : Open) (bs : Bytes) (es : List Event) (e : Errno) : Prop :=
  ∃ r, scan p o bs = some r ∧ r.exit = .error ∧ r.events = es ∧ r.parser.httpErrno = e

/-- The byte that is the error. -/
theorem refused_step {es : List Event} {e : Errno} (h : step p o ch = some ⟨q, o', es, .error⟩)
    (he : q.httpErrno = e) : Refused p o [ch] es e := by
  refine ⟨⟨q, o', es, 0, .error⟩, ?_, rfl, rfl, he⟩
  rw [scan, h]
  rfl

theorem Refused.more {bs : Bytes} {es : List Event} {e : Errno} (h : Refused p o bs es e)
    (bs' : Bytes) : Refused p o (bs ++ bs') es e := by
  obtain ⟨r, hr, hexit, hes, he⟩ := h
  refine ⟨r, ?_, hexit, hes, he⟩
  rw [scan_append bs' hr, hexit, if_neg (by decide)]

theorem Runs.refused {bs bs' : Bytes} {es es' : List Event} {e : Errno} (h : Runs p o bs es q o')
    (h' : Refused q o' bs' es' e) : Refused p o (bs ++ bs') (es ++ es') e := by
  obtain ⟨r, hr, hexit, rfl, he⟩ := h'
  refine ⟨(⟨q, o', es, bs.length, .next⟩ : Scanned).followed r, ?_, hexit, rfl, he⟩
  unfold Runs at h
  rw [scan_append bs' h, if_pos rfl]
  dsimp only
  rw [hr]
  rfl

/-! ## Headers -/

namespace HttpParser

/-- The parser in a state, after so many more bytes of headers. -/
def reach (p : HttpParser) (s : State) (n : Nat) : HttpParser :=
  { p with state := s, nread := p.nread + n }

/-- The parser with what it has recognised. -/
def matched (p : HttpParser) (i : Nat) (h : HeaderStates) : HttpParser :=
  { p with index := i, headerState := h }

@[simp] theorem reach_state (p : HttpParser) (s : State) (n : Nat) : (p.reach s n).state = s := rfl

@[simp] theorem reach_nread (p : HttpParser) (s : State) (n : Nat) : (p.reach s n).nread = p.nread + n := rfl

@[simp] theorem reach_goto (p : HttpParser) (s s' : State) (n : Nat) : (p.reach s n).goto s' = p.reach s' n := rfl

end HttpParser

theorem reach_self (p : HttpParser) : p.reach p.state 0 = p := rfl

theorem count_reach (hs : s.parsingHeader = true) (hroom : p.nread + n < httpMaxHeaderSize) :
    count (p.reach s n) = p.reach s (n + 1) := by
  unfold count
  rw [HttpParser.reach_state, if_pos hs, HttpParser.reach_nread,
    Nat.mod_eq_of_lt (Nat.lt_of_lt_of_le (Nat.succ_lt_succ hroom) (by decide))]
  rfl

/-- A byte in the headers, where the switch is executed once. -/
theorem step_pass {m : Pass} (hs : s.parsingHeader = true) (hroom : p.nread + n < httpMaxHeaderSize)
    (hm : pass (p.reach s (n + 1)) ch 1 = some m) (hexit : m.exit ≠ .reexecute) :
    step (p.reach s n) o ch = some
      ⟨m.parser, if m.exit = .next then push ch (m.result o ch).2 else (m.result o ch).2,
        (m.result o ch).1, m.exit⟩ := by
  have hsmall : ¬ (p.reach s (n + 1)).nread > httpMaxHeaderSize := Nat.not_lt.mpr hroom
  unfold step
  dsimp only
  rw [count_reach hs hroom, if_neg (fun h => hsmall h.2), stepSwitch, hm]
  dsimp only [Option.bind_eq_bind, Option.bind_some]
  rw [if_neg hexit, Option.map_some]
  dsimp only
  by_cases hnext : m.exit = .next
  · rw [if_pos hnext, if_pos hnext]
  · rw [if_neg hnext, if_neg hnext]

theorem runs_pass {m : Pass} (hs : s.parsingHeader = true) (hroom : p.nread + n < httpMaxHeaderSize)
    (hm : pass (p.reach s (n + 1)) ch 1 = some m) (hexit : m.exit = .next) :
    Runs (p.reach s n) o [ch] (m.result o ch).1 m.parser (push ch (m.result o ch).2) := by
  refine runs_step ?_
  rw [step_pass hs hroom hm (by rw [hexit]; decide), hexit, if_pos rfl]

/-- A byte that changes the state, or nothing. -/
theorem runs_go (hs : s.parsingHeader = true) (hroom : p.nread + n < httpMaxHeaderSize)
    (hm : pass (p.reach s (n + 1)) ch 1 = some { parser := q }) :
    Runs (p.reach s n) o [ch] [] q (push ch o) :=
  runs_pass hs hroom hm rfl

/-- A byte that a string begins with. -/
theorem runs_mark (hs : s.parsingHeader = true) (hroom : p.nread + n < httpMaxHeaderSize)
    (hm : pass (p.reach s (n + 1)) ch 1 = some { parser := q, mark := some k }) :
    Runs (p.reach s n) none [ch] [] q (some (k, [ch])) :=
  runs_pass hs hroom hm rfl

/-- A byte that ends a string. -/
theorem runs_close {d : Bytes} (hs : s.parsingHeader = true)
    (hroom : p.nread + n < httpMaxHeaderSize)
    (hm : pass (p.reach s (n + 1)) ch 1 = some { parser := q, callback := some (.data k) }) :
    Runs (p.reach s n) (some (k, d)) [ch] [k.event d] q none := by
  have hrun := runs_pass (o := some (k, d)) hs hroom hm rfl
  have hresult : Pass.result { parser := q, callback := some (.data k) } (some (k, d)) ch =
      ([k.event d], none) := by
    show handOver k (some (k, d)) [] = _
    rw [handOver_same, List.append_nil]
  rwa [hresult] at hrun

/-- A byte with a callback. -/
theorem runs_notify {e : Event} (hs : s.parsingHeader = true)
    (hroom : p.nread + n < httpMaxHeaderSize)
    (hm : pass (p.reach s (n + 1)) ch 1 = some { parser := q, callback := some (.notify e) }) :
    Runs (p.reach s n) none [ch] [e] q none :=
  runs_pass hs hroom hm rfl

/-- A byte that is an error. -/
theorem refused_pass {e : Errno} {m : Pass} (hs : s.parsingHeader = true)
    (hroom : p.nread + n < httpMaxHeaderSize) (hm : pass (p.reach s (n + 1)) ch 1 = some m)
    (hexit : m.exit = .error) (hcallback : m.callback = none) (he : m.parser.httpErrno = e) :
    Refused (p.reach s n) o [ch] [] e := by
  have hresult : m.result o ch = ([], m.opened o) := by
    unfold Pass.result
    rw [hcallback]
  have hstep : step (p.reach s n) o ch = some ⟨m.parser, m.opened o, [], .error⟩ := by
    rw [step_pass hs hroom hm (by rw [hexit]; decide), hresult, hexit, if_neg (by decide)]
  exact refused_step hstep he

/-- `STRICT_CHECK`. -/
theorem runs_literal (c : UInt8) (s' : State) (hs : s.parsingHeader = true)
    (hroom : p.nread + n < httpMaxHeaderSize)
    (hm : pass (p.reach s (n + 1)) c 1 = literal (p.reach s (n + 1)) c c s') :
    Runs (p.reach s n) o [c] [] (p.reach s' (n + 1)) (push c o) := by
  refine runs_go hs hroom (hm.trans ?_)
  unfold literal
  rw [if_neg (not_not.mpr rfl)]
  rfl

/-- A byte that the switch looks at twice. -/
theorem runs_again {m : Pass} (hs : s.parsingHeader = true)
    (hroom : p.nread + n < httpMaxHeaderSize)
    (hm : pass (p.reach s (n + 1)) ch 1 = some { parser := q, exit := .reexecute })
    (hm' : pass q ch 1 = some m) (hexit : m.exit = .next) :
    Runs (p.reach s n) o [ch] (m.result o ch).1 m.parser (push ch (m.result o ch).2) := by
  have hsmall : ¬ (p.reach s (n + 1)).nread > httpMaxHeaderSize := Nat.not_lt.mpr hroom
  have hfirst : Pass.result { parser := q, exit := .reexecute } o ch = ([], o) := rfl
  refine runs_step ?_
  unfold step
  dsimp only
  rw [count_reach hs hroom, if_neg (fun h => hsmall h.2), stepSwitch, hm]
  dsimp only [Option.bind_eq_bind, Option.bind_some]
  rw [if_pos rfl, hfirst, stepSwitch, hm']
  dsimp only [Option.bind_eq_bind, Option.bind_some]
  rw [if_neg (by rw [hexit]; decide), hexit]
  rfl

/-- The switch may be given more executions than it needs. -/
theorem stepSwitch_more {fuel : Nat} {t : Step} (h : stepSwitch ch fuel p o = some t) :
    stepSwitch ch (fuel + 1) p o = some t := by
  induction fuel generalizing p o t with
  | zero => cases h
  | succ fuel ih =>
    rw [stepSwitch] at h ⊢
    cases hm : pass p ch 1 with
    | none =>
      rw [hm] at h
      cases h
    | some m =>
      rw [hm] at h
      dsimp only [Option.bind_eq_bind, Option.bind_some] at h ⊢
      by_cases hagain : m.exit = .reexecute
      · rw [if_pos hagain] at h ⊢
        obtain ⟨t', ht', rfl⟩ := Option.map_eq_some_iff.mp h
        rw [ih ht']
        rfl
      · rw [if_neg hagain] at h ⊢
        exact h

/-- The state behind a header line goes on as a new line does, where that is one. -/
theorem step_lws {t : Step} (hblank : ch ≠ byte ' ') (htab : ch ≠ 9)
    (hroom : p.nread + n < httpMaxHeaderSize)
    (hthree : stepSwitch ch 3 (p.reach .headerFieldStart (n + 1)) none = some t) :
    step (p.reach .headerValueLws n) none ch = step (p.reach .headerFieldStart n) none ch := by
  have hsmall : ∀ s, ¬ (p.reach s (n + 1)).nread > httpMaxHeaderSize := fun _ => Nat.not_lt.mpr hroom
  have hpass : pass (p.reach .headerValueLws (n + 1)) ch 1 =
      some { parser := p.reach .headerFieldStart (n + 1), exit := .reexecute } := by
    show headerValueLws _ ch = _
    unfold headerValueLws
    rw [if_neg (not_or.mpr ⟨hblank, htab⟩)]
    rfl
  unfold step
  dsimp only
  rw [count_reach rfl hroom, count_reach rfl hroom, if_neg (fun h => hsmall _ h.2),
    if_neg (fun h => hsmall _ h.2), stepSwitch_more hthree, stepSwitch, hpass]
  dsimp only [Option.bind_eq_bind, Option.bind_some]
  rw [if_pos rfl]
  show ((stepSwitch ch 3 (p.reach .headerFieldStart (n + 1)) none).map _).map _ = _
  rw [hthree]
  rfl

end Pixie.Engine
