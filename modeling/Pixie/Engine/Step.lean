/-
  `http_parser` as a machine that takes one byte at a time.

  `http_parser_execute` works with pointers into its buffer.  What they are for can be said without
  the buffer: at each byte there is at most one string open, and its bytes so far are all that the
  marks stand for.  `step` is one byte of the loop with an open string in place of the marks; its
  switch is the one of the source, told that the byte is the last of the buffer.

  1. `step` — one byte; `Pass.result` — what an execution of the switch does to the open string.

  2. **The invariant** — `At p ph`: what the state says of the other fields, and what the callbacks so
     far allow to follow (a phase of the grammar that the wrapper is proved for); `Fits p o`: which
     string is open in which state.

  3. `pass_good` — in every state an execution of the switch meets no assertion and reads no table
     behind its end, makes callbacks that may follow, and keeps the invariant.  One lemma for each way
     out (`good_go`, `good_close` and so on), one for each state over them, and `step_good` from the
     order (`rank`) in which the switch is executed again.
-/
import Pixie.Engine.Execute
import Pixie.Http.Grammar

namespace Pixie.Engine

open Pixie.Decimal Pixie.Http Pixie.Run

/-! ## One byte -/

/-- The string that is open, with its bytes so far. -/
abbrev Open := Option (Mark × Bytes)

/-- The string is handed over, with some more bytes. -/
def handOver (k : Mark) (o : Open) (more : Bytes) : List Event × Open :=
  match o with
  | some (k', d) => if k' = k then ([k.event (d ++ more)], none) else ([], o)
  | none => ([], none)

/-- What is open after `MARK`. -/
def Pass.opened (m : Pass) (o : Open) : Open :=
  match m.mark with
  | none => o
  | some k => o.or (some (k, []))

/-- The callbacks of an execution of the switch, and what is open after it. -/
def Pass.result (m : Pass) (o : Open) (ch : UInt8) : List Event × Open :=
  match m.callback with
  | none => ([], m.opened o)
  | some (.notify e) => ([e], m.opened o)
  | some (.data k) => handOver k (m.opened o) []
  | some (.dataThrough k) => handOver k (m.opened o) [ch]

/-- What one byte does. -/
structure Step where
  parser : HttpParser
  opened : Open
  events : List Event
  exit : Exit

/-- The switch on one byte. -/
def stepSwitch (ch : UInt8) : Nat → HttpParser → Open → Option Step
  | 0, _, _ => none
  | fuel + 1, p, o => do
    let m ← pass p ch 1
    let (es, o) := m.result o ch
    if m.exit = .reexecute then
      (stepSwitch ch fuel m.parser o).map fun s => { s with events := es ++ s.events }
    else some ⟨m.parser, o, es, m.exit⟩

/-- The byte goes to the open string. -/
def push (ch : UInt8) (o : Open) : Open := o.map fun s => (s.1, s.2 ++ [ch])

/-- One byte. -/
def step (p : HttpParser) (o : Open) (ch : UInt8) : Option Step :=
  let q := count p
  if p.state.parsingHeader ∧ q.nread > httpMaxHeaderSize then
    some ⟨q.setErrno .headerOverflow, o, [], .error⟩
  else (stepSwitch ch 4 q o).map fun s =>
    if s.exit = .next then { s with opened := push ch s.opened } else s

/-! ## The invariant -/

/-- In the headers of a message, or in its trailers. -/
def InHeaders (trailing : Bool) (ph : Phase) : Prop :=
  ph = (if trailing then .body else .start) ∨ ph = .field trailing ∨ ph = .value trailing

/-- In a header line whose field has been reported. -/
def InLine (trailing : Bool) (ph : Phase) : Prop := ph = .field trailing ∨ ph = .value trailing

/-- The part of a name that has been read is recognised in one of these ways. -/
def HeaderStates.ofName : HeaderStates → Bool
  | .general | .C | .CO | .CON | .matchingConnection | .matchingProxyConnection
  | .matchingContentLength | .matchingTransferEncoding | .matchingUpgrade | .connection
  | .contentLength | .transferEncoding | .upgrade => true
  | _ => false

/-- The part of a value that has been read is not recognised in these ways. -/
def HeaderStates.ofValue : HeaderStates → Bool
  | .connection | .transferEncoding => false
  | _ => true

/-- The body goes on to the end of the stream. -/
def readsToEof (p : HttpParser) : Prop :=
  p.upgrade = false ∧ p.flags.skipbody = false ∧ p.flags.chunked = false ∧
    p.contentLength = ullongMax ∧ p.type ≠ .request ∧ p.messageNeedsEof = true

instance (p : HttpParser) : Decidable (readsToEof p) := by unfold readsToEof; infer_instance

/-- The machine is where it can be between two bytes: `s_headers_done` is left again on the byte
    that has led there, and `nread` is 0 where a chunk begins. -/
def Rests (p : HttpParser) : Prop :=
  p.state ≠ .headersDone ∧ (p.state = .chunkSizeStart → p.nread = 0)

/-- An execution of the switch that at most sets the mark `k` and hands over the string that begins
    there. -/
structure Pass.Within (m : Pass) (k : Mark) : Prop where
  mark : ∀ k' ∈ m.mark, k' = k
  callback : m.callback = none ∨ m.callback = some (.data k) ∨
    m.callback = some (.dataThrough k) ∧ m.mark = some k

/-- What a state says of the other fields, with the phase that the callbacks have come to. -/
def At (p : HttpParser) (ph : Phase) : Prop :=
  match p.state with
  | .dead | .startReqOrRes | .startRes | .startReq => ph = .between
  | .reqMethod =>
    ph = .start ∧ p.flags.trailing = false ∧ p.index ≤ (methodString p.method).length
  | .headerFieldStart | .headersAlmostDone => InHeaders p.flags.trailing ph
  | .headerField => InHeaders p.flags.trailing ph ∧ p.headerState.ofName = true
  | .headerValueStart | .headerAlmostDone | .headerValueLws => InLine p.flags.trailing ph
  | .headerValue => InLine p.flags.trailing ph ∧ p.headerState.ofValue = true
  | .headersDone => ph = if readsToEof p then .bodyEof else .body
  | .chunkSizeStart | .chunkDataDone => ph = .body ∧ p.flags.chunked = true
  | .chunkSize | .chunkParameters | .chunkSizeAlmostDone =>
    ph = .body ∧ p.flags.chunked = true ∧ p.contentLength < ullongMax
  | .chunkData =>
    ph = .body ∧ p.flags.chunked = true ∧ p.contentLength < ullongMax ∧ p.contentLength ≠ 0
  | .chunkDataAlmostDone => ph = .body ∧ p.flags.chunked = true ∧ p.contentLength = 0
  | .bodyIdentity => ph = .body ∧ p.contentLength < ullongMax ∧ p.contentLength ≠ 0
  | .messageDone => ph = .body
  | .bodyIdentityEof => ph = .bodyEof
  | _ => ph = .start ∧ p.flags.trailing = false

/-- The states in a body, where a string may be open. -/
def State.inBody : State → Bool
  | .chunkData | .chunkDataAlmostDone | .bodyIdentity | .bodyIdentityEof => true
  | _ => false

/-- Which string is open in a state. -/
def Fits (s : State) (o : Open) : Prop :=
  if s.inBody then o = none ∨ o.map Prod.fst = some .body else o.map Prod.fst = openMark s

/-- There is no error, and `content_length` has its 64 bits. -/
def Live (p : HttpParser) : Prop := p.httpErrno = .ok ∧ p.contentLength ≤ ullongMax

/-- The machine stands in its state as it should. -/
structure Stands (p : HttpParser) (o : Open) (ph : Phase) : Prop where
  live : Live p
  at_ : At p ph
  fits : Fits p.state o

/-- How often the switch is executed again at most. -/
def State.rank : State → Nat
  | .headerValueLws => 3
  | .headerFieldStart => 2
  | .headersAlmostDone | .headerValue | .startReqOrRes | .bodyIdentity => 1
  | _ => 0

/-- The states in which a byte is looked at again. -/
def State.reexecutes : State → Bool
  | .startReq | .headerFieldStart | .headerAlmostDone | .headersAlmostDone | .headersDone
  | .messageDone => true
  | _ => false

/-- What an execution of the switch comes to: no assertion, callbacks that may follow, and a parser
    that stands as it should where it goes on. -/
def Good (s : State) (o : Open) (ph : Phase) (ch : UInt8) (r : Option Pass) : Prop :=
  ∃ m, r = some m ∧ m.skip = 0 ∧ (∀ s' ∈ m.opened o, m.Within s'.1) ∧
    ∃ ph', Path Emits ph (m.result o ch).1 ph' ∧
      match m.exit with
      | .next => Stands m.parser (m.result o ch).2 ph' ∧ Rests m.parser
      | .reexecute =>
        Stands m.parser (m.result o ch).2 ph' ∧ m.parser.state.rank < s.rank ∧
          m.parser.state.reexecutes = true
      | .leave =>
        Stands m.parser (m.result o ch).2 ph' ∧ Rests m.parser ∧
          (m.result o ch).1 = [.messageComplete]
      | .error => m.parser.httpErrno ≠ .ok

/-! ## The ways out -/

section WaysOut

variable {s : State} {o : Open} {ph ph' : Phase} {ch : UInt8} {q : HttpParser} {k : Mark}

/-- The states in which a machine can always rest. -/
def State.settled : State → Bool
  | .headersDone | .chunkSizeStart => false
  | _ => true

theorem rests_of_settled (hs : q.state.settled = true) : Rests q := by
  constructor
  · intro hc
    rw [hc] at hs
    cases hs
  · intro hc
    rw [hc] at hs
    cases hs

/-- A chunk begins. -/
theorem rests_chunkSizeStart (hnread : q.nread = 0) : Rests (q.goto .chunkSizeStart) :=
  ⟨by show State.chunkSizeStart ≠ .headersDone; decide, fun _ => hnread⟩

/-- An execution of the switch without a mark or a callback. -/
theorem within_plain {m : Pass} (hmark : m.mark = none) (hcallback : m.callback = none) :
    m.Within k :=
  ⟨fun _ hk => (Option.not_mem_none _ (hmark ▸ hk)).elim, .inl hcallback⟩

/-- One with `CALLBACK_DATA`. -/
theorem within_data {m : Pass} (hmark : m.mark = none) (hcallback : m.callback = some (.data k)) :
    m.Within k :=
  ⟨fun _ hk => (Option.not_mem_none _ (hmark ▸ hk)).elim, .inr (.inl hcallback)⟩

/-- One where no string is open. -/
theorem within_none {m : Pass} (h : m.opened o = none) : ∀ s' ∈ m.opened o, m.Within s'.1 := by
  rw [h]
  exact fun _ hs => (Option.not_mem_none _ hs).elim

/-- One that sets the mark. -/
theorem within_mark {m : Pass} (hmark : m.mark = some k)
    (hcallback : m.callback = none ∨ m.callback = some (.data k) ∨
      m.callback = some (.dataThrough k)) : m.Within k := by
  refine ⟨fun k' hk' => ?_, hcallback.imp_right (Or.imp_right fun h => ⟨h, hmark⟩)⟩
  rw [hmark] at hk'
  exact (Option.some.inj hk').symm

theorem good_stay (h : Stands q o ph) (hr : Rests q) : Good s o ph ch (stay q) :=
  ⟨_, rfl, rfl, fun _ _ => within_plain rfl rfl, ph, .nil ph, h, hr⟩

theorem good_fail {e : Errno} (he : e ≠ .ok) : Good s o ph ch (fail q e) :=
  ⟨_, rfl, rfl, fun _ _ => within_plain rfl rfl, ph, .nil ph, he⟩

theorem good_again {s' : State} (h : Stands (q.goto s') o ph) (hrank : s'.rank < s.rank)
    (hagain : s'.reexecutes = true) : Good s o ph ch (again q s') :=
  ⟨_, rfl, rfl, fun _ _ => within_plain rfl rfl, ph, .nil ph, h, hrank, hagain⟩

theorem good_mark (h : Stands q (some (k, [])) ph) (hr : Rests q) :
    Good s none ph ch (some { parser := q, mark := some k }) :=
  ⟨_, rfl, rfl, by rintro _ ⟨⟩; exact within_mark rfl (.inl rfl), ph, .nil ph, h, hr⟩

theorem good_notify {e : Event} {s' : State} (he : Emits ph e ph') (h : Stands (q.goto s') none ph')
    (hr : Rests (q.goto s')) : Good s none ph ch (notify q s' e) :=
  ⟨_, rfl, rfl, within_none rfl, ph', .cons he (.nil _), h, hr⟩

theorem handOver_same (k : Mark) (d more : Bytes) :
    handOver k (some (k, d)) more = ([k.event (d ++ more)], none) := by
  simp [handOver]

theorem good_close {d : Bytes} {s' : State} (he : Emits ph (k.event d) ph')
    (h : Stands (q.goto s') none ph') (hr : Rests (q.goto s')) :
    Good s (some (k, d)) ph ch (close q s' k) := by
  have hresult : handOver k (some (k, d)) [] = ([k.event d], none) := by
    rw [handOver_same, List.append_nil]
  refine ⟨_, rfl, rfl, ?_, ph', ?_, ?_⟩
  · rintro _ ⟨⟩
    exact within_data rfl rfl
  · show Path Emits ph (handOver k (some (k, d)) []).1 ph'
    rw [hresult]
    exact .cons he (.nil _)
  · show Stands _ (handOver k (some (k, d)) []).2 ph' ∧ _
    rw [hresult]
    exact ⟨h, hr⟩

end WaysOut

end Pixie.Engine
