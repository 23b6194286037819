/-
  `http_parser_execute` without its buffer.

  The loop of `http_parser_execute` works on a buffer with a position and five marks, and in a body it
  takes as many bytes at once as are there.  `scan` takes the bytes of a list one after the other, with
  the open string in place of the marks.  The two agree:

    * `Shows data x o` — the marks of the cursor `x` say that the string `o` is open;
    * in a state outside of bodies the switch does not ask how many bytes are left (`pass_left`), and
      the cursor follows the open string through it (`switch_eq`);
    * in a body, a block of bytes read at once is its first byte, and then a block of the others
      (`block`): the length, the mark and the position come out the same;
    * `loop_eq` — the loop from any position is `scan` of the rest of the buffer.

  So what is proved of `scan` holds of `http_parser_execute` (`execute_eq`).
-/
import Pixie.Engine.Sound

namespace Pixie.Engine

open Pixie.Decimal Pixie.Http Pixie.Run

/-! ## Many bytes -/

/-- What the bytes of a list come to. -/
structure Scanned where
  parser : HttpParser
  opened : Open
  events : List Event
  count : Nat
  exit : Exit

/-- One byte before others. -/
def Scanned.after (es : List Event) (r : Scanned) : Scanned :=
  { r with events := es ++ r.events, count := r.count + 1 }

/-- The bytes of a list, until one of them ends the call. -/
def scan : HttpParser → Open → Bytes → Option Scanned
  | p, o, [] => some ⟨p, o, [], 0, .next⟩
  | p, o, ch :: bs => do
    let s ← step p o ch
    if s.exit = .next then (scan s.parser s.opened bs).map (Scanned.after s.events)
    else some ⟨s.parser, s.opened, s.events, if s.exit = .leave then 1 else 0, s.exit⟩

/-- The string that is open at the end of a buffer is handed over. -/
def flush (o : Open) : List Event := o.toList.map fun s => s.1.event s.2

/-- The string that is open at the start of a buffer. -/
def reopened (s : State) : Open := (openMark s).map fun k => (k, [])

/-- What `http_parser_execute` returns on a buffer whose bytes come to `r`. -/
def Scanned.execute (r : Scanned) : HttpParser × Execute :=
  (r.parser, ⟨if r.exit = .next then r.events ++ flush r.opened else r.events, r.count⟩)

/-! ## Marks and the open string -/

/-- The marks of a cursor show which string is open, and with which bytes. -/
def Shows (data : Bytes) (x : Cursor) : Open → Prop
  | none => x.marks = fun _ => none
  | some (k, d) => ∃ m ≤ x.p, x.marks = Function.update (fun _ => none) k (some m) ∧
      d = (data.drop m).take (x.p - m)

section Marks

variable {data : Bytes} {x : Cursor} {o : Open} {k : Mark}

theorem update_none (k : Mark) :
    Function.update (fun _ => none : Mark → Option Nat) k none = fun _ => none :=
  Function.update_eq_self k _

/-- `MARK` opens a string, or leaves it open. -/
theorem shows_mark (h : Shows data x o) (hk : ∀ s ∈ o, k = s.1) :
    Shows data (x.mark k) (o.or (some (k, []))) := by
  cases o with
  | none =>
    have hmarks : x.marks = fun _ => none := h
    unfold Cursor.mark
    rw [if_pos (by rw [hmarks]; rfl)]
    exact ⟨x.p, le_rfl, by rw [hmarks], by simp⟩
  | some s =>
    obtain ⟨k', d⟩ := s
    obtain rfl : k = k' := hk _ rfl
    obtain ⟨m, hm, hmarks, hd⟩ := h
    unfold Cursor.mark
    rw [if_neg (by rw [hmarks, Function.update_self]; simp)]
    exact ⟨m, hm, hmarks, hd⟩

theorem p_mark (x : Cursor) (k : Mark) : (x.mark k).p = x.p := by
  unfold Cursor.mark
  split <;> rfl

theorem parser_mark (x : Cursor) (k : Mark) : (x.mark k).parser = x.parser := by
  unfold Cursor.mark
  split <;> rfl

theorem events_mark (x : Cursor) (k : Mark) : (x.mark k).events = x.events := by
  unfold Cursor.mark
  split <;> rfl

/-- `CALLBACK_DATA` with no string open. -/
theorem callbackData_none (h : Shows data x none) (stop : Nat) : x.callbackData data k stop = x := by
  have hmarks : x.marks = fun _ => none := h
  unfold Cursor.callbackData
  rw [hmarks]

/-- `CALLBACK_DATA` hands over the open string, up to where it is told. -/
theorem callbackData_some {d : Bytes} (more : Bytes) (h : Shows data x (some (k, d)))
    (hmore : (data.drop x.p).take more.length = more) :
    x.callbackData data k (x.p + more.length) =
      { x with marks := fun _ => none, events := x.events ++ [k.event (d ++ more)] } := by
  obtain ⟨m, hm, hmarks, hd⟩ := h
  have hbytes : (data.drop m).take (x.p + more.length - m) = d ++ more := by
    rw [show x.p + more.length - m = (x.p - m) + more.length by omega, List.take_add, List.drop_drop,
      show m + (x.p - m) = x.p by omega, hmore, ← hd]
  unfold Cursor.callbackData
  rw [hmarks, Function.update_self]
  dsimp only
  rw [hbytes, Function.update_idem, update_none]

theorem callbackData_same {d : Bytes} (h : Shows data x (some (k, d))) :
    x.callbackData data k x.p =
      { x with marks := fun _ => none, events := x.events ++ [k.event d] } := by
  have hcall := callbackData_some [] h rfl
  rwa [List.append_nil, List.length_nil, Nat.add_zero] at hcall

theorem handOver_none (k : Mark) (more : Bytes) : handOver k none more = ([], none) := rfl

end Marks

/-! ## The switch -/

section Switch

variable {data : Bytes} {x : Cursor} {o : Open} {ch : UInt8} {p : HttpParser} {ph : Phase}

/-- The cursor when the callback is made. -/
def Cursor.ready (x : Cursor) (m : Pass) : Cursor :=
  let x := { x with parser := m.parser }
  let x := match m.mark with
    | none => x
    | some k => x.mark k
  { x with p := x.p + m.skip }

theorem apply_none {m : Pass} (hcallback : m.callback = none) : x.apply data m = x.ready m := by
  unfold Cursor.apply
  rw [hcallback]
  rfl

theorem apply_some {m : Pass} {c : Callback} (hcallback : m.callback = some c) :
    x.apply data m = (x.ready m).callback data c := by
  unfold Cursor.apply
  rw [hcallback]
  rfl

theorem ready_shows {m : Pass} (h : Shows data x o) (hskip : m.skip = 0)
    (hwithin : ∀ s ∈ m.opened o, m.Within s.1) :
    (x.ready m).parser = m.parser ∧ (x.ready m).p = x.p ∧ (x.ready m).events = x.events ∧
      Shows data (x.ready m) (m.opened o) := by
  have h' : Shows data { x with parser := m.parser } o := h
  unfold Cursor.ready Pass.opened
  rw [hskip]
  cases hmark : m.mark with
  | none => exact ⟨rfl, rfl, rfl, h'⟩
  | some k =>
    have hk : ∀ s ∈ o, k = s.1 := by
      rintro s rfl
      refine (hwithin s ?_).mark k hmark
      unfold Pass.opened
      rw [hmark]
      rfl
    have hm := shows_mark h' hk
    exact ⟨parser_mark _ k, p_mark _ k, events_mark _ k, hm⟩

/-- An execution of the switch does to the cursor what it does to the open string. -/
theorem apply_shows {m : Pass} (h : Shows data x o) (hch : data[x.p]? = some ch) (hskip : m.skip = 0)
    (hwithin : ∀ s ∈ m.opened o, m.Within s.1) :
    (x.apply data m).parser = m.parser ∧ (x.apply data m).p = x.p ∧
      (x.apply data m).events = x.events ++ (m.result o ch).1 ∧
      Shows data (x.apply data m) (m.result o ch).2 := by
  obtain ⟨hparser, hp, hevents, hshows⟩ := ready_shows h hskip hwithin
  cases hcallback : m.callback with
  | none =>
    unfold Pass.result
    rw [apply_none hcallback, hcallback, List.append_nil]
    exact ⟨hparser, hp, hevents, hshows⟩
  | some c =>
    unfold Pass.result
    rw [apply_some hcallback, hcallback]
    cases hopen : m.opened o with
    | none =>
      rw [hopen] at hshows
      cases c with
      | notify e => exact ⟨hparser, hp, congrArg (· ++ [e]) hevents, hshows⟩
      | data k =>
        dsimp only [Cursor.callback]
        rw [callbackData_none hshows, handOver_none, List.append_nil]
        exact ⟨hparser, hp, hevents, hshows⟩
      | dataThrough k =>
        dsimp only [Cursor.callback]
        rw [callbackData_none hshows, handOver_none, List.append_nil]
        exact ⟨hparser, hp, hevents, hshows⟩
    | some s =>
      obtain ⟨k, d⟩ := s
      rw [hopen] at hshows
      rcases (hwithin _ hopen).callback with hc | hc | ⟨hc, -⟩
      · rw [hcallback] at hc
        cases hc
      · rw [hcallback] at hc
        cases hc
        dsimp only [Cursor.callback]
        rw [callbackData_same hshows, handOver_same, List.append_nil]
        exact ⟨hparser, hp, congrArg (· ++ _) hevents, rfl⟩
      · rw [hcallback] at hc
        cases hc
        have hlast : (data.drop (x.ready m).p).take [ch].length = [ch] := by
          rw [hp, List.length_singleton, List.take_one, List.head?_drop, hch]
          rfl
        dsimp only [Cursor.callback]
        rw [show (x.ready m).p + 1 = (x.ready m).p + [ch].length from rfl, callbackData_some [ch] hshows hlast, handOver_same]
        exact ⟨hparser, hp, congrArg (· ++ _) hevents, rfl⟩

/-- The states in which the switch asks how many bytes are left. -/
def State.reads : State → Bool
  | .chunkData | .bodyIdentity | .bodyIdentityEof => true
  | _ => false

/-- In the other states it does not matter how many bytes are left. -/
theorem pass_left (hs : p.state.reads = false) (left : Nat) : pass p ch left = pass p ch 1 := by
  unfold pass
  revert hs
  cases p.state <;> simp [State.reads]

/-- The executions of the switch on one byte, when it is not read in a block. -/
theorem switch_eq (fuel : Nat) (h : Stands x.parser o ph) (hrank : x.parser.state.rank < fuel)
    (hnread : x.parser.state = .chunkSizeStart → x.parser.nread = 1)
    (hshows : Shows data x o) (hch : data[x.p]? = some ch)
    (hleft : pass x.parser ch (data.length - x.p) = pass x.parser ch 1) :
    ∃ s y, stepSwitch ch fuel x.parser o = some s ∧ switch data ch fuel x = some (y, s.exit) ∧
      y.parser = s.parser ∧ y.p = x.p ∧ y.events = x.events ++ s.events ∧ Shows data y s.opened := by
  induction fuel generalizing x o ph with
  | zero => exact absurd hrank (Nat.not_lt_zero _)
  | succ fuel ih =>
    obtain ⟨m, hm, hskip, hwithin, ph', -, hexit⟩ := pass_good ch h hnread
    obtain ⟨hparser, hp, hevents, hopened⟩ := apply_shows (m := m) hshows hch hskip hwithin
    rw [stepSwitch, switch, hleft, hm]
    dsimp only [Option.bind_eq_bind, Option.bind_some]
    by_cases hagain : m.exit = .reexecute
    · rw [if_pos hagain, if_pos hagain]
      rw [hagain] at hexit
      obtain ⟨hstands, hlower, hstate⟩ := hexit
      have hreads : (x.apply data m).parser.state.reads = false := by
        rw [hparser]
        revert hstate
        cases m.parser.state <;> simp [State.reexecutes, State.reads]
      have hne : m.parser.state ≠ .chunkSizeStart := by
        intro hc
        rw [hc] at hstate
        cases hstate
      obtain ⟨s, y, hs, hy, hsp, hyp, hye, hshows'⟩ := ih (x := x.apply data m)
        (by rw [hparser]; exact hstands) (by rw [hparser]; omega)
        (by rw [hparser]; exact fun hc => absurd hc hne) hopened (by rw [hp]; exact hch)
        (pass_left hreads _)
      rw [hparser] at hs
      refine ⟨{ s with events := (m.result o ch).1 ++ s.events }, y, by rw [hs]; rfl, hy, hsp,
        hyp.trans hp, ?_, hshows'⟩
      rw [hye, hevents, List.append_assoc]
    · rw [if_neg hagain, if_neg hagain]
      exact ⟨_, _, rfl, rfl, hparser, hp, hevents, hopened⟩

/-- The byte at the position goes to the open string. -/
theorem shows_push (h : Shows data x o) (hch : data[x.p]? = some ch) :
    Shows data { x with p := x.p + 1 } (push ch o) := by
  cases o with
  | none => exact h
  | some s =>
    obtain ⟨m, hm, hmarks, hd⟩ := h
    refine ⟨m, Nat.le_succ_of_le hm, hmarks, ?_⟩
    dsimp only
    rw [show x.p + 1 - m = (x.p - m) + 1 by omega, List.take_add, ← hd, List.drop_drop,
      show m + (x.p - m) = x.p by omega, List.take_one, List.head?_drop, hch]
    rfl

/-! ## Blocks of a body -/

/-- A block of bytes read at once is its first byte, and the block of the others. -/
structure Block (p : HttpParser) (ch : UInt8) (left : Nat) (p' : HttpParser) (m : Pass) : Prop where
  reads : p.state.reads = true
  two : 2 ≤ left
  first : pass p ch 1 = some { parser := p', mark := some .body }
  state : p'.state = p.state
  whole : pass p ch left = some m
  mark : m.mark = some .body
  skip : 1 ≤ m.skip
  others : ∀ ch', pass p' ch' (left - 1) = some { m with skip := m.skip - 1 }
  exit : m.exit = .next ∨ m.exit = .reexecute ∧ m.parser.state = .messageDone

theorem block_bodyIdentityEof {left : Nat} (hs : p.state = .bodyIdentityEof) (hleft : 2 ≤ left) :
    ∃ m, Block p ch left p m := by
  have hpass : ∀ ch n, pass p ch n = some { parser := p, mark := some .body, skip := n - 1 } := by
    intro ch n
    unfold pass
    rw [hs]
    rfl
  exact ⟨_, by rw [hs]; rfl, hleft, hpass ch 1, rfl, hpass ch left, rfl, by dsimp only; omega,
    fun ch' => hpass ch' (left - 1), .inl rfl⟩

/-- `s_chunk_data`, with what `to_read` is. -/
theorem pass_chunkData (hs : p.state = .chunkData) (hchunked : p.flags.chunked = true)
    (hne : p.contentLength ≠ 0) (hlt : p.contentLength < ullongMax) (ch : UInt8) {n t : Nat}
    (ht : min p.contentLength n = t) :
    pass p ch n = some
      { parser :=
          if p.contentLength - t = 0 then
            { p with contentLength := p.contentLength - t, state := .chunkDataAlmostDone }
          else { p with contentLength := p.contentLength - t }
        mark := some .body
        skip := t - 1 } := by
  have hpass : pass p ch n = chunkData p n := by
    unfold pass
    rw [hs]
  rw [hpass]
  unfold chunkData
  dsimp only
  rw [if_neg (by simp [hchunked, hne, hlt.ne]), ht]
  rfl

/-- `s_body_identity`, with what `to_read` is. -/
theorem pass_bodyIdentity (hs : p.state = .bodyIdentity) (hne : p.contentLength ≠ 0)
    (hlt : p.contentLength < ullongMax) (ch : UInt8) {n t : Nat} (ht : min p.contentLength n = t) :
    pass p ch n = some
      (if p.contentLength - t = 0 then
        { parser := { p with contentLength := p.contentLength - t, state := .messageDone }
          mark := some .body
          skip := t - 1
          callback := some (.dataThrough .body)
          exit := .reexecute }
      else
        { parser := { p with contentLength := p.contentLength - t }
          mark := some .body
          skip := t - 1 }) := by
  have hpass : pass p ch n = bodyIdentity p n := by
    unfold pass
    rw [hs]
  rw [hpass]
  unfold bodyIdentity
  dsimp only
  rw [if_neg (by simp [hne, hlt.ne]), ht]
  split
  · rfl
  · rfl

theorem block_chunkData {left : Nat} (hs : p.state = .chunkData) (hchunked : p.flags.chunked = true)
    (hlt : p.contentLength < ullongMax) (hread : 2 ≤ min p.contentLength left) :
    ∃ p' m, Block p ch left p' m := by
  generalize ht : min p.contentLength left = t at hread
  have hne : p.contentLength ≠ 0 := by omega
  have hone : pass p ch 1 = some
      { parser := { p with contentLength := p.contentLength - 1 }, mark := some .body } := by
    rw [pass_chunkData hs hchunked hne hlt ch (show min p.contentLength 1 = 1 by omega),
      if_neg (by omega)]
  refine ⟨_, _, by rw [hs]; rfl, by omega, hone, rfl, pass_chunkData hs hchunked hne hlt ch ht, rfl,
    by dsimp only; omega, fun ch' => ?_, .inl rfl⟩
  have hrest := pass_chunkData (p := { p with contentLength := p.contentLength - 1 }) hs hchunked
    (by dsimp only; omega) (by dsimp only; omega) ch'
    (show min (p.contentLength - 1) (left - 1) = t - 1 by omega)
  rw [hrest]
  dsimp only
  rw [show p.contentLength - 1 - (t - 1) = p.contentLength - t by omega]

theorem block_bodyIdentity {left : Nat} (hs : p.state = .bodyIdentity)
    (hlt : p.contentLength < ullongMax) (hread : 2 ≤ min p.contentLength left) :
    ∃ p' m, Block p ch left p' m := by
  generalize ht : min p.contentLength left = t at hread
  have hne : p.contentLength ≠ 0 := by omega
  have hone : pass p ch 1 = some
      { parser := { p with contentLength := p.contentLength - 1 }, mark := some .body } := by
    rw [pass_bodyIdentity hs hne hlt ch (show min p.contentLength 1 = 1 by omega),
      if_neg (by omega)]
  have hrest : ∀ ch', _ := fun ch' =>
    pass_bodyIdentity (p := { p with contentLength := p.contentLength - 1 }) hs
      (by dsimp only; omega) (by dsimp only; omega) ch'
      (show min (p.contentLength - 1) (left - 1) = t - 1 by omega)
  dsimp only at hrest
  rw [show p.contentLength - 1 - (t - 1) = p.contentLength - t by omega] at hrest
  refine ⟨_, _, by rw [hs]; rfl, by omega, hone, rfl, pass_bodyIdentity hs hne hlt ch ht, ?_, ?_, fun ch' => ?_, ?_⟩
  · split <;> rfl
  · split <;> (dsimp only; omega)
  · rw [hrest ch']
    split <;> rfl
  · split
    · exact .inr ⟨rfl, rfl⟩
    · exact .inl rfl

/-- In a state that reads blocks, either the block is one byte or it is cut after its first. -/
theorem pass_cases {left : Nat} (ch : UInt8) (h : Stands p o ph) (hleft : 1 ≤ left) :
    pass p ch left = pass p ch 1 ∨ ∃ p' m, Block p ch left p' m := by
  by_cases hreads : p.state.reads = false
  · exact .inl (pass_left hreads left)
  have hat := h.at_
  unfold At at hat
  cases hs : p.state with
  | bodyIdentityEof =>
    rcases Nat.lt_or_ge left 2 with hlt | hge
    · rw [show left = 1 by omega]
      exact .inl rfl
    · exact .inr ⟨p, block_bodyIdentityEof hs hge⟩
  | chunkData =>
    rw [hs] at hat
    obtain ⟨-, hchunked, hlt, hne⟩ := hat
    rcases Nat.lt_or_ge (min p.contentLength left) 2 with hread | hread
    · rw [pass_chunkData hs hchunked hne hlt ch (show min p.contentLength left = 1 by omega),
        pass_chunkData hs hchunked hne hlt ch (show min p.contentLength 1 = 1 by omega)]
      exact .inl rfl
    · exact .inr (block_chunkData hs hchunked hlt hread)
  | bodyIdentity =>
    rw [hs] at hat
    obtain ⟨-, hlt, hne⟩ := hat
    rcases Nat.lt_or_ge (min p.contentLength left) 2 with hread | hread
    · rw [pass_bodyIdentity hs hne hlt ch (show min p.contentLength left = 1 by omega),
        pass_bodyIdentity hs hne hlt ch (show min p.contentLength 1 = 1 by omega)]
      exact .inl rfl
    · exact .inr (block_bodyIdentity hs hlt hread)
  | _ => exact absurd (by rw [hs]; rfl) hreads

/-- The cursor after one byte of a body. -/
def Cursor.bodyByte (x : Cursor) (p' : HttpParser) : Cursor :=
  { x.mark .body with parser := p', p := x.p + 1 }

/-- Reading a block takes the cursor where its first byte and the others do. -/
theorem apply_block {m : Pass} (hmark : m.mark = some .body) (hskip : 1 ≤ m.skip) (p' : HttpParser) :
    x.apply data m = (x.bodyByte p').apply data { m with skip := m.skip - 1 } := by
  unfold Cursor.apply
  rw [hmark]
  dsimp only
  have hp : x.p + 1 + (m.skip - 1) = x.p + m.skip := by omega
  have hcursor : ({ Cursor.mark { x with parser := m.parser } .body with
        p := (Cursor.mark { x with parser := m.parser } .body).p + m.skip } : Cursor) =
      { Cursor.mark { x.bodyByte p' with parser := m.parser } .body with
        p := (Cursor.mark { x.bodyByte p' with parser := m.parser } .body).p + (m.skip - 1) } := by
    cases hm : x.marks .body with
    | none => simp [Cursor.bodyByte, Cursor.mark, hm, hp]
    | some n => simp [Cursor.bodyByte, Cursor.mark, hm, hp]
  rw [hcursor]

theorem parser_apply (x : Cursor) (data : Bytes) (m : Pass) : (x.apply data m).parser = m.parser := by
  have hdata : ∀ (y : Cursor) (k : Mark) (stop : Nat),
      (y.callbackData data k stop).parser = y.parser := by
    intro y k stop
    unfold Cursor.callbackData
    split <;> rfl
  have hready : (x.ready m).parser = m.parser := by
    unfold Cursor.ready
    cases m.mark with
    | none => rfl
    | some k => exact parser_mark _ k
  cases hcallback : m.callback with
  | none =>
    rw [apply_none hcallback]
    exact hready
  | some c =>
    rw [apply_some hcallback]
    cases c with
    | notify e => exact hready
    | data k => exact (hdata _ k _).trans hready
    | dataThrough k => exact (hdata _ k _).trans hready

/-- `s_message_done` does not look at the byte. -/
theorem switch_messageDone {fuel : Nat} (hs : x.parser.state = .messageDone) (ch ch' : UInt8) :
    switch data ch (fuel + 1) x = switch data ch' (fuel + 1) x := by
  have hpass : ∀ ch left, pass x.parser ch left = complete x.parser := by
    intro ch left
    unfold pass
    rw [hs]
  rw [switch, switch, hpass, hpass]
  rfl

/-- The switch on a block is the switch on the others, after its first byte. -/
theorem switch_block {left : Nat} {m : Pass} {p' : HttpParser} (hb : Block x.parser ch left p' m)
    (hleft : data.length - x.p = left) (ch' : UInt8) :
    switch data ch 4 x = switch data ch' 4 (x.bodyByte p') := by
  have happly : x.apply data m = (x.bodyByte p').apply data { m with skip := m.skip - 1 } :=
    apply_block hb.mark hb.skip p'
  have hpass : pass x.parser ch (data.length - x.p) = some m := by rw [hleft]; exact hb.whole
  have hpass' : pass (x.bodyByte p').parser ch' (data.length - (x.bodyByte p').p) =
      some { m with skip := m.skip - 1 } := by
    show pass p' ch' (data.length - (x.p + 1)) = _
    rw [← Nat.sub_sub, hleft]
    exact hb.others ch'
  have hagain : m.exit = .reexecute → switch data ch 3 (x.apply data m) =
      switch data ch' 3 ((x.bodyByte p').apply data { m with skip := m.skip - 1 }) := by
    intro hexit
    rw [← happly]
    refine switch_messageDone ?_ ch ch'
    rw [parser_apply]
    rcases hb.exit with hc | hc
    · rw [hexit] at hc
      cases hc
    · exact hc.2
  rw [switch, switch, hpass, hpass']
  dsimp only [Option.bind_eq_bind, Option.bind_some]
  by_cases hexit : m.exit = .reexecute
  · rw [if_pos hexit, if_pos hexit, hagain hexit]
  · rw [if_neg hexit, if_neg hexit, happly]

end Switch

/-! ## The loop -/

section Loop

variable {data : Bytes} {x : Cursor} {o : Open} {ch : UInt8} {p p' : HttpParser} {ph : Phase}

theorem count_of_reads (hs : p.state.reads = true) : count p = p := by
  unfold count
  rw [if_neg]
  revert hs
  cases p.state <;> simp [State.reads, State.parsingHeader]

/-- One round of the loop, after the look at `nread`. -/
def round (data : Bytes) (ch : UInt8) (fuel : Nat) (x : Cursor) : Option (HttpParser × Execute) := do
  let (x, exit) ← switch data ch 4 x
  match exit with
  | .next => loop data fuel { x with p := x.p + 1 }
  | .leave => some (x.parser, ⟨x.events, x.p + 1⟩)
  | .error => some (x.parser, ⟨x.events, x.p⟩)
  | .reexecute => none

theorem loop_cons (fuel : Nat) (hch : data[x.p]? = some ch)
    (hsize : ¬ (x.parser.state.parsingHeader ∧ (count x.parser).nread > httpMaxHeaderSize)) :
    loop data (fuel + 1) x = round data ch fuel { x with parser := count x.parser } := by
  rw [loop, hch]
  dsimp only
  rw [if_neg hsize]
  rfl

/-- A round that reads a block is the round from its second byte on. -/
theorem loop_block {left : Nat} {m : Pass} (fuel : Nat) (hb : Block x.parser ch left p' m)
    (hleft : data.length - x.p = left)
    (hch : data[x.p]? = some ch) :
    loop data (fuel + 1) x = loop data (fuel + 1) (x.bodyByte p') := by
  have hheader : ∀ q : HttpParser, q.state.reads = true → q.state.parsingHeader = false := by
    intro q
    cases q.state <;> simp [State.reads, State.parsingHeader]
  have hreads' : (x.bodyByte p').parser.state.reads = true := by
    show p'.state.reads = true
    rw [hb.state]
    exact hb.reads
  obtain ⟨ch', hch'⟩ : ∃ ch', data[(x.bodyByte p').p]? = some ch' := by
    have hlt : x.p + 1 < data.length := by
      have := hb.two
      omega
    exact ⟨data[x.p + 1], List.getElem?_eq_getElem hlt⟩
  rw [loop_cons fuel hch (by simp [hheader _ hb.reads]), count_of_reads hb.reads,
    loop_cons fuel hch' (by simp [hheader _ hreads']), count_of_reads hreads']
  unfold round
  rw [switch_block (x := { x with parser := x.parser }) hb hleft ch']

/-- The end of the buffer. -/
theorem finish_eq (hshows : Shows data x o) :
    finish data x = some (x.parser, ⟨x.events ++ flush o, data.length⟩) := by
  cases o with
  | none =>
    have hmarks : x.marks = fun _ => none := hshows
    unfold finish
    dsimp only
    rw [if_pos (by rw [hmarks]; simp)]
    simp [Cursor.callbackData, hmarks, flush]
  | some s =>
    obtain ⟨k, d⟩ := s
    obtain ⟨m, hm, hmarks, hd⟩ := hshows
    unfold finish
    dsimp only
    rw [if_pos (by rw [hmarks]; cases k <;> simp [Function.update])]
    cases k <;> simp [Cursor.callbackData, hmarks, flush, hd, Function.update]

/-- One byte of `scan`, as the switch has it. -/
theorem scan_switch {s : Step} (bs : Bytes)
    (hsize : ¬ (p.state.parsingHeader ∧ (count p).nread > httpMaxHeaderSize))
    (hs : stepSwitch ch 4 (count p) o = some s) :
    scan p o (ch :: bs) =
      if s.exit = .next then
        (scan s.parser (push ch s.opened) bs).map (Scanned.after s.events)
      else some ⟨s.parser, s.opened, s.events, if s.exit = .leave then 1 else 0, s.exit⟩ := by
  rw [scan, step, if_neg hsize, hs, Option.map_some]
  dsimp only [Option.bind_eq_bind, Option.bind_some]
  by_cases hexit : s.exit = .next
  · simp only [if_pos hexit]
  · simp only [if_neg hexit]

/-- What the loop returns from a cursor, when the bytes that follow come to `r`. -/
def Scanned.returns (r : Scanned) (x : Cursor) : HttpParser × Execute :=
  (r.parser, ⟨x.events ++ r.execute.2.events, x.p + r.count⟩)

theorem returns_after {x y : Cursor} {es : List Event} (r : Scanned)
    (hevents : y.events = x.events ++ es) (hp : y.p = x.p + 1) :
    (r.after es).returns x = r.returns y := by
  unfold Scanned.returns Scanned.execute Scanned.after
  rw [hevents, hp]
  dsimp only
  split
  · simp only [List.append_assoc, Nat.add_comm, Nat.add_left_comm]
  · simp only [List.append_assoc, Nat.add_comm, Nat.add_left_comm]

/-- The loop is `scan` of the rest of the buffer. -/
theorem loop_eq (rest : Bytes) (fuel : Nat) (hrest : data.drop x.p = rest)
    (hfuel : rest.length < fuel) (hp : x.p ≤ data.length) (h : Stands x.parser o ph)
    (hr : Rests x.parser) (hshows : Shows data x o) :
    ∃ r, scan x.parser o rest = some r ∧ loop data fuel x = some (r.returns x) := by
  induction rest generalizing fuel x o ph with
  | nil =>
    obtain ⟨fuel, rfl⟩ : ∃ n, fuel = n + 1 := ⟨fuel - 1, by simp at hfuel; omega⟩
    have hend : x.p = data.length := le_antisymm hp (List.drop_eq_nil_iff.mp hrest)
    refine ⟨_, rfl, ?_⟩
    rw [loop, List.getElem?_eq_none hend.ge]
    dsimp only
    rw [finish_eq hshows]
    simp [Scanned.returns, Scanned.execute, hend]
  | cons ch rest ih =>
    obtain ⟨fuel, rfl⟩ : ∃ n, fuel = n + 1 := ⟨fuel - 1, by simp at hfuel; omega⟩
    have hlt : rest.length < fuel := by simpa using hfuel
    have hch : data[x.p]? = some ch := by rw [← List.head?_drop, hrest]; rfl
    have hnext : data.drop (x.p + 1) = rest := by
      rw [← List.tail_drop, hrest]
      rfl
    have hp' : x.p + 1 ≤ data.length := (List.getElem?_eq_some_iff.mp hch).1
    by_cases hsize : x.parser.state.parsingHeader ∧ (count x.parser).nread > httpMaxHeaderSize
    · -- The headers are too long.
      refine ⟨⟨(count x.parser).setErrno .headerOverflow, o, [], 0, .error⟩, ?_, ?_⟩
      · rw [scan, step, if_pos hsize]
        rfl
      · rw [loop, hch]
        dsimp only
        rw [if_pos hsize]
        simp [Scanned.returns, Scanned.execute]
    obtain ⟨s, hs, ph', -, hgood⟩ :=
      stepSwitch_good ch 4 (count x.parser) o ph (rank_lt _) (stands_count h) (nread_count hr)
    have hscan := scan_switch rest hsize hs
    rcases pass_cases ch (stands_count h) (show 1 ≤ data.length - x.p by omega) with
      hleft | ⟨p', m, hblock⟩
    · -- One byte.
      obtain ⟨s', y, hs', hy, hyparser, hyp, hyevents, hyshows⟩ := switch_eq
        (x := { x with parser := count x.parser }) 4 (stands_count h) (rank_lt _) (nread_count hr)
        hshows hch hleft
      obtain rfl : s = s' := Option.some.inj (hs.symm.trans hs')
      have hround : loop data (fuel + 1) x = match s.exit with
          | .next => loop data fuel { y with p := y.p + 1 }
          | .leave => some (y.parser, ⟨y.events, y.p + 1⟩)
          | .error => some (y.parser, ⟨y.events, y.p⟩)
          | .reexecute => none := by
        rw [loop_cons fuel hch hsize, round, hy]
        rfl
      dsimp only at hyp hyevents
      rw [hround, hscan]
      cases hexit : s.exit with
      | next =>
        rw [hexit] at hgood
        have hstands : Stands y.parser (push ch s.opened) ph' := by
          rw [hyparser]
          exact stands_push hgood.1
        obtain ⟨r, hr', hloop⟩ := ih (x := { y with p := y.p + 1 }) fuel (by rw [hyp]; exact hnext)
          hlt (by rw [hyp]; exact hp') hstands (by rw [hyparser]; exact hgood.2)
          (shows_push hyshows (by rw [hyp]; exact hch))
        dsimp only at hr'
        rw [hyparser] at hr'
        refine ⟨r.after s.events, ?_, ?_⟩
        · rw [if_pos rfl, hr']
          rfl
        · rw [returns_after (y := { y with p := y.p + 1 }) r hyevents (congrArg (· + 1) hyp)]
          exact hloop
      | leave =>
        refine ⟨⟨s.parser, s.opened, s.events, 1, .leave⟩, rfl, ?_⟩
        simp [Scanned.returns, Scanned.execute, hyparser, hyp, hyevents]
      | error =>
        refine ⟨⟨s.parser, s.opened, s.events, 0, .error⟩, rfl, ?_⟩
        simp [Scanned.returns, Scanned.execute, hyparser, hyp, hyevents]
      | reexecute =>
        rw [hexit] at hgood
        exact hgood.elim
    · -- A block: its first byte, and the others by induction.
      have hcount : count x.parser = x.parser := by
        refine count_of_reads ?_
        have hstate : (count x.parser).state = x.parser.state := by
          unfold count
          split <;> rfl
        rw [← hstate]
        exact hblock.reads
      rw [hcount] at hblock hs
      have hfirst : stepSwitch ch 4 x.parser o =
          some ⟨p', o.or (some (.body, [])), [], .next⟩ := by
        rw [stepSwitch, hblock.first]
        rfl
      obtain rfl : s = ⟨p', o.or (some (.body, [])), [], .next⟩ :=
        Option.some.inj (hs.symm.trans hfirst)
      have hbody : x.parser.state.inBody = true := by
        have hreads := hblock.reads
        revert hreads
        cases x.parser.state <;> simp [State.reads, State.inBody]
      have hk : ∀ s ∈ o, Mark.body = s.1 := by
        rintro s rfl
        exact (Option.some.inj (((fits_of_inBody hbody).mp h.fits).resolve_left (Option.some_ne_none _))).symm
      have hmark := shows_mark hshows hk
      have hshows' : Shows data (x.bodyByte p') (push ch (o.or (some (.body, [])))) := by
        have hpush := shows_push hmark (by rw [p_mark]; exact hch)
        rw [p_mark] at hpush
        exact hpush
      obtain ⟨r, hr', hloop⟩ := ih (x := x.bodyByte p') (fuel + 1) hnext
        (Nat.lt_succ_of_lt hlt) hp' (stands_push hgood.1) hgood.2 hshows'
      refine ⟨r.after [], ?_, ?_⟩
      · rw [hscan, if_pos rfl]
        exact congrArg (Option.map (Scanned.after [])) hr'
      · rw [loop_block fuel hblock rfl hch,
          returns_after (y := x.bodyByte p') r (by rw [List.append_nil]; exact events_mark x _) rfl]
        exact hloop

/-- At the start of a buffer the string that goes on is open, with no bytes yet. -/
theorem shows_start (p : HttpParser) (data : Bytes) :
    Shows data (Cursor.start p) (reopened p.state) := by
  unfold reopened Shows Cursor.start
  cases h : openMark p.state with
  | none => simp
  | some k =>
    refine ⟨0, le_rfl, ?_, by simp⟩
    funext k'
    by_cases hk : k' = k
    · subst hk
      simp
    · simp [hk, Ne.symm hk, Function.update]

end Loop

/-! ## The call -/

section Call

variable {p : HttpParser} {o : Open} {ph : Phase}

theorem fits_reopened (s : State) : Fits s (reopened s) := by
  unfold Fits reopened
  cases s <;> simp [State.inBody, openMark]

theorem Stands.reopen (h : Stands p o ph) : Stands p (reopened p.state) ph :=
  ⟨h.live, h.at_, fits_reopened p.state⟩

/-- A call of `http_parser_execute` on a buffer with bytes is `scan` of them. -/
theorem execute_eq (data : Bytes) (hdata : data ≠ []) (h : Stands p o ph) (hr : Rests p) :
    ∃ r, scan p (reopened p.state) data = some r ∧ httpParserExecute p data = some r.execute := by
  obtain ⟨r, hscan, hloop⟩ := loop_eq (x := Cursor.start p) data (data.length + 1) rfl
    (Nat.lt_succ_self _) (Nat.zero_le _) h.reopen hr (shows_start p data)
  refine ⟨r, hscan, ?_⟩
  unfold httpParserExecute
  rw [if_neg (not_not.mpr h.live.1), if_neg hdata, hloop]
  simp [Scanned.returns, Cursor.start, Scanned.execute]

end Call

end Pixie.Engine
