/-
  How a stream is cut into buffers.

  `http_parser_execute` reports a string that goes on behind the end of its buffer in pieces.  Here
  nothing else depends on where the buffers end:

  1. `Behind lead o o'` — a run whose buffers are cut has handed over the pieces `lead` already of
     the string that is `o` in the run without cuts; it has the rest in `o'`.

  2. One execution of the switch, one byte and many bytes keep this (`result_behind`, `step_behind`,
     `scan_behind`): the parsers stay the same, and the callbacks after joining.

  3. `session_cut` — buffers against one buffer with all their bytes.  What is special:
       * in a body there is no mark at the start of a buffer, only at its first byte;
       * an error loses the string that is open in the buffer, so the pieces from buffers before it
         are all that is reported of it (`PieceOf`);
       * behind the message of an upgrade the rest of a buffer is not read.  A caller that goes on
         with the next buffer reads there, so a cut just behind such a message makes a difference.
-/
import Pixie.Engine.Session
import Pixie.Lib.Pieces

namespace Pixie.Engine

open Pixie.Decimal Pixie.Http Pixie.Run Pixie.Pieces

variable {p q : HttpParser} {o o' : Open} {ph : Phase} {ch : UInt8} {lead : List Event}

/-- The callbacks of one run and of another, with adjacent pieces of strings joined. -/
abbrev Joined : List Event → List Event → Prop := Joins Mark.event

/-! ## One execution of the switch -/

/-- What is open without cuts, and with cuts after the pieces that have been handed over. -/
inductive Behind : List Event → Open → Open → Prop
  | same (o : Open) : Behind [] o o
  | began (k : Mark) (d d' : Bytes) : Behind [k.event d] (some (k, d ++ d')) (some (k, d'))

theorem Behind.push (h : Behind lead o o') (ch : UInt8) : Behind lead (push ch o) (push ch o') := by
  cases h with
  | same o => exact .same _
  | began k d d' =>
    have hbegan := Behind.began k d (d' ++ [ch])
    rw [← List.append_assoc] at hbegan
    exact hbegan

/-- Nothing, or what has been handed over of an open string. -/
def PieceOf (o : Open) (tail : List Event) : Prop :=
  tail = [] ∨ ∃ k s d, o = some (k, s) ∧ d <+: s ∧ tail = [k.event d]

theorem Behind.piece (h : Behind lead o o') : PieceOf o lead := by
  cases h with
  | same => exact .inl rfl
  | began k d d' => exact .inr ⟨k, d ++ d', d, rfl, List.prefix_append d d', rfl⟩

/-- Once the string is handed over the runs have reported the same. -/
theorem Behind.closed (h : Behind lead none o') : lead = [] ∧ o' = none := by
  cases h
  exact ⟨rfl, rfl⟩

theorem Behind.flush (h : Behind lead o o') : Joined (lead ++ flush o') (flush o) := by
  cases h with
  | same o => exact joins_refl _
  | began k d d' => exact joins_two k d d'

theorem result_behind {m : Pass} (h : Behind lead o o') (hwithin : ∀ s ∈ m.opened o, m.Within s.1)
    (ch : UInt8) :
    ∃ lead', Behind lead' (m.result o ch).2 (m.result o' ch).2 ∧
      Joined (lead ++ (m.result o' ch).1) ((m.result o ch).1 ++ lead') := by
  cases h with
  | same o => exact ⟨[], .same _, by rw [List.append_nil]; exact joins_refl _⟩
  | began k d d' =>
    have hopen : ∀ d, m.opened (some (k, d)) = some (k, d) := by
      intro d
      unfold Pass.opened
      cases m.mark <;> rfl
    have hk : m.Within k := hwithin (k, d ++ d') (hopen _)
    unfold Pass.result
    rw [hopen, hopen]
    rcases hk.callback with hc | hc | ⟨hc, -⟩
    · rw [hc]
      exact ⟨_, .began k d d', joins_refl _⟩
    · rw [hc]
      dsimp only
      rw [handOver_same, handOver_same, List.append_nil, List.append_nil]
      exact ⟨[], .same none, joins_two k d d'⟩
    · rw [hc]
      dsimp only
      rw [handOver_same, handOver_same, List.append_assoc]
      exact ⟨[], .same none, joins_two k d (d' ++ [ch])⟩

/-! ## One byte -/

/-- The two runs after a byte: the callbacks agree but for `lead'`, and the machines go on alike. -/
structure Alike (lead : List Event) (s s' : Step) (lead' : List Event) : Prop where
  parser : s'.parser = s.parser
  exit : s'.exit = s.exit
  joined : Joined (lead ++ s'.events) (s.events ++ lead')
  piece : PieceOf s.opened lead'
  behind : s.exit ≠ .error → Behind lead' s.opened s'.opened

theorem stepSwitch_behind (fuel : Nat) (h : Stands p o ph) (hrank : p.state.rank < fuel)
    (hnread : p.state = .chunkSizeStart → p.nread = 1) (hb : Behind lead o o') :
    ∃ s s' lead', stepSwitch ch fuel p o = some s ∧ stepSwitch ch fuel p o' = some s' ∧
      Alike lead s s' lead' := by
  induction fuel generalizing p o o' ph lead with
  | zero => exact absurd hrank (Nat.not_lt_zero _)
  | succ fuel ih =>
    obtain ⟨m, hm, -, hwithin, ph', -, hexit⟩ := pass_good ch h hnread
    obtain ⟨lead', hb', hjoined⟩ := result_behind hb hwithin ch
    rw [stepSwitch, stepSwitch, hm]
    dsimp only [Option.bind_eq_bind, Option.bind_some]
    by_cases hagain : m.exit = .reexecute
    · rw [if_pos hagain, if_pos hagain]
      rw [hagain] at hexit
      obtain ⟨hstands, hlower, hstate⟩ := hexit
      have hne : m.parser.state = .chunkSizeStart → m.parser.nread = 1 := by
        intro hc
        rw [hc] at hstate
        cases hstate
      obtain ⟨s, s', lead'', hs, hs', halike⟩ := ih hstands (by omega) hne hb'
      rw [hs, hs']
      refine ⟨_, _, lead'', rfl, rfl, halike.parser, halike.exit, ?_, halike.piece, halike.behind⟩
      exact hjoined.comp halike.joined
    · rw [if_neg hagain, if_neg hagain]
      exact ⟨_, _, lead', rfl, rfl, rfl, rfl, hjoined, hb'.piece, fun _ => hb'⟩

/-- In a body a byte sets the mark, or ends a chunk, or is an error. -/
theorem body_pass {m : Pass} (hbody : p.state.inBody = true) (hm : pass p ch 1 = some m) :
    m.mark = some .body ∨ m.mark = none ∧ m.callback = some (.data .body) ∧ m.exit = .next ∨
      m.callback = none ∧ m.exit = .error := by
  unfold pass at hm
  revert hbody hm
  cases p.state <;> first | (intro hbody; cases hbody; done) | (intro _ hm)
  case chunkData =>
    unfold chunkData at hm
    dsimp only at hm
    split at hm
    · cases hm
    · cases hm
      exact .inl rfl
  case chunkDataAlmostDone =>
    replace hm : chunkDataAlmostDone p ch = some m := hm
    unfold chunkDataAlmostDone at hm
    split at hm
    · cases hm
    · split at hm
      · cases hm
        exact .inr (.inr ⟨rfl, rfl⟩)
      · cases hm
        exact .inr (.inl ⟨rfl, rfl, rfl⟩)
  case bodyIdentity =>
    unfold bodyIdentity at hm
    dsimp only at hm
    split at hm
    · cases hm
    · split at hm
      · cases hm
        exact .inl rfl
      · cases hm
        exact .inl rfl
  case bodyIdentityEof =>
    cases hm
    exact .inl rfl

/-- At the start of a buffer in a body, when a piece of it has been handed over. -/
theorem stepSwitch_unopened {d : Bytes} (fuel : Nat) (h : Stands p (some (.body, d)) ph)
    (hrank : p.state.rank < fuel) (hbody : p.state.inBody = true) :
    ∃ s s' lead', stepSwitch ch fuel p (some (.body, d)) = some s ∧
      stepSwitch ch fuel p none = some s' ∧ Alike [.body d] s s' lead' := by
  have hnread : p.state = .chunkSizeStart → p.nread = 1 := by
    intro hc
    rw [hc] at hbody
    cases hbody
  obtain ⟨m, hm, -⟩ := pass_good ch h hnread
  obtain ⟨fuel, rfl⟩ : ∃ n, fuel = n + 1 := ⟨fuel - 1, by omega⟩
  rcases body_pass hbody hm with hmark | ⟨hmark, hcallback, hexit⟩ | ⟨hcallback, hexit⟩
  · -- The mark is set: the string is open, with no bytes yet.
    have hsame : stepSwitch ch (fuel + 1) p none = stepSwitch ch (fuel + 1) p (some (.body, [])) := by
      have hresult : m.result none ch = m.result (some (.body, [])) ch := by
        unfold Pass.result Pass.opened
        rw [hmark]
        rfl
      rw [stepSwitch, stepSwitch, hm]
      dsimp only [Option.bind_eq_bind, Option.bind_some]
      rw [hresult]
    have hbegan := Behind.began .body d []
    rw [List.append_nil] at hbegan
    rw [hsame]
    exact stepSwitch_behind (fuel + 1) h hrank hnread hbegan
  · -- The string ends: without cuts it is handed over now, with them it has been.
    have hopened : ∀ o, m.opened o = o := by
      intro o
      unfold Pass.opened
      rw [hmark]
    have hresult : ∀ o, m.result o ch = handOver .body o [] := by
      intro o
      unfold Pass.result
      rw [hcallback, hopened]
    rw [stepSwitch, stepSwitch, hm]
    dsimp only [Option.bind_eq_bind, Option.bind_some]
    rw [hexit, if_neg (by decide), if_neg (by decide), hresult, hresult, handOver_same, List.append_nil]
    exact ⟨_, _, [], rfl, rfl, rfl, rfl, joins_refl _, .inl rfl, fun _ => .same none⟩
  · -- An error: without cuts the string stays open, with them it has been handed over.
    rw [stepSwitch, stepSwitch, hm]
    dsimp only [Option.bind_eq_bind, Option.bind_some]
    rw [hexit, if_neg (by decide), if_neg (by decide)]
    have hresult : ∀ o, (m.result o ch).1 = [] := by
      intro o
      unfold Pass.result
      rw [hcallback]
    have hopened : (m.result (some (.body, d)) ch).2 = some (.body, d) := by
      unfold Pass.result Pass.opened
      rw [hcallback]
      cases m.mark <;> rfl
    refine ⟨_, _, [.body d], rfl, rfl, rfl, rfl, ?_, ?_, fun hc => absurd rfl hc⟩
    · dsimp only
      rw [hresult, hresult]
      exact joins_refl _
    · exact .inr ⟨.body, d, d, hopened, List.prefix_rfl, rfl⟩

/-- What is open without cuts, and at a point of the run with cuts: there the string may not have
    begun in its buffer. -/
inductive Lags (p : HttpParser) : List Event → Open → Open → Prop
  | behind {lead : List Event} {o o' : Open} : Behind lead o o' → Lags p lead o o'
  | unopened (d : Bytes) : p.state.inBody = true → Lags p [.body d] (some (.body, d)) none

/-- A cut hands over the open string. -/
theorem lags_cut (h : Stands p o ph) : Lags p (flush o) o (reopened p.state) := by
  have hfits := h.fits
  unfold Fits at hfits
  cases o with
  | none =>
    have hnone : reopened p.state = none := by
      split at hfits
      · rename_i hbody
        unfold reopened
        revert hbody
        cases p.state <;> simp [State.inBody, openMark]
      · unfold reopened
        rw [← hfits]
        rfl
    rw [hnone]
    exact .behind (.same none)
  | some s =>
    obtain ⟨k, d⟩ := s
    split at hfits
    · rename_i hbody
      obtain rfl : k = .body := Option.some.inj (hfits.resolve_left (Option.some_ne_none _))
      have hnone : reopened p.state = none := by
        unfold reopened
        revert hbody
        cases p.state <;> simp [State.inBody, openMark]
      rw [hnone]
      exact .unopened d hbody
    · have hbegan := Behind.began k d []
      rw [List.append_nil] at hbegan
      unfold reopened
      rw [← hfits]
      exact .behind hbegan

theorem count_state (p : HttpParser) : (count p).state = p.state := by
  unfold count
  split <;> rfl

/-- One byte without cuts and with cuts. -/
theorem step_behind (ch : UInt8) (h : Stands p o ph) (hr : Rests p) (hlags : Lags p lead o o') :
    ∃ s s' lead', step p o ch = some s ∧ step p o' ch = some s' ∧ Alike lead s s' lead' := by
  unfold step
  dsimp only
  split
  · refine ⟨_, _, lead, rfl, rfl, rfl, rfl, ?_, ?_, fun hc => absurd rfl hc⟩
    · dsimp only
      rw [List.append_nil]
      exact joins_refl _
    · cases hlags with
      | behind hb => exact hb.piece
      | unopened d => exact .inr ⟨.body, d, d, rfl, List.prefix_rfl, rfl⟩
  · obtain ⟨s, s', lead', hs, hs', halike⟩ : ∃ s s' lead', stepSwitch ch 4 (count p) o = some s ∧
        stepSwitch ch 4 (count p) o' = some s' ∧ Alike lead s s' lead' := by
      cases hlags with
      | behind hb =>
        exact stepSwitch_behind 4 (stands_count h) (rank_lt _) (nread_count hr) hb
      | unopened d hbody =>
        exact stepSwitch_unopened 4 (stands_count h) (rank_lt _) (by rw [count_state]; exact hbody)
    rw [hs, hs', Option.map_some, Option.map_some, halike.exit]
    by_cases hexit : s.exit = .next
    · rw [if_pos hexit, if_pos hexit]
      have hb := halike.behind (by rw [hexit]; decide)
      exact ⟨_, _, lead', rfl, rfl, halike.parser, rfl, halike.joined, (hb.push ch).piece,
        fun _ => hb.push ch⟩
    · rw [if_neg hexit, if_neg hexit]
      exact ⟨s, s', lead', rfl, rfl, halike⟩

/-! ## Many bytes -/

/-- Between messages no string is open. -/
theorem opened_between (h : Stands p o .between) (hr : Rests p) : o = none := by
  rcases phase_cases h.at_ hr.1 with ⟨hs | hs | hs | hs, -⟩ | ⟨-, hc⟩ | ⟨-, -, hmid⟩
  · exact fits_none (by rw [hs]; rfl) (by rw [hs]; rfl) h.fits
  · exact fits_none (by rw [hs]; rfl) (by rw [hs]; rfl) h.fits
  · exact fits_none (by rw [hs]; rfl) (by rw [hs]; rfl) h.fits
  · exact fits_none (by rw [hs]; rfl) (by rw [hs]; rfl) h.fits
  · cases hc
  · exact absurd rfl hmid.1

/-- What a buffer reports, with and without the cuts before it. -/
structure SameScan (lead : List Event) (r r' : Scanned) (tail : List Event) : Prop where
  parser : r'.parser = r.parser
  count : r'.count = r.count
  exit : r'.exit = r.exit
  joined : Joined (lead ++ r'.execute.2.events) (r.execute.2.events ++ tail)
  piece : PieceOf r.opened tail
  whole : r.exit ≠ .error → tail = []

theorem execute_after (r : Scanned) (es : List Event) :
    (r.after es).execute.2.events = es ++ r.execute.2.events := by
  unfold Scanned.execute Scanned.after
  dsimp only
  split
  · rw [List.append_assoc]
  · rfl

theorem scan_behind (bs : Bytes) (h : Stands p o ph) (hr : Rests p) (hlags : Lags p lead o o') :
    ∃ r r' tail, scan p o bs = some r ∧ scan p o' bs = some r' ∧ SameScan lead r r' tail := by
  induction bs generalizing p o o' ph lead with
  | nil =>
    refine ⟨_, _, [], rfl, rfl, rfl, rfl, rfl, ?_, .inl rfl, fun _ => rfl⟩
    dsimp only [Scanned.execute]
    rw [if_pos rfl, List.nil_append, List.nil_append, List.append_nil]
    cases hlags with
    | behind hb => exact hb.flush
    | unopened d => exact joins_refl _
  | cons ch bs ih =>
    obtain ⟨s, s', lead', hs, hs', halike⟩ := step_behind ch h hr hlags
    obtain ⟨s'', hs'', ph', hpath, hgood⟩ := step_good ch h hr
    obtain rfl : s = s'' := Option.some.inj (hs.symm.trans hs'')
    rw [scan, scan, hs, hs']
    dsimp only [Option.bind_eq_bind, Option.bind_some]
    rw [halike.exit, halike.parser]
    have hjoined := halike.joined
    cases hexit : s.exit with
    | next =>
      rw [hexit] at hgood
      obtain ⟨r, r', tail, hr₁, hr₂, hsame⟩ := ih hgood.1 hgood.2
        (.behind (halike.behind (by rw [hexit]; decide)))
      rw [if_pos rfl, if_pos rfl, hr₁, hr₂]
      refine ⟨_, _, tail, rfl, rfl, hsame.parser, congrArg (· + 1) hsame.count, hsame.exit, ?_,
        hsame.piece, hsame.whole⟩
      rw [execute_after, execute_after]
      exact hjoined.comp hsame.joined
    | leave =>
      rw [hexit] at hgood
      obtain ⟨hstands, hrests, es, hes⟩ := hgood
      rw [hes] at hpath
      obtain rfl := path_messageComplete hpath
      have hb := halike.behind (by rw [hexit]; decide)
      rw [opened_between hstands hrests] at hb
      rw [hb.closed.1] at hjoined
      exact ⟨_, _, [], rfl, rfl, rfl, rfl, rfl, hjoined, .inl rfl, fun _ => rfl⟩
    | error =>
      exact ⟨_, _, lead', rfl, rfl, rfl, rfl, rfl, hjoined, halike.piece, fun hc => absurd rfl hc⟩
    | reexecute =>
      rw [hexit] at hgood
      exact hgood.elim

/-- Bytes, and others after them. -/
def Scanned.followed (r r' : Scanned) : Scanned :=
  { r' with events := r.events ++ r'.events, count := r.count + r'.count }

theorem scan_append {r : Scanned} {bs : Bytes} (bs' : Bytes) (hscan : scan p o bs = some r) :
    scan p o (bs ++ bs') =
      if r.exit = .next then
        (scan r.parser r.opened bs').map r.followed
      else some r := by
  induction bs generalizing p o r with
  | nil =>
    cases hscan
    have hid : Scanned.followed ⟨p, o, [], 0, .next⟩ = id := by
      funext r
      simp [Scanned.followed]
    rw [if_pos rfl, hid, Option.map_id]
    rfl
  | cons ch bs ih =>
    rw [scan] at hscan
    rw [List.cons_append, scan]
    cases hs : step p o ch with
    | none =>
      rw [hs] at hscan
      cases hscan
    | some s =>
      rw [hs] at hscan
      dsimp only [Option.bind_eq_bind, Option.bind_some] at hscan ⊢
      by_cases hexit : s.exit = .next
      · rw [if_pos hexit] at hscan ⊢
        obtain ⟨r', hr', rfl⟩ := Option.map_eq_some_iff.mp hscan
        rw [ih hr']
        show _ = if r'.exit = .next then (scan r'.parser r'.opened bs').map _ else _
        by_cases hexit' : r'.exit = .next
        · rw [if_pos hexit', if_pos hexit', Option.map_map]
          congr 1
          funext r''
          simp only [Scanned.followed, Scanned.after, Function.comp_apply, List.append_assoc,
            Nat.add_right_comm, Nat.add_assoc]
        · rw [if_neg hexit', if_neg hexit']
          rfl
      · rw [if_neg hexit] at hscan ⊢
        cases hscan
        rw [if_neg hexit]

/-! ## Buffers -/

/-- After an error nothing is read any more. -/
theorem session_failed (buffers : List Bytes) (h : p.httpErrno ≠ .ok) :
    session p buffers = some (p, buffers.map fun data => (data, ⟨[], 0⟩)) := by
  induction buffers with
  | nil => rfl
  | cons data buffers ih =>
    rw [session, execute_failed data h]
    dsimp only [Option.bind_eq_bind, Option.bind_some]
    rw [ih]
    rfl

/-- The bytes that the calls have read. -/
def bytesRead (calls : List (Bytes × Execute)) : Nat := (calls.map fun c => c.2.nparsed).sum

theorem bytesRead_cons (c : Bytes × Execute) (calls : List (Bytes × Execute)) :
    bytesRead (c :: calls) = c.2.nparsed + bytesRead calls := rfl

theorem silent_calls (buffers : List Bytes) :
    eventsOf (buffers.map fun data => (data, ⟨[], 0⟩)) = [] ∧
      bytesRead (buffers.map fun data => (data, ⟨[], 0⟩)) = 0 := by
  induction buffers with
  | nil => exact ⟨rfl, rfl⟩
  | cons data buffers ih =>
    constructor
    · rw [List.map_cons, eventsOf_cons, ih.1]
      rfl
    · rw [List.map_cons, bytesRead_cons, ih.2]

/-- The calls report what one buffer with all the bytes does. -/
structure SameCalls (lead : List Event) (r : Scanned) (calls : List (Bytes × Execute))
    (tail : List Event) : Prop where
  count : bytesRead calls = r.count
  joined : Joined (lead ++ eventsOf calls) (r.execute.2.events ++ tail)
  piece : PieceOf r.opened tail
  whole : r.exit ≠ .error → tail = []

theorem execute_followed (r r' : Scanned) :
    (r.followed r').execute.2.events = r.events ++ r'.execute.2.events := by
  unfold Scanned.execute Scanned.followed
  dsimp only
  split
  · rw [List.append_assoc]
  · rfl

/-- Buffers, after others from which the pieces `lead` of the open string have come: the machine ends
    where one buffer with all the bytes takes it, unless that one stops behind an upgrade. -/
theorem session_behind (data : Bytes) (buffers : List Bytes) (hdata : data ≠ [])
    (hbuffers : ∀ b ∈ buffers, b ≠ []) (h : Stands p o ph) (hr : Rests p)
    (hlags : Lags p lead o (reopened p.state)) {r : Scanned}
    (hscan : scan p o (data ++ buffers.flatten) = some r)
    (hwhole : r.exit = .leave → r.count = (data ++ buffers.flatten).length) :
    ∃ calls tail, session p (data :: buffers) = some (r.parser, calls) ∧
      SameCalls lead r calls tail := by
  induction buffers generalizing data p o ph lead r with
  | nil =>
    rw [List.flatten_nil, List.append_nil] at hscan
    obtain ⟨r₁, r', tail, hr₁, hr₂, hsame⟩ := scan_behind data h hr hlags
    obtain rfl : r₁ = r := Option.some.inj (hr₁.symm.trans hscan)
    obtain ⟨r'', hr₃, hexecute⟩ := execute_eq data hdata h hr
    obtain rfl : r' = r'' := Option.some.inj (hr₂.symm.trans hr₃)
    refine ⟨[(data, r'.execute.2)], tail, ?_, hsame.count, ?_, hsame.piece, hsame.whole⟩
    · rw [session, hexecute]
      show some (r'.parser, [(data, r'.execute.2)]) = _
      rw [hsame.parser]
    · rw [eventsOf_cons, eventsOf_nil, List.append_nil]
      exact hsame.joined
  | cons next buffers ih =>
    obtain ⟨r₁, r', tail, hr₁, hr₂, hsame⟩ := scan_behind data h hr hlags
    obtain ⟨r'', hr₃, hexecute⟩ := execute_eq data hdata h hr
    obtain rfl : r' = r'' := Option.some.inj (hr₂.symm.trans hr₃)
    obtain ⟨r₂, hr₄, ph', hpath, hgood⟩ := scan_good data h hr
    obtain rfl : r₁ = r₂ := Option.some.inj (hr₁.symm.trans hr₄)
    have hjoined := hsame.joined
    rw [scan_append _ hr₁] at hscan
    rw [session, hexecute]
    dsimp only [Option.bind_eq_bind, Option.bind_some]
    rw [show r'.execute.1 = r₁.parser from hsame.parser]
    cases hexit : r₁.exit with
    | next =>
      -- Read to its end: the other buffers go on from here, with the same string open.
      rw [hexit] at hgood
      obtain ⟨hstands, hrests, hcount⟩ := hgood
      rw [hexit, if_pos rfl, List.flatten_cons] at hscan
      obtain ⟨r₃, hr₅, rfl⟩ := Option.map_eq_some_iff.mp hscan
      obtain ⟨calls, tail', hsession, hcalls⟩ := ih next (hbuffers next List.mem_cons_self)
        (fun b hb => hbuffers b (List.mem_cons_of_mem _ hb)) hstands hrests (lags_cut hstands) hr₅
        (fun hc => by
          have hlength := hwhole hc
          rw [List.flatten_cons, List.length_append] at hlength
          have hfollowed : (r₁.followed r₃).count = r₁.count + r₃.count := rfl
          omega)
      obtain rfl : tail = [] := hsame.whole (by rw [hexit]; decide)
      rw [hsession]
      refine ⟨(data, r'.execute.2) :: calls, tail', rfl, ?_, ?_, hcalls.piece, hcalls.whole⟩
      · rw [bytesRead_cons, hcalls.count]
        exact congrArg (· + r₃.count) hsame.count
      · have hcut : r₁.execute.2.events = r₁.events ++ flush r₁.opened := by
          unfold Scanned.execute
          rw [if_pos hexit]
        rw [hcut, List.append_nil] at hjoined
        rw [eventsOf_cons, execute_followed]
        exact hjoined.comp hcalls.joined
    | leave =>
      -- The end of an upgrade: there are bytes behind it, in the next buffer, which `hwhole` excludes.
      rw [hexit] at hgood
      rw [hexit, if_neg (by decide)] at hscan
      cases hscan
      have hlength := hwhole hexit
      have hnext : next ≠ [] := hbuffers next List.mem_cons_self
      have hpos : 0 < next.length := List.length_pos_iff.mpr hnext
      have hle := hgood.2.2.1
      rw [List.flatten_cons, List.length_append, List.length_append] at hlength
      omega
    | error =>
      -- The error is kept, and the other buffers are not read.
      rw [hexit] at hgood
      rw [hexit, if_neg (by decide)] at hscan
      cases hscan
      rw [session_failed _ hgood.1]
      refine ⟨(data, r'.execute.2) :: (next :: buffers).map fun data => (data, ⟨[], 0⟩), tail, rfl,
        ?_, ?_, hsame.piece, hsame.whole⟩
      · rw [bytesRead_cons, (silent_calls _).2]
        exact hsame.count
      · rw [eventsOf_cons, (silent_calls _).1, List.append_nil]
        exact hjoined
    | reexecute =>
      rw [hexit] at hgood
      exact hgood.elim

/-- The string that is open where a call on one buffer stops, with its bytes from this buffer. -/
def openString (p : HttpParser) (data : Bytes) : Open :=
  (scan p (reopened p.state) data).bind Scanned.opened

/-- Wherever a parser stands, cutting does not matter: see `session_cut`. -/
theorem follows_cut (buffers : List Bytes) {ex : Execute} (hp : Follows p ph) (hne : buffers ≠ [])
    (hbuffers : ∀ b ∈ buffers, b ≠ [])
    (hone : httpParserExecute p buffers.flatten = some (q, ex))
    (hwhole : ex.nparsed = buffers.flatten.length ∨ q.httpErrno ≠ .ok) :
    ∃ calls tail, session p buffers = some (q, calls) ∧ bytesRead calls = ex.nparsed ∧
      Joined (eventsOf calls) (ex.events ++ tail) ∧
        PieceOf (openString p buffers.flatten) tail ∧ (q.httpErrno = .ok → tail = []) := by
  by_cases hok : p.httpErrno = .ok
  · obtain ⟨hstands, hrests⟩ := (if_pos hok).mp hp
    obtain ⟨data, buffers, rfl⟩ : ∃ b bs, buffers = b :: bs := List.exists_cons_of_ne_nil hne
    have hdata : data ≠ [] := hbuffers data List.mem_cons_self
    rw [List.flatten_cons] at hone hwhole
    obtain ⟨r, hscan, hexecute⟩ := execute_eq (data ++ buffers.flatten)
      (fun hc => hdata (List.append_eq_nil_iff.mp hc).1) hstands hrests
    obtain ⟨r', hscan', ph', -, hgood⟩ := scan_good (data ++ buffers.flatten) hstands hrests
    obtain rfl : r = r' := Option.some.inj (hscan.symm.trans hscan')
    obtain ⟨rfl, rfl⟩ : q = r.parser ∧ ex = r.execute.2 :=
      Prod.mk.inj (Option.some.inj (hone.symm.trans hexecute))
    obtain ⟨calls, tail, hsession, hcalls⟩ := session_behind data buffers hdata
      (fun b hb => hbuffers b (List.mem_cons_of_mem _ hb)) hstands hrests
      (.behind (.same _)) hscan (fun hexit => by
        rw [hexit] at hgood
        exact hwhole.resolve_right (not_not.mpr hgood.1.live.1))
    have hopen : openString p (data :: buffers).flatten = r.opened := by
      unfold openString
      rw [List.flatten_cons, hscan]
      rfl
    refine ⟨calls, tail, hsession, hcalls.count, hcalls.joined, hopen ▸ hcalls.piece, fun hq => ?_⟩
    refine hcalls.whole fun hexit => ?_
    rw [hexit] at hgood
    exact hgood.1 hq
  · rw [execute_failed _ hok] at hone
    cases hone
    refine ⟨_, [], session_failed buffers hok, (silent_calls buffers).2, ?_, .inl rfl,
      fun _ => rfl⟩
    rw [(silent_calls buffers).1]
    exact joins_refl _

/-- **Cutting is irrelevant.**  Wherever a parser stands, buffers with bytes in them take it where one
    buffer with all their bytes does, with as many bytes read and the same callbacks after joining
    the pieces of strings.  After an error one more piece may have been reported: a beginning of the
    string that is open where the error lies.  It is assumed that the one buffer is read to its end, or
    to an error: not just to the end of the message of an upgrade. -/
theorem session_cut (t : ParserType) (earlier buffers : List Bytes) {calls₀ : List (Bytes × Execute)}
    {ex : Execute} (hp : session (.init t) earlier = some (p, calls₀)) (hne : buffers ≠ [])
    (hbuffers : ∀ b ∈ buffers, b ≠ [])
    (hone : httpParserExecute p buffers.flatten = some (q, ex))
    (hwhole : ex.nparsed = buffers.flatten.length ∨ q.httpErrno ≠ .ok) :
    ∃ calls tail, session p buffers = some (q, calls) ∧ bytesRead calls = ex.nparsed ∧
      Joined (eventsOf calls) (ex.events ++ tail) ∧
        PieceOf (openString p buffers.flatten) tail ∧ (q.httpErrno = .ok → tail = []) := by
  obtain ⟨p', calls₁, ph, hp', -, -, hfollows⟩ := session_good earlier (follows_init t)
  obtain rfl : p = p' := congrArg Prod.fst (Option.some.inj (hp.symm.trans hp'))
  exact follows_cut buffers hfollows hne hbuffers hone hwhole

/-- A request line that is cut in its url. -/
def cutGet : List Bytes := [ascii "GET /a", ascii "b HTTP/1.1\r\n"]

theorem session_cut_get : ∃ q calls,
    httpParserExecute (.init .both) cutGet.flatten =
        some (q, ⟨[.messageBegin, .url (ascii "/ab")], 18⟩) ∧
      session (.init .both) cutGet = some (q, calls) ∧
        Joined (eventsOf calls) [.messageBegin, .url (ascii "/ab")] := by
  have hrun : (httpParserExecute (.init .both) cutGet.flatten).map
      (fun r => (r.1.httpErrno, r.2)) =
        some (.ok, ⟨[.messageBegin, .url (ascii "/ab")], 18⟩) := by decide
  obtain ⟨⟨q, ex⟩, hone, hq⟩ := Option.map_eq_some_iff.mp hrun
  obtain ⟨hok, rfl⟩ := Prod.mk.inj hq
  obtain ⟨calls, tail, hsession, -, hjoined, -, hwhole⟩ :=
    session_cut .both [] cutGet (p := .init .both) rfl (by decide) (by decide) hone
      (.inl (by decide))
  rw [hwhole hok, List.append_nil] at hjoined
  exact ⟨q, calls, hone, hsession, hjoined⟩

end Pixie.Engine
