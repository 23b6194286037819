/-
  `BlkParser` as a decoder: what it makes of an arbitrary byte string, however it is cut.

  1. **Feeding** (`feed`) — successive `append` calls, with the number of bytes they consume in the
     convention of the source: `-1` stands for the whole piece, anything else is a 1-based index.
     `feed_cases` says everything such a series can do, from any parser without a flag: either no
     byte of the concatenation raises a flag, and all of it is consumed, or it splits at the first
     byte that does, and the series ends there.  Both descriptions speak of the concatenation
     only; that the cutting is irrelevant (`feed_segmentation`) is read off them.

  2. **The reference decoder** (`Reference s m`) — `s` is four lines and a body, `m` is what they
     say.  It knows nothing of parser states.  `reference_iff_frame` identifies it, below 2^31
     bytes, with the frames of `Blk.Frame`, whose two halves (`reads_frame` and
     `frame_of_complete`) then give the equality of decoder and parser (`completesAt_iff`).

  3. **Canonical form** (`decode`, `hop`) — reading and writing again.  What any accepted text says
     has ONE encoding, and the decoder maps it back, so hops after the first change nothing.
-/
import Pixie.Blk.Stream

namespace Pixie.Blk

open Pixie.Decimal

namespace BlkParser

/-! ## Feeding a parser in pieces -/

/-- The bytes of a piece that an `append` call has consumed, from its result. -/
def consumed (piece : Bytes) (r : Int) : Nat := if r = -1 then piece.length else r.toNat

/-- `appendAll` together with the total number of bytes consumed. -/
def feed : BlkParser → List Bytes → BlkParser × Nat
  | p, [] => (p, 0)
  | p, c :: cs =>
      if (p.append c).1.flagged then ((p.append c).1, consumed c (p.append c).2)
      else ((feed (p.append c).1 cs).1, consumed c (p.append c).2 + (feed (p.append c).1 cs).2)

theorem feed_fst (p : BlkParser) (cs : List Bytes) : (p.feed cs).1 = p.appendAll cs := by
  induction cs generalizing p with
  | nil => rfl
  | cons c cs ih =>
    unfold feed appendAll
    by_cases h : (p.append c).1.flagged = true
    · rw [if_pos h]
      exact (if_pos h).symm
    · rw [if_neg h]
      exact (ih _).trans (if_neg h).symm

/-- The byte with the 1-based index `k` is the first of `s` that raises a flag. -/
def FlagAt (p : BlkParser) (s : Bytes) (k : Nat) : Prop :=
  ∃ t ch u, s = t ++ ch :: u ∧ k = t.length + 1 ∧ p.Quiet t ∧ (p.run (t ++ [ch])).flagged = true

/-- The state that the first `k` bytes of `s` lead to, when the `k`-th raises a flag. -/
theorem FlagAt.run_take {p : BlkParser} {s : Bytes} {k : Nat} (h : p.FlagAt s k) :
    k ≤ s.length ∧ (p.run (s.take k)).flagged = true ∧ p.Quiet (s.take (k - 1)) := by
  obtain ⟨t, ch, u, rfl, rfl, hq, hf⟩ := h
  have htake : (t ++ ch :: u).take (t.length + 1) = t ++ [ch] := by
    rw [List.take_length_add_append]
    rfl
  refine ⟨by simp, ?_, ?_⟩
  · rw [htake]
    exact hf
  · rw [Nat.add_sub_cancel, List.take_left]
    exact hq

/-- A piece without a flag moves the index by its length. -/
theorem FlagAt.append_left {p : BlkParser} {c s : Bytes} {k : Nat} (hc : p.Quiet c)
    (h : (p.run c).FlagAt s k) : p.FlagAt (c ++ s) (c.length + k) := by
  obtain ⟨t, ch, u, rfl, rfl, hq, hf⟩ := h
  refine ⟨c ++ t, ch, u, (List.append_assoc _ _ _).symm, ?_, Scan.quiet_append.mpr ⟨hc, hq⟩, ?_⟩
  · rw [List.length_append, Nat.add_assoc]
  · rw [List.append_assoc, run_append]
    exact hf

/-- Whatever follows the byte that raised the flag is not looked at. -/
theorem FlagAt.append_right {p : BlkParser} {s : Bytes} {k : Nat} (h : p.FlagAt s k) (v : Bytes) :
    p.FlagAt (s ++ v) k := by
  obtain ⟨t, ch, u, rfl, rfl, hq, hf⟩ := h
  exact ⟨t, ch, u ++ v, by simp, rfl, hq, hf⟩

/-- **Everything a series of `append` calls can do**, from a parser without a flag. -/
theorem feed_cases {p : BlkParser} (hp : p.flagged = false) (cs : List Bytes) :
    (p.Quiet cs.flatten ∧ p.feed cs = (p.run cs.flatten, cs.flatten.length)) ∨
      ∃ k, p.FlagAt cs.flatten k ∧ p.feed cs = (p.run (cs.flatten.take k), k) := by
  induction cs generalizing p with
  | nil => exact Or.inl ⟨trivial, rfl⟩
  | cons c cs ih =>
    rw [List.flatten_cons]
    rcases @Scan.scan_cases _ _ parseCharacter flagged p c with hq | ⟨t, ch, u, rfl, hq, hf⟩
    · -- the whole piece is read: the rest of the series starts where it ends
      have hrun : (p.run c).flagged = false := flagged_run hp hq
      have hfeed : p.feed (c :: cs) = (((p.run c).feed cs).1, c.length + ((p.run c).feed cs).2) := by
        rw [feed, append_of_quiet hq, if_neg (by rw [hrun]; decide), consumed, if_pos rfl]
      rcases ih hrun with ⟨hrest, heq⟩ | ⟨k, hk, heq⟩
      · refine Or.inl ⟨Scan.quiet_append.mpr ⟨hq, hrest⟩, ?_⟩
        rw [hfeed, heq, List.length_append, run_append]
      · refine Or.inr ⟨c.length + k, hk.append_left hq, ?_⟩
        rw [hfeed, heq, List.take_length_add_append, run_append]
    · -- the piece holds the byte that ends the series
      have hk : p.FlagAt (t ++ ch :: u) (t.length + 1) := ⟨t, ch, u, rfl, rfl, hq, hf⟩
      refine Or.inr ⟨t.length + 1, hk.append_right _, ?_⟩
      have hlen : (((t ++ [ch]).length : Nat) : Int) ≠ -1 := by omega
      have htake : (t ++ ch :: u ++ cs.flatten).take (t.length + 1) = t ++ [ch] := by
        rw [List.append_assoc, List.take_length_add_append]
        rfl
      rw [feed, append_of_flagged hq hf, if_pos hf, consumed, if_neg hlen, htake]
      simp

/-- A stream has at most one first flag. -/
theorem FlagAt.unique {p : BlkParser} {s : Bytes} {j k : Nat} (hj : p.FlagAt s j)
    (hk : p.FlagAt s k) : j = k := by
  -- a later index would put the earlier flag inside a quiet stretch
  have hlt : ∀ {a b : Nat}, p.FlagAt s a → p.FlagAt s b → ¬ a < b := by
    intro a b ha hb hab
    obtain ⟨hlen, hf, -⟩ := ha.run_take
    obtain ⟨-, -, hq⟩ := hb.run_take
    obtain ⟨t, ch, u, rfl, rfl, -, -⟩ := ha
    have hsplit : (t ++ ch :: u).take (b - 1) = (t ++ ch :: u).take (t.length + 1) ++
        ((t ++ ch :: u).take (b - 1)).drop (t.length + 1) := by
      have hle : t.length + 1 ≤ b - 1 := by omega
      conv_lhs => rw [← List.take_append_drop (t.length + 1) ((t ++ ch :: u).take (b - 1))]
      rw [List.take_take, Nat.min_eq_left hle]
    rw [hsplit] at hq
    have hne : (t ++ ch :: u).take (t.length + 1) ≠ [] := by
      rw [List.take_length_add_append]
      simp
    rw [run, hq.left.stop_foldl hne] at hf
    cases hf
  have hjk := hlt hj hk
  have hkj := hlt hk hj
  omega

theorem FlagAt.not_quiet {p : BlkParser} {s : Bytes} {k : Nat} (h : p.FlagAt s k) : ¬ p.Quiet s := by
  obtain ⟨t, ch, u, rfl, rfl, hq, hf⟩ := h
  intro hs
  have hs' : p.Quiet (t ++ [ch] ++ u) := by
    rw [List.append_assoc]
    exact hs
  rw [run, hs'.left.stop_foldl (by simp)] at hf
  cases hf

/-- **Segmentation independence**: two cuttings of one byte string leave a fresh parser in the same
    state, after the same number of bytes — the index of the byte that raised a flag, or all. -/
theorem feed_segmentation (msg : BlkMessage) (cs ds : List Bytes) (h : cs.flatten = ds.flatten) :
    (new msg).feed cs = (new msg).feed ds ∧
      ((∃ k, (new msg).FlagAt cs.flatten k ∧ ((new msg).feed cs).2 = k) ∨
        ((∀ k, ¬ (new msg).FlagAt cs.flatten k) ∧ ((new msg).feed cs).2 = cs.flatten.length)) := by
  have hcs := feed_cases (p := new msg) rfl cs
  have hds := feed_cases (p := new msg) rfl ds
  rw [← h] at hds
  rcases hcs with ⟨hq, hc⟩ | ⟨k, hk, hc⟩
  · constructor
    · rcases hds with ⟨-, hd⟩ | ⟨j, hj, -⟩
      · rw [hc, hd]
      · exact absurd hq hj.not_quiet
    · exact Or.inr ⟨fun k hk => hk.not_quiet hq, by rw [hc]⟩
  · constructor
    · rcases hds with ⟨hq, -⟩ | ⟨j, hj, hd⟩
      · exact absurd hq hk.not_quiet
      · rw [hc, hd, hj.unique hk]
    · exact Or.inl ⟨k, hk, by rw [hc]⟩

/-- A frame cut inside its first keyword, and inside its length and its body. -/
theorem feed_segmentation_ping :
    (new BlkMessage.blank).feed [ascii "sta", ascii "rt\n80\nNormal\n4\nping"] =
      (new BlkMessage.blank).feed [ascii "start\n80\nNormal\n", ascii "4\npi", ascii "ng"] :=
  (feed_segmentation BlkMessage.blank [ascii "sta", ascii "rt\n80\nNormal\n4\nping"]
    [ascii "start\n80\nNormal\n", ascii "4\npi", ascii "ng"] (by decide)).1

end BlkParser

/-! ## The reference decoder -/

/-- **The reference decoder**: `s` is four lines and a body, and `m` is what they say. -/
def Reference (s : Bytes) (m : BlkMessage) : Prop :=
  ∃ (start port verb length body : Bytes) (portVal lenVal : Int32),
    s = start ++ newline :: (port ++ newline :: (verb ++ newline :: (length ++ newline :: body))) ∧
    start.map toupper = START ∧
    newline ∉ port ∧ stoi port = some portVal ∧
    (verb.map toupper = NORMAL ∨ verb.map toupper = TUNNEL) ∧
    newline ∉ length ∧ stoi length = some lenVal ∧
    1 ≤ lenVal.toInt ∧ (body.length : Int) = lenVal.toInt ∧
    m = ⟨START, portVal, verb.map toupper, lenVal, body⟩

/-- In a string that fits a buffer, the reference decoder accepts exactly the frames. -/
theorem reference_iff_frame {s : Bytes} (hs : s.length < 2 ^ 31) (m : BlkMessage) :
    Reference s m ↔ ∃ f : Frame, f.bytes = s ∧ f.message = m := by
  constructor
  · rintro ⟨start, port, verb, length, body, portVal, lenVal, rfl, h0, h1, hport, h2, h3, hlen, hpos,
      hbody, rfl⟩
    have hsize := sizeOfInt_of_nonneg (n := lenVal) (by omega)
    have hne : body ≠ [] := by
      rintro rfl
      simp only [List.length_nil] at hbody
      omega
    have hcount : body.length = sizeOfInt lenVal := by omega
    exact ⟨⟨⟨start, port, verb, length, portVal, lenVal, h0, h1, hport, h2, h3, hlen⟩, body, hne,
      hcount⟩, by simp [Frame.bytes, Header.bytes], rfl⟩
  · rintro ⟨f, rfl, rfl⟩
    have hbody : f.body.length ≤ f.bytes.length := by
      simp [Frame.bytes]
    have hlen := f.toInt_lenVal (by omega)
    have hpos := List.length_pos_iff.mpr f.body_ne
    exact ⟨f.start, f.port, f.verb, f.length, f.body, f.portVal, f.lenVal,
      by simp [Frame.bytes, Header.bytes], f.start_ok, f.port_line, f.port_ok, f.verb_ok,
      f.length_line, f.length_ok, by omega, by omega, rfl⟩

namespace BlkParser

/-- A frame at the head of the input is read to its last byte, and nothing after it is looked at. -/
theorem append_frame (msg : BlkMessage) (f : Frame) (u : Bytes) :
    (new msg).append (f.bytes ++ u) = (afterFrame msg f, (f.bytes.length : Int)) := by
  obtain ⟨t, ch, htext, hq, hrun⟩ := reads_frame msg f
  rw [htext] at hrun ⊢
  have hf : ((new msg).run (t ++ [ch])).flagged = true := by
    rw [hrun]
    rfl
  rw [List.append_assoc]
  exact (append_of_flagged hq hf).trans (by rw [hrun])

/-- **When a fresh parser completes**: exactly when its input starts with a frame. -/
theorem append_complete_iff (msg : BlkMessage) (s : Bytes) :
    ((new msg).append s).1.messageComplete = true ↔ ∃ f : Frame, f.bytes <+: s := by
  constructor
  · intro hc
    rcases @Scan.scan_cases _ _ parseCharacter flagged (new msg) s with hq | ⟨t, ch, u, rfl, hq, hf⟩
    · have hflag := (progress_of_quiet hq).not_flagged
      rw [append_of_quiet hq] at hc
      rw [flagged, hc, Bool.or_true] at hflag
      cases hflag
    · rw [append_of_flagged hq hf] at hc
      obtain ⟨f, hbytes, -⟩ := frame_of_complete hq hc
      exact ⟨f, u, by rw [hbytes, List.append_assoc]; rfl⟩
  · rintro ⟨f, u, rfl⟩
    rw [append_frame]
    rfl

/-- No frame is a proper prefix of another: an input starts with at most one. -/
theorem frame_prefix_unique {f g : Frame} {s : Bytes} (hf : f.bytes <+: s) (hg : g.bytes <+: s) :
    f.bytes = g.bytes := by
  obtain ⟨u, hu⟩ := hf
  obtain ⟨v, hv⟩ := hg
  have hff := append_frame BlkMessage.blank f u
  have hgg := append_frame BlkMessage.blank g v
  rw [hu] at hff
  rw [hv, hff] at hgg
  have hlen : (f.bytes.length : Int) = g.bytes.length := congrArg Prod.snd hgg
  exact (List.append_inj (hu.trans hv.symm) (by omega)).1

/-- Only the concatenation of the pieces matters for where a series of calls ends. -/
theorem appendAll_flatten {p : BlkParser} (hp : p.flagged = false) (cs : List Bytes) :
    p.appendAll cs = (p.append cs.flatten).1 := by
  rw [← feed_fst]
  rcases feed_cases hp cs with ⟨hq, heq⟩ | ⟨k, ⟨t, ch, u, htext, rfl, hq, hf⟩, heq⟩
  · rw [heq, append_of_quiet hq]
  · rw [heq, htext, append_of_flagged hq hf, List.take_length_add_append]
    rfl

/-- The byte with the 1-based index `k` is the one at which a fresh parser completes: after `k`
    bytes it has, after fewer it had not. -/
def CompletesAt (msg : BlkMessage) (s : Bytes) (k : Nat) : Prop :=
  k ≤ s.length ∧ ((new msg).append (s.take k)).1.messageComplete = true ∧
    ∀ j < k, ((new msg).append (s.take j)).1.messageComplete = false

theorem completesAt_iff_frame {msg : BlkMessage} {s : Bytes} {k : Nat} :
    CompletesAt msg s k ↔ k ≤ s.length ∧ ∃ f : Frame, f.bytes = s.take k := by
  constructor
  · rintro ⟨hk, hdone, hfirst⟩
    refine ⟨hk, ?_⟩
    obtain ⟨f, hpre⟩ := (append_complete_iff msg _).mp hdone
    refine ⟨f, ?_⟩
    have hle : f.bytes.length ≤ k := hpre.length_le.trans (List.length_take_le _ _)
    have htake : f.bytes = s.take f.bytes.length :=
      List.prefix_iff_eq_take.mp (hpre.trans (List.take_prefix _ _))
    -- a frame that ends earlier would have completed the parser earlier
    rcases Nat.lt_or_ge f.bytes.length k with hlt | hge
    · have hnot := hfirst _ hlt
      rw [(append_complete_iff msg _).mpr ⟨f, htake ▸ List.prefix_refl _⟩] at hnot
      cases hnot
    · have heq : f.bytes.length = k := by omega
      rw [← heq]
      exact htake
  · rintro ⟨hk, f, hf⟩
    refine ⟨hk, (append_complete_iff msg _).mpr ⟨f, hf ▸ List.prefix_refl _⟩, ?_⟩
    intro j hj
    rw [Bool.eq_false_iff]
    intro hdone
    obtain ⟨g, hg⟩ := (append_complete_iff msg _).mp hdone
    have hfs : f.bytes <+: s := hf ▸ List.take_prefix _ _
    have hsame := frame_prefix_unique hfs (hg.trans (List.take_prefix _ _))
    have hglen : g.bytes.length ≤ j := hg.length_le.trans (List.length_take_le _ _)
    have hflen : f.bytes.length = k := by
      rw [hf, List.length_take]
      omega
    rw [hsame] at hflen
    omega

/-- **The parser is the reference decoder**: it completes at the `k`-th byte of a string, with the
    message `m`, exactly when the reference decoder reads `m` in the first `k` bytes; and cut in
    any way, a string on which the reference decoder fails never completes it. -/
theorem completesAt_iff (msg : BlkMessage) (s : Bytes) (hs : s.length < 2 ^ 31) :
    (∀ k m, CompletesAt msg s k ∧ ((new msg).append (s.take k)).1.msg = m ↔
      k ≤ s.length ∧ Reference (s.take k) m) ∧
    ∀ cs : List Bytes, cs.flatten = s →
      (((new msg).appendAll cs).messageComplete = true ↔
        ∃ k m, k ≤ s.length ∧ Reference (s.take k) m) := by
  have hshort : ∀ k, (s.take k).length < 2 ^ 31 := by
    intro k
    have := List.length_take_le' k s
    omega
  constructor
  · intro k m
    rw [completesAt_iff_frame, reference_iff_frame (hshort k), and_assoc]
    apply and_congr_right
    intro _
    constructor
    · rintro ⟨⟨f, hf⟩, hm⟩
      have happ := append_frame msg f []
      rw [List.append_nil, hf] at happ
      rw [happ] at hm
      exact ⟨f, hf, hm⟩
    · rintro ⟨f, hf, rfl⟩
      have happ := append_frame msg f []
      rw [List.append_nil, hf] at happ
      exact ⟨⟨f, hf⟩, by rw [happ]; rfl⟩
  · rintro cs rfl
    rw [appendAll_flatten rfl, append_complete_iff]
    constructor
    · rintro ⟨f, hf⟩
      have htake := List.prefix_iff_eq_take.mp hf
      exact ⟨f.bytes.length, f.message, hf.length_le,
        (reference_iff_frame (hshort _) _).mpr ⟨f, htake, rfl⟩⟩
    · rintro ⟨k, m, -, href⟩
      obtain ⟨f, hf, -⟩ := (reference_iff_frame (hshort k) m).mp href
      exact ⟨f, hf ▸ List.take_prefix _ _⟩

/-- A frame in mixed case, with a sign, blanks and trailing text in its numbers, and a byte more. -/
theorem completesAt_iff_ping :
    CompletesAt BlkMessage.blank (ascii "Start\n +80x\nnormal\n04\nping!") 27 ∧
      ((new BlkMessage.blank).append ((ascii "Start\n +80x\nnormal\n04\nping!").take 27)).1.msg =
        BlkMessage.make 80 NORMAL (ascii "ping") ↔
    27 ≤ (ascii "Start\n +80x\nnormal\n04\nping!").length ∧
      Reference ((ascii "Start\n +80x\nnormal\n04\nping!").take 27)
        (BlkMessage.make 80 NORMAL (ascii "ping")) :=
  (completesAt_iff BlkMessage.blank (ascii "Start\n +80x\nnormal\n04\nping!") (by decide)).1 27 _

/-! ## Reading and writing again -/

/-- What a fresh parser makes of a whole text. -/
def decode (s : Bytes) : Option BlkMessage :=
  if ((new BlkMessage.blank).append s).1.messageComplete then
    some ((new BlkMessage.blank).append s).1.msg
  else none

/-- One hop: a text is read, and what it says is written again. -/
def hop (s : Bytes) : Option Bytes := (decode s).map BlkMessage.toRawString

/-- The text after `n` hops. -/
def hops : Nat → Bytes → Option Bytes
  | 0, s => some s
  | n + 1, s => (hops n s).bind hop

theorem decode_of_frame {f : Frame} {s : Bytes} (hf : f.bytes <+: s) :
    decode s = some f.message := by
  obtain ⟨u, rfl⟩ := hf
  rw [decode, append_frame]
  rfl

/-- Every hop but the first leaves the canonical text as it is. -/
theorem hops_of_canonical {s : Bytes} {m : BlkMessage} (h0 : hop s = some m.toRawString)
    (h1 : hop m.toRawString = some m.toRawString) (n : Nat) :
    hops (n + 1) s = some m.toRawString := by
  induction n with
  | zero => exact h0
  | succ n ih =>
    rw [hops, ih]
    exact h1

/-- **Decode then encode is canonicalising**: whatever text below 2^31 bytes completes a fresh parser
    with `m`, in whatever pieces, the encoding of `m` completes any fresh parser at its last byte
    with `m`, and any number of hops turns the text into that encoding and never changes what it
    says. -/
theorem canonical_of_complete (msg : BlkMessage) (cs : List Bytes) (m : BlkMessage)
    (hs : cs.flatten.length < 2 ^ 31)
    (hdone : ((new msg).appendAll cs).messageComplete = true)
    (hm : ((new msg).appendAll cs).msg = m) :
    (∀ msg' : BlkMessage,
      CompletesAt msg' m.toRawString m.toRawString.length ∧
        (new msg').append m.toRawString = (((new msg').append m.toRawString).1,
          (m.toRawString.length : Int)) ∧
        ((new msg').append m.toRawString).1.msg = m) ∧
    hop m.toRawString = some m.toRawString ∧
    ∀ n, hops (n + 1) cs.flatten = some m.toRawString ∧
      (hops n cs.flatten).bind decode = some m := by
  rw [appendAll_flatten rfl] at hdone hm
  obtain ⟨f, hf⟩ := (append_complete_iff msg _).mp hdone
  have hmsg : f.message = m := by
    obtain ⟨u, hu⟩ := hf
    rw [← hu, append_frame] at hm
    exact hm
  have hbody : f.body.length < 2 ^ 31 := by
    have hle := hf.length_le
    have hpart : f.body.length ≤ f.bytes.length := by simp [Frame.bytes]
    omega
  obtain ⟨g, hbytes, hg⟩ := f.reencoded hbody
  rw [hmsg] at hbytes hg
  have hpre : g.bytes <+: m.toRawString := ⟨[], by rw [List.append_nil, hbytes]⟩
  have hself : decode m.toRawString = some m := by
    rw [decode_of_frame hpre, hg]
  have hfirst : decode cs.flatten = some m := by
    rw [← hmsg]
    exact decode_of_frame hf
  have hhop : hop m.toRawString = some m.toRawString := by rw [hop, hself]; rfl
  have hall := hops_of_canonical (s := cs.flatten) (by rw [hop, hfirst]; rfl) hhop
  refine ⟨?_, hhop, ?_⟩
  · intro msg'
    have happ := append_frame msg' g []
    rw [List.append_nil, hbytes] at happ
    refine ⟨completesAt_iff_frame.mpr ⟨Nat.le_refl _, g, ?_⟩, ?_, ?_⟩
    · rw [List.take_length]
      exact hbytes
    · rw [happ]
    · rw [happ]
      exact hg
  · intro n
    refine ⟨hall n, ?_⟩
    cases n with
    | zero => exact hfirst
    | succ n =>
      rw [hall n]
      exact hself

/-- Mixed case, a sign, blanks, a leading zero and trailing text collapse to one encoding. -/
theorem canonical_of_complete_ping :
    hops 3 (ascii "Start\n +80x\nnormal\n04\nping!") = some (ascii "START\n80\nNORMAL\n4\nping") :=
  ((canonical_of_complete BlkMessage.blank [ascii "Start\n +80x\nnormal\n04\nping!"]
    (BlkMessage.make 80 NORMAL (ascii "ping")) (by decide) (by decide) (by decide)).2.2 2).1.trans
    (by decide)

end BlkParser

end Pixie.Blk
