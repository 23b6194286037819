/-
  What a body does to the machine.

  1. `plain_runs` — a body of a known length is reported whole, and ends its message.

  2. `chunk_runs` — a chunk: its size is a hexadecimal number (`hexChar` is one digit of it, refused
     where the code refuses it), then parameters that nobody reads, then so many bytes.  `nread` counts
     the bytes of each size line anew.

  3. `chunks_more`, `trailers_runs` — chunks one after the other, the one of size 0, and the trailers,
     which are header lines again.
-/
import Pixie.Engine.Heads

namespace Pixie.Engine

open Pixie.Decimal Pixie.Http Pixie.Crlf

variable {p q : HttpParser} {o : Open} {n : Nat} {s : State} {ch : UInt8} {d : Bytes}

/-! ## A body of a known length -/

/-- A byte in a body. -/
theorem runs_body {m : Pass} (hs : p.state.parsingHeader = false) (hm : pass p ch 1 = some m)
    (hexit : m.exit = .next) :
    Runs p o [ch] (m.result o ch).1 m.parser (push ch (m.result o ch).2) := by
  have hcount : count p = p := by
    unfold count
    rw [if_neg (by rw [hs]; decide)]
  refine runs_step ?_
  unfold step
  dsimp only
  rw [hcount, if_neg (fun h => by rw [hs] at h; cases h.1), stepSwitch, hm]
  dsimp only [Option.bind_eq_bind, Option.bind_some]
  rw [if_neg (by rw [hexit]; decide), hexit]
  rfl

/-- The string that `MARK(body)` leaves open. -/
def Opens (o : Open) (d : Bytes) : Prop := o.or (some (.body, [])) = some (.body, d)

theorem opens_none : Opens none [] := rfl

theorem opens_some (d : Bytes) : Opens (some (.body, d)) d := rfl

/-- The parser, in a state, with so many bytes of the body to come. -/
def HttpParser.expecting (p : HttpParser) (s : State) (left : Nat) : HttpParser :=
  { p with state := s, contentLength := left }

/-- A byte that goes to the body. -/
theorem runs_data (hs : p.state.parsingHeader = false) (ho : Opens o d)
    (hm : pass p ch 1 = some { parser := q, mark := some .body }) :
    Runs p o [ch] [] q (some (.body, d ++ [ch])) := by
  have hrun := runs_body (o := o) hs hm rfl
  have hresult : Pass.result { parser := q, mark := some .body } o ch = ([], some (.body, d)) :=
    congrArg (Prod.mk []) ho
  rw [hresult] at hrun
  exact hrun

theorem pass_plain_byte {left : Nat} (hleft : left + 2 < ullongMax) (ch : UInt8) :
    pass (p.expecting .bodyIdentity (left + 2)) ch 1 = some
      { parser := p.expecting .bodyIdentity (left + 1), mark := some .body } := by
  have hpass := pass_bodyIdentity (p := p.expecting .bodyIdentity (left + 2)) (n := 1) (t := 1) rfl
    (Nat.succ_ne_zero _) hleft ch (by show min (left + 2) 1 = 1; omega)
  rw [if_neg (by show ¬ left + 2 - 1 = 0; omega)] at hpass
  exact hpass

theorem pass_plain_last (ch : UInt8) :
    pass (p.expecting .bodyIdentity 1) ch 1 = some
      { parser := p.expecting .messageDone 0
        mark := some .body
        callback := some (.dataThrough .body)
        exit := .reexecute } := by
  have hpass := pass_bodyIdentity (p := p.expecting .bodyIdentity 1) (n := 1) (t := 1) rfl
    Nat.one_ne_zero (by show 1 < ullongMax; decide) ch rfl
  rw [if_pos (show (p.expecting .bodyIdentity 1).contentLength - 1 = 0 from rfl)] at hpass
  exact hpass

/-- The last byte of the body ends the message. -/
theorem plain_last (ho : Opens o d) :
    Runs (p.expecting .bodyIdentity 1) o [ch] [.body (d ++ [ch]), .messageComplete]
      (p.expecting (p.expecting .messageDone 0).newMessage 0) none := by
  have hresult : Pass.result
      { parser := p.expecting .messageDone 0
        mark := some .body
        callback := some (.dataThrough .body)
        exit := .reexecute } o ch = ([.body (d ++ [ch])], none) := by
    show handOver .body (o.or (some (.body, []))) [ch] = _
    rw [ho, handOver_same]
    rfl
  refine runs_step ?_
  unfold step
  dsimp only
  rw [show count (p.expecting .bodyIdentity 1) = p.expecting .bodyIdentity 1 from rfl,
    if_neg (fun h => Bool.false_ne_true h.1), stepSwitch, pass_plain_last]
  dsimp only [Option.bind_eq_bind, Option.bind_some]
  rw [if_pos rfl, hresult]
  rfl

/-- **A body of a known length.** -/
theorem plain_runs (data : Bytes) (hne : data ≠ []) (hsize : data.length < ullongMax) (ho : Opens o d) :
    Runs (p.expecting .bodyIdentity data.length) o data [.body (d ++ data), .messageComplete]
      (p.expecting (p.expecting .messageDone 0).newMessage 0) none := by
  induction data generalizing o d with
  | nil => exact absurd rfl hne
  | cons c data ih =>
    cases data with
    | nil => exact plain_last ho
    | cons c' data =>
      have hrest := ih (List.cons_ne_nil _ _) (Nat.lt_of_succ_lt hsize) (opens_some (d ++ [c]))
      rw [List.append_assoc] at hrest
      exact (runs_data rfl ho (pass_plain_byte hsize c)).quiet hrest

/-! ## Chunks -/

/-- One digit of the size of a chunk. -/
def hexChar (m : Nat) (c : UInt8) : Option Nat :=
  (unhex c).bind fun v => if 16 * m + v ≤ 2 ^ 64 - 17 then some (16 * m + v) else none

/-- A chunk: its size as it is written, what stands behind it on its line, and its bytes. -/
structure Chunk where
  size : Bytes
  parameters : Bytes
  data : Bytes
deriving DecidableEq

namespace Chunk

/-- The line with the size. -/
def line (c : Chunk) : Bytes := c.size ++ (c.parameters ++ crlf)

/-- The text of a chunk. -/
def text (c : Chunk) : Bytes := c.line ++ (c.data ++ crlf)

/-- The size says how many bytes there are, and the line is not too long. -/
structure WellFormed (c : Chunk) : Prop where
  some_digit : c.size ≠ []
  size : c.size.foldlM hexChar 0 = some c.data.length
  parameters : ∀ ch ∈ c.parameters, ch ≠ cr
  separated : ∀ ch ∈ c.parameters.head?, ch = byte ';' ∨ ch = byte ' '
  short : c.line.length ≤ httpMaxHeaderSize

instance (c : Chunk) : Decidable c.WellFormed :=
  decidable_of_iff (c.size ≠ [] ∧ c.size.foldlM hexChar 0 = some c.data.length ∧
      (c.parameters.all fun ch => ch != cr) = true ∧
        (c.parameters.head?.all fun ch => ch == byte ';' || ch == byte ' ') = true ∧
          c.line.length ≤ httpMaxHeaderSize)
    ⟨fun h => ⟨h.1, h.2.1, by simpa using h.2.2.1, by simpa [Option.all_eq_true] using h.2.2.2.1,
        h.2.2.2.2⟩,
      fun h => ⟨h.some_digit, h.size, by simpa using h.parameters,
        by simpa [Option.all_eq_true] using h.separated, h.short⟩⟩

end Chunk

theorem unhex_control : unhex cr = none ∧ unhex (byte ';') = none ∧ unhex (byte ' ') = none := by
  decide

theorem ne_of_unhex {c : UInt8} {v : Nat} (hc : unhex ch = some v) (h : unhex c = none) : ch ≠ c := by
  rintro rfl
  rw [h] at hc
  cases hc

theorem hexChar_some {m m' : Nat} (h : hexChar m ch = some m') :
    ∃ v, unhex ch = some v ∧ 16 * m + v ≤ 2 ^ 64 - 17 ∧ m' = 16 * m + v := by
  obtain ⟨v, hv, hm⟩ := Option.bind_eq_some_iff.mp h
  split at hm
  · rename_i hfits
    exact ⟨v, hv, hfits, (Option.some.inj hm).symm⟩
  · cases hm

namespace HttpParser

/-- The parser with the size of a chunk. -/
def sized (p : HttpParser) (m : Nat) : HttpParser := { p with contentLength := m }

/-- `parser->nread = 0`. -/
def cleared (p : HttpParser) : HttpParser := { p with nread := 0 }

theorem cleared_self {p : HttpParser} (h : p.nread = 0) : p.cleared = p := by
  unfold cleared
  rw [← h]

end HttpParser

/-- A digit of the size that is not the first. -/
theorem chunkSize_digit {m : Nat} (hchunked : p.flags.chunked = true)
    (h : hexChar p.contentLength ch = some m) :
    chunkSize p ch = stay { p with contentLength := m } := by
  obtain ⟨v, hv, hfits, rfl⟩ := hexChar_some h
  have hlt := unhex_lt hv
  unfold chunkSize
  rw [if_neg (not_not.mpr hchunked), if_neg (ne_of_unhex hv unhex_control.1), hv]
  dsimp only
  unfold moreLength
  rw [if_neg (by simp only [ullongMax]; omega)]
  dsimp only
  rw [show (p.contentLength * 16 + v) % 2 ^ 64 = 16 * p.contentLength + v by omega]

theorem chunkSize_cr (hchunked : p.flags.chunked = true) :
    chunkSize p cr = go p .chunkSizeAlmostDone := by
  unfold chunkSize
  rw [if_neg (not_not.mpr hchunked), if_pos rfl]

theorem chunkSize_separator (hchunked : p.flags.chunked = true) (hch : ch = byte ';' ∨ ch = byte ' ') :
    chunkSize p ch = go p .chunkParameters := by
  have hunhex : unhex ch = none := by
    rcases hch with rfl | rfl
    · exact unhex_control.2.1
    · exact unhex_control.2.2
  have hcr : ch ≠ cr := by
    rcases hch with rfl | rfl
    · decide
    · decide
  unfold chunkSize
  rw [if_neg (not_not.mpr hchunked), if_neg hcr, hunhex]
  dsimp only
  rw [if_pos hch]

theorem chunkSizeStart_digit {v : Nat} (hchunked : p.flags.chunked = true) (hnread : p.nread = 1)
    (hv : unhex ch = some v) :
    chunkSizeStart p ch = go { p with contentLength := v } .chunkSize := by
  unfold chunkSizeStart
  rw [if_neg (not_or.mpr ⟨not_not.mpr hnread, not_not.mpr hchunked⟩), hv]

theorem chunkSizeAlmostDone_lf (hchunked : p.flags.chunked = true) :
    chunkSizeAlmostDone p lf = if p.contentLength = 0 then
        go { p with nread := 0, flags := { p.flags with trailing := true } } .headerFieldStart
      else go { p with nread := 0 } .chunkData := by
  unfold chunkSizeAlmostDone
  rw [if_neg (not_not.mpr hchunked), if_neg (not_not.mpr rfl)]

theorem chunkDataAlmostDone_cr (hchunked : p.flags.chunked = true) (hzero : p.contentLength = 0) :
    chunkDataAlmostDone p cr = close p .chunkDataDone .body := by
  unfold chunkDataAlmostDone
  rw [if_neg (not_or.mpr ⟨not_not.mpr hchunked, not_not.mpr hzero⟩), if_neg (not_not.mpr rfl)]

theorem chunkDataDone_lf (hchunked : p.flags.chunked = true) :
    chunkDataDone p lf = go { p with nread := 0 } .chunkSizeStart := by
  unfold chunkDataDone
  rw [if_neg (not_not.mpr hchunked), if_neg (not_not.mpr rfl)]

theorem chunkParameters_char (ch : UInt8) (hchunked : p.flags.chunked = true) :
    chunkParameters p ch = if ch = cr then go p .chunkSizeAlmostDone else stay p := by
  unfold chunkParameters
  rw [if_neg (not_not.mpr hchunked)]

theorem size_more (cs : Bytes) {m m' : Nat} (hchunked : p.flags.chunked = true)
    (hsize : cs.foldlM hexChar m = some m') (hroom : p.nread + n + cs.length ≤ httpMaxHeaderSize) :
    Runs ((p.sized m).reach .chunkSize n) none cs [] ((p.sized m').reach .chunkSize (n + cs.length))
      none := by
  induction cs generalizing m n with
  | nil =>
    cases hsize
    exact .nil _ _
  | cons c cs ih =>
    rw [List.length_cons] at hroom ⊢
    rw [List.foldlM_cons] at hsize
    obtain ⟨m₁, hc, hrest⟩ := Option.bind_eq_some_iff.mp hsize
    have hruns := ih (n := n + 1) hrest (by omega)
    rw [Nat.add_right_comm] at hruns
    have hone : Runs ((p.sized m).reach .chunkSize n) none [c] []
        ((p.sized m₁).reach .chunkSize (n + 1)) none :=
      runs_go (o := none) rfl (by show p.nread + n < _; omega)
        (chunkSize_digit (p := (p.sized m).reach .chunkSize (n + 1)) hchunked hc)
    exact hone.quiet hruns

/-- The size of a chunk; `nread` is 0 where the line begins. -/
theorem size_runs {size : Bytes} {m : Nat} (hchunked : p.flags.chunked = true) (hnread : p.nread = 0)
    (hne : size ≠ []) (hsize : size.foldlM hexChar 0 = some m)
    (hroom : size.length ≤ httpMaxHeaderSize) :
    Runs (p.reach .chunkSizeStart 0) none size [] ((p.sized m).reach .chunkSize size.length) none := by
  obtain ⟨c, cs, rfl⟩ := List.exists_cons_of_ne_nil hne
  rw [List.length_cons] at hroom ⊢
  rw [List.foldlM_cons] at hsize
  obtain ⟨m₁, hc, hrest⟩ := Option.bind_eq_some_iff.mp hsize
  obtain ⟨v, hv, -, hm₁⟩ := hexChar_some hc
  obtain rfl : m₁ = v := by omega
  have hone : Runs (p.reach .chunkSizeStart 0) none [c] [] ((p.sized m₁).reach .chunkSize 1) none :=
    runs_go (o := none) rfl (by omega) (chunkSizeStart_digit (p := p.reach .chunkSizeStart 1) hchunked
      (by rw [HttpParser.reach_nread, hnread]) hv)
  have hmore := size_more (p := p) (n := 1) cs hchunked hrest (by omega)
  rw [Nat.add_comm] at hmore
  exact hone.quiet hmore

/-- The parameters of a chunk, up to the CR. -/
theorem parameters_more (cs : Bytes) (hchunked : p.flags.chunked = true) (hcs : ∀ c ∈ cs, c ≠ cr)
    (hroom : p.nread + n + cs.length + 1 ≤ httpMaxHeaderSize) :
    Runs (p.reach .chunkParameters n) none (cs ++ [cr]) []
      (p.reach .chunkSizeAlmostDone (n + cs.length + 1)) none := by
  induction cs generalizing n with
  | nil =>
    exact runs_go (o := none) rfl (by rw [List.length_nil] at hroom; omega)
      (chunkParameters_char (p := p.reach .chunkParameters (n + 1)) cr hchunked)
  | cons c cs ih =>
    rw [List.length_cons] at hroom ⊢
    have hrest := ih (n := n + 1) (fun c hc => hcs c (List.mem_cons_of_mem _ hc)) (by omega)
    rw [show n + 1 + cs.length + 1 = n + (cs.length + 1) + 1 by omega] at hrest
    have hone : Runs (p.reach .chunkParameters n) none [c] [] (p.reach .chunkParameters (n + 1)) none :=
      runs_go (o := none) rfl (by omega)
        ((chunkParameters_char (p := p.reach .chunkParameters (n + 1)) c hchunked).trans
          (if_neg (hcs c List.mem_cons_self)))
    exact hone.quiet hrest

/-- The line of a chunk's size, up to its LF. -/
theorem line_runs {c : Chunk} (hc : c.WellFormed) (hchunked : p.flags.chunked = true)
    (hnread : p.nread = 0) :
    Runs (p.reach .chunkSizeStart 0) none (c.size ++ (c.parameters ++ [cr])) []
      ((p.sized c.data.length).reach .chunkSizeAlmostDone (c.size.length + c.parameters.length + 1))
      none := by
  have hshort := hc.short
  unfold Chunk.line at hshort
  rw [List.length_append, List.length_append, show crlf.length = 2 from rfl] at hshort
  have hsize := size_runs hchunked hnread hc.some_digit hc.size (by omega)
  have hparameters := hc.parameters
  have hseparated := hc.separated
  refine hsize.append ?_
  generalize c.parameters = cs at hshort hparameters hseparated ⊢
  cases cs with
  | nil =>
    rw [List.length_nil] at hshort
    exact runs_go (o := none) rfl (by show p.nread + _ < _; omega)
      (chunkSize_cr (p := (p.sized c.data.length).reach .chunkSize (c.size.length + 1)) hchunked)
  | cons ch cs =>
    rw [List.length_cons] at hshort ⊢
    have hone : Runs ((p.sized c.data.length).reach .chunkSize c.size.length) none [ch] []
        ((p.sized c.data.length).reach .chunkParameters (c.size.length + 1)) none :=
      runs_go (o := none) rfl (by show p.nread + _ < _; omega)
        (chunkSize_separator (p := (p.sized c.data.length).reach .chunkSize (c.size.length + 1))
          hchunked (hseparated ch rfl))
    have hmore := parameters_more (p := p.sized c.data.length) (n := c.size.length + 1) cs hchunked
      (fun c hc => hparameters c (List.mem_cons_of_mem _ hc)) (by show p.nread + _ + _ + _ ≤ _; omega)
    rw [show c.size.length + (cs.length + 1) + 1 = c.size.length + 1 + cs.length + 1 by omega]
    exact hone.quiet hmore

theorem pass_chunk_byte {left : Nat} (hchunked : p.flags.chunked = true) (hleft : left + 2 < ullongMax)
    (ch : UInt8) :
    pass (p.expecting .chunkData (left + 2)) ch 1 = some
      { parser := p.expecting .chunkData (left + 1), mark := some .body } := by
  have hpass := pass_chunkData (p := p.expecting .chunkData (left + 2)) (n := 1) (t := 1) rfl hchunked
    (Nat.succ_ne_zero _) hleft ch (by show min (left + 2) 1 = 1; omega)
  rw [if_neg (by show ¬ left + 2 - 1 = 0; omega)] at hpass
  exact hpass

theorem pass_chunk_last (hchunked : p.flags.chunked = true) (ch : UInt8) :
    pass (p.expecting .chunkData 1) ch 1 = some
      { parser := p.expecting .chunkDataAlmostDone 0, mark := some .body } := by
  have hpass := pass_chunkData (p := p.expecting .chunkData 1) (n := 1) (t := 1) rfl hchunked
    Nat.one_ne_zero (by show 1 < ullongMax; decide) ch rfl
  rw [if_pos (show (p.expecting .chunkData 1).contentLength - 1 = 0 from rfl)] at hpass
  exact hpass

/-- The bytes of a chunk. -/
theorem chunk_data (data : Bytes) (hne : data ≠ []) (hchunked : p.flags.chunked = true)
    (hsize : data.length < ullongMax) (ho : Opens o d) :
    Runs (p.expecting .chunkData data.length) o data []
      (p.expecting .chunkDataAlmostDone 0) (some (.body, d ++ data)) := by
  induction data generalizing o d with
  | nil => exact absurd rfl hne
  | cons c data ih =>
    cases data with
    | nil => exact runs_data rfl ho (pass_chunk_last hchunked c)
    | cons c' data =>
      have hrest := ih (List.cons_ne_nil _ _) (Nat.lt_of_succ_lt hsize) (opens_some (d ++ [c]))
      rw [List.append_assoc] at hrest
      exact (runs_data rfl ho (pass_chunk_byte hchunked hsize c)).quiet hrest

theorem hexChar_le {m m' : Nat} (cs : Bytes) (hm : m ≤ 2 ^ 64 - 17)
    (h : cs.foldlM hexChar m = some m') : m' ≤ 2 ^ 64 - 17 := by
  induction cs generalizing m with
  | nil =>
    cases h
    exact hm
  | cons c cs ih =>
    rw [List.foldlM_cons] at h
    obtain ⟨m₁, hc, hrest⟩ := Option.bind_eq_some_iff.mp h
    obtain ⟨v, -, hfits, rfl⟩ := hexChar_some hc
    exact ih hfits hrest

theorem Chunk.WellFormed.small {c : Chunk} (hc : c.WellFormed) : c.data.length < ullongMax := by
  have hle := hexChar_le c.size (Nat.zero_le _) hc.size
  simp only [ullongMax]
  omega

/-- The end of the bytes of a chunk. -/
theorem chunk_end (hchunked : p.flags.chunked = true) :
    Runs (p.expecting .chunkDataAlmostDone 0) (some (.body, d)) crlf [.body d]
      ((p.cleared.sized 0).reach .chunkSizeStart 0) none := by
  have hpass : pass (p.expecting .chunkDataAlmostDone 0) cr 1 =
      some { parser := p.expecting .chunkDataDone 0, callback := some (.data .body) } :=
    chunkDataAlmostDone_cr (p := p.expecting .chunkDataAlmostDone 0) hchunked rfl
  have hresult : Pass.result { parser := p.expecting .chunkDataDone 0, callback := some (.data .body) }
      (some (.body, d)) cr = ([.body d], none) := by
    show handOver .body (some (.body, d)) [] = _
    rw [handOver_same, List.append_nil]
    rfl
  have hcr := runs_body (o := some (.body, d)) rfl hpass rfl
  rw [hresult] at hcr
  have hpass' : pass (p.expecting .chunkDataDone 0) lf 1 =
      some { parser := (p.cleared.sized 0).reach .chunkSizeStart 0 } :=
    chunkDataDone_lf (p := p.expecting .chunkDataDone 0) hchunked
  exact hcr.append (runs_body (o := none) rfl hpass' rfl)

/-- The LF behind the size of a chunk with bytes in it. -/
theorem size_end {m : Nat} (hchunked : p.flags.chunked = true) (hm : m ≠ 0)
    (hroom : p.nread + n < httpMaxHeaderSize) :
    Runs ((p.sized m).reach .chunkSizeAlmostDone n) none [lf] [] (p.cleared.expecting .chunkData m)
      none :=
  runs_go (o := none) rfl hroom
    ((chunkSizeAlmostDone_lf (p := (p.sized m).reach .chunkSizeAlmostDone (n + 1)) hchunked).trans
      (if_neg hm))

/-- **A chunk** is reported whole, and the machine waits for the next. -/
theorem chunk_runs {c : Chunk} (hc : c.WellFormed) (hne : c.data ≠ []) (hchunked : p.flags.chunked = true)
    (hnread : p.nread = 0) :
    Runs (p.reach .chunkSizeStart 0) none c.text [.body c.data]
      ((p.sized 0).reach .chunkSizeStart 0) none := by
  have hcleared := HttpParser.cleared_self hnread
  have hshort := hc.short
  unfold Chunk.line at hshort
  rw [List.length_append, List.length_append, show crlf.length = 2 from rfl] at hshort
  have hline := line_runs hc hchunked hnread
  have hlf := size_end (p := p) (n := c.size.length + c.parameters.length + 1) hchunked
    (List.length_pos_iff.mpr hne).ne' (by omega)
  have hdata := chunk_data (p := p) c.data hne hchunked hc.small opens_none
  have hend := chunk_end (p := p) (d := c.data) hchunked
  rw [hcleared] at hlf hend
  have htext : c.text = (c.size ++ (c.parameters ++ [cr])) ++ ([lf] ++ (c.data ++ crlf)) := by
    unfold Chunk.text Chunk.line
    simp only [List.append_assoc]
    rfl
  rw [htext]
  exact hline.append (hlf.append (hdata.append hend))

/-- Chunks one after the other. -/
theorem chunks_more (cs : List Chunk) (hcs : ∀ c ∈ cs, c.WellFormed ∧ c.data ≠ [])
    (hchunked : p.flags.chunked = true) (hnread : p.nread = 0) :
    ∃ m, Runs (p.reach .chunkSizeStart 0) none (cs.flatMap Chunk.text) (cs.map fun c => .body c.data)
      ((p.sized m).reach .chunkSizeStart 0) none := by
  induction cs generalizing p with
  | nil => exact ⟨p.contentLength, .nil _ _⟩
  | cons c cs ih =>
    obtain ⟨hc, hne⟩ := hcs c List.mem_cons_self
    obtain ⟨m, hrest⟩ := ih (p := p.sized 0) (fun c hc => hcs c (List.mem_cons_of_mem _ hc)) hchunked
      hnread
    exact ⟨m, (chunk_runs hc hne hchunked hnread).append hrest⟩

/-- The parser in the trailers. -/
def HttpParser.trailed (p : HttpParser) : HttpParser :=
  { p with contentLength := 0, flags := { p.flags with trailing := true } }

/-- The chunk of size 0, and the trailers. -/
theorem trailers_runs {last : Chunk} {trailers : List Field} (hlast : last.WellFormed)
    (hempty : last.data = []) (hchunked : p.flags.chunked = true) (hnread : p.nread = 0)
    (hfields : ∀ f ∈ trailers, IsField f.1 f.2)
    (hroom : (trailers.flatMap Field.text).length + 2 ≤ httpMaxHeaderSize)
    (hheed : p.trailed.heedAll trailers = some q) :
    ∃ i h, Runs (p.reach .chunkSizeStart 0) none
      (last.line ++ (trailers.flatMap Field.text ++ crlf))
      (trailers.flatMap Field.events ++ [.messageComplete])
      ((q.matched i h).reach q.newMessage ((trailers.flatMap Field.text).length + 2)) none := by
  have hcleared := HttpParser.cleared_self hnread
  have hshort := hlast.short
  unfold Chunk.line at hshort
  rw [List.length_append, List.length_append, show crlf.length = 2 from rfl] at hshort
  have hline := line_runs hlast hchunked hnread
  rw [hempty] at hline
  have hlf : Runs ((p.sized 0).reach .chunkSizeAlmostDone (last.size.length + last.parameters.length + 1))
      none [lf] [] (p.cleared.trailed.reach .headerFieldStart 0) none :=
    runs_go (o := none) rfl (by show p.nread + _ < _; omega)
      ((chunkSizeAlmostDone_lf (p := (p.sized 0).reach .chunkSizeAlmostDone
        (last.size.length + last.parameters.length + 1 + 1)) hchunked).trans (if_pos rfl))
  rw [hcleared] at hlf
  obtain ⟨hparser, htrailing, -⟩ := heedAll_keeps trailers hheed
  have hq : q.nread = 0 := by
    rw [hparser]
    exact hnread
  obtain ⟨i, h, hsection⟩ := section_runs (p := p.trailed) (n := 0) trailers (.inl rfl) hfields
    (by show p.nread + _ + _ + _ ≤ _; omega) hheed
  rw [Nat.zero_add] at hsection
  have hpass : pass ((q.matched i h).reach .headersAlmostDone
      ((trailers.flatMap Field.text).length + 1 + 1)) lf 1 = some
        { parser := (q.matched i h).reach q.newMessage ((trailers.flatMap Field.text).length + 2)
          callback := some (.notify .messageComplete) } := by
    show headersAlmostDone _ lf = _
    unfold headersAlmostDone
    rw [if_neg (not_not.mpr rfl)]
    exact if_pos htrailing
  have hend := runs_notify (p := q.matched i h) rfl (by show q.nread + _ < _; omega) hpass
  have htext : last.line ++ (trailers.flatMap Field.text ++ crlf) =
      (last.size ++ (last.parameters ++ [cr])) ++ ([lf] ++
        ((trailers.flatMap Field.text ++ [cr]) ++ [lf])) := by
    unfold Chunk.line
    simp only [List.append_assoc]
    rfl
  rw [htext]
  exact ⟨i, h, hline.append (hlf.append (hsection.append hend))⟩

end Pixie.Engine
