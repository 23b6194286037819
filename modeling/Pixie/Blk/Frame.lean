/-
  What `BlkParser` accepts: the FRAME, and the parser's exact behaviour on it.

  1. **Reference description** — a `Header` is four lines that read correctly (`START` and the verb
     up to letter case, the two integers as `std::stoi` reads them); a `Frame` is a header whose
     length is at least 1 together with a body of that many bytes.  Both carry the proofs of their
     well-formedness, so `Frame.bytes` and `Frame.message` need no side conditions.

  2. **The five stretches** — `inStart`, `inPort`, `inVerb`, `inLength`, `inBody` are the states of
     a fresh parser in the middle of each line, as functions of the text read so far.  One lemma a
     stretch says what the next byte does (`step_start` … `step_body`).

  3. **Completeness** (`Frame.quiet_header`, `Frame.run_bytes`) — a fresh parser fed a frame sets no
     flag before the last byte and completes at it, with `Frame.message`.

  4. **Soundness** (`Progress`, `progress_step`, `frame_of_complete`) — `Progress m₀ s p` lists the
     states reachable on a quiet input `s`; one step from there stays inside, or fails, or completes
     a frame.  So whatever text makes a fresh parser complete IS a frame.

  5. **Canonical frames** (`Frame.ofMessage`) — the encoding of a constructed message with a
     non-empty body is a frame, and no frame with the same message is shorter
     (`Frame.length_toRawString_le`).  What any frame says can be written out again as a canonical
     one (`Frame.reencoded`).
-/
import Pixie.Blk.Parser

namespace Pixie.Blk

open Pixie.Decimal

/-! ## Headers and frames -/

/-- Four lines that the parser reads without error. -/
structure Header where
  start : Bytes
  port : Bytes
  verb : Bytes
  length : Bytes
  portVal : Int32
  lenVal : Int32
  start_ok : start.map toupper = START
  port_line : newline ∉ port
  port_ok : stoi port = some portVal
  verb_ok : verb.map toupper = NORMAL ∨ verb.map toupper = TUNNEL
  length_line : newline ∉ length
  length_ok : stoi length = some lenVal

/-- The four lines as they stand in the stream. -/
def Header.bytes (h : Header) : Bytes :=
  h.start ++ newline :: (h.port ++ newline :: (h.verb ++ newline :: (h.length ++ [newline])))

/-- A header together with at least one body byte, and exactly as many as the header declares
    (in the comparison of the source, which reads the declared `int` as a `size_t`). -/
structure Frame extends Header where
  body : Bytes
  body_ne : body ≠ []
  body_len : body.length = sizeOfInt lenVal

namespace Frame

/-- The text of a frame. -/
def bytes (f : Frame) : Bytes := f.toHeader.bytes ++ f.body

/-- What the frame says. -/
def message (f : Frame) : BlkMessage := ⟨START, f.portVal, f.verb.map toupper, f.lenVal, f.body⟩

/-- In any string that a machine can hold, the declared length is the true one. -/
theorem toInt_lenVal (f : Frame) (h : f.body.length < 2 ^ 63) :
    f.lenVal.toInt = f.body.length := by
  have hlo := Int32.le_toInt f.lenVal
  have hhi := Int32.toInt_lt f.lenVal
  have hlen := f.body_len
  unfold sizeOfInt at hlen
  omega

end Frame

namespace BlkParser

/-! ## The states in the middle of each stretch -/

section Stretches

variable (m₀ : BlkMessage)

/-- In the first line, `l` read so far. -/
def inStart (l : Bytes) : BlkParser :=
  { new m₀ with currentLine := l.map toupper, currentBuffer := l }

/-- In the port line, after the text `pre`. -/
def inPort (pre l : Bytes) : BlkParser :=
  { new m₀ with lineCount := 1, lines := [START], currentLine := l, currentBuffer := pre ++ l }

/-- In the verb line. -/
def inVerb (pre l1 : Bytes) (port : Int32) (l : Bytes) : BlkParser :=
  { new m₀ with
    lineCount := 2, lines := [START, l1], destinationPort := port
    currentLine := l.map toupper, currentBuffer := pre ++ l }

/-- In the length line. -/
def inLength (pre l1 : Bytes) (port : Int32) (v l : Bytes) : BlkParser :=
  { new m₀ with
    lineCount := 3, lines := [START, l1, v], destinationPort := port, actionVerb := v
    currentLine := l, currentBuffer := pre ++ l }

/-- In the body. -/
def inBody (pre l1 : Bytes) (port : Int32) (v l3 : Bytes) (len : Int32) (b : Bytes) : BlkParser :=
  { new m₀ with
    lineCount := 4, lines := [START, l1, v, l3], destinationPort := port, actionVerb := v
    msgLength := some len, body := b, currentBuffer := pre ++ b }

/-- The state in which the last body byte leaves the parser. -/
def done (pre l1 : Bytes) (port : Int32) (v l3 : Bytes) (len : Int32) (b : Bytes) : BlkParser :=
  { inBody m₀ pre l1 port v l3 len b with
    msg := ⟨START, port, v, len, b⟩, messageComplete := true }

/-- A failed state: the error flag is up, nothing was completed, the target message is untouched. -/
def Failed (p : BlkParser) : Prop :=
  p.parseError = true ∧ p.messageComplete = false ∧ p.msg = m₀ ∧ p.indeterminate = false

/-! ## What the next byte does -/

variable {m₀}

/-- The test of the two keyword lines, `line == keyword.substr(0, len)`, says "is a prefix". -/
theorem substr_eq_iff {l w : Bytes} : l = w.take l.length ↔ l <+: w :=
  List.prefix_iff_eq_take.symm

theorem parseStart_char {p : BlkParser} {ch : UInt8} (hnl : ch ≠ newline)
    (h : p.currentLine ++ [toupper ch] <+: START) :
    p.parseStart ch = { p with currentLine := p.currentLine ++ [toupper ch] } := by
  rw [parseStart, if_neg hnl]
  exact if_neg (not_not.mpr (substr_eq_iff.mpr h))

theorem parseStart_bad {p : BlkParser} {ch : UInt8} (hnl : ch ≠ newline)
    (h : ¬ p.currentLine ++ [toupper ch] <+: START) :
    p.parseStart ch = { p with currentLine := p.currentLine ++ [toupper ch] }.error
      (ascii "invalid start to message [" ++ (p.currentLine ++ [toupper ch]) ++ ascii "]") := by
  rw [parseStart, if_neg hnl]
  exact if_pos fun he => h (substr_eq_iff.mp he)

theorem parseVerb_char {p : BlkParser} {ch : UInt8} (hnl : ch ≠ newline)
    (h : p.currentLine ++ [toupper ch] <+: NORMAL ∨ p.currentLine ++ [toupper ch] <+: TUNNEL) :
    p.parseVerb ch = { p with currentLine := p.currentLine ++ [toupper ch] } := by
  rw [parseVerb, if_neg hnl]
  refine if_neg fun hne => ?_
  rcases h with h | h
  · exact hne.1 (substr_eq_iff.mpr h)
  · exact hne.2 (substr_eq_iff.mpr h)

theorem parseVerb_bad {p : BlkParser} {ch : UInt8} (hnl : ch ≠ newline)
    (h : ¬ (p.currentLine ++ [toupper ch] <+: NORMAL ∨ p.currentLine ++ [toupper ch] <+: TUNNEL)) :
    p.parseVerb ch = { p with currentLine := p.currentLine ++ [toupper ch] }.error
      (ascii "invalid verb to message [" ++ (p.currentLine ++ [toupper ch]) ++ ascii "]") := by
  rw [parseVerb, if_neg hnl]
  exact if_pos ⟨fun he => h (Or.inl (substr_eq_iff.mp he)),
    fun he => h (Or.inr (substr_eq_iff.mp he))⟩

theorem parseVerb_newline {p : BlkParser} (h : p.currentLine = NORMAL ∨ p.currentLine = TUNNEL) :
    p.parseVerb newline = { p with actionVerb := p.currentLine }.nextLine := by
  rw [parseVerb, if_pos rfl, if_neg fun hne => h.elim hne.1 hne.2]

theorem parseVerb_newline_bad {p : BlkParser}
    (h : ¬ (p.currentLine = NORMAL ∨ p.currentLine = TUNNEL)) :
    p.parseVerb newline = { p.error (ascii "verb line must be text 'NORMAL' or 'TUNNEL'") with
      actionVerb := p.currentLine }.nextLine := by
  rw [parseVerb, if_pos rfl, if_pos (not_or.mp h)]
  rfl

theorem step_start_char {l : Bytes} {ch : UInt8} (hnl : ch ≠ newline)
    (h : (l ++ [ch]).map toupper <+: START) :
    (inStart m₀ l).parseCharacter ch = inStart m₀ (l ++ [ch]) := by
  rw [List.map_append] at h
  show parseStart _ ch = _
  rw [parseStart_char hnl h]
  simp [inStart]

theorem step_start_bad {l : Bytes} {ch : UInt8} (hnl : ch ≠ newline)
    (h : ¬ (l ++ [ch]).map toupper <+: START) :
    Failed m₀ ((inStart m₀ l).parseCharacter ch) := by
  rw [List.map_append] at h
  show Failed m₀ (parseStart _ ch)
  rw [parseStart_bad hnl h]
  exact ⟨rfl, rfl, rfl, rfl⟩

theorem step_start_newline {l : Bytes} (h : l.map toupper = START) :
    (inStart m₀ l).parseCharacter newline = inPort m₀ (l ++ [newline]) [] := by
  simp [parseCharacter, parseStart, inStart, inPort, new, h, nextLine]

theorem step_start_newline_bad {l : Bytes} (h : l.map toupper ≠ START) :
    Failed m₀ ((inStart m₀ l).parseCharacter newline) := by
  simp [parseCharacter, parseStart, inStart, new, h, nextLine, error, Failed]

theorem step_port_char {pre l : Bytes} {ch : UInt8} (hnl : ch ≠ newline) :
    (inPort m₀ pre l).parseCharacter ch = inPort m₀ pre (l ++ [ch]) := by
  simp [parseCharacter, parsePort, inPort, new, hnl]

theorem step_port_newline {pre l : Bytes} {port : Int32} (h : stoi l = some port) :
    (inPort m₀ pre l).parseCharacter newline = inVerb m₀ (pre ++ l ++ [newline]) l port [] := by
  simp [parseCharacter, parsePort, parseInt, inPort, inVerb, new, h, nextLine]

theorem step_port_newline_bad {pre l : Bytes} (h : stoi l = none) :
    Failed m₀ ((inPort m₀ pre l).parseCharacter newline) := by
  simp [parseCharacter, parsePort, parseInt, inPort, new, h, nextLine, error, Failed]

theorem step_verb_char {pre l1 l : Bytes} {port : Int32} {ch : UInt8} (hnl : ch ≠ newline)
    (h : (l ++ [ch]).map toupper <+: NORMAL ∨ (l ++ [ch]).map toupper <+: TUNNEL) :
    (inVerb m₀ pre l1 port l).parseCharacter ch = inVerb m₀ pre l1 port (l ++ [ch]) := by
  rw [List.map_append] at h
  show parseVerb _ ch = _
  rw [parseVerb_char hnl h]
  simp [inVerb]

theorem step_verb_bad {pre l1 l : Bytes} {port : Int32} {ch : UInt8} (hnl : ch ≠ newline)
    (h : ¬ ((l ++ [ch]).map toupper <+: NORMAL ∨ (l ++ [ch]).map toupper <+: TUNNEL)) :
    Failed m₀ ((inVerb m₀ pre l1 port l).parseCharacter ch) := by
  rw [List.map_append] at h
  show Failed m₀ (parseVerb _ ch)
  rw [parseVerb_bad hnl h]
  exact ⟨rfl, rfl, rfl, rfl⟩

theorem step_verb_newline {pre l1 l : Bytes} {port : Int32}
    (h : l.map toupper = NORMAL ∨ l.map toupper = TUNNEL) :
    (inVerb m₀ pre l1 port l).parseCharacter newline =
      inLength m₀ (pre ++ l ++ [newline]) l1 port (l.map toupper) [] := by
  show parseVerb _ newline = _
  rw [parseVerb_newline h]
  simp [inVerb, inLength, new, nextLine]

theorem step_verb_newline_bad {pre l1 l : Bytes} {port : Int32}
    (h : ¬ (l.map toupper = NORMAL ∨ l.map toupper = TUNNEL)) :
    Failed m₀ ((inVerb m₀ pre l1 port l).parseCharacter newline) := by
  show Failed m₀ (parseVerb _ newline)
  rw [parseVerb_newline_bad h]
  exact ⟨rfl, rfl, rfl, rfl⟩

theorem step_length_char {pre l1 v l : Bytes} {port : Int32} {ch : UInt8} (hnl : ch ≠ newline) :
    (inLength m₀ pre l1 port v l).parseCharacter ch = inLength m₀ pre l1 port v (l ++ [ch]) := by
  simp [parseCharacter, parseLength, inLength, new, hnl]

theorem step_length_newline {pre l1 v l : Bytes} {port len : Int32} (h : stoi l = some len) :
    (inLength m₀ pre l1 port v l).parseCharacter newline =
      inBody m₀ (pre ++ l ++ [newline]) l1 port v l len [] := by
  simp [parseCharacter, parseLength, parseInt, inLength, inBody, new, h, nextLine]

theorem step_length_newline_bad {pre l1 v l : Bytes} {port : Int32} (h : stoi l = none) :
    Failed m₀ ((inLength m₀ pre l1 port v l).parseCharacter newline) := by
  simp [parseCharacter, parseLength, parseInt, inLength, new, h, nextLine, error, Failed]

/-- A body byte: too many, one of many, or the last. -/
theorem step_body_bad {pre l1 v l3 b : Bytes} {port len : Int32} {ch : UInt8}
    (h : sizeOfInt len ≤ b.length) :
    Failed m₀ ((inBody m₀ pre l1 port v l3 len b).parseCharacter ch) := by
  have hne : ¬ b.length + 1 = sizeOfInt len := by omega
  simp [parseCharacter, parseBody, inBody, new, error, Failed, h, hne]

theorem step_body_char {pre l1 v l3 b : Bytes} {port len : Int32} {ch : UInt8}
    (h : b.length + 1 < sizeOfInt len) :
    (inBody m₀ pre l1 port v l3 len b).parseCharacter ch =
      inBody m₀ pre l1 port v l3 len (b ++ [ch]) := by
  have hlt : ¬ sizeOfInt len ≤ b.length := by omega
  have hne : ¬ b.length + 1 = sizeOfInt len := by omega
  simp [parseCharacter, parseBody, inBody, new, hlt, hne]

theorem step_body_last {pre l1 v l3 b : Bytes} {port len : Int32} {ch : UInt8}
    (h : b.length + 1 = sizeOfInt len) :
    (inBody m₀ pre l1 port v l3 len b).parseCharacter ch =
      done m₀ pre l1 port v l3 len (b ++ [ch]) := by
  have hlt : ¬ sizeOfInt len ≤ b.length := by omega
  simp [parseCharacter, parseBody, inBody, done, new, finishedParsing, hlt, h]

end Stretches

/-! ## Completeness: a frame is read to its end -/

section Completeness

variable {m₀ : BlkMessage}

/-- A prefix of a keyword, up to letter case, contains no newline. -/
theorem newline_not_mem_keyword {l w : Bytes} (hw : newline ∉ w) (h : l.map toupper <+: w) :
    newline ∉ l := by
  intro hmem
  have : toupper newline ∈ l.map toupper := List.mem_map_of_mem hmem
  exact hw (h.subset this)

theorem prefix_of_append_map {l : Bytes} {ch : UInt8} {w : Bytes}
    (h : (l ++ [ch]).map toupper <+: w) : l.map toupper <+: w :=
  (List.prefix_append _ _).trans (by rwa [List.map_append] at h)

theorem ne_newline_of_not_mem {l : Bytes} {ch : UInt8} (h : newline ∉ l ++ [ch]) :
    ch ≠ newline := by
  rintro rfl
  exact h (by simp)

/-- The parser reads `s` without a flag, from `p` to `q`. -/
abbrev Reads (p : BlkParser) (s : Bytes) (q : BlkParser) : Prop :=
  Scan.Reads parseCharacter flagged p s q

theorem reads_start {l : Bytes} (h : l.map toupper <+: START) :
    Reads (new m₀) l (inStart m₀ l) :=
  Scan.reads_family (S := inStart m₀) (P := fun l => l.map toupper <+: START)
    (fun _ _ => prefix_of_append_map)
    (fun _ _ hg => step_start_char
      (ne_newline_of_not_mem (newline_not_mem_keyword (by decide) hg)) hg)
    (fun _ => rfl) l h

theorem reads_port {pre l : Bytes} (h : newline ∉ l) :
    Reads (inPort m₀ pre []) l (inPort m₀ pre l) :=
  Scan.reads_family (S := inPort m₀ pre) (P := fun l => newline ∉ l)
    (fun _ _ hg hm => hg (by simp [hm]))
    (fun _ _ hg => step_port_char (ne_newline_of_not_mem hg)) (fun _ => rfl) l h

theorem reads_verb {pre l1 l : Bytes} {port : Int32}
    (h : l.map toupper <+: NORMAL ∨ l.map toupper <+: TUNNEL) :
    Reads (inVerb m₀ pre l1 port []) l (inVerb m₀ pre l1 port l) := by
  refine Scan.reads_family (S := inVerb m₀ pre l1 port)
    (P := fun l => l.map toupper <+: NORMAL ∨ l.map toupper <+: TUNNEL)
    (fun _ _ hg => hg.imp prefix_of_append_map prefix_of_append_map)
    (fun l a hg => step_verb_char (ne_newline_of_not_mem (l := l) ?_) hg) (fun _ => rfl) l h
  rcases hg with hg | hg
  · exact newline_not_mem_keyword (by decide) hg
  · exact newline_not_mem_keyword (by decide) hg

theorem reads_length {pre l1 v l : Bytes} {port : Int32} (h : newline ∉ l) :
    Reads (inLength m₀ pre l1 port v []) l (inLength m₀ pre l1 port v l) :=
  Scan.reads_family (S := inLength m₀ pre l1 port v) (P := fun l => newline ∉ l)
    (fun _ _ hg hm => hg (by simp [hm]))
    (fun _ _ hg => step_length_char (ne_newline_of_not_mem hg)) (fun _ => rfl) l h

theorem reads_body {pre l1 v l3 b : Bytes} {port len : Int32}
    (h : b = [] ∨ b.length < sizeOfInt len) :
    Reads (inBody m₀ pre l1 port v l3 len []) b (inBody m₀ pre l1 port v l3 len b) := by
  refine Scan.reads_family (S := inBody m₀ pre l1 port v l3 len)
    (P := fun b => b = [] ∨ b.length < sizeOfInt len) (fun l a hg => Or.inr ?_)
    (fun l a hg => step_body_char ?_) (fun _ => rfl) b h
  all_goals
    rcases hg with hg | hg
    · simp at hg
    · simp only [List.length_append, List.length_singleton] at hg
      omega

/-- The state of a fresh parser after a header and the part `b` of the body. -/
def afterHeader (m₀ : BlkMessage) (h : Header) (b : Bytes) : BlkParser :=
  inBody m₀ h.bytes h.port h.portVal (h.verb.map toupper) h.length h.lenVal b

/-- The state of a fresh parser after a whole frame. -/
def afterFrame (m₀ : BlkMessage) (f : Frame) : BlkParser :=
  done m₀ f.toHeader.bytes f.port f.portVal (f.verb.map toupper) f.length f.lenVal f.body

/-- **A header is read without a flag**, whatever length it declares. -/
theorem reads_header (m₀ : BlkMessage) (h : Header) :
    Reads (new m₀) h.bytes (afterHeader m₀ h []) := by
  have hverb : h.verb.map toupper <+: NORMAL ∨ h.verb.map toupper <+: TUNNEL := by
    rcases h.verb_ok with hv | hv
    · exact Or.inl (hv ▸ List.prefix_rfl)
    · exact Or.inr (hv ▸ List.prefix_rfl)
  have hread := (((((((@reads_start m₀ _ (h.start_ok ▸ List.prefix_rfl)).trans
    (Scan.Reads.single (step_start_newline h.start_ok) rfl)).trans (reads_port h.port_line)).trans
    (Scan.Reads.single (step_port_newline h.port_ok) rfl)).trans (reads_verb hverb)).trans
    (Scan.Reads.single (step_verb_newline h.verb_ok) rfl)).trans (reads_length h.length_line)).trans
    (Scan.Reads.single (step_length_newline h.length_ok) rfl)
  have hbytes : h.start ++ [newline] ++ h.port ++ [newline] ++ h.verb ++ [newline] ++ h.length ++
      [newline] = h.bytes := by
    simp [Header.bytes]
  rw [hbytes] at hread
  exact hread

/-- **Completeness**: a fresh parser sets no flag before a frame's last byte, and completes there. -/
theorem reads_frame (m₀ : BlkMessage) (f : Frame) :
    ∃ t ch, f.bytes = t ++ [ch] ∧ (new m₀).Quiet t ∧ (new m₀).run f.bytes = afterFrame m₀ f := by
  obtain ⟨b, ch, hb⟩ := (List.eq_nil_or_concat f.body).resolve_left f.body_ne
  have hlen := f.body_len
  rw [List.concat_eq_append] at hb
  rw [hb, List.length_append, List.length_singleton] at hlen
  have hread := (reads_header m₀ f.toHeader).trans
    (reads_body (b := b) (Or.inr (by show b.length < sizeOfInt f.lenVal; omega)))
  refine ⟨f.toHeader.bytes ++ b, ch, ?_, hread.1, ?_⟩
  · rw [Frame.bytes, hb, List.append_assoc]
  · rw [Frame.bytes, hb, ← List.append_assoc, run, List.foldl_append, hread.2]
    show (inBody _ _ _ _ _ _ _ b).parseCharacter ch = _
    rw [step_body_last hlen, afterFrame, hb]

end Completeness

/-! ## Soundness: what completes is a frame -/

/-- The states of a fresh parser on a quiet input. -/
inductive Progress (m₀ : BlkMessage) : Bytes → BlkParser → Prop
  | start {l : Bytes} : l.map toupper <+: START → Progress m₀ l (inStart m₀ l)
  | port {l0 l1 : Bytes} : l0.map toupper = START → newline ∉ l1 →
      Progress m₀ (l0 ++ [newline] ++ l1) (inPort m₀ (l0 ++ [newline]) l1)
  | verb {l0 l1 l2 : Bytes} {port : Int32} : l0.map toupper = START → newline ∉ l1 →
      stoi l1 = some port → l2.map toupper <+: NORMAL ∨ l2.map toupper <+: TUNNEL →
      Progress m₀ (l0 ++ [newline] ++ l1 ++ [newline] ++ l2)
        (inVerb m₀ (l0 ++ [newline] ++ l1 ++ [newline]) l1 port l2)
  | length {l0 l1 l2 l3 : Bytes} {port : Int32} : l0.map toupper = START → newline ∉ l1 →
      stoi l1 = some port → l2.map toupper = NORMAL ∨ l2.map toupper = TUNNEL → newline ∉ l3 →
      Progress m₀ (l0 ++ [newline] ++ l1 ++ [newline] ++ l2 ++ [newline] ++ l3)
        (inLength m₀ (l0 ++ [newline] ++ l1 ++ [newline] ++ l2 ++ [newline]) l1 port
          (l2.map toupper) l3)
  | body (h : Header) {b : Bytes} : b = [] ∨ b.length < sizeOfInt h.lenVal →
      Progress m₀ (h.bytes ++ b) (afterHeader m₀ h b)

variable {m₀ : BlkMessage}

/-- **One step from a reachable state** stays inside the header or the body, fails, or completes a
    frame that is exactly the text read. -/
theorem progress_step {s : Bytes} {p : BlkParser} (hp : Progress m₀ s p) (ch : UInt8) :
    Progress m₀ (s ++ [ch]) (p.parseCharacter ch) ∨ Failed m₀ (p.parseCharacter ch) ∨
      ∃ f : Frame, f.bytes = s ++ [ch] ∧ p.parseCharacter ch = afterFrame m₀ f := by
  cases hp with
  | start hpre =>
    by_cases hnl : ch = newline
    · subst hnl
      by_cases h : s.map toupper = START
      · rw [step_start_newline h]
        have := @Progress.port m₀ s [] h List.not_mem_nil
        rw [List.append_nil] at this
        exact Or.inl this
      · exact Or.inr (Or.inl (step_start_newline_bad h))
    · by_cases h : (s ++ [ch]).map toupper <+: START
      · rw [step_start_char hnl h]
        exact Or.inl (.start h)
      · exact Or.inr (Or.inl (step_start_bad hnl h))
  | @port l0 l1 h0 h1 =>
    by_cases hnl : ch = newline
    · subst hnl
      rcases hv : stoi l1 with _ | port
      · exact Or.inr (Or.inl (step_port_newline_bad hv))
      · rw [step_port_newline hv]
        have := @Progress.verb m₀ l0 l1 [] port h0 h1 hv (Or.inl List.nil_prefix)
        rw [List.append_nil] at this
        exact Or.inl this
    · rw [step_port_char hnl, List.append_assoc _ l1]
      exact Or.inl (.port h0 (by simp [h1, Ne.symm hnl]))
  | @verb l0 l1 l2 port h0 h1 hport hpre =>
    by_cases hnl : ch = newline
    · subst hnl
      by_cases h : l2.map toupper = NORMAL ∨ l2.map toupper = TUNNEL
      · rw [step_verb_newline h]
        have := @Progress.length m₀ l0 l1 l2 [] port h0 h1 hport h List.not_mem_nil
        rw [List.append_nil] at this
        exact Or.inl this
      · exact Or.inr (Or.inl (step_verb_newline_bad h))
    · by_cases h : (l2 ++ [ch]).map toupper <+: NORMAL ∨ (l2 ++ [ch]).map toupper <+: TUNNEL
      · rw [step_verb_char hnl h, List.append_assoc _ l2]
        exact Or.inl (.verb h0 h1 hport h)
      · exact Or.inr (Or.inl (step_verb_bad hnl h))
  | @length l0 l1 l2 l3 port h0 h1 hport hv h3 =>
    by_cases hnl : ch = newline
    · subst hnl
      rcases hl : stoi l3 with _ | len
      · exact Or.inr (Or.inl (step_length_newline_bad hl))
      · rw [step_length_newline hl]
        let h : Header := ⟨l0, l1, l2, l3, port, len, h0, h1, hport, hv, h3, hl⟩
        have hbytes : l0 ++ [newline] ++ l1 ++ [newline] ++ l2 ++ [newline] ++ l3 ++ [newline] =
            h.bytes := by
          simp [Header.bytes, h]
        have := @Progress.body m₀ h [] (Or.inl rfl)
        rw [List.append_nil] at this
        rw [hbytes]
        exact Or.inl this
    · rw [step_length_char hnl, List.append_assoc _ l3]
      exact Or.inl (.length h0 h1 hport hv (by simp [h3, Ne.symm hnl]))
  | @body h b hb =>
    rcases Nat.lt_trichotomy (b.length + 1) (sizeOfInt h.lenVal) with hlt | heq | hgt
    · rw [afterHeader, step_body_char hlt, List.append_assoc]
      exact Or.inl (.body h (Or.inr (by simpa using hlt)))
    · rw [afterHeader, step_body_last heq, List.append_assoc]
      exact Or.inr (Or.inr ⟨⟨h, b ++ [ch], by simp, by simpa using heq⟩, rfl, rfl⟩)
    · exact Or.inr (Or.inl (step_body_bad (by omega)))

/-- A state of `Progress` carries no flag. -/
theorem Progress.not_flagged {s : Bytes} {p : BlkParser} (hp : Progress m₀ s p) :
    p.flagged = false := by
  cases hp <;> rfl

/-- A quiet input leaves a fresh parser in one of the states of `Progress`. -/
theorem progress_of_quiet {s : Bytes} (h : (new m₀).Quiet s) :
    Progress m₀ s ((new m₀).run s) := by
  induction s using List.reverseRecOn with
  | nil => exact .start List.nil_prefix
  | append_singleton t ch ih =>
    obtain ⟨hq, hs⟩ := Scan.quiet_append_singleton.mp h
    rw [List.foldl_append] at hs
    rw [run, List.foldl_append]
    rcases progress_step (ih hq) ch with hp | hf | ⟨f, -, hf⟩
    · exact hp
    · have herr : ((t.foldl parseCharacter (new m₀)).parseCharacter ch).parseError = true := hf.1
      change flagged ((t.foldl parseCharacter (new m₀)).parseCharacter ch) = false at hs
      simp [flagged, herr] at hs
    · change flagged ((t.foldl parseCharacter (new m₀)).parseCharacter ch) = false at hs
      rw [hf] at hs
      cases hs

/-- **The byte that sets a flag**: it is an error that leaves the target message as it was, or the
    last byte of a frame. -/
theorem flag_cases {t : Bytes} {ch : UInt8} (hq : (new m₀).Quiet t)
    (hf : ((new m₀).run (t ++ [ch])).flagged = true) :
    Failed m₀ ((new m₀).run (t ++ [ch])) ∨
      ∃ f : Frame, f.bytes = t ++ [ch] ∧ (new m₀).run (t ++ [ch]) = afterFrame m₀ f := by
  rw [run, List.foldl_append] at hf ⊢
  change flagged (((new m₀).run t).parseCharacter ch) = true at hf
  rcases progress_step (progress_of_quiet hq) ch with hp | hfail | hdone
  · rw [hp.not_flagged] at hf
    cases hf
  · exact Or.inl hfail
  · exact Or.inr hdone

/-- **Soundness**: what makes a fresh parser complete is a frame, and the parser holds its message. -/
theorem frame_of_complete {t : Bytes} {ch : UInt8} (hq : (new m₀).Quiet t)
    (hc : ((new m₀).run (t ++ [ch])).messageComplete = true) :
    ∃ f : Frame, f.bytes = t ++ [ch] ∧ (new m₀).run (t ++ [ch]) = afterFrame m₀ f := by
  rcases flag_cases hq (by rw [flagged, hc, Bool.or_true]) with hfail | hdone
  · rw [hfail.2.1] at hc
    cases hc
  · exact hdone

end BlkParser

/-! ## Canonical frames -/

theorem map_toupper_START : START.map toupper = START := by decide

theorem map_toupper_verb {verb : Bytes} (hv : verb = NORMAL ∨ verb = TUNNEL) :
    verb.map toupper = verb := by
  rcases hv with rfl | rfl
  · decide
  · decide

theorem map_toupper_keyword {verb : Bytes} (hv : verb = NORMAL ∨ verb = TUNNEL) :
    verb.map toupper = NORMAL ∨ verb.map toupper = TUNNEL := by
  rw [map_toupper_verb hv]
  exact hv

/-- A number is written on one line. -/
theorem newline_not_mem_to_string (n : Int32) : newline ∉ to_string n :=
  not_mem_to_string (by decide) (by decide)

namespace Frame

/-- The encoding of a constructed message, as a frame. -/
def ofMessage (port : Int32) (verb body : Bytes) (hv : verb = NORMAL ∨ verb = TUNNEL)
    (hne : body ≠ []) (hlen : body.length < 2 ^ 31) : Frame where
  start := START
  port := to_string port
  verb := verb
  length := to_string (Int32.ofNat body.length)
  portVal := port
  lenVal := Int32.ofNat body.length
  start_ok := map_toupper_START
  port_line := newline_not_mem_to_string port
  port_ok := stoi_to_string port
  verb_ok := map_toupper_keyword hv
  length_line := newline_not_mem_to_string _
  length_ok := stoi_to_string _
  body := body
  body_ne := hne
  body_len := by
    have hint : (Int32.ofNat body.length).toInt = body.length := Int32.toInt_ofNat_of_lt hlen
    have hsize := sizeOfInt_of_nonneg (n := Int32.ofNat body.length) (by omega)
    omega

theorem bytes_ofMessage {port : Int32} {verb body : Bytes} (hv : verb = NORMAL ∨ verb = TUNNEL)
    (hne : body ≠ []) (hlen : body.length < 2 ^ 31) :
    (ofMessage port verb body hv hne hlen).bytes = (BlkMessage.make port verb body).toRawString := by
  simp [bytes, Header.bytes, ofMessage, BlkMessage.toRawString, BlkMessage.make]

theorem message_ofMessage {port : Int32} {verb body : Bytes} (hv : verb = NORMAL ∨ verb = TUNNEL)
    (hne : body ≠ []) (hlen : body.length < 2 ^ 31) :
    (ofMessage port verb body hv hne hlen).message = BlkMessage.make port verb body := by
  simp [message, ofMessage, BlkMessage.make, map_toupper_verb hv]

/-- Whatever its lines look like, a frame with a body below 2^31 bytes says a message that the
    constructor could have made. -/
theorem message_eq_make (f : Frame) (h : f.body.length < 2 ^ 31) :
    f.message = BlkMessage.make f.portVal (f.verb.map toupper) f.body := by
  have hlen : f.lenVal = Int32.ofNat f.body.length := by
    apply Int32.toInt_inj.mp
    rw [f.toInt_lenVal (by omega), Int32.toInt_ofNat_of_lt h]
  rw [message, BlkMessage.make, hlen]

/-- **Reading, writing, reading**: the encoding of what a frame says is a frame that says the same. -/
theorem reencoded (f : Frame) (h : f.body.length < 2 ^ 31) :
    ∃ g : Frame, g.bytes = f.message.toRawString ∧ g.message = f.message := by
  rw [message_eq_make f h]
  exact ⟨ofMessage f.portVal (f.verb.map toupper) f.body f.verb_ok f.body_ne h,
    bytes_ofMessage f.verb_ok f.body_ne h, message_ofMessage f.verb_ok f.body_ne h⟩

/-- **Canonical is shortest**: no frame that says `m` is shorter than the encoding of `m`. -/
theorem length_toRawString_le (f : Frame) : f.message.toRawString.length ≤ f.bytes.length := by
  have hstart : f.start.length = START.length := by
    rw [← f.start_ok, List.length_map]
  have hport := length_to_string_le f.port_ok
  have hlen := length_to_string_le f.length_ok
  rw [BlkMessage.length_toRawString]
  simp only [message, bytes, Header.bytes, List.length_append, List.length_cons, List.length_map,
    List.length_nil]
  omega

end Frame

end Pixie.Blk
