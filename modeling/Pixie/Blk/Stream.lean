/-
  Messages through a byte stream: what one `BlkParser`, and what successive calls of
  `BlkSocket::readMessage`, make of encoded messages that arrive in arbitrary pieces.

  1. **One message, one parser** — `Decodes m` says what a decoder owes a constructed message: fed
     the encoding in any partition, the parser sets no flag before the last byte and completes at
     it with all five fields.  `decodes_iff`: this holds exactly of the messages with a body.  An
     empty body is announced by a correct header, but completion is only tested after a body byte,
     so the parser is left waiting for a byte that never comes (`quiet_of_body_nil`).

  2. **A pipeline of messages** — `ReturnsAll msg reads ms` says that successive calls return `ms`,
     in order, and then report the end of the stream.  Each call drops what its last buffer holds
     beyond the message, so this needs every message to END WHERE A READ ENDS: `Aligned ms chunks`
     groups the reads by message.  `returnsAll_iff` shows that nothing less will do.

  The necessity of `Aligned` is a counting argument (`returnsAll_length`): every message that comes
  back has consumed at least its canonical encoding (`Frame.length_toRawString_le`), and together
  the encodings are as long as the stream, so no byte can have been dropped.
-/
import Pixie.Blk.Socket
import Mathlib.Data.List.Flatten

namespace Pixie.Blk

open Pixie.Decimal Pixie.Net BlkParser

/-! ## One message, one parser -/

/-- What decoding owes a message: any pieces that make up a proper prefix of its encoding set no
    flag, and any pieces that make up the whole complete it, in the `append` call that is handed
    the last byte and with that byte's index. -/
def Decodes (m : BlkMessage) : Prop :=
  ∀ msg : BlkMessage,
    (∀ pieces : List Bytes, pieces.flatten <+: m.toRawString → pieces.flatten ≠ m.toRawString →
      ((new msg).appendAll pieces).messageComplete = false ∧
      ((new msg).appendAll pieces).parseError = false) ∧
    (∀ (pieces : List Bytes) (last : Bytes), last ≠ [] →
      pieces.flatten ++ last = m.toRawString →
      (((new msg).appendAll pieces).append last).2 = last.length ∧
      (((new msg).appendAll pieces).append last).1.messageComplete = true ∧
      (((new msg).appendAll pieces).append last).1.parseError = false ∧
      (((new msg).appendAll pieces).append last).1.msg = m)

/-- The header that the encoder writes for a message without a body. -/
def emptyHeader (port : Int32) (verb : Bytes) (hv : verb = NORMAL ∨ verb = TUNNEL) : Header where
  start := START
  port := to_string port
  verb := verb
  length := to_string (Int32.ofNat 0)
  portVal := port
  lenVal := Int32.ofNat 0
  start_ok := map_toupper_START
  port_line := newline_not_mem_to_string port
  port_ok := stoi_to_string port
  verb_ok := map_toupper_keyword hv
  length_line := newline_not_mem_to_string _
  length_ok := stoi_to_string _

/-- **An empty body is never completed**: the whole encoding is quiet. -/
theorem quiet_of_body_nil (msg : BlkMessage) {port : Int32} {verb : Bytes}
    (hv : verb = NORMAL ∨ verb = TUNNEL) : (new msg).Quiet (BlkMessage.make port verb []).toRawString := by
  have hbytes : (emptyHeader port verb hv).bytes = (BlkMessage.make port verb []).toRawString := by
    simp [Header.bytes, emptyHeader, BlkMessage.toRawString, BlkMessage.make]
  rw [← hbytes]
  exact (reads_header msg (emptyHeader port verb hv)).1

/-- A frame is decoded from any pieces. -/
theorem decodes_frame (f : Frame) (m : BlkMessage) (hb : f.bytes = m.toRawString)
    (hm : f.message = m) : Decodes m := by
  intro msg
  obtain ⟨t, ch, htext, hq, hrun⟩ := reads_frame msg f
  rw [hb] at htext hrun
  constructor
  · intro pieces hpre hne
    -- a proper prefix is a prefix of everything but the last byte
    have hpre' : pieces.flatten <+: t := by
      rw [htext] at hpre hne
      obtain ⟨u, hu⟩ := hpre
      rcases List.eq_nil_or_concat u with rfl | ⟨v, c, rfl⟩
      · exact absurd (by simpa using hu) hne
      · rw [List.concat_eq_append, ← List.append_assoc] at hu
        exact ⟨v, (List.append_inj' hu rfl).1⟩
    obtain ⟨u, rfl⟩ := hpre'
    have hquiet : (new msg).appendAll pieces = _ := appendAll_of_quiet hq.left rfl
    have hflag := (progress_of_quiet hq.left).not_flagged
    rw [hquiet]
    simp only [flagged, Bool.or_eq_false_iff] at hflag
    exact ⟨hflag.2, hflag.1⟩
  · intro pieces last hlast hcut
    obtain ⟨u, c, rfl⟩ := (List.eq_nil_or_concat last).resolve_left hlast
    rw [List.concat_eq_append] at hcut ⊢
    have hsplit : pieces.flatten ++ u ++ [c] = t ++ [ch] := by rw [← htext, ← hcut, List.append_assoc]
    obtain ⟨rfl, hc⟩ := List.append_inj' hsplit rfl
    obtain rfl : c = ch := by simpa using hc
    have hend : ((new msg).run pieces.flatten).run (u ++ [c]) = afterFrame msg f := by
      rw [← hrun, ← hcut]
      exact List.foldl_append.symm
    rw [appendAll_of_quiet hq.left rfl,
      append_of_flagged (u := []) hq.right (by rw [hend]; rfl), hend]
    exact ⟨rfl, rfl, rfl, hm⟩

/-- **Which constructed messages decode**: below 2^31 bytes, exactly those with a body. -/
theorem decodes_iff (port : Int32) (verb body : Bytes) (hv : verb = NORMAL ∨ verb = TUNNEL)
    (hlen : body.length < 2 ^ 31) : Decodes (BlkMessage.make port verb body) ↔ body ≠ [] := by
  constructor
  · rintro h rfl
    have hq := @quiet_of_body_nil (BlkMessage.make port verb []) port verb hv
    have hne : (BlkMessage.make port verb []).toRawString ≠ [] := by
      simp [BlkMessage.toRawString]
    obtain ⟨-, hdone, -, -⟩ := (h (BlkMessage.make port verb [])).2 [] _ hne rfl
    have hflag := (progress_of_quiet hq).not_flagged
    rw [show (new _).appendAll [] = new _ from rfl, append_of_quiet hq] at hdone
    rw [flagged, hdone, Bool.or_true] at hflag
    cases hflag
  · intro hne
    exact decodes_frame (Frame.ofMessage port verb body hv hne hlen) _
      (Frame.bytes_ofMessage hv hne hlen) (Frame.message_ofMessage hv hne hlen)

theorem decodes_iff_normal_80 : Decodes (BlkMessage.make 80 NORMAL (ascii "hi")) ↔ ascii "hi" ≠ [] :=
  decodes_iff 80 NORMAL (ascii "hi") (Or.inl rfl) (by decide)

/-- The encoding `START\n80\nNORMAL\n0\n` never completes. -/
theorem not_decodes_empty : ¬ ∀ (port : Int32) (verb body : Bytes), verb = NORMAL ∨ verb = TUNNEL →
    body.length < 2 ^ 31 → Decodes (BlkMessage.make port verb body) := by
  intro h
  have hdone := ((h 80 NORMAL [] (Or.inl rfl) (by decide) BlkMessage.blank).2 []
    (BlkMessage.make 80 NORMAL []).toRawString (by decide) rfl).2.1
  revert hdone
  decide

/-! ## A pipeline of messages -/

/-- Successive calls of `readMessage`, into one message object, return `ms` in order and then
    report the end of the stream. -/
def ReturnsAll : BlkMessage → List ReadOutcome → List BlkMessage → Prop
  | msg, reads, [] => ∃ m rest, readMessage msg reads = ⟨.returned false blkReadStatusEof, m, rest⟩
  | msg, reads, m :: ms => ∃ rest,
      readMessage msg reads = ⟨.returned true blkReadStatusOk, m, rest⟩ ∧ ReturnsAll m rest ms

/-- Every message ends where a read ends: the reads fall into groups, one for each message, and
    a group's bytes are the message's encoding. -/
def Aligned (ms : List BlkMessage) (chunks : List Chunk) : Prop :=
  ∃ groups : List (List Chunk), groups.flatten = chunks ∧
    groups.map text = ms.map BlkMessage.toRawString

/-- The bytes of a pipeline. -/
def pipeline (ms : List BlkMessage) : Bytes := (ms.map BlkMessage.toRawString).flatten

theorem length_pipeline_cons (m : BlkMessage) (ms : List BlkMessage) :
    (pipeline (m :: ms)).length = m.toRawString.length + (pipeline ms).length := by
  simp [pipeline]

theorem text_flatten (groups : List (List Chunk)) :
    text groups.flatten = (groups.map text).flatten := by
  induction groups with
  | nil => rfl
  | cons g gs ih => rw [List.flatten_cons, text_append, ih]; rfl

/-- Grouped reads give the messages back, whatever comes after them. -/
theorem returnsAll_of_groups : ∀ (ms : List BlkMessage) (groups : List (List Chunk))
    (msg : BlkMessage), (∀ m ∈ ms, m.Constructed ∧ m.body ≠ [] ∧ m.body.length < 2 ^ 31) →
    groups.map text = ms.map BlkMessage.toRawString →
    ReturnsAll msg (groups.flatten.map .data ++ [.eof]) ms
  | [], groups, msg, _, hg => by
    have hnil : groups = [] := by simpa using hg
    rw [hnil]
    exact ⟨msg, [], rfl⟩
  | m :: ms, [], msg, _, hg => by cases hg
  | m :: ms, g :: groups, msg, hms, hg => by
    obtain ⟨hg1, hgs⟩ := List.cons_eq_cons.mp hg
    obtain ⟨⟨port, verb, body, hv, rfl⟩, hne, hlen⟩ := hms m (List.mem_cons_self ..)
    let f := Frame.ofMessage port verb body hv hne hlen
    have hcut : text g = f.bytes := hg1.trans (Frame.bytes_ofMessage hv hne hlen).symm
    have hmsg : f.message = _ := Frame.message_ofMessage hv hne hlen
    refine ⟨groups.flatten.map .data ++ [.eof], ?_, ?_⟩
    · rw [List.flatten_cons, List.map_append, List.append_assoc, readMessage_frame msg f hcut,
        hmsg]
      rfl
    · exact returnsAll_of_groups ms groups _ (fun m hm => hms m (List.mem_cons_of_mem _ hm)) hgs

/-- The chunks in front of a chunk, among reads that end with the end of file. -/
theorem chunks_split {chunks cs : List Chunk} {c : Chunk} {rest : List ReadOutcome}
    (h : chunks.map ReadOutcome.data ++ [.eof] = cs.map .data ++ .data c :: rest) :
    ∃ ds, chunks = cs ++ c :: ds ∧ rest = ds.map .data ++ [.eof] := by
  induction cs generalizing chunks with
  | nil =>
    rcases chunks with _ | ⟨c', ds⟩
    · cases h
    · obtain ⟨hc, hrest⟩ := List.cons_eq_cons.mp h
      cases hc
      exact ⟨ds, rfl, hrest.symm⟩
  | cons a cs ih =>
    rcases chunks with _ | ⟨c', ds⟩
    · cases h
    · obtain ⟨hc, htail⟩ := List.cons_eq_cons.mp h
      cases hc
      obtain ⟨es, rfl, hrest⟩ := ih htail
      exact ⟨es, rfl, hrest⟩

/-- **The counting argument.**  What comes back has used up at least its encodings; when the
    stream holds no more than these, each call has used up exactly one of them. -/
theorem returnsAll_length : ∀ (ms : List BlkMessage) (msg : BlkMessage) (chunks : List Chunk),
    ReturnsAll msg (chunks.map .data ++ [.eof]) ms →
    (pipeline ms).length ≤ (text chunks).length ∧
    ((text chunks).length ≤ (pipeline ms).length → ∃ groups : List (List Chunk),
      groups.flatten = chunks ∧
      (groups.map text).map List.length = (ms.map BlkMessage.toRawString).map List.length) := by
  intro ms
  induction ms with
  | nil =>
    intro msg chunks _
    refine ⟨Nat.zero_le _, fun hle => ⟨[], ?_, rfl⟩⟩
    have hnil : text chunks = [] := List.length_eq_zero_iff.mp (Nat.le_zero.mp hle)
    rw [text_eq_nil hnil]
    rfl
  | cons m ms ih =>
    intro msg chunks h
    obtain ⟨rest, hread, hrest⟩ := h
    obtain ⟨f, cs, c, t, u, hreads, hc, hf, rfl, -⟩ := readMessage_true hread
    obtain ⟨ds, rfl, rfl⟩ := chunks_split hreads
    obtain ⟨hle, hgroups⟩ := ih f.message ds hrest
    -- the call has consumed the frame, which is at least as long as the encoding
    have hmin := f.length_toRawString_le
    have hused : f.bytes.length + u.length = (text cs).length + c.bytes.length := by
      rw [← hf, hc]
      simp only [List.length_append]
      omega
    have htotal : (text (cs ++ c :: ds)).length =
        (text cs).length + c.bytes.length + (text ds).length := by
      simp only [text_append, text_cons, List.length_append]
      omega
    rw [length_pipeline_cons, htotal]
    refine ⟨by omega, fun hshort => ?_⟩
    obtain ⟨groups, rfl, hlens⟩ := hgroups (by omega)
    refine ⟨(cs ++ [c]) :: groups, by simp, ?_⟩
    have hfirst : (text (cs ++ [c])).length = f.message.toRawString.length := by
      simp only [text_append, text_cons, text_nil, List.length_append, List.append_nil]
      omega
    rw [List.map_cons, List.map_cons, List.map_cons, List.map_cons, hfirst, hlens]

/-- A body that came back fits its `int` length. -/
theorem returnsAll_body_lt : ∀ (ms : List BlkMessage) (msg : BlkMessage) (chunks : List Chunk),
    ReturnsAll msg (chunks.map .data ++ [.eof]) ms → (∀ m ∈ ms, m.body.length < 2 ^ 63) →
    ∀ m ∈ ms, m.body.length < 2 ^ 31 := by
  intro ms
  induction ms with
  | nil => intro _ _ _ _ m hm; exact absurd hm List.not_mem_nil
  | cons m ms ih =>
    intro msg chunks h hmax m' hm'
    obtain ⟨rest, hread, hrest⟩ := h
    obtain ⟨f, cs, c, t, u, hreads, -, -, rfl, -⟩ := readMessage_true hread
    obtain ⟨ds, rfl, rfl⟩ := chunks_split hreads
    rcases List.mem_cons.mp hm' with rfl | hm'
    · have hint := f.toInt_lenVal (hmax _ (List.mem_cons_self ..))
      have hhi := Int32.toInt_lt f.lenVal
      show f.body.length < 2 ^ 31
      omega
    · exact ih f.message ds hrest (fun x hx => hmax x (List.mem_cons_of_mem _ hx)) m' hm'

/-- **When a pipeline survives**: for constructed messages with non-empty bodies (each a
    `std::string`, so below 2^63 bytes), cut into reads in any way, the calls return exactly these
    messages and then the end of file if and only if every body is shorter than 2^31 bytes and
    every message ends where a read ends. -/
theorem returnsAll_iff (ms : List BlkMessage) (chunks : List Chunk) (msg : BlkMessage)
    (hms : ∀ m ∈ ms, m.Constructed ∧ m.body ≠ [] ∧ m.body.length < 2 ^ 63)
    (hcut : text chunks = pipeline ms) :
    ReturnsAll msg (chunks.map .data ++ [.eof]) ms ↔
      (∀ m ∈ ms, m.body.length < 2 ^ 31) ∧ Aligned ms chunks := by
  constructor
  · intro h
    refine ⟨returnsAll_body_lt ms msg chunks h fun m hm => (hms m hm).2.2, ?_⟩
    obtain ⟨groups, hflat, hlens⟩ := (returnsAll_length ms msg chunks h).2 (by rw [hcut])
    refine ⟨groups, hflat, List.eq_iff_flatten_eq.mpr ⟨?_, hlens⟩⟩
    rw [← text_flatten, hflat, hcut]
    rfl
  · rintro ⟨hlen, groups, rfl, hg⟩
    exact returnsAll_of_groups ms groups msg
      (fun m hm => ⟨(hms m hm).1, (hms m hm).2.1, hlen m hm⟩) hg

/-- A small request, and the reads that carry it once, and twice in one buffer. -/
def ping : BlkMessage := BlkMessage.make 80 NORMAL (ascii "a")

def onePing : Chunk := ⟨ping.toRawString, by decide, by decide⟩

def twoPings : Chunk := ⟨ping.toRawString ++ ping.toRawString, by decide, by decide⟩

theorem returnsAll_iff_two_reads :
    ReturnsAll BlkMessage.blank ([onePing, onePing].map .data ++ [.eof]) [ping, ping] ↔
      (∀ m ∈ [ping, ping], m.body.length < 2 ^ 31) ∧ Aligned [ping, ping] [onePing, onePing] :=
  returnsAll_iff [ping, ping] [onePing, onePing] BlkMessage.blank
    (by
      have hping : ping.Constructed ∧ ping.body ≠ [] ∧ ping.body.length < 2 ^ 63 :=
        ⟨⟨80, NORMAL, ascii "a", Or.inl rfl, rfl⟩, by decide, by decide⟩
      intro m hm
      rcases List.mem_cons.mp hm with rfl | hm
      · exact hping
      · rw [List.mem_singleton] at hm
        exact hm ▸ hping)
    rfl

/-- Two messages in one read: the second is lost. -/
theorem pipeline_loses : ¬ ∀ (ms : List BlkMessage) (chunks : List Chunk) (msg : BlkMessage),
    (∀ m ∈ ms, m.Constructed ∧ m.body ≠ []) → text chunks = pipeline ms →
    ReturnsAll msg (chunks.map .data ++ [.eof]) ms := by
  intro h
  have hping : ping.Constructed ∧ ping.body ≠ [] := ⟨⟨80, NORMAL, ascii "a", Or.inl rfl, rfl⟩, by decide⟩
  obtain ⟨rest, hread, rest', hread', -⟩ := h [ping, ping] [twoPings] BlkMessage.blank
    (by
      intro m hm
      rcases List.mem_cons.mp hm with rfl | hm
      · exact hping
      · rw [List.mem_singleton] at hm
        exact hm ▸ hping)
    rfl
  have hfirst : readMessage BlkMessage.blank [.data twoPings, .eof] =
      ⟨.returned true blkReadStatusOk, ping, [.eof]⟩ := by decide
  change readMessage BlkMessage.blank [.data twoPings, .eof] = _ at hread
  rw [hfirst] at hread
  cases hread
  cases hread'

end Pixie.Blk
