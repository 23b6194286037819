/-
  `BlkSocket` (`BlkSocket.cpp`): one message read from, or written to, a socket.

  `readMessage` makes a FRESH parser and a fresh buffer on every call, appends whatever each `read`
  delivers, and returns as soon as the parser has completed or failed.  The return value of
  `append` — how many of the bytes were consumed — is dropped, and with it whatever the buffer
  holds beyond the message.  Right after the `read`, and before its status is looked at, the source
  builds `std::string buffer_as_string(buffer, n)`; for `n == -1` that constructor throws
  `std::length_error`.

  `writeMessage` takes the length of what it sends from `strlen`, so a NUL byte ends the message on
  the wire.  It never assigns its `status` argument and always returns `true`.

  The run lemma `readLoop_cases` lists everything one call of `readMessage` can do.
-/
import Pixie.Blk.Frame
import Pixie.Net.Calls

namespace Pixie.Blk

open Pixie.Decimal Pixie.Net

/-! ## Reading -/

/-- How a call of `readMessage` ends: it returns, it throws `std::length_error`, its
    `assert(false)` fails, or its `read` has not come back. -/
inductive ReadEnd
  | returned (ret : Bool) (status : Int)
  | threw
  | asserted
  | pending
deriving DecidableEq, Repr

/-- The end of the call, the message argument afterwards, and the reads that are still to come. -/
structure ReadRun where
  fin : ReadEnd
  msg : BlkMessage
  rest : List ReadOutcome
deriving DecidableEq, Repr

/-- The loop of `readMessage`. -/
def readLoop (p : BlkParser) : List ReadOutcome → ReadRun
  | [] => ⟨.pending, p.msg, []⟩
  | o :: rest =>
      let (n, sockStatus) := socketReadData o
      -- `std::string buffer_as_string(buffer, n)`
      if n < 0 then ⟨.threw, p.msg, rest⟩
      else if sockStatus = socketStatusGood then
        let q := (p.append o.bytes).1
        if q.messageComplete then ⟨.returned true blkReadStatusOk, q.msg, rest⟩
        else if q.parseError then ⟨.returned false blkReadStatusParseError, q.msg, rest⟩
        else readLoop q rest
      else if sockStatus = socketStatusEof then ⟨.returned false blkReadStatusEof, p.msg, rest⟩
      else if sockStatus = socketStatusError then
        ⟨.returned false blkReadStatusIoerror, p.msg, rest⟩
      else ⟨.asserted, p.msg, rest⟩

/-- `BlkSocket::readMessage`. -/
def readMessage (msg : BlkMessage) (reads : List ReadOutcome) : ReadRun :=
  readLoop (BlkParser.new msg) reads

/-- Every call uses at least one of the reads that are left. -/
theorem length_rest_readLoop (p : BlkParser) (reads : List ReadOutcome) :
    (readLoop p reads).rest.length ≤ reads.length - 1 := by
  induction reads generalizing p with
  | nil => exact Nat.le_refl 0
  | cons o rest ih =>
    have hlater : ∀ q, (readLoop q rest).rest.length ≤ rest.length := by
      intro q
      have := ih q
      omega
    simp only [readLoop]
    repeat' split
    all_goals first | exact Nat.le_refl _ | exact hlater _

/-- The bytes that a sequence of successful reads delivers. -/
def text (cs : List Chunk) : Bytes := (cs.map Chunk.bytes).flatten

@[simp] theorem text_nil : text [] = [] := rfl
@[simp] theorem text_cons (c : Chunk) (cs : List Chunk) : text (c :: cs) = c.bytes ++ text cs := rfl
@[simp] theorem text_append (cs ds : List Chunk) : text (cs ++ ds) = text cs ++ text ds := by
  simp [text]

theorem text_eq_nil {cs : List Chunk} (h : text cs = []) : cs = [] := by
  rcases cs with _ | ⟨c, cs⟩
  · rfl
  · exact absurd (List.append_eq_nil_iff.mp h).1 c.bytes_ne

/-! ### One `read` -/

theorem readLoop_eof (p : BlkParser) (rest : List ReadOutcome) :
    readLoop p (.eof :: rest) = ⟨.returned false blkReadStatusEof, p.msg, rest⟩ := rfl

theorem readLoop_fail (p : BlkParser) (e : Int) (rest : List ReadOutcome) :
    readLoop p (.fail e :: rest) = ⟨.threw, p.msg, rest⟩ := by
  have h := socketReadData_fail e
  rcases hs : socketReadData (.fail e) with ⟨n, sockStatus⟩
  rw [hs] at h
  simp only [readLoop, hs, h]
  rfl

theorem readLoop_data (p : BlkParser) (c : Chunk) (rest : List ReadOutcome) :
    readLoop p (.data c :: rest) =
      if (p.append c.bytes).1.messageComplete then
        ⟨.returned true blkReadStatusOk, (p.append c.bytes).1.msg, rest⟩
      else if (p.append c.bytes).1.parseError then
        ⟨.returned false blkReadStatusParseError, (p.append c.bytes).1.msg, rest⟩
      else readLoop (p.append c.bytes).1 rest := by
  have hpos : ¬ ((c.bytes.length : Int) < 0) := by omega
  simp only [readLoop, socketReadData_data, if_neg hpos, if_true]
  rfl

/-- A chunk that sets no flag is swallowed whole. -/
theorem readLoop_data_quiet {p : BlkParser} {c : Chunk} {rest : List ReadOutcome}
    (h : p.Quiet c.bytes) : readLoop p (.data c :: rest) = readLoop (p.run c.bytes) rest := by
  have hf : (p.run c.bytes).flagged = false := h.stop_foldl c.bytes_ne
  simp only [BlkParser.flagged, Bool.or_eq_false_iff] at hf
  rw [readLoop_data, BlkParser.append_of_quiet h, if_neg (by rw [hf.2]; decide),
    if_neg (by rw [hf.1]; decide)]

/-- A chunk in which the parser completes ends the call; the chunk's other bytes are gone. -/
theorem readLoop_data_complete {p : BlkParser} {c : Chunk} {rest : List ReadOutcome} {t u : Bytes}
    {ch : UInt8} (hc : c.bytes = t ++ ch :: u) (hq : p.Quiet t)
    (hdone : (p.run (t ++ [ch])).messageComplete = true) :
    readLoop p (.data c :: rest) =
      ⟨.returned true blkReadStatusOk, (p.run (t ++ [ch])).msg, rest⟩ := by
  have hf : (p.run (t ++ [ch])).flagged = true := by rw [BlkParser.flagged, hdone, Bool.or_true]
  rw [readLoop_data, hc, BlkParser.append_of_flagged hq hf, if_pos hdone]

theorem readLoop_data_failed {p : BlkParser} {c : Chunk} {rest : List ReadOutcome} {t u : Bytes}
    {ch : UInt8} (hc : c.bytes = t ++ ch :: u) (hq : p.Quiet t)
    (herr : (p.run (t ++ [ch])).parseError = true)
    (hnot : (p.run (t ++ [ch])).messageComplete = false) :
    readLoop p (.data c :: rest) =
      ⟨.returned false blkReadStatusParseError, (p.run (t ++ [ch])).msg, rest⟩ := by
  have hf : (p.run (t ++ [ch])).flagged = true := by rw [BlkParser.flagged, herr, Bool.true_or]
  rw [readLoop_data, hc, BlkParser.append_of_flagged hq hf, if_neg (by rw [hnot]; decide),
    if_pos herr]

/-! ### Whole runs -/

/-- **Everything a call of `readMessage` can do.**  After some chunks that set no flag the reads
    are exhausted, or the next one is an end of file, or a failure, or a chunk whose byte `ch`
    sets a flag. -/
theorem readLoop_cases (p : BlkParser) (reads : List ReadOutcome) :
    ∃ cs : List Chunk, p.Quiet (text cs) ∧
      ((reads = cs.map .data ∧ readLoop p reads = ⟨.pending, (p.run (text cs)).msg, []⟩) ∨
       (∃ rest, reads = cs.map .data ++ .eof :: rest ∧
          readLoop p reads = ⟨.returned false blkReadStatusEof, (p.run (text cs)).msg, rest⟩) ∨
       (∃ e rest, reads = cs.map .data ++ .fail e :: rest ∧
          readLoop p reads = ⟨.threw, (p.run (text cs)).msg, rest⟩) ∨
       (∃ c rest t ch u, reads = cs.map .data ++ .data c :: rest ∧ c.bytes = t ++ ch :: u ∧
          p.Quiet (text cs ++ t) ∧ (p.run (text cs ++ t ++ [ch])).flagged = true ∧
          readLoop p reads = readLoop (p.run (text cs)) (.data c :: rest))) := by
  induction reads generalizing p with
  | nil => exact ⟨[], trivial, Or.inl ⟨rfl, rfl⟩⟩
  | cons o rest ih =>
    cases o with
    | eof => exact ⟨[], trivial, Or.inr (Or.inl ⟨rest, rfl, readLoop_eof p rest⟩)⟩
    | fail e => exact ⟨[], trivial, Or.inr (Or.inr (Or.inl ⟨e, rest, rfl, readLoop_fail p e rest⟩))⟩
    | data c =>
      rcases @Scan.scan_cases _ _ BlkParser.parseCharacter BlkParser.flagged p c.bytes with hq | ⟨t, ch, u, hc, hq, hs⟩
      · -- the chunk is quiet: what happens next happens after it
        obtain ⟨cs, hcs, hrest⟩ := ih (p.run c.bytes)
        have hrun : (p.run c.bytes).run (text cs) = p.run (text (c :: cs)) := by
          simp only [BlkParser.run, text_cons, List.foldl_append]
        refine ⟨c :: cs, Scan.quiet_append.mpr ⟨hq, hcs⟩, ?_⟩
        rw [readLoop_data_quiet hq]
        rw [hrun] at hrest
        rcases hrest with ⟨rfl, hend⟩ | ⟨r, rfl, hend⟩ | ⟨e, r, rfl, hend⟩ |
          ⟨c', r, t, ch, u, rfl, hc', hqt, hf, hend⟩
        · exact Or.inl ⟨rfl, hend⟩
        · exact Or.inr (Or.inl ⟨r, rfl, hend⟩)
        · exact Or.inr (Or.inr (Or.inl ⟨e, r, rfl, hend⟩))
        · refine Or.inr (Or.inr (Or.inr ⟨c', r, t, ch, u, rfl, hc', ?_, ?_, hend⟩))
          · rw [text_cons, List.append_assoc]
            exact Scan.quiet_append.mpr ⟨hq, hqt⟩
          · rw [text_cons, List.append_assoc, List.append_assoc, BlkParser.run, List.foldl_append,
              ← List.append_assoc]
            exact hf
      · exact ⟨[], trivial, Or.inr (Or.inr (Or.inr ⟨c, rest, t, ch, u, rfl, hc, hq, hs, rfl⟩))⟩

/-- The byte that sets a flag ends the call: the stream does not parse, or a frame is complete.
    Whatever else is in its chunk is gone. -/
theorem readLoop_flag {msg : BlkMessage} {cs : List Chunk} {c : Chunk} {rest : List ReadOutcome}
    {t u : Bytes} {ch : UInt8} (hc : c.bytes = t ++ ch :: u)
    (hqt : (BlkParser.new msg).Quiet (text cs ++ t))
    (hf : ((BlkParser.new msg).run (text cs ++ t ++ [ch])).flagged = true) :
    (∃ m, readLoop ((BlkParser.new msg).run (text cs)) (.data c :: rest) =
      ⟨.returned false blkReadStatusParseError, m, rest⟩) ∨
    ∃ f : Frame, f.bytes = text cs ++ t ++ [ch] ∧
      readLoop ((BlkParser.new msg).run (text cs)) (.data c :: rest) =
        ⟨.returned true blkReadStatusOk, f.message, rest⟩ := by
  have hq := (Scan.quiet_append.mp hqt).2
  have hrun : ((BlkParser.new msg).run (text cs)).run (t ++ [ch]) =
      (BlkParser.new msg).run (text cs ++ t ++ [ch]) := by
    rw [List.append_assoc]
    exact List.foldl_append.symm
  rcases BlkParser.flag_cases hqt hf with ⟨herr, hnot, -⟩ | ⟨f, hbytes, hdone⟩
  · exact Or.inl ⟨_, readLoop_data_failed hc hq (hrun ▸ herr) (hrun ▸ hnot)⟩
  · have hcomplete : (((BlkParser.new msg).run (text cs)).run (t ++ [ch])).messageComplete =
        true := by
      rw [hrun, hdone]
      rfl
    refine Or.inr ⟨f, hbytes, ?_⟩
    rw [readLoop_data_complete hc hq hcomplete, hrun, hdone]
    rfl

/-- **A message comes back only as a frame**: when `readMessage` returns `true`, the bytes of some
    frame have just been read, the message is the frame's, and the last chunk is used up. -/
theorem readMessage_true {msg m : BlkMessage} {reads rest : List ReadOutcome} {status : Int}
    (h : readMessage msg reads = ⟨.returned true status, m, rest⟩) :
    ∃ (f : Frame) (cs : List Chunk) (c : Chunk) (t u : Bytes),
      reads = cs.map .data ++ .data c :: rest ∧ c.bytes = t ++ u ∧ text cs ++ t = f.bytes ∧
      f.message = m ∧ status = blkReadStatusOk := by
  unfold readMessage at h
  obtain ⟨cs, -, ⟨-, hend⟩ | ⟨r, -, hend⟩ | ⟨e, r, -, hend⟩ |
    ⟨c, r, t, ch, u, hreads, hc, hqt, hf, hend⟩⟩ := readLoop_cases (BlkParser.new msg) reads
  · rw [hend] at h; cases h
  · rw [hend] at h; cases h
  · rw [hend] at h; cases h
  · rcases @readLoop_flag msg cs c r t u ch hc hqt hf with ⟨m', hbad⟩ | ⟨f, hbytes, hdone⟩
    · rw [hend, hbad] at h
      cases h
    · rw [hend, hdone] at h
      cases h
      refine ⟨f, cs, c, t ++ [ch], u, hreads, ?_, ?_, rfl, rfl⟩
      · rw [hc, List.append_assoc, List.singleton_append]
      · rw [hbytes, List.append_assoc]

/-- A read that failed. -/
def Failing (reads : List ReadOutcome) : Prop := ∃ e, .fail e ∈ reads

theorem not_failing_data (cs : List Chunk) : ¬ Failing (cs.map .data) := by
  rintro ⟨e, he⟩
  obtain ⟨c, -, hc⟩ := List.mem_map.mp he
  cases hc

/-- **The four ends of a call**, with the reads it has used: it is still waiting, a read has failed
    and it throws, it returns `false`, or it returns `true` with the message of a frame.  The
    `assert(false)` behind the status of a failed read is never reached. -/
theorem readMessage_ends (msg : BlkMessage) (reads : List ReadOutcome) :
    ∃ used, reads = used ++ (readMessage msg reads).rest ∧
      ((readMessage msg reads).fin = .pending ∧ ¬ Failing used ∨
       (readMessage msg reads).fin = .threw ∧ Failing used ∨
       ((readMessage msg reads).fin = .returned false blkReadStatusEof ∨
          (readMessage msg reads).fin = .returned false blkReadStatusParseError) ∧ ¬ Failing used ∨
       ∃ f : Frame, (readMessage msg reads).fin = .returned true blkReadStatusOk ∧
          (readMessage msg reads).msg = f.message ∧ ¬ Failing used) := by
  unfold readMessage
  obtain ⟨cs, -, ⟨hreads, hend⟩ | ⟨r, hreads, hend⟩ | ⟨e, r, hreads, hend⟩ |
    ⟨c, r, t, ch, u, hreads, hc, hqt, hf, hend⟩⟩ := readLoop_cases (BlkParser.new msg) reads
  · rw [hend]
    exact ⟨cs.map .data, by rw [hreads, List.append_nil], Or.inl ⟨rfl, not_failing_data cs⟩⟩
  · rw [hend]
    refine ⟨cs.map .data ++ [.eof], by rw [hreads]; simp, Or.inr (Or.inr (Or.inl ⟨Or.inl rfl, ?_⟩))⟩
    rintro ⟨e, he⟩
    rcases List.mem_append.mp he with he | he
    · exact not_failing_data cs ⟨e, he⟩
    · cases List.mem_singleton.mp he
  · rw [hend]
    refine ⟨cs.map .data ++ [.fail e], by rw [hreads]; simp, Or.inr (Or.inl ⟨rfl, e, ?_⟩)⟩
    exact List.mem_append_right _ (List.mem_singleton_self _)
  · -- the byte `ch` of the last chunk sets a flag
    have hnot : ¬ Failing ((cs ++ [c]).map .data) := not_failing_data _
    have hused : reads = (cs ++ [c]).map .data ++ r := by rw [hreads]; simp
    rcases @readLoop_flag msg cs c r t u ch hc hqt hf with ⟨m, hbad⟩ | ⟨f, -, hdone⟩
    · rw [hend, hbad]
      exact ⟨_, hused, Or.inr (Or.inr (Or.inl ⟨Or.inr rfl, hnot⟩))⟩
    · rw [hend, hdone]
      exact ⟨_, hused, Or.inr (Or.inr (Or.inr ⟨f, rfl, rfl, hnot⟩))⟩

/-- The parser completes at the last byte of `t ++ [ch]`: so does the call, in the read that
    delivers this byte. -/
theorem readLoop_complete {p : BlkParser} {t : Bytes} {ch : UInt8} {cs : List Chunk}
    (hq : p.Quiet t) (hdone : (p.run (t ++ [ch])).messageComplete = true)
    (hpre : t ++ [ch] <+: text cs) (rest : List ReadOutcome) :
    ∃ ds es, cs = ds ++ es ∧ t ++ [ch] <+: text ds ∧
      readLoop p (cs.map .data ++ rest) =
        ⟨.returned true blkReadStatusOk, (p.run (t ++ [ch])).msg, es.map .data ++ rest⟩ := by
  induction cs generalizing p t with
  | nil => exact absurd (List.prefix_nil.mp hpre) (by simp)
  | cons c cs ih =>
    rw [text_cons] at hpre
    rcases Nat.lt_or_ge t.length c.bytes.length with hlt | hge
    · -- the byte is in this chunk
      have hin : t ++ [ch] <+: c.bytes := by
        refine List.prefix_of_prefix_length_le hpre (List.prefix_append _ _) ?_
        rw [List.length_append, List.length_singleton]
        omega
      obtain ⟨u, hu⟩ := hin
      refine ⟨[c], cs, rfl, ⟨u, by simpa using hu⟩, ?_⟩
      have hc : c.bytes = t ++ ch :: u := by rw [← hu, List.append_assoc, List.singleton_append]
      exact readLoop_data_complete hc hq hdone
    · -- the chunk is quiet, and the rest of `t` is in the later ones
      have hin : c.bytes <+: t := by
        refine List.prefix_of_prefix_length_le (List.prefix_append _ (text cs)) ?_ hge
        exact (List.prefix_append t [ch]).trans hpre
      obtain ⟨t', rfl⟩ := hin
      rw [List.append_assoc, List.prefix_append_right_inj] at hpre
      have hrun : p.run (c.bytes ++ t' ++ [ch]) = (p.run c.bytes).run (t' ++ [ch]) := by
        rw [List.append_assoc]
        exact List.foldl_append
      rw [hrun] at hdone ⊢
      obtain ⟨ds, es, rfl, hds, hend⟩ := ih hq.right hdone hpre
      refine ⟨c :: ds, es, rfl, ?_, ?_⟩
      · rw [text_cons, List.append_assoc, List.prefix_append_right_inj]
        exact hds
      · rw [List.map_cons, List.cons_append, readLoop_data_quiet hq.left, hend]

/-- **A frame at the head of the stream comes back as its message**, however the stream is cut. -/
theorem readMessage_prefix (msg : BlkMessage) (f : Frame) {cs : List Chunk}
    (hcut : f.bytes <+: text cs) (rest : List ReadOutcome) :
    ∃ ds es, cs = ds ++ es ∧ f.bytes <+: text ds ∧
      readMessage msg (cs.map .data ++ rest) =
        ⟨.returned true blkReadStatusOk, f.message, es.map .data ++ rest⟩ := by
  obtain ⟨t, ch, hbytes, hq, hrun⟩ := BlkParser.reads_frame msg f
  rw [hbytes] at hcut hrun ⊢
  have hdone : ((BlkParser.new msg).run (t ++ [ch])).messageComplete = true := by
    rw [hrun]
    rfl
  obtain ⟨ds, es, hcs, hds, hend⟩ := readLoop_complete hq hdone hcut rest
  rw [hrun] at hend
  exact ⟨ds, es, hcs, hds, hend⟩

/-- ... and when the reads end where it ends, none of them is lost. -/
theorem readMessage_frame (msg : BlkMessage) (f : Frame) {cs : List Chunk}
    (hcut : text cs = f.bytes) (rest : List ReadOutcome) :
    readMessage msg (cs.map .data ++ rest) =
      ⟨.returned true blkReadStatusOk, f.message, rest⟩ := by
  obtain ⟨ds, es, rfl, hds, hend⟩ :=
    readMessage_prefix msg f (hcut ▸ List.prefix_rfl : f.bytes <+: text cs) rest
  -- the chunks that were used are as long as the frame
  have hlen := hds.length_le
  rw [← hcut, text_append, List.length_append] at hlen
  have hnil : es = [] := text_eq_nil (List.length_eq_zero_iff.mp (by omega))
  rw [hend, hnil]
  rfl

/-! ## Writing -/

/-- `strlen` of the C string in a buffer that ends with a NUL. -/
def strlen (s : Bytes) : Nat := (s.takeWhile (· ≠ 0)).length

/-- The `buffer_length` that `writeMessage` computes. -/
def bufferLength (m : BlkMessage) : Int32 := Int32.ofNat (strlen m.toRawString)

/-- The bytes that `BlkSocket::writeMessage` hands to the socket. -/
def writeBytes (m : BlkMessage) : Bytes := m.toRawString.take (sizeOfInt (bufferLength m))

/-- The bytes that a write of the message has put on the wire, when the call has come back. -/
def wire (m : BlkMessage) (o : WriteOutcome) : Bytes :=
  (writeBytes m).take (o.ret (sizeOfInt (bufferLength m))).toNat

theorem takeWhile_eq_take_length (p : UInt8 → Bool) (s : Bytes) :
    s.take (s.takeWhile p).length = s.takeWhile p :=
  (List.prefix_iff_eq_take.mp (List.takeWhile_prefix p)).symm

/-- A write that takes the whole buffer puts all of it on the wire. -/
@[simp] theorem wire_all (m : BlkMessage) : wire m .all = writeBytes m := by
  have hlen : (writeBytes m).length ≤ sizeOfInt (bufferLength m) := List.length_take_le _ _
  show (writeBytes m).take (sizeOfInt (bufferLength m) : Int).toNat = writeBytes m
  rw [Int.toNat_natCast, List.take_of_length_le hlen]

/-- Below 2^31 bytes the casts change nothing: the message is cut at its first NUL. -/
theorem writeBytes_eq {m : BlkMessage} (h : m.toRawString.length < 2 ^ 31) :
    writeBytes m = m.toRawString.takeWhile (· ≠ 0) := by
  have hle : strlen m.toRawString ≤ m.toRawString.length :=
    (List.takeWhile_sublist _).length_le
  have hint : (Int32.ofNat (strlen m.toRawString)).toInt = strlen m.toRawString :=
    Int32.toInt_ofNat_of_lt (by omega)
  have hsize := sizeOfInt_of_nonneg (n := Int32.ofNat (strlen m.toRawString)) (by omega)
  have hlen : sizeOfInt (bufferLength m) = strlen m.toRawString := by
    unfold bufferLength
    omega
  rw [writeBytes, hlen, strlen, takeWhile_eq_take_length]

/-- The encoding goes out whole exactly when no NUL byte is in it. -/
theorem writeBytes_eq_toRawString_iff {m : BlkMessage} (h : m.toRawString.length < 2 ^ 31) :
    writeBytes m = m.toRawString ↔ 0 ∉ m.toRawString := by
  rw [writeBytes_eq h, List.takeWhile_eq_self_iff]
  constructor
  · intro hall hmem
    exact absurd (hall 0 hmem) (by decide)
  · intro hno b hb
    exact decide_eq_true fun h0 => hno (h0 ▸ hb)

/-- In a message with a proper first line and verb a NUL can only come from the body. -/
theorem zero_mem_toRawString_iff {m : BlkMessage} (hfirst : m.firstLine = START)
    (hverb : m.requestVerb = NORMAL ∨ m.requestVerb = TUNNEL) :
    0 ∈ m.toRawString ↔ 0 ∈ m.body := by
  have hport : (0 : UInt8) ∉ to_string m.destinationPort := not_mem_to_string (by decide) (by decide)
  have hlen : (0 : UInt8) ∉ to_string m.messageLength := not_mem_to_string (by decide) (by decide)
  have hstart : (0 : UInt8) ∉ START := by decide
  have hv : (0 : UInt8) ∉ m.requestVerb := by
    rcases hverb with h | h <;> rw [h] <;> decide
  have hnl : (0 : UInt8) ≠ newline := by decide
  simp [BlkMessage.toRawString, hfirst, hport, hlen, hstart, hv, hnl]

end Pixie.Blk
