/-
  What `BlkSocket::readMessage` owes its callers, and when it pays.

  Callers decide between answering, flushing and closing on the result and the status alone, so each
  outcome of the `read`s has to come back as the status that is named for it.  `Contract` says this,
  of the data that has come so far and the outcomes that are still to come, without a word about
  the loop or the parser object: the data completes a message if a frame is at its head
  (`Completes`), and is malformed if a fresh parser refuses it (`Malformed`).

  The code keeps the contract until a `read` fails (`contract_iff`).  It makes a `std::string` of the
  `-1` that the `read` has returned before it looks at the status, so a failure raises
  `std::length_error`, and `BLK_READ_STATUS_IOERROR` is never reported.
-/
import Pixie.Blk.Decoder

namespace Pixie.Blk

open Pixie.Decimal Pixie.Net BlkParser

/-! ## The contract -/

/-- A message is complete in the data: there is a frame at its head. -/
def Completes (data : Bytes) : Prop := ∃ f : Frame, f.bytes <+: data

/-- A fresh parser refuses the data. -/
def Malformed (msg : BlkMessage) (data : Bytes) : Prop :=
  ((new msg).append data).1.parseError = true

/-- The end that a call owes after `data`, for the outcomes of the reads that follow. -/
inductive Contract (msg : BlkMessage) : Bytes → List ReadOutcome → ReadEnd → Prop
  | waiting (data : Bytes) : Contract msg data [] .pending
  | eof (data : Bytes) (rest : List ReadOutcome) :
      Contract msg data (.eof :: rest) (.returned false blkReadStatusEof)
  | failed (data : Bytes) (errno : Int) (rest : List ReadOutcome) :
      Contract msg data (.fail errno :: rest) (.returned false blkReadStatusIoerror)
  | complete {data : Bytes} {c : Chunk} (rest : List ReadOutcome) : Completes (data ++ c.bytes) →
      Contract msg data (.data c :: rest) (.returned true blkReadStatusOk)
  | malformed {data : Bytes} {c : Chunk} (rest : List ReadOutcome) :
      Malformed msg (data ++ c.bytes) →
      Contract msg data (.data c :: rest) (.returned false blkReadStatusParseError)
  | more {data : Bytes} {c : Chunk} {rest : List ReadOutcome} {fin : ReadEnd} :
      ¬ Completes (data ++ c.bytes) → ¬ Malformed msg (data ++ c.bytes) →
      Contract msg (data ++ c.bytes) rest fin → Contract msg data (.data c :: rest) fin

/-- A `read` fails before the data completes a message, is malformed or comes to its end. -/
def MeetsFailure (msg : BlkMessage) (reads : List ReadOutcome) : Prop :=
  ∃ (cs : List Chunk) (errno : Int) (rest : List ReadOutcome),
    reads = cs.map .data ++ .fail errno :: rest ∧ ¬ Completes (text cs) ∧ ¬ Malformed msg (text cs)

/-! ## The three verdicts on the data -/

variable {msg : BlkMessage}

/-- Data that raises no flag is not decided yet. -/
theorem undecided_of_quiet {data : Bytes} (h : (new msg).Quiet data) :
    ¬ Completes data ∧ ¬ Malformed msg data := by
  have hflag := (progress_of_quiet h).not_flagged
  have happ := append_of_quiet h
  constructor
  · intro hc
    have hdone := (append_complete_iff msg data).mpr hc
    rw [happ] at hdone
    rw [flagged, hdone, Bool.or_true] at hflag
    cases hflag
  · intro herr
    rw [Malformed, happ] at herr
    rw [flagged, herr, Bool.true_or] at hflag
    cases hflag

/-- Data whose byte `ch` raises a flag is malformed there, or complete; whatever follows. -/
theorem decided_of_flag {t u : Bytes} {ch : UInt8} (hq : (new msg).Quiet t)
    (hf : ((new msg).run (t ++ [ch])).flagged = true) :
    Completes (t ++ ch :: u) ∨ Malformed msg (t ++ ch :: u) := by
  rcases flag_cases hq hf with hfail | ⟨f, hbytes, -⟩
  · right
    rw [Malformed, append_of_flagged hq hf]
    exact hfail.1
  · left
    refine ⟨f, u, ?_⟩
    rw [hbytes, List.append_assoc, List.singleton_append]

/-! ## Outcomes that are data -/

/-- The contract goes through data that decides nothing. -/
theorem Contract.skip {cs : List Chunk} {data : Bytes} {rest : List ReadOutcome} {fin : ReadEnd}
    (hq : (new msg).Quiet (data ++ text cs)) (h : Contract msg (data ++ text cs) rest fin) :
    Contract msg data (cs.map .data ++ rest) fin := by
  induction cs generalizing data with
  | nil =>
    rw [text_nil, List.append_nil] at h
    exact h
  | cons c cs ih =>
    rw [text_cons, ← List.append_assoc] at hq h
    obtain ⟨hcomp, hmal⟩ := undecided_of_quiet hq.left
    exact .more hcomp hmal (ih hq h)

/-- A failure among the reads comes after the data that they start with. -/
theorem failure_after {cs cs' : List Chunk} {errno : Int} {rest rest' : List ReadOutcome}
    (h : cs.map ReadOutcome.data ++ rest = cs'.map .data ++ .fail errno :: rest') :
    ∃ ds, cs' = cs ++ ds ∧ rest = ds.map .data ++ .fail errno :: rest' := by
  induction cs generalizing cs' with
  | nil => exact ⟨cs', rfl, h⟩
  | cons c cs ih =>
    cases cs' with
    | nil => cases h
    | cons c' cs' =>
      obtain ⟨hc, htail⟩ := List.cons_eq_cons.mp h
      obtain rfl := ReadOutcome.data.inj hc
      obtain ⟨ds, rfl, hrest⟩ := ih htail
      exact ⟨ds, rfl, hrest⟩

theorem not_meetsFailure_data (cs : List Chunk) : ¬ MeetsFailure msg (cs.map .data) := by
  rintro ⟨cs', errno, rest', h, -⟩
  rw [← List.append_nil (cs.map _)] at h
  obtain ⟨ds, -, hrest⟩ := failure_after h
  cases ds <;> cases hrest

theorem not_meetsFailure_eof (cs : List Chunk) (rest : List ReadOutcome) :
    ¬ MeetsFailure msg (cs.map .data ++ .eof :: rest) := by
  rintro ⟨cs', errno, rest', h, -⟩
  obtain ⟨ds, -, hrest⟩ := failure_after h
  cases ds <;> cases hrest

/-- Nor is a failure met behind data that decides. -/
theorem not_meetsFailure_of_flag {cs : List Chunk} {c : Chunk} {rest : List ReadOutcome}
    {t u : Bytes} {ch : UInt8} (hc : c.bytes = t ++ ch :: u) (hq : (new msg).Quiet (text cs ++ t))
    (hf : ((new msg).run (text cs ++ t ++ [ch])).flagged = true) :
    ¬ MeetsFailure msg (cs.map .data ++ .data c :: rest) := by
  rintro ⟨cs', errno, rest', h, hcomp, hmal⟩
  obtain ⟨ds, rfl, hrest⟩ := failure_after h
  cases ds with
  | nil => cases hrest
  | cons d ds =>
    obtain ⟨hd, -⟩ := List.cons_eq_cons.mp hrest
    obtain rfl := ReadOutcome.data.inj hd
    have htext : text (cs ++ c :: ds) = text cs ++ t ++ ch :: (u ++ text ds) := by
      simp [hc]
    rw [htext] at hcomp hmal
    rcases @decided_of_flag msg _ (u ++ text ds) ch hq hf with hyes | hno
    · exact hcomp hyes
    · exact hmal hno

/-- The contract knows no exception. -/
theorem Contract.not_threw {data : Bytes} {reads : List ReadOutcome} {fin : ReadEnd}
    (h : Contract msg data reads fin) : fin ≠ .threw := by
  induction h with
  | waiting data => exact nofun
  | eof data rest => exact nofun
  | failed data errno rest => exact nofun
  | complete rest hc => exact nofun
  | malformed rest hm => exact nofun
  | more hcomp hmal _ ih => exact ih

/-! ## The call -/

/-- The chunk with the byte that raises a flag comes back as the contract says. -/
theorem contract_of_flag {cs : List Chunk} {c : Chunk} {rest : List ReadOutcome} {t u : Bytes}
    {ch : UInt8} (hc : c.bytes = t ++ ch :: u) (hq : (new msg).Quiet (text cs ++ t))
    (hf : ((new msg).run (text cs ++ t ++ [ch])).flagged = true) :
    Contract msg (text cs) (.data c :: rest)
      (readLoop ((new msg).run (text cs)) (.data c :: rest)).fin := by
  have htext : text cs ++ c.bytes = text cs ++ t ++ ch :: u := by rw [hc, List.append_assoc]
  have hrun : ((new msg).run (text cs)).run (t ++ [ch]) = (new msg).run (text cs ++ t ++ [ch]) := by
    rw [List.append_assoc]
    exact List.foldl_append.symm
  rcases flag_cases hq hf with ⟨herr, hnot, -⟩ | ⟨f, hbytes, hdone⟩
  · rw [readLoop_data_failed hc hq.right (hrun ▸ herr) (hrun ▸ hnot)]
    apply Contract.malformed
    rw [Malformed, htext, append_of_flagged hq hf]
    exact herr
  · have hcomplete : (((new msg).run (text cs)).run (t ++ [ch])).messageComplete = true := by
      rw [hrun, hdone]
      rfl
    rw [readLoop_data_complete hc hq.right hcomplete]
    refine Contract.complete _ ⟨f, u, ?_⟩
    rw [hbytes, htext, List.append_assoc, List.singleton_append]

/-- **When a call of `readMessage` keeps its contract**: for every sequence of outcomes, exactly when
    no `read` fails before the call has been decided. -/
theorem contract_iff (msg : BlkMessage) (reads : List ReadOutcome) :
    Contract msg [] reads (readMessage msg reads).fin ↔ ¬ MeetsFailure msg reads := by
  unfold readMessage
  obtain ⟨cs, hq, ⟨rfl, hend⟩ | ⟨rest, rfl, hend⟩ | ⟨errno, rest, rfl, hend⟩ |
    ⟨c, rest, t, ch, u, rfl, hc, hqt, hf, hend⟩⟩ := readLoop_cases (new msg) reads
  · rw [hend, ← List.append_nil (cs.map _)]
    refine iff_of_true (Contract.skip hq (.waiting _)) ?_
    rw [List.append_nil]
    exact not_meetsFailure_data cs
  · rw [hend]
    exact iff_of_true (Contract.skip hq (.eof _ rest)) (not_meetsFailure_eof cs rest)
  · -- the exception
    rw [hend]
    refine iff_of_false (fun h => h.not_threw rfl) (not_not.mpr ?_)
    exact ⟨cs, errno, rest, rfl, undecided_of_quiet hq⟩
  · rw [hend]
    refine iff_of_true (Contract.skip hq ?_) (not_meetsFailure_of_flag hc hqt hf)
    exact contract_of_flag hc hqt hf

/-- A connection that is reset: the status that is named for it is not reported. -/
theorem not_contract_of_reset : ¬ ∀ (msg : BlkMessage) (reads : List ReadOutcome),
    Contract msg [] reads (readMessage msg reads).fin := by
  intro h
  have hfin : (readMessage BlkMessage.blank [.fail 54]).fin = .threw := by decide
  exact (h BlkMessage.blank [.fail 54]).not_threw hfin

end Pixie.Blk
