/-
  One call of `http_parser_execute` on the head of a message.

  1. `runs_init`, `refused_init` — a text that is followed to its end, or to an error, is what a call on it
     does; `http_parser_init` has been called before.

  2. `headers_meaning` — **what header lines mean**.  The code recognises names and values letter by
     letter, with an index and some forty states; here this is the same as reading each line as a
     whole (`heedAll`), in the flags, in the length, in what is reported and in what is refused.
-/
import Pixie.Engine.Messages

namespace Pixie.Engine

open Pixie.Decimal Pixie.Http

variable {p q : HttpParser} {bs : Bytes} {es : List Event} {e : Errno}

/-! ## Texts and calls -/

/-- A text that is read to its end, with no string open there. -/
theorem runs_init (h : Runs (.init .both) none bs es q none) (hne : bs ≠ []) :
    httpParserExecute (.init .both) bs = some (q, ⟨es, bs.length⟩) := by
  obtain ⟨hstands, hrests⟩ := (if_pos rfl).mp (follows_init .both)
  obtain ⟨r, hscan, hexecute⟩ := execute_eq bs hne hstands hrests
  unfold Runs at h
  rw [show reopened (HttpParser.init .both).state = none from rfl, h] at hscan
  cases hscan
  rw [hexecute, Scanned.execute, if_pos rfl]
  show some (q, (⟨es ++ [], bs.length⟩ : Execute)) = _
  rw [List.append_nil]

/-- A text with an error in it. -/
theorem refused_init (h : Refused (.init .both) none bs es e) (hne : bs ≠ []) :
    ∃ q n, httpParserExecute (.init .both) bs = some (q, ⟨es, n⟩) ∧ q.httpErrno = e ∧ n < bs.length := by
  obtain ⟨hstands, hrests⟩ := (if_pos rfl).mp (follows_init .both)
  obtain ⟨r, hscan, hexecute⟩ := execute_eq bs hne hstands hrests
  obtain ⟨r', hscan', hexit, hes, he⟩ := h
  obtain ⟨r'', hscan'', ph, -, hgood⟩ := scan_good bs hstands hrests
  obtain rfl : r = r' := Option.some.inj (hscan.symm.trans hscan')
  obtain rfl : r = r'' := Option.some.inj (hscan.symm.trans hscan'')
  rw [hexit] at hgood
  refine ⟨r.parser, r.count, ?_, he, hgood.2⟩
  rw [hexecute, Scanned.execute, hexit, if_neg (by decide), hes]

/-! ## Header lines -/

theorem init_waits (l : StartLine) : (HttpParser.init .both).Awaits l := by
  cases l <;> exact .inl rfl

theorem StartLine.text_pos (l : StartLine) : 0 < l.text.length := by
  cases l with
  | request method =>
    have hpos := (methodString_length method).1
    unfold StartLine.text
    rw [List.length_append]
    omega
  | response => exact Nat.succ_pos _

/-- **What header lines mean.**  Behind any first line, header lines are read to the last and the parser
    has the flags and the length that they have as whole lines, or else there is a `Content-Length`
    that is not a number, or too large a one, and this is the error. -/
theorem headers_meaning (l : StartLine) (fields : List Field) (hl : l.WellFormed)
    (hfields : ∀ f ∈ fields, IsField f.1 f.2)
    (hroom : (l.text ++ fields.flatMap Field.text).length ≤ httpMaxHeaderSize) :
    ∃ q ex, httpParserExecute (.init .both) (l.text ++ fields.flatMap Field.text) = some (q, ex) ∧
      (∀ r, ((HttpParser.init .both).begins l).heedAll fields = some r →
        Agree r q ∧ q.httpErrno = .ok ∧
          ex = ⟨l.events ++ fields.flatMap Field.events, (l.text ++ fields.flatMap Field.text).length⟩) ∧
      (((HttpParser.init .both).begins l).heedAll fields = none → q.httpErrno = .invalidContentLength) := by
  have hpos := l.text_pos
  have hne : l.text ++ fields.flatMap Field.text ≠ [] := by
    intro hc
    rw [(List.append_eq_nil_iff.mp hc).1] at hpos
    exact Nat.lt_irrefl 0 hpos
  rw [List.length_append] at hroom
  have hzero : ((HttpParser.init .both).begins l).nread = 0 := (begins_fresh l).1
  have hroom' : ((HttpParser.init .both).begins l).nread + l.text.length +
      (fields.flatMap Field.text).length ≤ httpMaxHeaderSize := by omega
  obtain ⟨i, hstart⟩ := start_runs hl (init_waits l) (by show 0 + _ ≤ _; omega)
  have hagree := begins_agree (waits_init l.isRequest) i
  cases hheed : ((HttpParser.init .both).begins l).heedAll fields with
  | some r =>
    obtain ⟨q, hq, hagree'⟩ := heedAll_agree fields hagree hheed
    obtain ⟨i', h, s', -, hlines⟩ := 
      lines_runs (p := { (HttpParser.init .both).begins l with index := i }) fields (.inl rfl) hfields
        hroom' hq
    refine ⟨_, _, runs_init (hstart.append hlines) hne, ?_, fun hc => by cases hc⟩
    intro r' hr'
    cases hr'
    refine ⟨?_, ?_, rfl⟩
    · rw [hagree']
      rfl
    · show q.httpErrno = .ok
      rw [(heedAll_keeps fields hq).1]
      cases l <;> rfl
  | none =>
    obtain ⟨es, hlines⟩ := lines_refused (p := { (HttpParser.init .both).begins l with index := i })
      fields (.inl rfl) hfields hroom' (heedAll_agree_none fields hagree hheed)
    obtain ⟨q, n, hcall, he, -⟩ := refused_init (hstart.refused hlines) hne
    exact ⟨q, _, hcall, ⟨fun r hr => (Option.some_ne_none r hr.symm).elim, fun _ => he⟩⟩

/-- A header line that is known by its name, in any case, one that is not, and a length. -/
def someFields : List Field :=
  [(ascii "CONNECTION", ascii "  Keep-Alive  "), (ascii "Connections", ascii " close"),
    (ascii "content-Length", ascii " 1 2")]

theorem headers_meaning_some : ∃ q ex,
    httpParserExecute (.init .both) ((StartLine.response (ascii "1") (ascii "1") (ascii "200") []).text ++
      someFields.flatMap Field.text) = some (q, ex) ∧ q.httpErrno = .ok ∧
        q.flags.connectionKeepAlive = true ∧ q.flags.connectionClose = false ∧ q.contentLength = 12 := by
  obtain ⟨q, ex, hcall, hsome, -⟩ := headers_meaning
    (.response (ascii "1") (ascii "1") (ascii "200") []) someFields (by decide) (by decide)
    (by decide)
  have hheed : (((HttpParser.init .both).begins (.response (ascii "1") (ascii "1") (ascii "200") [])).heedAll
      someFields).map (fun r => (r.flags.connectionKeepAlive, r.flags.connectionClose, r.contentLength)) =
        some (true, false, 12) := by decide
  obtain ⟨r, hr, hknown⟩ := Option.map_eq_some_iff.mp hheed
  obtain ⟨hagree, hok, -⟩ := hsome r hr
  obtain ⟨hkeep, hrest⟩ := Prod.mk.inj hknown
  obtain ⟨hclose, hlength⟩ := Prod.mk.inj hrest
  have hsame : q.contentLength = r.contentLength := by rw [hagree]
  refine ⟨q, ex, hcall, hok, ?_, ?_, hsame.trans hlength⟩
  · rw [hagree.flags, hkeep]
  · rw [hagree.flags, hclose]

end Pixie.Engine
