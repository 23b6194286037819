/-
  Whole messages, one after the other.

  1. `Sent` — a message in its parts: a first line, header lines, and a body in one of the ways that
     have an end of their own.  `Sent.Means m r`: its parts are what they should be, its headers frame
     the body that it has, and `r` is what a new parser knows at its end.

  2. `message_runs` — **a message** is read to its end, with the callbacks that its parts make.

  3. `stream_runs` — **messages in turn** on one connection: all of them requests, or all responses, and
     all but the last keep the connection alive.
-/
import Pixie.Engine.Frames

namespace Pixie.Engine

open Pixie.Decimal Pixie.Http Pixie.Crlf

variable {p p' q q' r : HttpParser} {n : Nat}

/-! ## What a parser knows of a message -/

/-- The two parsers know the same of their message. -/
def Agree (p p' : HttpParser) : Prop :=
  p' = { p with
    state := p'.state, headerState := p'.headerState, index := p'.index, nread := p'.nread
    httpErrno := p'.httpErrno, upgrade := p'.upgrade }

theorem Agree.symm (h : Agree p p') : Agree p' p := by
  rw [h]
  rfl

theorem Agree.framing (h : Agree p p') : p'.framing = p.framing := by
  rw [h]
  rfl

theorem Agree.newMessage (h : Agree p p') : p'.newMessage = p.newMessage := by
  rw [h]
  rfl

theorem Agree.firstLine (h : Agree p p') : p'.firstLine = p.firstLine := by
  rw [h]
  rfl

theorem Agree.flags (h : Agree p p') : p'.flags = p.flags := by
  rw [h]

theorem Agree.type (h : Agree p p') : p'.type = p.type := by
  rw [h]

theorem Agree.stays (h : Agree p p') (hp : p.Stays) : p'.Stays := by
  rw [h]
  exact hp

/-- A header line says the same to both. -/
theorem heed_agree {name value : Bytes} (h : Agree p p') (hq : p.heed name value = some q) :
    ∃ q', p'.heed name value = some q' ∧ Agree q q' := by
  rw [h]
  generalize p'.state = s, p'.headerState = hs, p'.index = i, p'.nread = n, p'.httpErrno = e,
    p'.upgrade = u
  unfold HttpParser.heed at hq ⊢
  dsimp only at hq ⊢
  by_cases hempty : value.dropWhile isBlank = []
  · rw [if_pos hempty] at hq ⊢
    cases hq
    exact ⟨_, rfl, rfl⟩
  rw [if_neg hempty] at hq ⊢
  rcases fieldKind_cases name with hk | hk | hk | hk | hk
  · rw [hk] at hq ⊢
    cases hq
    refine ⟨_, rfl, ?_⟩
    split_ifs <;> rfl
  · rw [hk] at hq ⊢
    obtain ⟨m, hm, rfl⟩ := Option.map_eq_some_iff.mp hq
    dsimp only
    rw [hm]
    exact ⟨_, rfl, rfl⟩
  · rw [hk] at hq ⊢
    cases hq
    refine ⟨_, rfl, ?_⟩
    split_ifs <;> rfl
  · rw [hk] at hq ⊢
    cases hq
    exact ⟨_, rfl, rfl⟩
  · rw [hk] at hq ⊢
    cases hq
    exact ⟨_, rfl, rfl⟩

theorem heedAll_agree (fs : List Field) (h : Agree p p') (hq : p.heedAll fs = some q) :
    ∃ q', p'.heedAll fs = some q' ∧ Agree q q' := by
  induction fs generalizing p p' with
  | nil =>
    cases hq
    exact ⟨p', rfl, h⟩
  | cons f fs ih =>
    unfold HttpParser.heedAll at hq ⊢
    rw [List.foldlM_cons] at hq ⊢
    obtain ⟨r, hr, hrest⟩ := Option.bind_eq_some_iff.mp hq
    obtain ⟨r', hr', hagree⟩ := heed_agree h hr
    obtain ⟨q', hq', hagree'⟩ := ih hagree hrest
    exact ⟨q', by rw [hr']; exact hq', hagree'⟩

theorem heedAll_agree_none (fs : List Field) (h : Agree p p') (hq : p.heedAll fs = none) :
    p'.heedAll fs = none := by
  cases hq' : p'.heedAll fs with
  | none => rfl
  | some q' =>
    obtain ⟨q, hq'', -⟩ := heedAll_agree fs h.symm hq'
    rw [hq] at hq''
    cases hq''

/-! ## Bodies -/

/-- The body of a message. -/
inductive Content
  | nothing
  | plain (data : Bytes)
  | chunks (cs : List Chunk) (last : Chunk) (trailers : List Field)
deriving DecidableEq

namespace Content

/-- The text of a body. -/
def text : Content → Bytes
  | .nothing => []
  | .plain data => data
  | .chunks cs last trailers =>
    cs.flatMap Chunk.text ++ (last.line ++ (trailers.flatMap Field.text ++ crlf))

/-- What is reported of a body and its trailers. -/
def events : Content → List Event
  | .nothing => []
  | .plain data => [.body data]
  | .chunks cs _ trailers => cs.map (fun c => .body c.data) ++ trailers.flatMap Field.events

/-- What a body leaves in `nread`: the trailers are not taken back. -/
def leaves : Content → Nat
  | .chunks _ _ trailers => (trailers.flatMap Field.text).length + 2
  | _ => 0

/-- The headers, which have led to `q`, frame this body, and `r` is known behind it. -/
def Fits (q r : HttpParser) : Content → Prop
  | .nothing => q.framing = .nothing ∧ r = q
  | .plain data => q.framing = .length data.length ∧ r = { q with contentLength := 0 }
  | .chunks cs last trailers =>
    q.framing = .chunked ∧ (∀ c ∈ cs, c.WellFormed ∧ c.data ≠ []) ∧ (last.WellFormed ∧ last.data = []) ∧
      (∀ f ∈ trailers, IsField f.1 f.2) ∧
        (trailers.flatMap Field.text).length + 2 ≤ httpMaxHeaderSize ∧
          q.trailed.heedAll trailers = some r

/-- What is known behind a body, if it is the one that the headers frame. -/
def ends (q : HttpParser) : Content → Option HttpParser
  | .nothing => if q.framing = .nothing then some q else none
  | .plain data =>
    if q.framing = .length data.length then some { q with contentLength := 0 } else none
  | .chunks cs last trailers =>
    if q.framing = .chunked ∧ (∀ c ∈ cs, c.WellFormed ∧ c.data ≠ []) ∧
        (last.WellFormed ∧ last.data = []) ∧ (∀ f ∈ trailers, IsField f.1 f.2) ∧
          (trailers.flatMap Field.text).length + 2 ≤ httpMaxHeaderSize then
      q.trailed.heedAll trailers
    else none

theorem fits_iff (c : Content) : c.Fits q r ↔ c.ends q = some r := by
  cases c with
  | nothing => simp [Fits, ends, eq_comm]
  | plain data => simp [Fits, ends, eq_comm]
  | chunks cs last trailers => simp only [Fits, ends, Option.ite_none_right_eq_some, and_assoc]

theorem Fits.agree {c : Content} (h : c.Fits q r) (hq : Agree q q') :
    ∃ r', c.Fits q' r' ∧ Agree r r' := by
  cases c with
  | nothing =>
    obtain ⟨hframing, rfl⟩ := h
    exact ⟨q', ⟨hq.framing.trans hframing, rfl⟩, hq⟩
  | plain data =>
    obtain ⟨hframing, rfl⟩ := h
    refine ⟨_, ⟨hq.framing.trans hframing, rfl⟩, ?_⟩
    rw [hq]
    rfl
  | chunks cs last trailers =>
    obtain ⟨hframing, hcs, hlast, htrailers, hroom, hr⟩ := h
    have htrailed : Agree q.trailed q'.trailed := by
      rw [hq]
      rfl
    obtain ⟨r', hr', hagree⟩ := heedAll_agree trailers htrailed hr
    exact ⟨r', ⟨hq.framing.trans hframing, hcs, hlast, htrailers, hroom, hr'⟩, hagree⟩

/-- What a body leaves as it is. -/
theorem Fits.keeps {c : Content} (h : c.Fits q r) :
    r = { q with flags := r.flags, contentLength := r.contentLength } := by
  cases c with
  | nothing =>
    obtain ⟨-, rfl⟩ := h
    rfl
  | plain data =>
    obtain ⟨-, rfl⟩ := h
    rfl
  | chunks cs last trailers =>
    obtain ⟨-, -, -, -, -, hr⟩ := h
    rw [(heedAll_keeps trailers hr).1]
    rfl

end Content

theorem framing_chunked (h : p.framing = .chunked) : p.flags.chunked = true := by
  unfold HttpParser.framing at h
  by_contra hc
  rw [if_neg hc] at h
  split_ifs at h

theorem framing_length (h : p.framing = .length n) :
    p.contentLength = n ∧ n ≠ 0 ∧ n ≠ ullongMax := by
  unfold HttpParser.framing at h
  split_ifs at h with hchunked hzero hmax
  cases h
  exact ⟨rfl, hzero, hmax⟩

/-- **A body**, and the end of the message. -/
theorem content_runs (c : Content) (hfits : c.Fits q r) (hstays : q.Stays)
    (htrailing : q.flags.trailing = false) (hskip : q.flags.skipbody = false)
    (hlive : q.contentLength ≤ ullongMax) (hroom : q.nread + n < httpMaxHeaderSize) :
    ∃ p', Runs (q.reach .headersAlmostDone n) none (lf :: c.text)
        (.headersComplete q.firstLine :: (c.events ++ [.messageComplete])) p' none ∧
      Agree r p' ∧ p'.state = r.newMessage ∧ p'.nread = c.leaves := by
  have hend := headers_end hstays htrailing hskip hroom
  unfold HttpParser.bodyState at hend
  cases c with
  | nothing =>
    obtain ⟨hframing, rfl⟩ := hfits
    rw [hframing, if_pos rfl] at hend
    exact ⟨_, hend, rfl, rfl, rfl⟩
  | plain data =>
    obtain ⟨hframing, rfl⟩ := hfits
    obtain ⟨hlength, hzero, hmax⟩ := framing_length hframing
    rw [hframing, if_neg (by simp)] at hend
    have hdata := plain_runs (p := { q with upgrade := false, nread := 0 }) data
      (List.length_pos_iff.mp (Nat.pos_of_ne_zero hzero)) (by omega) opens_none
    rw [← hlength] at hdata
    exact ⟨_, hend.append hdata, rfl, rfl, rfl⟩
  | chunks cs last trailers =>
    obtain ⟨hframing, hcs, ⟨hlast, hempty⟩, htrailers, hsize, hr⟩ := hfits
    have hchunked := framing_chunked hframing
    rw [hframing, if_neg (by simp)] at hend
    obtain ⟨m, hchunks⟩ := chunks_more (p := { q with upgrade := false, nread := 0 }) cs hcs hchunked rfl
    have htrailed : Agree q.trailed (({ q with upgrade := false, nread := 0 } : HttpParser).sized m).trailed :=
      rfl
    obtain ⟨r', hr', hagree⟩ := heedAll_agree trailers htrailed hr
    obtain ⟨i, h, hrest⟩ := trailers_runs (p := ({ q with upgrade := false, nread := 0 } : HttpParser).sized m)
      hlast hempty hchunked rfl htrailers hsize hr'
    have hnread : r'.nread = 0 := by
      rw [(heedAll_keeps trailers hr').1]
      rfl
    have hall := hchunks.append hrest
    rw [← List.append_assoc (cs.map fun c => Event.body c.data)] at hall
    refine ⟨_, hend.append hall, ?_, hagree.newMessage, ?_⟩
    · rw [hagree]
      rfl
    · show r'.nread + _ = _
      rw [hnread, Nat.zero_add]
      rfl

/-! ## Messages -/

/-- A message as it is sent. -/
structure Sent where
  start : StartLine
  fields : List Field
  content : Content
deriving DecidableEq

/-- The numbers of a first line, as a parser has them that has read no message of the other kind. -/
def StartLine.line : StartLine → FirstLine
  | .request method _ major minor => ⟨method.num, 0, value major, value minor⟩
  | .response major minor code _ => ⟨Method.delete.num, value code, value major, value minor⟩

/-- A request. -/
def StartLine.isRequest : StartLine → Bool
  | .request .. => true
  | .response .. => false

namespace Sent

/-- The first line and the header lines. -/
def head (m : Sent) : Bytes := m.start.text ++ (m.fields.flatMap Field.text ++ crlf)

/-- The text of a message. -/
def text (m : Sent) : Bytes := m.head ++ m.content.text

/-- The callbacks of a message. -/
def events (m : Sent) : List Event :=
  m.start.events ++ (m.fields.flatMap Field.events ++
    (.headersComplete m.start.line :: (m.content.events ++ [.messageComplete])))

/-- The message is well formed, and a new parser knows `r` at its end. -/
structure Means (m : Sent) (r : HttpParser) : Prop where
  start : m.start.WellFormed
  fields : ∀ f ∈ m.fields, IsField f.1 f.2
  headers : ∃ q, ((HttpParser.init .both).begins m.start).heedAll m.fields = some q ∧ q.Stays ∧
    m.content.Fits q r

/-- What a new parser knows at the end of the message, if it is well formed. -/
def ends (m : Sent) : Option HttpParser :=
  if m.start.WellFormed ∧ ∀ f ∈ m.fields, IsField f.1 f.2 then do
    let q ← ((HttpParser.init .both).begins m.start).heedAll m.fields
    if q.Stays then m.content.ends q else none
  else none

theorem means_iff (m : Sent) : m.Means r ↔ m.ends = some r := by
  unfold ends
  constructor
  · rintro ⟨hstart, hfields, q, hheed, hstays, hfits⟩
    rw [if_pos ⟨hstart, hfields⟩, hheed]
    show (if q.Stays then m.content.ends q else none) = _
    rw [if_pos hstays]
    exact (Content.fits_iff _).mp hfits
  · intro h
    obtain ⟨hwell, h⟩ := Option.ite_none_right_eq_some.mp h
    obtain ⟨q, hheed, h⟩ := Option.bind_eq_some_iff.mp h
    obtain ⟨hstays, hends⟩ := Option.ite_none_right_eq_some.mp h
    exact ⟨hwell.1, hwell.2, q, hheed, hstays, (Content.fits_iff _).mpr hends⟩

end Sent

/-- A parser that waits for messages of a kind, and has read none of the other. -/
structure HttpParser.Waits (p : HttpParser) (request : Bool) : Prop where
  state : p.state = .startReqOrRes ∨
    p.state = p.startState ∧ p.type = if request then .request else .response
  fresh : if request then p.statusCode = 0 else p.method = .delete

theorem waits_init (request : Bool) : (HttpParser.init .both).Waits request := by
  refine ⟨.inl rfl, ?_⟩
  cases request
  · rfl
  · rfl

theorem HttpParser.Waits.awaits {l : StartLine} (h : p.Waits l.isRequest) : p.Awaits l := by
  have hstate := h.state
  unfold HttpParser.startState at hstate
  cases l with
  | request =>
    rcases hstate with hs | ⟨hs, htype⟩
    · exact .inl hs
    · have htype' : p.type = .request := htype
      rw [if_pos htype'] at hs
      exact .inr ⟨hs, htype'⟩
  | response =>
    rcases hstate with hs | ⟨hs, htype⟩
    · exact .inl hs
    · have htype' : p.type = .response := htype
      rw [if_neg (by rw [htype']; decide)] at hs
      exact .inr ⟨hs, htype'⟩

/-- A first line says the same to each parser that waits for it. -/
theorem begins_agree {l : StartLine} (h : p.Waits l.isRequest) (i : Nat) :
    Agree ((HttpParser.init .both).begins l) { p.begins l with index := i } := by
  have hfresh := h.fresh
  cases l with
  | request =>
    have hstatus : p.statusCode = 0 := hfresh
    unfold Agree HttpParser.begins Engine.fresh
    dsimp only
    rw [hstatus]
    rfl
  | response =>
    have hmethod : p.method = .delete := hfresh
    unfold Agree HttpParser.begins Engine.fresh
    dsimp only
    rw [hmethod]
    rfl

theorem begins_firstLine (l : StartLine) :
    ((HttpParser.init .both).begins l).firstLine = l.line := by
  cases l <;> rfl

/-- What a first line leaves as it is, and what it makes new. -/
theorem begins_fresh (l : StartLine) :
    (p.begins l).nread = p.nread ∧ (p.begins l).flags = .none ∧ (p.begins l).contentLength = ullongMax := by
  cases l <;> exact ⟨rfl, rfl, rfl⟩

/-- A length that a header line gives is one that the parser can count. -/
theorem heed_length_le {name value : Bytes} (h : p.heed name value = some q)
    (hp : p.contentLength ≤ ullongMax) : q.contentLength ≤ ullongMax := by
  unfold HttpParser.heed at h
  dsimp only at h
  split at h
  · cases h
    exact hp
  · rcases fieldKind_cases name with hk | hk | hk | hk | hk
    · rw [hk] at h
      cases h
      split_ifs <;> exact hp
    · rw [hk] at h
      obtain ⟨m, hm, rfl⟩ := Option.map_eq_some_iff.mp h
      unfold readLength at hm
      split at hm
      · rename_i hsmall
        cases hm
        simp only [ullongMax]
        omega
      · cases hm
    · rw [hk] at h
      cases h
      split_ifs <;> exact hp
    · rw [hk] at h
      cases h
      exact hp
    · rw [hk] at h
      cases h
      exact hp

theorem heedAll_length_le (fs : List Field) (h : p.heedAll fs = some q)
    (hp : p.contentLength ≤ ullongMax) : q.contentLength ≤ ullongMax := by
  induction fs generalizing p with
  | nil =>
    cases h
    exact hp
  | cons f fs ih =>
    unfold HttpParser.heedAll at h
    rw [List.foldlM_cons] at h
    obtain ⟨r, hr, hrest⟩ := Option.bind_eq_some_iff.mp h
    exact ih hrest (heed_length_le hr hp)

/-- **A message** is read to its end, with the callbacks that its parts make. -/
theorem message_runs {m : Sent} (hm : m.Means r) (hwaits : p.Waits m.start.isRequest)
    (hroom : p.nread + m.head.length ≤ httpMaxHeaderSize) :
    ∃ p', Runs p none m.text m.events p' none ∧ Agree r p' ∧ p'.state = r.newMessage ∧
      p'.nread = m.content.leaves := by
  obtain ⟨q₀, hheed, hstays, hfits⟩ := hm.headers
  unfold Sent.head at hroom
  rw [List.length_append, List.length_append, show crlf.length = 2 from rfl] at hroom
  obtain ⟨i, hstart⟩ := start_runs hm.start hwaits.awaits (by omega)
  obtain ⟨hnread, hflags, hlength⟩ := begins_fresh (p := p) m.start
  obtain ⟨q, hq, hagree⟩ := heedAll_agree m.fields (begins_agree hwaits i) hheed
  obtain ⟨i', h, hsection⟩ := section_runs (n := m.start.text.length) m.fields (.inl rfl) hm.fields
    (by show (p.begins m.start).nread + _ + _ + _ ≤ _; omega) hq
  obtain ⟨hkeeps, htrailing, hskip⟩ := heedAll_keeps m.fields hq
  have hlive : q.contentLength ≤ ullongMax := heedAll_length_le m.fields hq hlength.le
  have hfirst : (q.matched i' h).firstLine = m.start.line := by
    rw [← begins_firstLine m.start, ← (begins_agree hwaits i).firstLine, hkeeps]
    rfl
  have hmatched : Agree q₀ (q.matched i' h) := by
    rw [hagree]
    rfl
  obtain ⟨r', hfits', hagree'⟩ := hfits.agree hmatched
  obtain ⟨p', hcontent, hrp, hstate, hleaves⟩ := content_runs m.content hfits'
    (n := m.start.text.length + (m.fields.flatMap Field.text).length + 1) (hmatched.stays hstays)
    (htrailing.trans (congrArg Flags.trailing hflags)) (hskip.trans (congrArg Flags.skipbody hflags))
    hlive
    (by
      have hsame : q.nread = p.nread := by
        rw [hkeeps]
        exact hnread
      show q.nread + _ < _
      omega)
  have htext : m.text = m.start.text ++
      ((m.fields.flatMap Field.text ++ [cr]) ++ (lf :: m.content.text)) := by
    unfold Sent.text Sent.head
    simp only [List.append_assoc]
    rfl
  refine ⟨p', ?_, ?_, ?_, hleaves⟩
  · rw [hfirst] at hcontent
    rw [htext]
    exact hstart.append (hsection.append hcontent)
  · rw [hrp, hagree']
    rfl
  · exact hstate.trans hagree'.newMessage

/-! ## Messages in turn -/

/-- A connection goes on behind a message, waiting for the next one of its kind. -/
theorem Sent.Means.waits {m : Sent} (hm : m.Means r) (hkeep : r.shouldKeepAlive = true)
    (hagree : Agree r p) (hstate : p.state = r.newMessage) : p.Waits m.start.isRequest := by
  obtain ⟨q, hheed, -, hfits⟩ := hm.headers
  have hkeeps := (heedAll_keeps m.fields hheed).1
  have hknows : r.type = ((HttpParser.init .both).begins m.start).type ∧
      r.statusCode = ((HttpParser.init .both).begins m.start).statusCode ∧
        r.method = ((HttpParser.init .both).begins m.start).method := by
    rw [hfits.keeps, hkeeps]
    exact ⟨rfl, rfl, rfl⟩
  obtain ⟨htype, hstatus, hmethod⟩ := hknows
  have hstart : p.state = p.startState := by
    rw [hstate, hagree]
    exact if_pos hkeep
  have hkind : p.type = if m.start.isRequest then .request else .response := by
    rw [hagree.type, htype]
    cases m.start <;> rfl
  refine ⟨.inr ⟨hstart, hkind⟩, ?_⟩
  rw [hagree]
  show if m.start.isRequest then r.statusCode = 0 else r.method = .delete
  rw [hstatus, hmethod]
  cases m.start <;> rfl

/-- Messages that may follow each other on a connection, where `nread` is `n` before the first: the
    trailers of one count with the head of the next. -/
def InTurn (request : Bool) : Nat → List Sent → Prop
  | _, [] => True
  | n, m :: ms =>
    m.start.isRequest = request ∧ n + m.head.length ≤ httpMaxHeaderSize ∧
      (∃ r, m.Means r ∧ (ms = [] ∨ r.shouldKeepAlive = true)) ∧ InTurn request m.content.leaves ms

/-- Whether messages may follow each other can be computed. -/
instance decidableInTurn (request : Bool) : ∀ (n : Nat) (ms : List Sent), Decidable (InTurn request n ms)
  | _, [] => isTrue trivial
  | n, m :: ms =>
    have := decidableInTurn request m.content.leaves ms
    decidable_of_iff (m.start.isRequest = request ∧ n + m.head.length ≤ httpMaxHeaderSize ∧
        (∃ r ∈ m.ends, ms = [] ∨ r.shouldKeepAlive = true) ∧ InTurn request m.content.leaves ms)
      (by simp only [InTurn, Sent.means_iff, Option.mem_def])

/-- **Messages in turn** are read to the last, each with its own callbacks. -/
theorem stream_runs {request : Bool} (ms : List Sent) (hwaits : p.Waits request)
    (hturn : InTurn request p.nread ms) :
    ∃ q, Runs p none (ms.flatMap Sent.text) (ms.flatMap Sent.events) q none := by
  induction ms generalizing p with
  | nil => exact ⟨p, .nil p none⟩
  | cons m ms ih =>
    obtain ⟨rfl, hroom, ⟨r, hm, hkeep⟩, hturn'⟩ := hturn
    obtain ⟨p', hruns, hagree, hstate, hleaves⟩ := message_runs hm hwaits hroom
    rcases hkeep with rfl | hkeep
    · exact ⟨p', hruns.append (.nil p' none)⟩
    · obtain ⟨q, hrest⟩ := ih (hm.waits hkeep hagree hstate) (by rw [hleaves]; exact hturn')
      exact ⟨q, hruns.append hrest⟩

end Pixie.Engine
