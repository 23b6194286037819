/-
  Runs of the tunnel: what is sent against what was received.

  `Faithful rfd wfd tr` says that the bytes sent to `wfd` are a prefix of the bytes received from
  `rfd`.  A turn keeps it at all its points when it begins before the block of either direction has
  been filled for the first time (`iterate_faithful`), that is while fewer than `buffer_size - 1`
  bytes have been received in it (`Early`).  From then on the producer stores over bytes that may
  never have been sent, and the consumer, which cannot wrap, sends the new ones in their place.

  The steps:
    * one call of `sm_execute` keeps its own direction faithful when it is early
      (`smExecute_faithful`), and the other direction always (`smExecute_faithful_other`);
    * one turn runs both machines (`runPair_cases`) and keeps `Inv`, the two directions being sound
      (`runPair_inv`, `iterate_inv`);
    * a run is built turn by turn at its end (`twcRun_snoc`), so both facts carry over to runs by
      induction on the turns (`twcRun_inv`, `faithful_of_early`).
-/
import Pixie.Twc.Machine
import Pixie.Lib.Run

namespace Pixie.Twc

open Pixie.Decimal Pixie.Net Pixie.Run

/-! ## Faithful traces -/

/-- What was sent to `wfd` is a prefix of what was received from `rfd`. -/
def Faithful (rfd wfd : Fd) (tr : List Event) : Prop :=
  sentTo wfd tr <+: (receivedFrom rfd tr).map some

variable {size : Nat} {rfd wfd : Fd}

/-- The events of the other machine keep a direction faithful. -/
theorem always_faithful_append {tr es : List Event} (hne : rfd ≠ wfd)
    (h : Always (Faithful rfd wfd) tr) (hes : ∀ e ∈ es, e.Of wfd rfd) :
    Always (Faithful rfd wfd) (tr ++ es) := by
  induction es using List.reverseRecOn with
  | nil => rwa [List.append_nil]
  | append_singleton es e ih =>
    have hall := ih fun e' he' => hes e' (List.mem_append_left _ he')
    rw [← List.append_assoc]
    apply hall.snoc
    show sentTo wfd (tr ++ es ++ [e]) <+: (receivedFrom rfd (tr ++ es ++ [e])).map some
    have hof : ∀ e' ∈ [e], e'.Of wfd rfd := by
      intro e' he'
      exact hes e' (List.mem_append_right _ he')
    rw [sentTo_append_of (Ne.symm hne) _ _ hof, receivedFrom_append_of (Ne.symm hne) _ _ hof]
    exact hall.last

/-- The events of one call belong to the machine. -/
theorem of_call {ws rs : List Event} {P : List (Option UInt8) → Int → Prop}
    (hws : ws = [] ∨ ∃ offered ret, ws = [.write wfd offered ret] ∧ P offered ret)
    (hrs : rs = [] ∨ ∃ r, rs = [.read rfd r]) : ∀ e ∈ ws ++ rs, e.Of rfd wfd := by
  intro e he
  rcases List.mem_append.mp he with he | he
  · rcases hws with rfl | ⟨offered, ret, rfl, -⟩
    · cases he
    · rw [List.mem_singleton.mp he]
      rfl
  · rcases hrs with rfl | ⟨r, rfl⟩
    · cases he
    · rw [List.mem_singleton.mp he]
      rfl

/-- **One call keeps its own direction faithful, when it is early.** -/
theorem smExecute_faithful (w : Wire) (hne : rfd ≠ wfd) {x : Exec}
    (h : Sound size rfd wfd x.sm x.trace) (hearly : Below size (receivedFrom rfd x.trace).length)
    (hall : Always (Faithful rfd wfd) x.trace) :
    Always (Faithful rfd wfd) (traceOf (smExecute w x)) := by
  obtain ⟨ws, rs, htrace, hws, hrs, ⟨sm, hsm⟩, -⟩ := smExecute_sound w hne h
  rw [htrace]
  have hafter : Always (Faithful rfd wfd) (x.trace ++ ws) := by
    rcases hws with rfl | ⟨offered, ret, rfl, hret⟩
    · rwa [List.append_nil]
    · apply hall.snoc
      have hrecv : receivedFrom rfd (x.trace ++ [.write wfd offered ret]) =
          receivedFrom rfd x.trace := by
        rw [receivedFrom_snoc]
        exact List.append_nil _
      exact (hsm.early (by rw [hrecv]; exact hearly)).2.2
  rcases hrs with rfl | ⟨r, rfl⟩
  · rwa [List.append_nil]
  · apply hafter.snoc
    show sentTo wfd _ <+: _
    rw [sentTo_snoc, receivedFrom_snoc, List.map_append]
    show sentTo wfd _ ++ [] <+: _
    rw [List.append_nil]
    exact hafter.last.trans (List.prefix_append ..)

/-- One call keeps the other direction faithful. -/
theorem smExecute_faithful_other (w : Wire) (hne : rfd ≠ wfd) {x : Exec}
    (h : Sound size rfd wfd x.sm x.trace) (hall : Always (Faithful wfd rfd) x.trace) :
    Always (Faithful wfd rfd) (traceOf (smExecute w x)) := by
  obtain ⟨ws, rs, htrace, hws, hrs, -, -⟩ := smExecute_sound w hne h
  rw [htrace, List.append_assoc]
  exact always_faithful_append (Ne.symm hne) hall (of_call hws hrs)

/-! ## Both machines -/

variable {A B : Fd}

/-- Both directions are sound. -/
structure Inv (size : Nat) (A B : Fd) (s : Loop) : Prop where
  a2b : Sound size A B s.twc.smA2B s.trace
  b2a : Sound size B A s.twc.smB2A s.trace

/-- The arguments of the two calls of `sm_execute`. -/
def execA2B (s : Loop) : Exec := ⟨s.twc.smA2B, s.sets, s.statusA2B, s.trace⟩

def execB2A (s : Loop) (x : Exec) : Exec := ⟨s.twc.smB2A, x.sets, s.statusB2A, x.trace⟩

/-- The trace that the two calls leave. -/
def pairTrace : Except (List Event) Loop → List Event
  | .error tr => tr
  | .ok s => s.trace

/-- **The two calls**, one after the other. -/
theorem runPair_cases (w : Wire) (s : Loop) :
    (∃ tr, smExecute w (execA2B s) = .error tr ∧ runPair w s = .error tr) ∨
    ∃ x, smExecute w (execA2B s) = .ok x ∧
      ((∃ tr, smExecute w (execB2A s x) = .error tr ∧ runPair w s = .error tr) ∨
       ∃ y, smExecute w (execB2A s x) = .ok y ∧ runPair w s =
        .ok ⟨{ s.twc with smA2B := x.sm, smB2A := y.sm }, y.sets, x.status, y.status, y.trace⟩) := by
  unfold runPair
  cases hx : smExecute w (execA2B s) with
  | error tr =>
    refine Or.inl ⟨tr, rfl, ?_⟩
    unfold execA2B at hx
    simp only [hx]
  | ok x =>
    refine Or.inr ⟨x, rfl, ?_⟩
    unfold execA2B at hx
    cases hy : smExecute w (execB2A s x) with
    | error tr =>
      refine Or.inl ⟨tr, rfl, ?_⟩
      unfold execB2A at hy
      simp only [hx, hy]
    | ok y =>
      refine Or.inr ⟨y, rfl, ?_⟩
      unfold execB2A at hy
      simp only [hx, hy]

/-- A turn that returns has made both calls. -/
theorem runPair_ok {w : Wire} {s s' : Loop} :
    runPair w s = .ok s' ↔ ∃ x y, smExecute w (execA2B s) = .ok x ∧
      smExecute w (execB2A s x) = .ok y ∧
      s' = ⟨{ s.twc with smA2B := x.sm, smB2A := y.sm }, y.sets, x.status, y.status, y.trace⟩ := by
  rcases runPair_cases w s with ⟨tr, hx, herr⟩ | ⟨x, hx, ⟨tr, hy, herr⟩ | ⟨y, hy, hpair⟩⟩
  · rw [herr, hx]
    refine ⟨nofun, ?_⟩
    rintro ⟨_, _, hx', -⟩
    cases hx'
  · rw [herr, hx]
    refine ⟨nofun, ?_⟩
    rintro ⟨_, _, hx', hy', -⟩
    obtain rfl := Except.ok.inj hx'
    rw [hy] at hy'
    cases hy'
  · rw [hpair, hx]
    constructor
    · intro hok
      exact ⟨x, y, rfl, hy, (Except.ok.inj hok).symm⟩
    · rintro ⟨_, _, hx', hy', rfl⟩
      obtain rfl := Except.ok.inj hx'
      obtain rfl := Except.ok.inj (hy.symm.trans hy')
      rfl

/-- What the first call does. -/
theorem Inv.first {w : Wire} (hne : A ≠ B) {s : Loop} (h : Inv size A B s) {x : Exec}
    (hx : smExecute w (execA2B s) = .ok x) : Advances size A B w (execA2B s) x :=
  smExecute_advances (x := execA2B s) hne h.a2b hx

/-- After the first call the second direction is still sound. -/
theorem Inv.second {w : Wire} (hne : A ≠ B) {s : Loop} (h : Inv size A B s) {x : Exec}
    (hx : smExecute w (execA2B s) = .ok x) : Sound size B A (execB2A s x).sm (execB2A s x).trace := by
  obtain ⟨ws, rs, htrace, hws, hrs, -, -⟩ := smExecute_sound (x := execA2B s) w hne h.a2b
  rw [hx] at htrace
  show Sound size B A s.twc.smB2A x.trace
  rw [show x.trace = _ from htrace, List.append_assoc]
  exact h.b2a.frame (Ne.symm hne) (of_call hws hrs)

/-- What the first call leaves of the sets is the same to the second. -/
theorem Inv.second_taken {w : Wire} (hne : A ≠ B) {s : Loop} (h : Inv size A B s) {x : Exec}
    (hx : smExecute w (execA2B s) = .ok x) :
    writeTaken w s.twc.smB2A x.sets = writeTaken w s.twc.smB2A s.sets ∧
    readTaken w s.twc.smB2A x.sets = readTaken w s.twc.smB2A s.sets := by
  have hx := h.first hne hx
  constructor
  · unfold writeTaken
    rw [h.b2a.writeFd]
    exact if_congr hx.writeFds rfl rfl
  · unfold readTaken
    rw [h.b2a.readFd]
    exact if_congr hx.readFds rfl rfl

/-- **One turn of both machines**: the invariant is kept, and each direction has sent and received
    what its two calls took and delivered. -/
theorem runPair_inv {w : Wire} (hne : A ≠ B) {s s' : Loop} (h : Inv size A B s)
    (hok : runPair w s = .ok s') :
    Inv size A B s' ∧
    (sentTo B s'.trace).length = (sentTo B s.trace).length + writeTaken w s.twc.smA2B s.sets ∧
    receivedFrom A s'.trace = receivedFrom A s.trace ++ readTaken w s.twc.smA2B s.sets ∧
    (sentTo A s'.trace).length = (sentTo A s.trace).length + writeTaken w s.twc.smB2A s.sets ∧
    receivedFrom B s'.trace = receivedFrom B s.trace ++ readTaken w s.twc.smB2A s.sets := by
  obtain ⟨x, y, hx, hy, rfl⟩ := runPair_ok.mp hok
  have hsecond := h.second hne hx
  obtain ⟨hwt, hrt⟩ := h.second_taken hne hx
  obtain ⟨ws, rs, htx, hws, hrs, -, hadvx⟩ := smExecute_sound (x := execA2B s) w hne h.a2b
  obtain ⟨ws', rs', hty, hws', hrs', -, hadvy⟩ := smExecute_sound w (Ne.symm hne) hsecond
  have hax := hadvx x hx
  have hay := hadvy y hy
  have hof := of_call hws hrs
  have hof' := of_call hws' hrs'
  rw [hx, List.append_assoc] at htx
  rw [hy, List.append_assoc] at hty
  have htx : x.trace = s.trace ++ (ws ++ rs) := htx
  have hty : y.trace = x.trace ++ (ws' ++ rs') := hty
  refine ⟨⟨?_, hay.sound⟩, ?_, ?_, ?_, ?_⟩
  · show Sound size A B x.sm y.trace
    rw [hty]
    exact hax.sound.frame hne hof'
  · show (sentTo B y.trace).length = _
    rw [hty, sentTo_append_of (Ne.symm hne) _ _ hof']
    exact hax.sent
  · show receivedFrom A y.trace = _
    rw [hty, receivedFrom_append_of (Ne.symm hne) _ _ hof']
    exact hax.received
  · rw [← hwt]
    show (sentTo A y.trace).length = _
    rw [hay.sent]
    show (sentTo A x.trace).length + _ = _
    rw [htx, sentTo_append_of hne _ _ hof]
    rfl
  · rw [← hrt]
    show receivedFrom B y.trace = _
    rw [hay.received]
    show receivedFrom B x.trace ++ _ = _
    rw [htx, receivedFrom_append_of hne _ _ hof]
    rfl

/-- Both directions are faithful. -/
def BothFaithful (A B : Fd) (tr : List Event) : Prop := Faithful A B tr ∧ Faithful B A tr

theorem always_both {tr : List Event} :
    Always (BothFaithful A B) tr ↔ Always (Faithful A B) tr ∧ Always (Faithful B A) tr :=
  ⟨fun h => ⟨h.mono fun _ => And.left, h.mono fun _ => And.right⟩,
    fun h t ht => ⟨h.1 t ht, h.2 t ht⟩⟩

/-- Neither direction has received enough to bring its producer to the last index. -/
structure Early (size : Nat) (A B : Fd) (s : Loop) : Prop where
  a2b : Below size (receivedFrom A s.trace).length
  b2a : Below size (receivedFrom B s.trace).length

/-- One turn of both machines, begun early, is faithful at all its points. -/
theorem runPair_faithful {w : Wire} (hne : A ≠ B) {s : Loop} (h : Inv size A B s)
    (hearly : Early size A B s) (hall : Always (BothFaithful A B) s.trace) :
    Always (BothFaithful A B) (pairTrace (runPair w s)) := by
  obtain ⟨hallA, hallB⟩ := always_both.mp hall
  have hA' := smExecute_faithful (x := execA2B s) w hne h.a2b hearly.a2b hallA
  have hB' := smExecute_faithful_other (x := execA2B s) w hne h.a2b hallB
  rcases runPair_cases w s with ⟨tr, hx, hpair⟩ | ⟨x, hx, hsnd⟩
  · rw [hpair]
    rw [hx] at hA' hB'
    exact always_both.mpr ⟨hA', hB'⟩
  · rw [hx] at hA' hB'
    have hsecond := h.second hne hx
    -- the first call has received nothing from `B`
    have hearlyB : Below size (receivedFrom B (execB2A s x).trace).length := by
      obtain ⟨ws, rs, htx, hws, hrs, -, -⟩ := smExecute_sound (x := execA2B s) w hne h.a2b
      rw [hx, List.append_assoc] at htx
      show Below size (receivedFrom B x.trace).length
      rw [show x.trace = s.trace ++ (ws ++ rs) from htx,
        receivedFrom_append_of hne _ _ (of_call hws hrs)]
      exact hearly.b2a
    have hAy := smExecute_faithful_other w (Ne.symm hne) hsecond hA'
    have hBy := smExecute_faithful w (Ne.symm hne) hsecond hearlyB hB'
    rcases hsnd with ⟨tr, hy, hpair⟩ | ⟨y, hy, hpair⟩
    · rw [hpair]
      rw [hy] at hAy hBy
      exact always_both.mpr ⟨hAy, hBy⟩
    · rw [hpair]
      rw [hy] at hAy hBy
      exact always_both.mpr ⟨hAy, hBy⟩

/-! ## Runs -/

/-- A run of one more turn. -/
theorem twcLoop_snoc (s : Loop) (ts : List Turn) (t : Turn) :
    twcLoop s (ts ++ [t]) =
      match twcLoop s ts with
      | .running s' => iterate s' t
      | .returned status s' => .returned status s'
      | .aborted tr => .aborted tr := by
  induction ts generalizing s with
  | nil =>
    show (match iterate s t with
      | .running s' => twcLoop s' []
      | .returned status s' => .returned status s'
      | .aborted tr => .aborted tr) = iterate s t
    cases iterate s t with
    | running s' => rfl
    | returned status s' => rfl
    | aborted tr => rfl
  | cons u ts ih =>
    rw [List.cons_append, twcLoop, twcLoop]
    cases iterate s u with
    | running s' => exact ih s'
    | returned status s' => rfl
    | aborted tr => rfl

theorem twcRun_snoc (twc : TwoWayChannel) (ts : List Turn) (t : Turn) :
    twcRun twc (ts ++ [t]) =
      match twcRun twc ts with
      | .running s => iterate s t
      | .returned status s => .returned status s
      | .aborted tr => .aborted tr := by
  unfold twcRun
  cases runPair ⟨fun _ => none, fun _ => none⟩ (twcStart twc) with
  | error tr => rfl
  | ok s => exact twcLoop_snoc s ts t

/-- A run goes on after its last turn if it came to that turn and goes on after it. -/
theorem twcRun_snoc_running {twc : TwoWayChannel} {ts : List Turn} {t : Turn} {s' : Loop} :
    twcRun twc (ts ++ [t]) = .running s' ↔
      ∃ s, twcRun twc ts = .running s ∧ iterate s t = .running s' := by
  rw [twcRun_snoc]
  cases twcRun twc ts with
  | running s => simp
  | returned status s => simp
  | aborted tr => simp

/-- What holds at the start of a run and is kept by every turn holds as long as the run goes on. -/
theorem twcRun_keeps {twc : TwoWayChannel} {I : Loop → Prop}
    (hstart : ∀ s, twcRun twc [] = .running s → I s)
    (hstep : ∀ s t s', I s → iterate s t = .running s' → I s') {ts : List Turn} :
    ∀ {s}, twcRun twc ts = .running s → I s := by
  induction ts using List.reverseRecOn with
  | nil => exact fun {s} => hstart s
  | append_singleton ts t ih =>
    intro s' hs'
    obtain ⟨s, hs, hrun⟩ := twcRun_snoc_running.mp hs'
    exact hstep s t s' (ih hs) hrun

/-- **The start of a run**: with empty sets both calls only fill them. -/
theorem twcRun_start (hsize : 2 ≤ size) (hne : A ≠ B) :
    ∃ s, twcRun (twcInit A B size) [] = .running s ∧
      runPair ⟨fun _ => none, fun _ => none⟩ (twcStart (twcInit A B size)) = .ok s ∧
      Inv size A B s ∧ s.statusA2B = smOk ∧ s.statusB2A = smOk ∧ s.trace = [] := by
  set s₀ := twcStart (twcInit A B size) with hs₀
  have hinv : Inv size A B s₀ := ⟨sound_init hsize, sound_init hsize⟩
  let w : Wire := ⟨fun _ => none, fun _ => none⟩
  have hx : smExecute w (execA2B s₀) = .ok (rebuildSets (execA2B s₀)) :=
    smExecute_idle w (Finset.notMem_empty _) (Finset.notMem_empty _)
  have hax := hinv.first hne hx
  have hy : smExecute w (execB2A s₀ (rebuildSets (execA2B s₀))) =
      .ok (rebuildSets (execB2A s₀ (rebuildSets (execA2B s₀)))) :=
    smExecute_idle w (fun hc => Finset.notMem_empty _ (hax.writeFds.mp hc))
      (fun hc => Finset.notMem_empty _ (hax.readFds.mp hc))
  have hpair := runPair_ok.mpr ⟨_, _, hx, hy, rfl⟩
  refine ⟨_, ?_, hpair, (runPair_inv hne hinv hpair).1, rebuildSets_status _,
    rebuildSets_status _, ?_⟩
  · unfold twcRun
    rw [show runPair ⟨fun _ => none, fun _ => none⟩ (twcStart (twcInit A B size)) = _ from hpair]
    rfl
  · show (rebuildSets (execB2A s₀ (rebuildSets (execA2B s₀)))).trace = []
    rw [rebuildSets_trace]
    show (rebuildSets (execA2B s₀)).trace = []
    rw [rebuildSets_trace]
    rfl

theorem twcRun_nil (hsize : 2 ≤ size) (hne : A ≠ B) :
    ∃ s, twcRun (twcInit A B size) [] = .running s ∧ Inv size A B s ∧ s.trace = [] := by
  obtain ⟨s, hrun, -, hinv, -, -, htr⟩ := twcRun_start hsize hne
  exact ⟨s, hrun, hinv, htr⟩

/-- `select` fails: the loop goes round again on `EINTR`, and returns on any other error. -/
theorem iterate_fails {s : Loop} {t : Turn} {e : Int} (hsel : t.select = .fails e) :
    iterate s t = if e = EINTR then .running s
      else .returned smIoerr { s with twc := { s.twc with errorno := e } } := by
  rw [iterate, hsel]

section Ready

variable {s : Loop} {t : Turn} {readable writable : Finset Fd}

/-- Nothing is ready: the time-out. -/
theorem iterate_timeout (hsel : t.select = .ready readable writable)
    (hcard : ¬ (s.sets.select readable writable).readFds.card +
      (s.sets.select readable writable).writeFds.card > 0) :
    iterate s t = .returned smTo { s with sets := s.sets.select readable writable } := by
  rw [iterate, hsel]
  exact if_neg hcard

/-- A call on the ready descriptors fails an assertion. -/
theorem iterate_aborted (hsel : t.select = .ready readable writable)
    (hcard : (s.sets.select readable writable).readFds.card +
      (s.sets.select readable writable).writeFds.card > 0) {tr : List Event}
    (hpair : runPair t.wire { s with sets := s.sets.select readable writable } = .error tr) :
    iterate s t = .aborted tr := by
  rw [iterate, hsel]
  dsimp only
  rw [if_pos hcard, hpair]

/-- Both calls come to their end: the statuses they leave decide. -/
theorem iterate_called (hsel : t.select = .ready readable writable)
    (hcard : (s.sets.select readable writable).readFds.card +
      (s.sets.select readable writable).writeFds.card > 0) {s' : Loop}
    (hpair : runPair t.wire { s with sets := s.sets.select readable writable } = .ok s') :
    iterate s t = if s'.statusA2B ≠ smOk then .returned s'.statusA2B s'
      else if s'.statusB2A ≠ smOk then .returned s'.statusB2A s' else .running s' := by
  rw [iterate, hsel]
  dsimp only
  rw [if_pos hcard, hpair]

end Ready

/-- **What a turn does**: nothing, an end without I/O, or the two calls on the ready descriptors,
    and then an end, a return or another turn. -/
theorem iterate_cases (s : Loop) (t : Turn) :
    (∃ e, t.select = .fails e ∧
      (iterate s t = .running s ∨
       iterate s t = .returned smIoerr { s with twc := { s.twc with errorno := e } })) ∨
    ∃ readable writable, t.select = .ready readable writable ∧
      (iterate s t = .returned smTo { s with sets := s.sets.select readable writable } ∨
       (∃ tr, runPair t.wire { s with sets := s.sets.select readable writable } = .error tr ∧
          iterate s t = .aborted tr) ∨
       ∃ s', runPair t.wire { s with sets := s.sets.select readable writable } = .ok s' ∧
          ((∃ status, iterate s t = .returned status s') ∨ iterate s t = .running s')) := by
  cases hsel : t.select with
  | fails e =>
    refine Or.inl ⟨e, rfl, ?_⟩
    rw [iterate_fails hsel]
    split
    · exact Or.inl rfl
    · exact Or.inr rfl
  | ready readable writable =>
    refine Or.inr ⟨readable, writable, rfl, ?_⟩
    by_cases hcard : (s.sets.select readable writable).readFds.card +
        (s.sets.select readable writable).writeFds.card > 0
    · cases hpair : runPair t.wire { s with sets := s.sets.select readable writable } with
      | error tr => exact Or.inr (Or.inl ⟨tr, rfl, iterate_aborted hsel hcard hpair⟩)
      | ok s' =>
        refine Or.inr (Or.inr ⟨s', rfl, ?_⟩)
        rw [iterate_called hsel hcard hpair]
        split
        · exact Or.inl ⟨_, rfl⟩
        · split
          · exact Or.inl ⟨_, rfl⟩
          · exact Or.inr rfl
    · exact Or.inl (iterate_timeout hsel hcard)

/-- A turn after which the loop goes on was a retry, or two calls that left zero statuses. -/
theorem iterate_running {s s' : Loop} {t : Turn} (hrun : iterate s t = .running s') :
    (∃ e, t.select = .fails e ∧ s' = s) ∨
    ∃ readable writable, t.select = .ready readable writable ∧
      runPair t.wire { s with sets := s.sets.select readable writable } = .ok s' ∧
      s'.statusA2B = smOk ∧ s'.statusB2A = smOk := by
  cases hsel : t.select with
  | fails e =>
    rw [iterate_fails hsel] at hrun
    split at hrun
    · exact Or.inl ⟨e, rfl, (Outcome.running.inj hrun).symm⟩
    · cases hrun
  | ready readable writable =>
    refine Or.inr ⟨readable, writable, rfl, ?_⟩
    by_cases hcard : (s.sets.select readable writable).readFds.card +
        (s.sets.select readable writable).writeFds.card > 0
    · cases hpair : runPair t.wire { s with sets := s.sets.select readable writable } with
      | error tr =>
        rw [iterate_aborted hsel hcard hpair] at hrun
        cases hrun
      | ok s₁ =>
        rw [iterate_called hsel hcard hpair] at hrun
        split at hrun
        · cases hrun
        · split at hrun
          · cases hrun
          · rename_i hA hB
            obtain rfl := Outcome.running.inj hrun
            exact ⟨rfl, not_not.mp hA, not_not.mp hB⟩
    · rw [iterate_timeout hsel hcard] at hrun
      cases hrun

/-- Changing the sets keeps the directions sound. -/
theorem Inv.select {s : Loop} (h : Inv size A B s) (sets : FdSets) :
    Inv size A B { s with sets := sets } := ⟨h.a2b, h.b2a⟩

/-- **The invariant of a run.** -/
theorem iterate_inv (hne : A ≠ B) {s s' : Loop} {t : Turn} (h : Inv size A B s)
    (hrun : iterate s t = .running s') : Inv size A B s' := by
  rcases iterate_running hrun with ⟨e, -, rfl⟩ | ⟨readable, writable, -, hok, -⟩
  · exact h
  · exact (runPair_inv hne (h.select _) hok).1

/-- A run keeps the invariant up to every turn it comes to. -/
theorem twcRun_inv (hsize : 2 ≤ size) (hne : A ≠ B) {ts : List Turn} :
    ∀ {s}, twcRun (twcInit A B size) ts = .running s → Inv size A B s := by
  refine twcRun_keeps ?_ fun s t s' h hrun => iterate_inv hne h hrun
  intro s hs
  obtain ⟨s₁, hrun, hinv, -⟩ := twcRun_nil hsize hne
  obtain rfl := Outcome.running.inj (hrun.symm.trans hs)
  exact hinv

/-- The state that a run has come to, unless an assertion failed. -/
def Outcome.state : Outcome → Option Loop
  | running s => some s
  | returned _ s => some s
  | aborted _ => none

theorem iterate_state_inv (hne : A ≠ B) {s s' : Loop} {t : Turn} (h : Inv size A B s)
    (hs' : (iterate s t).state = some s') : Inv size A B s' := by
  rcases iterate_cases s t with ⟨e, -, heq | heq⟩ |
    ⟨readable, writable, -, heq | ⟨tr, -, heq⟩ | ⟨s₁, hok, ⟨status, heq⟩ | heq⟩⟩
  · rw [heq] at hs'
    obtain rfl := Option.some.inj hs'
    exact h
  · rw [heq] at hs'
    obtain rfl := Option.some.inj hs'
    exact ⟨h.a2b, h.b2a⟩
  · rw [heq] at hs'
    obtain rfl := Option.some.inj hs'
    exact h.select _
  · rw [heq] at hs'
    cases hs'
  · rw [heq] at hs'
    obtain rfl := Option.some.inj hs'
    exact (runPair_inv hne (h.select _) hok).1
  · rw [heq] at hs'
    obtain rfl := Option.some.inj hs'
    exact (runPair_inv hne (h.select _) hok).1

/-- Both directions are sound in every state that a run comes to, also the one it returns in. -/
theorem twcRun_state_inv (hsize : 2 ≤ size) (hne : A ≠ B) {ts : List Turn} :
    ∀ {s}, (twcRun (twcInit A B size) ts).state = some s → Inv size A B s := by
  induction ts using List.reverseRecOn with
  | nil =>
    intro s hs
    obtain ⟨s₁, hrun, hinv, -⟩ := twcRun_nil hsize hne
    rw [hrun] at hs
    obtain rfl := Option.some.inj hs
    exact hinv
  | append_singleton ts t ih =>
    intro s hs
    rw [twcRun_snoc] at hs
    cases hbefore : twcRun (twcInit A B size) ts with
    | running s₁ =>
      rw [hbefore] at hs ih
      exact iterate_state_inv hne (ih rfl) hs
    | returned status s₁ =>
      rw [hbefore] at hs ih
      exact ih hs
    | aborted tr =>
      rw [hbefore] at hs
      cases hs

/-! ## Fidelity -/

/-- A turn that is begun early is faithful at all its points. -/
theorem iterate_faithful (hne : A ≠ B) {s : Loop} {t : Turn} (h : Inv size A B s)
    (hearly : Early size A B s) (hall : Always (BothFaithful A B) s.trace) :
    Always (BothFaithful A B) (iterate s t).trace := by
  rcases iterate_cases s t with ⟨e, -, heq | heq⟩ | ⟨readable, writable, hsel, hcalls⟩
  · rw [heq]
    exact hall
  · rw [heq]
    exact hall
  · have hpair := runPair_faithful (w := t.wire) hne (h.select (s.sets.select readable writable))
      ⟨hearly.a2b, hearly.b2a⟩ hall
    rcases hcalls with heq | ⟨tr, herr, heq⟩ | ⟨s', hok, ⟨status, heq⟩ | heq⟩
    · rw [heq]
      exact hall
    · rw [heq]
      rw [herr] at hpair
      exact hpair
    · rw [heq]
      rw [hok] at hpair
      exact hpair
    · rw [heq]
      rw [hok] at hpair
      exact hpair

/-- **Fidelity of a run** whose turns are all begun early, also of one that returns or fails an
    assertion. -/
theorem faithful_of_early (hsize : 2 ≤ size) (hne : A ≠ B) {ts : List Turn}
    (hearly : ∀ pre t post s, ts = pre ++ t :: post →
      twcRun (twcInit A B size) pre = .running s → Early size A B s) :
    Always (BothFaithful A B) (twcRun (twcInit A B size) ts).trace := by
  -- induction on the turns, the last one split off
  induction ts using List.reverseRecOn with
  | nil =>
    obtain ⟨s, hrun, -, htr⟩ := twcRun_nil hsize hne
    rw [hrun]
    show Always _ s.trace
    rw [htr]
    exact always_nil ⟨List.prefix_rfl, List.prefix_rfl⟩
  | append_singleton ts t ih =>
    have hbefore := ih fun pre u post s hts hs =>
      hearly pre u (post ++ [t]) s (by rw [hts]; simp) hs
    rw [twcRun_snoc]
    cases hrun : twcRun (twcInit A B size) ts with
    | running s =>
      rw [hrun] at hbefore
      exact iterate_faithful hne (twcRun_inv hsize hne hrun) (hearly ts t [] s rfl hrun) hbefore
    | returned status s =>
      rw [hrun] at hbefore
      exact hbefore
    | aborted tr =>
      rw [hrun] at hbefore
      exact hbefore

/-- Turns in which one descriptor is ready. -/
def readTurn (fd : Fd) (bs : Bytes) : Turn :=
  ⟨.ready {fd} ∅, fun _ => none, fun f => if f = fd then some bs else none⟩

def writeTurn (fd : Fd) (n : Nat) : Turn :=
  ⟨.ready ∅ {fd}, fun f => if f = fd then some n else none, fun _ => none⟩

end Pixie.Twc
