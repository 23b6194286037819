/-
  Where a tunnel reads and writes memory.

  `read` stores into the block of a direction and `write` takes bytes out of it.  The ACCESSES of a
  run are these two kinds of event with the offsets and counts the machine used, in the order in
  which they happen (`runAccesses`); the direction they belong to is named by the descriptor it
  reads.

  `Within size before a` says that an access is what it should be, given the accesses before it:
    * a store has room for all it may bring, up to the end of the block and not beyond;
    * a load takes its bytes from the first `size - 1` cells, gets as many as it asked for, and each
      of them is the byte most recently stored at its offset IN THE SAME DIRECTION — so none was
      never written, and none is of the other direction.

  `Held` is the invariant: the block of a direction is what its own stores have made of it, and no
  cell below the producer is empty.  The producer may be anywhere and may have been reset any number
  of times; what was stored in earlier laps stays in the log and in the block.

  The pointers are followed further than the accesses: between the turns, and before, in the middle
  and at the end of every call that is made (`RunCall`), also in a turn whose other call aborts.
-/
import Pixie.Twc.Failures
import Pixie.Lib.Cells

namespace Pixie.Twc

open Pixie.Decimal Pixie.Net Pixie.Cells Pixie.Run

/-! ## Accesses -/

/-- An access to the block of the direction that reads `rfd`: a `write` of `count` bytes from `offset`
    on, with the bytes it is given, or a `read` with `room` from `offset` on, with the bytes it
    brings. -/
inductive Access
  | load (rfd : Fd) (offset count : Nat) (bytes : List (Option UInt8))
  | store (rfd : Fd) (offset room : Nat) (bytes : Bytes)
deriving DecidableEq, Repr

/-- The access behind an event of a call.  The write comes first and moves the consumer only, so both
    pointers are the ones before the call. -/
def access (sm : StateMachine) : Event → Access
  | .write _ offered _ =>
      .load sm.readFd sm.cbuffer.writePtr (cbWriteAvailable sm.cbuffer).toNat offered
  | .read _ result =>
      .store sm.readFd sm.cbuffer.readPtr (cbReadAvailable sm.cbuffer).toNat (result.getD [])

/-- The accesses of a call of `sm_execute`. -/
def callAccesses (w : Wire) (x : Exec) : List Access :=
  ((traceOf (smExecute w x)).drop x.trace.length).map (access x.sm)

/-- The accesses of the two calls of a turn. -/
def turnAccesses (w : Wire) (s : Loop) : List Access :=
  callAccesses w (execA2B s) ++
    match smExecute w (execA2B s) with
    | .error _ => []
    | .ok x => callAccesses w (execB2A s x)

/-- The accesses of one iteration of the loop. -/
def iterateAccesses (s : Loop) (t : Turn) : List Access :=
  match t.select with
  | .fails _ => []
  | .ready readable writable =>
      let sets := s.sets.select readable writable
      if sets.readFds.card + sets.writeFds.card > 0 then turnAccesses t.wire { s with sets := sets }
      else []

/-- The accesses of the loop, over the turns it meets. -/
def loopAccesses (s : Loop) : List Turn → List Access
  | [] => []
  | t :: ts => iterateAccesses s t ++
      match iterate s t with
      | .running s' => loopAccesses s' ts
      | .returned _ _ => []
      | .aborted _ => []

/-- The accesses of `twc_run`. -/
def runAccesses (twc : TwoWayChannel) (ts : List Turn) : List Access :=
  turnAccesses ⟨fun _ => none, fun _ => none⟩ (twcStart twc) ++
    match runPair ⟨fun _ => none, fun _ => none⟩ (twcStart twc) with
    | .error _ => []
    | .ok s => loopAccesses s ts

/-- The stores into the block of a direction. -/
def storesOf (rfd : Fd) (log : List Access) : List (Nat × Bytes) :=
  log.filterMap fun
    | .load _ _ _ _ => none
    | .store f offset _ bytes => if f = rfd then some (offset, bytes) else none

/-! ## The property -/

/-- An access keeps to its block, and a load is given what was last stored there. -/
def Within (size : Nat) (before : List Access) : Access → Prop
  | .load rfd offset count bytes =>
      offset + count < size ∧ bytes.length = count ∧
      ∀ i < count, ∃ b, bytes[i]? = some (some b) ∧
        latest (storesOf rfd before) (offset + i) = some b
  | .store _ offset room bytes => offset + room ≤ size ∧ bytes.length ≤ room

/-- All accesses of a log do. -/
def Contained (size : Nat) (log : List Access) : Prop :=
  ∀ before a after, log = before ++ a :: after → Within size before a

theorem contained_nil (size : Nat) : Contained size [] := each_nil _

theorem Contained.snoc {size : Nat} {log : List Access} {a : Access} (h : Contained size log)
    (ha : Within size log a) : Contained size (log ++ [a]) :=
  each_snoc.mpr ⟨h, ha⟩

theorem storesOf_append (rfd : Fd) (l l' : List Access) :
    storesOf rfd (l ++ l') = storesOf rfd l ++ storesOf rfd l' :=
  List.filterMap_append

@[simp] theorem storesOf_load (rfd f : Fd) (offset count : Nat) (bytes : List (Option UInt8)) :
    storesOf rfd [.load f offset count bytes] = [] := rfl

@[simp] theorem storesOf_store (rfd : Fd) (offset room : Nat) (bytes : Bytes) :
    storesOf rfd [.store rfd offset room bytes] = [(offset, bytes)] := by
  simp [storesOf]

/-! ## The invariant of a direction -/

/-- The block is what its stores have made of it, and it is filled below the producer. -/
structure Held (rfd : Fd) (cb : Cbuffer) (log : List Access) : Prop where
  agrees : Agrees cb.buffer (storesOf rfd log)
  filled : ∀ i < cb.readPtr, latest (storesOf rfd log) i ≠ none

variable {size : Nat} {rfd wfd A B : Fd} {w : Wire}

theorem held_init (rfd : Fd) (size : Nat) : Held rfd (cbInit size) [] := by
  constructor
  · unfold cbInit
    split
    · exact agrees_replicate _
    · exact agrees_replicate _
  · intro i hi
    rw [cbInit_readPtr] at hi
    exact absurd hi (Nat.not_lt_zero i)

/-- Accesses of the other direction leave a block as it is. -/
theorem Held.frame {cb : Cbuffer} {log es : List Access} (h : Held rfd cb log)
    (hes : storesOf rfd es = []) : Held rfd cb (log ++ es) := by
  have hlog : storesOf rfd (log ++ es) = storesOf rfd log := by
    rw [storesOf_append, hes, List.append_nil]
  exact ⟨hlog ▸ h.agrees, hlog ▸ h.filled⟩

/-- A load leaves the block as it is. -/
theorem Held.sent {sm : StateMachine} {log : List Access} (h : Held rfd sm.cbuffer log) (k : Nat) :
    Held rfd (sm.sent k).cbuffer log := ⟨h.agrees, h.filled⟩

/-- **A store** that stays below the end of the block. -/
theorem Held.stored {sm : StateMachine} {log : List Access} (h : Held rfd sm.cbuffer log)
    {bs : Bytes} {room : Nat} (hfit : sm.cbuffer.readPtr + bs.length ≤ sm.cbuffer.buffer.length) :
    Held rfd (sm.stored bs).cbuffer (log ++ [.store rfd sm.cbuffer.readPtr room bs]) := by
  have hlog : storesOf rfd (log ++ [.store rfd sm.cbuffer.readPtr room bs]) =
      storesOf rfd log ++ [(sm.cbuffer.readPtr, bs)] := by
    rw [storesOf_append, storesOf_store]
  constructor
  · rw [hlog]
    exact h.agrees.put hfit
  · rw [hlog]
    intro i hi
    -- after a reset nothing is below the producer; else `i` is below the old one or in the store
    have hlt : i < sm.cbuffer.readPtr + bs.length := by
      have hptr : (sm.stored bs).cbuffer.readPtr ≤ sm.cbuffer.readPtr + bs.length := by
        show (if _ then 0 else sm.cbuffer.readPtr + bs.length) ≤ _
        split
        · exact Nat.zero_le _
        · exact Nat.le_refl _
      omega
    rw [latest_snoc]
    rcases Nat.lt_or_ge i sm.cbuffer.readPtr with hlow | hlow
    · exact overlay_ne_none (h.filled i hlow)
    · obtain ⟨j, rfl⟩ := Nat.exists_eq_add_of_le hlow
      have hj : j < bs.length := by omega
      rw [overlay_inside hj, List.getElem?_eq_getElem hj]
      exact Option.some_ne_none _

/-- **What a load is given**: as many bytes as it asks for, each the latest stored at its offset. -/
theorem Held.load {sm : StateMachine} {tr : List Event} {log : List Access}
    (h : Held rfd sm.cbuffer log) (hs : Sound size rfd wfd sm tr)
    (hpos : 0 < cbWriteAvailable sm.cbuffer) :
    Within size log (.load rfd sm.cbuffer.writePtr (cbWriteAvailable sm.cbuffer).toNat
      (sm.cbuffer.window (cbWriteAvailable sm.cbuffer).toNat)) := by
  have havail : cbWriteAvailable sm.cbuffer = (sm.cbuffer.readPtr : Int) - sm.cbuffer.writePtr := rfl
  have hlen := hs.length
  have hsize := hs.bufferSize
  have hle := intOfSize_le size
  have hrd := hs.readPtr_lt hpos
  have hend : sm.cbuffer.writePtr + (cbWriteAvailable sm.cbuffer).toNat = sm.cbuffer.readPtr := by
    omega
  refine ⟨by omega, ?_, ?_⟩
  · simp only [Cbuffer.window, List.length_take, List.length_drop]
    omega
  · intro i hi
    have hbelow : sm.cbuffer.writePtr + i < sm.cbuffer.readPtr := by omega
    obtain ⟨b, hb⟩ := Option.ne_none_iff_exists'.mp (h.filled _ hbelow)
    refine ⟨b, ?_, hb⟩
    rw [Cbuffer.window, List.getElem?_take_of_lt hi, List.getElem?_drop,
      h.agrees _ (by omega), hb]

/-! ## One call -/

theorem WriteStep.trace {x y : Exec} (hstep : WriteStep w x y) :
    y.trace = x.trace ∨ (Writes x.sm x.sets ∧ y.trace = x.trace ++ [writeEvent w x.sm]) := by
  cases hstep with
  | idle _ => exact Or.inl rfl
  | failed hwrites _ => exact Or.inr ⟨hwrites, rfl⟩
  | took hwrites _ => exact Or.inr ⟨hwrites, rfl⟩

theorem ReadStep.trace {x : Exec} {r : Except (List Event) Exec} (hstep : ReadStep w x r) :
    (traceOf r = x.trace ∧ readTaken w x.sm x.sets = []) ∨
      (Reads x.sm x.sets ∧ traceOf r = x.trace ++ [.read x.sm.readFd (readResult w x.sm)]) := by
  cases hstep with
  | idle hnot => exact Or.inl ⟨rfl, readTaken_of_not_reads hnot⟩
  | failed hreads _ _ => exact Or.inr ⟨hreads, rfl⟩
  | stored hreads hres _ _ =>
    rw [hres]
    exact Or.inr ⟨hreads, rfl⟩
  | full hreads hres _ _ =>
    rw [hres]
    exact Or.inr ⟨hreads, rfl⟩

/-- The load of a call, if it makes one. -/
def loadOf (sm : StateMachine) : Access :=
  .load sm.readFd sm.cbuffer.writePtr (cbWriteAvailable sm.cbuffer).toNat
    (sm.cbuffer.window (cbWriteAvailable sm.cbuffer).toNat)

/-- The store of a call, if it makes one. -/
def storeOf (w : Wire) (sm : StateMachine) : Access :=
  .store sm.readFd sm.cbuffer.readPtr (cbReadAvailable sm.cbuffer).toNat
    ((readResult w sm).getD [])

/-- **The accesses of a call**: at most a load and a store. -/
theorem callAccesses_cases {x : Exec} (h : Sound size rfd wfd x.sm x.trace) :
    ∃ ls ss, callAccesses w x = ls ++ ss ∧
      (ls = [] ∨ (Writes x.sm x.sets ∧ ls = [loadOf x.sm])) ∧
      ((ss = [] ∧ readTaken w x.sm x.sets = []) ∨ (Reads x.sm x.sets ∧ ss = [storeOf w x.sm])) := by
  obtain ⟨y, hwrite, hcalls⟩ := smExecute_steps w h
  obtain ⟨hreads, hresult, htaken, -, -⟩ := hwrite.reading
  have hrf : y.sm.readFd = x.sm.readFd := by rw [hwrite.sm]; rfl
  -- both halves of the call, whichever way the second one goes
  obtain ⟨r, hread, htrace⟩ : ∃ r, ReadStep w y r ∧ traceOf (smExecute w x) = traceOf r := by
    rcases hcalls with ⟨tr, hread, heq⟩ | ⟨z, hread, heq⟩
    · exact ⟨_, hread, by rw [heq]⟩
    · exact ⟨_, hread, by rw [heq]; exact traceOf_rebuilt z⟩
  have hload : access x.sm (writeEvent w x.sm) = loadOf x.sm := rfl
  have hstore : access x.sm (.read x.sm.readFd (readResult w x.sm)) = storeOf w x.sm := rfl
  have hdrop : ∀ es, traceOf r = x.trace ++ es → callAccesses w x = es.map (access x.sm) := by
    intro es hes
    rw [callAccesses, htrace, hes, List.drop_left]
  rcases hwrite.trace with hw | ⟨hwrites, hw⟩
  · rcases hread.trace with ⟨hr, hnil⟩ | ⟨hrd, hr⟩
    · exact ⟨[], [], hdrop [] (by rw [hr, hw, List.append_nil]), Or.inl rfl,
        Or.inl ⟨rfl, htaken ▸ hnil⟩⟩
    · refine ⟨[], [storeOf w x.sm], ?_, Or.inl rfl, Or.inr ⟨hreads.mp hrd, rfl⟩⟩
      rw [hrf, hresult, hw] at hr
      rw [hdrop _ hr, ← hstore]
      rfl
  · rcases hread.trace with ⟨hr, hnil⟩ | ⟨hrd, hr⟩
    · refine ⟨[loadOf x.sm], [], ?_, Or.inr ⟨hwrites, rfl⟩, Or.inl ⟨rfl, htaken ▸ hnil⟩⟩
      rw [hw] at hr
      rw [hdrop _ hr, ← hload]
      rfl
    · refine ⟨[loadOf x.sm], [storeOf w x.sm], ?_, Or.inr ⟨hwrites, rfl⟩,
        Or.inr ⟨hreads.mp hrd, rfl⟩⟩
      rw [hrf, hresult, hw, List.append_assoc] at hr
      rw [hdrop _ hr, ← hload, ← hstore]
      rfl

/-- A store has room up to the end of the block. -/
theorem within_storeOf {sm : StateMachine} {tr : List Event} (h : Sound size rfd wfd sm tr)
    (log : List Access) : Within size log (storeOf w sm) := by
  have hsize := h.bufferSize
  have hle := intOfSize_le size
  have hptr := h.readPtr_le
  have havail := cbReadAvailable_eq sm.cbuffer
  refine ⟨by omega, ?_⟩
  cases hres : readResult w sm with
  | none => exact Nat.zero_le _
  | some bs => exact readResult_length_le hres

/-- **A call keeps to its block**, and leaves it what its stores have made of it. -/
theorem callAccesses_held {x : Exec} {log : List Access} (h : Sound size rfd wfd x.sm x.trace)
    (hheld : Held rfd x.sm.cbuffer log) (hlog : Contained size log) :
    Contained size (log ++ callAccesses w x) ∧
      ∀ u, smExecute w x = .ok u → Held rfd u.sm.cbuffer (log ++ callAccesses w x) := by
  obtain ⟨ls, ss, hcall, hls, hss⟩ := callAccesses_cases (w := w) h
  have hrfd := h.readFd
  -- after the load
  have hmid : Contained size (log ++ ls) ∧ Held rfd x.sm.cbuffer (log ++ ls) := by
    rcases hls with rfl | ⟨hwrites, rfl⟩
    · rw [List.append_nil]
      exact ⟨hlog, hheld⟩
    · have hload := hheld.load h hwrites.2
      rw [loadOf, hrfd]
      exact ⟨hlog.snoc hload, hheld.frame (storesOf_load _ _ _ _ _)⟩
  rw [hcall, ← List.append_assoc]
  have hcb : ∀ u, smExecute w x = .ok u → u.sm.cbuffer = _ := fun u hu => smExecute_cbuffer h hu
  rcases hss with ⟨rfl, hnil⟩ | ⟨hreads, rfl⟩
  · rw [List.append_nil]
    refine ⟨hmid.1, ?_⟩
    intro u hu
    rw [hcb u hu, hnil]
    have hsame : Held rfd (x.sm.stored []).cbuffer (log ++ ls) := by
      rw [h.stored_nil]
      exact hmid.2
    exact hsame.sent _
  · refine ⟨hmid.1.snoc (within_storeOf h _), ?_⟩
    intro u hu
    rw [hcb u hu, readTaken_of_reads hreads, storeOf, hrfd]
    have hroom := (within_storeOf (w := w) h (log ++ ls)).2
    have hend := (within_storeOf (w := w) h (log ++ ls)).1
    have hlen := h.length
    have hstored : Held rfd (x.sm.stored ((readResult w x.sm).getD [])).cbuffer
        (log ++ ls ++ [.store rfd x.sm.cbuffer.readPtr (cbReadAvailable x.sm.cbuffer).toNat
          ((readResult w x.sm).getD [])]) := hmid.2.stored (by omega)
    exact hstored.sent _

/-- The accesses of a call belong to its direction. -/
theorem storesOf_callAccesses {x : Exec} {f : Fd} (hne : x.sm.readFd ≠ f) :
    storesOf f (callAccesses w x) = [] := by
  refine List.filterMap_eq_nil_iff.mpr ?_
  intro a ha
  obtain ⟨e, -, rfl⟩ := List.mem_map.mp ha
  cases e with
  | write fd offered ret => rfl
  | read fd result => exact if_neg hne

/-! ## Turns and runs -/

/-- Both blocks are what their own stores have made of them. -/
structure HeldBoth (A B : Fd) (s : Loop) (log : List Access) : Prop where
  a2b : Held A s.twc.smA2B.cbuffer log
  b2a : Held B s.twc.smB2A.cbuffer log

/-- **A turn keeps to the two blocks.** -/
theorem turnAccesses_held (hne : A ≠ B) {s : Loop} {log : List Access} (h : Inv size A B s)
    (hheld : HeldBoth A B s log) (hlog : Contained size log) :
    Contained size (log ++ turnAccesses w s) ∧
      ∀ s', runPair w s = .ok s' → HeldBoth A B s' (log ++ turnAccesses w s) := by
  obtain ⟨hcont, hheldA⟩ := callAccesses_held (w := w) (x := execA2B s) h.a2b hheld.a2b hlog
  rcases runPair_cases w s with ⟨tr, hx, hpair⟩ | ⟨x, hx, hsnd⟩
  · rw [turnAccesses, hx, List.append_nil]
    refine ⟨hcont, ?_⟩
    intro s' hs'
    rw [hpair] at hs'
    cases hs'
  · have hsecond := h.second hne hx
    have hrfdA : (execA2B s).sm.readFd = A := h.a2b.readFd
    have hrfdB : (execB2A s x).sm.readFd = B := h.b2a.readFd
    have hotherB : storesOf B (callAccesses w (execA2B s)) = [] :=
      storesOf_callAccesses (by rw [hrfdA]; exact hne)
    have hotherA : storesOf A (callAccesses w (execB2A s x)) = [] :=
      storesOf_callAccesses (by rw [hrfdB]; exact Ne.symm hne)
    obtain ⟨hcont', hheldB⟩ :=
      callAccesses_held (w := w) (x := execB2A s x) hsecond (hheld.b2a.frame hotherB) hcont
    rw [turnAccesses, hx, ← List.append_assoc]
    refine ⟨hcont', ?_⟩
    intro s' hs'
    rcases hsnd with ⟨tr, -, hpair⟩ | ⟨y, hy, hpair⟩
    · rw [hpair] at hs'
      cases hs'
    · obtain rfl := Except.ok.inj (hpair.symm.trans hs')
      exact ⟨(hheldA x hx).frame hotherA, hheldB y hy⟩

/-- One iteration keeps to the two blocks. -/
theorem iterateAccesses_held (hne : A ≠ B) {s : Loop} {t : Turn} {log : List Access}
    (h : Inv size A B s) (hheld : HeldBoth A B s log) (hlog : Contained size log) :
    Contained size (log ++ iterateAccesses s t) ∧
      ∀ s', iterate s t = .running s' → HeldBoth A B s' (log ++ iterateAccesses s t) := by
  unfold iterateAccesses
  cases hsel : t.select with
  | fails e =>
    dsimp only
    rw [List.append_nil]
    refine ⟨hlog, ?_⟩
    intro s' hs'
    rcases iterate_running hs' with ⟨e', -, rfl⟩ | ⟨readable, writable, hready, -⟩
    · exact hheld
    · rw [hsel] at hready
      cases hready
  | ready readable writable =>
    dsimp only
    have hsets := h.select (s.sets.select readable writable)
    have hturn := turnAccesses_held (w := t.wire) hne hsets
      ⟨hheld.a2b, hheld.b2a⟩ hlog
    split
    · refine ⟨hturn.1, ?_⟩
      intro s' hs'
      rcases iterate_running hs' with ⟨e', hfails, -⟩ | ⟨readable', writable', hready, hpair, -, -⟩
      · rw [hsel] at hfails
        cases hfails
      · obtain ⟨rfl, rfl⟩ := SelectOutcome.ready.inj (hsel.symm.trans hready)
        exact hturn.2 s' hpair
    · rename_i hcard
      rw [List.append_nil]
      refine ⟨hlog, ?_⟩
      intro s' hs'
      rw [iterate_timeout hsel hcard] at hs'
      cases hs'

theorem loopAccesses_snoc (s : Loop) (ts : List Turn) (t : Turn) :
    loopAccesses s (ts ++ [t]) = loopAccesses s ts ++
      match twcLoop s ts with
      | .running s' => iterateAccesses s' t
      | .returned _ _ => []
      | .aborted _ => [] := by
  induction ts generalizing s with
  | nil =>
    rw [List.nil_append, loopAccesses, loopAccesses, twcLoop, List.nil_append]
    cases iterate s t with
    | running s' => exact List.append_nil _
    | returned status s' => exact List.append_nil _
    | aborted tr => exact List.append_nil _
  | cons u ts ih =>
    rw [List.cons_append, loopAccesses, loopAccesses, twcLoop, List.append_assoc]
    cases iterate s u with
    | running s' => exact congrArg (iterateAccesses s u ++ ·) (ih s')
    | returned status s' => rfl
    | aborted tr => rfl

theorem runAccesses_snoc (twc : TwoWayChannel) (ts : List Turn) (t : Turn) :
    runAccesses twc (ts ++ [t]) = runAccesses twc ts ++
      match twcRun twc ts with
      | .running s => iterateAccesses s t
      | .returned _ _ => []
      | .aborted _ => [] := by
  unfold runAccesses twcRun
  rw [List.append_assoc]
  cases runPair ⟨fun _ => none, fun _ => none⟩ (twcStart twc) with
  | error tr => rfl
  | ok s =>
    dsimp only
    rw [loopAccesses_snoc]

/-- **The memory of a run**: its accesses keep to the blocks, and as long as it runs the blocks are
    what the stores have made of them. -/
theorem runAccesses_held (hsize : 2 ≤ size) (hne : A ≠ B) (ts : List Turn) :
    Contained size (runAccesses (twcInit A B size) ts) ∧
      ∀ s, twcRun (twcInit A B size) ts = .running s →
        HeldBoth A B s (runAccesses (twcInit A B size) ts) := by
  -- induction on the turns, the last one split off
  induction ts using List.reverseRecOn with
  | nil =>
    have hstart := turnAccesses_held (w := ⟨fun _ => none, fun _ => none⟩) hne
      (s := twcStart (twcInit A B size)) ⟨sound_init hsize, sound_init hsize⟩
      ⟨held_init A size, held_init B size⟩ (contained_nil size)
    obtain ⟨s, hrun, -, -⟩ := twcRun_nil hsize hne
    unfold runAccesses
    unfold twcRun at hrun ⊢
    cases hpair : runPair ⟨fun _ => none, fun _ => none⟩ (twcStart (twcInit A B size)) with
    | error tr =>
      rw [hpair] at hrun
      cases hrun
    | ok s₁ =>
      dsimp only [loopAccesses]
      rw [List.append_nil]
      refine ⟨hstart.1, ?_⟩
      intro s' hs'
      obtain rfl := Outcome.running.inj hs'
      exact hstart.2 s₁ hpair
  | append_singleton ts t ih =>
    rw [runAccesses_snoc, twcRun_snoc]
    cases hbefore : twcRun (twcInit A B size) ts with
    | running s =>
      exact iterateAccesses_held hne (twcRun_inv hsize hne hbefore) (ih.2 s hbefore) ih.1
    | returned status s =>
      dsimp only
      rw [List.append_nil]
      refine ⟨ih.1, ?_⟩
      intro s' hs'
      cases hs'
    | aborted tr =>
      dsimp only
      rw [List.append_nil]
      refine ⟨ih.1, ?_⟩
      intro s' hs'
      cases hs'

/-! ## The pointers -/

/-- The block has all its bytes, and both pointers are in the first `size - 1` of them. -/
structure PointersIn (size : Nat) (sm : StateMachine) : Prop where
  length : sm.cbuffer.buffer.length = size
  readPtr_lt : sm.cbuffer.readPtr + 1 < size
  writePtr_lt : sm.cbuffer.writePtr + 1 < size

theorem Sound.pointersIn {sm : StateMachine} {tr : List Event} (h : Sound size rfd wfd sm tr)
    (hsize : 2 ≤ size) : PointersIn size sm where
  length := h.length
  readPtr_lt := h.readPtr_below.lt hsize
  writePtr_lt := by
    rw [h.writePtr_eq]
    exact h.sent_below.lt hsize

/-- The two calls of `sm_execute` in a turn; the second one is made if the first comes to its end. -/
inductive PairCall (w : Wire) (s : Loop) : Exec → Prop
  | a2b : PairCall w s (execA2B s)
  | b2a {x : Exec} : smExecute w (execA2B s) = .ok x → PairCall w s (execB2A s x)

/-- The calls of `sm_execute` in a run, also in a turn that ends in a failing assertion. -/
inductive RunCall (twc : TwoWayChannel) (ts : List Turn) : Wire → Exec → Prop
  | start {x : Exec} : PairCall ⟨fun _ => none, fun _ => none⟩ (twcStart twc) x →
      RunCall twc ts ⟨fun _ => none, fun _ => none⟩ x
  | turn {pre post : List Turn} {t : Turn} {s : Loop} {readable writable : Finset Fd} {x : Exec} :
      ts = pre ++ t :: post → twcRun twc pre = .running s → t.select = .ready readable writable →
      (s.sets.select readable writable).readFds.card +
        (s.sets.select readable writable).writeFds.card > 0 →
      PairCall t.wire { s with sets := s.sets.select readable writable } x →
      RunCall twc ts t.wire x

/-- Every call of a turn finds its direction sound. -/
theorem PairCall.sound (hne : A ≠ B) {s : Loop} (h : Inv size A B s) {x : Exec}
    (hcall : PairCall w s x) : ∃ rfd wfd, Sound size rfd wfd x.sm x.trace := by
  cases hcall with
  | a2b => exact ⟨A, B, h.a2b⟩
  | b2a hx => exact ⟨B, A, h.second hne hx⟩

theorem RunCall.sound (hsize : 2 ≤ size) (hne : A ≠ B) {ts : List Turn} {x : Exec}
    (hcall : RunCall (twcInit A B size) ts w x) :
    ∃ rfd wfd, Sound size rfd wfd x.sm x.trace := by
  cases hcall with
  | start hpair =>
    exact hpair.sound (s := twcStart (twcInit A B size)) hne ⟨sound_init hsize, sound_init hsize⟩
  | turn _ hs _ _ hpair => exact hpair.sound hne ((twcRun_inv hsize hne hs).select _)

/-- **Containment.**  In every run both pointers of both buffers stay in the first `size - 1` cells,
    between the turns and in the middle of every call of `sm_execute`, every `read` stores inside the
    block, and every byte handed to `write` lies in the block and is the one most recently received
    at its offset from the opposite descriptor. -/
theorem accesses_contained (size : Nat) (A B : Fd) (hsize : 2 ≤ size) (hne : A ≠ B)
    (ts : List Turn) :
    (∀ s, (twcRun (twcInit A B size) ts).state = some s →
      ∀ sm, sm = s.twc.smA2B ∨ sm = s.twc.smB2A → PointersIn size sm) ∧
    (∀ w x, RunCall (twcInit A B size) ts w x → PointersIn size x.sm ∧
      ∀ y, writePhase w x = .ok y → PointersIn size y.sm ∧
        ∀ z, readPhase w y = .ok z → PointersIn size z.sm) ∧
    Contained size (runAccesses (twcInit A B size) ts) := by
  refine ⟨?_, ?_, (runAccesses_held hsize hne ts).1⟩
  · intro s hs sm hsm
    have hinv := twcRun_state_inv hsize hne hs
    rcases hsm with rfl | rfl
    · exact hinv.a2b.pointersIn hsize
    · exact hinv.b2a.pointersIn hsize
  · intro w x hcall
    obtain ⟨rfd, wfd, hx⟩ := hcall.sound hsize hne
    refine ⟨hx.pointersIn hsize, ?_⟩
    intro y hy
    obtain ⟨y', hy', hwrite⟩ := writePhase_step (w := w) hx
    obtain rfl := Except.ok.inj (hy'.symm.trans hy)
    have hsound := hwrite.sound hx
    refine ⟨hsound.pointersIn hsize, ?_⟩
    intro z hz
    have hread := readPhase_step (w := w) hsound
    rw [hz] at hread
    exact (hread.sound hsound).pointersIn hsize

/-- Three bytes fill a block of four and reset its producer; what is written then is of the second
    lap. -/
theorem accesses_contained_second_lap :
    Contained 4 (runAccesses (twcInit 3 4 4)
      [readTurn 3 [1, 2, 3], readTurn 3 [4, 5], writeTurn 4 2]) :=
  (accesses_contained 4 3 4 (by decide) (by decide) _).2.2

end Pixie.Twc
