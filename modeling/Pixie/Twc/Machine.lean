/-
  What one call of `sm_execute` does to one direction of a tunnel.

  1. **The amounts** — `writeTaken` and `readTaken` are what the call's `write` takes and what its
     `read` delivers, read off the turn and the state before the call.

  2. **`Sound`** — the invariant of a direction, over the whole run so far.  Whatever the schedule:
       * the producer stays below the last index of the block (it is reset when it gets there);
       * the consumer's offset is the number of bytes sent, so it NEVER wraps: it could only do so
         by catching up with a producer that is itself below the last index;
       * while fewer than `buffer_size - 1` bytes have been received, the producer has not been
         reset, the block starts with what was received, and what was sent is a prefix of it.
     The last item is all that the ring gives: `cb_read_available` does not look at the consumer.
     When the cast leaves a `buffer_size` of 0 or less, nothing is ever received.

  3. **The step lemmas** — `writePhase_sound`: the write never fails its assertion, and appends
     `writeTaken` bytes of the block.  `readPhase_sound`: the read appends `readTaken`, or the
     assertion on an exact fill ends the run.  `smExecute_sound` puts them together.
-/
import Pixie.Twc.Channel

namespace Pixie.Twc

open Pixie.Decimal Pixie.Net

/-! ## Traces of one machine -/

/-- The events of a machine that reads `rfd` and writes `wfd`. -/
def Event.Of (rfd wfd : Fd) : Event → Prop
  | .write f _ _ => f = wfd
  | .read f _ => f = rfd

theorem sentTo_append (fd : Fd) (tr es : List Event) :
    sentTo fd (tr ++ es) = sentTo fd tr ++ sentTo fd es := List.flatMap_append

/-- A machine sends nothing to any other descriptor than its own. -/
theorem sentTo_of {rfd wfd fd : Fd} (hne : fd ≠ wfd) {es : List Event}
    (h : ∀ e ∈ es, e.Of rfd wfd) : sentTo fd es = [] := by
  apply List.flatMap_eq_nil_iff.mpr
  intro e he
  have hof := h e he
  cases e with
  | write f offered ret =>
    obtain rfl : f = wfd := hof
    exact if_neg (Ne.symm hne)
  | read f r => rfl

/-- A machine sends nothing to the descriptor it reads. -/
theorem sentTo_append_of {rfd wfd : Fd} (hne : rfd ≠ wfd) (tr es : List Event)
    (h : ∀ e ∈ es, e.Of rfd wfd) : sentTo rfd (tr ++ es) = sentTo rfd tr := by
  rw [sentTo_append, sentTo_of hne h, List.append_nil]

/-- A machine receives nothing from the descriptor it writes. -/
theorem receivedFrom_append_of {rfd wfd : Fd} (hne : rfd ≠ wfd) (tr es : List Event)
    (h : ∀ e ∈ es, e.Of rfd wfd) : receivedFrom wfd (tr ++ es) = receivedFrom wfd tr := by
  have hnil : receivedFrom wfd es = [] := by
    apply List.flatMap_eq_nil_iff.mpr
    intro e he
    have hof := h e he
    cases e with
    | write f offered ret => rfl
    | read f r =>
      obtain rfl : f = rfd := hof
      exact if_neg hne
  show List.flatMap _ (tr ++ es) = _
  rw [List.flatMap_append]
  show receivedFrom wfd tr ++ receivedFrom wfd es = _
  rw [hnil, List.append_nil]

/-! ## The amounts -/

/-- The number of bytes that the `write` of a call takes. -/
def writeTaken (w : Wire) (sm : StateMachine) (sets : FdSets) : Nat :=
  if sm.writeFd ∈ sets.writeFds then
    (w.writeRet sm.writeFd (cbWriteAvailable sm.cbuffer).toNat).toNat
  else 0

/-- The bytes that the `read` of a call delivers. -/
def readTaken (w : Wire) (sm : StateMachine) (sets : FdSets) : Bytes :=
  if sm.readFd ∈ sets.readFds then
    (w.readBytes sm.readFd (cbReadAvailable sm.cbuffer).toNat).getD []
  else []

/-- A `write` takes no more than it is offered. -/
theorem writeTaken_le (w : Wire) (sm : StateMachine) (sets : FdSets) :
    writeTaken w sm sets ≤ (cbWriteAvailable sm.cbuffer).toNat := by
  unfold writeTaken Wire.writeRet
  split
  · split
    · simp
    · rw [Int.toNat_natCast]
      exact Nat.min_le_right ..
  · exact Nat.zero_le _

/-! ## The invariant of a direction -/

/-- What holds of a machine from `rfd` to `wfd` at every point of a run. -/
structure Sound (size : Nat) (rfd wfd : Fd) (sm : StateMachine) (tr : List Event) : Prop where
  readFd : sm.readFd = rfd
  writeFd : sm.writeFd = wfd
  notSuspended : 0 < intOfSize size → sm.readSuspended = false
  bufferSize : sm.cbuffer.bufferSize = intOfSize size
  length : sm.cbuffer.buffer.length = size
  readPtr_below : Below size sm.cbuffer.readPtr
  writePtr_eq : sm.cbuffer.writePtr = (sentTo wfd tr).length
  sent_below : Below size (sentTo wfd tr).length
  early : Below size (receivedFrom rfd tr).length →
    sm.cbuffer.readPtr = (receivedFrom rfd tr).length ∧
    sm.cbuffer.buffer.take sm.cbuffer.readPtr = (receivedFrom rfd tr).map some ∧
    sentTo wfd tr <+: (receivedFrom rfd tr).map some

variable {size : Nat} {rfd wfd : Fd}

theorem sound_init (hsize : 2 ≤ size) : Sound size rfd wfd (smInit rfd wfd size) [] := by
  have hne : size ≠ 0 := by omega
  refine ⟨rfl, rfl, fun _ => rfl, cbInit_bufferSize hne, cbInit_length hne, ?_,
    cbInit_writePtr size, below_zero size, ?_⟩
  · show Below size (cbInit size).readPtr
    rw [cbInit_readPtr]
    exact below_zero size
  · intro _
    refine ⟨cbInit_readPtr size, ?_, List.prefix_rfl⟩
    show (cbInit size).buffer.take (cbInit size).readPtr = []
    rw [cbInit_readPtr]
    exact List.take_zero

/-- The events of the other machine leave a direction as it is. -/
theorem Sound.frame {sm : StateMachine} {tr es : List Event} (h : Sound size rfd wfd sm tr)
    (hne : rfd ≠ wfd) (hes : ∀ e ∈ es, e.Of wfd rfd) : Sound size rfd wfd sm (tr ++ es) := by
  have hs := sentTo_append_of (Ne.symm hne) tr es hes
  have hr := receivedFrom_append_of (Ne.symm hne) tr es hes
  refine ⟨h.readFd, h.writeFd, h.notSuspended, h.bufferSize, h.length, h.readPtr_below, ?_, ?_, ?_⟩
  · rw [hs]
    exact h.writePtr_eq
  · rw [hs]
    exact h.sent_below
  · rw [hs, hr]
    exact h.early

/-- There is room to read into, unless the cast left none in the first place. -/
theorem Sound.cbReadAvailable_pos_iff {sm : StateMachine} {tr : List Event}
    (h : Sound size rfd wfd sm tr) : 0 < cbReadAvailable sm.cbuffer ↔ 0 < intOfSize size := by
  have hsize := h.bufferSize
  have hbelow := h.readPtr_below
  unfold Below at hbelow
  rw [cbReadAvailable_eq]
  omega

/-- The producer does not leave the block. -/
theorem Sound.readPtr_le {sm : StateMachine} {tr : List Event} (h : Sound size rfd wfd sm tr) :
    sm.cbuffer.readPtr ≤ size := by
  have hle := intOfSize_le size
  have hbelow := h.readPtr_below
  unfold Below at hbelow
  omega

/-- When something is pending the producer has left the start. -/
theorem Sound.readPtr_lt {sm : StateMachine} {tr : List Event} (h : Sound size rfd wfd sm tr)
    (hpos : 0 < cbWriteAvailable sm.cbuffer) :
    (sm.cbuffer.readPtr : Int) + 1 < sm.cbuffer.bufferSize := by
  have hsize := h.bufferSize
  have hbelow := h.readPtr_below
  unfold Below at hbelow
  unfold cbWriteAvailable at hpos
  omega

/-- What is pending in a direction that has not come to the reset. -/
theorem Sound.cbWriteAvailable_eq {sm : StateMachine} {tr : List Event}
    (h : Sound size rfd wfd sm tr) (hearly : Below size (receivedFrom rfd tr).length) :
    cbWriteAvailable sm.cbuffer =
      ((receivedFrom rfd tr).length : Int) - (sentTo wfd tr).length := by
  unfold cbWriteAvailable
  rw [(h.early hearly).1, h.writePtr_eq]

/-! ## The write -/

/-- What the machine looks like after `k` bytes have been sent. -/
def StateMachine.sent (sm : StateMachine) (k : Nat) : StateMachine :=
  { sm with cbuffer := { sm.cbuffer with writePtr := sm.cbuffer.writePtr + k } }

@[simp] theorem StateMachine.sent_zero (sm : StateMachine) : sm.sent 0 = sm := rfl

/-- Sending `k` of the available bytes keeps the invariant. -/
theorem Sound.sent {sm : StateMachine} {tr : List Event} (h : Sound size rfd wfd sm tr) {ret : Int}
    (hret : ret ≤ cbWriteAvailable sm.cbuffer) :
    Sound size rfd wfd (sm.sent ret.toNat) (tr ++ [.write wfd
      (sm.cbuffer.window (cbWriteAvailable sm.cbuffer).toNat) ret]) := by
  have hptr := h.writePtr_eq
  have hlt := h.sent_below
  have hrd := h.readPtr_below
  have hrdle := h.readPtr_le
  have hlen := h.length
  have havail : cbWriteAvailable sm.cbuffer = (sm.cbuffer.readPtr : Int) - sm.cbuffer.writePtr := rfl
  have hk : ret.toNat ≤ (cbWriteAvailable sm.cbuffer).toNat := by omega
  -- the bytes taken are the next `ret` bytes of the block
  have hbytes : Event.sent wfd (.write wfd
      (sm.cbuffer.window (cbWriteAvailable sm.cbuffer).toNat) ret) =
      (sm.cbuffer.buffer.drop sm.cbuffer.writePtr).take ret.toNat := by
    simp [Event.sent, Cbuffer.window, List.take_take, Nat.min_eq_left hk]
  have hrecv : receivedFrom rfd (tr ++ [.write wfd
      (sm.cbuffer.window (cbWriteAvailable sm.cbuffer).toNat) ret]) = receivedFrom rfd tr := by
    rw [receivedFrom_snoc]
    exact List.append_nil _
  have hsent : (sentTo wfd tr).length + ret.toNat =
      (sentTo wfd tr ++ (sm.cbuffer.buffer.drop sm.cbuffer.writePtr).take ret.toNat).length := by
    simp only [List.length_append, List.length_take, List.length_drop]
    omega
  refine ⟨h.readFd, h.writeFd, h.notSuspended, h.bufferSize, hlen, hrd, ?_, ?_, ?_⟩
  · rw [sentTo_snoc, hbytes, ← hsent, ← hptr]
    rfl
  · rw [sentTo_snoc, hbytes, ← hsent]
    rcases Nat.eq_zero_or_pos ret.toNat with hzero | hpos
    · rw [hzero, Nat.add_zero]
      exact hlt
    · exact hrd.mono (by omega)
  · rw [sentTo_snoc, hrecv, hbytes]
    intro hearly
    obtain ⟨hr, htake, hpre⟩ := h.early hearly
    refine ⟨hr, htake, ?_⟩
    -- both parts come out of the block below the producer
    have hold : sentTo wfd tr = ((receivedFrom rfd tr).map some).take sm.cbuffer.writePtr := by
      rw [hptr]
      exact List.prefix_iff_eq_take.mp hpre
    have hnew : (sm.cbuffer.buffer.drop sm.cbuffer.writePtr).take ret.toNat =
        (((receivedFrom rfd tr).map some).drop sm.cbuffer.writePtr).take ret.toNat := by
      rw [← htake, List.drop_take, List.take_take, Nat.min_eq_left (by omega)]
    rw [hnew]
    nth_rewrite 1 [hold]
    rw [← List.take_add]
    exact List.take_prefix ..

/-- **The write phase.**  Its assertion never fails; the machine advances by what was taken. -/
theorem writePhase_sound (w : Wire) {x : Exec} (h : Sound size rfd wfd x.sm x.trace) :
    ∃ y ws, writePhase w x = .ok y ∧ Sound size rfd wfd y.sm y.trace ∧ y.sets = x.sets ∧
      y.sm = x.sm.sent (writeTaken w x.sm x.sets) ∧ y.trace = x.trace ++ ws ∧
      (ws = [] ∨ ∃ offered ret, ws = [.write wfd offered ret] ∧
        ret.toNat = writeTaken w x.sm x.sets) := by
  obtain rfl : x.sm.writeFd = wfd := h.writeFd
  -- without a call of `write` nothing changes
  have hidle : writeTaken w x.sm x.sets = 0 → ∃ y ws, (Except.ok x : Except (List Event) Exec) = .ok y ∧
      Sound size rfd x.sm.writeFd y.sm y.trace ∧ y.sets = x.sets ∧
      y.sm = x.sm.sent (writeTaken w x.sm x.sets) ∧ y.trace = x.trace ++ ws ∧
      (ws = [] ∨ ∃ offered ret, ws = [.write x.sm.writeFd offered ret] ∧
        ret.toNat = writeTaken w x.sm x.sets) := by
    intro hzero
    rw [hzero]
    exact ⟨x, [], rfl, h, rfl, rfl, (List.append_nil _).symm, Or.inl rfl⟩
  unfold writePhase
  by_cases hready : x.sm.writeFd ∈ x.sets.writeFds
  · rw [if_pos hready]
    by_cases havail : cbWriteAvailable x.sm.cbuffer > 0
    · rw [if_pos havail]
      set ret := w.writeRet x.sm.writeFd (cbWriteAvailable x.sm.cbuffer).toNat with hretdef
      have htaken : writeTaken w x.sm x.sets = ret.toNat := if_pos hready
      have hret : ret ≤ cbWriteAvailable x.sm.cbuffer := by
        have := writeTaken_le w x.sm x.sets
        omega
      have hsound := h.sent hret
      rw [htaken]
      dsimp only
      by_cases hpos : ret > 0
      · have hadv := @cbAdvanceWrite_eq x.sm.cbuffer ret.toNat (by omega) (h.readPtr_lt havail)
        rw [if_neg (by omega), if_pos hpos, hadv]
        exact ⟨_, _, rfl, hsound, rfl, rfl, rfl, Or.inr ⟨_, ret, rfl, rfl⟩⟩
      · -- 0 and -1 move no pointer
        have hzero : ret.toNat = 0 := by omega
        rw [hzero, StateMachine.sent_zero] at hsound ⊢
        rw [if_neg hpos]
        exact ⟨_, _, ite_self _, hsound, rfl, rfl, rfl, Or.inr ⟨_, ret, rfl, hzero⟩⟩
    · rw [if_neg havail]
      apply hidle
      have := writeTaken_le w x.sm x.sets
      omega
  · rw [if_neg hready]
    exact hidle (if_neg hready)

/-! ## The read -/

/-- Storing what a `read` delivered, and an advance that does not fail, keep the invariant. -/
theorem Sound.received {sm : StateMachine} {tr : List Event} (h : Sound size rfd wfd sm tr)
    {bs : Bytes} (hne : bs ≠ []) {cb : Cbuffer}
    (hadv : cbAdvanceReadPtr (sm.cbuffer.store bs) bs.length = some cb) :
    Sound size rfd wfd { sm with cbuffer := cb } (tr ++ [.read rfd (some bs)]) := by
  have hsize := h.bufferSize
  have hle := intOfSize_le size
  have hlen := h.length
  have hpos := List.length_pos_iff.mpr hne
  have hsent : sentTo wfd (tr ++ [.read rfd (some bs)]) = sentTo wfd tr := by
    rw [sentTo_snoc]
    exact List.append_nil _
  have hrecv : receivedFrom rfd (tr ++ [.read rfd (some bs)]) = receivedFrom rfd tr ++ bs := by
    rw [receivedFrom_snoc]
    exact congrArg (receivedFrom rfd tr ++ ·) (if_pos rfl)
  rcases cbAdvanceReadPtr_cases (sm.cbuffer.store bs) bs.length with
    ⟨hfit, hcb⟩ | ⟨hfull, hcb⟩ | ⟨-, hcb⟩
  · -- below the last index: the producer moves on
    simp only [store_readPtr, store_bufferSize] at hfit hcb
    obtain rfl : _ = cb := Option.some.inj (hcb.symm.trans hadv)
    refine ⟨h.readFd, h.writeFd, h.notSuspended, hsize, ?_, ?_, ?_, ?_, ?_⟩
    · show (sm.cbuffer.store bs).buffer.length = size
      rw [length_store (by omega), hlen]
    · show Below size (sm.cbuffer.readPtr + bs.length)
      unfold Below
      omega
    · rw [hsent]
      exact h.writePtr_eq
    · rw [hsent]
      exact h.sent_below
    · rw [hsent, hrecv]
      intro hearly
      rw [List.length_append] at hearly ⊢
      obtain ⟨hr, htake, hpre⟩ := h.early (hearly.mono (Nat.le_add_right _ _))
      refine ⟨by rw [← hr], ?_, ?_⟩
      · show (sm.cbuffer.store bs).buffer.take (sm.cbuffer.readPtr + bs.length) = _
        rw [take_store (by omega), htake, List.map_append]
      · rw [List.map_append]
        exact hpre.trans (List.prefix_append ..)
  · -- at the last index: the producer is reset, and the early part of the run is over
    simp only [store_readPtr, store_bufferSize] at hfull hcb
    obtain rfl : _ = cb := Option.some.inj (hcb.symm.trans hadv)
    refine ⟨h.readFd, h.writeFd, h.notSuspended, hsize, ?_, below_zero size, ?_, ?_, ?_⟩
    · show (sm.cbuffer.store bs).buffer.length = size
      rw [length_store (by omega), hlen]
    · rw [hsent]
      exact h.writePtr_eq
    · rw [hsent]
      exact h.sent_below
    · rw [hrecv]
      intro hearly
      rw [List.length_append] at hearly
      have hr := (h.early (hearly.mono (Nat.le_add_right _ _))).1
      unfold Below at hearly
      omega
  · rw [hcb] at hadv
    cases hadv

/-- A `read` that delivers nothing keeps the invariant. -/
theorem Sound.received_nothing {sm : StateMachine} {tr : List Event} (h : Sound size rfd wfd sm tr)
    {r : Option Bytes} (hr : r.getD [] = []) : Sound size rfd wfd sm (tr ++ [.read rfd r]) := by
  have hsent : sentTo wfd (tr ++ [.read rfd r]) = sentTo wfd tr := by
    rw [sentTo_snoc]
    exact List.append_nil _
  have hrecv : receivedFrom rfd (tr ++ [.read rfd r]) = receivedFrom rfd tr := by
    rw [receivedFrom_snoc]
    show receivedFrom rfd tr ++ (if rfd = rfd then r.getD [] else []) = _
    rw [if_pos rfl, hr, List.append_nil]
  exact ⟨h.readFd, h.writeFd, h.notSuspended, h.bufferSize, h.length, h.readPtr_below,
    hsent ▸ h.writePtr_eq, hsent ▸ h.sent_below, by rw [hsent, hrecv]; exact h.early⟩

/-- Without room nothing is read. -/
theorem readPhase_of_no_room {w : Wire} {x : Exec} (h : ¬ 0 < cbReadAvailable x.sm.cbuffer) :
    readPhase w x = .ok x := by
  unfold readPhase
  split
  · exact if_neg h
  · rfl

theorem readTaken_of_no_room {w : Wire} {sm : StateMachine} {sets : FdSets}
    (h : ¬ 0 < cbReadAvailable sm.cbuffer) : readTaken w sm sets = [] := by
  unfold readTaken Wire.readBytes
  split
  · rw [Int.toNat_of_nonpos (by omega)]
    cases w.read sm.readFd with
    | none => rfl
    | some bs => rfl
  · rfl

/-- **The read phase.**  It appends what was delivered, or ends the run when the delivery fills
    the block to its last byte. -/
theorem readPhase_sound (w : Wire) {x : Exec} (h : Sound size rfd wfd x.sm x.trace) :
    (∃ r, readPhase w x = .error (x.trace ++ [.read rfd r])) ∨
    ∃ y rs, readPhase w x = .ok y ∧ Sound size rfd wfd y.sm y.trace ∧ y.sets = x.sets ∧
      y.trace = x.trace ++ rs ∧ (rs = [] ∨ ∃ r, rs = [.read rfd r]) ∧
      receivedFrom rfd y.trace = receivedFrom rfd x.trace ++ readTaken w x.sm x.sets := by
  obtain rfl : x.sm.readFd = rfd := h.readFd
  have hgot : ∀ r : Option Bytes,
      receivedFrom x.sm.readFd (x.trace ++ [.read x.sm.readFd r]) =
        receivedFrom x.sm.readFd x.trace ++ r.getD [] := by
    intro r
    rw [receivedFrom_snoc]
    exact congrArg (receivedFrom x.sm.readFd x.trace ++ ·) (if_pos rfl)
  -- without a call of `read` nothing changes
  have hidle : readPhase w x = .ok x → readTaken w x.sm x.sets = [] →
      ∃ y rs, readPhase w x = .ok y ∧ Sound size x.sm.readFd wfd y.sm y.trace ∧ y.sets = x.sets ∧
      y.trace = x.trace ++ rs ∧ (rs = [] ∨ ∃ r, rs = [.read x.sm.readFd r]) ∧
      receivedFrom x.sm.readFd y.trace =
        receivedFrom x.sm.readFd x.trace ++ readTaken w x.sm x.sets := by
    intro hphase hnil
    rw [hnil]
    exact ⟨x, [], hphase, h, rfl, (List.append_nil _).symm, Or.inl rfl, (List.append_nil _).symm⟩
  by_cases hroom : 0 < cbReadAvailable x.sm.cbuffer
  case neg => exact Or.inr (hidle (readPhase_of_no_room hroom) (readTaken_of_no_room hroom))
  by_cases hready : x.sm.readFd ∈ x.sets.readFds
  · unfold readPhase
    rw [if_pos ⟨hready, h.notSuspended (h.cbReadAvailable_pos_iff.mp hroom)⟩, if_pos hroom]
    have htaken : readTaken w x.sm x.sets =
        (w.readBytes x.sm.readFd (cbReadAvailable x.sm.cbuffer).toNat).getD [] := if_pos hready
    rw [htaken]
    dsimp only
    cases hres : w.readBytes x.sm.readFd (cbReadAvailable x.sm.cbuffer).toNat with
    | none =>
      exact Or.inr ⟨_, _, rfl, h.received_nothing rfl, rfl, rfl, Or.inr ⟨none, rfl⟩, hgot none⟩
    | some bs =>
      by_cases hnil : bs = []
      · subst hnil
        exact Or.inr ⟨_, _, if_pos rfl, h.received_nothing rfl, rfl, rfl,
          Or.inr ⟨some [], rfl⟩, hgot (some [])⟩
      · simp only [if_neg hnil]
        cases hadv : cbAdvanceReadPtr (x.sm.cbuffer.store bs) bs.length with
        | none => exact Or.inl ⟨some bs, rfl⟩
        | some cb =>
          exact Or.inr ⟨_, _, rfl, h.received hnil hadv, rfl, rfl, Or.inr ⟨some bs, rfl⟩,
            hgot (some bs)⟩
  · exact Or.inr (hidle (if_neg fun hc => hready hc.1) (if_neg hready))

/-! ## The whole call -/

/-- The trace that a call of `sm_execute` leaves. -/
def traceOf : Except (List Event) Exec → List Event
  | .error tr => tr
  | .ok x => x.trace

/-- What a call that comes to its end has done. -/
structure Advances (size : Nat) (rfd wfd : Fd) (w : Wire) (x y : Exec) : Prop where
  sound : Sound size rfd wfd y.sm y.trace
  sent : (sentTo wfd y.trace).length = (sentTo wfd x.trace).length + writeTaken w x.sm x.sets
  received : receivedFrom rfd y.trace = receivedFrom rfd x.trace ++ readTaken w x.sm x.sets
  writeFds : rfd ∈ y.sets.writeFds ↔ rfd ∈ x.sets.writeFds
  readFds : wfd ∈ y.sets.readFds ↔ wfd ∈ x.sets.readFds

/-- Rebuilding the sets touches the machine's own entries only. -/
theorem Advances.rebuild {w : Wire} {x z : Exec} (h : Advances size rfd wfd w x z)
    (hne : rfd ≠ wfd) : Advances size rfd wfd w x (rebuildSets z) := by
  have hr := h.sound.readFd
  have hw := h.sound.writeFd
  have hroom := h.sound.cbReadAvailable_pos_iff
  have hwrite : rfd ∈ (if cbWriteAvailable z.sm.cbuffer > 0 then
      insert z.sm.writeFd z.sets.writeFds else z.sets.writeFds) ↔ rfd ∈ x.sets.writeFds := by
    rw [← h.writeFds, hw]
    split
    · rw [Finset.mem_insert, or_iff_right hne]
    · rfl
  unfold rebuildSets
  dsimp only
  split
  · refine ⟨⟨hr, hw, fun _ => rfl, h.sound.bufferSize, h.sound.length, h.sound.readPtr_below,
      h.sound.writePtr_eq, h.sound.sent_below, h.sound.early⟩, h.sent, h.received, hwrite, ?_⟩
    rw [← h.readFds, hr, Finset.mem_insert, or_iff_right (Ne.symm hne)]
  · rename_i hnone
    refine ⟨⟨hr, hw, fun hpos => absurd (hroom.mpr hpos) hnone, h.sound.bufferSize,
      h.sound.length, h.sound.readPtr_below, h.sound.writePtr_eq, h.sound.sent_below,
      h.sound.early⟩, h.sent, h.received, hwrite, ?_⟩
    rw [← h.readFds, hr, Finset.mem_erase, and_iff_right (Ne.symm hne)]

@[simp] theorem rebuildSets_trace (x : Exec) : (rebuildSets x).trace = x.trace := by
  unfold rebuildSets
  dsimp only
  split
  · rfl
  · rfl

theorem rebuildSets_status (z : Exec) : (rebuildSets z).status = smOk := by
  unfold rebuildSets
  dsimp only
  split
  · rfl
  · rfl

/-- `sm_execute` from the results of its phases. -/
theorem smExecute_of_read {w : Wire} {x y z : Exec} (hwrite : writePhase w x = .ok y)
    (hread : readPhase w y = .ok z) :
    smExecute w x = .ok (if z.status ≠ 0 then z else rebuildSets z) := by
  unfold smExecute
  simp only [hwrite, hread]

theorem smExecute_of_error {w : Wire} {x y : Exec} {tr : List Event}
    (hwrite : writePhase w x = .ok y) (hread : readPhase w y = .error tr) :
    smExecute w x = .error tr := by
  unfold smExecute
  simp only [hwrite, hread]

/-- With none of its descriptors ready, a call only rebuilds the sets. -/
theorem smExecute_idle (w : Wire) {x : Exec} (hw : x.sm.writeFd ∉ x.sets.writeFds)
    (hr : x.sm.readFd ∉ x.sets.readFds) :
    smExecute w x = .ok (if x.status ≠ 0 then x else rebuildSets x) :=
  smExecute_of_read (if_neg hw) (if_neg fun hc => hr hc.1)

/-- **A call of `sm_execute`** on a sound direction appends at most one `write` and one `read` of
    its own descriptors; unless an exact fill ends the run, the direction advances. -/
theorem smExecute_sound (w : Wire) (hne : rfd ≠ wfd) {x : Exec}
    (h : Sound size rfd wfd x.sm x.trace) :
    ∃ ws rs, traceOf (smExecute w x) = x.trace ++ ws ++ rs ∧
      (ws = [] ∨ ∃ offered ret, ws = [.write wfd offered ret] ∧
        ret.toNat = writeTaken w x.sm x.sets) ∧
      (rs = [] ∨ ∃ r, rs = [.read rfd r]) ∧
      (∃ sm, Sound size rfd wfd sm (x.trace ++ ws)) ∧
      ∀ y, smExecute w x = .ok y → Advances size rfd wfd w x y := by
  obtain ⟨y, ws, hwrite, hy, hysets, hysm, hytrace, hws⟩ := writePhase_sound w h
  have hsound : ∃ sm, Sound size rfd wfd sm (x.trace ++ ws) := ⟨y.sm, hytrace ▸ hy⟩
  rcases readPhase_sound w hy with ⟨r, hread⟩ | ⟨z, rs, hread, hz, hzsets, hztrace, hrs, hgot⟩
  · rw [smExecute_of_error hwrite hread]
    exact ⟨ws, [.read rfd r], by rw [← hytrace]; rfl, hws, Or.inr ⟨r, rfl⟩, hsound, nofun⟩
  · rw [smExecute_of_read hwrite hread]
    -- the read sees the same room, whatever was written before it
    have htaken : readTaken w y.sm y.sets = readTaken w x.sm x.sets := by
      rw [hysets, hysm]
      rfl
    have hrecv : receivedFrom rfd y.trace = receivedFrom rfd x.trace := by
      rw [hytrace]
      rcases hws with rfl | ⟨offered, ret, rfl, -⟩
      · rw [List.append_nil]
      · rw [receivedFrom_snoc]
        exact List.append_nil _
    have hadv : Advances size rfd wfd w x z := by
      refine ⟨hz, ?_, ?_, by rw [hzsets, hysets], by rw [hzsets, hysets]⟩
      · have hsent : sentTo wfd z.trace = sentTo wfd y.trace := by
          rw [hztrace]
          rcases hrs with rfl | ⟨r, rfl⟩
          · rw [List.append_nil]
          · rw [sentTo_snoc]
            exact List.append_nil _
        rw [hsent, ← hy.writePtr_eq, ← h.writePtr_eq, hysm]
        rfl
      · rw [hgot, hrecv, htaken]
    refine ⟨ws, rs, ?_, hws, hrs, hsound, ?_⟩
    · rw [← hytrace, ← hztrace]
      show (if z.status ≠ 0 then z else rebuildSets z).trace = z.trace
      rw [apply_ite Exec.trace, rebuildSets_trace, ite_self]
    · intro u hu
      obtain rfl := Except.ok.inj hu
      split
      · exact hadv
      · exact hadv.rebuild hne

theorem smExecute_advances {w : Wire} (hne : rfd ≠ wfd) {x y : Exec}
    (h : Sound size rfd wfd x.sm x.trace) (hy : smExecute w x = .ok y) :
    Advances size rfd wfd w x y := by
  obtain ⟨-, -, -, -, -, -, hadv⟩ := smExecute_sound w hne h
  exact hadv y hy

end Pixie.Twc
