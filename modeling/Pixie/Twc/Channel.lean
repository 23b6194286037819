/-
  The two-way tunnel (`twc.c`): two state machines, one `select` loop.

  `sm_execute` works for one direction: it writes what is pending if the output descriptor is
  ready, reads what fits if the input descriptor is ready, and — unless something went wrong —
  rebuilds its part of the two descriptor sets.  `twc_run` runs both machines on the same sets after
  every `select`.

  The system is run against a list of TURNS.  A turn is what one iteration of the loop meets: the
  answer of `select`, and for every descriptor what a `write` to it and a `read` from it would give
  (`none` for -1; a count or bytes beyond the requested count are cut to it).  A run is a function of
  its turns, so "for every run" is "for every list of turns".

  The trace records the I/O calls in order, with their results.  A failing assertion ends a run with
  the trace up to it.
-/
import Pixie.Twc.Buffer
import Mathlib.Data.Finset.Card

namespace Pixie.Twc

open Pixie.Decimal Pixie.Net

def smOk : Int := 0
def smEof : Int := -4001
def smIoerr : Int := -4002
def smTo : Int := -4003

/-! ## State -/

/-- `state_machine_t`. -/
structure StateMachine where
  readFd : Fd
  writeFd : Fd
  readSuspended : Bool
  cbuffer : Cbuffer
deriving DecidableEq, Repr

/-- `two_way_channel_t`. -/
structure TwoWayChannel where
  fdA : Fd
  smA2B : StateMachine
  fdB : Fd
  smB2A : StateMachine
  errorno : Int
deriving DecidableEq, Repr

/-- The two `fd_set`s that are handed to `select`. -/
structure FdSets where
  readFds : Finset Fd
  writeFds : Finset Fd
deriving DecidableEq

/-- What `select` leaves of the sets. -/
def FdSets.select (sets : FdSets) (readable writable : Finset Fd) : FdSets :=
  ⟨sets.readFds ∩ readable, sets.writeFds ∩ writable⟩

/-- `sm_init`. -/
def smInit (readFd writeFd : Fd) (bufferSize : Nat) : StateMachine :=
  ⟨readFd, writeFd, false, cbInit bufferSize⟩

/-- `twc_init`. -/
def twcInit (fdA fdB : Fd) (bufferSize : Nat) : TwoWayChannel :=
  ⟨fdA, smInit fdA fdB bufferSize, fdB, smInit fdB fdA bufferSize, 0⟩

/-! ## The outside -/

/-- What a `write` and a `read` on each descriptor give in one iteration; `none` is `-1`, and
    `some []` from a `read` is the end of file. -/
structure Wire where
  write : Fd → Option Nat
  read : Fd → Option Bytes

/-- The return value of `write(fd, _, avail)`. -/
def Wire.writeRet (w : Wire) (fd : Fd) (avail : Nat) : Int :=
  match w.write fd with
  | none => -1
  | some n => (min n avail : Nat)

/-- What `read(fd, _, avail)` delivers. -/
def Wire.readBytes (w : Wire) (fd : Fd) (avail : Nat) : Option Bytes :=
  (w.read fd).map (List.take avail)

/-- The answer of `select`: an error, or the descriptors that are ready (none at the time-out). -/
inductive SelectOutcome
  | fails (errno : Int)
  | ready (readable writable : Finset Fd)

/-- What one iteration of the loop meets. -/
structure Turn where
  select : SelectOutcome
  wire : Wire

/-- An I/O call with its result. -/
inductive Event
  | write (fd : Fd) (offered : List (Option UInt8)) (ret : Int)
  | read (fd : Fd) (result : Option Bytes)
deriving DecidableEq, Repr

/-! ## `sm_execute` -/

/-- What a call of `sm_execute` works on. -/
structure Exec where
  sm : StateMachine
  sets : FdSets
  status : Int
  trace : List Event

/-- "do write first". -/
def writePhase (w : Wire) (x : Exec) : Except (List Event) Exec :=
  if x.sm.writeFd ∈ x.sets.writeFds then
    let wAvail := cbWriteAvailable x.sm.cbuffer
    if wAvail > 0 then
      let n := w.writeRet x.sm.writeFd wAvail.toNat
      let tr := x.trace ++ [.write x.sm.writeFd (x.sm.cbuffer.window wAvail.toNat) n]
      if n = 0 then .ok { x with status := smIoerr, trace := tr }
      else if n > 0 then
        match cbAdvanceWrite x.sm.cbuffer n.toNat with
        | none => .error tr
        | some cb => .ok { x with sm := { x.sm with cbuffer := cb }, status := smOk, trace := tr }
      else .ok { x with status := smIoerr, trace := tr }
    else .ok x
  else .ok x

/-- The read, unless reading is suspended. -/
def readPhase (w : Wire) (x : Exec) : Except (List Event) Exec :=
  if x.sm.readFd ∈ x.sets.readFds ∧ x.sm.readSuspended = false then
    let rAvail := cbReadAvailable x.sm.cbuffer
    if rAvail > 0 then
      let r := w.readBytes x.sm.readFd rAvail.toNat
      let tr := x.trace ++ [.read x.sm.readFd r]
      match r with
      | none => .ok { x with status := smIoerr, trace := tr }
      | some bs =>
        if bs = [] then .ok { x with status := smEof, trace := tr }
        else
          match cbAdvanceReadPtr (x.sm.cbuffer.store bs) bs.length with
          | none => .error tr
          | some cb =>
            .ok { x with sm := { x.sm with cbuffer := cb }, status := smOk, trace := tr }
    else .ok x
  else .ok x

/-- The end of `sm_execute`, reached with a zero status only. -/
def rebuildSets (x : Exec) : Exec :=
  let wAvail := cbWriteAvailable x.sm.cbuffer
  let rAvail := cbReadAvailable x.sm.cbuffer
  let writeFds := if wAvail > 0 then insert x.sm.writeFd x.sets.writeFds else x.sets.writeFds
  if rAvail > 0 then
    { x with
      sm := { x.sm with readSuspended := false }
      sets := ⟨insert x.sm.readFd x.sets.readFds, writeFds⟩, status := smOk }
  else
    { x with
      sm := { x.sm with readSuspended := true }
      sets := ⟨x.sets.readFds.erase x.sm.readFd, writeFds⟩, status := smOk }

/-- `sm_execute`; `error` is a failing assertion, with the trace up to it. -/
def smExecute (w : Wire) (x : Exec) : Except (List Event) Exec :=
  match writePhase w x with
  | .error tr => .error tr
  | .ok y =>
    match readPhase w y with
    | .error tr => .error tr
    | .ok z => .ok (if z.status ≠ 0 then z else rebuildSets z)

/-! ## `twc_run` -/

/-- The local state of `twc_run`. -/
structure Loop where
  twc : TwoWayChannel
  sets : FdSets
  statusA2B : Int
  statusB2A : Int
  trace : List Event

/-- The two calls of `sm_execute`, A to B first. -/
def runPair (w : Wire) (s : Loop) : Except (List Event) Loop :=
  match smExecute w ⟨s.twc.smA2B, s.sets, s.statusA2B, s.trace⟩ with
  | .error tr => .error tr
  | .ok x =>
    match smExecute w ⟨s.twc.smB2A, x.sets, s.statusB2A, x.trace⟩ with
    | .error tr => .error tr
    | .ok y =>
      .ok ⟨{ s.twc with smA2B := x.sm, smB2A := y.sm }, y.sets, x.status, y.status, y.trace⟩

/-- What an iteration, or a run, comes to. -/
inductive Outcome
  | running (s : Loop)
  | returned (status : Int) (s : Loop)
  | aborted (trace : List Event)

/-- The I/O calls made so far. -/
def Outcome.trace : Outcome → List Event
  | running s => s.trace
  | returned _ s => s.trace
  | aborted tr => tr

/-- One iteration of the loop: `select` (again after `EINTR`), then both machines. -/
def iterate (s : Loop) (t : Turn) : Outcome :=
  match t.select with
  | .fails errno =>
      if errno = EINTR then .running s
      else .returned smIoerr { s with twc := { s.twc with errorno := errno } }
  | .ready readable writable =>
      let sets := s.sets.select readable writable
      let retval := sets.readFds.card + sets.writeFds.card
      if retval > 0 then
        match runPair t.wire { s with sets := sets } with
        | .error tr => .aborted tr
        | .ok s' =>
          if s'.statusA2B ≠ smOk then .returned s'.statusA2B s'
          else if s'.statusB2A ≠ smOk then .returned s'.statusB2A s'
          else .running s'
      else .returned smTo { s with sets := sets }

/-- The loop, over the turns it meets. -/
def twcLoop (s : Loop) : List Turn → Outcome
  | [] => .running s
  | t :: ts =>
      match iterate s t with
      | .running s' => twcLoop s' ts
      | .returned status s' => .returned status s'
      | .aborted tr => .aborted tr

/-- Before the loop the sets are empty, so both calls of `sm_execute` only fill them. -/
def twcStart (twc : TwoWayChannel) : Loop := ⟨twc, ⟨∅, ∅⟩, smOk, smOk, []⟩

/-- `twc_run`. -/
def twcRun (twc : TwoWayChannel) (ts : List Turn) : Outcome :=
  match runPair ⟨fun _ => none, fun _ => none⟩ (twcStart twc) with
  | .error tr => .aborted tr
  | .ok s => twcLoop s ts

/-! ## What a trace says -/

/-- The bytes an event has put on a descriptor. -/
def Event.sent (fd : Fd) : Event → List (Option UInt8)
  | .write f offered ret => if f = fd then offered.take ret.toNat else []
  | .read _ _ => []

/-- The bytes an event has taken from a descriptor. -/
def Event.received (fd : Fd) : Event → Bytes
  | .write _ _ _ => []
  | .read f result => if f = fd then result.getD [] else []

/-- The bytes written so far to a descriptor. -/
def sentTo (fd : Fd) (tr : List Event) : List (Option UInt8) := tr.flatMap (Event.sent fd)

/-- The bytes read so far from a descriptor. -/
def receivedFrom (fd : Fd) (tr : List Event) : Bytes := tr.flatMap (Event.received fd)

@[simp] theorem sentTo_nil (fd : Fd) : sentTo fd [] = [] := rfl
@[simp] theorem receivedFrom_nil (fd : Fd) : receivedFrom fd [] = [] := rfl

@[simp] theorem sentTo_snoc (fd : Fd) (tr : List Event) (e : Event) :
    sentTo fd (tr ++ [e]) = sentTo fd tr ++ e.sent fd := by
  simp [sentTo]

@[simp] theorem receivedFrom_snoc (fd : Fd) (tr : List Event) (e : Event) :
    receivedFrom fd (tr ++ [e]) = receivedFrom fd tr ++ e.received fd := by
  simp [receivedFrom]

end Pixie.Twc
