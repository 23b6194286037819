/-
  The socket calls of the proxy (`socket_functions.cpp`, `ErrorCodes.h`) as functions of what the
  operating system answers.

  Nothing about the network is assumed: a `read`, a `write` or a connect attempt has an OUTCOME,
  every outcome the call can have is a value of the types below, and a program is run against lists
  of them.  The functions here are the ones the source wraps around the system calls: they turn an
  outcome into the return value, the `status` they store and — where the source says
  `assert(false)` — an abort.

  Two facts of the source are easy to read past.  `socket_write_data` asserts that a write is never
  partial, and it stores a status only when the write fails.  `socket_connect_host_port` stores
  `errno` in `status` on every failure; a failing lookup leaves `errno` alone, so that value may be
  `0`, which is also `SOCKET_STATUS_GOOD`.

  Signals are no outcome here: a `write` whose peer is gone returns EPIPE.  That is what it does on the
  sockets of `socket_connect_host_port`, which sets `SO_NOSIGPIPE`; on an accepted socket the SIGPIPE
  comes first.
-/
import Pixie.Lib.Decimal

namespace Pixie.Net

open Pixie.Decimal

/-! ## Descriptors, errno values, status codes -/

/-- `socket_handle_t`, a file descriptor. -/
abbrev Fd := Int

/-- `errno` after an interrupted call. -/
def EINTR : Int := 4
/-- `errno` after a call that would have blocked. -/
def EAGAIN : Int := 35

def socketStatusGood : Int := 0
def socketStatusEof : Int := -1001
def socketStatusError : Int := -1002
def socketStatusEagain : Int := -1003

def blkReadStatusOk : Int := 0
def blkReadStatusEof : Int := -2004
def blkReadStatusParseError : Int := -2005
def blkReadStatusIoerror : Int := -2006

def blkWriteStatusOk : Int := 0

/-! ## `read` -/

/-- What one `read` into the 10000-byte buffer of `readMessage` can deliver. -/
structure Chunk where
  bytes : Bytes
  bytes_ne : bytes ≠ []
  length_le : bytes.length ≤ 10000
deriving DecidableEq, Repr

/-- The outcome of a `read` call. -/
inductive ReadOutcome
  | data (c : Chunk)
  | eof
  | fail (errno : Int)
deriving DecidableEq, Repr

namespace ReadOutcome

/-- The bytes that are in the buffer afterwards. -/
def bytes : ReadOutcome → Bytes
  | data c => c.bytes
  | eof => []
  | fail _ => []

/-- The return value of `read`. -/
def ret : ReadOutcome → Int
  | data c => c.bytes.length
  | eof => 0
  | fail _ => -1

/-- `errno` after the call; only looked at when it failed. -/
def errno : ReadOutcome → Int
  | data _ => 0
  | eof => 0
  | fail e => e

end ReadOutcome

/-- `socket_read_data`: the return value and `*status`. -/
def socketReadData (o : ReadOutcome) : Int × Int :=
  let howMuch := o.ret
  let savedErrno := o.errno
  let isError : Bool := howMuch = -1 ∧ savedErrno ≠ EAGAIN ∧ savedErrno ≠ EINTR
  if howMuch > 0 then (howMuch, socketStatusGood)
  else if howMuch = 0 ∧ isError = false then (howMuch, socketStatusEof)
  else if savedErrno = EAGAIN then (howMuch, socketStatusEagain)
  else (howMuch, socketStatusError)

@[simp] theorem socketReadData_data (c : Chunk) :
    socketReadData (.data c) = ((c.bytes.length : Int), socketStatusGood) := by
  have hpos := List.length_pos_iff.mpr c.bytes_ne
  exact if_pos (by show (c.bytes.length : Int) > 0; omega)

/-- A failed `read` returns `-1`, whatever status it stores. -/
theorem socketReadData_fail (e : Int) : (socketReadData (.fail e)).1 = -1 := by
  have hneg : ¬ (ReadOutcome.fail e).ret > 0 := by show ¬ (-1 : Int) > 0; decide
  have hne : ¬ (ReadOutcome.fail e).ret = 0 := by show ¬ (-1 : Int) = 0; decide
  simp only [socketReadData]
  rw [if_neg hneg, if_neg fun h => hne h.1]
  split <;> rfl

/-! ## `write` -/

/-- The outcome of a `write` call: the whole buffer, at most `n` bytes of it, or an error. -/
inductive WriteOutcome
  | all
  | some (n : Nat)
  | fail (errno : Int)
deriving DecidableEq, Repr

/-- The return value of `write` for a buffer of `len` bytes. -/
def WriteOutcome.ret (len : Nat) : WriteOutcome → Int
  | all => len
  | some n => min n len
  | fail _ => -1

/-- A write that takes `len` bytes, when it is given as many. -/
def WriteOutcome.takes (len : Nat) : WriteOutcome → Bool
  | all => true
  | some n => len ≤ n
  | fail _ => false

theorem WriteOutcome.le_ret_iff {len size : Nat} {o : WriteOutcome} (hpos : 0 < len) :
    len ≤ (o.ret size).toNat ↔ len ≤ size ∧ o.takes len = true := by
  cases o with
  | all =>
    show len ≤ (size : Int).toNat ↔ len ≤ size ∧ true = true
    rw [Int.toNat_natCast, and_iff_left rfl]
  | some n =>
    show len ≤ (min n size : Int).toNat ↔ len ≤ size ∧ decide (len ≤ n) = true
    rw [decide_eq_true_iff]
    omega
  | fail e =>
    show len ≤ (-1 : Int).toNat ↔ len ≤ size ∧ false = true
    exact iff_of_false (by omega) fun h => Bool.false_ne_true h.2

theorem WriteOutcome.ret_le_size (o : WriteOutcome) (size : Nat) : o.ret size ≤ size := by
  cases o with
  | all => exact Int.le_refl _
  | some n => exact Int.min_le_right _ _
  | fail e =>
    show (-1 : Int) ≤ size
    omega

/-- The same as the `int` that `socket_write_data` makes of it; the `int` length of the buffer is
    converted to the `size_t` that `write` takes. -/
def WriteOutcome.res (bufferLength : Int32) (o : WriteOutcome) : Int32 :=
  Int32.ofInt (o.ret (sizeOfInt bufferLength))

/-- `socket_write_data`: the result and what it stores in `*status`, if anything; `none` is the
    failing `assert(false)` of a partial write. -/
def socketWriteData (o : WriteOutcome) (bufferLength : Int32) : Option (Bool × Option Int) :=
  let res := o.res bufferLength
  if 0 < res ∧ res = bufferLength then some (true, none)
  else if 0 < res ∧ res < bufferLength then none
  else if res < 0 then some (false, some socketStatusError)
  else some (false, some socketStatusError)

/-- A write is PARTIAL when it takes some of the bytes and not all. -/
def WriteOutcome.Partial (bufferLength : Int32) (o : WriteOutcome) : Prop :=
  0 < o.res bufferLength ∧ o.res bufferLength < bufferLength

instance (bufferLength : Int32) (o : WriteOutcome) : Decidable (o.Partial bufferLength) :=
  inferInstanceAs (Decidable (_ ∧ _))

/-- The assertion of `socket_write_data` fails exactly on a partial write. -/
theorem socketWriteData_eq_none {o : WriteOutcome} {bufferLength : Int32} :
    socketWriteData o bufferLength = none ↔ o.Partial bufferLength := by
  simp only [socketWriteData, WriteOutcome.Partial]
  constructor
  · intro h
    split at h
    · cases h
    · split at h
      · assumption
      · split at h <;> cases h
  · rintro ⟨hpos, hlt⟩
    have hne : o.res bufferLength ≠ bufferLength := Int32.ne_of_lt hlt
    rw [if_neg fun h => hne h.2, if_pos ⟨hpos, hlt⟩]

/-- A write that takes the whole buffer is not partial, whatever `int` the length is. -/
theorem not_partial_all (bufferLength : Int32) : ¬ WriteOutcome.all.Partial bufferLength := by
  rintro ⟨-, hlt⟩
  have hres : WriteOutcome.all.res bufferLength = bufferLength := by
    apply Int32.toInt_inj.mp
    have hlo := Int32.le_toInt bufferLength
    have hhi := Int32.toInt_lt bufferLength
    show (Int32.ofInt (sizeOfInt bufferLength)).toInt = bufferLength.toInt
    have hsize : (Int32.size : Int) = 2 ^ 32 := rfl
    simp only [Int32.toInt_ofInt, Int.bmod, hsize, sizeOfInt]
    split
    · omega
    · omega
  rw [hres] at hlt
  exact Int32.lt_irrefl hlt

/-! ## Connecting -/

/-- The outcome of one run of `socket_connect_host_port`: the lookup fails, `socket` fails, the
    `connect` on a new descriptor fails, or it succeeds. -/
inductive DialOutcome
  | lookupFailed (errno : Int)
  | socketFailed (errno : Int)
  | connectFailed (fd : Nat) (errno : Int)
  | connected (fd : Nat)
deriving DecidableEq, Repr

namespace DialOutcome

/-- The descriptor that `socket_connect_host_port` returns (`0` on every failure). -/
def ret : DialOutcome → Fd
  | connected fd => fd
  | _ => 0

/-- What it stores in `*status`: `errno` on a failure, `0` on success. -/
def status : DialOutcome → Int
  | lookupFailed e => e
  | socketFailed e => e
  | connectFailed _ e => e
  | connected _ => 0

/-- The descriptor that the call has opened, closed or not. -/
def opened : DialOutcome → Option Nat
  | lookupFailed _ => none
  | socketFailed _ => none
  | connectFailed fd _ => some fd
  | connected fd => some fd

end DialOutcome

/-- The conversion of the `int` port to the parameter's type `unsigned short`. -/
def portOfInt (port : Int32) : UInt16 := UInt16.ofNat (port.toInt % 2 ^ 16).toNat

/-- For a port number that exists the conversion changes nothing. -/
theorem toNat_portOfInt {port : Int32} (h0 : 0 ≤ port.toInt) (h1 : port.toInt < 2 ^ 16) :
    ((portOfInt port).toNat : Int) = port.toInt := by
  unfold portOfInt
  rw [UInt16.toNat_ofNat']
  omega

/-- The narrowing keeps a number exactly if it is in the range of the narrow type. -/
theorem toNat_portOfInt_iff {port : Int32} :
    ((portOfInt port).toNat : Int) = port.toInt ↔ 0 ≤ port.toInt ∧ port.toInt < 2 ^ 16 := by
  constructor
  · intro h
    have hlt := (portOfInt port).toNat_lt
    omega
  · rintro ⟨h0, h1⟩
    exact toNat_portOfInt h0 h1

end Pixie.Net
