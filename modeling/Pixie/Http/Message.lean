/-
  What the HTTP wrapper builds and what it builds it from (`HTTPMessage.hpp`, `simple_buffer.c`).

  A header map is a `std::map<std::string, std::string>`, here a finite map of byte strings:
  `(*headers)[n] = v` is `insert`, which replaces the value of a name that is already there.

  A `simple_buffer_t` stands for the bytes it has in use; an append puts bytes at their end.  The
  allocations are taken to succeed, and no string comes to 2^31 bytes (`used` is an `int`).
-/
import Mathlib.Data.Finmap
import Pixie.Lib.Decimal

namespace Pixie.Http

open Pixie.Decimal

/-! ## Buffers -/

/-- `simple_buffer_t`: the first `used` bytes of its block. -/
abbrev SimpleBuffer := Bytes

/-- `sb_create`. -/
def sbCreate : SimpleBuffer := []

/-- `sb_append`. -/
def sbAppend (sb : SimpleBuffer) (data : Bytes) : SimpleBuffer := sb ++ data

@[simp] theorem sbAppend_sbCreate (data : Bytes) : sbAppend sbCreate data = data := rfl

/-! ## Messages -/

/-- `MessageHeaders`. -/
abbrev MessageHeaders := Finmap (fun _ : Bytes => Bytes)

/-- `class HTTPMessage`.  The constructor leaves the four numbers indeterminate: they are `none`
    until `headers_complete_cb` stores them. -/
structure HTTPMessage where
  method : Option Nat
  url : Bytes
  statusCode : Option Nat
  status : Bytes
  httpMajor : Option Nat
  httpMinor : Option Nat
  headers : MessageHeaders
  body : Bytes
deriving DecidableEq

/-- `HTTPMessage::HTTPMessage()`. -/
def HTTPMessage.new : HTTPMessage := ⟨none, [], none, [], none, none, ∅, []⟩

/-- The numbers of a first line, as `http_parser` holds them when the headers are complete: the
    method of a request, the status code of a response, the version of both. -/
structure FirstLine where
  method : Nat
  statusCode : Nat
  httpMajor : Nat
  httpMinor : Nat
deriving DecidableEq, Repr

end Pixie.Http
