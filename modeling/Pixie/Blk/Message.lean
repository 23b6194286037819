/-
  The BLK message (`BlkMessage.h`, `BlkMessage.cpp`): the record, its two constructors and its
  encoder.

  A message on the wire is

      START\n<destination_port>\n<request verb>\n<body_length>\n<body>

  `BlkMessage` holds the five fields the parser fills in.  `toRawString` writes them out with
  `std::to_string` for the two ints; it copies `firstLine`, `request_verb` and `body` as they are,
  so it is `make` (the constructor with a body) that ties `messageLength` to the body — through the
  cast `(int)body.length()`, which wraps from 2^31 bytes on.

  `blkProxyRules` is the one rewriting the proxy does on a request (`HandlerBlk.cpp`); it lives
  here because it is a function of messages alone.
-/
import Pixie.Lib.Decimal

namespace Pixie.Blk

open Pixie.Decimal

/-! ## The keywords of the protocol -/

def START : Bytes := ascii "START"
def NORMAL : Bytes := ascii "NORMAL"
def TUNNEL : Bytes := ascii "TUNNEL"

/-- The line terminator `'\n'`. -/
abbrev newline : UInt8 := 10

/-- `toupper` in the C locale. -/
def toupper (c : UInt8) : UInt8 := if 97 ≤ c && c ≤ 122 then c - 32 else c

/-! ## The record -/

/-- `class BlkMessage`. -/
structure BlkMessage where
  firstLine : Bytes
  destinationPort : Int32
  requestVerb : Bytes
  messageLength : Int32
  body : Bytes
deriving DecidableEq, Repr

namespace BlkMessage

/-- `BlkMessage::BlkMessage()`.  The source leaves the two ints indeterminate; they are `0` here,
    and nothing reads them before a parser or a caller has assigned them. -/
def blank : BlkMessage := ⟨START, 0, [], 0, []⟩

/-- `BlkMessage::BlkMessage(int, std::string, std::string)`; the length is the cast
    `(int)body.length()`. -/
def make (port : Int32) (verb bodyString : Bytes) : BlkMessage :=
  ⟨START, port, verb, Int32.ofNat bodyString.length, bodyString⟩

/-- `BlkMessage::toRawString`. -/
def toRawString (m : BlkMessage) : Bytes :=
  m.firstLine ++ newline :: (to_string m.destinationPort ++ newline :: (m.requestVerb ++
    newline :: (to_string m.messageLength ++ newline :: m.body)))

/-- `BlkMessage::isTunnelRequest`. -/
def isTunnelRequest (m : BlkMessage) : Bool := m.requestVerb == TUNNEL

/-- What the constructor with a body can build for the two verbs of the protocol. -/
def Constructed (m : BlkMessage) : Prop :=
  ∃ port verb body, (verb = NORMAL ∨ verb = TUNNEL) ∧ m = make port verb body

theorem length_toRawString (m : BlkMessage) : m.toRawString.length = m.firstLine.length +
    (to_string m.destinationPort).length + m.requestVerb.length +
    (to_string m.messageLength).length + m.body.length + 4 := by
  simp only [toRawString, List.length_append, List.length_cons]
  omega

theorem length_toRawString_pos (m : BlkMessage) : 0 < m.toRawString.length := by
  rw [length_toRawString]
  omega

end BlkMessage

/-! ## The proxy's rewriting of a request -/

/-- The prefix `"MITM 8002 : "` that `blk_proxy_rules` puts in front of a body. -/
def mitmPrefix : Bytes := ascii "MITM 8002 : "

/-- `blk_proxy_rules(in_msg, out_msg)`: it assigns three fields of `out_msg` and leaves the port
    and the verb that were there. -/
def blkProxyRules (inMsg outMsg : BlkMessage) : BlkMessage :=
  { outMsg with
    firstLine := inMsg.firstLine
    body := mitmPrefix ++ inMsg.body
    messageLength := Int32.ofNat (mitmPrefix ++ inMsg.body).length }

end Pixie.Blk
