/-
  What `blk_proxy_rules` makes of a request, and whether the upstream can read it.

  The rewritten body is `MITM 8002 : ` and the old one, 12 bytes longer, and its length is stored
  through the cast `(int)new_body.length()`.  The parser accepts every length that an `int` can
  hold, so at the upper end the cast wraps and the request that goes out declares a negative length.
  `rewritten_iff`: the rewriting is right exactly for the requests whose length leaves room for the
  prefix.
-/
import Pixie.Blk.Stream
import Pixie.Blk.Decoder

namespace Pixie.Blk

open Pixie.Decimal BlkParser

/-- The rewritten request declares the length of its body, and its encoding is decoded, in whatever
    pieces, to the request that was encoded. -/
structure Rewritten (out : BlkMessage) : Prop where
  nonneg : 0 ≤ out.messageLength.toInt
  counts : out.messageLength.toInt = out.body.length
  decodes : Decodes out

theorem length_mitmPrefix : mitmPrefix.length = 12 := by decide

theorem length_rewritten_body (m out : BlkMessage) :
    (blkProxyRules m out).body.length = m.body.length + 12 := by
  show (mitmPrefix ++ m.body).length = _
  rw [List.length_append, length_mitmPrefix, Nat.add_comm]

/-- A request with the length of its body comes out as the constructor would make it. -/
theorem blkProxyRules_make (port : Int32) (verb body : Bytes) :
    blkProxyRules (BlkMessage.make port verb body) (BlkMessage.make port verb body) =
      BlkMessage.make port verb (mitmPrefix ++ body) := rfl

/-- Below 2^31 bytes the constructed message is what the parser reads back. -/
theorem rewritten_of_lt {port : Int32} {verb body : Bytes} (hv : verb = NORMAL ∨ verb = TUNNEL)
    (hne : body ≠ []) (hlen : body.length < 2 ^ 31) :
    Rewritten (BlkMessage.make port verb body) := by
  have hint : (Int32.ofNat body.length).toInt = body.length := Int32.toInt_ofNat_of_lt hlen
  refine ⟨?_, hint, ?_⟩
  · show 0 ≤ (Int32.ofNat body.length).toInt
    omega
  · exact decodes_frame (Frame.ofMessage port verb body hv hne hlen) _
      (Frame.bytes_ofMessage hv hne hlen) (Frame.message_ofMessage hv hne hlen)

/-- No `int` counts more bytes. -/
theorem Rewritten.length_lt {out : BlkMessage} (h : Rewritten out) : out.body.length < 2 ^ 31 := by
  have hcounts := h.counts
  have hhi := Int32.toInt_lt out.messageLength
  omega

/-- **When the rewriting of a request is right**: for every request that completes a fresh parser,
    with a declared length from 1 on, exactly when the length and the 12 bytes of the prefix fit an
    `int`. -/
theorem rewritten_iff (msg : BlkMessage) (cs : List Bytes) (m : BlkMessage)
    (hdone : ((new msg).appendAll cs).messageComplete = true)
    (hm : ((new msg).appendAll cs).msg = m) (hpos : 1 ≤ m.messageLength.toInt) :
    Rewritten (blkProxyRules m m) ↔ m.messageLength.toInt + 12 < 2 ^ 31 := by
  rw [appendAll_flatten rfl] at hdone hm
  obtain ⟨f, u, hu⟩ := (append_complete_iff msg _).mp hdone
  rw [← hu, append_frame] at hm
  obtain rfl : f.message = m := hm
  -- the declared length is the number of body bytes
  have hlen : f.lenVal.toInt = f.body.length := by
    have hsize := sizeOfInt_of_nonneg (n := f.lenVal) (by
      change 1 ≤ f.lenVal.toInt at hpos
      omega)
    rw [← hsize, ← f.body_len]
  have hhi := Int32.toInt_lt f.lenVal
  show _ ↔ f.lenVal.toInt + 12 < 2 ^ 31
  constructor
  · intro h
    have hlt := h.length_lt
    rw [length_rewritten_body] at hlt
    change f.body.length + 12 < 2 ^ 31 at hlt
    omega
  · intro hfit
    rw [f.message_eq_make (by omega), blkProxyRules_make]
    apply rewritten_of_lt f.verb_ok
    · simp [mitmPrefix, ascii]
    · rw [List.length_append, length_mitmPrefix]
      omega

theorem rewritten_iff_ping : Rewritten (blkProxyRules ping ping) ↔ ping.messageLength.toInt + 12 < 2 ^ 31 :=
  rewritten_iff BlkMessage.blank [ascii "START\n80\nNOR", ascii "MAL\n1\na"] ping (by decide)
    (by decide) (by decide)

/-- A request with the largest length that an `int` can hold. -/
theorem not_rewritten_largest : ¬ ∀ (msg : BlkMessage) (cs : List Bytes) (m : BlkMessage),
    ((new msg).appendAll cs).messageComplete = true → ((new msg).appendAll cs).msg = m →
    1 ≤ m.messageLength.toInt → Rewritten (blkProxyRules m m) := by
  intro h
  obtain ⟨body, hbody⟩ : ∃ body : Bytes, body.length = 2147483647 :=
    ⟨List.replicate 2147483647 97, List.length_replicate⟩
  have hne : body ≠ [] := List.ne_nil_of_length_pos (by omega)
  let f := Frame.ofMessage 80 NORMAL body (Or.inl rfl) hne (by omega)
  have happ : (new BlkMessage.blank).appendAll [f.bytes] = afterFrame BlkMessage.blank f := by
    have hone := append_frame BlkMessage.blank f []
    rw [List.append_nil] at hone
    rw [appendAll_flatten rfl, List.flatten_singleton, hone]
  have hint : (Int32.ofNat body.length).toInt = body.length := Int32.toInt_ofNat_of_lt (by omega)
  have hright := h BlkMessage.blank [f.bytes] f.message (by rw [happ]; rfl) (by rw [happ]; rfl) (by
    show 1 ≤ (Int32.ofNat body.length).toInt
    omega)
  have hlt := hright.length_lt
  rw [length_rewritten_body] at hlt
  change body.length + 12 < 2 ^ 31 at hlt
  omega

end Pixie.Blk
