/-
  The switch of `http_parser_execute` in bodies, on a byte that is the last of the buffer.

  `content_length` is not 0 where bytes are still expected, and never `ULLONG_MAX`: so the assertions
  of the states hold, and the length comes to 0 at the last byte of a body or a chunk.
-/
import Pixie.Engine.Headers

namespace Pixie.Engine

open Pixie.Decimal Pixie.Http Pixie.Run

variable {s s' : State} {o : Open} {ph : Phase} {ch : UInt8} {p q : HttpParser}

theorem unhex_lt {c : UInt8} {v : Nat} (h : unhex c = some v) : v < 16 := by
  unfold unhex at h
  split at h
  · rename_i hnum
    have := isNum_digit hnum
    simp only [Option.some.injEq] at h
    omega
  · split at h
    · rename_i hc
      have hle : c.toNat ≤ 70 := UInt8.le_iff_toNat_le.mp hc.2
      simp only [Option.some.injEq] at h
      omega
    · split at h
      · rename_i hc
        have hle : c.toNat ≤ 102 := UInt8.le_iff_toNat_le.mp hc.2
        simp only [Option.some.injEq] at h
        omega
      · split at h
        · simp only [Option.some.injEq] at h
          omega
        · cases h

theorem fits_of_inBody (hs : s.inBody = true) : Fits s o ↔ o = none ∨ o.map Prod.fst = some .body := by
  unfold Fits
  rw [if_pos hs]

/-- What is open in a body: nothing, or some of its bytes. -/
theorem open_cases (h : o = none ∨ o.map Prod.fst = some .body) : o = none ∨ ∃ d, o = some (.body, d) := by
  rcases h with rfl | h
  · exact .inl rfl
  · obtain ⟨⟨k, d⟩, rfl, rfl⟩ := Option.map_eq_some_iff.mp h
    exact .inr ⟨d, rfl⟩

/-- After `MARK(body)` a string of the body is open. -/
theorem opened_body {m : Pass} (hm : m.mark = some .body)
    (h : o = none ∨ o.map Prod.fst = some .body) : ∃ d, m.opened o = some (.body, d) := by
  unfold Pass.opened
  rw [hm]
  rcases open_cases h with rfl | ⟨d, rfl⟩
  · exact ⟨[], rfl⟩
  · exact ⟨d, rfl⟩

/-- A byte of the body, with more to come. -/
theorem good_body (ho : o = none ∨ o.map Prod.fst = some .body) (hlive : Live q) (hat : At q ph)
    (hs : q.state.inBody = true) : Good s o ph ch (some { parser := q, mark := some .body }) := by
  obtain ⟨d, hd⟩ := opened_body (m := { parser := q, mark := some .body }) rfl ho
  refine ⟨_, rfl, rfl, ?_, ph, .nil ph, ⟨hlive, hat, ?_⟩, ?_⟩
  · intro s' hs'
    rw [hd] at hs'
    cases hs'
    exact within_mark rfl (.inl rfl)
  · rw [fits_of_inBody hs]
    refine .inr ?_
    show (Pass.opened { parser := q, mark := some .body } o).map Prod.fst = some .body
    rw [hd]
    rfl
  · apply rests_of_settled
    revert hs
    cases q.state <;> simp [State.inBody, State.settled]

theorem bodyIdentityEof_good (hlive : Live q) (hs : q.state = .bodyIdentityEof) (hph : ph = .bodyEof)
    (ho : o = none ∨ o.map Prod.fst = some .body) :
    Good .bodyIdentityEof o ph ch (bodyIdentityEof q 1) :=
  good_body ho hlive (by simp only [At, hs]; exact hph) (by rw [hs]; rfl)

theorem chunkData_good (hlive : Live q) (hs : q.state = .chunkData)
    (hat : ph = .body ∧ q.flags.chunked = true ∧ q.contentLength < ullongMax ∧ q.contentLength ≠ 0)
    (ho : o = none ∨ o.map Prod.fst = some .body) : Good .chunkData o ph ch (chunkData q 1) := by
  obtain ⟨hph, hchunked, hlt, hne⟩ := hat
  have hread : min q.contentLength 1 = 1 := by omega
  unfold chunkData
  rw [if_neg (by simp [hchunked, hne, hlt.ne]), hread]
  dsimp only
  split
  · rename_i hzero
    exact good_body ho ⟨hlive.1, by show q.contentLength - 1 ≤ _; omega⟩ ⟨hph, hchunked, hzero⟩ rfl
  · rename_i hmore
    refine good_body ho ⟨hlive.1, by show q.contentLength - 1 ≤ _; omega⟩ ?_ (by rw [hs]; rfl)
    simp only [At, hs]
    exact ⟨hph, hchunked, by omega, hmore⟩

theorem bodyIdentity_good (hlive : Live q) (hs : q.state = .bodyIdentity)
    (hat : ph = .body ∧ q.contentLength < ullongMax ∧ q.contentLength ≠ 0)
    (ho : o = none ∨ o.map Prod.fst = some .body) :
    Good .bodyIdentity o ph ch (bodyIdentity q 1) := by
  obtain ⟨rfl, hlt, hne⟩ := hat
  have hread : min q.contentLength 1 = 1 := by omega
  unfold bodyIdentity
  rw [if_neg (by simp [hne, hlt.ne]), hread]
  dsimp only
  split
  · -- The last byte of the body: it is handed over with it, and looked at again.
    rename_i hzero
    obtain ⟨d, hd⟩ := opened_body (m := { parser := q, mark := some .body }) rfl ho
    have hresult : handOver .body (Pass.opened { parser := q, mark := some .body } o) [ch] =
        ([.body (d ++ [ch])], none) := by
      rw [hd, handOver_same]
      rfl
    refine ⟨_, rfl, rfl, ?_, .body, ?_, ?_⟩
    · intro s' hs'
      obtain rfl : (.body, d) = s' := Option.some.inj (hd.symm.trans hs')
      exact within_mark rfl (.inr (.inr rfl))
    · show Path Emits .body (handOver .body (Pass.opened { parser := q, mark := some .body } o) [ch]).1 _
      rw [hresult]
      exact .cons (.body _) (.nil _)
    · show Stands _ (handOver .body (Pass.opened { parser := q, mark := some .body } o) [ch]).2 _ ∧ _
      rw [hresult]
      refine ⟨⟨⟨hlive.1, ?_⟩, rfl, rfl⟩, Nat.zero_lt_one, rfl⟩
      show q.contentLength - 1 ≤ _
      omega
  · rename_i hmore
    refine good_body ho ⟨hlive.1, by show q.contentLength - 1 ≤ _; omega⟩ ?_ (by rw [hs]; rfl)
    simp only [At, hs]
    exact ⟨trivial, by omega, hmore⟩

theorem chunkSizeStart_good (hlive : Live q) (hph : ph = .body) (hchunked : q.flags.chunked = true)
    (hnread : q.nread = 1) : Good .chunkSizeStart none ph ch (chunkSizeStart q ch) := by
  unfold chunkSizeStart
  rw [if_neg (by simp [hnread, hchunked])]
  split
  · exact good_fail (by decide)
  · rename_i v hv
    have hlt : v < ullongMax := (unhex_lt hv).trans (by decide)
    exact good_stay ⟨⟨hlive.1, hlt.le⟩, ⟨hph, hchunked, hlt⟩, rfl⟩ (rests_of_settled rfl)

/-- In the line of a chunk's size. -/
theorem stands_chunkSize (hlive : Live q)
    (hat : ph = .body ∧ q.flags.chunked = true ∧ q.contentLength < ullongMax)
    (hs : q.state = .chunkSize ∨ q.state = .chunkParameters ∨ q.state = .chunkSizeAlmostDone) :
    Stands q none ph := by
  rcases hs with hs | hs | hs
  · exact ⟨hlive, by simp only [At, hs]; exact hat, by simp [Fits, hs, State.inBody, openMark]⟩
  · exact ⟨hlive, by simp only [At, hs]; exact hat, by simp [Fits, hs, State.inBody, openMark]⟩
  · exact ⟨hlive, by simp only [At, hs]; exact hat, by simp [Fits, hs, State.inBody, openMark]⟩

theorem chunkSize_good (hlive : Live q) (hs : q.state = .chunkSize)
    (hat : ph = .body ∧ q.flags.chunked = true ∧ q.contentLength < ullongMax) :
    Good .chunkSize none ph ch (chunkSize q ch) := by
  unfold chunkSize
  rw [if_neg (by simp [hat.2.1])]
  split
  · exact good_stay (stands_chunkSize hlive hat (.inr (.inr rfl))) (rests_of_settled rfl)
  · split
    · split
      · exact good_stay (stands_chunkSize hlive hat (.inr (.inl rfl))) (rests_of_settled rfl)
      · exact good_fail (by decide)
    · rename_i v hv
      split
      · rename_i r hr
        obtain ⟨rfl, hlt⟩ := moreLength_ok le_rfl (unhex_lt hv) hr
        exact good_stay (stands_chunkSize ⟨hlive.1, hlt.le⟩ ⟨hat.1, hat.2.1, hlt⟩ (.inl hs))
          (rests_of_settled ((congrArg State.settled hs).trans rfl))
      · rename_i e he
        exact good_fail (moreLength_error he)

theorem chunkParameters_good (hlive : Live q) (hs : q.state = .chunkParameters)
    (hat : ph = .body ∧ q.flags.chunked = true ∧ q.contentLength < ullongMax) :
    Good .chunkParameters none ph ch (chunkParameters q ch) := by
  unfold chunkParameters
  rw [if_neg (by simp [hat.2.1])]
  split
  · exact good_stay (stands_chunkSize hlive hat (.inr (.inr rfl))) (rests_of_settled rfl)
  · exact good_stay (stands_chunkSize hlive hat (.inr (.inl hs)))
      (rests_of_settled ((congrArg State.settled hs).trans rfl))

theorem chunkSizeAlmostDone_good (hlive : Live q)
    (hat : ph = .body ∧ q.flags.chunked = true ∧ q.contentLength < ullongMax) :
    Good .chunkSizeAlmostDone none ph ch (chunkSizeAlmostDone q ch) := by
  obtain ⟨rfl, hchunked, hlt⟩ := hat
  unfold chunkSizeAlmostDone
  rw [if_neg (by simp [hchunked])]
  split
  · exact good_fail (by decide)
  · split
    · exact good_stay ⟨hlive, .inl rfl, rfl⟩ (rests_of_settled rfl)
    · rename_i hne
      exact good_stay ⟨hlive, ⟨rfl, hchunked, hlt, hne⟩, .inl rfl⟩ (rests_of_settled rfl)

theorem chunkDataAlmostDone_good (hlive : Live q)
    (hat : ph = .body ∧ q.flags.chunked = true ∧ q.contentLength = 0)
    (ho : o = none ∨ o.map Prod.fst = some .body) :
    Good .chunkDataAlmostDone o ph ch (chunkDataAlmostDone q ch) := by
  obtain ⟨rfl, hchunked, hzero⟩ := hat
  unfold chunkDataAlmostDone
  rw [if_neg (by simp [hchunked, hzero])]
  split
  · exact good_fail (by decide)
  · have hstands : Stands (q.goto .chunkDataDone) none .body := ⟨hlive, ⟨rfl, hchunked⟩, rfl⟩
    rcases open_cases ho with rfl | ⟨d, rfl⟩
    · exact ⟨_, rfl, rfl, within_none rfl, .body, .nil _, hstands, rests_of_settled rfl⟩
    · exact good_close (.body d) hstands (rests_of_settled rfl)

theorem chunkDataDone_good (hlive : Live q) (hph : ph = .body) (hchunked : q.flags.chunked = true) :
    Good .chunkDataDone none ph ch (chunkDataDone q ch) := by
  unfold chunkDataDone
  rw [if_neg (by simp [hchunked])]
  split
  · exact good_fail (by decide)
  · exact good_stay ⟨hlive, ⟨hph, hchunked⟩, rfl⟩ (rests_chunkSizeStart rfl)

end Pixie.Engine
