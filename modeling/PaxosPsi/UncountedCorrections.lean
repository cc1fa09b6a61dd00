import PaxosPsi.CheckSoundness

/-! `recvCorrection` without a count. It takes what a message holds, so whole rows that still
fit are stored and counted as by the receive that is told how many there are, and any other
message ends the run with an error. -/
namespace PaxosPsi
open CountedLoop XorAlgebra Memory

namespace PrtyMOtSender

/-- One receive after the other, and how many corrections they counted. -/
def recvAllAtMost : List (List Block) → PrtyMOtSender → Except Error (Nat × PrtyMOtSender)
  | [], s => .ok (0, s)
  | message :: messages, s => do
    let (count, s) ← s.recvCorrectionAtMost message
    let (total, s) ← recvAllAtMost messages s
    pure (count + total, s)

section Message
variable {s s' : PrtyMOtSender} {message : List Block}

theorem atMostTooLong (long : (s.mCorrectionVals.rows - s.mCorrectionIdx) * s.mCorrectionVals.mStride < message.length) :
    ∃ e, s.recvCorrectionAtMost message = .error e := by
  unfold recvCorrectionAtMost
  dsimp only
  rw [if_pos long]
  exact ⟨_, rfl⟩

theorem atMostUneven (uneven : message.length % s.mCorrectionVals.mStride ≠ 0) :
    ∃ e, s.recvCorrectionAtMost message = .error e := by
  by_cases long : (s.mCorrectionVals.rows - s.mCorrectionIdx) * s.mCorrectionVals.mStride < message.length
  · exact atMostTooLong long
  · unfold recvCorrectionAtMost recvBlocks
    dsimp only
    rw [if_neg long, if_pos rfl]
    simp only [bind, Except.bind, pure, Except.pure, if_pos uneven]
    exact ⟨_, rfl⟩

theorem atMostRows {n : Nat} (sized : message.length = n * s.mCorrectionVals.mStride)
    (wide : 0 < s.mCorrectionVals.mStride) (fits : n ≤ s.mCorrectionVals.rows - s.mCorrectionIdx)
    (stored : s.recvCorrection n message = .ok s') : s.recvCorrectionAtMost message = .ok (n, s') := by
  have short : ¬ (s.mCorrectionVals.rows - s.mCorrectionIdx) * s.mCorrectionVals.mStride < message.length := by
    rw [sized]
    exact Nat.not_lt.mpr (Nat.mul_le_mul_right _ fits)
  have even : message.length % s.mCorrectionVals.mStride = 0 := by rw [sized, Nat.mul_mod_left]
  have count : message.length / s.mCorrectionVals.mStride = n := by rw [sized, Nat.mul_div_cancel _ wide]
  unfold recvCorrection recvBlocks at stored
  rw [if_pos sized] at stored
  cases stored
  unfold recvCorrectionAtMost recvBlocks
  dsimp only
  rw [if_neg short, if_pos rfl]
  simp only [bind, Except.bind, pure, Except.pure, even, ne_eq, not_true_eq_false, if_false, count]
  rw [sized]
  rfl

theorem recvCorrectionRows {n : Nat} (stored : s.recvCorrection n message = .ok s') :
    s'.mCorrectionVals.rows = s.mCorrectionVals.rows := by
  unfold recvCorrection recvBlocks at stored
  split at stored
  · cases stored
    rfl
  · cases stored

end Message

/-- A run of receives that are not told their counts goes through exactly where all messages
are whole rows and the rows fit; it is then the run of those that are told. -/
theorem uncountedCorrections (s : PrtyMOtSender) (messages : List (List Block))
    (wide : 0 < s.mCorrectionVals.mStride) (room : s.mCorrectionIdx ≤ s.mCorrectionVals.rows) :
    let total := (messages.map fun message => message.length / s.mCorrectionVals.mStride).sum
    let received := (∀ message ∈ messages, message.length % s.mCorrectionVals.mStride = 0) ∧
      s.mCorrectionIdx + total ≤ s.mCorrectionVals.rows
    (received → ∃ s', s.recvAllAtMost messages = .ok (total, s') ∧ s'.mCorrectionIdx = s.mCorrectionIdx + total ∧
      s.recvAll (messages.map fun message => (message.length / s.mCorrectionVals.mStride, message)) = .ok s') ∧
    (¬ received → ∃ e, s.recvAllAtMost messages = .error e) := by
  induction messages generalizing s with
  | nil =>
    refine ⟨fun _ => ⟨s, rfl, rfl, rfl⟩, fun fails => absurd ⟨fun message listed => ?_, room⟩ fails⟩
    exact absurd listed List.not_mem_nil
  | cons message messages ih =>
    dsimp only
    unfold recvAllAtMost recvAll
    simp only [List.map_cons, List.sum_cons, List.mem_cons, forall_eq_or_imp, List.foldlM_cons, bind, Except.bind]
    by_cases even : message.length % s.mCorrectionVals.mStride = 0
    · generalize count : message.length / s.mCorrectionVals.mStride = n
      have sized : message.length = n * s.mCorrectionVals.mStride := by
        rw [← count, Nat.div_mul_cancel (Nat.dvd_of_mod_eq_zero even)]
      by_cases fits : n ≤ s.mCorrectionVals.rows - s.mCorrectionIdx
      · obtain ⟨s1, stored⟩ := recvCorrectionOk sized
        obtain ⟨-, -, -, -, stride, idx⟩ := recvCorrectionKeeps stored
        have rows := recvCorrectionRows stored
        have later := ih s1 (by omega) (by omega)
        rw [atMostRows sized wide fits stored, stored]
        dsimp only at later ⊢
        rw [stride, rows, idx] at later
        generalize (messages.map fun message => message.length / s.mCorrectionVals.mStride).sum = rest at later ⊢
        refine ⟨fun received => ?_, fun fails => ?_⟩
        · obtain ⟨s', ran, reached, told⟩ := later.1 ⟨received.1.2, by omega⟩
          unfold recvAll at told
          rw [ran]
          exact ⟨s', rfl, by omega, told⟩
        · obtain ⟨e, threw⟩ := later.2 fun received => fails ⟨⟨even, received.1⟩, by omega⟩
          rw [threw]
          exact ⟨e, rfl⟩
      · have long : (s.mCorrectionVals.rows - s.mCorrectionIdx) * s.mCorrectionVals.mStride < message.length := by
          rw [sized]
          exact Nat.mul_lt_mul_of_pos_right (Nat.not_le.mp fits) wide
        obtain ⟨e, threw⟩ := atMostTooLong long
        rw [threw]
        exact ⟨fun received => absurd received.2 (by omega), fun _ => ⟨e, rfl⟩⟩
    · obtain ⟨e, threw⟩ := atMostUneven even
      rw [threw]
      exact ⟨fun received => absurd received.1.1 even, fun _ => ⟨e, rfl⟩⟩

def threeRowsLeft : PrtyMOtSender := { PrtyMOtSender.new with mCorrectionVals := Matrix.new.resize 3 2 }

theorem threeRowsReceived :
    let messages : List (List Block) := [[1#128, 2#128], [3#128, 4#128, 5#128, 6#128]]
    let total := (messages.map fun message => message.length / threeRowsLeft.mCorrectionVals.mStride).sum
    let received := (∀ message ∈ messages, message.length % threeRowsLeft.mCorrectionVals.mStride = 0) ∧
      threeRowsLeft.mCorrectionIdx + total ≤ threeRowsLeft.mCorrectionVals.rows
    (received → ∃ s', threeRowsLeft.recvAllAtMost messages = .ok (total, s') ∧
      s'.mCorrectionIdx = threeRowsLeft.mCorrectionIdx + total ∧
      threeRowsLeft.recvAll (messages.map fun message =>
        (message.length / threeRowsLeft.mCorrectionVals.mStride, message)) = .ok s') ∧
    (¬ received → ∃ e, threeRowsLeft.recvAllAtMost messages = .error e) :=
  uncountedCorrections threeRowsLeft [[1#128, 2#128], [3#128, 4#128, 5#128, 6#128]] (by decide) (by decide)

end PrtyMOtSender
end PaxosPsi
