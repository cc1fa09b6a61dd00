import PaxosPsi.ConsistencyCheck
import PaxosPsi.WrongValues

/-! `check` against a receiver that sends what it likes. A challenge adds the rows it picks,
and the sums it is answered with pass only for the choice vectors that agree with fixed bits
wherever the codeword of the answered word differs from what the picked rows encode. -/
namespace PaxosPsi
open CountedLoop XorAlgebra Memory

def PrtyMOtSender.recvAll (chunks : List (Nat × List Block)) (s : PrtyMOtSender) : Except Error PrtyMOtSender :=
  chunks.foldlM (fun s chunk => s.recvCorrection chunk.1 chunk.2) s

/-- Everything a receiver sends up to its answers, with the counts the sender waits for. -/
structure Transcript where
  chunks : List (Nat × List Block)
  correction : List Block
  tMessage : List Block
  wMessage : List Block

namespace Transcript
variable (m : Transcript)

def count : Nat := (m.chunks.map Prod.fst).sum

def rows : Blocks := fun a => (m.chunks.flatMap Prod.snd ++ m.correction).getD a 0#128

structure Sized (stride plaintextBlkSize statSecParam : Nat) : Prop where
  chunks : ∀ chunk ∈ m.chunks, chunk.2.length = chunk.1 * stride
  correction : m.correction.length = statSecParam * stride
  tMessage : m.tMessage.length = statSecParam * stride
  wMessage : m.wMessage.length = statSecParam * plaintextBlkSize

end Transcript

namespace PrtyMOtSender

theorem recvAllSpec {stride : Nat} {chunks : List (Nat × List Block)} {s0 s : PrtyMOtSender}
    (idx : s0.mCorrectionIdx = 0) (vals : s0.mCorrectionVals.mStride = stride)
    (small : (chunks.map Prod.fst).sum * stride < 2 ^ 31) (received : s0.recvAll chunks = .ok s) :
    ReceivedBelow s0 (fun a => (chunks.flatMap Prod.snd).getD a 0#128) (chunks.map Prod.fst).sum s ∧ s.mT = s0.mT ∧
      (chunks.flatMap Prod.snd).length = (chunks.map Prod.fst).sum * stride := by
  induction chunks using List.reverseRecOn generalizing s with
  | nil =>
    cases received
    exact ⟨ReceivedBelow.start idx _, rfl, by simp⟩
  | append_singleton chunks chunk ih =>
    unfold recvAll at received
    rw [List.foldlM_append] at received
    simp only [List.map_append, List.sum_append, List.flatMap_append, List.length_append, List.map_cons, List.map_nil,
      List.sum_cons, List.sum_nil, Nat.add_zero, List.flatMap_cons, List.flatMap_nil, List.append_nil] at small ⊢
    cases before : s0.recvAll chunks with
    | error e =>
      unfold recvAll at before
      rw [before] at received
      cases received
    | ok s1 =>
      rw [Nat.add_mul] at small
      obtain ⟨below, rows, length⟩ := ih (by omega) before
      unfold recvAll at before
      rw [before] at received
      simp only [bind, Except.bind, List.foldlM_cons, List.foldlM_nil] at received
      cases stored : s1.recvCorrection chunk.1 chunk.2 with
      | error e =>
        rw [stored] at received
        cases received
      | ok s2 =>
        rw [stored] at received
        cases received
        have strideS : s1.mCorrectionVals.mStride = stride := below.valsStride.trans vals
        have sized : chunk.2.length = chunk.1 * s1.mCorrectionVals.mStride := by
          by_contra missized
          rw [recvCorrectionFails missized] at stored
          cases stored
        have space : s1.mCorrectionIdx * s1.mCorrectionVals.mStride < 2 ^ 31 := by
          rw [below.idx, strideS]
          omega
        obtain ⟨mView, spec, view⟩ := recvCorrectionSpec chunk.1 chunk.2 sized space
        rw [spec] at stored
        cases stored
        rw [strideS] at sized
        refine ⟨{ below with idx := congrArg (· + chunk.1) below.idx, vals := fun a inside => ?_ }, rows, ?_⟩
        · rw [vals, Nat.add_mul] at inside
          refine (view a).trans ?_
          rw [below.idx, strideS, Nat.add_mul]
          by_cases new : (chunks.map Prod.fst).sum * stride ≤ a
          · rw [if_pos ⟨new, inside⟩, List.getD_append_right _ _ _ _ (by omega), length]
          · rw [if_neg fun both => new both.1, List.getD_append _ _ _ _ (by omega)]
            exact below.vals a (by rw [vals]; omega)
        · rw [length, sized, Nat.add_mul]

theorem recvAllRuns {stride : Nat} {chunks : List (Nat × List Block)} {s0 : PrtyMOtSender}
    (vals : s0.mCorrectionVals.mStride = stride) :
    (∃ s, s0.recvAll chunks = .ok s) ↔ ∀ chunk ∈ chunks, chunk.2.length = chunk.1 * stride := by
  induction chunks generalizing s0 with
  | nil => exact ⟨fun _ chunk none => absurd none List.not_mem_nil, fun _ => ⟨s0, rfl⟩⟩
  | cons chunk chunks ih =>
    unfold recvAll at ih ⊢
    simp only [List.foldlM_cons, bind, Except.bind]
    by_cases sized : chunk.2.length = chunk.1 * stride
    · have fits : chunk.2.length = chunk.1 * s0.mCorrectionVals.mStride := by rw [vals]; exact sized
      obtain ⟨s1, stored⟩ := recvCorrectionOk fits
      have vals1 : s1.mCorrectionVals.mStride = stride := (recvCorrectionKeeps stored).2.2.2.2.1.trans vals
      rw [stored]
      simp only [ih vals1, List.mem_cons, forall_eq_or_imp, sized, true_and]
    · rw [recvCorrectionFails (by rw [vals]; exact sized)]
      exact ⟨fun ⟨_, failed⟩ => (by cases failed), fun all => absurd (all chunk List.mem_cons_self) sized⟩

theorem recvWords {n : Nat} {message : List Block} (sized : message.length = n) :
    recvBlocks (fun _ => 0#128) 0 n message = .ok fun a => message.getD a 0#128 := by
  unfold recvBlocks
  rw [if_pos sized]
  congr 1
  funext a
  by_cases inside : a < n
  · rw [if_pos (by omega)]
    congr 1
  · rw [if_neg (by omega), List.getD_eq_default _ _ (by omega)]

theorem recvWordsSized {n : Nat} {message : List Block} {out : Blocks}
    (received : recvBlocks (fun _ => 0#128) 0 n message = .ok out) : message.length = n := by
  by_contra missized
  unfold recvBlocks at received
  rw [if_neg missized] at received
  cases received

section Ran
variable {s : PrtyMOtSender} {aes : Aes} {stack : Blocks} {seed : Block} {message tMessage wMessage : List Block}

/-- What `check` needs to reach its comparisons. -/
structure Runs (s : PrtyMOtSender) (message tMessage wMessage : List Block) : Prop where
  malicious : s.mMalicious = true
  multiple : s.mStatSecParam % 8 = 0
  sized : message.length = s.mStatSecParam * s.mCorrectionVals.mStride
  tSized : tMessage.length = s.mStatSecParam * s.mT.mStride
  wSized : wMessage.length = s.mStatSecParam * s.mCode.plaintextBlkSize

theorem checkRuns (aes : Aes) (stack : Blocks) (seed : Block) (runs : s.Runs message tMessage wMessage)
    (wide : 2 ≤ s.mT.mStride) (narrow : s.mT.mStride ≤ 8) :
    ∃ s1 qSum, s.recvCorrection s.mStatSecParam message = .ok s1 ∧
      s.check aes stack seed message tMessage wMessage =
        .ok (s1, some ⟨qSum, fun a => tMessage.getD a 0#128, fun a => wMessage.getD a 0#128⟩) ∧
      ∀ l < s.mStatSecParam, ∀ m < s.mT.mStride, qSum (l * s.mT.mStride + m) =
        s1.initialQSum (l * s.mT.mStride + m) ^^^ xorSum ((List.range (s1.mCorrectionIdx - s.mStatSecParam)).map
          (s1.qTerm (aes seed) s.mT.mStride (zeroAndQ stack) l m)) := by
  obtain ⟨s1, stored⟩ := recvCorrectionOk runs.sized
  obtain ⟨rows, param, code, -, -, -⟩ := recvCorrectionKeeps stored
  obtain ⟨qSum, summed, formula⟩ := challengeSumsSpec aes stack seed runs.multiple wide narrow stored param rows
  refine ⟨s1, qSum, stored, ?_, formula⟩
  unfold check
  rw [if_pos runs.malicious, summed]
  simp only [bind, Except.bind]
  rw [rows, param, code, recvWords runs.tSized]
  dsimp only
  rw [recvWords runs.wSized]
  rfl

theorem checkRan {s1 : PrtyMOtSender} {sums : Sums}
    (ran : s.check aes stack seed message tMessage wMessage = .ok (s1, some sums)) :
    s.Runs message tMessage wMessage := by
  unfold check at ran
  split at ran
  · rename_i malicious
    by_cases multiple : s.mStatSecParam % 8 = 0
    · cases stored : s.recvCorrection s.mStatSecParam message with
      | error e =>
        unfold challengeSums at ran
        rw [if_neg (not_not.mpr multiple), stored] at ran
        cases ran
      | ok s2 =>
        have sized : message.length = s.mStatSecParam * s.mCorrectionVals.mStride := by
          by_contra missized
          rw [recvCorrectionFails missized] at stored
          cases stored
        obtain ⟨rows, param, code, -, -, -⟩ := recvCorrectionKeeps stored
        cases summed : s.challengeSums aes stack seed message with
        | error e =>
          rw [summed] at ran
          cases ran
        | ok q =>
          have after : q.1 = s2 := by
            unfold challengeSums at summed
            rw [if_neg (not_not.mpr multiple), stored] at summed
            simp only [bind, Except.bind] at summed
            split at summed
            · cases summed
            · cases summed
              rfl
          rw [summed] at ran
          simp only [bind, Except.bind, after, rows, param, code] at ran
          cases first : recvBlocks (fun _ => 0#128) 0 (s.mStatSecParam * s.mT.mStride) tMessage with
          | error e =>
            rw [first] at ran
            cases ran
          | ok tSum =>
            rw [first] at ran
            dsimp only at ran
            cases second : recvBlocks (fun _ => 0#128) 0 (s.mStatSecParam * s.mCode.plaintextBlkSize) wMessage with
            | error e =>
              rw [second] at ran
              cases ran
            | ok wSum => exact ⟨malicious, multiple, sized, recvWordsSized first, recvWordsSized second⟩
    · unfold challengeSums at ran
      rw [if_pos multiple] at ran
      cases ran
  · cases ran

end Ran
end PrtyMOtSender

theorem xorMove {w : Nat} {a b c : BitVec w} : a ^^^ b = c ↔ a = c ^^^ b := by
  constructor
  · rintro rfl
    rw [BitVec.xor_assoc, BitVec.xor_self, BitVec.xor_zero]
  · rintro rfl
    rw [BitVec.xor_assoc, BitVec.xor_self, BitVec.xor_zero]

theorem receivedPad {w : Nat} (a b u c : BitVec w) :
    (u &&& c) ^^^ (a ^^^ ((a ^^^ b) &&& c)) = a ^^^ ((u ^^^ a ^^^ b) &&& c) := by
  rw [BitVec.xor_assoc u, andXorDistrib u, ← BitVec.xor_assoc, BitVec.xor_comm (u &&& c), BitVec.xor_assoc]

namespace Setup
variable {inputBitCount : Nat} (u : Setup inputBitCount)

def withChoice (choice : Fin (u.width.stride * 128) → Bool) : Setup inputBitCount :=
  { u with choiceData := choiceBytes choice }

section Rows
variable (numOtExt : Nat) (m : Transcript) (stack : Blocks) (seed : Block)

def pad0 (row j : Nat) : Block := (u.startedReceiver numOtExt PrtyMOtReceiver.new).t0 row j

def pad1 (row j : Nat) : Block := (u.startedReceiver numOtExt PrtyMOtReceiver.new).t1 row j

/-- What a row the sender has received encodes; the rows of the check stand behind the others. -/
def encoded (i j : Nat) : Block :=
  m.rows (i * u.width.stride + j) ^^^ u.pad0 numOtExt i j ^^^ u.pad1 numOtExt i j

def picked (l i : Nat) : Bool := challengeBit (u.aes seed) u.statSecParam i l

def combined (l j : Nat) : Block :=
  u.encoded numOtExt m (m.count + l) j ^^^
    xorSum ((List.range m.count).map fun i => if u.picked seed l i then u.encoded numOtExt m i j else 0#128)

def answered (l j : Nat) : Block :=
  u.code.codeword (bytesOf fun k => m.wMessage.getD (l * u.code.plaintextBlkSize + k) 0#128) j

def expected (l j : Nat) : Block :=
  m.tMessage.getD (l * u.width.stride + j) 0#128 ^^^ (u.pad0 numOtExt (m.count + l) j ^^^
    xorSum ((List.range m.count).map fun i =>
      if u.picked seed l i then u.pad0 numOtExt i j else PrtyMOtSender.zeroAndQ stack j))

/-- Whether the rows a challenge adds and the codeword of its answer differ in a column. -/
def wrongAt (l k : Nat) : Bool :=
  (u.combined numOtExt m seed l (k / 128) ^^^ u.answered m l (k / 128)).getLsbD (k % 128)

def wrongColumns : Finset (Fin (u.width.stride * 128)) :=
  Finset.univ.filter fun k => ∃ l < u.statSecParam, u.wrongAt numOtExt m seed l k = true

/-- `check` runs through on the transcript and all sums it compares agree. -/
def CheckPassed (sender : PrtyMOtSender) : Prop :=
  ∃ s0 s s1 sums, u.sender numOtExt sender = .ok s0 ∧ s0.recvAll m.chunks = .ok s ∧
    s.check u.aes stack seed m.correction m.tMessage m.wMessage = .ok (s1, some sums) ∧
    ∀ l < u.statSecParam, ∀ j < u.width.stride, s1.Passes sums l j

end Rows

section Passed
variable {numOtExt : Nat} {m : Transcript} {stack : Blocks} {seed : Block} {sender : PrtyMOtSender}

theorem receivedRows {s0 s s1 : PrtyMOtSender} {r0 : PrtyMOtReceiver} (started : u.Started numOtExt r0 s0)
    (small : (m.count + u.statSecParam) * u.width.stride < 2 ^ 31) (received : s0.recvAll m.chunks = .ok s)
    (stored : s.recvCorrection u.statSecParam m.correction = .ok s1) :
    ReceivedBelow s0 m.rows (m.count + u.statSecParam) s1 ∧ s1.mT = s0.mT := by
  have all : s0.recvAll (m.chunks ++ [(u.statSecParam, m.correction)]) = .ok s1 := by
    unfold PrtyMOtSender.recvAll at received ⊢
    rw [List.foldlM_append, received]
    simp only [bind, Except.bind, List.foldlM_cons, List.foldlM_nil]
    rw [stored]
    rfl
  have counted : ((m.chunks ++ [(u.statSecParam, m.correction)]).map Prod.fst).sum = m.count + u.statSecParam := by
    simp [Transcript.count]
  obtain ⟨below, rows, -⟩ := PrtyMOtSender.recvAllSpec started.senderIdx started.valsStride
    (by rw [counted]; exact small) all
  rw [counted] at below
  simp only [List.flatMap_append, List.flatMap_cons, List.flatMap_nil, List.append_nil] at below
  exact ⟨below, rows⟩

theorem rowMasked {s0 s1 : PrtyMOtSender} (started : u.Started numOtExt (u.startedReceiver numOtExt .new) s0)
    (below : ReceivedBelow s0 m.rows (m.count + u.statSecParam) s1) (rows : s1.mT = s0.mT)
    (fits : m.count + u.statSecParam ≤ u.rows numOtExt) {i j : Nat} (inside : i < m.count + u.statSecParam)
    (column : j < u.width.stride) :
    (s1.mCorrectionVals.mView (i * u.width.stride + j) &&& s1.mChoiceBlks.get j) ^^^
        s1.mT.mView (i * u.width.stride + j) =
      u.pad0 numOtExt i j ^^^ (u.encoded numOtExt m i j &&& u.choiceBlk j) := by
  have relation := started.relation i (by omega) j column
  have edge : (i + 1) * u.width.stride ≤ (m.count + u.statSecParam) * u.width.stride := Nat.mul_le_mul_right _ inside
  rw [Nat.succ_mul] at edge
  unfold PrtyMOtSender.t at relation
  rw [started.tStride] at relation
  rw [rows, relation, below.vals _ (by rw [started.valsStride]; omega), below.choiceBlks, started.choiceBlks]
  exact receivedPad _ _ _ _

theorem comparedIff {s0 s1 : PrtyMOtSender} (started : u.Started numOtExt (u.startedReceiver numOtExt .new) s0)
    (below : ReceivedBelow s0 m.rows (m.count + u.statSecParam) s1) (rows : s1.mT = s0.mT)
    (fits : m.count + u.statSecParam ≤ u.rows numOtExt) {qSum : Blocks} {l j : Nat} (inside : l < u.statSecParam)
    (column : j < u.width.stride) (formula : qSum (l * u.width.stride + j) =
      s1.initialQSum (l * u.width.stride + j) ^^^ xorSum ((List.range (s1.mCorrectionIdx - u.statSecParam)).map
        (s1.qTerm (u.aes seed) u.width.stride (PrtyMOtSender.zeroAndQ stack) l j))) :
    s1.Passes ⟨qSum, fun a => m.tMessage.getD a 0#128, fun a => m.wMessage.getD a 0#128⟩ l j ↔
      u.expected numOtExt m stack seed l j =
        (u.combined numOtExt m seed l j ^^^ u.answered m l j) &&& u.choiceBlk j := by
  have codeSize : u.code.codewordBlkSize = u.width.stride := (u.width.shape u.mx).codewordBlkSize
  have param1 : s1.mStatSecParam = u.statSecParam := below.statSecParam.trans started.senderParam
  have tStride1 : s1.mT.mStride = u.width.stride := below.tStride.trans started.tStride
  have dummies : s1.mCorrectionIdx - u.statSecParam = m.count := by
    rw [below.idx, Nat.add_sub_cancel]
  have row := s1.initialQSumAt (l := l) (m := j) (by rw [param1]; exact inside) (by rw [tStride1]; exact column)
  rw [tStride1, param1, dummies, below.valsStride, started.valsStride,
    u.rowMasked started below rows fits (by omega) column] at row
  have picks : xorSum ((List.range m.count).map
        (s1.qTerm (u.aes seed) u.width.stride (PrtyMOtSender.zeroAndQ stack) l j)) =
      xorSum ((List.range m.count).map fun i =>
        if u.picked seed l i then u.pad0 numOtExt i j else PrtyMOtSender.zeroAndQ stack j) ^^^
      (xorSum ((List.range m.count).map fun i =>
        if u.picked seed l i then u.encoded numOtExt m i j else 0#128) &&& u.choiceBlk j) := by
    rw [← xorSumMask, ← xorSumXor]
    refine xorSumCongr fun i listed => ?_
    have counted := List.mem_range.mp listed
    unfold PrtyMOtSender.qTerm picked
    rw [param1]
    by_cases picks : challengeBit (u.aes seed) u.statSecParam i l
    · rw [if_pos picks, if_pos picks, if_pos picks, u.rowMasked started below rows fits (by omega) column]
    · rw [if_neg picks, if_neg picks, if_neg picks, BitVec.zero_and, BitVec.xor_zero]
  unfold PrtyMOtSender.Passes
  dsimp only
  rw [below.code, started.senderCode, codeSize, below.choiceBlks, started.choiceBlks, formula, row, dummies, picks,
    xorXorComm, ← andXorDistrib, ← BitVec.xor_assoc, xorMove, andXorDistrib (u.combined numOtExt m seed l j),
    BitVec.xor_comm (u.combined numOtExt m seed l j &&& u.choiceBlk j)]
  rfl

/-- Which transcripts pass the sender's `check`. -/
theorem passedIff (fits : m.count + u.statSecParam ≤ u.rows numOtExt)
    (small : (m.count + u.statSecParam) * u.width.stride < 2 ^ 31) :
    u.CheckPassed numOtExt m stack seed sender ↔ u.malicious = true ∧ u.statSecParam % 8 = 0 ∧
      m.Sized u.width.stride u.code.plaintextBlkSize u.statSecParam ∧
      ∀ l < u.statSecParam, ∀ j < u.width.stride, u.expected numOtExt m stack seed l j =
        (u.combined numOtExt m seed l j ^^^ u.answered m l j) &&& u.choiceBlk j := by
  have narrow := (u.width.shape u.mx).narrow
  have started := u.started numOtExt .new sender
  have fewer : m.count * u.width.stride ≤ (m.count + u.statSecParam) * u.width.stride :=
    Nat.mul_le_mul_right _ (Nat.le_add_right _ _)
  -- the state in which `check` starts, and the sums it ends with
  have checked : ∀ {s}, (u.startedSender numOtExt sender).recvAll m.chunks = .ok s →
      s.mMalicious = u.malicious ∧ s.mStatSecParam = u.statSecParam ∧ s.mCode = u.code ∧
        s.mT.mStride = u.width.stride ∧ s.mCorrectionVals.mStride = u.width.stride := by
    intro s received
    obtain ⟨first, -, -⟩ := PrtyMOtSender.recvAllSpec started.senderIdx started.valsStride
      (Nat.lt_of_le_of_lt fewer small) received
    exact ⟨first.malicious.trans started.senderMalicious, first.statSecParam.trans started.senderParam,
      first.code.trans started.senderCode, first.tStride.trans started.tStride,
      first.valsStride.trans started.valsStride⟩
  have compared : ∀ {s}, (u.startedSender numOtExt sender).recvAll m.chunks = .ok s →
      s.Runs m.correction m.tMessage m.wMessage → ∃ s1 sums,
        s.check u.aes stack seed m.correction m.tMessage m.wMessage = .ok (s1, some sums) ∧
        ∀ l < u.statSecParam, ∀ j < u.width.stride, (s1.Passes sums l j ↔ u.expected numOtExt m stack seed l j =
          (u.combined numOtExt m seed l j ^^^ u.answered m l j) &&& u.choiceBlk j) := by
    intro s received runs
    obtain ⟨-, param, -, tStride, -⟩ := checked received
    obtain ⟨s1, qSum, stored, ran, formula⟩ := PrtyMOtSender.checkRuns u.aes stack seed runs (by rw [tStride]; omega)
      (by rw [tStride]; omega)
    rw [param] at stored formula
    rw [tStride] at formula
    obtain ⟨below, rows⟩ := receivedRows u started small received stored
    exact ⟨s1, _, ran, fun l inside j column =>
      u.comparedIff started below rows fits inside column (formula l inside j column)⟩
  constructor
  · rintro ⟨s0, s, s1, sums, ran, received, passed, passes⟩
    cases Except.ok.inj ((u.senderRuns numOtExt sender).symm.trans ran)
    have runs := PrtyMOtSender.checkRan passed
    obtain ⟨s1', sums', same, relation⟩ := compared received runs
    cases Except.ok.inj (same.symm.trans passed)
    obtain ⟨malicious, param, code, tStride, valsStride⟩ := checked received
    obtain ⟨malicious', multiple, sized, tSized, wSized⟩ := runs
    rw [malicious] at malicious'
    rw [param] at multiple sized tSized wSized
    rw [valsStride] at sized
    rw [tStride] at tSized
    rw [code] at wSized
    refine ⟨malicious', multiple, ⟨?_, sized, tSized, wSized⟩, fun l inside j column =>
      (relation l inside j column).mp (passes l inside j column)⟩
    exact (PrtyMOtSender.recvAllRuns started.valsStride).mp ⟨s, received⟩
  · rintro ⟨malicious', multiple, sized, sums⟩
    obtain ⟨s, received⟩ := (PrtyMOtSender.recvAllRuns started.valsStride).mpr sized.chunks
    obtain ⟨malicious, param, code, tStride, valsStride⟩ := checked received
    obtain ⟨s1, out, ran, relation⟩ := compared received ⟨malicious.trans malicious', by rw [param]; exact multiple,
      by rw [param, valsStride]; exact sized.correction, by rw [param, tStride]; exact sized.tMessage,
      by rw [param, code]; exact sized.wMessage⟩
    exact ⟨_, s, s1, out, u.senderRuns numOtExt sender, received, ran, fun l inside j column =>
      (relation l inside j column).mpr (sums l inside j column)⟩

theorem passedBits {choice : Fin (u.width.stride * 128) → Bool} (fits : m.count + u.statSecParam ≤ u.rows numOtExt)
    (small : (m.count + u.statSecParam) * u.width.stride < 2 ^ 31) :
    (u.withChoice choice).CheckPassed numOtExt m stack seed sender ↔ u.malicious = true ∧ u.statSecParam % 8 = 0 ∧
      m.Sized u.width.stride u.code.plaintextBlkSize u.statSecParam ∧
      ∀ l < u.statSecParam, ∀ k : Fin (u.width.stride * 128),
        (u.expected numOtExt m stack seed l (k / 128)).getLsbD (k % 128) =
          (u.wrongAt numOtExt m seed l k && choice k) := by
  refine ((u.withChoice choice).passedIff fits small).trans (and_congr_right' (and_congr_right' (and_congr_right' ?_)))
  refine forall₂_congr fun l inside => ?_
  constructor
  · intro sums k
    have bound := k.isLt
    have whole : 128 * ((k : Nat) / 128) + k % 128 = k := by omega
    have bits := congrArg (BitVec.getLsbD · ((k : Nat) % 128))
      (sums (k / 128) (show (k : Nat) / 128 < u.width.stride by omega))
    have chosen := choiceBit choice (j := k / 128) (k := k % 128) (by omega) (by omega)
    simp only [whole] at chosen
    rw [BitVec.getLsbD_and] at bits
    exact bits.trans (congrArg _ chosen)
  · intro bits j column
    change j < u.width.stride at column
    apply BitVec.eq_of_getLsbD_eq
    intro k small
    have block : (128 * j + k) / 128 = j := by omega
    have bit : (128 * j + k) % 128 = k := by omega
    have mine := bits ⟨128 * j + k, by omega⟩
    unfold wrongAt at mine
    simp only [block, bit] at mine
    rw [BitVec.getLsbD_and]
    exact mine.trans (congrArg _ (choiceBit choice small (by omega)).symm)

/-- Either no choice vector of the sender lets a transcript pass `check`, or those that do
are one in two to the number of columns in which some answer is wrong. -/
theorem cheatingChoices (u : Setup inputBitCount) (numOtExt : Nat) (m : Transcript) (stack : Blocks) (seed : Block)
    (sender : PrtyMOtSender) (fits : m.count + u.statSecParam ≤ u.rows numOtExt)
    (small : (m.count + u.statSecParam) * u.width.stride < 2 ^ 31) :
    (∀ choice, ¬ (u.withChoice choice).CheckPassed numOtExt m stack seed sender) ∨
      Nat.card {choice : Fin (u.width.stride * 128) → Bool //
        (u.withChoice choice).CheckPassed numOtExt m stack seed sender} =
          2 ^ (u.width.stride * 128 - (u.wrongColumns numOtExt m seed).card) := by
  by_cases possible : ∃ choice, (u.withChoice choice).CheckPassed numOtExt m stack seed sender
  · obtain ⟨choice0, passed0⟩ := possible
    obtain ⟨malicious, multiple, sized, bits0⟩ := (u.passedBits fits small).mp passed0
    have fixed : ∀ choice, (u.withChoice choice).CheckPassed numOtExt m stack seed sender ↔
        ∀ k ∈ u.wrongColumns numOtExt m seed, choice k = choice0 k := by
      intro choice
      constructor
      · intro passed k listed
        obtain ⟨l, inside, wrong⟩ := (Finset.mem_filter.mp listed).2
        obtain ⟨-, -, -, bits⟩ := (u.passedBits fits small).mp passed
        have same := (bits l inside k).symm.trans (bits0 l inside k)
        rwa [wrong, Bool.true_and, Bool.true_and] at same
      · intro agree
        refine (u.passedBits fits small).mpr ⟨malicious, multiple, sized, fun l inside k => ?_⟩
        rw [bits0 l inside k]
        cases wrong : u.wrongAt numOtExt m seed l k with
        | false => rfl
        | true => rw [agree k (Finset.mem_filter.mpr ⟨Finset.mem_univ k, l, inside, wrong⟩)]
    right
    rw [← fixedCount (u.wrongColumns numOtExt m seed) choice0]
    exact Nat.card_congr (Equiv.subtypeEquivRight fixed)
  · exact Or.inl fun choice passed => possible ⟨choice, passed⟩

end Passed

/-- Three corrections in two chunks, of which the second is zero, and check rows of ones. -/
def onesTranscript : Transcript where
  chunks := [(2, List.replicate 8 (BitVec.allOnes 128)), (1, List.replicate 4 0#128)]
  correction := List.replicate 160 (BitVec.allOnes 128)
  tMessage := List.replicate 160 0#128
  wMessage := List.replicate 40 0#128

theorem onesCheated :
    (∀ choice, ¬ (PrtyMOtSender.chosenSetup.withChoice choice).CheckPassed 3 onesTranscript (fun _ => 0#128) 0#128
      PrtyMOtSender.new) ∨
    Nat.card {choice : Fin (PrtyMOtSender.chosenSetup.width.stride * 128) → Bool //
      (PrtyMOtSender.chosenSetup.withChoice choice).CheckPassed 3 onesTranscript (fun _ => 0#128) 0#128
        PrtyMOtSender.new} =
      2 ^ (PrtyMOtSender.chosenSetup.width.stride * 128 -
        (PrtyMOtSender.chosenSetup.wrongColumns 3 onesTranscript 0#128).card) :=
  cheatingChoices PrtyMOtSender.chosenSetup 3 onesTranscript (fun _ => 0#128) 0#128 PrtyMOtSender.new (by decide)
    (by decide)

end Setup
end PaxosPsi
