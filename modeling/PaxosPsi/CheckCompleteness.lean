import PaxosPsi.CodeTables
import PaxosPsi.HonestCheck

/-! When honest parties pass the check. Words of two blocks are summed block by block, and
the dummy rows are stored elsewhere when their offset does not fit an `i32`. -/
namespace PaxosPsi
open CountedLoop XorAlgebra Memory

section Constant

structure Constant (value : Block) (prng : PRNG) : Prop where
  keyed : prng.Keyed
  mAes : ∀ c, prng.mAes c = value
  mBuffer : ∀ a, prng.mBuffer a = value

theorem constantSeed {aes : Aes} {seed value : Block} (const : ∀ c, aes seed c = value) :
    Constant value (PRNG.new.setSeed aes seed) :=
  ⟨PRNG.setSeedKeyed _ _ _, const, fun _ => const _⟩

theorem constantStep {value : Block} {prng next : PRNG} (constant : Constant value prng) {step : Nat}
    (stepped : prng.getStep step = .ok next) : Constant value next := by
  obtain ⟨next', same, keyed⟩ := PRNG.getStepKeyed constant.keyed step
  cases Except.ok.inj (same.symm.trans stepped)
  unfold PRNG.getStep at stepped
  split at stepped
  · cases stepped
    exact ⟨keyed, constant.mAes, constant.mBuffer⟩
  · unfold PRNG.refillBuffer at stepped
    split at stepped
    · cases stepped
    · cases stepped
      exact ⟨keyed, constant.mAes, fun _ => constant.mAes _⟩

theorem constantLoop {value : Block} {x : Byte} (bytes : ∀ k < 16, value.extractLsb' (8 * k) 8 = x) {fuel : Nat}
    {prng next : PRNG} (constant : Constant value prng) {lengthu8 : Nat} {destu8 result : List Byte}
    (same : ∀ y ∈ destu8, y = x) (ran : PRNG.getLoop fuel prng lengthu8 destu8 = .ok (result, next)) :
    Constant value next ∧ ∀ y ∈ result, y = x := by
  induction fuel generalizing prng lengthu8 destu8 with
  | zero =>
    cases ran
    exact ⟨constant, same⟩
  | succ fuel ih =>
    rw [PRNG.getLoop] at ran
    split at ran
    · cases ran
      exact ⟨constant, same⟩
    · obtain ⟨next', stepped, -⟩ := PRNG.getStepKeyed constant.keyed
        (min lengthu8 (prng.mBufferByteCapacity - prng.mBytesIdx))
      simp only [stepped] at ran
      refine ih (constantStep constant stepped) ?_ ran
      intro y listed
      rcases List.mem_append.mp listed with old | new
      · exact same y old
      · obtain ⟨k, -, rfl⟩ := List.mem_map.mp new
        unfold bytesOf
        rw [constant.mBuffer]
        exact bytes _ (Nat.mod_lt _ (by decide))

theorem drawsConstant {value : Block} {x : Byte} (bytes : ∀ k < 16, value.extractLsb' (8 * k) 8 = x) :
    Draws (Constant value) (· = x) := by
  constructor
  intro prng constant lengthu8
  obtain ⟨result, next, got, -, size⟩ := PRNG.getKeyed constant.keyed lengthu8
  obtain ⟨kept, same⟩ := constantLoop bytes constant (fun y none => absurd none List.not_mem_nil) got
  exact ⟨result, next, got, size, kept, same⟩

end Constant

section Ones
variable {inputBitCount : Nat}

theorem LinearCode.codewordPast (code : LinearCode) (input : Bytes) {j : Nat}
    (past : (code.codewordU8Size + 15) / 16 ≤ j) : code.codeword input j = 0#128 := by
  have outside : 0 + (code.codewordU8Size + 15) / 16 ≤ j := by omega
  unfold codeword encode encodeFrom
  rw [memcpyOutside _ 0 _ _ (Or.inr outside)]

theorem onesRows (width : Supported inputBitCount) (rows : inputBitCount ≠ 168) :
    (width.code mxTables).codeword (fun _ => 255#8) =
      (width.code mxTables).codeword (bytesFromGF2X (BitVec.allOnes inputBitCount)) := by
  have plaintext := (layout width rows).plaintext
  apply LinearCode.encodeIgnores
  intro r below
  rw [plaintext] at below
  unfold LinearCode.inputBit
  rw [Modulus.bytesBit, BitVec.getLsbD_allOnes, decide_eq_true below]
  have small : r % 8 < 8 := by omega
  rw [show (255#8) = BitVec.allOnes 8 by decide, BitVec.getLsbD_allOnes, decide_eq_true small]

theorem onesCodeword (width : Supported inputBitCount) :
    ∃ j < width.stride, (width.code mxTables).codeword (fun _ => 255#8) j ≠ 0#128 := by
  have narrower : ∀ {k : Nat} (width : Supported k), k ≠ 168 →
      ∃ j < width.stride, (width.code mxTables).codeword (fun _ => 255#8) j ≠ 0#128 := by
    intro k width rows
    by_contra none
    have empty : bytesFromGF2X 0#k = fun _ => 0#8 := by
      funext i
      simp [bytesFromGF2X]
    have zero : (width.code mxTables).codeword (fun _ => 255#8) = (width.code mxTables).codeword (bytesFromGF2X 0#k) := by
      funext j
      rw [empty, LinearCode.codewordZero]
      by_cases column : j < width.stride
      · exact not_not.mp fun some => none ⟨j, column, some⟩
      · have size : (width.code mxTables).codewordU8Size = (width.codewordBits + 7) / 8 := rfl
        unfold Supported.stride at column
        exact LinearCode.codewordPast _ _ (by omega)
    have same := tablesInjective width rows ((onesRows width rows).symm.trans zero)
    have positive := (width.shape mxTables).positive
    have bit := congrArg (BitVec.getLsbD · 0) same
    simp [positive] at bit
  by_cases shared : inputBitCount = 168
  · subst shared
    have listed : mxHeader 162 = some (width.mGSize, width.codewordBits) := width.listed
    exact narrower ⟨width.mGSize, width.codewordBits, listed⟩ (by decide)
  · exact narrower width shared

end Ones

def firstWords (n : Nat) (ws : Nat → Bytes) : Nat → Option Bytes := fun i => if i < n then some (ws i) else none

section Exchanged
variable {inputBitCount numOtExt n : Nat} {u : Setup inputBitCount} {r0 : PrtyMOtReceiver} {s0 : PrtyMOtSender}

theorem preparedAll (ws : Nat → Bytes) (fits : n ≤ u.rows numOtExt) :
    Exchange (u.rows numOtExt) r0 s0 (firstWords n ws) (fun _ => false) (r0.encodeRows ws 0 n) s0 ∧
      (r0.encodeRows ws 0 n).mCorrectionIdx = r0.mCorrectionIdx := by
  induction n with
  | zero =>
    have none : firstWords 0 ws = fun _ => none := funext fun i => if_neg (Nat.not_lt_zero i)
    rw [none]
    exact ⟨.start, rfl⟩
  | succ n ih =>
    obtain ⟨run, idx⟩ := ih (by omega)
    have fresh : firstWords n ws n = none := if_neg (Nat.lt_irrefl n)
    have next := run.otCorrection n (ws n) (by omega) fresh
    have words : Function.update (firstWords n ws) n (some (ws n)) = firstWords (n + 1) ws := by
      funext i
      unfold firstWords
      by_cases last : i = n
      · subst last
        rw [Function.update_self, if_pos (Nat.lt_succ_self i)]
      · rw [Function.update_of_ne last]
        congr 1
        exact propext (by omega)
    rw [words] at next
    have rows : r0.encodeRows ws 0 (n + 1) = (r0.encodeRows ws 0 n).otCorrection n (ws n) := by
      unfold PrtyMOtReceiver.encodeRows
      rw [forLoopSucc, Nat.zero_add]
    rw [rows]
    exact ⟨next, idx⟩

theorem exchangedAll (started : u.Started numOtExt r0 s0) (ws : Nat → Bytes) (fits : n ≤ u.rows numOtExt) :
    ∃ r s, Exchange (u.rows numOtExt) r0 s0 (firstWords n ws) (fun _ => false) r s ∧ r.mCorrectionIdx = n := by
  obtain ⟨run, idx⟩ := preparedAll ws fits
  have small : s0.mCorrectionIdx * s0.mCorrectionVals.mStride < 2 ^ 31 := by
    rw [started.senderIdx, Nat.zero_mul]
    decide
  obtain ⟨mView, stored, -⟩ := PrtyMOtSender.recvCorrectionSpec n _ (correctionLength started run n) small
  refine ⟨_, _, run.chunk n (fun i low high => ?_) small stored, ?_⟩
  · rw [idx, started.receiverIdx, Nat.zero_add] at high
    unfold firstWords
    rw [if_pos high]
    exact Option.some_ne_none _
  · change (r0.encodeRows ws 0 n).mCorrectionIdx + n = n
    rw [idx, started.receiverIdx, Nat.zero_add]

end Exchanged

section Wide
variable {inputBitCount numOtExt n : Nat} {u : Setup inputBitCount} {r0 r : PrtyMOtReceiver} {s0 s : PrtyMOtSender}

def oneWord (i : Nat) : Bytes := if i = 0 then fun _ => 255#8 else zeroWord

theorem wideFails (tables : u.mx = mxTables) (malicious : u.malicious = true) (multiple : u.statSecParam % 8 = 0)
    (chosen : ∀ j, u.choiceBlk j = BitVec.allOnes 128) (started : u.Started numOtExt r0 s0)
    (run : Exchange (u.rows numOtExt) r0 s0 (firstWords n oneWord) (fun _ => false) r s) (idx : r.mCorrectionIdx = n)
    (fits : n + u.statSecParam ≤ u.rows numOtExt) (any : 0 < n) (wide : 128 < inputBitCount)
    (small : n * u.width.stride < 2 ^ 31) {seed : Block} {l : Nat} (inside : l < u.statSecParam)
    (late : u.statSecParam ≤ l * 2) (picked : challengeBit (u.aes seed) u.statSecParam 0 l = true) (wordSeed : Block) :
    ¬ ChecksAgree u wordSeed seed (fun _ => 0#128) r s := by
  rintro ⟨r1, message, tMessage, wMessage, s1, sums, checkedR, checkedS, passes⟩
  have shape := u.width.shape u.mx
  have fresh : ∀ i, n ≤ i → firstWords n oneWord i = none := fun i past => if_neg (by omega)
  obtain ⟨r', tSum0, wSum0, words', t, dummies, answer, answered⟩ := receiverAnswers drawsAny started malicious
    multiple run idx fresh fits wordSeed seed (PRNG.setSeedKeyed _ _ _)
  obtain ⟨s1', qSum, checked, ran⟩ := senderChecked started malicious multiple dummies answer small (fun _ => 0#128)
  cases Except.ok.inj (answered.symm.trans checkedR)
  cases Except.ok.inj (ran.symm.trans checkedS)
  obtain ⟨j, column, nonzero⟩ := onesCodeword u.width
  have code : u.code = u.width.code mxTables := congrArg u.width.code tables
  have blkSize : u.code.plaintextBlkSize = 2 :=
    shape.plaintextBlkSize.trans (if_neg fun four => absurd (shape.fourBlocks.mp four) (by omega))
  have compared := (passesIff checked.code checked.choices inside column).mp (passes l inside j column)
  obtain ⟨w, given, bytes⟩ := dummies.prepared l inside
  rw [checked.relation l inside j column w given fun _ _ _ => ite_self _, chosen, BitVec.and_allOnes,
    BitVec.and_allOnes] at compared
  have rows : ∀ b, xorSum ((List.range n).map fun i => if challengeBit (u.aes seed) u.statSecParam i l then
      ((words' i).getD zeroWord) b else 0#8) = 255#8 := by
    intro b
    refine (xorSumCongr fun i listed => ?_).trans (xorSumSingle any fun _ => 255#8)
    have below := List.mem_range.mp listed
    rw [dummies.before i below, firstWords, if_pos below, Option.getD_some, oneWord]
    by_cases first : i = 0
    · subst first
      rw [if_pos picked, if_pos rfl, if_pos rfl]
    · rw [if_neg first, if_neg first]
      exact ite_self _
  have answeredWord : u.code.codeword (bytesOf fun k => t.wSum (l * u.code.plaintextBlkSize + k)) = u.code.codeword w := by
    apply LinearCode.codewordCongr
    intro b inside
    have below : b < (inputBitCount + 7) / 8 := Nat.lt_of_lt_of_eq inside shape.plaintextU8Size
    refine Eq.trans (bytesOfCongr (answer.rest _ ?_)) (bytes b below).1
    rw [blkSize]
    omega
  simp only [rows] at compared
  rw [answeredWord, LinearCode.codewordXor, code] at compared
  exact nonzero ((xorEqSelf _ _).mp compared)

end Wide

def zeroSetup {inputBitCount : Nat} (width : Supported inputBitCount) (statSecParam : Nat) : Setup inputBitCount where
  width := width
  mx := mxTables
  aes key _ := if key = 1#128 then BitVec.allOnes 128 else 0#128
  malicious := true
  statSecParam := statSecParam
  seeds _ := (0#128, 0#128)
  choiceData _ := 255#8

section ZeroSetup
variable {inputBitCount : Nat} (width : Supported inputBitCount) (statSecParam : Nat)

theorem zeroSetupChoice (j : Nat) : (zeroSetup width statSecParam).choiceBlk j = BitVec.allOnes 128 := by
  apply BitVec.eq_of_getLsbD_eq
  intro k bound
  have small : k % 8 < 8 := by omega
  have ones : (255#8).getLsbD (k % 8) = true := by
    rw [show (255#8) = BitVec.allOnes 8 by decide, BitVec.getLsbD_allOnes, decide_eq_true small]
  unfold Setup.choiceBlk zeroSetup blocksOf
  rw [BitVec.getLsbD_ofFnLE, dif_pos bound, BitVec.getLsbD_allOnes, decide_eq_true bound]
  exact ones

theorem zeroSetupChallenge (seed : Block) (i l : Nat) :
    challengeBit ((zeroSetup width statSecParam).aes seed) statSecParam i l = decide (seed = 1#128) := by
  have bound : (i % 128 * statSecParam + l) % 16 * 8 + (i % 128 * statSecParam + l) / 16 % 8 < 128 := by omega
  unfold challengeBit ecbEncCounterMode zeroSetup
  dsimp only
  by_cases one : seed = 1#128
  · rw [if_pos one, BitVec.getLsbD_allOnes, decide_eq_true bound, decide_eq_true one]
  · rw [if_neg one, decide_eq_false one]
    exact BitVec.getLsbD_zero ..

theorem zeroSetupDraws (wordSeed : Block) (c : BitVec 64) :
    (zeroSetup width statSecParam).aes wordSeed c = if wordSeed = 1#128 then BitVec.allOnes 128 else 0#128 := rfl

theorem farSums (positive : 0 < statSecParam) (multiple : statSecParam % 8 = 0) {numOtExt n : Nat}
    {r0 r : PrtyMOtReceiver} {s0 s : PrtyMOtSender} {words : Nat → Option Bytes}
    (started : (zeroSetup width statSecParam).Started numOtExt r0 s0)
    (run : Exchange ((zeroSetup width statSecParam).rows numOtExt) r0 s0 words (fun _ => false) r s)
    (idx : r.mCorrectionIdx = n) (fresh : ∀ i, n ≤ i → words i = none)
    (fits : n + statSecParam ≤ (zeroSetup width statSecParam).rows numOtExt) (far : 2 ^ 31 ≤ n * width.stride)
    {wordSeed value : Block} {x : Byte} (drawn : ∀ c, (zeroSetup width statSecParam).aes wordSeed c = value)
    (bytes : ∀ k < 16, value.extractLsb' (8 * k) 8 = x)
    (agree : ChecksAgree (zeroSetup width statSecParam) wordSeed 0#128 (fun _ => 0#128) r s) {j : Nat}
    (column : j < width.stride) :
    r0.mT0.mView ((n + (statSecParam - 1)) * width.stride + j) ^^^
      (s.mCorrectionVals.mView ((n + (statSecParam - 1)) * width.stride + j) ^^^
        s.mT.mView ((n + (statSecParam - 1)) * width.stride + j)) = (width.code mxTables).codeword (fun _ => x) j := by
  obtain ⟨r1, message, tMessage, wMessage, s1, sums, checkedR, checkedS, passes⟩ := agree
  have shape := width.shape mxTables
  obtain ⟨r', tSum0, wSum0, words', t, dummies, answer, answered⟩ := receiverAnswers (drawsConstant bytes) started rfl
    multiple run idx fresh fits wordSeed 0#128 (constantSeed drawn)
  obtain ⟨s1', qSum, stored, ran, qSums⟩ := senderSums started rfl multiple dummies.run dummies.idx 0#128 t (fun _ => 0#128)
  cases Except.ok.inj (answered.symm.trans checkedR)
  cases Except.ok.inj (ran.symm.trans checkedS)
  obtain ⟨rows1, param1, code1, choices1, -, -⟩ := PrtyMOtSender.recvCorrectionKeeps stored
  have kept := dummies.run.kept started
  have last : statSecParam - 1 < statSecParam := by omega
  have choices : ∀ j, s1.mChoiceBlks.get j = (zeroSetup width statSecParam).choiceBlk j := by
    intro j
    rw [choices1, kept.choiceBlks, started.choiceBlks]
  have compared := (passesIff (code1.trans kept.senderCode) choices last column).mp (passes _ last j column)
  have none : ∀ i l, ¬ challengeBit ((zeroSetup width statSecParam).aes 0#128) (zeroSetup width statSecParam).statSecParam
      i l = true := by
    intro i l picked
    exact Bool.false_ne_true ((zeroSetupChallenge width statSecParam 0#128 i l).symm.trans picked)
  have noRows : ∀ l (f : Blocks), xorSum ((List.range n).map fun i =>
      if challengeBit ((zeroSetup width statSecParam).aes 0#128) (zeroSetup width statSecParam).statSecParam i l
      then f i else 0#128) = 0#128 :=
    fun l f => (xorSumCongr fun i _ => if_neg (none i l)).trans (xorSumZero _)
  have noTerms : xorSum ((List.range n).map (s1.qTerm ((zeroSetup width statSecParam).aes 0#128)
      (zeroSetup width statSecParam).width.stride (PrtyMOtSender.zeroAndQ fun _ => 0#128) (statSecParam - 1) j)) = 0#128 := by
    have zero : PrtyMOtSender.zeroAndQ (fun _ => 0#128) j = 0#128 := ite_self _
    unfold PrtyMOtSender.qTerm
    rw [zero, param1, kept.senderParam, started.senderParam]
    exact noRows _ _
  have sameW : t.wSum = wSum0 := by
    funext a
    by_cases summed : a < (zeroSetup width statSecParam).statSecParam
    · rw [answer.wSum a summed, noRows, BitVec.xor_zero]
    · exact answer.rest a (Nat.le_of_not_lt summed)
  have word : (zeroSetup width statSecParam).code.codeword (bytesOf fun k =>
      t.wSum ((statSecParam - 1) * (zeroSetup width statSecParam).code.plaintextBlkSize + k)) =
      (width.code mxTables).codeword fun _ => x := by
    obtain ⟨w, -, drew⟩ := dummies.prepared _ last
    apply LinearCode.codewordCongr
    intro b inside
    have below : b < (inputBitCount + 7) / 8 := Nat.lt_of_lt_of_eq inside shape.plaintextU8Size
    rw [sameW]
    exact (drew b below).1.trans (drew b below).2
  -- the offset wraps in the cast, so the dummy rows are stored before the row of this sum
  have behind : s1.mCorrectionVals.mView ((n + (statSecParam - 1)) * (zeroSetup width statSecParam).width.stride + j) =
      s.mCorrectionVals.mView ((n + (statSecParam - 1)) * (zeroSetup width statSecParam).width.stride + j) := by
    apply PrtyMOtSender.recvCorrectionBefore stored
    have stride : s.mCorrectionVals.mStride = width.stride := kept.valsStride
    have wrapped := i32Large far
    have narrow := shape.narrow
    have edge : (zeroSetup width statSecParam).statSecParam * width.stride =
        (statSecParam - 1) * width.stride + width.stride := by
      have rows : statSecParam = statSecParam - 1 + 1 := by omega
      exact (congrArg (· * width.stride) rows).trans (Nat.succ_mul ..)
    have offset : (n + (statSecParam - 1)) * (zeroSetup width statSecParam).width.stride + j =
        n * width.stride + (statSecParam - 1) * width.stride + j := congrArg (· + j) (Nat.add_mul ..)
    rw [offset, stride, edge, kept.idx, dummies.idx]
    omega
  have sum := qSums _ last j column
  rw [noTerms, BitVec.xor_zero, behind, choices, zeroSetupChoice, BitVec.and_allOnes, rows1] at sum
  rw [answer.tSum _ last j column, noRows, BitVec.xor_zero, dummies.tSum _ last j column, sum, word, zeroSetupChoice,
    BitVec.and_allOnes] at compared
  exact compared

theorem farFails (positive : 0 < statSecParam) (multiple : statSecParam % 8 = 0) {numOtExt n : Nat}
    {r0 r : PrtyMOtReceiver} {s0 s : PrtyMOtSender} {words : Nat → Option Bytes}
    (started : (zeroSetup width statSecParam).Started numOtExt r0 s0)
    (run : Exchange ((zeroSetup width statSecParam).rows numOtExt) r0 s0 words (fun _ => false) r s)
    (idx : r.mCorrectionIdx = n) (fresh : ∀ i, n ≤ i → words i = none)
    (fits : n + statSecParam ≤ (zeroSetup width statSecParam).rows numOtExt) (far : 2 ^ 31 ≤ n * width.stride) :
    ¬ ∀ wordSeed, ChecksAgree (zeroSetup width statSecParam) wordSeed 0#128 (fun _ => 0#128) r s := by
  intro agree
  obtain ⟨j, column, nonzero⟩ := onesCodeword width
  have ones := farSums width statSecParam positive multiple started run idx fresh fits far (x := 255#8)
    (fun c => (zeroSetupDraws width statSecParam 1#128 c).trans (if_pos rfl)) (by decide) (agree 1#128) column
  have zeros := farSums width statSecParam positive multiple started run idx fresh fits far (x := 0#8)
    (fun c => (zeroSetupDraws width statSecParam 0#128 c).trans (if_neg (by decide)))
    (fun k _ => BitVec.extractLsb'_zero) (agree 0#128) column
  exact nonzero (ones.symm.trans (zeros.trans (LinearCode.codewordZero _ j)))

end ZeroSetup

def HonestChecksPass (inputBitCount statSecParam numOtExt n : Nat) : Prop :=
  ∀ u : Setup inputBitCount, u.mx = mxTables → u.malicious = true → u.statSecParam = statSecParam →
    ∀ r s r0 s0, u.receiver numOtExt r = .ok r0 → u.sender numOtExt s = .ok s0 →
    ∀ words r1 s1, Exchange (u.rows numOtExt) r0 s0 words (fun _ => false) r1 s1 → r1.mCorrectionIdx = n →
      (∀ i, n ≤ i → words i = none) → ∀ wordSeed seed stack, ChecksAgree u wordSeed seed stack r1 s1

/-- The check is complete for words of one block whose corrections fit the offset of
`recvCorrection`, and without rows. -/
theorem honestCheckIff {inputBitCount statSecParam numOtExt n : Nat} (width : Supported inputBitCount)
    (positive : 0 < statSecParam) (multiple : statSecParam % 8 = 0)
    (fits : n + statSecParam ≤ roundUpTo (numOtExt + statSecParam) 128) :
    HonestChecksPass inputBitCount statSecParam numOtExt n ↔ n = 0 ∨ inputBitCount ≤ 128 ∧ n * 4 < 2 ^ 31 := by
  have shape := width.shape mxTables
  have narrow := shape.narrow
  have fourBlocks := shape.fourBlocks
  constructor
  · intro pass
    by_contra failing
    obtain ⟨any, rest⟩ := not_or.mp failing
    let u := zeroSetup width statSecParam
    have started : u.Started numOtExt _ _ := u.started numOtExt PrtyMOtReceiver.new PrtyMOtSender.new
    obtain ⟨r, s, run, idx⟩ := exchangedAll started oneWord (n := n) (Nat.le_trans (Nat.le_add_right _ _) fits)
    have fresh : ∀ i, n ≤ i → firstWords n oneWord i = none := fun i past => if_neg (by omega)
    have agree := pass u rfl rfl rfl PrtyMOtReceiver.new PrtyMOtSender.new _ _ (u.receiverRuns numOtExt _)
      (u.senderRuns numOtExt _) _ r s run idx fresh
    by_cases far : 2 ^ 31 ≤ n * width.stride
    · exact farFails width statSecParam positive multiple started run idx fresh fits far
        fun wordSeed => agree wordSeed 0#128 _
    · have wide : 128 < inputBitCount := by
        by_contra oneBlock
        have four : width.stride = 4 := fourBlocks.mpr (by omega)
        rw [four] at far
        exact rest ⟨by omega, by omega⟩
      refine wideFails rfl rfl multiple (zeroSetupChoice width statSecParam) started run idx fits
        (Nat.pos_of_ne_zero any) wide (Nat.lt_of_not_le far) (l := statSecParam - 1) ?_ ?_
        (zeroSetupChallenge width statSecParam 1#128 0 _) 0#128 (agree 0#128 1#128 _)
      · exact Nat.sub_lt positive Nat.one_pos
      · change statSecParam ≤ _
        omega
  · rintro condition u - malicious rfl r s r0 s0 ranR ranS words r1 s1 run idx fresh wordSeed seed stack
    cases Except.ok.inj (ranR.symm.trans (u.receiverRuns numOtExt r))
    cases Except.ok.inj (ranS.symm.trans (u.senderRuns numOtExt s))
    have stride : u.width.stride = 4 ∨ n = 0 := by
      rcases condition with none | ⟨oneBlock, -⟩
      · exact Or.inr none
      · exact Or.inl ((u.width.shape u.mx).fourBlocks.mpr oneBlock)
    refine honestPasses (u.started numOtExt r s) malicious multiple run idx fresh fits (condition.imp_right And.left) ?_
      wordSeed seed stack
    rcases stride with four | none
    · rw [four]
      omega
    · rw [none, Nat.zero_mul]
      decide

theorem oneRowPasses : HonestChecksPass 65 40 1 1 ↔ 1 = 0 ∨ 65 ≤ 128 ∧ 1 * 4 < 2 ^ 31 :=
  honestCheckIff Supported.semiHonest (by decide) (by decide) (by decide)

def knownSetup : Setup 132 :=
  { zeroSetup narrowSetup.width 40 with aes := fun _ _ => 0x2e2b34ca59fa4c883b2c8aefd44be966#128 }

theorem knownSetupPicks : challengeBit (knownSetup.aes 0#128) 40 0 32 = true := by decide +kernel

/-- One row of ones between honest parties fails the check. -/
theorem honestRowRejected : ∃ r0 s0 r s, knownSetup.receiver 1 PrtyMOtReceiver.new = .ok r0 ∧
    knownSetup.sender 1 PrtyMOtSender.new = .ok s0 ∧
    Exchange (knownSetup.rows 1) r0 s0 (firstWords 1 oneWord) (fun _ => false) r s ∧ r.mCorrectionIdx = 1 ∧
    ¬ ChecksAgree knownSetup 0#128 0#128 (fun _ => 0#128) r s := by
  have started := knownSetup.started 1 PrtyMOtReceiver.new PrtyMOtSender.new
  obtain ⟨r, s, run, idx⟩ := exchangedAll started oneWord (n := 1) (by decide)
  refine ⟨_, _, r, s, knownSetup.receiverRuns 1 _, knownSetup.senderRuns 1 _, run, idx, ?_⟩
  have chosen : ∀ j, knownSetup.choiceBlk j = BitVec.allOnes 128 := zeroSetupChoice narrowSetup.width 40
  have late : knownSetup.statSecParam ≤ 32 * 2 := by decide
  exact wideFails rfl rfl rfl chosen started run idx (by decide) (by decide) (by decide) (by decide)
    (show 32 < knownSetup.statSecParam by decide) late knownSetupPicks 0#128

end PaxosPsi
