import PaxosPsi.CodeTables
import PaxosPsi.Encodings
import PaxosPsi.Setup

/-! Runs in which the receiver prepares its rows in any order, with words or with
`zeroEncode`, chunks of prepared rows are exchanged, and the sender corrects each row
it has received once. Afterwards both parties encode to the same bytes. -/
namespace PaxosPsi
open CountedLoop XorAlgebra Memory

/-- An oracle whose shorter outputs are prefixes of longer ones. -/
structure PrefixOracle where
  final : RandomOracle
  prefixes : ∀ short long input i, i < short → short ≤ long → final short input i = final long input i

def zeroWord : Bytes := fun _ => 0#8

/-- What can happen between `init` and `encode`: `words` lists what the rows were prepared
with and `done` the rows the sender has corrected. A chunk starts at an offset the
sender's `i32` cast keeps. -/
inductive Exchange (rows : Nat) (r0 : PrtyMOtReceiver) (s0 : PrtyMOtSender) :
    (Nat → Option Bytes) → (Nat → Bool) → PrtyMOtReceiver → PrtyMOtSender → Prop where
  | start : Exchange rows r0 s0 (fun _ => none) (fun _ => false) r0 s0
  | otCorrection {words done r s} (run : Exchange rows r0 s0 words done r s) (i : Nat) (w : Bytes) (row : i < rows)
      (fresh : words i = none) :
      Exchange rows r0 s0 (Function.update words i (some w)) done (r.otCorrection i w) s
  | zeroEncode {words done r s} (run : Exchange rows r0 s0 words done r s) (i : Nat) (row : i < rows)
      (fresh : words i = none) :
      Exchange rows r0 s0 (Function.update words i (some zeroWord)) done (r.zeroEncode i) s
  | chunk {words done r s s'} (run : Exchange rows r0 s0 words done r s) (count : Nat)
      (prepared : ∀ i, r.mCorrectionIdx ≤ i → i < r.mCorrectionIdx + count → words i ≠ none)
      (small : s.mCorrectionIdx * s.mCorrectionVals.mStride < 2 ^ 31)
      (received : s.recvCorrection count ((r.sendCorrection count).1.read r.mT1.mView) = .ok s') :
      Exchange rows r0 s0 words done (r.sendCorrection count).2 s'
  | correct {words done r s} (run : Exchange rows r0 s0 words done r s) (i : Nat) (received : i < s.mCorrectionIdx)
      (once : done i = false) :
      Exchange rows r0 s0 words (Function.update done i true) r (s.otCorrection i)

theorem inRow {stride i i' j : Nat} (column : j < stride) :
    i' * stride ≤ i * stride + j ∧ i * stride + j < i' * stride + stride ↔ i = i' := by
  constructor
  · intro inside
    obtain ⟨row, -⟩ := rowOfOffset inside
    obtain ⟨own, -⟩ := rowOfOffset (show i * stride ≤ i * stride + j ∧ i * stride + j < i * stride + stride by omega)
    omega
  · rintro rfl
    omega

theorem zeroEncodeWord {r : PrtyMOtReceiver} (i i' : Nat) {b : Nat} (inside : b < 16 * r.mW.mStride) :
    (r.zeroEncode i).wVal i' b = if i' = i then 0#8 else r.wVal i' b := by
  have block := updateSpan r.mW.mView (i * r.mW.mStride) r.mW.mStride (fun _ => 0#128)
    (a := i' * r.mW.mStride + b / 16)
  rw [if_congr (inRow (by omega)) rfl rfl] at block
  change bytesOf (fun k => forLoop r.mW.mStride (fun k m => Function.update m (i * r.mW.mStride + k) 0#128)
    r.mW.mView (i' * r.mW.mStride + k)) b = _
  by_cases same : i' = i
  · rw [if_pos same] at block ⊢
    exact (bytesOfCongr (n := fun _ => 0#128) block).trans (congrFun bytesOfZero b)
  · rw [if_neg same] at block ⊢
    exact bytesOfCongr block

section ZeroEncode
variable {r : PrtyMOtReceiver} {stride : Nat} (shaped : Shaped r stride)
include shaped

theorem zeroEncodeT1 (i : Nat) : (r.zeroEncode i).mT1 = (r.otCorrection i zeroWord).mT1 := by
  have views : (r.zeroEncode i).mT1.mView = (r.otCorrection i zeroWord).mT1.mView := by
    funext a
    have codeword : r.mCode.codeword ((r.storeWord i zeroWord).wVal i) = fun _ => 0#128 := by
      refine (LinearCode.codewordCongr r.mCode fun b inside => ?_).trans (funext (LinearCode.codewordZero r.mCode))
      exact storedWord i zeroWord r (by rw [shaped.inputBytes]; exact inside)
    rw [PrtyMOtReceiver.otCorrectionSpec, codeword]
    refine (xorSpan _ _ _ _).trans ?_
    split
    · rename_i inside
      have back : i * r.mT0.mStride + (a - i * r.mT0.mStride) = a := by omega
      rw [back, BitVec.zero_xor]
    · rfl
  unfold PrtyMOtReceiver.zeroEncode PrtyMOtReceiver.otCorrection at views ⊢
  dsimp only at views ⊢
  rw [views]
  rfl

theorem zeroEncodeW (positive : 0 < r.mInputByteCount) (i : Nat) :
    (r.zeroEncode i).mW = (r.otCorrection i zeroWord).mW ↔
      ∀ b, r.mInputByteCount ≤ b → b < 16 * r.mW.mStride → r.wVal i b = 0#8 := by
  have fits := shaped.wordFits
  have stored : ∀ b, (r.otCorrection i zeroWord).wVal i b = if b < r.mInputByteCount then 0#8 else r.wVal i b :=
    fun b => memcpyBytes r.mW.mView (i * r.mW.mStride) zeroWord r.mInputByteCount b
  constructor
  · intro same b behind inside
    have bytes := congrArg (fun m : Matrix => bytesOf (fun k => m.mView (i * m.mStride + k)) b) same
    have cleared := zeroEncodeWord (r := r) i i inside
    have left := stored b
    rw [if_pos rfl] at cleared
    rw [if_neg (by omega)] at left
    exact left.symm.trans (bytes.symm.trans cleared)
  · intro zero
    have words : ∀ i' b, b < 16 * r.mW.mStride → (r.zeroEncode i).wVal i' b = (r.otCorrection i zeroWord).wVal i' b := by
      intro i' b inside
      rw [zeroEncodeWord i i' inside]
      by_cases same : i' = i
      · subst same
        rw [if_pos rfl, stored]
        split
        · rfl
        · exact (zero b (by omega) inside).symm
      · rw [if_neg same]
        exact (storedWordElsewhere zeroWord same fits inside).symm
    have views : (r.zeroEncode i).mW.mView = (r.otCorrection i zeroWord).mW.mView := by
      funext a
      have column := Nat.mod_lt a (show 0 < r.mW.mStride by omega)
      have split : a / r.mW.mStride * r.mW.mStride + a % r.mW.mStride = a := by
        rw [Nat.mul_comm]
        exact Nat.div_add_mod _ _
      have block : ∀ m : Blocks, m a =
          blocksOf (bytesOf fun k => m (a / r.mW.mStride * r.mW.mStride + k)) (a % r.mW.mStride) := by
        intro m
        rw [blocksOfBytesOf, split]
      rw [block (r.zeroEncode i).mW.mView, block (r.otCorrection i zeroWord).mW.mView]
      unfold blocksOf
      congr 1
      funext k
      have bound := k.isLt
      exact congrArg (BitVec.getLsbD · _) (words (a / r.mW.mStride) _ (by omega))
    change Matrix.mk _ _ _ (r.zeroEncode i).mW.mView = Matrix.mk _ _ _ (r.otCorrection i zeroWord).mW.mView
    rw [views]

end ZeroEncode

structure Exchanging {inputBitCount : Nat} (u : Setup inputBitCount) (r0 : PrtyMOtReceiver) (s0 : PrtyMOtSender)
    (words : Nat → Option Bytes) (done : Nat → Bool) (r : PrtyMOtReceiver) (s : PrtyMOtSender) : Prop where
  shaped : Shaped r u.width.stride
  receiverCode : r.mCode = u.code
  inputBytes : r.mInputByteCount = r0.mInputByteCount
  receiverParam : r.mStatSecParam = r0.mStatSecParam
  receiverMalicious : r.mMalicious = r0.mMalicious
  t0 : r.mT0 = r0.mT0
  wStride : r.mW.mStride = r0.mW.mStride
  word : ∀ i w, words i = some w → ∀ b < r0.mInputByteCount, r.wVal i b = w b
  senderCode : s.mCode = u.code
  senderBytes : s.mInputByteCount = s0.mInputByteCount
  senderParam : s.mStatSecParam = s0.mStatSecParam
  senderMalicious : s.mMalicious = s0.mMalicious
  choiceBlks : s.mChoiceBlks = s0.mChoiceBlks
  tStride : s.mT.mStride = u.width.stride
  valsStride : s.mCorrectionVals.mStride = u.width.stride
  idx : s.mCorrectionIdx = r.mCorrectionIdx
  sent : ∀ i < r.mCorrectionIdx, words i ≠ none
  received : ∀ i, done i = true → i < s.mCorrectionIdx
  t1 : ∀ i, ∀ j < u.width.stride, r.mT1.mView (i * u.width.stride + j) =
    r0.mT1.mView (i * u.width.stride + j) ^^^ match words i with
      | none => 0#128
      | some w => u.code.codeword w j ^^^ r0.mT0.mView (i * u.width.stride + j)
  vals : ∀ i < s.mCorrectionIdx, ∀ j < u.width.stride,
    s.mCorrectionVals.mView (i * u.width.stride + j) = r.mT1.mView (i * u.width.stride + j)
  t : ∀ i, ∀ j < u.width.stride, s.mT.mView (i * u.width.stride + j) =
    s0.mT.mView (i * u.width.stride + j) ^^^
      if done i then s.mCorrectionVals.mView (i * u.width.stride + j) &&& s0.mChoiceBlks.get j else 0#128

section Steps
variable {inputBitCount : Nat} {u : Setup inputBitCount} {r0 r : PrtyMOtReceiver} {s0 s : PrtyMOtSender}
  {words : Nat → Option Bytes} {done : Nat → Bool}

theorem Exchanging.start {numOtExt : Nat} (started : u.Started numOtExt r0 s0) :
    Exchanging u r0 s0 (fun _ => none) (fun _ => false) r0 s0 := by
  refine ⟨started.shaped, started.receiverCode, rfl, rfl, rfl, rfl, rfl, fun i w none => ?_, started.senderCode, rfl,
    rfl, rfl, rfl, started.tStride, started.valsStride, started.senderIdx.trans started.receiverIdx.symm,
    fun i none => ?_, fun i none => ?_, fun i j _ => ?_, fun i none => ?_, fun i j _ => ?_⟩
  · cases none
  · rw [started.receiverIdx] at none
    exact absurd none (Nat.not_lt_zero i)
  · exact absurd none Bool.false_ne_true
  · exact BitVec.xor_zero.symm
  · rw [started.senderIdx] at none
    exact absurd none (Nat.not_lt_zero i)
  · exact BitVec.xor_zero.symm

theorem Exchanging.prepare (kept : Exchanging u r0 s0 words done r s) {i : Nat} (w : Bytes) (fresh : words i = none) :
    Exchanging u r0 s0 (Function.update words i (some w)) done (r.otCorrection i w) s := by
  have view : ∀ i', ∀ j < u.width.stride, (r.otCorrection i w).mT1.mView (i' * u.width.stride + j) =
      if i' = i then r.mT1.mView (i' * u.width.stride + j) ^^^
        (u.code.codeword w j ^^^ r0.mT0.mView (i' * u.width.stride + j))
      else r.mT1.mView (i' * u.width.stride + j) := by
    intro i' j column
    have codeword : r.mCode.codeword ((r.storeWord i w).wVal i) = u.code.codeword w := by
      rw [kept.receiverCode]
      apply LinearCode.codewordCongr
      intro b inside
      exact storedWord i w r (by rw [kept.shaped.inputBytes, kept.receiverCode]; exact inside)
    rw [PrtyMOtReceiver.otCorrectionSpec, kept.shaped.t0Stride, codeword, kept.t0, if_congr (inRow column) rfl rfl]
    split
    · rename_i same
      rw [same, Nat.add_sub_cancel_left]
    · rfl
  have apart : ∀ i' < s.mCorrectionIdx, i' ≠ i := by
    rintro i' below rfl
    exact kept.sent i' (kept.idx ▸ below) fresh
  have fits := kept.shaped.wordFits
  refine { kept with
    shaped := { kept.shaped with }
    word := fun i' w' prepared b inside => ?_
    sent := fun i' below => ?_
    t1 := fun i' j column => ?_
    vals := fun i' below j column => ?_ }
  · rw [← kept.inputBytes] at inside
    by_cases same : i' = i
    · subst same
      rw [Function.update_self] at prepared
      exact (storedWord i' w r inside).trans (congrFun (Option.some.inj prepared) b)
    · rw [Function.update_of_ne same] at prepared
      exact (storedWordElsewhere w same fits (by omega)).trans
        (kept.word i' w' prepared b (by rw [← kept.inputBytes]; exact inside))
  · rw [Function.update_of_ne (apart i' (by rw [kept.idx]; exact below))]
    exact kept.sent i' below
  · rw [view i' j column, kept.t1 i' j column]
    by_cases same : i' = i
    · subst same
      rw [if_pos rfl, Function.update_self, fresh]
      simp only [BitVec.xor_zero]
    · rw [if_neg same, Function.update_of_ne same]
  · rw [view i' j column, if_neg (apart i' below)]
    exact kept.vals i' below j column

theorem Exchanging.zeroEncode (kept : Exchanging u r0 s0 words done r s) {i : Nat} (fresh : words i = none) :
    Exchanging u r0 s0 (Function.update words i (some zeroWord)) done (r.zeroEncode i) s := by
  have prepared := kept.prepare zeroWord fresh
  have t1 := zeroEncodeT1 kept.shaped i
  have fits := kept.shaped.wordFits
  refine { kept with
    shaped := { kept.shaped with }
    word := fun i' w' given b inside => ?_
    sent := prepared.sent
    t1 := ?_
    vals := ?_ }
  · have word : (r.otCorrection i zeroWord).wVal i' b = w' b := prepared.word i' w' given b inside
    rw [← kept.inputBytes] at inside
    rw [zeroEncodeWord i i' (by omega)]
    by_cases same : i' = i
    · subst same
      rw [if_pos rfl, ← word]
      exact (storedWord i' zeroWord r inside).symm
    · rw [if_neg same, ← word]
      exact (storedWordElsewhere zeroWord same fits (by omega)).symm
  · rw [t1]
    exact prepared.t1
  · rw [t1]
    exact prepared.vals

theorem Exchanging.chunk (kept : Exchanging u r0 s0 words done r s) {count : Nat} {s' : PrtyMOtSender}
    (prepared : ∀ i, r.mCorrectionIdx ≤ i → i < r.mCorrectionIdx + count → words i ≠ none)
    (small : s.mCorrectionIdx * s.mCorrectionVals.mStride < 2 ^ 31)
    (received : s.recvCorrection count ((r.sendCorrection count).1.read r.mT1.mView) = .ok s') :
    Exchanging u r0 s0 words done (r.sendCorrection count).2 s' := by
  have sized : ((r.sendCorrection count).1.read r.mT1.mView).length = count * s.mCorrectionVals.mStride := by
    have length : (r.sendCorrection count).1.length = r.mT1.mStride * count := rfl
    rw [Correction.read, List.length_map, List.length_range, length, kept.shaped.t1Stride, kept.valsStride,
      Nat.mul_comm]
  obtain ⟨mView, stored, view⟩ := PrtyMOtSender.recvCorrectionSpec count _ sized small
  rw [stored] at received
  cases received
  have rows : ∀ i, ∀ j < u.width.stride, mView (i * u.width.stride + j) =
      if s.mCorrectionIdx ≤ i ∧ i < s.mCorrectionIdx + count then r.mT1.mView (i * u.width.stride + j)
      else s.mCorrectionVals.mView (i * u.width.stride + j) := by
    intro i j column
    have edge : (s.mCorrectionIdx + count) * u.width.stride =
        s.mCorrectionIdx * u.width.stride + u.width.stride * count := by rw [Nat.add_mul, Nat.mul_comm count]
    rw [view, kept.valsStride]
    -- both sides count the same rows, so the chunk is read and stored at one offset
    by_cases new : s.mCorrectionIdx ≤ i ∧ i < s.mCorrectionIdx + count
    · have low := Nat.mul_le_mul_right u.width.stride new.1
      have high := Nat.mul_le_mul_right u.width.stride (show i + 1 ≤ s.mCorrectionIdx + count from new.2)
      rw [Nat.succ_mul] at high
      have offset : i * u.width.stride + j - s.mCorrectionIdx * u.width.stride < u.width.stride * count := by omega
      have back : s.mCorrectionIdx * u.width.stride +
          (i * u.width.stride + j - s.mCorrectionIdx * u.width.stride) = i * u.width.stride + j := by omega
      rw [if_pos new, if_pos (by omega)]
      simp [Correction.read, PrtyMOtReceiver.sendCorrection, kept.shaped.t1Stride, ← kept.idx, offset, back]
    · have outside : ¬ (s.mCorrectionIdx * u.width.stride ≤ i * u.width.stride + j ∧
          i * u.width.stride + j < (s.mCorrectionIdx + count) * u.width.stride) := by
        rintro ⟨low, high⟩
        refine new ⟨?_, ?_⟩
        · by_contra before
          have edge := Nat.mul_le_mul_right u.width.stride (show i + 1 ≤ s.mCorrectionIdx by omega)
          rw [Nat.succ_mul] at edge
          omega
        · exact Nat.lt_of_mul_lt_mul_right (Nat.lt_of_le_of_lt (Nat.le_add_right _ j) high)
      rw [if_neg new, if_neg outside]
  refine { kept with
    shaped := { kept.shaped with }
    idx := congrArg (· + count) kept.idx
    sent := fun i below => ?_
    received := fun i corrected => Nat.lt_of_lt_of_le (kept.received i corrected) (Nat.le_add_right _ _)
    vals := fun i below j column => ?_
    t := fun i j column => ?_ }
  · by_cases old : i < r.mCorrectionIdx
    · exact kept.sent i old
    · exact prepared i (by omega) below
  · refine (rows i j column).trans ?_
    split
    · rfl
    · rename_i old
      have below' : i < s.mCorrectionIdx + count := below
      exact kept.vals i (by omega) j column
  · refine (kept.t i j column).trans ?_
    congr 1
    split
    · rename_i corrected
      have old := kept.received i corrected
      have same := rows i j column
      rw [if_neg (by omega)] at same
      exact congrArg (· &&& s0.mChoiceBlks.get j) same.symm
    · rfl

theorem Exchanging.correct (kept : Exchanging u r0 s0 words done r s) {i : Nat} (received : i < s.mCorrectionIdx)
    (once : done i = false) : Exchanging u r0 s0 words (Function.update done i true) r (s.otCorrection i) := by
  refine { kept with
    received := fun i' corrected => ?_
    t := fun i' j column => ?_ }
  · by_cases same : i' = i
    · exact same ▸ received
    · rw [Function.update_of_ne same] at corrected
      exact kept.received i' corrected
  · rw [PrtyMOtSender.otCorrectionSpec, kept.tStride, if_congr (inRow column) rfl rfl, kept.t i' j column]
    by_cases same : i' = i
    · subst same
      rw [if_pos rfl, Function.update_self, once, if_pos rfl, PrtyMOtSender.maskedCorrection, kept.valsStride,
        Nat.add_sub_cancel_left, kept.choiceBlks]
      simp
    · rw [if_neg same, Function.update_of_ne same]
      rfl

theorem Exchange.kept {numOtExt rows : Nat} (started : u.Started numOtExt r0 s0)
    (run : Exchange rows r0 s0 words done r s) : Exchanging u r0 s0 words done r s := by
  induction run with
  | start => exact Exchanging.start started
  | otCorrection _ i w _ fresh ih => exact ih.prepare w fresh
  | zeroEncode _ i _ fresh ih => exact ih.zeroEncode fresh
  | chunk _ count prepared small received ih => exact ih.chunk prepared small received
  | correct _ i received once ih => exact ih.correct received once

theorem Exchange.row {rows : Nat} (run : Exchange rows r0 s0 words done r s) {i : Nat} {w : Bytes}
    (prepared : words i = some w) : i < rows := by
  have updated : ∀ {words : Nat → Option Bytes} {i i' : Nat} {w w' : Bytes},
      (words i = some w → i < rows) → i' < rows → Function.update words i' (some w') i = some w → i < rows := by
    intro words i i' w w' before inside prepared
    by_cases same : i = i'
    · exact same ▸ inside
    · rw [Function.update_of_ne same] at prepared
      exact before prepared
  induction run with
  | start => cases prepared
  | otCorrection _ i' w' inside _ ih => exact updated ih inside prepared
  | zeroEncode _ i' inside _ ih => exact updated ih inside prepared
  | chunk _ _ _ _ _ ih => exact ih prepared
  | correct _ _ _ _ ih => exact ih prepared

theorem Exchange.rowRelation {numOtExt : Nat} (started : u.Started numOtExt r0 s0)
    (run : Exchange (u.rows numOtExt) r0 s0 words done r s) {i : Nat} {w : Bytes} (prepared : words i = some w)
    (received : i < s.mCorrectionIdx) {j : Nat} (column : j < u.width.stride) :
    s0.mT.mView (i * u.width.stride + j) ^^^
        (s.mCorrectionVals.mView (i * u.width.stride + j) &&& s0.mChoiceBlks.get j) =
      r0.mT0.mView (i * u.width.stride + j) ^^^ (u.code.codeword w j &&& u.choiceBlk j) := by
  have kept := run.kept started
  have mask : s0.mChoiceBlks.get j = u.choiceBlk j := by rw [started.choiceBlks]
  have relation := started.relation i (run.row prepared) j column
  unfold PrtyMOtSender.t PrtyMOtReceiver.t0 PrtyMOtReceiver.t1 at relation
  rw [started.tStride, started.shaped.t0Stride] at relation
  have row := kept.t1 i j column
  rw [prepared] at row
  rw [kept.vals i received j column, row, relation, mask, BitVec.xor_comm (r0.mT1.mView _), maskedExchange]

theorem hashedDifference {numOtExt : Nat} (started : u.Started numOtExt r0 s0)
    (run : Exchange (u.rows numOtExt) r0 s0 words done r s) {i : Nat} {w : Bytes} (prepared : words i = some w)
    (corrected : done i = true) (w' : Bytes) {j : Nat} (column : j < u.width.stride) :
    s.hashedRow i w' j = r.t0 i j ^^^ (u.code.codeword (fun b => w b ^^^ w' b) j &&& u.choiceBlk j) := by
  have kept := run.kept started
  have shape := u.width.shape u.mx
  have bytes : s.mInputByteCount = (inputBitCount + 7) / 8 := kept.senderBytes.trans started.senderBytes
  have codewordBytes := shape.codewordBytes
  have mask : s0.mChoiceBlks.get j = u.choiceBlk j := by rw [started.choiceBlks]
  have value := kept.t i j column
  rw [corrected, if_pos rfl, run.rowRelation started prepared (kept.received i corrected) column] at value
  rw [PrtyMOtSender.hashedRowSpec _ _ _ (by rw [kept.tStride]; exact column), PrtyMOtSender.codewordOfSpec,
    kept.choiceBlks, mask, kept.senderCode, LinearCode.codewordXor, andXorDistrib]
  · unfold PrtyMOtSender.t PrtyMOtReceiver.t0
    rw [kept.tStride, kept.t0, started.shaped.t0Stride, value, BitVec.xor_assoc]
  · rw [kept.senderCode, bytes]
    exact Nat.le_of_eq shape.plaintextU8Size
  · rw [kept.senderCode, bytes]
    exact codewordBytes

end Steps

/-- After every such run both parties encode the word of a corrected row to the same
bytes, the sender hashes any other word with the masked codeword of the difference, and
`zeroEncode` differs from preparing the zero word in no byte the codes read. -/
theorem encodingsAgree {inputBitCount : Nat} (u : Setup inputBitCount) (numOtExt : Nat) (r : PrtyMOtReceiver)
    (s : PrtyMOtSender) (oracle : PrefixOracle) :
    ∃ r0 s0, u.receiver numOtExt r = .ok r0 ∧ u.sender numOtExt s = .ok s0 ∧
      ∀ words done r1 s1, Exchange (u.rows numOtExt) r0 s0 words done r1 s1 →
        (∀ i w, words i = some w → done i = true →
          (∀ dest destSize, 1 ≤ destSize → destSize ≤ RandomOracle.HashSize →
            s1.encode oracle.final i w dest destSize = r1.encode oracle.final i w dest destSize) ∧
          ∀ w', ∀ j < u.width.stride, s1.hashedRow i w' j =
            r1.t0 i j ^^^ (u.code.codeword (fun b => w b ^^^ w' b) j &&& u.choiceBlk j)) ∧
        ∀ i, (r1.zeroEncode i).mT1 = (r1.otCorrection i zeroWord).mT1 ∧
          (∀ b < r1.mInputByteCount, (r1.zeroEncode i).wVal i b = (r1.otCorrection i zeroWord).wVal i b) ∧
          ((r1.zeroEncode i).mW = (r1.otCorrection i zeroWord).mW ↔
            ∀ b, r1.mInputByteCount ≤ b → b < 16 * r1.mW.mStride → r1.wVal i b = 0#8) := by
  have started := u.started numOtExt r s
  refine ⟨_, _, u.receiverRuns numOtExt r, u.senderRuns numOtExt s, fun words done r1 s1 run => ⟨?_, fun i => ?_⟩⟩
  · intro i w prepared corrected
    have kept := run.kept started
    refine ⟨fun dest destSize _ short => ?_, fun w' j column => hashedDifference started run prepared corrected w' column⟩
    have rows : blockBytes (s1.hashedRow i w) s1.mT.mStride =
        blockBytes (fun j => r1.mT0.mView (r1.mT0.mStride * i + j)) r1.mT0.mStride := by
      rw [kept.tStride, kept.shaped.t0Stride]
      apply blockBytesCongr
      intro j column
      rw [hashedDifference started run prepared corrected w column]
      simp only [BitVec.xor_self]
      have zero := LinearCode.codewordZero u.code j
      rw [zero, BitVec.zero_and, BitVec.xor_zero, PrtyMOtReceiver.t0, kept.shaped.t0Stride, Nat.mul_comm]
    unfold PrtyMOtSender.encode PrtyMOtReceiver.encode
    rw [rows, Nat.min_eq_right short]
    funext i
    unfold copyBytes
    split
    · rename_i inside
      exact oracle.prefixes _ _ _ _ inside short
    · rfl
  · have kept := run.kept started
    have bytes : r1.mInputByteCount = (inputBitCount + 7) / 8 := kept.inputBytes.trans u.width.inputBytes
    have fits := kept.shaped.wordFits
    refine ⟨zeroEncodeT1 kept.shaped i, fun b inside => ?_, zeroEncodeW kept.shaped ?_ i⟩
    · have word : (r1.otCorrection i zeroWord).wVal i b = 0#8 := storedWord i zeroWord r1 inside
      rw [zeroEncodeWord i i (by omega), if_pos rfl, word]
    · have nonzero := u.width.bytes
      omega

theorem resizeLeaves {m : Matrix} {rows columns a : Nat} (reused : rows * columns ≤ m.mCapacity)
    (behind : (rows * columns + 15) / 16 ≤ a) : (m.assignEmpty.resize rows columns).mView a = m.mView a := by
  have emptied : m.assignEmpty = { m with size := 0, mStride := 0 } := by
    unfold Matrix.assignEmpty Matrix.resize
    rw [if_neg (by omega)]
    simp
  rw [emptied]
  unfold Matrix.resize
  rw [if_neg (Nat.not_lt.mpr reused)]
  dsimp only
  split
  · exact memcpyOutside m.mView 0 _ _ (Or.inr (by omega))
  · rfl

theorem resizeCapacity (m : Matrix) (rows columns : Nat) : rows * columns ≤ (m.resize rows columns).mCapacity := by
  unfold Matrix.resize
  split
  · exact Nat.le_refl _
  · rename_i reused
    exact Nat.le_of_not_lt reused

theorem Setup.startedWords {inputBitCount : Nat} (u : Setup inputBitCount) (numOtExt : Nat) (r : PrtyMOtReceiver) :
    (u.startedReceiver numOtExt r).mW = r.mW.assignEmpty.resize (u.rows numOtExt) u.code.plaintextBlkSize := by
  have code : (u.configuredReceiver r).mCode = u.code := u.width.loaded u.mx _
  rw [← code]
  rfl

/-- What a row prepared in an earlier use keeps through a setup for words as many blocks wide. -/
theorem staleWord {inputBitCount inputBitCount' : Nat} (u : Setup inputBitCount) (u' : Setup inputBitCount')
    (numOtExt numOtExt' : Nat) (r : PrtyMOtReceiver) (w : Bytes) {i b : Nat}
    (blocks : u'.code.plaintextBlkSize = u.code.plaintextBlkSize) (rows : u'.rows numOtExt' ≤ u.rows numOtExt)
    (inside : b < (inputBitCount + 7) / 8)
    (behind : (u'.rows numOtExt' * u.code.plaintextBlkSize + 15) / 16 ≤ i * u.code.plaintextBlkSize + b / 16) :
    (u'.startedReceiver numOtExt' ((u.startedReceiver numOtExt r).otCorrection i w)).wVal i b = w b := by
  have first := u.startedWords numOtExt r
  have stride : (u.startedReceiver numOtExt r).mW.mStride = u.code.plaintextBlkSize := by
    rw [first, Matrix.resizeStride]
  have bytes : (u.startedReceiver numOtExt r).mInputByteCount = (inputBitCount + 7) / 8 := u.width.inputBytes
  have capacity : u'.rows numOtExt' * u.code.plaintextBlkSize ≤
      ((u.startedReceiver numOtExt r).otCorrection i w).mW.mCapacity := by
    refine Nat.le_trans (Nat.mul_le_mul_right _ rows) ?_
    change _ ≤ (u.startedReceiver numOtExt r).mW.mCapacity
    rw [first]
    exact resizeCapacity _ _ _
  unfold PrtyMOtReceiver.wVal
  rw [u'.startedWords, Matrix.resizeStride, blocks]
  have stored := memcpyBytes (u.startedReceiver numOtExt r).mW.mView (i * u.code.plaintextBlkSize) w
    ((inputBitCount + 7) / 8) b
  rw [if_pos inside] at stored
  simp only [bytesOf] at stored ⊢
  rw [resizeLeaves capacity behind, PrtyMOtReceiver.otCorrectionWord, stride, bytes]
  exact stored

def Setup.keyless {inputBitCount : Nat} (width : Supported inputBitCount) : Setup inputBitCount where
  width := width
  mx := mxTables
  aes _ _ := 0#128
  malicious := false
  statSecParam := 40
  seeds _ := (0#128, 0#128)
  choiceData _ := 0#8

def wideSetup : Setup 238 := Setup.keyless ⟨1666, 776, rfl⟩

def narrowSetup : Setup 132 := Setup.keyless Supported.malicious

def wideReceiver : PrtyMOtReceiver :=
  (wideSetup.startedReceiver 88 PrtyMOtReceiver.new).otCorrection 87 fun _ => 255#8

/-- `Matrix::resize` clears as many bytes as it has new blocks, so an `init` for narrower
words leaves the old word's last bytes in row 87, and only `zeroEncode` overwrites them. -/
theorem zeroEncodeClearsMore : ∃ r, narrowSetup.receiver 88 wideReceiver = .ok r ∧ r.wVal 87 17 = 255#8 ∧
    (r.zeroEncode 87).mW ≠ (r.otCorrection 87 zeroWord).mW := by
  have old : (narrowSetup.startedReceiver 88 wideReceiver).wVal 87 17 = 255#8 :=
    staleWord wideSetup narrowSetup 88 88 PrtyMOtReceiver.new (fun _ => 255#8) (by decide) (by decide) (by decide)
      (by decide)
  refine ⟨_, narrowSetup.receiverRuns 88 wideReceiver, old, fun same => ?_⟩
  have started := narrowSetup.started 88 wideReceiver PrtyMOtSender.new
  have bytes : (narrowSetup.startedReceiver 88 wideReceiver).mInputByteCount = 17 := rfl
  have zero := (zeroEncodeW started.shaped (by rw [bytes]; decide) 87).mp same 17 (by rw [bytes])
    (by rw [started.wStride]; decide)
  exact absurd (old.symm.trans zero) (by decide)

end PaxosPsi
