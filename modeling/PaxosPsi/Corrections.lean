import PaxosPsi.BaseOts

/-! Exchange of correction rows. The receiver turns `T1` row by row into
`T0 ^ T1 ^ C(w)` and the sender receives the rows chunk by chunk. Both sides are
described by one flat buffer `corrected`, and a chunk is a range of it. -/
namespace PaxosPsi
open CountedLoop XorAlgebra Memory

/-- The correction rows of the words `words` over the pads held right after `init`. -/
def corrected (r0 : PrtyMOtReceiver) (words : Nat → Bytes) : Blocks := fun a =>
  r0.mCode.codeword (words (a / r0.mT0.mStride)) (a % r0.mT0.mStride) ^^^ r0.mT0.mView a ^^^ r0.mT1.mView a

def rowsMessage (stride : Nat) (rows : Blocks) (row count : Nat) : List Block :=
  (List.range (stride * count)).map fun a => rows (row * stride + a)

structure Shaped (r : PrtyMOtReceiver) (stride : Nat) : Prop where
  wide : 0 < stride
  t0Stride : r.mT0.mStride = stride
  t1Stride : r.mT1.mStride = stride
  inputBytes : r.mInputByteCount = r.mCode.plaintextU8Size
  wordFits : r.mInputByteCount ≤ 16 * r.mW.mStride

structure EncodedBelow (r0 : PrtyMOtReceiver) (words : Nat → Bytes) (n : Nat) (r : PrtyMOtReceiver) : Prop where
  code : r.mCode = r0.mCode
  inputBytes : r.mInputByteCount = r0.mInputByteCount
  statSecParam : r.mStatSecParam = r0.mStatSecParam
  malicious : r.mMalicious = r0.mMalicious
  gens : r.mGens = r0.mGens
  hasBase : r.mHasBase = r0.mHasBase
  t0 : r.mT0 = r0.mT0
  t1Stride : r.mT1.mStride = r0.mT1.mStride
  wStride : r.mW.mStride = r0.mW.mStride
  t1 : ∀ a, r.mT1.mView a = if a < n * r0.mT0.mStride then corrected r0 words a else r0.mT1.mView a
  word : ∀ i < n, ∀ b < r0.mInputByteCount, r.wVal i b = words i b

theorem EncodedBelow.start (r0 : PrtyMOtReceiver) (words : Nat → Bytes) : EncodedBelow r0 words 0 r0 :=
  ⟨rfl, rfl, rfl, rfl, rfl, rfl, rfl, rfl, rfl, fun a => by rw [if_neg (by omega)],
    fun i none => absurd none (Nat.not_lt_zero i)⟩

theorem EncodedBelow.renumber {r0 r : PrtyMOtReceiver} {words : Nat → Bytes} {n : Nat}
    (below : EncodedBelow r0 words n r) (mCorrectionIdx : Nat) :
    EncodedBelow r0 words n { r with mCorrectionIdx } :=
  { below with }

theorem storedWord (otIdx : Nat) (input : Bytes) (r : PrtyMOtReceiver) {b : Nat} (inside : b < r.mInputByteCount) :
    (r.storeWord otIdx input).wVal otIdx b = input b := by
  have copied := memcpyBytes r.mW.mView (otIdx * r.mW.mStride) input r.mInputByteCount b
  rw [if_pos inside] at copied
  exact copied

theorem memcpyElsewhere {m : Blocks} {stride row count i b : Nat} (src : Bytes) (other : i ≠ row)
    (fits : count ≤ 16 * stride) (inside : b < 16 * stride) :
    bytesOf (fun k => memcpy m (row * stride) src count (i * stride + k)) b = bytesOf (fun k => m (i * stride + k)) b := by
  apply bytesOfCongr
  refine memcpyOutside m (row * stride) src count (a := i * stride + b / 16) ?_
  have block : b / 16 < stride := by omega
  have length : (count + 15) / 16 ≤ stride := by omega
  rcases Nat.lt_or_gt_of_ne other with before | after
  · have rows := Nat.mul_le_mul_right stride (show i + 1 ≤ row from before)
    have edge : (i + 1) * stride = i * stride + stride := Nat.succ_mul _ _
    left
    omega
  · have rows := Nat.mul_le_mul_right stride (show row + 1 ≤ i from after)
    have edge : (row + 1) * stride = row * stride + stride := Nat.succ_mul _ _
    right
    omega

theorem storedWordElsewhere {otIdx : Nat} (input : Bytes) {r : PrtyMOtReceiver} {i b : Nat} (other : i ≠ otIdx)
    (fits : r.mInputByteCount ≤ 16 * r.mW.mStride) (inside : b < 16 * r.mW.mStride) :
    (r.storeWord otIdx input).wVal i b = r.wVal i b := memcpyElsewhere input other fits inside

theorem rowOfOffset {stride row a : Nat} (inside : row * stride ≤ a ∧ a < row * stride + stride) :
    a / stride = row ∧ a % stride = a - row * stride := by
  obtain ⟨low, high⟩ := inside
  have split : a = (a - row * stride) + row * stride := by omega
  have small : a - row * stride < stride := by omega
  have wide : 0 < stride := by omega
  constructor
  · rw [split, Nat.add_mul_div_right _ _ wide, Nat.div_eq_of_lt small, Nat.zero_add]
  · conv_lhs => rw [split]
    rw [Nat.add_mul_mod_self_right, Nat.mod_eq_of_lt small]

theorem encodedStep {r0 r : PrtyMOtReceiver} {stride n : Nat} {words : Nat → Bytes} (shaped : Shaped r0 stride)
    (below : EncodedBelow r0 words n r) : EncodedBelow r0 words (n + 1) (r.otCorrection n (words n)) := by
  have inputBytes : r.mInputByteCount = r.mCode.plaintextU8Size := by
    rw [below.inputBytes, below.code, shaped.inputBytes]
  have fits : r.mInputByteCount ≤ 16 * r.mW.mStride := by
    rw [below.inputBytes, below.wStride]
    exact shaped.wordFits
  have next : (n + 1) * r0.mT0.mStride = n * r0.mT0.mStride + r0.mT0.mStride := Nat.succ_mul _ _
  refine { below with t1 := fun a => ?_, word := fun i bound b inside => ?_ }
  · rw [PrtyMOtReceiver.otCorrectionSpec, below.t0, below.code, below.t1 a]
    have codeword : r0.mCode.codeword ((r.storeWord n (words n)).wVal n) = r0.mCode.codeword (words n) := by
      apply LinearCode.codewordCongr
      intro b inside
      exact storedWord n (words n) r (by rw [inputBytes, below.code]; exact inside)
    rw [codeword]
    by_cases here : n * r0.mT0.mStride ≤ a ∧ a < n * r0.mT0.mStride + r0.mT0.mStride
    · obtain ⟨row, col⟩ := rowOfOffset here
      rw [if_pos here, if_neg (by omega), if_pos (by omega), corrected, row, col, BitVec.xor_comm]
    · rw [if_neg here]
      congr 1
      exact propext (by omega)
  · by_cases last : i = n
    · subst i
      exact storedWord n (words n) r (by rw [below.inputBytes]; exact inside)
    · have kept := storedWordElsewhere (words n) last fits (b := b)
        (by rw [below.inputBytes] at fits; omega)
      exact kept.trans (below.word i (by omega) b inside)

def PrtyMOtReceiver.encodeRows (words : Nat → Bytes) (i curStepSize : Nat) (r : PrtyMOtReceiver) : PrtyMOtReceiver :=
  forLoop curStepSize (fun k r => r.otCorrection (i + k) (words (i + k))) r

theorem encodedRows {r0 r : PrtyMOtReceiver} {stride n : Nat} {words : Nat → Bytes} (shaped : Shaped r0 stride)
    (below : EncodedBelow r0 words n r) (count : Nat) :
    EncodedBelow r0 words (n + count) (r.encodeRows words n count) ∧
      (r.encodeRows words n count).mCorrectionIdx = r.mCorrectionIdx := by
  induction count with
  | zero => exact ⟨below, rfl⟩
  | succ count ih =>
    obtain ⟨kept, idx⟩ := ih
    exact ⟨encodedStep shaped kept, idx⟩

theorem readEncoded {r0 r : PrtyMOtReceiver} {stride n count m : Nat} {words : Nat → Bytes}
    (strideT0 : r0.mT0.mStride = stride) (below : EncodedBelow r0 words m r) (inside : n + count ≤ m) :
    Correction.read ⟨n * stride, stride * count⟩ r.mT1.mView = rowsMessage stride (corrected r0 words) n count := by
  unfold Correction.read rowsMessage
  apply List.map_congr_left
  intro a listed
  have view := below.t1 (n * stride + a)
  have edge : (n + count) * stride = n * stride + stride * count := by rw [Nat.add_mul, Nat.mul_comm count]
  have within : (n + count) * stride ≤ m * stride := Nat.mul_le_mul_right _ inside
  have bound : a < stride * count := List.mem_range.mp listed
  rw [strideT0, if_pos (by omega)] at view
  exact view

theorem sentChunk {r0 r : PrtyMOtReceiver} {stride n : Nat} {words : Nat → Bytes} (shaped : Shaped r0 stride)
    (below : EncodedBelow r0 words n r) (idx : r.mCorrectionIdx = n) (count : Nat) :
    let sent := (r.encodeRows words n count).sendCorrection count
    EncodedBelow r0 words (n + count) sent.2 ∧ sent.2.mCorrectionIdx = n + count ∧
      sent.1 = ⟨n * stride, stride * count⟩ ∧
      sent.1.read sent.2.mT1.mView = rowsMessage stride (corrected r0 words) n count := by
  intro sent
  obtain ⟨encoded, kept⟩ := encodedRows shaped below count
  have strideT1 : (r.encodeRows words n count).mT1.mStride = stride := encoded.t1Stride.trans shaped.t1Stride
  have described : sent.1 = ⟨n * stride, stride * count⟩ := by
    simp only [sent, PrtyMOtReceiver.sendCorrection, kept, idx, strideT1]
  refine ⟨encoded.renumber _, ?_, described, ?_⟩
  · simp only [sent, PrtyMOtReceiver.sendCorrection, kept, idx]
  · rw [described]
    exact readEncoded shaped.t0Stride (encoded.renumber _) (Nat.le_refl _)

structure ReceivedBelow (s0 : PrtyMOtSender) (rows : Blocks) (n : Nat) (s : PrtyMOtSender) : Prop where
  code : s.mCode = s0.mCode
  inputBytes : s.mInputByteCount = s0.mInputByteCount
  statSecParam : s.mStatSecParam = s0.mStatSecParam
  malicious : s.mMalicious = s0.mMalicious
  gens : s.mGens = s0.mGens
  choices : s.mBaseChoiceBits = s0.mBaseChoiceBits
  choiceBlks : s.mChoiceBlks = s0.mChoiceBlks
  tStride : s.mT.mStride = s0.mT.mStride
  valsStride : s.mCorrectionVals.mStride = s0.mCorrectionVals.mStride
  idx : s.mCorrectionIdx = n
  vals : ∀ a < n * s0.mCorrectionVals.mStride, s.mCorrectionVals.mView a = rows a

theorem ReceivedBelow.start {s0 : PrtyMOtSender} (idx : s0.mCorrectionIdx = 0) (rows : Blocks) :
    ReceivedBelow s0 rows 0 s0 :=
  ⟨rfl, rfl, rfl, rfl, rfl, rfl, rfl, rfl, rfl, idx, fun a none => absurd none (by omega)⟩

theorem receivedChunk {s0 s : PrtyMOtSender} {rows : Blocks} {stride n : Nat}
    (stride0 : s0.mCorrectionVals.mStride = stride) (below : ReceivedBelow s0 rows n s) (count : Nat)
    (small : n * stride < 2 ^ 31) :
    ∃ s', s.recvCorrection count (rowsMessage stride rows n count) = .ok s' ∧ s'.mT = s.mT ∧
      ReceivedBelow s0 rows (n + count) s' := by
  have strideS : s.mCorrectionVals.mStride = stride := below.valsStride.trans stride0
  obtain ⟨mView, received, view⟩ := PrtyMOtSender.recvCorrectionSpec (s := s) count
    (rowsMessage stride rows n count)
    (by rw [rowsMessage, List.length_map, List.length_range, strideS, Nat.mul_comm])
    (by rw [below.idx, strideS]; exact small)
  refine ⟨_, received, rfl, { below with idx := congrArg (· + count) below.idx, vals := ?_ }⟩
  intro a inside
  have edge : (n + count) * stride = n * stride + stride * count := by rw [Nat.add_mul, Nat.mul_comm count]
  rw [stride0] at inside
  refine (view a).trans ?_
  rw [strideS, below.idx]
  split
  · rename_i new
    have offset : a - n * stride < stride * count := by omega
    have back : n * stride + (a - n * stride) = a := by omega
    simp [rowsMessage, offset, back]
  · exact below.vals a (by rw [stride0]; omega)

end PaxosPsi
