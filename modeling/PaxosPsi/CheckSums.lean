import PaxosPsi.PrtyMOtReceiver
import PaxosPsi.PrtyMOtSender

/-! The sums of the consistency check. Rows are processed in groups of 128, every challenge
bit is a byte, and a running iterator walks each buffer. Four-block codewords have unrolled
loops of their own. -/
namespace PaxosPsi
open CountedLoop XorAlgebra Memory

def srai_epi16 (a : Block) (count : Nat) : Block :=
  BitVec.ofFnLE fun k : Fin 128 => a.getLsbD (k / 16 * 16 + min (k % 16 + count) 15)

/-- `_mm_set_epi8(1, ..., 1)`. -/
def mask : Block := BitVec.ofFnLE fun k : Fin 128 => k.val % 8 == 0

def expandedBuff (challengeBuff : Blocks) : Blocks := fun a =>
  mask &&& srai_epi16 (challengeBuff (a / 8)) (a % 8)

structure Adding where
  xIter : Nat
  sumIter : Nat
  sum : Blocks

def addTwo (byteView : Bytes) (value : Byte → Nat → Block) (s : Adding) : Adding :=
  let x0 := byteView s.xIter
  let x1 := byteView (s.xIter + 1)
  let sum := xorAt (xorAt (xorAt (xorAt s.sum (s.sumIter + 0) (value x0 0)) (s.sumIter + 1) (value x0 1))
    (s.sumIter + 2) (value x0 2)) (s.sumIter + 3) (value x0 3)
  let sum := xorAt (xorAt (xorAt (xorAt sum (s.sumIter + 4) (value x1 0)) (s.sumIter + 5) (value x1 1))
    (s.sumIter + 6) (value x1 2)) (s.sumIter + 7) (value x1 3)
  ⟨s.xIter + 2, s.sumIter + 8, sum⟩

def addOne (codeSize : Nat) (byteView : Bytes) (value : Byte → Nat → Block) (s : Adding) : Adding :=
  let x := byteView s.xIter
  ⟨s.xIter + 1, s.sumIter + codeSize,
    forLoop codeSize (fun m sum => xorAt sum (s.sumIter + m) (value x m)) s.sum⟩

def addEight (byteView : Bytes) (value : Byte → Block) (s : Adding) : Adding :=
  ⟨s.xIter + 8, s.sumIter + 8,
    forLoop 8 (fun c sum => xorAt sum (s.sumIter + c) (value (byteView (s.xIter + c)))) s.sum⟩

/-- `zeroAndQ` is flat: `zeroAndQ[x][m]` is its entry `8 * x + m`. -/
structure QSums where
  aesIdx : BitVec 64
  k : Nat
  corIter : Nat
  tIter : Nat
  xIter : Nat
  zeroAndQ : Blocks
  qSum : Blocks

structure TSums where
  aesIdx : BitVec 64
  k : Nat
  mT0Iter : Nat
  mWIter : Nat
  xIter : Nat
  tSum : Blocks
  wSum : Blocks

namespace PrtyMOtSender

def sumRowFour (s : PrtyMOtSender) (byteView : Bytes) (q : QSums) : QSums :=
  let q0 := s.mCorrectionVals.mView (q.corIter + 0) &&& s.mChoiceBlks.get 0
  let q1 := s.mCorrectionVals.mView (q.corIter + 1) &&& s.mChoiceBlks.get 1
  let q2 := s.mCorrectionVals.mView (q.corIter + 2) &&& s.mChoiceBlks.get 2
  let q3 := s.mCorrectionVals.mView (q.corIter + 3) &&& s.mChoiceBlks.get 3
  let zeroAndQ := Function.update (Function.update (Function.update (Function.update q.zeroAndQ
    (8 * 1 + 0) (q0 ^^^ s.mT.mView (q.tIter + 0))) (8 * 1 + 1) (q1 ^^^ s.mT.mView (q.tIter + 1)))
    (8 * 1 + 2) (q2 ^^^ s.mT.mView (q.tIter + 2))) (8 * 1 + 3) (q3 ^^^ s.mT.mView (q.tIter + 3))
  let added := forLoop (s.mStatSecParam / 2) (fun _ => addTwo byteView fun x m => zeroAndQ (8 * x.toNat + m))
    ⟨q.xIter, 0, q.qSum⟩
  { q with corIter := q.corIter + 4, tIter := q.tIter + 4, xIter := added.xIter, zeroAndQ, qSum := added.sum }

def sumRowGeneral (codeSize : Nat) (s : PrtyMOtSender) (byteView : Bytes) (q : QSums) : QSums :=
  let zeroAndQ := forLoop codeSize (fun m zeroAndQ => Function.update zeroAndQ (8 * 1 + m)
    ((s.mCorrectionVals.mView (q.corIter + m) &&& s.mChoiceBlks.get m) ^^^ s.mT.mView (q.tIter + m))) q.zeroAndQ
  let added := forLoop s.mStatSecParam
    (fun _ => addOne codeSize byteView fun x m => zeroAndQ (8 * x.toNat + m)) ⟨q.xIter, 0, q.qSum⟩
  { q with corIter := q.corIter + codeSize, tIter := q.tIter + codeSize, xIter := added.xIter, zeroAndQ,
           qSum := added.sum }

def sumGroup (row : PrtyMOtSender → Bytes → QSums → QSums) (aes : BitVec 64 → Block) (s : PrtyMOtSender)
    (q : QSums) : QSums :=
  let challengeBuff := ecbEncCounterMode aes q.aesIdx
  let byteView := bytesOf (expandedBuff challengeBuff)
  let stopIdx := min (s.mCorrectionIdx - s.mStatSecParam - q.k) 128
  forLoop stopIdx (fun _ => row s byteView)
    { q with aesIdx := q.aesIdx + BitVec.ofNat 64 s.mStatSecParam, k := q.k + 128, xIter := 0 }

def sumGroups (row : PrtyMOtSender → Bytes → QSums → QSums) (aes : BitVec 64 → Block) (s : PrtyMOtSender)
    (q : QSums) : QSums :=
  let blkStopIdx := (s.mCorrectionIdx - s.mStatSecParam + 127) / 128
  forLoop blkStopIdx (fun _ => s.sumGroup row aes) q

end PrtyMOtSender

namespace PrtyMOtReceiver

def zeroAndAllOneBlocks : Blocks := fun x => if x = 0 then 0#128 else BitVec.allOnes 128

def sumRowFour (r : PrtyMOtReceiver) (byteView : Bytes) (t : TSums) : TSums :=
  let added := forLoop (r.mStatSecParam / 2) (fun _ => addTwo byteView fun x m =>
    r.mT0.mView (t.mT0Iter + m) &&& zeroAndAllOneBlocks x.toNat) ⟨t.xIter, 0, t.tSum⟩
  { t with mT0Iter := t.mT0Iter + 4, xIter := added.xIter, tSum := added.sum }

def sumRowGeneral (codeSize : Nat) (r : PrtyMOtReceiver) (byteView : Bytes) (t : TSums) : TSums :=
  let added := forLoop r.mStatSecParam (fun _ => addOne codeSize byteView fun x m =>
    r.mT0.mView (t.mT0Iter + m) &&& zeroAndAllOneBlocks x.toNat) ⟨t.xIter, 0, t.tSum⟩
  { t with mT0Iter := t.mT0Iter + codeSize, xIter := added.xIter, tSum := added.sum }

/-- Both branches contain this loop body: one block of `mW` a row, one block of `wSum` a challenge. -/
def sumWord (r : PrtyMOtReceiver) (byteView : Bytes) (t : TSums) : TSums :=
  let added := forLoop (r.mStatSecParam / 8) (fun _ => addEight byteView fun x =>
    r.mW.mView t.mWIter &&& zeroAndAllOneBlocks x.toNat) ⟨t.xIter, 0, t.wSum⟩
  { t with mWIter := t.mWIter + 1, xIter := added.xIter, wSum := added.sum }

def sumGroup (row : PrtyMOtReceiver → Bytes → TSums → TSums) (aes : BitVec 64 → Block) (r : PrtyMOtReceiver)
    (t : TSums) : TSums :=
  let challengeBuff := ecbEncCounterMode aes t.aesIdx
  let byteView := bytesOf (expandedBuff challengeBuff)
  let stopIdx := min (r.mCorrectionIdx - r.mStatSecParam - t.k) 128
  let t := { t with aesIdx := t.aesIdx + BitVec.ofNat 64 r.mStatSecParam, k := t.k + 128, xIter := 0 }
  let t := forLoop stopIdx (fun _ => row r byteView) t
  forLoop stopIdx (fun _ => r.sumWord byteView) { t with xIter := 0 }

def sumGroups (row : PrtyMOtReceiver → Bytes → TSums → TSums) (aes : BitVec 64 → Block) (r : PrtyMOtReceiver)
    (t : TSums) : TSums :=
  let lStop := (r.mCorrectionIdx - r.mStatSecParam + 127) / 128
  forLoop lStop (fun _ => r.sumGroup row aes) t

end PrtyMOtReceiver

section FastPaths

theorem addPairs {statSecParam : Nat} (multiple : statSecParam % 8 = 0) (byteView : Bytes)
    (value : Byte → Nat → Block) (s : Adding) :
    forLoop (statSecParam / 2) (fun _ => addTwo byteView value) s =
      forLoop statSecParam (fun _ => addOne 4 byteView value) s := by
  have whole : statSecParam = statSecParam / 2 * 2 := by omega
  conv_rhs => rw [whole]
  rw [forLoopUnroll]
  rfl

theorem PrtyMOtSender.sumRowAgree {s : PrtyMOtSender} (multiple : s.mStatSecParam % 8 = 0) (byteView : Bytes)
    (q : QSums) : s.sumRowFour byteView q = s.sumRowGeneral 4 byteView q := by
  unfold sumRowFour sumRowGeneral
  dsimp only
  rw [addPairs multiple]
  rfl

theorem PrtyMOtReceiver.sumRowAgree {r : PrtyMOtReceiver} (multiple : r.mStatSecParam % 8 = 0) (byteView : Bytes)
    (t : TSums) : r.sumRowFour byteView t = r.sumRowGeneral 4 byteView t := by
  unfold sumRowFour sumRowGeneral
  dsimp only
  rw [addPairs multiple]

/-- Loops of equal bodies are equal, so the branches agree on every group of rows. -/
theorem fastPathsAgree (s : PrtyMOtSender) (r : PrtyMOtReceiver) (senderMultiple : s.mStatSecParam % 8 = 0)
    (receiverMultiple : r.mStatSecParam % 8 = 0) (aes : BitVec 64 → Block) :
    (∀ q, s.sumGroup PrtyMOtSender.sumRowFour aes q = s.sumGroup (PrtyMOtSender.sumRowGeneral 4) aes q) ∧
    (∀ q, s.sumGroups PrtyMOtSender.sumRowFour aes q = s.sumGroups (PrtyMOtSender.sumRowGeneral 4) aes q) ∧
    (∀ t, r.sumGroup PrtyMOtReceiver.sumRowFour aes t = r.sumGroup (PrtyMOtReceiver.sumRowGeneral 4) aes t) ∧
    (∀ t, r.sumGroups PrtyMOtReceiver.sumRowFour aes t = r.sumGroups (PrtyMOtReceiver.sumRowGeneral 4) aes t) ∧
    (∀ tVal masked mT, PrtyMOtSender.correctFour tVal masked mT = PrtyMOtSender.correctGeneral 4 tVal masked mT) ∧
    (∀ t1Val codeword t0Val mT1, PrtyMOtReceiver.correctFour t1Val codeword t0Val mT1 =
      PrtyMOtReceiver.correctGeneral 4 t1Val codeword t0Val mT1) := by
  have senderRows : s.sumRowFour = s.sumRowGeneral 4 :=
    funext fun byteView => funext fun q => PrtyMOtSender.sumRowAgree senderMultiple byteView q
  have receiverRows : r.sumRowFour = r.sumRowGeneral 4 :=
    funext fun byteView => funext fun t => PrtyMOtReceiver.sumRowAgree receiverMultiple byteView t
  have senderGroup : ∀ q, s.sumGroup PrtyMOtSender.sumRowFour aes q =
      s.sumGroup (PrtyMOtSender.sumRowGeneral 4) aes q := by
    intro q
    unfold PrtyMOtSender.sumGroup
    rw [senderRows]
  have receiverGroup : ∀ t, r.sumGroup PrtyMOtReceiver.sumRowFour aes t =
      r.sumGroup (PrtyMOtReceiver.sumRowGeneral 4) aes t := by
    intro t
    unfold PrtyMOtReceiver.sumGroup
    rw [receiverRows]
  refine ⟨senderGroup, fun q => ?_, receiverGroup, fun t => ?_, fun _ _ _ => rfl,
    PrtyMOtReceiver.correctFourGeneral⟩
  · unfold PrtyMOtSender.sumGroups
    rw [funext senderGroup]
  · unfold PrtyMOtReceiver.sumGroups
    rw [funext receiverGroup]

theorem fastPathsAgreeForty :
    PrtyMOtSender.sumGroups PrtyMOtSender.sumRowFour (fun _ => 1#128)
        { PrtyMOtSender.new with mStatSecParam := 40, mCorrectionIdx := 41 }
        ⟨0, 0, 0, 0, 0, fun _ => 0#128, fun _ => 0#128⟩ =
      PrtyMOtSender.sumGroups (PrtyMOtSender.sumRowGeneral 4) (fun _ => 1#128)
        { PrtyMOtSender.new with mStatSecParam := 40, mCorrectionIdx := 41 }
        ⟨0, 0, 0, 0, 0, fun _ => 0#128, fun _ => 0#128⟩ :=
  (fastPathsAgree { PrtyMOtSender.new with mStatSecParam := 40, mCorrectionIdx := 41 }
    { PrtyMOtReceiver.new with mStatSecParam := 40 } rfl rfl fun _ => 1#128).2.1 _

end FastPaths

section Challenges

def challengeBit (aes : BitVec 64 → Block) (statSecParam i l : Nat) : Bool :=
  let p := i % 128 * statSecParam + l
  (ecbEncCounterMode aes (BitVec.ofNat 64 (i / 128 * statSecParam)) (p / 128)).getLsbD (p % 16 * 8 + p / 16 % 8)

theorem byteViewBit (challengeBuff : Blocks) (p : Nat) : bytesOf (expandedBuff challengeBuff) p =
    if (challengeBuff (p / 128)).getLsbD (p % 16 * 8 + p / 16 % 8) then 1#8 else 0#8 := by
  have block : p / 16 / 8 = p / 128 := by omega
  have inside : p % 16 * 8 < 128 := by omega
  apply BitVec.eq_of_getLsbD_eq
  intro t bound
  have column : 8 * (p % 16) + t < 128 := by omega
  have low : (mask.getLsbD (8 * (p % 16) + t)) = (t == 0) := by
    have digit : (8 * (p % 16) + t) % 8 = t := by omega
    simp [mask, column, digit]
  unfold bytesOf expandedBuff
  rw [block, BitVec.getLsbD_extractLsb', BitVec.getLsbD_and, low]
  by_cases first : t = 0
  · subst t
    have lane : 8 * (p % 16) / 16 * 16 + min (8 * (p % 16) % 16 + p / 16 % 8) 15 = p % 16 * 8 + p / 16 % 8 := by omega
    have shifted : (srai_epi16 (challengeBuff (p / 128)) (p / 16 % 8)).getLsbD (8 * (p % 16)) =
        (challengeBuff (p / 128)).getLsbD (p % 16 * 8 + p / 16 % 8) := by
      unfold srai_epi16
      rw [BitVec.getLsbD_ofFnLE, dif_pos (by omega), lane]
    rw [Nat.add_zero, shifted]
    cases (challengeBuff (p / 128)).getLsbD (p % 16 * 8 + p / 16 % 8) <;> rfl
  · split <;> simp [first]

theorem challengeByte (aes : BitVec 64 → Block) {statSecParam g i : Nat} (small : i < 128) (l : Nat) :
    bytesOf (expandedBuff (ecbEncCounterMode aes (BitVec.ofNat 64 (g * statSecParam)))) (i * statSecParam + l) =
      if challengeBit aes statSecParam (128 * g + i) l then 1#8 else 0#8 := by
  have group : (128 * g + i) / 128 = g := by omega
  have row : (128 * g + i) % 128 = i := by omega
  unfold challengeBit
  rw [group, row]
  exact byteViewBit _ _

theorem addedAll (codeSize : Nat) (byteView : Bytes) (value : Byte → Nat → Block) (x : Nat) (sum : Blocks) (n : Nat) :
    ∃ sum', forLoop n (fun _ => addOne codeSize byteView value) ⟨x, 0, sum⟩ = ⟨x + n, n * codeSize, sum'⟩ ∧
      (∀ l < n, ∀ m < codeSize, sum' (l * codeSize + m) = sum (l * codeSize + m) ^^^ value (byteView (x + l)) m) ∧
      ∀ a, n * codeSize ≤ a → sum' a = sum a := by
  induction n with
  | zero => exact ⟨sum, by simp, fun l none => absurd none (Nat.not_lt_zero l), fun _ _ => rfl⟩
  | succ n ih =>
    obtain ⟨before, ran, entries, rest⟩ := ih
    have edge : (n + 1) * codeSize = n * codeSize + codeSize := Nat.succ_mul _ _
    have span := fun a => xorSpan before (n * codeSize) codeSize (value (byteView (x + n))) (a := a)
    refine ⟨_, by rw [forLoopSucc, ran, addOne, edge, Nat.add_assoc], fun l below m column => ?_, fun a past => ?_⟩
    · refine (span _).trans ?_
      by_cases last : l = n
      · subst l
        rw [if_pos (by omega), rest _ (by omega), Nat.add_sub_cancel_left]
      · have low : (l + 1) * codeSize ≤ n * codeSize := Nat.mul_le_mul_right _ (by omega)
        rw [Nat.succ_mul] at low
        rw [if_neg (by omega)]
        exact entries l (by omega) m column
    · refine (span _).trans ?_
      rw [if_neg (by omega)]
      exact rest a (by omega)

end Challenges

namespace PrtyMOtSender
variable (s : PrtyMOtSender) (aes : BitVec 64 → Block) (codeSize : Nat)

def qTerm (zero : Blocks) (l m i : Nat) : Block :=
  if challengeBit aes s.mStatSecParam i l then
    (s.mCorrectionVals.mView (i * codeSize + m) &&& s.mChoiceBlks.get m) ^^^ s.mT.mView (i * codeSize + m)
  else zero m

structure Summed (q0 : QSums) (n : Nat) (q : QSums) : Prop where
  corIter : q.corIter = n * codeSize
  tIter : q.tIter = n * codeSize
  zero : ∀ m < 8, q.zeroAndQ m = q0.zeroAndQ m
  qSum : ∀ l < s.mStatSecParam, ∀ m < codeSize, q.qSum (l * codeSize + m) =
    q0.qSum (l * codeSize + m) ^^^ xorSum ((List.range n).map (s.qTerm aes codeSize q0.zeroAndQ l m))

structure AtRow (g i : Nat) (q : QSums) : Prop where
  aesIdx : q.aesIdx = BitVec.ofNat 64 ((g + 1) * s.mStatSecParam)
  k : q.k = 128 * (g + 1)
  xIter : q.xIter = i * s.mStatSecParam

variable {s aes codeSize} {q0 q : QSums} {g i : Nat}

theorem summedRow (narrow : codeSize ≤ 8) (small : i < 128) (before : s.Summed aes codeSize q0 (128 * g + i) q)
    (here : s.AtRow g i q) :
    let next := s.sumRowGeneral codeSize
      (bytesOf (expandedBuff (ecbEncCounterMode aes (BitVec.ofNat 64 (g * s.mStatSecParam))))) q
    s.Summed aes codeSize q0 (128 * g + (i + 1)) next ∧ s.AtRow g (i + 1) next := by
  intro next
  let byteView := bytesOf (expandedBuff (ecbEncCounterMode aes (BitVec.ofNat 64 (g * s.mStatSecParam))))
  let zeroAndQ := forLoop codeSize (fun m zeroAndQ => Function.update zeroAndQ (8 * 1 + m)
    ((s.mCorrectionVals.mView (q.corIter + m) &&& s.mChoiceBlks.get m) ^^^ s.mT.mView (q.tIter + m))) q.zeroAndQ
  have entry : ∀ a, zeroAndQ a = _ := fun a => updateSpan q.zeroAndQ (8 * 1) codeSize _
  obtain ⟨sum, ran, entries, -⟩ := addedAll codeSize byteView (fun x m => zeroAndQ (8 * x.toNat + m)) q.xIter q.qSum
    s.mStatSecParam
  have made : next = { q with
      corIter := q.corIter + codeSize, tIter := q.tIter + codeSize, xIter := q.xIter + s.mStatSecParam
      zeroAndQ := zeroAndQ, qSum := sum } := by
    unfold next sumRowGeneral
    dsimp only
    rw [ran]
  have row : (128 * g + (i + 1)) * codeSize = (128 * g + i) * codeSize + codeSize := Nat.succ_mul (128 * g + i) codeSize
  rw [made]
  refine ⟨⟨?_, ?_, fun m below => ?_, fun l inside m column => ?_⟩, ⟨here.aesIdx, here.k, ?_⟩⟩
  · exact (congrArg (· + codeSize) before.corIter).trans row.symm
  · exact (congrArg (· + codeSize) before.tIter).trans row.symm
  · exact ((entry m).trans (if_neg (by omega))).trans (before.zero m below)
  · have bit : byteView (q.xIter + l) = if challengeBit aes s.mStatSecParam (128 * g + i) l then 1#8 else 0#8 := by
      rw [here.xIter]
      exact challengeByte aes small l
    have term : s.qTerm aes codeSize q0.zeroAndQ l m (128 * g + i) = zeroAndQ (8 * (byteView (q.xIter + l)).toNat + m) := by
      unfold qTerm
      rw [bit]
      split
      · rw [entry, if_pos (by simp; omega), before.corIter, before.tIter]
        simp
      · rw [entry, if_neg (by simp; omega)]
        simpa using (before.zero m (by omega)).symm
    rw [← Nat.add_assoc, xorSumRangeSucc, ← BitVec.xor_assoc, ← before.qSum l inside m column, term]
    exact entries l inside m column
  · change q.xIter + s.mStatSecParam = _
    rw [here.xIter, Nat.succ_mul]

theorem summedGroup (narrow : codeSize ≤ 8) (before : s.Summed aes codeSize q0 (128 * g) q)
    (aesIdx : q.aesIdx = BitVec.ofNat 64 (g * s.mStatSecParam)) (k : q.k = 128 * g)
    (below : 128 * g < s.mCorrectionIdx - s.mStatSecParam) :
    let next := s.sumGroup (sumRowGeneral codeSize) aes q
    s.Summed aes codeSize q0 (min (s.mCorrectionIdx - s.mStatSecParam) (128 * (g + 1))) next ∧
      next.aesIdx = BitVec.ofNat 64 ((g + 1) * s.mStatSecParam) ∧ next.k = 128 * (g + 1) := by
  intro next
  let stopIdx := min (s.mCorrectionIdx - s.mStatSecParam - q.k) 128
  have rows : ∀ i, i ≤ stopIdx → s.Summed aes codeSize q0 (128 * g + i) (forLoop i
        (fun _ => s.sumRowGeneral codeSize (bytesOf (expandedBuff (ecbEncCounterMode aes q.aesIdx))))
        { q with aesIdx := q.aesIdx + BitVec.ofNat 64 s.mStatSecParam, k := q.k + 128, xIter := 0 }) ∧
      s.AtRow g i (forLoop i
        (fun _ => s.sumRowGeneral codeSize (bytesOf (expandedBuff (ecbEncCounterMode aes q.aesIdx))))
        { q with aesIdx := q.aesIdx + BitVec.ofNat 64 s.mStatSecParam, k := q.k + 128, xIter := 0 }) := by
    intro i
    induction i with
    | zero =>
      intro _
      refine ⟨⟨before.corIter, before.tIter, before.zero, before.qSum⟩, ?_, ?_, (Nat.zero_mul _).symm⟩
      · rw [forLoopZero, aesIdx, Nat.succ_mul, BitVec.ofNat_add]
      · change q.k + 128 = 128 * (g + 1)
        omega
    | succ i ih =>
      intro reached
      obtain ⟨summed, here⟩ := ih (by omega)
      rw [forLoopSucc, aesIdx]
      rw [aesIdx] at summed here
      exact summedRow narrow (by omega) summed here
  obtain ⟨summed, here⟩ := rows stopIdx (Nat.le_refl _)
  have last : 128 * g + stopIdx = min (s.mCorrectionIdx - s.mStatSecParam) (128 * (g + 1)) := by omega
  rw [last] at summed
  exact ⟨summed, here.aesIdx, here.k⟩

theorem summedAll (narrow : codeSize ≤ 8) (aesIdx : q0.aesIdx = 0) (k : q0.k = 0) (corIter : q0.corIter = 0)
    (tIter : q0.tIter = 0) :
    s.Summed aes codeSize q0 (s.mCorrectionIdx - s.mStatSecParam) (s.sumGroups (sumRowGeneral codeSize) aes q0) := by
  have start : s.Summed aes codeSize q0 0 q0 :=
    ⟨by rw [corIter, Nat.zero_mul], by rw [tIter, Nat.zero_mul], fun _ _ => rfl, fun _ _ _ _ => BitVec.xor_zero.symm⟩
  have groups := forLoopInvariant (n := (s.mCorrectionIdx - s.mStatSecParam + 127) / 128)
    (f := fun _ => s.sumGroup (sumRowGeneral codeSize) aes) (s := q0)
    (fun g q => s.Summed aes codeSize q0 (min (s.mCorrectionIdx - s.mStatSecParam) (128 * g)) q ∧
      q.aesIdx = BitVec.ofNat 64 (g * s.mStatSecParam) ∧ q.k = 128 * g)
    ⟨by rw [Nat.mul_zero, Nat.min_zero]; exact start, by rw [aesIdx, Nat.zero_mul]; rfl, k⟩
    (fun g q inside ⟨summed, aesIdx, k⟩ => by
      have below : 128 * g < s.mCorrectionIdx - s.mStatSecParam := by omega
      rw [Nat.min_eq_right (Nat.le_of_lt below)] at summed
      exact summedGroup narrow summed aesIdx k below)
  have all : min (s.mCorrectionIdx - s.mStatSecParam) (128 * ((s.mCorrectionIdx - s.mStatSecParam + 127) / 128)) =
      s.mCorrectionIdx - s.mStatSecParam := by omega
  rw [all] at groups
  exact groups.1

end PrtyMOtSender

theorem addEights {statSecParam : Nat} (multiple : statSecParam % 8 = 0) (byteView : Bytes) (value : Byte → Block)
    (s : Adding) : forLoop (statSecParam / 8) (fun _ => addEight byteView value) s =
      forLoop statSecParam (fun _ => addOne 1 byteView fun x _ => value x) s := by
  have whole : statSecParam = statSecParam / 8 * 8 := by omega
  conv_rhs => rw [whole]
  rw [forLoopUnroll]
  rfl

namespace PrtyMOtReceiver
variable (r : PrtyMOtReceiver) (aes : BitVec 64 → Block) (codeSize : Nat)

def tTerm (l m i : Nat) : Block :=
  if challengeBit aes r.mStatSecParam i l then r.mT0.mView (i * codeSize + m) else 0#128

def wTerm (l i : Nat) : Block := if challengeBit aes r.mStatSecParam i l then r.mW.mView i else 0#128

structure SummedT (t0 : TSums) (n : Nat) (t : TSums) : Prop where
  mT0Iter : t.mT0Iter = n * codeSize
  tSum : ∀ l < r.mStatSecParam, ∀ m < codeSize, t.tSum (l * codeSize + m) =
    t0.tSum (l * codeSize + m) ^^^ xorSum ((List.range n).map (r.tTerm aes codeSize l m))

structure SummedW (t0 : TSums) (n : Nat) (t : TSums) : Prop where
  mWIter : t.mWIter = n
  wSum : ∀ l < r.mStatSecParam, t.wSum l = t0.wSum l ^^^ xorSum ((List.range n).map (r.wTerm aes l))
  rest : ∀ a, r.mStatSecParam ≤ a → t.wSum a = t0.wSum a

variable {r aes codeSize} {t0 t : TSums} {g i : Nat}

theorem andZeroAndAllOne (bit : Bool) (a : Block) :
    a &&& zeroAndAllOneBlocks (if bit then 1#8 else 0#8).toNat = if bit then a else 0#128 := by
  cases bit
  · exact BitVec.and_zero
  · exact BitVec.and_allOnes

theorem summedRowT (small : i < 128) (before : r.SummedT aes codeSize t0 (128 * g + i) t)
    (xIter : t.xIter = i * r.mStatSecParam) :
    let next := r.sumRowGeneral codeSize
      (bytesOf (expandedBuff (ecbEncCounterMode aes (BitVec.ofNat 64 (g * r.mStatSecParam))))) t
    r.SummedT aes codeSize t0 (128 * g + (i + 1)) next ∧ next.xIter = (i + 1) * r.mStatSecParam ∧
      next.aesIdx = t.aesIdx ∧ next.k = t.k ∧ next.mWIter = t.mWIter ∧ next.wSum = t.wSum := by
  intro next
  let byteView := bytesOf (expandedBuff (ecbEncCounterMode aes (BitVec.ofNat 64 (g * r.mStatSecParam))))
  obtain ⟨sum, ran, entries, -⟩ := addedAll codeSize byteView
    (fun x m => r.mT0.mView (t.mT0Iter + m) &&& zeroAndAllOneBlocks x.toNat) t.xIter t.tSum r.mStatSecParam
  have made : next = { t with
      mT0Iter := t.mT0Iter + codeSize, xIter := t.xIter + r.mStatSecParam, tSum := sum } := by
    unfold next sumRowGeneral
    dsimp only
    rw [ran]
  have row : (128 * g + (i + 1)) * codeSize = (128 * g + i) * codeSize + codeSize := Nat.succ_mul (128 * g + i) codeSize
  rw [made]
  refine ⟨⟨(congrArg (· + codeSize) before.mT0Iter).trans row.symm, fun l inside m column => ?_⟩, ?_, rfl, rfl, rfl, rfl⟩
  · have bit : byteView (t.xIter + l) = if challengeBit aes r.mStatSecParam (128 * g + i) l then 1#8 else 0#8 := by
      rw [xIter]
      exact challengeByte aes small l
    have term : r.tTerm aes codeSize l m (128 * g + i) =
        r.mT0.mView (t.mT0Iter + m) &&& zeroAndAllOneBlocks (byteView (t.xIter + l)).toNat := by
      unfold tTerm
      rw [bit, before.mT0Iter]
      exact (andZeroAndAllOne _ _).symm
    rw [← Nat.add_assoc, xorSumRangeSucc, ← BitVec.xor_assoc, ← before.tSum l inside m column, term]
    exact entries l inside m column
  · change t.xIter + r.mStatSecParam = _
    rw [xIter, Nat.succ_mul]

theorem summedRowW (multiple : r.mStatSecParam % 8 = 0) (small : i < 128)
    (before : r.SummedW aes t0 (128 * g + i) t) (xIter : t.xIter = i * r.mStatSecParam) :
    let next := r.sumWord
      (bytesOf (expandedBuff (ecbEncCounterMode aes (BitVec.ofNat 64 (g * r.mStatSecParam))))) t
    r.SummedW aes t0 (128 * g + (i + 1)) next ∧ next.xIter = (i + 1) * r.mStatSecParam ∧
      next.aesIdx = t.aesIdx ∧ next.k = t.k ∧ next.mT0Iter = t.mT0Iter ∧ next.tSum = t.tSum := by
  intro next
  let byteView := bytesOf (expandedBuff (ecbEncCounterMode aes (BitVec.ofNat 64 (g * r.mStatSecParam))))
  obtain ⟨sum, ran, entries, rest⟩ := addedAll 1 byteView
    (fun x _ => r.mW.mView t.mWIter &&& zeroAndAllOneBlocks x.toNat) t.xIter t.wSum r.mStatSecParam
  have made : next = { t with mWIter := t.mWIter + 1, xIter := t.xIter + r.mStatSecParam, wSum := sum } := by
    unfold next sumWord
    dsimp only
    rw [addEights multiple, ran]
  rw [made]
  refine ⟨⟨congrArg (· + 1) before.mWIter, fun l inside => ?_, fun a past => ?_⟩, ?_, rfl, rfl, rfl, rfl⟩
  · have bit : byteView (t.xIter + l) = if challengeBit aes r.mStatSecParam (128 * g + i) l then 1#8 else 0#8 := by
      rw [xIter]
      exact challengeByte aes small l
    have term : r.wTerm aes l (128 * g + i) =
        r.mW.mView t.mWIter &&& zeroAndAllOneBlocks (byteView (t.xIter + l)).toNat := by
      unfold wTerm
      rw [bit, before.mWIter]
      exact (andZeroAndAllOne _ _).symm
    have entry := entries l inside 0 Nat.one_pos
    rw [Nat.mul_one, Nat.add_zero] at entry
    rw [← Nat.add_assoc, xorSumRangeSucc, ← BitVec.xor_assoc, ← before.wSum l inside, term]
    exact entry
  · exact (rest a (by omega)).trans (before.rest a past)
  · change t.xIter + r.mStatSecParam = _
    rw [xIter, Nat.succ_mul]

theorem summedRowsT (t : TSums) (summed : r.SummedT aes codeSize t0 (128 * g) t) (xIter : t.xIter = 0) {stopIdx : Nat}
    (group : stopIdx ≤ 128) :
    let next := forLoop stopIdx (fun _ => r.sumRowGeneral codeSize
      (bytesOf (expandedBuff (ecbEncCounterMode aes (BitVec.ofNat 64 (g * r.mStatSecParam)))))) t
    r.SummedT aes codeSize t0 (128 * g + stopIdx) next ∧ next.xIter = stopIdx * r.mStatSecParam ∧
      next.aesIdx = t.aesIdx ∧ next.k = t.k ∧ next.mWIter = t.mWIter ∧ next.wSum = t.wSum := by
  induction stopIdx with
  | zero => exact ⟨summed, xIter.trans (Nat.zero_mul _).symm, rfl, rfl, rfl, rfl⟩
  | succ i ih =>
    obtain ⟨before, row, aesIdx, k, mWIter, wSum⟩ := ih (by omega)
    obtain ⟨after, next, aesIdx', k', mWIter', wSum'⟩ := summedRowT (by omega) before row
    exact ⟨after, next, aesIdx'.trans aesIdx, k'.trans k, mWIter'.trans mWIter, wSum'.trans wSum⟩

theorem summedRowsW (multiple : r.mStatSecParam % 8 = 0) (t : TSums) (summed : r.SummedW aes t0 (128 * g) t)
    (xIter : t.xIter = 0) {stopIdx : Nat} (group : stopIdx ≤ 128) :
    let next := forLoop stopIdx (fun _ => r.sumWord
      (bytesOf (expandedBuff (ecbEncCounterMode aes (BitVec.ofNat 64 (g * r.mStatSecParam)))))) t
    r.SummedW aes t0 (128 * g + stopIdx) next ∧ next.xIter = stopIdx * r.mStatSecParam ∧
      next.aesIdx = t.aesIdx ∧ next.k = t.k ∧ next.mT0Iter = t.mT0Iter ∧ next.tSum = t.tSum := by
  induction stopIdx with
  | zero => exact ⟨summed, xIter.trans (Nat.zero_mul _).symm, rfl, rfl, rfl, rfl⟩
  | succ i ih =>
    obtain ⟨before, row, aesIdx, k, mT0Iter, tSum⟩ := ih (by omega)
    obtain ⟨after, next, aesIdx', k', mT0Iter', tSum'⟩ := summedRowW multiple (by omega) before row
    exact ⟨after, next, aesIdx'.trans aesIdx, k'.trans k, mT0Iter'.trans mT0Iter, tSum'.trans tSum⟩

theorem summedGroup (multiple : r.mStatSecParam % 8 = 0) (rowsT : r.SummedT aes codeSize t0 (128 * g) t)
    (rowsW : r.SummedW aes t0 (128 * g) t) (aesIdx : t.aesIdx = BitVec.ofNat 64 (g * r.mStatSecParam))
    (k : t.k = 128 * g) (below : 128 * g < r.mCorrectionIdx - r.mStatSecParam) :
    let next := r.sumGroup (sumRowGeneral codeSize) aes t
    r.SummedT aes codeSize t0 (min (r.mCorrectionIdx - r.mStatSecParam) (128 * (g + 1))) next ∧
      r.SummedW aes t0 (min (r.mCorrectionIdx - r.mStatSecParam) (128 * (g + 1))) next ∧
      next.aesIdx = BitVec.ofNat 64 ((g + 1) * r.mStatSecParam) ∧ next.k = 128 * (g + 1) := by
  intro next
  have group : min (r.mCorrectionIdx - r.mStatSecParam - t.k) 128 ≤ 128 := Nat.min_le_right _ _
  have last : 128 * g + min (r.mCorrectionIdx - r.mStatSecParam - t.k) 128 =
      min (r.mCorrectionIdx - r.mStatSecParam) (128 * (g + 1)) := by omega
  let byteView := bytesOf (expandedBuff (ecbEncCounterMode aes (BitVec.ofNat 64 (g * r.mStatSecParam))))
  let start : TSums :=
    { t with aesIdx := BitVec.ofNat 64 (g * r.mStatSecParam) + BitVec.ofNat 64 r.mStatSecParam, k := t.k + 128,
             xIter := 0 }
  let middle := forLoop (min (r.mCorrectionIdx - r.mStatSecParam - t.k) 128)
    (fun _ => r.sumRowGeneral codeSize byteView) start
  have rowsStart : r.SummedT aes codeSize t0 (128 * g) start := ⟨rowsT.mT0Iter, rowsT.tSum⟩
  obtain ⟨afterT, -, aesIdxT, kT, mWIter, wSum⟩ := summedRowsT start rowsStart rfl group
  have words : r.SummedW aes t0 (128 * g) { middle with xIter := 0 } :=
    ⟨mWIter.trans rowsW.mWIter, fun l inside => (congrFun wSum l).trans (rowsW.wSum l inside),
      fun a past => (congrFun wSum a).trans (rowsW.rest a past)⟩
  obtain ⟨afterW, -, aesIdxW, kW, mT0Iter, tSum⟩ := summedRowsW multiple { middle with xIter := 0 } words rfl group
  rw [last] at afterT afterW
  have made : next = forLoop (min (r.mCorrectionIdx - r.mStatSecParam - t.k) 128) (fun _ => r.sumWord byteView)
      { middle with xIter := 0 } := by
    unfold next sumGroup middle start byteView
    rw [aesIdx]
  rw [made]
  refine ⟨⟨mT0Iter.trans afterT.mT0Iter, fun l inside m column => ?_⟩, afterW, ?_, ?_⟩
  · exact (congrFun tSum _).trans (afterT.tSum l inside m column)
  · refine (aesIdxW.trans aesIdxT).trans ?_
    rw [Nat.succ_mul, BitVec.ofNat_add]
  · refine (kW.trans kT).trans ?_
    change t.k + 128 = _
    omega

theorem summedAll (multiple : r.mStatSecParam % 8 = 0) (aesIdx : t0.aesIdx = 0) (k : t0.k = 0)
    (mT0Iter : t0.mT0Iter = 0) (mWIter : t0.mWIter = 0) :
    let t := r.sumGroups (sumRowGeneral codeSize) aes t0
    r.SummedT aes codeSize t0 (r.mCorrectionIdx - r.mStatSecParam) t ∧
      r.SummedW aes t0 (r.mCorrectionIdx - r.mStatSecParam) t := by
  intro t
  have startT : r.SummedT aes codeSize t0 0 t0 :=
    ⟨by rw [mT0Iter, Nat.zero_mul], fun _ _ _ _ => BitVec.xor_zero.symm⟩
  have startW : r.SummedW aes t0 0 t0 := ⟨mWIter, fun _ _ => BitVec.xor_zero.symm, fun _ _ => rfl⟩
  have groups := forLoopInvariant (n := (r.mCorrectionIdx - r.mStatSecParam + 127) / 128)
    (f := fun _ => r.sumGroup (sumRowGeneral codeSize) aes) (s := t0)
    (fun g t => r.SummedT aes codeSize t0 (min (r.mCorrectionIdx - r.mStatSecParam) (128 * g)) t ∧
      r.SummedW aes t0 (min (r.mCorrectionIdx - r.mStatSecParam) (128 * g)) t ∧
      t.aesIdx = BitVec.ofNat 64 (g * r.mStatSecParam) ∧ t.k = 128 * g)
    (by
      rw [Nat.mul_zero, Nat.min_zero]
      exact ⟨startT, startW, by rw [aesIdx, Nat.zero_mul]; rfl, k⟩)
    (fun g t inside ⟨rowsT, rowsW, aesIdx, k⟩ => by
      have below : 128 * g < r.mCorrectionIdx - r.mStatSecParam := by omega
      rw [Nat.min_eq_right (Nat.le_of_lt below)] at rowsT rowsW
      exact summedGroup multiple rowsT rowsW aesIdx k below)
  have all : min (r.mCorrectionIdx - r.mStatSecParam) (128 * ((r.mCorrectionIdx - r.mStatSecParam + 127) / 128)) =
      r.mCorrectionIdx - r.mStatSecParam := by omega
  rw [all] at groups
  exact ⟨groups.1, groups.2.1⟩

end PrtyMOtReceiver
end PaxosPsi
