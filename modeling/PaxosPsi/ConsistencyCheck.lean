import PaxosPsi.CheckSums
import PaxosPsi.EncodingRuns

/-! `check` of both parties: the receiver appends rows of random words that mask its own,
both sum the rows a challenge picks, and the sender compares the sums. The sender's loop
masks with `zeroAndQ`, of which `memset` clears four blocks. -/
namespace PaxosPsi
open CountedLoop XorAlgebra Memory

namespace PrtyMOtSender

def initialQSum (s : PrtyMOtSender) : Blocks := fun a =>
  let i := a / s.mT.mStride
  let j := a % s.mT.mStride
  let row := s.mCorrectionIdx - s.mStatSecParam + i
  if a < s.mStatSecParam * s.mT.mStride then
    (s.mCorrectionVals.mView (row * s.mCorrectionVals.mStride + j) &&& s.mChoiceBlks.get j) ^^^
      s.mT.mView (row * s.mT.mStride + j)
  else 0#128

/-- `memset(zeroAndQ.data(), 0, zeroAndQ.size() * 2 * sizeof(block))` over the stack. -/
def zeroAndQ (stack : Blocks) : Blocks := fun a => if a < 2 * 2 then 0#128 else stack a

def sumRow (codeSize : Nat) : PrtyMOtSender → Bytes → QSums → QSums :=
  if codeSize = 4 then sumRowFour else sumRowGeneral codeSize

def challengeSums (aes : Aes) (stack : Blocks) (seed : Block) (message : List Block) (s : PrtyMOtSender) :
    Except Error (PrtyMOtSender × Blocks) :=
  if s.mStatSecParam % 8 ≠ 0 then .error .multipleOf8
  else do
    let s ← s.recvCorrection s.mStatSecParam message
    if s.mT.mStride < 2 then .error .makeThisBigger
    else
      let q := s.sumGroups (sumRow s.mT.mStride) (aes seed) ⟨0, 0, 0, 0, 0, zeroAndQ stack, s.initialQSum⟩
      pure (s, q.qSum)

structure Sums where
  qSum : Blocks
  tSum : Blocks
  wSum : Blocks

/-- The loop over the received sums compares them and goes on either way. -/
def check (aes : Aes) (stack : Blocks) (seed : Block) (message tMessage wMessage : List Block) (s : PrtyMOtSender) :
    Except Error (PrtyMOtSender × Option Sums) :=
  if s.mMalicious then do
    let (s, qSum) ← s.challengeSums aes stack seed message
    let tSum ← recvBlocks (fun _ => 0#128) 0 (s.mStatSecParam * s.mT.mStride) tMessage
    let wSum ← recvBlocks (fun _ => 0#128) 0 (s.mStatSecParam * s.mCode.plaintextBlkSize) wMessage
    pure (s, some ⟨qSum, tSum, wSum⟩)
  else pure (s, none)

def Passes (s : PrtyMOtSender) (sums : Sums) (l j : Nat) : Prop :=
  let word := bytesOf fun k => sums.wSum (l * s.mCode.plaintextBlkSize + k)
  let cw := s.mCode.codeword word
  sums.tSum (l * s.mCode.codewordBlkSize + j) ^^^ sums.qSum (l * s.mCode.codewordBlkSize + j) =
    cw j &&& s.mChoiceBlks.get j

instance (s : PrtyMOtSender) (sums : Sums) (l j : Nat) : Decidable (s.Passes sums l j) := by
  unfold Passes; infer_instance

end PrtyMOtSender

namespace PrtyMOtReceiver

/-- A dummy row: the word is drawn into `wSum`, its row corrected and the row of `T0` copied. -/
def dummyRow (i : Nat) (s : PRNG × PrtyMOtReceiver × Blocks × Blocks) :
    Except Error (PRNG × PrtyMOtReceiver × Blocks × Blocks) := do
  let (prng, r, tSum, wSum) := s
  let (bytes, prng) ← prng.get r.mInputByteCount
  let words := i * r.mCode.plaintextBlkSize
  let wSum := memcpy wSum words (fun b => bytes.getD b 0) r.mInputByteCount
  let r := r.otCorrection (r.mCorrectionIdx + i) (bytesOf fun k => wSum (words + k))
  let tSum := forLoop r.mT0.mStride (fun j tSum => Function.update tSum (i * r.mT0.mStride + j)
    (r.mT0.mView ((r.mCorrectionIdx + i) * r.mT0.mStride + j))) tSum
  pure (prng, r, tSum, wSum)

def sumRow (codeSize : Nat) : PrtyMOtReceiver → Bytes → TSums → TSums :=
  if codeSize = 4 then sumRowFour else sumRowGeneral codeSize

def dummyRows (aes : Aes) (wordSeed : Block) (r : PrtyMOtReceiver) :
    Except Error (PRNG × PrtyMOtReceiver × Blocks × Blocks) :=
  forLoopM r.mStatSecParam dummyRow (PRNG.new.setSeed aes wordSeed, r, fun _ => 0#128, fun _ => 0#128)

/-- The messages of `check`, the first read as `T1` stands when `seed` has arrived. -/
def check (aes : Aes) (wordSeed seed : Block) (r : PrtyMOtReceiver) :
    Except Error (PrtyMOtReceiver × Option (List Block × List Block × List Block)) :=
  if r.mMalicious then do
    let (_, r, tSum, wSum) ← r.dummyRows aes wordSeed
    let (correction, r) := r.sendCorrection r.mStatSecParam
    let t := r.sumGroups (sumRow r.mT0.mStride) (aes seed) ⟨0, 0, 0, 0, 0, tSum, wSum⟩
    pure (r, some (correction.read r.mT1.mView, (List.range (r.mStatSecParam * r.mT0.mStride)).map t.tSum,
      (List.range (r.mStatSecParam * r.mW.mStride)).map t.wSum))
  else pure (r, none)

end PrtyMOtReceiver

theorem PrtyMOtReceiver.sumGroupsGeneral {r : PrtyMOtReceiver} (multiple : r.mStatSecParam % 8 = 0) (codeSize : Nat)
    (aes : BitVec 64 → Block) (t : TSums) :
    r.sumGroups (sumRow codeSize) aes t = r.sumGroups (sumRowGeneral codeSize) aes t := by
  by_cases four : codeSize = 4
  · subst four
    have rows : r.sumRowFour = r.sumRowGeneral 4 :=
      funext fun byteView => funext fun t => sumRowAgree multiple byteView t
    unfold sumGroups sumGroup sumRow
    rw [if_pos rfl, rows]
  · unfold sumRow
    rw [if_neg four]

namespace PrtyMOtSender
section Sums
variable {s s' : PrtyMOtSender} {message : List Block}

theorem sumGroupsGeneral (multiple : s.mStatSecParam % 8 = 0) (codeSize : Nat) (aes : BitVec 64 → Block) (q : QSums) :
    s.sumGroups (sumRow codeSize) aes q = s.sumGroups (sumRowGeneral codeSize) aes q := by
  by_cases four : codeSize = 4
  · subst four
    have rows : s.sumRowFour = s.sumRowGeneral 4 :=
      funext fun byteView => funext fun q => sumRowAgree multiple byteView q
    unfold sumGroups sumGroup sumRow
    rw [if_pos rfl, rows]
  · unfold sumRow
    rw [if_neg four]

theorem recvCorrectionKeeps {count : Nat} (received : s.recvCorrection count message = .ok s') :
    s'.mT = s.mT ∧ s'.mStatSecParam = s.mStatSecParam ∧ s'.mCode = s.mCode ∧ s'.mChoiceBlks = s.mChoiceBlks ∧
      s'.mCorrectionVals.mStride = s.mCorrectionVals.mStride ∧ s'.mCorrectionIdx = s.mCorrectionIdx + count := by
  unfold recvCorrection recvBlocks at received
  split at received
  · cases received
    exact ⟨rfl, rfl, rfl, rfl, rfl, rfl⟩
  · cases received

theorem recvCorrectionOk {count : Nat} (sized : message.length = count * s.mCorrectionVals.mStride) :
    ∃ s', s.recvCorrection count message = .ok s' := by
  unfold recvCorrection recvBlocks
  rw [if_pos sized]
  exact ⟨_, rfl⟩

theorem recvCorrectionBefore {count : Nat} (received : s.recvCorrection count message = .ok s') {a : Nat}
    (behind : i32 (s.mCorrectionIdx * s.mCorrectionVals.mStride) + (count * s.mCorrectionVals.mStride : Nat) ≤ a) :
    s'.mCorrectionVals.mView a = s.mCorrectionVals.mView a := by
  unfold recvCorrection recvBlocks at received
  split at received
  · cases received
    exact if_neg (by omega)
  · cases received

theorem challengeSumsSpec (aes : Aes) (stack : Blocks) (seed : Block) (multiple : s.mStatSecParam % 8 = 0)
    (wide : 2 ≤ s.mT.mStride) (narrow : s.mT.mStride ≤ 8)
    (received : s.recvCorrection s.mStatSecParam message = .ok s') (kept : s'.mStatSecParam = s.mStatSecParam)
    (same : s'.mT = s.mT) :
    ∃ qSum, s.challengeSums aes stack seed message = .ok (s', qSum) ∧
      ∀ l < s.mStatSecParam, ∀ m < s.mT.mStride, qSum (l * s.mT.mStride + m) =
        s'.initialQSum (l * s.mT.mStride + m) ^^^ xorSum ((List.range (s'.mCorrectionIdx - s.mStatSecParam)).map
          (s'.qTerm (aes seed) s.mT.mStride (zeroAndQ stack) l m)) := by
  refine ⟨(s'.sumGroups (sumRow s.mT.mStride) (aes seed) ⟨0, 0, 0, 0, 0, zeroAndQ stack, s'.initialQSum⟩).qSum, ?_,
    fun l inside m column => ?_⟩
  · unfold challengeSums
    rw [if_neg (not_not.mpr multiple), received]
    simp only [bind, Except.bind]
    rw [if_neg (by rw [same]; omega), same]
    rfl
  · rw [sumGroupsGeneral (by rw [kept]; exact multiple)]
    have summed : s'.Summed (aes seed) s.mT.mStride ⟨0, 0, 0, 0, 0, zeroAndQ stack, s'.initialQSum⟩ _ _ :=
      summedAll narrow rfl rfl rfl rfl
    rw [← kept] at inside ⊢
    exact summed.qSum l inside m column

theorem recvWhole (n : Nat) (f : Blocks) : recvBlocks (fun _ => 0#128) 0 n ((List.range n).map f) =
    .ok fun a => if a < n then f a else 0#128 := by
  unfold recvBlocks
  rw [if_pos (by simp)]
  congr 1
  funext a
  by_cases inside : a < n
  · rw [if_pos inside, if_pos (by omega)]
    simp [inside]
  · rw [if_neg inside, if_neg (by omega)]

theorem checkSpec (aes : Aes) (stack : Blocks) (seed : Block) (malicious : s.mMalicious = true)
    (multiple : s.mStatSecParam % 8 = 0) (wide : 2 ≤ s.mT.mStride) (narrow : s.mT.mStride ≤ 8)
    (received : s.recvCorrection s.mStatSecParam message = .ok s') (kept : s'.mStatSecParam = s.mStatSecParam)
    (same : s'.mT = s.mT) (tSum wSum : Blocks) :
    ∃ qSum, s.check aes stack seed message ((List.range (s.mStatSecParam * s.mT.mStride)).map tSum)
        ((List.range (s.mStatSecParam * s'.mCode.plaintextBlkSize)).map wSum) =
          .ok (s', some ⟨qSum, fun a => if a < s.mStatSecParam * s.mT.mStride then tSum a else 0#128,
            fun a => if a < s.mStatSecParam * s'.mCode.plaintextBlkSize then wSum a else 0#128⟩) ∧
      ∀ l < s.mStatSecParam, ∀ m < s.mT.mStride, qSum (l * s.mT.mStride + m) =
        s'.initialQSum (l * s.mT.mStride + m) ^^^ xorSum ((List.range (s'.mCorrectionIdx - s.mStatSecParam)).map
          (s'.qTerm (aes seed) s.mT.mStride (zeroAndQ stack) l m)) := by
  obtain ⟨qSum, ran, sums⟩ := challengeSumsSpec aes stack seed multiple wide narrow received kept same
  refine ⟨qSum, ?_, sums⟩
  unfold check
  rw [if_pos malicious, ran]
  simp only [bind, Except.bind, kept, same]
  rw [recvWhole]
  dsimp only
  rw [recvWhole]
  rfl

end Sums

def correctList (rows : List Nat) (s : PrtyMOtSender) : PrtyMOtSender :=
  rows.foldl (fun s otIdx => s.otCorrection otIdx) s

structure Corrects (rows : List Nat) (value : Nat → Nat → Block) (s s' : PrtyMOtSender) : Prop where
  stride : s'.mT.mStride = s.mT.mStride
  view : ∀ i, ∀ m < s.mT.mStride, s'.mT.mView (i * s.mT.mStride + m) =
    s.mT.mView (i * s.mT.mStride + m) ^^^ if i ∈ rows then value i m else 0#128
  vals : s'.mCorrectionVals = s.mCorrectionVals
  choices : s'.mChoiceBlks = s.mChoiceBlks
  param : s'.mStatSecParam = s.mStatSecParam
  idx : s'.mCorrectionIdx = s.mCorrectionIdx

theorem correctListSpec {rows : List Nat} (distinct : rows.Nodup) (s : PrtyMOtSender) :
    Corrects rows s.maskedCorrection s (s.correctList rows) := by
  induction rows generalizing s with
  | nil => exact ⟨rfl, fun i m _ => by simp [correctList], rfl, rfl, rfl, rfl⟩
  | cons otIdx rest ih =>
    obtain ⟨absent, later⟩ := List.nodup_cons.mp distinct
    have corrects := ih later (s.otCorrection otIdx)
    refine ⟨corrects.stride, fun i m column => ?_, corrects.vals, corrects.choices, corrects.param, corrects.idx⟩
    have first := otCorrectionSpec otIdx s (i * s.mT.mStride + m)
    rw [if_congr (inRow column) rfl rfl] at first
    have masked : (s.otCorrection otIdx).maskedCorrection i m = s.maskedCorrection i m := rfl
    have next := corrects.view i m column
    rw [otCorrectionStride, first, masked] at next
    refine next.trans ?_
    by_cases this : i = otIdx
    · subst this
      simp [absent]
    · simp [this]

theorem initialQSumAt (s : PrtyMOtSender) {l m : Nat} (inside : l < s.mStatSecParam) (column : m < s.mT.mStride) :
    s.initialQSum (l * s.mT.mStride + m) =
      (s.mCorrectionVals.mView ((s.mCorrectionIdx - s.mStatSecParam + l) * s.mCorrectionVals.mStride + m) &&&
        s.mChoiceBlks.get m) ^^^ s.mT.mView ((s.mCorrectionIdx - s.mStatSecParam + l) * s.mT.mStride + m) := by
  obtain ⟨row, col⟩ := rowOfOffset (show l * s.mT.mStride ≤ l * s.mT.mStride + m ∧
    l * s.mT.mStride + m < l * s.mT.mStride + s.mT.mStride by omega)
  have below : l * s.mT.mStride + m < s.mStatSecParam * s.mT.mStride := by
    have rows := Nat.mul_le_mul_right s.mT.mStride (show l + 1 ≤ s.mStatSecParam from inside)
    rw [Nat.succ_mul] at rows
    omega
  unfold initialQSum
  dsimp only
  rw [if_pos below, row, col, Nat.add_sub_cancel_left]

section Corrected
variable {rows : List Nat} {value : Nat → Nat → Block} {s s' : PrtyMOtSender} {l m : Nat}

theorem Corrects.first (corrects : Corrects rows value s s') (inside : l < s.mStatSecParam) (column : m < s.mT.mStride)
    (dummy : s.mCorrectionIdx - s.mStatSecParam + l ∉ rows) :
    s'.initialQSum (l * s.mT.mStride + m) = s.initialQSum (l * s.mT.mStride + m) := by
  have mine := s'.initialQSumAt (l := l) (m := m) (by rw [corrects.param]; exact inside)
    (by rw [corrects.stride]; exact column)
  rw [corrects.stride, corrects.vals, corrects.choices, corrects.param, corrects.idx, corrects.view _ m column,
    if_neg dummy, BitVec.xor_zero] at mine
  rw [mine, s.initialQSumAt inside column]

theorem Corrects.term (corrects : Corrects rows value s s') (aes : BitVec 64 → Block) (zero : Blocks)
    (column : m < s.mT.mStride) (i : Nat) :
    s'.qTerm aes s.mT.mStride zero l m i = s.qTerm aes s.mT.mStride zero l m i ^^^
      if challengeBit aes s.mStatSecParam i l && decide (i ∈ rows) then value i m else 0#128 := by
  unfold qTerm
  rw [corrects.param, corrects.vals, corrects.choices, corrects.view i m column]
  by_cases picked : challengeBit aes s.mStatSecParam i l
  · rw [if_pos picked, if_pos picked, picked, Bool.true_and, BitVec.xor_assoc]
    by_cases listed : i ∈ rows <;> simp [listed]
  · rw [if_neg picked, if_neg picked]
    simp [picked]

theorem Corrects.received (corrects : Corrects rows value s s') {message : List Block}
    (sized : message.length = s.mStatSecParam * s.mCorrectionVals.mStride) :
    ∃ s1 s1', s.recvCorrection s.mStatSecParam message = .ok s1 ∧
      s'.recvCorrection s'.mStatSecParam message = .ok s1' ∧ Corrects rows value s1 s1' ∧ s1.mT = s.mT ∧
      s1.mStatSecParam = s.mStatSecParam ∧ s1.mCorrectionIdx = s.mCorrectionIdx + s.mStatSecParam ∧
      s1'.mT = s'.mT := by
  have stored : ∃ mView, recvBlocks s.mCorrectionVals.mView (i32 (s.mCorrectionIdx * s.mCorrectionVals.mStride))
      (s.mStatSecParam * s.mCorrectionVals.mStride) message = .ok mView := ⟨_, if_pos sized⟩
  obtain ⟨mView, stored⟩ := stored
  refine ⟨{ s with mCorrectionVals := { s.mCorrectionVals with mView }
                   mCorrectionIdx := s.mCorrectionIdx + s.mStatSecParam },
    { s' with mCorrectionVals := { s'.mCorrectionVals with mView }
              mCorrectionIdx := s'.mCorrectionIdx + s'.mStatSecParam }, ?_, ?_,
    ⟨corrects.stride, corrects.view, ?_, corrects.choices, corrects.param, ?_⟩, rfl, rfl, rfl, rfl⟩
  · unfold recvCorrection
    rw [stored]
    rfl
  · unfold recvCorrection
    rw [corrects.vals, corrects.idx, corrects.param, stored]
    rfl
  · rw [corrects.vals]
  · rw [corrects.idx, corrects.param]

theorem pickedRows (distinct : rows.Nodup) {n : Nat} (received : ∀ i ∈ rows, i < n) (bit : Nat → Bool) :
    ((List.range n).filter fun i => bit i && decide (i ∈ rows)).Perm (rows.filter bit) := by
  refine (List.perm_ext_iff_of_nodup (List.nodup_range.filter _) (distinct.filter _)).mpr fun i => ?_
  simp only [List.mem_filter, List.mem_range, Bool.and_eq_true, decide_eq_true_eq]
  exact ⟨fun ⟨_, picked, listed⟩ => ⟨listed, picked⟩, fun ⟨listed, picked⟩ => ⟨received i listed, picked, listed⟩⟩

end Corrected

section Check
variable {rows : List Nat} (s : PrtyMOtSender) {message : List Block} (aes : Aes) (stack : Blocks) (seed : Block)

theorem sumsAfterCorrections (distinct : rows.Nodup) (received : ∀ i ∈ rows, i < s.mCorrectionIdx)
    (multiple : s.mStatSecParam % 8 = 0) (wide : 2 ≤ s.mT.mStride) (narrow : s.mT.mStride ≤ 8)
    (sized : message.length = s.mStatSecParam * s.mCorrectionVals.mStride) :
    ∃ s1 qSum s2 qSum', s.challengeSums aes stack seed message = .ok (s1, qSum) ∧
      (s.correctList rows).challengeSums aes stack seed message = .ok (s2, qSum') ∧
      ∀ l < s.mStatSecParam, ∀ m < s.mT.mStride, qSum' (l * s.mT.mStride + m) = qSum (l * s.mT.mStride + m) ^^^
        xorSum ((rows.filter fun i => challengeBit (aes seed) s.mStatSecParam i l).map fun i => s.maskedCorrection i m) := by
  obtain ⟨s1, s1', stored, stored', corrects, rows1, param, idx, rows1'⟩ := (correctListSpec distinct s).received sized
  obtain ⟨qSum, ran, sums⟩ := challengeSumsSpec aes stack seed multiple wide narrow stored param rows1
  have start := correctListSpec distinct s
  obtain ⟨qSum', ran', sums'⟩ := challengeSumsSpec aes stack seed (by rw [start.param]; exact multiple)
    (by rw [start.stride]; exact wide) (by rw [start.stride]; exact narrow) stored'
    (by rw [corrects.param, param, start.param]) rows1'
  refine ⟨s1, qSum, s1', qSum', ran, ran', fun l inside m column => ?_⟩
  have after := sums' l (by rw [start.param]; exact inside) m (by rw [start.stride]; exact column)
  have dummy : s1.mCorrectionIdx - s1.mStatSecParam + l ∉ rows := by
    intro listed
    have below := received _ listed
    omega
  rw [← rows1] at column sums ⊢
  rw [← param] at inside ⊢
  rw [start.stride, start.param, ← rows1, ← param, corrects.idx, corrects.first inside column dummy,
    xorSumCongr fun i _ => corrects.term (aes seed) (zeroAndQ stack) column i, xorSumXor, xorSumFilter] at after
  rw [after, sums l (by rw [← param]; exact inside) m column, BitVec.xor_assoc, ← param, idx, param, Nat.add_sub_cancel]
  congr 2
  exact xorSumPerm ((pickedRows distinct received _).map _)

/-- `check` sums the same before and after corrections exactly when the masked corrections
that each challenge picks among the corrected rows cancel out. -/
theorem sumsUnchangedIff (distinct : rows.Nodup) (received : ∀ i ∈ rows, i < s.mCorrectionIdx)
    (multiple : s.mStatSecParam % 8 = 0) (wide : 2 ≤ s.mT.mStride) (narrow : s.mT.mStride ≤ 8)
    (sized : message.length = s.mStatSecParam * s.mCorrectionVals.mStride) :
    ∃ s1 qSum s2 qSum', s.challengeSums aes stack seed message = .ok (s1, qSum) ∧
      (s.correctList rows).challengeSums aes stack seed message = .ok (s2, qSum') ∧
      ((∀ l < s.mStatSecParam, ∀ m < s.mT.mStride, qSum' (l * s.mT.mStride + m) = qSum (l * s.mT.mStride + m)) ↔
        ∀ l < s.mStatSecParam, ∀ m < s.mT.mStride,
          xorSum ((rows.filter fun i => challengeBit (aes seed) s.mStatSecParam i l).map fun i =>
            s.maskedCorrection i m) = 0#128) := by
  obtain ⟨s1, qSum, s2, qSum', ran, ran', difference⟩ :=
    s.sumsAfterCorrections aes stack seed distinct received multiple wide narrow sized
  refine ⟨s1, qSum, s2, qSum', ran, ran', ?_, ?_⟩
  · intro same l inside m column
    exact (xorEqSelf _ _).mp ((difference l inside m column).symm.trans (same l inside m column))
  · intro cancel l inside m column
    rw [difference l inside m column, cancel l inside m column, BitVec.xor_zero]

end Check

def oneRowSender : PrtyMOtSender :=
  { new with mStatSecParam := 8, mCorrectionIdx := 1, mT := Matrix.new.resize 128 4
             mCorrectionVals := Matrix.new.resize 128 4 }

theorem zeroRowUnchangedIff : ∃ s1 qSum s2 qSum',
    oneRowSender.challengeSums (fun _ _ => 5#128) (fun _ => 0#128) 0#128 (List.replicate 32 0#128) = .ok (s1, qSum) ∧
    (oneRowSender.correctList [0]).challengeSums (fun _ _ => 5#128) (fun _ => 0#128) 0#128 (List.replicate 32 0#128) =
      .ok (s2, qSum') ∧
    ((∀ l < 8, ∀ m < 4, qSum' (l * 4 + m) = qSum (l * 4 + m)) ↔ ∀ l < 8, ∀ m < 4,
      xorSum (([0].filter fun i => challengeBit (fun _ => 5#128) 8 i l).map fun i => oneRowSender.maskedCorrection i m) =
        0#128) :=
  oneRowSender.sumsUnchangedIff (fun _ _ => 5#128) (fun _ => 0#128) 0#128 (List.nodup_singleton 0) (by decide) rfl
    (by decide) (by decide) rfl

def chosenSetup : Setup 65 :=
  { Setup.keyless Supported.semiHonest with
    aes := fun _ _ => BitVec.allOnes 128
    malicious := true
    choiceData := fun _ => 255#8 }

/-- One row of ones, folded in before the check as `runOOS` does. -/
theorem sumsChangedByCorrection : ∃ s0 s1 s2 qSum s3 qSum', chosenSetup.sender 1 new = .ok s0 ∧
    s0.recvCorrection 1 (List.replicate 4 (BitVec.allOnes 128)) = .ok s1 ∧
    s1.challengeSums chosenSetup.aes (fun _ => 0#128) 0#128 (List.replicate 160 0#128) = .ok (s2, qSum) ∧
    (s1.otCorrection 0).challengeSums chosenSetup.aes (fun _ => 0#128) 0#128 (List.replicate 160 0#128) =
      .ok (s3, qSum') ∧ qSum 0 ≠ qSum' 0 := by
  obtain ⟨s1, stored, stride, valsStride, param, idx, choices, row⟩ : ∃ s1,
      (chosenSetup.startedSender 1 new).recvCorrection 1 (List.replicate 4 (BitVec.allOnes 128)) = .ok s1 ∧
      s1.mT.mStride = 4 ∧ s1.mCorrectionVals.mStride = 4 ∧ s1.mStatSecParam = 40 ∧ s1.mCorrectionIdx = 1 ∧
      s1.mChoiceBlks.get 0 = BitVec.allOnes 128 ∧ s1.mCorrectionVals.mView 0 = BitVec.allOnes 128 := by
    have started := chosenSetup.started 1 PrtyMOtReceiver.new new
    have valsStride : (chosenSetup.startedSender 1 new).mCorrectionVals.mStride = 4 := started.valsStride
    have idx := started.senderIdx
    have sized : (List.replicate 4 (BitVec.allOnes 128)).length =
        1 * (chosenSetup.startedSender 1 new).mCorrectionVals.mStride := by
      rw [valsStride]
      rfl
    obtain ⟨mView, stored, view⟩ := recvCorrectionSpec 1 _ sized (by rw [idx, Nat.zero_mul]; decide)
    refine ⟨_, stored, started.tStride, valsStride, started.senderParam, ?_, ?_, ?_⟩
    · exact congrArg (· + 1) idx
    · refine (congrArg (Vec.get · 0) started.choiceBlks).trans ?_
      decide +kernel
    · refine (view 0).trans ?_
      rw [idx, valsStride]
      rfl
  have listed : ∀ i ∈ [0], i < s1.mCorrectionIdx := by
    rw [idx]
    decide
  have sized : (List.replicate 160 0#128).length = s1.mStatSecParam * s1.mCorrectionVals.mStride := by
    rw [param, valsStride]
    rfl
  obtain ⟨s2, qSum, s3, qSum', ran, ran', difference⟩ := s1.sumsAfterCorrections chosenSetup.aes (fun _ => 0#128) 0#128
    (List.nodup_singleton 0) listed (by rw [param]) (by rw [stride]; decide) (by rw [stride]; decide) sized
  refine ⟨_, s1, s2, qSum, s3, qSum', chosenSetup.senderRuns 1 new, stored, ran, ran', fun same => ?_⟩
  have first := difference 0 (by rw [param]; decide) 0 (by rw [stride]; decide)
  have picked : challengeBit (chosenSetup.aes 0#128) s1.mStatSecParam 0 0 = true := by
    rw [param]
    decide +kernel
  have masked : s1.maskedCorrection 0 0 = BitVec.allOnes 128 := by
    unfold maskedCorrection
    rw [Nat.zero_mul, Nat.zero_add, row, choices, BitVec.and_self]
  rw [Nat.zero_mul, Nat.zero_add, ← same, List.filter_cons, if_pos picked] at first
  have none := (xorEqSelf _ _).mp first.symm
  rw [List.filter_nil, List.map_singleton, xorSumCons, xorSumNil, BitVec.xor_zero, masked] at none
  exact absurd none (by decide)

end PrtyMOtSender
end PaxosPsi
