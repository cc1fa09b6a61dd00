import PaxosPsi.ConsistencyCheck

/-! The check between honest parties. The receiver's dummy rows continue the exchange,
so every row the sums run over obeys one relation, and the relation is linear. -/
namespace PaxosPsi
open CountedLoop XorAlgebra Memory

structure Draws (ready : PRNG → Prop) (drawn : Byte → Prop) : Prop where
  get : ∀ prng, ready prng → ∀ lengthu8, ∃ bytes next, prng.get lengthu8 = .ok (bytes, next) ∧
    bytes.length = lengthu8 ∧ ready next ∧ ∀ x ∈ bytes, drawn x

theorem drawsAny : Draws PRNG.Keyed fun _ => True := by
  constructor
  intro prng keyed lengthu8
  obtain ⟨bytes, next, got, kept, size⟩ := PRNG.getKeyed keyed lengthu8
  exact ⟨bytes, next, got, size, kept, fun _ _ => trivial⟩

section Dummies
variable {inputBitCount numOtExt n : Nat} {u : Setup inputBitCount} {r0 r : PrtyMOtReceiver}
  {s0 s : PrtyMOtSender} {words : Nat → Option Bytes}

structure Dummies (u : Setup inputBitCount) (numOtExt n : Nat) (r0 : PrtyMOtReceiver) (s0 s : PrtyMOtSender)
    (words : Nat → Option Bytes) (drawn : Byte → Prop) (m : Nat) (r : PrtyMOtReceiver) (tSum wSum : Blocks)
    (words' : Nat → Option Bytes) : Prop where
  run : Exchange (u.rows numOtExt) r0 s0 words' (fun _ => false) r s
  idx : r.mCorrectionIdx = n
  before : ∀ i < n, words' i = words i
  fresh : ∀ i, n + m ≤ i → words' i = none
  prepared : ∀ l < m, ∃ w, words' (n + l) = some w ∧ ∀ b < (inputBitCount + 7) / 8,
    bytesOf (fun k => wSum (l * u.code.plaintextBlkSize + k)) b = w b ∧ drawn (w b)
  tSum : ∀ l < m, ∀ j < u.width.stride,
    tSum (l * u.width.stride + j) = r0.mT0.mView ((n + l) * u.width.stride + j)

theorem dummyStep {ready : PRNG → Prop} {drawn : Byte → Prop} (draws : Draws ready drawn)
    (started : u.Started numOtExt r0 s0) {m : Nat} {tSum wSum : Blocks} {words' : Nat → Option Bytes}
    (dummies : Dummies u numOtExt n r0 s0 s words drawn m r tSum wSum words') (fits : n + m < u.rows numOtExt)
    {prng : PRNG} (keyed : ready prng) :
    ∃ prng' r' tSum' wSum' words'', PrtyMOtReceiver.dummyRow m (prng, r, tSum, wSum) = .ok (prng', r', tSum', wSum') ∧
      ready prng' ∧ Dummies u numOtExt n r0 s0 s words drawn (m + 1) r' tSum' wSum' words'' := by
  have kept := dummies.run.kept started
  have shape := u.width.shape u.mx
  have blkSize : r.mCode.plaintextBlkSize = u.code.plaintextBlkSize := by rw [kept.receiverCode]
  have inputBytes : r.mInputByteCount = (inputBitCount + 7) / 8 := by
    rw [kept.inputBytes, started.shaped.inputBytes, started.receiverCode]
    exact shape.plaintextU8Size
  have fresh := dummies.fresh (n + m) (Nat.le_refl _)
  obtain ⟨bytes, next, got, size, ready', drew⟩ := draws.get prng keyed r.mInputByteCount
  let word : Bytes := fun b => bytes.getD b 0
  let wSum' := memcpy wSum (m * u.code.plaintextBlkSize) word ((inputBitCount + 7) / 8)
  let w : Bytes := bytesOf fun k => wSum' (m * u.code.plaintextBlkSize + k)
  let tSum' := forLoop u.width.stride (fun j tSum => Function.update tSum (m * u.width.stride + j)
    (r0.mT0.mView ((n + m) * u.width.stride + j))) tSum
  have stored : ∀ l, ∀ b < (inputBitCount + 7) / 8, bytesOf (fun k => wSum' (l * u.code.plaintextBlkSize + k)) b =
      if l = m then word b else bytesOf (fun k => wSum (l * u.code.plaintextBlkSize + k)) b := by
    intro l b inside
    have room := shape.plaintextBytes
    split
    · rename_i same
      rw [same]
      have copied := memcpyBytes wSum (m * u.code.plaintextBlkSize) word ((inputBitCount + 7) / 8) b
      rwa [if_pos inside] at copied
    · rename_i other
      exact memcpyElsewhere word other room (Nat.lt_of_lt_of_le inside room)
  have ran : PrtyMOtReceiver.dummyRow m (prng, r, tSum, wSum) =
      .ok (next, r.otCorrection (n + m) w, tSum', wSum') := by
    unfold PrtyMOtReceiver.dummyRow
    dsimp only
    rw [got]
    simp only [bind, Except.bind, pure, Except.pure, PrtyMOtReceiver.otCorrectionT0,
      PrtyMOtReceiver.otCorrectionIdx, blkSize, inputBytes, dummies.idx, kept.t0, started.shaped.t0Stride]
    rfl
  refine ⟨_, _, _, _, Function.update words' (n + m) (some w), ran, ready', ⟨?_, dummies.idx, ?_, ?_, ?_, ?_⟩⟩
  · exact dummies.run.otCorrection (n + m) w fits fresh
  · intro i below
    rw [Function.update_of_ne (by omega)]
    exact dummies.before i below
  · intro i past
    rw [Function.update_of_ne (by omega)]
    exact dummies.fresh i (by omega)
  · intro l below
    by_cases last : l = m
    · subst last
      refine ⟨w, Function.update_self .., fun b inside => ⟨rfl, ?_⟩⟩
      have byte := stored l b inside
      rw [if_pos rfl] at byte
      have listed : b < bytes.length := by omega
      change drawn (bytesOf (fun k => wSum' (l * u.code.plaintextBlkSize + k)) b)
      rw [byte]
      change drawn (bytes.getD b 0)
      rw [List.getD_eq_getElem _ _ listed]
      exact drew _ (List.getElem_mem listed)
    · obtain ⟨w', given, same⟩ := dummies.prepared l (by omega)
      refine ⟨w', by rw [Function.update_of_ne (by omega)]; exact given, fun b inside => ?_⟩
      have byte := stored l b inside
      rw [if_neg last] at byte
      rw [byte]
      exact same b inside
  · intro l below j column
    have view := updateSpan tSum (m * u.width.stride) u.width.stride
      (fun j => r0.mT0.mView ((n + m) * u.width.stride + j)) (a := l * u.width.stride + j)
    rw [if_congr (inRow column) rfl rfl] at view
    refine view.trans ?_
    by_cases last : l = m
    · rw [if_pos last, last, Nat.add_sub_cancel_left]
    · rw [if_neg last]
      exact dummies.tSum l (by omega) j column

theorem dummyRun {ready : PRNG → Prop} {drawn : Byte → Prop} (draws : Draws ready drawn)
    (started : u.Started numOtExt r0 s0) (run : Exchange (u.rows numOtExt) r0 s0 words (fun _ => false) r s)
    (idx : r.mCorrectionIdx = n) (fresh : ∀ i, n ≤ i → words i = none) {prng : PRNG} (keyed : ready prng) {m : Nat}
    (fits : n + m ≤ u.rows numOtExt) :
    ∃ prng' r' tSum wSum words', forLoopM m PrtyMOtReceiver.dummyRow (prng, r, fun _ => 0#128, fun _ => 0#128) =
        .ok (prng', r', tSum, wSum) ∧
      ready prng' ∧ Dummies u numOtExt n r0 s0 s words drawn m r' tSum wSum words' := by
  induction m with
  | zero =>
    exact ⟨prng, r, _, _, words, rfl, keyed, run, idx, fun _ _ => rfl, fresh, fun l none => absurd none (by omega),
      fun l none => absurd none (by omega)⟩
  | succ m ih =>
    obtain ⟨prng', r', tSum, wSum, words', ran, ready', dummies⟩ := ih (by omega)
    obtain ⟨prng'', r'', tSum', wSum', words'', stepped, ready'', dummies'⟩ :=
      dummyStep draws started dummies (by omega) ready'
    refine ⟨prng'', r'', tSum', wSum', words'', ?_, ready'', dummies'⟩
    rw [forLoopM, ran]
    exact stepped

structure Answer (u : Setup inputBitCount) (n : Nat) (seed : Block) (r : PrtyMOtReceiver) (tSum0 wSum0 : Blocks)
    (t : TSums) : Prop where
  tSum : ∀ l < u.statSecParam, ∀ j < u.width.stride, t.tSum (l * u.width.stride + j) =
    tSum0 (l * u.width.stride + j) ^^^ xorSum ((List.range n).map fun i =>
      if challengeBit (u.aes seed) u.statSecParam i l then r.mT0.mView (i * u.width.stride + j) else 0#128)
  wSum : ∀ l < u.statSecParam, t.wSum l = wSum0 l ^^^ xorSum ((List.range n).map fun i =>
    if challengeBit (u.aes seed) u.statSecParam i l then r.mW.mView i else 0#128)
  rest : ∀ a, u.statSecParam ≤ a → t.wSum a = wSum0 a

theorem receiverAnswers {ready : PRNG → Prop} {drawn : Byte → Prop} (draws : Draws ready drawn)
    (started : u.Started numOtExt r0 s0) (malicious : u.malicious = true) (multiple : u.statSecParam % 8 = 0)
    (run : Exchange (u.rows numOtExt) r0 s0 words (fun _ => false) r s) (idx : r.mCorrectionIdx = n)
    (fresh : ∀ i, n ≤ i → words i = none) (fits : n + u.statSecParam ≤ u.rows numOtExt) (wordSeed seed : Block)
    (keyed : ready (PRNG.new.setSeed u.aes wordSeed)) :
    ∃ r' tSum wSum words' t, Dummies u numOtExt n r0 s0 s words drawn u.statSecParam r' tSum wSum words' ∧
      Answer u n seed r' tSum wSum t ∧
      r.check u.aes wordSeed seed = .ok ((r'.sendCorrection u.statSecParam).2,
        some ((r'.sendCorrection u.statSecParam).1.read r'.mT1.mView,
          (List.range (u.statSecParam * u.width.stride)).map t.tSum,
          (List.range (u.statSecParam * u.code.plaintextBlkSize)).map t.wSum)) := by
  have kept := run.kept started
  have param : r.mStatSecParam = u.statSecParam := kept.receiverParam.trans started.receiverParam
  obtain ⟨prng', r', tSum, wSum, words', ran, -, dummies⟩ := dummyRun draws started run idx fresh keyed fits
  have kept' := dummies.run.kept started
  have param' : r'.mStatSecParam = u.statSecParam := kept'.receiverParam.trans started.receiverParam
  have stride' : r'.mT0.mStride = u.width.stride := kept'.shaped.t0Stride
  have blkSize' : r'.mW.mStride = u.code.plaintextBlkSize := kept'.wStride.trans started.wStride
  let sent := (r'.sendCorrection u.statSecParam).2
  let t := sent.sumGroups (PrtyMOtReceiver.sumRow u.width.stride) (u.aes seed) ⟨0, 0, 0, 0, 0, tSum, wSum⟩
  have sentParam : sent.mStatSecParam = u.statSecParam := param'
  have rows : sent.mCorrectionIdx - sent.mStatSecParam = n := by
    have last : sent.mCorrectionIdx = r'.mCorrectionIdx + u.statSecParam := rfl
    rw [last, sentParam, dummies.idx, Nat.add_sub_cancel]
  refine ⟨r', tSum, wSum, words', t, dummies, ?_, ?_⟩
  · obtain ⟨summedT, summedW⟩ : sent.SummedT (u.aes seed) u.width.stride ⟨0, 0, 0, 0, 0, tSum, wSum⟩ n t ∧
        sent.SummedW (u.aes seed) ⟨0, 0, 0, 0, 0, tSum, wSum⟩ n t := by
      unfold t
      rw [PrtyMOtReceiver.sumGroupsGeneral (by rw [sentParam]; exact multiple), ← rows]
      exact PrtyMOtReceiver.summedAll (by rw [sentParam]; exact multiple) rfl rfl rfl rfl
    refine ⟨fun l inside j column => ?_, fun l inside => ?_, fun a past => ?_⟩
    · have sum := summedT.tSum l (by rw [sentParam]; exact inside) j column
      unfold PrtyMOtReceiver.tTerm at sum
      rw [sentParam] at sum
      exact sum
    · have sum := summedW.wSum l (by rw [sentParam]; exact inside)
      unfold PrtyMOtReceiver.wTerm at sum
      rw [sentParam] at sum
      exact sum
    · exact summedW.rest a (by rw [sentParam]; exact past)
  · unfold PrtyMOtReceiver.check PrtyMOtReceiver.dummyRows
    rw [if_pos (kept.receiverMalicious.trans (started.receiverMalicious.trans malicious)), param, ran]
    simp only [bind, Except.bind, pure, Except.pure, param']
    change Except.ok (sent, some (_, (List.range (sent.mStatSecParam * r'.mT0.mStride)).map (sent.sumGroups
      (PrtyMOtReceiver.sumRow r'.mT0.mStride) (u.aes seed) ⟨0, 0, 0, 0, 0, tSum, wSum⟩).tSum,
      (List.range (sent.mStatSecParam * r'.mW.mStride)).map (sent.sumGroups
      (PrtyMOtReceiver.sumRow r'.mT0.mStride) (u.aes seed) ⟨0, 0, 0, 0, 0, tSum, wSum⟩).wSum)) = _
    rw [stride', blkSize', sentParam]
    rfl

theorem rowAnswered (started : u.Started numOtExt r0 s0)
    (run : Exchange (u.rows numOtExt) r0 s0 words (fun _ => false) r s) {i : Nat} {w : Bytes}
    (prepared : words i = some w) (received : i < s.mCorrectionIdx) {j : Nat} (column : j < u.width.stride) :
    (s.mCorrectionVals.mView (i * u.width.stride + j) &&& s.mChoiceBlks.get j) ^^^
        s.mT.mView (i * u.width.stride + j) =
      r0.mT0.mView (i * u.width.stride + j) ^^^ (u.code.codeword w j &&& u.choiceBlk j) := by
  have kept := run.kept started
  have untouched := kept.t i j column
  rw [if_neg Bool.false_ne_true, BitVec.xor_zero] at untouched
  rw [untouched, kept.choiceBlks, BitVec.xor_comm, run.rowRelation started prepared received column]

theorem pickedRelation (started : u.Started numOtExt r0 s0)
    (run : Exchange (u.rows numOtExt) r0 s0 words (fun _ => false) r s) (received : n ≤ s.mCorrectionIdx)
    (prepared : ∀ i < n, words i ≠ none) {zero : Blocks} {l j : Nat} (column : j < u.width.stride)
    (aes : BitVec 64 → Block) (cleared : ∀ i < n, challengeBit aes s.mStatSecParam i l = false → zero j = 0#128) :
    xorSum ((List.range n).map fun i =>
        if challengeBit aes s.mStatSecParam i l then r.mT0.mView (i * u.width.stride + j) else 0#128) ^^^
      xorSum ((List.range n).map (s.qTerm aes u.width.stride zero l j)) =
    u.code.codeword (fun b => xorSum ((List.range n).map fun i =>
      if challengeBit aes s.mStatSecParam i l then ((words i).getD zeroWord) b else 0#8)) j &&& u.choiceBlk j := by
  have kept := run.kept started
  have codewords : u.code.codeword (fun b => xorSum ((List.range n).map fun i =>
      if challengeBit aes s.mStatSecParam i l then ((words i).getD zeroWord) b else 0#8)) j =
      xorSum ((List.range n).map fun i =>
        if challengeBit aes s.mStatSecParam i l then u.code.codeword ((words i).getD zeroWord) j else 0#128) := by
    have picked : (fun b => xorSum ((List.range n).map fun i =>
        if challengeBit aes s.mStatSecParam i l then ((words i).getD zeroWord) b else 0#8)) =
        fun b => xorSum ((((List.range n).filter fun i => challengeBit aes s.mStatSecParam i l).map
          fun i => (words i).getD zeroWord).map (· b)) := by
      funext b
      rw [List.map_map, xorSumFilter (List.range n) (fun i => challengeBit aes s.mStatSecParam i l)
        (fun i => (words i).getD zeroWord b)]
      rfl
    rw [picked, LinearCode.codewordSum, List.map_map, Function.comp_def, xorSumFilter (List.range n)
      (fun i => challengeBit aes s.mStatSecParam i l) (fun i => u.code.codeword ((words i).getD zeroWord) j)]
  rw [codewords, ← xorSumXor, ← xorSumMask]
  apply xorSumCongr
  intro i listed
  have inside := List.mem_range.mp listed
  obtain ⟨w, given⟩ := Option.ne_none_iff_exists'.mp (prepared i inside)
  have row := rowAnswered started run given (Nat.lt_of_lt_of_le inside received) column
  unfold PrtyMOtSender.qTerm
  rw [row, kept.t0, given]
  by_cases picked : challengeBit aes s.mStatSecParam i l
  · rw [if_pos picked, if_pos picked, if_pos picked]
    exact xorCancelLeft _ _
  · have none := cleared i inside (Bool.eq_false_iff.mpr picked)
    rw [if_neg picked, if_neg picked, if_neg picked, none, BitVec.xor_zero, BitVec.zero_and]

theorem bytesOfSum (m : List Nat) (f : Nat → Blocks) (b : Nat) :
    bytesOf (fun k => xorSum (m.map fun i => f i k)) b = xorSum (m.map fun i => bytesOf (f i) b) := by
  unfold bytesOf
  exact (xorSumMap m (fun i => f i (b / 16)) (fun a => a.extractLsb' (8 * (b % 16)) 8) BitVec.extractLsb'_zero
    (fun _ _ => BitVec.extractLsb'_xor)).symm

/-- While a word is one block, or no rows are summed, the receiver sums the words of the rows. -/
theorem answeredWords {drawn : Byte → Prop} {seed : Block} {tSum0 wSum0 : Blocks} {t : TSums}
    {words' : Nat → Option Bytes} (started : u.Started numOtExt r0 s0)
    (dummies : Dummies u numOtExt n r0 s0 s words drawn u.statSecParam r tSum0 wSum0 words')
    (answer : Answer u n seed r tSum0 wSum0 t) (prepared : ∀ i < n, words' i ≠ none)
    (oneBlock : n = 0 ∨ inputBitCount ≤ 128) {l : Nat} (inside : l < u.statSecParam) :
    ∃ w, words' (n + l) = some w ∧ ∀ b < (inputBitCount + 7) / 8,
      bytesOf (fun k => t.wSum (l * u.code.plaintextBlkSize + k)) b = w b ^^^ xorSum ((List.range n).map fun i =>
        if challengeBit (u.aes seed) u.statSecParam i l then ((words' i).getD zeroWord) b else 0#8) := by
  have kept := dummies.run.kept started
  have shape := u.width.shape u.mx
  obtain ⟨w, given, bytes⟩ := dummies.prepared l inside
  refine ⟨w, given, fun b below => ?_⟩
  rw [← (bytes b below).1]
  -- only for words of one block is block `i` of `mW` the word of row `i`
  rcases oneBlock with none | narrow
  · subst none
    have unchanged : t.wSum = wSum0 := by
      funext a
      by_cases summed : a < u.statSecParam
      · exact (answer.wSum a summed).trans BitVec.xor_zero
      · exact answer.rest a (by omega)
    rw [unchanged]
    exact BitVec.xor_zero.symm
  · have stride := shape.fourBlocks.mpr narrow
    have blkSize : u.code.plaintextBlkSize = 1 := shape.plaintextBlkSize.trans (if_pos stride)
    have wStride : r.mW.mStride = 1 := (kept.wStride.trans started.wStride).trans blkSize
    have first : b / 16 = 0 := by omega
    have inputBytes : r0.mInputByteCount = (inputBitCount + 7) / 8 := by
      rw [started.shaped.inputBytes, started.receiverCode]
      exact shape.plaintextU8Size
    have sum : bytesOf (fun k => t.wSum (l * u.code.plaintextBlkSize + k)) b =
        bytesOf (fun k => wSum0 (l * u.code.plaintextBlkSize + k) ^^^ xorSum ((List.range n).map fun i =>
          if challengeBit (u.aes seed) u.statSecParam i l then r.mW.mView i else 0#128)) b := by
      apply bytesOfCongr
      rw [first, blkSize, Nat.mul_one, Nat.add_zero]
      exact answer.wSum l inside
    rw [sum, bytesOfXor]
    congr 1
    refine (bytesOfSum (List.range n) (fun i _ => if challengeBit (u.aes seed) u.statSecParam i l then r.mW.mView i
      else 0#128) b).trans (xorSumCongr fun i listed => ?_)
    obtain ⟨w', given'⟩ := Option.ne_none_iff_exists'.mp (prepared i (List.mem_range.mp listed))
    by_cases picked : challengeBit (u.aes seed) u.statSecParam i l
    · rw [given', if_pos picked]
      simp only [picked, if_true, Option.getD_some]
      have stored := kept.word i w' given' b (by rw [inputBytes]; exact below)
      unfold PrtyMOtReceiver.wVal at stored
      rw [wStride, Nat.mul_one] at stored
      refine Eq.trans (bytesOfCongr ?_) stored
      rw [first, Nat.add_zero]
    · rw [if_neg picked]
      simp only [picked]
      exact congrFun bytesOfZero b

def ChecksAgree (u : Setup inputBitCount) (wordSeed seed : Block) (stack : Blocks) (r : PrtyMOtReceiver)
    (s : PrtyMOtSender) : Prop :=
  ∃ r1 message tMessage wMessage s1 sums,
    r.check u.aes wordSeed seed = .ok (r1, some (message, tMessage, wMessage)) ∧
    s.check u.aes stack seed message tMessage wMessage = .ok (s1, some sums) ∧
    ∀ l < u.statSecParam, ∀ j < u.width.stride, s1.Passes sums l j

theorem correctionLength (started : u.Started numOtExt r0 s0)
    (run : Exchange (u.rows numOtExt) r0 s0 words (fun _ => false) r s) (count : Nat) :
    ((r.sendCorrection count).1.read r.mT1.mView).length = count * s.mCorrectionVals.mStride := by
  have kept := run.kept started
  have length : (r.sendCorrection count).1.length = r.mT1.mStride * count := rfl
  rw [Correction.read, List.length_map, List.length_range, length, kept.shaped.t1Stride, kept.valsStride, Nat.mul_comm]

structure Checked (u : Setup inputBitCount) (n : Nat) (seed : Block) (stack : Blocks)
    (words' : Nat → Option Bytes) (t : TSums) (s1 : PrtyMOtSender) (qSum : Blocks) : Prop where
  code : s1.mCode = u.code
  choices : ∀ j, s1.mChoiceBlks.get j = u.choiceBlk j
  rows : ∀ i < n + u.statSecParam, words' i ≠ none
  relation : ∀ l < u.statSecParam, ∀ j < u.width.stride, ∀ w, words' (n + l) = some w →
    (∀ i < n, challengeBit (u.aes seed) u.statSecParam i l = false → PrtyMOtSender.zeroAndQ stack j = 0#128) →
    t.tSum (l * u.width.stride + j) ^^^ qSum (l * u.width.stride + j) =
      u.code.codeword (fun b => w b ^^^ xorSum ((List.range n).map fun i =>
        if challengeBit (u.aes seed) u.statSecParam i l then ((words' i).getD zeroWord) b else 0#8)) j &&& u.choiceBlk j

def received (u : Setup inputBitCount) (t : TSums) (qSum : Blocks) : PrtyMOtSender.Sums :=
  ⟨qSum, fun a => if a < u.statSecParam * u.width.stride then t.tSum a else 0#128,
    fun a => if a < u.statSecParam * u.code.plaintextBlkSize then t.wSum a else 0#128⟩

theorem senderSums (started : u.Started numOtExt r0 s0) (malicious : u.malicious = true)
    (multiple : u.statSecParam % 8 = 0) (run : Exchange (u.rows numOtExt) r0 s0 words (fun _ => false) r s)
    (idx : r.mCorrectionIdx = n) (seed : Block) (t : TSums) (stack : Blocks) :
    ∃ s1 qSum, s.recvCorrection u.statSecParam ((r.sendCorrection u.statSecParam).1.read r.mT1.mView) = .ok s1 ∧
      s.check u.aes stack seed ((r.sendCorrection u.statSecParam).1.read r.mT1.mView)
        ((List.range (u.statSecParam * u.width.stride)).map t.tSum)
        ((List.range (u.statSecParam * u.code.plaintextBlkSize)).map t.wSum) = .ok (s1, some (received u t qSum)) ∧
      ∀ l < u.statSecParam, ∀ j < u.width.stride, qSum (l * u.width.stride + j) =
        ((s1.mCorrectionVals.mView ((n + l) * u.width.stride + j) &&& s1.mChoiceBlks.get j) ^^^
          s1.mT.mView ((n + l) * u.width.stride + j)) ^^^
        xorSum ((List.range n).map (s1.qTerm (u.aes seed) u.width.stride (PrtyMOtSender.zeroAndQ stack) l j)) := by
  have shape := u.width.shape u.mx
  have narrow := shape.narrow
  have kept := run.kept started
  have param : s.mStatSecParam = u.statSecParam := kept.senderParam.trans started.senderParam
  have tStride : s.mT.mStride = u.width.stride := kept.tStride
  have blkSize : s.mCode.plaintextBlkSize = u.code.plaintextBlkSize := by rw [kept.senderCode]
  have idx' : s.mCorrectionIdx = n := kept.idx.trans idx
  obtain ⟨s1, stored⟩ := PrtyMOtSender.recvCorrectionOk (correctionLength started run u.statSecParam)
  obtain ⟨rows1, param1, code1, choices1, valsStride1, idx1⟩ := PrtyMOtSender.recvCorrectionKeeps stored
  obtain ⟨qSum, checked, sums⟩ := PrtyMOtSender.checkSpec u.aes stack seed
    (kept.senderMalicious.trans (started.senderMalicious.trans malicious)) (by rw [param]; exact multiple)
    (by rw [tStride]; omega) (by rw [tStride]; omega) (by rw [param]; exact stored) param1 rows1 t.tSum t.wSum
  rw [code1, blkSize, tStride, param] at checked
  refine ⟨s1, qSum, stored, checked, fun l inside j column => ?_⟩
  have sum := sums l (by rw [param]; exact inside) j (by rw [tStride]; exact column)
  have first := s1.initialQSumAt (l := l) (m := j) (by rw [param1, param]; exact inside)
    (by rw [rows1, tStride]; exact column)
  rw [rows1, tStride, param1, param, idx1, idx', Nat.add_sub_cancel, valsStride1, kept.valsStride, ← rows1] at first
  rw [tStride, param, idx1, idx', Nat.add_sub_cancel, first] at sum
  exact sum

theorem senderChecked (started : u.Started numOtExt r0 s0) (malicious : u.malicious = true)
    (multiple : u.statSecParam % 8 = 0) {drawn : Byte → Prop} {seed : Block} {tSum0 wSum0 : Blocks} {t : TSums}
    {words' : Nat → Option Bytes} (dummies : Dummies u numOtExt n r0 s0 s words drawn u.statSecParam r tSum0 wSum0 words')
    (answer : Answer u n seed r tSum0 wSum0 t) (small : n * u.width.stride < 2 ^ 31) (stack : Blocks) :
    ∃ s1 qSum, Checked u n seed stack words' t s1 qSum ∧
      s.check u.aes stack seed ((r.sendCorrection u.statSecParam).1.read r.mT1.mView)
        ((List.range (u.statSecParam * u.width.stride)).map t.tSum)
        ((List.range (u.statSecParam * u.code.plaintextBlkSize)).map t.wSum) = .ok (s1, some (received u t qSum)) := by
  have kept := dummies.run.kept started
  have param : s.mStatSecParam = u.statSecParam := kept.senderParam.trans started.senderParam
  have idx' : s.mCorrectionIdx = n := kept.idx.trans dummies.idx
  have rows : ∀ i < n + u.statSecParam, words' i ≠ none := by
    intro i below
    by_cases old : i < n
    · exact kept.sent i (by rw [dummies.idx]; exact old)
    · obtain ⟨w, given, -⟩ := dummies.prepared (i - n) (by omega)
      rw [show n + (i - n) = i by omega] at given
      rw [given]
      exact Option.some_ne_none w
  obtain ⟨s1, qSum, stored, checked, sums⟩ := senderSums started malicious multiple dummies.run dummies.idx seed t stack
  obtain ⟨-, param1, code1, choices1, -, idx1⟩ := PrtyMOtSender.recvCorrectionKeeps stored
  have run' := dummies.run.chunk u.statSecParam
    (fun i low high => rows i (by rw [dummies.idx] at high; exact high))
    (by rw [idx', kept.valsStride]; exact small) stored
  refine ⟨s1, qSum, ⟨code1.trans kept.senderCode, fun j => ?_, rows, fun l inside j column w given cleared => ?_⟩, checked⟩
  · rw [choices1, kept.choiceBlks, started.choiceBlks]
  · have dummy := rowAnswered started run' given (by rw [idx1, idx']; omega) column
    have picked := pickedRelation started run' (n := n) (l := l) (by rw [idx1, idx']; omega)
      (fun i below => rows i (by omega)) column (u.aes seed) (by rw [param1, param]; exact cleared)
    rw [param1, param] at picked
    rw [answer.tSum l inside j column, dummies.tSum l inside j column, sums l inside j column, dummy, xorXorComm,
      xorCancelLeft, LinearCode.codewordXor, andXorDistrib]
    exact congrArg _ picked

theorem passesIff {t : TSums} {s1 : PrtyMOtSender} {qSum : Blocks} (code : s1.mCode = u.code)
    (choices : ∀ j, s1.mChoiceBlks.get j = u.choiceBlk j) {l j : Nat} (inside : l < u.statSecParam)
    (column : j < u.width.stride) :
    s1.Passes (received u t qSum) l j ↔ t.tSum (l * u.width.stride + j) ^^^ qSum (l * u.width.stride + j) =
      u.code.codeword (bytesOf fun k => t.wSum (l * u.code.plaintextBlkSize + k)) j &&& u.choiceBlk j := by
  have shape := u.width.shape u.mx
  have codeSize : u.code.codewordBlkSize = u.width.stride := shape.codewordBlkSize
  have inRows : ∀ {width c}, c < width → l * width + c < u.statSecParam * width := by
    intro width c below
    have edge := Nat.mul_le_mul_right width (show l + 1 ≤ u.statSecParam from inside)
    rw [Nat.succ_mul] at edge
    omega
  have word : u.code.codeword (bytesOf fun k =>
      if l * u.code.plaintextBlkSize + k < u.statSecParam * u.code.plaintextBlkSize then
        t.wSum (l * u.code.plaintextBlkSize + k) else 0#128) =
      u.code.codeword (bytesOf fun k => t.wSum (l * u.code.plaintextBlkSize + k)) := by
    apply LinearCode.codewordCongr
    intro b below
    have read : b < (inputBitCount + 7) / 8 := Nat.lt_of_lt_of_eq below shape.plaintextU8Size
    have room : (inputBitCount + 7) / 8 ≤ 16 * u.code.plaintextBlkSize := shape.plaintextBytes
    exact bytesOfCongr (if_pos (inRows (by omega)))
  unfold PrtyMOtSender.Passes received
  dsimp only
  rw [code, codeSize, word, choices j, if_pos (inRows column)]

theorem honestPasses (started : u.Started numOtExt r0 s0) (malicious : u.malicious = true)
    (multiple : u.statSecParam % 8 = 0) (run : Exchange (u.rows numOtExt) r0 s0 words (fun _ => false) r s)
    (idx : r.mCorrectionIdx = n) (fresh : ∀ i, n ≤ i → words i = none) (fits : n + u.statSecParam ≤ u.rows numOtExt)
    (oneBlock : n = 0 ∨ inputBitCount ≤ 128) (small : n * u.width.stride < 2 ^ 31) (wordSeed seed : Block)
    (stack : Blocks) : ChecksAgree u wordSeed seed stack r s := by
  have shape := u.width.shape u.mx
  obtain ⟨r', tSum0, wSum0, words', t, dummies, answer, answered⟩ := receiverAnswers drawsAny started malicious multiple
    run idx fresh fits wordSeed seed (PRNG.setSeedKeyed _ _ _)
  obtain ⟨s1, qSum, checked, ran⟩ := senderChecked started malicious multiple dummies answer small stack
  refine ⟨_, _, _, _, s1, _, answered, ran, fun l inside j column =>
    (passesIff checked.code checked.choices inside column).mpr ?_⟩
  obtain ⟨w, given, bytes⟩ := answeredWords started dummies answer (fun i below => checked.rows i (by omega)) oneBlock
    inside
  rw [checked.relation l inside j column w given fun i below _ => ?_]
  · refine congrArg (· &&& u.choiceBlk j) ?_
    refine congrFun (LinearCode.codewordCongr u.code fun b below => (bytes b ?_).symm) j
    exact Nat.lt_of_lt_of_eq below shape.plaintextU8Size
  · have four := shape.fourBlocks.mpr (oneBlock.resolve_left (by omega))
    exact if_pos (by omega)

end Dummies
end PaxosPsi
