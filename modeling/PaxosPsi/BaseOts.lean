import PaxosPsi.PrtyMOtReceiver
import PaxosPsi.PrtyMOtSender

/-! Generator agreement of the two parties. The sender holds, for every column, the
receiver's generator selected by its choice bit, buffer position and counter
included. Every `init` and `split` made on both sides keeps it, also on the
instances `split` returns, and right after an `init` the rows are related. -/
namespace PaxosPsi
open CountedLoop XorAlgebra Memory

def select {α : Type*} (choice : Bool) (pair : α × α) : α := if choice then pair.2 else pair.1

structure BaseOts where
  count : Nat
  seeds : Nat → Block × Block
  choiceData : Bytes

namespace BaseOts
variable (base : BaseOts)

def baseChoice : BitVector := ⟨base.count, base.choiceData⟩

def baseSend : Vec (Block × Block) := ⟨base.count, base.seeds⟩

def baseRecv : Vec Block := ⟨base.count, fun i => select (base.baseChoice.bit i) (base.seeds i)⟩

def choiceBlk (j : Nat) : Block := blocksOf base.choiceData j

end BaseOts

structure Agree (base : BaseOts) (r : PrtyMOtReceiver) (s : PrtyMOtSender) : Prop where
  hasBase : r.mHasBase = true
  receiverBytes : r.mInputByteCount ≠ 0
  senderBytes : s.mInputByteCount ≠ 0
  statSecParam : s.mStatSecParam = r.mStatSecParam
  wholeBlocks : base.count % 128 = 0
  receiverSize : r.mGens.size = base.count
  senderSize : s.mGens.size = base.count
  choices : s.mBaseChoiceBits = base.baseChoice
  choiceBlks : s.mChoiceBlks = ⟨base.count / 128, base.choiceBlk⟩
  gens : ∀ i < base.count, s.mGens.get i = select (base.baseChoice.bit i) (r.mGens.get i)
  keyed : ∀ i < base.count, (r.mGens.get i).1.Keyed ∧ (r.mGens.get i).2.Keyed

theorem selectMap {α β : Type*} (f : α → β) (choice : Bool) (pair : α × α) :
    f (select choice pair) = select choice (f pair.1, f pair.2) := by
  cases choice <;> rfl

theorem choiceBlkBit (base : BaseOts) (j : Nat) {c : Nat} (inside : c < 128) :
    (base.choiceBlk j).getLsbD c = base.baseChoice.bit (j * 128 + c) := by
  have byte : (j * 128 + c) / 8 = 16 * j + c / 8 := by omega
  have bit : (j * 128 + c) % 8 = c % 8 := by omega
  simp [BaseOts.choiceBlk, blocksOf, BitVector.bit, BaseOts.baseChoice, inside, byte, bit]

theorem padSelect (base : BaseOts) {gens : Nat → PRNG} {pairs : Nat → PRNG × PRNG} {j : Nat}
    (chosen : ∀ i, j * 128 ≤ i → i < j * 128 + 128 → gens i = select (base.baseChoice.bit i) (pairs i))
    (row : Nat) :
    Expansion.padBlock gens row j = Expansion.padBlock (fun i => (pairs i).1) row j ^^^
      ((Expansion.padBlock (fun i => (pairs i).1) row j ^^^ Expansion.padBlock (fun i => (pairs i).2) row j) &&&
        base.choiceBlk j) := by
  apply BitVec.eq_of_getLsbD_eq
  intro c inside
  rw [BitVec.getLsbD_xor, BitVec.getLsbD_and, BitVec.getLsbD_xor, choiceBlkBit base j inside]
  simp only [Expansion.padBlock, BitVec.getLsbD_ofFnLE, inside, dite_true]
  rw [chosen (j * 128 + c) (by omega) (by omega)]
  cases base.baseChoice.bit (j * 128 + c) <;> simp [select]

theorem seededGens (aes : Aes) {base : BaseOts} {r : PrtyMOtReceiver} (size : r.mGens.size = base.count)
    {i : Nat} (inside : i < base.count) : (r.seedGens aes base.baseSend).mGens.get i =
      (PRNG.new.setSeed aes (base.seeds i).1, PRNG.new.setSeed aes (base.seeds i).2) := by
  have below : i < r.mGens.size := by omega
  simp only [PrtyMOtReceiver.seedGens, BaseOts.baseSend, if_pos below]
  rw [PRNG.setSeedFresh aes _ (r.mGens.get i).1, PRNG.setSeedFresh aes _ (r.mGens.get i).2]

theorem seedGensAgree (aes : Aes) {base : BaseOts} {r : PrtyMOtReceiver} {s : PrtyMOtSender}
    (receiverBytes : r.mInputByteCount ≠ 0) (senderBytes : s.mInputByteCount ≠ 0)
    (statSecParam : s.mStatSecParam = r.mStatSecParam) (size : r.mGens.size = base.count)
    (wholeBlocks : base.count % 128 = 0) :
    Agree base (r.seedGens aes base.baseSend) (s.seedGens aes base.baseRecv base.baseChoice) := by
  refine ⟨rfl, receiverBytes, senderBytes, statSecParam, wholeBlocks, size, rfl, rfl, rfl, ?_, ?_⟩
  · intro i inside
    rw [seededGens aes size inside]
    simp only [PrtyMOtSender.seedGens, BaseOts.baseRecv]
    rw [PRNG.setSeedFresh]
    exact (if_pos inside).trans (selectMap (fun seed => PRNG.new.setSeed aes seed) _ _)
  · intro i inside
    rw [seededGens aes size inside]
    exact ⟨PRNG.setSeedKeyed aes _ _, PRNG.setSeedKeyed aes _ _⟩

theorem rowCountsAgree {base : BaseOts} {r : PrtyMOtReceiver} {s : PrtyMOtSender} (agree : Agree base r s)
    (numOtExt : Nat) : s.rowCount numOtExt = r.rowCount numOtExt := by
  unfold PrtyMOtReceiver.rowCount PrtyMOtSender.rowCount roundUpTo
  rw [agree.statSecParam]
  congr 3
  omega

structure Initialised (base : BaseOts) (rows : Nat) (r : PrtyMOtReceiver) (s : PrtyMOtSender) : Prop where
  t0Size : r.mT0.size = rows * (base.count / 128)
  t1Size : r.mT1.size = rows * (base.count / 128)
  tSize : s.mT.size = rows * (base.count / 128)
  valsSize : s.mCorrectionVals.size = rows * (base.count / 128)
  t0Stride : r.mT0.mStride = base.count / 128
  t1Stride : r.mT1.mStride = base.count / 128
  tStride : s.mT.mStride = base.count / 128
  valsStride : s.mCorrectionVals.mStride = base.count / 128
  wStride : r.mW.mStride = r.mCode.plaintextBlkSize
  receiverIdx : r.mCorrectionIdx = 0
  senderIdx : s.mCorrectionIdx = 0
  relation : ∀ row < rows, ∀ j < base.count / 128,
    s.t row j = r.t0 row j ^^^ ((r.t0 row j ^^^ r.t1 row j) &&& s.mChoiceBlks.get j)

theorem receiverPads (numOtExt : Nat) (r : PrtyMOtReceiver) :
    (r.expandPads numOtExt).mT0.mStride = r.mGens.size / 128 ∧
    (r.expandPads numOtExt).mT1.mStride = r.mGens.size / 128 ∧
    (r.expandPads numOtExt).mT0.size = r.rowCount numOtExt * (r.mGens.size / 128) ∧
    (r.expandPads numOtExt).mT1.size = r.rowCount numOtExt * (r.mGens.size / 128) ∧
    (∀ c < r.mGens.size / 128 * 128, (r.expandPads numOtExt).mGens.get c =
      ((r.mGens.get c).1.skip (Expansion.numSuperBlocks (r.rowCount numOtExt) * superBlkSize),
        (r.mGens.get c).2.skip (Expansion.numSuperBlocks (r.rowCount numOtExt) * superBlkSize))) ∧
    ∀ row < r.rowCount numOtExt, ∀ j < r.mGens.size / 128,
      (r.expandPads numOtExt).t0 row j = Expansion.padBlock (fun i => (r.mGens.get i).1) row j ∧
      (r.expandPads numOtExt).t1 row j = Expansion.padBlock (fun i => (r.mGens.get i).2) row j := by
  have aligned : r.rowCount numOtExt % 128 = 0 := Nat.mul_mod_left _ _
  obtain ⟨stride0, size0, gens0, rows0⟩ := Expansion.expandSpec (r.rowCount numOtExt) r.mGens.size
    ⟨fun i => (r.mGens.get i).1,
      r.mT0.assignEmpty.resize (r.rowCount numOtExt) (r.mGens.size / 128)⟩ (by simp) aligned
  obtain ⟨stride1, size1, gens1, rows1⟩ := Expansion.expandSpec (r.rowCount numOtExt) r.mGens.size
    ⟨fun i => (r.mGens.get i).2,
      r.mT1.assignEmpty.resize (r.rowCount numOtExt) (r.mGens.size / 128)⟩ (by simp) aligned
  simp only [Matrix.resizeStride, Matrix.resizeSize] at stride0 size0 gens0 rows0 stride1 size1 gens1 rows1
  simp only [PrtyMOtReceiver.t0, PrtyMOtReceiver.t1, PrtyMOtReceiver.expandPads, Expansion.expandPairSplits]
  refine ⟨stride0, stride1, size0, size1, ?_, ?_⟩
  · intro c inside
    rw [gens0, gens1, if_pos inside, if_pos inside]
  · intro row below j inside
    have first := rows0 row j below inside
    have second := rows1 row j below inside
    simp only [Matrix.read, stride1] at second
    refine ⟨first, ?_⟩
    rw [stride0]
    exact second

theorem senderPads (numOTExt : Nat) {s : PrtyMOtSender} (wide : 0 < s.mGens.size / 128) :
    (s.expandPads numOTExt).mT.mStride = s.mGens.size / 128 ∧
    (s.expandPads numOTExt).mT.size = s.rowCount numOTExt * (s.mGens.size / 128) ∧
    (∀ c < s.mGens.size / 128 * 128, (s.expandPads numOTExt).mGens.get c =
      (s.mGens.get c).skip (Expansion.numSuperBlocks (s.rowCount numOTExt) * superBlkSize)) ∧
    ∀ row < s.rowCount numOTExt, ∀ j < s.mGens.size / 128,
      (s.expandPads numOTExt).t row j = Expansion.padBlock s.mGens.get row j := by
  have aligned : s.rowCount numOTExt % 128 = 0 := Nat.mul_mod_left _ _
  have rows : (s.mT.assignEmpty.resize (s.rowCount numOTExt) (s.mGens.size / 128)).rows = s.rowCount numOTExt :=
    Matrix.resizeRows _ _ _ wide
  obtain ⟨stride, size, gens, read⟩ := Expansion.expandSpec (s.rowCount numOTExt) s.mGens.size
    ⟨s.mGens.get,
      s.mT.assignEmpty.resize (s.rowCount numOTExt) (s.mGens.size / 128)⟩ (by simp) aligned
  simp only [Matrix.resizeStride, Matrix.resizeSize] at stride size gens read
  simp only [PrtyMOtSender.t, PrtyMOtSender.expandPads, rows]
  refine ⟨stride, size, ?_, ?_⟩
  · intro c inside
    rw [gens, if_pos inside]
  · intro row below j inside
    exact read row j below inside

theorem receiverGens (numOtExt : Nat) (r : PrtyMOtReceiver) (c : Nat) :
    (r.expandPads numOtExt).mGens.get c = if c < r.mGens.size / 128 * 128 then
      ((r.mGens.get c).1.skip (Expansion.numSuperBlocks (r.rowCount numOtExt) * superBlkSize),
        (r.mGens.get c).2.skip (Expansion.numSuperBlocks (r.rowCount numOtExt) * superBlkSize))
    else r.mGens.get c := by
  have aligned : r.rowCount numOtExt % 128 = 0 := Nat.mul_mod_left _ _
  obtain ⟨-, -, gens0, -⟩ := Expansion.expandSpec (r.rowCount numOtExt) r.mGens.size
    ⟨fun i => (r.mGens.get i).1,
      r.mT0.assignEmpty.resize (r.rowCount numOtExt) (r.mGens.size / 128)⟩ (by simp) aligned
  obtain ⟨-, -, gens1, -⟩ := Expansion.expandSpec (r.rowCount numOtExt) r.mGens.size
    ⟨fun i => (r.mGens.get i).2,
      r.mT1.assignEmpty.resize (r.rowCount numOtExt) (r.mGens.size / 128)⟩ (by simp) aligned
  simp only [Matrix.resizeStride] at gens0 gens1
  simp only [PrtyMOtReceiver.expandPads, Expansion.expandPairSplits]
  rw [gens0, gens1]
  split <;> rfl

theorem senderGens (numOTExt : Nat) (s : PrtyMOtSender) (c : Nat) :
    (s.expandPads numOTExt).mGens.get c = if c < s.mGens.size / 128 * 128 then
      (s.mGens.get c).skip (Expansion.numSuperBlocks (s.rowCount numOTExt) * superBlkSize)
    else s.mGens.get c := by
  have whole : s.rowCount numOTExt % 128 = 0 := Nat.mul_mod_left _ _
  have rows : (s.mT.assignEmpty.resize (s.rowCount numOTExt) (s.mGens.size / 128)).rows =
      if s.mGens.size / 128 = 0 then 0 else s.rowCount numOTExt := by
    split
    · rename_i narrow
      simp [Matrix.rows, narrow]
    · exact Matrix.resizeRows _ _ _ (by omega)
  have aligned : (s.mT.assignEmpty.resize (s.rowCount numOTExt) (s.mGens.size / 128)).rows % 128 = 0 := by
    rw [rows]
    split
    · rfl
    · exact whole
  obtain ⟨-, -, gens, -⟩ := Expansion.expandSpec _ s.mGens.size
    ⟨s.mGens.get, s.mT.assignEmpty.resize (s.rowCount numOTExt) (s.mGens.size / 128)⟩ (by simp) aligned
  simp only [Matrix.resizeStride, rows] at gens
  simp only [PrtyMOtSender.expandPads, rows]
  rw [gens]
  split
  · rw [if_neg (by omega)]
  · rfl

theorem expandPadsAgree {base : BaseOts} {r : PrtyMOtReceiver} {s : PrtyMOtSender} (agree : Agree base r s)
    (wide : base.count ≠ 0) (numOtExt : Nat) :
    Agree base (r.expandPads numOtExt) (s.expandPads numOtExt) ∧
    Initialised base (r.rowCount numOtExt) (r.expandPads numOtExt) (s.expandPads numOtExt) := by
  have whole := agree.wholeBlocks
  have columns : base.count / 128 * 128 = base.count := by omega
  obtain ⟨t0Stride, t1Stride, t0Size, t1Size, gens, rows⟩ := receiverPads numOtExt r
  obtain ⟨tStride, tSize, gens', rows'⟩ := senderPads numOtExt (s := s) (by rw [agree.senderSize]; omega)
  rw [agree.receiverSize] at t0Stride t1Stride t0Size t1Size gens rows
  rw [agree.senderSize] at tStride tSize gens' rows'
  rw [rowCountsAgree agree] at gens' rows' tSize
  rw [columns] at gens gens'
  have choiceBlks : (s.expandPads numOtExt).mChoiceBlks = ⟨base.count / 128, base.choiceBlk⟩ := agree.choiceBlks
  have valsStride : (s.expandPads numOtExt).mCorrectionVals.mStride = base.count / 128 := by
    rw [← agree.senderSize]
    exact Matrix.resizeStride _ _ _
  have valsSize : (s.expandPads numOtExt).mCorrectionVals.size = r.rowCount numOtExt * (base.count / 128) := by
    rw [← agree.senderSize, ← rowCountsAgree agree]
    exact Matrix.resizeSize _ _ _
  refine ⟨{ agree with wholeBlocks := whole, choiceBlks := choiceBlks, gens := ?_, keyed := ?_ },
    ⟨t0Size, t1Size, tSize, valsSize, t0Stride, t1Stride, tStride, valsStride,
      Matrix.resizeStride _ _ _, rfl, rfl, ?_⟩⟩
  · intro i inside
    rw [gens' i inside, gens i inside, agree.gens i inside]
    exact selectMap (fun gen => PRNG.skip gen _) _ _
  · intro i inside
    rw [gens i inside]
    obtain ⟨keyed0, keyed1⟩ := agree.keyed i inside
    exact ⟨PRNG.skipKeyed keyed0 _, PRNG.skipKeyed keyed1 _⟩
  · intro row below j inside
    rw [rows' row below j inside, (rows row below j inside).1, (rows row below j inside).2, choiceBlks]
    refine padSelect base ?_ row
    intro i _ high
    exact agree.gens i (by omega)

theorem updateBoth {α β : Type} {p : Nat → α → β → Prop} {f : Nat → α} {g : Nat → β} {n size : Nat} {a : α} {b : β}
    (here : p n a b) (there : ∀ i < size, i ≠ n → p i (f i) (g i)) :
    ∀ i < size, p i (Function.update f n a i) (Function.update g n b i) := by
  intro i inside
  by_cases same : i = n
  · subst i
    rw [Function.update_self, Function.update_self]
    exact here
  · rw [Function.update_of_ne same, Function.update_of_ne same]
    exact there i inside same

section Split
variable {base : BaseOts}

theorem splitSeedsAgree {gens : Vec (PRNG × PRNG)} {gens' : Vec PRNG}
    (chosen : ∀ i < base.count, gens'.get i = select (base.baseChoice.bit i) (gens.get i))
    (keyed : ∀ i < base.count, (gens.get i).1.Keyed ∧ (gens.get i).2.Keyed)
    (seeds : Vec (Block × Block)) (seeds' : Vec Block) {n : Nat} (bound : n ≤ base.count) :
    ∃ drawn base0 drawn' base1, PrtyMOtReceiver.splitSeeds n gens seeds = .ok (drawn, base0) ∧
      PrtyMOtSender.splitSeeds n gens' seeds' = .ok (drawn', base1) ∧
      drawn.size = gens.size ∧ drawn'.size = gens'.size ∧ base0.size = seeds.size ∧ base1.size = seeds'.size ∧
      (∀ i < base.count, drawn'.get i = select (base.baseChoice.bit i) (drawn.get i)) ∧
      (∀ i < base.count, (drawn.get i).1.Keyed ∧ (drawn.get i).2.Keyed) ∧
      ∀ i < n, base1.get i = select (base.baseChoice.bit i) (base0.get i) := by
  induction n with
  | zero => exact ⟨gens, seeds, gens', seeds', rfl, rfl, rfl, rfl, rfl, rfl, chosen, keyed, by simp⟩
  | succ n ih =>
    obtain ⟨drawn, base0, drawn', base1, ran, ran', size, size', sizeB, sizeB', chosen, keyed, same⟩ := ih (by omega)
    obtain ⟨keyed0, keyed1⟩ := keyed n (by omega)
    obtain ⟨seed0, gen0, got0, kept0⟩ := PRNG.getBlockKeyed keyed0
    obtain ⟨seed1, gen1, got1, kept1⟩ := PRNG.getBlockKeyed keyed1
    have got : (drawn'.get n).getBlock = .ok (select (base.baseChoice.bit n) ((seed0, gen0), (seed1, gen1))) := by
      rw [chosen n (by omega), selectMap PRNG.getBlock, got0, got1]
      cases base.baseChoice.bit n <;> rfl
    refine ⟨⟨drawn.size, Function.update drawn.get n (gen0, gen1)⟩,
      ⟨base0.size, Function.update base0.get n (seed0, seed1)⟩,
      ⟨drawn'.size, Function.update drawn'.get n (select (base.baseChoice.bit n) (gen0, gen1))⟩,
      ⟨base1.size, Function.update base1.get n (select (base.baseChoice.bit n) (seed0, seed1))⟩,
      ?_, ?_, size, size', sizeB, sizeB', ?_, ?_, ?_⟩
    · simp only [PrtyMOtReceiver.splitSeeds, ran, bind, Except.bind, got0, got1, pure, Except.pure]
    · simp only [PrtyMOtSender.splitSeeds, ran', bind, Except.bind, got, pure, Except.pure]
      cases base.baseChoice.bit n <;> rfl
    · exact updateBoth (p := fun i pair one => one = select (base.baseChoice.bit i) pair) rfl
        fun i inside _ => chosen i inside
    · exact (Function.forall_update_iff _ fun i (pair : PRNG × PRNG) => i < base.count →
        pair.1.Keyed ∧ pair.2.Keyed).mpr ⟨fun _ => ⟨kept0, kept1⟩, fun i _ => keyed i⟩
    · exact updateBoth (p := fun i pair one => one = select (base.baseChoice.bit i) pair) rfl
        fun i inside other => same i (by omega)

end Split

def BaseOts.reseeded (base : BaseOts) (seeds : Nat → Block × Block) : BaseOts := { base with seeds }

theorem Agree.reseed {base : BaseOts} {r : PrtyMOtReceiver} {s : PrtyMOtSender} {seeds : Nat → Block × Block}
    (agree : Agree (base.reseeded seeds) r s) : Agree base r s :=
  { agree with }

theorem seedGensCongr (aes : Aes) {seeds seeds' : Vec Block} (choices : BitVector) (s : PrtyMOtSender)
    (size : seeds.size = seeds'.size) (same : ∀ i < seeds.size, seeds.get i = seeds'.get i) :
    s.seedGens aes seeds choices = s.seedGens aes seeds' choices := by
  unfold PrtyMOtSender.seedGens
  dsimp only
  congr 2
  funext i
  rw [← size]
  split
  · rename_i inside
    rw [same i inside]
  · rfl

theorem splitAgree (aes : Aes) {base : BaseOts} {r : PrtyMOtReceiver} {s : PrtyMOtSender} (agree : Agree base r s)
    (wide : base.count ≠ 0) :
    ∃ r' raw s' raw', r.split aes = .ok (r', raw) ∧ s.split aes = .ok (s', raw') ∧
      Agree base r' s' ∧ Agree base raw raw' ∧ r'.mStatSecParam = r.mStatSecParam ∧
      raw.mStatSecParam = r.mStatSecParam := by
  obtain ⟨drawn, base0, drawn', base1, ran, ran', size, size', sizeB, sizeB', chosen, keyed, same⟩ :=
    splitSeedsAgree agree.gens agree.keyed ⟨base.count, fun _ => (0#128, 0#128)⟩ ⟨base.count, fun _ => 0#128⟩
      (Nat.le_refl base.count)
  have hasBase : s.hasBaseOts = true := by
    unfold PrtyMOtSender.hasBaseOts
    rw [agree.choices]
    exact decide_eq_true wide
  have sent : base0 = (base.reseeded base0.get).baseSend := by
    cases base0
    cases sizeB
    rfl
  have received : s.splitRaw.seedGens aes base1 base.baseChoice =
      s.splitRaw.seedGens aes (base.reseeded base0.get).baseRecv base.baseChoice :=
    seedGensCongr aes _ _ sizeB' fun i inside => same i (by rw [sizeB'] at inside; exact inside)
  have raws : Agree (base.reseeded base0.get) (r.splitRaw.seedGens aes (base.reseeded base0.get).baseSend)
      (s.splitRaw.seedGens aes (base.reseeded base0.get).baseRecv base.baseChoice) :=
    seedGensAgree aes agree.receiverBytes agree.senderBytes agree.statSecParam agree.receiverSize agree.wholeBlocks
  refine ⟨{ r with mGens := drawn }, r.splitRaw.seedGens aes base0, { s with mGens := drawn' },
    s.splitRaw.seedGens aes base1 base.baseChoice, ?_, ?_, ?_, ?_, rfl, rfl⟩
  · have matching : base0.size = r.splitRaw.mGens.size := sizeB.trans agree.receiverSize.symm
    unfold PrtyMOtReceiver.split
    rw [if_pos agree.hasBase, agree.receiverSize, ran]
    simp only [bind, Except.bind, PrtyMOtReceiver.setBaseOtsOk aes matching, pure, Except.pure]
  · unfold PrtyMOtSender.split
    rw [if_pos hasBase, agree.senderSize, ran', agree.choices]
    simp only [bind, Except.bind, pure, Except.pure,
      PrtyMOtSender.setBaseOtsOk aes base.baseChoice s.splitRaw sizeB'.symm agree.wholeBlocks]
  · exact { agree with
      receiverSize := size.trans agree.receiverSize
      senderSize := size'.trans agree.senderSize
      gens := chosen
      keyed := keyed }
  · rw [received, sent]
    exact raws.reseed

/-- One call of a history. `split` goes on with the instance itself and `splitInto`
with the one it returns, so a list of calls reaches every instance of a tree of splits. -/
inductive Call where
  | init (numOtExt : Nat)
  | split
  | splitInto
  deriving DecidableEq, Repr

def PrtyMOtReceiver.call (aes : Aes) (r : PrtyMOtReceiver) : Call → Except Error PrtyMOtReceiver
  | .init numOtExt => r.init numOtExt
  | .split => do
    let (kept, _) ← r.split aes
    pure kept
  | .splitInto => do
    let (_, raw) ← r.split aes
    pure raw

def PrtyMOtSender.call (aes : Aes) (s : PrtyMOtSender) : Call → Except Error PrtyMOtSender
  | .init numOTExt => s.init numOTExt
  | .split => do
    let (kept, _) ← s.split aes
    pure kept
  | .splitInto => do
    let (_, raw) ← s.split aes
    pure raw

def PrtyMOtReceiver.callAll (aes : Aes) (r : PrtyMOtReceiver) : List Call → Except Error PrtyMOtReceiver
  | [] => .ok r
  | c :: calls => do
    let r ← r.call aes c
    r.callAll aes calls

def PrtyMOtSender.callAll (aes : Aes) (s : PrtyMOtSender) : List Call → Except Error PrtyMOtSender
  | [] => .ok s
  | c :: calls => do
    let s ← s.call aes c
    s.callAll aes calls

theorem callAgree (aes : Aes) {base : BaseOts} {r : PrtyMOtReceiver} {s : PrtyMOtSender} (agree : Agree base r s)
    (wide : base.count ≠ 0) (c : Call) :
    ∃ r' s', r.call aes c = .ok r' ∧ s.call aes c = .ok s' ∧ Agree base r' s' ∧
      r'.mStatSecParam = r.mStatSecParam := by
  cases c with
  | init numOtExt =>
    exact ⟨_, _, PrtyMOtReceiver.initOk agree.hasBase agree.receiverBytes numOtExt,
      PrtyMOtSender.initOk agree.senderBytes numOtExt, (expandPadsAgree agree wide numOtExt).1, rfl⟩
  | split =>
    obtain ⟨r', raw, s', raw', ran, ran', kept, -, stat, -⟩ := splitAgree aes agree wide
    refine ⟨r', s', ?_, ?_, kept, stat⟩
    · simp only [PrtyMOtReceiver.call, ran, bind, Except.bind, pure, Except.pure]
    · simp only [PrtyMOtSender.call, ran', bind, Except.bind, pure, Except.pure]
  | splitInto =>
    obtain ⟨r', raw, s', raw', ran, ran', -, fresh, -, stat⟩ := splitAgree aes agree wide
    refine ⟨raw, raw', ?_, ?_, fresh, stat⟩
    · simp only [PrtyMOtReceiver.call, ran, bind, Except.bind, pure, Except.pure]
    · simp only [PrtyMOtSender.call, ran', bind, Except.bind, pure, Except.pure]

theorem callAllAgree (aes : Aes) {base : BaseOts} {r : PrtyMOtReceiver} {s : PrtyMOtSender}
    (agree : Agree base r s) (wide : base.count ≠ 0) (calls : List Call) :
    ∃ r' s', r.callAll aes calls = .ok r' ∧ s.callAll aes calls = .ok s' ∧ Agree base r' s' ∧
      r'.mStatSecParam = r.mStatSecParam := by
  induction calls generalizing r s with
  | nil => exact ⟨r, s, rfl, rfl, agree, rfl⟩
  | cons c calls ih =>
    obtain ⟨r1, s1, called, called', agree1, stat1⟩ := callAgree aes agree wide c
    obtain ⟨r2, s2, ran, ran', agree2, stat2⟩ := ih agree1
    refine ⟨r2, s2, ?_, ?_, agree2, stat2.trans stat1⟩
    · rw [PrtyMOtReceiver.callAll, called]
      exact ran
    · rw [PrtyMOtSender.callAll, called']
      exact ran'

theorem rowsOfSize {m : Matrix} {n : Nat} (wide : 0 < m.mStride) (size : m.size = n * m.mStride) : m.rows = n := by
  have positive : m.mStride ≠ 0 := by omega
  rw [Matrix.rows, if_neg positive, size, Nat.mul_div_cancel _ wide]

theorem roundUpToExact {n : Nat} (small : n + 127 < 2 ^ 64) : roundUpTo n 128 = (n + 127) / 128 * 128 := by
  unfold roundUpTo
  rw [Nat.mod_eq_of_lt (by omega)]
  congr 2

section History
variable {inputBitCount : Nat} (width : Supported inputBitCount) (mx : Nat → Blocks)

theorem configuredReceiverSize (r : PrtyMOtReceiver) (malicious : Bool) (statSecParam : Nat) :
    (r.configure mx malicious statSecParam inputBitCount).mGens.size = width.stride * 128 := by
  simp only [PrtyMOtReceiver.configure, Vec.resize, width.loaded mx]
  exact (width.shape mx).generators

theorem Supported.bytes {inputBitCount : Nat} (width : Supported inputBitCount) :
    (inputBitCount + 7) % 2 ^ 64 / 8 ≠ 0 := by
  have positive := (width.shape fun _ _ => 0#128).positive
  rw [width.inputBytes]
  omega

theorem Supported.wide {inputBitCount : Nat} (width : Supported inputBitCount) : width.stride * 128 ≠ 0 := by
  have narrow := (width.shape fun _ _ => 0#128).narrow
  omega

/-- After every `init` of every history of `init` and `split` calls, on every
instance, both parties hold the same number of rows and related rows. -/
theorem historyRowsAgree (aes : Aes) (malicious : Bool) (statSecParam : Nat) (seeds : Nat → Block × Block)
    (choiceData : Bytes) (calls : List Call) (numOtExt : Nat) :
    let base : BaseOts := ⟨width.stride * 128, seeds, choiceData⟩
    let rows := roundUpTo (numOtExt + statSecParam) 128
    ∃ r0 s0 r1 s1 r s,
      (PrtyMOtReceiver.new.configure mx malicious statSecParam inputBitCount).setBaseOts aes base.baseSend = .ok r0 ∧
      (PrtyMOtSender.new.configure mx malicious statSecParam inputBitCount).setBaseOts aes base.baseRecv
        base.baseChoice = .ok s0 ∧
      r0.callAll aes calls = .ok r1 ∧ s0.callAll aes calls = .ok s1 ∧
      r1.init numOtExt = .ok r ∧ s1.init numOtExt = .ok s ∧
      r.mT0.rows = rows ∧ r.mT1.rows = rows ∧ s.mT.rows = rows ∧
      (numOtExt + statSecParam + 127 < 2 ^ 64 → rows = (numOtExt + statSecParam + 127) / 128 * 128) ∧
      ∀ row < rows, ∀ j < width.stride, s.mT.read row j =
        r.mT0.read row j ^^^ ((r.mT0.read row j ^^^ r.mT1.read row j) &&& s.mChoiceBlks.get j) := by
  intro base rows
  have size := configuredReceiverSize width mx PrtyMOtReceiver.new malicious statSecParam
  have bytes := width.bytes
  have wide := width.wide
  have agree0 : Agree base _ _ := seedGensAgree aes
    (r := PrtyMOtReceiver.new.configure mx malicious statSecParam inputBitCount)
    (s := PrtyMOtSender.new.configure mx malicious statSecParam inputBitCount)
    bytes bytes rfl size (Nat.mul_mod_left _ _)
  obtain ⟨r1, s1, ran, ran', agree1, stat⟩ := callAllAgree aes agree0 wide calls
  obtain ⟨-, done⟩ := expandPadsAgree agree1 wide numOtExt
  have count : r1.rowCount numOtExt = rows := by
    unfold PrtyMOtReceiver.rowCount
    rw [stat]
    rfl
  have stride : base.count / 128 = width.stride := Nat.mul_div_cancel _ (by omega)
  have positive : 0 < width.stride := by omega
  rw [count] at done
  refine ⟨_, _, r1, s1, r1.expandPads numOtExt, s1.expandPads numOtExt,
    PrtyMOtReceiver.setBaseOtsOk aes size.symm, PrtyMOtSender.setBaseOtsOk aes _ _ rfl (Nat.mul_mod_left _ _),
    ran, ran', PrtyMOtReceiver.initOk agree1.hasBase agree1.receiverBytes numOtExt,
    PrtyMOtSender.initOk agree1.senderBytes numOtExt, ?_, ?_, ?_, fun small => roundUpToExact small, ?_⟩
  · exact rowsOfSize (by rw [done.t0Stride, stride]; exact positive) (by rw [done.t0Size, done.t0Stride])
  · exact rowsOfSize (by rw [done.t1Stride, stride]; exact positive) (by rw [done.t1Size, done.t1Stride])
  · exact rowsOfSize (by rw [done.tStride, stride]; exact positive) (by rw [done.tSize, done.tStride])
  · intro row below j inside
    have related := done.relation row below j (by rw [stride]; exact inside)
    simp only [PrtyMOtReceiver.t0, PrtyMOtReceiver.t1, PrtyMOtSender.t] at related
    simp only [Matrix.read, done.t1Stride]
    rw [done.t0Stride] at related ⊢
    exact related

end History
end PaxosPsi
