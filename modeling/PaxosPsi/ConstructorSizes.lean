import PaxosPsi.Masking
import PaxosPsi.Setup

/-! The sizes and offsets that the constructor, the dictionary and `recvCorrection` compute
in 32 bits. -/
namespace PaxosPsi
open Memory

structure Sizes where
  hashSize : CInt
  fieldSizeBytes : CInt
  tableRealSize : CInt
  numOTs : CInt
  cacheSize : CInt
  vars : Nat
  sign : Nat
  keys : Nat
  vals : Nat

/-- `bucketCount` gives `bucket_count()` of a set made for so many elements. -/
def constructSizes (bucketCount : Nat → Nat) (hashSize : CInt) (fieldSize : Nat) : Except Error Sizes := do
  let fieldSizeBytes : CInt := BitVec.ofNat 32 (fieldSizeBytes fieldSize)
  let gamma : CInt := 60
  let tableRealSize : CInt := BitVec.ofNat 32 (bucketCount (hashSize.toNat * 6 / 5))
  let vars ← vectorSize (2 * tableRealSize + gamma)
  let sign ← vectorSize (2 * tableRealSize)
  let numOTs := tableRealSize * 2 + gamma
  let keys ← vectorSize hashSize
  let vals ← vectorSize (hashSize * fieldSizeBytes)
  let cacheSize := hashSize * fieldSizeBytes * 2
  pure { hashSize, fieldSizeBytes, tableRealSize, numOTs, cacheSize, vars, sign, keys, vals }

namespace Sizes
variable (z : Sizes)

def lastByte (i : Nat) : CInt := (BitVec.ofNat 32 i + 1) * z.fieldSizeBytes - 1

def offset (i : Nat) : CInt := BitVec.ofNat 32 i * z.fieldSizeBytes

/-- `sigma.resize(variables.size()*fieldSizeBytes)`, computed in `size_t`. -/
def sigma : Nat := z.vars * z.fieldSizeBytes.toNat % 2 ^ 64

end Sizes

structure SizesExact (fieldSize buckets : Nat) (z : Sizes) : Prop where
  tableRealSize : z.tableRealSize.toInt = buckets
  vars : z.vars = 2 * buckets + 60
  numOTs : z.numOTs.toInt = 2 * buckets + 60
  vals : z.vals = z.hashSize.toNat * fieldSizeBytes fieldSize
  cacheSize : z.cacheSize.toInt = z.hashSize.toNat * fieldSizeBytes fieldSize * 2
  lastByte : ∀ i < z.hashSize.toNat, (z.lastByte i).toInt = (i + 1) * fieldSizeBytes fieldSize - 1 ∧
    (z.lastByte i).toInt < z.vals
  item : ∀ i < z.hashSize.toNat, (z.offset i).toInt = i * fieldSizeBytes fieldSize ∧
    (z.offset i).toInt + fieldSizeBytes fieldSize ≤ z.vals
  variableOffset : ∀ i < z.vars, (z.offset i).toInt = i * fieldSizeBytes fieldSize ∧
    (z.offset i).toInt + fieldSizeBytes fieldSize ≤ z.sigma
  correction : ∀ (u : Setup fieldSize) (s0 s : PrtyMOtSender), u.statSecParam = 40 →
    s = u.startedSender (z.numOTs.signExtend 64).toNat s0 → ∀ mCorrectionIdx < (z.numOTs.signExtend 64).toNat,
      ({ s with mCorrectionIdx } : PrtyMOtSender).correctionDest = mCorrectionIdx * u.width.stride ∧
      ({ s with mCorrectionIdx } : PrtyMOtSender).correctionDest + u.width.stride ≤ s.mCorrectionVals.size

section Exactness
variable {fieldSize : Nat} {bucketCount : Nat → Nat} {hashSize : CInt} {z : Sizes}

def sizesOf (bucketCount : Nat → Nat) (hashSize : CInt) (fieldSize : Nat) : Sizes :=
  let bytes : CInt := BitVec.ofNat 32 (fieldSizeBytes fieldSize)
  let tableRealSize : CInt := BitVec.ofNat 32 (bucketCount (hashSize.toNat * 6 / 5))
  { hashSize, tableRealSize
    fieldSizeBytes := bytes
    numOTs := tableRealSize * 2 + 60
    cacheSize := hashSize * bytes * 2
    vars := (2 * tableRealSize + 60).toNat
    sign := (2 * tableRealSize).toNat
    keys := hashSize.toNat
    vals := (hashSize * bytes).toNat }

theorem constructed (ran : constructSizes bucketCount hashSize fieldSize = .ok z) :
    z = sizesOf bucketCount hashSize fieldSize := by
  unfold constructSizes at ran
  simp only [bind, Except.bind, pure, Except.pure] at ran
  split at ran
  · cases ran
  rename_i vars madeVars
  split at ran
  · cases ran
  rename_i sign madeSign
  split at ran
  · cases ran
  rename_i keys madeKeys
  split at ran
  · cases ran
  rename_i vals madeVals
  obtain ⟨rfl, -⟩ := vectorSizeOk madeVars
  obtain ⟨rfl, -⟩ := vectorSizeOk madeSign
  obtain ⟨rfl, -⟩ := vectorSizeOk madeKeys
  obtain ⟨rfl, -⟩ := vectorSizeOk madeVals
  exact (Except.ok.inj ran).symm

theorem intSmall {n : CInt} {a : Nat} (value : n.toInt = a) : a < 2 ^ 31 := by
  have bound := BitVec.toInt_lt (x := n)
  omega

theorem fieldSizeBytesCeil (n : Nat) : fieldSizeBytes n = (n + 7) / 8 := by
  unfold fieldSizeBytes
  split <;> omega

theorem lastByteExact {bytes i : Nat} (wide : 0 < bytes) (small : (i + 1) * bytes < 2 ^ 31)
    (fields : z.fieldSizeBytes = BitVec.ofNat 32 bytes) : (z.lastByte i).toInt = (i + 1) * bytes - 1 := by
  have positive : 1 ≤ (i + 1) * bytes := Nat.mul_pos (Nat.succ_pos i) wide
  unfold Sizes.lastByte
  rw [fields, lastByteValue wide, (intExact (by omega)).1, Nat.cast_sub positive]
  push_cast
  rfl

theorem offsetExact {bytes i : Nat} (small : i * bytes < 2 ^ 31)
    (fields : z.fieldSizeBytes = BitVec.ofNat 32 bytes) : (z.offset i).toInt = i * bytes := by
  unfold Sizes.offset
  rw [fields, ← BitVec.ofNat_mul, (intExact small).1]
  exact Nat.cast_mul i bytes

theorem correctionExact (u : Setup fieldSize) (s0 : PrtyMOtSender) {numOTs mCorrectionIdx : Nat}
    (small : numOTs * u.width.stride < 2 ^ 31) (param : u.statSecParam = 40) (inside : mCorrectionIdx < numOTs) :
    ({ u.startedSender numOTs s0 with mCorrectionIdx } : PrtyMOtSender).correctionDest =
        mCorrectionIdx * u.width.stride ∧
      ({ u.startedSender numOTs s0 with mCorrectionIdx } : PrtyMOtSender).correctionDest + u.width.stride ≤
        (u.startedSender numOTs s0).mCorrectionVals.size := by
  have wide := u.stridePositive
  have size := u.configuredSenderSize s0
  have columns : ((u.configuredSender s0).seedGens u.aes u.base.baseRecv u.base.baseChoice).mGens.size / 128 =
      u.width.stride := Nat.mul_div_cancel _ (by omega)
  have few : numOTs < 2 ^ 31 := Nat.lt_of_le_of_lt (Nat.le_mul_of_pos_right _ wide) small
  have rows : numOTs ≤ ((u.configuredSender s0).seedGens u.aes u.base.baseRecv u.base.baseChoice).rowCount numOTs := by
    change numOTs ≤ (numOTs + 127 + u.statSecParam) % 2 ^ 64 / 128 * 128
    rw [Nat.mod_eq_of_lt (by omega), param]
    omega
  have edge := Nat.mul_le_mul_right u.width.stride (show mCorrectionIdx + 1 ≤ numOTs from inside)
  have buffer := Nat.mul_le_mul_right u.width.stride rows
  have stride : (u.startedSender numOTs s0).mCorrectionVals.mStride = u.width.stride := by
    unfold Setup.startedSender PrtyMOtSender.expandPads
    rw [Matrix.resizeStride, columns]
  have allocated : (u.startedSender numOTs s0).mCorrectionVals.size = ((u.configuredSender s0).seedGens u.aes
      u.base.baseRecv u.base.baseChoice).rowCount numOTs * u.width.stride := by
    unfold Setup.startedSender PrtyMOtSender.expandPads
    rw [Matrix.resizeSize, columns]
  rw [Nat.succ_mul] at edge
  have dest : ({ u.startedSender numOTs s0 with mCorrectionIdx } : PrtyMOtSender).correctionDest =
      ((mCorrectionIdx * u.width.stride : Nat) : Int) := by
    unfold PrtyMOtSender.correctionDest
    dsimp only
    rw [stride]
    exact i32Small (by omega)
  rw [dest, allocated]
  exact ⟨Nat.cast_mul _ _, by omega⟩

theorem sizesOfExact {buckets : Nat} (made : bucketCount (hashSize.toNat * 6 / 5) = buckets)
    (few : hashSize.toNat ≤ buckets) (wide : 9 ≤ fieldSizeBytes fieldSize)
    (small : (2 * buckets + 59) * fieldSizeBytes fieldSize < 2 ^ 31) :
    (sizesOf bucketCount hashSize fieldSize).tableRealSize = BitVec.ofNat 32 buckets ∧
      (sizesOf bucketCount hashSize fieldSize).vars = 2 * buckets + 60 ∧
      (sizesOf bucketCount hashSize fieldSize).numOTs = BitVec.ofNat 32 (2 * buckets + 60) ∧
      (sizesOf bucketCount hashSize fieldSize).vals = hashSize.toNat * fieldSizeBytes fieldSize ∧
      (sizesOf bucketCount hashSize fieldSize).cacheSize =
        BitVec.ofNat 32 (hashSize.toNat * fieldSizeBytes fieldSize * 2) := by
  have rows : (2 * buckets + 59) * 9 ≤ (2 * buckets + 59) * fieldSizeBytes fieldSize := Nat.mul_le_mul_left _ wide
  have items : hashSize.toNat * fieldSizeBytes fieldSize ≤ (2 * buckets + 59) * fieldSizeBytes fieldSize :=
    Nat.mul_le_mul_right _ (by omega)
  have back : hashSize = BitVec.ofNat 32 hashSize.toNat := by simp
  have product : hashSize * BitVec.ofNat 32 (fieldSizeBytes fieldSize) =
      BitVec.ofNat 32 (hashSize.toNat * fieldSizeBytes fieldSize) := by
    rw [BitVec.ofNat_mul, ← back]
  have sum : 2 * BitVec.ofNat 32 buckets + 60 = BitVec.ofNat 32 (2 * buckets + 60) := by
    rw [BitVec.ofNat_add, BitVec.ofNat_mul]
    rfl
  refine ⟨?_, ?_, ?_, ?_, ?_⟩ <;> unfold sizesOf <;> dsimp only
  · rw [made]
  · rw [made, sum]
    exact (intExact (by omega)).2
  · rw [made, BitVec.mul_comm]
    exact sum
  · rw [product]
    exact (intExact (by omega)).2
  · rw [product]
    exact (BitVec.ofNat_mul _ 2).symm

/-- All of them are exact as long as the last variable's offset is. -/
theorem sizesExactIff (width : Supported fieldSize) (atLeast : ∀ n, n ≤ bucketCount n)
    (ran : constructSizes bucketCount hashSize fieldSize = .ok z) :
    SizesExact fieldSize (bucketCount (hashSize.toNat * 6 / 5)) z ↔
      (2 * bucketCount (hashSize.toNat * 6 / 5) + 59) * fieldSizeBytes fieldSize < 2 ^ 31 := by
  obtain rfl := constructed ran
  constructor
  · intro exactly
    have last := (exactly.variableOffset (2 * bucketCount (hashSize.toNat * 6 / 5) + 59)
      (by rw [exactly.vars]; omega)).1
    exact intSmall (by rw [last]; push_cast; rfl)
  · intro small
    have shape := width.shape fun _ _ => 0#128
    have wide : 9 ≤ fieldSizeBytes fieldSize := by
      have narrow := shape.narrow
      have itemBytes := shape.itemBytes
      rw [fieldSizeBytesCeil]
      omega
    obtain ⟨buckets, made⟩ : ∃ buckets, bucketCount (hashSize.toNat * 6 / 5) = buckets := ⟨_, rfl⟩
    have few : hashSize.toNat ≤ buckets := by
      have enough := atLeast (hashSize.toNat * 6 / 5)
      omega
    rw [made] at small ⊢
    have rows : (2 * buckets + 59) * 9 ≤ (2 * buckets + 59) * fieldSizeBytes fieldSize := Nat.mul_le_mul_left _ wide
    obtain ⟨table, vars, numOTs, vals, cache⟩ := sizesOfExact made few wide small
    have bytes : (sizesOf bucketCount hashSize fieldSize).fieldSizeBytes =
      BitVec.ofNat 32 (fieldSizeBytes fieldSize) := rfl
    have kept : (sizesOf bucketCount hashSize fieldSize).hashSize = hashSize := rfl
    have extended : ((sizesOf bucketCount hashSize fieldSize).numOTs.signExtend 64).toNat = 2 * buckets + 60 := by
      rw [numOTs, BitVec.toNat_signExtend, BitVec.toNat_setWidth, (intExact (by omega)).2,
        BitVec.msb_eq_false_iff_two_mul_lt.mpr (by rw [(intExact (by omega)).2]; omega)]
      simp
      omega
    have within : ∀ i n, i < n → n ≤ 2 * buckets + 60 → i * fieldSizeBytes fieldSize < 2 ^ 31 ∧
        (i + 1) * fieldSizeBytes fieldSize ≤ n * fieldSizeBytes fieldSize := by
      intro i n inside bound
      have below := Nat.mul_le_mul_right (fieldSizeBytes fieldSize) (show i ≤ 2 * buckets + 59 by omega)
      exact ⟨by omega, Nat.mul_le_mul_right _ inside⟩
    have thin : fieldSizeBytes fieldSize ≤ (2 * buckets + 59) * fieldSizeBytes fieldSize :=
      Nat.le_mul_of_pos_left _ (by omega)
    have whole : (2 * buckets + 60) * fieldSizeBytes fieldSize =
        (2 * buckets + 59) * fieldSizeBytes fieldSize + fieldSizeBytes fieldSize := Nat.succ_mul _ _
    have items : hashSize.toNat * fieldSizeBytes fieldSize * 2 ≤ (2 * buckets + 59) * fieldSizeBytes fieldSize := by
      rw [Nat.mul_right_comm]
      exact Nat.mul_le_mul_right _ (by omega)
    refine ⟨?_, vars, ?_, vals, ?_, fun i inside => ?_, fun i inside => ?_, fun i inside => ?_, ?_⟩
    · rw [table]
      exact (intExact (by omega)).1
    · rw [numOTs, (intExact (by omega)).1]
      push_cast
      rfl
    · rw [cache, kept, (intExact (by omega)).1]
      push_cast
      rfl
    · obtain ⟨-, edge⟩ := within i hashSize.toNat inside (by omega)
      rw [lastByteExact (by omega) (by omega) bytes, vals]
      refine ⟨rfl, ?_⟩
      zify at edge
      omega
    · obtain ⟨fits, edge⟩ := within i hashSize.toNat inside (by omega)
      rw [offsetExact fits bytes, vals]
      refine ⟨rfl, ?_⟩
      rw [Nat.succ_mul] at edge
      zify at edge
      exact edge
    · rw [vars] at inside
      obtain ⟨fits, edge⟩ := within i (2 * buckets + 60) inside (Nat.le_refl _)
      -- `sigma` is sized in `size_t`, one value past the last offset
      have sigma : (sizesOf bucketCount hashSize fieldSize).sigma = (2 * buckets + 60) * fieldSizeBytes fieldSize := by
        unfold Sizes.sigma
        rw [vars, bytes, (intExact (by omega)).2]
        exact Nat.mod_eq_of_lt (by omega)
      rw [offsetExact fits bytes, sigma]
      refine ⟨rfl, ?_⟩
      rw [Nat.succ_mul] at edge
      zify at edge
      exact edge
    · rintro u s0 s param rfl mCorrectionIdx inside
      rw [extended] at inside ⊢
      have itemBytes := (u.width.shape fun _ _ => 0#128).itemBytes
      rw [← fieldSizeBytesCeil] at itemBytes
      have scaled := Nat.mul_le_mul_left (2 * buckets + 60) itemBytes
      rw [Nat.mul_left_comm, Nat.mul_left_comm _ 4] at scaled
      exact correctionExact u s0 (by omega) param inside

end Exactness

section Buckets

/-- Two primes of the library's table: the next ones after 4 and after 120000000. -/
def nextBuckets (n : Nat) : Nat := if n ≤ 5 then 5 else if n ≤ 128499677 then 128499677 else n

theorem nextBucketsAtLeast (n : Nat) : n ≤ nextBuckets n := by
  unfold nextBuckets
  split
  · assumption
  · split <;> omega

theorem fourItemsExact : constructSizes nextBuckets 4 65 = .ok (sizesOf nextBuckets 4 65) ∧
    SizesExact 65 5 (sizesOf nextBuckets 4 65) := by
  have ran : constructSizes nextBuckets 4 65 = .ok (sizesOf nextBuckets 4 65) := rfl
  exact ⟨ran, (sizesExactIff Supported.semiHonest nextBucketsAtLeast ran).mpr (by decide)⟩

/-- Hundred million items of 65 bits: the last variables lie before the buffer they are written to. -/
theorem variableOffsetWraps : ∃ z, constructSizes nextBuckets 100000000 65 = .ok z ∧ 256999413 < z.vars ∧
    (z.offset 256999413).toInt = -1981972579 ∧ ¬ SizesExact 65 (nextBuckets 120000000) z := by
  have negative : ((sizesOf nextBuckets 100000000 65).offset 256999413).toInt = -1981972579 := by decide
  refine ⟨sizesOf nextBuckets 100000000 65, rfl, by decide, negative, fun exactly => ?_⟩
  obtain ⟨value, -⟩ := exactly.variableOffset 256999413 (by decide)
  rw [negative] at value
  exact absurd value (by decide)

end Buckets
end PaxosPsi
