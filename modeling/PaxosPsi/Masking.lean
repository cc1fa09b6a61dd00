import PaxosPsi.IntOffsets

/-! The values `ProtocolParty` draws and masks: `hashSize` values of `fieldSizeBytes`
bytes each, whose last byte is shifted right so that no padding bit is set. The sizes and
offsets are `int` products; `maskVals` is what is left of the loop where they fit. -/
namespace PaxosPsi
open CountedLoop XorAlgebra Memory

def fieldSizeBytes (fieldSize : Nat) : Nat := if fieldSize % 8 = 0 then fieldSize / 8 else fieldSize / 8 + 1

def zeroBits (fieldSize : Nat) : Nat := 8 - fieldSize % 8

def maskValue (fieldSize i : Nat) (vals : Bytes) : Bytes :=
  Function.update vals ((i + 1) * fieldSizeBytes fieldSize - 1)
    (vals ((i + 1) * fieldSizeBytes fieldSize - 1) >>> zeroBits fieldSize)

/-- The masking loop, for `hashSize * fieldSizeBytes < 2 ^ 31`. -/
def maskVals (fieldSize hashSize : Nat) (vals : Bytes) : Bytes := forLoop hashSize (maskValue fieldSize) vals

def maskLast (fieldSize i : Nat) (vals : Vec Byte) : Except Stop (Vec Byte) := do
  let last ← within ((BitVec.ofNat 32 i + 1) * BitVec.ofNat 32 (fieldSizeBytes fieldSize) - 1) 1 vals.size
  pure ⟨vals.size, Function.update vals.get last (vals.get last >>> zeroBits fieldSize)⟩

/-- `vals` of the constructor, with the `int` arithmetic that sizes and indexes it. -/
def constructVals (fieldSize hashSize : Nat) (prg : Bytes) : Except Stop (Vec Byte) := do
  let size ← (vectorSize (BitVec.ofNat 32 hashSize * BitVec.ofNat 32 (fieldSizeBytes fieldSize))).mapError Stop.threw
  forLoopM hashSize (maskLast fieldSize) ⟨size, prg⟩

def fromPrg {length : Nat} (bytes : Fin length → Byte) : Bytes :=
  fun i => if inside : i < length then bytes ⟨i, inside⟩ else 0#8

def valueAt (size : Nat) (vals : Bytes) (i : Nat) : BitVec (8 * size) :=
  BitVec.ofFnLE fun t : Fin (8 * size) => (vals (i * size + t / 8)).getLsbD (t % 8)

theorem fieldSizeBytesBounds {fieldSize : Nat} (positive : 0 < fieldSize) :
    0 < fieldSizeBytes fieldSize ∧ fieldSize ≤ 8 * fieldSizeBytes fieldSize ∧
      8 * (fieldSizeBytes fieldSize - 1) < fieldSize := by
  unfold fieldSizeBytes
  split <;> omega

theorem constructValsExact {fieldSize hashSize : Nat} (positive : 0 < fieldSize)
    (small : hashSize * fieldSizeBytes fieldSize < 2 ^ 31) (prg : Bytes) :
    constructVals fieldSize hashSize prg =
      .ok ⟨hashSize * fieldSizeBytes fieldSize, maskVals fieldSize hashSize prg⟩ := by
  obtain ⟨wide, -, -⟩ := fieldSizeBytesBounds positive
  unfold constructVals
  rw [← BitVec.ofNat_mul, vectorSizeExact small]
  obtain ⟨vals, ran, rfl⟩ := forLoopMInvariant (n := hashSize) (f := maskLast fieldSize)
    (s := ⟨hashSize * fieldSizeBytes fieldSize, prg⟩)
    (fun i vals => vals = ⟨hashSize * fieldSizeBytes fieldSize, forLoop i (maskValue fieldSize) prg⟩) rfl (by
      rintro i vals inside rfl
      have row := Nat.mul_le_mul_right (fieldSizeBytes fieldSize) (show i + 1 ≤ hashSize from inside)
      have own : fieldSizeBytes fieldSize ≤ (i + 1) * fieldSizeBytes fieldSize := Nat.le_mul_of_pos_left _ (Nat.succ_pos i)
      unfold maskLast
      rw [lastByteValue wide, withinExact (by omega) (by dsimp only; omega)]
      exact ⟨_, rfl, rfl⟩)
  exact ran

theorem constructValsSize {fieldSize hashSize : Nat} {prg : Bytes} {vals : Vec Byte}
    (ran : constructVals fieldSize hashSize prg = .ok vals) : vals.size < 2 ^ 31 := by
  unfold constructVals at ran
  cases made : vectorSize (BitVec.ofNat 32 hashSize * BitVec.ofNat 32 (fieldSizeBytes fieldSize)) with
  | error e => rw [made] at ran; cases ran
  | ok size =>
    rw [made] at ran
    refine (forLoopMRan (fun vals : Vec Byte => vals.size < 2 ^ 31) (vectorSizeOk made).2 ?_ ran).1
    intro i t t' before stepped
    unfold maskLast at stepped
    cases start : within ((BitVec.ofNat 32 i + 1) * BitVec.ofNat 32 (fieldSizeBytes fieldSize) - 1) 1 t.size with
    | error e => rw [start] at stepped; cases stepped
    | ok last =>
      rw [start] at stepped
      cases stepped
      exact before

theorem maskValsByte {fieldSize hashSize i j : Nat} (positive : 0 < fieldSize) (inside : i < hashSize)
    (byte : j < fieldSizeBytes fieldSize) (vals : Bytes) :
    maskVals fieldSize hashSize vals (i * fieldSizeBytes fieldSize + j) =
      if j = fieldSizeBytes fieldSize - 1 then
        vals (i * fieldSizeBytes fieldSize + j) >>> zeroBits fieldSize
      else vals (i * fieldSizeBytes fieldSize + j) := by
  have wide := (fieldSizeBytesBounds positive).1
  have upTo : ∀ m, forLoop m (maskValue fieldSize) vals (i * fieldSizeBytes fieldSize + j) =
      if i < m ∧ j = fieldSizeBytes fieldSize - 1 then
        vals (i * fieldSizeBytes fieldSize + j) >>> zeroBits fieldSize
      else vals (i * fieldSizeBytes fieldSize + j) := by
    intro m
    induction m with
    | zero => simp
    | succ m ih =>
      have edge : (m + 1) * fieldSizeBytes fieldSize - 1 =
          m * fieldSizeBytes fieldSize + (fieldSizeBytes fieldSize - 1) := by
        rw [Nat.succ_mul]
        omega
      rw [forLoopSucc, maskValue, edge]
      by_cases here : i * fieldSizeBytes fieldSize + j =
          m * fieldSizeBytes fieldSize + (fieldSizeBytes fieldSize - 1)
      · obtain ⟨rfl, last⟩ := offsetInjective byte (by omega) here
        rw [← here, Function.update_self, ih, if_neg (by omega), if_pos ⟨by omega, last⟩]
      · have other : ¬ (i = m ∧ j = fieldSizeBytes fieldSize - 1) := by
          rintro ⟨rfl, rfl⟩
          exact here rfl
        rw [Function.update_of_ne here, ih]
        congr 1
        exact propext (by omega)
  refine (upTo hashSize).trans ?_
  congr 1
  exact propext ⟨fun both => both.2, fun last => ⟨inside, last⟩⟩

theorem valueAtBit (size : Nat) (vals : Bytes) (i : Nat) {t : Nat} (inside : t < 8 * size) :
    (valueAt size vals i).getLsbD t = (vals (i * size + t / 8)).getLsbD (t % 8) := by
  simp [valueAt, inside]

section Values
variable {n hashSize i : Nat} (positive : 0 < n) (inside : i < hashSize) (vals : Bytes)
include positive inside

theorem maskedBit {t : Nat} (bit : t < 8 * fieldSizeBytes n) :
    (valueAt (fieldSizeBytes n) (maskVals n hashSize vals) i).getLsbD t =
      if t / 8 = fieldSizeBytes n - 1 then
        decide (t % 8 + zeroBits n < 8) && (valueAt (fieldSizeBytes n) vals i).getLsbD (t + zeroBits n)
      else (valueAt (fieldSizeBytes n) vals i).getLsbD t := by
  have byte : t / 8 < fieldSizeBytes n := by omega
  rw [valueAtBit _ _ _ bit, maskValsByte positive inside byte]
  split
  · rw [BitVec.getLsbD_ushiftRight, Nat.add_comm (zeroBits n)]
    by_cases shifted : t % 8 + zeroBits n < 8
    · have sameByte : (t + zeroBits n) / 8 = t / 8 := by omega
      have sameBit : (t + zeroBits n) % 8 = t % 8 + zeroBits n := by omega
      rw [decide_eq_true shifted, Bool.true_and, valueAtBit _ _ _ (by omega), sameByte, sameBit]
    · rw [decide_eq_false shifted, Bool.false_and]
      exact BitVec.getLsbD_of_ge _ _ (by omega)
  · rw [valueAtBit _ _ _ bit]

theorem maskedPadding {t : Nat} (padding : n ≤ t) :
    (valueAt (fieldSizeBytes n) (maskVals n hashSize vals) i).getLsbD t = false := by
  obtain ⟨-, fits, last⟩ := fieldSizeBytesBounds positive
  by_cases bit : t < 8 * fieldSizeBytes n
  · have lost : ¬ t % 8 + zeroBits n < 8 := by
      unfold zeroBits
      omega
    rw [maskedBit positive inside vals bit, if_pos (by omega), decide_eq_false lost, Bool.false_and]
  · exact BitVec.getLsbD_of_ge _ _ (by omega)

theorem maskedSmall : (valueAt (fieldSizeBytes n) (maskVals n hashSize vals) i).toNat < 2 ^ n := by
  apply Nat.lt_pow_two_of_testBit
  intro t padding
  rw [BitVec.testBit_toNat]
  exact maskedPadding positive inside vals padding

end Values

section Padding
variable {n hashSize : Nat}

def paddedBit (v : BitVec n) (dropped : Fin (zeroBits n) → Bool) (t : Nat) : Bool :=
  if t < 8 * (fieldSizeBytes n - 1) then v.getLsbD t
  else if lost : t - 8 * (fieldSizeBytes n - 1) < zeroBits n then dropped ⟨_, lost⟩
  else v.getLsbD (t - zeroBits n)

def padded (v : Fin hashSize → BitVec n) (dropped : Fin hashSize → Fin (zeroBits n) → Bool) :
    Fin (hashSize * fieldSizeBytes n) → Byte := fun x =>
  have item : x.val / fieldSizeBytes n < hashSize := Nat.div_lt_of_lt_mul (Nat.lt_of_lt_of_eq x.isLt (Nat.mul_comm _ _))
  BitVec.ofFnLE fun k : Fin 8 => paddedBit (v ⟨_, item⟩) (dropped ⟨_, item⟩) (8 * (x.val % fieldSizeBytes n) + k)

theorem paddedValue (v : Fin hashSize → BitVec n) (dropped : Fin hashSize → Fin (zeroBits n) → Bool)
    (i : Fin hashSize) {t : Nat} (bit : t < 8 * fieldSizeBytes n) :
    (valueAt (fieldSizeBytes n) (fromPrg (padded v dropped)) i).getLsbD t = paddedBit (v i) (dropped i) t := by
  have byte : t / 8 < fieldSizeBytes n := by omega
  have reached : i.val * fieldSizeBytes n + t / 8 < hashSize * fieldSizeBytes n := by
    have rows := Nat.mul_le_mul_right (fieldSizeBytes n) (show i.val + 1 ≤ hashSize from i.isLt)
    rw [Nat.succ_mul] at rows
    omega
  have item : (i.val * fieldSizeBytes n + t / 8) / fieldSizeBytes n = i.val := by
    rw [Nat.mul_comm, Nat.mul_add_div (by omega), Nat.div_eq_of_lt byte, Nat.add_zero]
  have offset : (i.val * fieldSizeBytes n + t / 8) % fieldSizeBytes n = t / 8 := by
    rw [Nat.mul_comm, Nat.mul_add_mod, Nat.mod_eq_of_lt byte]
  have whole : 8 * (t / 8) + t % 8 = t := by omega
  have small : t % 8 < 8 := by omega
  rw [valueAtBit _ _ _ bit]
  simp [fromPrg, reached, padded, small, item, offset, whole]

theorem paddingBits (partialByte : n % 8 ≠ 0) : zeroBits n + n = 8 * fieldSizeBytes n ∧ zeroBits n < 8 := by
  unfold zeroBits fieldSizeBytes
  rw [if_neg partialByte]
  omega

variable (positive : 0 < n)
include positive

theorem paddedMasks (partialByte : n % 8 ≠ 0) (v : Fin hashSize → BitVec n)
    (dropped : Fin hashSize → Fin (zeroBits n) → Bool) (i : Fin hashSize) :
    (valueAt (fieldSizeBytes n) (maskVals n hashSize (fromPrg (padded v dropped))) i).toNat = (v i).toNat := by
  obtain ⟨-, -, last⟩ := fieldSizeBytesBounds positive
  obtain ⟨padding, few⟩ := paddingBits partialByte
  apply Nat.eq_of_testBit_eq
  intro t
  rw [BitVec.testBit_toNat, BitVec.testBit_toNat]
  by_cases bit : t < n
  · rw [maskedBit positive i.isLt _ (by omega)]
    by_cases final : t / 8 = fieldSizeBytes n - 1
    · have kept : t % 8 + zeroBits n < 8 := by omega
      rw [if_pos final, decide_eq_true kept, Bool.true_and, paddedValue v dropped i (by omega), paddedBit,
        if_neg (by omega), dif_neg (by omega), Nat.add_sub_cancel]
    · rw [if_neg final, paddedValue v dropped i (by omega), paddedBit, if_pos (by omega)]
  · rw [maskedPadding positive i.isLt _ (by omega)]
    exact (BitVec.getLsbD_of_ge _ _ (by omega)).symm

theorem paddedDropped (partialByte : n % 8 ≠ 0) (v : Fin hashSize → BitVec n)
    (dropped : Fin hashSize → Fin (zeroBits n) → Bool) (i : Fin hashSize) (k : Fin (zeroBits n)) :
    (valueAt (fieldSizeBytes n) (fromPrg (padded v dropped)) i).getLsbD (8 * (fieldSizeBytes n - 1) + k) =
      dropped i k := by
  obtain ⟨wide, -, -⟩ := fieldSizeBytesBounds positive
  obtain ⟨-, few⟩ := paddingBits partialByte
  have bound := k.isLt
  rw [paddedValue v dropped i (by omega), paddedBit, if_neg (by omega), dif_pos (by omega)]
  simp only [Nat.add_sub_cancel_left]

theorem paddedOf (partialByte : n % 8 ≠ 0) {v : Fin hashSize → BitVec n}
    {prg : Fin (hashSize * fieldSizeBytes n) → Byte} (values : ∀ i : Fin hashSize,
      (valueAt (fieldSizeBytes n) (maskVals n hashSize (fromPrg prg)) i).toNat = (v i).toNat) :
    (padded v fun i k =>
      (valueAt (fieldSizeBytes n) (fromPrg prg) i).getLsbD (8 * (fieldSizeBytes n - 1) + k)) = prg := by
  obtain ⟨wide, -, last⟩ := fieldSizeBytesBounds positive
  obtain ⟨padding, few⟩ := paddingBits partialByte
  funext x
  apply BitVec.eq_of_getLsbD_eq
  intro k small
  have item : x.val / fieldSizeBytes n < hashSize :=
    Nat.div_lt_of_lt_mul (Nat.lt_of_lt_of_eq x.isLt (Nat.mul_comm _ _))
  have offset := Nat.mod_lt x.val wide
  have whole : x.val / fieldSizeBytes n * fieldSizeBytes n + x.val % fieldSizeBytes n = x.val := by
    rw [Nat.mul_comm]
    exact Nat.div_add_mod _ _
  have bit : 8 * (x.val % fieldSizeBytes n) + k < 8 * fieldSizeBytes n := by omega
  have byte : (8 * (x.val % fieldSizeBytes n) + k) / 8 = x.val % fieldSizeBytes n := by omega
  have rest : (8 * (x.val % fieldSizeBytes n) + k) % 8 = k := by omega
  have given : (prg x).getLsbD k = (valueAt (fieldSizeBytes n) (fromPrg prg) (x.val / fieldSizeBytes n)).getLsbD
      (8 * (x.val % fieldSizeBytes n) + k) := by
    rw [valueAtBit _ _ _ bit, byte, rest, whole]
    simp [fromPrg]
  have value : ∀ t, (v ⟨_, item⟩).getLsbD t = (valueAt (fieldSizeBytes n)
      (maskVals n hashSize (fromPrg prg)) (x.val / fieldSizeBytes n)).getLsbD t := by
    intro t
    have numbers := congrArg (Nat.testBit · t) (values ⟨_, item⟩)
    dsimp only at numbers
    rw [BitVec.testBit_toNat, BitVec.testBit_toNat] at numbers
    exact numbers.symm
  rw [given]
  simp only [padded, BitVec.getLsbD_ofFnLE, small, dif_pos, paddedBit]
  generalize 8 * (x.val % fieldSizeBytes n) + k = t at bit
  split
  · rename_i before
    rw [value, maskedBit positive item _ bit, if_neg (by omega)]
  · split
    · rename_i late lost
      congr 1
      omega
    · rename_i late kept
      have final : (t - zeroBits n) / 8 = fieldSizeBytes n - 1 := by omega
      have inByte : (t - zeroBits n) % 8 + zeroBits n < 8 := by omega
      rw [value, maskedBit positive item _ (by omega), if_pos final, decide_eq_true inByte, Bool.true_and,
        Nat.sub_add_cancel (by omega)]

theorem maskedCount (partialByte : n % 8 ≠ 0) (v : Fin hashSize → BitVec n) :
    Nat.card {prg : Fin (hashSize * fieldSizeBytes n) → Byte // ∀ i : Fin hashSize,
      (valueAt (fieldSizeBytes n) (maskVals n hashSize (fromPrg prg)) i).toNat = (v i).toNat} =
      2 ^ (zeroBits n * hashSize) := by
  have bijective : Function.Bijective fun dropped : Fin hashSize → Fin (zeroBits n) → Bool =>
      (⟨padded v dropped, paddedMasks positive partialByte v dropped⟩ :
        {prg : Fin (hashSize * fieldSizeBytes n) → Byte // ∀ i : Fin hashSize,
          (valueAt (fieldSizeBytes n) (maskVals n hashSize (fromPrg prg)) i).toNat = (v i).toNat}) := by
    constructor
    · intro dropped dropped' same
      have equal : padded v dropped = padded v dropped' := congrArg Subtype.val same
      funext i k
      rw [← paddedDropped positive partialByte v dropped, ← paddedDropped positive partialByte v dropped', equal]
    · rintro ⟨prg, values⟩
      refine ⟨fun i k => (valueAt (fieldSizeBytes n) (fromPrg prg) i).getLsbD (8 * (fieldSizeBytes n - 1) + k), ?_⟩
      exact Subtype.ext (paddedOf positive partialByte values)
  rw [← Nat.card_eq_of_bijective _ bijective]
  simp [pow_mul]

end Padding

section Exact
variable {n : Nat} (modulus : Modulus n)

theorem maskedRoundTrip {hashSize i b : Nat} (inside : i < hashSize) (byte : b < fieldSizeBytes n) (vals : Bytes) :
    bytesFromGF2X (modulus.fromBytes (fieldSizeBytes n) fun b =>
      maskVals n hashSize vals (i * fieldSizeBytes n + b)) b = maskVals n hashSize vals (i * fieldSizeBytes n + b) := by
  have bits : ∀ t < 8 * fieldSizeBytes n, (maskVals n hashSize vals (i * fieldSizeBytes n + t / 8)).getLsbD (t % 8) =
      (valueAt (fieldSizeBytes n) (maskVals n hashSize vals) i).getLsbD t :=
    fun t bit => (valueAtBit _ _ _ bit).symm
  apply BitVec.eq_of_getLsbD_eq
  intro k small
  have index : (8 * b + k) / 8 = b ∧ (8 * b + k) % 8 = k := by omega
  have bit : 8 * b + k < 8 * fieldSizeBytes n := by omega
  have exported := Modulus.bytesBit (modulus.fromBytes (fieldSizeBytes n) fun b =>
    maskVals n hashSize vals (i * fieldSizeBytes n + b)) (8 * b + k)
  rw [index.1, index.2] at exported
  rw [exported]
  unfold Modulus.fromBytes
  rw [modulus.reduced, decide_eq_true bit, index.1, index.2, Bool.and_true]
  · by_cases padding : 8 * b + k < n
    · rw [decide_eq_true padding, Bool.true_and]
    · have zero := bits _ bit
      rw [maskedPadding modulus.positive inside vals (by omega), index.1, index.2] at zero
      rw [decide_eq_false padding, Bool.false_and, zero]
  · intro t padding below
    rw [bits t below]
    exact maskedPadding modulus.positive inside vals padding

end Exact

theorem wholeByteLost {n hashSize : Nat} (positive : 0 < n) (whole : n % 8 = 0) (some : 0 < hashSize) {prg : Bytes}
    {v : BitVec n} (value : (valueAt (fieldSizeBytes n) (maskVals n hashSize prg) 0).toNat = v.toNat) :
    v.getLsbD (n - 1) = false := by
  obtain ⟨wide, fits, last⟩ := fieldSizeBytesBounds positive
  have bits := congrArg (Nat.testBit · (n - 1)) value
  rw [BitVec.testBit_toNat, BitVec.testBit_toNat, maskedBit positive some _ (by omega),
    if_pos (by omega), decide_eq_false (by unfold zeroBits; omega), Bool.false_and] at bits
  exact bits.symm

/-- The values of `dic.hashSize` keys are below `2 ^ n`, all tuples of them come from equally
many strings of the PRG, and the table of `init` and the exported variables keep their bytes. -/
structure MaskingExact {n : Nat} (dic : Dictionary n) : Prop where
  bounded : ∀ prg, ∃ vals, constructVals n dic.hashSize prg = .ok vals ∧ ∀ i < dic.hashSize,
    (i + 1) * dic.fieldSizeBytes ≤ vals.size ∧ (valueAt dic.fieldSizeBytes vals.get i).toNat < 2 ^ n
  reached : ∀ v : Fin dic.hashSize → BitVec n,
    Nat.card {prg : Fin (dic.hashSize * dic.fieldSizeBytes) → Byte //
      ∃ vals, constructVals n dic.hashSize (fromPrg prg) = .ok vals ∧
        ∀ i : Fin dic.hashSize, (valueAt dic.fieldSizeBytes vals.get i).toNat = (v i).toNat} =
      2 ^ ((8 * dic.fieldSizeBytes - n) * dic.hashSize)
  stored : ∀ prg vals (keys : List Key), constructVals n dic.hashSize prg = .ok vals → keys.Nodup →
    keys.length = dic.hashSize → ∃ table, dic.readVals keys vals = .ok table ∧
      ∀ i < dic.hashSize, ∃ element, table (keys.getD i 0) = some element ∧ ∀ b < dic.fieldSizeBytes,
        bytesFromGF2X element b = vals.get (i * dic.fieldSizeBytes + b)
  exported : ∀ (d : ObliviousDictionary n) old, ∃ sigma, dic.exportVars d old = .ok sigma ∧
    ∀ u < dic.numVars, (u + 1) * dic.fieldSizeBytes ≤ sigma.size ∧ ∀ b < dic.fieldSizeBytes,
      sigma.get (u * dic.fieldSizeBytes + b) = bytesFromGF2X (d.vars u) b
  returned : ∀ prg vals (keys : List Key) table (d : ObliviousDictionary n) old sigma,
    constructVals n dic.hashSize prg = .ok vals → keys.Nodup → keys.length = dic.hashSize →
      dic.readVals keys vals = .ok table → dic.exportVars d old = .ok sigma →
    ∀ i < dic.hashSize, ∀ u < dic.numVars, table (keys.getD i 0) = some (d.vars u) → ∀ b < dic.fieldSizeBytes,
      sigma.get (u * dic.fieldSizeBytes + b) = vals.get (i * dic.fieldSizeBytes + b)
  summed : ∀ (d : ObliviousDictionary n) old sigma, dic.exportVars d old = .ok sigma →
    ∀ u < dic.numVars, ∀ v < dic.numVars, ∀ b < dic.fieldSizeBytes,
      sigma.get (u * dic.fieldSizeBytes + b) ^^^ sigma.get (v * dic.fieldSizeBytes + b) =
        bytesFromGF2X (d.vars u ^^^ d.vars v) b

theorem exactFits {n : Nat} {dic : Dictionary n} (exactly : MaskingExact dic) :
    dic.hashSize * dic.fieldSizeBytes < 2 ^ 31 := by
  obtain ⟨vals, ran, rows⟩ := exactly.bounded fun _ => 0#8
  have size := constructValsSize ran
  rcases Nat.eq_zero_or_pos dic.hashSize with none | some
  · rw [none]
    omega
  · have last := (rows (dic.hashSize - 1) (by omega)).1
    rw [Nat.sub_add_cancel some] at last
    omega

section Sized
variable {n : Nat} {dic : Dictionary n} (bytes : dic.fieldSizeBytes = fieldSizeBytes n)
include bytes

theorem elementBytes {i b : Nat} (inside : i < dic.hashSize) (byte : b < dic.fieldSizeBytes) (vals : Bytes) :
    bytesFromGF2X (dic.element (maskVals n dic.hashSize vals) i) b =
      maskVals n dic.hashSize vals (i * dic.fieldSizeBytes + b) := by
  unfold Dictionary.element
  rw [bytes] at byte ⊢
  exact maskedRoundTrip dic.modulus inside byte vals

theorem constructedCount (shape : n % 8 ≠ 0 ∨ dic.hashSize = 0) (small : dic.hashSize * fieldSizeBytes n < 2 ^ 31)
    (v : Fin dic.hashSize → BitVec n) : Nat.card {prg : Fin (dic.hashSize * dic.fieldSizeBytes) → Byte //
      ∃ vals, constructVals n dic.hashSize (fromPrg prg) = .ok vals ∧
        ∀ i : Fin dic.hashSize, (valueAt dic.fieldSizeBytes vals.get i).toNat = (v i).toNat} =
      2 ^ ((8 * dic.fieldSizeBytes - n) * dic.hashSize) := by
  have positive := dic.modulus.positive
  simp only [constructValsExact positive small, Except.ok.injEq, exists_eq_left']
  generalize dic.fieldSizeBytes = size at bytes
  generalize dic.hashSize = hashSize at shape v
  subst bytes
  rcases shape with partialByte | rfl
  · have lost : 8 * fieldSizeBytes n - n = zeroBits n := by
      have padding := (paddingBits partialByte).1
      omega
    rw [lost]
    exact maskedCount positive partialByte v
  · rw [Nat.mul_zero, Nat.pow_zero, Nat.card_eq_one_iff_unique]
    refine ⟨⟨fun a b => Subtype.ext (funext fun x => ?_)⟩, ⟨fun _ => 0#8, fun i => i.elim0⟩⟩
    have none := x.isLt
    omega

theorem exactReached (whole : n % 8 = 0) (exactly : MaskingExact dic)
    (small : dic.hashSize * fieldSizeBytes n < 2 ^ 31) : dic.hashSize = 0 := by
  have positive := dic.modulus.positive
  obtain ⟨wide, fits, -⟩ := fieldSizeBytesBounds positive
  rcases Nat.eq_zero_or_pos dic.hashSize with none | some
  · exact none
  have only := exactly.reached fun _ => BitVec.allOnes n
  have full : 8 * dic.fieldSizeBytes - n = 0 := by
    rw [bytes]
    unfold fieldSizeBytes
    rw [if_pos whole]
    omega
  rw [full, Nat.zero_mul, Nat.pow_zero] at only
  obtain ⟨⟨prg, vals, ran, value⟩⟩ : Nonempty _ := (Nat.card_pos_iff.mp (by rw [only]; exact Nat.one_pos)).1
  rw [constructValsExact positive small] at ran
  cases Except.ok.inj ran
  have first := value ⟨0, some⟩
  generalize fromPrg prg = raw at first
  rw [bytes] at first
  have lost := wholeByteLost positive whole some first
  rw [BitVec.getLsbD_allOnes, decide_eq_true (by omega)] at lost
  exact absurd lost.symm Bool.false_ne_true

theorem fieldSizeBytesThin (int : n < 2 ^ 31) : dic.fieldSizeBytes < 2 ^ 31 := by
  rw [bytes]
  unfold fieldSizeBytes
  split <;> omega

theorem exactWithin (int : n < 2 ^ 31) (shape : n % 8 ≠ 0 ∨ dic.hashSize = 0)
    (small : dic.hashSize * dic.fieldSizeBytes < 2 ^ 31) (few : dic.numVars < 2 ^ 31)
    (last : (dic.numVars - 1) * dic.fieldSizeBytes < 2 ^ 31) : MaskingExact dic := by
  have positive := dic.modulus.positive
  have made := constructValsExact positive (bytes ▸ small : dic.hashSize * fieldSizeBytes n < 2 ^ 31)
  have exports := fun (d : ObliviousDictionary n) old =>
    Dictionary.exportVarsExact d old (fieldSizeBytesThin bytes int) few last
  have row : ∀ u < dic.numVars, (u + 1) * dic.fieldSizeBytes ≤ dic.numVars * dic.fieldSizeBytes :=
    fun u inside => Nat.mul_le_mul_right _ (Nat.succ_le_of_lt inside)
  have exported : ∀ (d : ObliviousDictionary n) old sigma, dic.exportVars d old = .ok sigma →
      ∀ u < dic.numVars, ∀ b < dic.fieldSizeBytes,
        sigma.get (u * dic.fieldSizeBytes + b) = bytesFromGF2X (d.vars u) b := by
    intro d old sigma ran u inside b byte
    obtain ⟨sigma', ran', -, same⟩ := exports d old
    cases Except.ok.inj (ran.symm.trans ran')
    have edge := row u inside
    rw [Nat.succ_mul] at edge
    rw [same _ (by omega), Dictionary.getVariablesRow d u byte]
  have table : ∀ prg (keys : List Key), dic.readVals keys ⟨dic.hashSize * fieldSizeBytes n, maskVals n dic.hashSize prg⟩ =
      .ok (dic.init (Dictionary.setKeysAndVals keys (maskVals n dic.hashSize prg)
        (Dictionary.construct fun _ _ => 0#8))).vals := by
    intro prg keys
    exact Dictionary.readValsExact (d := Dictionary.setKeysAndVals keys (maskVals n dic.hashSize prg)
      (Dictionary.construct fun _ _ => 0#8)) rfl small (bytes ▸ Nat.le_refl _)
  refine ⟨fun prg => ⟨_, made prg, fun i inside => ⟨?_, ?_⟩⟩,
    fun v => constructedCount bytes shape (bytes ▸ small) v, ?_, fun d old => ?_, ?_, ?_⟩
  · rw [bytes]
    exact Nat.mul_le_mul_right _ (Nat.succ_le_of_lt inside)
  · rw [bytes]
    exact maskedSmall positive inside prg
  · intro prg vals keys ran distinct length
    cases Except.ok.inj ((made prg).symm.trans ran)
    refine ⟨_, table prg keys, fun i inside => ⟨_, dic.initVals distinct length inside, fun b byte => ?_⟩⟩
    exact elementBytes bytes inside byte prg
  · obtain ⟨sigma, ran, size, -⟩ := exports d old
    exact ⟨sigma, ran, fun u inside => ⟨size ▸ row u inside, exported d old sigma ran u inside⟩⟩
  · intro prg vals keys read d old sigma ran distinct length stored out i inside u place held b byte
    cases Except.ok.inj ((made prg).symm.trans ran)
    cases Except.ok.inj ((table prg keys).symm.trans stored)
    have element := (dic.initVals distinct length inside).symm.trans held
    rw [exported d old sigma out u place b byte, ← Option.some.inj element]
    exact elementBytes bytes inside byte prg
  · intro d old sigma ran u left v right b byte
    rw [exported d old sigma ran u left b byte, exported d old sigma ran v right b byte, bytesFromXor]

/-- Exact for a field size that is not a number of whole bytes, where the values and the last
variable's offset stay in the range of `int`, and only there. -/
theorem maskingExactIff (int : n < 2 ^ 31) : MaskingExact dic ↔ (n % 8 ≠ 0 ∨ dic.hashSize = 0) ∧
    dic.hashSize * dic.fieldSizeBytes < 2 ^ 31 ∧ dic.numVars < 2 ^ 31 ∧
      (dic.numVars - 1) * dic.fieldSizeBytes < 2 ^ 31 := by
  constructor
  · intro exactly
    have small := exactFits exactly
    obtain ⟨wide, -, -⟩ := fieldSizeBytesBounds dic.modulus.positive
    obtain ⟨sigma, ran, rows⟩ := exactly.exported (Dictionary.construct fun _ _ => 0#8) ⟨0, fun _ => 0#8⟩
    have bounds := Dictionary.exportVarsBounds (bytes ▸ wide) (fieldSizeBytesThin bytes int) ran
      fun u inside => (rows u inside).1
    refine ⟨?_, small, bounds⟩
    by_cases whole : n % 8 = 0
    · exact .inr (exactReached bytes whole exactly (bytes ▸ small))
    · exact .inl whole
  · rintro ⟨shape, small, few, last⟩
    exact exactWithin bytes int shape small few last

end Sized

theorem sixtyBitsDrawn : 1 ≤ 60 := by decide

theorem sixtyBitsFit : 60 ≤ 64 := by decide

def spreadKeys {n : Nat} (modulus : Modulus n) (hashSize : Nat) : Dictionary n where
  tableRealSize := hashSize * 6 / 5 + 1
  gamma := 60
  firstHash := id
  secondHash := id
  DH := id
  occupied := Nat.succ_pos _
  gammaLow := sixtyBitsDrawn
  gammaHigh := sixtyBitsFit
  hashSize
  fieldSizeBytes := fieldSizeBytes n
  modulus
  firstLink _ _ := 0
  secondLink _ _ := 0

/-- Three values of 90 bits are exact; of 238 bits, 143165577 values are too many, for which
`vals` gets a size of 14. -/
theorem exactBelowRange : MaskingExact (spreadKeys ⟨1#90 <<< 27 ||| 1#90, by decide⟩ 3) ∧
    ¬ MaskingExact (spreadKeys ⟨1#238 <<< 73 ||| 1#238, by decide⟩ 143165577) := by
  refine ⟨(maskingExactIff rfl (by decide)).mpr ⟨.inl (by decide), by decide, by decide, by decide⟩, fun exactly => ?_⟩
  exact absurd ((maskingExactIff rfl (by decide)).mp exactly).2.1 (by decide)

example : vectorSize (143165577 * 30) = .ok 14 := rfl

/-- No bytes from the PRG give a 72-bit value with its top bit set. -/
theorem topBitUnreached : ¬ ∃ prg vals, constructVals 72 1 prg = .ok vals ∧
    (valueAt (fieldSizeBytes 72) vals.get 0).toNat = 2 ^ 71 := by
  rintro ⟨prg, vals, ran, value⟩
  rw [constructValsExact (by decide) (by decide)] at ran
  cases Except.ok.inj ran
  have lost := wholeByteLost (n := 72) (by decide) rfl Nat.one_pos (v := 1#72 <<< 71) value
  exact absurd lost (by decide)

end PaxosPsi
