import PaxosPsi.DictionaryCore
import PaxosPsi.Prng

/-! The `int` sizes and offsets behind the byte vectors. `init` and `getVariables` compute
`i * fieldSizeBytes` in 32 bits. As long as the last of these products fits, they do what
`Dictionary.init` and `Dictionary.getVariables` do, whose offsets are natural numbers. -/
namespace PaxosPsi
open CountedLoop XorAlgebra Memory

abbrev CInt := BitVec 32

/-- The size reaches the vector as a `size_t`, so a negative one throws there. -/
def vectorSize (n : CInt) : Except Error Nat := if n.msb then .error .lengthError else .ok n.toNat

/-- How a run ends early: an exception, or an access outside a vector. -/
inductive Stop where
  | threw (error : Error)
  | outside

/-- Where `count` bytes at an `int` offset start in a vector of `size` bytes. -/
def within (offset : CInt) (count size : Nat) : Except Stop Nat :=
  if offset.msb = false ∧ offset.toNat + count ≤ size then .ok offset.toNat else .error .outside

section Offsets

theorem intExact {a : Nat} (small : a < 2 ^ 31) :
    (BitVec.ofNat 32 a).toInt = a ∧ (BitVec.ofNat 32 a).toNat = a := by
  have value : (BitVec.ofNat 32 a).toNat = a := by
    rw [BitVec.toNat_ofNat]
    exact Nat.mod_eq_of_lt (by omega)
  refine ⟨?_, value⟩
  rw [BitVec.toInt_eq_toNat_of_lt (by rw [value]; omega), value]

theorem notNegative {a : CInt} : a.msb = false ↔ a.toNat < 2 ^ 31 := by
  rw [BitVec.msb_eq_false_iff_two_mul_lt]
  omega

theorem vectorSizeExact {a : Nat} (small : a < 2 ^ 31) : vectorSize (BitVec.ofNat 32 a) = .ok a := by
  have value := (intExact small).2
  unfold vectorSize
  rw [notNegative.mpr (by omega), value]
  rfl

theorem vectorSizeOk {n : CInt} {size : Nat} (ran : vectorSize n = .ok size) : size = n.toNat ∧ size < 2 ^ 31 := by
  unfold vectorSize at ran
  split at ran
  · cases ran
  · rename_i sign
    cases ran
    exact ⟨rfl, notNegative.mp (Bool.eq_false_iff.mpr sign)⟩

theorem withinExact {a count size : Nat} (small : a < 2 ^ 31) (fits : a + count ≤ size) :
    within (BitVec.ofNat 32 a) count size = .ok a := by
  have value := (intExact small).2
  unfold within
  rw [if_pos ⟨notNegative.mpr (by omega), by omega⟩, value]

theorem withinOk {offset : CInt} {count size start : Nat} (ran : within offset count size = .ok start) :
    start = offset.toNat ∧ start < 2 ^ 31 ∧ start + count ≤ size := by
  unfold within at ran
  split at ran
  · rename_i reached
    cases ran
    exact ⟨rfl, notNegative.mp reached.1, reached.2⟩
  · cases ran

theorem lastByteValue {bytes : Nat} (wide : 0 < bytes) (i : Nat) :
    (BitVec.ofNat 32 i + 1) * BitVec.ofNat 32 bytes - 1 = BitVec.ofNat 32 ((i + 1) * bytes - 1) := by
  have positive : 1 ≤ (i + 1) * bytes := Nat.mul_pos (Nat.succ_pos i) wide
  have before : (i + 1) * bytes - 1 + 1 = (i + 1) * bytes := by omega
  rw [show (1 : CInt) = BitVec.ofNat 32 1 from rfl, ← BitVec.ofNat_add, ← BitVec.ofNat_mul, ← before,
    BitVec.ofNat_add, BitVec.add_sub_cancel, before]

/-- The first product past the range of `int` is negative there. -/
theorem firstNegative {bytes m : Nat} (thin : bytes < 2 ^ 31) (past : 2 ^ 31 ≤ m * bytes) :
    ∃ i ≤ m, 2 ^ 31 ≤ (BitVec.ofNat 32 (i * bytes)).toNat := by
  have reaches : ∃ i, 2 ^ 31 ≤ i * bytes := ⟨m, past⟩
  obtain ⟨i, first⟩ : ∃ i, Nat.find reaches = i := ⟨_, rfl⟩
  have reached := Nat.find_spec reaches
  have least := Nat.find_min' reaches past
  rw [first] at reached least
  refine ⟨i, least, ?_⟩
  cases i with
  | zero => omega
  | succ i =>
    have before := Nat.find_min reaches (m := i) (by omega)
    rw [Nat.succ_mul] at reached ⊢
    rw [BitVec.toNat_ofNat, Nat.mod_eq_of_lt (by omega)]
    exact reached

end Offsets

namespace Dictionary
variable {n : Nat} (dic : Dictionary n)

def offset (i : Nat) : CInt := BitVec.ofNat 32 i * BitVec.ofNat 32 dic.fieldSizeBytes

/-- The loop of `init` over the vector it is given. -/
def readVals (keys : List Key) (values : Vec Byte) : Except Stop (Key → Option (BitVec n)) :=
  forLoopM dic.hashSize (fun i vals => do
    let start ← within (dic.offset i) dic.fieldSizeBytes values.size
    pure (insertVal vals (keys.getD i 0) (dic.modulus.fromBytes dic.fieldSizeBytes fun b => values.get (start + b))))
    fun _ => none

def writeVar (element : BitVec n) (start : Nat) (sigma : Bytes) : Bytes := fun b =>
  if start ≤ b ∧ b < start + dic.fieldSizeBytes then bytesFromGF2X element (b - start) else sigma b

def exportVar (d : ObliviousDictionary n) (i : Nat) (sigma : Vec Byte) : Except Stop (Vec Byte) := do
  let start ← within (dic.offset i) dic.fieldSizeBytes sigma.size
  pure ⟨sigma.size, dic.writeVar (d.vars i) start sigma.get⟩

/-- `getVariables`. Its vector is sized in `size_t`. -/
def exportVars (d : ObliviousDictionary n) (sigma : Vec Byte) : Except Stop (Vec Byte) := do
  let size ← (vectorSize (2 * BitVec.ofNat 32 dic.tableRealSize + BitVec.ofNat 32 dic.gamma)).mapError Stop.threw
  forLoopM size (dic.exportVar d) (sigma.resize (size * dic.fieldSizeBytes % 2 ^ 64) 0)

def numVars : Nat := 2 * dic.tableRealSize + dic.gamma

variable {dic}

theorem offsetValue (i : Nat) : dic.offset i = BitVec.ofNat 32 (i * dic.fieldSizeBytes) :=
  (BitVec.ofNat_mul i dic.fieldSizeBytes).symm

theorem varsValue : 2 * BitVec.ofNat 32 dic.tableRealSize + BitVec.ofNat 32 dic.gamma =
    BitVec.ofNat 32 dic.numVars := by
  unfold numVars
  rw [BitVec.ofNat_add, BitVec.ofNat_mul]
  rfl

theorem getVariablesRow (d : ObliviousDictionary n) (u : Nat) {b : Nat} (byte : b < dic.fieldSizeBytes) :
    dic.getVariables d (u * dic.fieldSizeBytes + b) = bytesFromGF2X (d.vars u) b := by
  have wide : 0 < dic.fieldSizeBytes := by omega
  unfold getVariables
  rw [Nat.mul_comm, Nat.mul_add_div wide, Nat.mul_add_mod, Nat.div_eq_of_lt byte, Nat.mod_eq_of_lt byte, Nat.add_zero]

theorem readValsExact {d : ObliviousDictionary n} {values : Vec Byte} (given : d.values = values.get)
    (small : dic.hashSize * dic.fieldSizeBytes < 2 ^ 31) (size : dic.hashSize * dic.fieldSizeBytes ≤ values.size) :
    dic.readVals d.keys values = .ok (dic.init d).vals := by
  unfold readVals init
  refine forLoopMOk fun i inside vals => ?_
  have row := Nat.mul_le_mul_right dic.fieldSizeBytes (Nat.succ_le_of_lt inside)
  rw [Nat.succ_mul] at row
  rw [offsetValue, withinExact (by omega) (by omega), element, given]
  rfl

theorem exportVarsExact (d : ObliviousDictionary n) (sigma : Vec Byte) (thin : dic.fieldSizeBytes < 2 ^ 31)
    (few : dic.numVars < 2 ^ 31) (last : (dic.numVars - 1) * dic.fieldSizeBytes < 2 ^ 31) :
    ∃ sigma', dic.exportVars d sigma = .ok sigma' ∧ sigma'.size = dic.numVars * dic.fieldSizeBytes ∧
      ∀ b < dic.numVars * dic.fieldSizeBytes, sigma'.get b = dic.getVariables d b := by
  have row : ∀ i < dic.numVars, i * dic.fieldSizeBytes < 2 ^ 31 ∧
      i * dic.fieldSizeBytes + dic.fieldSizeBytes ≤ dic.numVars * dic.fieldSizeBytes := by
    intro i inside
    have below := Nat.mul_le_mul_right dic.fieldSizeBytes (show i ≤ dic.numVars - 1 by omega)
    have next := Nat.mul_le_mul_right dic.fieldSizeBytes (Nat.succ_le_of_lt inside)
    rw [Nat.succ_mul] at next
    exact ⟨by omega, next⟩
  have whole : dic.numVars * dic.fieldSizeBytes < 2 ^ 64 := by
    have product := Nat.mul_le_mul few.le thin.le
    omega
  have run := forLoopMInvariant (n := dic.numVars) (f := dic.exportVar d)
    (s := sigma.resize (dic.numVars * dic.fieldSizeBytes % 2 ^ 64) 0)
    (fun i s => s.size = dic.numVars * dic.fieldSizeBytes ∧
      ∀ b < i * dic.fieldSizeBytes, s.get b = dic.getVariables d b)
    ⟨Nat.mod_eq_of_lt whole, fun b none => absurd none (by omega)⟩ (by
      rintro i s inside ⟨size, before⟩
      obtain ⟨small, fits⟩ := row i inside
      have stepped : dic.exportVar d i s =
          .ok ⟨s.size, dic.writeVar (d.vars i) (i * dic.fieldSizeBytes) s.get⟩ := by
        unfold exportVar
        rw [offsetValue, withinExact small (size ▸ fits)]
        rfl
      refine ⟨_, stepped, size, fun b below => ?_⟩
      rw [Nat.succ_mul] at below
      unfold writeVar
      dsimp only
      by_cases earlier : b < i * dic.fieldSizeBytes
      · rw [if_neg (by omega)]
        exact before b earlier
      · have here : i = b / dic.fieldSizeBytes := by
          refine (Nat.div_eq_of_lt_le (by omega) ?_).symm
          rw [Nat.succ_mul]
          exact below
        have rest : b - i * dic.fieldSizeBytes = b % dic.fieldSizeBytes := by
          rw [Nat.mod_eq_sub_mul_div, ← here, Nat.mul_comm]
        rw [if_pos (by omega), rest, here]
        rfl)
  obtain ⟨sigma', ran, size, bytes⟩ := run
  refine ⟨sigma', ?_, size, bytes⟩
  unfold exportVars
  rw [varsValue, vectorSizeExact few]
  exact ran

/-- An export with room for all variables stayed in the range of `int`. -/
theorem exportVarsBounds {d : ObliviousDictionary n} {sigma sigma' : Vec Byte} (wide : 0 < dic.fieldSizeBytes)
    (thin : dic.fieldSizeBytes < 2 ^ 31) (ran : dic.exportVars d sigma = .ok sigma')
    (room : ∀ u < dic.numVars, (u + 1) * dic.fieldSizeBytes ≤ sigma'.size) :
    dic.numVars < 2 ^ 31 ∧ (dic.numVars - 1) * dic.fieldSizeBytes < 2 ^ 31 := by
  unfold exportVars at ran
  rw [varsValue] at ran
  cases made : vectorSize (BitVec.ofNat 32 dic.numVars) with
  | error e => rw [made] at ran; cases ran
  | ok size =>
    rw [made] at ran
    change forLoopM size (dic.exportVar d) (sigma.resize (size * dic.fieldSizeBytes % 2 ^ 64) 0) = _ at ran
    obtain ⟨-, small⟩ := vectorSizeOk made
    have kept : ∀ i (t t' : Vec Byte), t.size = size * dic.fieldSizeBytes % 2 ^ 64 → dic.exportVar d i t = .ok t' →
        t'.size = size * dic.fieldSizeBytes % 2 ^ 64 := by
      intro i t t' before stepped
      unfold exportVar at stepped
      cases start : within (dic.offset i) dic.fieldSizeBytes t.size with
      | error e => rw [start] at stepped; cases stepped
      | ok a =>
        rw [start] at stepped
        cases stepped
        exact before
    obtain ⟨total, steps⟩ := forLoopMRan (fun t => t.size = size * dic.fieldSizeBytes % 2 ^ 64) rfl kept ran
    have few : dic.numVars ≤ size := by
      rcases Nat.eq_zero_or_pos dic.numVars with none | some
      · omega
      · have last := room (dic.numVars - 1) (by omega)
        rw [Nat.sub_add_cancel some, total] at last
        exact Nat.le_of_mul_le_mul_right (last.trans (Nat.mod_le _ _)) wide
    refine ⟨by omega, ?_⟩
    by_contra past
    obtain ⟨i, below, negative⟩ := firstNegative thin (Nat.le_of_not_lt past)
    rcases Nat.eq_zero_or_pos dic.numVars with none | some
    · rw [none, Nat.zero_sub, Nat.zero_mul] at past
      omega
    · obtain ⟨t, t', -, stepped⟩ := steps i (by omega)
      unfold exportVar at stepped
      cases start : within (dic.offset i) dic.fieldSizeBytes t.size with
      | error e => rw [start] at stepped; cases stepped
      | ok a =>
        obtain ⟨value, bound, -⟩ := withinOk start
        rw [offsetValue] at value
        omega

end Dictionary
end PaxosPsi
