import PaxosPsi.Memory

/-! Arithmetic of `GF2E`: residues of polynomials over two elements modulo a
polynomial of degree `n`. Addition is `^^^`. Reduction and multiplication run
Horner's rule from the top coefficient. -/
namespace PaxosPsi
open CountedLoop XorAlgebra Memory

/-- `X^n + low`, the polynomial the field is built from. -/
structure Modulus (n : Nat) where
  low : BitVec n
  positive : 0 < n

namespace Modulus
variable {n : Nat} (modulus : Modulus n)

def timesX (a : BitVec n) : BitVec n := (a <<< 1) ^^^ if a.getLsbD (n - 1) then modulus.low else 0#n

def to_GF2E (length : Nat) (coeff : Nat → Bool) : BitVec n :=
  forLoop length (fun i a => modulus.timesX a ^^^ if coeff (length - 1 - i) then 1#n else 0#n) 0#n

def mul (a b : BitVec n) : BitVec n :=
  forLoop n (fun i c => modulus.timesX c ^^^ if a.getLsbD (n - 1 - i) then b else 0#n) 0#n

/-- `GF2XFromBytes` followed by `to_GF2E`. -/
def fromBytes (size : Nat) (bytes : Bytes) : BitVec n :=
  modulus.to_GF2E (8 * size) fun i => (bytes (i / 8)).getLsbD (i % 8)

end Modulus

/-- `BytesFromGF2X` of the representative of an element. -/
def bytesFromGF2X {n : Nat} (v : BitVec n) : Bytes := fun i => v.extractLsb' (8 * i) 8

namespace Modulus
variable {n : Nat} (modulus : Modulus n)

@[simp] theorem timesXZero : modulus.timesX 0#n = 0#n := by simp [timesX]

theorem timesXBit (a : BitVec n) (below : a.getLsbD (n - 1) = false) (j : Nat) :
    (modulus.timesX a).getLsbD j = (decide (j < n) && decide (0 < j) && a.getLsbD (j - 1)) := by
  cases j <;> simp [timesX, below]

@[simp] theorem zeroMul (b : BitVec n) : modulus.mul 0#n b = 0#n := by
  unfold mul
  apply forLoopInvariant fun _ c => c = 0#n
  · rfl
  · rintro i c - rfl
    simp

@[simp] theorem oneMul (b : BitVec n) : modulus.mul 1#n b = b := by
  have positive := modulus.positive
  have rounds : ∀ i ≤ n, forLoop i (fun i c => modulus.timesX c ^^^
      if (1#n).getLsbD (n - 1 - i) then b else 0#n) 0#n = if i = n then b else 0#n := by
    intro i
    induction i with
    | zero => intro _; rw [forLoopZero, if_neg (by omega)]
    | succ i ih =>
      intro bound
      rw [forLoopSucc, ih (by omega), if_neg (by omega), timesXZero, BitVec.zero_xor]
      have bit : (1#n).getLsbD (n - 1 - i) = decide (i + 1 = n) := by
        rw [BitVec.getLsbD_one]
        simp only [positive, decide_true, Bool.true_and]
        congr 1
        exact propext (by omega)
      rw [bit]
      by_cases last : i + 1 = n <;> simp [last]
  exact (rounds n (Nat.le_refl n)).trans (if_pos rfl)

theorem reduced {length : Nat} {coeff : Nat → Bool} (small : ∀ i, n ≤ i → i < length → coeff i = false) (j : Nat) :
    (modulus.to_GF2E length coeff).getLsbD j = (decide (j < n) && decide (j < length) && coeff j) := by
  have positive := modulus.positive
  have rounds : ∀ i ≤ length, ∀ j, (forLoop i (fun i a => modulus.timesX a ^^^
      if coeff (length - 1 - i) then 1#n else 0#n) 0#n).getLsbD j =
      (decide (j < n) && decide (j < i) && coeff (length - i + j)) := by
    intro i
    induction i with
    | zero => simp
    | succ i ih =>
      intro bound j
      have before := ih (by omega)
      have top : (forLoop i (fun i a => modulus.timesX a ^^^
          if coeff (length - 1 - i) then 1#n else 0#n) 0#n).getLsbD (n - 1) = false := by
        rw [before]
        by_cases inside : n - 1 < i
        · simp [small (length - i + (n - 1)) (by omega) (by omega)]
        · simp [inside]
      rw [forLoopSucc, BitVec.getLsbD_xor, timesXBit modulus _ top, before]
      cases j with
      | zero =>
        have last : length - (i + 1) + 0 = length - 1 - i := by omega
        rw [last]
        cases coeff (length - 1 - i) <;> simp [positive]
      | succ j =>
        have shifted : length - i + j = length - (i + 1) + (j + 1) := by omega
        have none : (if coeff (length - 1 - i) then 1#n else 0#n).getLsbD (j + 1) = false := by
          split <;> simp
        rw [none, Nat.add_sub_cancel, shifted]
        by_cases inside : j + 1 < n
        · have less : j < n := by omega
          simp [inside, less]
        · simp [inside]
  have done := rounds length (Nat.le_refl length) j
  rw [Nat.sub_self, Nat.zero_add] at done
  exact done

theorem bytesBit (v : BitVec n) (i : Nat) :
    (bytesFromGF2X v (i / 8)).getLsbD (i % 8) = v.getLsbD i := by
  have small : i % 8 < 8 := by omega
  have whole : 8 * (i / 8) + i % 8 = i := by omega
  simp [bytesFromGF2X, small, whole]

end Modulus

theorem bytesFromXor {n : Nat} (u v : BitVec n) (i : Nat) :
    bytesFromGF2X (u ^^^ v) i = bytesFromGF2X u i ^^^ bytesFromGF2X v i := by
  apply BitVec.eq_of_getLsbD_eq
  intro k inside
  simp [bytesFromGF2X, inside]

end PaxosPsi
