import PaxosPsi.Library.XorAlgebra
import Mathlib.Tactic.Common

/-! The two bucket maps and the `gamma` extra bits of a key, and `dec`, which lists
the variables a key is decoded from. The hash values are arbitrary. -/
namespace PaxosPsi
open CountedLoop XorAlgebra

abbrev Key := BitVec 64

structure Hashing where
  tableRealSize : Nat
  gamma : Nat
  firstHash : Key → BitVec 64
  secondHash : Key → BitVec 64
  DH : Key → BitVec 64
  occupied : 0 < tableRealSize
  gammaLow : 1 ≤ gamma
  gammaHigh : gamma ≤ 64

namespace Hashing
variable (h : Hashing)

def firstBucket (key : Key) : Nat := (h.firstHash key).toNat % h.tableRealSize

def secondBucket (key : Key) : Nat := (h.secondHash key).toNat % h.tableRealSize

def getDHBits (key : Key) : BitVec 64 := h.DH key >>> (64 - h.gamma)

def decLoop (n : Nat) (s : List Nat × BitVec 64) : List Nat × BitVec 64 :=
  forLoop n (fun j s => (if s.2 &&& 1#64 = 1#64 then s.1 ++ [j] else s.1, s.2 >>> 1)) s

/-- The entries of `indices` that `dec` fills; the returned counter is their number. -/
def dec (key : Key) : List Nat :=
  (decLoop h.gamma ([h.firstBucket key, h.secondBucket key], h.getDHBits key)).1

def extra (key : Key) : List Nat := (List.range h.gamma).filter fun j => (h.getDHBits key).getLsbD j

def rowsOf (key : Key) : List Nat :=
  h.firstBucket key :: (h.tableRealSize + h.secondBucket key) :: (h.extra key).map (2 * h.tableRealSize + ·)

def size : Nat := 2 * h.tableRealSize + h.gamma

theorem firstBucketBound (key : Key) : h.firstBucket key < h.tableRealSize := Nat.mod_lt _ h.occupied

theorem secondBucketBound (key : Key) : h.secondBucket key < h.tableRealSize := Nat.mod_lt _ h.occupied

theorem lowBit (bits : BitVec 64) : (bits &&& 1#64 = 1#64) ↔ bits.getLsbD 0 = true := by
  constructor
  · intro set
    have bit := congrArg (·.getLsbD 0) set
    simpa using bit
  · intro set
    apply BitVec.eq_of_getLsbD_eq
    intro i inside
    rw [BitVec.getLsbD_and, BitVec.getLsbD_one]
    by_cases here : i = 0
    · subst i
      simp [set]
    · simp [here]

theorem decLoopSpec (n : Nat) (indices : List Nat) (bits : BitVec 64) :
    decLoop n (indices, bits) =
      (indices ++ (List.range n).filter fun j => bits.getLsbD j, bits >>> n) := by
  induction n with
  | zero => simp [decLoop]
  | succ n ih =>
    unfold decLoop at ih ⊢
    rw [forLoopSucc, ih]
    have bit : (bits >>> n).getLsbD 0 = bits.getLsbD n := by simp
    simp only [lowBit, bit, List.range_succ, List.filter_append, BitVec.shiftRight_add]
    cases here : bits.getLsbD n <;> simp [here]

theorem decSpec (key : Key) : h.dec key = h.firstBucket key :: h.secondBucket key :: h.extra key := by
  unfold dec
  rw [decLoopSpec]
  rfl

theorem extraBound {key : Key} {j : Nat} (listed : j ∈ h.extra key) : j < h.gamma := by
  simpa using (List.mem_filter.mp listed).1

theorem rowsOfBound {key : Key} {i : Nat} (listed : i ∈ h.rowsOf key) : i < h.size := by
  have left := h.firstBucketBound key
  have right := h.secondBucketBound key
  unfold rowsOf at listed
  unfold size
  rcases List.mem_cons.mp listed with rfl | listed
  · omega
  · rcases List.mem_cons.mp listed with rfl | listed
    · omega
    · obtain ⟨j, extra, rfl⟩ := List.mem_map.mp listed
      have bound := h.extraBound extra
      omega

end Hashing
end PaxosPsi
