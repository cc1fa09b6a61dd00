import PaxosPsi.Library.CountedLoop
import Mathlib.Data.List.Basic
import Mathlib.Data.List.Perm.Basic

/-! Exclusive-or sums of machine words. Everything a linear code or a masked
combination needs: sums split over `^^^`, absorb a common mask and commute with
maps that respect `^^^`. -/
namespace PaxosPsi.XorAlgebra
open CountedLoop

variable {w v : Nat} {α : Type*}

def xorSum (words : List (BitVec w)) : BitVec w := words.foldr (· ^^^ ·) 0#w

@[simp] theorem xorSumNil : xorSum ([] : List (BitVec w)) = 0#w := rfl

@[simp] theorem xorSumCons (a : BitVec w) (l : List (BitVec w)) : xorSum (a :: l) = a ^^^ xorSum l := rfl

theorem xorXorComm (a b c d : BitVec w) : (a ^^^ b) ^^^ (c ^^^ d) = (a ^^^ c) ^^^ (b ^^^ d) := by
  rw [BitVec.xor_assoc, BitVec.xor_assoc, ← BitVec.xor_assoc b, ← BitVec.xor_assoc c, BitVec.xor_comm b c]

@[simp] theorem xorCancelLeft (a b : BitVec w) : a ^^^ (a ^^^ b) = b := by
  rw [← BitVec.xor_assoc, BitVec.xor_self, BitVec.zero_xor]

theorem xorEqSelf {w : Nat} (a b : BitVec w) : a ^^^ b = a ↔ b = 0#w := by
  constructor
  · intro same
    have cancelled := xorCancelLeft a b
    rwa [same, BitVec.xor_self, eq_comm] at cancelled
  · rintro rfl
    exact BitVec.xor_zero

theorem andXorDistrib (a b s : BitVec w) : (a ^^^ b) &&& s = (a &&& s) ^^^ (b &&& s) := by
  ext i
  simp only [BitVec.getElem_and, BitVec.getElem_xor]
  cases a[i] <;> cases b[i] <;> cases s[i] <;> rfl

/-- Swapping in `b` under a mask and then adding `a ^ b` and `c` under it leaves `c` under it. -/
theorem maskedExchange (a b c s : BitVec w) :
    (a ^^^ ((a ^^^ b) &&& s)) ^^^ ((c ^^^ a ^^^ b) &&& s) = a ^^^ (c &&& s) := by
  rw [BitVec.xor_assoc c, andXorDistrib c, BitVec.xor_assoc, BitVec.xor_comm (c &&& s), xorCancelLeft]

theorem xorSumAppend (l r : List (BitVec w)) : xorSum (l ++ r) = xorSum l ^^^ xorSum r := by
  induction l with
  | nil => simp
  | cons a l ih => simp [ih, BitVec.xor_assoc]

theorem xorSumXor (l : List α) (f g : α → BitVec w) :
    xorSum (l.map fun a => f a ^^^ g a) = xorSum (l.map f) ^^^ xorSum (l.map g) := by
  induction l with
  | nil => simp
  | cons a l ih => simp only [List.map_cons, xorSumCons, ih, xorXorComm]

theorem xorSumMap (l : List α) (f : α → BitVec w) (g : BitVec w → BitVec v) (zero : g 0#w = 0#v)
    (linear : ∀ a b, g (a ^^^ b) = g a ^^^ g b) :
    xorSum (l.map fun a => g (f a)) = g (xorSum (l.map f)) := by
  induction l with
  | nil => simp [zero]
  | cons a l ih => simp [ih, linear]

theorem xorSumMask (l : List α) (f : α → BitVec w) (s : BitVec w) :
    xorSum (l.map fun a => f a &&& s) = xorSum (l.map f) &&& s :=
  xorSumMap l f (· &&& s) BitVec.zero_and fun a b => andXorDistrib a b s

theorem xorSumZero (l : List α) : xorSum (l.map fun _ => 0#w) = 0#w := by
  induction l with
  | nil => rfl
  | cons a l ih => rw [List.map_cons, xorSumCons, ih, BitVec.xor_self]

theorem xorSumCongr {l : List α} {f g : α → BitVec w} (same : ∀ a ∈ l, f a = g a) :
    xorSum (l.map f) = xorSum (l.map g) := by
  rw [List.map_congr_left same]

theorem xorSumPerm {l r : List (BitVec w)} (perm : l.Perm r) : xorSum l = xorSum r := by
  induction perm with
  | nil => rfl
  | cons a _ ih => simp [ih]
  | swap a b l =>
    simp only [xorSumCons, ← BitVec.xor_assoc, BitVec.xor_comm a b]
  | trans _ _ left right => exact left.trans right

theorem xorSumRangeSucc (n : Nat) (f : Nat → BitVec w) :
    xorSum ((List.range (n + 1)).map f) = xorSum ((List.range n).map f) ^^^ f n := by
  simp [List.range_succ, xorSumAppend]

theorem xorSumFilter (l : List α) (p : α → Bool) (f : α → BitVec w) :
    xorSum (l.map fun a => if p a then f a else 0#w) = xorSum ((l.filter p).map f) := by
  induction l with
  | nil => rfl
  | cons a l ih => cases here : p a <;> simp [here, ih]

theorem xorSumSingle {n i : Nat} (inside : i < n) (f : Nat → BitVec w) :
    xorSum ((List.range n).map fun a => if a = i then f a else 0#w) = f i := by
  induction n with
  | zero => omega
  | succ n ih =>
    rw [xorSumRangeSucc]
    by_cases last : n = i
    · subst last
      have rest : xorSum ((List.range n).map fun a => if a = n then f a else 0#w) = 0#w := by
        refine (xorSumCongr (g := fun _ => 0#w) fun a below => ?_).trans (xorSumZero _)
        have bound := List.mem_range.mp below
        exact if_neg (by omega)
      rw [rest, if_pos rfl, BitVec.zero_xor]
    · rw [ih (by omega), if_neg last, BitVec.xor_zero]

theorem xorSumRangeAdd (a b : Nat) (f : Nat → BitVec w) :
    xorSum ((List.range (a + b)).map f) =
      xorSum ((List.range a).map f) ^^^ xorSum ((List.range b).map fun i => f (a + i)) := by
  rw [List.range_add, List.map_append, xorSumAppend, List.map_map]
  rfl

theorem xorSumGroups (n m : Nat) (f : Nat → BitVec w) :
    xorSum ((List.range (n * m)).map f) =
      xorSum ((List.range n).map fun i => xorSum ((List.range m).map fun g => f (i * m + g))) := by
  induction n with
  | zero => rw [Nat.zero_mul]; rfl
  | succ n ih => rw [Nat.succ_mul, xorSumRangeAdd, ih, xorSumRangeSucc]

theorem xorSumSwap {β : Type*} (l : List α) (m : List β) (f : α → β → BitVec w) :
    xorSum (l.map fun a => xorSum (m.map (f a))) = xorSum (m.map fun b => xorSum (l.map fun a => f a b)) := by
  induction l with
  | nil => exact (xorSumZero m).symm
  | cons a l ih => simp only [List.map_cons, xorSumCons, ih, xorSumXor]

theorem foldlXor (l : List α) (f : α → BitVec w) (a : BitVec w) :
    l.foldl (fun acc i => acc ^^^ f i) a = a ^^^ xorSum (l.map f) := by
  induction l generalizing a with
  | nil => simp
  | cons b l ih => rw [List.foldl_cons, ih, List.map_cons, xorSumCons, BitVec.xor_assoc]

theorem forLoopXorAt (n : Nat) (f : Nat → α → BitVec w) (c : α → BitVec w) (m : α) :
    forLoop n (fun i c m => c m ^^^ f i m) c m = c m ^^^ xorSum ((List.range n).map fun i => f i m) := by
  induction n with
  | zero => simp
  | succ n ih => rw [forLoopSucc, ih, xorSumRangeSucc, BitVec.xor_assoc]

theorem forLoopXorSplit (n : Nat) (f g h : Nat → α → BitVec w) (m : α)
    (split : ∀ i, h i m = f i m ^^^ g i m) :
    forLoop n (fun i c m => c m ^^^ h i m) (fun _ => 0#w) m =
      forLoop n (fun i c m => c m ^^^ f i m) (fun _ => 0#w) m ^^^
        forLoop n (fun i c m => c m ^^^ g i m) (fun _ => 0#w) m := by
  simp only [forLoopXorAt, BitVec.zero_xor, ← xorSumXor]
  exact xorSumCongr fun i _ => split i

end PaxosPsi.XorAlgebra
