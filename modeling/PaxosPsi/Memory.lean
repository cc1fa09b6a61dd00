import PaxosPsi.Library.XorAlgebra
import Mathlib

/-! Byte and block views of memory, and the `Matrix<block>` of cryptoTools.
A pointer is a function from offsets. Rows live in one flat buffer, so the
pointer arithmetic of the callers is visible as arithmetic on offsets. -/
namespace PaxosPsi.Memory
open CountedLoop XorAlgebra

abbrev Byte := BitVec 8
abbrev Block := BitVec 128

abbrev Bytes := Nat → Byte

abbrev Blocks := Nat → Block

def bytesOf (m : Blocks) : Bytes := fun i => (m (i / 16)).extractLsb' (8 * (i % 16)) 8

def blocksOf (b : Bytes) : Blocks := fun a =>
  BitVec.ofFnLE fun k : Fin 128 => (b (16 * a + k / 8)).getLsbD (k % 8)

theorem bytesOfBlocksOf (b : Bytes) : bytesOf (blocksOf b) = b := by
  funext i
  apply BitVec.eq_of_getLsbD_eq
  intro k bound
  have inside : 8 * (i % 16) + k < 128 := by omega
  have byte : 16 * (i / 16) + (8 * (i % 16) + k) / 8 = i := by omega
  have bit : (8 * (i % 16) + k) % 8 = k := by omega
  simp [bytesOf, blocksOf, bound, inside, byte, bit]

theorem blocksOfBytesOf (m : Blocks) : blocksOf (bytesOf m) = m := by
  funext a
  apply BitVec.eq_of_getLsbD_eq
  intro k bound
  have block : (16 * a + k / 8) / 16 = a := by omega
  have byte : 8 * (k / 8 % 16) + k % 8 = k := by omega
  have small : k % 8 < 8 := by omega
  simp [bytesOf, blocksOf, bound, block, byte, small, BitVec.getLsbD_eq_getElem]

theorem bytesOfXor (m n : Blocks) (i : Nat) :
    bytesOf (fun a => m a ^^^ n a) i = bytesOf m i ^^^ bytesOf n i := by
  apply BitVec.eq_of_getLsbD_eq
  intro k bound
  simp [bytesOf, bound]

theorem bytesOfZero : bytesOf (fun _ => 0#128) = fun _ => 0#8 := by
  funext i
  apply BitVec.eq_of_getLsbD_eq
  intro k bound
  simp [bytesOf]

theorem bytesOfCongr {m n : Blocks} {i : Nat} (same : m (i / 16) = n (i / 16)) :
    bytesOf m i = bytesOf n i := by
  simp only [bytesOf, same]

def memcpy (m : Blocks) (base : Nat) (src : Bytes) (count : Nat) : Blocks := fun a =>
  if base ≤ a then
    blocksOf (fun i => if i < count then src i else bytesOf (fun k => m (base + k)) i) (a - base)
  else m a

theorem memcpyBytes (m : Blocks) (base : Nat) (src : Bytes) (count i : Nat) :
    bytesOf (fun k => memcpy m base src count (base + k)) i =
      if i < count then src i else bytesOf (fun k => m (base + k)) i := by
  have view : (fun k => memcpy m base src count (base + k)) =
      blocksOf (fun i => if i < count then src i else bytesOf (fun k => m (base + k)) i) := by
    funext k
    simp [memcpy]
  rw [view, bytesOfBlocksOf]

theorem memcpyOutside (m : Blocks) (base : Nat) (src : Bytes) (count : Nat) {a : Nat}
    (outside : a < base ∨ base + (count + 15) / 16 ≤ a) : memcpy m base src count a = m a := by
  unfold memcpy
  split
  · rename_i reached
    have back : base + (a - base) = a := by omega
    have keep := congrFun (blocksOfBytesOf fun k => m (base + k)) (a - base)
    simp only [back] at keep
    rw [← keep]
    apply BitVec.eq_of_getLsbD_eq
    intro k bound
    have far : ¬ 16 * (a - base) + k / 8 < count := by omega
    simp [blocksOf, bound, far]
  · rfl

def xorAt (m : Blocks) (a : Nat) (value : Block) : Blocks := Function.update m a (m a ^^^ value)

theorem xorSpan (m : Blocks) (base n : Nat) (value : Nat → Block) {a : Nat} :
    forLoop n (fun i m => xorAt m (base + i) (value i)) m a =
      if base ≤ a ∧ a < base + n then m a ^^^ value (a - base) else m a := by
  induction n generalizing a with
  | zero => exact (if_neg (by omega)).symm
  | succ n ih =>
    rw [forLoopSucc, xorAt]
    by_cases here : a = base + n
    · subst a
      have before := ih (a := base + n)
      rw [if_neg (by omega)] at before
      rw [Function.update_self, before, if_pos (by omega), Nat.add_sub_cancel_left]
    · rw [Function.update_of_ne here, ih]
      congr 1
      exact propext (by omega)

theorem updateSpan (m : Blocks) (base n : Nat) (value : Nat → Block) {a : Nat} :
    forLoop n (fun i m => Function.update m (base + i) (value i)) m a =
      if base ≤ a ∧ a < base + n then value (a - base) else m a := by
  induction n with
  | zero => exact (if_neg (by omega)).symm
  | succ n ih =>
    rw [forLoopSucc]
    by_cases here : a = base + n
    · subst a
      rw [Function.update_self, if_pos (by omega), Nat.add_sub_cancel_left]
    · rw [Function.update_of_ne here, ih]
      congr 1
      exact propext (by omega)

/-- `std::vector`: entries past the size are never read. -/
structure Vec (α : Type*) where
  size : Nat
  get : Nat → α

def Vec.resize {α : Type*} (v : Vec α) (size : Nat) (value : α) : Vec α :=
  { size, get := fun i => if i < min v.size size then v.get i else value }

/-- `Matrix<block>`: a flat buffer with a capacity, a size in blocks and a stride. -/
structure Matrix where
  mCapacity : Nat
  size : Nat
  mStride : Nat
  mView : Blocks

namespace Matrix

def new : Matrix := ⟨0, 0, 0, fun _ => 0#128⟩

def rows (m : Matrix) : Nat := if m.mStride = 0 then 0 else m.size / m.mStride

/-- Reused capacity is not cleared: the `memset` counts bytes where blocks are meant. -/
def resize (m : Matrix) (rows columns : Nat) : Matrix :=
  if m.mCapacity < rows * columns then
    { mCapacity := rows * columns
      size := rows * columns
      mStride := columns
      mView := fun a => if a < min m.size (rows * columns) then m.mView a else 0#128 }
  else
    let newSize := rows * columns
    { mCapacity := m.mCapacity
      size := newSize
      mStride := columns
      mView :=
        if m.size < newSize then memcpy m.mView m.size (fun _ => 0#8) (newSize - m.size)
        else m.mView }

/-- `m = Matrix<block>()` binds to the copy assignment, which resizes and keeps the buffer. -/
def assignEmpty (m : Matrix) : Matrix := m.resize 0 0

def read (m : Matrix) (row col : Nat) : Block := m.mView (row * m.mStride + col)

def write (m : Matrix) (row col : Nat) (value : Block) : Matrix :=
  { m with mView := Function.update m.mView (row * m.mStride + col) value }

@[simp] theorem writeStride (m : Matrix) (row col : Nat) (value : Block) :
    (m.write row col value).mStride = m.mStride := rfl

@[simp] theorem writeSize (m : Matrix) (row col : Nat) (value : Block) :
    (m.write row col value).size = m.size := rfl

@[simp] theorem resizeStride (m : Matrix) (rows columns : Nat) : (m.resize rows columns).mStride = columns := by
  unfold resize; split <;> rfl

@[simp] theorem resizeSize (m : Matrix) (rows columns : Nat) : (m.resize rows columns).size = rows * columns := by
  unfold resize; split <;> rfl

theorem resizeRows (m : Matrix) (n columns : Nat) (wide : 0 < columns) :
    (m.resize n columns).rows = n := by
  have positive : columns ≠ 0 := by omega
  simp [rows, positive, Nat.mul_div_cancel _ wide]

end Matrix

theorem offsetInjective {stride r c r' c' : Nat} (inside : c < stride) (inside' : c' < stride)
    (same : r * stride + c = r' * stride + c') : r = r' ∧ c = c' := by
  have positive : 0 < stride := by omega
  have rows := congrArg (· / stride) same
  have cols := congrArg (· % stride) same
  simp only [Nat.mul_add_mod_self_right, Nat.mod_eq_of_lt inside, Nat.mod_eq_of_lt inside'] at cols
  simp only [Nat.add_comm (_ * _), Nat.add_mul_div_right _ _ positive, Nat.div_eq_of_lt inside,
    Nat.div_eq_of_lt inside', Nat.zero_add] at rows
  exact ⟨rows, cols⟩

theorem Matrix.readWrite {m : Matrix} {row col row' col' : Nat} (value : Block)
    (inside : col < m.mStride) (inside' : col' < m.mStride) :
    (m.write row col value).read row' col' =
      if row' = row ∧ col' = col then value else m.read row' col' := by
  unfold Matrix.read Matrix.write
  dsimp only
  by_cases here : row' * m.mStride + col' = row * m.mStride + col
  · obtain ⟨rfl, rfl⟩ := offsetInjective inside' inside here
    simp
  · rw [Function.update_of_ne here, if_neg]
    rintro ⟨rfl, rfl⟩
    exact here rfl

end PaxosPsi.Memory
