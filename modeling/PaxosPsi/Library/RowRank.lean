import PaxosPsi.Library.XorAlgebra
import Mathlib.Data.Nat.Bitwise

/-! Independence of rows over two elements, each packed into one number. A row is
eliminated by clearing its lowest bit in all rows behind it. One elimination serves
every leading part of the matrix that holds the pivots of its rows. -/
namespace PaxosPsi.RowRank
open XorAlgebra

def combine : List Nat → (Nat → Bool) → Nat
  | [], _ => 0
  | row :: rest, c => (if c 0 then row else 0) ^^^ combine rest fun i => c (i + 1)

def lowBit (row : Nat) : Nat := (row ^^^ (row - 1)).log2

def clear (pivot k row : Nat) : Nat := row ^^^ (row >>> k % 2 * pivot)

def independent (bound : Nat → Nat) : Nat → Nat → List Nat → Bool
  | _, _, [] => true
  | 0, _, _ => false
  | fuel + 1, i, pivot :: rest =>
    Nat.blt (lowBit pivot) (bound i) && pivot.testBit (lowBit pivot) &&
      independent bound fuel (i + 1) (rest.map (clear pivot (lowBit pivot)))

theorem clearSpec (pivot k row : Nat) : clear pivot k row = if row.testBit k then row ^^^ pivot else row := by
  have bit : row.testBit k = decide (row / 2 ^ k % 2 = 1) := Nat.testBit_eq_decide_div_mod_eq
  unfold clear
  rw [Nat.shiftRight_eq_div_pow]
  split
  · rename_i set
    rw [of_decide_eq_true (bit.symm.trans set), Nat.one_mul]
  · rename_i unset
    have odd : row / 2 ^ k % 2 ≠ 1 := fun one => unset (bit.trans (decide_eq_true one))
    rw [show row / 2 ^ k % 2 = 0 by omega, Nat.zero_mul, Nat.xor_zero]

theorem clearBit {pivot k : Nat} (set : pivot.testBit k = true) (row : Nat) : (clear pivot k row).testBit k = false := by
  rw [clearSpec]
  split
  · rename_i both
    rw [Nat.testBit_xor, both, set]
    rfl
  · rename_i unset
    exact Bool.eq_false_iff.mpr unset

theorem combineBit {rows : List Nat} {k : Nat} (unset : ∀ row ∈ rows, row.testBit k = false) (c : Nat → Bool) :
    (combine rows c).testBit k = false := by
  induction rows generalizing c with
  | nil => exact Nat.zero_testBit k
  | cons row rest ih =>
    have first : (if c 0 then row else 0).testBit k = false := by
      split
      · exact unset row (List.mem_cons_self ..)
      · exact Nat.zero_testBit k
    rw [combine, Nat.testBit_xor, first, ih fun row listed => unset row (List.mem_cons_of_mem _ listed)]
    rfl

theorem combineNone {rows : List Nat} {c : Nat → Bool} (unused : ∀ i < rows.length, c i = false) :
    combine rows c = 0 := by
  induction rows generalizing c with
  | nil => rfl
  | cons row rest ih =>
    have tail := ih fun i inside => unused (i + 1) (Nat.succ_lt_succ inside)
    rw [combine, unused 0 (Nat.succ_pos _), tail]
    simp

theorem combineWords {w k t : Nat} {rows : List Nat} {word : Nat → BitVec w}
    (column : ∀ r < rows.length, (word r).getLsbD t = (rows.getD r 0).testBit k) (c : Nat → Bool) :
    (combine rows c).testBit k =
      (xorSum ((List.range rows.length).map fun r => if c r then word r else 0#w)).getLsbD t := by
  induction rows generalizing word c with
  | nil => simp [combine]
  | cons row rest ih =>
    have first := column 0 (Nat.succ_pos _)
    have shifted : ∀ r < rest.length, (word (r + 1)).getLsbD t = (rest.getD r 0).testBit k :=
      fun r inside => column (r + 1) (Nat.succ_lt_succ inside)
    have later := ih shifted fun r => c (r + 1)
    rw [List.getD_cons_zero] at first
    rw [combine, Nat.testBit_xor, later, List.length_cons, List.range_succ_eq_map, List.map_cons, xorSumCons,
      BitVec.getLsbD_xor, List.map_map]
    congr 1
    cases c 0 <;> simp [first]

theorem combineClear (pivot k : Nat) (rows : List Nat) (c : Nat → Bool) :
    ∃ odd : Bool, combine (rows.map (clear pivot k)) c = combine rows c ^^^ if odd then pivot else 0 := by
  induction rows generalizing c with
  | nil => exact ⟨false, by simp [combine]⟩
  | cons row rest ih =>
    obtain ⟨odd, cleared⟩ := ih fun i => c (i + 1)
    rw [List.map_cons, combine, combine, cleared, clearSpec]
    by_cases used : c 0 = true ∧ row.testBit k = true
    · refine ⟨!odd, ?_⟩
      rw [used.1, used.2]
      cases odd <;> grind
    · refine ⟨odd, ?_⟩
      have kept : (if c 0 then if row.testBit k then row ^^^ pivot else row else 0) = if c 0 then row else 0 := by
        split
        · rename_i first
          exact if_neg fun set => used ⟨first, set⟩
        · rfl
      rw [kept, Nat.xor_assoc]

/-- A combination of the first `m` rows whose bits below `n` all vanish has no
coefficient, when the pivots of these rows lie below `n`. -/
theorem independentSpec {bound : Nat → Nat} {fuel i : Nat} {rows : List Nat}
    (passed : independent bound fuel i rows = true) {m n : Nat} (short : m ≤ rows.length)
    (pivots : ∀ r < m, bound (i + r) ≤ n) {c : Nat → Bool}
    (zero : ∀ k < n, (combine (rows.take m) c).testBit k = false) {r : Nat} (inside : r < m) : c r = false := by
  induction fuel generalizing i rows m c r with
  | zero =>
    cases rows with
    | nil => exact absurd inside (by rw [List.length_nil] at short; omega)
    | cons pivot rest => exact absurd passed Bool.false_ne_true
  | succ fuel ih =>
    cases rows with
    | nil => exact absurd inside (by rw [List.length_nil] at short; omega)
    | cons pivot rest =>
      obtain ⟨m, rfl⟩ : ∃ m', m = m' + 1 := ⟨m - 1, by omega⟩
      simp only [independent, Bool.and_eq_true, Nat.blt_eq] at passed
      obtain ⟨⟨low, set⟩, later⟩ := passed
      have reached : lowBit pivot < n := Nat.lt_of_lt_of_le low (pivots 0 (Nat.succ_pos m))
      obtain ⟨odd, cleared⟩ := combineClear pivot (lowBit pivot) (rest.take m) fun i => c (i + 1)
      rw [List.take_succ_cons, combine] at zero
      have bits : ∀ k < n, (combine ((rest.take m).map (clear pivot (lowBit pivot))) fun i => c (i + 1)).testBit k =
          ((c 0 ^^ odd) && pivot.testBit k) := by
        intro k below
        have cancels := zero k below
        have scaled : ∀ b : Bool, (if b then pivot else 0).testBit k = (b && pivot.testBit k) := by
          intro b
          cases b <;> simp
        rw [cleared, Nat.testBit_xor, scaled]
        rw [Nat.testBit_xor, scaled] at cancels
        grind
      have empty : ∀ row ∈ (rest.take m).map (clear pivot (lowBit pivot)), row.testBit (lowBit pivot) = false := by
        intro row listed
        obtain ⟨old, -, rfl⟩ := List.mem_map.mp listed
        exact clearBit set old
      have unset := combineBit empty fun i => c (i + 1)
      -- no cleared row has the bit of the pivot, so what is left of the pivot must cancel by itself
      have even : (c 0 ^^ odd) = false := by
        rw [bits _ reached, set, Bool.and_true] at unset
        exact unset
      have tail : ∀ j < m, c (j + 1) = false := by
        intro j below
        refine ih (m := m) (c := fun i => c (i + 1)) later ?_ ?_ ?_ below
        · rw [List.length_map]
          exact Nat.le_of_succ_le_succ short
        · intro r' small
          have moved := pivots (r' + 1) (Nat.succ_lt_succ small)
          rwa [← Nat.add_assoc, Nat.add_right_comm] at moved
        · intro k below
          rw [← List.map_take, bits k below, even, Bool.false_and]
      cases r with
      | succ j => exact tail j (Nat.lt_of_succ_lt_succ inside)
      | zero =>
        have none : combine (rest.take m) (fun i => c (i + 1)) = 0 :=
          combineNone fun j short => tail j (Nat.lt_of_lt_of_le short (List.length_take_le _ _))
        have first := zero _ reached
        rw [none, Nat.xor_zero] at first
        cases used : c 0 with
        | false => rfl
        | true =>
          rw [used, if_pos rfl, set] at first
          exact first

end PaxosPsi.RowRank
