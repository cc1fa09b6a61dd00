import PaxosPsi.Prng

/-! The pad expansion both parties run in `init`: every column of 128 generators is
drawn straight from the AES counter, transposed 1024 rows at a time and copied
into the long-term matrix. A row past the last requested one is thrown away. -/
namespace PaxosPsi
open CountedLoop XorAlgebra Memory

def superBlkSize : Nat := 8

structure Expansion where
  mGens : Nat → PRNG
  mT : Matrix

namespace Expansion

def drawColumn (colIdx tIdx : Nat) (s : (Nat → PRNG) × Blocks) : (Nat → PRNG) × Blocks :=
  let gen := s.1 colIdx
  (Function.update s.1 colIdx (gen.skip superBlkSize),
    fun a => if a / superBlkSize = tIdx then
        ecbEncCounterMode gen.mAes gen.mBlockIdx (a % superBlkSize) else s.2 a)

def drawColumns (mGens : Nat → PRNG) (i : Nat) : (Nat → PRNG) × Blocks :=
  forLoop 128 (fun tIdx => drawColumn (i * 128 + tIdx) tIdx) (mGens, fun _ => 0#128)

/-- `t[k][j]` of the result is row `j * 128 + k` of the 1024 rows. -/
def sse_transpose128x1024 (t : Blocks) : Blocks := fun a =>
  BitVec.ofFnLE fun c : Fin 128 => (t (c * superBlkSize + a % superBlkSize)).getLsbD (a / superBlkSize)

/-- The two copy loops: `j` counts groups of 128 rows and `k` the rows of one group. -/
def copyRows (t : Blocks) (doneIdx stopIdx i : Nat) (mT : Matrix) : Matrix :=
  forLoop ((stopIdx - doneIdx + 127) / 128)
    (fun j mT => forLoop (min 128 (stopIdx - doneIdx - j * 128))
      (fun k mT => mT.write (doneIdx + j * 128 + k) i (t (k * superBlkSize + j))) mT) mT

def expandColumns (doneIdx stopIdx i : Nat) (s : Expansion) : Expansion :=
  let drawn := drawColumns s.mGens i
  { mGens := drawn.1, mT := copyRows (sse_transpose128x1024 drawn.2) doneIdx stopIdx i s.mT }

def stopIdx (rows doneIdx : Nat) : Nat := doneIdx + min (128 * superBlkSize) (rows - doneIdx)

def superBlock (rows numCols : Nat) (s : Nat × Expansion) : Nat × Expansion :=
  (stopIdx rows s.1, forLoop (numCols / 128) (expandColumns s.1 (stopIdx rows s.1)) s.2)

def numSuperBlocks (rows : Nat) : Nat := (rows / 128 + superBlkSize - 1) / superBlkSize

def expand (rows numCols : Nat) (s : Expansion) : Expansion :=
  (forLoop (numSuperBlocks rows) (fun _ => superBlock rows numCols) (0, s)).2

def superBlockPair (rows numCols : Nat) (s : Nat × Expansion × Expansion) : Nat × Expansion × Expansion :=
  (stopIdx rows s.1, forLoop (numCols / 128) (fun i p =>
    (expandColumns s.1 (stopIdx rows s.1) i p.1, expandColumns s.1 (stopIdx rows s.1) i p.2)) s.2)

def expandPair (rows numCols : Nat) (s : Expansion × Expansion) : Expansion × Expansion :=
  (forLoop (numSuperBlocks rows) (fun _ => superBlockPair rows numCols) (0, s)).2

theorem superBlockPairSplits (rows numCols : Nat) {s t : Nat × Expansion} (together : s.1 = t.1) :
    superBlockPair rows numCols (s.1, s.2, t.2) =
      ((superBlock rows numCols s).1, (superBlock rows numCols s).2, (superBlock rows numCols t).2) := by
  unfold superBlockPair superBlock
  dsimp only
  rw [forLoopPair, together]

theorem expandPairSplits (rows numCols : Nat) (s t : Expansion) :
    expandPair rows numCols (s, t) = (expand rows numCols s, expand rows numCols t) := by
  have together : ∀ n, forLoop n (fun _ => superBlockPair rows numCols) (0, s, t) =
      ((forLoop n (fun _ => superBlock rows numCols) (0, s)).1,
        (forLoop n (fun _ => superBlock rows numCols) (0, s)).2,
        (forLoop n (fun _ => superBlock rows numCols) (0, t)).2) ∧
      (forLoop n (fun _ => superBlock rows numCols) (0, s)).1 =
        (forLoop n (fun _ => superBlock rows numCols) (0, t)).1 := by
    intro n
    induction n with
    | zero => exact ⟨rfl, rfl⟩
    | succ n ih =>
      obtain ⟨same, done⟩ := ih
      simp only [forLoopSucc]
      refine ⟨?_, congrArg (stopIdx rows) done⟩
      rw [same]
      exact superBlockPairSplits rows numCols done
  unfold expandPair expand
  rw [(together _).1]

/-- The block of row `row` and column group `i`, read off the key streams. -/
def padBlock (mGens : Nat → PRNG) (row i : Nat) : Block :=
  BitVec.ofFnLE fun c : Fin 128 =>
    (ecbEncCounterMode (mGens (i * 128 + c)).mAes (mGens (i * 128 + c)).mBlockIdx (row / 128)).getLsbD (row % 128)

theorem drawColumnGens (colIdx tIdx : Nat) (s : (Nat → PRNG) × Blocks) :
    (drawColumn colIdx tIdx s).1 = Function.update s.1 colIdx ((s.1 colIdx).skip superBlkSize) := rfl

theorem drawColumnBlocks (colIdx tIdx : Nat) (s : (Nat → PRNG) × Blocks) (a : Nat) :
    (drawColumn colIdx tIdx s).2 a = if a / superBlkSize = tIdx then
      ecbEncCounterMode (s.1 colIdx).mAes (s.1 colIdx).mBlockIdx (a % superBlkSize) else s.2 a := rfl

theorem drawColumnsSpec (mGens : Nat → PRNG) (i : Nat) :
    (∀ c, (drawColumns mGens i).1 c =
      if i * 128 ≤ c ∧ c < i * 128 + 128 then (mGens c).skip superBlkSize else mGens c) ∧
    ∀ a < 1024, (drawColumns mGens i).2 a = ecbEncCounterMode (mGens (i * 128 + a / superBlkSize)).mAes
      (mGens (i * 128 + a / superBlkSize)).mBlockIdx (a % superBlkSize) := by
  have drawn : ∀ n, (∀ c, (forLoop n (fun tIdx => drawColumn (i * 128 + tIdx) tIdx)
        (mGens, fun _ => 0#128)).1 c =
        if i * 128 ≤ c ∧ c < i * 128 + n then (mGens c).skip superBlkSize else mGens c) ∧
      ∀ a, a / superBlkSize < n → (forLoop n (fun tIdx => drawColumn (i * 128 + tIdx) tIdx)
        (mGens, fun _ => 0#128)).2 a =
        ecbEncCounterMode (mGens (i * 128 + a / superBlkSize)).mAes
          (mGens (i * 128 + a / superBlkSize)).mBlockIdx (a % superBlkSize) := by
    intro n
    induction n with
    | zero =>
      refine ⟨fun c => ?_, fun a none => absurd none (Nat.not_lt_zero _)⟩
      rw [forLoopZero, if_neg (by omega)]
    | succ n ih =>
      obtain ⟨gens, blocks⟩ := ih
      have untouched := gens (i * 128 + n)
      rw [if_neg (by omega)] at untouched
      refine ⟨fun c => ?_, fun a inside => ?_⟩
      · rw [forLoopSucc, drawColumnGens]
        by_cases here : c = i * 128 + n
        · subst c
          rw [Function.update_self, untouched, if_pos (by omega)]
        · rw [Function.update_of_ne here, gens]
          congr 1
          exact propext (by omega)
      · rw [forLoopSucc, drawColumnBlocks]
        split
        · rename_i here
          rw [untouched, here]
        · exact blocks a (by omega)
  refine ⟨(drawn 128).1, fun a inside => (drawn 128).2 a ?_⟩
  unfold superBlkSize
  omega

theorem copyGroup {mT : Matrix} {i : Nat} (inside : i < mT.mStride) (value : Nat → Block) (base n : Nat) :
    (forLoop n (fun k mT => mT.write (base + k) i (value k)) mT).mStride = mT.mStride ∧
    (forLoop n (fun k mT => mT.write (base + k) i (value k)) mT).size = mT.size ∧
    ∀ row col, col < mT.mStride →
      (forLoop n (fun k mT => mT.write (base + k) i (value k)) mT).read row col =
        if col = i ∧ base ≤ row ∧ row < base + n then value (row - base) else mT.read row col := by
  induction n with
  | zero =>
    refine ⟨rfl, rfl, fun row col _ => ?_⟩
    rw [forLoopZero, if_neg (by omega)]
  | succ n ih =>
    obtain ⟨stride, size, rows⟩ := ih
    refine ⟨by rw [forLoopSucc, Matrix.writeStride, stride],
      by rw [forLoopSucc, Matrix.writeSize, size], fun row col bound => ?_⟩
    rw [forLoopSucc, Matrix.readWrite _ (by rw [stride]; exact inside) (by rw [stride]; exact bound),
      rows row col bound]
    by_cases here : row = base + n ∧ col = i
    · obtain ⟨rfl, rfl⟩ := here
      rw [if_pos ⟨rfl, rfl⟩, if_pos ⟨rfl, by omega⟩, Nat.add_sub_cancel_left]
    · rw [if_neg here]
      congr 1
      exact propext (by omega)

theorem copyRowsSpec (t : Blocks) {mT : Matrix} {i : Nat} (inside : i < mT.mStride) (doneIdx stopIdx : Nat) :
    (copyRows t doneIdx stopIdx i mT).mStride = mT.mStride ∧
    (copyRows t doneIdx stopIdx i mT).size = mT.size ∧
    ∀ row col, col < mT.mStride → (copyRows t doneIdx stopIdx i mT).read row col =
      if col = i ∧ doneIdx ≤ row ∧ row < stopIdx then
        t ((row - doneIdx) % 128 * superBlkSize + (row - doneIdx) / 128) else mT.read row col := by
  have groups : ∀ n, n ≤ (stopIdx - doneIdx + 127) / 128 → ∀ copied, copied = forLoop n
      (fun j mT => forLoop (min 128 (stopIdx - doneIdx - j * 128))
        (fun k mT => mT.write (doneIdx + j * 128 + k) i (t (k * superBlkSize + j))) mT) mT →
      copied.mStride = mT.mStride ∧ copied.size = mT.size ∧
      ∀ row col, col < mT.mStride → copied.read row col =
        if col = i ∧ doneIdx ≤ row ∧ row < min stopIdx (doneIdx + n * 128) then
          t ((row - doneIdx) % 128 * superBlkSize + (row - doneIdx) / 128) else mT.read row col := by
    intro n
    induction n with
    | zero =>
      rintro - copied rfl
      refine ⟨rfl, rfl, fun row col _ => ?_⟩
      exact (if_neg (by omega)).symm
    | succ n ih =>
      rintro bound copied rfl
      obtain ⟨stride, size, rows⟩ := ih (by omega) _ rfl
      obtain ⟨stride', size', rows'⟩ := copyGroup (by rw [stride]; exact inside)
        (fun k => t (k * superBlkSize + n)) (doneIdx + n * 128) (min 128 (stopIdx - doneIdx - n * 128))
      refine ⟨stride'.trans stride, size'.trans size, fun row col small => ?_⟩
      rw [forLoopSucc, rows' row col (by rw [stride]; exact small), rows row col small]
      by_cases group : col = i ∧ doneIdx + n * 128 ≤ row ∧
          row < doneIdx + n * 128 + min 128 (stopIdx - doneIdx - n * 128)
      · rw [if_pos group, if_pos (by omega)]
        have k : (row - doneIdx) % 128 = row - (doneIdx + n * 128) := by omega
        have j : (row - doneIdx) / 128 = n := by omega
        rw [k, j]
      · rw [if_neg group]
        congr 1
        exact propext (by omega)
  obtain ⟨stride, size, rows⟩ := groups _ (Nat.le_refl _) _ rfl
  refine ⟨stride, size, fun row col small => ?_⟩
  rw [copyRows, rows row col small]
  congr 1
  exact propext (by omega)

theorem transposedPad (mGens : Nat → PRNG) (i : Nat) {offset : Nat} (inside : offset < 1024) :
    sse_transpose128x1024 (drawColumns mGens i).2 (offset % 128 * superBlkSize + offset / 128) =
      padBlock mGens offset i := by
  apply BitVec.eq_of_getLsbD_eq
  intro c bound
  have lane : (offset % 128 * superBlkSize + offset / 128) % superBlkSize = offset / 128 := by
    unfold superBlkSize
    omega
  have bit : (offset % 128 * superBlkSize + offset / 128) / superBlkSize = offset % 128 := by
    unfold superBlkSize
    omega
  have column : (c * superBlkSize + offset / 128) / superBlkSize = c := by
    unfold superBlkSize
    omega
  have block : (c * superBlkSize + offset / 128) % superBlkSize = offset / 128 := by
    unfold superBlkSize
    omega
  have small : c * superBlkSize + offset / 128 < 1024 := by
    unfold superBlkSize
    omega
  simp only [sse_transpose128x1024, padBlock, lane, bit, BitVec.getLsbD_ofFnLE, bound, dite_true]
  rw [(drawColumnsSpec mGens i).2 _ small, column, block]

theorem padBlockSkip (gens mGens : Nat → PRNG) (i done row : Nat)
    (ahead : ∀ c, i * 128 ≤ c → c < i * 128 + 128 → gens c = (mGens c).skip done) :
    padBlock gens row i = padBlock mGens (done * 128 + row) i := by
  have block : (done * 128 + row) / 128 = done + row / 128 := by omega
  have bit : (done * 128 + row) % 128 = row % 128 := by omega
  unfold padBlock
  congr 1
  funext c
  rw [ahead (i * 128 + c) (by omega) (by omega)]
  simp only [ecbEncCounterMode, PRNG.skipAes, PRNG.skipBlockIdx, block, bit, BitVec.ofNat_add, BitVec.add_assoc]

structure ColumnsDone (s : Expansion) (doneIdx stopIdx m : Nat) (e : Expansion) : Prop where
  stride : e.mT.mStride = s.mT.mStride
  size : e.mT.size = s.mT.size
  gens : ∀ c, e.mGens c = if c < m * 128 then (s.mGens c).skip superBlkSize else s.mGens c
  rows : ∀ row col, col < s.mT.mStride → e.mT.read row col =
    if col < m ∧ doneIdx ≤ row ∧ row < stopIdx then padBlock s.mGens (row - doneIdx) col else s.mT.read row col

theorem expandColumnsStep {s e : Expansion} {doneIdx stopIdx i : Nat} (inside : i < s.mT.mStride)
    (tile : stopIdx - doneIdx ≤ 1024) (before : ColumnsDone s doneIdx stopIdx i e) :
    ColumnsDone s doneIdx stopIdx (i + 1) (expandColumns doneIdx stopIdx i e) := by
  have bound : i < e.mT.mStride := by rw [before.stride]; exact inside
  obtain ⟨stride, size, rows⟩ :=
    copyRowsSpec (sse_transpose128x1024 (drawColumns e.mGens i).2) bound doneIdx stopIdx
  refine ⟨stride.trans before.stride, size.trans before.size, fun c => ?_, fun row col small => ?_⟩
  · have drawn := (drawColumnsSpec e.mGens i).1 c
    rw [before.gens c] at drawn
    refine drawn.trans ?_
    by_cases fresh : i * 128 ≤ c ∧ c < i * 128 + 128
    · rw [if_pos fresh, if_neg (by omega), if_pos (by omega)]
    · rw [if_neg fresh]
      congr 1
      exact propext (by omega)
  · refine (rows row col (by rw [before.stride]; exact small)).trans ?_
    by_cases here : col = i ∧ doneIdx ≤ row ∧ row < stopIdx
    · rw [if_pos here, if_pos (by omega), transposedPad e.mGens i (by omega), here.1]
      have same := padBlockSkip e.mGens s.mGens i 0 (row - doneIdx)
        fun c _ _ => by rw [before.gens c, if_neg (by omega), PRNG.skipZero]
      rw [same, Nat.zero_mul, Nat.zero_add]
    · rw [if_neg here, before.rows row col small]
      congr 1
      exact propext (by omega)

structure BlocksDone (s : Expansion) (rows n : Nat) (e : Nat × Expansion) : Prop where
  doneIdx : e.1 = min (n * 1024) rows
  stride : e.2.mT.mStride = s.mT.mStride
  size : e.2.mT.size = s.mT.size
  gens : ∀ c, e.2.mGens c =
    if c < s.mT.mStride * 128 then (s.mGens c).skip (n * superBlkSize) else s.mGens c
  read : ∀ row col, col < s.mT.mStride → row < e.1 → e.2.mT.read row col = padBlock s.mGens row col

theorem superBlockStep {s : Expansion} {rows numCols n : Nat} {e : Nat × Expansion}
    (columns : numCols / 128 = s.mT.mStride) (left : n < numSuperBlocks rows)
    (aligned : rows % 128 = 0) (before : BlocksDone s rows n e) :
    BlocksDone s rows (n + 1) (superBlock rows numCols e) := by
  have stop : stopIdx rows e.1 = min ((n + 1) * 1024) rows := by
    have done := before.doneIdx
    unfold stopIdx superBlkSize
    omega
  have start : e.1 = n * 1024 := by
    have done := before.doneIdx
    unfold numSuperBlocks superBlkSize at left
    omega
  have columnsDone : ColumnsDone e.2 e.1 (stopIdx rows e.1) s.mT.mStride
      (forLoop (numCols / 128) (expandColumns e.1 (stopIdx rows e.1)) e.2) := by
    rw [columns, ← before.stride]
    apply forLoopInvariant (ColumnsDone e.2 e.1 (stopIdx rows e.1))
    · exact ⟨rfl, rfl, fun c => by simp, fun row col _ => by simp⟩
    · intro i t inside kept
      exact expandColumnsStep inside (by rw [stop, start]; omega) kept
  refine ⟨stop, columnsDone.stride.trans before.stride, columnsDone.size.trans before.size,
    fun c => ?_, fun row col small inside => ?_⟩
  · refine (columnsDone.gens c).trans ?_
    rw [before.gens c]
    split
    · rw [PRNG.skipSkip, Nat.succ_mul]
    · rfl
  · refine (columnsDone.rows row col (by rw [before.stride]; exact small)).trans ?_
    by_cases new : e.1 ≤ row
    · rw [if_pos ⟨small, new, inside⟩]
      have shifted := padBlockSkip e.2.mGens s.mGens col (n * superBlkSize)
        (row - e.1) fun c _ _ => by rw [before.gens c, if_pos (by omega)]
      have whole : n * superBlkSize * 128 + (row - e.1) = row := by
        unfold superBlkSize
        omega
      rw [shifted, whole]
    · rw [if_neg (by omega), before.read row col small (by omega)]

theorem expandSpec (rows numCols : Nat) (s : Expansion) (columns : numCols / 128 = s.mT.mStride)
    (aligned : rows % 128 = 0) :
    (expand rows numCols s).mT.mStride = s.mT.mStride ∧ (expand rows numCols s).mT.size = s.mT.size ∧
    (∀ c, (expand rows numCols s).mGens c = if c < s.mT.mStride * 128 then
      (s.mGens c).skip (numSuperBlocks rows * superBlkSize) else s.mGens c) ∧
    ∀ row col, row < rows → col < s.mT.mStride →
      (expand rows numCols s).mT.read row col = padBlock s.mGens row col := by
  have done : BlocksDone s rows (numSuperBlocks rows)
      (forLoop (numSuperBlocks rows) (fun _ => superBlock rows numCols) (0, s)) := by
    apply forLoopInvariant (BlocksDone s rows)
    · exact ⟨by simp, rfl, rfl, fun c => by simp [PRNG.skipZero], fun row col _ none => absurd none (by omega)⟩
    · intro n e left kept
      exact superBlockStep columns left aligned kept
  refine ⟨done.stride, done.size, done.gens, fun row col inside small => done.read row col small ?_⟩
  have last := done.doneIdx
  unfold numSuperBlocks superBlkSize at last ⊢
  omega

end Expansion
end PaxosPsi
