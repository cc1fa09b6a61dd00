import PaxosPsi.LinearCode

/-! Every width of `LinearCode::encode`. Its `switch` has one loop for each way of sharing the
eight local blocks: eight slices of one block, four of two, two of four, one of eight, and past
eight blocks one column after the other. Each of them, and the unrolled `encode_bch511`, adds
the generator rows the plaintext picks, and writes nothing past the codeword. -/
namespace PaxosPsi.LinearCode
open CountedLoop XorAlgebra Memory

variable (code : LinearCode)

/-- The eight local blocks after a loop that looks up `lanes` slices a step and adds the blocks
of each from `first` on to `words` of them. -/
def lookups (byteView : Bytes) (lanes words first steps : Nat) : Blocks :=
  forLoop steps (fun t c m =>
    c m ^^^ if m < 8 then subCode code byteView (lanes * t + m / words) (first + m % words) else 0#128) fun _ => 0#128

/-- `c[m] = c[m] ^ c[m + n]` for the lower `n`. -/
def foldHalf (n : Nat) (c : Blocks) : Blocks := fun m => if m < n then c m ^^^ c (m + n) else c m

/-- `c[m] = c[m] ^ c[m + n]` for every second group of `n`. -/
def foldPairs (n : Nat) (c : Blocks) : Blocks := fun m =>
  if m % (2 * n) = 0 ∧ m < 8 then c m ^^^ c (m + n) else c m

def superRowCount : Nat := (code.plaintextU8Size + 7) / 8

def encodeColumn (byteView : Bytes) (j : Nat) : Blocks :=
  foldPairs 4 (foldPairs 2 (foldPairs 1 (lookups code byteView 8 1 j code.superRowCount)))

/-- `encode(input, codeword)` with all branches of its `switch`. -/
def encodeSwitch (stack input : Bytes) (codeword : Blocks) : Blocks :=
  let byteView := loadPlaintext code stack input
  match code.mPow2CodeSize with
  | 1 => memcpy codeword 0 (bytesOf (foldHalf 1 (foldHalf 2 (foldHalf 4
      (lookups code byteView 8 1 0 ((code.plaintextU8Size + 7) / 8)))))) code.codewordU8Size
  | 2 => memcpy codeword 0 (bytesOf (foldHalf 2 (foldHalf 4
      (lookups code byteView 4 2 0 (code.pipelinedMod8RowCount / 4))))) code.codewordU8Size
  | 3 | 4 => memcpy codeword 0 (bytesOf (foldHalf 4 (encodePairs code byteView))) code.codewordU8Size
  | 5 | 6 | 7 | 8 => memcpy codeword 0 (bytesOf (encodeSingles code byteView)) code.codewordU8Size
  | codeSize => forLoop codeSize (fun j codeword =>
      memcpy codeword j (bytesOf (encodeColumn code byteView j)) (min 16 (code.codewordU8Size - j * 16))) codeword

/-- `none` where an `Expects` of the source ends the program. -/
def encode_bch511 (input : Bytes) (codeword : Blocks) : Option Blocks :=
  if code.plaintextU8Size = 10 ∧ code.mPow2CodeSize = 4 then
    some (memcpy codeword 0 (bytesOf (foldHalf 4 (lookups code input 2 4 0 5))) code.codewordU8Size)
  else none

def rowsSum (input : Bytes) (m : Nat) : Block := xorSum ((List.range code.plaintextBitSize).map (rowTerm code input m))

section Sums
variable (stack input byteView : Bytes)

theorem lookupsFolded {lanes words : Nat} (shared : lanes * words = 8) (first steps : Nat) {m : Nat} (inside : m < words) :
    xorSum ((List.range lanes).map fun e => lookups code byteView lanes words first steps (e * words + m)) =
      xorSum ((List.range (steps * lanes)).map fun i => subCode code byteView i (first + m)) := by
  have entry : ∀ e < lanes, lookups code byteView lanes words first steps (e * words + m) =
      xorSum ((List.range steps).map fun t => subCode code byteView (t * lanes + e) (first + m)) := by
    intro e lane
    have reached : e * words + m < 8 := by
      have whole := Nat.mul_le_mul_right words (Nat.succ_le_of_lt lane)
      rw [Nat.succ_mul, shared] at whole
      omega
    have own : (e * words + m) / words = e := by
      rw [Nat.add_comm, Nat.add_mul_div_right _ _ (by omega), Nat.div_eq_of_lt inside, Nat.zero_add]
    have word : (e * words + m) % words = m := by
      rw [Nat.mul_add_mod_self_right, Nat.mod_eq_of_lt inside]
    unfold lookups
    rw [forLoopXorAt, BitVec.zero_xor]
    simp only [reached, if_true, own, word, Nat.mul_comm lanes]
  rw [xorSumGroups, xorSumSwap]
  exact xorSumCongr fun e listed => entry e (List.mem_range.mp listed)

theorem foldHalves (c : Blocks) : foldHalf 1 (foldHalf 2 (foldHalf 4 c)) 0 = xorSum ((List.range 8).map c) := by
  simp [foldHalf, List.range_succ]
  ac_rfl

theorem foldQuarters (c : Blocks) {m : Nat} (inside : m < 2) :
    foldHalf 2 (foldHalf 4 c) m = xorSum ((List.range 4).map fun e => c (e * 2 + m)) := by
  have low : m < 4 := by omega
  have high : m + 2 < 4 := by omega
  simp [foldHalf, List.range_succ, inside, low, high, Nat.add_comm]
  ac_rfl

theorem foldHalfOnce (c : Blocks) {m : Nat} (inside : m < 4) :
    foldHalf 4 c m = xorSum ((List.range 2).map fun e => c (e * 4 + m)) := by
  simp [foldHalf, List.range_succ, inside, Nat.add_comm]

theorem foldTree (c : Blocks) : foldPairs 4 (foldPairs 2 (foldPairs 1 c)) 0 = xorSum ((List.range 8).map c) := by
  simp [foldPairs, List.range_succ]
  ac_rfl

/-- The rows past the plaintext are zero in the table, so what the stack held does not count. -/
theorem rowsLoaded (m : Nat) : xorSum ((List.range (code.pipelinedMod8RowCount * 8)).map
    (rowTerm code (loadPlaintext code stack input) m)) = rowsSum code input m := by
  obtain ⟨padding, size⟩ : ∃ padding, code.pipelinedMod8RowCount * 8 = code.plaintextBitSize + padding :=
    ⟨code.pipelinedMod8RowCount * 8 - code.plaintextBitSize, by
      unfold pipelinedMod8RowCount plaintextU8Size
      omega⟩
  have beyond : ∀ r, rowTerm code (loadPlaintext code stack input) m (code.plaintextBitSize + r) = 0#128 := by
    intro r
    have past : ¬ code.plaintextBitSize + r < code.plaintextBitSize := by omega
    simp [rowTerm, generatorWord, past]
  rw [size, xorSumRangeAdd]
  simp only [beyond]
  rw [xorSumZero, BitVec.xor_zero]
  apply xorSumCongr
  intro r listed
  have inside : r / 8 < code.plaintextU8Size := by
    have bound := List.mem_range.mp listed
    unfold plaintextU8Size
    omega
  have kept : loadPlaintext code stack input (r / 8) = input (r / 8) := if_pos inside
  unfold rowTerm inputBit
  rw [kept]

theorem slicesLoaded (m : Nat) : xorSum ((List.range code.pipelinedMod8RowCount).map fun i =>
    subCode code (loadPlaintext code stack input) i m) = rowsSum code input m := by
  rw [← rowsLoaded code stack input m, xorSumGroups]
  exact xorSumCongr fun i _ => subCodeRows code _ i m

theorem pipelinedGroups : code.superRowCount * 8 = code.pipelinedMod8RowCount ∧
    code.pipelinedMod8RowCount / 4 * 4 = code.pipelinedMod8RowCount := by
  unfold superRowCount pipelinedMod8RowCount
  omega

theorem slicesFolded (j : Nat) : xorSum ((List.range 8).map
    (lookups code (loadPlaintext code stack input) 8 1 j code.superRowCount)) = rowsSum code input j := by
  have lanes := lookupsFolded code (loadPlaintext code stack input) (show 8 * 1 = 8 by decide) j code.superRowCount
    (show 0 < 1 by decide)
  simp only [Nat.mul_one, Nat.add_zero, (pipelinedGroups code).1] at lanes
  rw [← slicesLoaded code stack input j, ← lanes]

theorem columnLoaded (j : Nat) : encodeColumn code (loadPlaintext code stack input) j 0 = rowsSum code input j := by
  unfold encodeColumn
  rw [foldTree, slicesFolded]

end Sums

section Widths
variable (stack input : Bytes) (dst : Blocks)

theorem memcpyAt (m : Blocks) (base : Nat) (src : Bytes) (count i : Nat) : bytesOf (memcpy m base src count) i =
    if 16 * base ≤ i ∧ i < 16 * base + count then src (i - 16 * base) else bytesOf m i := by
  by_cases reached : 16 * base ≤ i
  · obtain ⟨k, rfl⟩ := Nat.exists_eq_add_of_le reached
    have shifted : ∀ n : Blocks, bytesOf n (16 * base + k) = bytesOf (fun a => n (base + a)) k := by
      intro n
      have block : (16 * base + k) / 16 = base + k / 16 := by omega
      have offset : (16 * base + k) % 16 = k % 16 := by omega
      unfold bytesOf
      rw [block, offset]
    rw [shifted, shifted, memcpyBytes, Nat.add_sub_cancel_left]
    congr 1
    exact propext (by omega)
  · rw [if_neg (by omega)]
    exact bytesOfCongr (memcpyOutside m base src count (.inl (by omega)))

/-- What every branch writes. -/
def Writes (out : Blocks) : Prop := ∀ i, bytesOf out i =
  if i < code.codewordU8Size then bytesOf (rowsSum code input) i else bytesOf dst i

theorem widthCovers : code.codewordU8Size ≤ 16 * code.codewordBlkSize ∧ code.codewordBlkSize ≤ code.mPow2CodeSize ∧
    (code.mPow2CodeSize = 4 ∨ code.mPow2CodeSize = 8 ∨ code.mPow2CodeSize = code.codewordBlkSize) := by
  refine ⟨?_, ?_, ?_⟩
  · unfold codewordU8Size codewordBlkSize
    omega
  all_goals
    unfold mPow2CodeSize
    split <;> omega

theorem writesOnce {c : Blocks} (covered : ∀ m < code.codewordBlkSize, c m = rowsSum code input m) :
    Writes code input dst (memcpy dst 0 (bytesOf c) code.codewordU8Size) := by
  intro i
  rw [memcpyAt]
  by_cases inside : i < code.codewordU8Size
  · have size := (widthCovers code).1
    rw [if_pos (by omega), if_pos inside]
    exact bytesOfCongr (covered _ (by omega))
  · rw [if_neg (by omega), if_neg inside]

theorem writesColumns : Writes code input dst (forLoop code.codewordBlkSize (fun j codeword =>
    memcpy codeword j (bytesOf (encodeColumn code (loadPlaintext code stack input) j))
      (min 16 (code.codewordU8Size - j * 16))) dst) := by
  have columns : ∀ n ≤ code.codewordBlkSize, ∀ i, bytesOf (forLoop n (fun j codeword =>
      memcpy codeword j (bytesOf (encodeColumn code (loadPlaintext code stack input) j))
        (min 16 (code.codewordU8Size - j * 16))) dst) i =
      if i < min (16 * n) code.codewordU8Size then bytesOf (rowsSum code input) i else bytesOf dst i := by
    intro n
    induction n with
    | zero =>
      intro _ i
      rw [forLoopZero, if_neg (by omega)]
    | succ n ih =>
      intro bound i
      rw [forLoopSucc, memcpyAt, ih (by omega)]
      by_cases own : 16 * n ≤ i ∧ i < 16 * n + min 16 (code.codewordU8Size - n * 16)
      · have block : i / 16 = n := by omega
        have low : (i - 16 * n) / 16 = 0 := by omega
        have offset : (i - 16 * n) % 16 = i % 16 := by omega
        rw [if_pos own, if_pos (by omega)]
        unfold bytesOf
        rw [low, offset, block, columnLoaded]
      · rw [if_neg own]
        congr 1
        exact propext (by omega)
  intro i
  rw [columns _ (Nat.le_refl _)]
  congr 1
  have size := (widthCovers code).1
  exact propext (by omega)

theorem writesSingles (wide : code.mPow2CodeSize ≠ 4) (narrow : code.mPow2CodeSize ≤ 8) : Writes code input dst
    (memcpy dst 0 (bytesOf (encodeSingles code (loadPlaintext code stack input))) code.codewordU8Size) := by
  have blocks := (widthCovers code).2.1
  refine writesOnce code input dst fun m inside => ?_
  have rows := encodeBlocksRows code (loadPlaintext code stack input) (.inr ⟨wide, show m < 8 by omega⟩)
  rw [rowsLoaded] at rows
  rw [← rows]
  unfold encodeBlocks
  rw [if_neg wide]

theorem switchWrites : Writes code input dst (encodeSwitch code stack input dst) := by
  obtain ⟨-, blocks, general⟩ := widthCovers code
  obtain ⟨-, fours⟩ := pipelinedGroups code
  unfold encodeSwitch
  split
  · rename_i size
    refine writesOnce code input dst fun m inside => ?_
    obtain rfl : m = 0 := by omega
    rw [foldHalves]
    exact slicesFolded code stack input 0
  · rename_i size
    refine writesOnce code input dst fun m inside => ?_
    have lanes := lookupsFolded code (loadPlaintext code stack input) (show 4 * 2 = 8 by decide) 0
      (code.pipelinedMod8RowCount / 4) (show m < 2 by omega)
    simp only [Nat.zero_add, fours] at lanes
    rw [foldQuarters _ (by omega), ← slicesLoaded code stack input, ← lanes]
  · rename_i size
    exact absurd size (by
      unfold mPow2CodeSize
      split <;> simp_all)
  · rename_i size
    refine writesOnce code input dst fun m inside => ?_
    have narrow := encodeBlocksRows code (loadPlaintext code stack input) (.inl ⟨size, show m < 4 by omega⟩)
    rw [rowsLoaded] at narrow
    rw [← narrow]
    unfold encodeBlocks foldHalf
    rw [if_pos size]
  iterate 4
    exact writesSingles code stack input dst (by omega) (by omega)
  have wide : code.mPow2CodeSize = code.codewordBlkSize := by
    rcases general with four | eight | wide
    · contradiction
    · contradiction
    · exact wide
  rw [wide]
  exact writesColumns code stack input dst

theorem bch511Writes (bytes : code.plaintextU8Size = 10) (size : code.mPow2CodeSize = 4) : Writes code input dst
    (memcpy dst 0 (bytesOf (foldHalf 4 (lookups code input 2 4 0 5))) code.codewordU8Size) := by
  obtain ⟨-, blocks, -⟩ := widthCovers code
  refine writesOnce code input dst fun m inside => ?_
  have lanes := lookupsFolded code input (show 2 * 4 = 8 by decide) 0 5 (show m < 4 by omega)
  simp only [Nat.zero_add] at lanes
  have slices : code.pipelinedMod8RowCount = 10 + 6 := by
    unfold pipelinedMod8RowCount
    rw [bytes]
  have kept : loadPlaintext code input input = input := funext fun i => ite_self _
  have beyond : ∀ i, subCode code input (10 + i) m = 0#128 := fun i =>
    mod8SlicePadding code m _ (by omega)
  have sum := slicesLoaded code input input m
  rw [kept, slices, xorSumRangeAdd] at sum
  simp only [beyond] at sum
  rw [xorSumZero, BitVec.xor_zero] at sum
  rw [foldHalfOnce _ (by omega), lanes]
  exact sum

theorem writesAgree {out out' : Blocks} (writes : Writes code input dst out) (writes' : Writes code input dst out') :
    out = out' := by
  have bytes : bytesOf out = bytesOf out' := funext fun i => (writes i).trans (writes' i).symm
  have blocks := congrArg blocksOf bytes
  rwa [blocksOfBytesOf, blocksOfBytesOf] at blocks

/-- The branches the loaded tables reach are the encoder of the protocol. -/
theorem switchNarrow (low : 3 ≤ code.codewordBlkSize) (high : code.codewordBlkSize ≤ 8) :
    encodeSwitch code stack input dst = encodeFrom code stack input dst := by
  have sizes : code.mPow2CodeSize = 4 ∨ code.mPow2CodeSize = 8 := by
    unfold mPow2CodeSize
    interval_cases code.codewordBlkSize <;> decide
  unfold encodeFrom encodeBlocks encodeSwitch
  rcases sizes with four | eight
  · rw [four]
    rfl
  · rw [eight]
    rfl

theorem encodesRows :
    (∀ i, bytesOf (encodeSwitch code stack input dst) i =
      if i < code.codewordU8Size then
        bytesOf (fun m => xorSum ((List.range code.plaintextBitSize).map (rowTerm code input m))) i
      else bytesOf dst i) ∧
    encode_bch511 code input dst =
      if code.plaintextU8Size = 10 ∧ code.mPow2CodeSize = 4 then some (encodeSwitch code stack input dst)
      else none := by
  refine ⟨switchWrites code stack input dst, ?_⟩
  unfold encode_bch511
  split
  · rename_i expected
    rw [writesAgree code input dst (bch511Writes code input dst expected.1 expected.2)
      (switchWrites code stack input dst)]
  · rfl

end Widths
end PaxosPsi.LinearCode
