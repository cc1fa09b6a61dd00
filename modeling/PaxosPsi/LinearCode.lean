import PaxosPsi.Memory

/-! `LinearCode` of libOTe: the byte-indexed lookup table built from the generator
rows, and the encoder that adds one table entry for each plaintext byte. The
loaded tables are four to seven blocks wide, so the encoder has the cases of its
`switch` for padded widths four and eight. The other widths are not reached. -/
namespace PaxosPsi
open CountedLoop XorAlgebra Memory

def roundUpTo (val step : Nat) : Nat := (val + step - 1) % 2 ^ 64 / step * step

structure LinearCode where
  mCodewordBitSize : Nat
  mGSize : Nat
  mG : Blocks

namespace LinearCode

def codewordBlkSize (code : LinearCode) : Nat := (code.mCodewordBitSize + 127) / 128

def plaintextBitSize (code : LinearCode) : Nat := code.mGSize / code.codewordBlkSize

def plaintextBlkSize (code : LinearCode) : Nat := (code.plaintextBitSize + 127) / 128

def plaintextU8Size (code : LinearCode) : Nat := (code.plaintextBitSize + 7) / 8

def codewordU8Size (code : LinearCode) : Nat := (code.mCodewordBitSize + 7) / 8

def mPow2CodeSize (code : LinearCode) : Nat :=
  match code.codewordBlkSize with
  | 3 => 4
  | 5 | 6 | 7 => 8
  | n => n

def pipelinedMod8RowCount (code : LinearCode) : Nat := (code.plaintextU8Size + 7) / 8 * 8

/-- The table rows one generator row is added to, in the order the two nested
loops of `generateMod8Table` visit them. -/
def mod8Rows (gRow : Nat) : List Nat :=
  let stride := 2 ^ gRow
  let visit : Nat × List Nat → Nat × List Nat := fun s => (s.1 + 1, s.2 ++ [s.1])
  (whileLoop 256 (fun s => s.1 < 256)
    (fun s =>
      let run := whileLoop 256 (fun s => s.1 % stride != 0) visit (visit s)
      (run.1 + stride, run.2))
    (stride, [])).2

theorem mod8RowsExact : ∀ gRow < 8, mod8Rows gRow = (List.range 256).filter (·.testBit gRow) := by
  decide +kernel

theorem mod8RowsMember {gRow b : Nat} (row : gRow < 8) (byte : b < 256) :
    b ∈ mod8Rows gRow ↔ b.testBit gRow = true := by
  rw [mod8RowsExact gRow row]
  simp [byte]

theorem mod8RowsNodup {gRow : Nat} (row : gRow < 8) : (mod8Rows gRow).Nodup := by
  rw [mod8RowsExact gRow row]
  exact List.nodup_range.filter _

variable (code : LinearCode)

def generatorWord (row wordIdx : Nat) : Block :=
  if row < code.plaintextBitSize ∧ wordIdx < code.codewordBlkSize then
    code.mG (row * code.codewordBlkSize + wordIdx)
  else 0#128

def addGeneratorRow (row : Nat) (g8Block : Nat → Blocks) (g8Row : Nat) : Nat → Blocks :=
  Function.update g8Block g8Row fun wordIdx => g8Block g8Row wordIdx ^^^ generatorWord code row wordIdx

def mod8Slice (i : Nat) : Nat → Blocks :=
  forLoop 8 (fun gRow g8Block => (mod8Rows gRow).foldl (addGeneratorRow code (i * 8 + gRow)) g8Block)
    fun _ _ => 0#128

theorem addGeneratorRows (row : Nat) (entries : List Nat) (distinct : entries.Nodup)
    (g8Block : Nat → Blocks) (b wordIdx : Nat) :
    entries.foldl (addGeneratorRow code row) g8Block b wordIdx =
      g8Block b wordIdx ^^^ if b ∈ entries then generatorWord code row wordIdx else 0#128 := by
  induction entries generalizing g8Block with
  | nil => simp
  | cons e rest ih =>
    obtain ⟨fresh, distinct⟩ := List.nodup_cons.mp distinct
    rw [List.foldl_cons, ih distinct]
    by_cases here : b = e
    · subst b
      simp [addGeneratorRow, fresh]
    · simp [addGeneratorRow, here]

theorem mod8SliceSum {i b : Nat} (wordIdx : Nat) (byte : b < 256) :
    mod8Slice code i b wordIdx = xorSum ((List.range 8).map fun gRow =>
      if b.testBit gRow then generatorWord code (i * 8 + gRow) wordIdx else 0#128) := by
  have rows : ∀ n ≤ 8, forLoop n (fun gRow g8Block =>
        (mod8Rows gRow).foldl (addGeneratorRow code (i * 8 + gRow)) g8Block) (fun _ _ => 0#128) b wordIdx =
      xorSum ((List.range n).map fun gRow =>
        if b.testBit gRow then generatorWord code (i * 8 + gRow) wordIdx else 0#128) := by
    intro n bound
    induction n with
    | zero => rfl
    | succ n ih =>
      rw [forLoopSucc, addGeneratorRows code _ _ (mod8RowsNodup (by omega)), ih (by omega),
        xorSumRangeSucc]
      simp only [mod8RowsMember (show n < 8 by omega) byte]
  exact rows 8 (Nat.le_refl 8)

theorem mod8SliceXor (i wordIdx : Nat) (a b : Byte) :
    mod8Slice code i (a ^^^ b).toNat wordIdx =
      mod8Slice code i a.toNat wordIdx ^^^ mod8Slice code i b.toNat wordIdx := by
  rw [mod8SliceSum code _ (a ^^^ b).isLt, mod8SliceSum code _ a.isLt, mod8SliceSum code _ b.isLt,
    ← xorSumXor]
  apply xorSumCongr
  intro gRow _
  rw [BitVec.toNat_xor, Nat.testBit_xor]
  cases a.toNat.testBit gRow <;> cases b.toNat.testBit gRow <;> simp

theorem mod8SlicePadding {i : Nat} (wordIdx : Nat) (a : Byte) (past : code.plaintextU8Size ≤ i) :
    mod8Slice code i a.toNat wordIdx = 0#128 := by
  rw [mod8SliceSum code _ a.isLt, ← xorSumZero (List.range 8)]
  apply xorSumCongr
  intro gRow _
  unfold LinearCode.plaintextU8Size at past
  have beyond : ¬ i * 8 + gRow < code.plaintextBitSize := by omega
  simp [generatorWord, beyond]

section Encode
variable (byteView : Bytes)

def subCode (i m : Nat) : Block := mod8Slice code i (byteView i).toNat m

/-- `c[0..8)` when two slices are looked up a step: even slices in the low half. -/
def subCodePair (t m : Nat) : Block :=
  if m < 4 then subCode code byteView (2 * t) m
  else if m < 8 then subCode code byteView (2 * t + 1) (m - 4) else 0#128

def encodePairs : Blocks :=
  forLoop (code.pipelinedMod8RowCount / 2) (fun t c m => c m ^^^ subCodePair code byteView t m) fun _ => 0#128

def encodeSingles : Blocks :=
  forLoop code.pipelinedMod8RowCount
    (fun i c m => c m ^^^ if m < 8 then subCode code byteView i m else 0#128) fun _ => 0#128

def encodeBlocks : Blocks :=
  if code.mPow2CodeSize = 4 then
    fun m => if m < 4 then encodePairs code byteView m ^^^ encodePairs code byteView (m + 4)
      else encodePairs code byteView m
  else encodeSingles code byteView

end Encode

theorem encodePairsXor (a b : Bytes) (m : Nat) :
    encodePairs code (fun i => a i ^^^ b i) m = encodePairs code a m ^^^ encodePairs code b m := by
  apply forLoopXorSplit
  intro t
  unfold subCodePair subCode
  split
  · exact mod8SliceXor code _ _ _ _
  · split
    · exact mod8SliceXor code _ _ _ _
    · simp

theorem encodeSinglesXor (a b : Bytes) (m : Nat) :
    encodeSingles code (fun i => a i ^^^ b i) m = encodeSingles code a m ^^^ encodeSingles code b m := by
  apply forLoopXorSplit
  intro i
  split
  · exact mod8SliceXor code _ _ _ _
  · simp

theorem encodeBlocksXor (a b : Bytes) (m : Nat) :
    encodeBlocks code (fun i => a i ^^^ b i) m = encodeBlocks code a m ^^^ encodeBlocks code b m := by
  unfold encodeBlocks
  split
  · dsimp only
    split
    · rw [encodePairsXor, encodePairsXor, xorXorComm]
    · exact encodePairsXor code a b m
  · exact encodeSinglesXor code a b m

theorem encodeBlocksCongr {a b : Bytes}
    (same : ∀ i m, mod8Slice code i (a i).toNat m = mod8Slice code i (b i).toNat m) :
    encodeBlocks code a = encodeBlocks code b := by
  have sub : subCode code a = subCode code b := by
    funext i m
    exact same i m
  unfold encodeBlocks encodePairs encodeSingles subCodePair
  rw [sub]

/-- `byteView` after the `memcpy`: the plaintext bytes over whatever the stack held. -/
def loadPlaintext (stack input : Bytes) : Bytes :=
  fun i => if i < code.plaintextU8Size then input i else stack i

/-- `encode(input, codeword)`, with the stack contents under the local `_byteView`. -/
def encodeFrom (stack input : Bytes) (codeword : Blocks) : Blocks :=
  memcpy codeword 0 (bytesOf (encodeBlocks code (loadPlaintext code stack input))) code.codewordU8Size

def encode (input : Bytes) (codeword : Blocks) : Blocks := encodeFrom code (fun _ => 0#8) input codeword

theorem encodeBlocksLoaded {stack : Bytes} (stack' : Bytes) {input input' : Bytes}
    (same : ∀ i < code.plaintextU8Size, input i = input' i) :
    encodeBlocks code (loadPlaintext code stack input) =
      encodeBlocks code (loadPlaintext code stack' input') := by
  apply encodeBlocksCongr
  intro i m
  unfold loadPlaintext
  split
  · rename_i inside
    rw [same i inside]
  · rename_i past
    rw [mod8SlicePadding code m _ (by omega), mod8SlicePadding code m _ (by omega)]

theorem encodeFromStack (stack input : Bytes) (dst : Blocks) :
    encodeFrom code stack input dst = encode code input dst := by
  unfold encode encodeFrom
  rw [encodeBlocksLoaded code (fun _ => 0#8) fun _ _ => rfl]

theorem encodeCongr {input input' : Bytes} (dst : Blocks)
    (same : ∀ i < code.plaintextU8Size, input i = input' i) :
    encode code input dst = encode code input' dst := by
  unfold encode encodeFrom
  rw [encodeBlocksLoaded code _ same]

def codeword (input : Bytes) : Blocks := encode code input fun _ => 0#128

theorem codewordCongr {input input' : Bytes} (same : ∀ i < code.plaintextU8Size, input i = input' i) :
    codeword code input = codeword code input' := encodeCongr code _ same

theorem codewordBytes (input : Bytes) (i : Nat) :
    bytesOf (codeword code input) i =
      if i < code.codewordU8Size then
        bytesOf (encodeBlocks code (loadPlaintext code (fun _ => 0#8) input)) i else 0#8 := by
  have copied := memcpyBytes (fun _ => 0#128) 0
    (bytesOf (encodeBlocks code (loadPlaintext code (fun _ => 0#8) input))) code.codewordU8Size i
  simp only [Nat.zero_add, bytesOfZero] at copied
  exact copied

theorem encodeOver {input : Bytes} {dst : Blocks} (rest : ∀ i, code.codewordU8Size ≤ i → bytesOf dst i = 0#8) :
    encode code input dst = codeword code input := by
  have bytes : bytesOf (encode code input dst) = bytesOf (codeword code input) := by
    funext i
    have copied := memcpyBytes dst 0
      (bytesOf (encodeBlocks code (loadPlaintext code (fun _ => 0#8) input))) code.codewordU8Size i
    simp only [Nat.zero_add] at copied
    rw [codewordBytes]
    refine copied.trans ?_
    by_cases inside : i < code.codewordU8Size
    · rw [if_pos inside, if_pos inside]
    · rw [if_neg inside, if_neg inside]
      exact rest i (by omega)
  have blocks := congrArg blocksOf bytes
  rwa [blocksOfBytesOf, blocksOfBytesOf] at blocks

theorem encodeInPlace (input : Bytes) {count : Nat} (covers : code.plaintextU8Size ≤ count)
    (fits : count ≤ code.codewordU8Size) :
    encode code (bytesOf (memcpy (fun _ => 0#128) 0 input count)) (memcpy (fun _ => 0#128) 0 input count) =
      codeword code input := by
  have loaded : ∀ i, bytesOf (memcpy (fun _ => 0#128) 0 input count) i = if i < count then input i else 0#8 := by
    intro i
    have copied := memcpyBytes (fun _ => 0#128) 0 input count i
    simp only [Nat.zero_add, bytesOfZero] at copied
    exact copied
  rw [encodeOver, codewordCongr]
  · intro i inside
    rw [loaded, if_pos (by omega)]
  · intro i past
    rw [loaded, if_neg (by omega)]

theorem codewordXor (a b : Bytes) (j : Nat) :
    codeword code (fun i => a i ^^^ b i) j = codeword code a j ^^^ codeword code b j := by
  have loaded : encodeBlocks code (loadPlaintext code (fun _ => 0#8) fun i => a i ^^^ b i) =
      fun m => encodeBlocks code (loadPlaintext code (fun _ => 0#8) a) m ^^^
        encodeBlocks code (loadPlaintext code (fun _ => 0#8) b) m := by
    funext m
    rw [← encodeBlocksXor]
    congr 1
    funext i
    unfold loadPlaintext
    split <;> simp
  have bytes : bytesOf (codeword code fun i => a i ^^^ b i) =
      bytesOf (fun m => codeword code a m ^^^ codeword code b m) := by
    funext i
    rw [bytesOfXor, codewordBytes, codewordBytes, codewordBytes, loaded, bytesOfXor]
    split <;> simp
  have blocks := congrArg blocksOf bytes
  rw [blocksOfBytesOf, blocksOfBytesOf] at blocks
  exact congrFun blocks j

theorem codewordZero (j : Nat) : codeword code (fun _ => 0#8) j = 0#128 := by
  have twice := codewordXor code (fun _ => 0#8) (fun _ => 0#8) j
  simp only [BitVec.xor_self] at twice
  exact twice

theorem codewordSum (words : List Bytes) (j : Nat) :
    codeword code (fun i => xorSum (words.map (· i))) j = xorSum (words.map fun w => codeword code w j) := by
  induction words with
  | nil => exact codewordZero code j
  | cons w rest ih =>
    simp only [List.map_cons, xorSumCons]
    rw [codewordXor, ih]

section Rows

def inputBit (input : Bytes) (r : Nat) : Bool := (input (r / 8)).getLsbD (r % 8)

def rowTerm (input : Bytes) (m r : Nat) : Block := if inputBit input r then generatorWord code r m else 0#128

theorem subCodeRows (input : Bytes) (i m : Nat) :
    subCode code input i m = xorSum ((List.range 8).map fun g => rowTerm code input m (i * 8 + g)) := by
  unfold subCode
  rw [mod8SliceSum code m (input i).isLt]
  apply xorSumCongr
  intro g listed
  have small := List.mem_range.mp listed
  have byte : (i * 8 + g) / 8 = i := by omega
  have bit : (i * 8 + g) % 8 = g := by omega
  unfold rowTerm inputBit
  rw [byte, bit]
  rfl

theorem encodeBlocksRows (input : Bytes) {m : Nat}
    (narrow : code.mPow2CodeSize = 4 ∧ m < 4 ∨ code.mPow2CodeSize ≠ 4 ∧ m < 8) :
    encodeBlocks code input m =
      xorSum ((List.range (code.pipelinedMod8RowCount * 8)).map (rowTerm code input m)) := by
  have slices : encodeBlocks code input m =
      xorSum ((List.range code.pipelinedMod8RowCount).map fun i => subCode code input i m) := by
    unfold encodeBlocks
    rcases narrow with ⟨four, small⟩ | ⟨wide, small⟩
    · have even : code.pipelinedMod8RowCount / 2 * 2 = code.pipelinedMod8RowCount := by
        unfold pipelinedMod8RowCount
        omega
      have upper : ¬ m + 4 < 4 := by omega
      have reached : m + 4 < 8 := by omega
      rw [if_pos four, if_pos small]
      unfold encodePairs
      rw [forLoopXorAt, forLoopXorAt, BitVec.zero_xor, BitVec.zero_xor, ← xorSumXor, ← even, xorSumGroups, even]
      apply xorSumCongr
      intro t _
      simp only [subCodePair, small, upper, reached, if_true, if_false, Nat.add_sub_cancel, Nat.mul_comm t]
      simp [List.range_succ]
    · rw [if_neg wide]
      unfold encodeSingles
      rw [forLoopXorAt, BitVec.zero_xor]
      exact xorSumCongr fun i _ => if_pos small
  rw [slices, xorSumGroups]
  exact xorSumCongr fun i _ => subCodeRows code input i m

/-- Inside the codeword, a column of it is the sum of the generator rows picked by the
bits of the plaintext. -/
theorem codewordRows (input : Bytes) {k : Nat} (column : k < 8 * code.codewordU8Size)
    (narrow : code.mPow2CodeSize = 4 ∧ k / 128 < 4 ∨ code.mPow2CodeSize ≠ 4 ∧ k / 128 < 8) :
    (codeword code input (k / 128)).getLsbD (k % 128) =
      (xorSum ((List.range code.plaintextBitSize).map (rowTerm code input (k / 128)))).getLsbD (k % 128) := by
  have loaded : encodeBlocks code (loadPlaintext code (fun _ => 0#8) input) (k / 128) =
      xorSum ((List.range code.plaintextBitSize).map (rowTerm code input (k / 128))) := by
    rw [encodeBlocksRows code _ narrow]
    obtain ⟨padding, size⟩ : ∃ padding, code.pipelinedMod8RowCount * 8 = code.plaintextBitSize + padding :=
      ⟨code.pipelinedMod8RowCount * 8 - code.plaintextBitSize, by
        unfold pipelinedMod8RowCount plaintextU8Size
        omega⟩
    have beyond : ∀ r, rowTerm code (loadPlaintext code (fun _ => 0#8) input) (k / 128) (code.plaintextBitSize + r) =
        0#128 := by
      intro r
      have past : ¬ code.plaintextBitSize + r < code.plaintextBitSize := by omega
      simp [rowTerm, generatorWord, past]
    rw [size, xorSumRangeAdd]
    simp only [beyond]
    rw [xorSumZero, BitVec.xor_zero]
    apply xorSumCongr
    intro r listed
    have inside : r / 8 < code.plaintextU8Size := by
      have bound := List.mem_range.mp listed
      unfold plaintextU8Size
      omega
    have kept : loadPlaintext code (fun _ => 0#8) input (r / 8) = input (r / 8) := if_pos inside
    unfold rowTerm inputBit
    rw [kept]
  have byte := codewordBytes code input (k / 8)
  rw [if_pos (by omega)] at byte
  have bit := congrArg (BitVec.getLsbD · (k % 8)) byte
  have block : k / 8 / 16 = k / 128 := by omega
  have offset : 8 * (k / 8 % 16) + k % 8 = k % 128 := by omega
  have small : k % 8 < 8 := by omega
  simp only [bytesOf, BitVec.getLsbD_extractLsb', small, decide_true, Bool.true_and, block, offset] at bit
  rw [bit, loaded]

theorem encodeIgnores {a b : Bytes} (same : ∀ r < code.plaintextBitSize, inputBit a r = inputBit b r) (dst : Blocks) :
    encode code a dst = encode code b dst := by
  unfold encode encodeFrom
  rw [encodeBlocksCongr code (a := loadPlaintext code (fun _ => 0#8) a) (b := loadPlaintext code (fun _ => 0#8) b)]
  intro i m
  rw [mod8SliceSum code m (BitVec.isLt _), mod8SliceSum code m (BitVec.isLt _)]
  apply xorSumCongr
  intro g listed
  have small := List.mem_range.mp listed
  by_cases row : i * 8 + g < code.plaintextBitSize
  · have inside : i < code.plaintextU8Size := by
      unfold plaintextU8Size
      omega
    have byte : (i * 8 + g) / 8 = i := by omega
    have bit : (i * 8 + g) % 8 = g := by omega
    have picked := same _ row
    unfold inputBit at picked
    rw [byte, bit] at picked
    have loaded : ∀ c : Bytes, loadPlaintext code (fun _ => 0#8) c i = c i := fun c => if_pos inside
    rw [loaded, loaded]
    change (if (a i).getLsbD g then _ else _) = if (b i).getLsbD g then _ else _
    rw [picked]
  · simp [generatorWord, row]

theorem encodeSame {a b : Bytes} {dst : Blocks} (same : encode code a dst = encode code b dst) :
    codeword code a = codeword code b := by
  have bytes : bytesOf (codeword code a) = bytesOf (codeword code b) := by
    funext i
    have written := congrArg (bytesOf · i) same
    have first := memcpyBytes dst 0 (bytesOf (encodeBlocks code (loadPlaintext code (fun _ => 0#8) a)))
      code.codewordU8Size i
    have second := memcpyBytes dst 0 (bytesOf (encodeBlocks code (loadPlaintext code (fun _ => 0#8) b)))
      code.codewordU8Size i
    simp only [Nat.zero_add] at first second
    rw [codewordBytes, codewordBytes]
    by_cases inside : i < code.codewordU8Size
    · rw [if_pos inside] at first second ⊢
      rw [if_pos inside, ← first, ← second]
      exact written
    · rw [if_neg inside, if_neg inside]
  have blocks := congrArg blocksOf bytes
  rwa [blocksOfBytesOf, blocksOfBytesOf] at blocks

end Rows
end LinearCode
end PaxosPsi
