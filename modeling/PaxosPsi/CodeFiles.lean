import PaxosPsi.EncoderWidths
import PaxosPsi.Library.TextStream

/-! The files a code is kept in: rows of `0` and `1` under a header of two numbers, and the
raw generator blocks after two 64-bit words, which is also how the built-in tables are
loaded. The text keeps the bits of the codeword only; a binary file that is cut short is
loaded without an error. -/
namespace PaxosPsi.LinearCode
open CountedLoop XorAlgebra Memory TextStream

inductive CodeError where
  | badCode
  | plaintextSize
  | pastEnd
  | header
  | lineSize
  | notABit

variable (code old : LinearCode)

def generateMod8Table : Except CodeError LinearCode :=
  if 64 < code.plaintextU8Size then .error .plaintextSize else .ok code

/-- `mG.resize(..)` before new rows are written. -/
def resized : Blocks := fun a => if a < old.mGSize then old.mG a else 0#128

def generatorBit (row col : Nat) : Bool := (code.mG (row * code.codewordBlkSize + col / 128)).getLsbD (col % 128)

section Text

def bitChar (row col : Nat) : Char := if generatorBit code row col then '1' else '0'

def rowText (row : Nat) : List Char :=
  spaced (bitChar code row) (code.mCodewordBitSize - 1) ++ [bitChar code row (code.mCodewordBitSize - 1)]

def writeTextFile : Except CodeError (List Char) :=
  forLoopM code.plaintextBitSize (fun row out =>
    if 16 * code.mGSize < 16 * (row * code.codewordBlkSize) + (code.mCodewordBitSize - 1) / 8 then .error .pastEnd
    else .ok (out ++ rowText code row ++ ['\n']))
    (printU64 code.plaintextBitSize ++ ' ' :: (printU64 code.mCodewordBitSize ++ ['\n']))

/-- The bits of a line, with the padding of the last block clear. -/
def lineBlock (numCols : Nat) (line : List Char) (k : Nat) : Block := BitVec.ofFnLE fun c : Fin 128 =>
  decide (128 * k + c < numCols) && (line.getD (2 * (128 * k + c)) ' ' != '0')

/-- `line[j * 2] - '0' > 1` for a signed `char`. -/
def notABit (c : Char) : Bool := decide ('1' < c) && decide (c.toNat < 128)

/-- Only a build without `NDEBUG` checks the line. -/
def loadRow (ndebug : Bool) (numCols i : Nat) (s : IStream × List Char × Blocks) :
    Except CodeError (IStream × List Char × Blocks) :=
  let next := getline s.1 s.2.1
  if !ndebug && next.1.length != (2 * numCols + 2 ^ 64 - 1) % 2 ^ 64 then .error .lineSize
  else if !ndebug && (List.range numCols).any fun j => notABit (next.1.getD (2 * j) ' ') then .error .notABit
  else
    let blocks := (numCols + 127) / 128
    .ok (next.2, next.1, forLoop blocks (fun k mG => Function.update mG (i * blocks + k) (lineBlock numCols next.1 k)) s.2.2)

def readNumber (s : IStream) : Except CodeError (Nat × IStream) :=
  match readU64 s with
  | some read => .ok read
  | none => .error .header

def loadTxtFile (ndebug : Bool) (text : List Char) : Except CodeError LinearCode := do
  let (numRows, s) ← readNumber ⟨text, true⟩
  let (numCols, s) ← readNumber s
  let (line, s) := getline s []
  let loaded ← forLoopM numRows (loadRow ndebug numCols) (s, line, resized old)
  generateMod8Table ⟨numCols, numRows * ((numCols + 127) / 128), loaded.2.2⟩

end Text

section Binary

structure ByteStream where
  bytes : List Byte
  good : Bool

/-- `in.read(dst, n)`: what is copied to `dst`, and the stream after it. -/
def ByteStream.read (s : ByteStream) (n : Nat) : List Byte × ByteStream :=
  if s.good then (s.bytes.take n, ⟨s.bytes.drop n, n ≤ s.bytes.length⟩) else ([], s)

def u64Bytes (n : Nat) : List Byte := (List.range 8).map fun i => BitVec.ofNat 8 (n / 256 ^ i)

/-- A 64-bit word after its first bytes were copied over. -/
def overU64 (word : Nat) (bytes : List Byte) : Nat :=
  bytes.foldr (fun b n => b.toNat + 256 * n) 0 + word / 256 ^ bytes.length % 256 ^ (8 - bytes.length) * 256 ^ bytes.length

def writeBinFile : List Byte :=
  u64Bytes code.mGSize ++ u64Bytes code.mCodewordBitSize ++ (List.range (16 * code.mGSize)).map (bytesOf code.mG)

def loadBinFile (s : ByteStream) : Except CodeError LinearCode :=
  let first := s.read 8
  let size := overU64 0 first.1
  let second := first.2.read 8
  let mCodewordBitSize := overU64 old.mCodewordBitSize second.1
  if mCodewordBitSize = 0 then .error .badCode
  else
    let body := (second.2.read (16 * size)).1
    generateMod8Table ⟨mCodewordBitSize, size, memcpy (resized old) 0 (body.getD · 0#8) body.length⟩

def load (data : List Byte) : Except CodeError LinearCode := loadBinFile old ⟨data, true⟩

end Binary

section Words

theorem overU64Bytes {n : Nat} (small : n < 2 ^ 64) (word : Nat) : overU64 word (u64Bytes n) = n := by
  simp [overU64, u64Bytes, List.range_succ, Nat.mod_one]
  omega

end Words

section Rows
variable {code}

theorem rowTextLength (wide : 0 < code.mCodewordBitSize) (row : Nat) :
    (rowText code row).length = 2 * code.mCodewordBitSize - 1 := by
  unfold rowText
  rw [List.length_append, spacedLength, List.length_singleton]
  omega

theorem rowTextAt (row : Nat) {col : Nat} (inside : col < code.mCodewordBitSize) :
    (rowText code row).getD (2 * col) ' ' = bitChar code row col :=
  spacedAt _ _ (by omega) _

theorem rowTextPlain (row : Nat) : '\n' ∉ rowText code row := by
  refine spacedPlain _ _ (by decide) fun col => ?_
  unfold bitChar
  split <;> decide

/-- Block `k` of a row without the bits past the codeword. -/
def clipped (code : LinearCode) (row k : Nat) : Block := BitVec.ofFnLE fun c : Fin 128 =>
  decide (128 * k + c < code.mCodewordBitSize) && generatorBit code row (128 * k + c)

theorem lineBlockRow (row k : Nat) : lineBlock code.mCodewordBitSize (rowText code row) k = clipped code row k := by
  unfold lineBlock clipped
  congr 1
  funext c
  by_cases inside : 128 * k + c < code.mCodewordBitSize
  · rw [rowTextAt row inside, decide_eq_true inside, Bool.true_and, Bool.true_and]
    unfold bitChar
    cases generatorBit code row (128 * k + c) <;> rfl
  · rw [decide_eq_false inside, Bool.false_and, Bool.false_and]

theorem rowsCovered {row : Nat} (inside : row < code.plaintextBitSize) :
    row * code.codewordBlkSize + code.codewordBlkSize ≤ code.mGSize := by
  have whole := Nat.mul_le_mul_right code.codewordBlkSize (Nat.succ_le_of_lt inside)
  rw [Nat.succ_mul] at whole
  exact whole.trans (Nat.div_mul_le_self _ _)

theorem writesText (wide : 0 < code.mCodewordBitSize) : writeTextFile code = .ok (printU64 code.plaintextBitSize ++
    ' ' :: (printU64 code.mCodewordBitSize ++ '\n' ::
      (List.range code.plaintextBitSize).flatMap fun row => rowText code row ++ ['\n'])) := by
  have rows : ∀ n ≤ code.plaintextBitSize, ∀ out, forLoopM n (fun row out =>
      if 16 * code.mGSize < 16 * (row * code.codewordBlkSize) + (code.mCodewordBitSize - 1) / 8 then .error .pastEnd
      else .ok (out ++ rowText code row ++ ['\n'])) out =
        (.ok (out ++ (List.range n).flatMap fun row => rowText code row ++ ['\n']) : Except CodeError (List Char)) := by
    intro n bound out
    induction n with
    | zero => rw [List.range_zero, List.flatMap_nil, List.append_nil]; rfl
    | succ n ih =>
      have covered := rowsCovered (show n < code.plaintextBitSize by omega)
      have last : (code.mCodewordBitSize - 1) / 8 < 16 * code.codewordBlkSize := by
        unfold codewordBlkSize
        omega
      unfold forLoopM
      rw [ih (by omega)]
      simp only [bind, Except.bind]
      rw [if_neg (by omega), List.range_succ, List.flatMap_append, List.flatMap_singleton]
      simp only [List.append_assoc]
  unfold writeTextFile
  rw [rows _ (Nat.le_refl _)]
  simp only [List.append_assoc, List.cons_append, List.nil_append]

theorem loadsRow (ndebug : Bool) (small : code.mCodewordBitSize < 2 ^ 63) (wide : 0 < code.mCodewordBitSize) (n : Nat)
    (rest line : List Char) (mG : Blocks) :
    ∃ line' mG', loadRow ndebug code.mCodewordBitSize n (⟨rowText code n ++ '\n' :: rest, true⟩, line, mG) =
        .ok (⟨rest, true⟩, line', mG') ∧
      ∀ a, mG' a = if n * code.codewordBlkSize ≤ a ∧ a < n * code.codewordBlkSize + code.codewordBlkSize then
        clipped code n (a - n * code.codewordBlkSize) else mG a := by
  have length := rowTextLength wide n
  have bits : ((List.range code.mCodewordBitSize).any fun j => notABit ((rowText code n).getD (2 * j) ' ')) = false := by
    rw [List.any_eq_false]
    intro j listed
    rw [rowTextAt n (List.mem_range.mp listed)]
    unfold bitChar
    split <;> decide
  unfold loadRow
  dsimp only
  have whole : ((rowText code n).length != (2 * code.mCodewordBitSize + 2 ^ 64 - 1) % 2 ^ 64) = false := by
    rw [bne_eq_false_iff_eq]
    omega
  rw [getlinePrinted (rowTextPlain n), if_neg (by rw [whole, Bool.and_false]; exact Bool.false_ne_true),
    if_neg (by rw [bits, Bool.and_false]; exact Bool.false_ne_true)]
  refine ⟨_, _, rfl, fun a => ?_⟩
  rw [updateSpan]
  simp only [lineBlockRow]
  rfl

theorem loadsRows (ndebug : Bool) (small : code.mCodewordBitSize < 2 ^ 63) (wide : 0 < code.mCodewordBitSize) (line : List Char)
    (mG : Blocks) : ∃ s, forLoopM code.plaintextBitSize (loadRow ndebug code.mCodewordBitSize)
        (⟨(List.range code.plaintextBitSize).flatMap fun row => rowText code row ++ ['\n'], true⟩, line, mG) = .ok s ∧
      ∀ row < code.plaintextBitSize, ∀ k < code.codewordBlkSize,
        s.2.2 (row * code.codewordBlkSize + k) = clipped code row k := by
  have runs := forLoopMInvariant (f := loadRow ndebug code.mCodewordBitSize) (n := code.plaintextBitSize)
    (fun n (s : IStream × List Char × Blocks) =>
      s.1 = ⟨(List.range' n (code.plaintextBitSize - n)).flatMap fun row => rowText code row ++ ['\n'], true⟩ ∧
        ∀ row < n, ∀ k < code.codewordBlkSize, s.2.2 (row * code.codewordBlkSize + k) = clipped code row k)
    (s := (⟨(List.range code.plaintextBitSize).flatMap fun row => rowText code row ++ ['\n'], true⟩, line, mG))
    ⟨by rw [List.range_eq_range', Nat.sub_zero], fun row inside => absurd inside (Nat.not_lt_zero row)⟩ (by
      rintro n ⟨stream, line, mG⟩ bound ⟨rest, before⟩
      obtain ⟨left, more⟩ : ∃ left, code.plaintextBitSize - n = left + 1 :=
        ⟨code.plaintextBitSize - n - 1, by omega⟩
      have after : code.plaintextBitSize - (n + 1) = left := by omega
      dsimp only at rest
      rw [more, List.range'_succ, List.flatMap_cons, List.append_assoc, List.singleton_append] at rest
      obtain ⟨line', mG', ran, written⟩ := loadsRow ndebug small wide n
        ((List.range' (n + 1) left).flatMap fun row => rowText code row ++ ['\n']) line mG
      rw [← rest] at ran
      refine ⟨_, ran, ?_, fun row inside k block => ?_⟩
      · rw [after]
      · dsimp only
        rw [written]
        by_cases last : row = n
        · subst last
          rw [if_pos (by omega), Nat.add_sub_cancel_left]
        · have earlier := Nat.mul_le_mul_right code.codewordBlkSize (show row + 1 ≤ n by omega)
          rw [Nat.succ_mul] at earlier
          rw [if_neg (by omega)]
          exact before row (by omega) k block)
  obtain ⟨s, ran, -, written⟩ := runs
  exact ⟨s, ran, written⟩

theorem loadsText (ndebug : Bool) (small : code.mCodewordBitSize < 2 ^ 63) (wide : 0 < code.mCodewordBitSize)
    (rows : code.plaintextU8Size ≤ 64) : ∃ text mG, writeTextFile code = .ok text ∧
      loadTxtFile old ndebug text = .ok ⟨code.mCodewordBitSize, code.plaintextBitSize * code.codewordBlkSize, mG⟩ ∧
      ∀ row < code.plaintextBitSize, ∀ k < code.codewordBlkSize,
        mG (row * code.codewordBlkSize + k) = clipped code row k := by
  have count : code.plaintextBitSize < 2 ^ 64 := by
    unfold plaintextU8Size at rows
    omega
  have positive : 0 < code.codewordBlkSize := by
    unfold codewordBlkSize
    omega
  obtain ⟨s, ran, written⟩ := loadsRows ndebug small wide [] (resized old)
  refine ⟨_, s.2.2, writesText wide, ?_, written⟩
  have first := readPrinted count (c := ' ') rfl [] (by simp)
    (printU64 code.mCodewordBitSize ++ '\n' ::
      (List.range code.plaintextBitSize).flatMap fun row => rowText code row ++ ['\n'])
  have second := readPrinted (show code.mCodewordBitSize < 2 ^ 64 by omega) (c := '\n') rfl [' ']
    (by simp [isspace])
    ((List.range code.plaintextBitSize).flatMap fun row => rowText code row ++ ['\n'])
  have third := getlinePrinted List.not_mem_nil
    ((List.range code.plaintextBitSize).flatMap fun row => rowText code row ++ ['\n']) []
  simp only [List.nil_append, List.singleton_append] at first second third
  have same : (code.plaintextBitSize * code.codewordBlkSize / code.codewordBlkSize + 7) / 8 ≤ 64 := by
    rw [Nat.mul_div_cancel _ positive]
    exact rows
  unfold loadTxtFile readNumber
  simp only [first, second, third, bind, Except.bind, ran]
  exact if_neg (Nat.not_lt.mpr same)

end Rows

section Reload
variable {code} {mG : Blocks}

theorem sameSizes {loaded : LinearCode} (bits : loaded.mCodewordBitSize = code.mCodewordBitSize) :
    loaded.codewordBlkSize = code.codewordBlkSize ∧ loaded.codewordU8Size = code.codewordU8Size := by
  unfold codewordBlkSize codewordU8Size
  rw [bits]
  exact ⟨rfl, rfl⟩

def maskBlock (code : LinearCode) (k : Nat) : Block := BitVec.ofFnLE fun c : Fin 128 =>
  decide (128 * k + c < code.mCodewordBitSize)

theorem clippedMask {row k : Nat} (inside : row < code.plaintextBitSize) (block : k < code.codewordBlkSize) :
    clipped code row k = generatorWord code row k &&& maskBlock code k := by
  apply BitVec.eq_of_getLsbD_eq
  intro c bound
  have blk : (128 * k + c) / 128 = k := by omega
  have offset : (128 * k + c) % 128 = c := by omega
  unfold clipped maskBlock generatorWord generatorBit
  rw [BitVec.getLsbD_and, BitVec.getLsbD_ofFnLE, BitVec.getLsbD_ofFnLE, dif_pos bound, dif_pos bound, if_pos ⟨inside, block⟩]
  dsimp only
  rw [blk, offset, Bool.and_comm]

theorem columnByte (m : Blocks) (k : Nat) : (m (k / 128)).getLsbD (k % 128) = (bytesOf m (k / 8)).getLsbD (k % 8) := by
  have block : k / 8 / 16 = k / 128 := by omega
  have offset : 8 * (k / 8 % 16) + k % 8 = k % 128 := by omega
  have small : k % 8 < 8 := by omega
  simp only [bytesOf, BitVec.getLsbD_extractLsb', small, decide_true, Bool.true_and, block, offset]

theorem rowsSumClipped {loaded : LinearCode} (bits : loaded.mCodewordBitSize = code.mCodewordBitSize)
    (rows : loaded.plaintextBitSize = code.plaintextBitSize)
    (written : ∀ row < code.plaintextBitSize, ∀ k < code.codewordBlkSize,
      loaded.mG (row * code.codewordBlkSize + k) = clipped code row k) (input : Bytes) {m : Nat}
    (block : m < code.codewordBlkSize) : rowsSum loaded input m = rowsSum code input m &&& maskBlock code m := by
  have size := (sameSizes bits).1
  unfold rowsSum
  rw [rows, ← xorSumMask]
  apply xorSumCongr
  intro r listed
  have inside := List.mem_range.mp listed
  have word : generatorWord loaded r m = generatorWord code r m &&& maskBlock code m := by
    rw [← clippedMask inside block, ← written r inside m block]
    unfold generatorWord
    rw [if_pos ⟨rows ▸ inside, size ▸ block⟩, size]
  unfold rowTerm
  rw [word]
  split
  · rfl
  · exact (BitVec.zero_and).symm

theorem rowTextClipped {loaded : LinearCode} (bits : loaded.mCodewordBitSize = code.mCodewordBitSize)
    (wide : 0 < code.mCodewordBitSize) {row : Nat}
    (written : ∀ k < code.codewordBlkSize, loaded.mG (row * code.codewordBlkSize + k) = clipped code row k) :
    rowText loaded row = rowText code row := by
  have size := (sameSizes bits).1
  have same : ∀ col < code.mCodewordBitSize, bitChar loaded row col = bitChar code row col := by
    intro col inside
    have block : col / 128 < code.codewordBlkSize := by
      unfold codewordBlkSize
      omega
    have whole : 128 * (col / 128) + col % 128 = col := by omega
    have bit : generatorBit loaded row col = generatorBit code row col := by
      unfold generatorBit
      rw [size, written _ block]
      unfold clipped
      rw [BitVec.getLsbD_ofFnLE, dif_pos (Nat.mod_lt _ (by decide))]
      dsimp only
      rw [whole, decide_eq_true inside, Bool.true_and]
      rfl
    unfold bitChar
    rw [bit]
  unfold rowText
  rw [bits, same _ (by omega), spacedCongr fun col inside => same col (by omega)]

/-- In either build. -/
theorem textFilesReload (code old : LinearCode) (ndebug : Bool) (small : code.mCodewordBitSize < 2 ^ 63)
    (wide : 0 < code.mCodewordBitSize) (rows : code.plaintextU8Size ≤ 64) :
    ∃ text loaded, writeTextFile code = .ok text ∧ loadTxtFile old ndebug text = .ok loaded ∧
      loaded.mCodewordBitSize = code.mCodewordBitSize ∧ loaded.plaintextBitSize = code.plaintextBitSize ∧
      writeTextFile loaded = .ok text ∧
      ∀ stack input dst k, (encodeSwitch loaded stack input dst (k / 128)).getLsbD (k % 128) =
        if k < code.mCodewordBitSize then (encodeSwitch code stack input dst (k / 128)).getLsbD (k % 128)
        else if k < 8 * code.codewordU8Size then false
        else (dst (k / 128)).getLsbD (k % 128) := by
  obtain ⟨text, mG, wrote, read, written⟩ := loadsText old ndebug small wide rows
  have positive : 0 < code.codewordBlkSize := by
    unfold codewordBlkSize
    omega
  obtain ⟨loaded, same⟩ : ∃ loaded : LinearCode,
      loaded = ⟨code.mCodewordBitSize, code.plaintextBitSize * code.codewordBlkSize, mG⟩ := ⟨_, rfl⟩
  have bits : loaded.mCodewordBitSize = code.mCodewordBitSize := by rw [same]
  have count : loaded.plaintextBitSize = code.plaintextBitSize := by
    rw [same]
    exact Nat.mul_div_cancel _ positive
  replace written : ∀ row < code.plaintextBitSize, ∀ k < code.codewordBlkSize,
      loaded.mG (row * code.codewordBlkSize + k) = clipped code row k := by
    rw [same]
    exact written
  rw [← same] at read
  refine ⟨text, loaded, wrote, read, bits, count, ?_, fun stack input dst k => ?_⟩
  · rw [writesText wide] at wrote
    cases Except.ok.inj wrote
    rw [writesText (bits ▸ wide), count, bits]
    congr 5
    apply List.flatMap_congr
    intro row listed
    rw [rowTextClipped bits wide (written row (List.mem_range.mp listed))]
  · rw [columnByte, columnByte, columnByte, switchWrites _ stack input dst, switchWrites code stack input dst]
    rw [(sameSizes bits).2]
    by_cases inside : k / 8 < code.codewordU8Size
    · have block : k / 128 < code.codewordBlkSize := by
        unfold codewordU8Size at inside
        unfold codewordBlkSize
        omega
      have whole : 128 * (k / 128) + k % 128 = k := by omega
      rw [if_pos inside, if_pos inside, if_pos (show k < 8 * code.codewordU8Size by omega), ← columnByte, ← columnByte,
        rowsSumClipped bits count written input block, BitVec.getLsbD_and]
      unfold maskBlock
      rw [BitVec.getLsbD_ofFnLE, dif_pos (Nat.mod_lt _ (by decide))]
      dsimp only
      rw [whole]
      by_cases column : k < code.mCodewordBitSize
      · rw [decide_eq_true column, Bool.and_true, if_pos column]
      · rw [decide_eq_false column, Bool.and_false, if_neg column]
    · have past : ¬ k < code.mCodewordBitSize := by
        unfold codewordU8Size at inside
        omega
      rw [if_neg inside, if_neg past, if_neg (show ¬ k < 8 * code.codewordU8Size by omega)]

def twoRows : LinearCode := ⟨3, 2, fun a => BitVec.ofNat 128 (5 + a)⟩

theorem twoRowsPrinted : ∃ text loaded, writeTextFile twoRows = .ok text ∧
    loadTxtFile twoRows false text = .ok loaded ∧
    loaded.mCodewordBitSize = twoRows.mCodewordBitSize ∧ loaded.plaintextBitSize = twoRows.plaintextBitSize ∧
    writeTextFile loaded = .ok text ∧
    ∀ stack input dst k, (encodeSwitch loaded stack input dst (k / 128)).getLsbD (k % 128) =
      if k < twoRows.mCodewordBitSize then (encodeSwitch twoRows stack input dst (k / 128)).getLsbD (k % 128)
      else if k < 8 * twoRows.codewordU8Size then false
      else (dst (k / 128)).getLsbD (k % 128) :=
  textFilesReload twoRows twoRows false (by decide) (by decide) (by decide)

example : writeTextFile twoRows = .ok "2 3\n1 0 1\n0 1 1\n".toList := rfl

end Reload

section Cut

theorem u64BytesLength (n : Nat) : (u64Bytes n).length = 8 := rfl

theorem readWord (n : Nat) (rest : List Byte) :
    ByteStream.read ⟨u64Bytes n ++ rest, true⟩ 8 = (u64Bytes n, ⟨rest, true⟩) := by
  have length := u64BytesLength n
  have long : 8 ≤ (u64Bytes n ++ rest).length := by
    rw [List.length_append]
    omega
  unfold ByteStream.read
  rw [if_pos rfl, ← length, List.take_left, List.drop_left, length, decide_eq_true long]

theorem encodeSwitchRows (code code' : LinearCode) (bits : code'.mCodewordBitSize = code.mCodewordBitSize)
    (size : code'.mGSize = code.mGSize) (same : ∀ a < code.mGSize, code'.mG a = code.mG a) (stack input : Bytes)
    (dst : Blocks) : encodeSwitch code' stack input dst = encodeSwitch code stack input dst := by
  obtain ⟨blocks, bytes⟩ := sameSizes bits
  have rows : code'.plaintextBitSize = code.plaintextBitSize := by
    unfold plaintextBitSize
    rw [size, blocks]
  have word : ∀ row wordIdx, generatorWord code' row wordIdx = generatorWord code row wordIdx := by
    intro row wordIdx
    unfold generatorWord
    rw [rows, blocks]
    split
    · rename_i inside
      have covered := rowsCovered inside.1
      exact same _ (by omega)
    · rfl
  have sums : rowsSum code' input = rowsSum code input := by
    funext m
    unfold rowsSum rowTerm
    simp only [rows, word]
  refine writesAgree code input dst (fun i => ?_) (switchWrites code stack input dst)
  rw [switchWrites code' stack input dst, sums, bytes]

theorem blockAgree {m n : Blocks} {a : Nat} (same : ∀ k < 16, bytesOf m (16 * a + k) = bytesOf n (16 * a + k)) :
    m a = n a := by
  have views : blocksOf (bytesOf m) a = blocksOf (bytesOf n) a := by
    unfold blocksOf
    congr 1
    funext k
    rw [same (k / 8) (by omega)]
  rwa [blocksOfBytesOf, blocksOfBytesOf] at views

theorem resizedBytes (i : Nat) :
    bytesOf (resized old) i = if i / 16 < old.mGSize then bytesOf old.mG i else 0#8 := by
  unfold bytesOf resized
  split
  · rfl
  · exact BitVec.extractLsb'_zero

theorem cutBehindHeader (code : LinearCode) (more : List Byte) (kept : Nat) :
    (writeBinFile code ++ more).take (16 + kept) = u64Bytes code.mGSize ++ (u64Bytes code.mCodewordBitSize ++
      ((List.range (16 * code.mGSize)).map (bytesOf code.mG) ++ more).take kept) := by
  have words : 16 + kept = (u64Bytes code.mGSize ++ u64Bytes code.mCodewordBitSize).length + kept := rfl
  unfold writeBinFile
  rw [words, List.append_assoc _ _ more, List.take_length_add_append, List.append_assoc]

theorem cutBytes (src : Bytes) (more : List Byte) (size kept : Nat) :
    let copied := (((List.range size).map src ++ more).take kept).take size
    copied.length = min size kept ∧ ∀ i < copied.length, copied.getD i 0#8 = src i := by
  intro copied
  have length : copied.length = min size kept := by
    unfold copied
    rw [List.take_take, List.length_take, List.length_append, List.length_map, List.length_range]
    omega
  refine ⟨length, fun i inside => ?_⟩
  have row : i < ((List.range size).map src).length := by
    rw [List.length_map, List.length_range]
    omega
  rw [List.getD_eq_getElem _ _ inside]
  simp only [copied, List.getElem_take, List.getElem_append_left row, List.getElem_map, List.getElem_range]

/-- A file may be cut or carry on past the code: the blocks that are missing keep what the
vector held. -/
theorem binFilesReload (code old : LinearCode) (wide : 0 < code.mCodewordBitSize)
    (small : code.mCodewordBitSize < 2 ^ 64) (few : code.mGSize < 2 ^ 64) (rows : code.plaintextU8Size ≤ 64)
    (more : List Byte) (cut : Nat) (header : 16 ≤ cut) :
    ∃ loaded, load old ((writeBinFile code ++ more).take cut) = .ok loaded ∧
      loaded.mCodewordBitSize = code.mCodewordBitSize ∧ loaded.mGSize = code.mGSize ∧
      (∀ i < 16 * code.mGSize, bytesOf loaded.mG i =
        if 16 + i < cut then bytesOf code.mG i else if i / 16 < old.mGSize then bytesOf old.mG i else 0#8) ∧
      (16 + 16 * code.mGSize ≤ cut → ∀ stack input dst,
        encodeSwitch loaded stack input dst = encodeSwitch code stack input dst) := by
  obtain ⟨kept, rfl⟩ := Nat.exists_eq_add_of_le header
  obtain ⟨length, entry⟩ := cutBytes (bytesOf code.mG) more (16 * code.mGSize) kept
  obtain ⟨copied, copiedIs⟩ : ∃ copied, copied =
      (((List.range (16 * code.mGSize)).map (bytesOf code.mG) ++ more).take kept).take (16 * code.mGSize) := ⟨_, rfl⟩
  rw [← copiedIs] at length entry
  obtain ⟨loaded, same⟩ : ∃ loaded : LinearCode, loaded =
      ⟨code.mCodewordBitSize, code.mGSize, memcpy (resized old) 0 (copied.getD · 0#8) copied.length⟩ := ⟨_, rfl⟩
  have ran : load old ((writeBinFile code ++ more).take (16 + kept)) = .ok loaded := by
    unfold load loadBinFile
    rw [cutBehindHeader, readWord]
    dsimp only
    rw [readWord, overU64Bytes few, overU64Bytes small, if_neg (by omega), same, copiedIs]
    exact if_neg (Nat.not_lt.mpr rows)
  have bytes : ∀ i < 16 * code.mGSize, bytesOf loaded.mG i =
      if 16 + i < 16 + kept then bytesOf code.mG i else if i / 16 < old.mGSize then bytesOf old.mG i else 0#8 := by
    intro i inside
    rw [same]
    dsimp only
    rw [memcpyAt, length, resizedBytes]
    by_cases reached : 16 + i < 16 + kept
    · rw [if_pos (by omega), if_pos reached, Nat.mul_zero, Nat.sub_zero, entry i (by omega)]
    · rw [if_neg (by omega), if_neg reached]
  have bits : loaded.mCodewordBitSize = code.mCodewordBitSize := by rw [same]
  have size : loaded.mGSize = code.mGSize := by rw [same]
  refine ⟨loaded, ran, bits, size, bytes, fun whole => encodeSwitchRows code loaded bits size fun a inside => ?_⟩
  refine blockAgree fun k lane => ?_
  rw [bytes _ (by omega), if_pos (by omega)]

theorem twoRowsCut : ∃ loaded, load twoRows ((writeBinFile twoRows ++ [7#8]).take 40) = .ok loaded ∧
    loaded.mCodewordBitSize = twoRows.mCodewordBitSize ∧ loaded.mGSize = twoRows.mGSize ∧
    (∀ i < 16 * twoRows.mGSize, bytesOf loaded.mG i =
      if 16 + i < 40 then bytesOf twoRows.mG i
      else if i / 16 < twoRows.mGSize then bytesOf twoRows.mG i else 0#8) ∧
    (16 + 16 * twoRows.mGSize ≤ 40 → ∀ stack input dst,
      encodeSwitch loaded stack input dst = encodeSwitch twoRows stack input dst) :=
  binFilesReload twoRows twoRows (by decide) (by decide) (by decide) (by decide) [7#8] 40 (by decide)

end Cut
end PaxosPsi.LinearCode
