import PaxosPsi.Gf2e
import PaxosPsi.Library.RowRank
import PaxosPsi.Corrections

/-! The generator tables of the headers `mx_*_by_*.h`. Each of them is a Reed-Solomon
code over `GF(2^symbolBits)` with an inner code behind every symbol: row
`symbolBits * i + a` holds, at symbol `j`, the inner word of `x^a` times the `i`-th power
of point `j`, where point 0 is zero and point `j` is `x^j`. -/
namespace PaxosPsi
open CountedLoop XorAlgebra Memory RowRank

structure Concatenated where
  symbolBits : Nat
  wordBits : Nat
  taps : List Nat
  inner : List Nat

namespace Concatenated
variable (c : Concatenated)

def period : Nat := 2 ^ c.symbolBits - 1

def wordAt (words e : Nat) : Nat := words >>> (c.wordBits * e) % 2 ^ c.wordBits

def words : Nat :=
  forLoop (c.period - c.symbolBits) (fun e words =>
    words ||| (c.taps.foldl (fun w t => w ^^^ c.wordAt words (e + t)) 0) <<< (c.wordBits * (e + c.symbolBits)))
    (c.inner.foldr (fun w rest => w ||| rest <<< c.wordBits) 0)

def symbol (r j : Nat) : Nat :=
  if j = 0 ∧ r / c.symbolBits ≠ 0 then 0
  else c.wordAt c.words ((r % c.symbolBits + r / c.symbolBits * j) % c.period)

def row (points r : Nat) : Nat := forLoop points (fun j row => row ||| c.symbol r j <<< (c.wordBits * j)) 0

end Concatenated

def fiveBitSymbols : Concatenated := ⟨5, 16, [0, 2], [0xff00, 0xf0f0, 0xcccc, 0xaaaa, 0x9669]⟩

def sixBitSymbols : Concatenated := ⟨6, 11, [0, 1, 3, 4], [0x3c0, 0x5a0, 0x690, 0x30c, 0x50a, 0x609]⟩

def sevenBitSymbols : Concatenated := ⟨7, 12, [0, 1], [0xf00, 0xcc0, 0xaa0, 0x690, 0xc0c, 0xa0a, 0x609]⟩

def paritySymbols : Concatenated := ⟨7, 8, [0, 1], [0xc0, 0xa0, 0x90, 0x88, 0x84, 0x82, 0x81]⟩

def concatenated (inputBitCount : Nat) : Concatenated :=
  if inputBitCount = 65 then fiveBitSymbols
  else if inputBitCount = 210 ∨ inputBitCount = 217 ∨ inputBitCount = 231 then sevenBitSymbols
  else if inputBitCount = 238 then paritySymbols
  else sixBitSymbols

/-- The rows of the table loaded for a width; the header named for 168 bits holds the 162
rows of the one for 162. -/
def mxRow (inputBitCount codewordBits : Nat) : Nat → Nat :=
  (concatenated inputBitCount).row (codewordBits / (concatenated inputBitCount).wordBits)

def mxTables (inputBitCount : Nat) : Blocks := fun a =>
  match mxHeader inputBitCount with
  | some (_, codewordBits) =>
    let blkSize := (codewordBits + 127) / 128
    BitVec.ofNat 128 (mxRow inputBitCount codewordBits (a / blkSize) >>> (128 * (a % blkSize)))
  | none => 0#128

namespace Concatenated
variable {c : Concatenated}

theorem symbolSmall (r j : Nat) : c.symbol r j < 2 ^ c.wordBits := by
  unfold symbol wordAt
  split
  · exact Nat.two_pow_pos _
  · exact Nat.mod_lt _ (Nat.two_pow_pos _)

theorem rowBit (wide : 0 < c.wordBits) (points r k : Nat) : (c.row points r).testBit k =
    (decide (k < c.wordBits * points) && (c.symbol r (k / c.wordBits)).testBit (k % c.wordBits)) := by
  unfold row
  induction points with
  | zero => simp
  | succ points ih =>
    rw [forLoopSucc, Nat.testBit_or, Nat.testBit_shiftLeft, ih, Nat.mul_succ]
    by_cases before : k < c.wordBits * points
    · have kept : ¬ k ≥ c.wordBits * points := by omega
      have inside : k < c.wordBits * points + c.wordBits := by omega
      simp [before, kept, inside]
    · obtain ⟨offset, rfl⟩ : ∃ offset, k = c.wordBits * points + offset := ⟨k - c.wordBits * points, by omega⟩
      by_cases here : offset < c.wordBits
      · have symbolIndex : (c.wordBits * points + offset) / c.wordBits = points := by
          rw [Nat.mul_add_div wide, Nat.div_eq_of_lt here, Nat.add_zero]
        have bit : (c.wordBits * points + offset) % c.wordBits = offset := by
          rw [Nat.mul_add_mod, Nat.mod_eq_of_lt here]
        simp [here, symbolIndex, bit]
      · have beyond : (c.symbol r points).testBit offset = false :=
          Nat.testBit_lt_two_pow (Nat.lt_of_lt_of_le (symbolSmall r points)
            (Nat.pow_le_pow_right (by omega) (by omega)))
        simp [here, beyond]

def Eliminates (c : Concatenated) (symbols : Nat) : Prop :=
  independent (fun r => c.wordBits * (r / c.symbolBits + 1)) (c.symbolBits * symbols) 0
    ((List.range (c.symbolBits * symbols)).map (c.row symbols)) = true

end Concatenated

theorem fiveBitEliminates : fiveBitSymbols.Eliminates 13 := by
  unfold Concatenated.Eliminates
  decide +kernel

theorem sixBitEliminates : sixBitSymbols.Eliminates 29 := by
  unfold Concatenated.Eliminates
  decide +kernel

theorem sevenBitEliminates : sevenBitSymbols.Eliminates 33 := by
  unfold Concatenated.Eliminates
  decide +kernel

theorem parityEliminates : paritySymbols.Eliminates 34 := by
  unfold Concatenated.Eliminates
  decide +kernel

structure Layout (inputBitCount codewordBits : Nat) (c : Concatenated) (code : LinearCode) : Prop where
  symbolPositive : 0 < c.symbolBits
  wordPositive : 0 < c.wordBits
  whole : inputBitCount = c.symbolBits * (inputBitCount / c.symbolBits)
  points : c.wordBits * (inputBitCount / c.symbolBits) ≤ codewordBits
  words : codewordBits / c.wordBits * c.wordBits = codewordBits
  plaintext : code.plaintextBitSize = inputBitCount
  eliminated : ∃ top, c.Eliminates top ∧ inputBitCount / c.symbolBits ≤ top

theorem layout {inputBitCount : Nat} (width : Supported inputBitCount) (rows : inputBitCount ≠ 168) :
    Layout inputBitCount width.codewordBits (concatenated inputBitCount) (width.code mxTables) := by
  have cases := mxHeaderCases width.listed
  obtain ⟨mGSize, codewordBits, listed⟩ := width
  simp only [List.mem_cons, Prod.mk.injEq, List.not_mem_nil, or_false] at cases
  rcases cases with h | h | h | h | h | h | h | h | h | h | h | h | h | h | h | h <;>
    obtain ⟨rfl, rfl, rfl⟩ := h <;>
    dsimp only [Supported.code]
  · exact ⟨by decide, by decide, rfl, by decide, rfl, rfl, 13, fiveBitEliminates, by decide⟩
  iterate 9 exact ⟨by decide, by decide, rfl, by decide, rfl, rfl, 29, sixBitEliminates, by decide⟩
  · exact absurd rfl rows
  · exact ⟨by decide, by decide, rfl, by decide, rfl, rfl, 29, sixBitEliminates, by decide⟩
  iterate 3 exact ⟨by decide, by decide, rfl, by decide, rfl, rfl, 33, sevenBitEliminates, by decide⟩
  · exact ⟨by decide, by decide, rfl, by decide, rfl, rfl, 34, parityEliminates, by decide⟩

section Injective
variable {inputBitCount : Nat} (width : Supported inputBitCount)

theorem tableWord {r m : Nat} (row : r < (width.code mxTables).plaintextBitSize) (column : m < width.stride) :
    (width.code mxTables).generatorWord r m =
      BitVec.ofNat 128 (mxRow inputBitCount width.codewordBits r >>> (128 * m)) := by
  have blkSize : (width.code mxTables).codewordBlkSize = width.stride := rfl
  have offset : (r * width.stride + m) / width.stride = r ∧ (r * width.stride + m) % width.stride = m := by
    have inside : r * width.stride ≤ r * width.stride + m ∧ r * width.stride + m < r * width.stride + width.stride := by
      omega
    have split := rowOfOffset inside
    rwa [Nat.add_sub_cancel_left] at split
  unfold LinearCode.generatorWord
  rw [blkSize, if_pos ⟨row, column⟩]
  simp only [Supported.code, mxTables, width.listed]
  change BitVec.ofNat 128 (mxRow _ _ ((r * width.stride + m) / width.stride) >>>
    (128 * ((r * width.stride + m) % width.stride))) = _
  rw [offset.1, offset.2]

theorem codewordColumn {c : Concatenated} (same : concatenated inputBitCount = c)
    (fits : Layout inputBitCount width.codewordBits c (width.code mxTables)) {top : Nat}
    (fewer : inputBitCount / c.symbolBits ≤ top) (v : BitVec inputBitCount) {k : Nat}
    (column : k < c.wordBits * (inputBitCount / c.symbolBits)) :
    (combine ((List.range inputBitCount).map (c.row top)) fun r => v.getLsbD r).testBit k =
      ((width.code mxTables).codeword (bytesFromGF2X v) (k / 128)).getLsbD (k % 128) := by
  have shape := width.shape mxTables
  have points := fits.points
  have wide : k / 128 < width.stride := by
    unfold Supported.stride
    omega
  have sized : (width.code mxTables).codewordU8Size = (width.codewordBits + 7) / 8 := rfl
  have blkSize := shape.codewordBlkSize
  have narrow : (width.code mxTables).mPow2CodeSize = 4 ∧ k / 128 < 4 ∨
      (width.code mxTables).mPow2CodeSize ≠ 4 ∧ k / 128 < 8 := by
    unfold LinearCode.mPow2CodeSize
    rw [blkSize]
    rcases shape.narrow with h | h | h | h <;> rw [h] at wide ⊢ <;> simp <;> omega
  rw [LinearCode.codewordRows _ _ (by omega) narrow, fits.plaintext]
  have rows : ((List.range inputBitCount).map (c.row top)).length = inputBitCount := by simp
  have words : ∀ r < ((List.range inputBitCount).map (c.row top)).length,
      ((width.code mxTables).generatorWord r (k / 128)).getLsbD (k % 128) =
        (((List.range inputBitCount).map (c.row top)).getD r 0).testBit k := by
    intro r inside
    rw [rows] at inside
    have whole : 128 * (k / 128) + k % 128 = k := by omega
    have small : k % 128 < 128 := by omega
    have below : k < c.wordBits * top := Nat.lt_of_lt_of_le column (Nat.mul_le_mul_left _ fewer)
    have inTable : k < c.wordBits * (width.codewordBits / c.wordBits) := by
      rw [Nat.mul_comm, fits.words]
      omega
    rw [tableWord width (by rw [fits.plaintext]; exact inside) wide]
    simp only [BitVec.getLsbD_ofNat, small, decide_true, Bool.true_and, Nat.testBit_shiftRight, whole]
    rw [mxRow, same, List.getD_eq_getElem?_getD, List.getElem?_map, List.getElem?_range inside]
    simp only [Option.map_some, Option.getD_some]
    rw [Concatenated.rowBit fits.wordPositive, Concatenated.rowBit fits.wordPositive, decide_eq_true below,
      decide_eq_true inTable]
  rw [combineWords words, rows]
  congr 2
  apply List.map_congr_left
  intro r _
  unfold LinearCode.rowTerm LinearCode.inputBit
  rw [Modulus.bytesBit]

theorem tablesInjective (rows : inputBitCount ≠ 168) {a b : BitVec inputBitCount}
    (same : (width.code mxTables).codeword (bytesFromGF2X a) = (width.code mxTables).codeword (bytesFromGF2X b)) :
    a = b := by
  have fits := layout width rows
  generalize family : concatenated inputBitCount = c at fits
  obtain ⟨top, eliminates, fewer⟩ := fits.eliminated
  have zero : ∀ j, (width.code mxTables).codeword (bytesFromGF2X (a ^^^ b)) j = 0#128 := by
    intro j
    have bytes : bytesFromGF2X (a ^^^ b) = fun i => bytesFromGF2X a i ^^^ bytesFromGF2X b i :=
      funext fun i => bytesFromXor a b i
    rw [bytes, LinearCode.codewordXor, same, BitVec.xor_self]
  have taken : ((List.range (c.symbolBits * top)).map (c.row top)).take inputBitCount =
      (List.range inputBitCount).map (c.row top) := by
    have short : inputBitCount ≤ c.symbolBits * top := by
      rw [fits.whole]
      exact Nat.mul_le_mul_left _ fewer
    rw [← List.map_take, List.take_range, Nat.min_eq_left short]
  have unset : ∀ r < inputBitCount, (a ^^^ b).getLsbD r = false := by
    intro r inside
    refine independentSpec eliminates (m := inputBitCount) (n := c.wordBits * (inputBitCount / c.symbolBits))
      (c := fun r => (a ^^^ b).getLsbD r) ?_ ?_ ?_ inside
    · have length := congrArg List.length taken
      simp only [List.length_take, List.length_map, List.length_range] at length ⊢
      omega
    · intro r' small
      rw [Nat.zero_add]
      apply Nat.mul_le_mul_left
      have bound := fits.whole
      exact Nat.div_lt_of_lt_mul (by omega)
    · intro k column
      rw [taken, codewordColumn width family fits fewer _ column, zero, BitVec.getLsbD_zero]
  have none : a ^^^ b = 0 := by
    apply BitVec.eq_of_getLsbD_eq
    intro r inside
    rw [unset r inside]
    exact (BitVec.getLsbD_zero ..).symm
  exact BitVec.xor_eq_zero_iff.mp none

def topBit : BitVec 168 := 1#168 <<< 167

theorem topBitIgnored (width : Supported 168) (dst : Blocks) :
    (width.code mxTables).encode (bytesFromGF2X topBit) dst =
      (width.code mxTables).encode (bytesFromGF2X (0#168)) dst := by
  have rows : (width.code mxTables).plaintextBitSize = 162 := by
    have listed := width.listed
    simp only [mxHeader, Option.some.injEq, Prod.mk.injEq] at listed
    unfold LinearCode.plaintextBitSize LinearCode.codewordBlkSize Supported.code
    dsimp only
    rw [← listed.1, ← listed.2]
  apply LinearCode.encodeIgnores
  intro r below
  rw [rows] at below
  unfold LinearCode.inputBit
  rw [Modulus.bytesBit, Modulus.bytesBit]
  have unset : topBit.getLsbD r = false := by
    unfold topBit
    rw [BitVec.getLsbD_shiftLeft, decide_eq_true (show r < 167 by omega)]
    simp
  rw [unset]
  exact (BitVec.getLsbD_zero ..).symm

/-- Exactly the header for 168 bits, which lacks six rows, maps different words to one
codeword, whatever the instances held before. -/
theorem codewordsDifferIff {inputBitCount : Nat} (width : Supported inputBitCount) (maliciousSecure : Bool)
    (statSecParam : Nat) (r : PrtyMOtReceiver) (s : PrtyMOtSender) :
    ((∀ a b : BitVec inputBitCount, a ≠ b → ∀ dst,
        (r.configure mxTables maliciousSecure statSecParam inputBitCount).mCode.encode (bytesFromGF2X a) dst ≠
          (r.configure mxTables maliciousSecure statSecParam inputBitCount).mCode.encode (bytesFromGF2X b) dst) ∧
      ∀ a b : BitVec inputBitCount, a ≠ b → ∀ dst,
        (s.configure mxTables maliciousSecure statSecParam inputBitCount).mCode.encode (bytesFromGF2X a) dst ≠
          (s.configure mxTables maliciousSecure statSecParam inputBitCount).mCode.encode (bytesFromGF2X b) dst) ↔
      inputBitCount ≠ 168 := by
  have receiver : (r.configure mxTables maliciousSecure statSecParam inputBitCount).mCode = width.code mxTables :=
    width.loaded mxTables r.mCode
  have sender : (s.configure mxTables maliciousSecure statSecParam inputBitCount).mCode = width.code mxTables :=
    width.loaded mxTables s.mCode
  rw [receiver, sender]
  constructor
  · rintro ⟨differ, -⟩ rfl
    exact differ topBit 0#168 (by decide) (fun _ => 0#128) (topBitIgnored width _)
  · intro rows
    have differ : ∀ a b : BitVec inputBitCount, a ≠ b → ∀ dst,
        (width.code mxTables).encode (bytesFromGF2X a) dst ≠ (width.code mxTables).encode (bytesFromGF2X b) dst :=
      fun a b apart dst same => apart (tablesInjective width rows (LinearCode.encodeSame _ same))
    exact ⟨differ, differ⟩

/-- After `configure` for 168 bits the receiver has one codeword for two words. -/
theorem sharedCodeword : ∃ a b : BitVec 168, a ≠ b ∧
    (PrtyMOtReceiver.new.configure mxTables true 40 168).mCode.encode (bytesFromGF2X a) (fun _ => 0#128) =
      (PrtyMOtReceiver.new.configure mxTables true 40 168).mCode.encode (bytesFromGF2X b) fun _ => 0#128 :=
  ⟨topBit, 0#168, by decide, topBitIgnored ⟨810, 638, rfl⟩ _⟩

end Injective
end PaxosPsi
