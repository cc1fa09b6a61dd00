import PaxosPsi.CodeTables
import PaxosPsi.Library.ReedSolomon

/-! How far apart the codewords of two words are. The tables are Reed-Solomon codes with an
inner code, so two codewords differ at every symbol the difference of their polynomials is
not zero at, and there in as many columns as the lightest inner word has. -/
namespace PaxosPsi
open CountedLoop XorAlgebra Memory RowRank ReedSolomon

def parity (b : Bool) : ZMod 2 := if b then 1 else 0

theorem parityXor (a b : Bool) : parity (a ^^ b) = parity a + parity b := by
  cases a <;> cases b <;> decide

theorem parityNonzero (b : Bool) : parity b ≠ 0 ↔ b = true := by
  cases b <;> decide

theorem parityBit {w : Nat} (words : List (BitVec w)) (k : Nat) :
    parity ((xorSum words).getLsbD k) = (words.map fun word => parity (word.getLsbD k)).sum := by
  induction words with
  | nil => simp [parity]
  | cons word rest ih => rw [xorSumCons, BitVec.getLsbD_xor, parityXor, ih, List.map_cons, List.sum_cons]

namespace Concatenated
variable (c : Concatenated)

def weight (word : Nat) : Nat := ((List.range c.wordBits).filter word.testBit).length

/-- The inner words are those of a recurrence of the longest period, each with `d` bits set or more. -/
structure Inner (d : Nat) : Prop where
  positive : 0 < d
  period : 0 < c.period
  small : ∀ t ∈ c.taps, t < c.symbolBits
  recurs : ∀ e < c.period, c.wordAt c.words ((e + c.symbolBits) % c.period) =
    c.taps.foldl (fun w t => w ^^^ c.wordAt c.words ((e + t) % c.period)) 0
  distinct : ((List.range c.period).map (c.wordAt c.words)).Nodup
  heavy : ∀ e < c.period, d ≤ c.weight (c.wordAt c.words e)

def vector (word : Nat) : Fin c.wordBits → ZMod 2 := fun t => parity (word.testBit t)

def sequence (e : Nat) : Fin c.wordBits → ZMod 2 := c.vector (c.wordAt c.words (e % c.period))

theorem vectorFold (taps : List Nat) (f : Nat → Nat) (word : Nat) :
    c.vector (taps.foldl (fun w t => w ^^^ f t) word) = c.vector word + (taps.map fun t => c.vector (f t)).sum := by
  induction taps generalizing word with
  | nil => simp
  | cons t rest ih =>
    have first : c.vector (word ^^^ f t) = c.vector word + c.vector (f t) := by
      funext k
      exact (congrArg parity (Nat.testBit_xor ..)).trans (parityXor _ _)
    rw [List.foldl_cons, ih, first, List.map_cons, List.sum_cons, add_assoc]

theorem vectorZero : c.vector 0 = 0 := by
  funext k
  simp [vector, parity]

theorem vectorInjective {a b : Nat} (smallA : a < 2 ^ c.wordBits) (smallB : b < 2 ^ c.wordBits)
    (same : c.vector a = c.vector b) : a = b := by
  apply Nat.eq_of_testBit_eq
  intro k
  by_cases inside : k < c.wordBits
  · have bit := congrFun same ⟨k, inside⟩
    unfold vector parity at bit
    cases first : a.testBit k <;> cases second : b.testBit k <;> simp_all
  · have wide : 2 ^ c.wordBits ≤ 2 ^ k := Nat.pow_le_pow_right (by omega) (by omega)
    rw [Nat.testBit_lt_two_pow (by omega), Nat.testBit_lt_two_pow (by omega)]

theorem vectorWeight (word : Nat) : hammingNorm (c.vector word) = c.weight word := by
  have ones : ∀ t : Fin c.wordBits, c.vector word t ≠ 0 ↔ word.testBit t = true := fun t => parityNonzero _
  unfold hammingNorm weight
  simp only [ones]
  rw [← List.toFinset_card_of_nodup (List.nodup_range.filter _), ← Finset.card_map Fin.valEmbedding]
  congr 1
  ext k
  simp only [Finset.mem_map, Finset.mem_filter, Finset.mem_univ, true_and, Fin.valEmbedding_apply, List.mem_toFinset,
    List.mem_filter, List.mem_range]
  constructor
  · rintro ⟨t, set, rfl⟩
    exact ⟨t.isLt, set⟩
  · rintro ⟨inside, set⟩
    exact ⟨⟨k, inside⟩, set, rfl⟩

variable {c} {d : Nat}

theorem Inner.generates (code : c.Inner d) : Generates c.symbolBits c.taps c.sequence := by
  have wordSmall : ∀ e, c.wordAt c.words e < 2 ^ c.wordBits := fun e => Nat.mod_lt _ (Nat.two_pow_pos _)
  refine ⟨code.small, fun e => ?_, fun e f same => ?_, fun e zero => ?_⟩
  · have step := code.recurs (e % c.period) (Nat.mod_lt _ code.period)
    simp only [Nat.mod_add_mod] at step
    unfold sequence
    rw [step, c.vectorFold, c.vectorZero, zero_add]
  · have words := c.vectorInjective (wordSmall _) (wordSmall _) same
    have inside : ∀ e, e % c.period < ((List.range c.period).map (c.wordAt c.words)).length := fun e => by
      rw [List.length_map, List.length_range]
      exact Nat.mod_lt _ code.period
    have entry : ∀ e, ((List.range c.period).map (c.wordAt c.words)).get ⟨e % c.period, inside e⟩ =
        c.wordAt c.words (e % c.period) := by
      intro e
      rw [List.get_eq_getElem, List.getElem_map, List.getElem_range]
    exact (List.Nodup.getElem_inj_iff code.distinct).mp ((entry e).trans (words.trans (entry f).symm))
  · have heavy := code.heavy (e % c.period) (Nat.mod_lt _ code.period)
    have positive := code.positive
    rw [← c.vectorWeight] at heavy
    have norm : hammingNorm (c.sequence e) = 0 := by rw [zero, hammingNorm_zero]
    unfold sequence at norm
    omega

theorem Inner.weighs (code : c.Inner d) (e : Nat) : d ≤ hammingNorm (c.sequence e) := by
  have heavy := code.heavy (e % c.period) (Nat.mod_lt _ code.period)
  rwa [← c.vectorWeight] at heavy

end Concatenated

theorem fiveBitInner : fiveBitSymbols.Inner 8 :=
  ⟨by decide, by decide, by decide, by decide +kernel, by decide +kernel, by decide +kernel⟩

theorem sixBitInner : sixBitSymbols.Inner 4 :=
  ⟨by decide, by decide, by decide, by decide +kernel, by decide +kernel, by decide +kernel⟩

theorem sevenBitInner : sevenBitSymbols.Inner 4 :=
  ⟨by decide, by decide, by decide, by decide +kernel, by decide +kernel, by decide +kernel⟩

theorem parityInner : paritySymbols.Inner 2 :=
  ⟨by decide, by decide, by decide, by decide +kernel, by decide +kernel, by decide +kernel⟩

namespace LinearCode

def column (code : LinearCode) (input : Bytes) (k : Nat) : Bool := (code.codeword input (k / 128)).getLsbD (k % 128)

def distance (code : LinearCode) (a b : Bytes) : Nat :=
  ((Finset.range code.mCodewordBitSize).filter fun k => code.column a k ≠ code.column b k).card

theorem columnXor (code : LinearCode) (a b : Bytes) (k : Nat) :
    code.column (fun i => a i ^^^ b i) k = (code.column a k ^^ code.column b k) := by
  unfold column
  rw [codewordXor, BitVec.getLsbD_xor]

end LinearCode

section Distance
variable {inputBitCount : Nat} (width : Supported inputBitCount) {c : Concatenated}

theorem listSum {M : Type*} [AddCommMonoid M] (n : Nat) (f : Nat → M) :
    ((List.range n).map f).sum = ∑ r ∈ Finset.range n, f r := by
  induction n with
  | zero => rfl
  | succ n ih => rw [List.range_succ, List.map_append, List.sum_append, ih, Finset.sum_range_succ]; simp

theorem symbolVector (r j : Nat) :
    c.vector (c.symbol r j) = symbolWord c.symbolBits c.sequence r j := by
  unfold Concatenated.symbol symbolWord
  split
  · exact c.vectorZero
  · rfl

theorem columnParity (same : concatenated inputBitCount = c)
    (fits : Layout inputBitCount width.codewordBits c (width.code mxTables)) (v : BitVec inputBitCount) {j : Nat}
    (symbol : j < width.codewordBits / c.wordBits) (t : Fin c.wordBits) :
    parity ((width.code mxTables).column (bytesFromGF2X v) (c.wordBits * j + t)) =
      (∑ r ∈ Finset.range (c.symbolBits * (inputBitCount / c.symbolBits)),
        parity (v.getLsbD r) • symbolWord c.symbolBits c.sequence r j) t := by
  have shape := width.shape mxTables
  have wide : c.wordBits * j + t < width.codewordBits := by
    have edge := Nat.mul_le_mul_left c.wordBits (show j + 1 ≤ width.codewordBits / c.wordBits from symbol)
    have words := fits.words
    have inside := t.isLt
    rw [Nat.mul_comm _ c.wordBits] at words
    rw [Nat.mul_succ] at edge
    omega
  have split : (c.wordBits * j + t) / c.wordBits = j ∧ (c.wordBits * j + t) % c.wordBits = t := by
    rw [Nat.mul_add_div fits.wordPositive, Nat.div_eq_of_lt t.isLt, Nat.mul_add_mod, Nat.mod_eq_of_lt t.isLt,
      Nat.add_zero]
    exact ⟨rfl, rfl⟩
  generalize c.wordBits * j + t = k at wide split ⊢
  have blk : k / 128 < width.stride := by
    unfold Supported.stride
    omega
  have sized : (width.code mxTables).codewordU8Size = (width.codewordBits + 7) / 8 := rfl
  have narrow : (width.code mxTables).mPow2CodeSize = 4 ∧ k / 128 < 4 ∨
      (width.code mxTables).mPow2CodeSize ≠ 4 ∧ k / 128 < 8 := by
    unfold LinearCode.mPow2CodeSize
    rw [shape.codewordBlkSize]
    rcases shape.narrow with h | h | h | h <;> rw [h] at blk ⊢ <;> simp <;> omega
  unfold LinearCode.column
  rw [LinearCode.codewordRows _ _ (by omega) narrow, parityBit, List.map_map, fits.plaintext, listSum, Finset.sum_apply,
    ← fits.whole]
  refine Finset.sum_congr rfl fun r listed => ?_
  have row := Finset.mem_range.mp listed
  have whole : 128 * (k / 128) + k % 128 = k := by omega
  have small : k % 128 < 128 := by omega
  have inTable : k < c.wordBits * (width.codewordBits / c.wordBits) := by
    rw [Nat.mul_comm, fits.words]
    exact wide
  have word : ((width.code mxTables).generatorWord r (k / 128)).getLsbD (k % 128) =
      (c.symbol r j).testBit t := by
    rw [tableWord width (by rw [fits.plaintext]; exact row) blk]
    simp only [BitVec.getLsbD_ofNat, small, decide_true, Bool.true_and, Nat.testBit_shiftRight, whole]
    rw [mxRow, same, Concatenated.rowBit fits.wordPositive, decide_eq_true inTable, Bool.true_and, split.1, split.2]
  rw [← symbolVector]
  simp only [Function.comp_apply, Pi.smul_apply, smul_eq_mul, LinearCode.rowTerm, LinearCode.inputBit,
    Modulus.bytesBit]
  cases v.getLsbD r
  · simp [parity]
  · rw [if_pos rfl, word]
    simp [parity, Concatenated.vector]

theorem columnsApart (same : concatenated inputBitCount = c)
    (fits : Layout inputBitCount width.codewordBits c (width.code mxTables)) {d : Nat} (inner : c.Inner d)
    (points : width.codewordBits / c.wordBits ≤ 2 ^ c.symbolBits) {a b : BitVec inputBitCount} (apart : a ≠ b) :
    (width.codewordBits / c.wordBits + 1 - inputBitCount / c.symbolBits) * d ≤
      (width.code mxTables).distance (bytesFromGF2X a) (bytesFromGF2X b) := by
  obtain ⟨r, row, set⟩ : ∃ r < inputBitCount, parity ((a ^^^ b).getLsbD r) ≠ 0 := by
    by_contra none
    apply apart
    apply BitVec.eq_of_getLsbD_eq
    intro r row
    by_contra differ
    refine none ⟨r, row, (parityNonzero _).mpr ?_⟩
    rw [BitVec.getLsbD_xor]
    cases first : a.getLsbD r <;> cases second : b.getLsbD r <;> simp_all
  have symbol : r < c.symbolBits * (inputBitCount / c.symbolBits) := by
    rw [← fits.whole]
    exact row
  have weight := messageWeight inner.generates inner.weighs points (c := fun r => parity ((a ^^^ b).getLsbD r)) symbol
    set
  refine weight.trans ?_
  unfold LinearCode.distance
  refine Finset.card_le_card_of_injOn (fun p => c.wordBits * p.1 + p.2) (fun p listed => ?_) fun p _ q _ equal => ?_
  · have differ := (Finset.mem_filter.mp listed).2
    have bytes : bytesFromGF2X (a ^^^ b) = fun i => bytesFromGF2X a i ^^^ bytesFromGF2X b i :=
      funext fun i => bytesFromXor a b i
    rw [← columnParity width same fits (a ^^^ b) p.1.isLt p.2, parityNonzero, bytes, LinearCode.columnXor] at differ
    have edge := Nat.mul_le_mul_left c.wordBits (show (p.1 : Nat) + 1 ≤ width.codewordBits / c.wordBits from p.1.isLt)
    have words := fits.words
    have inside := p.2.isLt
    rw [Nat.mul_comm _ c.wordBits] at words
    rw [Nat.mul_succ, words] at edge
    refine Finset.mem_filter.mpr ⟨Finset.mem_range.mpr ?_, ?_⟩
    · exact Nat.lt_of_lt_of_le (Nat.add_lt_add_left inside _) edge
    · intro equal
      rw [equal, Bool.xor_self] at differ
      exact absurd differ (by decide)
  · dsimp only at equal
    rw [Nat.mul_comm c.wordBits, Nat.mul_comm c.wordBits] at equal
    obtain ⟨symbols, columns⟩ := offsetInjective p.2.isLt q.2.isLt equal
    exact Prod.ext (Fin.ext symbols) (Fin.ext columns)

/-- 72 and 90 bits have one point fewer than the other widths would give them. -/
def designDistance (inputBitCount : Nat) : Nat := if inputBitCount = 72 ∨ inputBitCount = 90 then 124 else 128

theorem innerLayout (rows : inputBitCount ≠ 168) : ∃ d, (concatenated inputBitCount).Inner d ∧
    width.codewordBits / (concatenated inputBitCount).wordBits ≤ 2 ^ (concatenated inputBitCount).symbolBits ∧
    designDistance inputBitCount = (width.codewordBits / (concatenated inputBitCount).wordBits + 1 -
      inputBitCount / (concatenated inputBitCount).symbolBits) * d := by
  have cases := mxHeaderCases width.listed
  obtain ⟨mGSize, codewordBits, listed⟩ := width
  simp only [List.mem_cons, Prod.mk.injEq, List.not_mem_nil, or_false] at cases
  rcases cases with h | h | h | h | h | h | h | h | h | h | h | h | h | h | h | h <;>
    obtain ⟨rfl, rfl, rfl⟩ := h <;>
    dsimp only
  · exact ⟨8, fiveBitInner, by decide, by decide⟩
  iterate 9 exact ⟨4, sixBitInner, by decide, by decide⟩
  · exact absurd rfl rows
  · exact ⟨4, sixBitInner, by decide, by decide⟩
  iterate 3 exact ⟨4, sevenBitInner, by decide, by decide⟩
  · exact ⟨2, parityInner, by decide, by decide⟩

theorem tablesApart (rows : inputBitCount ≠ 168) {a b : BitVec inputBitCount} (apart : a ≠ b) :
    designDistance inputBitCount ≤ (width.code mxTables).distance (bytesFromGF2X a) (bytesFromGF2X b) := by
  obtain ⟨d, inner, points, bound⟩ := innerLayout width rows
  rw [bound]
  exact columnsApart width rfl (layout width rows) inner points apart

/-- Whatever the instances held before, the codes both of them load put two words at least
the design distance apart. -/
theorem codewordsFarApart {inputBitCount : Nat} (width : Supported inputBitCount) (rows : inputBitCount ≠ 168)
    {a b : BitVec inputBitCount} (apart : a ≠ b) (maliciousSecure : Bool) (statSecParam : Nat) (r : PrtyMOtReceiver)
    (s : PrtyMOtSender) :
    designDistance inputBitCount ≤ (r.configure mxTables maliciousSecure statSecParam inputBitCount).mCode.distance
        (bytesFromGF2X a) (bytesFromGF2X b) ∧
      designDistance inputBitCount ≤ (s.configure mxTables maliciousSecure statSecParam inputBitCount).mCode.distance
        (bytesFromGF2X a) (bytesFromGF2X b) := by
  have receiver : (r.configure mxTables maliciousSecure statSecParam inputBitCount).mCode = width.code mxTables :=
    width.loaded mxTables r.mCode
  have sender : (s.configure mxTables maliciousSecure statSecParam inputBitCount).mCode = width.code mxTables :=
    width.loaded mxTables s.mCode
  rw [receiver, sender]
  exact ⟨tablesApart width rows apart, tablesApart width rows apart⟩

theorem oneBitFarApart :
    designDistance 132 ≤ (PrtyMOtReceiver.new.configure mxTables true 40 132).mCode.distance
        (bytesFromGF2X (1#132)) (bytesFromGF2X (0#132)) ∧
      designDistance 132 ≤ (PrtyMOtSender.new.configure mxTables true 40 132).mCode.distance
        (bytesFromGF2X (1#132)) (bytesFromGF2X (0#132)) :=
  codewordsFarApart Supported.malicious (by decide) (by decide) true 40 PrtyMOtReceiver.new PrtyMOtSender.new

end Distance
end PaxosPsi
