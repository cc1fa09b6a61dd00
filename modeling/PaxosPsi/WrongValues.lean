import PaxosPsi.MinimumDistance
import PaxosPsi.Matching

/-! A sender whose value is not what the receiver's dictionary decodes at its key. Their
rows differ by the codeword of the difference under the sender's choice vector, so they
agree only for the choice vectors that miss every column of that codeword. -/
namespace PaxosPsi
open CountedLoop XorAlgebra Memory

def choiceBytes {n : Nat} (choice : Fin n → Bool) : Bytes := fun b =>
  BitVec.ofFnLE fun k : Fin 8 => if inside : 8 * b + k < n then choice ⟨8 * b + k, inside⟩ else false

theorem choiceBit {n : Nat} (choice : Fin n → Bool) {j k : Nat} (inside : k < 128) (bound : 128 * j + k < n) :
    (blocksOf (choiceBytes choice) j).getLsbD k = choice ⟨128 * j + k, bound⟩ := by
  have byte : 8 * (16 * j + k / 8) + k % 8 = 128 * j + k := by omega
  have small : k % 8 < 8 := by omega
  unfold blocksOf choiceBytes
  rw [BitVec.getLsbD_ofFnLE, dif_pos inside]
  dsimp only
  rw [BitVec.getLsbD_ofFnLE, dif_pos small]
  simp only [byte]
  exact dif_pos bound

theorem fixedCount {n : Nat} (columns : Finset (Fin n)) (value : Fin n → Bool) :
    Nat.card {choice : Fin n → Bool // ∀ k ∈ columns, choice k = value k} = 2 ^ (n - columns.card) := by
  have product : Nat.card {choice : Fin n → Bool // ∀ k ∈ columns, choice k = value k} =
      (Fintype.piFinset fun k => if k ∈ columns then {value k} else Finset.univ).card := by
    rw [Nat.card_eq_fintype_card, Fintype.card_subtype]
    congr 1
    ext choice
    simp only [Finset.mem_filter, Finset.mem_univ, true_and, Fintype.mem_piFinset]
    refine forall_congr' fun k => ?_
    by_cases listed : k ∈ columns <;> simp [listed]
  have sizes : ∀ k, (if k ∈ columns then ({value k} : Finset Bool) else Finset.univ).card =
      if k ∈ columns then 1 else 2 := by
    intro k
    by_cases listed : k ∈ columns <;> simp [listed]
  rw [product, Fintype.card_piFinset]
  simp only [sizes]
  rw [Finset.prod_ite, Finset.prod_const_one, Finset.prod_const, one_mul]
  congr 1
  have others : (Finset.univ.filter fun k => k ∉ columns) = columnsᶜ := by
    ext k
    simp
  rw [others, Finset.card_compl, Fintype.card_fin]

/-- Choice vectors that agree with fixed bits on `d` columns or more. -/
theorem fixedShare {n d : Nat} {passes : (Fin n → Bool) → Prop} {columns : Finset (Fin n)} {value : Fin n → Bool}
    (fixed : ∀ choice, passes choice → ∀ k ∈ columns, choice k = value k) (heavy : d ≤ columns.card) :
    Nat.card {choice : Fin n → Bool // passes choice} * 2 ^ d ≤ 2 ^ n := by
  have fewer : Nat.card {choice : Fin n → Bool // passes choice} ≤ 2 ^ (n - columns.card) := by
    rw [← fixedCount columns value]
    exact Nat.card_le_card_of_injective (Subtype.map id fixed) (Subtype.map_injective _ Function.injective_id)
  have inside : columns.card ≤ n := by
    have all := Finset.card_le_univ columns
    rwa [Fintype.card_fin] at all
  calc Nat.card {choice : Fin n → Bool // passes choice} * 2 ^ d
      ≤ 2 ^ (n - columns.card) * 2 ^ d := Nat.mul_le_mul_right _ fewer
    _ = 2 ^ (n - columns.card + d) := (Nat.pow_add ..).symm
    _ ≤ 2 ^ n := Nat.pow_le_pow_right Nat.two_pos (by omega)

section Values
variable {fieldSize : Nat} {p : ProtocolParty fieldSize}

def inputWord (fieldSize : Nat) (val : Bytes) : BitVec fieldSize :=
  BitVec.ofFnLE fun r : Fin fieldSize => LinearCode.inputBit val r

theorem inputWordCodeword {width : Supported fieldSize} (rows : fieldSize ≠ 168) (val : Bytes) :
    (width.code mxTables).codeword (bytesFromGF2X (inputWord fieldSize val)) = (width.code mxTables).codeword val := by
  apply LinearCode.encodeIgnores
  intro r inside
  rw [(layout width rows).plaintext] at inside
  have bit : LinearCode.inputBit (bytesFromGF2X (inputWord fieldSize val)) r = (inputWord fieldSize val).getLsbD r := by
    unfold LinearCode.inputBit
    rw [Modulus.bytesBit]
  rw [bit, inputWord, BitVec.getLsbD_ofFnLE, dif_pos inside]

def DiffersWithin (fieldSize : Nat) (a b : Bytes) : Prop :=
  ∃ r < fieldSize, LinearCode.inputBit a r ≠ LinearCode.inputBit b r

theorem valuesFarApart (width : Supported fieldSize) (rows : fieldSize ≠ 168) {a b : Bytes}
    (differ : DiffersWithin fieldSize a b) : designDistance fieldSize ≤ (width.code mxTables).distance a b := by
  obtain ⟨r, inside, bits⟩ := differ
  have apart : inputWord fieldSize a ≠ inputWord fieldSize b := by
    intro same
    have bit := congrArg (BitVec.getLsbD · r) same
    simp only [inputWord, BitVec.getLsbD_ofFnLE, dif_pos inside] at bit
    exact bits bit
  have far := tablesApart width rows apart
  unfold LinearCode.distance LinearCode.column at far ⊢
  simpa only [inputWordCodeword rows] using far

/-- Both OT phases from the given seeds and choice bits end with equal rows for the key. -/
def RowsAgree (p : ProtocolParty fieldSize) (seeds : Nat → Block × Block) (choiceData sigma : Bytes)
    (recv : PrtyMOtReceiver) (sender : PrtyMOtSender) (key : Key) (val : Bytes) : Prop :=
  ∃ r messages s, Receiver.runOOSWith p (fun n => .ok ⟨n, seeds, choiceData⟩) sigma recv = .ok (r, messages) ∧
    Sender.runOOSWith p (fun n => .ok ⟨n, seeds, choiceData⟩) messages sender =
      .ok ((p.baseOts seeds choiceData).baseChoice, s) ∧
    ∀ j < p.width.stride,
      Sender.row p s (p.baseOts seeds choiceData).baseChoice key val j = Receiver.row p r key j

theorem rowsAgreeWhen {seeds : Nat → Block × Block} {choiceData sigma : Bytes} {recv : PrtyMOtReceiver}
    {sender : PrtyMOtSender} {key : Key} {val : Bytes} :
    RowsAgree p seeds choiceData sigma recv sender key val ↔ ∀ j < p.width.stride,
      (p.width.code p.mx).codeword (fun b => val b ^^^ decoded p sigma key b) j &&& blocksOf choiceData j = 0#128 := by
  let simulate : Nat → Except Error BaseOts := fun n => .ok ⟨n, seeds, choiceData⟩
  have given : simulate (p.width.stride * 128) = .ok (p.baseOts seeds choiceData) := rfl
  obtain ⟨r, messages, s, ran, took, done⟩ := otPhase p given sigma recv sender
  have relation : ∀ j < p.width.stride,
      (Sender.row p s (p.baseOts seeds choiceData).baseChoice key val j = Receiver.row p r key j ↔
        (p.width.code p.mx).codeword (fun b => val b ^^^ decoded p sigma key b) j &&& blocksOf choiceData j = 0#128) := by
    intro j column
    rw [rowDifference p done key val column]
    exact xorEqSelf _ _
  constructor
  · rintro ⟨r', messages', s', ran', took', rows⟩ j column
    rw [ran] at ran'
    cases ran'
    rw [took] at took'
    cases took'
    exact (relation j column).mp (rows j column)
  · intro vanish
    exact ⟨r, messages, s, ran, took, fun j column => (relation j column).mpr (vanish j column)⟩

def differenceColumns (p : ProtocolParty fieldSize) (sigma : Bytes) (key : Key) (val : Bytes) :
    Finset (Fin (p.width.stride * 128)) :=
  Finset.univ.filter fun k => (p.width.code p.mx).column (fun b => val b ^^^ decoded p sigma key b) k = true

theorem agreeingMisses {seeds : Nat → Block × Block} {sigma : Bytes} {recv : PrtyMOtReceiver} {sender : PrtyMOtSender}
    {key : Key} {val : Bytes} {choice : Fin (p.width.stride * 128) → Bool}
    (agree : RowsAgree p seeds (choiceBytes choice) sigma recv sender key val) :
    ∀ k ∈ differenceColumns p sigma key val, choice k = false := by
  intro k listed
  have set := (Finset.mem_filter.mp listed).2
  have bound := k.isLt
  have whole : 128 * ((k : Nat) / 128) + k % 128 = k := by omega
  have vanish := congrArg (BitVec.getLsbD · ((k : Nat) % 128)) (rowsAgreeWhen.mp agree ((k : Nat) / 128) (by omega))
  simp only [BitVec.getLsbD_and, BitVec.getLsbD_zero] at vanish
  unfold LinearCode.column at set
  rw [set, Bool.true_and, choiceBit choice (by omega) (by omega)] at vanish
  simpa only [whole] using vanish

theorem differenceWeight (tables : p.mx = mxTables) (rows : fieldSize ≠ 168) {sigma : Bytes} {key : Key} {val : Bytes}
    (wrong : DiffersWithin fieldSize val (decoded p sigma key)) :
    designDistance fieldSize ≤ (differenceColumns p sigma key val).card := by
  refine (valuesFarApart p.width rows wrong).trans ?_
  rw [← Finset.card_map Fin.valEmbedding]
  refine Finset.card_le_card fun k listed => ?_
  obtain ⟨inside, differ⟩ := Finset.mem_filter.mp listed
  have below := Finset.mem_range.mp inside
  have columns : k < p.width.stride * 128 := by
    have bits : (p.width.code mxTables).mCodewordBitSize = p.width.codewordBits := rfl
    unfold Supported.stride
    omega
  refine Finset.mem_map.mpr ⟨⟨k, columns⟩, Finset.mem_filter.mpr ⟨Finset.mem_univ _, ?_⟩, rfl⟩
  rw [tables, LinearCode.columnXor]
  cases first : (p.width.code mxTables).column val k <;>
    cases second : (p.width.code mxTables).column (decoded p sigma key) k <;> simp_all

/-- Of all choice vectors of the sender, a fraction of at most two to the minus design
distance makes the rows of a wrong value agree. -/
theorem wrongValueCount (tables : p.mx = mxTables) (rows : fieldSize ≠ 168) (seeds : Nat → Block × Block)
    (sigma : Bytes) (recv : PrtyMOtReceiver) (sender : PrtyMOtSender) (key : Key) {val : Bytes}
    (wrong : DiffersWithin fieldSize val (decoded p sigma key)) :
    Nat.card {choice : Fin (p.width.stride * 128) → Bool //
        RowsAgree p seeds (choiceBytes choice) sigma recv sender key val} * 2 ^ designDistance fieldSize ≤
      2 ^ (p.width.stride * 128) :=
  fixedShare (fun _ agree => agreeingMisses agree) (differenceWeight tables rows wrong)

theorem oneIsWrong : DiffersWithin 65 (fun _ => 1#8) (decoded twoKeys (fun _ => 0#8) 0) := ⟨0, by decide, by decide⟩

theorem wrongOneCount : Nat.card {choice : Fin (twoKeys.width.stride * 128) → Bool //
      RowsAgree twoKeys (fun _ => (0#128, 0#128)) (choiceBytes choice) (fun _ => 0#8) PrtyMOtReceiver.new
        PrtyMOtSender.new 0 fun _ => 1#8} * 2 ^ designDistance 65 ≤ 2 ^ (twoKeys.width.stride * 128) :=
  wrongValueCount rfl (by decide) _ _ _ _ _ oneIsWrong

end Values
end PaxosPsi
