import PaxosPsi.Intersection

/-! The checks a receiver can run on an encoding: `checkOutput` on the variables of the
dictionary, `checkVariables` on the bytes it exports. They agree, and what they report is the
keys that were spoiled by a draw over an assigned endpoint. -/
namespace PaxosPsi
open CountedLoop XorAlgebra Memory

/-- The positions an invalid value is printed for. -/
def Dictionary.checkOutput {n : Nat} (dic : Dictionary n) (d : ObliviousDictionary n) : List Nat :=
  (List.range dic.hashSize).filter fun i =>
    dic.decode d.vars (d.keys.getD i 0) ≠ (d.vals (d.keys.getD i 0)).getD 0#n

namespace Receiver
variable {fieldSize : Nat} (p : ProtocolParty fieldSize)

def check (sigma : Bytes) (key : Key) : Bytes :=
  let indices := p.dic.dec key
  (indices.drop 2).foldl (fun check k j =>
      check j ^^^ sigma (2 * p.dic.tableRealSize * p.dic.fieldSizeBytes + k * p.dic.fieldSizeBytes + j))
    fun j => sigma (indices.getD 0 0 * p.dic.fieldSizeBytes + j) ^^^
      sigma (p.dic.tableRealSize * p.dic.fieldSizeBytes + indices.getD 1 0 * p.dic.fieldSizeBytes + j)

/-- `error` after the keys are checked. -/
def checkVariables (keys : List Key) (vals sigma : Bytes) : Bool :=
  forLoop p.dic.hashSize (fun i error => forLoop p.dic.fieldSizeBytes (fun j error =>
    error || check p sigma (keys.getD i 0) j != vals (i * p.dic.fieldSizeBytes + j)) error) false

end Receiver

section Flags

theorem flagged (n : Nat) (c : Nat → Bool) (error : Bool) :
    forLoop n (fun i error => error || c i) error = (error || (List.range n).any c) := by
  induction n with
  | zero => rw [forLoopZero, List.range_zero, List.any_nil, Bool.or_false]
  | succ n ih =>
    rw [forLoopSucc, ih, List.range_succ, List.any_append, List.any_cons, List.any_nil, Bool.or_false, Bool.or_assoc]

theorem foldlAt {α : Type} (l : List α) (f : α → Bytes) (c : Bytes) (j : Nat) :
    l.foldl (fun check k j => check j ^^^ f k j) c j = l.foldl (fun byte k => byte ^^^ f k j) (c j) := by
  induction l generalizing c with
  | nil => rfl
  | cons k l ih => exact ih _

theorem bytesDetermine {n size : Nat} (fits : n ≤ 8 * size) {u v : BitVec n}
    (same : ∀ j < size, bytesFromGF2X u j = bytesFromGF2X v j) : u = v := by
  apply BitVec.eq_of_getLsbD_eq
  intro i inside
  rw [← Modulus.bytesBit u i, ← Modulus.bytesBit v i, same _ (by omega)]

end Flags

section Created
variable {n : Nat} {dic : Dictionary n} {d : ObliviousDictionary n}

theorem createdVals (solve : Solver n) (distinct : d.keys.Nodup) (size : d.keys.length = dic.hashSize) {i : Nat}
    (inside : i < dic.hashSize) :
    (dic.createDictionary solve d).keys = d.keys ∧
      (dic.createDictionary solve d).vals (d.keys.getD i 0) = some (dic.element d.values i) := by
  obtain ⟨l, r, -, perm, peeled⟩ := Dictionary.peeledOf distinct size
  have stored := dic.initVals distinct size inside
  unfold Dictionary.createDictionary
  generalize dic.peeling (dic.fillTables (dic.init d)) = q at peeled
  have solved := Dictionary.generateSpec solve peeled (perm.length_eq.trans size)
  rw [Dictionary.unpeelingFold, (dic.unpeelInv _ _).frame, solved.frame, peeled.frame]
  exact ⟨rfl, stored⟩

end Created

section Checks
variable {fieldSize : Nat} {p : ProtocolParty fieldSize}

theorem checkDecoded (sigma : Bytes) (key : Key) (j : Nat) :
    Receiver.check p sigma key j = decoded p sigma key j := by
  unfold Receiver.check decoded Receiver.word Hashing.rowsOf
  rw [foldlAt, Hashing.decSpec, foldlXor]
  simp only [List.getD_cons_zero, List.getD_cons_succ, List.drop_succ_cons, List.drop_zero, List.map_cons, List.map_map,
    xorSumCons, BitVec.xor_assoc, Function.comp_def, Nat.mul_comm p.dic.fieldSizeBytes, Nat.add_mul]

theorem errorIff (keys : List Key) (vals sigma : Bytes) :
    Receiver.checkVariables p keys vals sigma = true ↔ ∃ i < p.dic.hashSize, ∃ j < p.dic.fieldSizeBytes,
      decoded p sigma (keys.getD i 0) j ≠ vals (i * p.dic.fieldSizeBytes + j) := by
  unfold Receiver.checkVariables
  simp only [flagged, checkDecoded, Bool.false_or, List.any_eq_true, List.mem_range, bne_iff_ne]

variable (items : Items p) (prg : Nat → Bytes) (solve : Solver fieldSize)

def startDictionary : ObliviousDictionary fieldSize :=
  Dictionary.setKeysAndVals items.keys items.vals (Dictionary.construct prg)

/-- What draws over assigned endpoints add to the value of a key. -/
def lateDrawn (i : Nat) : BitVec fieldSize :=
  p.dic.lateDraws (p.dic.beforeUnpeeling solve (startDictionary items prg))
    (Dictionary.peeled (p.dic.beforeUnpeeling solve (startDictionary items prg))) (items.keys.getD i 0)

theorem outputIff {i : Nat} : i ∈ p.dic.checkOutput (p.dic.createDictionary solve (startDictionary items prg)) ↔
    i < p.dic.hashSize ∧ p.dic.decode (p.dic.createDictionary solve (startDictionary items prg)).vars
      (items.keys.getD i 0) ≠ p.dic.element items.vals i := by
  unfold Dictionary.checkOutput
  rw [List.mem_filter, List.mem_range]
  refine and_congr_right fun inside => ?_
  obtain ⟨keys, vals⟩ := createdVals (d := startDictionary items prg) solve items.distinct items.size inside
  have given : (startDictionary items prg).keys = items.keys := rfl
  have value : (startDictionary items prg).values = items.vals := rfl
  rw [given, value] at vals
  rw [keys, given, vals, Option.getD_some]
  exact decide_eq_true_iff

theorem exportedIff (masked : items.masked) {i : Nat} (inside : i < p.dic.hashSize) (d : ObliviousDictionary fieldSize) :
    (∃ j < p.dic.fieldSizeBytes, decoded p (p.dic.getVariables d) (items.keys.getD i 0) j ≠
        items.vals (i * p.dic.fieldSizeBytes + j)) ↔
      p.dic.decode d.vars (items.keys.getD i 0) ≠ p.dic.element items.vals i := by
  obtain ⟨raw, vals⟩ := masked
  have sized : p.dic.fieldSizeBytes = fieldSizeBytes fieldSize := p.fieldBytes
  have stored : ∀ j < p.dic.fieldSizeBytes,
      bytesFromGF2X (p.dic.element items.vals i) j = items.vals (i * p.dic.fieldSizeBytes + j) := by
    intro j byte
    unfold Dictionary.element
    rw [sized] at byte ⊢
    rw [vals]
    exact maskedRoundTrip p.dic.modulus inside byte raw
  constructor
  · rintro ⟨j, byte, differ⟩ same
    rw [decodedExported p d _ byte, same, stored j byte] at differ
    exact differ rfl
  · intro differ
    by_contra none
    have fits : fieldSize ≤ 8 * p.dic.fieldSizeBytes := by
      rw [p.fieldBytes]
      split <;> omega
    refine differ (bytesDetermine fits fun j byte => ?_)
    rw [stored j byte, ← decodedExported p d _ byte]
    by_contra apart
    exact none ⟨j, byte, apart⟩

/-- Both checks find fault with the same encodings; where the solver answers, that is where
late draws do not cancel out. -/
theorem selfChecksReport (masked : items.masked) :
    (Receiver.checkVariables p items.keys items.vals
        (p.dic.getVariables (p.dic.createDictionary solve (startDictionary items prg))) = true ↔
      p.dic.checkOutput (p.dic.createDictionary solve (startDictionary items prg)) ≠ []) ∧
    (p.dic.Consistent solve (startDictionary items prg) → ∀ i,
      i ∈ p.dic.checkOutput (p.dic.createDictionary solve (startDictionary items prg)) ↔
        i < p.dic.hashSize ∧ lateDrawn items prg solve i ≠ 0) := by
  refine ⟨?_, fun answered i => ?_⟩
  · rw [errorIff, ne_eq, List.eq_nil_iff_forall_not_mem, not_forall]
    simp only [not_not]
    refine exists_congr fun i => ?_
    rw [outputIff]
    exact and_congr_right fun inside => exportedIff items masked inside _
  · rw [outputIff]
    refine and_congr_right fun inside => not_congr ?_
    have decodes := Dictionary.encodedDecodes (d := startDictionary items prg) solve items.distinct items.size answered
      (fun _ => rfl) inside
    exact (Iff.of_eq (congrArg (· = p.dic.element items.vals i) decodes)).trans (xorEqSelf _ _)

theorem apartKeysChecked :
    (Receiver.checkVariables apartKeys (Items.constructed apartKeys fun _ => 9#8).keys
        (Items.constructed apartKeys fun _ => 9#8).vals (apartKeys.dic.getVariables (apartKeys.dic.createDictionary
          (fun _ _ => 0) (startDictionary (Items.constructed apartKeys fun _ => 9#8) fun _ _ => 5#8))) = true ↔
      apartKeys.dic.checkOutput (apartKeys.dic.createDictionary (fun _ _ => 0)
        (startDictionary (Items.constructed apartKeys fun _ => 9#8) fun _ _ => 5#8)) ≠ []) ∧
    ∀ i, i ∈ apartKeys.dic.checkOutput (apartKeys.dic.createDictionary (fun _ _ => 0)
        (startDictionary (Items.constructed apartKeys fun _ => 9#8) fun _ _ => 5#8)) ↔
      i < 3 ∧ lateDrawn (Items.constructed apartKeys fun _ => 9#8) (fun _ _ => 5#8) (fun _ _ => 0) i ≠ 0 :=
  ⟨(selfChecksReport (Items.constructed apartKeys fun _ => 9#8) (fun _ _ => 5#8) (fun _ _ => 0) ⟨_, rfl⟩).1,
    (selfChecksReport (Items.constructed apartKeys fun _ => 9#8) (fun _ _ => 5#8) (fun _ _ => 0) ⟨_, rfl⟩).2
      (apartKeysEncode _ _ _).answered⟩

end Checks
end PaxosPsi
