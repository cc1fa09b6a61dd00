import PaxosPsi.DictionaryTwoCore
import PaxosPsi.FalseMatches
import PaxosPsi.Masking

/-! What a whole run reports. Where the dictionary of an iteration decodes, the receiver
counts every item the sender has in common with it; the items both constructors make are
the same, so such a run counts all of them every time. -/
namespace PaxosPsi
open CountedLoop XorAlgebra Memory

section Exported
variable {fieldSize : Nat} (p : ProtocolParty fieldSize)

theorem wordExported (d : ObliviousDictionary fieldSize) (row : Nat) {b : Nat} (byte : b < p.dic.fieldSizeBytes) :
    Receiver.word p (p.dic.getVariables d) row b = bytesFromGF2X (d.vars row) b := by
  unfold Receiver.word
  rw [Nat.mul_comm]
  exact Dictionary.getVariablesRow d row byte

theorem decodeRows (vars : Nat → BitVec fieldSize) (key : Key) :
    p.dic.decode vars key = xorSum ((p.dic.rowsOf key).map vars) := by
  unfold Dictionary.decode Dictionary.dhBitsVal Hashing.rowsOf
  rw [Hashing.decSpec, foldlXor]
  simp only [List.getD_cons_zero, List.getD_cons_succ, List.drop_succ_cons, List.drop_zero, List.map_cons, List.map_map,
    xorSumCons, BitVec.zero_xor, BitVec.xor_assoc]
  rfl

/-- The rows of the OT are combined to the exported bytes of what the variables decode to. -/
theorem decodedExported (d : ObliviousDictionary fieldSize) (key : Key) {b : Nat} (byte : b < p.dic.fieldSizeBytes) :
    decoded p (p.dic.getVariables d) key b = bytesFromGF2X (p.dic.decode d.vars key) b := by
  have zero : bytesFromGF2X (BitVec.ofNat fieldSize 0) b = 0#8 := by
    have twice := bytesFromXor (BitVec.ofNat fieldSize 0) (BitVec.ofNat fieldSize 0) b
    rwa [BitVec.xor_self, BitVec.xor_self] at twice
  unfold decoded
  rw [decodeRows, ← xorSumMap _ d.vars (bytesFromGF2X · b) zero fun u v => bytesFromXor u v b]
  exact xorSumCongr fun row _ => wordExported p d row byte

/-- With the last variable's offset in the range of `int`, the values, the table of `init` and the
exported bytes are those of the natural-number offsets used below. -/
theorem intOffsetsExact : (∀ prg, constructVals fieldSize p.dic.hashSize prg =
      .ok ⟨p.dic.hashSize * p.dic.fieldSizeBytes, maskVals fieldSize p.dic.hashSize prg⟩) ∧
    (∀ (d : ObliviousDictionary fieldSize) (values : Vec Byte), d.values = values.get →
      p.dic.hashSize * p.dic.fieldSizeBytes ≤ values.size → p.dic.readVals d.keys values = .ok (p.dic.init d).vals) ∧
    ∀ (d : ObliviousDictionary fieldSize) (sigma : Vec Byte), ∃ sigma', p.dic.exportVars d sigma = .ok sigma' ∧
      sigma'.size = p.dic.numVars * p.dic.fieldSizeBytes ∧
      ∀ b < p.dic.numVars * p.dic.fieldSizeBytes, sigma'.get b = p.dic.getVariables d b := by
  have last := p.lastOffset
  have enough := p.enoughBuckets
  have sized : p.dic.fieldSizeBytes = fieldSizeBytes fieldSize := p.fieldBytes
  have item := (p.width.shape p.mx).itemBytes
  have stride := p.stridePositive
  rw [← p.fieldSizeBytesRounded] at item
  have vars : p.dic.numVars = 2 * p.dic.tableRealSize + 60 := by
    unfold Dictionary.numVars
    rw [p.gammaValue]
  have items : p.dic.hashSize * p.dic.fieldSizeBytes ≤ (2 * p.dic.tableRealSize + 59) * p.dic.fieldSizeBytes :=
    Nat.mul_le_mul_right _ (by omega)
  have thin : p.dic.fieldSizeBytes ≤ (2 * p.dic.tableRealSize + 59) * p.dic.fieldSizeBytes :=
    Nat.le_mul_of_pos_left _ (by omega)
  have few := Nat.mul_le_mul_left (2 * p.dic.tableRealSize + 59) (show 2 ≤ p.dic.fieldSizeBytes by omega)
  refine ⟨fun prg => ?_, fun d values given size => Dictionary.readValsExact given (by omega) size,
    fun d sigma => Dictionary.exportVarsExact d sigma (by omega) (by omega) (by rw [vars]; exact last)⟩
  rw [sized]
  exact constructValsExact p.dic.modulus.positive (sized ▸ by omega) prg

end Exported

section Runs
variable {fieldSize : Nat} {p : ProtocolParty fieldSize} {items items' : Items p}

/-- The encoding of the items decodes: the solver answers its system and nothing is drawn
over an endpoint that was assigned before. -/
structure Encodes (items : Items p) (prg : Nat → Bytes) (solve : Solver fieldSize) : Prop where
  answered : p.dic.Consistent solve (Dictionary.setKeysAndVals items.keys items.vals (Dictionary.construct prg))
  settled : ∀ i < p.dic.hashSize, p.dic.lateDraws
    (p.dic.beforeUnpeeling solve (Dictionary.setKeysAndVals items.keys items.vals (Dictionary.construct prg)))
    (Dictionary.peeled
      (p.dic.beforeUnpeeling solve (Dictionary.setKeysAndVals items.keys items.vals (Dictionary.construct prg))))
    (items.keys.getD i 0) = BitVec.ofNat fieldSize 0

def Items.masked (items : Items p) : Prop := ∃ prg, items.vals = maskVals fieldSize p.dic.hashSize prg

theorem encodedValue (masked : items.masked) {prg : Nat → Bytes} {solve : Solver fieldSize}
    (encodes : Encodes items prg solve) {k b : Nat} (inside : k < p.dic.hashSize) (byte : b < p.dic.fieldSizeBytes) :
    decoded p (freshSigma items prg solve) (items.keys.getD k 0) b = Sender.val p items.vals k b := by
  obtain ⟨raw, vals⟩ := masked
  have sized : p.dic.fieldSizeBytes = fieldSizeBytes fieldSize := p.fieldBytes
  have decodes := Dictionary.encodedDecodes
    (d := Dictionary.setKeysAndVals items.keys items.vals (Dictionary.construct prg)) solve items.distinct items.size
    encodes.answered (fun _ => rfl) inside
  have late := congrArg (p.dic.element items.vals k ^^^ ·) (encodes.settled k inside)
  replace decodes := decodes.trans late
  rw [BitVec.xor_zero] at decodes
  have value : p.dic.decode (p.dic.encode (items.encoding prg solve) (Dictionary.construct prg)).vars
      (items.keys.getD k 0) = p.dic.element items.vals k := decodes
  unfold freshSigma
  rw [decodedExported p _ _ byte, value]
  rw [sized] at byte
  have exported := maskedRoundTrip p.dic.modulus inside byte raw
  unfold Dictionary.element Sender.val
  rw [vals, sized]
  exact exported

def Common (items items' : Items p) (i : Nat) : Prop :=
  ∃ k < p.dic.hashSize, items'.keys.getD i 0 = items.keys.getD k 0 ∧
    ∀ b < p.dic.fieldSizeBytes, Sender.val p items'.vals i b = Sender.val p items.vals k b

instance (items items' : Items p) : DecidablePred (Common items items') := fun i =>
  inferInstanceAs (Decidable (∃ k < p.dic.hashSize, items'.keys.getD i 0 = items.keys.getD k 0 ∧
    ∀ b < p.dic.fieldSizeBytes, Sender.val p items'.vals i b = Sender.val p items.vals k b))

/-- The number of the sender's items the receiver holds with the same value. -/
def commonItems (items items' : Items p) : Nat :=
  (List.range p.dic.hashSize).countP fun i => decide (Common items items' i)

section Iteration
variable {seeds : Nat → Block × Block} {choiceData : Bytes} {prg : Nat → Bytes} {solve : Solver fieldSize}
  {encrypt : Block → Block} {r : Receiver fieldSize} {s : Sender} {count : Nat}

theorem Iterated.commonSent (done : Iterated seeds choiceData (freshSigma items prg solve) items items' encrypt r s count)
    (masked : items.masked) (encodes : Encodes items prg solve) {i : Nat} (inside : i < p.dic.hashSize)
    (common : Common items items' i) : s.xors.get i ∈ r.xorsSet := by
  obtain ⟨k, below, key, value⟩ := common
  have zero : itemDifference p choiceData (freshSigma items prg solve) (items'.keys.getD i 0)
      (Sender.val p items'.vals i) 0 = 0#128 := by
    have codeword : (p.width.code p.mx).codeword (fun b => Sender.val p items'.vals i b ^^^
        decoded p (freshSigma items prg solve) (items'.keys.getD i 0) b) 0 = 0#128 := by
      rw [← LinearCode.codewordZero (p.width.code p.mx) 0]
      refine congrFun (LinearCode.codewordCongr _ fun b bound => ?_) 0
      rw [(p.width.shape p.mx).plaintextU8Size, ← p.fieldSizeBytesRounded] at bound
      rw [key, encodedValue masked encodes below bound, value b bound, BitVec.xor_self]
    unfold itemDifference
    rw [codeword, BitVec.zero_and]
  rw [done.set, done.sent i inside, zero, BitVec.xor_zero, key]
  exact ⟨k, below, rfl⟩

theorem Iterated.commonCounted
    (done : Iterated seeds choiceData (freshSigma items prg solve) items items' encrypt r s count)
    (masked : items.masked) (encodes : Encodes items prg solve) : commonItems items items' ≤ count := by
  rw [done.count]
  refine List.countP_mono_left fun i listed common => ?_
  exact decide_eq_true (done.commonSent masked encodes (List.mem_range.mp listed) (of_decide_eq_true common))

theorem Iterated.countBound {sigma : Bytes}
    (done : Iterated seeds choiceData sigma items items' encrypt r s count) : count ≤ p.dic.hashSize := by
  rw [done.count]
  exact List.countP_le_length.trans (Nat.le_of_eq List.length_range)

end Iteration

/-- In every iteration whose encoding decodes, all items both parties have are counted. -/
theorem commonItemsCounted (items items' : Items p) (masked : items.masked) (encrypt : Block → Block)
    (prg : Nat → Bytes) (solve : Nat → Solver fieldSize) (times : Nat) :
    ∃ r s counts, runWith p (simulateBaseOts p.aes) solve times (Receiver.construct items encrypt prg)
        (Sender.construct items' encrypt) = .ok (r, s, counts) ∧ counts.length = times ∧
      ∀ t < times, ∃ rt st, runWith p (simulateBaseOts p.aes) solve t (Receiver.construct items encrypt prg)
          (Sender.construct items' encrypt) = .ok (rt, st, counts.take t) ∧
        counts.getD t 0 ≤ p.dic.hashSize ∧
        (Encodes items rt.dic.prg (solve t) → commonItems items items' ≤ counts.getD t 0) := by
  obtain ⟨seeds, choiceData, given, -⟩ := simulated p
  induction times with
  | zero => exact ⟨_, _, [], rfl, rfl, fun t none => absurd none (Nat.not_lt_zero t)⟩
  | succ times ih =>
    obtain ⟨r, s, counts, ran, length, counted⟩ := ih
    have start : Ready seeds items items' encrypt (Receiver.construct items encrypt prg)
        (Sender.construct items' encrypt) := Ready.construct prg
    obtain ⟨r1, s1, counts1, ran1, -, ready⟩ := runReady given start solve times
    cases Except.ok.inj (ran.symm.trans ran1)
    obtain ⟨r2, s2, count, stepped, done, -⟩ := iterate given ready (solve times)
    refine ⟨r2, s2, counts ++ [count], ?_, ?_, fun t below => ?_⟩
    · simp only [runWith, ran, bind, Except.bind, stepped]
      rfl
    · rw [List.length_append, length]
      rfl
    · by_cases last : t = times
      · subst last
        have taken : (counts ++ [count]).take t = counts := by rw [← length, List.take_left]
        have next : (counts ++ [count]).getD t 0 = count := by simp [← length]
        rw [taken, next]
        exact ⟨r, s, ran, done.countBound, fun encodes => done.commonCounted masked encodes⟩
      · obtain ⟨rt, st, before, bound, common⟩ := counted t (by omega)
        rw [List.take_append_of_le_length (by omega), List.getD_append _ _ _ _ (by omega)]
        exact ⟨rt, st, before, bound, common⟩

section Constructed

theorem hashSizeSmall (p : ProtocolParty fieldSize) : p.dic.hashSize < 2 ^ 64 := by
  have last := p.lastOffset
  have enough := p.enoughBuckets
  have bytes := p.fieldSizeBytesRounded
  have positive := (p.width.shape p.mx).positive
  have scaled := Nat.le_mul_of_pos_right (2 * p.dic.tableRealSize + 59) (show 0 < p.dic.fieldSizeBytes by omega)
  omega

/-- The items of the constructor: keys counted from 0, values masked. -/
def Items.constructed (p : ProtocolParty fieldSize) (prg : Nat → Byte) : Items p where
  keys := (List.range p.dic.hashSize).map (BitVec.ofNat 64)
  vals := maskVals fieldSize p.dic.hashSize prg
  distinct := by
    refine List.Nodup.map_on (fun a listed b listed' same => ?_) List.nodup_range
    have small := hashSizeSmall p
    have first := List.mem_range.mp listed
    have second := List.mem_range.mp listed'
    have numbers := congrArg BitVec.toNat same
    rw [BitVec.toNat_ofNat, BitVec.toNat_ofNat, Nat.mod_eq_of_lt (by omega), Nat.mod_eq_of_lt (by omega)] at numbers
    exact numbers
  size := by rw [List.length_map, List.length_range]

theorem allCommon (items : Items p) : commonItems items items = p.dic.hashSize := by
  have every : ∀ i ∈ List.range p.dic.hashSize, decide (Common items items i) = true := by
    intro i listed
    exact decide_eq_true ⟨i, List.mem_range.mp listed, rfl, fun _ _ => rfl⟩
  unfold commonItems
  rw [List.countP_eq_length.mpr every, List.length_range]

/-- Two parties with the items of their constructors count all of them in every iteration,
as long as the encodings decode. -/
theorem constructedAllMatch (p : ProtocolParty fieldSize) (raw : Bytes) (encrypt : Block → Block)
    (prg : Nat → Bytes) (solve : Nat → Solver fieldSize) (times : Nat)
    (encodes : ∀ t < times, ∀ rt st counts, runWith p (simulateBaseOts p.aes) solve t
        (Receiver.construct (Items.constructed p raw) encrypt prg)
        (Sender.construct (Items.constructed p raw) encrypt) = .ok (rt, st, counts) →
      Encodes (Items.constructed p raw) rt.dic.prg (solve t)) :
    ∃ r s, runWith p (simulateBaseOts p.aes) solve times (Receiver.construct (Items.constructed p raw) encrypt prg)
      (Sender.construct (Items.constructed p raw) encrypt) = .ok (r, s, List.replicate times p.dic.hashSize) := by
  obtain ⟨seeds, choiceData, given, -⟩ := simulated p
  induction times with
  | zero => exact ⟨_, _, rfl⟩
  | succ times ih =>
    obtain ⟨r, s, ran⟩ := ih fun t below => encodes t (by omega)
    have start : Ready seeds (Items.constructed p raw) (Items.constructed p raw) encrypt
        (Receiver.construct (Items.constructed p raw) encrypt prg)
        (Sender.construct (Items.constructed p raw) encrypt) := Ready.construct prg
    obtain ⟨r1, s1, counts1, ran1, -, ready⟩ := runReady given start solve times
    have last := encodes times (Nat.lt_succ_self times) r s _ ran
    cases Except.ok.inj (ran.symm.trans ran1)
    obtain ⟨r2, s2, count, stepped, done, -⟩ := iterate given ready (solve times)
    have whole : count = p.dic.hashSize := by
      have common := done.commonCounted ⟨raw, rfl⟩ last
      rw [allCommon] at common
      exact Nat.le_antisymm done.countBound common
    refine ⟨r2, s2, ?_⟩
    rw [whole] at stepped
    simp only [runWith, ran, bind, Except.bind, stepped, List.replicate_succ']
    rfl

theorem apartPeeled {dic : Dictionary fieldSize} {d0 d : ObliviousDictionary fieldSize} (spec : dic.Peeled d0 d)
    (apart : ∀ e ∈ d0.first, ∀ f ∈ d0.first, e ≠ f → dic.firstBucket e ≠ dic.firstBucket f) : d.first = [] := by
  by_contra core
  obtain ⟨k, member⟩ := List.exists_mem_of_ne_nil _ core
  have known : ∀ e ∈ d.first, e ∈ d0.first := fun e listed => spec.all.mem_iff.mp (List.mem_append_right _ listed)
  obtain ⟨f, listed, other, hashed⟩ := Dictionary.bucketOther member spec.distinctFirst (spec.left k member)
  exact apart f (known f listed) k (known k member) other hashed

/-- Keys without a common endpoint are all peeled, and nothing is drawn over them. -/
theorem apartEncodes {items : Items p} (apart : ∀ e ∈ items.keys, ∀ f ∈ items.keys, e ≠ f →
      p.dic.firstBucket e ≠ p.dic.firstBucket f ∧ p.dic.secondBucket e ≠ p.dic.secondBucket f)
    (prg : Nat → Bytes) (solve : Solver fieldSize) : Encodes items prg solve := by
  obtain ⟨l, r, -, perm, spec⟩ := Dictionary.peeledOf
    (d := Dictionary.setKeysAndVals items.keys items.vals (Dictionary.construct prg)) items.distinct items.size
  have count := perm.length_eq.trans items.size
  have none := apartPeeled spec fun e listed f listed' other =>
    (apart e (perm.mem_iff.mp listed) f (perm.mem_iff.mp listed') other).1
  have solved := Dictionary.generateSpec solve spec count
  have order : Dictionary.peeled (p.dic.beforeUnpeeling solve
      (Dictionary.setKeysAndVals items.keys items.vals (Dictionary.construct prg))) = Dictionary.peeled (p.dic.peeling
        (p.dic.fillTables (p.dic.init (Dictionary.setKeysAndVals items.keys items.vals (Dictionary.construct prg))))) := by
    unfold Dictionary.beforeUnpeeling Dictionary.peeled
    rw [solved.frame]
  refine ⟨Dictionary.consistentWithoutCore _ ?_, fun i inside => Dictionary.lateDrawsApart (fun e listed other => ?_) _⟩
  · have counter := spec.counter
    rw [none, List.length_nil] at counter
    unfold Dictionary.matrixSize
    change _ = l.length at counter
    omega
  · rw [order] at listed
    have known : e ∈ items.keys := perm.mem_iff.mp (spec.all.mem_iff.mp (List.mem_append_left _ listed))
    have entry : items.keys.getD i 0 ∈ items.keys := by
      rw [List.getD_eq_getElem _ _ (Nat.lt_of_lt_of_eq inside items.size.symm)]
      exact List.getElem_mem _
    obtain ⟨left, right⟩ := apart e known _ entry other
    exact ⟨left, fun same => right (Nat.add_left_cancel same)⟩

def apartKeys : ProtocolParty 65 where
  dic := spreadKeys twoKeys.dic.modulus 3
  width := Supported.semiHonest
  mx := mxTables
  aes _ _ := 0#128
  isMalicious := false
  gammaValue := rfl
  fieldBytes := rfl
  lastOffset := by decide
  enoughBuckets := by decide

theorem apartKeysEncode (raw : Bytes) (prg : Nat → Bytes) (solve : Solver 65) :
    Encodes (Items.constructed apartKeys raw) prg solve := by
  refine apartEncodes (fun e listed f listed' other => ?_) prg solve
  obtain ⟨i, inside, rfl⟩ := List.mem_map.mp listed
  obtain ⟨j, inside', rfl⟩ := List.mem_map.mp listed'
  have own : ∀ k < 3, apartKeys.dic.firstBucket (BitVec.ofNat 64 k) = k ∧
      apartKeys.dic.secondBucket (BitVec.ofNat 64 k) = k := by decide +kernel
  obtain ⟨first, second⟩ := own i (List.mem_range.mp inside)
  obtain ⟨first', second'⟩ := own j (List.mem_range.mp inside')
  have differ : i ≠ j := fun same => other (congrArg (BitVec.ofNat 64) same)
  rw [first, first', second, second']
  exact ⟨differ, differ⟩

theorem apartKeysAllMatch : ∃ r s, runWith apartKeys (simulateBaseOts apartKeys.aes) (fun _ _ _ => 0) 3
    (Receiver.construct (Items.constructed apartKeys fun _ => 9#8) id fun _ _ => 0#8)
    (Sender.construct (Items.constructed apartKeys fun _ => 9#8) id) = .ok (r, s, List.replicate 3 3) :=
  constructedAllMatch apartKeys _ id _ _ 3 fun _ _ rt _ _ _ => apartKeysEncode _ rt.dic.prg _

end Constructed

/-- Key 1 is the receiver's too, with the same value; keys 6 and 7 are not. -/
def oneShared : Items apartKeys := ⟨[1, 6, 7], maskVals 65 3 fun _ => 9#8, by decide, rfl⟩

theorem oneSharedCounted : commonItems (Items.constructed apartKeys fun _ => 9#8) oneShared = 1 ∧
    ∃ r s counts, runWith apartKeys (simulateBaseOts apartKeys.aes) (fun _ _ _ => 0) 2
      (Receiver.construct (Items.constructed apartKeys fun _ => 9#8) id fun _ _ => 0#8)
      (Sender.construct oneShared id) = .ok (r, s, counts) ∧ counts.length = 2 ∧
    ∀ t < 2, commonItems (Items.constructed apartKeys fun _ => 9#8) oneShared ≤ counts.getD t 0 := by
  refine ⟨by decide, ?_⟩
  obtain ⟨r, s, counts, ran, length, counted⟩ := commonItemsCounted (Items.constructed apartKeys fun _ => 9#8) oneShared
    ⟨_, rfl⟩ id (fun _ _ => 0#8) (fun _ _ _ => 0) 2
  refine ⟨r, s, counts, ran, length, fun t inside => ?_⟩
  obtain ⟨rt, st, -, -, bound⟩ := counted t inside
  exact bound (apartKeysEncode _ _ _)

end Runs
end PaxosPsi
