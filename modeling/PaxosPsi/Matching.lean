import PaxosPsi.OtPhase
import PaxosPsi.CodeTables

/-! Words and matches: the word of a row is taken from its first block alone, and the
receiver counts the sender's words that are among its own. -/
namespace PaxosPsi
open CountedLoop XorAlgebra Memory

def wordOf (encrypt : Block → Block) (b : Block) : BitVec 64 := (encrypt b).extractLsb' 0 64

section Words
variable {fieldSize : Nat} {p : ProtocolParty fieldSize}

theorem rowTagSpec (encrypt : Block → Block) {blockSize : Nat} (wide : 0 < blockSize) (output : Blocks) :
    ProtocolParty.rowTag ⟨encrypt, []⟩ blockSize output = (wordOf encrypt (output 0), ⟨encrypt, []⟩) := by
  unfold ProtocolParty.rowTag EVP_EncryptUpdate firstWord wordOf
  have whole : blockSize * 16 % 16 = 0 := Nat.mul_mod_left _ _
  simp only [List.length_nil, Nat.zero_add, Nat.not_lt_zero, if_false, Nat.sub_zero, whole, List.range_zero,
    List.map_nil, blocksOfBytesOf, Nat.mul_div_cancel _ (show 0 < 16 by omega)]
  congr 2
  apply BitVec.eq_of_getLsbD_eq
  intro k inside
  have reached : k / 8 < blockSize * 16 := by omega
  have small : 8 * (k / 8 % 16) + k % 8 = k := by omega
  have zero : k / 8 / 16 = 0 := by omega
  simp [blocksOf, bytesOf, inside, reached, small, zero, Nat.mod_lt]

theorem computeXorsReceiver {r : Receiver fieldSize} {encrypt : Block → Block} (idle : r.aes = ⟨encrypt, []⟩)
    (count : r.recv.getBaseOTCount = .ok (p.width.stride * 128)) :
    ∃ xorsSet, Receiver.computeXors p r = .ok { r with xorsSet } ∧ ∀ w, w ∈ xorsSet ↔
      w ∈ r.xorsSet ∨ ∃ k < p.dic.hashSize, w = wordOf encrypt (Receiver.row p r.recv (r.keys.getD k 0) 0) := by
  have upTo : ∀ m, ∃ xorsSet, forLoop m (Receiver.insertXor p p.width.stride) r = { r with xorsSet } ∧
      ∀ w, w ∈ xorsSet ↔
        w ∈ r.xorsSet ∨ ∃ k < m, w = wordOf encrypt (Receiver.row p r.recv (r.keys.getD k 0) 0) := by
    intro m
    induction m with
    | zero => exact ⟨r.xorsSet, rfl, by simp⟩
    | succ m ih =>
      obtain ⟨xorsSet, ran, members⟩ := ih
      have tag := rowTagSpec encrypt p.stridePositive (Receiver.row p r.recv (r.keys.getD m 0))
      refine ⟨_, by rw [forLoopSucc, ran, Receiver.insertXor]; dsimp only; rw [idle, tag, ← idle], fun w => ?_⟩
      have inserted : ∀ tag, w ∈ (if tag ∈ xorsSet then xorsSet else tag :: xorsSet) ↔ w ∈ xorsSet ∨ w = tag := by
        intro tag
        split
        · rename_i listed
          exact ⟨Or.inl, fun either => either.elim id (fun same => same ▸ listed)⟩
        · rw [List.mem_cons, or_comm]
      rw [inserted, members, Nat.exists_lt_succ_right, or_assoc]
  obtain ⟨xorsSet, ran, members⟩ := upTo p.dic.hashSize
  refine ⟨xorsSet, ?_, members⟩
  unfold Receiver.computeXors
  rw [count]
  simp only [bind, Except.bind, Nat.mul_div_cancel _ (show 0 < 128 by omega)]
  rw [ran]
  rfl

theorem computeXorsSender {s : Sender} {encrypt : Block → Block} (idle : s.aes = ⟨encrypt, []⟩)
    (count : s.sender.getBaseOTCount = .ok (p.width.stride * 128)) :
    ∃ get, Sender.computeXors p s = .ok { s with xors := ⟨p.dic.hashSize, get⟩ } ∧ ∀ i < p.dic.hashSize,
      get i = wordOf encrypt (Sender.row p s.sender s.baseChoice (s.keys.getD i 0) (Sender.val p s.vals i) 0) := by
  have upTo : ∀ m (get0 : Nat → BitVec 64), ∃ get, forLoop m (Sender.setXor p p.width.stride)
      { s with xors := ⟨p.dic.hashSize, get0⟩ } = { s with xors := ⟨p.dic.hashSize, get⟩ } ∧ ∀ i < m,
      get i = wordOf encrypt (Sender.row p s.sender s.baseChoice (s.keys.getD i 0) (Sender.val p s.vals i) 0) := by
    intro m get0
    induction m with
    | zero => exact ⟨get0, rfl, by simp⟩
    | succ m ih =>
      obtain ⟨get, ran, words⟩ := ih
      have tag := rowTagSpec encrypt p.stridePositive
        (Sender.row p s.sender s.baseChoice (s.keys.getD m 0) (Sender.val p s.vals m))
      refine ⟨_, by rw [forLoopSucc, ran, Sender.setXor]; dsimp only; rw [idle, tag, ← idle], fun i below => ?_⟩
      by_cases last : i = m
      · rw [last, Function.update_self]
      · rw [Function.update_of_ne last]
        exact words i (by omega)
  obtain ⟨get, ran, words⟩ := upTo p.dic.hashSize (s.xors.resize p.dic.hashSize 0).get
  refine ⟨get, ?_, words⟩
  unfold Sender.computeXors
  rw [count]
  simp only [bind, Except.bind, Nat.mul_div_cancel _ (show 0 < 128 by omega)]
  exact congrArg Except.ok ran

theorem matchCount (senderOutputs : Vec (BitVec 64)) (r : Receiver fieldSize) :
    Receiver.receiveSenderXors p senderOutputs r =
      (List.range p.dic.hashSize).countP fun i => senderOutputs.get i ∈ r.xorsSet := by
  unfold Receiver.receiveSenderXors
  induction p.dic.hashSize with
  | zero => rfl
  | succ m ih =>
    rw [forLoopSucc, ih, List.range_succ, List.countP_append]
    split <;> simp_all

theorem wordCongr {encrypt : Block → Block} {a b : Blocks} (same : a 0 = b 0) :
    wordOf encrypt (a 0) = wordOf encrypt (b 0) := by rw [same]

end Words

/-- The rows of both parties for every item, for all base OTs, dictionaries and earlier
states; the word of an item both hold with its decoded value is found by the receiver. -/
theorem rowsAndMatches {fieldSize : Nat} (p : ProtocolParty fieldSize) (seeds : Nat → Block × Block)
    (choiceData sigma : Bytes) (recv : PrtyMOtReceiver) (sender : PrtyMOtSender) :
    let simulate := fun count => .ok ⟨count, seeds, choiceData⟩
    let baseChoice : BitVector := ⟨p.width.stride * 128, choiceData⟩
    ∃ r messages s, Receiver.runOOSWith p simulate sigma recv = .ok (r, messages) ∧
      Sender.runOOSWith p simulate messages sender = .ok (baseChoice, s) ∧
      (∀ key val, ∀ j < p.width.stride, Sender.row p s baseChoice key val j = Receiver.row p r key j ^^^
        ((p.width.code p.mx).codeword (fun b => val b ^^^ decoded p sigma key b) j &&& blocksOf choiceData j)) ∧
      ∀ (keys keys' : List Key) (dic : ObliviousDictionary fieldSize) (vals : Bytes) (xorsSet : List (BitVec 64))
        (xors : Vec (BitVec 64)) (encrypt : Block → Block), ∃ receiver sender',
        Receiver.computeXors p ⟨keys, dic, r, xorsSet, ⟨encrypt, []⟩⟩ = .ok receiver ∧
        Sender.computeXors p ⟨keys', vals, s, baseChoice, xors, ⟨encrypt, []⟩⟩ = .ok sender' ∧
        Receiver.receiveSenderXors p (Sender.sendXors sender') receiver =
          (List.range p.dic.hashSize).countP (fun i => (Sender.sendXors sender').get i ∈ receiver.xorsSet) ∧
        ∀ i < p.dic.hashSize, ∀ k < p.dic.hashSize, keys'.getD i 0 = keys.getD k 0 →
          (∀ b < p.dic.fieldSizeBytes, decoded p sigma (keys.getD k 0) b = Sender.val p vals i b) →
          (Sender.sendXors sender').get i ∈ receiver.xorsSet := by
  intro simulate baseChoice
  have given : simulate (p.width.stride * 128) = .ok (p.baseOts seeds choiceData) := rfl
  obtain ⟨r, messages, s, ranR, ranS, done⟩ := otPhase p given sigma recv sender
  have difference := fun key val j (column : j < p.width.stride) => rowDifference p done key val column
  refine ⟨r, messages, s, ranR, ranS, difference, ?_⟩
  intro keys keys' dic vals xorsSet xors encrypt
  obtain ⟨set, ranSet, members⟩ := computeXorsReceiver (p := p)
    (r := ⟨keys, dic, r, xorsSet, ⟨encrypt, []⟩⟩) rfl done.receiverCount
  obtain ⟨get, ranGet, words⟩ := computeXorsSender (p := p)
    (s := ⟨keys', vals, s, baseChoice, xors, ⟨encrypt, []⟩⟩) rfl done.senderCount
  refine ⟨_, _, ranSet, ranGet, matchCount _ _, fun i below k inside common exact => ?_⟩
  refine (members _).mpr (Or.inr ⟨k, inside, (words i below).trans (wordCongr ?_)⟩)
  have column := p.stridePositive
  have zero : (p.width.code p.mx).codeword (fun b => Sender.val p vals i b ^^^ decoded p sigma (keys'.getD i 0) b) 0 =
      0#128 := by
    rw [← LinearCode.codewordZero (p.width.code p.mx) 0]
    refine congrFun (LinearCode.codewordCongr _ fun b bound => ?_) 0
    rw [(p.width.shape p.mx).plaintextU8Size, ← p.fieldSizeBytesRounded] at bound
    rw [common, exact b bound, BitVec.xor_self]
  have rows := difference (keys'.getD i 0) (Sender.val p vals i) 0 column
  rw [zero, BitVec.zero_and, BitVec.xor_zero, common] at rows
  rw [common]
  exact rows

section Received
variable {fieldSize : Nat} (p : ProtocolParty fieldSize)

theorem receiveMessageSpec {size : BitVec 64} (fits : size.toNat ≤ Receiver.maxWords) (words : Nat → BitVec 64)
    (r : Receiver fieldSize) : Receiver.receiveMessage p size words r =
      .ok (Receiver.receiveSenderXors p ⟨size.toNat, words⟩ r, List.range p.dic.hashSize) := by
  have read : Receiver.readSenderOutputs size words = .ok ⟨size.toNat, words⟩ := if_neg (Nat.not_lt.mpr fits)
  unfold Receiver.receiveMessage Receiver.receiveSenderXors
  rw [read]
  simp only [bind, Except.bind, pure, Except.pure]
  congr 1
  induction p.dic.hashSize with
  | zero => rfl
  | succ m ih => rw [forLoopSucc, ih, forLoopSucc, List.range_succ]

theorem countPMore (f : Nat → Bool) {m n : Nat} (more : m ≤ n) :
    (List.range m).countP f = (List.range n).countP f ↔ ∀ i, m ≤ i → i < n → f i = false := by
  obtain ⟨rest, rfl⟩ := Nat.exists_eq_add_of_le more
  rw [List.range_add, List.countP_append, Nat.left_eq_add, List.countP_eq_zero]
  constructor
  · intro none i low high
    have listed : i ∈ (List.range rest).map (m + ·) := by
      refine List.mem_map.mpr ⟨i - m, List.mem_range.mpr (by omega), ?_⟩
      omega
    exact Bool.eq_false_iff.mpr (none i listed)
  · intro none i listed
    obtain ⟨j, inside, rfl⟩ := List.mem_map.mp listed
    have bound := List.mem_range.mp inside
    exact Bool.eq_false_iff.mp (none _ (by omega) (by omega))

/-- Up to the longest vector the receiver reports a count. It reads received entries
only and counts all of them exactly when it is sent no fewer words than it has keys
and none behind those is in its set. -/
theorem receivedCountIff (r : Receiver fieldSize) (size : BitVec 64) (words : Nat → BitVec 64) :
    (size.toNat ≤ Receiver.maxWords → ∃ outcome, Receiver.receiveMessage p size words r = .ok outcome) ∧
    ((∀ count reads, Receiver.receiveMessage p size words r = .ok (count, reads) →
        (∀ i ∈ reads, i < size.toNat) ∧ count = (List.range size.toNat).countP fun i => words i ∈ r.xorsSet) ↔
      (size.toNat ≤ Receiver.maxWords → p.dic.hashSize ≤ size.toNat ∧
        ∀ i, p.dic.hashSize ≤ i → i < size.toNat → words i ∉ r.xorsSet)) := by
  refine ⟨fun fits => ⟨_, receiveMessageSpec p fits words r⟩, ?_, ?_⟩
  · intro holds fits
    obtain ⟨received, counted⟩ := holds _ _ (receiveMessageSpec p fits words r)
    have enough : p.dic.hashSize ≤ size.toNat := by
      by_contra fewer
      exact Nat.lt_irrefl _ (received size.toNat (List.mem_range.mpr (Nat.lt_of_not_le fewer)))
    refine ⟨enough, fun i low high => ?_⟩
    rw [matchCount] at counted
    exact of_decide_eq_false ((countPMore _ enough).mp counted i low high)
  · intro condition count reads ran
    by_cases fits : size.toNat ≤ Receiver.maxWords
    · obtain ⟨enough, none⟩ := condition fits
      rw [receiveMessageSpec p fits words r] at ran
      cases ran
      refine ⟨fun i listed => Nat.lt_of_lt_of_le (List.mem_range.mp listed) enough, ?_⟩
      rw [matchCount]
      exact (countPMore _ enough).mpr fun i low high => decide_eq_false (none i low high)
    · have thrown : Receiver.readSenderOutputs size words = .error .lengthError := if_pos (Nat.lt_of_not_le fits)
      unfold Receiver.receiveMessage at ran
      rw [thrown] at ran
      cases ran

def twoKeys : ProtocolParty 65 where
  dic :=
    { tableRealSize := 2, gamma := 60, firstHash := id, secondHash := fun _ => 0, DH := fun _ => 0
      occupied := Nat.zero_lt_two, gammaLow := by decide, gammaHigh := by decide, hashSize := 2, fieldSizeBytes := 9
      modulus := ⟨27#65, by decide⟩, firstLink := fun _ _ => 0, secondLink := fun _ _ => 0 }
  width := Supported.semiHonest
  mx := mxTables
  aes _ _ := 0#128
  isMalicious := false
  gammaValue := rfl
  fieldBytes := rfl
  lastOffset := by decide
  enoughBuckets := by decide

def twoItems : Items twoKeys := ⟨[0, 1], fun _ => 0#8, by decide, rfl⟩

/-- A sender that announces one word makes a receiver with two keys read a second one. -/
theorem readsPastMessage : ∃ count reads,
    Receiver.receiveMessage twoKeys 1#64 (fun _ => 7#64)
        (Receiver.construct twoItems id fun _ _ => 0#8) = .ok (count, reads) ∧
      ¬ ∀ i ∈ reads, i < (1#64).toNat :=
  ⟨_, _, receiveMessageSpec twoKeys (by decide) _ _, by decide⟩

end Received
end PaxosPsi
