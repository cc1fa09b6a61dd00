import PaxosPsi.DictionaryPasses
import PaxosPsi.Matching

/-! `run` over any number of iterations. The parties keep their hash sets, matrices,
marks and cipher contexts, and every iteration counts what a new pair would count. -/
namespace PaxosPsi
open CountedLoop XorAlgebra Memory Elimination

theorem PRNG.getBuffered {prng : PRNG} {lengthu8 : Nat} (inside : prng.mBytesIdx + lengthu8 < prng.mBufferByteCapacity) :
    ∃ next, prng.get lengthu8 =
      .ok ((List.range lengthu8).map fun k => bytesOf prng.mBuffer (prng.mBytesIdx + k), next) := by
  unfold PRNG.get
  cases lengthu8 with
  | zero => exact ⟨prng, rfl⟩
  | succ m =>
    have whole : min (m + 1) (prng.mBufferByteCapacity - prng.mBytesIdx) = m + 1 := by omega
    have stepped : ∃ next, prng.getStep (m + 1) = .ok next := ⟨_, dif_pos inside⟩
    obtain ⟨next, stepped⟩ := stepped
    refine ⟨next, ?_⟩
    rw [PRNG.getLoop, if_neg (Nat.succ_ne_zero m)]
    simp only [whole, stepped, bind, Except.bind, Nat.sub_self]
    cases m <;> rfl

section BaseOts
variable {fieldSize : Nat} (p : ProtocolParty fieldSize)

theorem simulated : ∃ seeds choiceData,
    simulateBaseOts p.aes (p.width.stride * 128) = .ok (p.baseOts seeds choiceData) ∧
      ∀ j < p.width.stride, blocksOf choiceData j = p.aes prng0Seed (BitVec.ofNat 64 j) := by
  have narrow := (p.width.shape p.mx).narrow
  let gen := PRNG.new.setSeed p.aes prng0Seed
  obtain ⟨choice, prng0, got, keyed, -⟩ := PRNG.getKeyed (PRNG.setSeedKeyed p.aes prng0Seed PRNG.new)
    ((p.width.stride * 128 + 7) / 8)
  obtain ⟨sends, prng1, sent, -, -⟩ := PRNG.getKeyed keyed (32 * (p.width.stride * 128))
  have inside : gen.mBytesIdx + (p.width.stride * 128 + 7) / 8 < gen.mBufferByteCapacity := by
    change 0 + (p.width.stride * 128 + 7) / 8 < 4096
    omega
  obtain ⟨prng0', drawn⟩ := PRNG.getBuffered inside
  have buffered : choice = (List.range ((p.width.stride * 128 + 7) / 8)).map fun k => bytesOf gen.mBuffer k := by
    have start : ∀ k, gen.mBytesIdx + k = k := Nat.zero_add
    have same := congrArg Prod.fst (Except.ok.inj (got.symm.trans drawn))
    simpa only [start] using same
  refine ⟨fun i => (blocksOf (fun i => sends.getD i 0) (2 * i), blocksOf (fun i => sends.getD i 0) (2 * i + 1)),
    fun i => choice.getD i 0, ?_, fun j column => ?_⟩
  · unfold simulateBaseOts
    simp only [got, bind, Except.bind, sent]
    rfl
  · have bytes : ∀ b < 16 * p.width.stride, choice.getD b 0 = bytesOf gen.mBuffer b := by
      intro b below
      rw [buffered, List.getD_eq_getElem?_getD, List.getElem?_map, List.getElem?_range (by omega)]
      rfl
    have block := congrFun (blocksOfBytesOf gen.mBuffer) j
    have counter : gen.mBuffer j = p.aes prng0Seed (BitVec.ofNat 64 j) := congrArg (p.aes prng0Seed) (BitVec.zero_add _)
    rw [← counter, ← block]
    unfold blocksOf
    congr 1
    funext k
    have bound := k.isLt
    exact congrArg (BitVec.getLsbD · (k % 8)) (bytes _ (by omega))

end BaseOts

namespace Dictionary
variable {n : Nat} {dic : Dictionary n}

theorem graphCore {e : Encoding n} (ok : dic.WellFormed e) (k : Key) :
    k ∈ (dic.graph e).first ↔ TwoCore dic.touches (· ∈ e.keys) k := by
  obtain ⟨l, r, -, perm, spec⟩ := peeledOf (d := given e (construct e.prg)) ok.distinct ok.size
  have same : (fun k => k ∈ l) = fun k => k ∈ e.keys := funext fun k => propext perm.mem_iff
  rw [← same]
  exact spec.core k

theorem encodeKeys (e : Encoding n) (d : ObliviousDictionary n) (ok : dic.WellFormed e) :
    (dic.encode e d).keys = e.keys ∧ (dic.encode e d).values = e.values := by
  have used := (beforeUnpeelingReused ok d).1
  obtain ⟨l, r, -, perm, spec⟩ := peeledOf (d := given e (construct e.prg)) ok.distinct ok.size
  unfold encode
  rw [createDictionarySplit, unpeelingFold]
  dsimp only
  rw [(dic.unpeelInv _ _).frame, used]
  dsimp only
  unfold graph
  rw [spec.frame]
  exact ⟨rfl, rfl⟩

end Dictionary

section Iterations
variable {fieldSize : Nat} {p : ProtocolParty fieldSize} {seeds : Nat → Block × Block} {choiceData : Bytes}

def padRow (p : ProtocolParty fieldSize) (seeds : Nat → Block × Block) (key : Key) : Blocks := fun j =>
  xorSum ((p.dic.rowsOf key).map fun row =>
    Expansion.padBlock (fun i => PRNG.new.setSeed p.aes (seeds i).1) row j)

def itemDifference (p : ProtocolParty fieldSize) (choiceData sigma : Bytes) (key : Key) (val : Bytes) : Blocks := fun j =>
  (p.width.code p.mx).codeword (fun b => val b ^^^ decoded p sigma key b) j &&& blocksOf choiceData j

section Rows
variable {sigma : Bytes} {recv : PrtyMOtReceiver} {sender : PrtyMOtSender} {j : Nat}

theorem receiverRow (done : Exchanged p seeds choiceData sigma recv sender) (key : Key) (column : j < p.width.stride) :
    Receiver.row p recv key j = padRow p seeds key j := by
  have size : p.dic.size = p.numOTs := by
    unfold Hashing.size ProtocolParty.numOTs
    omega
  refine (rowSumSpec p recv.mT0 key j).trans (xorSumCongr fun row listed => ?_)
  exact done.t0Pads row (by rw [← size]; exact p.dic.rowsOfBound listed) j column

theorem senderRow (done : Exchanged p seeds choiceData sigma recv sender) (key : Key) (val : Bytes)
    (column : j < p.width.stride) :
    Sender.row p sender (p.baseOts seeds choiceData).baseChoice key val j =
      padRow p seeds key j ^^^ itemDifference p choiceData sigma key val j := by
  rw [rowDifference p done key val column, receiverRow done key column]
  rfl

end Rows

variable {items items' : Items p} {encrypt : Block → Block} {r : Receiver fieldSize} {s : Sender}

def Items.encoding (items : Items p) (prg : Nat → Bytes) (solve : Solver fieldSize) : Dictionary.Encoding fieldSize :=
  ⟨items.keys, items.vals, prg, solve⟩

def freshSigma (items : Items p) (prg : Nat → Bytes) (solve : Solver fieldSize) : Bytes :=
  p.dic.getVariables (p.dic.encode (items.encoding prg solve) (Dictionary.construct prg))

structure Ready (seeds : Nat → Block × Block) (items items' : Items p) (encrypt : Block → Block)
    (r : Receiver fieldSize) (s : Sender) : Prop where
  keys : r.keys = items.keys
  dicKeys : r.dic.keys = items.keys
  dicValues : r.dic.values = items.vals
  marks : ∀ v, r.dic.sign v ≠ 0 → ∃ k, TwoCore p.dic.touches (· ∈ items.keys) k ∧ p.dic.touches k v
  cipher : r.aes = ⟨encrypt, []⟩
  words : ∀ w ∈ r.xorsSet, ∃ k < p.dic.hashSize, w = wordOf encrypt (padRow p seeds (items.keys.getD k 0) 0)
  senderKeys : s.keys = items'.keys
  senderVals : s.vals = items'.vals
  senderCipher : s.aes = ⟨encrypt, []⟩

theorem Ready.construct (prg : Nat → Bytes) :
    Ready seeds items items' encrypt (Receiver.construct items encrypt prg) (Sender.construct items' encrypt) :=
  ⟨rfl, rfl, rfl, fun _ none => absurd rfl none, rfl, fun _ none => absurd none List.not_mem_nil, rfl, rfl, rfl⟩

structure Iterated (seeds : Nat → Block × Block) (choiceData sigma : Bytes) (items items' : Items p)
    (encrypt : Block → Block) (r : Receiver fieldSize) (s : Sender) (count : Nat) : Prop where
  ready : Ready seeds items items' encrypt r s
  rows : ∀ key, ∀ j < p.width.stride, Receiver.row p r.recv key j = padRow p seeds key j
  senderRows : ∀ key val, ∀ j < p.width.stride, Sender.row p s.sender s.baseChoice key val j =
    padRow p seeds key j ^^^ itemDifference p choiceData sigma key val j
  set : ∀ w, w ∈ r.xorsSet ↔ ∃ k < p.dic.hashSize, w = wordOf encrypt (padRow p seeds (items.keys.getD k 0) 0)
  sent : ∀ i < p.dic.hashSize, s.xors.get i = wordOf encrypt (padRow p seeds (items'.keys.getD i 0) 0 ^^^
    itemDifference p choiceData sigma (items'.keys.getD i 0) (Sender.val p items'.vals i) 0)
  count : count = (List.range p.dic.hashSize).countP fun i => s.xors.get i ∈ r.xorsSet

theorem Iterated.sameCount {sigma : Bytes} {count count' : Nat} {r' : Receiver fieldSize} {s' : Sender}
    (done : Iterated seeds choiceData sigma items items' encrypt r s count)
    (done' : Iterated seeds choiceData sigma items items' encrypt r' s' count') : count = count' := by
  rw [done.count, done'.count]
  apply List.countP_congr
  intro i listed
  have inside := List.mem_range.mp listed
  rw [decide_eq_true_iff, decide_eq_true_iff, done.set, done'.set, done.sent i inside, done'.sent i inside]

theorem Items.wellFormed (items : Items p) (prg : Nat → Bytes) (solve : Solver fieldSize) :
    p.dic.WellFormed (items.encoding prg solve) := ⟨items.distinct, items.size⟩

theorem Ready.dictionary (ready : Ready seeds items items' encrypt r s) (solve : Solver fieldSize) :
    p.dic.getVariables (p.dic.createDictionary solve r.dic) = freshSigma items r.dic.prg solve ∧
      (p.dic.createDictionary solve r.dic).keys = items.keys ∧
      (p.dic.createDictionary solve r.dic).values = items.vals ∧
      ∀ v, (p.dic.createDictionary solve r.dic).sign v ≠ 0 →
        ∃ k, TwoCore p.dic.touches (· ∈ items.keys) k ∧ p.dic.touches k v := by
  have ok := items.wellFormed r.dic.prg solve
  have same : Dictionary.given (items.encoding r.dic.prg solve) r.dic = r.dic := by
    unfold Dictionary.given Dictionary.setKeysAndVals Items.encoding
    dsimp only
    rw [← ready.dicKeys, ← ready.dicValues]
  have encoded : p.dic.createDictionary solve r.dic = p.dic.encode (items.encoding r.dic.prg solve) r.dic := by
    unfold Dictionary.encode
    rw [same]
    rfl
  have core : ∀ v, (∃ k, TwoCore p.dic.touches (· ∈ items.keys) k ∧ p.dic.touches k v) ↔
      p.dic.InCore (items.encoding r.dic.prg solve) v :=
    fun v => exists_congr fun k => and_congr_left fun _ => (Dictionary.graphCore ok k).symm
  have vars : (p.dic.encode (items.encoding r.dic.prg solve) r.dic).vars = _ :=
    Dictionary.encodeUnmarked ok (fun _ _ v _ mark => (core v).mp (ready.marks v mark)) r.dic.prg
  obtain ⟨keys, values⟩ := Dictionary.encodeKeys (items.encoding r.dic.prg solve) r.dic ok
  rw [encoded]
  refine ⟨?_, keys, values, fun v mark => ?_⟩
  · unfold freshSigma Dictionary.getVariables
    rw [vars]
  · rw [Dictionary.encodeSign ok] at mark
    by_cases inside : p.dic.InCore (items.encoding r.dic.prg solve) v
    · exact (core v).mpr inside
    · rw [if_neg inside] at mark
      exact ready.marks v mark

/-- One iteration, from any state earlier ones left. -/
theorem iterate {simulate : Nat → Except Error BaseOts}
    (given : simulate (p.width.stride * 128) = .ok (p.baseOts seeds choiceData))
    (ready : Ready seeds items items' encrypt r s) (solve : Solver fieldSize) :
    ∃ r' s' count, runOnlineWith p simulate solve r s = .ok (r', s', count) ∧
      Iterated seeds choiceData (freshSigma items r.dic.prg solve) items items' encrypt r' s' count ∧
      r'.dic = p.dic.createDictionary solve r.dic := by
  obtain ⟨sigma, dicKeys, dicValues, marks⟩ := ready.dictionary solve
  obtain ⟨recv, messages, sender, ranR, ranS, done⟩ :=
    otPhase p given (p.dic.getVariables (p.dic.createDictionary solve r.dic)) r.recv s.sender
  obtain ⟨xorsSet, ranSet, members⟩ := computeXorsReceiver (p := p)
    (r := { r with dic := p.dic.createDictionary solve r.dic, recv }) ready.cipher done.receiverCount
  obtain ⟨get, ranGet, words⟩ := computeXorsSender (p := p)
    (s := { s with baseChoice := (p.baseOts seeds choiceData).baseChoice, sender }) ready.senderCipher done.senderCount
  have column := p.stridePositive
  have set : ∀ w, w ∈ xorsSet ↔
      ∃ k < p.dic.hashSize, w = wordOf encrypt (padRow p seeds (items.keys.getD k 0) 0) := by
    intro w
    rw [members]
    dsimp only
    simp only [receiverRow done _ column, ready.keys]
    exact or_iff_right_of_imp (ready.words w)
  rw [sigma] at done
  refine ⟨⟨r.keys, p.dic.createDictionary solve r.dic, recv, xorsSet, r.aes⟩, ⟨s.keys, s.vals, sender,
    (p.baseOts seeds choiceData).baseChoice, ⟨p.dic.hashSize, get⟩, s.aes⟩,
    (List.range p.dic.hashSize).countP fun i => get i ∈ xorsSet, ?_, ⟨⟨ready.keys, dicKeys, dicValues, marks,
    ready.cipher, fun w listed => (set w).mp listed, ready.senderKeys, ready.senderVals, ready.senderCipher⟩, fun key j inside => receiverRow done key inside,
    fun key val j inside => senderRow done key val inside, set, fun i inside => ?_, ?_⟩, ?_⟩
  · unfold runOnlineWith
    simp only [ranR, bind, Except.bind, ranS, ranSet, ranGet, matchCount]
    rfl
  · refine (words i inside).trans (congrArg (wordOf encrypt) ?_)
    dsimp only
    rw [ready.senderKeys, ready.senderVals]
    exact senderRow done _ _ column
  · rfl
  · rfl

theorem runReady {simulate : Nat → Except Error BaseOts}
    (given : simulate (p.width.stride * 128) = .ok (p.baseOts seeds choiceData))
    (ready : Ready seeds items items' encrypt r s) (solve : Nat → Solver fieldSize) (times : Nat) :
    ∃ r' s' counts, runWith p simulate solve times r s = .ok (r', s', counts) ∧ counts.length = times ∧
      Ready seeds items items' encrypt r' s' := by
  induction times with
  | zero => exact ⟨r, s, [], rfl, rfl, ready⟩
  | succ times ih =>
    obtain ⟨r1, s1, counts, ran, length, ready1⟩ := ih
    obtain ⟨r2, s2, count, stepped, done, -⟩ := iterate given ready1 (solve times)
    refine ⟨r2, s2, counts ++ [count], ?_, ?_, done.ready⟩
    · simp only [runWith, ran, bind, Except.bind, stepped]
      rfl
    · rw [List.length_append, length]
      rfl

end Iterations

/-- Every iteration of `run` counts what a new pair counts in its first one, given the PRG
and the solver of that iteration. -/
theorem iterationsIndependent {fieldSize : Nat} {p : ProtocolParty fieldSize} (items items' : Items p)
    (encrypt : Block → Block) (prg : Nat → Bytes) (solve : Nat → Solver fieldSize) (times : Nat) :
    ∃ r s counts, runWith p (simulateBaseOts p.aes) solve times (Receiver.construct items encrypt prg)
        (Sender.construct items' encrypt) = .ok (r, s, counts) ∧ counts.length = times ∧
      ∀ t < times, ∃ rt st earlier r' s', runWith p (simulateBaseOts p.aes) solve t
          (Receiver.construct items encrypt prg) (Sender.construct items' encrypt) = .ok (rt, st, earlier) ∧
        earlier = counts.take t ∧
        runOnlineWith p (simulateBaseOts p.aes) (solve t) (Receiver.construct items encrypt rt.dic.prg)
          (Sender.construct items' encrypt) = .ok (r', s', counts.getD t 0) := by
  obtain ⟨seeds, choiceData, given, -⟩ := simulated p
  induction times with
  | zero => exact ⟨_, _, [], rfl, rfl, fun t none => absurd none (Nat.not_lt_zero t)⟩
  | succ times ih =>
    obtain ⟨r, s, counts, ran, length, counted⟩ := ih
    have start : Ready seeds items items' encrypt (Receiver.construct items encrypt prg)
        (Sender.construct items' encrypt) := Ready.construct prg
    obtain ⟨r1, s1, counts1, ran1, -, ready⟩ := runReady given start solve times
    cases Except.ok.inj (ran.symm.trans ran1)
    obtain ⟨r2, s2, count, stepped, done, -⟩ := iterate given ready (solve times)
    obtain ⟨r3, s3, count', fresh, done', -⟩ := iterate given (Ready.construct r.dic.prg) (solve times)
    refine ⟨r2, s2, counts ++ [count], ?_, ?_, fun t below => ?_⟩
    · simp only [runWith, ran, bind, Except.bind, stepped]
      rfl
    · rw [List.length_append, length]
      rfl
    · by_cases last : t = times
      · subst last
        refine ⟨r, s, counts, r3, s3, ran, ?_, ?_⟩
        · rw [← length, List.take_left]
        · have next : (counts ++ [count]).getD t 0 = count := by simp [← length]
          rw [next, fresh, done.sameCount done']
      · obtain ⟨rt, st, earlier, r', s', before, taken, again⟩ := counted t (by omega)
        refine ⟨rt, st, earlier, r', s', before, ?_, ?_⟩
        · rw [taken, List.take_append_of_le_length (by omega)]
        · rw [List.getD_append _ _ _ _ (by omega)]
          exact again

end PaxosPsi
