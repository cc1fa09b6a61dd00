import PaxosPsi.Iterations

/-! Matches against whole rows. A word depends on the first block of its row alone, so
rows that agree there and differ in a later block match. -/
namespace PaxosPsi
open CountedLoop XorAlgebra Memory

section Rows
variable {fieldSize : Nat} {p : ProtocolParty fieldSize}

def RowBlock (p : ProtocolParty fieldSize) (r : Receiver fieldSize) (s : Sender) (b : Block) : Prop :=
  (∃ k < p.dic.hashSize, ∃ j < p.width.stride, b = Receiver.row p r.recv (r.keys.getD k 0) j) ∨
  ∃ i < p.dic.hashSize, ∃ j < p.width.stride,
    b = Sender.row p s.sender s.baseChoice (s.keys.getD i 0) (Sender.val p s.vals i) j

def WordsApart (p : ProtocolParty fieldSize) (encrypt : Block → Block) (r : Receiver fieldSize) (s : Sender) : Prop :=
  ∀ a b, RowBlock p r s a → RowBlock p r s b → wordOf encrypt a = wordOf encrypt b → a = b

def SameRow (p : ProtocolParty fieldSize) (r : Receiver fieldSize) (s : Sender) (i k : Nat) : Prop :=
  ∀ j < p.width.stride, Sender.row p s.sender s.baseChoice (s.keys.getD i 0) (Sender.val p s.vals i) j =
    Receiver.row p r.recv (r.keys.getD k 0) j

def rowsDiffer (p : ProtocolParty fieldSize) (seeds : Nat → Block × Block) (choiceData sigma : Bytes)
    (items items' : Items p) (i k : Nat) : Blocks := fun j =>
  padRow p seeds (items'.keys.getD i 0) j ^^^ padRow p seeds (items.keys.getD k 0) j ^^^
    itemDifference p choiceData sigma (items'.keys.getD i 0) (Sender.val p items'.vals i) j

/-- Differences that vanish in the first block vanish in every block. -/
structure WholeRows (p : ProtocolParty fieldSize) (seeds : Nat → Block × Block) (choiceData sigma : Bytes)
    (items items' : Items p) (i : Nat) : Prop where
  some : (∃ k < p.dic.hashSize, rowsDiffer p seeds choiceData sigma items items' i k 0 = 0#128) →
    ∃ k < p.dic.hashSize, ∀ j < p.width.stride, rowsDiffer p seeds choiceData sigma items items' i k j = 0#128
  own : ∀ k < p.dic.hashSize, items'.keys.getD i 0 = items.keys.getD k 0 →
    itemDifference p choiceData sigma (items'.keys.getD i 0) (Sender.val p items'.vals i) 0 = 0#128 →
    ∀ j < p.width.stride,
      itemDifference p choiceData sigma (items'.keys.getD i 0) (Sender.val p items'.vals i) j = 0#128

end Rows

section Matches
variable {fieldSize : Nat} {p : ProtocolParty fieldSize} {seeds : Nat → Block × Block} {choiceData sigma : Bytes}
  {items items' : Items p} {encrypt : Block → Block} {r : Receiver fieldSize} {s : Sender} {count i k : Nat}

theorem Iterated.rowEqual (done : Iterated seeds choiceData sigma items items' encrypt r s count) {j : Nat}
    (column : j < p.width.stride) :
    Sender.row p s.sender s.baseChoice (s.keys.getD i 0) (Sender.val p s.vals i) j =
      Receiver.row p r.recv (r.keys.getD k 0) j ↔ rowsDiffer p seeds choiceData sigma items items' i k j = 0#128 := by
  rw [done.ready.senderKeys, done.ready.senderVals, done.ready.keys, done.senderRows _ _ j column, done.rows _ j column]
  unfold rowsDiffer
  rw [BitVec.xor_assoc, BitVec.xor_comm (padRow p seeds (items.keys.getD k 0) j), ← BitVec.xor_assoc,
    BitVec.xor_eq_zero_iff]

theorem Iterated.counted (done : Iterated seeds choiceData sigma items items' encrypt r s count)
    (apart : WordsApart p encrypt r s) (inside : i < p.dic.hashSize) :
    s.xors.get i ∈ r.xorsSet ↔
      ∃ k < p.dic.hashSize, rowsDiffer p seeds choiceData sigma items items' i k 0 = 0#128 := by
  have column := p.stridePositive
  rw [done.set, done.sent i inside]
  refine exists_congr fun k => and_congr_right fun below => ?_
  have senders := done.senderRows (s.keys.getD i 0) (Sender.val p s.vals i) 0 column
  have receivers := done.rows (r.keys.getD k 0) 0 column
  rw [← done.rowEqual column]
  rw [← done.ready.senderKeys, ← done.ready.senderVals, ← done.ready.keys, ← senders, ← receivers]
  refine ⟨apart _ _ (Or.inr ⟨i, inside, 0, column, rfl⟩) (Or.inl ⟨k, below, 0, column, rfl⟩), congrArg _⟩

/-- What a match should mean for item `i`. -/
structure MatchesRows (p : ProtocolParty fieldSize) (encrypt : Block → Block) (choiceData sigma : Bytes)
    (r : Receiver fieldSize) (s : Sender) (i : Nat) : Prop where
  counted : s.xors.get i ∈ r.xorsSet ↔ ∃ k < p.dic.hashSize, SameRow p r s i k
  own : ∀ k < p.dic.hashSize, s.keys.getD i 0 = r.keys.getD k 0 → (∃ j < p.width.stride,
      itemDifference p choiceData sigma (s.keys.getD i 0) (Sender.val p s.vals i) j ≠ 0#128) →
    s.xors.get i ≠ wordOf encrypt (Receiver.row p r.recv (r.keys.getD k 0) 0)

theorem Iterated.matchesIff (done : Iterated seeds choiceData sigma items items' encrypt r s count)
    (apart : WordsApart p encrypt r s) (inside : i < p.dic.hashSize) :
    MatchesRows p encrypt choiceData sigma r s i ↔ WholeRows p seeds choiceData sigma items items' i := by
  have column := p.stridePositive
  have same : ∀ k, SameRow p r s i k ↔
      ∀ j < p.width.stride, rowsDiffer p seeds choiceData sigma items items' i k j = 0#128 :=
    fun k => forall_congr' fun j => forall_congr' fun column => done.rowEqual column
  have wordOwn : ∀ k < p.dic.hashSize, s.keys.getD i 0 = r.keys.getD k 0 →
      (s.xors.get i = wordOf encrypt (Receiver.row p r.recv (r.keys.getD k 0) 0) ↔
        itemDifference p choiceData sigma (items'.keys.getD i 0) (Sender.val p items'.vals i) 0 = 0#128) := by
    intro k below own
    have senders := done.senderRows (s.keys.getD i 0) (Sender.val p s.vals i) 0 column
    rw [done.sent i inside, ← done.ready.senderKeys, ← done.ready.senderVals, ← senders]
    constructor
    · intro words
      have rows := apart _ _ (Or.inr ⟨i, inside, 0, column, rfl⟩) (Or.inl ⟨k, below, 0, column, rfl⟩) words
      rw [senders, done.rows _ 0 column, ← own] at rows
      exact (xorEqSelf _ _).mp rows
    · intro zero
      rw [senders, zero, BitVec.xor_zero, done.rows _ 0 column, own]
  constructor
  · rintro ⟨counted, own⟩
    refine ⟨fun some => ?_, fun k below common zero j column' => ?_⟩
    · obtain ⟨k, below, row⟩ := counted.mp ((done.counted apart inside).mpr some)
      exact ⟨k, below, (same k).mp row⟩
    · have keys : s.keys.getD i 0 = r.keys.getD k 0 := by rw [done.ready.senderKeys, done.ready.keys, common]
      by_contra nonzero
      refine own k below keys ⟨j, column', ?_⟩ ((wordOwn k below keys).mpr zero)
      rwa [done.ready.senderKeys, done.ready.senderVals]
  · rintro ⟨some, own⟩
    refine ⟨(done.counted apart inside).trans ⟨fun first => ?_, ?_⟩, ?_⟩
    · obtain ⟨k, below, row⟩ := some first
      exact ⟨k, below, (same k).mpr row⟩
    · rintro ⟨k, below, row⟩
      exact ⟨k, below, (same k).mp row 0 column⟩
    · rintro k below keys ⟨j, column', nonzero⟩ words
      refine nonzero ?_
      rw [done.ready.senderKeys, done.ready.senderVals]
      refine own k below ?_ ((wordOwn k below keys).mp words) j column'
      rw [← done.ready.senderKeys, ← done.ready.keys, keys]

end Matches

/-- In every iteration, an item matches exactly when its whole row is a row of the
receiver, if and only if no difference of rows vanishes in the first block alone. -/
theorem matchesIffWholeRows {fieldSize : Nat} {p : ProtocolParty fieldSize} (items items' : Items p)
    (encrypt : Block → Block) (prg : Nat → Bytes) (solve : Nat → Solver fieldSize) (t : Nat) :
    ∃ seeds choiceData, simulateBaseOts p.aes (p.width.stride * 128) = .ok (p.baseOts seeds choiceData) ∧
      ∃ rt st counts r s count, runWith p (simulateBaseOts p.aes) solve t (Receiver.construct items encrypt prg)
          (Sender.construct items' encrypt) = .ok (rt, st, counts) ∧
        runOnlineWith p (simulateBaseOts p.aes) (solve t) rt st = .ok (r, s, count) ∧
        count = (List.range p.dic.hashSize).countP (fun i => s.xors.get i ∈ r.xorsSet) ∧
        (WordsApart p encrypt r s → ∀ i < p.dic.hashSize,
          (MatchesRows p encrypt choiceData (freshSigma items rt.dic.prg (solve t)) r s i ↔
            WholeRows p seeds choiceData (freshSigma items rt.dic.prg (solve t)) items items' i)) := by
  obtain ⟨seeds, choiceData, given, -⟩ := simulated p
  have fresh : Ready seeds items items' encrypt (Receiver.construct items encrypt prg)
      (Sender.construct items' encrypt) := Ready.construct prg
  obtain ⟨rt, st, counts, ran, -, ready⟩ := runReady given fresh solve t
  obtain ⟨r, s, count, stepped, done, -⟩ := iterate given ready (solve t)
  exact ⟨seeds, choiceData, given, rt, st, counts, r, s, count, ran, stepped, done.count,
    fun apart i inside => done.matchesIff apart inside⟩

section Hidden

/-- The blocks AES gives for the counters 0 to 4 under `prng0Seed`, which are the choice bits. -/
def seedBlocks : Blocks := fun c =>
  [0x1c7650adbfa691c9dc52883fe8faee50#128, 0x2540d65bc8b5793facdac24be17608f8#128,
    0x9317bec7274cd1c8255fad037e1f691e#128, 0x1f03fe7566bf8b12c271f6fb59944ee8#128,
    0xba67268897b7a8b0217515cfbc259795#128].getD c 0#128

def oneKey : ProtocolParty 132 where
  dic :=
    { tableRealSize := 2, gamma := 60, firstHash := fun _ => 0, secondHash := fun _ => 0, DH := fun _ => 0
      occupied := Nat.zero_lt_two, gammaLow := twoKeys.dic.gammaLow, gammaHigh := twoKeys.dic.gammaHigh
      hashSize := 1, fieldSizeBytes := 17
      modulus := ⟨0x20001#132, by decide⟩, firstLink := fun _ _ => 0, secondLink := fun _ _ => 0 }
  width := Supported.malicious
  mx := mxTables
  aes _ c := seedBlocks c.toNat
  isMalicious := false
  gammaValue := rfl
  fieldBytes := rfl
  lastOffset := by decide
  enoughBuckets := by decide

def hiddenWord : BitVec 132 := 0x24010000000800004800520c000000100#132

def zeroItem : Items oneKey := ⟨[0], fun _ => 0#8, by decide, rfl⟩

def hiddenItem : Items oneKey := ⟨[0], bytesFromGF2X hiddenWord, by decide, rfl⟩

def hiddenRows (j : Nat) : Block :=
  xorSum ((List.range 132).map ((oneKey.width.code mxTables).rowTerm (bytesFromGF2X hiddenWord) j)) &&& seedBlocks j

theorem hiddenRowsFirst : hiddenRows 0 = 0#128 := by decide +kernel

def hiddenWords : List (BitVec 64) :=
  [0x0#64, 0xa800c20241240858#64, 0x245605005e006918#64, 0x4230c20b591040a0#64, 0x24044304050510#64]

theorem hiddenRowsWords : ∀ j < 5, (hiddenRows j).extractLsb' 0 64 = hiddenWords.getD j 0 := by decide +kernel

theorem hiddenCodeword {j : Nat} (column : j < 5) :
    ((oneKey.width.code mxTables).codeword (bytesFromGF2X hiddenWord) j &&& seedBlocks j).extractLsb' 0 64 =
        hiddenWords.getD j 0 ∧
      (j = 0 → (oneKey.width.code mxTables).codeword (bytesFromGF2X hiddenWord) j &&& seedBlocks j = 0#128) := by
  have bits : ∀ k < 128, 128 * j + k < 584 → ((oneKey.width.code mxTables).codeword (bytesFromGF2X hiddenWord) j &&&
      seedBlocks j).getLsbD k = (hiddenRows j).getLsbD k := by
    intro k small inside
    have block : (128 * j + k) / 128 = j := by omega
    have offset : (128 * j + k) % 128 = k := by omega
    have rows := LinearCode.codewordRows (oneKey.width.code mxTables) (bytesFromGF2X hiddenWord) (k := 128 * j + k)
      inside (Or.inr ⟨by decide, by omega⟩)
    rw [block, offset] at rows
    rw [BitVec.getLsbD_and, rows, hiddenRows, BitVec.getLsbD_and]
    rfl
  constructor
  · rw [← hiddenRowsWords j column]
    apply BitVec.eq_of_getLsbD_eq
    intro k small
    rw [BitVec.getLsbD_extractLsb', BitVec.getLsbD_extractLsb', Nat.zero_add, bits k (by omega) (by omega)]
  · rintro rfl
    rw [← hiddenRowsFirst]
    apply BitVec.eq_of_getLsbD_eq
    exact fun k small => bits k small (by omega)

def zeroSigma : Bytes := freshSigma zeroItem (fun _ _ => 0#8) fun _ _ => 0#132

theorem zeroSigmaDecoded {b : Nat} (inside : b < 17) : decoded oneKey zeroSigma 0 b = 0#8 := by
  have vars : ∀ v ∈ [0, 2], (oneKey.dic.encode (zeroItem.encoding (fun _ _ => 0#8) fun _ _ => 0#132)
      (Dictionary.construct fun _ _ => 0#8)).vars v = 0#132 := by decide +kernel
  have words : ∀ v ∈ [0, 2], Receiver.word oneKey zeroSigma v b = 0#8 := by
    intro v listed
    have row : (17 * v + b) / 17 = v := by omega
    have size : oneKey.dic.fieldSizeBytes = 17 := rfl
    unfold Receiver.word zeroSigma freshSigma Dictionary.getVariables
    rw [size, row, vars v listed]
    exact BitVec.extractLsb'_zero
  have rows : oneKey.dic.rowsOf 0 = [0, 2] := by decide
  unfold decoded
  rw [rows, List.map_cons, List.map_singleton, words 0 (by decide), words 2 (by decide)]
  rfl

theorem zeroPads (seeds : Nat → Block × Block) (j : Nat) : padRow oneKey seeds 0 j = 0#128 := by
  have rows : oneKey.dic.rowsOf 0 = [0, 2] := by decide
  have pad : ∀ row ∈ [0, 2], Expansion.padBlock (fun i => PRNG.new.setSeed oneKey.aes (seeds i).1) row j = 0#128 := by
    intro row listed
    have past : ∀ seed, ecbEncCounterMode (PRNG.new.setSeed oneKey.aes seed).mAes
        (PRNG.new.setSeed oneKey.aes seed).mBlockIdx 0 = 0#128 := fun _ => show seedBlocks 256 = 0#128 by decide
    have first : row / 128 = 0 := by
      rcases List.mem_pair.mp listed with rfl | rfl <;> rfl
    apply BitVec.eq_of_getLsbD_eq
    intro k bound
    unfold Expansion.padBlock
    rw [BitVec.getLsbD_ofFnLE, dif_pos bound, first, past]
    exact (BitVec.getLsbD_zero ..).trans (BitVec.getLsbD_zero ..).symm
  unfold padRow
  rw [rows, List.map_cons, List.map_singleton, pad 0 (by decide), pad 2 (by decide)]
  rfl

section Run
variable {seeds : Nat → Block × Block} {choiceData : Bytes} {r : Receiver 132} {s : Sender} {count : Nat}

theorem hiddenDifference (chosen : ∀ j < 5, blocksOf choiceData j = seedBlocks j) {j : Nat} (column : j < 5) :
    itemDifference oneKey choiceData zeroSigma 0 (Sender.val oneKey hiddenItem.vals 0) j =
      (oneKey.width.code mxTables).codeword (bytesFromGF2X hiddenWord) j &&& seedBlocks j := by
  unfold itemDifference
  rw [chosen j column]
  refine congrArg (· &&& seedBlocks j) (congrFun (LinearCode.codewordCongr _ fun b inside => ?_) j)
  have below : b < 17 := Nat.lt_of_lt_of_eq inside (by decide)
  rw [zeroSigmaDecoded below, BitVec.xor_zero]
  unfold Sender.val hiddenItem
  rw [Nat.zero_mul, Nat.zero_add]

theorem hiddenBlocks (done : Iterated seeds choiceData zeroSigma zeroItem hiddenItem id r s count)
    (chosen : ∀ j < 5, blocksOf choiceData j = seedBlocks j) :
    (∀ j < 5, Receiver.row oneKey r.recv (r.keys.getD 0 0) j = 0#128) ∧
    ∀ j < 5, Sender.row oneKey s.sender s.baseChoice (s.keys.getD 0 0) (Sender.val oneKey s.vals 0) j =
      (oneKey.width.code mxTables).codeword (bytesFromGF2X hiddenWord) j &&& seedBlocks j := by
  constructor
  · intro j column
    rw [done.rows _ j column, done.ready.keys]
    exact zeroPads seeds j
  · intro j column
    rw [done.senderRows _ _ j column, done.ready.senderKeys, done.ready.senderVals]
    exact (congrArg (· ^^^ _) (zeroPads seeds j)).trans (BitVec.zero_xor.trans (hiddenDifference chosen column))

theorem hiddenApart (done : Iterated seeds choiceData zeroSigma zeroItem hiddenItem id r s count)
    (chosen : ∀ j < 5, blocksOf choiceData j = seedBlocks j) : WordsApart oneKey id r s := by
  obtain ⟨receivers, senders⟩ := hiddenBlocks done chosen
  have block : ∀ a, RowBlock oneKey r s a → ∃ j < 5,
      a = (oneKey.width.code mxTables).codeword (bytesFromGF2X hiddenWord) j &&& seedBlocks j := by
    rintro a (⟨k, below, j, column, rfl⟩ | ⟨i, below, j, column, rfl⟩)
    · cases Nat.lt_one_iff.mp below
      exact ⟨0, by decide, (receivers j column).trans ((hiddenCodeword (by decide)).2 rfl).symm⟩
    · cases Nat.lt_one_iff.mp below
      exact ⟨j, column, senders j column⟩
  have distinct : ∀ j < 5, ∀ j' < 5, hiddenWords.getD j 0 = hiddenWords.getD j' 0 → j = j' := by decide
  rintro a b first second same
  obtain ⟨j, column, rfl⟩ := block a first
  obtain ⟨j', column', rfl⟩ := block b second
  rw [distinct j column j' column' ((hiddenCodeword column).1.symm.trans (same.trans (hiddenCodeword column').1))]

end Run

/-- The sender's word for a key whose value the receiver's dictionary does not have is
found by the receiver: the rows of the key differ in later blocks only. -/
theorem hiddenDifferenceMatches : ∃ r s, runOnlineWith oneKey (simulateBaseOts oneKey.aes) (fun _ _ => 0#132)
      (Receiver.construct zeroItem id fun _ _ => 0#8) (Sender.construct hiddenItem id) = .ok (r, s, 1) ∧
    WordsApart oneKey id r s ∧ s.xors.get 0 ∈ r.xorsSet ∧ ¬ ∃ k < oneKey.dic.hashSize, SameRow oneKey r s 0 k := by
  obtain ⟨seeds, choiceData, given, choice⟩ := simulated oneKey
  have chosen : ∀ j < 5, blocksOf choiceData j = seedBlocks j := by
    intro j column
    refine (choice j column).trans (congrArg seedBlocks ?_)
    rw [BitVec.toNat_ofNat]
    exact Nat.mod_eq_of_lt (by omega)
  have fresh : Ready seeds zeroItem hiddenItem id (Receiver.construct zeroItem id fun _ _ => 0#8)
      (Sender.construct hiddenItem id) := Ready.construct fun _ _ => 0#8
  obtain ⟨r, s, count, ran, done, -⟩ := iterate given fresh fun _ _ => 0#132
  obtain ⟨receivers, senders⟩ := hiddenBlocks done chosen
  have zero : itemDifference oneKey choiceData zeroSigma 0 (Sender.val oneKey hiddenItem.vals 0) 0 = 0#128 :=
    (hiddenDifference chosen (by decide)).trans ((hiddenCodeword (by decide)).2 rfl)
  have found : s.xors.get 0 ∈ r.xorsSet := by
    refine (done.set _).mpr ⟨0, by decide, (done.sent 0 (by decide)).trans (congrArg (wordOf id) ?_)⟩
    exact (congrArg (padRow oneKey seeds 0 0 ^^^ ·) zero).trans BitVec.xor_zero
  have one : count = 1 := by
    rw [done.count]
    exact List.countP_eq_length.mpr fun i listed => decide_eq_true (by
      rw [Nat.lt_one_iff.mp (List.mem_range.mp listed)]
      exact found)
  rw [one] at ran
  refine ⟨r, s, ran, hiddenApart done chosen, found, ?_⟩
  rintro ⟨k, below, row⟩
  cases Nat.lt_one_iff.mp below
  have second := row 1 (by decide)
  rw [senders 1 (by decide), receivers 1 (by decide)] at second
  have word := (hiddenCodeword (j := 1) (by decide)).1
  rw [second] at word
  exact absurd word (by decide)

end Hidden
end PaxosPsi
