import PaxosPsi.ProtocolParty
import PaxosPsi.Setup

/-! One OT phase of both parties, from any state an earlier iteration left: what
`runOOS` has prepared before the corrections, and the rows after them. -/
namespace PaxosPsi
open CountedLoop XorAlgebra Memory

namespace ProtocolParty
variable {fieldSize : Nat} (p : ProtocolParty fieldSize)

def baseOts (seeds : Nat → Block × Block) (choiceData : Bytes) : BaseOts :=
  ⟨p.width.stride * 128, seeds, choiceData⟩

def rows : Nat := roundUpTo (p.numOTs + statSecParam) 128

theorem stridePositive : 0 < p.width.stride := by
  have narrow := (p.width.shape p.mx).narrow
  omega

theorem fieldSizeBytesRounded : p.dic.fieldSizeBytes = (fieldSize + 7) / 8 := by
  rw [p.fieldBytes]
  split <;> omega

theorem rowsSmall : p.numOTs * p.width.stride < 2 ^ 31 := by
  have item := (p.width.shape p.mx).itemBytes
  have last := p.lastOffset
  rw [← p.fieldSizeBytesRounded] at item
  have count : p.numOTs = 2 * p.dic.tableRealSize + 60 := by
    unfold numOTs
    rw [p.gammaValue, Nat.mul_comm]
  have scaled := Nat.mul_le_mul_left p.numOTs item
  rw [Nat.mul_left_comm, Nat.mul_left_comm _ 4] at scaled
  have next : p.numOTs * p.dic.fieldSizeBytes =
      (2 * p.dic.tableRealSize + 59) * p.dic.fieldSizeBytes + p.dic.fieldSizeBytes := by
    rw [count]
    exact Nat.succ_mul _ _
  have thin : p.dic.fieldSizeBytes ≤ (2 * p.dic.tableRealSize + 59) * p.dic.fieldSizeBytes :=
    Nat.le_mul_of_pos_left _ (by omega)
  omega

theorem numOTsSmall : p.numOTs < 2 ^ 31 :=
  Nat.lt_of_le_of_lt (Nat.le_mul_of_pos_right _ p.stridePositive) p.rowsSmall

theorem numOTsRows : p.numOTs ≤ p.rows := by
  have small := p.numOTsSmall
  unfold rows statSecParam
  rw [roundUpToExact (by omega)]
  omega

theorem stepSizePositive : 0 < stepSize := by decide

theorem stepBounds {t : Nat} (inside : t < p.steps) :
    t * stepSize < p.numOTs ∧ t * stepSize + p.curStepSize t = min ((t + 1) * stepSize) p.numOTs := by
  unfold steps at inside
  unfold curStepSize
  have positive := stepSizePositive
  have below := (Nat.lt_div_iff_mul_lt positive).mp inside
  have next : (t + 1) * stepSize = t * stepSize + stepSize := Nat.succ_mul _ _
  omega

theorem stepsCover : min (p.steps * stepSize) p.numOTs = p.numOTs := by
  have positive := stepSizePositive
  have last := Nat.div_add_mod (p.numOTs + stepSize - 1) stepSize
  have rest := Nat.mod_lt (p.numOTs + stepSize - 1) positive
  unfold steps
  rw [Nat.mul_comm]
  omega

theorem receiverBaseCount {r : PrtyMOtReceiver} (size : r.mGens.size = p.width.stride * 128) :
    r.getBaseOTCount = .ok (p.width.stride * 128) := by
  unfold PrtyMOtReceiver.getBaseOTCount
  rw [size, if_pos p.width.wide]

theorem senderBaseCount {s : PrtyMOtSender} (size : s.mGens.size = p.width.stride * 128) :
    s.getBaseOTCount = .ok (p.width.stride * 128) := by
  unfold PrtyMOtSender.getBaseOTCount
  rw [size, if_pos p.width.wide]

end ProtocolParty

section Prepare
variable {fieldSize : Nat} {p : ProtocolParty fieldSize} {simulate : Nat → Except Error BaseOts}
  {seeds : Nat → Block × Block} {choiceData : Bytes}

def Receiver.seeded (p : ProtocolParty fieldSize) (base : BaseOts) (recv : PrtyMOtReceiver) : PrtyMOtReceiver :=
  (recv.configure p.mx p.isMalicious ProtocolParty.statSecParam fieldSize).seedGens p.aes base.baseSend

def Sender.seeded (p : ProtocolParty fieldSize) (base : BaseOts) (sender : PrtyMOtSender) : PrtyMOtSender :=
  (sender.configure p.mx p.isMalicious ProtocolParty.statSecParam fieldSize).seedGens p.aes base.baseRecv
    base.baseChoice

theorem configuredSenderSize (p : ProtocolParty fieldSize) (sender : PrtyMOtSender) :
    (sender.configure p.mx p.isMalicious ProtocolParty.statSecParam fieldSize).mGens.size = p.width.stride * 128 := by
  simp only [PrtyMOtSender.configure, Vec.resize, p.width.loaded p.mx]
  exact (p.width.shape p.mx).generators

theorem Receiver.prepareRuns (given : simulate (p.width.stride * 128) = .ok (p.baseOts seeds choiceData))
    (recv : PrtyMOtReceiver) : Receiver.prepare p simulate recv =
      .ok ((Receiver.seeded p (p.baseOts seeds choiceData) recv).expandPads p.numOTs) := by
  have size := configuredReceiverSize p.width p.mx recv p.isMalicious ProtocolParty.statSecParam
  unfold Receiver.prepare
  dsimp only
  rw [p.receiverBaseCount size]
  simp only [bind, Except.bind, given]
  rw [PrtyMOtReceiver.setBaseOtsOk p.aes size.symm]
  exact PrtyMOtReceiver.initOk rfl p.width.bytes p.numOTs

theorem Sender.prepareRuns (given : simulate (p.width.stride * 128) = .ok (p.baseOts seeds choiceData))
    (sender : PrtyMOtSender) : Sender.prepare p simulate sender = .ok ((p.baseOts seeds choiceData).baseChoice,
      (Sender.seeded p (p.baseOts seeds choiceData) sender).expandPads p.numOTs) := by
  unfold Sender.prepare
  dsimp only
  rw [p.senderBaseCount (configuredSenderSize p sender)]
  simp only [bind, Except.bind, given]
  rw [PrtyMOtSender.setBaseOtsOk p.aes _ _ rfl (Nat.mul_mod_left _ _)]
  dsimp only
  rw [PrtyMOtSender.initOk p.width.bytes]
  rfl

structure Prepared (p : ProtocolParty fieldSize) (seeds : Nat → Block × Block) (choiceData : Bytes)
    (r : PrtyMOtReceiver) (s : PrtyMOtSender) : Prop where
  shaped : Shaped r p.width.stride
  code : r.mCode = p.width.code p.mx
  receiverGens : r.mGens.size = p.width.stride * 128
  senderGens : s.mGens.size = p.width.stride * 128
  receiverIdx : r.mCorrectionIdx = 0
  senderIdx : s.mCorrectionIdx = 0
  tStride : s.mT.mStride = p.width.stride
  valsStride : s.mCorrectionVals.mStride = p.width.stride
  choiceBlks : s.mChoiceBlks = ⟨p.width.stride, blocksOf choiceData⟩
  t0Pads : ∀ row < p.rows, ∀ j < p.width.stride,
    r.t0 row j = Expansion.padBlock (fun i => PRNG.new.setSeed p.aes (seeds i).1) row j
  relation : ∀ row < p.rows, ∀ j < p.width.stride,
    s.t row j = r.t0 row j ^^^ ((r.t0 row j ^^^ r.t1 row j) &&& blocksOf choiceData j)

def ProtocolParty.setup (p : ProtocolParty fieldSize) (seeds : Nat → Block × Block) (choiceData : Bytes) :
    Setup fieldSize :=
  ⟨p.width, p.mx, p.aes, p.isMalicious, ProtocolParty.statSecParam, seeds, choiceData⟩

theorem prepared (p : ProtocolParty fieldSize) (seeds : Nat → Block × Block) (choiceData : Bytes)
    (recv : PrtyMOtReceiver) (sender : PrtyMOtSender) :
    Prepared p seeds choiceData ((Receiver.seeded p (p.baseOts seeds choiceData) recv).expandPads p.numOTs)
      ((Sender.seeded p (p.baseOts seeds choiceData) sender).expandPads p.numOTs) := by
  have started := (p.setup seeds choiceData).started p.numOTs recv sender
  exact { started with code := started.receiverCode }

end Prepare

section Exchange
variable {fieldSize : Nat} {p : ProtocolParty fieldSize} {seeds : Nat → Block × Block} {choiceData : Bytes}
  {r0 : PrtyMOtReceiver} {s0 : PrtyMOtSender}

theorem correctedRow (prep : Prepared p seeds choiceData r0 s0) (words : Nat → Bytes) (row : Nat) {j : Nat}
    (column : j < p.width.stride) : corrected r0 words (row * p.width.stride + j) =
      (p.width.code p.mx).codeword (words row) j ^^^ r0.t0 row j ^^^ r0.t1 row j := by
  obtain ⟨rowOf, colOf⟩ := rowOfOffset (show row * p.width.stride ≤ row * p.width.stride + j ∧
    row * p.width.stride + j < row * p.width.stride + p.width.stride by omega)
  unfold corrected PrtyMOtReceiver.t0 PrtyMOtReceiver.t1
  rw [prep.shaped.t0Stride, rowOf, colOf, Nat.add_sub_cancel_left, prep.code]

def stepMessages (p : ProtocolParty fieldSize) (rows : Blocks) (t : Nat) : List (List Block) :=
  (List.range t).map fun t => rowsMessage p.width.stride rows (t * stepSize) (p.curStepSize t)

theorem sentMessages (prep : Prepared p seeds choiceData r0 s0) (sigma : Bytes) {t : Nat} (bound : t ≤ p.steps) :
    let sent := forLoop t (Receiver.sendStep p sigma) (r0, [])
    EncodedBelow r0 (Receiver.word p sigma) (min (t * stepSize) p.numOTs) sent.1 ∧
      sent.1.mCorrectionIdx = min (t * stepSize) p.numOTs ∧
      sent.2 = stepMessages p (corrected r0 (Receiver.word p sigma)) t := by
  induction t with
  | zero =>
    have start := EncodedBelow.start r0 (Receiver.word p sigma)
    rw [Nat.zero_mul, Nat.zero_min]
    exact ⟨start, prep.receiverIdx, rfl⟩
  | succ t ih =>
    intro sent
    obtain ⟨below, idx, messages⟩ := ih (by omega)
    obtain ⟨start, stop⟩ := p.stepBounds (show t < p.steps by omega)
    rw [Nat.min_eq_left (Nat.le_of_lt start)] at below idx
    obtain ⟨encoded, idx', -, message⟩ := sentChunk prep.shaped below idx (p.curStepSize t)
    rw [stop] at encoded idx'
    refine ⟨encoded, idx', ?_⟩
    have last : sent.2 = (forLoop t (Receiver.sendStep p sigma) (r0, [])).2 ++
        [rowsMessage p.width.stride (corrected r0 (Receiver.word p sigma)) (t * stepSize) (p.curStepSize t)] :=
      congrArg (fun m => (forLoop t (Receiver.sendStep p sigma) (r0, [])).2 ++ [m]) message
    rw [last, messages, stepMessages, stepMessages, List.range_succ, List.map_append, List.map_singleton]

def CorrectedBelow (s0 : PrtyMOtSender) (rows : Blocks) (n : Nat) (s : PrtyMOtSender) : Prop :=
  ∀ a, s.mT.mView a = if a < n * s0.mT.mStride then
    s0.mT.mView a ^^^ (rows a &&& s0.mChoiceBlks.get (a % s0.mT.mStride)) else s0.mT.mView a

theorem correctedStep {rows : Blocks} {n m : Nat} {s : PrtyMOtSender}
    (strides : s0.mCorrectionVals.mStride = s0.mT.mStride) (received : ReceivedBelow s0 rows m s)
    (below : CorrectedBelow s0 rows n s) (inside : n < m) :
    ReceivedBelow s0 rows m (s.otCorrection n) ∧ CorrectedBelow s0 rows (n + 1) (s.otCorrection n) := by
  refine ⟨{ received with }, ?_⟩
  intro a
  have next : (n + 1) * s0.mT.mStride = n * s0.mT.mStride + s0.mT.mStride := Nat.succ_mul _ _
  rw [PrtyMOtSender.otCorrectionSpec, received.tStride, below a]
  by_cases here : n * s0.mT.mStride ≤ a ∧ a < n * s0.mT.mStride + s0.mT.mStride
  · obtain ⟨-, col⟩ := rowOfOffset here
    have back : n * s0.mT.mStride + (a - n * s0.mT.mStride) = a := by omega
    have edge : (n + 1) * s0.mT.mStride ≤ m * s0.mT.mStride := Nat.mul_le_mul_right _ inside
    have stored := received.vals a (by rw [strides]; omega)
    rw [if_pos here, if_neg (by omega), if_pos (by omega), PrtyMOtSender.maskedCorrection, received.valsStride, strides,
      back, stored, received.choiceBlks, col]
  · rw [if_neg here]
    congr 1
    exact propext (by omega)

theorem correctedRows {rows : Blocks} {n m : Nat} {s : PrtyMOtSender}
    (strides : s0.mCorrectionVals.mStride = s0.mT.mStride) (received : ReceivedBelow s0 rows m s)
    (below : CorrectedBelow s0 rows n s) {count : Nat} (inside : n + count ≤ m) :
    ReceivedBelow s0 rows m (Sender.correctRows n count s) ∧
      CorrectedBelow s0 rows (n + count) (Sender.correctRows n count s) := by
  induction count with
  | zero => exact ⟨received, below⟩
  | succ count ih =>
    obtain ⟨kept, done⟩ := ih (by omega)
    exact correctedStep strides kept done (by omega)

theorem receivedMessages (prep : Prepared p seeds choiceData r0 s0) (rows : Blocks) :
    ∃ s, forLoopM p.steps (Sender.recvStep p (stepMessages p rows p.steps)) s0 = .ok s ∧
      ReceivedBelow s0 rows p.numOTs s ∧ CorrectedBelow s0 rows p.numOTs s := by
  have strides : s0.mCorrectionVals.mStride = s0.mT.mStride := prep.valsStride.trans prep.tStride.symm
  obtain ⟨s, ran, received, below⟩ := forLoopMInvariant (n := p.steps)
    (f := Sender.recvStep p (stepMessages p rows p.steps)) (s := s0)
    (fun t s => ReceivedBelow s0 rows (min (t * stepSize) p.numOTs) s ∧
      CorrectedBelow s0 rows (min (t * stepSize) p.numOTs) s)
    (by
      rw [Nat.zero_mul, Nat.zero_min]
      exact ⟨ReceivedBelow.start prep.senderIdx rows, fun a => by rw [if_neg (by omega)]⟩)
    (by
      intro t s inside kept
      obtain ⟨start, stop⟩ := p.stepBounds inside
      rw [Nat.min_eq_left (Nat.le_of_lt start)] at kept
      have small : t * stepSize * p.width.stride < 2 ^ 31 :=
        Nat.lt_of_le_of_lt (Nat.mul_le_mul_right _ (Nat.le_of_lt start)) p.rowsSmall
      obtain ⟨s1, took, sameT, received⟩ := receivedChunk prep.valsStride kept.1 (p.curStepSize t) small
      have below : CorrectedBelow s0 rows (t * stepSize) s1 := fun a => by rw [sameT]; exact kept.2 a
      have done := correctedRows strides received below (Nat.le_refl _)
      rw [stop] at done
      refine ⟨_, ?_, done⟩
      have found : (stepMessages p rows p.steps)[t]? =
          some (rowsMessage p.width.stride rows (t * stepSize) (p.curStepSize t)) := by
        simp [stepMessages, inside]
      unfold Sender.recvStep
      rw [found]
      simp only [bind, Except.bind, took, pure, Except.pure])
  rw [p.stepsCover] at received below
  exact ⟨s, ran, received, below⟩

structure Exchanged (p : ProtocolParty fieldSize) (seeds : Nat → Block × Block) (choiceData sigma : Bytes)
    (r : PrtyMOtReceiver) (s : PrtyMOtSender) : Prop where
  receiverCount : r.getBaseOTCount = .ok (p.width.stride * 128)
  senderCount : s.getBaseOTCount = .ok (p.width.stride * 128)
  t0Pads : ∀ row < p.numOTs, ∀ j < p.width.stride,
    r.mT0.read row j = Expansion.padBlock (fun i => PRNG.new.setSeed p.aes (seeds i).1) row j
  related : ∀ row < p.numOTs, ∀ j < p.width.stride, s.mT.read row j =
    r.mT0.read row j ^^^ ((p.width.code p.mx).codeword (Receiver.word p sigma row) j &&& blocksOf choiceData j)

theorem sentReceived (prep : Prepared p seeds choiceData r0 s0) (sigma : Bytes) {s : PrtyMOtSender}
    (received : ReceivedBelow s0 (corrected r0 (Receiver.word p sigma)) p.numOTs s)
    (below : CorrectedBelow s0 (corrected r0 (Receiver.word p sigma)) p.numOTs s) :
    Exchanged p seeds choiceData sigma (Receiver.sendAll p sigma r0).1 s := by
  obtain ⟨encoded, -, -⟩ := sentMessages prep sigma (Nat.le_refl p.steps)
  rw [p.stepsCover] at encoded
  change EncodedBelow r0 _ _ (Receiver.sendAll p sigma r0).1 at encoded
  have covered := p.numOTsRows
  have receiverSize : (Receiver.sendAll p sigma r0).1.mGens.size = p.width.stride * 128 := by
    rw [encoded.gens]
    exact prep.receiverGens
  have senderSize : s.mGens.size = p.width.stride * 128 := by
    rw [received.gens]
    exact prep.senderGens
  refine ⟨p.receiverBaseCount receiverSize, p.senderBaseCount senderSize, fun row inside j column => ?_,
    fun row inside j column => ?_⟩
  · rw [encoded.t0]
    exact prep.t0Pads row (by omega) j column
  · have strideT : s.mT.mStride = p.width.stride := received.tStride.trans prep.tStride
    have offset : row * p.width.stride + j < p.numOTs * p.width.stride := by
      have edge := Nat.mul_le_mul_right p.width.stride (show row + 1 ≤ p.numOTs from inside)
      rw [Nat.succ_mul] at edge
      omega
    obtain ⟨rowOf, colOf⟩ := rowOfOffset (show row * p.width.stride ≤ row * p.width.stride + j ∧
      row * p.width.stride + j < row * p.width.stride + p.width.stride by omega)
    have value := below (row * p.width.stride + j)
    have related := prep.relation row (by omega) j column
    have mask : s0.mChoiceBlks.get j = blocksOf choiceData j := by rw [prep.choiceBlks]
    unfold PrtyMOtSender.t PrtyMOtReceiver.t0 PrtyMOtReceiver.t1 at related
    rw [prep.tStride, prep.shaped.t0Stride] at related
    rw [prep.tStride, if_pos offset, corrected, prep.shaped.t0Stride, rowOf, colOf, Nat.add_sub_cancel_left, mask,
      prep.code, related, maskedExchange] at value
    unfold Matrix.read
    rw [strideT, encoded.t0, prep.shaped.t0Stride]
    exact value

/-- One OT phase of both parties, from any instances an earlier iteration left. -/
theorem otPhase (p : ProtocolParty fieldSize) {simulate : Nat → Except Error BaseOts}
    (given : simulate (p.width.stride * 128) = .ok (p.baseOts seeds choiceData)) (sigma : Bytes)
    (recv : PrtyMOtReceiver) (sender : PrtyMOtSender) :
    ∃ r messages s, Receiver.runOOSWith p simulate sigma recv = .ok (r, messages) ∧
      Sender.runOOSWith p simulate messages sender = .ok ((p.baseOts seeds choiceData).baseChoice, s) ∧
      Exchanged p seeds choiceData sigma r s := by
  have prep := prepared p seeds choiceData recv sender
  obtain ⟨-, -, messages⟩ := sentMessages prep sigma (Nat.le_refl p.steps)
  obtain ⟨s, took, received, below⟩ := receivedMessages prep
    (corrected ((Receiver.seeded p (p.baseOts seeds choiceData) recv).expandPads p.numOTs) (Receiver.word p sigma))
  refine ⟨_, (Receiver.sendAll p sigma
    ((Receiver.seeded p (p.baseOts seeds choiceData) recv).expandPads p.numOTs)).2, s, ?_, ?_,
    sentReceived prep sigma received below⟩
  · unfold Receiver.runOOSWith
    rw [Receiver.prepareRuns given]
    rfl
  · unfold Sender.runOOSWith
    rw [Sender.prepareRuns given]
    simp only [bind, Except.bind]
    unfold Receiver.sendAll
    rw [messages, took]
    rfl

end Exchange

section Rows
variable {fieldSize : Nat} (p : ProtocolParty fieldSize)

theorem rowSumSpec (m : Matrix) (key : Key) (j : Nat) :
    p.rowSum m (p.dic.dec key) j = xorSum ((p.dic.rowsOf key).map fun row => m.read row j) := by
  have folded : ∀ (l : List Nat) (first : Blocks),
      l.foldl (fun output k j => output j ^^^ m.read (2 * p.dic.tableRealSize + k) j) first j =
        l.foldl (fun output k => output ^^^ m.read (2 * p.dic.tableRealSize + k) j) (first j) := by
    intro l
    induction l with
    | nil => exact fun _ => rfl
    | cons k l ih => exact fun first => ih _
  unfold ProtocolParty.rowSum Hashing.rowsOf
  rw [Hashing.decSpec, folded, foldlXor]
  simp only [List.getD_cons_zero, List.getD_cons_succ, List.drop_succ_cons, List.drop_zero, List.map_cons,
    List.map_map, xorSumCons, BitVec.xor_assoc]
  rfl

def decoded (sigma : Bytes) (key : Key) : Bytes := fun b =>
  xorSum ((p.dic.rowsOf key).map fun row => Receiver.word p sigma row b)

theorem maskedCodewordSpec (baseChoice : BitVector) (val : Bytes) (j : Nat) :
    Sender.maskedCodeword p (p.width.code p.mx) baseChoice val j =
      (p.width.code p.mx).codeword val j &&& blocksOf baseChoice.data j := by
  have shape := p.width.shape p.mx
  have bytes := p.fieldSizeBytesRounded
  have codewordBytes := shape.codewordBytes
  unfold Sender.maskedCodeword
  rw [LinearCode.encodeInPlace]
  · rw [shape.plaintextU8Size, bytes]
  · omega

/-- Rows of the parties for one key: they differ by the masked codeword of what the
sender's value and the receiver's dictionary disagree by. -/
theorem rowDifference {seeds : Nat → Block × Block} {choiceData sigma : Bytes} {r : PrtyMOtReceiver}
    {s : PrtyMOtSender} (done : Exchanged p seeds choiceData sigma r s) (key : Key) (val : Bytes) {j : Nat}
    (column : j < p.width.stride) :
    Sender.row p s (p.baseOts seeds choiceData).baseChoice key val j = Receiver.row p r key j ^^^
      ((p.width.code p.mx).codeword (fun b => val b ^^^ decoded p sigma key b) j &&& blocksOf choiceData j) := by
  have size : p.dic.size = p.numOTs := by
    unfold Hashing.size ProtocolParty.numOTs
    omega
  have split : xorSum ((p.dic.rowsOf key).map fun row => s.mT.read row j) =
      xorSum ((p.dic.rowsOf key).map fun row => r.mT0.read row j) ^^^
        ((p.width.code p.mx).codeword (decoded p sigma key) j &&& blocksOf choiceData j) := by
    have words := LinearCode.codewordSum (p.width.code p.mx) ((p.dic.rowsOf key).map (Receiver.word p sigma)) j
    simp only [List.map_map, Function.comp_def] at words
    have whole : (p.width.code p.mx).codeword (decoded p sigma key) j = _ := words
    rw [whole, ← xorSumMask, ← xorSumXor]
    apply xorSumCongr
    intro row listed
    exact done.related row (by rw [← size]; exact p.dic.rowsOfBound listed) j column
  unfold Sender.row Receiver.row
  rw [maskedCodewordSpec, rowSumSpec, rowSumSpec, split, LinearCode.codewordXor, andXorDistrib, BitVec.xor_assoc,
    BitVec.xor_comm (LinearCode.codeword _ val _ &&& _)]
  rfl

end Rows
end PaxosPsi
