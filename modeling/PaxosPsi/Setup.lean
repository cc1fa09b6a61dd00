import PaxosPsi.Corrections

/-! Both instances configured, given their base OTs and initialised, from any state an
earlier use left: the pads, shapes and indices every later step starts from. -/
namespace PaxosPsi
open CountedLoop XorAlgebra Memory

structure Setup (inputBitCount : Nat) where
  width : Supported inputBitCount
  mx : Nat → Blocks
  aes : Aes
  malicious : Bool
  statSecParam : Nat
  seeds : Nat → Block × Block
  choiceData : Bytes

namespace Setup
variable {inputBitCount : Nat} (u : Setup inputBitCount)

def base : BaseOts := ⟨u.width.stride * 128, u.seeds, u.choiceData⟩

def code : LinearCode := u.width.code u.mx

def choiceBlk : Blocks := blocksOf u.choiceData

def rows (numOtExt : Nat) : Nat := roundUpTo (numOtExt + u.statSecParam) 128

def configuredReceiver (r : PrtyMOtReceiver) : PrtyMOtReceiver :=
  r.configure u.mx u.malicious u.statSecParam inputBitCount

def configuredSender (s : PrtyMOtSender) : PrtyMOtSender :=
  s.configure u.mx u.malicious u.statSecParam inputBitCount

def receiver (numOtExt : Nat) (r : PrtyMOtReceiver) : Except Error PrtyMOtReceiver := do
  let r ← (u.configuredReceiver r).setBaseOts u.aes u.base.baseSend
  r.init numOtExt

def sender (numOtExt : Nat) (s : PrtyMOtSender) : Except Error PrtyMOtSender := do
  let s ← (u.configuredSender s).setBaseOts u.aes u.base.baseRecv u.base.baseChoice
  s.init numOtExt

def startedReceiver (numOtExt : Nat) (r : PrtyMOtReceiver) : PrtyMOtReceiver :=
  ((u.configuredReceiver r).seedGens u.aes u.base.baseSend).expandPads numOtExt

def startedSender (numOtExt : Nat) (s : PrtyMOtSender) : PrtyMOtSender :=
  ((u.configuredSender s).seedGens u.aes u.base.baseRecv u.base.baseChoice).expandPads numOtExt

theorem configuredSenderSize (s : PrtyMOtSender) : (u.configuredSender s).mGens.size = u.width.stride * 128 := by
  simp only [configuredSender, PrtyMOtSender.configure, Vec.resize, u.width.loaded u.mx]
  exact (u.width.shape u.mx).generators

theorem receiverRuns (numOtExt : Nat) (r : PrtyMOtReceiver) :
    u.receiver numOtExt r = .ok (u.startedReceiver numOtExt r) := by
  have size := configuredReceiverSize u.width u.mx r u.malicious u.statSecParam
  have bytes : ((u.configuredReceiver r).seedGens u.aes u.base.baseSend).mInputByteCount ≠ 0 := u.width.bytes
  unfold receiver
  rw [PrtyMOtReceiver.setBaseOtsOk u.aes size.symm]
  exact PrtyMOtReceiver.initOk rfl bytes numOtExt

theorem senderRuns (numOtExt : Nat) (s : PrtyMOtSender) :
    u.sender numOtExt s = .ok (u.startedSender numOtExt s) := by
  have bytes : ((u.configuredSender s).seedGens u.aes u.base.baseRecv u.base.baseChoice).mInputByteCount ≠ 0 :=
    u.width.bytes
  unfold sender
  rw [PrtyMOtSender.setBaseOtsOk u.aes _ _ rfl (Nat.mul_mod_left _ _)]
  exact PrtyMOtSender.initOk bytes numOtExt

structure Started (numOtExt : Nat) (r : PrtyMOtReceiver) (s : PrtyMOtSender) : Prop where
  shaped : Shaped r u.width.stride
  receiverCode : r.mCode = u.code
  senderCode : s.mCode = u.code
  senderBytes : s.mInputByteCount = (inputBitCount + 7) / 8
  receiverMalicious : r.mMalicious = u.malicious
  senderMalicious : s.mMalicious = u.malicious
  receiverParam : r.mStatSecParam = u.statSecParam
  senderParam : s.mStatSecParam = u.statSecParam
  receiverGens : r.mGens.size = u.width.stride * 128
  senderGens : s.mGens.size = u.width.stride * 128
  receiverIdx : r.mCorrectionIdx = 0
  senderIdx : s.mCorrectionIdx = 0
  wStride : r.mW.mStride = u.code.plaintextBlkSize
  tStride : s.mT.mStride = u.width.stride
  valsStride : s.mCorrectionVals.mStride = u.width.stride
  choiceBlks : s.mChoiceBlks = ⟨u.width.stride, u.choiceBlk⟩
  t0Pads : ∀ row < u.rows numOtExt, ∀ j < u.width.stride,
    r.t0 row j = Expansion.padBlock (fun i => PRNG.new.setSeed u.aes (u.seeds i).1) row j
  relation : ∀ row < u.rows numOtExt, ∀ j < u.width.stride,
    s.t row j = r.t0 row j ^^^ ((r.t0 row j ^^^ r.t1 row j) &&& u.choiceBlk j)

theorem stridePositive : 0 < u.width.stride := by
  have narrow := (u.width.shape u.mx).narrow
  omega

theorem padBlockCongr {gens gens' : Nat → PRNG} {j : Nat}
    (same : ∀ c, j * 128 ≤ c → c < j * 128 + 128 → gens c = gens' c) (row : Nat) :
    Expansion.padBlock gens row j = Expansion.padBlock gens' row j := by
  unfold Expansion.padBlock
  congr 1
  funext k
  rw [same (j * 128 + k) (by omega) (by omega)]

theorem started (numOtExt : Nat) (r : PrtyMOtReceiver) (s : PrtyMOtSender) :
    u.Started numOtExt (u.startedReceiver numOtExt r) (u.startedSender numOtExt s) := by
  have shape := u.width.shape u.mx
  have size := configuredReceiverSize u.width u.mx r u.malicious u.statSecParam
  have stride : u.base.count / 128 = u.width.stride := Nat.mul_div_cancel _ (by omega)
  have agree : Agree u.base ((u.configuredReceiver r).seedGens u.aes u.base.baseSend)
      ((u.configuredSender s).seedGens u.aes u.base.baseRecv u.base.baseChoice) :=
    seedGensAgree u.aes u.width.bytes u.width.bytes rfl size (Nat.mul_mod_left _ _)
  obtain ⟨agree', done⟩ := expandPadsAgree agree u.width.wide numOtExt
  obtain ⟨-, -, -, -, -, pads⟩ := receiverPads numOtExt ((u.configuredReceiver r).seedGens u.aes u.base.baseSend)
  have rows : ((u.configuredReceiver r).seedGens u.aes u.base.baseSend).rowCount numOtExt = u.rows numOtExt := rfl
  have code : ((u.configuredReceiver r).seedGens u.aes u.base.baseSend).mCode = u.code := u.width.loaded u.mx _
  have columns : ((u.configuredReceiver r).seedGens u.aes u.base.baseSend).mGens.size = u.width.stride * 128 := size
  have relation := done.relation
  have choices := agree'.choiceBlks
  have words := done.wStride
  rw [rows, stride] at relation
  rw [rows, columns, Nat.mul_div_cancel _ (by omega)] at pads
  rw [stride] at choices
  have wStride : (u.startedReceiver numOtExt r).mW.mStride = u.code.plaintextBlkSize :=
    words.trans (congrArg LinearCode.plaintextBlkSize code)
  refine ⟨⟨u.stridePositive, done.t0Stride.trans stride, done.t1Stride.trans stride, ?_, ?_⟩, code,
    u.width.loaded u.mx _, u.width.inputBytes, rfl, rfl, rfl, rfl, agree'.receiverSize, agree'.senderSize, done.receiverIdx,
    done.senderIdx, wStride, done.tStride.trans stride, done.valsStride.trans stride, choices,
    fun row below j inside => ?_, fun row below j inside => ?_⟩
  · change (inputBitCount + 7) % 2 ^ 64 / 8 =
      ((u.configuredReceiver r).seedGens u.aes u.base.baseSend).mCode.plaintextU8Size
    rw [code, u.width.inputBytes]
    exact shape.plaintextU8Size.symm
  · change (inputBitCount + 7) % 2 ^ 64 / 8 ≤ 16 * (u.startedReceiver numOtExt r).mW.mStride
    rw [wStride, u.width.inputBytes]
    exact shape.plaintextBytes
  · refine (pads row below j inside).1.trans (padBlockCongr (fun c low high => ?_) row)
    have within : (j + 1) * 128 ≤ u.width.stride * 128 := Nat.mul_le_mul_right 128 inside
    have below : c < u.width.stride * 128 := Nat.lt_of_lt_of_le high (by omega)
    have gens : ((u.configuredReceiver r).seedGens u.aes u.base.baseSend).mGens.get c =
        (PRNG.new.setSeed u.aes (u.seeds c).1, PRNG.new.setSeed u.aes (u.seeds c).2) :=
      seededGens u.aes size below
    rw [gens]
  · have mask : (u.startedSender numOtExt s).mChoiceBlks.get j = u.choiceBlk j := by
      unfold startedSender
      rw [choices]
      simp only [BaseOts.choiceBlk, choiceBlk, base]
    exact (relation row below j inside).trans (congrArg _ (congrArg _ mask))

end Setup
end PaxosPsi
