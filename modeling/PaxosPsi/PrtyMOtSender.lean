import PaxosPsi.Configure
import PaxosPsi.Expansion

/-! `PrtyMOtSender`: the rows `T` of the chosen pads, the buffer the corrections are
received into and the correction of a row by its masked correction value. -/
namespace PaxosPsi
open CountedLoop XorAlgebra Memory

structure BitVector where
  size : Nat
  data : Bytes

def BitVector.bit (b : BitVector) (i : Nat) : Bool := (b.data (i / 8)).getLsbD (i % 8)

/-- The cast `i32(...)` of a `u64`. -/
def i32 (x : Nat) : Int := if x % 2 ^ 32 < 2 ^ 31 then x % 2 ^ 32 else x % 2 ^ 32 - 2 ^ 32

theorem i32Small {x : Nat} (small : x < 2 ^ 31) : i32 x = x := by
  unfold i32
  split <;> omega

theorem i32Large {x : Nat} (large : 2 ^ 31 ≤ x) : i32 x + 2 ^ 32 ≤ x := by
  unfold i32
  split <;> omega

/-- `chl.recv(data + offset, length)` of blocks. A negative offset names memory before the buffer. -/
def recvBlocks (m : Blocks) (offset : Int) (length : Nat) (message : List Block) : Except Error Blocks :=
  if message.length = length then
    .ok fun a =>
      if offset ≤ a ∧ a < offset + length then message.getD ((a : Int) - offset).toNat 0#128 else m a
  else .error (.badReceiveBufferSize (16 * length) (16 * message.length))

structure PrtyMOtSender where
  mCode : LinearCode
  mStatSecParam : Nat
  mMalicious : Bool
  mGens : Vec PRNG
  mBaseChoiceBits : BitVector
  mChoiceBlks : Vec Block
  mT : Matrix
  mCorrectionVals : Matrix
  mQx : Matrix
  mCorrectionIdx : Nat
  mInputByteCount : Nat

namespace PrtyMOtSender

/-- The default constructor; members it leaves uninitialised are zero here. -/
def new : PrtyMOtSender :=
  { mCode := ⟨0, 0, fun _ => 0#128⟩, mStatSecParam := 0, mMalicious := false, mGens := ⟨0, fun _ => PRNG.new⟩
    mBaseChoiceBits := ⟨0, fun _ => 0#8⟩, mChoiceBlks := ⟨0, fun _ => 0#128⟩
    mT := Matrix.new, mCorrectionVals := Matrix.new, mQx := Matrix.new
    mCorrectionIdx := 0, mInputByteCount := 0 }

def configure (mx : Nat → Blocks) (maliciousSecure : Bool) (statSecParam inputBitCount : Nat)
    (s : PrtyMOtSender) : PrtyMOtSender :=
  let mCode := loadCode mx inputBitCount s.mCode
  { s with
    mCode
    mInputByteCount := (inputBitCount + 7) % 2 ^ 64 / 8
    mStatSecParam := statSecParam
    mMalicious := maliciousSecure
    mGens := s.mGens.resize (roundUpTo mCode.mCodewordBitSize 128) PRNG.new }

def getBaseOTCount (s : PrtyMOtSender) : Except Error Nat :=
  if s.mGens.size ≠ 0 then .ok s.mGens.size else .error .getBaseOTCount

def hasBaseOts (s : PrtyMOtSender) : Bool := s.mBaseChoiceBits.size ≠ 0

def seedGens (aes : Aes) (baseRecvOts : Vec Block) (choices : BitVector) (s : PrtyMOtSender) : PrtyMOtSender :=
  let mGens := s.mGens.resize choices.size PRNG.new
  { s with
    mBaseChoiceBits := choices
    mGens := ⟨choices.size, fun i =>
      if i < baseRecvOts.size then (mGens.get i).setSeed aes (baseRecvOts.get i) else mGens.get i⟩
    mChoiceBlks := ⟨choices.size / 128, blocksOf choices.data⟩ }

def setBaseOts (aes : Aes) (baseRecvOts : Vec Block) (choices : BitVector) (s : PrtyMOtSender) :
    Except Error PrtyMOtSender :=
  if choices.size ≠ baseRecvOts.size then .error .sizeMismatch
  else if choices.size % 128 ≠ 0 then .error .onlyMultiplesOf128
  else .ok (s.seedGens aes baseRecvOts choices)

def splitSeeds : Nat → Vec PRNG → Vec Block → Except Error (Vec PRNG × Vec Block)
  | 0, mGens, base => .ok (mGens, base)
  | n + 1, mGens, base => do
    let (mGens, base) ← splitSeeds n mGens base
    let (seed, gen) ← (mGens.get n).getBlock
    pure (⟨mGens.size, Function.update mGens.get n gen⟩, ⟨base.size, Function.update base.get n seed⟩)

def splitRaw (s : PrtyMOtSender) : PrtyMOtSender :=
  { new with
    mCode := s.mCode
    mInputByteCount := s.mInputByteCount
    mStatSecParam := s.mStatSecParam
    mGens := new.mGens.resize s.mGens.size PRNG.new
    mMalicious := s.mMalicious }

def split (aes : Aes) (s : PrtyMOtSender) : Except Error (PrtyMOtSender × PrtyMOtSender) :=
  if s.hasBaseOts then do
    let (mGens, base) ← splitSeeds s.mGens.size s.mGens ⟨s.mGens.size, fun _ => 0#128⟩
    let raw ← s.splitRaw.setBaseOts aes base s.mBaseChoiceBits
    pure ({ s with mGens }, raw)
  else pure (s, s.splitRaw)

def rowCount (s : PrtyMOtSender) (numOTExt : Nat) : Nat :=
  (numOTExt + 127 + s.mStatSecParam) % 2 ^ 64 / 128 * 128

def expandPads (numOTExt : Nat) (s : PrtyMOtSender) : PrtyMOtSender :=
  let numOTExt := s.rowCount numOTExt
  let mT := s.mT.assignEmpty.resize numOTExt (s.mGens.size / 128)
  let expanded := Expansion.expand mT.rows s.mGens.size ⟨s.mGens.get, mT⟩
  { s with
    mCorrectionVals := s.mCorrectionVals.assignEmpty.resize numOTExt (s.mGens.size / 128)
    mT := expanded.mT
    mQx := s.mQx.assignEmpty
    mCorrectionIdx := 0
    mGens := ⟨s.mGens.size, expanded.mGens⟩ }

def init (numOTExt : Nat) (s : PrtyMOtSender) : Except Error PrtyMOtSender :=
  if s.mInputByteCount = 0 then .error .configureFirst else .ok (s.expandPads numOTExt)

def correctFour (tVal : Nat) (masked : Nat → Block) (mT : Blocks) : Blocks :=
  xorAt (xorAt (xorAt (xorAt mT (tVal + 0) (masked 0)) (tVal + 1) (masked 1)) (tVal + 2) (masked 2))
    (tVal + 3) (masked 3)

def correctGeneral (stride tVal : Nat) (masked : Nat → Block) (mT : Blocks) : Blocks :=
  forLoop stride (fun i m => xorAt m (tVal + i) (masked i)) mT

def maskedCorrection (s : PrtyMOtSender) (row i : Nat) : Block :=
  s.mCorrectionVals.mView (row * s.mCorrectionVals.mStride + i) &&& s.mChoiceBlks.get i

def otCorrection (otIdx : Nat) (s : PrtyMOtSender) : PrtyMOtSender :=
  let tVal := otIdx * s.mT.mStride
  let mView :=
    if s.mT.mStride = 4 then correctFour tVal (s.maskedCorrection otIdx) s.mT.mView
    else correctGeneral s.mT.mStride tVal (s.maskedCorrection otIdx) s.mT.mView
  { s with mT := { s.mT with mView } }

def recvCorrection (recvCount : Nat) (message : List Block) (s : PrtyMOtSender) : Except Error PrtyMOtSender := do
  let mView ← recvBlocks s.mCorrectionVals.mView (i32 (s.mCorrectionIdx * s.mCorrectionVals.mStride))
    (recvCount * s.mCorrectionVals.mStride) message
  pure { s with
    mCorrectionVals := { s.mCorrectionVals with mView }
    mCorrectionIdx := s.mCorrectionIdx + recvCount }

def correctionDest (s : PrtyMOtSender) : Int := i32 (s.mCorrectionIdx * s.mCorrectionVals.mStride)

/-- `recvCorrection` without a count, which takes up to all rows that are left. No message is
empty, so `ReceiveAtMost` is always resized to what is received. -/
def recvCorrectionAtMost (message : List Block) (s : PrtyMOtSender) : Except Error (Nat × PrtyMOtSender) := do
  let maxReceiveCount := (s.mCorrectionVals.rows - s.mCorrectionIdx) * s.mCorrectionVals.mStride
  if maxReceiveCount < message.length then
    throw (.badReceiveBufferSize (16 * maxReceiveCount) (16 * message.length))
  let receivedSize := message.length
  let mView ← recvBlocks s.mCorrectionVals.mView s.correctionDest receivedSize message
  if receivedSize % s.mCorrectionVals.mStride ≠ 0 then throw .unevenCorrection
  let numCorrections := receivedSize / s.mCorrectionVals.mStride
  pure (numCorrections, { s with
    mCorrectionVals := { s.mCorrectionVals with mView }
    mCorrectionIdx := s.mCorrectionIdx + numCorrections })

theorem setBaseOtsOk (aes : Aes) {baseRecvOts : Vec Block} (choices : BitVector) (s : PrtyMOtSender)
    (size : choices.size = baseRecvOts.size) (whole : choices.size % 128 = 0) :
    s.setBaseOts aes baseRecvOts choices = .ok (s.seedGens aes baseRecvOts choices) := by
  unfold setBaseOts
  rw [if_neg (not_not.mpr size), if_neg (not_not.mpr whole)]

theorem initOk {s : PrtyMOtSender} (bytes : s.mInputByteCount ≠ 0) (numOTExt : Nat) :
    s.init numOTExt = .ok (s.expandPads numOTExt) := if_neg bytes

def t (s : PrtyMOtSender) (row i : Nat) : Block := s.mT.mView (row * s.mT.mStride + i)

theorem otCorrectionSpec (otIdx : Nat) (s : PrtyMOtSender) (a : Nat) :
    (s.otCorrection otIdx).mT.mView a =
      if otIdx * s.mT.mStride ≤ a ∧ a < otIdx * s.mT.mStride + s.mT.mStride then
        s.mT.mView a ^^^ s.maskedCorrection otIdx (a - otIdx * s.mT.mStride)
      else s.mT.mView a := by
  have general : (s.otCorrection otIdx).mT.mView = correctGeneral s.mT.mStride (otIdx * s.mT.mStride)
      (s.maskedCorrection otIdx) s.mT.mView := by
    unfold otCorrection
    dsimp only
    split
    · rename_i four
      rw [four]
      rfl
    · rfl
  rw [general]
  exact xorSpan _ _ _ _

section Frame
variable (otIdx : Nat) (s : PrtyMOtSender)

@[simp] theorem otCorrectionStride : (s.otCorrection otIdx).mT.mStride = s.mT.mStride := rfl
@[simp] theorem otCorrectionVals : (s.otCorrection otIdx).mCorrectionVals = s.mCorrectionVals := rfl
@[simp] theorem otCorrectionChoice : (s.otCorrection otIdx).mChoiceBlks = s.mChoiceBlks := rfl
@[simp] theorem otCorrectionIdx : (s.otCorrection otIdx).mCorrectionIdx = s.mCorrectionIdx := rfl
@[simp] theorem otCorrectionGens : (s.otCorrection otIdx).mGens = s.mGens := rfl
@[simp] theorem otCorrectionCode : (s.otCorrection otIdx).mCode = s.mCode := rfl

end Frame

theorem recvCorrectionSpec {s : PrtyMOtSender} (recvCount : Nat) (message : List Block)
    (sized : message.length = recvCount * s.mCorrectionVals.mStride)
    (small : s.mCorrectionIdx * s.mCorrectionVals.mStride < 2 ^ 31) :
    ∃ mView, s.recvCorrection recvCount message = .ok { s with
        mCorrectionVals := { s.mCorrectionVals with mView }
        mCorrectionIdx := s.mCorrectionIdx + recvCount } ∧
      ∀ a, mView a = if s.mCorrectionIdx * s.mCorrectionVals.mStride ≤ a ∧
          a < (s.mCorrectionIdx + recvCount) * s.mCorrectionVals.mStride then
        message.getD (a - s.mCorrectionIdx * s.mCorrectionVals.mStride) 0#128
      else s.mCorrectionVals.mView a := by
  refine ⟨_, by unfold recvCorrection recvBlocks; rw [if_pos sized]; rfl, fun a => ?_⟩
  rw [i32Small small]
  have edge : (s.mCorrectionIdx + recvCount) * s.mCorrectionVals.mStride =
      s.mCorrectionIdx * s.mCorrectionVals.mStride + recvCount * s.mCorrectionVals.mStride := Nat.add_mul _ _ _
  by_cases inside : s.mCorrectionIdx * s.mCorrectionVals.mStride ≤ a ∧
      a < (s.mCorrectionIdx + recvCount) * s.mCorrectionVals.mStride
  · rw [if_pos inside, if_pos (by omega)]
    congr 1
    omega
  · rw [if_neg inside, if_neg (by omega)]

theorem recvCorrectionFails {recvCount : Nat} {message : List Block} {s : PrtyMOtSender}
    (missized : message.length ≠ recvCount * s.mCorrectionVals.mStride) :
    s.recvCorrection recvCount message = .error (.badReceiveBufferSize
      (16 * (recvCount * s.mCorrectionVals.mStride)) (16 * message.length)) := by
  unfold recvCorrection recvBlocks
  rw [if_neg missized]
  rfl

end PrtyMOtSender
end PaxosPsi
