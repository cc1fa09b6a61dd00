import PaxosPsi.Configure
import PaxosPsi.Expansion

/-! `PrtyMOtReceiver`: the pads `T0` and `T1`, the correction `T0 ^ T1 ^ C(w)`
written over `T1` in place, and the message that refers to `T1` instead of copying it. -/
namespace PaxosPsi
open CountedLoop XorAlgebra Memory

structure PrtyMOtReceiver where
  mHasBase : Bool
  mMalicious : Bool
  mStatSecParam : Nat
  mCode : LinearCode
  mCorrectionIdx : Nat
  mInputByteCount : Nat
  mGens : Vec (PRNG × PRNG)
  mT0 : Matrix
  mRy : Matrix
  mT1 : Matrix
  mW : Matrix

/-- What `asyncSend` keeps of a correction message: where it starts in `mT1` and its
length, both in blocks. The contents are read when the network sends them. -/
structure Correction where
  dest : Nat
  length : Nat
  deriving DecidableEq, Repr

def Correction.read (c : Correction) (mT1 : Blocks) : List Block :=
  (List.range c.length).map fun a => mT1 (c.dest + a)

namespace PrtyMOtReceiver

/-- The default constructor; members it leaves uninitialised are zero here. -/
def new : PrtyMOtReceiver :=
  { mHasBase := false, mMalicious := false, mStatSecParam := 0, mCode := ⟨0, 0, fun _ => 0#128⟩
    mCorrectionIdx := 0, mInputByteCount := 0, mGens := ⟨0, fun _ => (PRNG.new, PRNG.new)⟩
    mT0 := Matrix.new, mRy := Matrix.new, mT1 := Matrix.new, mW := Matrix.new }

def configure (mx : Nat → Blocks) (maliciousSecure : Bool) (statSecParam inputBitCount : Nat)
    (r : PrtyMOtReceiver) : PrtyMOtReceiver :=
  let mCode := loadCode mx inputBitCount r.mCode
  { r with
    mCode
    mInputByteCount := (inputBitCount + 7) % 2 ^ 64 / 8
    mStatSecParam := statSecParam
    mMalicious := maliciousSecure
    mGens := r.mGens.resize (roundUpTo mCode.mCodewordBitSize 128) (PRNG.new, PRNG.new) }

def getBaseOTCount (r : PrtyMOtReceiver) : Except Error Nat :=
  if r.mGens.size ≠ 0 then .ok r.mGens.size else .error .getBaseOTCount

def seedGens (aes : Aes) (baseRecvOts : Vec (Block × Block)) (r : PrtyMOtReceiver) : PrtyMOtReceiver :=
  { r with
    mGens := ⟨r.mGens.size, fun i =>
      if i < r.mGens.size then
        ((r.mGens.get i).1.setSeed aes (baseRecvOts.get i).1, (r.mGens.get i).2.setSeed aes (baseRecvOts.get i).2)
      else r.mGens.get i⟩
    mHasBase := true }

def setBaseOts (aes : Aes) (baseRecvOts : Vec (Block × Block)) (r : PrtyMOtReceiver) :
    Except Error PrtyMOtReceiver :=
  if baseRecvOts.size ≠ r.mGens.size then .error .rtError else .ok (r.seedGens aes baseRecvOts)

def rowCount (r : PrtyMOtReceiver) (numOtExt : Nat) : Nat := roundUpTo (numOtExt + r.mStatSecParam) 128

def expandPads (numOtExt : Nat) (r : PrtyMOtReceiver) : PrtyMOtReceiver :=
  let numOtExt := r.rowCount numOtExt
  let numCols := r.mGens.size
  let expanded := Expansion.expandPair numOtExt numCols
    (⟨fun i => (r.mGens.get i).1, r.mT0.assignEmpty.resize numOtExt (numCols / 128)⟩,
      ⟨fun i => (r.mGens.get i).2, r.mT1.assignEmpty.resize numOtExt (numCols / 128)⟩)
  { r with
    mCorrectionIdx := 0
    mW := r.mW.assignEmpty.resize numOtExt r.mCode.plaintextBlkSize
    mT0 := expanded.1.mT
    mT1 := expanded.2.mT
    mRy := r.mRy.assignEmpty
    mGens := ⟨numCols, fun i => (expanded.1.mGens i, expanded.2.mGens i)⟩ }

def init (numOtExt : Nat) (r : PrtyMOtReceiver) : Except Error PrtyMOtReceiver :=
  if r.mHasBase = false then .error .rtError
  else if r.mInputByteCount = 0 then .error .configureFirst
  else .ok (r.expandPads numOtExt)

def splitSeeds : Nat → Vec (PRNG × PRNG) → Vec (Block × Block) →
    Except Error (Vec (PRNG × PRNG) × Vec (Block × Block))
  | 0, mGens, base => .ok (mGens, base)
  | n + 1, mGens, base => do
    let (mGens, base) ← splitSeeds n mGens base
    let (seed0, gen0) ← (mGens.get n).1.getBlock
    let (seed1, gen1) ← (mGens.get n).2.getBlock
    pure (⟨mGens.size, Function.update mGens.get n (gen0, gen1)⟩,
      ⟨base.size, Function.update base.get n (seed0, seed1)⟩)

def splitRaw (r : PrtyMOtReceiver) : PrtyMOtReceiver :=
  { new with
    mCode := r.mCode
    mHasBase := r.mHasBase
    mMalicious := r.mMalicious
    mStatSecParam := r.mStatSecParam
    mInputByteCount := r.mInputByteCount
    mGens := new.mGens.resize r.mGens.size (PRNG.new, PRNG.new) }

def split (aes : Aes) (r : PrtyMOtReceiver) : Except Error (PrtyMOtReceiver × PrtyMOtReceiver) :=
  if r.mHasBase then do
    let (mGens, base) ← splitSeeds r.mGens.size r.mGens ⟨r.mGens.size, fun _ => (0#128, 0#128)⟩
    let raw ← r.splitRaw.setBaseOts aes base
    pure ({ r with mGens }, raw)
  else pure (r, r.splitRaw)

def storeWord (otIdx : Nat) (input : Bytes) (r : PrtyMOtReceiver) : PrtyMOtReceiver :=
  { r with mW := { r.mW with
      mView := memcpy r.mW.mView (otIdx * r.mW.mStride) input r.mInputByteCount } }

def wVal (r : PrtyMOtReceiver) (otIdx : Nat) : Bytes :=
  bytesOf fun k => r.mW.mView (otIdx * r.mW.mStride + k)

/-- The codewords are four blocks: `T1` takes the codeword first and then `T0`. -/
def correctFour (t1Val : Nat) (codeword t0Val : Nat → Block) (mT1 : Blocks) : Blocks :=
  let t1 := xorAt (xorAt (xorAt (xorAt mT1 (t1Val + 0) (codeword 0)) (t1Val + 1) (codeword 1))
    (t1Val + 2) (codeword 2)) (t1Val + 3) (codeword 3)
  xorAt (xorAt (xorAt (xorAt t1 (t1Val + 0) (t0Val 0)) (t1Val + 1) (t0Val 1))
    (t1Val + 2) (t0Val 2)) (t1Val + 3) (t0Val 3)

def correctGeneral (stride t1Val : Nat) (codeword t0Val : Nat → Block) (mT1 : Blocks) : Blocks :=
  forLoop stride (fun i m => xorAt m (t1Val + i) (codeword i ^^^ t0Val i)) mT1

def otCorrection (otIdx : Nat) (input : Bytes) (r : PrtyMOtReceiver) : PrtyMOtReceiver :=
  let r := r.storeWord otIdx input
  let codeword := r.mCode.codeword (r.wVal otIdx)
  let t0Val := fun i => r.mT0.mView (otIdx * r.mT0.mStride + i)
  let t1Val := otIdx * r.mT0.mStride
  let mView :=
    if r.mT0.mStride = 4 then correctFour t1Val codeword t0Val r.mT1.mView
    else correctGeneral r.mT0.mStride t1Val codeword t0Val r.mT1.mView
  { r with mT1 := { r.mT1 with mView } }

def sendCorrection (sendCount : Nat) (r : PrtyMOtReceiver) : Correction × PrtyMOtReceiver :=
  (⟨r.mCorrectionIdx * r.mT1.mStride, r.mT1.mStride * sendCount⟩,
    { r with mCorrectionIdx := r.mCorrectionIdx + sendCount })

theorem setBaseOtsOk (aes : Aes) {baseRecvOts : Vec (Block × Block)} {r : PrtyMOtReceiver}
    (size : baseRecvOts.size = r.mGens.size) : r.setBaseOts aes baseRecvOts = .ok (r.seedGens aes baseRecvOts) :=
  if_neg (not_not.mpr size)

theorem initOk {r : PrtyMOtReceiver} (hasBase : r.mHasBase = true) (bytes : r.mInputByteCount ≠ 0)
    (numOtExt : Nat) : r.init numOtExt = .ok (r.expandPads numOtExt) := by
  unfold init
  rw [if_neg (by simp [hasBase]), if_neg bytes]

theorem correctFourGeneral (t1Val : Nat) (codeword t0Val : Nat → Block) (mT1 : Blocks) :
    correctFour t1Val codeword t0Val mT1 = correctGeneral 4 t1Val codeword t0Val mT1 := by
  have first : ∀ m, xorAt (xorAt (xorAt (xorAt m (t1Val + 0) (codeword 0)) (t1Val + 1) (codeword 1))
      (t1Val + 2) (codeword 2)) (t1Val + 3) (codeword 3) =
      forLoop 4 (fun i m => xorAt m (t1Val + i) (codeword i)) m := fun _ => rfl
  have second : ∀ m, xorAt (xorAt (xorAt (xorAt m (t1Val + 0) (t0Val 0)) (t1Val + 1) (t0Val 1))
      (t1Val + 2) (t0Val 2)) (t1Val + 3) (t0Val 3) =
      forLoop 4 (fun i m => xorAt m (t1Val + i) (t0Val i)) m := fun _ => rfl
  funext a
  unfold correctFour correctGeneral
  simp only [first, second, xorSpan]
  split
  · rw [BitVec.xor_assoc]
  · rfl

def t0 (r : PrtyMOtReceiver) (row i : Nat) : Block := r.mT0.mView (row * r.mT0.mStride + i)

def t1 (r : PrtyMOtReceiver) (row i : Nat) : Block := r.mT1.mView (row * r.mT0.mStride + i)

theorem otCorrectionSpec (otIdx : Nat) (input : Bytes) (r : PrtyMOtReceiver) (a : Nat) :
    (r.otCorrection otIdx input).mT1.mView a =
      if otIdx * r.mT0.mStride ≤ a ∧ a < otIdx * r.mT0.mStride + r.mT0.mStride then
        r.mT1.mView a ^^^ (r.mCode.codeword ((r.storeWord otIdx input).wVal otIdx) (a - otIdx * r.mT0.mStride) ^^^
          r.mT0.mView a)
      else r.mT1.mView a := by
  have general : (r.otCorrection otIdx input).mT1.mView = correctGeneral r.mT0.mStride (otIdx * r.mT0.mStride)
      (r.mCode.codeword ((r.storeWord otIdx input).wVal otIdx))
      (fun i => r.mT0.mView (otIdx * r.mT0.mStride + i)) r.mT1.mView := by
    unfold otCorrection
    dsimp only [storeWord]
    split
    · rename_i four
      rw [correctFourGeneral, four]
    · rfl
  rw [general, correctGeneral, xorSpan]
  split
  · rename_i inside
    have back : otIdx * r.mT0.mStride + (a - otIdx * r.mT0.mStride) = a := by omega
    rw [back]
  · rfl

section Frame
variable (otIdx : Nat) (input : Bytes) (r : PrtyMOtReceiver)

@[simp] theorem otCorrectionT0 : (r.otCorrection otIdx input).mT0 = r.mT0 := rfl
@[simp] theorem otCorrectionCode : (r.otCorrection otIdx input).mCode = r.mCode := rfl
@[simp] theorem otCorrectionIdx : (r.otCorrection otIdx input).mCorrectionIdx = r.mCorrectionIdx := rfl
@[simp] theorem otCorrectionInputBytes : (r.otCorrection otIdx input).mInputByteCount = r.mInputByteCount := rfl
@[simp] theorem otCorrectionGens : (r.otCorrection otIdx input).mGens = r.mGens := rfl
@[simp] theorem otCorrectionT1Stride : (r.otCorrection otIdx input).mT1.mStride = r.mT1.mStride := rfl
@[simp] theorem otCorrectionWStride : (r.otCorrection otIdx input).mW.mStride = r.mW.mStride := rfl

theorem otCorrectionWord : (r.otCorrection otIdx input).mW.mView =
    memcpy r.mW.mView (otIdx * r.mW.mStride) input r.mInputByteCount := rfl

end Frame
end PrtyMOtReceiver
end PaxosPsi
