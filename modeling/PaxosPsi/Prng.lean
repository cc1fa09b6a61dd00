import PaxosPsi.Memory

/-! The AES counter-mode generator of cryptoTools with its prefetch buffer. AES is
an arbitrary function of key and counter. The counter is a `u64`, so it wraps. -/
namespace PaxosPsi
open Memory

inductive Error where
  | rtError
  | configureFirst
  | getBaseOTCount
  | prngNotKeyed
  | sizeMismatch
  | onlyMultiplesOf128
  | badReceiveBufferSize (bufferSize dataSize : Nat)
  | multipleOf8
  | makeThisBigger
  | channelClosed
  | unevenCorrection
  | lengthError
  deriving DecidableEq, Repr

def Error.what : Error → String
  | rtError => "rt error at "
  | configureFirst => "configure must be called first"
  | getBaseOTCount => "must call configure(...) before getBaseOTCount() "
  | prngNotKeyed => "PRNG has not been keyed "
  | sizeMismatch => "size mismatch"
  | onlyMultiplesOf128 => "only multiples of 128 are supported"
  -- the two numbers are printed under each other's label
  | badReceiveBufferSize bufferSize dataSize =>
      "Bad receive buffer size.\n  Buffer size: " ++ toString dataSize ++ " bytes\n  Data size:   " ++
        toString bufferSize ++ " bytes\n"
  | multipleOf8 => "Must be a multiple of 8. "
  | makeThisBigger => "Make this bigger. "
  | channelClosed => "channel closed"
  | unevenCorrection => "An even number of correction blocks were not sent. "
  | lengthError => "cannot create std::vector larger than max_size()"

/-- The instance after a call that may throw before it changes anything. -/
def keepOnThrow {α : Type} (old : α) : Except Error α → α
  | .ok new => new
  | .error _ => old

def returned {α : Type} : Except Error α → Bool
  | .ok _ => true
  | .error _ => false

theorem keepOnThrowOk {α : Type} {old new : α} {result : Except Error α} (ran : result = .ok new) :
    keepOnThrow old result = new := by
  rw [ran]
  rfl

theorem keepOnThrowError {α : Type} {old : α} {e : Error} {result : Except Error α} (threw : result = .error e) :
    keepOnThrow old result = old := by
  rw [threw]
  rfl

/-- One AES block as a function of the key and the counter value. -/
abbrev Aes := Block → BitVec 64 → Block

def ecbEncCounterMode (mAes : BitVec 64 → Block) (baseIdx : BitVec 64) : Blocks :=
  fun t => mAes (baseIdx + BitVec.ofNat 64 t)

structure PRNG where
  mAes : BitVec 64 → Block
  mBuffer : Blocks
  mBufferSize : Nat
  mBytesIdx : Nat
  mBlockIdx : BitVec 64
  /-- Every caller takes the default of 256 blocks, and a used-up buffer is refilled at once. -/
  unread : mBufferSize = 0 ∨ mBufferSize = 256 ∧ mBytesIdx < 16 * mBufferSize

namespace PRNG

def new : PRNG := ⟨fun _ => 0#128, fun _ => 0#128, 0, 0, 0, Or.inl rfl⟩

def mBufferByteCapacity (prng : PRNG) : Nat := 16 * prng.mBufferSize

def Keyed (prng : PRNG) : Prop := prng.mBufferSize ≠ 0

def refillBuffer (prng : PRNG) : Except Error PRNG :=
  if unkeyed : prng.mBufferSize = 0 then .error .prngNotKeyed
  else .ok { prng with
    mBuffer := ecbEncCounterMode prng.mAes prng.mBlockIdx
    mBytesIdx := 0
    mBlockIdx := prng.mBlockIdx + BitVec.ofNat 64 prng.mBufferSize
    unread := Or.inr ⟨(prng.unread.resolve_left unkeyed).1, by omega⟩ }

def setSeed (aes : Aes) (seed : Block) (prng : PRNG) : PRNG :=
  let size := if prng.mBufferSize = 0 then 256 else prng.mBufferSize
  { mAes := aes seed
    mBuffer := ecbEncCounterMode (aes seed) 0
    mBufferSize := size
    mBytesIdx := 0
    mBlockIdx := BitVec.ofNat 64 size
    unread := by
      have kept := prng.unread
      dsimp only [size]
      split <;> omega }

theorem setSeedFresh (aes : Aes) (seed : Block) (prng : PRNG) : setSeed aes seed prng = setSeed aes seed new := by
  have size : (if prng.mBufferSize = 0 then 256 else prng.mBufferSize) = 256 := by
    have kept := prng.unread
    split <;> omega
  simp only [setSeed, new, size, if_true]

theorem setSeedKeyed (aes : Aes) (seed : Block) (prng : PRNG) : (setSeed aes seed prng).Keyed := by
  unfold Keyed setSeed
  dsimp only
  split <;> omega

/-- One pass of `get`: copy up to the end of the buffer, refill when it is used up. -/
def getStep (prng : PRNG) (step : Nat) : Except Error PRNG :=
  if inside : prng.mBytesIdx + step < prng.mBufferByteCapacity then
    .ok { prng with
      mBytesIdx := prng.mBytesIdx + step
      unread := by
        have kept := prng.unread
        unfold mBufferByteCapacity at inside
        omega }
  else prng.refillBuffer

/-- Every pass copies a byte or throws, so `lengthu8` passes are enough. -/
def getLoop : Nat → PRNG → Nat → List Byte → Except Error (List Byte × PRNG)
  | 0, prng, _, destu8 => .ok (destu8, prng)
  | fuel + 1, prng, lengthu8, destu8 =>
    if lengthu8 = 0 then .ok (destu8, prng)
    else do
      let step := min lengthu8 (prng.mBufferByteCapacity - prng.mBytesIdx)
      let copied := (List.range step).map fun k => bytesOf prng.mBuffer (prng.mBytesIdx + k)
      let next ← prng.getStep step
      getLoop fuel next (lengthu8 - step) (destu8 ++ copied)

def get (prng : PRNG) (lengthu8 : Nat) : Except Error (List Byte × PRNG) :=
  getLoop lengthu8 prng lengthu8 []

def getBlock (prng : PRNG) : Except Error (Block × PRNG) := do
  let (bytes, next) ← prng.get 16
  pure (blocksOf (fun i => bytes.getD i 0) 0, next)

theorem getStepKeyed {prng : PRNG} (keyed : prng.Keyed) (step : Nat) :
    ∃ next, prng.getStep step = .ok next ∧ next.Keyed := by
  unfold getStep
  split
  · exact ⟨_, rfl, keyed⟩
  · unfold refillBuffer
    split
    · contradiction
    · exact ⟨_, rfl, keyed⟩

theorem getLoopKeyed {fuel : Nat} {prng : PRNG} (keyed : prng.Keyed) (lengthu8 : Nat) (destu8 : List Byte)
    (enough : lengthu8 ≤ fuel) :
    ∃ bytes next, getLoop fuel prng lengthu8 destu8 = .ok (bytes, next) ∧ next.Keyed ∧
      bytes.length = destu8.length + lengthu8 := by
  induction fuel generalizing prng lengthu8 destu8 with
  | zero => exact ⟨destu8, prng, rfl, keyed, by omega⟩
  | succ fuel ih =>
    rw [getLoop]
    split
    · exact ⟨destu8, prng, rfl, keyed, by omega⟩
    · rename_i more
      have ready : 0 < prng.mBufferByteCapacity - prng.mBytesIdx := by
        have unread := (prng.unread.resolve_left keyed).2
        unfold mBufferByteCapacity
        omega
      obtain ⟨next, stepped, nextKeyed⟩ :=
        getStepKeyed keyed (min lengthu8 (prng.mBufferByteCapacity - prng.mBytesIdx))
      obtain ⟨bytes, last, looped, lastKeyed, size⟩ := ih nextKeyed
        (lengthu8 - min lengthu8 (prng.mBufferByteCapacity - prng.mBytesIdx))
        (destu8 ++ (List.range (min lengthu8 (prng.mBufferByteCapacity - prng.mBytesIdx))).map
          fun k => bytesOf prng.mBuffer (prng.mBytesIdx + k)) (by omega)
      refine ⟨bytes, last, ?_, lastKeyed, ?_⟩
      · simp only [stepped]
        exact looped
      · rw [size, List.length_append, List.length_map, List.length_range]
        omega

theorem getKeyed {prng : PRNG} (keyed : prng.Keyed) (lengthu8 : Nat) :
    ∃ bytes next, prng.get lengthu8 = .ok (bytes, next) ∧ next.Keyed ∧ bytes.length = lengthu8 := by
  obtain ⟨bytes, next, got, kept, size⟩ := getLoopKeyed keyed lengthu8 [] (Nat.le_refl lengthu8)
  exact ⟨bytes, next, got, kept, by simpa using size⟩

theorem getBlockKeyed {prng : PRNG} (keyed : prng.Keyed) :
    ∃ seed next, prng.getBlock = .ok (seed, next) ∧ next.Keyed := by
  obtain ⟨bytes, next, got, kept, -⟩ := getKeyed keyed 16
  exact ⟨_, next, by unfold getBlock; rw [got]; rfl, kept⟩

section Frame

theorem getStepFrame {prng next : PRNG} {step : Nat} (ran : prng.getStep step = .ok next) :
    next.mAes = prng.mAes ∧ next.mBufferSize = prng.mBufferSize := by
  unfold getStep refillBuffer at ran
  split at ran
  · obtain rfl := Except.ok.inj ran
    exact ⟨rfl, rfl⟩
  · split at ran
    · cases ran
    · obtain rfl := Except.ok.inj ran
      exact ⟨rfl, rfl⟩

theorem getLoopFrame {fuel lengthu8 : Nat} {prng next : PRNG} {destu8 bytes : List Byte}
    (ran : getLoop fuel prng lengthu8 destu8 = .ok (bytes, next)) :
    next.mAes = prng.mAes ∧ next.mBufferSize = prng.mBufferSize := by
  induction fuel generalizing prng lengthu8 destu8 with
  | zero =>
    obtain ⟨-, rfl⟩ := Prod.mk.inj (Except.ok.inj ran)
    exact ⟨rfl, rfl⟩
  | succ fuel ih =>
    unfold getLoop at ran
    split at ran
    · obtain ⟨-, rfl⟩ := Prod.mk.inj (Except.ok.inj ran)
      exact ⟨rfl, rfl⟩
    · simp only [bind, Except.bind] at ran
      split at ran
      · cases ran
      · rename_i stepped
        obtain ⟨key, size⟩ := getStepFrame stepped
        obtain ⟨key', size'⟩ := ih ran
        exact ⟨key'.trans key, size'.trans size⟩

theorem getBlockFrame {prng next : PRNG} {seed : Block} (ran : prng.getBlock = .ok (seed, next)) :
    next.mAes = prng.mAes ∧ next.mBufferSize = prng.mBufferSize := by
  unfold getBlock at ran
  simp only [bind, Except.bind, pure, Except.pure] at ran
  split at ran
  · cases ran
  · rename_i got
    obtain ⟨-, rfl⟩ := Prod.mk.inj (Except.ok.inj ran)
    exact getLoopFrame got

end Frame

/-- `init` advances the counter without going through the buffer. -/
def skip (prng : PRNG) (blocks : Nat) : PRNG :=
  { prng with mBlockIdx := prng.mBlockIdx + BitVec.ofNat 64 blocks }

theorem skipZero (prng : PRNG) : prng.skip 0 = prng := by simp [skip]

theorem skipSkip (prng : PRNG) (a b : Nat) : (prng.skip a).skip b = prng.skip (a + b) := by
  simp [skip, BitVec.ofNat_add, BitVec.add_assoc]

@[simp] theorem skipAes (prng : PRNG) (blocks : Nat) : (prng.skip blocks).mAes = prng.mAes := rfl

@[simp] theorem skipBlockIdx (prng : PRNG) (blocks : Nat) :
    (prng.skip blocks).mBlockIdx = prng.mBlockIdx + BitVec.ofNat 64 blocks := rfl

theorem skipKeyed {prng : PRNG} (keyed : prng.Keyed) (blocks : Nat) : (prng.skip blocks).Keyed := keyed

end PRNG
end PaxosPsi
