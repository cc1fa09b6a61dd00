import PaxosPsi.CodeTables

/-! `encode` and `encode_prty` of both parties. The random oracle is a function of its
output length and of the bytes it is fed. -/
namespace PaxosPsi
open CountedLoop XorAlgebra Memory

/-- What `Final` writes after the bytes of all `Update` calls. -/
abbrev RandomOracle := Nat → List Byte → Bytes

namespace RandomOracle

def HashSize : Nat := 20

end RandomOracle

def blockBytes (row : Blocks) (count : Nat) : List Byte := (List.range (16 * count)).map (bytesOf row)

def copyBytes (dest src : Bytes) (count : Nat) : Bytes := fun i => if i < count then src i else dest i

theorem blockBytesCongr {a b : Blocks} {count : Nat} (same : ∀ j < count, a j = b j) :
    blockBytes a count = blockBytes b count := by
  apply List.map_congr_left
  intro i listed
  have bound := List.mem_range.mp listed
  exact bytesOfCongr (same _ (by omega))

theorem blockBytesLength (row : Blocks) (count : Nat) : (blockBytes row count).length = 16 * count := by
  rw [blockBytes, List.length_map, List.length_range]

namespace PrtyMOtSender
variable (oracle : RandomOracle)

def hashFour (val mask : Nat → Block) (codeword : Blocks) : Blocks :=
  Function.update (Function.update (Function.update (Function.update codeword
    0 (val 0 ^^^ (codeword 0 &&& mask 0))) 1 (val 1 ^^^ (codeword 1 &&& mask 1)))
    2 (val 2 ^^^ (codeword 2 &&& mask 2))) 3 (val 3 ^^^ (codeword 3 &&& mask 3))

def hashGeneral (stride : Nat) (val mask : Nat → Block) (codeword : Blocks) : Blocks :=
  forLoop stride (fun i codeword => Function.update codeword i (val i ^^^ (codeword i &&& mask i))) codeword

/-- The local array `codeword`: the plaintext over zeroes, encoded in place. -/
def codewordOf (plaintext : Bytes) (s : PrtyMOtSender) : Blocks :=
  let codeword := memcpy (fun _ => 0#128) 0 plaintext s.mInputByteCount
  s.mCode.encode (bytesOf codeword) codeword

def hashedRow (otIdx : Nat) (plaintext : Bytes) (s : PrtyMOtSender) : Blocks :=
  let tVal := fun i => s.mT.mView (otIdx * s.mT.mStride + i)
  if s.mT.mStride = 4 then hashFour tVal s.mChoiceBlks.get (s.codewordOf plaintext)
  else hashGeneral s.mT.mStride tVal s.mChoiceBlks.get (s.codewordOf plaintext)

def encode (otIdx : Nat) (plaintext dest : Bytes) (destSize : Nat) (s : PrtyMOtSender) : Bytes :=
  copyBytes dest (oracle destSize (blockBytes (s.hashedRow otIdx plaintext) s.mT.mStride)) destSize

/-- The branch for four blocks hashes the row alone, the general one the plaintext's first
block before it. -/
def encode_prty (idx : Nat) (plaintext dest : Bytes) (destSize : Nat) (s : PrtyMOtSender) : Bytes :=
  let qxVal := fun i => s.mQx.mView (idx * s.mQx.mStride + i)
  if s.mT.mStride = 4 then
    let codeword := hashFour qxVal s.mChoiceBlks.get (s.codewordOf plaintext)
    copyBytes dest (oracle destSize (blockBytes codeword s.mQx.mStride)) destSize
  else
    let codeword := hashGeneral s.mQx.mStride qxVal s.mChoiceBlks.get (s.codewordOf plaintext)
    copyBytes dest (oracle destSize
      ((List.range 16).map plaintext ++ blockBytes codeword s.mQx.mStride)) destSize

theorem hashGeneralSpec (stride : Nat) (val mask : Nat → Block) (codeword : Blocks) (j : Nat) :
    hashGeneral stride val mask codeword j = if j < stride then val j ^^^ (codeword j &&& mask j) else codeword j := by
  unfold hashGeneral
  induction stride generalizing j with
  | zero => exact (if_neg (Nat.not_lt_zero j)).symm
  | succ stride ih =>
    rw [forLoopSucc]
    by_cases last : j = stride
    · subst j
      rw [Function.update_self, ih, if_neg (Nat.lt_irrefl _), if_pos (Nat.lt_succ_self _)]
    · rw [Function.update_of_ne last, ih]
      congr 1
      exact propext (by omega)

theorem hashFourGeneral (val mask : Nat → Block) (codeword : Blocks) :
    hashFour val mask codeword = hashGeneral 4 val mask codeword := by
  funext j
  rw [hashGeneralSpec]
  unfold hashFour
  match j with
  | 0 | 1 | 2 | 3 => simp [Function.update]
  | j + 4 => simp [Function.update]

theorem hashedRowSpec (otIdx : Nat) (plaintext : Bytes) (s : PrtyMOtSender) {j : Nat} (column : j < s.mT.mStride) :
    s.hashedRow otIdx plaintext j = s.t otIdx j ^^^ (s.codewordOf plaintext j &&& s.mChoiceBlks.get j) := by
  have general : s.hashedRow otIdx plaintext = hashGeneral s.mT.mStride
      (fun i => s.mT.mView (otIdx * s.mT.mStride + i)) s.mChoiceBlks.get (s.codewordOf plaintext) := by
    unfold hashedRow
    dsimp only
    split
    · rename_i four
      rw [hashFourGeneral, four]
    · rfl
  rw [general, hashGeneralSpec, if_pos column]
  rfl

theorem codewordOfSpec {s : PrtyMOtSender} (covers : s.mCode.plaintextU8Size ≤ s.mInputByteCount)
    (fits : s.mInputByteCount ≤ s.mCode.codewordU8Size) (plaintext : Bytes) :
    s.codewordOf plaintext = s.mCode.codeword plaintext := s.mCode.encodeInPlace plaintext covers fits

end PrtyMOtSender

namespace PrtyMOtReceiver
variable (oracle : RandomOracle)

/-- The hash has its default length here and is cut to `destSize` afterwards. -/
def encode (otIdx : Nat) (_input dest : Bytes) (destSize : Nat) (r : PrtyMOtReceiver) : Bytes :=
  let t0Val := fun i => r.mT0.mView (r.mT0.mStride * otIdx + i)
  copyBytes dest (oracle RandomOracle.HashSize (blockBytes t0Val r.mT0.mStride))
    (min RandomOracle.HashSize destSize)

def encode_prty (idx : Nat) (input dest : Bytes) (destSize : Nat) (r : PrtyMOtReceiver) : Bytes :=
  let ryVal := fun i => r.mRy.mView (r.mRy.mStride * idx + i)
  copyBytes dest (oracle destSize ((List.range 16).map input ++ blockBytes ryVal r.mRy.mStride)) destSize

/-- `otCorrection` of the zero word without encoding it. -/
def zeroEncode (otIdx : Nat) (r : PrtyMOtReceiver) : PrtyMOtReceiver :=
  { r with
    mW := { r.mW with
      mView := forLoop r.mW.mStride (fun i m => Function.update m (otIdx * r.mW.mStride + i) 0#128) r.mW.mView }
    mT1 := { r.mT1 with
      mView := forLoop r.mT0.mStride
        (fun i m => xorAt m (otIdx * r.mT0.mStride + i) (r.mT0.mView (otIdx * r.mT0.mStride + i))) r.mT1.mView } }

end PrtyMOtReceiver

structure PrtyRow {inputBitCount : Nat} (width : Supported inputBitCount) (mx : Nat → Blocks) where
  s : PrtyMOtSender
  r : PrtyMOtReceiver
  idx : Nat
  x : Bytes
  code : s.mCode = width.code mx
  inputBytes : s.mInputByteCount = (inputBitCount + 7) / 8
  tStride : s.mT.mStride = width.stride
  qxStride : s.mQx.mStride = width.stride
  ryStride : r.mRy.mStride = width.stride
  masked : ∀ j < width.stride, s.mQx.mView (idx * width.stride + j) =
    r.mRy.mView (idx * width.stride + j) ^^^ (s.mCode.codeword x j &&& s.mChoiceBlks.get j)

namespace PrtyRow
variable {inputBitCount : Nat} {width : Supported inputBitCount} {mx : Nat → Blocks} (row : PrtyRow width mx)

theorem unmasked :
    blockBytes (PrtyMOtSender.hashGeneral width.stride (fun i => row.s.mQx.mView (row.idx * width.stride + i))
      row.s.mChoiceBlks.get (row.s.codewordOf row.x)) width.stride =
    blockBytes (fun i => row.r.mRy.mView (width.stride * row.idx + i)) width.stride := by
  have shape := width.shape mx
  have codewordBytes := shape.codewordBytes
  apply blockBytesCongr
  intro j column
  rw [PrtyMOtSender.hashGeneralSpec, if_pos column, PrtyMOtSender.codewordOfSpec, row.masked j column,
    BitVec.xor_assoc, BitVec.xor_self, BitVec.xor_zero, Nat.mul_comm]
  · rw [row.code, row.inputBytes, shape.plaintextU8Size]
  · rw [row.code, row.inputBytes]
    exact codewordBytes

theorem differ (four : width.stride = 4) : ∃ (oracle : RandomOracle) (dest : Bytes),
    row.s.encode_prty oracle row.idx row.x dest 1 ≠ row.r.encode_prty oracle row.idx row.x dest 1 := by
  refine ⟨fun _ input _ => if input.length = 64 then 1#8 else 0#8, fun _ => 0#8, fun same => ?_⟩
  have first := congrFun same 0
  unfold PrtyMOtSender.encode_prty PrtyMOtReceiver.encode_prty copyBytes at first
  simp [row.tStride, row.qxStride, row.ryStride, four, blockBytesLength] at first

/-- The parties write the same bytes for every oracle exactly when the codeword is longer
than four blocks. -/
theorem encodePrtyAgreeIff : (∀ (oracle : RandomOracle) (dest : Bytes) (destSize : Nat),
    row.s.encode_prty oracle row.idx row.x dest destSize = row.r.encode_prty oracle row.idx row.x dest destSize) ↔
      128 < inputBitCount := by
  have shape := width.shape mx
  constructor
  · intro agree
    by_contra short
    obtain ⟨oracle, dest, apart⟩ := row.differ (shape.fourBlocks.mpr (Nat.le_of_not_lt short))
    exact apart (agree oracle dest 1)
  · intro long oracle dest destSize
    have wide : width.stride ≠ 4 := fun four => Nat.not_lt.mpr (shape.fourBlocks.mp four) long
    unfold PrtyMOtSender.encode_prty PrtyMOtReceiver.encode_prty
    rw [row.tStride, if_neg wide, row.qxStride, row.ryStride]
    dsimp only
    rw [row.unmasked]

def zeroRow : PrtyRow Supported.semiHonest mxTables where
  s := { PrtyMOtSender.new with
    mCode := ⟨448, 260, mxTables 65⟩, mInputByteCount := 9
    mT := Matrix.new.resize 1 4, mQx := Matrix.new.resize 1 4 }
  r := { PrtyMOtReceiver.new with mRy := Matrix.new.resize 1 4 }
  idx := 0
  x _ := 0#8
  code := rfl
  inputBytes := rfl
  tStride := rfl
  qxStride := rfl
  ryStride := rfl
  masked j _ := by
    have choice : PrtyMOtSender.new.mChoiceBlks.get j = 0#128 := rfl
    rw [choice, BitVec.and_zero, BitVec.xor_zero]

theorem zeroRowDiffers : ∃ (oracle : RandomOracle) (dest : Bytes),
    zeroRow.s.encode_prty oracle 0 zeroRow.x dest 1 ≠ zeroRow.r.encode_prty oracle 0 zeroRow.x dest 1 :=
  zeroRow.differ rfl

end PrtyRow
end PaxosPsi
