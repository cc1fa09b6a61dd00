import PaxosPsi.LinearCode
import PaxosPsi.Prng

/-! The code tables `configure` chooses from. A table is its width in generator
blocks, its codeword length and its generator rows; the rows are a parameter. -/
namespace PaxosPsi
open Memory

/-- The header of the table loaded for a plaintext width: `mG.size()` and the
codeword length. The header named for 168 bits holds the table for 162. -/
def mxHeader : Nat → Option (Nat × Nat)
  | 65 => some (260, 448)
  | 72 => some (288, 462)
  | 84 => some (336, 495)
  | 90 => some (360, 495)
  | 132 => some (660, 583)
  | 138 => some (690, 594)
  | 144 => some (720, 605)
  | 150 => some (750, 616)
  | 156 => some (780, 627)
  | 162 => some (810, 638)
  | 168 => some (810, 638)
  | 174 => some (1044, 660)
  | 210 => some (1260, 732)
  | 217 => some (1302, 744)
  | 231 => some (1386, 768)
  | 238 => some (1666, 776)
  | _ => none

/-- `mCode.load(...)` for the branch of `inputBitCount`; without a branch the code stays. -/
def loadCode (mx : Nat → Blocks) (inputBitCount : Nat) (mCode : LinearCode) : LinearCode :=
  match mxHeader inputBitCount with
  | some (mGSize, codewordBits) => ⟨codewordBits, mGSize, mx inputBitCount⟩
  | none => mCode

structure Supported (inputBitCount : Nat) where
  mGSize : Nat
  codewordBits : Nat
  listed : mxHeader inputBitCount = some (mGSize, codewordBits)

theorem mxHeaderCases {inputBitCount mGSize codewordBits : Nat}
    (listed : mxHeader inputBitCount = some (mGSize, codewordBits)) :
    (inputBitCount, mGSize, codewordBits) ∈ [(65, 260, 448), (72, 288, 462), (84, 336, 495), (90, 360, 495),
      (132, 660, 583), (138, 690, 594), (144, 720, 605), (150, 750, 616), (156, 780, 627), (162, 810, 638),
      (168, 810, 638), (174, 1044, 660), (210, 1260, 732), (217, 1302, 744), (231, 1386, 768), (238, 1666, 776)] := by
  unfold mxHeader at listed
  split at listed <;> simp at listed ⊢ <;> omega

namespace Supported
variable {inputBitCount : Nat} (width : Supported inputBitCount) (mx : Nat → Blocks)

def code : LinearCode := ⟨width.codewordBits, width.mGSize, mx inputBitCount⟩

def stride : Nat := (width.codewordBits + 127) / 128

theorem loaded (mCode : LinearCode) : loadCode mx inputBitCount mCode = width.code mx := by
  simp [loadCode, width.listed, code]

structure Shape (inputBitCount stride : Nat) (code : LinearCode) : Prop where
  codewordBlkSize : code.codewordBlkSize = stride
  narrow : stride = 4 ∨ stride = 5 ∨ stride = 6 ∨ stride = 7
  plaintextU8Size : code.plaintextU8Size = (inputBitCount + 7) / 8
  plaintextBlkSize : code.plaintextBlkSize = if stride = 4 then 1 else 2
  plaintextBytes : (inputBitCount + 7) / 8 ≤ 16 * code.plaintextBlkSize
  codewordBytes : (inputBitCount + 7) / 8 ≤ code.codewordU8Size
  fourBlocks : stride = 4 ↔ inputBitCount ≤ 128
  generators : roundUpTo code.mCodewordBitSize 128 = stride * 128
  positive : 0 < inputBitCount
  itemBytes : 9 * stride ≤ 4 * ((inputBitCount + 7) / 8)

theorem shape : Shape inputBitCount width.stride (width.code mx) := by
  have cases := mxHeaderCases width.listed
  obtain ⟨mGSize, codewordBits, listed⟩ := width
  simp only [List.mem_cons, Prod.mk.injEq, List.not_mem_nil, or_false] at cases
  rcases cases with h | h | h | h | h | h | h | h | h | h | h | h | h | h | h | h <;>
    obtain ⟨rfl, rfl, rfl⟩ := h <;>
    constructor <;>
    simp [stride, code, LinearCode.codewordBlkSize, LinearCode.plaintextU8Size, LinearCode.plaintextBlkSize,
      LinearCode.plaintextBitSize, LinearCode.codewordU8Size, roundUpTo]

include width in
theorem inputBytes : (inputBitCount + 7) % 2 ^ 64 / 8 = (inputBitCount + 7) / 8 := by
  have cases := mxHeaderCases width.listed
  simp only [List.mem_cons, Prod.mk.injEq, List.not_mem_nil, or_false] at cases
  omega

def semiHonest : Supported 65 := ⟨260, 448, rfl⟩

def malicious : Supported 132 := ⟨660, 583, rfl⟩

end Supported
end PaxosPsi
