import PaxosPsi.Prng
import PaxosPsi.Library.Rijndael

/-! The AES classes of cryptoTools. Decryption runs on inverted round keys, so it undoes
encryption round by round; the functions that interleave several blocks encrypt each of
them as `ecbEncBlock` does. -/
namespace PaxosPsi
open CountedLoop XorAlgebra Memory Rijndael

section Intrinsics

def aesenc_si128 (a RoundKey : Block) : Block := pack (mixColumns (subBytes (shiftRows (bytes a)))) ^^^ RoundKey

def aesenclast_si128 (a RoundKey : Block) : Block := pack (subBytes (shiftRows (bytes a))) ^^^ RoundKey

def aesdec_si128 (a RoundKey : Block) : Block :=
  pack (invMixColumns (invSubBytes (invShiftRows (bytes a)))) ^^^ RoundKey

def aesdeclast_si128 (a RoundKey : Block) : Block := pack (invSubBytes (invShiftRows (bytes a))) ^^^ RoundKey

def aesimc_si128 (a : Block) : Block := pack (invMixColumns (bytes a))

def subWord (x : BitVec 32) : BitVec 32 :=
  sbox (x.extractLsb' 24 8) ++ sbox (x.extractLsb' 16 8) ++ sbox (x.extractLsb' 8 8) ++ sbox (x.extractLsb' 0 8)

def aeskeygenassist_si128 (a : Block) (imm8 : Byte) : Block :=
  let x1 := subWord (a.extractLsb' 32 32)
  let x3 := subWord (a.extractLsb' 96 32)
  (x3.rotateRight 8 ^^^ imm8.setWidth 32) ++ x3 ++ (x1.rotateRight 8 ^^^ imm8.setWidth 32) ++ x1

def shuffle_epi32 (a : Block) (z y x w : Nat) : Block :=
  a.extractLsb' (32 * z) 32 ++ a.extractLsb' (32 * y) 32 ++ a.extractLsb' (32 * x) 32 ++ a.extractLsb' (32 * w) 32

def slli_si128 (a : Block) (imm8 : Nat) : Block := a <<< (8 * imm8)

def set1_epi64x (a : BitVec 64) : Block := a ++ a

end Intrinsics

def keyGenHelper (key keyRcon : Block) : Block :=
  let keyRcon := shuffle_epi32 keyRcon 3 3 3 3
  let key := key ^^^ slli_si128 key 4
  let key := key ^^^ slli_si128 key 4
  let key := key ^^^ slli_si128 key 4
  key ^^^ keyRcon

def roundConstants : List Byte :=
  [0x01#8, 0x02#8, 0x04#8, 0x08#8, 0x10#8, 0x20#8, 0x40#8, 0x80#8, 0x1B#8, 0x36#8]

def nextRoundKey (i : Nat) (key : Block) : Block :=
  keyGenHelper key (aeskeygenassist_si128 key (roundConstants.getD i 0#8))

/-- Both `setKey` start with these ten lines. -/
def expandKey (mRoundKey : Blocks) : Blocks :=
  forLoop 10 (fun i keys => Function.update keys (i + 1) (nextRoundKey i (keys i))) mRoundKey

structure AES where
  mRoundKey : Blocks

structure AESDec where
  mRoundKey : Blocks

namespace AES

def setKey (userKey : Block) (aes : AES) : AES := ⟨expandKey (Function.update aes.mRoundKey 0 userKey)⟩

variable (aes : AES)

def ecbEncBlock (plaintext : Block) : Block :=
  let cyphertext := forLoop 9 (fun i cyphertext => aesenc_si128 cyphertext (aes.mRoundKey (i + 1)))
    (plaintext ^^^ aes.mRoundKey 0)
  aesenclast_si128 cyphertext (aes.mRoundKey 10)

end AES

namespace AESDec

def setKey (userKey : Block) (dec : AESDec) : AESDec :=
  let v := expandKey fun _ => userKey
  let keys := Function.update dec.mRoundKey 0 (v 10)
  let keys := forLoop 9 (fun i keys => Function.update keys (i + 1) (aesimc_si128 (v (9 - i)))) keys
  ⟨Function.update keys 10 (v 0)⟩

def ecbDecBlock (dec : AESDec) (cyphertext : Block) : Block :=
  let plaintext := forLoop 9 (fun i plaintext => aesdec_si128 plaintext (dec.mRoundKey (i + 1)))
    (cyphertext ^^^ dec.mRoundKey 0)
  aesdeclast_si128 plaintext (dec.mRoundKey 10)

end AESDec

section Rounds

/-- A round before its columns are mixed. -/
def substituted (a : Block) : Block := pack (subBytes (shiftRows (bytes a)))

theorem substitutedBack (a : Block) : pack (invSubBytes (invShiftRows (bytes (substituted a)))) = a := by
  have commutes : ∀ s : State, invSubBytes (invShiftRows s) = invShiftRows (invSubBytes s) := fun _ => rfl
  unfold substituted
  rw [bytesPack, commutes, invSubBytesSub, invShiftRowsShift, packBytes]

theorem roundInverted (a key : Block) :
    aesdec_si128 (substituted (aesenc_si128 a key)) (aesimc_si128 key) = substituted a := by
  have mixed : bytes (aesenc_si128 a key) =
      fun c r => mixColumns (subBytes (shiftRows (bytes a))) c r ^^^ bytes key c r := by
    unfold aesenc_si128
    rw [bytesXor, bytesPack]
  have unmixed : invMixColumns (bytes (aesenc_si128 a key)) =
      fun c r => subBytes (shiftRows (bytes a)) c r ^^^ invMixColumns (bytes key) c r := by
    funext c r
    rw [mixed, invMixColumnsXor, invMixColumnsMix]
  have back := congrArg bytes (substitutedBack (aesenc_si128 a key))
  rw [bytesPack] at back
  unfold aesdec_si128 aesimc_si128
  rw [back, unmixed, packXor, BitVec.xor_assoc, BitVec.xor_self, BitVec.xor_zero]
  rfl

theorem lastInverted (a key : Block) : aesdeclast_si128 (substituted a) key = a ^^^ key := by
  unfold aesdeclast_si128
  rw [substitutedBack]

def roundKey (userKey : Block) : Nat → Block
  | 0 => userKey
  | i + 1 => nextRoundKey i (roundKey userKey i)

theorem expandedKey (mRoundKey : Blocks) {i : Nat} (inside : i ≤ 10) :
    expandKey mRoundKey i = roundKey (mRoundKey 0) i := by
  have keys := forLoopInvariant (n := 10) (f := fun i keys => Function.update keys (i + 1) (nextRoundKey i (keys i)))
    (s := mRoundKey) (fun n keys => ∀ i ≤ n, keys i = roundKey (mRoundKey 0) i)
    (fun i none => by obtain rfl : i = 0 := by omega
                      rfl)
    (fun n keys _ below i reached => by
      by_cases last : i = n + 1
      · subst last
        rw [Function.update_self, below n (Nat.le_refl n)]
        rfl
      · rw [Function.update_of_ne last]
        exact below i (by omega))
  exact keys i inside

theorem AES.keySet (userKey : Block) (aes : AES) {i : Nat} (inside : i ≤ 10) :
    (aes.setKey userKey).mRoundKey i = roundKey userKey i := by
  refine (expandedKey _ inside).trans ?_
  rw [Function.update_self]

theorem AESDec.keySet (userKey : Block) (dec : AESDec) {i : Nat} (inside : i ≤ 10) :
    (dec.setKey userKey).mRoundKey i =
      if i = 0 then roundKey userKey 10 else if i = 10 then userKey else aesimc_si128 (roundKey userKey (10 - i)) := by
  have v : ∀ i ≤ 10, expandKey (fun _ => userKey) i = roundKey userKey i := fun i inside => expandedKey _ inside
  have middle := updateSpan (Function.update dec.mRoundKey 0 (expandKey (fun _ => userKey) 10)) 1 9
    (fun i => aesimc_si128 (expandKey (fun _ => userKey) (9 - i))) (a := i)
  simp only [Nat.add_comm 1] at middle
  unfold setKey
  dsimp only
  by_cases last : i = 10
  · subst last
    rw [Function.update_self, if_neg (by omega), if_pos rfl]
    exact v 0 (by omega)
  · rw [Function.update_of_ne last, middle]
    by_cases first : i = 0
    · subst first
      rw [if_neg (by omega), if_pos rfl, Function.update_self]
      exact v 10 (by omega)
    · have row : 9 - (i - 1) = 10 - i := by omega
      rw [if_pos (by omega), if_neg first, if_neg last, row, v _ (by omega)]

theorem AESDec.decryptsBlock (userKey plaintext : Block) (aes : AES) (dec : AESDec) :
    (dec.setKey userKey).ecbDecBlock ((aes.setKey userKey).ecbEncBlock plaintext) = plaintext := by
  let state : Nat → Block := fun i => forLoop i (fun i cyphertext =>
    aesenc_si128 cyphertext ((aes.setKey userKey).mRoundKey (i + 1))) (plaintext ^^^ (aes.setKey userKey).mRoundKey 0)
  have start : (aes.setKey userKey).ecbEncBlock plaintext ^^^ (dec.setKey userKey).mRoundKey 0 =
      substituted (state 9) := by
    rw [AESDec.keySet userKey dec (by omega), if_pos rfl]
    unfold AES.ecbEncBlock aesenclast_si128
    dsimp only
    rw [AES.keySet userKey aes (Nat.le_refl 10), BitVec.xor_assoc, BitVec.xor_self, BitVec.xor_zero]
    rfl
  have rounds := forLoopInvariant (n := 9)
    (f := fun i plaintext => aesdec_si128 plaintext ((dec.setKey userKey).mRoundKey (i + 1)))
    (s := (aes.setKey userKey).ecbEncBlock plaintext ^^^ (dec.setKey userKey).mRoundKey 0)
    (fun i undone => undone = substituted (state (9 - i))) start
    (fun i undone inside reached => by
      have round : 9 - i = 9 - (i + 1) + 1 := by omega
      have same : 10 - (i + 1) = 9 - (i + 1) + 1 := by omega
      have key : (dec.setKey userKey).mRoundKey (i + 1) =
          aesimc_si128 ((aes.setKey userKey).mRoundKey (9 - (i + 1) + 1)) := by
        rw [AESDec.keySet userKey dec (by omega), if_neg (by omega), if_neg (by omega),
          AES.keySet userKey aes (by omega), same]
      rw [reached, key, round]
      exact roundInverted (state (9 - (i + 1))) _)
  unfold AESDec.ecbDecBlock
  dsimp only
  rw [rounds, AESDec.keySet userKey dec (Nat.le_refl 10), if_neg (by omega), if_pos rfl, lastInverted]
  have first : state 0 = plaintext ^^^ userKey := by
    change plaintext ^^^ (aes.setKey userKey).mRoundKey 0 = _
    rw [AES.keySet userKey aes (by omega)]
    rfl
  rw [Nat.sub_self, first, BitVec.xor_assoc, BitVec.xor_self, BitVec.xor_zero]

/-- Keyed alike, whatever they held, the two instances undo each other. -/
theorem AESDec.inverts (userKey : Block) (aes : AES) (dec : AESDec) :
    (∀ plaintext, (dec.setKey userKey).ecbDecBlock ((aes.setKey userKey).ecbEncBlock plaintext) = plaintext) ∧
    ∀ cyphertext, (aes.setKey userKey).ecbEncBlock ((dec.setKey userKey).ecbDecBlock cyphertext) = cyphertext := by
  have back := fun plaintext => AESDec.decryptsBlock userKey plaintext aes dec
  refine ⟨back, fun cyphertext => ?_⟩
  obtain ⟨plaintext, rfl⟩ := Finite.surjective_of_injective (Function.LeftInverse.injective back) cyphertext
  rw [back]

example : aesenc_si128 0x0848f8e92a8dc69a2be2f4a0bee33d19#128 0x05766c2a3939a323b12c548817fefaa0#128 =
    0x49506a0243ea5b6b2b359f68f27f9ca4#128 := by decide +kernel

example : nextRoundKey 0 0x3c4fcf098815f7aba6d2ae2816157e2b#128 = 0x05766c2a3939a323b12c548817fefaa0#128 := by
  decide +kernel

end Rounds
end PaxosPsi
