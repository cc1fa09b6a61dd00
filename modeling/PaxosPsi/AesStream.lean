import PaxosPsi.Aes
import PaxosPsi.PrtyMOtSender

/-! The functions of `AES` that encrypt many blocks, and the generator that reads the
counter mode. What a generator returns is the next stretch of one stream of bytes, however
the reads are split, and no two blocks of the stream are equal. -/
namespace PaxosPsi
open CountedLoop XorAlgebra Memory

section Together

/-- The rounds before the last over `n` blocks at once, round by round. -/
def roundsTogether (n : Nat) (keys : Nat → AES) (start temp : Blocks) : Blocks :=
  let temp := forLoop n (fun i temp => Function.update temp i (start i ^^^ (keys i).mRoundKey 0)) temp
  forLoop 9 (fun r temp => forLoop n
    (fun i temp => Function.update temp i (aesenc_si128 (temp i) ((keys i).mRoundKey (r + 1)))) temp) temp

def encTogether (n : Nat) (keys : Nat → AES) (plaintexts cyphertext : Blocks) : Blocks :=
  let cyphertext := roundsTogether n keys plaintexts cyphertext
  forLoop n (fun i cyphertext =>
    Function.update cyphertext i (aesenclast_si128 (cyphertext i) ((keys i).mRoundKey 10))) cyphertext

end Together

namespace AES
variable (aes : AES)

def ecbEncTwoBlocks : Blocks → Blocks → Blocks := encTogether 2 fun _ => aes

def ecbEncFourBlocks : Blocks → Blocks → Blocks := encTogether 4 fun _ => aes

def ecbEnc16Blocks : Blocks → Blocks → Blocks := encTogether 16 fun _ => aes

def encEight (start temp : Blocks) (idx : Nat) (cyphertext : Blocks) : Blocks :=
  let temp := roundsTogether 8 (fun _ => aes) start temp
  forLoop 8 (fun i cyphertext =>
    Function.update cyphertext (idx + i) (aesenclast_si128 (temp i) (aes.mRoundKey 10))) cyphertext

def ecbEncBlocks (stack plaintexts : Blocks) (blockLength : Nat) (cyphertext : Blocks) : Blocks :=
  let length := blockLength - blockLength % 8
  let cyphertext := forLoop (length / 8)
    (fun g => aes.encEight (fun i => plaintexts (8 * g + i)) stack (8 * g)) cyphertext
  forLoop (blockLength - length) (fun i cyphertext =>
    Function.update cyphertext (length + i) (aes.ecbEncBlock (plaintexts (length + i)))) cyphertext

/-- `idx` and `length` are `i32` here, so a length from `2 ^ 31` on is cast to a negative one. -/
def ecbEncCounterMode (stack : Blocks) (baseIdx : BitVec 64) (blockLength : Nat) (cyphertext : Blocks) : Blocks :=
  let length := i32 (blockLength - blockLength % 8)
  let s := forLoop ((length + 7) / 8).toNat (fun g (s : BitVec 64 × Blocks) =>
      (s.1 + 8, aes.encEight (fun i => set1_epi64x (s.1 + BitVec.ofNat 64 i)) stack (8 * g) s.2))
    (baseIdx, cyphertext)
  let idx := 8 * ((length + 7) / 8).toNat
  (forLoop (blockLength - idx) (fun i (s : BitVec 64 × Blocks) =>
    (s.1 + 1, Function.update s.2 (idx + i) (aes.ecbEncBlock (set1_epi64x s.1)))) s).2

/-- The block the counter mode makes of a counter. -/
def counterBlock (c : BitVec 64) : Block := aes.ecbEncBlock (set1_epi64x c)

end AES

/-- The AES every generator keys with its seed. -/
def aesNi : Aes := fun seed => (AES.setKey seed ⟨fun _ => 0#128⟩).counterBlock

/-- `MultiKeyAES<N>`. -/
structure MultiKeyAES where
  mAESs : Nat → AES

namespace MultiKeyAES

def setKeys (n : Nat) (keys : Blocks) (multi : MultiKeyAES) : MultiKeyAES :=
  ⟨forLoop n (fun i mAESs => Function.update mAESs i ((mAESs i).setKey (keys i))) multi.mAESs⟩

def ecbEncNBlocks (n : Nat) (multi : MultiKeyAES) : Blocks → Blocks → Blocks := encTogether n multi.mAESs

end MultiKeyAES

section Blocks

theorem roundsTogetherAt (n : Nat) (keys : Nat → AES) (start temp : Blocks) (a : Nat) :
    roundsTogether n keys start temp a = if a < n then
      forLoop 9 (fun r cyphertext => aesenc_si128 cyphertext ((keys a).mRoundKey (r + 1)))
        (start a ^^^ (keys a).mRoundKey 0) else temp a := by
  have rounds : ∀ m (t : Blocks), forLoop m (fun r temp => forLoop n (fun i temp =>
      Function.update temp i (aesenc_si128 (temp i) ((keys i).mRoundKey (r + 1)))) temp) t a =
      if a < n then forLoop m (fun r cyphertext => aesenc_si128 cyphertext ((keys a).mRoundKey (r + 1))) (t a)
      else t a := by
    intro m t
    induction m with
    | zero => exact (ite_self _).symm
    | succ m ih =>
      rw [forLoopSucc, forLoopUpdate n (fun i c => aesenc_si128 c ((keys i).mRoundKey (m + 1))), ih, forLoopSucc]
      split <;> rfl
  unfold roundsTogether
  rw [rounds, forLoopUpdate n (fun i _ => start i ^^^ (keys i).mRoundKey 0)]
  split <;> rfl

theorem encTogetherAt (n : Nat) (keys : Nat → AES) (plaintexts cyphertext : Blocks) (a : Nat) :
    encTogether n keys plaintexts cyphertext a =
      if a < n then (keys a).ecbEncBlock (plaintexts a) else cyphertext a := by
  unfold encTogether
  rw [forLoopUpdate n (fun i c => aesenclast_si128 c ((keys i).mRoundKey 10)), roundsTogetherAt]
  split <;> rfl

theorem AES.encEightAt (aes : AES) (start stack : Blocks) (idx : Nat) (cyphertext : Blocks) (a : Nat) :
    aes.encEight start stack idx cyphertext a =
      if idx ≤ a ∧ a < idx + 8 then aes.ecbEncBlock (start (a - idx)) else cyphertext a := by
  refine (updateSpan cyphertext idx 8 _).trans ?_
  by_cases inside : idx ≤ a ∧ a < idx + 8
  · rw [if_pos inside, if_pos inside, roundsTogetherAt, if_pos (by omega)]
    rfl
  · rw [if_neg inside, if_neg inside]

theorem AES.encEights (aes : AES) (start : Nat → Blocks) (stack cyphertext : Blocks) (plaintexts : Blocks)
    (same : ∀ g i, i < 8 → start g i = plaintexts (8 * g + i)) (n a : Nat) :
    forLoop n (fun g => aes.encEight (start g) stack (8 * g)) cyphertext a =
      if a < 8 * n then aes.ecbEncBlock (plaintexts a) else cyphertext a := by
  induction n with
  | zero => exact (if_neg (by omega)).symm
  | succ n ih =>
    rw [forLoopSucc, encEightAt, ih]
    by_cases last : 8 * n ≤ a ∧ a < 8 * n + 8
    · have whole : 8 * n + (a - 8 * n) = a := by omega
      rw [if_pos last, if_pos (by omega), same n _ (by omega), whole]
    · rw [if_neg last]
      congr 1
      exact propext (by omega)

theorem AES.ecbEncBlocksAt (aes : AES) (stack plaintexts : Blocks) (blockLength : Nat) (cyphertext : Blocks) (a : Nat) :
    aes.ecbEncBlocks stack plaintexts blockLength cyphertext a =
      if a < blockLength then aes.ecbEncBlock (plaintexts a) else cyphertext a := by
  unfold ecbEncBlocks
  refine (updateSpan _ _ _ (fun i => aes.ecbEncBlock (plaintexts (blockLength - blockLength % 8 + i)))).trans ?_
  rw [aes.encEights _ stack cyphertext plaintexts fun _ _ _ => rfl]
  by_cases tail : blockLength - blockLength % 8 ≤ a ∧
      a < blockLength - blockLength % 8 + (blockLength - (blockLength - blockLength % 8))
  · have whole : blockLength - blockLength % 8 + (a - (blockLength - blockLength % 8)) = a := by omega
    rw [if_pos tail, if_pos (by omega), whole]
  · rw [if_neg tail]
    congr 1
    exact propext (by omega)

theorem AES.counterGroups (aes : AES) (stack : Blocks) (baseIdx : BitVec 64) (cyphertext : Blocks) (n : Nat) :
    let s := forLoop n (fun g (s : BitVec 64 × Blocks) =>
      (s.1 + 8, aes.encEight (fun i => set1_epi64x (s.1 + BitVec.ofNat 64 i)) stack (8 * g) s.2)) (baseIdx, cyphertext)
    s.1 = baseIdx + BitVec.ofNat 64 (8 * n) ∧ ∀ a, s.2 a =
      if a < 8 * n then aes.counterBlock (baseIdx + BitVec.ofNat 64 a) else cyphertext a := by
  induction n with
  | zero => exact ⟨by simp, fun a => (if_neg (Nat.not_lt_zero a)).symm⟩
  | succ n ih =>
    obtain ⟨counter, blocks⟩ := ih
    refine ⟨?_, fun a => ?_⟩
    · rw [forLoopSucc]
      dsimp only
      rw [counter, Nat.mul_succ, BitVec.ofNat_add, BitVec.add_assoc]
      rfl
    · rw [forLoopSucc]
      dsimp only
      rw [encEightAt, counter, blocks]
      by_cases last : 8 * n ≤ a ∧ a < 8 * n + 8
      · have whole : 8 * n + (a - 8 * n) = a := by omega
        rw [if_pos last, if_pos (by omega), BitVec.add_assoc, ← BitVec.ofNat_add, whole]
        rfl
      · rw [if_neg last]
        congr 1
        exact propext (by omega)

theorem AES.counterRest (aes : AES) (counter : BitVec 64) (idx : Nat) (cyphertext : Blocks) (n : Nat) :
    let s := forLoop n (fun i (s : BitVec 64 × Blocks) =>
      (s.1 + 1, Function.update s.2 (idx + i) (aes.ecbEncBlock (set1_epi64x s.1)))) (counter, cyphertext)
    s.1 = counter + BitVec.ofNat 64 n ∧ ∀ a, s.2 a = if idx ≤ a ∧ a < idx + n then
      aes.counterBlock (counter + BitVec.ofNat 64 (a - idx)) else cyphertext a := by
  induction n with
  | zero => exact ⟨by simp, fun a => (if_neg (by omega)).symm⟩
  | succ n ih =>
    obtain ⟨reached, blocks⟩ := ih
    refine ⟨?_, fun a => ?_⟩
    · rw [forLoopSucc]
      dsimp only
      rw [reached, BitVec.ofNat_add, BitVec.add_assoc]
      rfl
    · rw [forLoopSucc]
      dsimp only
      by_cases last : a = idx + n
      · subst last
        rw [Function.update_self, reached, if_pos (by omega), Nat.add_sub_cancel_left]
        rfl
      · rw [Function.update_of_ne last, blocks]
        congr 1
        exact propext (by omega)

theorem AES.ecbEncCounterModeAt (aes : AES) (stack : Blocks) (baseIdx : BitVec 64) {blockLength : Nat}
    (small : blockLength < 2 ^ 31) (cyphertext : Blocks) (a : Nat) :
    aes.ecbEncCounterMode stack baseIdx blockLength cyphertext a = if a < blockLength then
      aes.counterBlock (baseIdx + BitVec.ofNat 64 a) else cyphertext a := by
  have groups : ((i32 (blockLength - blockLength % 8) + 7) / 8).toNat = blockLength / 8 := by
    rw [i32Small (by omega)]
    omega
  obtain ⟨counter, blocks⟩ := aes.counterGroups stack baseIdx cyphertext (blockLength / 8)
  unfold ecbEncCounterMode
  rw [groups]
  have whole : ∀ s : BitVec 64 × Blocks, s = (s.1, s.2) := fun _ => rfl
  rw [whole (forLoop (blockLength / 8) _ _), counter, (aes.counterRest _ _ _ _).2, blocks]
  by_cases rest : 8 * (blockLength / 8) ≤ a ∧ a < 8 * (blockLength / 8) + (blockLength - 8 * (blockLength / 8))
  · have split : 8 * (blockLength / 8) + (a - 8 * (blockLength / 8)) = a := by omega
    rw [if_pos rest, if_pos (by omega), BitVec.add_assoc, ← BitVec.ofNat_add, split]
  · rw [if_neg rest]
    by_cases inside : a < blockLength
    · rw [if_pos inside, if_pos (by omega)]
    · rw [if_neg inside, if_neg (by omega)]

/-- The functions for many blocks write what `ecbEncBlock` makes of each and nothing else. -/
theorem AES.bulkEncrypts (aes : AES) (multi : MultiKeyAES) (stack plaintexts cyphertext : Blocks) :
    (∀ blockLength, aes.ecbEncBlocks stack plaintexts blockLength cyphertext =
      fun a => if a < blockLength then aes.ecbEncBlock (plaintexts a) else cyphertext a) ∧
    (aes.ecbEncTwoBlocks plaintexts cyphertext =
      fun a => if a < 2 then aes.ecbEncBlock (plaintexts a) else cyphertext a) ∧
    (aes.ecbEncFourBlocks plaintexts cyphertext =
      fun a => if a < 4 then aes.ecbEncBlock (plaintexts a) else cyphertext a) ∧
    (aes.ecbEnc16Blocks plaintexts cyphertext =
      fun a => if a < 16 then aes.ecbEncBlock (plaintexts a) else cyphertext a) ∧
    (∀ n keys, (multi.setKeys n keys).ecbEncNBlocks n plaintexts cyphertext =
      fun a => if a < n then ((multi.mAESs a).setKey (keys a)).ecbEncBlock (plaintexts a) else cyphertext a) ∧
    ∀ baseIdx blockLength, blockLength < 2 ^ 31 → aes.ecbEncCounterMode stack baseIdx blockLength cyphertext =
      fun a => if a < blockLength then PaxosPsi.ecbEncCounterMode aes.counterBlock baseIdx a else cyphertext a := by
  refine ⟨fun blockLength => funext (aes.ecbEncBlocksAt stack plaintexts blockLength cyphertext),
    funext (encTogetherAt 2 _ plaintexts cyphertext), funext (encTogetherAt 4 _ plaintexts cyphertext),
    funext (encTogetherAt 16 _ plaintexts cyphertext), fun n keys => funext fun a => ?_,
    fun baseIdx blockLength small => funext (aes.ecbEncCounterModeAt stack baseIdx small cyphertext)⟩
  refine (encTogetherAt n _ plaintexts cyphertext a).trans ?_
  by_cases inside : a < n
  · have key : (multi.setKeys n keys).mAESs a = (multi.mAESs a).setKey (keys a) :=
      (forLoopUpdate n (fun i (aes : AES) => aes.setKey (keys i)) multi.mAESs a).trans (if_pos inside)
    rw [if_pos inside, if_pos inside, key]
  · rw [if_neg inside, if_neg inside]

theorem AES.bufferEncrypted :
    AES.ecbEncCounterMode ⟨fun _ => 0#128⟩ (fun _ => 0#128) 0 256 (fun _ => 0#128) =
      fun a => if a < 256 then PaxosPsi.ecbEncCounterMode (AES.counterBlock ⟨fun _ => 0#128⟩) 0 a else 0#128 :=
  (AES.bulkEncrypts ⟨fun _ => 0#128⟩ ⟨fun _ => ⟨fun _ => 0#128⟩⟩ (fun _ => 0#128) (fun _ => 0#128)
    fun _ => 0#128).2.2.2.2.2 0 256 (by decide)

end Blocks

section Injective

theorem AES.encryptsApart {userKey a b : Block} {aes : AES}
    (same : (aes.setKey userKey).ecbEncBlock a = (aes.setKey userKey).ecbEncBlock b) : a = b := by
  have back := AESDec.decryptsBlock userKey b aes ⟨fun _ => 0#128⟩
  rwa [← same, AESDec.decryptsBlock] at back

theorem aesNiInjective (seed : Block) : Function.Injective (aesNi seed) := by
  intro c c' same
  have low : ∀ c, (set1_epi64x c).setWidth 64 = c := by
    intro c
    apply BitVec.eq_of_getLsbD_eq
    intro k bound
    rw [BitVec.getLsbD_setWidth, set1_epi64x, BitVec.getLsbD_append, if_pos bound, decide_eq_true bound, Bool.true_and]
  rw [← low c, ← low c', AES.encryptsApart same]

end Injective

namespace PRNG

/-- The bytes a freshly seeded generator returns, however they are asked for. -/
def stream (mAes : BitVec 64 → Block) : Bytes := bytesOf fun t => mAes (BitVec.ofNat 64 t)

/-- One `get` after the other. -/
def readAll : List Nat → PRNG → Except Error (List (List Byte) × PRNG)
  | [], prng => .ok ([], prng)
  | lengthu8 :: lengths, prng => do
    let (bytes, prng) ← prng.get lengthu8
    let (rest, prng) ← readAll lengths prng
    pure (bytes :: rest, prng)

/-- The buffer holds the 4096 bytes of the stream around the position, the counter the next. -/
structure Reading (mAes : BitVec 64 → Block) (position : Nat) (prng : PRNG) : Prop where
  key : prng.mAes = mAes
  filled : prng.mBufferSize = 256
  buffer : prng.mBuffer = ecbEncCounterMode mAes (BitVec.ofNat 64 (256 * (position / 4096)))
  bytesIdx : prng.mBytesIdx = position % 4096
  blockIdx : prng.mBlockIdx = BitVec.ofNat 64 (256 * (position / 4096 + 1))

section Reads
variable {mAes : BitVec 64 → Block} {position : Nat} {prng : PRNG}

theorem readingSeeded (aes : Aes) (seed : Block) (prng : PRNG) : Reading (aes seed) 0 (prng.setSeed aes seed) := by
  rw [setSeedFresh]
  exact ⟨rfl, rfl, rfl, rfl, rfl⟩

theorem Reading.capacity (reading : Reading mAes position prng) : prng.mBufferByteCapacity = 4096 := by
  unfold mBufferByteCapacity
  rw [reading.filled]

theorem Reading.byte (reading : Reading mAes position prng) (k : Nat) :
    bytesOf prng.mBuffer (prng.mBytesIdx + k) = stream mAes (position + k) := by
  have block : 256 * (position / 4096) + (position % 4096 + k) / 16 = (position + k) / 16 := by omega
  have byte : (position % 4096 + k) % 16 = (position + k) % 16 := by omega
  unfold stream bytesOf
  rw [reading.buffer, reading.bytesIdx, byte]
  unfold ecbEncCounterMode
  rw [← BitVec.ofNat_add, block]

theorem Reading.step (reading : Reading mAes position prng) {step : Nat} (inside : position % 4096 + step ≤ 4096) :
    ∃ next, prng.getStep step = .ok next ∧ Reading mAes (position + step) next := by
  have capacity := reading.capacity
  obtain ⟨key, filled, buffer, bytesIdx, blockIdx⟩ := reading
  unfold getStep
  by_cases unread : prng.mBytesIdx + step < prng.mBufferByteCapacity
  · rw [dif_pos unread]
    rw [bytesIdx, capacity] at unread
    have same : (position + step) / 4096 = position / 4096 := by omega
    refine ⟨_, rfl, key, filled, by rw [same]; exact buffer, ?_, by rw [same]; exact blockIdx⟩
    dsimp only
    omega
  · rw [dif_neg unread]
    rw [bytesIdx, capacity] at unread
    have next : (position + step) / 4096 = position / 4096 + 1 := by omega
    have start : (position + step) % 4096 = 0 := by omega
    have keyed : prng.mBufferSize ≠ 0 := by omega
    unfold refillBuffer
    rw [dif_neg keyed]
    refine ⟨_, rfl, key, filled, ?_, start.symm, ?_⟩
    · rw [next, ← blockIdx, ← key]
    · rw [next]
      dsimp only
      rw [blockIdx, filled, ← BitVec.ofNat_add, ← Nat.mul_succ]

theorem Reading.loop (reading : Reading mAes position prng) {fuel lengthu8 : Nat} (enough : lengthu8 ≤ fuel)
    (destu8 : List Byte) : ∃ next, getLoop fuel prng lengthu8 destu8 =
        .ok (destu8 ++ (List.range lengthu8).map fun k => stream mAes (position + k), next) ∧
      Reading mAes (position + lengthu8) next := by
  induction fuel generalizing prng position lengthu8 destu8 with
  | zero =>
    obtain rfl : lengthu8 = 0 := by omega
    exact ⟨prng, by rw [getLoop, List.range_zero, List.map_nil, List.append_nil], reading⟩
  | succ fuel ih =>
    rw [getLoop]
    split
    · rename_i done
      subst done
      exact ⟨prng, by rw [List.range_zero, List.map_nil, List.append_nil], reading⟩
    · obtain ⟨step, sized⟩ : ∃ step, min lengthu8 (prng.mBufferByteCapacity - prng.mBytesIdx) = step := ⟨_, rfl⟩
      have room : position % 4096 + step ≤ 4096 ∧ step ≤ lengthu8 ∧ 0 < step := by
        rw [reading.capacity, reading.bytesIdx] at sized
        omega
      obtain ⟨next, stepped, moved⟩ := reading.step room.1
      have copied : (List.range step).map (fun k => bytesOf prng.mBuffer (prng.mBytesIdx + k)) =
          (List.range step).map fun k => stream mAes (position + k) :=
        List.map_congr_left fun k _ => reading.byte k
      have less : lengthu8 - step ≤ fuel := by omega
      obtain ⟨last, looped, reached⟩ := ih moved less
        (destu8 ++ (List.range step).map fun k => stream mAes (position + k))
      have all : step + (lengthu8 - step) = lengthu8 := by omega
      refine ⟨last, ?_, by rwa [Nat.add_assoc, all] at reached⟩
      simp only [sized, copied, bind, Except.bind, stepped]
      rw [looped, List.append_assoc]
      conv_rhs => rw [← all, List.range_add, List.map_append, List.map_map]
      simp only [Function.comp_def, Nat.add_assoc]

/-- Whatever lengths are asked for in turn, a seeded generator returns the consecutive
stretches of one stream. -/
theorem readsStream (aes : Aes) (seed : Block) (prng : PRNG) (lengths : List Nat) :
    ∃ outs next, readAll lengths (prng.setSeed aes seed) = .ok (outs, next) ∧ outs.map List.length = lengths ∧
      outs.flatten = (List.range lengths.sum).map (stream (aes seed)) := by
  have reads : ∀ {position : Nat} {prng : PRNG}, Reading (aes seed) position prng →
      ∃ outs next, readAll lengths prng = .ok (outs, next) ∧ outs.map List.length = lengths ∧
        outs.flatten = (List.range lengths.sum).map fun k => stream (aes seed) (position + k) := by
    induction lengths with
    | nil => exact fun _ => ⟨[], _, rfl, rfl, rfl⟩
    | cons lengthu8 lengths ih =>
      intro position prng reading
      obtain ⟨next, got, moved⟩ := reading.loop (Nat.le_refl lengthu8) []
      obtain ⟨outs, last, ran, sizes, whole⟩ := ih moved
      rw [List.nil_append] at got
      refine ⟨(List.range lengthu8).map (fun k => stream (aes seed) (position + k)) :: outs, last, ?_, ?_, ?_⟩
      · unfold readAll PRNG.get
        rw [got]
        simp only [bind, Except.bind, ran, pure, Except.pure]
      · rw [List.map_cons, sizes, List.length_map, List.length_range]
      · rw [List.flatten_cons, whole, List.sum_cons, List.range_add, List.map_append, List.map_map]
        simp only [Function.comp_def, Nat.add_assoc]
  obtain ⟨outs, next, ran, sizes, whole⟩ := reads (readingSeeded aes seed prng)
  refine ⟨outs, next, ran, sizes, whole.trans ?_⟩
  simp only [Nat.zero_add]

end Reads
end PRNG
end PaxosPsi
