import PaxosPsi.Hashing
import PaxosPsi.Memory
import PaxosPsi.Library.WordMixing

/-! `XXH64`, in which the tail is hashed by a loop or by an unrolled switch, and `Hasher`,
which hashes the eight bytes of a key. Every step on eight bytes can be undone, so a seed
permutes the keys. -/
namespace PaxosPsi
open CountedLoop Memory WordMixing

abbrev U64 := BitVec 64

def PRIME64_1 : U64 := 11400714785074694791#64

def PRIME64_2 : U64 := 14029467366897019727#64

def PRIME64_3 : U64 := 1609587929392839161#64

def PRIME64_4 : U64 := 9650029242287828579#64

def PRIME64_5 : U64 := 2870177450012600261#64

def XXH_rotl64 (x : U64) (r : Nat) : U64 := (x <<< r) ||| (x >>> (64 - r))

def XXH64_round (acc input : U64) : U64 :=
  let acc := acc + input * PRIME64_2
  let acc := XXH_rotl64 acc 31
  acc * PRIME64_1

def XXH64_mergeRound (acc val : U64) : U64 :=
  let val := XXH64_round 0 val
  let acc := acc ^^^ val
  acc * PRIME64_1 + PRIME64_4

def XXH64_avalanche (h64 : U64) : U64 :=
  let h64 := h64 ^^^ h64 >>> 33
  let h64 := h64 * PRIME64_2
  let h64 := h64 ^^^ h64 >>> 29
  let h64 := h64 * PRIME64_3
  h64 ^^^ h64 >>> 32

/-- The next bytes, the first of them the low one. -/
def readLE (n : Nat) (input : Bytes) (p : Nat) : BitVec (8 * n) :=
  BitVec.ofFnLE fun k : Fin (8 * n) => (input (p + k / 8)).getLsbD (k % 8)

def XXH_get64bits (input : Bytes) (p : Nat) : U64 := readLE 8 input p

def XXH_get32bits (input : Bytes) (p : Nat) : BitVec 32 := readLE 4 input p

/-- The state of the tail: the hash so far and how far the input is read. -/
structure Tail where
  h64 : U64
  p : Nat

section Finalize
variable (input : Bytes)

def PROCESS1_64 (s : Tail) : Tail :=
  let h64 := s.h64 ^^^ (input s.p).setWidth 64 * PRIME64_5
  ⟨XXH_rotl64 h64 11 * PRIME64_1, s.p + 1⟩

def PROCESS4_64 (s : Tail) : Tail :=
  let h64 := s.h64 ^^^ (XXH_get32bits input s.p).setWidth 64 * PRIME64_1
  ⟨XXH_rotl64 h64 23 * PRIME64_2 + PRIME64_3, s.p + 4⟩

def PROCESS8_64 (s : Tail) : Tail :=
  let k1 := XXH64_round 0 (XXH_get64bits input s.p)
  let h64 := s.h64 ^^^ k1
  ⟨XXH_rotl64 h64 27 * PRIME64_1 + PRIME64_4, s.p + 8⟩

/-- The branch for `XXH_REROLL`. -/
def finalizeRerolled (s : Tail) (len : Nat) : U64 :=
  let len := len &&& 31
  let (s, len) := whileLoop len (fun (s : Tail × Nat) => 8 ≤ s.2) (fun s => (PROCESS8_64 input s.1, s.2 - 8)) (s, len)
  let (s, len) := if 4 ≤ len then (PROCESS4_64 input s, len - 4) else (s, len)
  let (s, _) := whileLoop len (fun (s : Tail × Nat) => 0 < s.2) (fun s => (PROCESS1_64 input s.1, s.2 - 1)) (s, len)
  XXH64_avalanche s.h64

/-- The branch with the `switch`, every case with those it falls through to. -/
def finalizeUnrolled (s : Tail) (len : Nat) : U64 :=
  let one := PROCESS1_64 input
  let four := PROCESS4_64 input
  let eight := PROCESS8_64 input
  match len &&& 31 with
  | 24 => XXH64_avalanche (eight (eight (eight s))).h64
  | 16 => XXH64_avalanche (eight (eight s)).h64
  | 8 => XXH64_avalanche (eight s).h64
  | 28 => XXH64_avalanche (four (eight (eight (eight s)))).h64
  | 20 => XXH64_avalanche (four (eight (eight s))).h64
  | 12 => XXH64_avalanche (four (eight s)).h64
  | 4 => XXH64_avalanche (four s).h64
  | 25 => XXH64_avalanche (one (eight (eight (eight s)))).h64
  | 17 => XXH64_avalanche (one (eight (eight s))).h64
  | 9 => XXH64_avalanche (one (eight s)).h64
  | 29 => XXH64_avalanche (one (four (eight (eight (eight s))))).h64
  | 21 => XXH64_avalanche (one (four (eight (eight s)))).h64
  | 13 => XXH64_avalanche (one (four (eight s))).h64
  | 5 => XXH64_avalanche (one (four s)).h64
  | 26 => XXH64_avalanche (one (one (eight (eight (eight s))))).h64
  | 18 => XXH64_avalanche (one (one (eight (eight s)))).h64
  | 10 => XXH64_avalanche (one (one (eight s))).h64
  | 30 => XXH64_avalanche (one (one (four (eight (eight (eight s)))))).h64
  | 22 => XXH64_avalanche (one (one (four (eight (eight s))))).h64
  | 14 => XXH64_avalanche (one (one (four (eight s)))).h64
  | 6 => XXH64_avalanche (one (one (four s))).h64
  | 27 => XXH64_avalanche (one (one (one (eight (eight (eight s)))))).h64
  | 19 => XXH64_avalanche (one (one (one (eight (eight s))))).h64
  | 11 => XXH64_avalanche (one (one (one (eight s)))).h64
  | 31 => XXH64_avalanche (one (one (one (four (eight (eight (eight s))))))).h64
  | 23 => XXH64_avalanche (one (one (one (four (eight (eight s)))))).h64
  | 15 => XXH64_avalanche (one (one (one (four (eight s))))).h64
  | 7 => XXH64_avalanche (one (one (one (four s)))).h64
  | 3 => XXH64_avalanche (one (one (one s))).h64
  | 2 => XXH64_avalanche (one (one s)).h64
  | 1 => XXH64_avalanche (one s).h64
  | _ => XXH64_avalanche s.h64

def XXH64_finalize (reroll : Bool) (h64 : U64) (p len : Nat) : U64 :=
  if reroll then finalizeRerolled input ⟨h64, p⟩ len else finalizeUnrolled input ⟨h64, p⟩ len

/-- The four running sums over stripes of 32 bytes. -/
structure Stripe where
  v1 : U64
  v2 : U64
  v3 : U64
  v4 : U64
  p : Nat

def stripe (s : Stripe) : Stripe :=
  let v1 := XXH64_round s.v1 (XXH_get64bits input s.p)
  let v2 := XXH64_round s.v2 (XXH_get64bits input (s.p + 8))
  let v3 := XXH64_round s.v3 (XXH_get64bits input (s.p + 16))
  let v4 := XXH64_round s.v4 (XXH_get64bits input (s.p + 24))
  ⟨v1, v2, v3, v4, s.p + 32⟩

def XXH64_endian_align (reroll : Bool) (len : Nat) (seed : U64) : U64 :=
  let (h64, p) :=
    if 32 ≤ len then
      let limit := len - 32
      let s := stripe input ⟨seed + PRIME64_1 + PRIME64_2, seed + PRIME64_2, seed + 0, seed - PRIME64_1, 0⟩
      let s := whileLoop len (fun s : Stripe => s.p ≤ limit) (stripe input) s
      let h64 := XXH_rotl64 s.v1 1 + XXH_rotl64 s.v2 7 + XXH_rotl64 s.v3 12 + XXH_rotl64 s.v4 18
      let h64 := XXH64_mergeRound h64 s.v1
      let h64 := XXH64_mergeRound h64 s.v2
      let h64 := XXH64_mergeRound h64 s.v3
      (XXH64_mergeRound h64 s.v4, s.p)
    else (seed + PRIME64_5, 0)
  let h64 := h64 + BitVec.ofNat 64 len
  XXH64_finalize input reroll h64 p len

def XXH64 (reroll : Bool) (len : Nat) (seed : U64) : U64 := XXH64_endian_align input reroll len seed

end Finalize

def keyBytes (key : Key) : Bytes := fun b => key.extractLsb' (8 * b) 8

/-- `operator()` of a `Hasher` with this seed. -/
def Hasher (reroll : Bool) (seed : U64) (key : Key) : U64 := XXH64 (keyBytes key) reroll 8 seed

section Agree

theorem finalizeAgree (input : Bytes) (s : Tail) (len : Nat) :
    finalizeRerolled input s len = finalizeUnrolled input s len := by
  have small : len &&& 31 < 32 := Nat.lt_of_le_of_lt Nat.and_le_right (by decide)
  unfold finalizeRerolled finalizeUnrolled
  generalize len &&& 31 = rest at small ⊢
  interval_cases rest <;> rfl

/-- Unrolling the tail changes no hash of any input. -/
theorem xxh64Agree (input : Bytes) (len : Nat) (seed : U64) : XXH64 input true len seed = XXH64 input false len seed := by
  unfold XXH64 XXH64_endian_align XXH64_finalize
  simp only [finalizeAgree, if_true, if_neg Bool.false_ne_true]

end Agree

section Permutes

theorem rotlInjective {r : Nat} (inside : r < 64) : Function.Injective fun x => XXH_rotl64 x r := by
  have rotates : (fun x => XXH_rotl64 x r) = fun x : U64 => x.rotateLeft r := by
    funext x
    unfold XXH_rotl64 BitVec.rotateLeft BitVec.rotateLeftAux
    rw [Nat.mod_eq_of_lt inside]
  rw [rotates]
  exact rotateInjective inside

theorem timesPrime1 : Function.Injective (· * PRIME64_1) := multiplyInjective 614540362697595703#64 (by decide)

theorem timesPrime2 : Function.Injective (· * PRIME64_2) := multiplyInjective 839798700976720815#64 (by decide)

theorem timesPrime3 : Function.Injective (· * PRIME64_3) := multiplyInjective 16855272203555305545#64 (by decide)

theorem roundInjective : Function.Injective (XXH64_round 0) := by
  intro x y same
  have rotated := rotlInjective (r := 31) (by decide) (timesPrime1 same)
  exact timesPrime2 ((BitVec.add_right_inj 0).mp rotated)

theorem avalancheInjective : Function.Injective XXH64_avalanche := by
  intro x y same
  have third := xorShiftInjective (w := 64) (s := 32) (by decide) same
  have second := xorShiftInjective (w := 64) (s := 29) (by decide) (timesPrime3 third)
  exact xorShiftInjective (w := 64) (s := 33) (by decide) (timesPrime2 second)

theorem keyRead (key : Key) : XXH_get64bits (keyBytes key) 0 = key := by
  apply BitVec.eq_of_getLsbD_eq
  intro k bound
  have whole : 8 * (0 + k / 8) + k % 8 = k := by omega
  have small : k % 8 < 8 := by omega
  unfold XXH_get64bits readLE keyBytes
  rw [BitVec.getLsbD_ofFnLE, dif_pos bound, BitVec.getLsbD_extractLsb', decide_eq_true small, Bool.true_and]
  exact congrArg key.getLsbD whole

theorem hasherSteps (reroll : Bool) (seed : U64) (key : Key) : Hasher reroll seed key =
    XXH64_avalanche (XXH_rotl64 ((seed + PRIME64_5 + 8) ^^^ XXH64_round 0 key) 27 * PRIME64_1 + PRIME64_4) := by
  have unrolled : Hasher reroll seed key = finalizeUnrolled (keyBytes key) ⟨seed + PRIME64_5 + 8, 0⟩ 8 := by
    cases reroll
    · rfl
    · exact finalizeAgree (keyBytes key) ⟨seed + PRIME64_5 + 8, 0⟩ 8
  rw [unrolled]
  change XXH64_avalanche (XXH_rotl64 ((seed + PRIME64_5 + 8) ^^^
    XXH64_round 0 (XXH_get64bits (keyBytes key) 0)) 27 * PRIME64_1 + PRIME64_4) = _
  rw [keyRead]

theorem hasherBijective (reroll : Bool) (seed : U64) : Function.Bijective (Hasher reroll seed) := by
  refine Finite.injective_iff_bijective.mp fun x y same => ?_
  rw [hasherSteps, hasherSteps] at same
  have added := avalancheInjective same
  have rotated := rotlInjective (r := 27) (by decide) (timesPrime1 ((BitVec.add_left_inj PRIME64_4).mp added))
  exact roundInjective ((BitVec.xor_right_inj (seed + PRIME64_5 + 8)).mp rotated)

end Permutes

/-- The dictionary's hash maps as its constructors seed them. -/
def hashers (reroll : Bool) (firstSeed secondSeed dhSeed : U64) (tableRealSize gamma : Nat) (occupied : 0 < tableRealSize)
    (gammaLow : 1 ≤ gamma) (gammaHigh : gamma ≤ 64) : Hashing where
  tableRealSize := tableRealSize
  gamma := gamma
  firstHash := Hasher reroll firstSeed
  secondHash := Hasher reroll secondSeed
  DH := Hasher reroll dhSeed
  occupied := occupied
  gammaLow := gammaLow
  gammaHigh := gammaHigh

/-- Whatever the seeds, every bucket of either table is the bucket of as many keys as any other, up
to the remainder, and every pattern of `gamma` bits is shared by the same number of keys. -/
theorem keysSpreadEvenly (reroll : Bool) (firstSeed secondSeed dhSeed : U64) {tableRealSize gamma : Nat}
    (occupied : 0 < tableRealSize) (gammaLow : 1 ≤ gamma) (gammaHigh : gamma ≤ 64) :
    let h := hashers reroll firstSeed secondSeed dhSeed tableRealSize gamma occupied gammaLow gammaHigh
    (∀ b < tableRealSize,
      Nat.card {key // h.firstBucket key = b} = 2 ^ 64 / tableRealSize + (if b < 2 ^ 64 % tableRealSize then 1 else 0) ∧
      Nat.card {key // h.secondBucket key = b} =
        2 ^ 64 / tableRealSize + (if b < 2 ^ 64 % tableRealSize then 1 else 0)) ∧
    ∀ bits, Nat.card {key // h.getDHBits key = bits} = if bits.toNat < 2 ^ gamma then 2 ^ (64 - gamma) else 0 := by
  intro h
  refine ⟨fun b inside => ⟨?_, ?_⟩, fun bits => ?_⟩
  · exact (cardAlong (hasherBijective reroll firstSeed) fun v => v.toNat % tableRealSize = b).trans
      (residueCount inside)
  · exact (cardAlong (hasherBijective reroll secondSeed) fun v => v.toNat % tableRealSize = b).trans
      (residueCount inside)
  · exact (cardAlong (hasherBijective reroll dhSeed) fun v => v >>> (64 - gamma) = bits).trans
      (leadingCount gammaHigh bits)

theorem sixtyBitsShared : Nat.card {key // (hashers false 1 2 3 11 60 (by decide) (by decide)
    (by decide)).getDHBits key = 5#64} = if (5#64).toNat < 2 ^ 60 then 2 ^ (64 - 60) else 0 :=
  (keysSpreadEvenly false 1 2 3 (by decide) (by decide) (by decide)).2 5#64

end PaxosPsi
