import PaxosPsi.Hasher

/-! The streaming form of `XXH64`. Its state keeps the running sums of all whole stripes so
far and the bytes behind them, so the digest after any number of updates is the hash of
their inputs in one piece. -/
namespace PaxosPsi
open CountedLoop Memory

structure XXH64_state where
  total_len : U64
  v1 : U64
  v2 : U64
  v3 : U64
  v4 : U64
  mem64 : Bytes
  memsize : Nat

def XXH64_reset (seed : U64) : XXH64_state :=
  ⟨0#64, seed + PRIME64_1 + PRIME64_2, seed + PRIME64_2, seed + 0, seed - PRIME64_1, fun _ => 0#8, 0⟩

namespace XXH64_state

def stripes (state : XXH64_state) (p : Nat) : Stripe := ⟨state.v1, state.v2, state.v3, state.v4, p⟩

def keep (state : XXH64_state) (s : Stripe) : XXH64_state :=
  { state with v1 := s.v1, v2 := s.v2, v3 := s.v3, v4 := s.v4 }

/-- `XXH_memcpy(((BYTE*)state->mem64) + base, p, count)`. -/
def copyIn (state : XXH64_state) (base : Nat) (input : Bytes) (p count : Nat) : XXH64_state :=
  { state with mem64 := fun i => if base ≤ i ∧ i < base + count then input (p + (i - base)) else state.mem64 i }

end XXH64_state

/-- `do { .. } while (p<=limit)`. -/
def stripeLoop (input : Bytes) (len : Nat) (s : Stripe) : Stripe :=
  whileLoop len (fun s : Stripe => s.p ≤ len - 32) (stripe input) (stripe input s)

@[simp] theorem XXH64_state.copyInTotal (state : XXH64_state) (base : Nat) (input : Bytes) (p count : Nat) :
    (state.copyIn base input p count).total_len = state.total_len := rfl

@[simp] theorem XXH64_state.keepTotal (state : XXH64_state) (s : Stripe) : (state.keep s).total_len = state.total_len :=
  rfl

/-- `if (state->memsize)`: the buffer is filled up and taken as a stripe. -/
def fillStripe (state : XXH64_state) (input : Bytes) : XXH64_state × Nat :=
  if state.memsize ≠ 0 then
    let full := state.copyIn state.memsize input 0 (32 - state.memsize)
    ({ full.keep (stripe full.mem64 (full.stripes 0)) with memsize := 0 }, 32 - state.memsize)
  else (state, 0)

/-- `if (p+32 <= bEnd)`: the stripes that lie in the input. -/
def takeStripes (input : Bytes) (len : Nat) (state : XXH64_state) (p : Nat) : XXH64_state × Nat :=
  if p + 32 ≤ len then
    let s := stripeLoop input len (state.stripes p)
    (state.keep s, s.p)
  else (state, p)

/-- The bytes copied in are the last the buffer holds. -/
def buffer (state : XXH64_state) (base : Nat) (input : Bytes) (p count : Nat) : XXH64_state :=
  { state.copyIn base input p count with memsize := base + count }

@[simp] theorem bufferTotal (state : XXH64_state) (base : Nat) (input : Bytes) (p count : Nat) :
    (buffer state base input p count).total_len = state.total_len := rfl

/-- `XXH64_update` once the length is counted. -/
def takeInput (state : XXH64_state) (input : Bytes) (len : Nat) : XXH64_state :=
  if state.memsize + len < 32 then buffer state state.memsize input 0 len
  else
    let (state, p) := fillStripe state input
    let (state, p) := takeStripes input len state p
    if p < len then buffer state 0 input p (len - p) else state

def XXH64_update (state : XXH64_state) (input : Bytes) (len : Nat) : XXH64_state :=
  takeInput { state with total_len := state.total_len + BitVec.ofNat 64 len } input len

def XXH64_digest (reroll : Bool) (state : XXH64_state) : U64 :=
  let h64 :=
    if 32 ≤ state.total_len.toNat then
      let h64 := XXH_rotl64 state.v1 1 + XXH_rotl64 state.v2 7 + XXH_rotl64 state.v3 12 + XXH_rotl64 state.v4 18
      let h64 := XXH64_mergeRound h64 state.v1
      let h64 := XXH64_mergeRound h64 state.v2
      let h64 := XXH64_mergeRound h64 state.v3
      XXH64_mergeRound h64 state.v4
    else state.v3 + PRIME64_5
  let h64 := h64 + state.total_len
  XXH64_finalize state.mem64 reroll h64 0 state.total_len.toNat

section Stripes
variable {input whole : Bytes}

def SameSums (a b : Stripe) : Prop := a.v1 = b.v1 ∧ a.v2 = b.v2 ∧ a.v3 = b.v3 ∧ a.v4 = b.v4

theorem readLESame {n p q : Nat} (same : ∀ i < n, input (p + i) = whole (q + i)) : readLE n input p = readLE n whole q := by
  unfold readLE
  congr 1
  funext k
  rw [same (k / 8) (by omega)]

theorem stripeSame {a b : Stripe} (sums : SameSums a b) (same : ∀ i < 32, input (a.p + i) = whole (b.p + i)) :
    SameSums (stripe input a) (stripe whole b) := by
  have word : ∀ k, k + 8 ≤ 32 → XXH_get64bits input (a.p + k) = XXH_get64bits whole (b.p + k) := by
    intro k inside
    refine readLESame fun i lane => ?_
    rw [Nat.add_assoc, Nat.add_assoc]
    exact same _ (by omega)
  obtain ⟨one, two, three, four⟩ := sums
  unfold stripe
  have first := word 0 (by decide)
  rw [Nat.add_zero, Nat.add_zero] at first
  dsimp only
  rw [first, word 8 (by decide), word 16 (by decide), word 24 (by decide), one, two, three, four]
  exact ⟨rfl, rfl, rfl, rfl⟩

theorem stripesPosition (s : Stripe) (n : Nat) : ((stripe input)^[n] s).p = s.p + 32 * n := by
  induction n with
  | zero => rfl
  | succ n ih =>
    rw [Function.iterate_succ_apply']
    change ((stripe input)^[n] s).p + 32 = _
    rw [ih]
    omega

theorem stripesSame {a b : Stripe} (sums : SameSums a b) (n : Nat)
    (same : ∀ i < 32 * n, input (a.p + i) = whole (b.p + i)) :
    SameSums ((stripe input)^[n] a) ((stripe whole)^[n] b) := by
  induction n with
  | zero => exact sums
  | succ n ih =>
    rw [Function.iterate_succ_apply', Function.iterate_succ_apply']
    refine stripeSame (ih fun i inside => same i (by omega)) fun i lane => ?_
    rw [stripesPosition, stripesPosition, Nat.add_assoc, Nat.add_assoc]
    exact same _ (by omega)

theorem stripesLeft (input : Bytes) {len : Nat} {s : Stripe} (more : s.p + 32 ≤ len) :
    (len - s.p) / 32 = (len - (stripe input s).p) / 32 + 1 := by
  change _ = (len - (s.p + 32)) / 32 + 1
  omega

theorem whileStripes {len : Nat} (long : 32 ≤ len) (fuel : Nat) (s : Stripe) (enough : (len - s.p) / 32 ≤ fuel) :
    whileLoop fuel (fun s : Stripe => s.p ≤ len - 32) (stripe input) s = (stripe input)^[(len - s.p) / 32] s := by
  induction fuel generalizing s with
  | zero =>
    rw [Nat.le_zero.mp enough]
    rfl
  | succ fuel ih =>
    rw [whileLoop]
    by_cases more : s.p ≤ len - 32
    · have next : (len - s.p) / 32 = (len - (stripe input s).p) / 32 + 1 := stripesLeft input (by omega)
      rw [if_pos (decide_eq_true more), ih _ (by omega), next, Function.iterate_succ_apply]
    · have done : (len - s.p) / 32 = 0 := by omega
      rw [if_neg (by rw [decide_eq_false more]; exact Bool.false_ne_true), done]
      rfl

theorem stripeLoopCount {len : Nat} {s : Stripe} (more : s.p + 32 ≤ len) :
    stripeLoop input len s = (stripe input)^[(len - s.p) / 32] s := by
  have next := stripesLeft input more
  unfold stripeLoop
  rw [whileStripes (by omega) len _ (by omega), next, Function.iterate_succ_apply]

end Stripes

section Updates
variable {whole : Bytes} {seed : U64}

def startStripe (seed : U64) : Stripe :=
  ⟨seed + PRIME64_1 + PRIME64_2, seed + PRIME64_2, seed + 0, seed - PRIME64_1, 0⟩

/-- The sums and the buffer after the first `n` bytes of an input. -/
structure Holds (whole : Bytes) (seed : U64) (n : Nat) (state : XXH64_state) : Prop where
  size : state.memsize = n % 32
  mem : ∀ i < n % 32, state.mem64 i = whole (32 * (n / 32) + i)
  sums : SameSums (state.stripes 0) ((stripe whole)^[n / 32] (startStripe seed))

theorem Holds.counted {n : Nat} {state : XXH64_state} (holds : Holds whole seed n state) (total_len : U64) :
    Holds whole seed n { state with total_len } := ⟨holds.size, holds.mem, holds.sums⟩

theorem Holds.copied {n count : Nat} {state : XXH64_state} (holds : Holds whole seed n state) {input : Bytes}
    (same : ∀ i < count, input i = whole (n + i)) {i : Nat} (inside : i < n % 32 + count) :
    (state.copyIn state.memsize input 0 count).mem64 i = whole (32 * (n / 32) + i) := by
  unfold XXH64_state.copyIn
  dsimp only
  rw [holds.size]
  by_cases kept : i < n % 32
  · rw [if_neg (by omega)]
    exact holds.mem i kept
  · have position : n + (i - n % 32) = 32 * (n / 32) + i := by omega
    rw [if_pos (by omega), Nat.zero_add, same _ (by omega), position]

/-- Between the stages of an update: `m` stripes are taken and the buffer is empty. -/
structure Between (whole : Bytes) (seed : U64) (m : Nat) (state : XXH64_state) : Prop where
  size : state.memsize = 0
  sums : SameSums (state.stripes 0) ((stripe whole)^[m] (startStripe seed))

theorem keptSums {state : XXH64_state} {s b : Stripe} (same : SameSums s b) : SameSums ((state.keep s).stripes 0) b :=
  same

theorem resizedSums {state : XXH64_state} {b : Stripe} (memsize : Nat) (same : SameSums (state.stripes 0) b) :
    SameSums (XXH64_state.stripes { state with memsize } 0) b := same

theorem bufferedSums {state : XXH64_state} {b : Stripe} (base : Nat) (input : Bytes) (p count : Nat)
    (same : SameSums (state.stripes 0) b) : SameSums ((buffer state base input p count).stripes 0) b := same

theorem startPosition (m : Nat) : ((stripe whole)^[m] (startStripe seed)).p = 32 * m := by
  rw [stripesPosition]
  exact Nat.zero_add _

theorem Holds.fill {n len : Nat} {state : XXH64_state} (holds : Holds whole seed n state) {input : Bytes}
    (full : 32 ≤ n % 32 + len) (same : ∀ i < len, input i = whole (n + i)) :
    ∃ m, Between whole seed m (fillStripe state input).1 ∧
      n + (fillStripe state input).2 = 32 * m ∧ (fillStripe state input).2 ≤ len := by
  have size := holds.size
  unfold fillStripe
  by_cases empty : state.memsize = 0
  · rw [if_neg (not_not.mpr empty)]
    exact ⟨n / 32, ⟨empty, holds.sums⟩, by dsimp only; omega, Nat.zero_le len⟩
  · rw [if_pos empty]
    have filled : ∀ i < 32, (state.copyIn state.memsize input 0 (32 - state.memsize)).mem64 i =
        whole (32 * (n / 32) + i) :=
      fun i lane => holds.copied (fun k below => same k (by omega)) (by omega)
    have sums : SameSums ((state.copyIn state.memsize input 0 (32 - state.memsize)).stripes 0)
      ((stripe whole)^[n / 32] (startStripe seed)) := holds.sums
    have bytes : ∀ i < 32, (state.copyIn state.memsize input 0 (32 - state.memsize)).mem64
        (((state.copyIn state.memsize input 0 (32 - state.memsize)).stripes 0).p + i) =
          whole (((stripe whole)^[n / 32] (startStripe seed)).p + i) := by
      intro i lane
      rw [startPosition, ← filled i lane]
      exact congrArg _ (Nat.zero_add i)
    have taken := stripeSame sums bytes
    rw [← Function.iterate_succ_apply' (stripe whole)] at taken
    dsimp only
    generalize state.copyIn state.memsize input 0 (32 - state.memsize) = full at taken ⊢
    generalize stripe full.mem64 (full.stripes 0) = s at taken ⊢
    exact ⟨n / 32 + 1, ⟨rfl, resizedSums 0 (keptSums taken)⟩, by omega, by omega⟩

theorem Between.take {n len m p : Nat} {state : XXH64_state} (between : Between whole seed m state)
    {input : Bytes} (position : n + p = 32 * m) (inside : p ≤ len) (same : ∀ i < len, input i = whole (n + i)) :
    Between whole seed ((n + len) / 32) (takeStripes input len state p).1 ∧
      n + (takeStripes input len state p).2 = 32 * ((n + len) / 32) ∧ (takeStripes input len state p).2 ≤ len := by
  unfold takeStripes
  by_cases more : p + 32 ≤ len
  · have count : (n + len) / 32 = (len - p) / 32 + m := by omega
    have sums : SameSums (state.stripes p) ((stripe whole)^[m] (startStripe seed)) := between.sums
    have bytes : ∀ i < 32 * ((len - p) / 32), input ((state.stripes p).p + i) =
        whole (((stripe whole)^[m] (startStripe seed)).p + i) := by
      intro i below
      rw [startPosition, ← position, Nat.add_assoc, ← same (p + i) (by omega)]
      rfl
    have taken := stripesSame sums ((len - p) / 32) bytes
    have moved : ((stripe input)^[(len - p) / 32] (state.stripes p)).p = p + 32 * ((len - p) / 32) := stripesPosition _ _
    rw [← Function.iterate_add_apply, ← count] at taken
    rw [if_pos more, stripeLoopCount more]
    change Between whole seed _ (state.keep ((stripe input)^[(len - p) / 32] (state.stripes p))) ∧
      n + ((stripe input)^[(len - p) / 32] (state.stripes p)).p = _ ∧
      ((stripe input)^[(len - p) / 32] (state.stripes p)).p ≤ len
    rw [moved]
    exact ⟨⟨between.size, keptSums taken⟩, by omega, by omega⟩
  · have count : (n + len) / 32 = m := by omega
    rw [if_neg more, count]
    exact ⟨between, position, inside⟩

theorem Holds.take {n : Nat} {state : XXH64_state} (holds : Holds whole seed n state) {input : Bytes} {len : Nat}
    (same : ∀ i < len, input i = whole (n + i)) : Holds whole seed (n + len) (takeInput state input len) := by
  have size := holds.size
  unfold takeInput
  by_cases fits : state.memsize + len < 32
  · have stripes : (n + len) / 32 = n / 32 := by omega
    rw [if_pos fits]
    refine ⟨?_, fun i inside => ?_, ?_⟩
    · change state.memsize + len = _
      omega
    · rw [stripes]
      exact holds.copied same (by omega)
    · rw [stripes]
      exact bufferedSums _ _ _ _ holds.sums
  · obtain ⟨m, between, position, inside⟩ := holds.fill (by omega) same
    rw [if_neg fits]
    dsimp only
    generalize fillStripe state input = filled at between position inside ⊢
    obtain ⟨taken, reached, within⟩ := between.take position inside same
    generalize takeStripes input len filled.1 filled.2 = rest at taken reached within ⊢
    by_cases left : rest.2 < len
    · rw [if_pos left]
      refine ⟨?_, fun i below => ?_, bufferedSums _ _ _ _ taken.sums⟩
      · change 0 + (len - rest.2) = _
        omega
      · have position : n + (rest.2 + i) = 32 * ((n + len) / 32) + i := by omega
        unfold buffer XXH64_state.copyIn
        dsimp only
        rw [if_pos (by omega), Nat.sub_zero, same _ (by omega), position]
    · rw [if_neg left]
      refine ⟨?_, fun i below => ?_, taken.sums⟩
      · rw [taken.size]
        omega
      · omega

theorem takeInputTotal (state : XXH64_state) (input : Bytes) (len : Nat) :
    (takeInput state input len).total_len = state.total_len := by
  have filled : (fillStripe state input).1.total_len = state.total_len := by
    unfold fillStripe
    split
    · dsimp only
      generalize stripe _ _ = s
      exact ((state.copyIn _ _ _ _).keepTotal s).trans (state.copyInTotal _ _ _ _)
    · rfl
  have taken : ∀ state p, (takeStripes input len state p).1.total_len = state.total_len := by
    intro state p
    unfold takeStripes
    split
    · exact state.keepTotal _
    · rfl
  unfold takeInput
  split
  · exact bufferTotal state _ _ _ _
  · dsimp only
    split
    · exact (bufferTotal _ _ _ _ _).trans ((taken _ _).trans filled)
    · exact (taken _ _).trans filled

/-- The state after the first `n` bytes of an input. -/
structure Hashed (whole : Bytes) (seed : U64) (n : Nat) (state : XXH64_state) : Prop where
  total : state.total_len = BitVec.ofNat 64 n
  holds : Holds whole seed n state

theorem hashedStart : Hashed whole seed 0 (XXH64_reset seed) :=
  ⟨rfl, rfl, fun i inside => absurd inside (Nat.not_lt_zero i), rfl, rfl, rfl, rfl⟩

theorem Hashed.update {n : Nat} {state : XXH64_state} (hashed : Hashed whole seed n state) (input : Bytes) (len : Nat)
    (same : ∀ i < len, input i = whole (n + i)) : Hashed whole seed (n + len) (XXH64_update state input len) := by
  constructor
  · unfold XXH64_update
    rw [takeInputTotal, BitVec.ofNat_add, ← hashed.total]
  · unfold XXH64_update
    exact Holds.take (hashed.holds.counted _) same

theorem hashedUpdates (rest : List (List Byte)) {n : Nat} {state : XXH64_state} (hashed : Hashed whole seed n state)
    (same : ∀ i < rest.flatten.length, rest.flatten.getD i 0#8 = whole (n + i)) :
    Hashed whole seed (n + rest.flatten.length)
      (rest.foldl (fun state c => XXH64_update state (c.getD · 0#8) c.length) state) := by
  induction rest generalizing n state with
  | nil => exact hashed
  | cons c rest ih =>
    rw [List.flatten_cons, List.length_append] at same
    have first := hashed.update (c.getD · 0#8) c.length fun i inside => by
      rw [← same i (by omega), List.getD_append _ _ _ _ inside]
    have later := ih first fun i inside => by
      rw [Nat.add_assoc, ← same (c.length + i) (by omega), List.getD_append_right _ _ _ _ (Nat.le_add_right _ _),
        Nat.add_sub_cancel_left]
    rw [List.flatten_cons, List.length_append, ← Nat.add_assoc]
    exact later

end Updates

section Digest
variable {input whole : Bytes}

/-- The same hash so far, and the same next `n` bytes. -/
def SameTail (input whole : Bytes) (n : Nat) (a b : Tail) : Prop :=
  a.h64 = b.h64 ∧ ∀ i < n, input (a.p + i) = whole (b.p + i)

theorem tailLoop (process : Bytes → Tail → Tail) (size : Nat) (guard : Nat → Bool)
    (step : ∀ n a b, size ≤ n → SameTail input whole n a b →
      SameTail input whole (n - size) (process input a) (process whole b))
    (enough : ∀ n, guard n = true → size ≤ n) (fuel n : Nat) {a b : Tail} (same : SameTail input whole n a b) :
    ∃ left a' b', whileLoop fuel (fun s : Tail × Nat => guard s.2) (fun s => (process input s.1, s.2 - size)) (a, n) =
        (a', left) ∧
      whileLoop fuel (fun s : Tail × Nat => guard s.2) (fun s => (process whole s.1, s.2 - size)) (b, n) = (b', left) ∧
      SameTail input whole left a' b' := by
  induction fuel generalizing n a b with
  | zero => exact ⟨n, a, b, rfl, rfl, same⟩
  | succ fuel ih =>
    rw [whileLoop, whileLoop]
    dsimp only
    by_cases more : guard n = true
    · rw [if_pos more, if_pos more]
      exact ih (n - size) (step n a b (enough n more) same)
    · rw [if_neg more, if_neg more]
      exact ⟨n, a, b, rfl, rfl, same⟩

theorem restSame {n size : Nat} {a b : Tail} (enough : size ≤ n) (same : SameTail input whole n a b) (h64 : U64) :
    SameTail input whole (n - size) ⟨h64, a.p + size⟩ ⟨h64, b.p + size⟩ := by
  refine ⟨rfl, fun i inside => ?_⟩
  dsimp only
  rw [Nat.add_assoc, Nat.add_assoc]
  exact same.2 _ (by omega)

theorem process1Same (n : Nat) (a b : Tail) (enough : 1 ≤ n) (same : SameTail input whole n a b) :
    SameTail input whole (n - 1) (PROCESS1_64 input a) (PROCESS1_64 whole b) := by
  have byte : input a.p = whole b.p := same.2 0 enough
  unfold PROCESS1_64
  rw [same.1, byte]
  exact restSame enough same _

theorem process4Same (n : Nat) (a b : Tail) (enough : 4 ≤ n) (same : SameTail input whole n a b) :
    SameTail input whole (n - 4) (PROCESS4_64 input a) (PROCESS4_64 whole b) := by
  have word : XXH_get32bits input a.p = XXH_get32bits whole b.p := readLESame fun i lane => same.2 i (by omega)
  unfold PROCESS4_64
  rw [same.1, word]
  exact restSame enough same _

theorem process8Same (n : Nat) (a b : Tail) (enough : 8 ≤ n) (same : SameTail input whole n a b) :
    SameTail input whole (n - 8) (PROCESS8_64 input a) (PROCESS8_64 whole b) := by
  have word : XXH_get64bits input a.p = XXH_get64bits whole b.p := readLESame fun i lane => same.2 i (by omega)
  unfold PROCESS8_64
  rw [same.1, word]
  exact restSame enough same _

theorem onesSame {n : Nat} {a b : Tail} (same : SameTail input whole n a b) :
    (whileLoop n (fun s : Tail × Nat => decide (0 < s.2)) (fun s => (PROCESS1_64 input s.1, s.2 - 1)) (a, n)).1.h64 =
      (whileLoop n (fun s : Tail × Nat => decide (0 < s.2)) (fun s => (PROCESS1_64 whole s.1, s.2 - 1)) (b, n)).1.h64 := by
  obtain ⟨left, a', b', ran, ran', same⟩ := tailLoop PROCESS1_64 1 (fun n => decide (0 < n)) process1Same
    (fun n more => of_decide_eq_true more) n n same
  rw [ran, ran']
  exact same.1

theorem rerolledSame {len : Nat} {a b : Tail} (same : SameTail input whole (len % 32) a b) :
    finalizeRerolled input a len = finalizeRerolled whole b len := by
  have rest : len &&& 31 = len % 32 := Nat.and_two_pow_sub_one_eq_mod len 5
  obtain ⟨left, a, b, ran, ran', same⟩ := tailLoop PROCESS8_64 8 (fun n => decide (8 ≤ n)) process8Same
    (fun n more => of_decide_eq_true more) (len % 32) (len % 32) same
  unfold finalizeRerolled
  dsimp only at ran ran' ⊢
  rw [rest, ran, ran']
  dsimp only
  by_cases four : 4 ≤ left
  · rw [if_pos four, if_pos four]
    exact congrArg XXH64_avalanche (onesSame (process4Same left a b four same))
  · rw [if_neg four, if_neg four]
    exact congrArg XXH64_avalanche (onesSame same)

theorem finalizeSame (reroll : Bool) (h64 : U64) {p q len : Nat} (same : ∀ i < len % 32, input (p + i) = whole (q + i)) :
    XXH64_finalize input reroll h64 p len = XXH64_finalize whole reroll h64 q len := by
  have rerolled := rerolledSame (a := ⟨h64, p⟩) (b := ⟨h64, q⟩) ⟨rfl, same⟩
  unfold XXH64_finalize
  rw [← finalizeAgree, ← finalizeAgree, rerolled]

end Digest

/-- Any number of updates hash as their inputs in one piece. -/
theorem xxh64Streams (reroll : Bool) (seed : U64) (chunks : List (List Byte)) (small : chunks.flatten.length < 2 ^ 64) :
    XXH64_digest reroll (chunks.foldl (fun state c => XXH64_update state (c.getD · 0#8) c.length) (XXH64_reset seed)) =
      XXH64 (chunks.flatten.getD · 0#8) reroll chunks.flatten.length seed := by
  have start : Hashed (chunks.flatten.getD · 0#8) seed 0 (XXH64_reset seed) := hashedStart
  have hashed := hashedUpdates chunks start fun i _ => by rw [Nat.zero_add]
  rw [Nat.zero_add] at hashed
  generalize chunks.foldl (fun state c => XXH64_update state (c.getD · 0#8) c.length) (XXH64_reset seed) = state at hashed ⊢
  obtain ⟨total, size, mem, sums⟩ := hashed
  have length : state.total_len.toNat = chunks.flatten.length := by
    rw [total, BitVec.toNat_ofNat, Nat.mod_eq_of_lt small]
  generalize chunks.flatten.length = len at *
  unfold XXH64_digest XXH64 XXH64_endian_align
  dsimp only
  rw [length]
  by_cases long : 32 ≤ len
  · rw [if_pos long, if_pos long]
    dsimp only
    have ran : whileLoop len (fun s : Stripe => decide (s.p ≤ len - 32)) (stripe (chunks.flatten.getD · 0#8))
        (stripe (chunks.flatten.getD · 0#8)
          ⟨seed + PRIME64_1 + PRIME64_2, seed + PRIME64_2, seed + 0, seed - PRIME64_1, 0⟩) =
        (stripe (chunks.flatten.getD · 0#8))^[len / 32] (startStripe seed) :=
      stripeLoopCount (s := startStripe seed) ((Nat.zero_add 32).le.trans long)
    obtain ⟨one, two, three, four⟩ := sums
    rw [ran, ← one, ← two, ← three, ← four, startPosition, total]
    refine finalizeSame reroll _ fun i inside => ?_
    rw [Nat.zero_add, mem i inside]
  · rw [if_neg long, if_neg long, total]
    dsimp only
    have stripes : len / 32 = 0 := by omega
    rw [stripes] at sums
    have third : state.v3 = seed + 0 := sums.2.2.1
    have plain : seed + 0 = seed := BitVec.add_zero seed
    rw [third, plain]
    refine finalizeSame reroll _ fun i inside => ?_
    rw [Nat.zero_add, mem i inside, stripes, Nat.mul_zero, Nat.zero_add]

theorem threeChunksHashed : XXH64_digest true ([[1#8, 2#8], List.replicate 40 7#8, []].foldl
      (fun state c => XXH64_update state (c.getD · 0#8) c.length) (XXH64_reset 5#64)) =
    XXH64 ([[1#8, 2#8], List.replicate 40 7#8, []].flatten.getD · 0#8) true
      ([[1#8, 2#8], List.replicate 40 7#8, []] : List (List Byte)).flatten.length 5#64 :=
  xxh64Streams true 5#64 [[1#8, 2#8], List.replicate 40 7#8, []] (by decide)

end PaxosPsi
