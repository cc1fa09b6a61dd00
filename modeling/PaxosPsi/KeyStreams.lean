import PaxosPsi.BaseOts

/-! The AES counters a generator uses up. `init` encrypts straight from the counter, eight
blocks a column and super block; `split` reads seeds from a prefetch buffer that is filled
from the same counter. A metered generator records what was encrypted for whom. -/
namespace PaxosPsi
open CountedLoop Memory

/-- A generator, the counter its buffer was filled from, the number of blocks it has
encrypted, and the counters behind each column chunk and each seed. -/
structure Metered where
  gen : PRNG
  bufferIdx : BitVec 64
  drawn : Nat
  uses : List (List (BitVec 64))
  buffer : gen.mBuffer = ecbEncCounterMode gen.mAes bufferIdx

structure PRNG.Stepped (prng : PRNG) (step : Nat) (next : PRNG) : Prop where
  key : next.mAes = prng.mAes
  size : next.mBufferSize = prng.mBufferSize
  buffer : next.mBuffer = if prng.mBytesIdx + step < prng.mBufferByteCapacity then prng.mBuffer
    else ecbEncCounterMode prng.mAes prng.mBlockIdx
  bytesIdx : next.mBytesIdx = if prng.mBytesIdx + step < prng.mBufferByteCapacity then prng.mBytesIdx + step else 0
  blockIdx : next.mBlockIdx = if prng.mBytesIdx + step < prng.mBufferByteCapacity then prng.mBlockIdx
    else prng.mBlockIdx + BitVec.ofNat 64 prng.mBufferSize

theorem PRNG.stepped {prng next : PRNG} {step : Nat} (ran : prng.getStep step = .ok next) :
    prng.Stepped step next := by
  unfold getStep refillBuffer at ran
  split at ran
  · rename_i inside
    obtain rfl := Except.ok.inj ran
    exact ⟨rfl, rfl, (if_pos inside).symm, (if_pos inside).symm, (if_pos inside).symm⟩
  · rename_i outside
    split at ran
    · cases ran
    · obtain rfl := Except.ok.inj ran
      exact ⟨rfl, rfl, (if_neg outside).symm, (if_neg outside).symm, (if_neg outside).symm⟩

namespace Metered

def setSeed (aes : Aes) (seed : Block) : Metered :=
  { gen := PRNG.new.setSeed aes seed, bufferIdx := 0, drawn := (PRNG.new.setSeed aes seed).mBufferSize
    uses := [], buffer := rfl }

def column (m : Metered) : Metered :=
  { gen := m.gen.skip superBlkSize, bufferIdx := m.bufferIdx, drawn := m.drawn + superBlkSize
    uses := m.uses ++ [(List.range superBlkSize).map fun t => m.gen.mBlockIdx + BitVec.ofNat 64 t]
    buffer := m.buffer }

def getStep (m : Metered) (step : Nat) : Except Error Metered :=
  match stepped : m.gen.getStep step with
  | .error e => .error e
  | .ok gen => .ok
    { gen
      bufferIdx := if m.gen.mBytesIdx + step < m.gen.mBufferByteCapacity then m.bufferIdx else m.gen.mBlockIdx
      drawn := if m.gen.mBytesIdx + step < m.gen.mBufferByteCapacity then m.drawn
        else m.drawn + m.gen.mBufferSize
      uses := m.uses
      buffer := by
        have after := PRNG.stepped stepped
        rw [after.buffer, after.key]
        split
        · exact m.buffer
        · rfl }

def getLoop : Nat → Metered → Nat → List (BitVec 64) → Except Error (List (BitVec 64) × Metered)
  | 0, m, _, read => .ok (read, m)
  | fuel + 1, m, lengthu8, read =>
    if lengthu8 = 0 then .ok (read, m)
    else do
      let step := min lengthu8 (m.gen.mBufferByteCapacity - m.gen.mBytesIdx)
      let copied := (List.range step).map fun k => m.bufferIdx + BitVec.ofNat 64 ((m.gen.mBytesIdx + k) / 16)
      let next ← m.getStep step
      getLoop fuel next (lengthu8 - step) (read ++ copied)

def seed (m : Metered) : Except Error Metered := do
  let (read, next) ← getLoop 16 m 16 []
  pure { next with uses := next.uses ++ [read] }

/-- Everything used lies below the counter and outside the unread part of the buffer, which
starts `k` blocks behind `first`. -/
structure Sound (m : Metered) (first k : Nat) (spent : List (List Nat)) : Prop where
  filled : m.gen.mBufferSize = 256
  counter : m.gen.mBlockIdx = BitVec.ofNat 64 m.drawn
  bufferIdx : m.bufferIdx = BitVec.ofNat 64 first
  position : m.gen.mBytesIdx = 16 * k
  unread : k < 256
  ahead : first + 256 ≤ m.drawn
  recorded : m.uses = spent.map (List.map (BitVec.ofNat 64))
  apart : spent.Pairwise List.Disjoint
  below : ∀ use ∈ spent, ∀ c ∈ use, c < m.drawn ∧ ¬ (first + k ≤ c ∧ c < first + 256)

variable {m : Metered} {first k : Nat} {spent : List (List Nat)}

theorem setSeedSound (aes : Aes) (seed : Block) : Sound (setSeed aes seed) 0 0 [] :=
  ⟨rfl, rfl, rfl, rfl, by decide, Nat.le_refl _, rfl, List.Pairwise.nil, fun _ none => absurd none List.not_mem_nil⟩

theorem pairwiseSnoc {use : List Nat} (apart : spent.Pairwise List.Disjoint)
    (fresh : ∀ old ∈ spent, old.Disjoint use) : (spent ++ [use]).Pairwise List.Disjoint := by
  rw [List.pairwise_append]
  refine ⟨apart, List.pairwise_singleton _ _, fun old listed new last => ?_⟩
  obtain rfl := List.mem_singleton.mp last
  exact fresh old listed

theorem columnSound (sound : Sound m first k spent) :
    Sound m.column first k (spent ++ [(List.range superBlkSize).map (m.drawn + ·)]) := by
  refine ⟨sound.filled, ?_, sound.bufferIdx, sound.position, sound.unread, ?_, ?_, ?_, ?_⟩
  · change m.gen.mBlockIdx + BitVec.ofNat 64 superBlkSize = BitVec.ofNat 64 (m.drawn + superBlkSize)
    rw [sound.counter, BitVec.ofNat_add]
  · exact Nat.le_trans sound.ahead (Nat.le_add_right _ _)
  · change m.uses ++ _ = _
    rw [sound.recorded, List.map_append, List.map_singleton, List.map_map]
    congr 2
    apply List.map_congr_left
    intro t _
    rw [sound.counter, Function.comp_apply, BitVec.ofNat_add]
  · refine pairwiseSnoc sound.apart fun old listed c inOld inNew => ?_
    obtain ⟨t, -, rfl⟩ := List.mem_map.mp inNew
    have low := (sound.below old listed _ inOld).1
    omega
  · intro use listed c inUse
    change c < m.drawn + superBlkSize ∧ _
    rcases List.mem_append.mp listed with old | last
    · obtain ⟨low, outside⟩ := sound.below use old c inUse
      exact ⟨by omega, outside⟩
    · obtain rfl := List.mem_singleton.mp last
      obtain ⟨t, inside, rfl⟩ := List.mem_map.mp inUse
      have bound := List.mem_range.mp inside
      have ahead := sound.ahead
      exact ⟨by omega, by omega⟩

theorem getStepMetered {next : PRNG} {step : Nat} (ran : m.gen.getStep step = .ok next) :
    ∃ n : Metered, m.getStep step = .ok n ∧ n.gen = next ∧ n.uses = m.uses ∧
      n.bufferIdx = (if m.gen.mBytesIdx + step < m.gen.mBufferByteCapacity then m.bufferIdx else m.gen.mBlockIdx) ∧
      n.drawn = if m.gen.mBytesIdx + step < m.gen.mBufferByteCapacity then m.drawn else m.drawn + m.gen.mBufferSize := by
  unfold getStep
  split
  · rename_i threw
    rw [ran] at threw
    cases threw
  · rename_i gen stepped
    obtain rfl := Except.ok.inj (stepped.symm.trans ran)
    exact ⟨_, rfl, rfl, rfl, rfl, rfl⟩

theorem readBlock {gen next : PRNG} {k : Nat} (filled : gen.mBufferSize = 256) (position : gen.mBytesIdx = 16 * k)
    (unread : k < 256) (ran : gen.getStep 16 = .ok next) : gen.getBlock = .ok (gen.mBuffer k, next) := by
  have whole : min 16 (gen.mBufferByteCapacity - gen.mBytesIdx) = 16 := by
    unfold PRNG.mBufferByteCapacity
    omega
  have read : gen.get 16 = .ok ((List.range 16).map fun j => bytesOf gen.mBuffer (gen.mBytesIdx + j), next) := by
    unfold PRNG.get
    rw [PRNG.getLoop, if_neg (by decide), whole]
    simp only [ran, bind, Except.bind]
    rfl
  have block : blocksOf (fun i => ((List.range 16).map fun j => bytesOf gen.mBuffer (gen.mBytesIdx + j)).getD i 0) 0 =
      gen.mBuffer k := by
    have back := congrFun (blocksOfBytesOf fun a => gen.mBuffer (k + a)) 0
    rw [Nat.add_zero] at back
    rw [← back]
    apply BitVec.eq_of_getLsbD_eq
    intro b bound
    have byte : b / 8 < 16 := by omega
    have row : (16 * k + b / 8) / 16 = k := by omega
    have col : (16 * k + b / 8) % 16 = b / 8 := by omega
    have entry : ((List.range 16).map fun j => bytesOf gen.mBuffer (gen.mBytesIdx + j)).getD (16 * 0 + b / 8) 0 =
        bytesOf (fun a => gen.mBuffer (k + a)) (b / 8) := by
      rw [Nat.mul_zero, Nat.zero_add, List.getD_eq_getElem?_getD, List.getElem?_map, List.getElem?_range byte, position]
      simp only [Option.map_some, Option.getD_some, bytesOf, row, col, Nat.div_eq_of_lt byte, Nat.mod_eq_of_lt byte,
        Nat.add_zero]
    simp only [blocksOf, BitVec.getLsbD_ofFnLE, bound, dite_true]
    rw [entry, Nat.mul_zero, Nat.zero_add]
  unfold PRNG.getBlock
  rw [read]
  simp only [bind, Except.bind, pure, Except.pure, block]

theorem readCounters (sound : Sound m first k spent) {next : Metered} (ran : m.getStep 16 = .ok next) :
    getLoop 16 m 16 [] = .ok ((List.replicate 16 (first + k)).map (BitVec.ofNat 64), next) := by
  have whole : min 16 (m.gen.mBufferByteCapacity - m.gen.mBytesIdx) = 16 := by
    have filled := sound.filled
    have position := sound.position
    have unread := sound.unread
    unfold PRNG.mBufferByteCapacity
    omega
  have counters : (List.range 16).map (fun j => m.bufferIdx + BitVec.ofNat 64 ((m.gen.mBytesIdx + j) / 16)) =
      (List.replicate 16 (first + k)).map (BitVec.ofNat 64) := by
    rw [List.map_replicate, List.eq_replicate_iff]
    refine ⟨by rw [List.length_map, List.length_range], fun c listed => ?_⟩
    obtain ⟨j, inside, rfl⟩ := List.mem_map.mp listed
    have bound := List.mem_range.mp inside
    have block : (16 * k + j) / 16 = k := by omega
    rw [sound.position, block, sound.bufferIdx, BitVec.ofNat_add]
  rw [getLoop, if_neg (by decide), whole]
  simp only [bind, Except.bind, ran, counters]
  rfl

theorem seedSound (sound : Sound m first k spent) : ∃ next first' k', m.seed = .ok next ∧
    m.gen.getBlock = .ok (m.gen.mAes (BitVec.ofNat 64 (first + k)), next.gen) ∧
    Sound next first' k' (spent ++ [List.replicate 16 (first + k)]) := by
  have filled := sound.filled
  have unread := sound.unread
  have ahead := sound.ahead
  have keyed : m.gen.Keyed := by
    unfold PRNG.Keyed
    omega
  obtain ⟨gen, ran, -⟩ := PRNG.getStepKeyed keyed 16
  obtain ⟨n, stepped, rfl, uses, bufferIdx, drawn⟩ := getStepMetered ran
  have after := PRNG.stepped ran
  have value : m.gen.mBuffer k = m.gen.mAes (BitVec.ofNat 64 (first + k)) := by
    rw [m.buffer, ecbEncCounterMode, sound.bufferIdx, BitVec.ofNat_add]
  have seeded : m.seed = .ok { n with
      uses := n.uses ++ [(List.replicate 16 (first + k)).map (BitVec.ofNat 64)], buffer := n.buffer } := by
    unfold seed
    rw [readCounters sound stepped]
    rfl
  have recorded : n.uses ++ [(List.replicate 16 (first + k)).map (BitVec.ofNat 64)] =
      (spent ++ [List.replicate 16 (first + k)]).map (List.map (BitVec.ofNat 64)) := by
    rw [uses, sound.recorded, List.map_append, List.map_singleton]
  have apart : (spent ++ [List.replicate 16 (first + k)]).Pairwise List.Disjoint := by
    refine pairwiseSnoc sound.apart fun old listed c inOld inNew => ?_
    obtain rfl := List.eq_of_mem_replicate inNew
    exact (sound.below old listed _ inOld).2 ⟨Nat.le_refl _, by omega⟩
  have range : m.gen.mBytesIdx + 16 < m.gen.mBufferByteCapacity ↔ k + 1 < 256 := by
    rw [sound.position, PRNG.mBufferByteCapacity, filled]
    omega
  have below : ∀ use ∈ spent ++ [List.replicate 16 (first + k)], ∀ c ∈ use,
      c < m.drawn ∧ ¬ (first + (k + 1) ≤ c ∧ c < first + 256) := by
    intro use listed c inUse
    rcases List.mem_append.mp listed with old | last
    · obtain ⟨low, outside⟩ := sound.below use old c inUse
      exact ⟨low, by omega⟩
    · obtain rfl := List.mem_singleton.mp last
      obtain rfl := List.eq_of_mem_replicate inUse
      exact ⟨by omega, by omega⟩
  refine ⟨_, if k + 1 < 256 then first else m.drawn, if k + 1 < 256 then k + 1 else 0, seeded, ?_, ?_⟩
  · rw [← value]
    exact readBlock filled sound.position unread ran
  · have blockIdx := after.blockIdx
    have bytesIdx := after.bytesIdx
    -- the last block of the buffer refills it, from the counter
    by_cases more : k + 1 < 256
    · rw [if_pos (range.mpr more)] at bufferIdx drawn blockIdx bytesIdx
      rw [if_pos more, if_pos more]
      refine ⟨after.size.trans filled, ?_, bufferIdx.trans sound.bufferIdx, ?_, more, ?_, recorded, apart, ?_⟩
      · dsimp only
        rw [blockIdx, drawn]
        exact sound.counter
      · dsimp only
        rw [bytesIdx, sound.position]
        rfl
      · dsimp only
        rw [drawn]
        exact ahead
      · dsimp only
        rw [drawn]
        exact below
    · rw [if_neg (mt range.mp more)] at bufferIdx drawn blockIdx bytesIdx
      rw [if_neg more, if_neg more]
      refine ⟨after.size.trans filled, ?_, bufferIdx.trans sound.counter, bytesIdx, by decide, ?_, recorded, apart, ?_⟩
      · dsimp only
        rw [blockIdx, drawn, sound.counter, BitVec.ofNat_add]
      · dsimp only
        rw [drawn, filled]
      · dsimp only
        rw [drawn]
        intro use listed c inUse
        have low := (below use listed c inUse).1
        exact ⟨by omega, by omega⟩

/-- While the counter has not wrapped, no counter stands behind two uses. -/
theorem usesDisjoint (sound : Sound m first k spent) (few : m.drawn < 2 ^ 64) : m.uses.Pairwise List.Disjoint := by
  rw [sound.recorded, List.pairwise_map]
  refine sound.apart.imp_of_mem fun listed listed' apart c inUse inUse' => ?_
  obtain ⟨a, memA, rfl⟩ := List.mem_map.mp inUse
  obtain ⟨b, memB, same⟩ := List.mem_map.mp inUse'
  have lowA := (sound.below _ listed a memA).1
  have lowB := (sound.below _ listed' b memB).1
  have equal := congrArg BitVec.toNat same
  rw [BitVec.toNat_ofNat, BitVec.toNat_ofNat, Nat.mod_eq_of_lt (by omega), Nat.mod_eq_of_lt (by omega)] at equal
  exact apart memA (equal ▸ memB)

end Metered

section Loops
variable {α β : Type}

def eachColumn (f : α → α) (rows numCols : Nat) (m : Nat → α) : Nat → α :=
  forLoop (Expansion.numSuperBlocks rows) (fun _ m => forLoop (numCols / 128) (fun i m =>
    forLoop 128 (fun tIdx m => Function.update m (i * 128 + tIdx) (f (m (i * 128 + tIdx)))) m) m) m

def eachSeed (f : α → Except Error α) : Nat → (Nat → α) → Except Error (Nat → α)
  | 0, m => .ok m
  | n + 1, m => do
    let m ← eachSeed f n m
    let next ← f (m n)
    pure (Function.update m n next)

theorem updateEach (f : α → α) (base n : Nat) (m : Nat → α) (c : Nat) :
    forLoop n (fun t m => Function.update m (base + t) (f (m (base + t)))) m c =
      if base ≤ c ∧ c < base + n then f (m c) else m c := by
  induction n generalizing c with
  | zero => exact (if_neg (by omega)).symm
  | succ n ih =>
    rw [forLoopSucc]
    by_cases here : c = base + n
    · subst c
      rw [Function.update_self, ih, if_neg (by omega), if_pos (by omega)]
    · rw [Function.update_of_ne here, ih]
      congr 1
      exact propext (by omega)

theorem eachColumnSpec (f : α → α) (rows numCols : Nat) (m : Nat → α) (c : Nat) :
    eachColumn f rows numCols m c =
      if c < numCols / 128 * 128 then f^[Expansion.numSuperBlocks rows] (m c) else m c := by
  have block : ∀ (n : Nat) (m : Nat → α), forLoop n (fun i m => forLoop 128
      (fun tIdx m => Function.update m (i * 128 + tIdx) (f (m (i * 128 + tIdx)))) m) m c =
        if c < n * 128 then f (m c) else m c := by
    intro n m
    induction n with
    | zero => exact (if_neg (by omega)).symm
    | succ n ih =>
      rw [forLoopSucc, updateEach, ih]
      by_cases here : n * 128 ≤ c ∧ c < n * 128 + 128
      · rw [if_pos here, if_neg (by omega), if_pos (by omega)]
      · rw [if_neg here]
        congr 1
        exact propext (by omega)
  unfold eachColumn
  induction Expansion.numSuperBlocks rows with
  | zero => rw [forLoopZero, Function.iterate_zero, id_eq, ite_self]
  | succ n ih =>
    rw [forLoopSucc, block, ih]
    split
    · rw [Function.iterate_succ_apply']
    · rfl

end Loops

def Metered.Follows (m : Metered) (gen : PRNG) : Prop := m.gen = gen ∧ ∃ first k spent, m.Sound first k spent

theorem columnsFollow {m : Metered} {gen : PRNG} (follows : m.Follows gen) (n : Nat) :
    (Metered.column^[n] m).Follows (gen.skip (n * superBlkSize)) := by
  induction n with
  | zero =>
    rw [Nat.zero_mul, PRNG.skipZero]
    exact follows
  | succ n ih =>
    obtain ⟨same, first, k, spent, sound⟩ := ih
    rw [Function.iterate_succ_apply', Nat.succ_mul, ← PRNG.skipSkip]
    exact ⟨congrArg (PRNG.skip · superBlkSize) same, first, k, _, Metered.columnSound sound⟩

/-- Row by row, a column's bits come from blocks whose counters were recorded in between. -/
def Metered.Wrote (m next : Metered) (rows : Nat) (bit : Nat → Bool) : Prop :=
  ∃ chunks, next.uses = m.uses ++ chunks ∧ ∀ row < rows, ∃ chunk counter, chunks[row / 1024]? = some chunk ∧
    chunk[row / 128 % superBlkSize]? = some counter ∧ bit row = (m.gen.mAes counter).getLsbD (row % 128)

/-- The seed is the block of the counter recorded last. -/
def Metered.Gave (m next : Metered) (seed : Block) : Prop :=
  ∃ counter, next.uses = m.uses ++ [List.replicate 16 counter] ∧ seed = m.gen.mAes counter

theorem seedFollows {m : Metered} {gen : PRNG} (follows : m.Follows gen) : ∃ next seed gen', m.seed = .ok next ∧
    gen.getBlock = .ok (seed, gen') ∧ next.Follows gen' ∧ m.Gave next seed := by
  obtain ⟨rfl, first, k, spent, sound⟩ := follows
  obtain ⟨next, first', k', drawn, read, sound'⟩ := Metered.seedSound sound
  refine ⟨next, _, next.gen, drawn, read, ⟨rfl, first', k', _, sound'⟩, BitVec.ofNat 64 (first + k), ?_, rfl⟩
  rw [sound'.recorded, sound.recorded, List.map_append, List.map_singleton, List.map_replicate]

theorem columnsUses (m : Metered) (n : Nat) : (Metered.column^[n] m).gen = m.gen.skip (n * superBlkSize) ∧
    (Metered.column^[n] m).uses = m.uses ++ (List.range n).map fun b => (List.range superBlkSize).map fun t =>
      m.gen.mBlockIdx + BitVec.ofNat 64 (b * superBlkSize + t) := by
  induction n with
  | zero =>
    rw [Nat.zero_mul, PRNG.skipZero, List.range_zero, List.map_nil, List.append_nil]
    exact ⟨rfl, rfl⟩
  | succ n ih =>
    obtain ⟨gen, uses⟩ := ih
    rw [Function.iterate_succ_apply', Nat.succ_mul, ← PRNG.skipSkip, List.range_succ, List.map_append, List.map_singleton,
      ← List.append_assoc, ← uses]
    refine ⟨congrArg (PRNG.skip · superBlkSize) gen, congrArg (_ ++ [·]) (List.map_congr_left fun t _ => ?_)⟩
    rw [gen, PRNG.skipBlockIdx, BitVec.ofNat_add, BitVec.add_assoc]

theorem padWrote (mGens : Nat → PRNG) {m : Metered} {rows c : Nat} (same : m.gen = mGens c) (aligned : rows % 128 = 0) :
    m.Wrote (Metered.column^[Expansion.numSuperBlocks rows] m) rows fun row =>
      (Expansion.padBlock mGens row (c / 128)).getLsbD (c % 128) := by
  refine ⟨_, (columnsUses m _).2, fun row inside => ?_⟩
  have block : row / 1024 < Expansion.numSuperBlocks rows := by
    unfold Expansion.numSuperBlocks superBlkSize
    omega
  have lane : row / 128 % superBlkSize < superBlkSize := Nat.mod_lt _ (by decide)
  have counter : row / 1024 * superBlkSize + row / 128 % superBlkSize = row / 128 := by
    unfold superBlkSize
    omega
  refine ⟨_, _, by rw [List.getElem?_map, List.getElem?_range block, Option.map_some],
    by rw [List.getElem?_map, List.getElem?_range lane, Option.map_some], ?_⟩
  have column : c / 128 * 128 + c % 128 = c := by omega
  unfold Expansion.padBlock
  dsimp only
  rw [BitVec.getLsbD_ofFnLE, dif_pos (Nat.mod_lt _ (by decide))]
  dsimp only
  rw [column, ← same, counter]
  rfl

inductive OwnCall where
  | init (numOtExt : Nat)
  | split

def OwnCall.call : OwnCall → Call
  | .init numOtExt => .init numOtExt
  | .split => .split

namespace PrtyMOtReceiver

def seedPair (m : Metered × Metered) : Except Error (Metered × Metered) := do
  let first ← m.1.seed
  let second ← m.2.seed
  pure (first, second)

def metered (aes : Aes) (s : PrtyMOtReceiver × (Nat → Metered × Metered)) (c : OwnCall) :
    Except Error (PrtyMOtReceiver × (Nat → Metered × Metered)) := do
  let r ← s.1.call aes c.call
  match c with
  | .init numOtExt =>
    pure (r, eachColumn (Prod.map Metered.column Metered.column) (s.1.rowCount numOtExt) s.1.mGens.size s.2)
  | .split =>
    let m ← if s.1.mHasBase then eachSeed seedPair s.1.mGens.size s.2 else pure s.2
    pure (r, m)

def meteredAll (aes : Aes) (calls : List OwnCall) (s : PrtyMOtReceiver × (Nat → Metered × Metered)) :
    PrtyMOtReceiver × (Nat → Metered × Metered) := calls.foldl (fun s c => keepOnThrow s (metered aes s c)) s

structure Tracked (r : PrtyMOtReceiver) (m : Nat → Metered × Metered) : Prop where
  hasBase : r.mHasBase = true
  first : ∀ c < r.mGens.size, (m c).1.Follows (r.mGens.get c).1
  second : ∀ c < r.mGens.size, (m c).2.Follows (r.mGens.get c).2

theorem seedsTracked {mGens : Vec (PRNG × PRNG)} {m : Nat → Metered × Metered} (base : Vec (Block × Block))
    (first : ∀ c < mGens.size, (m c).1.Follows (mGens.get c).1)
    (second : ∀ c < mGens.size, (m c).2.Follows (mGens.get c).2) {n : Nat} (inside : n ≤ mGens.size) :
    ∃ mGens' base' m', splitSeeds n mGens base = .ok (mGens', base') ∧ eachSeed seedPair n m = .ok m' ∧
      mGens'.size = mGens.size ∧ base'.size = base.size ∧
      (∀ c < mGens.size, (m' c).1.Follows (mGens'.get c).1) ∧ (∀ c < mGens.size, (m' c).2.Follows (mGens'.get c).2) ∧
      (∀ c < n, (m c).1.Gave (m' c).1 (base'.get c).1 ∧ (m c).2.Gave (m' c).2 (base'.get c).2) ∧
      ∀ c, n ≤ c → m' c = m c := by
  induction n with
  | zero =>
    exact ⟨mGens, base, m, rfl, rfl, rfl, rfl, first, second, fun c none => absurd none (Nat.not_lt_zero c),
      fun _ _ => rfl⟩
  | succ n ih =>
    obtain ⟨mGens1, base1, m1, ran, metered, size, baseSize, first1, second1, gave, later⟩ := ih (by omega)
    obtain ⟨next0, seed0, gen0, drew0, read0, follows0, gave0⟩ := seedFollows (first1 n (by omega))
    obtain ⟨next1, seed1, gen1, drew1, read1, follows1, gave1⟩ := seedFollows (second1 n (by omega))
    rw [later n (Nat.le_refl n)] at gave0 gave1
    refine ⟨⟨mGens1.size, Function.update mGens1.get n (gen0, gen1)⟩,
      ⟨base1.size, Function.update base1.get n (seed0, seed1)⟩, Function.update m1 n (next0, next1), ?_, ?_, size,
      baseSize, ?_, ?_, fun c below => ?_, fun c past => ?_⟩
    · rw [splitSeeds, ran]
      simp only [bind, Except.bind, read0, read1, pure, Except.pure]
    · rw [eachSeed, metered]
      simp only [bind, Except.bind, seedPair, drew0, drew1, pure, Except.pure]
    · exact updateBoth (p := fun _ (gens : PRNG × PRNG) (m : Metered × Metered) => m.1.Follows gens.1) follows0
        fun c below _ => first1 c below
    · exact updateBoth (p := fun _ (gens : PRNG × PRNG) (m : Metered × Metered) => m.2.Follows gens.2) follows1
        fun c below _ => second1 c below
    · dsimp only
      by_cases last : c = n
      · subst last
        rw [Function.update_self, Function.update_self]
        exact ⟨gave0, gave1⟩
      · rw [Function.update_of_ne last, Function.update_of_ne last]
        exact gave c (by omega)
    · rw [Function.update_of_ne (by omega)]
      exact later c (by omega)

theorem expandTracked {r : PrtyMOtReceiver} {m : Nat → Metered × Metered} (tracked : Tracked r m) (numOtExt : Nat) :
    Tracked (r.expandPads numOtExt)
      (eachColumn (Prod.map Metered.column Metered.column) (r.rowCount numOtExt) r.mGens.size m) := by
  have pair : ∀ (n : Nat) (m : Metered × Metered), (Prod.map Metered.column Metered.column)^[n] m =
      (Metered.column^[n] m.1, Metered.column^[n] m.2) := fun n m => by rw [Prod.map_iterate]; rfl
  refine ⟨tracked.hasBase, fun c inside => ?_, fun c inside => ?_⟩
  · have before := tracked.first c inside
    rw [eachColumnSpec, receiverGens]
    split
    · rw [pair]
      exact columnsFollow before _
    · exact before
  · have before := tracked.second c inside
    rw [eachColumnSpec, receiverGens]
    split
    · rw [pair]
      exact columnsFollow before _
    · exact before

theorem meteredStep (aes : Aes) {r : PrtyMOtReceiver} {m : Nat → Metered × Metered} (tracked : Tracked r m)
    (c : OwnCall) : ∃ m', keepOnThrow (r, m) (metered aes (r, m) c) = (keepOnThrow r (r.call aes c.call), m') ∧
      Tracked (keepOnThrow r (r.call aes c.call)) m' := by
  cases c with
  | init numOtExt =>
    by_cases bytes : r.mInputByteCount = 0
    · have threw : r.call aes (OwnCall.init numOtExt).call = .error .configureFirst := by
        change r.init numOtExt = _
        unfold PrtyMOtReceiver.init
        rw [if_neg (by simp [tracked.hasBase]), if_pos bytes]
      unfold metered
      rw [threw]
      exact ⟨m, rfl, tracked⟩
    · have ran : r.call aes (OwnCall.init numOtExt).call = .ok (r.expandPads numOtExt) :=
        initOk tracked.hasBase bytes numOtExt
      unfold metered
      rw [ran]
      exact ⟨_, rfl, expandTracked tracked numOtExt⟩
  | split =>
    obtain ⟨drawn, base, m', ran, meters, size, baseSize, first, second, -, -⟩ :=
      seedsTracked ⟨r.mGens.size, fun _ => (0#128, 0#128)⟩ tracked.first tracked.second (Nat.le_refl _)
    have kept : r.call aes OwnCall.split.call = .ok { r with mGens := drawn } := by
      have matching : base.size = r.splitRaw.mGens.size := baseSize
      unfold OwnCall.call PrtyMOtReceiver.call split
      dsimp only
      rw [if_pos tracked.hasBase, ran]
      simp only [bind, Except.bind, setBaseOtsOk aes matching, pure, Except.pure]
    have metering : metered aes (r, m) .split = .ok ({ r with mGens := drawn }, m') := by
      unfold metered
      rw [kept]
      simp only [bind, Except.bind]
      rw [if_pos tracked.hasBase]
      simp only [meters, pure, Except.pure]
    rw [metering, kept]
    refine ⟨m', rfl, tracked.hasBase, fun c inside => ?_, fun c inside => ?_⟩
    · exact first c (Nat.lt_of_lt_of_eq inside size)
    · exact second c (Nat.lt_of_lt_of_eq inside size)

/-- In the next call, the blocks `init` writes into the rows and the seeds `split` hands out
are those of the counters that the call records. -/
structure Recorded (aes : Aes) (r : PrtyMOtReceiver) (m : Nat → Metered × Metered) : Prop where
  init : ∀ numOtExt next, r.init numOtExt = .ok next → ∃ m', metered aes (r, m) (.init numOtExt) = .ok (next, m') ∧
    ∀ c < r.mGens.size / 128 * 128,
      (m c).1.Wrote (m' c).1 (r.rowCount numOtExt) (fun row => (next.t0 row (c / 128)).getLsbD (c % 128)) ∧
      (m c).2.Wrote (m' c).2 (r.rowCount numOtExt) (fun row => (next.t1 row (c / 128)).getLsbD (c % 128))
  split : ∀ next raw, r.split aes = .ok (next, raw) → ∃ m' base, metered aes (r, m) .split = .ok (next, m') ∧
    r.splitRaw.setBaseOts aes base = .ok raw ∧ ∀ c < r.mGens.size,
      (m c).1.Gave (m' c).1 (base.get c).1 ∧ (m c).2.Gave (m' c).2 (base.get c).2

theorem trackedRecorded (aes : Aes) {r : PrtyMOtReceiver} {m : Nat → Metered × Metered} (tracked : Tracked r m) :
    Recorded aes r m := by
  constructor
  · intro numOtExt next ran
    have expanded : next = r.expandPads numOtExt := by
      unfold PrtyMOtReceiver.init at ran
      split at ran
      · cases ran
      · split at ran
        · cases ran
        · exact (Except.ok.inj ran).symm
    have called : r.call aes (OwnCall.init numOtExt).call = .ok next := ran
    refine ⟨_, by
      unfold metered
      rw [called]
      rfl, fun c inside => ?_⟩
    have below : c < r.mGens.size := by omega
    obtain ⟨-, -, -, -, -, rows⟩ := receiverPads numOtExt r
    have aligned : r.rowCount numOtExt % 128 = 0 := Nat.mul_mod_left _ _
    have pair : ∀ (n : Nat) (m : Metered × Metered), (Prod.map Metered.column Metered.column)^[n] m =
        (Metered.column^[n] m.1, Metered.column^[n] m.2) := fun n m => by rw [Prod.map_iterate]; rfl
    rw [eachColumnSpec, if_pos inside, pair]
    obtain ⟨chunks0, uses0, wrote0⟩ := padWrote (fun i => (r.mGens.get i).1) (tracked.first c below).1 aligned
    obtain ⟨chunks1, uses1, wrote1⟩ := padWrote (fun i => (r.mGens.get i).2) (tracked.second c below).1 aligned
    refine ⟨⟨chunks0, uses0, fun row within => ?_⟩, chunks1, uses1, fun row within => ?_⟩
    · dsimp only
      rw [expanded, (rows row within (c / 128) (by omega)).1]
      exact wrote0 row within
    · dsimp only
      rw [expanded, (rows row within (c / 128) (by omega)).2]
      exact wrote1 row within
  · intro next raw ran
    obtain ⟨drawn, base, m', drew, meters, -, baseSize, -, -, gave, -⟩ :=
      seedsTracked ⟨r.mGens.size, fun _ => (0#128, 0#128)⟩ tracked.first tracked.second (Nat.le_refl _)
    have matching : base.size = r.splitRaw.mGens.size := baseSize
    have called : r.call aes OwnCall.split.call = .ok next := by
      unfold OwnCall.call PrtyMOtReceiver.call
      rw [ran]
      rfl
    unfold PrtyMOtReceiver.split at ran
    rw [if_pos tracked.hasBase, drew] at ran
    simp only [bind, Except.bind, setBaseOtsOk aes matching, pure, Except.pure] at ran
    cases Except.ok.inj ran
    refine ⟨m', base, ?_, setBaseOtsOk aes matching, gave⟩
    unfold metered
    rw [called]
    simp only [bind, Except.bind]
    rw [if_pos tracked.hasBase]
    simp only [meters, pure, Except.pure]

theorem meteredRun (aes : Aes) {r : PrtyMOtReceiver} {m : Nat → Metered × Metered} (tracked : Tracked r m)
    (calls : List OwnCall) : ∃ m', meteredAll aes calls (r, m) =
      (calls.foldl (fun r c => keepOnThrow r (r.call aes c.call)) r, m') ∧
      Tracked (calls.foldl (fun r c => keepOnThrow r (r.call aes c.call)) r) m' := by
  induction calls generalizing r m with
  | nil => exact ⟨m, rfl, tracked⟩
  | cons c calls ih =>
    obtain ⟨m1, stepped, tracked1⟩ := meteredStep aes tracked c
    obtain ⟨m2, ran, tracked2⟩ := ih tracked1
    refine ⟨m2, ?_, tracked2⟩
    unfold meteredAll at ran ⊢
    rw [List.foldl_cons, stepped, ran, List.foldl_cons]

theorem seededTracked (aes : Aes) {r r0 : PrtyMOtReceiver} {base : Vec (Block × Block)}
    (ran : r.setBaseOts aes base = .ok r0) :
    Tracked r0 fun c => (Metered.setSeed aes (base.get c).1, Metered.setSeed aes (base.get c).2) := by
  unfold setBaseOts at ran
  split at ran
  · cases ran
  · obtain rfl := Except.ok.inj ran
    refine ⟨rfl, fun c inside => ⟨?_, 0, 0, [], Metered.setSeedSound aes _⟩,
      fun c inside => ⟨?_, 0, 0, [], Metered.setSeedSound aes _⟩⟩
    · have below : c < r.mGens.size := inside
      simp only [seedGens, if_pos below]
      exact (PRNG.setSeedFresh aes _ _).symm
    · have below : c < r.mGens.size := inside
      simp only [seedGens, if_pos below]
      exact (PRNG.setSeedFresh aes _ _).symm

end PrtyMOtReceiver

namespace PrtyMOtSender

def metered (aes : Aes) (s : PrtyMOtSender × (Nat → Metered)) (c : OwnCall) :
    Except Error (PrtyMOtSender × (Nat → Metered)) := do
  let sender ← s.1.call aes c.call
  match c with
  | .init numOTExt =>
    pure (sender, eachColumn Metered.column (s.1.rowCount numOTExt) s.1.mGens.size s.2)
  | .split =>
    let m ← if s.1.hasBaseOts then eachSeed Metered.seed s.1.mGens.size s.2 else pure s.2
    pure (sender, m)

def meteredAll (aes : Aes) (calls : List OwnCall) (s : PrtyMOtSender × (Nat → Metered)) :
    PrtyMOtSender × (Nat → Metered) := calls.foldl (fun s c => keepOnThrow s (metered aes s c)) s

structure Tracked (s : PrtyMOtSender) (m : Nat → Metered) : Prop where
  sized : s.mBaseChoiceBits.size = s.mGens.size
  whole : s.mBaseChoiceBits.size % 128 = 0
  gens : ∀ c < s.mGens.size, (m c).Follows (s.mGens.get c)

theorem seedsTracked {mGens : Vec PRNG} {m : Nat → Metered} (base : Vec Block)
    (gens : ∀ c < mGens.size, (m c).Follows (mGens.get c)) {n : Nat} (inside : n ≤ mGens.size) :
    ∃ mGens' base' m', splitSeeds n mGens base = .ok (mGens', base') ∧ eachSeed Metered.seed n m = .ok m' ∧
      mGens'.size = mGens.size ∧ base'.size = base.size ∧ (∀ c < mGens.size, (m' c).Follows (mGens'.get c)) ∧
      (∀ c < n, (m c).Gave (m' c) (base'.get c)) ∧ ∀ c, n ≤ c → m' c = m c := by
  induction n with
  | zero =>
    exact ⟨mGens, base, m, rfl, rfl, rfl, rfl, gens, fun c none => absurd none (Nat.not_lt_zero c), fun _ _ => rfl⟩
  | succ n ih =>
    obtain ⟨mGens1, base1, m1, ran, metered, size, baseSize, gens1, gave, later⟩ := ih (by omega)
    obtain ⟨next, seed, gen, drew, read, follows, gaveNext⟩ := seedFollows (gens1 n (by omega))
    rw [later n (Nat.le_refl n)] at gaveNext
    refine ⟨⟨mGens1.size, Function.update mGens1.get n gen⟩, ⟨base1.size, Function.update base1.get n seed⟩,
      Function.update m1 n next, ?_, ?_, size, baseSize, ?_, fun c below => ?_, fun c past => ?_⟩
    · rw [splitSeeds, ran]
      simp only [bind, Except.bind, read, pure, Except.pure]
    · rw [eachSeed, metered]
      simp only [bind, Except.bind, drew, pure, Except.pure]
    · exact updateBoth (p := fun _ gen (m : Metered) => m.Follows gen) follows fun c below _ => gens1 c below
    · dsimp only
      by_cases last : c = n
      · subst last
        rw [Function.update_self, Function.update_self]
        exact gaveNext
      · rw [Function.update_of_ne last, Function.update_of_ne last]
        exact gave c (by omega)
    · rw [Function.update_of_ne (by omega)]
      exact later c (by omega)

theorem expandTracked {s : PrtyMOtSender} {m : Nat → Metered} (tracked : Tracked s m) (numOTExt : Nat) :
    Tracked (s.expandPads numOTExt) (eachColumn Metered.column (s.rowCount numOTExt) s.mGens.size m) := by
  refine ⟨tracked.sized, tracked.whole, fun c inside => ?_⟩
  have before := tracked.gens c inside
  rw [eachColumnSpec, senderGens]
  split
  · exact columnsFollow before _
  · exact before

theorem meteredStep (aes : Aes) {s : PrtyMOtSender} {m : Nat → Metered} (tracked : Tracked s m) (c : OwnCall) :
    ∃ m', keepOnThrow (s, m) (metered aes (s, m) c) = (keepOnThrow s (s.call aes c.call), m') ∧
      Tracked (keepOnThrow s (s.call aes c.call)) m' := by
  cases c with
  | init numOTExt =>
    by_cases bytes : s.mInputByteCount = 0
    · have threw : s.call aes (OwnCall.init numOTExt).call = .error .configureFirst := if_pos bytes
      unfold metered
      rw [threw]
      exact ⟨m, rfl, tracked⟩
    · have ran : s.call aes (OwnCall.init numOTExt).call = .ok (s.expandPads numOTExt) := initOk bytes numOTExt
      unfold metered
      rw [ran]
      exact ⟨_, rfl, expandTracked tracked numOTExt⟩
  | split =>
    by_cases based : s.hasBaseOts = true
    · obtain ⟨drawn, base, m', ran, meters, size, baseSize, gens, -, -⟩ :=
        seedsTracked ⟨s.mGens.size, fun _ => 0#128⟩ tracked.gens (Nat.le_refl _)
      have kept : s.call aes OwnCall.split.call = .ok { s with mGens := drawn } := by
        have matching : s.mBaseChoiceBits.size = base.size := tracked.sized.trans baseSize.symm
        unfold OwnCall.call PrtyMOtSender.call split
        dsimp only
        rw [if_pos based, ran]
        simp only [bind, Except.bind, setBaseOtsOk aes s.mBaseChoiceBits s.splitRaw matching tracked.whole, pure,
          Except.pure]
      have metering : metered aes (s, m) .split = .ok ({ s with mGens := drawn }, m') := by
        unfold metered
        rw [kept]
        simp only [bind, Except.bind]
        rw [if_pos based]
        simp only [meters, pure, Except.pure]
      rw [metering, kept]
      refine ⟨m', rfl, tracked.sized.trans size.symm, tracked.whole, fun c inside => ?_⟩
      exact gens c (Nat.lt_of_lt_of_eq inside size)
    · have kept : s.call aes OwnCall.split.call = .ok s := by
        unfold OwnCall.call PrtyMOtSender.call split
        dsimp only
        rw [if_neg based]
        rfl
      have metering : metered aes (s, m) .split = .ok (s, m) := by
        unfold metered
        rw [kept]
        simp only [bind, Except.bind]
        rw [if_neg based]
        rfl
      rw [metering, kept]
      exact ⟨m, rfl, tracked⟩

/-- As on the receiver's side; without base OTs there is no generator to draw from. -/
structure Recorded (aes : Aes) (s : PrtyMOtSender) (m : Nat → Metered) : Prop where
  init : ∀ numOTExt next, s.init numOTExt = .ok next → ∃ m', metered aes (s, m) (.init numOTExt) = .ok (next, m') ∧
    ∀ c < s.mGens.size / 128 * 128,
      (m c).Wrote (m' c) (s.rowCount numOTExt) (fun row => (next.t row (c / 128)).getLsbD (c % 128))
  split : ∀ next raw, s.split aes = .ok (next, raw) → s.hasBaseOts = true → ∃ m' base,
    metered aes (s, m) .split = .ok (next, m') ∧ s.splitRaw.setBaseOts aes base s.mBaseChoiceBits = .ok raw ∧
      ∀ c < s.mGens.size, (m c).Gave (m' c) (base.get c)

theorem trackedRecorded (aes : Aes) {s : PrtyMOtSender} {m : Nat → Metered} (tracked : Tracked s m) :
    Recorded aes s m := by
  constructor
  · intro numOTExt next ran
    have expanded : next = s.expandPads numOTExt := by
      unfold PrtyMOtSender.init at ran
      split at ran
      · cases ran
      · exact (Except.ok.inj ran).symm
    have called : s.call aes (OwnCall.init numOTExt).call = .ok next := ran
    refine ⟨_, by
      unfold metered
      rw [called]
      rfl, fun c inside => ?_⟩
    obtain ⟨-, -, -, rows⟩ := senderPads numOTExt (s := s) (by omega)
    rw [eachColumnSpec, if_pos inside]
    have aligned : s.rowCount numOTExt % 128 = 0 := Nat.mul_mod_left _ _
    obtain ⟨chunks, uses, wrote⟩ := padWrote s.mGens.get (tracked.gens c (by omega)).1 aligned
    refine ⟨chunks, uses, fun row within => ?_⟩
    dsimp only
    rw [expanded, rows row within (c / 128) (by omega)]
    exact wrote row within
  · intro next raw ran based
    obtain ⟨drawn, base, m', drew, meters, -, baseSize, -, gave, -⟩ :=
      seedsTracked ⟨s.mGens.size, fun _ => 0#128⟩ tracked.gens (Nat.le_refl _)
    have matching : s.mBaseChoiceBits.size = base.size := tracked.sized.trans baseSize.symm
    have called : s.call aes OwnCall.split.call = .ok next := by
      unfold OwnCall.call PrtyMOtSender.call
      rw [ran]
      rfl
    have seeded := setBaseOtsOk aes s.mBaseChoiceBits s.splitRaw matching tracked.whole
    unfold PrtyMOtSender.split at ran
    rw [if_pos based, drew] at ran
    simp only [bind, Except.bind, seeded, pure, Except.pure] at ran
    cases Except.ok.inj ran
    refine ⟨m', base, ?_, seeded, gave⟩
    unfold metered
    rw [called]
    simp only [bind, Except.bind]
    rw [if_pos based]
    simp only [meters, pure, Except.pure]

theorem meteredRun (aes : Aes) {s : PrtyMOtSender} {m : Nat → Metered} (tracked : Tracked s m)
    (calls : List OwnCall) : ∃ m', meteredAll aes calls (s, m) =
      (calls.foldl (fun s c => keepOnThrow s (s.call aes c.call)) s, m') ∧
      Tracked (calls.foldl (fun s c => keepOnThrow s (s.call aes c.call)) s) m' := by
  induction calls generalizing s m with
  | nil => exact ⟨m, rfl, tracked⟩
  | cons c calls ih =>
    obtain ⟨m1, stepped, tracked1⟩ := meteredStep aes tracked c
    obtain ⟨m2, ran, tracked2⟩ := ih tracked1
    refine ⟨m2, ?_, tracked2⟩
    unfold meteredAll at ran ⊢
    rw [List.foldl_cons, stepped, ran, List.foldl_cons]

theorem seededTracked (aes : Aes) {s s0 : PrtyMOtSender} {base : Vec Block} {choices : BitVector}
    (ran : s.setBaseOts aes base choices = .ok s0) : Tracked s0 fun c => Metered.setSeed aes (base.get c) := by
  unfold setBaseOts at ran
  split at ran
  · cases ran
  rename_i matching
  split at ran
  · cases ran
  rename_i whole
  obtain rfl := Except.ok.inj ran
  refine ⟨rfl, not_not.mp whole, fun c inside => ⟨?_, 0, 0, [], Metered.setSeedSound aes _⟩⟩
  have below : c < base.size := Nat.lt_of_lt_of_eq inside (not_not.mp matching)
  simp only [seedGens, if_pos below]
  exact (PRNG.setSeedFresh aes _ _).symm

end PrtyMOtSender

theorem followsDisjoint {m : Metered} {gen : PRNG} (follows : m.Follows gen) :
    m.gen = gen ∧ (m.drawn < 2 ^ 64 → m.uses.Pairwise List.Disjoint) := by
  obtain ⟨same, first, k, spent, sound⟩ := follows
  exact ⟨same, Metered.usesDisjoint sound⟩

/-- On either side, no counter of a generator stands behind two column chunks or seeds, after any
calls of `init` and `split` that follow `setBaseOts`; the counters recorded are those of the blocks
these calls write and hand out. -/
theorem noCounterReused (aes : Aes) :
    (∀ (r r0 : PrtyMOtReceiver) (base : Vec (Block × Block)) (calls : List OwnCall), r.setBaseOts aes base = .ok r0 →
      ∃ r1 m, PrtyMOtReceiver.meteredAll aes calls
          (r0, fun c => (Metered.setSeed aes (base.get c).1, Metered.setSeed aes (base.get c).2)) = (r1, m) ∧
        r1 = calls.foldl (fun r c => keepOnThrow r (r.call aes c.call)) r0 ∧
        PrtyMOtReceiver.Recorded aes r1 m ∧ ∀ c < r1.mGens.size,
          (m c).1.gen = (r1.mGens.get c).1 ∧ (m c).2.gen = (r1.mGens.get c).2 ∧
          ((m c).1.drawn < 2 ^ 64 → (m c).1.uses.Pairwise List.Disjoint) ∧
          ((m c).2.drawn < 2 ^ 64 → (m c).2.uses.Pairwise List.Disjoint)) ∧
    ∀ (s s0 : PrtyMOtSender) (base : Vec Block) (choices : BitVector) (calls : List OwnCall),
      s.setBaseOts aes base choices = .ok s0 →
      ∃ s1 m, PrtyMOtSender.meteredAll aes calls (s0, fun c => Metered.setSeed aes (base.get c)) = (s1, m) ∧
        s1 = calls.foldl (fun s c => keepOnThrow s (s.call aes c.call)) s0 ∧
        PrtyMOtSender.Recorded aes s1 m ∧ ∀ c < s1.mGens.size,
          (m c).gen = s1.mGens.get c ∧ ((m c).drawn < 2 ^ 64 → (m c).uses.Pairwise List.Disjoint) := by
  constructor
  · intro r r0 base calls ran
    obtain ⟨m, metered, tracked⟩ := PrtyMOtReceiver.meteredRun aes (PrtyMOtReceiver.seededTracked aes ran) calls
    refine ⟨_, m, metered, rfl, PrtyMOtReceiver.trackedRecorded aes tracked, fun c inside => ?_⟩
    obtain ⟨same, apart⟩ := followsDisjoint (tracked.first c inside)
    obtain ⟨same', apart'⟩ := followsDisjoint (tracked.second c inside)
    exact ⟨same, same', apart, apart'⟩
  · intro s s0 base choices calls ran
    obtain ⟨m, metered, tracked⟩ := PrtyMOtSender.meteredRun aes (PrtyMOtSender.seededTracked aes ran) calls
    exact ⟨_, m, metered, rfl, PrtyMOtSender.trackedRecorded aes tracked,
      fun c inside => followsDisjoint (tracked.gens c inside)⟩

end PaxosPsi
