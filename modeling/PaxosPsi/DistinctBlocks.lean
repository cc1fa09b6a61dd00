import PaxosPsi.AesStream
import PaxosPsi.InitGuards
import PaxosPsi.KeyStreams

/-! The blocks a generator hands out under the real AES. No counter stands behind two of
them and one key encrypts different counters to different blocks, so the chunks of the pads
and the seeds of the children never share a block. -/
namespace PaxosPsi
open Memory

/-- The AES blocks behind each column chunk and each seed. -/
def Metered.blocks (m : Metered) : List (List Block) := m.uses.map (List.map m.gen.mAes)

theorem Metered.blocksApart {m : Metered} {gen : PRNG} {seed : Block} (follows : m.Follows gen)
    (seeded : gen.SeededBy aesNi seed) (few : m.drawn < 2 ^ 64) : m.blocks.Pairwise List.Disjoint := by
  obtain ⟨same, apart⟩ := followsDisjoint follows
  have key : m.gen.mAes = aesNi seed := by rw [same]; exact seeded.key
  unfold blocks
  rw [List.pairwise_map, key]
  exact (apart few).imp fun disjoint => List.disjoint_map (aesNiInjective seed) disjoint

namespace PrtyMOtReceiver
variable {aes : Aes} {r : PrtyMOtReceiver} {seeds : Nat → Block × Block}

def SeededFrom (aes : Aes) (seeds : Nat → Block × Block) (r : PrtyMOtReceiver) : Prop :=
  ∀ i < r.mGens.size, (r.mGens.get i).1.SeededBy aes (seeds i).1 ∧ (r.mGens.get i).2.SeededBy aes (seeds i).2

theorem callSeeded (seeded : r.SeededFrom aes seeds) (c : OwnCall) :
    (keepOnThrow r (r.call aes c.call)).SeededFrom aes seeds := by
  cases c with
  | init numOtExt =>
    change (keepOnThrow r (r.init numOtExt)).SeededFrom aes seeds
    unfold init
    split
    · exact seeded
    · split
      · exact seeded
      · exact expandedSeeded seeded numOtExt
  | split =>
    unfold OwnCall.call call
    cases ran : r.split aes with
    | error e => exact seeded
    | ok drawn =>
      have kept := splitAfter (fun _ _ => 0#128) ran
      obtain ⟨sized, keys⟩ := splitGensSeeded seeded r.mGens.size
      change drawn.1.SeededFrom aes seeds
      rw [← kept]
      unfold after
      dsimp only
      split
      · exact fun i inside => keys i (Nat.lt_of_lt_of_eq inside sized)
      · exact seeded

theorem callsSeeded (seeded : r.SeededFrom aes seeds) (calls : List OwnCall) :
    (calls.foldl (fun r c => keepOnThrow r (r.call aes c.call)) r).SeededFrom aes seeds := by
  induction calls generalizing r with
  | nil => exact seeded
  | cons c calls ih => exact ih (callSeeded seeded c)

theorem setSeeded {r0 : PrtyMOtReceiver} {base : Vec (Block × Block)} (ran : r.setBaseOts aes base = .ok r0) :
    r0.SeededFrom aes base.get := by
  unfold setBaseOts at ran
  split at ran
  · cases ran
  · cases ran
    intro i inside
    have below : i < r.mGens.size := inside
    simp only [seedGens, if_pos below]
    exact ⟨setSeedBy aes _ _, setSeedBy aes _ _⟩

end PrtyMOtReceiver

namespace PrtyMOtSender
variable {aes : Aes} {s : PrtyMOtSender} {seeds : Nat → Block}

def SeededFrom (aes : Aes) (seeds : Nat → Block) (s : PrtyMOtSender) : Prop :=
  ∀ i < s.mGens.size, (s.mGens.get i).SeededBy aes (seeds i)

theorem callSeeded (seeded : s.SeededFrom aes seeds) (c : OwnCall) :
    (keepOnThrow s (s.call aes c.call)).SeededFrom aes seeds := by
  cases c with
  | init numOTExt =>
    change (keepOnThrow s (s.init numOTExt)).SeededFrom aes seeds
    unfold init
    split
    · exact seeded
    · exact expandedSeeded seeded numOTExt
  | split =>
    unfold OwnCall.call call
    cases ran : s.split aes with
    | error e => exact seeded
    | ok drawn =>
      have kept := splitAfter (fun _ _ => 0#128) ran
      obtain ⟨sized, keys⟩ := splitGensSeeded seeded s.mGens.size
      change drawn.1.SeededFrom aes seeds
      rw [← kept]
      unfold after
      dsimp only
      split
      · exact fun i inside => keys i (Nat.lt_of_lt_of_eq inside sized)
      · exact seeded

theorem callsSeeded (seeded : s.SeededFrom aes seeds) (calls : List OwnCall) :
    (calls.foldl (fun s c => keepOnThrow s (s.call aes c.call)) s).SeededFrom aes seeds := by
  induction calls generalizing s with
  | nil => exact seeded
  | cons c calls ih => exact ih (callSeeded seeded c)

theorem setSeeded {s0 : PrtyMOtSender} {base : Vec Block} {choices : BitVector}
    (ran : s.setBaseOts aes base choices = .ok s0) : s0.SeededFrom aes base.get := by
  unfold setBaseOts at ran
  split at ran
  · cases ran
  rename_i matching
  split at ran
  · cases ran
  cases ran
  intro i inside
  have below : i < base.size := Nat.lt_of_lt_of_eq inside (not_not.mp matching)
  simp only [seedGens, if_pos below]
  exact setSeedBy aes _ _

end PrtyMOtSender

/-- After any calls of `init` and `split` that follow `setBaseOts`, the blocks of one
generator's column chunks and of the seeds it gave to children do not meet. The next call writes
and hands out the blocks of the counters it records. -/
theorem blocksNeverRepeat :
    (∀ (r r0 : PrtyMOtReceiver) (base : Vec (Block × Block)) (calls : List OwnCall), r.setBaseOts aesNi base = .ok r0 →
      ∃ r1 m, PrtyMOtReceiver.meteredAll aesNi calls
          (r0, fun c => (Metered.setSeed aesNi (base.get c).1, Metered.setSeed aesNi (base.get c).2)) = (r1, m) ∧
        r1 = calls.foldl (fun r c => keepOnThrow r (r.call aesNi c.call)) r0 ∧
        PrtyMOtReceiver.Recorded aesNi r1 m ∧ ∀ c < r1.mGens.size,
          (m c).1.gen = (r1.mGens.get c).1 ∧ (m c).2.gen = (r1.mGens.get c).2 ∧
          ((m c).1.drawn < 2 ^ 64 → (m c).1.blocks.Pairwise List.Disjoint) ∧
          ((m c).2.drawn < 2 ^ 64 → (m c).2.blocks.Pairwise List.Disjoint)) ∧
    ∀ (s s0 : PrtyMOtSender) (base : Vec Block) (choices : BitVector) (calls : List OwnCall),
      s.setBaseOts aesNi base choices = .ok s0 →
      ∃ s1 m, PrtyMOtSender.meteredAll aesNi calls (s0, fun c => Metered.setSeed aesNi (base.get c)) = (s1, m) ∧
        s1 = calls.foldl (fun s c => keepOnThrow s (s.call aesNi c.call)) s0 ∧
        PrtyMOtSender.Recorded aesNi s1 m ∧ ∀ c < s1.mGens.size,
          (m c).gen = s1.mGens.get c ∧ ((m c).drawn < 2 ^ 64 → (m c).blocks.Pairwise List.Disjoint) := by
  constructor
  · intro r r0 base calls ran
    obtain ⟨m, metered, tracked⟩ := PrtyMOtReceiver.meteredRun aesNi (PrtyMOtReceiver.seededTracked aesNi ran) calls
    refine ⟨_, m, metered, rfl, PrtyMOtReceiver.trackedRecorded aesNi tracked, fun c inside => ?_⟩
    obtain ⟨first, second⟩ := PrtyMOtReceiver.callsSeeded (PrtyMOtReceiver.setSeeded ran) calls c inside
    exact ⟨(tracked.first c inside).1, (tracked.second c inside).1,
      Metered.blocksApart (tracked.first c inside) first, Metered.blocksApart (tracked.second c inside) second⟩
  · intro s s0 base choices calls ran
    obtain ⟨m, metered, tracked⟩ := PrtyMOtSender.meteredRun aesNi (PrtyMOtSender.seededTracked aesNi ran) calls
    have keys := PrtyMOtSender.callsSeeded (PrtyMOtSender.setSeeded ran) calls
    exact ⟨_, m, metered, rfl, PrtyMOtSender.trackedRecorded aesNi tracked, fun c inside =>
      ⟨(tracked.gens c inside).1, Metered.blocksApart (tracked.gens c inside) (keys c inside)⟩⟩

end PaxosPsi
