import PaxosPsi.BaseOts
import PaxosPsi.CodeTables

/-! Call orders on one instance. `init` is guarded by what the earlier calls left: the
receiver's flag is set by `setBaseOts` and cleared by nothing, the sender has no such flag,
and the byte count is set by every `configure`, also where no code is loaded. -/
namespace PaxosPsi
open Memory

inductive SetupCall (Base : Type) where
  | configure (maliciousSecure : Bool) (statSecParam inputBitCount : Nat)
  | setBaseOts (base : Base)
  | split
  | init (numOtExt : Nat)

section Histories
variable {Base : Type}

def lastWidth : List (SetupCall Base) → Option Nat
  | [] => none
  | .configure _ _ inputBitCount :: _ => some inputBitCount
  | _ :: earlier => lastWidth earlier

/-- The base OTs set last since the latest `configure`; `returns` tells which calls do. -/
def basedSince (returns : List (SetupCall Base) → Base → Bool) : List (SetupCall Base) → Option Base
  | [] => none
  | .configure _ _ _ :: _ => none
  | .setBaseOts base :: earlier => if returns earlier base then some base else basedSince returns earlier
  | _ :: earlier => basedSince returns earlier

def everBased (returns : List (SetupCall Base) → Base → Bool) : List (SetupCall Base) → Bool
  | [] => false
  | .setBaseOts base :: earlier => returns earlier base || everBased returns earlier
  | _ :: earlier => everBased returns earlier

def widthBytes (calls : List (SetupCall Base)) : Nat :=
  match lastWidth calls with
  | none => 0
  | some inputBitCount => (inputBitCount + 7) % 2 ^ 64 / 8

def Renewed (returns : List (SetupCall Base) → Base → Bool) (calls : List (SetupCall Base)) : Prop :=
  (∃ inputBitCount, lastWidth calls = some inputBitCount ∧ (mxHeader inputBitCount).isSome) ∧
    (basedSince returns calls).isSome

end Histories

structure PRNG.SeededBy (aes : Aes) (seed : Block) (prng : PRNG) : Prop where
  key : prng.mAes = aes seed
  keyed : prng.Keyed

theorem setSeedBy (aes : Aes) (seed : Block) (prng : PRNG) : (prng.setSeed aes seed).SeededBy aes seed :=
  ⟨rfl, PRNG.setSeedKeyed aes seed prng⟩

theorem getBlockBy {aes : Aes} {seed drawn : Block} {prng next : PRNG} (seeded : prng.SeededBy aes seed)
    (ran : prng.getBlock = .ok (drawn, next)) : next.SeededBy aes seed := by
  obtain ⟨key, size⟩ := PRNG.getBlockFrame ran
  refine ⟨key.trans seeded.key, ?_⟩
  unfold PRNG.Keyed
  rw [size]
  exact seeded.keyed

namespace PrtyMOtReceiver

/-- The generators when the loop of `split` is left, and whether it was left without a throw. -/
def splitGens : Nat → Vec (PRNG × PRNG) → Bool × Vec (PRNG × PRNG)
  | 0, mGens => (true, mGens)
  | n + 1, mGens =>
    let (going, mGens) := splitGens n mGens
    if going then
      match (mGens.get n).1.getBlock with
      | .error _ => (false, mGens)
      | .ok (_, gen0) =>
        match (mGens.get n).2.getBlock with
        | .error _ => (false, ⟨mGens.size, Function.update mGens.get n (gen0, (mGens.get n).2)⟩)
        | .ok (_, gen1) => (true, ⟨mGens.size, Function.update mGens.get n (gen0, gen1)⟩)
    else (false, mGens)

def after (aes : Aes) (mx : Nat → Blocks) (r : PrtyMOtReceiver) :
    SetupCall (Vec (Block × Block)) → PrtyMOtReceiver
  | .configure maliciousSecure statSecParam inputBitCount =>
    r.configure mx maliciousSecure statSecParam inputBitCount
  | .setBaseOts base => keepOnThrow r (r.setBaseOts aes base)
  | .split => if r.mHasBase then { r with mGens := (splitGens r.mGens.size r.mGens).2 } else r
  | .init numOtExt => keepOnThrow r (r.init numOtExt)

def run (aes : Aes) (mx : Nat → Blocks) : List (SetupCall (Vec (Block × Block))) → PrtyMOtReceiver
  | [] => new
  | call :: earlier => (run aes mx earlier).after aes mx call

def baseReturns (aes : Aes) (mx : Nat → Blocks) (earlier : List (SetupCall (Vec (Block × Block))))
    (base : Vec (Block × Block)) : Bool := returned ((run aes mx earlier).setBaseOts aes base)

/-- Every generator runs on the base OTs set since the latest `configure`, for the code it loaded. -/
def Fresh (aes : Aes) (mx : Nat → Blocks) (calls : List (SetupCall (Vec (Block × Block)))) : Prop :=
  ∃ inputBitCount mGSize codewordBits base, lastWidth calls = some inputBitCount ∧
    mxHeader inputBitCount = some (mGSize, codewordBits) ∧
    (run aes mx calls).mCode = ⟨codewordBits, mGSize, mx inputBitCount⟩ ∧
    basedSince (baseReturns aes mx) calls = some base ∧
    ∀ i < (run aes mx calls).mGens.size,
      ((run aes mx calls).mGens.get i).1.SeededBy aes (base.get i).1 ∧
      ((run aes mx calls).mGens.get i).2.SeededBy aes (base.get i).2

/-- An `init` after the history expands fresh generators or throws and changes nothing. -/
def InitGuarded (aes : Aes) (mx : Nat → Blocks) (calls : List (SetupCall (Vec (Block × Block))))
    (numOtExt : Nat) : Prop :=
  Fresh aes mx calls ∨ (∃ e, (run aes mx calls).init numOtExt = .error e) ∧
    run aes mx (.init numOtExt :: calls) = run aes mx calls

structure History (aes : Aes) (mx : Nat → Blocks) (calls : List (SetupCall (Vec (Block × Block))))
    (r : PrtyMOtReceiver) : Prop where
  hasBase : r.mHasBase = everBased (baseReturns aes mx) calls
  bytes : r.mInputByteCount = widthBytes calls
  code : ∀ inputBitCount mGSize codewordBits, lastWidth calls = some inputBitCount →
    mxHeader inputBitCount = some (mGSize, codewordBits) → r.mCode = ⟨codewordBits, mGSize, mx inputBitCount⟩
  seeded : ∀ base, basedSince (baseReturns aes mx) calls = some base → ∀ i < r.mGens.size,
    (r.mGens.get i).1.SeededBy aes (base.get i).1 ∧ (r.mGens.get i).2.SeededBy aes (base.get i).2

theorem splitGensSeeded {aes : Aes} {seeds : Nat → Block × Block} {size : Nat} {mGens : Vec (PRNG × PRNG)}
    (seeded : ∀ i < size, (mGens.get i).1.SeededBy aes (seeds i).1 ∧ (mGens.get i).2.SeededBy aes (seeds i).2)
    (n : Nat) : (splitGens n mGens).2.size = mGens.size ∧
      ∀ i < size, ((splitGens n mGens).2.get i).1.SeededBy aes (seeds i).1 ∧
        ((splitGens n mGens).2.get i).2.SeededBy aes (seeds i).2 := by
  induction n with
  | zero => exact ⟨rfl, seeded⟩
  | succ n ih =>
    obtain ⟨sized, kept⟩ := ih
    have updated : ∀ {gen0 gen1 : PRNG}, (n < size → gen0.SeededBy aes (seeds n).1) →
        (n < size → gen1.SeededBy aes (seeds n).2) → ∀ i < size,
        (Function.update (splitGens n mGens).2.get n (gen0, gen1) i).1.SeededBy aes (seeds i).1 ∧
          (Function.update (splitGens n mGens).2.get n (gen0, gen1) i).2.SeededBy aes (seeds i).2 :=
      fun first second => (Function.forall_update_iff _ fun i (pair : PRNG × PRNG) => i < size →
        pair.1.SeededBy aes (seeds i).1 ∧ pair.2.SeededBy aes (seeds i).2).mpr
          ⟨fun inside => ⟨first inside, second inside⟩, fun i _ => kept i⟩
    unfold splitGens
    dsimp only
    split
    · split
      · exact ⟨sized, kept⟩
      · rename_i drawn0
        split
        · exact ⟨sized, updated (fun inside => getBlockBy (kept n inside).1 drawn0) fun inside => (kept n inside).2⟩
        · rename_i drawn1
          exact ⟨sized, updated (fun inside => getBlockBy (kept n inside).1 drawn0)
            fun inside => getBlockBy (kept n inside).2 drawn1⟩
    · exact ⟨sized, kept⟩

theorem splitSeedsGens {n : Nat} {mGens drawn : Vec (PRNG × PRNG)} {base seeds : Vec (Block × Block)}
    (ran : splitSeeds n mGens base = .ok (drawn, seeds)) : splitGens n mGens = (true, drawn) := by
  induction n generalizing drawn seeds with
  | zero =>
    obtain ⟨rfl, -⟩ := Prod.mk.inj (Except.ok.inj ran)
    rfl
  | succ n ih =>
    unfold splitSeeds at ran
    simp only [bind, Except.bind, pure, Except.pure] at ran
    split at ran
    · cases ran
    rename_i pair before
    split at ran
    · cases ran
    rename_i drawn0 first
    split at ran
    · cases ran
    rename_i drawn1 second
    obtain ⟨rfl, -⟩ := Prod.mk.inj (Except.ok.inj ran)
    unfold splitGens
    rw [ih before]
    dsimp only
    rw [if_pos rfl, first]
    dsimp only
    rw [second]

theorem splitAfter {aes : Aes} (mx : Nat → Blocks) {r kept raw : PrtyMOtReceiver}
    (ran : r.split aes = .ok (kept, raw)) : r.after aes mx .split = kept := by
  unfold split at ran
  unfold after
  split at ran
  · rename_i based
    simp only [bind, Except.bind, pure, Except.pure] at ran
    split at ran
    · cases ran
    rename_i pair drawn
    split at ran
    · cases ran
    obtain ⟨rfl, -⟩ := Prod.mk.inj (Except.ok.inj ran)
    dsimp only
    rw [if_pos based, splitSeedsGens drawn]
  · rename_i unbased
    obtain ⟨rfl, -⟩ := Prod.mk.inj (Except.ok.inj ran)
    exact if_neg unbased

section Runs
variable {aes : Aes} {mx : Nat → Blocks} {calls : List (SetupCall (Vec (Block × Block)))}

theorem expandedSeeded {r : PrtyMOtReceiver} {seeds : Nat → Block × Block}
    (seeded : ∀ i < r.mGens.size, (r.mGens.get i).1.SeededBy aes (seeds i).1 ∧
      (r.mGens.get i).2.SeededBy aes (seeds i).2) (numOtExt : Nat) : ∀ i < r.mGens.size,
      ((r.expandPads numOtExt).mGens.get i).1.SeededBy aes (seeds i).1 ∧
      ((r.expandPads numOtExt).mGens.get i).2.SeededBy aes (seeds i).2 := by
  intro i inside
  obtain ⟨first, second⟩ := seeded i inside
  rw [receiverGens]
  split
  · exact ⟨⟨first.key, first.keyed⟩, ⟨second.key, second.keyed⟩⟩
  · exact ⟨first, second⟩

theorem historyStep {r : PrtyMOtReceiver} (same : r = run aes mx calls) (history : History aes mx calls r)
    (call : SetupCall (Vec (Block × Block))) : History aes mx (call :: calls) (r.after aes mx call) := by
  cases call with
  | configure maliciousSecure statSecParam inputBitCount =>
    refine ⟨history.hasBase, rfl, fun width mGSize codewordBits latest listed => ?_, fun base none => ?_⟩
    · obtain rfl : inputBitCount = width := Option.some.inj latest
      exact (Supported.mk mGSize codewordBits listed).loaded mx r.mCode
    · cases none
  | setBaseOts base =>
    by_cases sized : base.size = r.mGens.size
    · have ran := setBaseOtsOk aes sized
      have returns : baseReturns aes mx calls base = true := by
        unfold baseReturns
        rw [← same, ran]
        rfl
      have state : r.after aes mx (.setBaseOts base) = r.seedGens aes base := keepOnThrowOk ran
      rw [state]
      refine ⟨?_, history.bytes, history.code, fun base' latest i inside => ?_⟩
      · rw [everBased, returns]
        rfl
      · rw [basedSince, if_pos returns] at latest
        obtain rfl := Option.some.inj latest
        have below : i < r.mGens.size := inside
        simp only [seedGens, if_pos below]
        exact ⟨setSeedBy aes _ _, setSeedBy aes _ _⟩
    · have ran : r.setBaseOts aes base = .error .rtError := if_pos sized
      have throws : baseReturns aes mx calls base = false := by
        unfold baseReturns
        rw [← same, ran]
        rfl
      have state : r.after aes mx (.setBaseOts base) = r := keepOnThrowError ran
      rw [state]
      refine ⟨?_, history.bytes, history.code, fun base' latest => ?_⟩
      · rw [everBased, throws, Bool.false_or]
        exact history.hasBase
      · rw [basedSince, throws] at latest
        exact history.seeded base' latest
  | split =>
    unfold after
    dsimp only
    split
    · refine ⟨history.hasBase, history.bytes, history.code, fun base latest => ?_⟩
      -- a throw in the loop leaves generators drawn from, under the keys they had
      obtain ⟨sized, seeded⟩ := splitGensSeeded (history.seeded base latest) r.mGens.size
      intro i inside
      exact seeded i (Nat.lt_of_lt_of_eq inside sized)
    · exact ⟨history.hasBase, history.bytes, history.code, history.seeded⟩
  | init numOtExt =>
    unfold after
    dsimp only
    unfold init
    split
    · exact ⟨history.hasBase, history.bytes, history.code, history.seeded⟩
    · split
      · exact ⟨history.hasBase, history.bytes, history.code, history.seeded⟩
      · exact ⟨history.hasBase, history.bytes, history.code,
          fun base latest => expandedSeeded (history.seeded base latest) numOtExt⟩

theorem historyRun (aes : Aes) (mx : Nat → Blocks) (calls : List (SetupCall (Vec (Block × Block)))) :
    History aes mx calls (run aes mx calls) := by
  induction calls with
  | nil => exact ⟨rfl, rfl, (fun _ _ _ none => by cases none), fun _ none => by cases none⟩
  | cons call earlier ih => exact historyStep rfl ih call

theorem guardedByThrow {e : Error} {numOtExt : Nat} (threw : (run aes mx calls).init numOtExt = .error e) :
    InitGuarded aes mx calls numOtExt := Or.inr ⟨⟨e, threw⟩, keepOnThrowError threw⟩

theorem initGuardedIff (numOtExt : Nat) : InitGuarded aes mx calls numOtExt ↔
    (everBased (baseReturns aes mx) calls = true → widthBytes calls ≠ 0 → Renewed (baseReturns aes mx) calls) := by
  have history := historyRun aes mx calls
  constructor
  · rintro (fresh | ⟨⟨e, threw⟩, -⟩) based wide
    · obtain ⟨inputBitCount, mGSize, codewordBits, base, latest, listed, -, set, -⟩ := fresh
      exact ⟨⟨inputBitCount, latest, by rw [listed]; rfl⟩, by rw [set]; rfl⟩
    · rw [initOk (history.hasBase.trans based) (by rw [history.bytes]; exact wide)] at threw
      cases threw
  · intro renewed
    by_cases based : everBased (baseReturns aes mx) calls = true
    · by_cases wide : widthBytes calls = 0
      · have threw : (run aes mx calls).init numOtExt = .error .configureFirst := by
          unfold init
          rw [if_neg (by rw [history.hasBase, based]; decide), if_pos (by rw [history.bytes]; exact wide)]
        exact guardedByThrow threw
      · obtain ⟨⟨inputBitCount, latest, isListed⟩, isBased⟩ := renewed based wide
        obtain ⟨⟨mGSize, codewordBits⟩, listed⟩ := Option.isSome_iff_exists.mp isListed
        obtain ⟨base, set⟩ := Option.isSome_iff_exists.mp isBased
        exact Or.inl ⟨inputBitCount, mGSize, codewordBits, base, latest, listed,
          history.code _ _ _ latest listed, set, history.seeded base set⟩
    · have threw : (run aes mx calls).init numOtExt = .error .rtError := by
        unfold init
        rw [if_pos (by rw [history.hasBase]; exact Bool.eq_false_of_not_eq_true based)]
      exact guardedByThrow threw

end Runs
end PrtyMOtReceiver

namespace PrtyMOtSender

def splitGens : Nat → Vec PRNG → Bool × Vec PRNG
  | 0, mGens => (true, mGens)
  | n + 1, mGens =>
    let (going, mGens) := splitGens n mGens
    if going then
      match (mGens.get n).getBlock with
      | .error _ => (false, mGens)
      | .ok (_, gen) => (true, ⟨mGens.size, Function.update mGens.get n gen⟩)
    else (false, mGens)

def after (aes : Aes) (mx : Nat → Blocks) (s : PrtyMOtSender) : SetupCall (Vec Block × BitVector) → PrtyMOtSender
  | .configure maliciousSecure statSecParam inputBitCount =>
    s.configure mx maliciousSecure statSecParam inputBitCount
  | .setBaseOts base => keepOnThrow s (s.setBaseOts aes base.1 base.2)
  | .split => if s.hasBaseOts then { s with mGens := (splitGens s.mGens.size s.mGens).2 } else s
  | .init numOTExt => keepOnThrow s (s.init numOTExt)

def run (aes : Aes) (mx : Nat → Blocks) : List (SetupCall (Vec Block × BitVector)) → PrtyMOtSender
  | [] => new
  | call :: earlier => (run aes mx earlier).after aes mx call

def baseReturns (aes : Aes) (mx : Nat → Blocks) (earlier : List (SetupCall (Vec Block × BitVector)))
    (base : Vec Block × BitVector) : Bool := returned ((run aes mx earlier).setBaseOts aes base.1 base.2)

/-- Every generator runs on the base OTs set since the latest `configure`, for the code it loaded. -/
def Fresh (aes : Aes) (mx : Nat → Blocks) (calls : List (SetupCall (Vec Block × BitVector))) : Prop :=
  ∃ inputBitCount mGSize codewordBits base, lastWidth calls = some inputBitCount ∧
    mxHeader inputBitCount = some (mGSize, codewordBits) ∧
    (run aes mx calls).mCode = ⟨codewordBits, mGSize, mx inputBitCount⟩ ∧
    basedSince (baseReturns aes mx) calls = some base ∧
    ∀ i < (run aes mx calls).mGens.size, ((run aes mx calls).mGens.get i).SeededBy aes (base.1.get i)

/-- An `init` after the history expands fresh generators or throws and changes nothing. -/
def InitGuarded (aes : Aes) (mx : Nat → Blocks) (calls : List (SetupCall (Vec Block × BitVector)))
    (numOTExt : Nat) : Prop :=
  Fresh aes mx calls ∨ (∃ e, (run aes mx calls).init numOTExt = .error e) ∧
    run aes mx (.init numOTExt :: calls) = run aes mx calls

structure History (aes : Aes) (mx : Nat → Blocks) (calls : List (SetupCall (Vec Block × BitVector)))
    (s : PrtyMOtSender) : Prop where
  bytes : s.mInputByteCount = widthBytes calls
  code : ∀ inputBitCount mGSize codewordBits, lastWidth calls = some inputBitCount →
    mxHeader inputBitCount = some (mGSize, codewordBits) → s.mCode = ⟨codewordBits, mGSize, mx inputBitCount⟩
  seeded : ∀ base, basedSince (baseReturns aes mx) calls = some base → ∀ i < s.mGens.size,
    (s.mGens.get i).SeededBy aes (base.1.get i)

theorem splitGensSeeded {aes : Aes} {seeds : Nat → Block} {size : Nat} {mGens : Vec PRNG}
    (seeded : ∀ i < size, (mGens.get i).SeededBy aes (seeds i)) (n : Nat) :
    (splitGens n mGens).2.size = mGens.size ∧ ∀ i < size, ((splitGens n mGens).2.get i).SeededBy aes (seeds i) := by
  induction n with
  | zero => exact ⟨rfl, seeded⟩
  | succ n ih =>
    obtain ⟨sized, kept⟩ := ih
    unfold splitGens
    dsimp only
    split
    · split
      · exact ⟨sized, kept⟩
      · rename_i drawn
        refine ⟨sized, (Function.forall_update_iff _ fun i (gen : PRNG) => i < size → gen.SeededBy aes (seeds i)).mpr
          ⟨fun inside => getBlockBy (kept n inside) drawn, fun i _ => kept i⟩⟩
    · exact ⟨sized, kept⟩

theorem splitSeedsGens {n : Nat} {mGens drawn : Vec PRNG} {base seeds : Vec Block}
    (ran : splitSeeds n mGens base = .ok (drawn, seeds)) : splitGens n mGens = (true, drawn) := by
  induction n generalizing drawn seeds with
  | zero =>
    obtain ⟨rfl, -⟩ := Prod.mk.inj (Except.ok.inj ran)
    rfl
  | succ n ih =>
    unfold splitSeeds at ran
    simp only [bind, Except.bind, pure, Except.pure] at ran
    split at ran
    · cases ran
    rename_i pair before
    split at ran
    · cases ran
    rename_i drawn0 first
    obtain ⟨rfl, -⟩ := Prod.mk.inj (Except.ok.inj ran)
    unfold splitGens
    rw [ih before]
    dsimp only
    rw [if_pos rfl, first]

theorem splitAfter {aes : Aes} (mx : Nat → Blocks) {s kept raw : PrtyMOtSender}
    (ran : s.split aes = .ok (kept, raw)) : s.after aes mx .split = kept := by
  unfold split at ran
  unfold after
  split at ran
  · rename_i based
    simp only [bind, Except.bind, pure, Except.pure] at ran
    split at ran
    · cases ran
    rename_i pair drawn
    split at ran
    · cases ran
    obtain ⟨rfl, -⟩ := Prod.mk.inj (Except.ok.inj ran)
    dsimp only
    rw [if_pos based, splitSeedsGens drawn]
  · rename_i unbased
    obtain ⟨rfl, -⟩ := Prod.mk.inj (Except.ok.inj ran)
    exact if_neg unbased

section Runs
variable {aes : Aes} {mx : Nat → Blocks} {calls : List (SetupCall (Vec Block × BitVector))}

theorem expandedSeeded {s : PrtyMOtSender} {seeds : Nat → Block}
    (seeded : ∀ i < s.mGens.size, (s.mGens.get i).SeededBy aes (seeds i)) (numOTExt : Nat) :
    ∀ i < s.mGens.size, ((s.expandPads numOTExt).mGens.get i).SeededBy aes (seeds i) := by
  intro i inside
  have seed := seeded i inside
  rw [senderGens]
  split
  · exact ⟨seed.key, seed.keyed⟩
  · exact seed

theorem historyStep {s : PrtyMOtSender} (same : s = run aes mx calls) (history : History aes mx calls s)
    (call : SetupCall (Vec Block × BitVector)) : History aes mx (call :: calls) (s.after aes mx call) := by
  cases call with
  | configure maliciousSecure statSecParam inputBitCount =>
    refine ⟨rfl, fun width mGSize codewordBits latest listed => ?_, fun base none => ?_⟩
    · obtain rfl : inputBitCount = width := Option.some.inj latest
      exact (Supported.mk mGSize codewordBits listed).loaded mx s.mCode
    · cases none
  | setBaseOts base =>
    by_cases sized : base.2.size = base.1.size ∧ base.2.size % 128 = 0
    · have ran := setBaseOtsOk aes base.2 s sized.1 sized.2
      have returns : baseReturns aes mx calls base = true := by
        unfold baseReturns
        rw [← same, ran]
        rfl
      have state : s.after aes mx (.setBaseOts base) = s.seedGens aes base.1 base.2 := keepOnThrowOk ran
      rw [state]
      refine ⟨history.bytes, history.code, fun base' latest i inside => ?_⟩
      rw [basedSince, if_pos returns] at latest
      obtain rfl := Option.some.inj latest
      have below : i < base.1.size := Nat.lt_of_lt_of_eq inside sized.1
      simp only [seedGens, if_pos below]
      exact setSeedBy aes _ _
    · obtain ⟨e, ran⟩ : ∃ e, s.setBaseOts aes base.1 base.2 = .error e := by
        unfold setBaseOts
        by_cases matching : base.2.size = base.1.size
        · exact ⟨_, by rw [if_neg (not_not.mpr matching), if_pos fun whole => sized ⟨matching, whole⟩]⟩
        · exact ⟨_, if_pos matching⟩
      have throws : baseReturns aes mx calls base = false := by
        unfold baseReturns
        rw [← same, ran]
        rfl
      have state : s.after aes mx (.setBaseOts base) = s := keepOnThrowError ran
      rw [state]
      refine ⟨history.bytes, history.code, fun base' latest => ?_⟩
      rw [basedSince, throws] at latest
      exact history.seeded base' latest
  | split =>
    unfold after
    dsimp only
    split
    · refine ⟨history.bytes, history.code, fun base latest => ?_⟩
      obtain ⟨sized, seeded⟩ := splitGensSeeded (history.seeded base latest) s.mGens.size
      intro i inside
      exact seeded i (Nat.lt_of_lt_of_eq inside sized)
    · exact ⟨history.bytes, history.code, history.seeded⟩
  | init numOTExt =>
    unfold after
    dsimp only
    unfold init
    split
    · exact ⟨history.bytes, history.code, history.seeded⟩
    · exact ⟨history.bytes, history.code, fun base latest => expandedSeeded (history.seeded base latest) numOTExt⟩

theorem historyRun (aes : Aes) (mx : Nat → Blocks) (calls : List (SetupCall (Vec Block × BitVector))) :
    History aes mx calls (run aes mx calls) := by
  induction calls with
  | nil => exact ⟨rfl, (fun _ _ _ none => by cases none), fun _ none => by cases none⟩
  | cons call earlier ih => exact historyStep rfl ih call

theorem guardedByThrow {e : Error} {numOTExt : Nat} (threw : (run aes mx calls).init numOTExt = .error e) :
    InitGuarded aes mx calls numOTExt := Or.inr ⟨⟨e, threw⟩, keepOnThrowError threw⟩

theorem initGuardedIff (numOTExt : Nat) : InitGuarded aes mx calls numOTExt ↔
    (widthBytes calls ≠ 0 → Renewed (baseReturns aes mx) calls) := by
  have history := historyRun aes mx calls
  constructor
  · rintro (fresh | ⟨⟨e, threw⟩, -⟩) wide
    · obtain ⟨inputBitCount, mGSize, codewordBits, base, latest, listed, -, set, -⟩ := fresh
      exact ⟨⟨inputBitCount, latest, by rw [listed]; rfl⟩, by rw [set]; rfl⟩
    · rw [initOk (by rw [history.bytes]; exact wide)] at threw
      cases threw
  · intro renewed
    by_cases wide : widthBytes calls = 0
    · have threw : (run aes mx calls).init numOTExt = .error .configureFirst := by
        unfold init
        rw [if_pos (by rw [history.bytes]; exact wide)]
      exact guardedByThrow threw
    · obtain ⟨⟨inputBitCount, latest, isListed⟩, isBased⟩ := renewed wide
      obtain ⟨⟨mGSize, codewordBits⟩, listed⟩ := Option.isSome_iff_exists.mp isListed
      obtain ⟨base, set⟩ := Option.isSome_iff_exists.mp isBased
      exact Or.inl ⟨inputBitCount, mGSize, codewordBits, base, latest, listed,
        history.code _ _ _ latest listed, set, history.seeded base set⟩

end Runs
end PrtyMOtSender

/-- After which histories `init` is guarded, on either side. -/
theorem initGuardedWhenRenewed (aes : Aes) (mx : Nat → Blocks) :
    (∀ calls numOtExt, PrtyMOtReceiver.InitGuarded aes mx calls numOtExt ↔
      (everBased (PrtyMOtReceiver.baseReturns aes mx) calls = true → widthBytes calls ≠ 0 →
        Renewed (PrtyMOtReceiver.baseReturns aes mx) calls)) ∧
    ∀ calls numOTExt, PrtyMOtSender.InitGuarded aes mx calls numOTExt ↔
      (widthBytes calls ≠ 0 → Renewed (PrtyMOtSender.baseReturns aes mx) calls) :=
  ⟨fun _ => PrtyMOtReceiver.initGuardedIff, fun _ => PrtyMOtSender.initGuardedIff⟩

def narrowBase : Vec (Block × Block) := ⟨512, fun _ => (1#128, 2#128)⟩

def widenedCalls : List (SetupCall (Vec (Block × Block))) :=
  [.configure false 40 132, .setBaseOts narrowBase, .configure false 40 65]

def unbasedCalls : List (SetupCall (Vec Block × BitVector)) := [.configure false 40 65]

/-- Both expand columns whose generators have no key. -/
theorem unkeyedExpanded :
    ((∃ r, (PrtyMOtReceiver.run (fun _ _ => 0#128) mxTables widenedCalls).init 1 = .ok r) ∧
      512 < (PrtyMOtReceiver.run (fun _ _ => 0#128) mxTables widenedCalls).mGens.size ∧
      ¬ ((PrtyMOtReceiver.run (fun _ _ => 0#128) mxTables widenedCalls).mGens.get 512).1.Keyed ∧
      ¬ PrtyMOtReceiver.InitGuarded (fun _ _ => 0#128) mxTables widenedCalls 1) ∧
    (∃ s, (PrtyMOtSender.run (fun _ _ => 0#128) mxTables unbasedCalls).init 1 = .ok s) ∧
      0 < (PrtyMOtSender.run (fun _ _ => 0#128) mxTables unbasedCalls).mGens.size ∧
      ¬ ((PrtyMOtSender.run (fun _ _ => 0#128) mxTables unbasedCalls).mGens.get 0).Keyed ∧
      ¬ PrtyMOtSender.InitGuarded (fun _ _ => 0#128) mxTables unbasedCalls 1 := by
  have expanded : (PrtyMOtReceiver.run (fun _ _ => 0#128) mxTables widenedCalls).init 1 = .ok _ :=
    PrtyMOtReceiver.initOk rfl (by decide) 1
  have expanded' : (PrtyMOtSender.run (fun _ _ => 0#128) mxTables unbasedCalls).init 1 = .ok _ :=
    PrtyMOtSender.initOk (by decide) 1
  refine ⟨⟨⟨_, expanded⟩, by decide, fun keyed => keyed rfl, ?_⟩, ⟨_, expanded'⟩, by decide, fun keyed => keyed rfl, ?_⟩
  · rintro (⟨_, _, _, base, -, -, -, set, -⟩ | ⟨⟨e, threw⟩, -⟩)
    · cases set
    · rw [expanded] at threw
      cases threw
  · rintro (⟨_, _, _, base, -, -, -, set, -⟩ | ⟨⟨e, threw⟩, -⟩)
    · cases set
    · rw [expanded'] at threw
      cases threw

end PaxosPsi
