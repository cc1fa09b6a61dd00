import PaxosPsi.ConsistencyCheck
import PaxosPsi.Iterations

/-! The sender's `runOnline` against a receiver that sends what it likes. Nothing in it
calls `check`, with `isMalicious` set or not, so a run that receives as many blocks as it
waits for sends its words. -/
namespace PaxosPsi
open CountedLoop XorAlgebra Memory

section Online
variable {fieldSize : Nat} (p : ProtocolParty fieldSize)

/-- What a run of the sender does after its corrections. -/
inductive SenderEvent where
  | check (s : PrtyMOtSender) (sums : PrtyMOtSender.Sums)
  | sendXors (xors : Vec (BitVec 64))

/-- `Sender::runOnline`, with its events. `messages` is all that the receiver sends, the
corrections and whatever follows them. -/
def Sender.runOnline (simulate : Nat → Except Error BaseOts) (messages : List (List Block)) (s : Sender) :
    List SenderEvent × Except Error Sender :=
  match Sender.runOOSWith p simulate messages s.sender with
  | .error e => ([], .error e)
  | .ok (baseChoice, sender) =>
    match Sender.computeXors p { s with baseChoice, sender } with
    | .error e => ([], .error e)
    | .ok s => ([.sendXors (Sender.sendXors s)], .ok s)

def SumsPass (s : PrtyMOtSender) (sums : PrtyMOtSender.Sums) : Prop :=
  ∀ l < s.mStatSecParam, ∀ j < s.mCode.codewordBlkSize, s.Passes sums l j

/-- Words are sent after a check that passed, and a run without them throws. -/
structure Gated (run : List SenderEvent × Except Error Sender) : Prop where
  checked : ∀ before xors after, run.1 = before ++ .sendXors xors :: after →
    ∃ s sums, .check s sums ∈ before ∧ SumsPass s sums
  rejected : (∀ xors, .sendXors xors ∉ run.1) → ∃ e, run.2 = .error e

def Fills (messages : List (List Block)) (t : Nat) : Prop :=
  ∃ message, messages[t]? = some message ∧ message.length = p.curStepSize t * p.width.stride

end Online

section Receive
variable {fieldSize : Nat} {p : ProtocolParty fieldSize} {messages : List (List Block)} {t : Nat} {s : PrtyMOtSender}

theorem correctRowsKeeps (i count : Nat) (s : PrtyMOtSender) :
    (Sender.correctRows i count s).mCorrectionVals = s.mCorrectionVals ∧
      (Sender.correctRows i count s).mGens = s.mGens := by
  unfold Sender.correctRows
  induction count with
  | zero => exact ⟨rfl, rfl⟩
  | succ count ih => exact ih

theorem recvStepFilled (stride : s.mCorrectionVals.mStride = p.width.stride) (fills : Fills p messages t) :
    ∃ s', Sender.recvStep p messages t s = .ok s' ∧ s'.mCorrectionVals.mStride = p.width.stride ∧ s'.mGens = s.mGens := by
  obtain ⟨message, found, sized⟩ := fills
  rw [← stride] at sized
  have stored : ∃ mView, recvBlocks s.mCorrectionVals.mView (i32 (s.mCorrectionIdx * s.mCorrectionVals.mStride))
      (p.curStepSize t * s.mCorrectionVals.mStride) message = .ok mView := ⟨_, if_pos sized⟩
  obtain ⟨mView, stored⟩ := stored
  let s1 : PrtyMOtSender := { s with
    mCorrectionVals := { s.mCorrectionVals with mView }
    mCorrectionIdx := s.mCorrectionIdx + p.curStepSize t }
  obtain ⟨vals, gens⟩ := correctRowsKeeps (t * stepSize) (p.curStepSize t) s1
  refine ⟨Sender.correctRows (t * stepSize) (p.curStepSize t) s1, ?_, ?_, gens⟩
  · unfold Sender.recvStep PrtyMOtSender.recvCorrection
    rw [found]
    simp only [stored, bind, Except.bind, pure, Except.pure]
    rfl
  · rw [vals]
    exact stride

theorem recvStepFails (stride : s.mCorrectionVals.mStride = p.width.stride) (unfilled : ¬ Fills p messages t) :
    ∃ e, Sender.recvStep p messages t s = .error e := by
  unfold Sender.recvStep
  cases found : messages[t]? with
  | none => exact ⟨_, rfl⟩
  | some message =>
    have missized : message.length ≠ p.curStepSize t * s.mCorrectionVals.mStride := by
      rw [stride]
      exact fun sized => unfilled ⟨message, found, sized⟩
    exact ⟨_, by simp only [PrtyMOtSender.recvCorrectionFails missized, bind, Except.bind]; rfl⟩

theorem recvStepsFilled (stride : s.mCorrectionVals.mStride = p.width.stride) {m : Nat}
    (fills : ∀ t < m, Fills p messages t) :
    ∃ s', forLoopM m (Sender.recvStep p messages) s = .ok s' ∧ s'.mCorrectionVals.mStride = p.width.stride ∧
      s'.mGens = s.mGens := by
  induction m with
  | zero => exact ⟨s, rfl, stride, rfl⟩
  | succ m ih =>
    obtain ⟨s1, ran, stride1, gens1⟩ := ih fun t below => fills t (by omega)
    obtain ⟨s2, stepped, stride2, gens2⟩ := recvStepFilled stride1 (fills m (by omega))
    refine ⟨s2, ?_, stride2, gens2.trans gens1⟩
    rw [forLoopM, ran]
    exact stepped

theorem recvStepsFail (stride : s.mCorrectionVals.mStride = p.width.stride) {m : Nat}
    (unfilled : ∃ t < m, ¬ Fills p messages t) : ∃ e, forLoopM m (Sender.recvStep p messages) s = .error e := by
  induction m with
  | zero =>
    obtain ⟨t, below, -⟩ := unfilled
    exact absurd below (Nat.not_lt_zero t)
  | succ m ih =>
    rw [forLoopM]
    by_cases earlier : ∃ t < m, ¬ Fills p messages t
    · obtain ⟨e, threw⟩ := ih earlier
      exact ⟨e, by rw [threw]; rfl⟩
    · have fills : ∀ t < m, Fills p messages t := fun t below => not_not.mp fun no => earlier ⟨t, below, no⟩
      obtain ⟨s1, ran, stride1, -⟩ := recvStepsFilled stride fills
      have last : ¬ Fills p messages m := by
        obtain ⟨t, below, no⟩ := unfilled
        rcases Nat.lt_succ_iff_lt_or_eq.mp below with before | rfl
        · exact absurd (fills t before) no
        · exact no
      obtain ⟨e, threw⟩ := recvStepFails stride1 last
      exact ⟨e, by rw [ran]; exact threw⟩

end Receive

section Gate
variable {fieldSize : Nat} (p : ProtocolParty fieldSize) (messages : List (List Block)) (s : Sender)

theorem onlineRuns :
    ((∀ t < p.steps, Fills p messages t) →
      ∃ xors s', Sender.runOnline p (simulateBaseOts p.aes) messages s = ([.sendXors xors], .ok s')) ∧
    ((∃ t < p.steps, ¬ Fills p messages t) →
      ∃ e, Sender.runOnline p (simulateBaseOts p.aes) messages s = ([], .error e)) := by
  obtain ⟨seeds, choiceData, given, -⟩ := simulated p
  have prep := prepared p seeds choiceData PrtyMOtReceiver.new s.sender
  have ran := Sender.prepareRuns given s.sender
  unfold Sender.runOnline Sender.runOOSWith
  rw [ran]
  simp only [bind, Except.bind]
  constructor
  · intro fills
    obtain ⟨sender, received, -, gens⟩ := recvStepsFilled prep.valsStride fills
    have count : sender.getBaseOTCount = .ok (p.width.stride * 128) := by
      apply p.senderBaseCount
      rw [gens, prep.senderGens]
    rw [received]
    simp only [pure, Except.pure, Sender.computeXors, count, bind, Except.bind]
    exact ⟨_, _, rfl⟩
  · intro unfilled
    obtain ⟨e, threw⟩ := recvStepsFail prep.valsStride unfilled
    rw [threw]
    exact ⟨e, rfl⟩

/-- A malicious run is gated exactly when the receiver's messages make it throw. -/
theorem maliciousGateIff (malicious : p.isMalicious = true) :
    (p.isMalicious = true → Gated (Sender.runOnline p (simulateBaseOts p.aes) messages s)) ↔
      ∃ t < p.steps, ¬ Fills p messages t := by
  obtain ⟨sends, throws⟩ := onlineRuns p messages s
  constructor
  · intro gated
    by_contra filled
    obtain ⟨xors, s', ran⟩ := sends fun t below => not_not.mp fun no => filled ⟨t, below, no⟩
    obtain ⟨s1, sums, listed, -⟩ := (gated malicious).checked [] xors [] (by rw [ran]; rfl)
    exact absurd listed List.not_mem_nil
  · intro unfilled _
    obtain ⟨e, ran⟩ := throws unfilled
    rw [ran]
    exact ⟨fun before xors after split => absurd split (by simp), fun _ => ⟨e, rfl⟩⟩

end Gate

def maliciousKeys : ProtocolParty 65 := { twoKeys with isMalicious := true }

def maliciousItems : Items maliciousKeys := ⟨twoItems.keys, twoItems.vals, twoItems.distinct, twoItems.size⟩

theorem silentReceiverGated : (maliciousKeys.isMalicious = true → Gated (Sender.runOnline maliciousKeys
      (simulateBaseOts maliciousKeys.aes) [] (Sender.construct maliciousItems id))) ↔
    ∃ t < maliciousKeys.steps, ¬ Fills maliciousKeys [] t :=
  maliciousGateIff maliciousKeys [] _ rfl

def onesMessages : List (List Block) := [List.replicate 256 (BitVec.allOnes 128)]

theorem onesSentUnchecked : maliciousKeys.isMalicious = true ∧
    ∃ xors s', Sender.runOnline maliciousKeys (simulateBaseOts maliciousKeys.aes) onesMessages
        (Sender.construct maliciousItems id) = ([.sendXors xors], .ok s') ∧
      ¬ Gated ([.sendXors xors], .ok s') := by
  have fills : ∀ t < maliciousKeys.steps, Fills maliciousKeys onesMessages t := by
    intro t below
    cases Nat.lt_one_iff.mp (show t < 1 from below)
    exact ⟨_, rfl, List.length_replicate.trans (by decide)⟩
  obtain ⟨xors, s', ran⟩ := (onlineRuns maliciousKeys onesMessages (Sender.construct maliciousItems id)).1 fills
  refine ⟨rfl, xors, s', ran, fun gated => ?_⟩
  obtain ⟨s1, sums, listed, -⟩ := gated.checked [] xors [] rfl
  exact absurd listed List.not_mem_nil

end PaxosPsi
