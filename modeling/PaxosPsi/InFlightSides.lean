import PaxosPsi.InFlight

/-! What each party's own steps keep, at every point of its program: the receiver's rows
below the point are encoded and the sender's rows below it are the receiver's. -/
namespace PaxosPsi
open CountedLoop XorAlgebra Memory Runs

section Points
variable {fieldSize : Nat} (p : ProtocolParty fieldSize)

theorem ProtocolParty.moreSteps (t : Nat) : t * stepSize < p.numOTs ↔ t < p.steps := by
  have positive := ProtocolParty.stepSizePositive
  unfold ProtocolParty.steps
  rw [Nat.lt_div_iff_mul_lt positive]
  omega

theorem ProtocolParty.stepsPositive : 0 < p.steps := by
  have some : 0 < p.numOTs := by
    unfold ProtocolParty.numOTs
    rw [p.gammaValue]
    omega
  exact (p.moreSteps 0).mp (by omega)

def ProtocolParty.rowsBefore (t : Nat) : Nat := min (t * stepSize) p.numOTs

theorem ProtocolParty.rowsBeforeInside {t : Nat} (inside : t < p.steps) : p.rowsBefore t = t * stepSize :=
  Nat.min_eq_left (Nat.le_of_lt (p.stepBounds inside).1)

theorem ProtocolParty.rowsBeforeNext {t : Nat} (inside : t < p.steps) :
    p.rowsBefore (t + 1) = p.rowsBefore t + p.curStepSize t := by
  rw [p.rowsBeforeInside inside]
  exact (p.stepBounds inside).2.symm

theorem ProtocolParty.rowsBeforeAll : p.rowsBefore p.steps = p.numOTs := p.stepsCover

theorem ProtocolParty.rowsInside {t k : Nat} (bound : k ≤ p.curStepSize t) : p.rowsBefore t + k ≤ p.numOTs := by
  unfold ProtocolParty.curStepSize at bound
  unfold ProtocolParty.rowsBefore
  omega

theorem ProtocolParty.lastStep {t : Nat} (bound : t ≤ p.steps) (last : ¬ t * stepSize < p.numOTs) : t = p.steps := by
  have stop := (p.moreSteps t).not.mp last
  omega

theorem ProtocolParty.rowsBeforeMono {t u : Nat} (le : t ≤ u) : p.rowsBefore t ≤ p.rowsBefore u := by
  have scaled := Nat.mul_le_mul_right stepSize le
  unfold ProtocolParty.rowsBefore
  omega

def ReceiverPoint.sent : ReceiverPoint → Nat
  | encode t _ => t
  | computeXors | receiveSenderXors => p.steps
  | _ => 0

def SenderPoint.taken : SenderPoint → Nat
  | recvCorrection t => t
  | otCorrection t _ => t + 1
  | computeXors | sendXors => p.steps
  | _ => 0

end Points

section Frames
variable {fieldSize : Nat} {p : ProtocolParty fieldSize}

theorem Receiver.computeXorsFrame {r next : Receiver fieldSize} (computed : Receiver.computeXors p r = .ok next) :
    next.recv = r.recv := by
  unfold Receiver.computeXors at computed
  cases counted : r.recv.getBaseOTCount with
  | error e =>
    rw [counted] at computed
    cases computed
  | ok baseCount =>
    rw [counted] at computed
    obtain rfl := Except.ok.inj computed
    exact forLoopInvariant (fun _ (s : Receiver fieldSize) => s.recv = r.recv) rfl fun i s _ (kept : s.recv = r.recv) => kept

theorem Sender.computeXorsFrame {s next : Sender} (computed : Sender.computeXors p s = .ok next) :
    next.sender = s.sender := by
  unfold Sender.computeXors at computed
  cases counted : s.sender.getBaseOTCount with
  | error e =>
    rw [counted] at computed
    cases computed
  | ok baseCount =>
    rw [counted] at computed
    obtain rfl := Except.ok.inj computed
    exact forLoopInvariant (fun _ (t : Sender) => t.sender = s.sender) rfl fun i t _ (kept : t.sender = s.sender) => kept

end Frames

section Sides
variable {fieldSize : Nat} (p : ProtocolParty fieldSize) (seeds : Nat → Block × Block) (choiceData : Bytes)

def BeingEncoded (start : Option (PrtyMOtReceiver × Bytes)) (sigma : Bytes) (count : Nat) (recv : PrtyMOtReceiver) : Prop :=
  ∃ r0 s0, start = some (r0, sigma) ∧ Prepared p seeds choiceData r0 s0 ∧
    EncodedBelow r0 (Receiver.word p sigma) count recv

def ReceiverOk (started : Nat → Option (PrtyMOtReceiver × Bytes)) (rs : ReceiverSide fieldSize) : Prop :=
  match rs.point with
  | .createDictionary | .configure => True
  | .setBaseOts => ∃ recv : PrtyMOtReceiver,
      rs.r.recv = recv.configure p.mx p.isMalicious ProtocolParty.statSecParam fieldSize
  | .init => ∃ recv, rs.r.recv = Receiver.seeded p (p.baseOts seeds choiceData) recv
  | .encode t k => t ≤ p.steps ∧ k ≤ p.curStepSize t ∧ rs.r.recv.mCorrectionIdx = p.rowsBefore t ∧
      BeingEncoded p seeds choiceData (started rs.iteration) rs.sigma (p.rowsBefore t + k) rs.r.recv
  | .computeXors | .receiveSenderXors =>
      BeingEncoded p seeds choiceData (started rs.iteration) rs.sigma p.numOTs rs.r.recv

structure Holding (start : Option (PrtyMOtReceiver × Bytes)) (count : Nat) (sender : PrtyMOtSender) : Prop where
  gens : sender.mGens.size = p.width.stride * 128
  stride : sender.mCorrectionVals.mStride = p.width.stride
  idx : sender.mCorrectionIdx = count
  rows : ∀ r0 sigma, start = some (r0, sigma) → ∀ a < count * p.width.stride,
    sender.mCorrectionVals.mView a = corrected r0 (Receiver.word p sigma) a

def SenderOk (started : Nat → Option (PrtyMOtReceiver × Bytes)) (side : SenderSide) : Prop :=
  match side.point with
  | .configure => True
  | .setBaseOts => ∃ sender : PrtyMOtSender,
      side.s.sender = sender.configure p.mx p.isMalicious ProtocolParty.statSecParam fieldSize
  | .init => ∃ sender, side.s.sender = Sender.seeded p (p.baseOts seeds choiceData) sender
  | .recvCorrection t => t ≤ p.steps ∧ Holding p (started side.iteration) (p.rowsBefore t) side.s.sender
  | .otCorrection t k => t < p.steps ∧ k ≤ p.curStepSize t ∧
      Holding p (started side.iteration) (p.rowsBefore (t + 1)) side.s.sender
  | .computeXors | .sendXors => Holding p (started side.iteration) p.numOTs side.s.sender

end Sides

section LocalSteps
variable {fieldSize : Nat} {p : ProtocolParty fieldSize} {seeds : Nat → Block × Block} {choiceData : Bytes}
  {started : Nat → Option (PrtyMOtReceiver × Bytes)}
  (given : simulateBaseOts p.aes (p.width.stride * 128) = .ok (p.baseOts seeds choiceData))
include given

theorem receiverMoved {solve : Nat → Solver fieldSize} {before after : ReceiverSide fieldSize}
    (moved : Receiver.Local p solve before after) (ok : ReceiverOk p seeds choiceData started before) :
    ReceiverOk p seeds choiceData started after ∧ after.iteration = before.iteration ∧
      after.point.sent p = before.point.sent p := by
  cases moved with
  | createDictionary => exact ⟨trivial, rfl, rfl⟩
  | configure => exact ⟨⟨_, rfl⟩, rfl, rfl⟩
  | @setBaseOts i r sigma baseCount base recv counted drawn set =>
    obtain ⟨recv0, configured⟩ := ok
    dsimp only at configured
    have size := configuredReceiverSize p.width p.mx recv0 p.isMalicious ProtocolParty.statSecParam
    rw [configured, p.receiverBaseCount size] at counted
    obtain rfl := Except.ok.inj counted
    obtain rfl := Except.ok.inj (drawn.symm.trans given)
    rw [configured, PrtyMOtReceiver.setBaseOtsOk p.aes size.symm] at set
    exact ⟨⟨recv0, (Except.ok.inj set).symm⟩, rfl, rfl⟩
  | @otCorrection i t k r sigma more inside =>
    obtain ⟨bound, -, idx, r0, s0, start, prep, below⟩ := ok
    rw [p.rowsBeforeInside ((p.moreSteps t).mp more)] at below idx
    refine ⟨⟨bound, inside, ?_, r0, s0, start, prep, ?_⟩, rfl, rfl⟩
    · rw [p.rowsBeforeInside ((p.moreSteps t).mp more)]
      exact idx
    · have encoded := encodedStep prep.shaped below
      rw [Nat.add_assoc] at encoded
      rw [p.rowsBeforeInside ((p.moreSteps t).mp more)]
      exact encoded
  | @computeXors i r sigma next computed =>
    obtain ⟨r0, s0, start, prep, below⟩ := ok
    refine ⟨⟨r0, s0, start, prep, ?_⟩, rfl, rfl⟩
    dsimp only
    rw [Receiver.computeXorsFrame computed]
    exact below

theorem senderMoved {before after : SenderSide} (moved : Sender.Local p before after)
    (ok : SenderOk p seeds choiceData started before) :
    SenderOk p seeds choiceData started after ∧ after.iteration = before.iteration ∧
      after.point.taken p = before.point.taken p := by
  cases moved with
  | configure => exact ⟨⟨_, rfl⟩, rfl, rfl⟩
  | @setBaseOts i s baseCount base sender counted drawn set =>
    obtain ⟨sender0, configured⟩ := ok
    dsimp only at configured
    rw [configured, p.senderBaseCount (configuredSenderSize p sender0)] at counted
    obtain rfl := Except.ok.inj counted
    obtain rfl := Except.ok.inj (drawn.symm.trans given)
    rw [configured, PrtyMOtSender.setBaseOtsOk p.aes _ _ rfl (Nat.mul_mod_left _ _)] at set
    exact ⟨⟨sender0, (Except.ok.inj set).symm⟩, rfl, rfl⟩
  | @init i s sender inited =>
    obtain ⟨sender0, seeded⟩ := ok
    dsimp only at seeded
    have prep := prepared p seeds choiceData PrtyMOtReceiver.new sender0
    have bytes : (Sender.seeded p (p.baseOts seeds choiceData) sender0).mInputByteCount ≠ 0 := p.width.bytes
    rw [seeded, PrtyMOtSender.initOk bytes] at inited
    obtain rfl := Except.ok.inj inited
    have none : p.rowsBefore 0 = 0 := by simp [ProtocolParty.rowsBefore]
    refine ⟨⟨Nat.zero_le _, prep.senderGens, prep.valsStride, prep.senderIdx.trans none.symm, ?_⟩, rfl, rfl⟩
    intro r0 sigma _ a inside
    rw [none] at inside
    omega
  | @otCorrection i t k s inside =>
    obtain ⟨bound, -, held⟩ := ok
    exact ⟨⟨bound, inside, held.gens, held.stride, held.idx, held.rows⟩, rfl, rfl⟩
  | @nextStep i t k s whole =>
    obtain ⟨bound, -, held⟩ := ok
    exact ⟨⟨bound, held⟩, rfl, rfl⟩
  | @endLoop i t s last =>
    obtain ⟨bound, held⟩ := ok
    obtain rfl := p.lastStep bound last
    refine ⟨?_, rfl, rfl⟩
    rw [p.rowsBeforeAll] at held
    exact held
  | @computeXors i s next computed =>
    refine ⟨?_, rfl, rfl⟩
    change Holding p (started i) p.numOTs next.sender
    rw [Sender.computeXorsFrame computed]
    exact ok

end LocalSteps
end PaxosPsi
