import PaxosPsi.InFlightInvariant

/-! Whole runs. Every step keeps the invariant and does one unit of the work an iteration
has, and some step is always possible: every schedule completes every iteration. -/
namespace PaxosPsi
open CountedLoop XorAlgebra Memory Runs

section Work
variable {fieldSize : Nat} (p : ProtocolParty fieldSize)

def ReceiverPoint.done : ReceiverPoint → Nat
  | createDictionary => 0
  | configure => 1
  | setBaseOts => 2
  | init => 3
  | encode t k => 4 + p.rowsBefore t + t + k
  | computeXors => 5 + p.numOTs + p.steps
  | receiveSenderXors => 6 + p.numOTs + p.steps

def SenderPoint.done : SenderPoint → Nat
  | configure => 0
  | setBaseOts => 1
  | init => 2
  | recvCorrection t => 3 + p.rowsBefore t + 2 * t
  | otCorrection t k => 4 + p.rowsBefore t + 2 * t + k
  | computeXors => 4 + p.numOTs + 2 * p.steps
  | sendXors => 5 + p.numOTs + 2 * p.steps

def ProtocolParty.receiverWork : Nat := 7 + p.numOTs + p.steps

def ProtocolParty.senderWork : Nat := 6 + p.numOTs + 2 * p.steps

def ProtocolParty.iterationWork : Nat := p.receiverWork + p.senderWork + p.steps

def Flight.done (n : Flight fieldSize) : Nat :=
  n.receiver.iteration * p.receiverWork + n.receiver.point.done p +
    (n.sender.iteration * p.senderWork + n.sender.point.done p) +
    (n.receiver.iteration * p.steps + (n.receiver.point.sent p - n.queue.length))

end Work

section Steps
variable {fieldSize : Nat} {p : ProtocolParty fieldSize} {seeds : Nat → Block × Block} {choiceData : Bytes}
  {solve : Nat → Solver fieldSize} {flushes : Bool}

theorem Safe.undelivered {n : Flight fieldSize} {delivered : Nat} (safe : Safe p seeds choiceData n delivered) :
    n.queue.length = n.receiver.point.sent p - delivered := by
  rw [safe.wire.queue, List.length_map, List.length_range']

theorem receiverWorked {before after : ReceiverSide fieldSize} (moved : Receiver.Local p solve before after) :
    after.point.done p = before.point.done p + 1 := by
  cases moved with
  | createDictionary => rfl
  | configure => rfl
  | setBaseOts => rfl
  | otCorrection => rfl
  | computeXors => simp only [ReceiverPoint.done]; omega

theorem senderWorked {started : Nat → Option (PrtyMOtReceiver × Bytes)} {before after : SenderSide}
    (moved : Sender.Local p before after) (ok : SenderOk p seeds choiceData started before) :
    after.point.done p = before.point.done p + 1 := by
  cases moved with
  | configure => rfl
  | setBaseOts => rfl
  | init => simp only [SenderPoint.done, p.rowsBeforeZero]
  | otCorrection => rfl
  | nextStep whole =>
    obtain ⟨inside, bound, -⟩ := ok
    simp only [SenderPoint.done, p.rowsBeforeNext inside]
    omega
  | endLoop last =>
    obtain ⟨bound, -⟩ := ok
    obtain rfl := p.lastStep bound last
    simp only [SenderPoint.done, p.rowsBeforeAll]
    omega
  | computeXors => simp only [SenderPoint.done]; omega

variable (given : simulateBaseOts p.aes (p.width.stride * 128) = .ok (p.baseOts seeds choiceData))
include given

theorem Safe.step {n next : Flight fieldSize} {delivered : Nat} (safe : Safe p seeds choiceData n delivered)
    (stepped : Step p solve flushes n next) :
    (∃ delivered, Safe p seeds choiceData next delivered) ∧ next.done p = n.done p + 1 := by
  have length := safe.undelivered
  have order := safe.wire.inOrder
  cases stepped with
  | @receiver after moved =>
    obtain ⟨ok, iteration, sent⟩ := receiverMoved given moved safe.receiver
    have worked := receiverWorked moved
    have wire := safe.wire
    rw [← iteration, ← sent] at wire
    refine ⟨⟨delivered, ok, safe.sender, wire, safe.logged, safe.starts⟩, ?_⟩
    simp only [Flight.done, iteration, sent, worked]
    omega
  | init here inited =>
    refine ⟨⟨delivered, safe.init here inited⟩, ?_⟩
    simp only [Flight.done, here, ReceiverPoint.done, ReceiverPoint.sent, p.rowsBeforeZero]
    omega
  | @sendCorrection i t k r sigma here more whole =>
    refine ⟨⟨delivered, safe.sendCorrection here more whole⟩, ?_⟩
    have ok := safe.receiver
    rw [here] at ok length order
    obtain ⟨-, bound, -⟩ := ok
    have length : n.queue.length = t - delivered := length
    have order : delivered ≤ t := order
    simp only [Flight.done, here, ReceiverPoint.done, ReceiverPoint.sent, List.length_append, List.length_singleton,
      p.rowsBeforeNext ((p.moreSteps t).mp more)]
    omega
  | @close i t k r sigma here last flushed =>
    refine ⟨⟨delivered, safe.close here last⟩, ?_⟩
    have ok := safe.receiver
    rw [here] at ok
    obtain ⟨le, bound, -⟩ := ok
    obtain rfl := p.lastStep le last
    have rows := p.rowsInside bound
    rw [p.rowsBeforeAll] at rows
    simp only [Flight.done, here, ReceiverPoint.done, ReceiverPoint.sent, p.rowsBeforeAll]
    omega
  | @receiveSenderXors i r sigma xors rest here waiting =>
    have after := safe.receiveSenderXors here waiting
    refine ⟨⟨0, after⟩, ?_⟩
    have empty : n.queue.length = 0 := after.undelivered
    simp only [Flight.done, here, ReceiverPoint.done, ReceiverPoint.sent, ProtocolParty.receiverWork, empty,
      Nat.succ_mul]
    omega
  | @deliver i c rest queued =>
    have after := safe.deliver queued
    refine ⟨⟨delivered + 1, after⟩, ?_⟩
    have size : n.queue.length = rest.length + 1 := by rw [queued, List.length_cons]
    simp only [Flight.done]
    omega
  | @sender after moved =>
    obtain ⟨ok, iteration, taken⟩ := senderMoved given moved safe.sender
    have worked := senderWorked moved safe.sender
    have wire := safe.wire
    have logged := safe.logged
    rw [← iteration, ← taken] at wire logged
    refine ⟨⟨delivered, safe.receiver, ok, wire, logged, safe.starts⟩, ?_⟩
    simp only [Flight.done, iteration, worked]
    omega
  | recvCorrection here more arrived received =>
    refine ⟨⟨delivered, safe.recvCorrection here more arrived received⟩, ?_⟩
    simp only [Flight.done, here, SenderPoint.done]
    omega
  | sendXors here =>
    refine ⟨⟨delivered, safe.sendXors here⟩, ?_⟩
    simp only [Flight.done, here, SenderPoint.done, ProtocolParty.senderWork, Nat.succ_mul]
    omega

end Steps

section Progress
variable {fieldSize : Nat} {p : ProtocolParty fieldSize} {seeds : Nat → Block × Block} {choiceData : Bytes}
  {started : Nat → Option (PrtyMOtReceiver × Bytes)}
  (given : simulateBaseOts p.aes (p.width.stride * 128) = .ok (p.baseOts seeds choiceData))

theorem Sender.computeXorsRuns {s : Sender} (gens : s.sender.mGens.size = p.width.stride * 128) :
    ∃ next, Sender.computeXors p s = .ok next := by
  unfold Sender.computeXors
  rw [p.senderBaseCount gens]
  exact ⟨_, rfl⟩

theorem Receiver.computeXorsRuns {r : Receiver fieldSize} (gens : r.recv.mGens.size = p.width.stride * 128) :
    ∃ next, Receiver.computeXors p r = .ok next := by
  unfold Receiver.computeXors
  rw [p.receiverBaseCount gens]
  exact ⟨_, rfl⟩

include given

theorem senderProgress {side : SenderSide} (ok : SenderOk p seeds choiceData started side) :
    (∃ after, Sender.Local p side after) ∨ (∃ t, side.point = .recvCorrection t ∧ t * stepSize < p.numOTs) ∨
      side.point = .sendXors := by
  obtain ⟨point, i, s⟩ := side
  cases point with
  | configure => exact Or.inl ⟨_, .configure⟩
  | setBaseOts =>
    obtain ⟨sender, configured⟩ := ok
    dsimp only at configured
    have size := configuredSenderSize p sender
    rw [← configured] at size
    exact Or.inl ⟨_, .setBaseOts (p.senderBaseCount size) given
      (PrtyMOtSender.setBaseOtsOk p.aes _ _ rfl (Nat.mul_mod_left _ _))⟩
  | init =>
    obtain ⟨sender, seeded⟩ := ok
    dsimp only at seeded
    have bytes : s.sender.mInputByteCount ≠ 0 := by
      rw [seeded]
      exact p.width.bytes
    exact Or.inl ⟨_, .init (PrtyMOtSender.initOk bytes p.numOTs)⟩
  | recvCorrection t =>
    by_cases more : t * stepSize < p.numOTs
    · exact Or.inr (Or.inl ⟨t, rfl, more⟩)
    · exact Or.inl ⟨_, .endLoop more⟩
  | otCorrection t k =>
    by_cases inside : k < p.curStepSize t
    · exact Or.inl ⟨_, .otCorrection inside⟩
    · exact Or.inl ⟨_, .nextStep inside⟩
  | computeXors =>
    have held : Holding p (started i) p.numOTs s.sender := ok
    obtain ⟨next, computed⟩ := Sender.computeXorsRuns held.gens
    exact Or.inl ⟨_, .computeXors computed⟩
  | sendXors => exact Or.inr (Or.inr rfl)

theorem receiverProgress (solve : Nat → Solver fieldSize) {side : ReceiverSide fieldSize}
    (ok : ReceiverOk p seeds choiceData started side) :
    (∃ after, Receiver.Local p solve side after) ∨ side.point = .init ∨
      (∃ t k, side.point = .encode t k ∧ (t * stepSize < p.numOTs → ¬ k < p.curStepSize t)) ∨
      side.point = .receiveSenderXors := by
  obtain ⟨point, i, r, sigma⟩ := side
  cases point with
  | createDictionary => exact Or.inl ⟨_, .createDictionary⟩
  | configure => exact Or.inl ⟨_, .configure⟩
  | setBaseOts =>
    obtain ⟨recv, configured⟩ := ok
    dsimp only at configured
    have size := configuredReceiverSize p.width p.mx recv p.isMalicious ProtocolParty.statSecParam
    rw [← configured] at size
    exact Or.inl ⟨_, .setBaseOts (p.receiverBaseCount size) given (PrtyMOtReceiver.setBaseOtsOk p.aes size.symm)⟩
  | init => exact Or.inr (Or.inl rfl)
  | encode t k =>
    by_cases inside : t * stepSize < p.numOTs ∧ k < p.curStepSize t
    · exact Or.inl ⟨_, .otCorrection inside.1 inside.2⟩
    · exact Or.inr (Or.inr (Or.inl ⟨t, k, rfl, fun more less => inside ⟨more, less⟩⟩))
  | computeXors =>
    obtain ⟨r0, s0, -, prep, below⟩ := ok
    have gens : r.recv.mGens.size = p.width.stride * 128 := by
      rw [show r.recv.mGens = r0.mGens from below.gens]
      exact prep.receiverGens
    obtain ⟨next, computed⟩ := Receiver.computeXorsRuns gens
    exact Or.inl ⟨_, .computeXors computed⟩
  | receiveSenderXors => exact Or.inr (Or.inr (Or.inr rfl))

/-- No interleaving gets stuck: who waits is waiting for a message that is on its way. -/
theorem Safe.progress {n : Flight fieldSize} {delivered : Nat} (safe : Safe p seeds choiceData n delivered)
    (solve : Nat → Solver fieldSize) (flushes : Bool) : ∃ next, Step p solve flushes n next := by
  -- what is under way can be delivered, so the parties are looked at with an empty queue
  cases queued : n.queue with
  | cons first rest =>
    obtain ⟨i, c⟩ := first
    exact ⟨_, .deliver queued⟩
  | nil =>
    have wire := safe.wire
    have length := safe.undelivered
    rw [queued, List.length_nil] at length
    rcases receiverProgress given solve safe.receiver with ⟨after, moved⟩ | start | ⟨t, k, here, whole⟩ | waits
    · exact ⟨_, .receiver moved⟩
    · have ok := safe.receiver
      obtain ⟨⟨point, i, r, sigma⟩, sender, queue, chan, replies, started, stored⟩ := n
      dsimp only at start ok
      subst start
      obtain ⟨recv, seeded⟩ := ok
      dsimp only at seeded
      have bytes : r.recv.mInputByteCount ≠ 0 := by
        rw [seeded]
        exact p.width.bytes
      exact ⟨_, .init rfl (PrtyMOtReceiver.initOk (by rw [seeded]; rfl) bytes p.numOTs)⟩
    · obtain ⟨⟨point, i, r, sigma⟩, sender, queue, chan, replies, started, stored⟩ := n
      dsimp only at here
      subst here
      by_cases more : t * stepSize < p.numOTs
      · exact ⟨_, .sendCorrection rfl more (whole more)⟩
      · exact ⟨_, .close rfl more fun _ => queued⟩
    · cases replied : n.replies with
      | cons xors rest =>
        obtain ⟨⟨point, i, r, sigma⟩, sender, queue, chan, replies, started, stored⟩ := n
        dsimp only at waits
        subst waits
        exact ⟨_, .receiveSenderXors rfl replied⟩
      | nil =>
        -- the receiver waits for the words, so all its messages are in the channel
        have behind := wire.replies
        have order := wire.inOrder
        rw [replied, List.length_nil, Nat.zero_add] at behind
        rw [waits] at length order
        rcases senderProgress given safe.sender with ⟨after, moved⟩ | ⟨t, here, more⟩ | here
        · exact ⟨_, .sender moved⟩
        · have inside := (p.moreSteps t).mp more
          have waiting := wire.current behind.symm
          have all : delivered = p.steps := by
            have order : delivered ≤ p.steps := order
            have length : 0 = p.steps - delivered := length
            omega
          obtain ⟨left, count⟩ : ∃ left, p.steps - t = left + 1 := ⟨p.steps - t - 1, by omega⟩
          rw [here, all] at waiting
          change n.chan n.receiver.iteration = (List.range' t (p.steps - t)).map _ at waiting
          rw [count, List.range'_succ, List.map_cons, behind] at waiting
          obtain ⟨receiver, ⟨point, m, s⟩, queue, chan, replies, started, stored⟩ := n
          dsimp only at here waiting
          subst here
          obtain ⟨-, -, -, r0, sigma, sender, -, received, -⟩ := safe.accepts rfl more waiting
          exact ⟨_, .recvCorrection rfl more waiting received⟩
        · obtain ⟨receiver, ⟨point, m, s⟩, queue, chan, replies, started, stored⟩ := n
          dsimp only at here
          subst here
          exact ⟨_, .sendXors rfl⟩

end Progress

section Completion
variable {fieldSize : Nat} {p : ProtocolParty fieldSize} {seeds : Nat → Block × Block} {choiceData : Bytes}

theorem safeStart (p : ProtocolParty fieldSize) (seeds : Nat → Block × Block) (choiceData : Bytes)
    (r : Receiver fieldSize) (s : Sender) : Safe p seeds choiceData (Flight.start r s) 0 := by
  refine ⟨trivial, trivial, ⟨Nat.le_refl 0, Or.inl ⟨rfl, Nat.le_refl 0⟩, rfl, fun _ => rfl, fun _ _ => rfl, rfl⟩,
    ⟨fun row none => absurd none List.not_mem_nil, fun i => ?_⟩, fun i r0 sigma none => ?_⟩
  · cases i with
    | zero => simp [Flight.start, storedCount, SenderPoint.taken, p.rowsBeforeZero]
    | succ i => rfl
  · cases none

theorem receiverDoneBound {started : Nat → Option (PrtyMOtReceiver × Bytes)} {side : ReceiverSide fieldSize}
    (ok : ReceiverOk p seeds choiceData started side) : side.point.done p < p.receiverWork := by
  obtain ⟨point, i, r, sigma⟩ := side
  unfold ProtocolParty.receiverWork
  cases point with
  | encode t k =>
    obtain ⟨le, bound, -⟩ := ok
    have rows := p.rowsInside bound
    simp only [ReceiverPoint.done]
    omega
  | _ =>
    simp only [ReceiverPoint.done]
    omega

theorem senderDoneBound {started : Nat → Option (PrtyMOtReceiver × Bytes)} {side : SenderSide}
    (ok : SenderOk p seeds choiceData started side) : side.point.done p < p.senderWork := by
  obtain ⟨point, i, s⟩ := side
  unfold ProtocolParty.senderWork
  cases point with
  | recvCorrection t =>
    obtain ⟨le, -⟩ := ok
    have rows : p.rowsBefore t ≤ p.numOTs := Nat.min_le_right _ _
    simp only [SenderPoint.done]
    omega
  | otCorrection t k =>
    obtain ⟨inside, bound, -⟩ := ok
    have rows := p.rowsInside bound
    simp only [SenderPoint.done]
    omega
  | _ =>
    simp only [SenderPoint.done]
    omega

theorem Safe.doneBound {n : Flight fieldSize} {delivered : Nat} (safe : Safe p seeds choiceData n delivered) :
    n.done p < (n.sender.iteration + 1) * p.iterationWork := by
  have receiver := receiverDoneBound safe.receiver
  have sender := senderDoneBound safe.sender
  have sent := sentAtMost safe.receiver
  have behind : n.receiver.iteration ≤ n.sender.iteration := by
    have replies := safe.wire.replies
    omega
  have work := Nat.mul_le_mul_right p.receiverWork behind
  have steps := Nat.mul_le_mul_right p.steps behind
  have total : (n.sender.iteration + 1) * p.iterationWork = n.sender.iteration * p.receiverWork +
      n.sender.iteration * p.senderWork + n.sender.iteration * p.steps + p.iterationWork := by
    unfold ProtocolParty.iterationWork
    ring
  rw [total]
  unfold Flight.done ProtocolParty.iterationWork
  omega

theorem runSafe (solve : Nat → Solver fieldSize) (flushes : Bool)
    (given : simulateBaseOts p.aes (p.width.stride * 128) = .ok (p.baseOts seeds choiceData))
    {r : Receiver fieldSize} {s : Sender} {k : Nat} {n : Flight fieldSize}
    (ran : Run (Step p solve flushes) k (Flight.start r s) n) :
    (∃ delivered, Safe p seeds choiceData n delivered) ∧ n.done p = k := by
  have kept : ∀ n next, (∃ delivered, Safe p seeds choiceData n delivered) → Step p solve flushes n next →
      ∃ delivered, Safe p seeds choiceData next delivered :=
    fun n next ⟨_, safe⟩ stepped => (safe.step given stepped).1
  have start : ∃ delivered, Safe p seeds choiceData (Flight.start r s) delivered :=
    ⟨0, safeStart p seeds choiceData r s⟩
  refine ⟨ran.invariant kept start, ?_⟩
  have measured := ran.measured kept (fun n next ⟨_, safe⟩ stepped => (safe.step given stepped).2) start
  have zero : (Flight.start r s).done p = 0 := by
    simp [Flight.done, Flight.start, ReceiverPoint.done, SenderPoint.done, ReceiverPoint.sent]
  rw [measured, zero, Nat.zero_add]

theorem runOfLength (p : ProtocolParty fieldSize) (solve : Nat → Solver fieldSize) (flushes : Bool)
    (r : Receiver fieldSize) (s : Sender) (k : Nat) : ∃ n, Run (Step p solve flushes) k (Flight.start r s) n := by
  obtain ⟨seeds, choiceData, given, -⟩ := simulated p
  have kept : ∀ n next, (∃ delivered, Safe p seeds choiceData n delivered) → Step p solve flushes n next →
      ∃ delivered, Safe p seeds choiceData next delivered :=
    fun n next ⟨_, safe⟩ stepped => (safe.step given stepped).1
  exact Run.ofProgress kept (fun n ⟨_, safe⟩ => safe.progress given solve flushes)
    ⟨0, safeStart p seeds choiceData r s⟩ k

end Completion

section Stable
variable {fieldSize : Nat} (p : ProtocolParty fieldSize)

/-- Every interleaving of the parties' steps and the deliveries, over any number of iterations:
a stored row is the correction of its iteration, every row is stored once, in order, no run
gets stuck, and after enough steps of any kind every row of an iteration has been stored. -/
theorem rowsStableInFlight (solve : Nat → Solver fieldSize) (flushes : Bool) (r : Receiver fieldSize) (s : Sender)
    {k : Nat} {n : Flight fieldSize} (ran : Run (Step p solve flushes) k (Flight.start r s) n) :
    (∀ stored ∈ n.stored, stored.index < p.numOTs ∧ ∃ r0 sigma, n.started stored.iteration = some (r0, sigma) ∧
      ∀ j < p.width.stride, stored.row j = (p.width.code p.mx).codeword (Receiver.word p sigma stored.index) j ^^^
        r0.mT0.read stored.index j ^^^ r0.mT1.read stored.index j) ∧
    (∀ i < n.sender.iteration, n.indices i = List.range p.numOTs) ∧
    (∃ count ≤ p.numOTs, n.indices n.sender.iteration = List.range count) ∧
    (∀ i, n.sender.iteration < i → n.indices i = []) ∧
    (∀ i, (i + 1) * p.iterationWork ≤ k → n.indices i = List.range p.numOTs) ∧
    ∃ next, Step p solve flushes n next := by
  obtain ⟨seeds, choiceData, given, -⟩ := simulated p
  obtain ⟨⟨delivered, safe⟩, work⟩ := runSafe solve flushes given ran
  have finished : ∀ i < n.sender.iteration, n.indices i = List.range p.numOTs := by
    intro i before
    refine (safe.logged.indices i).trans (congrArg List.range ?_)
    rw [storedCount, if_pos before]
  refine ⟨fun stored listed => ?_, finished, ⟨p.rowsBefore (n.sender.point.taken p), Nat.min_le_right _ _, ?_⟩,
    fun i after => ?_, fun i enough => ?_, safe.progress given solve flushes⟩
  · obtain ⟨below, r0, sigma, found, rows⟩ := safe.logged.rows stored listed
    obtain ⟨s0, prep⟩ := safe.starts _ r0 sigma found
    refine ⟨below, r0, sigma, found, fun j column => ?_⟩
    have value := correctedRow prep (Receiver.word p sigma) stored.index column
    unfold PrtyMOtReceiver.t0 PrtyMOtReceiver.t1 at value
    rw [rows j column, value]
    unfold Matrix.read
    rw [prep.shaped.t0Stride, prep.shaped.t1Stride]
  · refine (safe.logged.indices n.sender.iteration).trans (congrArg List.range ?_)
    rw [storedCount, if_neg (Nat.lt_irrefl _), if_pos rfl]
  · refine (safe.logged.indices i).trans ?_
    rw [storedCount, if_neg (by omega), if_neg (by omega), List.range_zero]
  · apply finished
    by_contra late
    have bound := safe.doneBound
    have scaled := Nat.mul_le_mul_right p.iterationWork (show n.sender.iteration + 1 ≤ i + 1 by omega)
    omega

theorem twoIterationsStored : ∃ n,
    Run (Step twoKeys (fun _ _ _ => 0#65) true) (2 * twoKeys.iterationWork)
      (Flight.start (Receiver.construct twoItems id fun _ _ => 0#8) (Sender.construct twoItems id)) n ∧
    n.indices 0 = List.range twoKeys.numOTs ∧ n.indices 1 = List.range twoKeys.numOTs := by
  obtain ⟨n, ran⟩ := runOfLength twoKeys (fun _ _ _ => 0#65) true
    (Receiver.construct twoItems id fun _ _ => 0#8) (Sender.construct twoItems id) (2 * twoKeys.iterationWork)
  obtain ⟨-, -, -, -, complete, -⟩ := rowsStableInFlight twoKeys (fun _ _ _ => 0#65) true _ _ ran
  exact ⟨n, ran, complete 0 (Nat.mul_le_mul_right _ (by decide)), complete 1 (Nat.le_refl _)⟩

end Stable
end PaxosPsi
