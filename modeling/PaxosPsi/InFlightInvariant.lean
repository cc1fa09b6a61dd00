import PaxosPsi.InFlightSides

/-! The invariant of all interleavings. Of the messages of an iteration the first `taken` are
stored, those up to `delivered` wait in the channel and those up to `sent` in the queue. Only
the sender's reply takes the receiver on, so no message is left when `init` reuses `mT1`. -/
namespace PaxosPsi
open CountedLoop XorAlgebra Memory Runs

section Invariant
variable {fieldSize : Nat} (p : ProtocolParty fieldSize)

def messageOf (start : Option (PrtyMOtReceiver × Bytes)) (t : Nat) : List Block :=
  match start with
  | none => []
  | some (r0, sigma) =>
      rowsMessage p.width.stride (corrected r0 (Receiver.word p sigma)) (t * stepSize) (p.curStepSize t)

def correctionOf (t : Nat) : Correction := ⟨t * stepSize * p.width.stride, p.width.stride * p.curStepSize t⟩

/-- Everything between the receiver in iteration `i`, which has sent `sent` messages, and the
sender in iteration `m`, which has taken `taken`. -/
structure Wire (started : Nat → Option (PrtyMOtReceiver × Bytes)) (i sent m taken delivered : Nat)
    (queue : List (Nat × Correction)) (chan : Nat → List (List Block)) (replies : Nat) : Prop where
  inOrder : delivered ≤ sent
  ahead : m = i ∧ taken ≤ delivered ∨ m = i + 1 ∧ taken = 0 ∧ delivered = p.steps
  queue : queue = (List.range' delivered (sent - delivered)).map fun t => (i, correctionOf p t)
  current : m = i → chan i = (List.range' taken (delivered - taken)).map (messageOf p (started i))
  others : ∀ i', ¬ (i' = i ∧ m = i) → chan i' = []
  replies : replies + i = m

def storedCount (m taken i : Nat) : Nat := if i < m then p.numOTs else if i = m then p.rowsBefore taken else 0

def Flight.indices (n : Flight fieldSize) (i : Nat) : List Nat :=
  (n.stored.filter fun row => row.iteration = i).map StoredRow.index

structure Logged (started : Nat → Option (PrtyMOtReceiver × Bytes)) (m taken : Nat) (stored : List StoredRow) :
    Prop where
  rows : ∀ row ∈ stored, row.index < p.numOTs ∧ ∃ r0 sigma, started row.iteration = some (r0, sigma) ∧
    ∀ j < p.width.stride, row.row j = corrected r0 (Receiver.word p sigma) (row.index * p.width.stride + j)
  indices : ∀ i, (stored.filter fun row => row.iteration = i).map StoredRow.index =
    List.range (storedCount p m taken i)

structure Safe (seeds : Nat → Block × Block) (choiceData : Bytes) (n : Flight fieldSize) (delivered : Nat) : Prop where
  receiver : ReceiverOk p seeds choiceData n.started n.receiver
  sender : SenderOk p seeds choiceData n.started n.sender
  wire : Wire p n.started n.receiver.iteration (n.receiver.point.sent p) n.sender.iteration
    (n.sender.point.taken p) delivered n.queue n.chan n.replies.length
  logged : Logged p n.started n.sender.iteration (n.sender.point.taken p) n.stored
  starts : ∀ i r0 sigma, n.started i = some (r0, sigma) → ∃ s0, Prepared p seeds choiceData r0 s0

end Invariant

section Facts
variable {fieldSize : Nat} {p : ProtocolParty fieldSize} {seeds : Nat → Block × Block} {choiceData : Bytes}
  {started : Nat → Option (PrtyMOtReceiver × Bytes)}

theorem ProtocolParty.rowsBeforeZero (p : ProtocolParty fieldSize) : p.rowsBefore 0 = 0 := by
  simp [ProtocolParty.rowsBefore]

theorem sentAtMost {rs : ReceiverSide fieldSize} (ok : ReceiverOk p seeds choiceData started rs) :
    rs.point.sent p ≤ p.steps := by
  obtain ⟨point, i, r, sigma⟩ := rs
  cases point with
  | encode t k => exact ok.1
  | computeXors => exact Nat.le_refl _
  | receiveSenderXors => exact Nat.le_refl _
  | _ => exact Nat.zero_le _

theorem sentEncoded {rs : ReceiverSide fieldSize} (ok : ReceiverOk p seeds choiceData started rs) {t : Nat}
    (inside : t < rs.point.sent p) : ∃ count, p.rowsBefore (t + 1) ≤ count ∧
      BeingEncoded p seeds choiceData (started rs.iteration) rs.sigma count rs.r.recv := by
  obtain ⟨point, i, r, sigma⟩ := rs
  have whole : p.rowsBefore (t + 1) ≤ p.numOTs := Nat.min_le_right _ _
  cases point with
  | encode u k =>
    have before := p.rowsBeforeMono (show t + 1 ≤ u from inside)
    exact ⟨p.rowsBefore u + k, by omega, ok.2.2.2⟩
  | computeXors => exact ⟨p.numOTs, whole, ok⟩
  | receiveSenderXors => exact ⟨p.numOTs, whole, ok⟩
  | _ => exact absurd inside (Nat.not_lt_zero t)

/-- A reference that is read later still reads the corrected rows. -/
theorem readSent {rs : ReceiverSide fieldSize} (ok : ReceiverOk p seeds choiceData started rs) {t : Nat}
    (inside : t < rs.point.sent p) :
    (correctionOf p t).read rs.r.recv.mT1.mView = messageOf p (started rs.iteration) t := by
  obtain ⟨count, covered, r0, s0, start, prep, below⟩ := sentEncoded ok inside
  have bound : t < p.steps := Nat.lt_of_lt_of_le inside (sentAtMost ok)
  rw [p.rowsBeforeNext bound, p.rowsBeforeInside bound] at covered
  rw [start]
  exact readEncoded prep.shaped.t0Stride below covered

theorem Wire.idle {i m taken delivered : Nat} {queue : List (Nat × Correction)} {chan : Nat → List (List Block)}
    {replies : Nat} (wire : Wire p started i 0 m taken delivered queue chan replies) :
    m = i ∧ taken = 0 ∧ delivered = 0 := by
  have positive := p.stepsPositive
  have order := wire.inOrder
  rcases wire.ahead with ⟨same, le⟩ | ⟨-, -, all⟩
  · exact ⟨same, by omega, by omega⟩
  · omega

theorem Holding.empty {sender : PrtyMOtSender} {start start' : Option (PrtyMOtReceiver × Bytes)}
    (held : Holding p start 0 sender) : Holding p start' 0 sender :=
  ⟨held.gens, held.stride, held.idx, fun r0 sigma _ a inside => absurd inside (by omega)⟩

theorem senderUntouched {started' : Nat → Option (PrtyMOtReceiver × Bytes)} {side : SenderSide}
    (ok : SenderOk p seeds choiceData started side) (none : side.point.taken p = 0) :
    SenderOk p seeds choiceData started' side := by
  have positive := p.stepsPositive
  obtain ⟨point, i, s⟩ := side
  cases point with
  | configure => exact ok
  | setBaseOts => exact ok
  | init => exact ok
  | recvCorrection t =>
    obtain rfl : t = 0 := none
    obtain ⟨bound, held⟩ := ok
    dsimp only at held
    rw [p.rowsBeforeZero] at held
    refine ⟨bound, ?_⟩
    rw [p.rowsBeforeZero]
    exact held.empty
  | otCorrection t k => exact absurd none (Nat.succ_ne_zero t)
  | computeXors =>
    have all : p.steps = 0 := none
    omega
  | sendXors =>
    have all : p.steps = 0 := none
    omega

theorem Logged.absent {m taken i : Nat} {stored : List StoredRow} (logged : Logged p started m taken stored)
    (none : storedCount p m taken i = 0) {row : StoredRow} (listed : row ∈ stored) : row.iteration ≠ i := by
  intro same
  have indices := logged.indices i
  rw [none, List.range_zero, List.map_eq_nil_iff, List.filter_eq_nil_iff] at indices
  exact indices row listed (by simpa using same)

theorem Logged.restart {m taken i : Nat} {stored : List StoredRow} (logged : Logged p started m taken stored)
    (none : storedCount p m taken i = 0) (start : Option (PrtyMOtReceiver × Bytes)) :
    Logged p (Function.update started i start) m taken stored := by
  refine ⟨fun row listed => ?_, logged.indices⟩
  obtain ⟨below, r0, sigma, found, rows⟩ := logged.rows row listed
  refine ⟨below, r0, sigma, ?_, rows⟩
  rw [Function.update_of_ne (logged.absent none listed)]
  exact found

theorem storedRowsIndices (i i' : Nat) (before after : PrtyMOtSender) :
    ((storedRows i before after).filter fun row => row.iteration = i').map StoredRow.index =
      if i' = i then (List.range (after.mCorrectionIdx - before.mCorrectionIdx)).map (before.mCorrectionIdx + ·)
      else [] := by
  unfold storedRows
  split
  · rename_i same
    simp [same, List.filter_map, Function.comp_def]
  · rename_i other
    have different : ¬ i = i' := fun same => other same.symm
    simp [different, List.filter_map, Function.comp_def]

theorem Logged.store {i t : Nat} {stored : List StoredRow} {r0 : PrtyMOtReceiver} {sigma : Bytes}
    {before after : PrtyMOtSender} (logged : Logged p started i t stored) (inside : t < p.steps)
    (start : started i = some (r0, sigma)) (idx : before.mCorrectionIdx = p.rowsBefore t)
    (held : Holding p (started i) (p.rowsBefore (t + 1)) after) :
    Logged p started i (t + 1) (stored ++ storedRows i before after) := by
  have chunk : after.mCorrectionIdx - before.mCorrectionIdx = p.curStepSize t := by
    rw [held.idx, idx, p.rowsBeforeNext inside]
    omega
  have next := p.rowsBeforeNext inside
  refine ⟨fun row listed => ?_, fun i' => ?_⟩
  · rcases List.mem_append.mp listed with old | new
    · exact logged.rows row old
    · obtain ⟨k, small, rfl⟩ := List.mem_map.mp new
      rw [chunk, List.mem_range] at small
      have below : before.mCorrectionIdx + k + 1 ≤ p.rowsBefore (t + 1) := by omega
      have most : p.rowsBefore (t + 1) ≤ p.numOTs := Nat.min_le_right _ _
      refine ⟨by dsimp only; omega, r0, sigma, start, fun j column => ?_⟩
      have edge := Nat.mul_le_mul_right p.width.stride below
      rw [Nat.succ_mul] at edge
      dsimp only [Matrix.read]
      rw [held.stride]
      exact held.rows r0 sigma start _ (by omega)
  · rw [List.filter_append, List.map_append, logged.indices i', storedRowsIndices, chunk, idx]
    unfold storedCount
    by_cases same : i' = i
    · subst i'
      rw [if_neg (Nat.lt_irrefl i), if_pos rfl, if_pos rfl, if_neg (Nat.lt_irrefl i), if_pos rfl, next, List.range_add]
    · rw [if_neg same, if_neg same, if_neg same, List.append_nil]

end Facts

section Preservation
variable {fieldSize : Nat} {p : ProtocolParty fieldSize} {seeds : Nat → Block × Block} {choiceData : Bytes}
  {n : Flight fieldSize} {delivered : Nat} (safe : Safe p seeds choiceData n delivered)
include safe

theorem Safe.init {i : Nat} {r : Receiver fieldSize} {sigma : Bytes} {recv : PrtyMOtReceiver}
    (here : n.receiver = ⟨.init, i, r, sigma⟩) (inited : r.recv.init p.numOTs = .ok recv) :
    Safe p seeds choiceData { n with
      receiver := ⟨.encode 0 0, i, { r with recv }, sigma⟩
      started := Function.update n.started i (some (recv, sigma)) } delivered := by
  have ok := safe.receiver
  have wire := safe.wire
  rw [here] at ok wire
  obtain ⟨same, taken, zero⟩ := wire.idle
  obtain ⟨recv0, seeded⟩ := ok
  dsimp only at seeded
  have bytes : (Receiver.seeded p (p.baseOts seeds choiceData) recv0).mInputByteCount ≠ 0 := p.width.bytes
  rw [seeded, PrtyMOtReceiver.initOk rfl bytes] at inited
  obtain rfl := Except.ok.inj inited
  have prep := prepared p seeds choiceData recv0 PrtyMOtSender.new
  have stored : storedCount p n.sender.iteration (n.sender.point.taken p) i = 0 := by
    rw [same, taken, storedCount, if_neg (Nat.lt_irrefl i), if_pos rfl, p.rowsBeforeZero]
  refine ⟨⟨Nat.zero_le _, Nat.zero_le _, ?_, _, _, Function.update_self _ _ _, prep, ?_⟩,
    senderUntouched safe.sender taken, ?_, safe.logged.restart stored _, fun i' r1 sigma1 found => ?_⟩
  · rw [p.rowsBeforeZero]
    exact prep.receiverIdx
  · rw [p.rowsBeforeZero]
    exact EncodedBelow.start _ _
  · refine { wire with current := fun current => ?_ }
    have empty := wire.current current
    rw [taken, zero] at empty ⊢
    exact empty
  · have found : Function.update n.started i (some (_, sigma)) i' = some (r1, sigma1) := found
    by_cases here : i' = i
    · rw [here, Function.update_self] at found
      obtain ⟨rfl, rfl⟩ := Prod.mk.inj (Option.some.inj found)
      exact ⟨_, prep⟩
    · rw [Function.update_of_ne here] at found
      exact safe.starts i' r1 sigma1 found

theorem Safe.sendCorrection {i t k : Nat} {r : Receiver fieldSize} {sigma : Bytes}
    (here : n.receiver = ⟨.encode t k, i, r, sigma⟩) (more : t * stepSize < p.numOTs)
    (whole : ¬ k < p.curStepSize t) :
    Safe p seeds choiceData { n with
      receiver := ⟨.encode (t + 1) 0, i, { r with recv := (r.recv.sendCorrection (p.curStepSize t)).2 }, sigma⟩
      queue := n.queue ++ [(i, (r.recv.sendCorrection (p.curStepSize t)).1)] } delivered := by
  have ok := safe.receiver
  have wire := safe.wire
  rw [here] at ok wire
  have inside := (p.moreSteps t).mp more
  obtain ⟨-, bound, idx, r0, s0, start, prep, below⟩ := ok
  obtain rfl : k = p.curStepSize t := by omega
  have order : delivered ≤ t := wire.inOrder
  refine ⟨⟨inside, Nat.zero_le _, ?_, r0, s0, start, prep, ?_⟩, safe.sender, ?_, safe.logged, safe.starts⟩
  · rw [p.rowsBeforeNext inside]
    exact congrArg (· + p.curStepSize t) idx
  · rw [p.rowsBeforeNext inside]
    exact below.renumber _
  · refine ⟨Nat.le_succ_of_le order, wire.ahead, ?_, wire.current, wire.others, wire.replies⟩
    have sent : (r.recv.sendCorrection (p.curStepSize t)).1 = correctionOf p t := by
      dsimp only at idx below
      unfold PrtyMOtReceiver.sendCorrection correctionOf
      rw [idx, p.rowsBeforeInside inside, below.t1Stride, prep.shaped.t1Stride]
    have count : t + 1 - delivered = t - delivered + 1 := by omega
    have last : delivered + (t - delivered) = t := by omega
    have queue := wire.queue
    change n.queue ++ [(i, _)] = (List.range' delivered (t + 1 - delivered)).map _
    rw [queue, sent, count, List.range'_1_concat, List.map_append, last]
    rfl

theorem Safe.close {i t k : Nat} {r : Receiver fieldSize} {sigma : Bytes}
    (here : n.receiver = ⟨.encode t k, i, r, sigma⟩) (last : ¬ t * stepSize < p.numOTs) :
    Safe p seeds choiceData { n with receiver := ⟨.computeXors, i, r, sigma⟩ } delivered := by
  have ok := safe.receiver
  have wire := safe.wire
  rw [here] at ok wire
  obtain ⟨le, bound, -, r0, s0, start, prep, below⟩ := ok
  obtain rfl := p.lastStep le last
  obtain rfl : k = 0 := by
    have rows := p.rowsInside bound
    rw [p.rowsBeforeAll] at rows
    omega
  refine ⟨⟨r0, s0, start, prep, ?_⟩, safe.sender, wire, safe.logged, safe.starts⟩
  rw [p.rowsBeforeAll] at below
  exact below

/-- The reply shows that the sender has stored everything, so nothing is left in the queue. -/
theorem Safe.receiveSenderXors {i : Nat} {r : Receiver fieldSize} {sigma : Bytes} {xors : Vec (BitVec 64)}
    {rest : List (Vec (BitVec 64))} (here : n.receiver = ⟨.receiveSenderXors, i, r, sigma⟩)
    (waiting : n.replies = xors :: rest) :
    Safe p seeds choiceData
      { n with receiver := ⟨.createDictionary, i + 1, r, sigma⟩, replies := rest } 0 := by
  have wire := safe.wire
  rw [here, waiting] at wire
  have replies : rest.length + 1 + i = n.sender.iteration := wire.replies
  rcases wire.ahead with ⟨same, -⟩ | ⟨next, taken, all⟩
  · have current : n.sender.iteration = i := same
    omega
  · have queue := wire.queue
    rw [all] at queue
    refine ⟨trivial, safe.sender, ⟨Nat.le_refl 0, Or.inl ⟨next, Nat.le_of_eq taken⟩, ?_, fun _ => ?_, fun i' _ => ?_, ?_⟩,
      safe.logged, safe.starts⟩
    · exact queue.trans (by simp [ReceiverPoint.sent])
    · rw [taken]
      exact wire.others (i + 1) (by omega)
    · exact wire.others i' (by omega)
    · change rest.length + (i + 1) = n.sender.iteration
      omega

theorem Safe.deliver {i : Nat} {c : Correction} {rest : List (Nat × Correction)} (queued : n.queue = (i, c) :: rest) :
    Safe p seeds choiceData { n with
      queue := rest
      chan := Function.update n.chan i (n.chan i ++ [c.read n.receiver.r.recv.mT1.mView]) } (delivered + 1) := by
  have wire := safe.wire
  have sent := sentAtMost safe.receiver
  have queue := wire.queue
  rw [queued] at queue
  obtain ⟨left, count⟩ : ∃ left, n.receiver.point.sent p - delivered = left + 1 := by
    cases found : n.receiver.point.sent p - delivered with
    | zero =>
      rw [found] at queue
      cases queue
    | succ left => exact ⟨left, rfl⟩
  rw [count, List.range'_succ, List.map_cons, List.cons.injEq, Prod.mk.injEq] at queue
  obtain ⟨⟨rfl, rfl⟩, rfl⟩ := queue
  have inside : delivered < n.receiver.point.sent p := by omega
  have after : n.receiver.point.sent p - (delivered + 1) = left := by omega
  rcases wire.ahead with ⟨same, taken⟩ | ⟨-, -, all⟩
  · refine ⟨safe.receiver, safe.sender, ⟨inside, Or.inl ⟨same, Nat.le_succ_of_le taken⟩, ?_, fun _ => ?_,
      fun i' other => ?_, wire.replies⟩, safe.logged, safe.starts⟩
    · rw [after]
    · have size : delivered + 1 - n.sender.point.taken p = delivered - n.sender.point.taken p + 1 := by omega
      have last : n.sender.point.taken p + (delivered - n.sender.point.taken p) = delivered := by omega
      change Function.update n.chan n.receiver.iteration _ n.receiver.iteration = _
      rw [Function.update_self, wire.current same, readSent safe.receiver inside, size, List.range'_1_concat,
        List.map_append, last]
      rfl
    · have different : i' ≠ n.receiver.iteration := fun equal => other ⟨equal, same⟩
      change Function.update n.chan n.receiver.iteration _ i' = _
      rw [Function.update_of_ne different]
      exact wire.others i' other
  · omega

theorem Safe.accepts {i t : Nat} {s : Sender} {message : List Block} {rest : List (List Block)}
    (here : n.sender = ⟨.recvCorrection t, i, s⟩) (more : t * stepSize < p.numOTs) (arrived : n.chan i = message :: rest) :
    n.receiver.iteration = i ∧ t < delivered ∧
      rest = (List.range' (t + 1) (delivered - (t + 1))).map (messageOf p (n.started i)) ∧
      ∃ r0 sigma sender, n.started i = some (r0, sigma) ∧
        s.sender.recvCorrection (p.curStepSize t) message = .ok sender ∧
        Holding p (n.started i) (p.rowsBefore (t + 1)) sender := by
  have ok := safe.sender
  have wire := safe.wire
  have inside := (p.moreSteps t).mp more
  rw [here] at ok wire
  obtain ⟨-, held⟩ := ok
  dsimp only at held
  -- the channels of other iterations are empty
  have current : i = n.receiver.iteration := by
    by_contra other
    have empty := wire.others i fun both => other both.1
    rw [arrived] at empty
    cases empty
  have waiting := wire.current current
  rw [← current, arrived] at waiting
  obtain ⟨left, count⟩ : ∃ left, delivered - t = left + 1 := by
    cases found : delivered - t with
    | zero =>
      have none : delivered - SenderPoint.taken p (.recvCorrection t) = 0 := found
      rw [none] at waiting
      cases waiting
    | succ left => exact ⟨left, rfl⟩
  have after : delivered - (t + 1) = left := by omega
  change message :: rest = (List.range' t (delivered - t)).map (messageOf p (n.started i)) at waiting
  rw [count, List.range'_succ, List.map_cons, List.cons.injEq] at waiting
  obtain ⟨rfl, rfl⟩ := waiting
  have sent : t < n.receiver.point.sent p := by
    have order := wire.inOrder
    omega
  obtain ⟨-, -, r0, s0, start, -, -⟩ := sentEncoded safe.receiver sent
  rw [← current] at start
  refine ⟨current.symm, by omega, by rw [after], r0, n.receiver.sigma, ?_⟩
  have small : t * stepSize * p.width.stride < 2 ^ 31 :=
    Nat.lt_of_le_of_lt (Nat.mul_le_mul_right _ (Nat.le_of_lt more)) p.rowsSmall
  rw [p.rowsBeforeInside inside] at held
  have below : ReceivedBelow s.sender (corrected r0 (Receiver.word p n.receiver.sigma)) (t * stepSize) s.sender :=
    ⟨rfl, rfl, rfl, rfl, rfl, rfl, rfl, rfl, rfl, held.idx, fun a bound =>
      held.rows r0 _ start a (by rw [← held.stride]; exact bound)⟩
  obtain ⟨sender, received, -, kept⟩ := receivedChunk held.stride below (p.curStepSize t) small
  refine ⟨sender, start, ?_, ?_⟩
  · rw [start]
    exact received
  · rw [p.rowsBeforeNext inside, p.rowsBeforeInside inside]
    refine ⟨by rw [kept.gens]; exact held.gens, kept.valsStride.trans held.stride, kept.idx, ?_⟩
    intro r1 sigma1 start1 a bound
    obtain ⟨rfl, rfl⟩ := Prod.mk.inj (Option.some.inj (start.symm.trans start1))
    exact kept.vals a (by rw [held.stride]; exact bound)

theorem Safe.recvCorrection {i t : Nat} {s : Sender} {message : List Block} {rest : List (List Block)}
    {sender : PrtyMOtSender} (here : n.sender = ⟨.recvCorrection t, i, s⟩) (more : t * stepSize < p.numOTs)
    (arrived : n.chan i = message :: rest)
    (received : s.sender.recvCorrection (p.curStepSize t) message = .ok sender) :
    Safe p seeds choiceData { n with
      sender := ⟨.otCorrection t 0, i, { s with sender }⟩
      chan := Function.update n.chan i rest
      stored := n.stored ++ storedRows i s.sender sender } delivered := by
  obtain ⟨current, taken, left, r0, sigma, sender', start, accepted, held⟩ := safe.accepts here more arrived
  obtain rfl := Except.ok.inj (received.symm.trans accepted)
  have inside := (p.moreSteps t).mp more
  have ok := safe.sender
  have wire := safe.wire
  have logged := safe.logged
  rw [here] at ok wire logged
  have idx : s.sender.mCorrectionIdx = p.rowsBefore t := ok.2.idx
  refine ⟨safe.receiver, ⟨inside, Nat.zero_le _, held⟩, ?_, ?_, safe.starts⟩
  · refine ⟨wire.inOrder, Or.inl ⟨current.symm, taken⟩, wire.queue, fun _ => ?_, fun i' other => ?_, wire.replies⟩
    · change Function.update n.chan i rest n.receiver.iteration = _
      rw [current, Function.update_self]
      exact left
    · have different : i' ≠ i := fun equal => other ⟨equal.trans current.symm, current.symm⟩
      change Function.update n.chan i rest i' = []
      rw [Function.update_of_ne different]
      exact wire.others i' other
  · exact logged.store inside start idx held

theorem Safe.sendXors {i : Nat} {s : Sender} (here : n.sender = ⟨.sendXors, i, s⟩) :
    Safe p seeds choiceData { n with
      sender := ⟨.configure, i + 1, s⟩
      replies := n.replies ++ [Sender.sendXors s] } delivered := by
  have positive := p.stepsPositive
  have most := sentAtMost safe.receiver
  have wire := safe.wire
  have logged := safe.logged
  rw [here] at wire logged
  obtain ⟨same, all⟩ : i = n.receiver.iteration ∧ delivered = p.steps := by
    have order := wire.inOrder
    rcases wire.ahead with ⟨same, taken⟩ | ⟨-, none, -⟩
    · have taken : p.steps ≤ delivered := taken
      exact ⟨same, by omega⟩
    · have none : p.steps = 0 := none
      omega
  refine ⟨safe.receiver, trivial, ⟨wire.inOrder, Or.inr ⟨congrArg (· + 1) same, rfl, all⟩, wire.queue,
    fun current => ?_, fun i' _ => ?_, ?_⟩, ⟨logged.rows, fun i' => ?_⟩, safe.starts⟩
  · have current : i + 1 = n.receiver.iteration := current
    omega
  · by_cases other : i' = n.receiver.iteration
    · have empty := wire.current same
      rw [all] at empty
      subst other
      exact empty.trans (by simp [SenderPoint.taken])
    · exact wire.others i' fun both => other both.1
  · have replies : n.replies.length + n.receiver.iteration = i := wire.replies
    change (n.replies ++ [Sender.sendXors s]).length + n.receiver.iteration = i + 1
    rw [List.length_append, List.length_singleton]
    omega
  · refine (logged.indices i').trans (congrArg List.range ?_)
    unfold storedCount
    simp only [SenderPoint.taken, p.rowsBeforeAll, p.rowsBeforeZero, ite_self]
    split
    · rw [if_pos (by omega)]
    · split
      · rw [if_pos (by omega)]
      · rw [if_neg (by omega)]

end Preservation
end PaxosPsi
