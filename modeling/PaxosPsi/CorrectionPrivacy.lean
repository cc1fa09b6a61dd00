import Mathlib.Probability.Distributions.Uniform
import PaxosPsi.OtPhase

/-! What the corrections tell the sender. The key streams of the base OTs' generators are
arbitrary. Every corrected row is padded by one unselected bit a column, so a run with another
dictionary sends the same messages once the unselected streams are changed by the difference. -/
namespace PaxosPsi
open CountedLoop XorAlgebra Memory

/-- The key stream of every generator: column, side and counter. -/
abbrev Streams := Nat → Bool → BitVec 64 → Block

def streamSeeds (c : Nat) : Block × Block := (BitVec.ofNat 128 (2 * c), BitVec.ofNat 128 (2 * c + 1))

def streamAes (streams : Streams) : Aes := fun key => streams (key.toNat / 2) (key.toNat % 2 = 1)

def streamOts (choiceData : Bytes) (baseCount : Nat) : Except Error BaseOts :=
  .ok ⟨baseCount, streamSeeds, choiceData⟩

/-- The bit for a row of a column; the first 256 counters fill the generator's own buffer. -/
def streamBit (streams : Streams) (c : Nat) (side : Bool) (row : Nat) : Bool :=
  (streams c side (BitVec.ofNat 64 (256 + row / 128))).getLsbD (row % 128)

def ProtocolParty.withStreams {fieldSize : Nat} (p : ProtocolParty fieldSize) (streams : Streams) :
    ProtocolParty fieldSize := { p with aes := streamAes streams }

theorem streamKeys (streams : Streams) {c : Nat} (small : c < 2 ^ 64) (choice : Bool) :
    streamAes streams (select choice (streamSeeds c)) = streams c choice := by
  cases choice with
  | false =>
    have number : (BitVec.ofNat 128 (2 * c)).toNat = 2 * c := by
      rw [BitVec.toNat_ofNat, Nat.mod_eq_of_lt (by omega)]
    have half : 2 * c / 2 = c := by omega
    have side : 2 * c % 2 = 0 := by omega
    simp [streamAes, select, streamSeeds, number, half, side]
  | true =>
    have number : (BitVec.ofNat 128 (2 * c + 1)).toNat = 2 * c + 1 := by
      rw [BitVec.toNat_ofNat, Nat.mod_eq_of_lt (by omega)]
    have half : (2 * c + 1) / 2 = c := by omega
    have side : (2 * c + 1) % 2 = 1 := by omega
    simp [streamAes, select, streamSeeds, number, half, side]

theorem padBit (aes : Aes) (seed : Nat → Block) (row j : Nat) {c : Nat} (inside : c < 128) :
    (Expansion.padBlock (fun i => PRNG.new.setSeed aes (seed i)) row j).getLsbD c =
      (aes (seed (j * 128 + c)) (BitVec.ofNat 64 (256 + row / 128))).getLsbD (row % 128) := by
  simp [Expansion.padBlock, inside, ecbEncCounterMode, PRNG.setSeed, PRNG.new, BitVec.ofNat_add]

theorem PRNG.setSeedCongr {aes aes' : Aes} {seed : Block} (same : aes seed = aes' seed) (prng : PRNG) :
    prng.setSeed aes seed = prng.setSeed aes' seed := by
  simp only [PRNG.setSeed, same]

section Runs
variable {fieldSize : Nat} (p : ProtocolParty fieldSize) (choiceData : Bytes)

def ProtocolParty.choice (c : Nat) : Bool := (p.baseOts streamSeeds choiceData).baseChoice.bit c

/-- Bit `c` of `C(D_i ^ D'_i)`. -/
def ProtocolParty.difference (sigma sigma' : Bytes) (row c : Nat) : Bool :=
  ((p.width.code p.mx).codeword (fun b => Receiver.word p sigma row b ^^^ Receiver.word p sigma' row b)
    (c / 128)).getLsbD (c % 128)

/-- Streams the sender has are the same; a bit it does not have is flipped where the
codewords of the two dictionaries differ. -/
structure Flipped (sigma sigma' : Bytes) (streams streams' : Streams) : Prop where
  selected : ∀ c < p.width.stride * 128, streams' c (p.choice choiceData c) = streams c (p.choice choiceData c)
  unselected : ∀ c < p.width.stride * 128, ∀ row < p.numOTs,
    streamBit streams' c (!p.choice choiceData c) row =
      (streamBit streams c (!p.choice choiceData c) row ^^ p.difference sigma sigma' row c)

/-- Everything the sender has in one OT phase: its choices, its instance with the selected
generators before the corrections, the messages, and its instance after them. -/
structure SenderView where
  baseChoice : BitVector
  before : PrtyMOtSender
  messages : List (List Block)
  after : PrtyMOtSender

def Sender.view (sender : PrtyMOtSender) (streams : Streams) (sigma : Bytes) (recv : PrtyMOtReceiver) :
    Except Error SenderView := do
  let (_, messages) ← Receiver.runOOSWith (p.withStreams streams) (streamOts choiceData) sigma recv
  let (baseChoice, before) ← Sender.prepare (p.withStreams streams) (streamOts choiceData) sender
  let (_, after) ← Sender.runOOSWith (p.withStreams streams) (streamOts choiceData) messages sender
  pure ⟨baseChoice, before, messages, after⟩

theorem columnsSmall : p.width.stride * 128 < 2 ^ 64 := by
  have narrow := (p.width.shape p.mx).narrow
  omega

theorem seededPads (seeds : Nat → Block × Block) (recv : PrtyMOtReceiver) {row j : Nat} (below : row < p.rows)
    (column : j < p.width.stride) :
    ((Receiver.seeded p (p.baseOts seeds choiceData) recv).expandPads p.numOTs).t0 row j =
        Expansion.padBlock (fun i => PRNG.new.setSeed p.aes (seeds i).1) row j ∧
      ((Receiver.seeded p (p.baseOts seeds choiceData) recv).expandPads p.numOTs).t1 row j =
        Expansion.padBlock (fun i => PRNG.new.setSeed p.aes (seeds i).2) row j := by
  have size := configuredReceiverSize p.width p.mx recv p.isMalicious ProtocolParty.statSecParam
  have columns : (Receiver.seeded p (p.baseOts seeds choiceData) recv).mGens.size = p.width.stride * 128 := size
  obtain ⟨-, -, -, -, -, pads⟩ := receiverPads p.numOTs (Receiver.seeded p (p.baseOts seeds choiceData) recv)
  rw [columns, Nat.mul_div_cancel _ (by omega)] at pads
  obtain ⟨first, second⟩ := pads row below j column
  have gens : ∀ c, j * 128 ≤ c → c < j * 128 + 128 →
      (Receiver.seeded p (p.baseOts seeds choiceData) recv).mGens.get c =
        (PRNG.new.setSeed p.aes (seeds c).1, PRNG.new.setSeed p.aes (seeds c).2) := by
    intro c low high
    have within : (j + 1) * 128 ≤ p.width.stride * 128 := Nat.mul_le_mul_right 128 column
    have small : c < p.width.stride * 128 := Nat.lt_of_lt_of_le high (by omega)
    exact seededGens p.aes size small
  constructor
  · exact first.trans (Setup.padBlockCongr (fun c low high => by rw [gens c low high]) row)
  · exact second.trans (Setup.padBlockCongr (fun c low high => by rw [gens c low high]) row)

def ProtocolParty.sentRows (streams : Streams) (sigma : Bytes) (recv : PrtyMOtReceiver) : Blocks :=
  corrected ((Receiver.seeded (p.withStreams streams) (p.baseOts streamSeeds choiceData) recv).expandPads p.numOTs)
    (Receiver.word p sigma)

theorem receiverSends (streams : Streams) (sigma : Bytes) (recv : PrtyMOtReceiver) :
    ∃ r, Receiver.runOOSWith (p.withStreams streams) (streamOts choiceData) sigma recv =
      .ok (r, stepMessages p (p.sentRows choiceData streams sigma recv) p.steps) := by
  obtain ⟨-, -, messages⟩ := sentMessages
    (prepared (p.withStreams streams) streamSeeds choiceData recv PrtyMOtSender.new) sigma (Nat.le_refl p.steps)
  have prepares : Receiver.prepare (p.withStreams streams) (streamOts choiceData) recv = .ok _ :=
    Receiver.prepareRuns rfl recv
  refine ⟨(Receiver.sendAll (p.withStreams streams) sigma
    ((Receiver.seeded (p.withStreams streams) (p.baseOts streamSeeds choiceData) recv).expandPads p.numOTs)).1, ?_⟩
  unfold Receiver.runOOSWith
  rw [prepares]
  exact congrArg Except.ok (Prod.ext rfl messages)

theorem senderPrepares (streams : Streams) (sender : PrtyMOtSender) :
    Sender.prepare (p.withStreams streams) (streamOts choiceData) sender =
      .ok ((p.baseOts streamSeeds choiceData).baseChoice,
        (Sender.seeded (p.withStreams streams) (p.baseOts streamSeeds choiceData) sender).expandPads p.numOTs) :=
  Sender.prepareRuns rfl sender

theorem senderReceives {streams : Streams} {messages : List (List Block)} {sender s0 s : PrtyMOtSender}
    {baseChoice : BitVector}
    (prepares : Sender.prepare (p.withStreams streams) (streamOts choiceData) sender = .ok (baseChoice, s0))
    (took : forLoopM p.steps (Sender.recvStep p messages) s0 = .ok s) :
    Sender.runOOSWith (p.withStreams streams) (streamOts choiceData) messages sender = .ok (baseChoice, s) := by
  have loop : forLoopM (p.withStreams streams).steps (Sender.recvStep (p.withStreams streams) messages) s0 = .ok s :=
    took
  unfold Sender.runOOSWith
  rw [prepares]
  simp only [bind, Except.bind, loop]
  rfl

theorem senderSees {streams : Streams} {sigma : Bytes} {messages : List (List Block)} {recv r : PrtyMOtReceiver}
    {sender s0 s : PrtyMOtSender} {baseChoice : BitVector}
    (sent : Receiver.runOOSWith (p.withStreams streams) (streamOts choiceData) sigma recv = .ok (r, messages))
    (prepares : Sender.prepare (p.withStreams streams) (streamOts choiceData) sender = .ok (baseChoice, s0))
    (took : forLoopM p.steps (Sender.recvStep p messages) s0 = .ok s) :
    Sender.view p choiceData sender streams sigma recv = .ok ⟨baseChoice, s0, messages, s⟩ := by
  unfold Sender.view
  rw [sent]
  simp only [bind, Except.bind, prepares, senderReceives p choiceData prepares took]
  rfl

theorem correctedBit (streams : Streams) (sigma : Bytes) (recv : PrtyMOtReceiver) {row j c : Nat}
    (below : row < p.rows) (column : j < p.width.stride) (inside : c < 128) :
    (p.sentRows choiceData streams sigma recv (row * p.width.stride + j)).getLsbD c =
      (((p.width.code p.mx).codeword (Receiver.word p sigma row) j).getLsbD c ^^
        streamBit streams (j * 128 + c) false row ^^ streamBit streams (j * 128 + c) true row) := by
  have prep := prepared (p.withStreams streams) streamSeeds choiceData recv PrtyMOtSender.new
  obtain ⟨first, second⟩ := seededPads (p.withStreams streams) choiceData streamSeeds recv below column
  have small : j * 128 + c < 2 ^ 64 := by
    have within : (j + 1) * 128 ≤ p.width.stride * 128 := Nat.mul_le_mul_right 128 column
    have columns := columnsSmall p
    omega
  have row0 := (correctedRow prep (Receiver.word p sigma) row column)
  have key0 : streamAes streams (streamSeeds (j * 128 + c)).1 = _ := streamKeys streams small false
  have key1 : streamAes streams (streamSeeds (j * 128 + c)).2 = _ := streamKeys streams small true
  refine (congrArg (fun b => BitVec.getLsbD b c) row0).trans ?_
  rw [BitVec.getLsbD_xor, BitVec.getLsbD_xor, first, second, padBit _ _ _ _ inside, padBit _ _ _ _ inside]
  unfold streamBit
  rw [← key0, ← key1]
  rfl

theorem differenceBit (sigma sigma' : Bytes) (row j : Nat) {c : Nat} (inside : c < 128) :
    p.difference sigma sigma' row (j * 128 + c) =
      (((p.width.code p.mx).codeword (Receiver.word p sigma row) j).getLsbD c ^^
        ((p.width.code p.mx).codeword (Receiver.word p sigma' row) j).getLsbD c) := by
  have block : (j * 128 + c) / 128 = j := by omega
  have bit : (j * 128 + c) % 128 = c := by omega
  unfold ProtocolParty.difference
  rw [block, bit, LinearCode.codewordXor, BitVec.getLsbD_xor]

section TwoRuns
variable {p choiceData} {sigma sigma' : Bytes} {streams streams' : Streams}

theorem Flipped.selectedBit (flipped : Flipped p choiceData sigma sigma' streams streams') {c : Nat}
    (column : c < p.width.stride * 128) (row : Nat) :
    streamBit streams' c (p.choice choiceData c) row = streamBit streams c (p.choice choiceData c) row := by
  unfold streamBit
  rw [flipped.selected c column]

/-- One selected bit is the same and one unselected bit takes up the difference. -/
theorem Flipped.rowsSame (flipped : Flipped p choiceData sigma sigma' streams streams')
    (recv recv' : PrtyMOtReceiver) {row j : Nat} (below : row < p.numOTs) (column : j < p.width.stride) :
    p.sentRows choiceData streams sigma recv (row * p.width.stride + j) =
      p.sentRows choiceData streams' sigma' recv' (row * p.width.stride + j) := by
  have covered := p.numOTsRows
  apply BitVec.eq_of_getLsbD_eq
  intro c inside
  have within : (j + 1) * 128 ≤ p.width.stride * 128 := Nat.mul_le_mul_right 128 column
  have small : j * 128 + c < p.width.stride * 128 := by omega
  have same := flipped.selectedBit small row
  have changed := flipped.unselected (j * 128 + c) small row below
  rw [differenceBit p sigma sigma' row j inside] at changed
  rw [correctedBit p choiceData streams sigma recv (by omega) column inside,
    correctedBit p choiceData streams' sigma' recv' (by omega) column inside]
  cases chosen : p.choice choiceData (j * 128 + c) with
  | false =>
    rw [chosen] at same changed
    rw [same, show streamBit streams' (j * 128 + c) true row = _ from changed]
    simp [Bool.xor_comm, Bool.xor_left_comm]
  | true =>
    rw [chosen] at same changed
    rw [same, show streamBit streams' (j * 128 + c) false row = _ from changed]
    simp [Bool.xor_comm, Bool.xor_left_comm]

theorem stepMessagesCongr (p : ProtocolParty fieldSize) {rows rows' : Blocks}
    (same : ∀ row < p.numOTs, ∀ j < p.width.stride,
      rows (row * p.width.stride + j) = rows' (row * p.width.stride + j)) :
    stepMessages p rows p.steps = stepMessages p rows' p.steps := by
  unfold stepMessages rowsMessage
  apply List.map_congr_left
  intro t listed
  apply List.map_congr_left
  intro a inside
  obtain ⟨-, stop⟩ := p.stepBounds (List.mem_range.mp listed)
  have bound : a < p.width.stride * p.curStepSize t := List.mem_range.mp inside
  have edge : (t * stepSize + p.curStepSize t) * p.width.stride ≤ p.numOTs * p.width.stride :=
    Nat.mul_le_mul_right _ (by omega)
  have regroup : (t * stepSize + p.curStepSize t) * p.width.stride =
      t * stepSize * p.width.stride + p.width.stride * p.curStepSize t := by ring
  have split : (t * stepSize * p.width.stride + a) / p.width.stride * p.width.stride +
      (t * stepSize * p.width.stride + a) % p.width.stride = t * stepSize * p.width.stride + a := Nat.div_add_mod' _ _
  have offset : t * stepSize * p.width.stride + a < p.width.stride * p.numOTs := by
    rw [Nat.mul_comm p.width.stride p.numOTs]
    omega
  rw [← split]
  exact same _ (Nat.div_lt_of_lt_mul offset) _ (Nat.mod_lt _ p.stridePositive)

theorem Flipped.seededSame (flipped : Flipped p choiceData sigma sigma' streams streams') (sender : PrtyMOtSender) :
    Sender.seeded (p.withStreams streams') (p.baseOts streamSeeds choiceData) sender =
      Sender.seeded (p.withStreams streams) (p.baseOts streamSeeds choiceData) sender := by
  unfold Sender.seeded PrtyMOtSender.seedGens
  dsimp only
  congr 2
  funext c
  by_cases inside : c < (p.baseOts streamSeeds choiceData).baseRecv.size
  · have columns := columnsSmall p
    have small : c < p.width.stride * 128 := inside
    have key := streamKeys streams (c := c) (by omega) (p.choice choiceData c)
    have key' := streamKeys streams' (c := c) (by omega) (p.choice choiceData c)
    rw [if_pos inside, if_pos inside]
    exact PRNG.setSeedCongr (key'.trans ((flipped.selected c small).trans key.symm)) _
  · rw [if_neg inside, if_neg inside]
    rfl

theorem Flipped.viewSame (flipped : Flipped p choiceData sigma sigma' streams streams') (sender : PrtyMOtSender)
    (recv recv' : PrtyMOtReceiver) :
    ∃ seen, Sender.view p choiceData sender streams sigma recv = .ok seen ∧
      Sender.view p choiceData sender streams' sigma' recv' = .ok seen := by
  obtain ⟨r, sent⟩ := receiverSends p choiceData streams sigma recv
  obtain ⟨r', sent'⟩ := receiverSends p choiceData streams' sigma' recv'
  rw [← stepMessagesCongr p fun row below j column => flipped.rowsSame recv recv' below column] at sent'
  have prepares := senderPrepares p choiceData streams sender
  have prepares' := senderPrepares p choiceData streams' sender
  rw [flipped.seededSame sender] at prepares'
  obtain ⟨s, took, -, -⟩ := receivedMessages (prepared (p.withStreams streams) streamSeeds choiceData recv sender)
    (p.sentRows choiceData streams sigma recv)
  exact ⟨_, senderSees p choiceData sent prepares took, senderSees p choiceData sent' prepares' took⟩

end TwoRuns

abbrev ProtocolParty.Unselected := Fin (p.width.stride * 128) → Fin p.numOTs → Bool

def ProtocolParty.fill (bits : p.Unselected) (streams : Streams) : Streams := fun c side counter =>
  if side = p.choice choiceData c then streams c side counter
  else BitVec.ofFnLE fun b : Fin 128 =>
    if inside : c < p.width.stride * 128 ∧ 256 ≤ counter.toNat ∧ (counter.toNat - 256) * 128 + b < p.numOTs then
      bits ⟨c, inside.1⟩ ⟨(counter.toNat - 256) * 128 + b, inside.2.2⟩
    else (streams c side counter).getLsbD b

theorem fillSelected (bits : p.Unselected) (streams : Streams) (c : Nat) :
    p.fill choiceData bits streams c (p.choice choiceData c) = streams c (p.choice choiceData c) := by
  funext counter
  exact if_pos rfl

theorem fillUnselected (bits : p.Unselected) (streams : Streams) {c row : Nat} (column : c < p.width.stride * 128)
    (below : row < p.numOTs) :
    streamBit (p.fill choiceData bits streams) c (!p.choice choiceData c) row = bits ⟨c, column⟩ ⟨row, below⟩ := by
  have small := p.numOTsSmall
  have counter : (BitVec.ofNat 64 (256 + row / 128)).toNat = 256 + row / 128 := by
    rw [BitVec.toNat_ofNat, Nat.mod_eq_of_lt (by omega)]
  have back : (256 + row / 128 - 256) * 128 + row % 128 = row := by omega
  have other : ¬ (!p.choice choiceData c) = p.choice choiceData c := by
    cases p.choice choiceData c <;> decide
  have lane : row % 128 < 128 := Nat.mod_lt _ (by omega)
  have first : 256 ≤ (BitVec.ofNat 64 (256 + row / 128)).toNat := by omega
  have inside : ((BitVec.ofNat 64 (256 + row / 128)).toNat - 256) * 128 + row % 128 < p.numOTs := by omega
  unfold streamBit ProtocolParty.fill
  rw [if_neg other, BitVec.getLsbD_ofFnLE, dif_pos lane, dif_pos ⟨column, first, inside⟩]
  exact congrArg (bits ⟨c, column⟩) (Fin.ext (by dsimp only; rw [counter, back]))

theorem fillFlipped (sigma sigma' : Bytes) (bits : p.Unselected) (streams : Streams) :
    Flipped p choiceData sigma sigma' (p.fill choiceData bits streams)
      (p.fill choiceData (fun c row => bits c row ^^ p.difference sigma sigma' row c) streams) := by
  refine ⟨fun c column => ?_, fun c column row below => ?_⟩
  · rw [fillSelected, fillSelected]
  · rw [fillUnselected p choiceData _ streams column below, fillUnselected p choiceData _ streams column below]

end Runs

section Uniform
variable {α β : Type*} [Fintype α] [Nonempty α]

theorem uniformPerm (e : Equiv.Perm α) : (PMF.uniformOfFintype α).map e = PMF.uniformOfFintype α := by
  ext b
  rw [PMF.map_apply, tsum_eq_single (e.symm b)]
  · simp
  · intro a other
    rw [if_neg]
    rintro rfl
    exact other (e.symm_apply_apply a).symm

theorem uniformShift {f g : α → β} (e : Equiv.Perm α) (same : ∀ a, f a = g (e a)) :
    (PMF.uniformOfFintype α).map f = (PMF.uniformOfFintype α).map g := by
  have shifted : f = g ∘ e := funext same
  rw [shifted, ← PMF.map_comp, uniformPerm]

end Uniform

section Privacy
variable {fieldSize : Nat} (p : ProtocolParty fieldSize) (choiceData : Bytes)

def ProtocolParty.flipAll (sigma sigma' : Bytes) : Equiv.Perm p.Unselected :=
  Function.Involutive.toPerm (fun bits c row => bits c row ^^ p.difference sigma sigma' row c) (by
    intro bits
    funext c row
    simp)

/-- Some unselected streams explain what the sender has by any other dictionary, and on
uniform ones it does not depend on the dictionary. -/
theorem correctionsHideDictionary (sigma sigma' : Bytes) (recv recv' : PrtyMOtReceiver) (sender : PrtyMOtSender) :
    (∀ streams, ∃ streams', Flipped p choiceData sigma sigma' streams streams') ∧
    (∀ streams streams', Flipped p choiceData sigma sigma' streams streams' →
      ∃ seen, Sender.view p choiceData sender streams sigma recv = .ok seen ∧
        Sender.view p choiceData sender streams' sigma' recv' = .ok seen) ∧
    ∀ streams,
      (PMF.uniformOfFintype p.Unselected).map
          (fun bits => Sender.view p choiceData sender (p.fill choiceData bits streams) sigma recv) =
        (PMF.uniformOfFintype p.Unselected).map
          (fun bits => Sender.view p choiceData sender (p.fill choiceData bits streams) sigma' recv') := by
  refine ⟨fun streams => ?_, fun streams streams' flipped => flipped.viewSame sender recv recv', fun streams => ?_⟩
  · refine ⟨p.fill choiceData (fun c row => streamBit streams c (!p.choice choiceData c) row ^^
      p.difference sigma sigma' row c) streams, fun c _ => ?_, fun c column row below => ?_⟩
    · rw [fillSelected]
    · rw [fillUnselected p choiceData _ streams column below]
  · apply uniformShift (p.flipAll sigma sigma')
    intro bits
    obtain ⟨seen, first, second⟩ := (fillFlipped p choiceData sigma sigma' bits streams).viewSame sender recv recv'
    exact first.trans second.symm

end Privacy
end PaxosPsi
