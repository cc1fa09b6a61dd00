import PaxosPsi.Iterations
import PaxosPsi.Library.Runs

/-! Correction messages in flight. `asyncSend` keeps a reference into `mT1`, so a message is
what `mT1` holds when it is delivered. The parties' programs, the delivery and the sender's
reply are steps that interleave in any order, over any number of iterations. -/
namespace PaxosPsi
open CountedLoop XorAlgebra Memory Runs

/-- Where the receiver is; `encode t k` is pass `t` of the loop of `runOOS` before row `k`. -/
inductive ReceiverPoint where
  | createDictionary
  | configure
  | setBaseOts
  | init
  | encode (t k : Nat)
  | computeXors
  | receiveSenderXors

inductive SenderPoint where
  | configure
  | setBaseOts
  | init
  | recvCorrection (t : Nat)
  | otCorrection (t k : Nat)
  | computeXors
  | sendXors

structure ReceiverSide (fieldSize : Nat) where
  point : ReceiverPoint
  iteration : Nat
  r : Receiver fieldSize
  sigma : Bytes

structure SenderSide where
  point : SenderPoint
  iteration : Nat
  s : Sender

structure StoredRow where
  iteration : Nat
  index : Nat
  row : Blocks

def storedRows (iteration : Nat) (before after : PrtyMOtSender) : List StoredRow :=
  (List.range (after.mCorrectionIdx - before.mCorrectionIdx)).map fun k =>
    ⟨iteration, before.mCorrectionIdx + k, after.mCorrectionVals.read (before.mCorrectionIdx + k)⟩

/-- Both parties and what is between them. `queue` has the messages that are not delivered
yet, `chan` the delivered ones of each iteration's channel, `replies` the sender's words.
`started` and `stored` are the history: the receiver right after `init` with its `sigma`,
and every row the sender has stored. -/
structure Flight (fieldSize : Nat) where
  receiver : ReceiverSide fieldSize
  sender : SenderSide
  queue : List (Nat × Correction)
  chan : Nat → List (List Block)
  replies : List (Vec (BitVec 64))
  started : Nat → Option (PrtyMOtReceiver × Bytes)
  stored : List StoredRow

def Flight.start {fieldSize : Nat} (r : Receiver fieldSize) (s : Sender) : Flight fieldSize :=
  { receiver := ⟨.createDictionary, 0, r, fun _ => 0#8⟩, sender := ⟨.configure, 0, s⟩, queue := []
    chan := fun _ => [], replies := [], started := fun _ => none, stored := [] }

section Steps
variable {fieldSize : Nat} (p : ProtocolParty fieldSize)

inductive Receiver.Local (solve : Nat → Solver fieldSize) :
    ReceiverSide fieldSize → ReceiverSide fieldSize → Prop where
  | createDictionary {i r sigma} : Local solve ⟨.createDictionary, i, r, sigma⟩
      ⟨.configure, i, { r with dic := p.dic.createDictionary (solve i) r.dic }, sigma⟩
  | configure {i r sigma} : Local solve ⟨.configure, i, r, sigma⟩ ⟨.setBaseOts, i,
      { r with recv := r.recv.configure p.mx p.isMalicious ProtocolParty.statSecParam fieldSize }, sigma⟩
  | setBaseOts {i r sigma baseCount base recv} (counted : r.recv.getBaseOTCount = .ok baseCount)
      (drawn : simulateBaseOts p.aes baseCount = .ok base) (given : r.recv.setBaseOts p.aes base.baseSend = .ok recv) :
      Local solve ⟨.setBaseOts, i, r, sigma⟩ ⟨.init, i, { r with recv }, p.dic.getVariables r.dic⟩
  | otCorrection {i t k r sigma} (more : t * stepSize < p.numOTs) (inside : k < p.curStepSize t) :
      Local solve ⟨.encode t k, i, r, sigma⟩ ⟨.encode t (k + 1), i, { r with
        recv := r.recv.otCorrection (t * stepSize + k) (Receiver.word p sigma (t * stepSize + k)) }, sigma⟩
  | computeXors {i r sigma next} (computed : Receiver.computeXors p r = .ok next) :
      Local solve ⟨.computeXors, i, r, sigma⟩ ⟨.receiveSenderXors, i, next, sigma⟩

inductive Sender.Local : SenderSide → SenderSide → Prop where
  | configure {i s} : Local ⟨.configure, i, s⟩ ⟨.setBaseOts, i,
      { s with sender := s.sender.configure p.mx p.isMalicious ProtocolParty.statSecParam fieldSize }⟩
  | setBaseOts {i s baseCount base sender} (counted : s.sender.getBaseOTCount = .ok baseCount)
      (drawn : simulateBaseOts p.aes baseCount = .ok base)
      (given : s.sender.setBaseOts p.aes base.baseRecv base.baseChoice = .ok sender) :
      Local ⟨.setBaseOts, i, s⟩ ⟨.init, i, { s with baseChoice := base.baseChoice, sender }⟩
  | init {i s sender} (inited : s.sender.init p.numOTs = .ok sender) :
      Local ⟨.init, i, s⟩ ⟨.recvCorrection 0, i, { s with sender }⟩
  | otCorrection {i t k s} (inside : k < p.curStepSize t) : Local ⟨.otCorrection t k, i, s⟩
      ⟨.otCorrection t (k + 1), i, { s with sender := s.sender.otCorrection (t * stepSize + k) }⟩
  | nextStep {i t k s} (whole : ¬ k < p.curStepSize t) : Local ⟨.otCorrection t k, i, s⟩ ⟨.recvCorrection (t + 1), i, s⟩
  | endLoop {i t s} (last : ¬ t * stepSize < p.numOTs) : Local ⟨.recvCorrection t, i, s⟩ ⟨.computeXors, i, s⟩
  | computeXors {i s next} (computed : Sender.computeXors p s = .ok next) :
      Local ⟨.computeXors, i, s⟩ ⟨.sendXors, i, next⟩

/-- One step of either party or of the network. With `flushes` the end of the receiver's `runOOS`,
which closes its channel, waits for the queue; without it messages may be left behind it. -/
inductive Step (solve : Nat → Solver fieldSize) (flushes : Bool) : Flight fieldSize → Flight fieldSize → Prop where
  | receiver {n after} (moved : Receiver.Local p solve n.receiver after) : Step solve flushes n { n with receiver := after }
  | init {n i r sigma recv} (here : n.receiver = ⟨.init, i, r, sigma⟩) (inited : r.recv.init p.numOTs = .ok recv) :
      Step solve flushes n { n with
        receiver := ⟨.encode 0 0, i, { r with recv }, sigma⟩
        started := Function.update n.started i (some (recv, sigma)) }
  | sendCorrection {n i t k r sigma} (here : n.receiver = ⟨.encode t k, i, r, sigma⟩)
      (more : t * stepSize < p.numOTs) (whole : ¬ k < p.curStepSize t) :
      Step solve flushes n { n with
        receiver := ⟨.encode (t + 1) 0, i, { r with recv := (r.recv.sendCorrection (p.curStepSize t)).2 }, sigma⟩
        queue := n.queue ++ [(i, (r.recv.sendCorrection (p.curStepSize t)).1)] }
  | close {n i t k r sigma} (here : n.receiver = ⟨.encode t k, i, r, sigma⟩)
      (last : ¬ t * stepSize < p.numOTs) (flushed : flushes = true → n.queue = []) :
      Step solve flushes n { n with receiver := ⟨.computeXors, i, r, sigma⟩ }
  | receiveSenderXors {n i r sigma xors rest} (here : n.receiver = ⟨.receiveSenderXors, i, r, sigma⟩)
      (waiting : n.replies = xors :: rest) :
      Step solve flushes n { n with receiver := ⟨.createDictionary, i + 1, r, sigma⟩, replies := rest }
  | deliver {n i c rest} (queued : n.queue = (i, c) :: rest) :
      Step solve flushes n { n with
        queue := rest
        chan := Function.update n.chan i (n.chan i ++ [c.read n.receiver.r.recv.mT1.mView]) }
  | sender {n after} (moved : Sender.Local p n.sender after) : Step solve flushes n { n with sender := after }
  | recvCorrection {n i t s message rest sender} (here : n.sender = ⟨.recvCorrection t, i, s⟩)
      (more : t * stepSize < p.numOTs) (arrived : n.chan i = message :: rest)
      (received : s.sender.recvCorrection (p.curStepSize t) message = .ok sender) :
      Step solve flushes n { n with
        sender := ⟨.otCorrection t 0, i, { s with sender }⟩
        chan := Function.update n.chan i rest
        stored := n.stored ++ storedRows i s.sender sender }
  | sendXors {n i s} (here : n.sender = ⟨.sendXors, i, s⟩) :
      Step solve flushes n { n with
        sender := ⟨.configure, i + 1, s⟩
        replies := n.replies ++ [Sender.sendXors s] }

end Steps
end PaxosPsi
