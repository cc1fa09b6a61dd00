import PaxosPsi.BaseOts
import PaxosPsi.Corrections
import PaxosPsi.ObliviousDictionary

/-! `ProtocolParty` with its two subclasses. The base OTs come from `simulate`, which
the program sets to `simulateBaseOts`. Messages are lists of blocks in the order they are
sent; a party that waits for a message of a closed channel throws. -/
namespace PaxosPsi
open CountedLoop XorAlgebra Memory

def stepSize : Nat := 1 <<< 10

/-- A cipher context for AES-128 in ECB mode under a fixed key, with the input bytes that
do not fill a block yet. -/
structure EVP_CIPHER_CTX where
  encrypt : Block → Block
  buffered : List Byte

/-- Whole blocks are written to `out` at once; the rest of the input waits in the context. -/
def EVP_EncryptUpdate (ctx : EVP_CIPHER_CTX) (out input : Bytes) (length : Nat) : Bytes × EVP_CIPHER_CTX :=
  let total := ctx.buffered.length + length
  let data : Bytes := fun i =>
    if i < ctx.buffered.length then ctx.buffered.getD i 0 else input (i - ctx.buffered.length)
  (fun i => if i < total / 16 * 16 then bytesOf (fun a => ctx.encrypt (blocksOf data a)) i else out i,
    { ctx with buffered := (List.range (total % 16)).map fun i => data (total / 16 * 16 + i) })

def firstWord (bytes : Bytes) : BitVec 64 := (blocksOf bytes 0).extractLsb' 0 64

/-- What the constructor fixes. `aes` is the block cipher behind the generators. The last
variable's offset is taken to fit an `int`, so that all offsets into `vals` and `sigma` do. -/
structure ProtocolParty (fieldSize : Nat) where
  dic : Dictionary fieldSize
  width : Supported fieldSize
  mx : Nat → Blocks
  aes : Aes
  isMalicious : Bool
  gammaValue : dic.gamma = 60
  fieldBytes : dic.fieldSizeBytes = if fieldSize % 8 = 0 then fieldSize / 8 else fieldSize / 8 + 1
  lastOffset : (2 * dic.tableRealSize + 59) * dic.fieldSizeBytes < 2 ^ 31
  /-- A set made for `1.2 * hashSize` elements has at least so many buckets. -/
  enoughBuckets : dic.hashSize ≤ dic.tableRealSize

structure Receiver (fieldSize : Nat) where
  keys : List Key
  dic : ObliviousDictionary fieldSize
  recv : PrtyMOtReceiver
  xorsSet : List (BitVec 64)
  aes : EVP_CIPHER_CTX

structure Sender where
  keys : List Key
  vals : Bytes
  sender : PrtyMOtSender
  baseChoice : BitVector
  xors : Vec (BitVec 64)
  aes : EVP_CIPHER_CTX

def prng0Seed : Block := 4253465#32 ++ 3434565#32 ++ 234435#32 ++ 23987045#32

/-- The base OTs every iteration draws again from the constant seed. -/
def simulateBaseOts (aes : Aes) (baseCount : Nat) : Except Error BaseOts := do
  let prng0 := PRNG.new.setSeed aes prng0Seed
  let (choice, prng0) ← prng0.get ((baseCount + 7) / 8)
  let (sends, _) ← prng0.get (32 * baseCount)
  let sendBlocks := blocksOf fun i => sends.getD i 0
  pure ⟨baseCount, fun i => (sendBlocks (2 * i), sendBlocks (2 * i + 1)), fun i => choice.getD i 0⟩

namespace ProtocolParty
variable {fieldSize : Nat} (p : ProtocolParty fieldSize)

def statSecParam : Nat := 40

def numOTs : Nat := p.dic.tableRealSize * 2 + p.dic.gamma

def steps : Nat := (p.numOTs + stepSize - 1) / stepSize

def curStepSize (t : Nat) : Nat := min stepSize (p.numOTs - t * stepSize)

section Rows

def rowSum (m : Matrix) (indices : List Nat) : Blocks :=
  (indices.drop 2).foldl (fun output k j => output j ^^^ m.read (2 * p.dic.tableRealSize + k) j)
    fun j => m.read (indices.getD 0 0) j ^^^ m.read (p.dic.tableRealSize + indices.getD 1 0) j

def rowTag (aes : EVP_CIPHER_CTX) (blockSize : Nat) (output : Blocks) : BitVec 64 × EVP_CIPHER_CTX :=
  let updated := EVP_EncryptUpdate aes (fun _ => 0#8) (bytesOf output) (blockSize * 16)
  (firstWord updated.1, updated.2)

end Rows

end ProtocolParty

namespace Receiver
variable {fieldSize : Nat} (p : ProtocolParty fieldSize)

def word (sigma : Bytes) (i : Nat) : Bytes := fun b => sigma (p.dic.fieldSizeBytes * i + b)

/-- The rows of one step and the message sent with them, as the memory holds it then. -/
def sendStep (sigma : Bytes) (t : Nat) (s : PrtyMOtReceiver × List (List Block)) :
    PrtyMOtReceiver × List (List Block) :=
  let sent := (s.1.encodeRows (word p sigma) (t * stepSize) (p.curStepSize t)).sendCorrection (p.curStepSize t)
  (sent.2, s.2 ++ [sent.1.read sent.2.mT1.mView])

def sendAll (sigma : Bytes) (recv : PrtyMOtReceiver) : PrtyMOtReceiver × List (List Block) :=
  forLoop p.steps (sendStep p sigma) (recv, [])

/-- `runOOS` up to the corrections. -/
def prepare (simulate : Nat → Except Error BaseOts) (recv : PrtyMOtReceiver) : Except Error PrtyMOtReceiver := do
  let recv := recv.configure p.mx p.isMalicious ProtocolParty.statSecParam fieldSize
  let baseCount ← recv.getBaseOTCount
  let base ← simulate baseCount
  let recv ← recv.setBaseOts p.aes base.baseSend
  recv.init p.numOTs

def runOOSWith (simulate : Nat → Except Error BaseOts) (sigma : Bytes) (recv : PrtyMOtReceiver) :
    Except Error (PrtyMOtReceiver × List (List Block)) := do
  let recv ← prepare p simulate recv
  pure (sendAll p sigma recv)

def row (recv : PrtyMOtReceiver) (key : Key) : Blocks := p.rowSum recv.mT0 (p.dic.dec key)

def insertXor (blockSize i : Nat) (r : Receiver fieldSize) : Receiver fieldSize :=
  let (tag, aes) := ProtocolParty.rowTag r.aes blockSize (row p r.recv (r.keys.getD i 0))
  { r with aes, xorsSet := if tag ∈ r.xorsSet then r.xorsSet else tag :: r.xorsSet }

def computeXors (r : Receiver fieldSize) : Except Error (Receiver fieldSize) := do
  let baseCount ← r.recv.getBaseOTCount
  pure (forLoop p.dic.hashSize (insertXor p (baseCount / 128)) r)

def receiveSenderXors (senderOutputs : Vec (BitVec 64)) (r : Receiver fieldSize) : Nat :=
  forLoop p.dic.hashSize (fun i count => if senderOutputs.get i ∈ r.xorsSet then count + 1 else count) 0

def maxWords : Nat := 2 ^ 60 - 1

/-- `vector<uint64_t> senderOutputs(size)` and the read into it. What lies behind the
vector in memory is the rest of `words`. -/
def readSenderOutputs (size : BitVec 64) (words : Nat → BitVec 64) : Except Error (Vec (BitVec 64)) :=
  if maxWords < size.toNat then .error .lengthError else .ok ⟨size.toNat, words⟩

/-- `receiveSenderXors` from the length field on, with the indices it reads. -/
def receiveMessage (size : BitVec 64) (words : Nat → BitVec 64) (r : Receiver fieldSize) :
    Except Error (Nat × List Nat) := do
  let senderOutputs ← readSenderOutputs size words
  pure (forLoop p.dic.hashSize (fun i s =>
    (if senderOutputs.get i ∈ r.xorsSet then s.1 + 1 else s.1, s.2 ++ [i])) (0, []))

end Receiver

namespace Sender
variable {fieldSize : Nat} (p : ProtocolParty fieldSize)

def prepare (simulate : Nat → Except Error BaseOts) (sender : PrtyMOtSender) :
    Except Error (BitVector × PrtyMOtSender) := do
  let sender := sender.configure p.mx p.isMalicious ProtocolParty.statSecParam fieldSize
  let baseCount ← sender.getBaseOTCount
  let base ← simulate baseCount
  let sender ← sender.setBaseOts p.aes base.baseRecv base.baseChoice
  let sender ← sender.init p.numOTs
  pure (base.baseChoice, sender)

def correctRows (i curStepSize : Nat) (sender : PrtyMOtSender) : PrtyMOtSender :=
  forLoop curStepSize (fun k sender => sender.otCorrection (i + k)) sender

def recvStep (messages : List (List Block)) (t : Nat) (sender : PrtyMOtSender) : Except Error PrtyMOtSender :=
  match messages[t]? with
  | none => .error .channelClosed
  | some message => do
    let sender ← sender.recvCorrection (p.curStepSize t) message
    pure (correctRows (t * stepSize) (p.curStepSize t) sender)

def runOOSWith (simulate : Nat → Except Error BaseOts) (messages : List (List Block)) (sender : PrtyMOtSender) :
    Except Error (BitVector × PrtyMOtSender) := do
  let (baseChoice, sender) ← prepare p simulate sender
  let sender ← forLoopM p.steps (recvStep p messages) sender
  pure (baseChoice, sender)

def maskedCodeword (code : LinearCode) (baseChoice : BitVector) (val : Bytes) : Blocks :=
  let codeword := memcpy (fun _ => 0#128) 0 val p.dic.fieldSizeBytes
  fun j => code.encode (bytesOf codeword) codeword j &&& blocksOf baseChoice.data j

def row (sender : PrtyMOtSender) (baseChoice : BitVector) (key : Key) (val : Bytes) : Blocks := fun j =>
  p.rowSum sender.mT (p.dic.dec key) j ^^^ maskedCodeword p (p.width.code p.mx) baseChoice val j

def val (vals : Bytes) (i : Nat) : Bytes := fun b => vals (i * p.dic.fieldSizeBytes + b)

def setXor (blockSize i : Nat) (s : Sender) : Sender :=
  let (tag, aes) := ProtocolParty.rowTag s.aes blockSize
    (row p s.sender s.baseChoice (s.keys.getD i 0) (val p s.vals i))
  { s with aes, xors := { s.xors with get := Function.update s.xors.get i tag } }

def computeXors (s : Sender) : Except Error Sender := do
  let baseCount ← s.sender.getBaseOTCount
  let s := { s with xors := s.xors.resize p.dic.hashSize 0 }
  pure (forLoop p.dic.hashSize (setXor p (baseCount / 128)) s)

def sendXors (s : Sender) : Vec (BitVec 64) := s.xors

end Sender

structure Items {fieldSize : Nat} (p : ProtocolParty fieldSize) where
  keys : List Key
  vals : Bytes
  distinct : keys.Nodup
  size : keys.length = p.dic.hashSize

section Run
variable {fieldSize : Nat} {p : ProtocolParty fieldSize}

def Receiver.construct (items : Items p) (encrypt : Block → Block) (prg : Nat → Bytes) : Receiver fieldSize :=
  { keys := items.keys, dic := Dictionary.setKeysAndVals items.keys items.vals (Dictionary.construct prg)
    recv := PrtyMOtReceiver.new, xorsSet := [], aes := ⟨encrypt, []⟩ }

def Sender.construct (items : Items p) (encrypt : Block → Block) : Sender :=
  { keys := items.keys, vals := items.vals, sender := PrtyMOtSender.new, baseChoice := ⟨0, fun _ => 0#8⟩
    xors := ⟨p.dic.hashSize, fun _ => 0⟩, aes := ⟨encrypt, []⟩ }

def runOnlineWith (p : ProtocolParty fieldSize) (simulate : Nat → Except Error BaseOts) (solve : Solver fieldSize)
    (r : Receiver fieldSize) (s : Sender) : Except Error (Receiver fieldSize × Sender × Nat) := do
  let r := { r with dic := p.dic.createDictionary solve r.dic }
  let (recv, messages) ← Receiver.runOOSWith p simulate (p.dic.getVariables r.dic) r.recv
  let (baseChoice, sender) ← Sender.runOOSWith p simulate messages s.sender
  let r ← Receiver.computeXors p { r with recv }
  let s ← Sender.computeXors p { s with baseChoice, sender }
  pure (r, s, Receiver.receiveSenderXors p (Sender.sendXors s) r)

/-- `run`, with the match count of every iteration. -/
def runWith (p : ProtocolParty fieldSize) (simulate : Nat → Except Error BaseOts) (solve : Nat → Solver fieldSize) :
    Nat → Receiver fieldSize → Sender → Except Error (Receiver fieldSize × Sender × List Nat)
  | 0, r, s => .ok (r, s, [])
  | times + 1, r, s => do
    let (r, s, counts) ← runWith p simulate solve times r s
    let (r, s, count) ← runOnlineWith p simulate (solve times) r s
    pure (r, s, counts ++ [count])

end Run
end PaxosPsi
