import PaxosPsi.Gf2e
import PaxosPsi.Hashing

/-! `ObliviousDictionary`: the passes that turn keys and values into variables. The
hash sets are lists in which a bucket keeps its enumeration order; where a new node
is linked is up to the library. The PRG is the sequence of byte strings its next
calls return, and the solver is any function of the system it is given. Offsets into the byte
vectors are natural numbers; the `int` products of the source are these below `2 ^ 31`. -/
namespace PaxosPsi
open CountedLoop XorAlgebra Memory

structure Dictionary (n : Nat) extends Hashing where
  hashSize : Nat
  fieldSizeBytes : Nat
  modulus : Modulus n
  /-- Where each hash set links a new node, given what it holds. -/
  firstLink : List Key → Key → Nat
  secondLink : List Key → Key → Nat

abbrev Row (n : Nat) := Vec (BitVec n)

structure LinearSystem (n : Nat) where
  rows : Nat
  matrix : Nat → Row n
  values : Nat → BitVec n

abbrev Solver (n : Nat) := LinearSystem n → Nat → BitVec n

structure ObliviousDictionary (n : Nat) where
  keys : List Key
  values : Bytes
  vals : Key → Option (BitVec n)
  peelingVector : Nat → Key
  peelingCounter : Nat
  first : List Key
  second : List Key
  /-- `variables`, which Lean reserves. -/
  vars : Nat → BitVec n
  sign : Nat → Byte
  /-- What the next calls of `getPRGBytesEX` return. -/
  prg : Nat → Bytes

structure CoreSystem (n : Nat) where
  matrix : Nat → Row n
  values : Nat → BitVec n
  firstTableCols : Nat → Option Nat
  secondTableCols : Nat → Option Nat
  rowCounter : Nat
  firstColsCounter : Nat
  secondColsCounter : Nat
  sign : Nat → Byte

namespace Dictionary
variable {n : Nat} (dic : Dictionary n)

section HashSets

def insert (link : List Key → Key → Nat) (set : List Key) (key : Key) : List Key :=
  if key ∈ set then set else set.take (link set key) ++ key :: set.drop (link set key)

def bucket (hash : Key → Nat) (set : List Key) (position : Nat) : List Key :=
  set.filter fun key => hash key = position

def bucket_size (hash : Key → Nat) (set : List Key) (position : Nat) : Nat := (bucket hash set position).length

/-- `*set.begin(position)` of a bucket that is not empty. -/
def bucketBegin (hash : Key → Nat) (set : List Key) (position : Nat) : Key := (bucket hash set position).headD 0

end HashSets

def construct (prg : Nat → Bytes) : ObliviousDictionary n :=
  { keys := [], values := fun _ => 0#8, vals := fun _ => none, peelingVector := fun _ => 0, peelingCounter := 0
    first := [], second := [], vars := fun _ => 0#n, sign := fun _ => 0#8, prg }

def setKeysAndVals (keys : List Key) (values : Bytes) (d : ObliviousDictionary n) : ObliviousDictionary n :=
  { d with keys, values }

def element (values : Bytes) (i : Nat) : BitVec n :=
  dic.modulus.fromBytes dic.fieldSizeBytes fun b => values (i * dic.fieldSizeBytes + b)

/-- `vals.insert`, which keeps an entry that is already there. -/
def insertVal (vals : Key → Option (BitVec n)) (key : Key) (value : BitVec n) : Key → Option (BitVec n) :=
  if (vals key).isSome then vals else Function.update vals key (some value)

def init (d : ObliviousDictionary n) : ObliviousDictionary n :=
  { d with
    vals := forLoop dic.hashSize (fun i vals => insertVal vals (d.keys.getD i 0) (dic.element d.values i))
      fun _ => none
    peelingVector := fun _ => 0
    peelingCounter := 0
    first := []
    second := []
    vars := fun _ => 0#n }

def fillTables (d : ObliviousDictionary n) : ObliviousDictionary n :=
  forLoop dic.hashSize (fun i d =>
    { d with
      first := insert dic.firstLink d.first (d.keys.getD i 0)
      second := insert dic.secondLink d.second (d.keys.getD i 0) }) d

section Peeling

def peelKey (key : Key) (d : ObliviousDictionary n) : ObliviousDictionary n :=
  { d with
    peelingVector := Function.update d.peelingVector d.peelingCounter key
    peelingCounter := d.peelingCounter + 1
    first := d.first.erase key
    second := d.second.erase key }

def peelFirst (position : Nat) (d : ObliviousDictionary n) : ObliviousDictionary n :=
  if bucket_size dic.firstBucket d.first position = 1 then
    peelKey (bucketBegin dic.firstBucket d.first position) d
  else d

/-- The locals `key` and `secondBucket` of the second loop beside the dictionary. -/
structure Chain (n : Nat) where
  d : ObliviousDictionary n
  key : Key
  secondBucket : Nat

/-- One pass of the inner `while`: it leaves by moving `secondBucket` past `position`. -/
def chainStep (position : Nat) (c : Chain n) : Chain n :=
  let d := peelKey c.key c.d
  let bucket := dic.firstBucket c.key
  if bucket_size dic.firstBucket d.first bucket = 1 then
    let key := bucketBegin dic.firstBucket d.first bucket
    let d := peelKey key d
    let secondBucket := dic.secondBucket key
    if bucket_size dic.secondBucket d.second secondBucket = 1 then
      ⟨d, bucketBegin dic.secondBucket d.second secondBucket, secondBucket⟩
    else ⟨d, key, position + 1⟩
  else ⟨d, c.key, position + 1⟩

/-- Every pass erases a key, so the loop has left after as many passes as there are keys. -/
def peelSecond (position : Nat) (d : ObliviousDictionary n) : ObliviousDictionary n :=
  if bucket_size dic.secondBucket d.second position = 1 then
    (whileLoop d.second.length (fun c => c.secondBucket ≤ position) (dic.chainStep position)
      ⟨d, bucketBegin dic.secondBucket d.second position, 0⟩).d
  else d

def peeling (d : ObliviousDictionary n) : ObliviousDictionary n :=
  let d := { d with peelingCounter := 0 }
  forLoop dic.tableRealSize dic.peelSecond (forLoop dic.tableRealSize dic.peelFirst d)

end Peeling

section Core

def newCol (cols : Nat → Option Nat) (vertex counter : Nat) : Nat → Option Nat :=
  if (cols vertex).isNone then Function.update cols vertex (some counter) else cols

def nextCol (cols : Nat → Option Nat) (vertex counter : Nat) : Nat :=
  if (cols vertex).isNone then counter + 1 else counter

def bitColumns (matrixSize : Nat) (bits : BitVec 64) (row : Nat → BitVec n) : (Nat → BitVec n) × BitVec 64 :=
  forLoop dic.gamma (fun j s =>
    (Function.update s.1 (2 * matrixSize + j) (if s.2 &&& 1#64 = 1#64 then 1#n else 0#n), s.2 >>> 1)) (row, bits)

def addRow (vals : Key → Option (BitVec n)) (matrixSize i : Nat) (s : CoreSystem n) (key : Key) : CoreSystem n :=
  let secondIndex := dic.secondBucket key
  let firstTableCols := newCol s.firstTableCols i s.firstColsCounter
  let secondTableCols := newCol s.secondTableCols secondIndex s.secondColsCounter
  let firstPos := (firstTableCols i).getD 0
  let secondPos := (secondTableCols secondIndex).getD 0
  let row := Function.update (Function.update (fun _ => 0#n) firstPos 1#n) (matrixSize + secondPos) 1#n
  { matrix := Function.update s.matrix s.rowCounter
      ⟨2 * matrixSize + dic.gamma, (dic.bitColumns matrixSize (dic.getDHBits key) row).1⟩
    values := Function.update s.values s.rowCounter ((vals key).getD 0#n)
    firstTableCols
    secondTableCols
    rowCounter := s.rowCounter + 1
    firstColsCounter := nextCol s.firstTableCols i s.firstColsCounter
    secondColsCounter := nextCol s.secondTableCols secondIndex s.secondColsCounter
    sign := Function.update (Function.update s.sign i 1) (dic.tableRealSize + secondIndex) 1 }

def matrixSize (d : ObliviousDictionary n) : Nat := dic.hashSize - d.peelingCounter

def overCore {σ : Type*} (d : ObliviousDictionary n) (body : Nat → σ → Key → σ) (s : σ) : σ :=
  forLoop dic.tableRealSize (fun i s =>
    if 1 < bucket_size dic.firstBucket d.first i then (bucket dic.firstBucket d.first i).foldl (body i) s
    else s) s

def buildSystem (d : ObliviousDictionary n) : CoreSystem n :=
  dic.overCore d (dic.addRow d.vals (dic.matrixSize d))
    { matrix := fun _ => ⟨0, fun _ => 0#n⟩, values := fun _ => 0#n
      firstTableCols := fun _ => none, secondTableCols := fun _ => none
      rowCounter := 0, firstColsCounter := 0, secondColsCounter := 0, sign := d.sign }

/-- Without rows, or with an empty first row, `X` is left as it was. -/
def solve_api (solve : Solver n) (system : LinearSystem n) (X : Nat → BitVec n) : Nat → BitVec n :=
  if system.rows = 0 then X
  else if (system.matrix 0).size = 0 then X
  else solve system

def dot (row : Row n) (X : Nat → BitVec n) : BitVec n :=
  xorSum ((List.range row.size).map fun c => dic.modulus.mul (row.get c) (X c))

def Solves (system : LinearSystem n) (X : Nat → BitVec n) : Prop :=
  ∀ r < system.rows, dic.dot (system.matrix r) X = system.values r

def system (d : ObliviousDictionary n) : LinearSystem n :=
  ⟨dic.matrixSize d, (dic.buildSystem d).matrix, (dic.buildSystem d).values⟩

def copyBack (matrixSize : Nat) (s : CoreSystem n) (slim : Nat → BitVec n) (i : Nat) (vars : Nat → BitVec n)
    (key : Key) : Nat → BitVec n :=
  let secondIndex := dic.secondBucket key
  Function.update (Function.update vars i (slim ((s.firstTableCols i).getD 0)))
    (dic.tableRealSize + secondIndex) (slim (matrixSize + (s.secondTableCols secondIndex).getD 0))

def generateExternalToolValues (solve : Solver n) (d : ObliviousDictionary n) : ObliviousDictionary n :=
  let built := dic.buildSystem d
  let variablesSlim := solve_api solve (dic.system d) fun _ => 0#n
  let vars := dic.overCore d (dic.copyBack (dic.matrixSize d) built variablesSlim) d.vars
  { d with
    sign := built.sign
    vars := forLoop dic.gamma (fun i vars =>
      Function.update vars (2 * dic.tableRealSize + i) (variablesSlim (2 * dic.matrixSize d + i))) vars }

end Core

section Unpeeling

def dhBitsVal (vars : Nat → BitVec n) (key : Key) : BitVec n :=
  ((dic.dec key).drop 2).foldl (fun val j => val ^^^ vars (2 * dic.tableRealSize + j)) 0#n

def unassigned (d : ObliviousDictionary n) (v : Nat) : Bool := d.vars v = 0#n && d.sign v = 0

def setVariable (v : Nat) (value : BitVec n) (d : ObliviousDictionary n) : ObliviousDictionary n :=
  { d with vars := Function.update d.vars v value }

def drawVariable (v : Nat) (d : ObliviousDictionary n) : ObliviousDictionary n :=
  { d with
    vars := Function.update d.vars v (dic.modulus.fromBytes dic.fieldSizeBytes (d.prg 0))
    prg := fun i => d.prg (i + 1) }

def assignKey (key : Key) (d : ObliviousDictionary n) : ObliviousDictionary n :=
  let left := (dic.dec key).getD 0 0
  let right := dic.tableRealSize + (dic.dec key).getD 1 0
  let dhBitsVal := dic.dhBitsVal d.vars key
  let val := (d.vals key).getD 0#n
  let d := if unassigned d left && unassigned d right then dic.drawVariable left d else d
  let d := if unassigned d left then setVariable left (val ^^^ d.vars right ^^^ dhBitsVal) d else d
  if unassigned d right then setVariable right (val ^^^ d.vars left ^^^ dhBitsVal) d else d

def unpeelStep (d : ObliviousDictionary n) : ObliviousDictionary n :=
  dic.assignKey (d.peelingVector (d.peelingCounter - 1)) { d with peelingCounter := d.peelingCounter - 1 }

/-- `while (peelingCounter > 0)`: every pass takes the last entry off. -/
def unpeeling (d : ObliviousDictionary n) : ObliviousDictionary n :=
  forLoop d.peelingCounter (fun _ d => dic.unpeelStep d) d

end Unpeeling

def createDictionary (solve : Solver n) (d : ObliviousDictionary n) : ObliviousDictionary n :=
  dic.unpeeling (dic.generateExternalToolValues solve (dic.peeling (dic.fillTables (dic.init d))))

/-- The sum `checkOutput` compares with the value of a key. -/
def decode (vars : Nat → BitVec n) (key : Key) : BitVec n :=
  vars ((dic.dec key).getD 0 0) ^^^ vars (dic.tableRealSize + (dic.dec key).getD 1 0) ^^^
    dic.dhBitsVal vars key

def getVariables (d : ObliviousDictionary n) : Bytes :=
  fun b => bytesFromGF2X (d.vars (b / dic.fieldSizeBytes)) (b % dic.fieldSizeBytes)

def hasLoop (d : ObliviousDictionary n) : Bool :=
  (List.range dic.tableRealSize).any fun position => 1 < bucket_size dic.firstBucket d.first position

end Dictionary
end PaxosPsi
