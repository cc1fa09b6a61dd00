import PaxosPsi.DictionaryDecode

/-! Encoding again on a dictionary that was used before. `init` resets everything the
passes read except `sign`, which keeps the marks of earlier cores; only `unpeeling`
reads it, and only at the endpoints of the keys it assigns. -/
namespace PaxosPsi.Dictionary
open CountedLoop XorAlgebra Memory Elimination

variable {n : Nat} (dic : Dictionary n)

structure Encoding (n : Nat) where
  keys : List Key
  values : Bytes
  prg : Nat → Bytes
  solve : Solver n

def given (e : Encoding n) (d : ObliviousDictionary n) : ObliviousDictionary n :=
  setKeysAndVals e.keys e.values { d with prg := e.prg }

def encode (e : Encoding n) (d : ObliviousDictionary n) : ObliviousDictionary n :=
  dic.createDictionary e.solve (given e d)

def history (prg : Nat → Bytes) (es : List (Encoding n)) : ObliviousDictionary n :=
  es.foldl (fun d e => dic.encode e d) (construct prg)

def withSign (sign : Nat → Byte) (d : ObliviousDictionary n) : ObliviousDictionary n := { d with sign }

section Passes
variable {dic} (sign : Nat → Byte) (d : ObliviousDictionary n)

theorem initForgets (e : Encoding n) (old : ObliviousDictionary n) (prg : Nat → Bytes) :
    dic.init (given e old) = withSign old.sign (dic.init (given e (construct prg))) := rfl

theorem fillTablesWithSign : withSign sign (dic.fillTables d) = dic.fillTables (withSign sign d) := by
  unfold fillTables
  refine forLoopMap (withSign sign) ?_ d
  exact fun _ _ => rfl

theorem peelFirstWithSign (position : Nat) :
    withSign sign (dic.peelFirst position d) = dic.peelFirst position (withSign sign d) :=
  apply_ite (withSign sign) _ _ _

def chainWithSign (c : Chain n) : Chain n := { c with d := withSign sign c.d }

theorem chainStepWithSign (position : Nat) (c : Chain n) :
    chainWithSign sign (dic.chainStep position c) = dic.chainStep position (chainWithSign sign c) := by
  unfold chainStep
  dsimp only
  refine (apply_ite (chainWithSign sign) _ _ _).trans ?_
  congr 1
  exact apply_ite (chainWithSign sign) _ _ _

theorem peelSecondWithSign (position : Nat) :
    withSign sign (dic.peelSecond position d) = dic.peelSecond position (withSign sign d) := by
  unfold peelSecond
  refine (apply_ite (withSign sign) _ _ _).trans ?_
  congr 1
  have swept : ∀ fuel c, chainWithSign sign (whileLoop fuel (fun c => c.secondBucket ≤ position)
      (dic.chainStep position) c) = whileLoop fuel (fun c => c.secondBucket ≤ position) (dic.chainStep position)
        (chainWithSign sign c) :=
    whileLoopMap (chainWithSign sign) (fun _ => rfl) (chainStepWithSign sign position)
  exact congrArg Chain.d (swept _ _)

theorem peelingWithSign : withSign sign (dic.peeling d) = dic.peeling (withSign sign d) := by
  unfold peeling
  dsimp only
  rw [forLoopMap (withSign sign) fun position s => peelSecondWithSign sign s position,
    forLoopMap (withSign sign) fun position s => peelFirstWithSign sign s position]
  rfl

def coreWithSign (s : CoreSystem n) : CoreSystem n := { s with sign }

theorem addRowWithSign (vals : Key → Option (BitVec n)) (matrixSize i : Nat) (s : CoreSystem n) (key : Key) :
    coreWithSign sign (dic.addRow vals matrixSize i (coreWithSign sign s) key) =
      coreWithSign sign (dic.addRow vals matrixSize i s key) := rfl

variable (dic) in
theorem buildSystemWithSign :
    coreWithSign sign (dic.buildSystem (withSign sign d)) = coreWithSign sign (dic.buildSystem d) := by
  have rows : ∀ (keys : List Key) (s t : CoreSystem n), coreWithSign sign s = coreWithSign sign t →
      coreWithSign sign (keys.foldl (fun s key => dic.addRow d.vals (dic.matrixSize d) (dic.firstBucket key) s key) s) =
      coreWithSign sign
        (keys.foldl (fun s key => dic.addRow d.vals (dic.matrixSize d) (dic.firstBucket key) s key) t) := by
    intro keys
    induction keys with
    | nil => exact fun s t same => same
    | cons key keys ih =>
      intro s t same
      refine ih _ _ ?_
      rw [← addRowWithSign sign d.vals _ _ s, same, addRowWithSign]
  unfold buildSystem
  rw [overCoreFold, overCoreFold]
  exact rows (dic.coreKeys d) _ _ rfl

theorem systemWithSign : dic.system (withSign sign d) = dic.system d := by
  have same := dic.buildSystemWithSign sign d
  unfold system
  have matrix := congrArg CoreSystem.matrix same
  have values := congrArg CoreSystem.values same
  exact congr (congrArg (LinearSystem.mk _) matrix) values

theorem generatedWithSign (solve : Solver n) :
    (dic.generateExternalToolValues solve (withSign sign d)).vars = (dic.generateExternalToolValues solve d).vars := by
  have same := dic.buildSystemWithSign sign d
  have firstCols := congrArg CoreSystem.firstTableCols same
  have secondCols := congrArg CoreSystem.secondTableCols same
  dsimp only [coreWithSign] at firstCols secondCols
  funext v
  rw [generatedVars, generatedVars, systemWithSign, slimOf, slimOf, firstCols, secondCols]
  rfl

end Passes

section Unpeeling
variable {dic}

structure SameMarks (keys : List Key) (s t : ObliviousDictionary n) : Prop where
  same : t = withSign t.sign s
  marks : ∀ key ∈ keys, ∀ v, dic.touches key v → (t.sign v = 0 ↔ s.sign v = 0)

theorem SameMarks.unassigned {keys : List Key} {s t : ObliviousDictionary n} (marks : dic.SameMarks keys s t)
    {key : Key} (member : key ∈ keys) {v : Nat} (touched : dic.touches key v) :
    unassigned t v = Dictionary.unassigned s v := by
  have vars : t.vars = s.vars := by rw [marks.same]; rfl
  rw [Bool.eq_iff_iff, unassignedIff, unassignedIff, vars, marks.marks key member v touched]

theorem assignKeySameMarks {keys : List Key} {s t : ObliviousDictionary n} (marks : dic.SameMarks keys s t)
    {key : Key} (member : key ∈ keys) : dic.SameMarks keys (dic.assignKey key s) (dic.assignKey key t) := by
  have left := marks.unassigned member (dic.leftTouched key)
  have right := marks.unassigned member (dic.rightTouched key)
  have both : dic.bothUnassigned t key = dic.bothUnassigned s key := by
    unfold bothUnassigned
    rw [left, right]
  have sameSign : ∀ d : ObliviousDictionary n, (dic.assignKey key d).sign = d.sign := by
    intro d
    rw [assignKeyFrame]
  refine ⟨?_, fun e listed v touched => ?_⟩
  · rw [sameSign, assignKeySpec, assignKeySpec, both, left, right]
    have words : dic.target t key = dic.target s key ∧ dic.drawnLeft t key = dic.drawnLeft s key ∧
        dic.drawnRight t key = dic.drawnRight s key ∧ t.vars = s.vars ∧ t.prg = s.prg := by
      rw [marks.same]
      exact ⟨rfl, rfl, rfl, rfl, rfl⟩
    obtain ⟨target, drawnLeft, drawnRight, vars, prg⟩ := words
    rw [target, drawnLeft, drawnRight, vars, prg]
    split
    · rw [marks.same]
      rfl
    · split
      · rw [marks.same]
        rfl
      · split
        · rw [marks.same]
          rfl
        · exact marks.same
  · rw [sameSign, sameSign]
    exact marks.marks e listed v touched

theorem unpeelingSameMarks {keys : List Key} {s t : ObliviousDictionary n} (marks : dic.SameMarks keys s t)
    {l : List Key} (inside : ∀ key ∈ l, key ∈ keys) :
    dic.SameMarks keys (l.foldr dic.assignKey s) (l.foldr dic.assignKey t) := by
  induction l with
  | nil => exact marks
  | cons key l ih =>
    have before := ih fun e member => inside e (List.mem_cons_of_mem _ member)
    exact assignKeySameMarks before (inside key (List.mem_cons_self ..))

end Unpeeling

section Histories

def graph (e : Encoding n) : ObliviousDictionary n := dic.peeling (dic.fillTables (dic.init (given e (construct e.prg))))

def InCore (e : Encoding n) (v : Nat) : Prop := ∃ k ∈ (dic.graph e).first, dic.touches k v

instance (e : Encoding n) (v : Nat) : Decidable (dic.InCore e v) :=
  inferInstanceAs (Decidable (∃ k ∈ (dic.graph e).first, dic.touches k v))

structure WellFormed (e : Encoding n) : Prop where
  distinct : e.keys.Nodup
  size : e.keys.length = dic.hashSize

/-- No endpoint of a key to be peeled carries a mark, unless this encoding marks it again. -/
def Unmarked (sign : Nat → Byte) (e : Encoding n) : Prop :=
  ∀ key ∈ peeled (dic.graph e), ∀ v, dic.touches key v → sign v ≠ 0 → dic.InCore e v

variable {dic}

theorem graphReused (e : Encoding n) (d : ObliviousDictionary n) :
    dic.peeling (dic.fillTables (dic.init (given e d))) = withSign d.sign (dic.graph e) := by
  rw [initForgets e d e.prg, ← fillTablesWithSign, ← peelingWithSign]
  rfl

theorem beforeUnpeelingReused {e : Encoding n} (ok : dic.WellFormed e) (d : ObliviousDictionary n) :
    dic.beforeUnpeeling e.solve (given e d) =
      { dic.graph e with
        vars := (dic.generateExternalToolValues e.solve (dic.graph e)).vars
        sign := (dic.beforeUnpeeling e.solve (given e d)).sign } ∧
      ∀ v, (dic.beforeUnpeeling e.solve (given e d)).sign v = if dic.InCore e v then 1 else d.sign v := by
  obtain ⟨l, r, -, perm, spec⟩ := peeledOf (d := given e d) ok.distinct ok.size
  have solved := generateSpec e.solve spec (perm.length_eq.trans ok.size)
  have vars : (dic.generateExternalToolValues e.solve (withSign d.sign (dic.graph e))).vars =
      (dic.generateExternalToolValues e.solve (dic.graph e)).vars := generatedWithSign d.sign (dic.graph e) e.solve
  rw [graphReused] at solved
  unfold beforeUnpeeling
  rw [graphReused, ← vars]
  refine ⟨solved.frame, fun v => ?_⟩
  by_cases core : dic.InCore e v
  · exact ((solved.sign v).trans (if_pos core)).trans (if_pos core).symm
  · exact ((solved.sign v).trans (if_neg core)).trans (if_neg core).symm

theorem encodeSign {e : Encoding n} (ok : dic.WellFormed e) (d : ObliviousDictionary n) (v : Nat) :
    (dic.encode e d).sign v = if dic.InCore e v then 1 else d.sign v := by
  have ran : (dic.encode e d).sign = (dic.beforeUnpeeling e.solve (given e d)).sign := by
    unfold encode
    rw [createDictionarySplit, unpeelingFold]
    dsimp only
    rw [(dic.unpeelInv _ _).frame]
  rw [ran]
  exact (beforeUnpeelingReused ok d).2 v

theorem historySign {prg : Nat → Bytes} {es : List (Encoding n)} (ok : ∀ e ∈ es, dic.WellFormed e) {v : Nat}
    (marked : (dic.history prg es).sign v ≠ 0) : ∃ e ∈ es, dic.InCore e v := by
  induction es using List.reverseRecOn with
  | nil => exact absurd rfl marked
  | append_singleton es e ih =>
    unfold history at marked
    rw [List.foldl_append, List.foldl_cons, List.foldl_nil, encodeSign (ok e (by simp))] at marked
    by_cases core : dic.InCore e v
    · exact ⟨e, by simp, core⟩
    · rw [if_neg core] at marked
      obtain ⟨old, member, found⟩ := ih (fun e member => ok e (by simp [member])) marked
      exact ⟨old, by simp [member], found⟩

theorem encodeUnmarked {e : Encoding n} (ok : dic.WellFormed e) {d : ObliviousDictionary n}
    (unmarked : dic.Unmarked d.sign e) (prg : Nat → Bytes) :
    (dic.encode e d).vars = (dic.encode e (construct prg)).vars := by
  obtain ⟨used, usedSign⟩ := beforeUnpeelingReused ok d
  obtain ⟨fresh, freshSign⟩ := beforeUnpeelingReused ok (construct prg)
  have listed : ∀ d, peeled (dic.beforeUnpeeling e.solve (given e d)) = peeled (dic.graph e) := by
    intro d
    unfold peeled
    rw [(beforeUnpeelingReused ok d).1]
  have marks : dic.SameMarks (peeled (dic.graph e)) (dic.beforeUnpeeling e.solve (given e (construct prg)))
      (dic.beforeUnpeeling e.solve (given e d)) := by
    refine ⟨?_, fun key member v touched => ?_⟩
    · rw [fresh]
      exact used
    · rw [usedSign, freshSign]
      by_cases core : dic.InCore e v
      · rw [if_pos core, if_pos core]
      · rw [if_neg core, if_neg core]
        have vacant : d.sign v = 0 := by
          by_contra mark
          exact core (unmarked key member v touched mark)
        exact ⟨fun _ => rfl, fun _ => vacant⟩
  unfold encode
  rw [createDictionarySplit, createDictionarySplit, unpeelingFold, unpeelingFold, listed, listed]
  dsimp only
  rw [(unpeelingSameMarks marks fun _ member => member).same]
  rfl

/-- A further encoding on a used dictionary leaves the variables it would leave on a
fresh one, while no endpoint of a key it peels lies in the core of an earlier encoding
and outside its own. -/
theorem reusedVariables {prg : Nat → Bytes} {es : List (Encoding n)} {e : Encoding n}
    (earlier : ∀ old ∈ es, dic.WellFormed old) (ok : dic.WellFormed e)
    (apart : ∀ key ∈ peeled (dic.graph e), ∀ v, dic.touches key v → (∃ old ∈ es, dic.InCore old v) → dic.InCore e v)
    (prg' : Nat → Bytes) : (dic.encode e (dic.history prg es)).vars = (dic.encode e (construct prg')).vars :=
  encodeUnmarked ok (fun key member v touched mark => apart key member v touched (historySign earlier mark)) prg'

end Histories

section ThreeVertices

def threeVertices : Dictionary 8 where
  tableRealSize := 3
  gamma := 1
  firstHash key := if key < 3 then key else 0
  secondHash key := if key < 3 then key else 0
  DH _ := 0
  occupied := by decide
  gammaLow := sharedRight.gammaLow
  gammaHigh := sharedRight.gammaHigh
  hashSize := 2
  fieldSizeBytes := 1
  modulus := sharedRight.modulus
  firstLink _ _ := 0
  secondLink _ _ := 0

def pair (a b : Key) (values : Bytes) : Encoding 8 := ⟨[a, b], values, fun _ _ => 9#8, fun _ _ => 0#8⟩

def cycle : Encoding 8 := pair 3 4 fun _ => 0#8

theorem cycleConsistent : threeVertices.Consistent cycle.solve (given cycle (construct cycle.prg)) := by
  have solved : ∀ r < 2, threeVertices.dot ((threeVertices.system (threeVertices.graph cycle)).matrix r)
      (fun _ => 0#8) = (threeVertices.system (threeVertices.graph cycle)).values r := by decide +kernel
  have rows : (threeVertices.system (threeVertices.graph cycle)).rows = 2 := by decide +kernel
  exact fun r below => solved r (Nat.lt_of_lt_of_eq below rows)

/-- The core of the cycle marks the vertices key 0 needs, which then decodes to 0. -/
theorem markedVertexStaysZero :
    threeVertices.WellFormed cycle ∧ threeVertices.Consistent cycle.solve (given cycle (construct cycle.prg)) ∧
      threeVertices.WellFormed (pair 0 1 twoValues) ∧
      threeVertices.decode (threeVertices.encode (pair 0 1 twoValues) (construct cycle.prg)).vars 0 = 5#8 ∧
      threeVertices.decode (threeVertices.encode (pair 0 1 twoValues)
        (threeVertices.history cycle.prg [cycle])).vars 0 = 0#8 :=
  ⟨⟨by decide, rfl⟩, cycleConsistent, ⟨by decide, rfl⟩, by decide +kernel, by decide +kernel⟩

theorem cycleThenOthers : (threeVertices.encode (pair 1 2 twoValues) (threeVertices.history cycle.prg [cycle])).vars =
    (threeVertices.encode (pair 1 2 twoValues) (construct cycle.prg)).vars := by
  have marked : ∀ v, threeVertices.InCore cycle v → v = 0 ∨ v = 3 := by
    have core : (threeVertices.graph cycle).first = [4, 3] := by decide +kernel
    rintro v ⟨k, member, touched⟩
    rw [core] at member
    rcases List.mem_pair.mp member with rfl | rfl <;> exact touched
  have apart : ∀ key ∈ peeled (threeVertices.graph (pair 1 2 twoValues)),
      ¬ threeVertices.touches key 0 ∧ ¬ threeVertices.touches key 3 := by
    have order : peeled (threeVertices.graph (pair 1 2 twoValues)) = [1, 2] := by decide +kernel
    intro key member
    rw [order] at member
    rcases List.mem_pair.mp member with rfl | rfl <;> decide
  have earlier : ∀ old ∈ [cycle], threeVertices.WellFormed old := by
    intro old member
    rw [List.mem_singleton.mp member]
    exact ⟨by decide, rfl⟩
  have ok : threeVertices.WellFormed (pair 1 2 twoValues) := ⟨by decide, rfl⟩
  refine reusedVariables earlier ok ?_ _
  rintro key member v touched ⟨old, listed, core⟩
  rw [List.mem_singleton.mp listed] at core
  rcases marked v core with zero | three
  · rw [zero] at touched
    exact absurd touched (apart key member).1
  · rw [three] at touched
    exact absurd touched (apart key member).2

end ThreeVertices
end PaxosPsi.Dictionary
