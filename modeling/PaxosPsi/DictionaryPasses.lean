import PaxosPsi.DictionaryReuse
import PaxosPsi.DictionaryTwoCore

/-! The system `generateExternalToolValues` builds and what its solution gives the keys
left by peeling, and what `unpeeling` leaves alone afterwards. -/
namespace PaxosPsi.Dictionary
open CountedLoop XorAlgebra Memory Elimination

variable {n : Nat} (dic : Dictionary n)

def beforeSolving (d : ObliviousDictionary n) : ObliviousDictionary n := dic.peeling (dic.fillTables (dic.init d))

section System
variable {dic} {d : ObliviousDictionary n}

theorem tailIndex (key : Key) {j : Nat} (inside : j < dic.gamma) :
    j ∈ (dic.dec key).drop 2 ↔ (dic.getDHBits key).getLsbD j = true := by
  rw [Hashing.decSpec]
  simp [Hashing.extra, inside]

theorem rowEntry {matrixSize left right : Nat} {firstCols secondCols : Nat → Option Nat} {key : Key} {row : Row n}
    (isRow : dic.IsRow matrixSize firstCols secondCols key row left right) {c : Nat}
    (inside : c < 2 * matrixSize + dic.gamma) : row.get c =
      if c = left ∨ c = matrixSize + right ∨ (2 * matrixSize ≤ c ∧ c - 2 * matrixSize ∈ (dic.dec key).drop 2) then 1#n
      else 0#n := by
  have leftBound := isRow.leftBound
  have rightBound := isRow.rightBound
  rcases Nat.lt_or_ge c matrixSize with first | past
  · rw [isRow.leftEntries c first]
    exact if_congr (by omega) rfl rfl
  · rcases Nat.lt_or_ge c (2 * matrixSize) with second | tail
    · have entry := isRow.rightEntries (c - matrixSize) (by omega)
      rw [Nat.add_sub_cancel' past] at entry
      rw [entry]
      exact if_congr (by omega) rfl rfl
    · have entry := isRow.bitEntries (c - 2 * matrixSize) (by omega)
      rw [Nat.add_sub_cancel' tail] at entry
      have listed : c - 2 * matrixSize ∈ (dic.dec key).drop 2 ↔ _ := tailIndex key (by omega)
      rw [entry]
      refine if_congr ?_ rfl rfl
      rw [← listed]
      constructor
      · exact fun member => Or.inr (Or.inr ⟨tail, member⟩)
      · rintro (here | here | ⟨-, member⟩)
        · omega
        · omega
        · exact member

theorem emptyCore (solve : Solver n) {p : ObliviousDictionary n} (none : p.first = [])
    (empty : dic.matrixSize p = 0) (zero : p.vars = fun _ => 0#n) :
    (dic.generateExternalToolValues solve p).vars = fun _ => 0#n := by
  have keys : dic.coreKeys p = [] := by
    rw [List.eq_nil_iff_forall_not_mem]
    intro k member
    have listed := (dic.coreKeysMember.mp member).1
    rw [none] at listed
    exact absurd listed (List.not_mem_nil)
  have left : solve_api solve (dic.system p) (fun _ => 0#n) = fun _ => 0#n := if_pos empty
  funext v
  rw [generatedVars, left, keys, zero]
  simp

end System

/-- The system of the keys left by peeling, for every set of different keys; its solution
satisfies the equation of every such key and moves no other vertex. -/
theorem coreSystem {d : ObliviousDictionary n} (distinct : d.keys.Nodup) (size : d.keys.length = dic.hashSize)
    (solve : Solver n) :
    let p := dic.beforeSolving d
    let rows := dic.hashSize - p.peelingCounter
    let built := dic.buildSystem p
    let solved := dic.generateExternalToolValues solve p
    (dic.system p).rows = rows ∧ built.rowCounter = rows ∧
    (∃ order : List Key, order.Perm p.first ∧ order.length = rows ∧ ∀ r < rows, ∃ left right,
      built.firstTableCols (dic.firstBucket (order.getD r 0)) = some left ∧
      built.secondTableCols (dic.secondBucket (order.getD r 0)) = some right ∧ left < rows ∧ right < rows ∧
      ((dic.system p).matrix r).size = 2 * rows + dic.gamma ∧
      (∀ c < 2 * rows + dic.gamma, ((dic.system p).matrix r).get c =
        if c = left ∨ c = rows + right ∨ (2 * rows ≤ c ∧ c - 2 * rows ∈ (dic.dec (order.getD r 0)).drop 2) then 1#n
        else 0#n) ∧
      (dic.system p).values r = (p.vals (order.getD r 0)).getD 0#n) ∧
    (∀ u v c, built.firstTableCols u = some c → built.firstTableCols v = some c → u = v) ∧
    (∀ u v c, built.secondTableCols u = some c → built.secondTableCols v = some c → u = v) ∧
    (dic.Solves (dic.system p) (solve (dic.system p)) →
      ∀ key ∈ p.first, dic.decode solved.vars key = (p.vals key).getD 0#n) ∧
    (∀ v, ¬ (∃ k ∈ p.first, dic.touches k v) → ¬ (2 * dic.tableRealSize ≤ v ∧ v < 2 * dic.tableRealSize + dic.gamma) →
      solved.vars v = p.vars v) ∧
    (p.first = [] → rows = 0 ∧ ∀ v, solved.vars v = 0#n) := by
  intro p rows built solved
  obtain ⟨l, r, -, perm, peeled⟩ := peeledOf distinct size
  have count := perm.length_eq.trans size
  have rowCount := peeled.rowCount count
  have spec := dic.buildSystemSpec rowCount
  have counter := peeled.counter
  refine ⟨rfl, spec.rowCounter.trans rowCount,
    ⟨dic.coreKeys p, dic.coreKeysPerm peeled, rowCount, fun i inside => ?_⟩,
    fun u v c => spec.firstCols.injective, fun u v c => spec.secondCols.injective,
    fun answered key member => coreDecodes solve peeled count answered member, fun v apart tail => ?_, fun none => ?_⟩
  · have below : i < (dic.coreKeys p).length := Nat.lt_of_lt_of_eq inside rowCount.symm
    obtain ⟨left, right, isRow⟩ := spec.rows i below
    exact ⟨left, right, isRow.leftCol, isRow.rightCol, isRow.leftBound, isRow.rightBound, isRow.width,
      fun c bound => rowEntry isRow bound, spec.values i below⟩
  · have free : ¬ ∃ k ∈ dic.coreKeys p, dic.touches k v := fun touched => apart ((peeled.touchedCore v).mp touched)
    exact (generatedVars solve v).trans ((if_neg tail).trans (if_neg free))
  · have empty : rows = 0 := by
      have nothing : p.first.length = 0 := by rw [none]; rfl
      have total : p.peelingCounter + p.first.length = l.length := counter
      have whole : rows = dic.hashSize - p.peelingCounter := rfl
      omega
    have zero : p.vars = fun _ => 0#n := by
      change (dic.peeling (dic.fillTables (dic.init d))).vars = _
      rw [peeled.frame]
      rfl
    exact ⟨empty, fun v => congrFun (emptyCore solve none empty zero) v⟩

theorem cycleSystem : let p := threeVertices.beforeSolving (given cycle (construct cycle.prg))
    ∀ key ∈ p.first, threeVertices.decode (threeVertices.generateExternalToolValues cycle.solve p).vars key =
      (p.vals key).getD 0#8 :=
  (threeVertices.coreSystem (by decide) rfl cycle.solve).2.2.2.2.2.1 cycleConsistent

section Visits

def unpeelVisits (m : Nat) (d : ObliviousDictionary n) : ObliviousDictionary n × List Key :=
  forLoop m (fun _ s => (dic.unpeelStep s.1, s.2 ++ [s.1.peelingVector (s.1.peelingCounter - 1)])) (d, [])

theorem unpeelVisitsSpec (d : ObliviousDictionary n) {m : Nat} (bound : m ≤ d.peelingCounter) :
    (dic.unpeelVisits m d).1 = forLoop m (fun _ d => dic.unpeelStep d) d ∧
      (dic.unpeelVisits m d).1.peelingVector = d.peelingVector ∧
      (dic.unpeelVisits m d).1.peelingCounter = d.peelingCounter - m ∧
      (dic.unpeelVisits m d).2 = ((peeled d).drop (d.peelingCounter - m)).reverse := by
  induction m with
  | zero =>
    refine ⟨rfl, rfl, rfl, ?_⟩
    rw [Nat.sub_zero, List.drop_eq_nil_of_le (by simp [peeled])]
    rfl
  | succ m ih =>
    obtain ⟨ran, vector, counter, visited⟩ := ih (by omega)
    have step : ∀ s : ObliviousDictionary n, (dic.unpeelStep s).peelingVector = s.peelingVector ∧
        (dic.unpeelStep s).peelingCounter = s.peelingCounter - 1 := by
      intro s
      unfold unpeelStep
      rw [assignKeyFrame]
      exact ⟨rfl, rfl⟩
    have last : (dic.unpeelVisits (m + 1) d).2 = (dic.unpeelVisits m d).2 ++
        [(dic.unpeelVisits m d).1.peelingVector ((dic.unpeelVisits m d).1.peelingCounter - 1)] := rfl
    refine ⟨?_, (step _).1.trans vector, ?_, ?_⟩
    · rw [forLoopSucc, ← ran]
      rfl
    · have fewer := (step (dic.unpeelVisits m d).1).2
      rw [counter, Nat.sub_sub] at fewer
      exact fewer
    · rw [last, visited, vector, counter, peeledDrop bound, List.reverse_cons, Nat.sub_sub]

end Visits

/-- After the core is solved, `unpeeling` leaves the core vertices, the extra bits and every
vertex without a peeled key alone, and takes the peeled keys in reverse order. -/
theorem unpeelingKeepsCore {d : ObliviousDictionary n} (distinct : d.keys.Nodup)
    (size : d.keys.length = dic.hashSize) (solve : Solver n) :
    let p := dic.beforeUnpeeling solve d
    let after := dic.unpeeling p
    (∀ v, (∃ k ∈ p.first, dic.touches k v) → after.vars v = p.vars v) ∧
    (∀ v, 2 * dic.tableRealSize ≤ v → after.vars v = p.vars v) ∧
    (∀ key ∈ p.first, dic.decode after.vars key = dic.decode p.vars key) ∧
    (∀ v, (∀ key ∈ peeled p, ¬ dic.touches key v) → after.vars v = p.vars v) ∧
    after.peelingCounter = 0 ∧
    (dic.unpeelVisits p.peelingCounter p).1 = after ∧
    (dic.unpeelVisits p.peelingCounter p).2 = (peeled p).reverse := by
  intro p after
  obtain ⟨l, r, -, perm, spec⟩ := peeledOf distinct size
  have solved := generateSpec solve spec (perm.length_eq.trans size)
  have inv := dic.unpeelInv p (peeled p)
  have ran : after = { (peeled p).foldr dic.assignKey p with peelingCounter := 0 } := dic.unpeelingFold p
  have vars : after.vars = ((peeled p).foldr dic.assignKey p).vars := by rw [ran]
  have frame : p.first = (dic.peeling (dic.fillTables (dic.init d))).first := by
    change (dic.generateExternalToolValues solve _).first = _
    rw [solved.frame]
  have core : ∀ v, (∃ k ∈ p.first, dic.touches k v) → after.vars v = p.vars v := by
    intro v touched
    rw [vars]
    refine inv.signed v ?_
    rw [frame] at touched
    have sign : p.sign v = 1 := (solved.sign v).trans (if_pos touched)
    rw [sign]
    decide
  have tail : ∀ v, 2 * dic.tableRealSize ≤ v → after.vars v = p.vars v := by
    intro v bound
    rw [vars]
    exact inv.tail v bound
  obtain ⟨visits, -, -, order⟩ := dic.unpeelVisitsSpec p (Nat.le_refl p.peelingCounter)
  rw [Nat.sub_self, List.drop_zero] at order
  refine ⟨core, tail, fun key member => ?_, fun v apart => ?_, by rw [ran], visits, order⟩
  · rw [decodeEndpoints, decodeEndpoints, core _ ⟨key, member, dic.leftTouched key⟩,
      core _ ⟨key, member, dic.rightTouched key⟩, dic.dhBitsValCongr tail key]
  · rcases Nat.lt_or_ge v (2 * dic.tableRealSize) with vertex | bound
    · rw [vars]
      exact inv.fresh v vertex apart
    · exact tail v bound

section Hanging

/-- Key 5 hangs off the second vertex of keys 3 and 4, which differ in the extra bit only. -/
def hangingKey : Dictionary 8 :=
  { threeVertices with
    hashSize := 3
    firstHash := fun key => if key = 5 then 1 else 0
    secondHash := fun _ => 0
    DH := fun key => if key = 4 then 1#64 <<< 63 else 0 }

def hanging : Encoding 8 where
  keys := [3, 4, 5]
  values := fun b => [3#8, 6#8, 7#8].getD b 0
  prg := fun _ _ => 9#8
  solve := fun _ c => if c = 0 then 3#8 else if c = 4 then 5#8 else 0#8

def hangingSolved : ObliviousDictionary 8 :=
  hangingKey.beforeUnpeeling hanging.solve (given hanging (construct hanging.prg))

theorem hangingSolvedPeeled : peeled hangingSolved = [5] ∧ hangingSolved.first = [4, 3] ∧
    hangingKey.decode hangingSolved.vars 3 = 3#8 ∧ hangingKey.decode hangingSolved.vars 4 = 6#8 :=
  ⟨by decide +kernel, by decide +kernel, by decide +kernel, by decide +kernel⟩

theorem hangingKept : peeled hangingSolved = [5] ∧ hangingKey.decode (hangingKey.unpeeling hangingSolved).vars 3 = 3#8 ∧
    hangingKey.decode (hangingKey.unpeeling hangingSolved).vars 4 = 6#8 := by
  obtain ⟨order, core, three, four⟩ := hangingSolvedPeeled
  have kept : ∀ key ∈ hangingSolved.first, hangingKey.decode (hangingKey.unpeeling hangingSolved).vars key =
      hangingKey.decode hangingSolved.vars key :=
    (hangingKey.unpeelingKeepsCore (d := given hanging (construct hanging.prg)) (by decide) rfl hanging.solve).2.2.1
  refine ⟨order, (kept 3 ?_).trans three, (kept 4 ?_).trans four⟩ <;> rw [core] <;> decide

end Hanging
end PaxosPsi.Dictionary
