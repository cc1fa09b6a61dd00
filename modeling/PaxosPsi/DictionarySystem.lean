import PaxosPsi.DictionaryCore

/-! `generateExternalToolValues`: the rows that are built, what the solver's answer
means for the keys, and the copy-back into the variables. -/
namespace PaxosPsi.Dictionary
open CountedLoop XorAlgebra Memory Elimination

variable {n : Nat} (dic : Dictionary n)

section Rows

theorem bitColumnsSpec (matrixSize : Nat) (bits : BitVec 64) (row : Nat → BitVec n) (c : Nat) :
    (dic.bitColumns matrixSize bits row).1 c = if 2 * matrixSize ≤ c ∧ c < 2 * matrixSize + dic.gamma then
      (if bits.getLsbD (c - 2 * matrixSize) then 1#n else 0#n) else row c := by
  have rounds : ∀ m, (∀ c, (forLoop m (fun j s =>
      (Function.update s.1 (2 * matrixSize + j) (if s.2 &&& 1#64 = 1#64 then 1#n else 0#n), s.2 >>> 1))
        (row, bits)).1 c = if 2 * matrixSize ≤ c ∧ c < 2 * matrixSize + m then
          (if bits.getLsbD (c - 2 * matrixSize) then 1#n else 0#n) else row c) ∧
      (forLoop m (fun j s =>
        (Function.update s.1 (2 * matrixSize + j) (if s.2 &&& 1#64 = 1#64 then 1#n else 0#n), s.2 >>> 1))
        (row, bits)).2 = bits >>> m := by
    intro m
    induction m with
    | zero =>
      refine ⟨fun c => ?_, by simp⟩
      rw [forLoopZero, if_neg (by omega)]
    | succ m ih =>
      obtain ⟨columns, rest⟩ := ih
      rw [forLoopSucc, rest]
      refine ⟨fun c => ?_, (BitVec.shiftRight_add bits m 1).symm⟩
      have low : (bits >>> m &&& 1#64 = 1#64) ↔ bits.getLsbD m = true := by
        rw [Hashing.lowBit]
        simp
      dsimp only
      by_cases here : c = 2 * matrixSize + m
      · subst c
        rw [Function.update_self, Nat.add_sub_cancel_left]
        exact (if_congr low rfl rfl).trans (if_pos (by omega)).symm
      · rw [Function.update_of_ne here, columns]
        congr 1
        exact propext (by omega)
  exact (rounds dic.gamma).1 c

structure IsRow (matrixSize : Nat) (firstCols secondCols : Nat → Option Nat) (key : Key) (row : Row n)
    (left right : Nat) : Prop where
  leftCol : firstCols (dic.firstBucket key) = some left
  rightCol : secondCols (dic.secondBucket key) = some right
  leftBound : left < matrixSize
  rightBound : right < matrixSize
  width : row.size = 2 * matrixSize + dic.gamma
  leftEntries : ∀ c < matrixSize, row.get c = if c = left then 1#n else 0#n
  rightEntries : ∀ c < matrixSize, row.get (matrixSize + c) = if c = right then 1#n else 0#n
  bitEntries : ∀ j < dic.gamma,
    row.get (2 * matrixSize + j) = if (dic.getDHBits key).getLsbD j then 1#n else 0#n

theorem dotRow {matrixSize left right : Nat} {firstCols secondCols : Nat → Option Nat} {key : Key} {row : Row n}
    (isRow : dic.IsRow matrixSize firstCols secondCols key row left right) (X : Nat → BitVec n) :
    dic.dot row X = X left ^^^ X (matrixSize + right) ^^^
      xorSum ((dic.extra key).map fun j => X (2 * matrixSize + j)) := by
  have entry : ∀ (p : Bool) (x : BitVec n), dic.modulus.mul (if p then 1#n else 0#n) x = if p then x else 0#n := by
    intro p x
    cases p <;> simp
  have lefts : xorSum ((List.range matrixSize).map fun c => dic.modulus.mul (row.get c) (X c)) = X left := by
    rw [← xorSumSingle isRow.leftBound X]
    apply xorSumCongr
    intro c below
    rw [isRow.leftEntries c (List.mem_range.mp below)]
    simpa using entry (c = left) (X c)
  have rights : xorSum ((List.range matrixSize).map fun c =>
      dic.modulus.mul (row.get (matrixSize + c)) (X (matrixSize + c))) = X (matrixSize + right) := by
    rw [← xorSumSingle isRow.rightBound fun c => X (matrixSize + c)]
    apply xorSumCongr
    intro c below
    rw [isRow.rightEntries c (List.mem_range.mp below)]
    simpa using entry (c = right) (X (matrixSize + c))
  have bits : xorSum ((List.range dic.gamma).map fun j =>
      dic.modulus.mul (row.get (matrixSize + matrixSize + j)) (X (matrixSize + matrixSize + j))) =
      xorSum ((dic.extra key).map fun j => X (2 * matrixSize + j)) := by
    rw [Hashing.extra, ← xorSumFilter]
    apply xorSumCongr
    intro j below
    have twice : matrixSize + matrixSize = 2 * matrixSize := by omega
    rw [twice, isRow.bitEntries j (List.mem_range.mp below)]
    exact entry _ _
  have width : row.size = matrixSize + matrixSize + dic.gamma := by
    rw [isRow.width]
    omega
  rw [dot, width, xorSumRangeAdd, xorSumRangeAdd, lefts, rights, bits]

structure Built (vals : Key → Option (BitVec n)) (matrixSize : Nat) (sign0 : Nat → Byte) (keys : List Key)
    (s : CoreSystem n) : Prop where
  rowCounter : s.rowCounter = keys.length
  firstCols : Cols (keys.map dic.firstBucket) s.firstTableCols s.firstColsCounter
  secondCols : Cols (keys.map dic.secondBucket) s.secondTableCols s.secondColsCounter
  rows : ∀ r < keys.length, ∃ left right, dic.IsRow matrixSize s.firstTableCols s.secondTableCols (keys.getD r 0)
    (s.matrix r) left right
  values : ∀ r < keys.length, s.values r = (vals (keys.getD r 0)).getD 0#n
  sign : ∀ v, s.sign v = if ∃ k ∈ keys, dic.touches k v then 1 else sign0 v

theorem addRowBuilt {vals : Key → Option (BitVec n)} {matrixSize : Nat} {sign0 : Nat → Byte} {keys : List Key}
    {s : CoreSystem n} (built : dic.Built vals matrixSize sign0 keys s) (room : keys.length < matrixSize) (key : Key) :
    dic.Built vals matrixSize sign0 (keys ++ [key]) (dic.addRow vals matrixSize (dic.firstBucket key) s key) := by
  have firstCols := colsNext built.firstCols (dic.firstBucket key)
  have secondCols := colsNext built.secondCols (dic.secondBucket key)
  have mapped : ∀ f : Key → Nat, (keys ++ [key]).map f = keys.map f ++ [f key] := by simp
  obtain ⟨left, leftCol, leftBound⟩ := colsGiven firstCols (v := dic.firstBucket key) (by simp)
  obtain ⟨right, rightCol, rightBound⟩ := colsGiven secondCols (v := dic.secondBucket key) (by simp)
  have leftCount := firstCols.count
  have rightCount := secondCols.count
  simp only [List.length_append, List.length_map, List.length_singleton] at leftCount rightCount
  refine ⟨?_, ?_, ?_, ?_, ?_, ?_⟩
  · rw [List.length_append, List.length_singleton, ← built.rowCounter]
    rfl
  · rw [mapped]
    exact firstCols
  · rw [mapped]
    exact secondCols
  · intro r inside
    rw [List.length_append, List.length_singleton] at inside
    by_cases last : r = keys.length
    · subst r
      refine ⟨left, right, ?_⟩
      simp only [addRow, built.rowCounter, Function.update_self, List.getD_append_right _ _ _ _ (Nat.le_refl _),
        Nat.sub_self, List.getD_cons_zero]
      refine ⟨leftCol, rightCol, by omega, by omega, rfl, fun c below => ?_, fun c below => ?_, fun j below => ?_⟩
      · dsimp only
        rw [bitColumnsSpec, if_neg (by omega), Function.update_of_ne (by omega), leftCol, Option.getD_some]
        exact Function.update_apply _ _ _ _
      · dsimp only
        rw [bitColumnsSpec, if_neg (by omega), rightCol, leftCol, Option.getD_some, Option.getD_some]
        by_cases here : c = right
        · rw [here, Function.update_self, if_pos rfl]
        · rw [Function.update_of_ne (by omega), Function.update_of_ne (by omega), if_neg here]
      · dsimp only
        rw [bitColumnsSpec, if_pos (by omega), Nat.add_sub_cancel_left]
    · obtain ⟨l, r', isRow⟩ := built.rows r (by omega)
      have other : r ≠ s.rowCounter := by rw [built.rowCounter]; exact last
      refine ⟨l, r', ?_⟩
      rw [List.getD_append _ _ _ _ (by omega)]
      simp only [addRow, Function.update_of_ne other]
      exact { isRow with leftCol := newColKeeps isRow.leftCol, rightCol := newColKeeps isRow.rightCol }
  · intro r inside
    rw [List.length_append, List.length_singleton] at inside
    by_cases last : r = keys.length
    · subst r
      simp only [addRow, built.rowCounter, Function.update_self, List.getD_append_right _ _ _ _ (Nat.le_refl _),
        Nat.sub_self, List.getD_cons_zero]
    · have other : r ≠ s.rowCounter := by rw [built.rowCounter]; exact last
      rw [List.getD_append _ _ _ _ (by omega)]
      simp only [addRow, Function.update_of_ne other]
      exact built.values r (by omega)
  · intro v
    have split : (∃ k ∈ keys ++ [key], dic.touches k v) ↔ (∃ k ∈ keys, dic.touches k v) ∨ dic.touches key v := by
      simp [or_and_right, exists_or]
    simp only [addRow, Function.update_apply, built.sign v, split]
    unfold touches
    by_cases right : v = dic.tableRealSize + dic.secondBucket key
    · rw [if_pos right, if_pos (Or.inr (Or.inr right))]
    · rw [if_neg right]
      by_cases left : v = dic.firstBucket key
      · rw [if_pos left, if_pos (Or.inr (Or.inl left))]
      · rw [if_neg left]
        simp [left, right]

theorem builtFrom (vals : Key → Option (BitVec n)) {matrixSize : Nat} {sign0 : Nat → Byte} (before : List Key)
    {keys : List Key}
    {s : CoreSystem n} (built : dic.Built vals matrixSize sign0 before s)
    (room : before.length + keys.length ≤ matrixSize) :
    dic.Built vals matrixSize sign0 (before ++ keys)
      (keys.foldl (fun s key => dic.addRow vals matrixSize (dic.firstBucket key) s key) s) := by
  induction keys generalizing before s with
  | nil => simpa using built
  | cons key keys ih =>
    rw [List.length_cons] at room
    have next := ih _ (dic.addRowBuilt built (by omega) key) (by rw [List.length_append, List.length_singleton]; omega)
    rwa [List.append_assoc, List.singleton_append] at next

theorem buildSystemSpec {d : ObliviousDictionary n} (rows : (dic.coreKeys d).length = dic.matrixSize d) :
    dic.Built d.vals (dic.matrixSize d) d.sign (dic.coreKeys d) (dic.buildSystem d) := by
  unfold buildSystem
  rw [overCoreFold]
  refine dic.builtFrom d.vals [] ⟨rfl, colsStart, colsStart, by simp, by simp, by simp⟩ ?_
  rw [List.length_nil, Nat.zero_add]
  exact Nat.le_of_eq rows

end Rows

section CopyBack

def slimOf (matrixSize : Nat) (s : CoreSystem n) (slim : Nat → BitVec n) (v : Nat) : BitVec n :=
  if v < dic.tableRealSize then slim ((s.firstTableCols v).getD 0)
  else slim (matrixSize + (s.secondTableCols (v - dic.tableRealSize)).getD 0)

theorem copyBackSpec (matrixSize : Nat) (s : CoreSystem n) (slim : Nat → BitVec n) (keys : List Key)
    (vars : Nat → BitVec n) (v : Nat) :
    keys.foldl (fun vars key => dic.copyBack matrixSize s slim (dic.firstBucket key) vars key) vars v =
      if ∃ k ∈ keys, dic.touches k v then dic.slimOf matrixSize s slim v else vars v := by
  induction keys generalizing vars with
  | nil => simp
  | cons key keys ih =>
    rw [List.foldl_cons, ih]
    by_cases later : ∃ k ∈ keys, dic.touches k v
    · have whole : ∃ k ∈ key :: keys, dic.touches k v := by
        obtain ⟨k, member, touched⟩ := later
        exact ⟨k, List.mem_cons_of_mem _ member, touched⟩
      rw [if_pos later, if_pos whole]
    · have split : (∃ k ∈ key :: keys, dic.touches k v) ↔ dic.touches key v := by
        simp only [List.mem_cons, exists_eq_or_imp, later, or_false]
      rw [if_neg later]
      simp only [split]
      have leftBound := dic.firstBucketBound key
      unfold copyBack
      by_cases right : v = dic.tableRealSize + dic.secondBucket key
      · have past : ¬ v < dic.tableRealSize := by omega
        have back : v - dic.tableRealSize = dic.secondBucket key := by omega
        have touched : dic.touches key v := Or.inr right
        rw [if_pos touched, slimOf, if_neg past, back, right, Function.update_self]
      · rw [Function.update_of_ne right]
        by_cases left : v = dic.firstBucket key
        · have touched : dic.touches key v := Or.inl left
          have inside : v < dic.tableRealSize := by omega
          rw [if_pos touched, slimOf, if_pos inside, left, Function.update_self]
        · have apart : ¬ dic.touches key v := not_or.mpr ⟨left, right⟩
          rw [Function.update_of_ne left, if_neg apart]

theorem tailSpec (slim : Nat → BitVec n) (offset : Nat) (vars : Nat → BitVec n) (v : Nat) :
    forLoop dic.gamma (fun i vars => Function.update vars (2 * dic.tableRealSize + i) (slim (offset + i))) vars v =
      if 2 * dic.tableRealSize ≤ v ∧ v < 2 * dic.tableRealSize + dic.gamma then
        slim (offset + (v - 2 * dic.tableRealSize)) else vars v := by
  have rounds : ∀ m, forLoop m (fun i vars =>
      Function.update vars (2 * dic.tableRealSize + i) (slim (offset + i))) vars v =
      if 2 * dic.tableRealSize ≤ v ∧ v < 2 * dic.tableRealSize + m then
        slim (offset + (v - 2 * dic.tableRealSize)) else vars v := by
    intro m
    induction m with
    | zero => rw [forLoopZero, if_neg (by omega)]
    | succ m ih =>
      rw [forLoopSucc]
      by_cases here : v = 2 * dic.tableRealSize + m
      · rw [here, Function.update_self, if_pos (by omega), Nat.add_sub_cancel_left]
      · rw [Function.update_of_ne here, ih]
        congr 1
        exact propext (by omega)
  exact rounds dic.gamma

end CopyBack

structure Solved (d d' : ObliviousDictionary n) : Prop where
  frame : d' = { d with vars := d'.vars, sign := d'.sign }
  sign : ∀ v, d'.sign v = if ∃ k ∈ d.first, dic.touches k v then 1 else d.sign v
  untouched : ∀ v < 2 * dic.tableRealSize, (¬ ∃ k ∈ d.first, dic.touches k v) → d'.vars v = d.vars v

def Answered (solve : Solver n) (d : ObliviousDictionary n) : Prop := dic.Solves (dic.system d) (solve (dic.system d))

section Generate
variable {dic} {d0 d : ObliviousDictionary n} (solve : Solver n)

theorem Peeled.rowCount (peeled : dic.Peeled d0 d) (size : d0.first.length = dic.hashSize) :
    (dic.coreKeys d).length = dic.matrixSize d := by
  have total := peeled.all.length_eq
  have core := (dic.coreKeysPerm peeled).length_eq
  have counted : (Dictionary.peeled d).length = d.peelingCounter := by simp [Dictionary.peeled]
  rw [List.length_append, size, counted] at total
  unfold matrixSize
  omega

theorem Peeled.touchedCore (peeled : dic.Peeled d0 d) (v : Nat) :
    (∃ k ∈ dic.coreKeys d, dic.touches k v) ↔ ∃ k ∈ d.first, dic.touches k v := by
  simp only [(dic.coreKeysPerm peeled).mem_iff]

theorem generatedVars (v : Nat) : (dic.generateExternalToolValues solve d).vars v =
    if 2 * dic.tableRealSize ≤ v ∧ v < 2 * dic.tableRealSize + dic.gamma then
      solve_api solve (dic.system d) (fun _ => 0#n) (2 * dic.matrixSize d + (v - 2 * dic.tableRealSize))
    else if ∃ k ∈ dic.coreKeys d, dic.touches k v then
      dic.slimOf (dic.matrixSize d) (dic.buildSystem d) (solve_api solve (dic.system d) fun _ => 0#n) v
    else d.vars v := by
  unfold generateExternalToolValues
  dsimp only
  rw [tailSpec, overCoreFold, copyBackSpec]

theorem touchesVertex {key : Key} {v : Nat} (touched : dic.touches key v) : v < 2 * dic.tableRealSize := by
  have left := dic.firstBucketBound key
  have right := dic.secondBucketBound key
  unfold touches at touched
  omega

theorem generateSpec (peeled : dic.Peeled d0 d) (size : d0.first.length = dic.hashSize) :
    dic.Solved d (dic.generateExternalToolValues solve d) := by
  have built := dic.buildSystemSpec (peeled.rowCount size)
  refine ⟨rfl, fun v => ?_, fun v vertex free => ?_⟩
  · refine (built.sign v).trans ?_
    simp only [peeled.touchedCore v]
  · rw [generatedVars, if_neg (by omega), if_neg (by rw [peeled.touchedCore]; exact free)]

theorem coreDecodes (peeled : dic.Peeled d0 d) (size : d0.first.length = dic.hashSize)
    (answered : dic.Answered solve d) {key : Key} (member : key ∈ d.first) :
    dic.decode (dic.generateExternalToolValues solve d).vars key = (d.vals key).getD 0#n := by
  have rows := peeled.rowCount size
  have built := dic.buildSystemSpec rows
  have listed : key ∈ dic.coreKeys d := (dic.coreKeysPerm peeled).mem_iff.mpr member
  obtain ⟨r, inside, found⟩ := List.getElem_of_mem listed
  have named : (dic.coreKeys d).getD r 0 = key := by rw [List.getD_eq_getElem _ _ inside, found]
  obtain ⟨left, right, isRow⟩ := built.rows r inside
  have value := built.values r inside
  rw [named] at isRow value
  have positive : dic.matrixSize d ≠ 0 := by
    rw [← rows]
    exact Nat.ne_of_gt (Nat.lt_of_le_of_lt (Nat.zero_le r) inside)
  have wide : ((dic.system d).matrix 0).size ≠ 0 := by
    obtain ⟨l, r', first⟩ := built.rows 0 (by omega)
    have width := first.width
    have gammaLow := dic.gammaLow
    change ((dic.buildSystem d).matrix 0).size ≠ 0
    omega
  have solved : solve_api solve (dic.system d) (fun _ => 0#n) = solve (dic.system d) := by
    unfold solve_api
    exact (if_neg positive).trans (if_neg wide)
  have solution := answered r (by rw [rows] at inside; exact inside)
  have equation : dic.dot ((dic.buildSystem d).matrix r) (solve (dic.system d)) = (d.vals key).getD 0#n :=
    solution.trans value
  rw [dic.dotRow isRow] at equation
  have leftBound := dic.firstBucketBound key
  have rightBound := dic.secondBucketBound key
  have leftVar : (dic.generateExternalToolValues solve d).vars (dic.firstBucket key) = solve (dic.system d) left := by
    rw [generatedVars, if_neg (by omega), if_pos ⟨key, listed, Or.inl rfl⟩, slimOf, if_pos leftBound, isRow.leftCol,
      solved, Option.getD_some]
  have rightVar : (dic.generateExternalToolValues solve d).vars (dic.tableRealSize + dic.secondBucket key) =
      solve (dic.system d) (dic.matrixSize d + right) := by
    rw [generatedVars, if_neg (by omega), if_pos ⟨key, listed, Or.inr rfl⟩, slimOf, if_neg (by omega),
      Nat.add_sub_cancel_left, isRow.rightCol, solved, Option.getD_some]
  rw [decodeSpec, leftVar, rightVar, ← equation]
  congr 1
  apply xorSumCongr
  intro j extra
  have bound := dic.extraBound extra
  rw [generatedVars, if_pos (by omega), Nat.add_sub_cancel_left, solved]

end Generate
end PaxosPsi.Dictionary
