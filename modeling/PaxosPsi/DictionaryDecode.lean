import PaxosPsi.DictionaryUnpeeling

/-! Which keys decode after one encoding on a fresh dictionary. A key decodes to its
value plus the draws stored over its endpoints after it was assigned; the code draws
over an endpoint that was assigned the value 0, so not every key decodes. -/
namespace PaxosPsi.Dictionary
open CountedLoop XorAlgebra Memory Elimination

variable {n : Nat} (dic : Dictionary n)

section Draws

/-- What is drawn over the endpoints of `key` after its own assignment. The list is in
peeling order, so its tail is assigned first. -/
def lateDraws (d : ObliviousDictionary n) : List Key → Key → BitVec n
  | [], _ => 0#n
  | e :: later, key =>
    if key = e then 0#n else lateDraws d later key ^^^ dic.drawnOver (later.foldr dic.assignKey d) e key

theorem lateDrawsApart {dic : Dictionary n} {l : List Key} {key : Key} (apart : ∀ e ∈ l, e ≠ key →
    dic.left e ≠ dic.left key ∧ dic.right e ≠ dic.right key) (d : ObliviousDictionary n) :
    dic.lateDraws d l key = 0#n := by
  induction l with
  | nil => rfl
  | cons e later ih =>
    rw [lateDraws]
    split
    · rfl
    · rename_i other
      obtain ⟨left, right⟩ := apart e (List.mem_cons_self ..) (Ne.symm other)
      rw [ih fun f listed => apart f (List.mem_cons_of_mem _ listed), drawnOver, if_neg left, if_neg right,
        BitVec.xor_self, ite_self, BitVec.xor_self]

def Clear (core : Key → Prop) (d : ObliviousDictionary n) : Prop :=
  ∀ v < 2 * dic.tableRealSize, (∀ k, core k → ¬ dic.touches k v) → unassigned d v = true

variable {dic}

theorem freeUnassigned {core : Key → Prop} {d : ObliviousDictionary n} (clear : dic.Clear core d)
    {later : List Key} {e : Key} {v : Nat} (free : Free dic.touches core later e v) :
    unassigned (later.foldr dic.assignKey d) v = true := by
  have inv := dic.unpeelInv d later
  have vertex := touchesVertex free.own
  obtain ⟨zero, sign⟩ := unassignedIff.mp (clear v vertex free.core)
  have same : (later.foldr dic.assignKey d).sign = d.sign := by rw [inv.frame]
  exact unassignedIff.mpr ⟨(inv.fresh v vertex free.later).trans zero, by rw [same]; exact sign⟩

theorem runDecodes {core : Key → Prop} {d : ObliviousDictionary n} (clear : dic.Clear core d) {l : List Key}
    (order : Peels dic.touches core l) {key : Key} (known : key ∈ l ∨ core key) :
    dic.decode (l.foldr dic.assignKey d).vars key =
      (if key ∈ l then (d.vals key).getD 0#n else dic.decode d.vars key) ^^^ dic.lateDraws d l key := by
  induction order with
  | done => simp [lateDraws]
  | @peel e later v free order ih =>
    have found := freeUnassigned clear free
    have vals : (later.foldr dic.assignKey d).vals = d.vals := by rw [(dic.unpeelInv d later).frame]
    rw [List.foldr_cons, lateDraws]
    by_cases own : key = e
    · subst key
      rw [dic.assignedDecodes free.own found, vals, if_pos (List.mem_cons_self ..), if_pos rfl, BitVec.xor_zero]
    · have still : key ∈ later ∨ core key := known.imp_left fun member => (List.mem_cons.mp member).resolve_left own
      have apart : ¬ dic.touches key v := still.elim (free.later key) (free.core key)
      rw [dic.assignedOther free.own found apart, ih still, if_neg own, BitVec.xor_assoc]
      simp only [List.mem_cons, own, false_or]

end Draws

section Encoding

def beforeUnpeeling (solve : Solver n) (d : ObliviousDictionary n) : ObliviousDictionary n :=
  dic.generateExternalToolValues solve (dic.peeling (dic.fillTables (dic.init d)))

def Consistent (solve : Solver n) (d : ObliviousDictionary n) : Prop :=
  dic.Answered solve (dic.peeling (dic.fillTables (dic.init d)))

variable {dic} {d : ObliviousDictionary n}

theorem consistentWithoutCore (solve : Solver n)
    (empty : dic.matrixSize (dic.peeling (dic.fillTables (dic.init d))) = 0) : dic.Consistent solve d := by
  intro r below
  change r < dic.matrixSize _ at below
  omega

theorem createDictionarySplit (solve : Solver n) :
    dic.createDictionary solve d = dic.unpeeling (dic.beforeUnpeeling solve d) := rfl

theorem peeledOf (distinct : d.keys.Nodup) (size : d.keys.length = dic.hashSize) :
    ∃ l r, dic.fillTables (dic.init d) = { dic.init d with first := l, second := r } ∧ l.Perm d.keys ∧
      dic.Peeled { dic.init d with first := l, second := r } (dic.peeling (dic.fillTables (dic.init d))) := by
  obtain ⟨l, r, filled, left, right⟩ := dic.fillTablesSpec (d := dic.init d) distinct size rfl rfl
  refine ⟨l, r, filled, left, ?_⟩
  rw [filled]
  exact dic.peelingSpec (left.nodup_iff.mpr distinct) (right.trans left.symm)

theorem peeledOrCore {d0 p : ObliviousDictionary n} (peeled : dic.Peeled d0 p) {key : Key} (member : key ∈ d0.first) :
    key ∈ Dictionary.peeled p ∨ key ∈ p.first :=
  List.mem_append.mp (peeled.all.mem_iff.mpr member)

theorem beforeUnpeelingSpec (solve : Solver n) (distinct : d.keys.Nodup) (size : d.keys.length = dic.hashSize)
    (answered : dic.Consistent solve d) (unsigned : ∀ v, d.sign v = 0) :
    ∃ core : Key → Prop, dic.Clear core (dic.beforeUnpeeling solve d) ∧
      Peels dic.touches core (peeled (dic.beforeUnpeeling solve d)) ∧
      (∀ i < dic.hashSize, d.keys.getD i 0 ∈ peeled (dic.beforeUnpeeling solve d) ∨ core (d.keys.getD i 0)) ∧
      (∀ i < dic.hashSize, (dic.beforeUnpeeling solve d).vals (d.keys.getD i 0) = some (dic.element d.values i)) ∧
      ∀ key, core key → dic.decode (dic.beforeUnpeeling solve d).vars key =
        ((dic.beforeUnpeeling solve d).vals key).getD 0#n := by
  obtain ⟨l, r, filled, perm, peeled⟩ := peeledOf distinct size
  have count : l.length = dic.hashSize := perm.length_eq.trans size
  unfold beforeUnpeeling
  unfold Consistent at answered
  generalize dic.peeling (dic.fillTables (dic.init d)) = p at peeled answered
  have solved := generateSpec solve peeled count
  have vals : (dic.generateExternalToolValues solve p).vals = (dic.init d).vals := by rw [solved.frame, peeled.frame]
  have listed : Dictionary.peeled (dic.generateExternalToolValues solve p) = Dictionary.peeled p := by
    unfold Dictionary.peeled
    rw [solved.frame]
  refine ⟨(· ∈ p.first), ?_, ?_, ?_, ?_, ?_⟩
  · intro v vertex free
    have apart : ¬ ∃ k ∈ p.first, dic.touches k v := fun ⟨k, member, touched⟩ => free k member touched
    refine unassignedIff.mpr ⟨?_, ?_⟩
    · rw [solved.untouched v vertex apart, peeled.frame]
      rfl
    · rw [solved.sign v, if_neg apart, peeled.frame]
      exact unsigned v
  · rw [listed]
    exact peeled.order
  · intro i inside
    rw [listed]
    refine peeledOrCore peeled (perm.mem_iff.mpr ?_)
    rw [List.getD_eq_getElem _ _ (by omega)]
    exact List.getElem_mem _
  · intro i inside
    rw [vals]
    exact dic.initVals distinct size inside
  · intro key member
    have decoded := coreDecodes solve peeled count answered member
    have kept : (dic.generateExternalToolValues solve p).vals = p.vals := by rw [solved.frame]
    rw [kept]
    exact decoded

theorem encodedDecodes (solve : Solver n) (distinct : d.keys.Nodup) (size : d.keys.length = dic.hashSize)
    (answered : dic.Consistent solve d) (unsigned : ∀ v, d.sign v = 0) {i : Nat} (inside : i < dic.hashSize) :
    dic.decode (dic.createDictionary solve d).vars (d.keys.getD i 0) = dic.element d.values i ^^^
      dic.lateDraws (dic.beforeUnpeeling solve d) (peeled (dic.beforeUnpeeling solve d)) (d.keys.getD i 0) := by
  obtain ⟨core, clear, order, known, vals, decodes⟩ := beforeUnpeelingSpec solve distinct size answered unsigned
  rw [createDictionarySplit, unpeelingFold]
  dsimp only
  rw [runDecodes clear order (known i inside)]
  congr 1
  have value : ((dic.beforeUnpeeling solve d).vals (d.keys.getD i 0)).getD 0#n = dic.element d.values i := by
    rw [vals i inside, Option.getD_some]
  split
  · exact value
  · rename_i unlisted
    rw [decodes _ ((known i inside).resolve_left unlisted), value]

end Encoding

section Fresh
variable {dic} {keys : List Key} {values : Bytes} {prg : Nat → Bytes} {solve : Solver n}

/-- After an encoding on a fresh dictionary all keys decode exactly when, for every key,
the draws stored over its endpoints after its own assignment cancel out. -/
theorem decodesIffNoLateDraws (distinct : keys.Nodup) (size : keys.length = dic.hashSize)
    (answered : dic.Consistent solve (setKeysAndVals keys values (construct prg))) :
    (∀ i < dic.hashSize, dic.decode (dic.createDictionary solve (setKeysAndVals keys values (construct prg))).vars
        (keys.getD i 0) = dic.element values i) ↔
      ∀ i < dic.hashSize, dic.lateDraws (dic.beforeUnpeeling solve (setKeysAndVals keys values (construct prg)))
        (peeled (dic.beforeUnpeeling solve (setKeysAndVals keys values (construct prg)))) (keys.getD i 0) = 0#n := by
  refine forall_congr' fun i => forall_congr' fun inside => ?_
  have decoded := encodedDecodes (d := setKeysAndVals keys values (construct prg)) solve distinct size answered
    (fun _ => rfl) inside
  exact (Iff.of_eq (congrArg (· = dic.element values i) decoded)).trans (xorEqSelf _ _)

end Fresh

section SharedVertex

def sharedRight : Dictionary 8 where
  tableRealSize := 2
  gamma := 1
  firstHash := id
  secondHash _ := 0
  DH _ := 0
  occupied := by decide
  gammaLow := by decide
  gammaHigh := by decide
  hashSize := 2
  fieldSizeBytes := 1
  modulus := ⟨0x1b#8, by decide⟩
  firstLink _ _ := 0
  secondLink _ _ := 0

def twoValues : Bytes := fun b => if b = 0 then 5#8 else 7#8

def valueFirst : Nat → Bytes := fun call _ => if call = 0 then 7#8 else 9#8

/-- Key 1 is assigned through the shared variable, which key 0 then draws over. -/
theorem drawOverAssigned : ([0, 1] : List Key).Nodup ∧ ([0, 1] : List Key).length = sharedRight.hashSize ∧
    sharedRight.Consistent (fun _ _ => 0#8) (setKeysAndVals [0, 1] twoValues (construct valueFirst)) ∧
      sharedRight.element twoValues 1 = 7#8 ∧
      sharedRight.decode (sharedRight.createDictionary (fun _ _ => 0#8)
        (setKeysAndVals [0, 1] twoValues (construct valueFirst))).vars 1 = 11#8 := by
  exact ⟨by decide, rfl, consistentWithoutCore _ (by decide +kernel), by decide +kernel, by decide +kernel⟩

theorem decodesWithoutLateDraws : ([0, 1] : List Key).Nodup ∧ ∀ i < sharedRight.hashSize,
    sharedRight.decode (sharedRight.createDictionary (fun _ _ => 0#8)
      (setKeysAndVals [0, 1] twoValues (construct fun _ _ => 9#8))).vars ([0, 1].getD i 0) =
        sharedRight.element twoValues i :=
  ⟨by decide, (decodesIffNoLateDraws (by decide) rfl
    (consistentWithoutCore _ (by decide +kernel))).mpr (by decide +kernel)⟩

end SharedVertex
end PaxosPsi.Dictionary
