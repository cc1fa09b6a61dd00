import PaxosPsi.DictionarySystem

/-! `unpeeling`: the assignments made for one key, and what a whole pass leaves. A
variable at value 0 with sign 0 counts as unassigned, so a later key can draw over an
endpoint that an earlier key was assigned with. -/
namespace PaxosPsi.Dictionary
open CountedLoop XorAlgebra Memory Elimination

variable {n : Nat} (dic : Dictionary n)

def left (key : Key) : Nat := dic.firstBucket key

def right (key : Key) : Nat := dic.tableRealSize + dic.secondBucket key

theorem leftRight (key other : Key) : dic.left key ≠ dic.right other := by
  have bound := dic.firstBucketBound key
  unfold left right
  omega

theorem leftTouched (key : Key) : dic.touches key (dic.left key) := Or.inl rfl

theorem rightTouched (key : Key) : dic.touches key (dic.right key) := Or.inr rfl

section Step

def target (d : ObliviousDictionary n) (key : Key) : BitVec n := (d.vals key).getD 0#n ^^^ dic.dhBitsVal d.vars key

def nextDraw (d : ObliviousDictionary n) : BitVec n := dic.modulus.fromBytes dic.fieldSizeBytes (d.prg 0)

def drawnLeft (d : ObliviousDictionary n) (key : Key) : BitVec n :=
  if dic.nextDraw d = 0#n then dic.target d key else dic.nextDraw d

def drawnRight (d : ObliviousDictionary n) (key : Key) : BitVec n := dic.target d key ^^^ dic.drawnLeft d key

def bothUnassigned (d : ObliviousDictionary n) (key : Key) : Bool :=
  unassigned d (dic.left key) && unassigned d (dic.right key)

theorem unassignedIff {d : ObliviousDictionary n} {v : Nat} :
    unassigned d v = true ↔ d.vars v = 0#n ∧ d.sign v = 0 := by
  simp [unassigned]

theorem unassignedElsewhere (d : ObliviousDictionary n) {u v : Nat} (other : v ≠ u) (value : BitVec n)
    (prg : Nat → Bytes) : unassigned { d with vars := Function.update d.vars u value, prg } v = unassigned d v := by
  simp only [unassigned, Function.update_of_ne other]

theorem assignKeySpec (key : Key) (d : ObliviousDictionary n) : dic.assignKey key d =
    if dic.bothUnassigned d key then
      { d with
        vars := Function.update (Function.update d.vars (dic.left key) (dic.drawnLeft d key)) (dic.right key)
          (dic.drawnRight d key)
        prg := fun i => d.prg (i + 1) }
    else if unassigned d (dic.left key) then
      { d with vars := Function.update d.vars (dic.left key) (dic.target d key ^^^ d.vars (dic.right key)) }
    else if unassigned d (dic.right key) then
      { d with vars := Function.update d.vars (dic.right key) (dic.target d key ^^^ d.vars (dic.left key)) }
    else d := by
  have indexLeft : (dic.dec key).getD 0 0 = dic.left key := by rw [Hashing.decSpec]; rfl
  have indexRight : dic.tableRealSize + (dic.dec key).getD 1 0 = dic.right key := by rw [Hashing.decSpec]; rfl
  have apart := dic.leftRight key key
  have word : ∀ x, (d.vals key).getD 0#n ^^^ x ^^^ dic.dhBitsVal d.vars key = dic.target d key ^^^ x := by
    intro x
    rw [target, BitVec.xor_assoc, BitVec.xor_assoc, BitVec.xor_comm x]
  unfold assignKey bothUnassigned
  simp only [indexLeft, indexRight]
  cases foundLeft : unassigned d (dic.left key) with
  | true =>
    obtain ⟨zeroLeft, signLeft⟩ := unassignedIff.mp foundLeft
    cases foundRight : unassigned d (dic.right key) with
    | true =>
      obtain ⟨zeroRight, signRight⟩ := unassignedIff.mp foundRight
      -- the draw is repeated as an assignment when it came out 0
      have again : unassigned (dic.drawVariable (dic.left key) d) (dic.left key) = (dic.nextDraw d == 0#n) := by
        simp [unassigned, drawVariable, nextDraw, signLeft]
        rfl
      simp only [Bool.and_self, if_true, again]
      by_cases zero : dic.nextDraw d = 0#n
      · have still : unassigned (setVariable (dic.left key) ((d.vals key).getD 0#n ^^^
            (dic.drawVariable (dic.left key) d).vars (dic.right key) ^^^ dic.dhBitsVal d.vars key)
            (dic.drawVariable (dic.left key) d)) (dic.right key) = true := by
          rw [unassignedIff]
          exact ⟨by simp [setVariable, drawVariable, Ne.symm apart, zeroRight], signRight⟩
        simp only [zero, beq_self_eq_true, if_true, still]
        simp only [setVariable, drawVariable, Function.update_self, Function.update_of_ne (Ne.symm apart),
          Function.update_idem, word, zeroRight, BitVec.xor_zero, drawnLeft, drawnRight, zero, if_true]
        rfl
      · have still : unassigned (dic.drawVariable (dic.left key) d) (dic.right key) = true := by
          rw [unassignedIff]
          exact ⟨by simp [drawVariable, Ne.symm apart, zeroRight], signRight⟩
        have drawn : (dic.nextDraw d == 0#n) = false := by simpa using zero
        simp only [drawn, Bool.false_eq_true, if_false, still, if_true]
        simp only [setVariable, drawVariable, Function.update_self, word, drawnLeft, drawnRight, if_neg zero]
        rfl
    | false =>
      have still : unassigned (setVariable (dic.left key)
          ((d.vals key).getD 0#n ^^^ d.vars (dic.right key) ^^^ dic.dhBitsVal d.vars key) d) (dic.right key) = false :=
        (unassignedElsewhere d (Ne.symm apart) _ d.prg).trans foundRight
      simp only [Bool.and_false, Bool.false_eq_true, if_false, if_true, foundLeft, still]
      simp only [setVariable, word]
  | false =>
    cases foundRight : unassigned d (dic.right key) with
    | true =>
      simp only [Bool.and_true, Bool.false_eq_true, if_false, if_true, foundLeft, foundRight]
      simp only [setVariable, word]
    | false =>
      simp only [Bool.and_false, Bool.false_eq_true, if_false, foundLeft, foundRight]

theorem assignKeyFrame (key : Key) (d : ObliviousDictionary n) : dic.assignKey key d =
    { d with vars := (dic.assignKey key d).vars, prg := (dic.assignKey key d).prg } := by
  rw [assignKeySpec]
  split
  · rfl
  · split
    · rfl
    · split <;> rfl

theorem assignKeyKeeps {e : Key} {d : ObliviousDictionary n} {v : Nat}
    (kept : dic.touches e v → unassigned d v = false) : (dic.assignKey e d).vars v = d.vars v := by
  have leftKept : unassigned d (dic.left e) = true → v ≠ dic.left e := by
    rintro found rfl
    rw [kept (dic.leftTouched e)] at found
    contradiction
  have rightKept : unassigned d (dic.right e) = true → v ≠ dic.right e := by
    rintro found rfl
    rw [kept (dic.rightTouched e)] at found
    contradiction
  rw [assignKeySpec]
  split
  · rename_i both
    obtain ⟨foundLeft, foundRight⟩ := (Bool.and_eq_true _ _).mp both
    dsimp only
    rw [Function.update_of_ne (rightKept foundRight), Function.update_of_ne (leftKept foundLeft)]
  · split
    · rename_i foundLeft
      exact Function.update_of_ne (leftKept foundLeft) _ _
    · split
      · rename_i foundRight
        exact Function.update_of_ne (rightKept foundRight) _ _
      · rfl

theorem dhBitsValCongr {vars vars' : Nat → BitVec n} (same : ∀ v, 2 * dic.tableRealSize ≤ v → vars v = vars' v)
    (key : Key) : dic.dhBitsVal vars key = dic.dhBitsVal vars' key := by
  unfold dhBitsVal
  congr 1
  funext val j
  rw [same _ (Nat.le_add_right _ _)]

theorem tailKept (key : Key) (d : ObliviousDictionary n) {v : Nat} (tail : 2 * dic.tableRealSize ≤ v) :
    (dic.assignKey key d).vars v = d.vars v := by
  apply assignKeyKeeps
  intro touched
  have vertex := touchesVertex touched
  omega

theorem decodeEndpoints (vars : Nat → BitVec n) (key : Key) :
    dic.decode vars key = vars (dic.left key) ^^^ vars (dic.right key) ^^^ dic.dhBitsVal vars key := by
  unfold decode
  rw [Hashing.decSpec]
  rfl

theorem assignedDecodes {key : Key} {d : ObliviousDictionary n} {v : Nat} (own : dic.touches key v)
    (found : unassigned d v = true) : dic.decode (dic.assignKey key d).vars key = (d.vals key).getD 0#n := by
  have apart := dic.leftRight key key
  have bits : dic.dhBitsVal (dic.assignKey key d).vars key = dic.dhBitsVal d.vars key :=
    dic.dhBitsValCongr (fun v tail => dic.tailKept key d tail) key
  have sum : (dic.assignKey key d).vars (dic.left key) ^^^ (dic.assignKey key d).vars (dic.right key) =
      dic.target d key := by
    rw [assignKeySpec]
    split
    · dsimp only
      rw [Function.update_self, Function.update_of_ne apart, Function.update_self, drawnRight,
        BitVec.xor_comm (dic.target d key), xorCancelLeft]
    · rename_i single
      split
      · dsimp only
        rw [Function.update_self, Function.update_of_ne (Ne.symm apart), BitVec.xor_assoc, BitVec.xor_self,
          BitVec.xor_zero]
      · rename_i assignedLeft
        have foundRight : unassigned d (dic.right key) = true := by
          rcases own with rfl | rfl
          · exact absurd found assignedLeft
          · exact found
        rw [if_pos foundRight]
        dsimp only
        rw [Function.update_self, Function.update_of_ne apart, BitVec.xor_comm (dic.target d key), xorCancelLeft]
  rw [decodeEndpoints, bits, sum, target, BitVec.xor_assoc, BitVec.xor_self, BitVec.xor_zero]

def drawnOver (d : ObliviousDictionary n) (e key : Key) : BitVec n :=
  if dic.bothUnassigned d e then
    (if dic.left e = dic.left key then dic.drawnLeft d e else 0#n) ^^^
      (if dic.right e = dic.right key then dic.drawnRight d e else 0#n)
  else 0#n

theorem assignedOther {e key : Key} {d : ObliviousDictionary n} {v : Nat} (own : dic.touches e v)
    (found : unassigned d v = true) (apart : ¬ dic.touches key v) :
    dic.decode (dic.assignKey e d).vars key = dic.decode d.vars key ^^^ dic.drawnOver d e key := by
  have bits : dic.dhBitsVal (dic.assignKey e d).vars key = dic.dhBitsVal d.vars key :=
    dic.dhBitsValCongr (fun v tail => dic.tailKept e d tail) key
  by_cases both : dic.bothUnassigned d e = true
  · obtain ⟨foundLeft, foundRight⟩ := (Bool.and_eq_true _ _).mp both
    have zeroLeft := (unassignedIff.mp foundLeft).1
    have zeroRight := (unassignedIff.mp foundRight).1
    have movedLeft : (dic.assignKey e d).vars (dic.left key) = d.vars (dic.left key) ^^^
        if dic.left e = dic.left key then dic.drawnLeft d e else 0#n := by
      rw [assignKeySpec, if_pos both]
      dsimp only
      rw [Function.update_of_ne (dic.leftRight key e)]
      by_cases shared : dic.left e = dic.left key
      · rw [if_pos shared, ← shared, Function.update_self, zeroLeft, BitVec.zero_xor]
      · rw [if_neg shared, Function.update_of_ne (Ne.symm shared), BitVec.xor_zero]
    have movedRight : (dic.assignKey e d).vars (dic.right key) = d.vars (dic.right key) ^^^
        if dic.right e = dic.right key then dic.drawnRight d e else 0#n := by
      rw [assignKeySpec, if_pos both]
      dsimp only
      by_cases shared : dic.right e = dic.right key
      · rw [if_pos shared, ← shared, Function.update_self, zeroRight, BitVec.zero_xor]
      · rw [if_neg shared, Function.update_of_ne (Ne.symm shared),
          Function.update_of_ne (Ne.symm (dic.leftRight e key)), BitVec.xor_zero]
    rw [decodeEndpoints, decodeEndpoints, bits, movedLeft, movedRight, drawnOver, if_pos both, xorXorComm,
      BitVec.xor_assoc, BitVec.xor_comm (_ ^^^ _) (dic.dhBitsVal d.vars key), ← BitVec.xor_assoc]
  · have only : ∀ u, dic.touches e u → dic.touches key u → unassigned d u = false := by
      intro u touched shared
      by_contra assigned
      have foundToo : unassigned d u = true := by simpa using assigned
      have other : u ≠ v := by
        rintro rfl
        exact apart shared
      apply both
      unfold bothUnassigned left right
      rcases own with rfl | rfl <;> rcases touched with rfl | rfl
      · exact absurd rfl other
      · rw [found, foundToo]
        rfl
      · rw [found, foundToo]
        rfl
      · exact absurd rfl other
    have keptLeft := dic.assignKeyKeeps (e := e) (d := d) (v := dic.left key) fun touched =>
      only _ touched (dic.leftTouched key)
    have keptRight := dic.assignKeyKeeps (e := e) (d := d) (v := dic.right key) fun touched =>
      only _ touched (dic.rightTouched key)
    rw [decodeEndpoints, decodeEndpoints, bits, keptLeft, keptRight, drawnOver, if_neg both, BitVec.xor_zero]

end Step

section Run

theorem unpeelingFold (d : ObliviousDictionary n) :
    dic.unpeeling d = { (peeled d).foldr dic.assignKey d with peelingCounter := 0 } := by
  have frame : ∀ key counter (s : ObliviousDictionary n), dic.assignKey key { s with peelingCounter := counter } =
      { dic.assignKey key s with peelingCounter := counter } := by
    intro key counter s
    rw [assignKeySpec, assignKeySpec]
    have same : ∀ v, unassigned { s with peelingCounter := counter } v = unassigned s v := fun _ => rfl
    have both : dic.bothUnassigned { s with peelingCounter := counter } key = dic.bothUnassigned s key := rfl
    simp only [same, both]
    split
    · rfl
    · split
      · rfl
      · split <;> rfl
  have vector : ∀ (l : List Key), (l.foldr dic.assignKey d).peelingVector = d.peelingVector := by
    intro l
    induction l with
    | nil => rfl
    | cons key l ih =>
      rw [List.foldr_cons, assignKeyFrame]
      exact ih
  -- after `m` passes the last `m` keys of the vector are assigned
  have upTo : ∀ m ≤ d.peelingCounter, forLoop m (fun _ d => dic.unpeelStep d) d =
      { ((peeled d).drop (d.peelingCounter - m)).foldr dic.assignKey d with
        peelingCounter := d.peelingCounter - m } := by
    intro m
    induction m with
    | zero =>
      intro _
      have whole : (peeled d).drop (d.peelingCounter - 0) = [] := by
        apply List.drop_eq_nil_of_le
        simp [peeled]
      rw [forLoopZero, whole]
      rfl
    | succ m ih =>
      intro bound
      have counter : d.peelingCounter - m - 1 = d.peelingCounter - (m + 1) := by omega
      rw [forLoopSucc, ih (by omega), peeledDrop bound, List.foldr_cons]
      have same := vector ((peeled d).drop (d.peelingCounter - m))
      generalize ((peeled d).drop (d.peelingCounter - m)).foldr dic.assignKey d = s at same
      have entry := congrFun same (d.peelingCounter - (m + 1))
      unfold unpeelStep
      dsimp only
      rw [counter, entry]
      exact frame (d.peelingVector (d.peelingCounter - (m + 1))) (d.peelingCounter - (m + 1)) s
  have whole := upTo d.peelingCounter (Nat.le_refl _)
  rw [Nat.sub_self, List.drop_zero] at whole
  exact whole

structure UnpeelInv (d : ObliviousDictionary n) (later : List Key) (s : ObliviousDictionary n) : Prop where
  frame : s = { d with vars := s.vars, prg := s.prg }
  fresh : ∀ v < 2 * dic.tableRealSize, (∀ f ∈ later, ¬ dic.touches f v) → s.vars v = d.vars v
  signed : ∀ v, d.sign v ≠ 0 → s.vars v = d.vars v
  tail : ∀ v, 2 * dic.tableRealSize ≤ v → s.vars v = d.vars v

theorem unpeelInvStep {d s : ObliviousDictionary n} {later : List Key} (inv : dic.UnpeelInv d later s) (key : Key) :
    dic.UnpeelInv d (key :: later) (dic.assignKey key s) := by
  refine ⟨?_, fun v vertex free => ?_, fun v sign => ?_, fun v tail => ?_⟩
  · rw [assignKeyFrame, inv.frame]
  · have own := free key (List.mem_cons_self ..)
    rw [assignKeyKeeps dic fun touched => absurd touched own]
    exact inv.fresh v vertex fun f member => free f (List.mem_cons_of_mem _ member)
  · have same : s.sign v = d.sign v := by rw [inv.frame]
    have kept : unassigned s v = false := by
      rw [Bool.eq_false_iff]
      intro found
      exact sign (same.symm.trans (unassignedIff.mp found).2)
    rw [assignKeyKeeps dic fun _ => kept]
    exact inv.signed v sign
  · rw [tailKept dic key s tail]
    exact inv.tail v tail

theorem unpeelInv (d : ObliviousDictionary n) (keys : List Key) :
    dic.UnpeelInv d keys (keys.foldr dic.assignKey d) := by
  induction keys with
  | nil => exact ⟨rfl, fun _ _ _ => rfl, fun _ _ => rfl, fun _ _ => rfl⟩
  | cons key keys ih => exact dic.unpeelInvStep ih key

end Run
end PaxosPsi.Dictionary
