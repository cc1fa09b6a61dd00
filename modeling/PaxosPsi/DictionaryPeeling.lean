import PaxosPsi.ObliviousDictionary
import PaxosPsi.Library.Elimination

/-! What `peeling` leaves: an elimination order of the keys it removed, and sets in
which every bucket that is not empty holds at least two keys. Keys are edges
between a left and a right variable. -/
namespace PaxosPsi.Dictionary
open CountedLoop XorAlgebra Memory Elimination

variable {n : Nat} (dic : Dictionary n)

def touches (key : Key) (v : Nat) : Prop := v = dic.firstBucket key ∨ v = dic.tableRealSize + dic.secondBucket key

instance (key : Key) (v : Nat) : Decidable (dic.touches key v) := by
  unfold touches
  infer_instance

def peeled (d : ObliviousDictionary n) : List Key := (List.range d.peelingCounter).map d.peelingVector

section Buckets
variable {hash : Key → Nat} {set : List Key}

theorem bucketSizeCount (hash : Key → Nat) (set : List Key) (q : Nat) :
    bucket_size hash set q = set.countP fun key => hash key = q := by
  rw [bucket_size, bucket, List.countP_eq_length_filter]

theorem bucketSizeErase (hash : Key → Nat) {key : Key} (member : key ∈ set) (q : Nat) :
    bucket_size hash (set.erase key) q = bucket_size hash set q - if hash key = q then 1 else 0 := by
  rw [bucketSizeCount, bucketSizeCount, List.countP_erase]
  simp [member]

theorem bucketSizeOther {key : Key} (member : key ∈ set) {q : Nat} (other : hash key ≠ q) :
    bucket_size hash (set.erase key) q = bucket_size hash set q := by
  rw [bucketSizeErase hash member, if_neg other, Nat.sub_zero]

theorem bucketNotSingle {key : Key} (member : key ∈ set) {q : Nat} (last : hash key = q → bucket_size hash set q = 1)
    (kept : hash key ≠ q → bucket_size hash set q ≠ 1) : bucket_size hash (set.erase key) q ≠ 1 := by
  by_cases here : hash key = q
  · rw [bucketSizeErase hash member, if_pos here, last here]
    decide
  · rw [bucketSizeOther member here]
    exact kept here

theorem bucketSizePositive (hash : Key → Nat) {key : Key} (member : key ∈ set) : 0 < bucket_size hash set (hash key) := by
  rw [bucketSizeCount, List.countP_pos_iff]
  exact ⟨key, member, by simp⟩

theorem bucketSingleton {q : Nat} (single : bucket_size hash set q = 1) :
    bucketBegin hash set q ∈ set ∧ hash (bucketBegin hash set q) = q ∧
      ∀ f ∈ set, hash f = q → f = bucketBegin hash set q := by
  obtain ⟨key, only⟩ := List.length_eq_one_iff.mp single
  have first : bucketBegin hash set q = key := by rw [bucketBegin, only]; rfl
  have members : ∀ f, f ∈ set ∧ hash f = q ↔ f = key := by
    intro f
    have listed : f ∈ bucket hash set q ↔ f ∈ [key] := by rw [only]
    simpa [bucket] using listed
  rw [first]
  obtain ⟨member, hashed⟩ := (members key).mpr rfl
  exact ⟨member, hashed, fun f listed same => (members f).mp ⟨listed, same⟩⟩

end Buckets

theorem peeledLength (d : ObliviousDictionary n) : (peeled d).length = d.peelingCounter := by
  rw [peeled, List.length_map, List.length_range]

theorem peeledDrop {d : ObliviousDictionary n} {m : Nat} (inside : m < d.peelingCounter) :
    (peeled d).drop (d.peelingCounter - (m + 1)) =
      d.peelingVector (d.peelingCounter - (m + 1)) :: (peeled d).drop (d.peelingCounter - m) := by
  have bound : d.peelingCounter - (m + 1) < (peeled d).length := by
    rw [peeledLength]
    omega
  have next : d.peelingCounter - (m + 1) + 1 = d.peelingCounter - m := by omega
  have head : (peeled d)[d.peelingCounter - (m + 1)] = d.peelingVector (d.peelingCounter - (m + 1)) := by
    simp [peeled]
  rw [List.drop_eq_getElem_cons bound, head, next]

theorem peeledSnoc (key : Key) (d : ObliviousDictionary n) : peeled (peelKey key d) = peeled d ++ [key] := by
  unfold peeled peelKey
  dsimp only
  rw [List.range_succ, List.map_append, List.map_singleton, Function.update_self]
  congr 1
  apply List.map_congr_left
  intro i below
  have other : i ≠ d.peelingCounter := by
    have bound := List.mem_range.mp below
    omega
  rw [Function.update_of_ne other]

/-- What every prefix of `peeling` keeps, relative to the state `d0` it started from. -/
structure PeelInv (d0 d : ObliviousDictionary n) : Prop where
  frame : d = { d0 with
    peelingVector := d.peelingVector, peelingCounter := d.peelingCounter, first := d.first, second := d.second }
  distinctFirst : d.first.Nodup
  distinctSecond : d.second.Nodup
  same : ∀ k, k ∈ d.second ↔ k ∈ d.first
  all : (peeled d ++ d.first).Perm d0.first
  order : Peels dic.touches (· ∈ d.first) (peeled d)

theorem peelKeyInv {d0 d : ObliviousDictionary n} (inv : dic.PeelInv d0 d) {key : Key} (member : key ∈ d.first)
    {v : Nat} (own : dic.touches key v) (alone : ∀ f ∈ d.first, dic.touches f v → f = key) :
    dic.PeelInv d0 (peelKey key d) := by
  have removed : ∀ f, f ∈ d.first.erase key ↔ f ≠ key ∧ f ∈ d.first := fun f => inv.distinctFirst.mem_erase_iff
  refine ⟨?_, inv.distinctFirst.erase key, inv.distinctSecond.erase key, ?_, ?_, ?_⟩
  · rw [inv.frame]
    rfl
  · intro k
    refine (inv.distinctSecond.mem_erase_iff).trans ?_
    rw [inv.same k]
    exact (removed k).symm
  · rw [peeledSnoc, List.append_assoc, List.singleton_append]
    have back : (key :: d.first.erase key).Perm d.first := (List.perm_cons_erase member).symm
    exact (back.append_left (peeled d)).trans inv.all
  · rw [peeledSnoc]
    refine (inv.order.snoc member own alone).congr ?_
    intro f kept
    obtain ⟨other, listed⟩ := (removed f).mp kept
    exact ⟨listed, other⟩

theorem touchesLeft {key : Key} {v : Nat} (left : v < dic.tableRealSize) :
    dic.touches key v ↔ dic.firstBucket key = v := by
  unfold touches
  omega

theorem touchesRight {key : Key} (v : Nat) :
    dic.touches key (dic.tableRealSize + v) ↔ dic.secondBucket key = v := by
  have bound := dic.firstBucketBound key
  unfold touches
  omega

theorem peelLeftInv {d0 d : ObliviousDictionary n} (inv : dic.PeelInv d0 d) {q : Nat}
    (single : bucket_size dic.firstBucket d.first q = 1) :
    bucketBegin dic.firstBucket d.first q ∈ d.first ∧ dic.firstBucket (bucketBegin dic.firstBucket d.first q) = q ∧
      dic.PeelInv d0 (peelKey (bucketBegin dic.firstBucket d.first q) d) := by
  obtain ⟨member, hashed, only⟩ := bucketSingleton single
  refine ⟨member, hashed, dic.peelKeyInv inv member (v := q) (Or.inl hashed.symm) ?_⟩
  intro f listed touched
  have bound : q < dic.tableRealSize := hashed ▸ dic.firstBucketBound _
  exact only f listed ((dic.touchesLeft bound).mp touched)

theorem peelRightInv {d0 d : ObliviousDictionary n} (inv : dic.PeelInv d0 d) {key : Key} (member : key ∈ d.second)
    (single : bucket_size dic.secondBucket d.second (dic.secondBucket key) = 1) :
    dic.PeelInv d0 (peelKey key d) := by
  obtain ⟨-, -, only⟩ := bucketSingleton single
  have self := only key member rfl
  refine dic.peelKeyInv inv ((inv.same key).mp member) (v := dic.tableRealSize + dic.secondBucket key) (Or.inr rfl) ?_
  intro f listed touched
  have hashed := (dic.touchesRight _).mp touched
  exact (only f ((inv.same f).mpr listed) hashed).trans self.symm

def LeftDone (d : ObliviousDictionary n) : Prop := ∀ q, bucket_size dic.firstBucket d.first q ≠ 1

theorem peelFirstInv {d0 d : ObliviousDictionary n} {position : Nat} (inv : dic.PeelInv d0 d)
    (done : ∀ q < position, bucket_size dic.firstBucket d.first q ≠ 1) :
    dic.PeelInv d0 (dic.peelFirst position d) ∧
      ∀ q < position + 1, bucket_size dic.firstBucket (dic.peelFirst position d).first q ≠ 1 := by
  unfold peelFirst
  split
  · rename_i single
    obtain ⟨member, hashed, next⟩ := dic.peelLeftInv inv single
    refine ⟨next, fun q below => bucketNotSingle member (fun here => ?_) fun other => done q (by omega)⟩
    rw [← here, hashed]
    exact single
  · rename_i many
    refine ⟨inv, fun q below => ?_⟩
    by_cases here : q = position
    · rw [here]
      exact many
    · exact done q (by omega)

/-- The state between two passes of the inner `while`: the key in hand is the only one
of its right bucket, which lies at or below `position`, until the loop leaves. -/
structure ChainInv (d0 : ObliviousDictionary n) (position : Nat) (c : Chain n) : Prop where
  inv : dic.PeelInv d0 c.d
  left : dic.LeftDone c.d
  running : c.secondBucket ≤ position → c.key ∈ c.d.second ∧
    bucket_size dic.secondBucket c.d.second (dic.secondBucket c.key) = 1 ∧ dic.secondBucket c.key ≤ position
  right : ∀ q ≤ position, (c.secondBucket ≤ position → q ≠ dic.secondBucket c.key) →
    bucket_size dic.secondBucket c.d.second q ≠ 1

def chain (position : Nat) (d : ObliviousDictionary n) : Chain n :=
  whileLoop d.second.length (fun c => c.secondBucket ≤ position) (dic.chainStep position)
    ⟨d, bucketBegin dic.secondBucket d.second position, 0⟩

theorem peelShorter {key : Key} {d : ObliviousDictionary n} (member : key ∈ d.second) :
    (peelKey key d).second.length < d.second.length := by
  have length := List.length_erase_of_mem member
  have positive := List.length_pos_of_mem member
  change (d.second.erase key).length < _
  omega

theorem chainStepInv {d0 : ObliviousDictionary n} {position : Nat} {c : Chain n} (inv : dic.ChainInv d0 position c)
    (guard : c.secondBucket ≤ position) :
    dic.ChainInv d0 position (dic.chainStep position c) ∧
      (dic.chainStep position c).d.second.length < c.d.second.length := by
  obtain ⟨member, single, reached⟩ := inv.running guard
  have memberFirst := (inv.inv.same c.key).mp member
  have inv1 := dic.peelRightInv inv.inv member single
  have shorter := peelShorter member
  -- the first removal empties the right bucket of the key in hand and shortens its left bucket
  have right1 : ∀ q ≤ position, bucket_size dic.secondBucket (peelKey c.key c.d).second q ≠ 1 := by
    intro q below
    refine bucketNotSingle member (fun here => ?_) fun other => inv.right q below fun _ => Ne.symm other
    rw [← here]
    exact single
  have left1 : ∀ q, q ≠ dic.firstBucket c.key → bucket_size dic.firstBucket (peelKey c.key c.d).first q ≠ 1 := by
    intro q other
    have size := bucketSizeOther memberFirst (Ne.symm other)
    exact fun one => inv.left q (size.symm.trans one)
  unfold chainStep
  dsimp only
  split
  · rename_i alone
    have peeled2 := dic.peelLeftInv inv1 alone
    generalize bucketBegin dic.firstBucket (peelKey c.key c.d).first (dic.firstBucket c.key) = next at peeled2 ⊢
    obtain ⟨member2, hashed2, inv2⟩ := peeled2
    have member2' := (inv1.same next).mpr member2
    have shorter2 := (peelShorter member2').trans shorter
    have left2 : dic.LeftDone (peelKey next (peelKey c.key c.d)) := by
      intro q
      rw [← hashed2] at alone left1
      refine bucketNotSingle member2 (fun here => ?_) fun other => left1 q (Ne.symm other)
      rw [← here]
      exact alone
    have right2 : ∀ q ≤ position, q ≠ dic.secondBucket next →
        bucket_size dic.secondBucket (peelKey next (peelKey c.key c.d)).second q ≠ 1 := by
      intro q below other
      have size := bucketSizeOther member2' (Ne.symm other)
      exact fun one => right1 q below (size.symm.trans one)
    split
    · rename_i again
      obtain ⟨member3, hashed3, -⟩ := bucketSingleton again
      refine ⟨⟨inv2, left2, fun reached3 => ⟨member3, ?_, ?_⟩, ?_⟩, shorter2⟩
      · rw [hashed3]
        exact again
      · rw [hashed3]
        exact reached3
      · intro q below free
        by_cases here : q = dic.secondBucket next
        · exact absurd (here.trans hashed3.symm) (free (by rw [← here]; exact below))
        · exact right2 q below here
    · rename_i stop
      refine ⟨⟨inv2, left2, fun reached3 => absurd reached3 (Nat.not_succ_le_self position), ?_⟩, shorter2⟩
      intro q below _
      by_cases here : q = dic.secondBucket next
      · rw [here]
        exact stop
      · exact right2 q below here
  · rename_i many
    refine ⟨⟨inv1, ?_, fun reached3 => absurd reached3 (Nat.not_succ_le_self position),
      fun q below _ => right1 q below⟩, shorter⟩
    intro q
    by_cases here : q = dic.firstBucket c.key
    · rw [here]
      exact many
    · exact left1 q here

theorem chainRun {d0 d : ObliviousDictionary n} {position : Nat} (inv : dic.PeelInv d0 d) (left : dic.LeftDone d)
    (done : ∀ q < position, bucket_size dic.secondBucket d.second q ≠ 1)
    (single : bucket_size dic.secondBucket d.second position = 1) :
    dic.ChainInv d0 position (dic.chain position d) ∧ ¬ (dic.chain position d).secondBucket ≤ position := by
  obtain ⟨member, hashed, -⟩ := bucketSingleton single
  have start : dic.ChainInv d0 position ⟨d, bucketBegin dic.secondBucket d.second position, 0⟩ := by
    refine ⟨inv, left, fun _ => ⟨member, by rw [hashed]; exact single, by rw [hashed]⟩, ?_⟩
    intro q below free
    have other := free (Nat.zero_le position)
    rw [hashed] at other
    exact done q (by omega)
  obtain ⟨last, left'⟩ := whileLoopRule (g := fun c => c.secondBucket ≤ position)
    (f := dic.chainStep position) (dic.ChainInv d0 position) (fun c => c.d.second.length) start (Nat.le_refl _)
    (fun c kept guard => List.length_pos_of_mem (kept.running (by simpa using guard)).1)
    (fun c kept guard => dic.chainStepInv kept (by simpa using guard))
  exact ⟨last, by simpa [chain] using left'⟩

theorem peelSecondInv {d0 d : ObliviousDictionary n} {position : Nat} (inv : dic.PeelInv d0 d)
    (left : dic.LeftDone d) (done : ∀ q < position, bucket_size dic.secondBucket d.second q ≠ 1) :
    dic.PeelInv d0 (dic.peelSecond position d) ∧ dic.LeftDone (dic.peelSecond position d) ∧
      ∀ q < position + 1, bucket_size dic.secondBucket (dic.peelSecond position d).second q ≠ 1 := by
  unfold peelSecond
  split
  · rename_i single
    obtain ⟨last, left'⟩ := dic.chainRun inv left done single
    exact ⟨last.inv, last.left, fun q below => last.right q (by omega) fun running => absurd running left'⟩
  · rename_i many
    refine ⟨inv, left, fun q below => ?_⟩
    by_cases here : q = position
    · rw [here]
      exact many
    · exact done q (by omega)

structure Peeled (d0 d : ObliviousDictionary n) : Prop extends dic.PeelInv d0 d where
  left : ∀ k ∈ d.first, 1 < bucket_size dic.firstBucket d.first (dic.firstBucket k)
  right : ∀ k ∈ d.first, 1 < bucket_size dic.secondBucket d.second (dic.secondBucket k)

def beforeSecond (position : Nat) (d0 : ObliviousDictionary n) : ObliviousDictionary n :=
  forLoop position dic.peelSecond (forLoop dic.tableRealSize dic.peelFirst { d0 with peelingCounter := 0 })

theorem beforeSecondInv {d0 : ObliviousDictionary n} (distinct : d0.first.Nodup) (together : d0.second.Perm d0.first)
    (position : Nat) : dic.PeelInv d0 (dic.beforeSecond position d0) ∧ dic.LeftDone (dic.beforeSecond position d0) ∧
      ∀ q < position, bucket_size dic.secondBucket (dic.beforeSecond position d0).second q ≠ 1 := by
  have start : dic.PeelInv d0 { d0 with peelingCounter := 0 } :=
    ⟨rfl, distinct, together.nodup_iff.mpr distinct, fun k => together.mem_iff, List.Perm.refl _, .done⟩
  obtain ⟨inv1, left1⟩ := forLoopInvariant (n := dic.tableRealSize) (f := dic.peelFirst)
    (s := { d0 with peelingCounter := 0 })
    (fun position d => dic.PeelInv d0 d ∧ ∀ q < position, bucket_size dic.firstBucket d.first q ≠ 1)
    ⟨start, fun q none => absurd none (Nat.not_lt_zero q)⟩
    (fun position d _ kept => dic.peelFirstInv kept.1 kept.2)
  have leftDone : dic.LeftDone (forLoop dic.tableRealSize dic.peelFirst { d0 with peelingCounter := 0 }) := by
    intro q one
    obtain ⟨-, hashed, -⟩ := bucketSingleton one
    exact left1 q (hashed ▸ dic.firstBucketBound _) one
  exact forLoopInvariant (n := position) (f := dic.peelSecond)
    (s := forLoop dic.tableRealSize dic.peelFirst { d0 with peelingCounter := 0 })
    (fun position d => dic.PeelInv d0 d ∧ dic.LeftDone d ∧
      ∀ q < position, bucket_size dic.secondBucket d.second q ≠ 1)
    ⟨inv1, leftDone, fun q none => absurd none (Nat.not_lt_zero q)⟩
    (fun position d _ kept => dic.peelSecondInv kept.1 kept.2.1 kept.2.2)

theorem peelingSpec {d0 : ObliviousDictionary n} (distinct : d0.first.Nodup) (together : d0.second.Perm d0.first) :
    dic.Peeled d0 (dic.peeling d0) := by
  obtain ⟨inv2, left2, right2⟩ := dic.beforeSecondInv distinct together dic.tableRealSize
  refine ⟨inv2, fun k member => ?_, fun k member => ?_⟩
  · have positive := bucketSizePositive dic.firstBucket member
    have many := left2 (dic.firstBucket k)
    exact Nat.lt_of_le_of_ne positive (Ne.symm many)
  · have positive := bucketSizePositive dic.secondBucket ((inv2.same k).mpr member)
    have many := right2 (dic.secondBucket k) (dic.secondBucketBound k)
    exact Nat.lt_of_le_of_ne positive (Ne.symm many)

end PaxosPsi.Dictionary
