import PaxosPsi.DictionaryDecode

/-! `peeling` ends in the two-core of the graph whose edges are the keys: the largest
set of keys in which every endpoint of a key is an endpoint of another key too. -/
namespace PaxosPsi.Dictionary
open CountedLoop XorAlgebra Memory Elimination

variable {n : Nat} (dic : Dictionary n)

theorem bucketOther {hash : Key → Nat} {set : List Key} {key : Key} (member : key ∈ set) (distinct : set.Nodup)
    (many : 1 < bucket_size hash set (hash key)) : ∃ f ∈ set, f ≠ key ∧ hash f = hash key := by
  have rest := bucketSizeErase hash member (hash key)
  rw [if_pos rfl] at rest
  have more : 0 < bucket_size hash (set.erase key) (hash key) := by omega
  rw [bucketSizeCount, List.countP_pos_iff] at more
  obtain ⟨f, listed, hashed⟩ := more
  obtain ⟨other, inside⟩ := distinct.mem_erase_iff.mp listed
  exact ⟨f, inside, other, by simpa using hashed⟩

section Core
variable {dic} {d0 d : ObliviousDictionary n}

theorem Peeled.stable (peeled : dic.Peeled d0 d) : Stable dic.touches (· ∈ d.first) := by
  rintro key member v (rfl | rfl)
  · obtain ⟨f, listed, other, hashed⟩ := bucketOther member peeled.distinctFirst (peeled.left key member)
    exact ⟨f, listed, other, Or.inl hashed.symm⟩
  · have inSecond := (peeled.same key).mpr member
    obtain ⟨f, listed, other, hashed⟩ := bucketOther inSecond peeled.distinctSecond (peeled.right key member)
    exact ⟨f, (peeled.same f).mp listed, other, Or.inr (by rw [hashed])⟩

theorem Peeled.core (peeled : dic.Peeled d0 d) (key : Key) :
    key ∈ d.first ↔ TwoCore dic.touches (· ∈ d0.first) key :=
  peeled.order.twoCore (fun e => by rw [← peeled.all.mem_iff, List.mem_append]) peeled.stable key

theorem Peeled.distinct (peeled : dic.Peeled d0 d) (distinct : d0.first.Nodup) :
    (Dictionary.peeled d ++ d.first).Nodup := peeled.all.nodup_iff.mpr distinct

theorem Peeled.counter (peeled : dic.Peeled d0 d) : d.peelingCounter + d.first.length = d0.first.length := by
  have total := peeled.all.length_eq
  have counted : (Dictionary.peeled d).length = d.peelingCounter := by simp [Dictionary.peeled]
  rw [List.length_append, counted] at total
  exact total

theorem orderEntries {core : Key → Prop} {l : List Key} (order : Peels dic.touches core l) {j : Nat}
    (inside : j < l.length) : ∃ v, dic.touches (l.getD j 0) v ∧
      (∀ j', j < j' → j' < l.length → ¬ dic.touches (l.getD j' 0) v) ∧ ∀ k, core k → ¬ dic.touches k v := by
  induction order generalizing j with
  | done => exact absurd inside (Nat.not_lt_zero j)
  | @peel e later v free order ih =>
    cases j with
    | zero =>
      refine ⟨v, free.own, fun j' after below => ?_, free.core⟩
      obtain ⟨i, rfl⟩ : ∃ i, j' = i + 1 := ⟨j' - 1, by omega⟩
      have bound : i < later.length := by simpa using below
      rw [List.getD_cons_succ, List.getD_eq_getElem _ _ bound]
      exact free.later _ (List.getElem_mem bound)
    | succ j =>
      obtain ⟨u, own, after, apart⟩ := ih (by simpa using inside)
      refine ⟨u, own, fun j' past below => ?_, apart⟩
      obtain ⟨i, rfl⟩ : ∃ i, j' = i + 1 := ⟨j' - 1, by omega⟩
      exact after i (by omega) (by simpa using below)

theorem hasLoopIff (d : ObliviousDictionary n) :
    dic.hasLoop d = true ↔ ∃ position < dic.tableRealSize, 1 < bucket_size dic.firstBucket d.first position := by
  unfold hasLoop
  rw [List.any_eq_true]
  constructor
  · rintro ⟨position, listed, many⟩
    exact ⟨position, List.mem_range.mp listed, by simpa using many⟩
  · rintro ⟨position, inside, many⟩
    exact ⟨position, List.mem_range.mpr inside, by simpa using many⟩

theorem Peeled.loop (peeled : dic.Peeled d0 d) : dic.hasLoop d = true ↔ d.first ≠ [] := by
  rw [hasLoopIff]
  constructor
  · rintro ⟨position, -, many⟩ none
    rw [none] at many
    exact absurd many (by simp [bucket_size, bucket])
  · intro some
    obtain ⟨key, member⟩ := List.exists_mem_of_ne_nil _ some
    exact ⟨dic.firstBucket key, dic.firstBucketBound key, peeled.left key member⟩

end Core

/-- For every set of different keys and every enumeration order of the buckets, `peeling`
ends with the two-core in both sets and a valid elimination order of the other keys. -/
theorem peelingTwoCore {keys : List Key} {d0 : ObliviousDictionary n} (distinct : keys.Nodup)
    (size : keys.length = dic.hashSize) (left : d0.first.Perm keys) (right : d0.second.Perm keys) :
    (∀ position < dic.tableRealSize,
      bucket_size dic.secondBucket (dic.beforeSecond position d0).second position = 1 →
        ¬ (dic.chain position (dic.beforeSecond position d0)).secondBucket ≤ position) ∧
    dic.peeling d0 = dic.beforeSecond dic.tableRealSize d0 ∧
    (dic.peeling d0).first.Nodup ∧ (dic.peeling d0).second.Nodup ∧
    (∀ k, k ∈ (dic.peeling d0).first ↔ TwoCore dic.touches (· ∈ keys) k) ∧
    (∀ k, k ∈ (dic.peeling d0).second ↔ TwoCore dic.touches (· ∈ keys) k) ∧
    (peeled (dic.peeling d0)).Nodup ∧
    (∀ k, k ∈ peeled (dic.peeling d0) ↔ k ∈ keys ∧ ¬ TwoCore dic.touches (· ∈ keys) k) ∧
    (dic.peeling d0).peelingCounter ≤ dic.hashSize ∧
    (∀ j < (dic.peeling d0).peelingCounter, ∃ v, dic.touches ((dic.peeling d0).peelingVector j) v ∧
      (∀ j', j < j' → j' < (dic.peeling d0).peelingCounter →
        ¬ dic.touches ((dic.peeling d0).peelingVector j') v) ∧
      ∀ k, TwoCore dic.touches (· ∈ keys) k → ¬ dic.touches k v) ∧
    (dic.hasLoop (dic.peeling d0) = true ↔ (dic.peeling d0).peelingCounter < dic.hashSize) := by
  have distinct0 : d0.first.Nodup := left.nodup_iff.mpr distinct
  have together : d0.second.Perm d0.first := right.trans left.symm
  have terminates := fun position => dic.beforeSecondInv distinct0 together position
  have spec := dic.peelingSpec distinct0 together
  have all : (fun k => k ∈ d0.first) = fun k => k ∈ keys := by
    funext k
    exact propext left.mem_iff
  have core := spec.core
  have counter := spec.counter
  have whole := spec.distinct distinct0
  have order := spec.order
  have loop := spec.loop
  rw [all] at core
  rw [left.length_eq, size] at counter
  obtain ⟨peeledDistinct, -, apart⟩ := List.nodup_append.mp whole
  refine ⟨fun position _ single => ?_, rfl, spec.distinctFirst, spec.distinctSecond, core,
    fun k => (spec.same k).trans (core k), peeledDistinct, fun k => ?_, by omega, fun j inside => ?_, ?_⟩
  · obtain ⟨inv, left', done⟩ := terminates position
    exact (dic.chainRun inv left' done single).2
  · have known : k ∈ keys ↔ k ∈ peeled (dic.peeling d0) ∨ k ∈ (dic.peeling d0).first := by
      rw [← left.mem_iff, ← spec.all.mem_iff, List.mem_append]
    rw [known, ← core k]
    constructor
    · exact fun listed => ⟨Or.inl listed, fun member => apart k listed k member rfl⟩
    · exact fun both => both.1.resolve_right both.2
  · have length := peeledLength (dic.peeling d0)
    have entry : ∀ i < (dic.peeling d0).peelingCounter,
        (peeled (dic.peeling d0)).getD i 0 = (dic.peeling d0).peelingVector i := by
      intro i below
      rw [List.getD_eq_getElem _ _ (by rw [length]; exact below)]
      simp [peeled]
    obtain ⟨v, own, after, free⟩ := orderEntries order (j := j) (by rw [length]; exact inside)
    rw [entry j inside] at own
    refine ⟨v, own, fun j' past below => ?_, fun k member => free k ((core k).mpr member)⟩
    have untouched := after j' past (by rw [length]; exact below)
    rwa [entry j' below] at untouched
  · rw [loop, ← List.length_pos_iff]
    omega

theorem sharedRightPeeled : let d0 : ObliviousDictionary 8 :=
      { construct fun _ _ => 0#8 with first := [1, 0], second := [0, 1] }
    ∀ k, k ∈ (sharedRight.peeling d0).first ↔ TwoCore sharedRight.touches (· ∈ ([0, 1] : List Key)) k := by
  intro d0
  have distinct : ([0, 1] : List Key).Nodup := by decide
  have left : d0.first.Perm [0, 1] := List.Perm.swap 0 1 []
  have right : d0.second.Perm [0, 1] := List.Perm.refl _
  exact (peelingTwoCore sharedRight distinct rfl left right).2.2.2.2.1

end PaxosPsi.Dictionary
