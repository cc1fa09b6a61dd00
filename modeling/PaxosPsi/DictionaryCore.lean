import PaxosPsi.DictionaryPeeling

/-! The linear system of the keys that peeling leaves: its rows, what a solution of
it gives the core keys once it is copied back, and which entries stay untouched. -/
namespace PaxosPsi.Dictionary
open CountedLoop XorAlgebra Memory Elimination

variable {n : Nat} (dic : Dictionary n)

theorem decodeSpec (vars : Nat → BitVec n) (key : Key) : dic.decode vars key =
    vars (dic.firstBucket key) ^^^ vars (dic.tableRealSize + dic.secondBucket key) ^^^
      xorSum ((dic.extra key).map fun j => vars (2 * dic.tableRealSize + j)) := by
  unfold decode dhBitsVal
  rw [Hashing.decSpec]
  simp only [List.getD_cons_zero, List.getD_cons_succ, List.drop_succ_cons, List.drop_zero]
  rw [foldlXor, BitVec.zero_xor]

section Tables

theorem insertPerm (link : List Key → Key → Nat) {set : List Key} {key : Key} (fresh : key ∉ set) :
    (insert link set key).Perm (key :: set) := by
  unfold insert
  rw [if_neg fresh]
  have moved : (set.take (link set key) ++ key :: set.drop (link set key)).Perm
      (key :: (set.take (link set key) ++ set.drop (link set key))) := List.perm_middle
  rwa [List.take_append_drop] at moved

theorem takeSucc {keys : List Key} {i : Nat} (inside : i < keys.length) :
    keys.take (i + 1) = keys.take i ++ [keys.getD i 0] := by
  rw [List.take_succ_eq_append_getElem inside, List.getD_eq_getElem _ _ inside]

theorem freshNext {keys : List Key} (distinct : keys.Nodup) {i : Nat} (inside : i < keys.length) :
    keys.getD i 0 ∉ keys.take i := by
  have whole := distinct.sublist (List.take_sublist (i + 1) keys)
  rw [takeSucc inside] at whole
  intro again
  exact (List.nodup_append.mp whole).2.2 _ again _ (List.mem_singleton_self _) rfl

theorem fillTablesSpec {d : ObliviousDictionary n} (distinct : d.keys.Nodup) (size : d.keys.length = dic.hashSize)
    (first : d.first = []) (second : d.second = []) :
    ∃ l r, dic.fillTables d = { d with first := l, second := r } ∧ l.Perm d.keys ∧ r.Perm d.keys := by
  have filled : ∀ m ≤ d.keys.length, ∃ l r, forLoop m (fun i d =>
      { d with
        first := insert dic.firstLink d.first (d.keys.getD i 0)
        second := insert dic.secondLink d.second (d.keys.getD i 0) }) d = { d with first := l, second := r } ∧
      l.Perm (d.keys.take m) ∧ r.Perm (d.keys.take m) := by
    intro m
    induction m with
    | zero => exact fun _ => ⟨d.first, d.second, rfl, by simp [first], by simp [second]⟩
    | succ m ih =>
      intro bound
      obtain ⟨l, r, ran, left, right⟩ := ih (by omega)
      have fresh := freshNext distinct (i := m) (by omega)
      refine ⟨insert dic.firstLink l (d.keys.getD m 0), insert dic.secondLink r (d.keys.getD m 0),
        by rw [forLoopSucc, ran], ?_, ?_⟩
      · rw [takeSucc (by omega)]
        exact (insertPerm _ fun member => fresh (left.mem_iff.mp member)).trans
          ((left.cons _).trans (List.perm_append_singleton _ _).symm)
      · rw [takeSucc (by omega)]
        exact (insertPerm _ fun member => fresh (right.mem_iff.mp member)).trans
          ((right.cons _).trans (List.perm_append_singleton _ _).symm)
  obtain ⟨l, r, ran, left, right⟩ := filled d.keys.length (Nat.le_refl _)
  rw [List.take_length] at left right
  exact ⟨l, r, by rw [fillTables, ← size, ran], left, right⟩

theorem initVals {d : ObliviousDictionary n} (distinct : d.keys.Nodup) (size : d.keys.length = dic.hashSize)
    {i : Nat} (inside : i < dic.hashSize) :
    (dic.init d).vals (d.keys.getD i 0) = some (dic.element d.values i) := by
  have stored : ∀ m ≤ d.keys.length, ∀ vals, vals = forLoop m (fun i vals =>
      insertVal vals (d.keys.getD i 0) (dic.element d.values i)) (fun _ => none) →
      (∀ i < m, vals (d.keys.getD i 0) = some (dic.element d.values i)) ∧
      ∀ key, key ∉ d.keys.take m → vals key = none := by
    intro m
    induction m with
    | zero =>
      rintro - vals rfl
      exact ⟨fun i none => absurd none (Nat.not_lt_zero i), fun _ _ => rfl⟩
    | succ m ih =>
      rintro bound vals rfl
      obtain ⟨before, absent⟩ := ih (by omega) _ rfl
      have fresh := freshNext distinct (i := m) (by omega)
      have vacant := absent _ fresh
      rw [forLoopSucc, insertVal, vacant]
      simp only [Option.isSome_none, Bool.false_eq_true, if_false]
      refine ⟨fun i below => ?_, fun key other => ?_⟩
      · by_cases last : i = m
        · subst i
          rw [Function.update_self]
        · have earlier : d.keys.getD i 0 ∈ d.keys.take m := by
            have length : i < (d.keys.take m).length := by
              rw [List.length_take]
              omega
            have same : (d.keys.take m)[i] = d.keys.getD i 0 := by
              rw [List.getElem_take, List.getD_eq_getElem _ _ (by omega)]
            rw [← same]
            exact List.getElem_mem length
          have other : d.keys.getD i 0 ≠ d.keys.getD m 0 := by
            intro same
            rw [same] at earlier
            exact fresh earlier
          rw [Function.update_of_ne other, before i (by omega)]
      · rw [takeSucc (by omega), List.mem_append, not_or] at other
        rw [Function.update_of_ne fun same => other.2 (by rw [same]; exact List.mem_singleton_self _),
          absent key other.1]
  exact (stored d.keys.length (Nat.le_refl _) _ (by rw [init, size])).1 i (by omega)

end Tables

section Keys

def coreKeys (d : ObliviousDictionary n) : List Key :=
  (List.range dic.tableRealSize).flatMap fun i =>
    if 1 < bucket_size dic.firstBucket d.first i then bucket dic.firstBucket d.first i else []

theorem foldlCongr {σ : Type*} {f g : σ → Key → σ} {l : List Key} (same : ∀ s, ∀ k ∈ l, f s k = g s k) (s : σ) :
    l.foldl f s = l.foldl g s := by
  induction l generalizing s with
  | nil => rfl
  | cons k l ih =>
    rw [List.foldl_cons, List.foldl_cons, same s k (List.mem_cons_self ..),
      ih fun s k member => same s k (List.mem_cons_of_mem _ member)]

theorem overCoreFold {σ : Type*} (d : ObliviousDictionary n) (body : Nat → σ → Key → σ) (s : σ) :
    dic.overCore d body s = (dic.coreKeys d).foldl (fun s key => body (dic.firstBucket key) s key) s := by
  have upTo : ∀ m, forLoop m (fun i s =>
      if 1 < bucket_size dic.firstBucket d.first i then (bucket dic.firstBucket d.first i).foldl (body i) s
      else s) s = ((List.range m).flatMap fun i =>
        if 1 < bucket_size dic.firstBucket d.first i then bucket dic.firstBucket d.first i else []).foldl
          (fun s key => body (dic.firstBucket key) s key) s := by
    intro m
    induction m with
    | zero => rfl
    | succ m ih =>
      rw [forLoopSucc, ih, List.range_succ, List.flatMap_append, List.foldl_append, List.flatMap_singleton]
      split
      · apply foldlCongr
        intro s k member
        have hashed : dic.firstBucket k = m := by simpa [bucket] using (List.mem_filter.mp member).2
        rw [hashed]
      · rfl
  exact upTo dic.tableRealSize

theorem coreKeysMember {d : ObliviousDictionary n} {k : Key} : k ∈ dic.coreKeys d ↔
    k ∈ d.first ∧ 1 < bucket_size dic.firstBucket d.first (dic.firstBucket k) := by
  unfold coreKeys
  rw [List.mem_flatMap]
  constructor
  · rintro ⟨i, -, member⟩
    split at member
    · rename_i many
      obtain ⟨listed, hashed⟩ := List.mem_filter.mp member
      have same : dic.firstBucket k = i := by simpa using hashed
      exact ⟨listed, by rw [same]; exact many⟩
    · simp at member
  · rintro ⟨listed, many⟩
    refine ⟨dic.firstBucket k, List.mem_range.mpr (dic.firstBucketBound k), ?_⟩
    rw [if_pos many]
    exact List.mem_filter.mpr ⟨listed, by simp⟩

theorem coreKeysNodup {d : ObliviousDictionary n} (distinct : d.first.Nodup) : (dic.coreKeys d).Nodup := by
  unfold coreKeys
  rw [List.nodup_flatMap]
  refine ⟨fun i _ => ?_, ?_⟩
  · split
    · exact distinct.filter _
    · exact List.nodup_nil
  · refine (List.nodup_range (n := dic.tableRealSize)).imp ?_
    intro i j other k left right
    have hashed : ∀ q, k ∈ (if 1 < bucket_size dic.firstBucket d.first q then bucket dic.firstBucket d.first q
        else []) → dic.firstBucket k = q := by
      intro q member
      split at member
      · simpa [bucket] using (List.mem_filter.mp member).2
      · simp at member
    exact other ((hashed i left).symm.trans (hashed j right))

theorem coreKeysPerm {d0 d : ObliviousDictionary n} (peeled : dic.Peeled d0 d) : (dic.coreKeys d).Perm d.first := by
  rw [List.perm_ext_iff_of_nodup (dic.coreKeysNodup peeled.distinctFirst) peeled.distinctFirst]
  intro k
  rw [coreKeysMember]
  exact ⟨fun member => member.1, fun member => ⟨member, peeled.left k member⟩⟩

end Keys

section Columns

structure Cols (vertices : List Nat) (cols : Nat → Option Nat) (counter : Nat) : Prop where
  given : ∀ v ∈ vertices, (cols v).isSome
  absent : ∀ v, v ∉ vertices → cols v = none
  injective : ∀ {u v c}, cols u = some c → cols v = some c → u = v
  bound : ∀ {v c}, cols v = some c → c < counter
  count : counter ≤ vertices.length

theorem colsStart : Cols [] (fun _ => none) 0 :=
  ⟨by simp, fun _ _ => rfl, by simp, by simp, Nat.le_refl _⟩

theorem newColKeeps {cols : Nat → Option Nat} {v u c counter : Nat} (kept : cols u = some c) :
    newCol cols v counter u = some c := by
  unfold newCol
  split
  · rename_i vacant
    have other : u ≠ v := by
      rintro rfl
      rw [kept] at vacant
      simp at vacant
    rw [Function.update_of_ne other, kept]
  · exact kept

theorem colsNext {vertices : List Nat} {cols : Nat → Option Nat} {counter : Nat} (before : Cols vertices cols counter)
    (v : Nat) : Cols (vertices ++ [v]) (newCol cols v counter) (nextCol cols v counter) := by
  unfold newCol nextCol
  split
  · have fresh : ∀ {u c}, cols u = some c → c ≠ counter := fun given => Nat.ne_of_lt (before.bound given)
    refine ⟨?_, ?_, ?_, ?_, ?_⟩
    · intro u member
      by_cases here : u = v
      · subst u
        simp
      · rw [Function.update_of_ne here]
        exact before.given u (by simpa [here] using member)
    · intro u absent
      have other : u ≠ v := by
        rintro rfl
        simp at absent
      rw [Function.update_of_ne other]
      exact before.absent u fun member => absent (by simp [member])
    · intro u w c first second
      by_cases left : u = v
      · by_cases right : w = v
        · exact left.trans right.symm
        · rw [left, Function.update_self] at first
          rw [Function.update_of_ne right] at second
          exact absurd (Option.some.inj first).symm (fresh second)
      · rw [Function.update_of_ne left] at first
        by_cases right : w = v
        · rw [right, Function.update_self] at second
          exact absurd (Option.some.inj second).symm (fresh first)
        · rw [Function.update_of_ne right] at second
          exact before.injective first second
    · intro u c given
      by_cases here : u = v
      · rw [here, Function.update_self] at given
        cases given
        exact Nat.lt_succ_self _
      · rw [Function.update_of_ne here] at given
        exact Nat.lt_succ_of_lt (before.bound given)
    · simpa using before.count
  · rename_i taken
    have some : (cols v).isSome := Option.isSome_iff_ne_none.mpr (by simpa using taken)
    refine ⟨?_, ?_, before.injective, before.bound, Nat.le_trans before.count (by simp)⟩
    · intro u member
      rcases List.mem_append.mp member with old | last
      · exact before.given u old
      · cases List.mem_singleton.mp last
        exact some
    · exact fun u absent => before.absent u fun member => absent (by simp [member])

theorem colsGiven {vertices : List Nat} {cols : Nat → Option Nat} {counter : Nat} (before : Cols vertices cols counter)
    {v : Nat} (member : v ∈ vertices) : ∃ c, cols v = some c ∧ c < counter := by
  obtain ⟨c, given⟩ := Option.isSome_iff_exists.mp (before.given v member)
  exact ⟨c, given, before.bound given⟩

end Columns

end PaxosPsi.Dictionary
