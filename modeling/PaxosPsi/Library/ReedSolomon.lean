import Mathlib

/-! Weights of a concatenated code. A sequence of words that a linear recurrence of order
`m` generates, with the longest period `2^m - 1`, is the image of the powers of a root; so
the ring of that root has only units besides zero, and words placed by the powers of
distinct points form a Reed-Solomon code with an inner code behind every symbol. -/
namespace PaxosPsi.ReedSolomon
open Polynomial

section Roots
variable {F : Type*} [CommRing F] [IsDomain F] {n symbols : ℕ} {f : F[X]} {points : Fin n → F}

theorem nonzeroPoints [DecidableEq F] (nonzero : f ≠ 0) (degree : f.natDegree < symbols)
    (distinct : Function.Injective points) :
    n + 1 ≤ (Finset.univ.filter fun j => f.eval (points j) ≠ 0).card + symbols := by
  have zeros : (Finset.univ.filter fun j => f.eval (points j) = 0).card ≤ f.natDegree := by
    have inRoots : (Finset.univ.filter fun j => f.eval (points j) = 0).image points ⊆ f.roots.toFinset := by
      intro x listed
      obtain ⟨j, root, rfl⟩ := Finset.mem_image.mp listed
      rw [Multiset.mem_toFinset, mem_roots nonzero]
      exact (Finset.mem_filter.mp root).2
    rw [← Finset.card_image_of_injective _ distinct]
    exact (Finset.card_le_card inRoots).trans ((Multiset.toFinset_card_le _).trans (card_roots' f))
  have split := Finset.card_filter_add_card_filter_not (s := Finset.univ) fun j => f.eval (points j) = 0
  rw [Finset.card_univ, Fintype.card_fin] at split
  simp only [ne_eq]
  omega

variable {K κ : Type*} [Zero K] [DecidableEq K] [Fintype κ]

theorem concatenatedWeight (nonzero : f ≠ 0) (degree : f.natDegree < symbols) (distinct : Function.Injective points)
    {inner : F → κ → K} {d : ℕ} (heavy : ∀ x, x ≠ 0 → d ≤ hammingNorm (inner x)) :
    (n + 1 - symbols) * d ≤
      (Finset.univ.filter fun p : Fin n × κ => inner (f.eval (points p.1)) p.2 ≠ 0).card := by
  classical
  have rows : (Finset.univ.filter fun p : Fin n × κ => inner (f.eval (points p.1)) p.2 ≠ 0).card =
      ∑ j, hammingNorm (inner (f.eval (points j))) := by
    rw [← Finset.univ_product_univ, Finset.card_filter, Finset.sum_product]
    refine Finset.sum_congr rfl fun j _ => ?_
    rw [← Finset.card_filter]
    rfl
  rw [rows]
  calc (n + 1 - symbols) * d
      ≤ (Finset.univ.filter fun j => f.eval (points j) ≠ 0).card * d := by
        have bound := nonzeroPoints nonzero degree distinct
        exact Nat.mul_le_mul_right d (by omega)
    _ = ∑ j ∈ Finset.univ.filter fun j => f.eval (points j) ≠ 0, d := by rw [Finset.sum_const, smul_eq_mul]
    _ ≤ ∑ j ∈ Finset.univ.filter fun j => f.eval (points j) ≠ 0, hammingNorm (inner (f.eval (points j))) :=
        Finset.sum_le_sum fun j listed => heavy _ (Finset.mem_filter.mp listed).2
    _ ≤ ∑ j, hammingNorm (inner (f.eval (points j))) :=
        Finset.sum_le_sum_of_subset (Finset.filter_subset _ _)

end Roots

section Sequences
variable {V : Type*} [AddCommGroup V] [Module (ZMod 2) V]

/-- The words of a recurrence of order `m` whose period is the longest one. -/
structure Generates (m : ℕ) (taps : List ℕ) (word : ℕ → V) : Prop where
  small : ∀ t ∈ taps, t < m
  recurs : ∀ e, word (e + m) = (taps.map fun t => word (e + t)).sum
  distinct : ∀ e f, word e = word f → e % (2 ^ m - 1) = f % (2 ^ m - 1)
  nonzero : ∀ e, word e ≠ 0

noncomputable def tail (taps : List ℕ) : (ZMod 2)[X] := (taps.map fun t => X ^ t).sum

noncomputable def characteristic (m : ℕ) (taps : List ℕ) : (ZMod 2)[X] := X ^ m + tail taps

theorem tailDegree {m : ℕ} {taps : List ℕ} (small : ∀ t ∈ taps, t < m) : (tail taps).degree < m := by
  induction taps with
  | nil => simp [tail]
  | cons t rest ih =>
    have head : (X ^ t : (ZMod 2)[X]).degree < m := by
      rw [degree_X_pow]
      exact_mod_cast small t (List.mem_cons_self ..)
    have others := ih fun t' listed => small t' (List.mem_cons_of_mem _ listed)
    have sum : tail (t :: rest) = X ^ t + tail rest := by simp [tail]
    rw [sum]
    exact (degree_add_le _ _).trans_lt (max_lt head others)

variable {m : ℕ} {taps : List ℕ} {word : ℕ → V}

theorem characteristicMonic (small : ∀ t ∈ taps, t < m) : (characteristic m taps).Monic :=
  monic_X_pow_add (tailDegree small)

theorem characteristicDegree (small : ∀ t ∈ taps, t < m) : (characteristic m taps).natDegree = m := by
  unfold characteristic
  rw [natDegree_add_eq_left_of_degree_lt, natDegree_X_pow]
  rw [degree_X_pow]
  exact tailDegree small

abbrev Symbols (m : ℕ) (taps : List ℕ) : Type := AdjoinRoot (characteristic m taps)

noncomputable abbrev generator (m : ℕ) (taps : List ℕ) : Symbols m taps := AdjoinRoot.root (characteristic m taps)

theorem generatorRecurs (e : ℕ) :
    generator m taps ^ (e + m) = (taps.map fun t => generator m taps ^ (e + t)).sum := by
  have root : AdjoinRoot.mk (characteristic m taps) (X ^ m + tail taps) = 0 := AdjoinRoot.mk_self
  rw [map_add, map_pow, AdjoinRoot.mk_X, tail, map_list_sum, List.map_map] at root
  simp only [Function.comp_def, map_pow, AdjoinRoot.mk_X] at root
  have sum := eq_neg_of_add_eq_zero_left root
  rw [ZModModule.neg_eq_self] at sum
  rw [pow_add, sum, ← List.sum_map_mul_left]
  simp only [pow_add]

noncomputable def symbolBasis (small : ∀ t ∈ taps, t < m) : Module.Basis (Fin m) (ZMod 2) (Symbols m taps) :=
  (AdjoinRoot.powerBasis' (characteristicMonic small)).basis.reindex
    (finCongr ((AdjoinRoot.powerBasis'_dim (characteristicMonic small)).trans (characteristicDegree small)))

theorem symbolBasisPower (small : ∀ t ∈ taps, t < m) (a : Fin m) :
    symbolBasis small a = generator m taps ^ (a : ℕ) := by
  unfold symbolBasis
  rw [Module.Basis.reindex_apply, PowerBasis.basis_eq_pow, AdjoinRoot.powerBasis'_gen]
  rfl

theorem symbolCount (small : ∀ t ∈ taps, t < m) : Nat.card (Symbols m taps) = 2 ^ m := by
  have fin : Module.Finite (ZMod 2) (Symbols m taps) := Module.Finite.of_basis (symbolBasis small)
  rw [Module.natCard_eq_pow_finrank (K := ZMod 2), Nat.card_zmod, Module.finrank_eq_card_basis (symbolBasis small),
    Fintype.card_fin]

/-- The inner code: the word of a power of the generator is the word of the sequence. -/
noncomputable def innerWord (small : ∀ t ∈ taps, t < m) (word : ℕ → V) : Symbols m taps →ₗ[ZMod 2] V :=
  (symbolBasis small).constr (ZMod 2) fun a => word a

theorem innerWordPower (sequence : Generates m taps word) (e : ℕ) :
    innerWord sequence.small word (generator m taps ^ e) = word e := by
  induction e using Nat.strong_induction_on with
  | _ e ih =>
    by_cases first : e < m
    · have basis := (symbolBasis sequence.small).constr_basis (ZMod 2) (fun a => word a) ⟨e, first⟩
      rwa [symbolBasisPower] at basis
    · obtain ⟨e, rfl⟩ : ∃ e', e = e' + m := ⟨e - m, by omega⟩
      rw [generatorRecurs, map_list_sum, sequence.recurs, List.map_map]
      congr 1
      refine List.map_congr_left fun t listed => ?_
      have inside := sequence.small t listed
      exact ih (e + t) (by omega)

theorem powerNonzero (sequence : Generates m taps word) (e : ℕ) : generator m taps ^ e ≠ 0 := by
  intro zero
  have image := innerWordPower sequence e
  rw [zero, map_zero] at image
  exact sequence.nonzero e image.symm

theorem nonzeroPower (sequence : Generates m taps word) {x : Symbols m taps} (nonzero : x ≠ 0) :
    ∃ e, x = generator m taps ^ e := by
  have count := symbolCount sequence.small
  have positive := Nat.two_pow_pos m
  have finite : Finite (Symbols m taps) := Nat.finite_of_card_ne_zero (by omega)
  have listed : Fintype (Symbols m taps) := Fintype.ofFinite _
  let powers : Option (Fin (2 ^ m - 1)) → Symbols m taps := fun o => o.elim 0 fun e => generator m taps ^ (e : ℕ)
  have injective : Function.Injective powers := by
    rintro (_ | e) (_ | f) same
    · rfl
    · exact absurd same.symm (powerNonzero sequence f)
    · exact absurd same (powerNonzero sequence e)
    · have words : word e = word f := by
        rw [← innerWordPower sequence, ← innerWordPower sequence]
        exact congrArg _ same
      have exponents := sequence.distinct e f words
      rw [Nat.mod_eq_of_lt e.isLt, Nat.mod_eq_of_lt f.isLt] at exponents
      rw [Fin.ext exponents]
  have surjective : Function.Surjective powers := by
    refine ((Fintype.bijective_iff_injective_and_card powers).mpr ⟨injective, ?_⟩).2
    rw [Fintype.card_option, Fintype.card_fin, ← Nat.card_eq_fintype_card, count]
    omega
  obtain ⟨_ | e, image⟩ := surjective x
  · exact absurd image.symm nonzero
  · exact ⟨e, image.symm⟩

theorem symbolsDomain (sequence : Generates m taps word) : IsDomain (Symbols m taps) := by
  have one : (1 : Symbols m taps) ≠ 0 := by
    have unit := powerNonzero sequence 0
    rwa [pow_zero] at unit
  have nontrivial : Nontrivial (Symbols m taps) := ⟨1, 0, one⟩
  have cancel : NoZeroDivisors (Symbols m taps) := by
    refine ⟨fun {x y} product => ?_⟩
    by_contra both
    rw [not_or] at both
    obtain ⟨e, rfl⟩ := nonzeroPower sequence both.1
    obtain ⟨f, rfl⟩ := nonzeroPower sequence both.2
    rw [← pow_add] at product
    exact powerNonzero sequence (e + f) product
  exact NoZeroDivisors.to_isDomain _

/-- The word behind symbol `j` of row `r`: point 0 is zero and point `j` the `j`-th power. -/
def symbolWord (m : ℕ) (word : ℕ → V) (r j : ℕ) : V :=
  if j = 0 ∧ r / m ≠ 0 then 0 else word (r % m + r / m * j)

noncomputable def point (m : ℕ) (taps : List ℕ) (j : ℕ) : Symbols m taps := if j = 0 then 0 else generator m taps ^ j

theorem pointsDistinct (sequence : Generates m taps word) {n : ℕ} (fits : n ≤ 2 ^ m) :
    Function.Injective fun j : Fin n => point m taps j := by
  intro j k same
  have powers : ∀ e f : Fin n, (e : ℕ) ≠ 0 → (f : ℕ) ≠ 0 → generator m taps ^ (e : ℕ) = generator m taps ^ (f : ℕ) →
      e = f := by
    intro e f first second equal
    have words : word e = word f := by
      rw [← innerWordPower sequence, ← innerWordPower sequence, equal]
    have exponents := sequence.distinct e f words
    have shift : ∀ k : Fin n, (k : ℕ) ≠ 0 → (k : ℕ) % (2 ^ m - 1) = if (k : ℕ) = 2 ^ m - 1 then 0 else (k : ℕ) := by
      intro k _
      have below := k.isLt
      split
      · rename_i last
        rw [last, Nat.mod_self]
      · exact Nat.mod_eq_of_lt (by omega)
    rw [shift e first, shift f second] at exponents
    apply Fin.ext
    split at exponents <;> split at exponents <;> omega
  simp only [point] at same
  by_cases first : (j : ℕ) = 0 <;> by_cases second : (k : ℕ) = 0
  · exact Fin.ext (first.trans second.symm)
  · rw [if_pos first, if_neg second] at same
    exact absurd same.symm (powerNonzero sequence k)
  · rw [if_neg first, if_pos second] at same
    exact absurd same (powerNonzero sequence j)
  · rw [if_neg first, if_neg second] at same
    exact powers j k first second same

theorem innerWordSymbol (sequence : Generates m taps word) (j : ℕ) {i a : ℕ} (inside : a < m) :
    innerWord sequence.small word (generator m taps ^ a * point m taps j ^ i) = symbolWord m word (m * i + a) j := by
  have row : (m * i + a) / m = i ∧ (m * i + a) % m = a := by
    have positive : 0 < m := by omega
    rw [Nat.mul_add_div positive, Nat.div_eq_of_lt inside, Nat.mul_add_mod, Nat.mod_eq_of_lt inside, Nat.add_zero]
    exact ⟨rfl, rfl⟩
  unfold symbolWord point
  rw [row.1, row.2]
  by_cases first : j = 0
  · subst j
    by_cases constant : i = 0
    · subst i
      rw [if_pos rfl, if_neg fun moved => moved.2 rfl, pow_zero, mul_one, Nat.zero_mul, Nat.add_zero,
        innerWordPower sequence]
    · rw [if_pos rfl, if_pos ⟨rfl, constant⟩, zero_pow constant, mul_zero, map_zero]
  · rw [if_neg first, if_neg fun moved => first moved.1, ← pow_mul, ← pow_add, innerWordPower sequence, Nat.mul_comm j]

noncomputable def coefficient (m : ℕ) (taps : List ℕ) (c : ℕ → ZMod 2) (i : ℕ) : Symbols m taps :=
  ∑ a ∈ Finset.range m, c (m * i + a) • generator m taps ^ a

noncomputable def message (m : ℕ) (taps : List ℕ) (c : ℕ → ZMod 2) (symbols : ℕ) : (Symbols m taps)[X] :=
  ∑ i ∈ Finset.range symbols, monomial i (coefficient m taps c i)

theorem messageSymbol (sequence : Generates m taps word) (c : ℕ → ZMod 2) (symbols j : ℕ) :
    innerWord sequence.small word ((message m taps c symbols).eval (point m taps j)) =
      ∑ r ∈ Finset.range (m * symbols), c r • symbolWord m word r j := by
  unfold message
  induction symbols with
  | zero => simp
  | succ symbols ih =>
    rw [Finset.sum_range_succ, eval_add, map_add, ih, Nat.mul_succ, Finset.sum_range_add]
    congr 1
    rw [eval_monomial, coefficient, Finset.sum_mul, map_sum]
    refine Finset.sum_congr rfl fun a listed => ?_
    rw [smul_mul_assoc, map_smul, innerWordSymbol sequence j (Finset.mem_range.mp listed)]

theorem messageNonzero (small : ∀ t ∈ taps, t < m) {c : ℕ → ZMod 2} {symbols r : ℕ}
    (inside : r < m * symbols) (set : c r ≠ 0) : message m taps c symbols ≠ 0 := by
  intro zero
  have positive : 0 < m := Nat.pos_of_ne_zero fun none => by simp [none] at inside
  have split := Nat.div_add_mod r m
  have below := Nat.mod_lt r positive
  have row : r / m < symbols := Nat.div_lt_of_lt_mul inside
  have taken : (message m taps c symbols).coeff (r / m) = coefficient m taps c (r / m) := by
    simp only [message, finsetSum_coeff, coeff_monomial]
    rw [Finset.sum_ite_eq', if_pos (Finset.mem_range.mpr row)]
  rw [zero, coeff_zero] at taken
  have relation : ∑ a : Fin m, c (m * (r / m) + a) • symbolBasis small a = 0 := by
    simp only [symbolBasisPower]
    rw [taken, coefficient, ← Fin.sum_univ_eq_sum_range (fun a => c (m * (r / m) + a) • generator m taps ^ a)]
  have none := Fintype.linearIndependent_iff.mp (symbolBasis small).linearIndependent _ relation ⟨r % m, below⟩
  rw [split] at none
  exact set none

theorem messageDegree (c : ℕ → ZMod 2) {symbols : ℕ} (positive : 0 < symbols) :
    (message m taps c symbols).natDegree < symbols := by
  have bound : (message m taps c symbols).natDegree ≤ symbols - 1 := by
    refine natDegree_sum_le_of_forall_le _ _ fun i listed => ?_
    have below := Finset.mem_range.mp listed
    exact (natDegree_monomial_le _).trans (by omega)
  omega

end Sequences

section Weight
variable {κ : Type*} [Fintype κ] {m : ℕ} {taps : List ℕ} {word : ℕ → κ → ZMod 2}

/-- A message that is not zero has nonzero columns for every point it is not a root of. -/
theorem messageWeight (sequence : Generates m taps word) {d : ℕ} (heavy : ∀ e, d ≤ hammingNorm (word e))
    {n symbols r : ℕ} (fits : n ≤ 2 ^ m) {c : ℕ → ZMod 2} (inside : r < m * symbols) (set : c r ≠ 0) :
    (n + 1 - symbols) * d ≤ (Finset.univ.filter fun p : Fin n × κ =>
      (∑ r ∈ Finset.range (m * symbols), c r • symbolWord m word r p.1) p.2 ≠ 0).card := by
  have domain := symbolsDomain sequence
  have positive : 0 < symbols := Nat.pos_of_ne_zero fun none => by simp [none] at inside
  have weighs : ∀ x, x ≠ 0 → d ≤ hammingNorm (innerWord sequence.small word x) := by
    intro x nonzero
    obtain ⟨e, rfl⟩ := nonzeroPower sequence nonzero
    rw [innerWordPower sequence]
    exact heavy e
  have weight := concatenatedWeight (messageNonzero sequence.small inside set) (messageDegree c positive)
    (pointsDistinct sequence fits) weighs
  simp only [messageSymbol sequence] at weight
  exact weight

end Weight
end PaxosPsi.ReedSolomon
