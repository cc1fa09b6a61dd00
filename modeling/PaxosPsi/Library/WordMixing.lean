import Mathlib

/-! Steps of hash functions on words that lose nothing, and how many words fall into each
residue class and under each pattern of leading bits. -/
namespace PaxosPsi.WordMixing

variable {w : Nat}

theorem multiplyInjective {c : BitVec w} (inverse : BitVec w) (unit : c * inverse = 1#w) : Function.Injective (· * c) := by
  intro x y same
  have back := congrArg (· * inverse) same
  simpa only [BitVec.mul_assoc, unit, BitVec.mul_one] using back

/-- Equal images agree in the top bits, and from there on downwards. -/
theorem xorShiftInjective {s : Nat} (positive : 0 < s) : Function.Injective fun x : BitVec w => x ^^^ x >>> s := by
  intro x y same
  have bits : ∀ n i, w - n ≤ i → x.getLsbD i = y.getLsbD i := by
    intro n
    induction n with
    | zero =>
      intro i past
      rw [BitVec.getLsbD_of_ge x i past, BitVec.getLsbD_of_ge y i past]
    | succ n ih =>
      intro i low
      have here := congrArg (BitVec.getLsbD · i) same
      have above := ih (s + i) (by omega)
      simp only [BitVec.getLsbD_xor, BitVec.getLsbD_ushiftRight, above] at here
      simpa using here
  exact BitVec.eq_of_getLsbD_eq fun i _ => bits w i (by omega)

theorem rotateInjective {r : Nat} (inside : r < w) : Function.Injective fun x : BitVec w => x.rotateLeft r := by
  intro x y same
  refine BitVec.eq_of_getLsbD_eq fun i bound => ?_
  have bit : ∀ x : BitVec w, (x.rotateLeft r).getLsbD ((i + r) % w) = x.getLsbD i := by
    intro x
    rw [BitVec.getLsbD_rotateLeft, Nat.mod_eq_of_lt inside]
    by_cases wraps : i + r < w
    · rw [Nat.mod_eq_of_lt wraps, decide_eq_false (by omega), cond_false, decide_eq_true wraps, Bool.true_and,
        Nat.add_sub_cancel]
    · have low : (i + r) % w = i + r - w := by
        rw [Nat.mod_eq_sub_mod (by omega), Nat.mod_eq_of_lt (by omega)]
      have back : w - r + (i + r - w) = i := by omega
      rw [low, decide_eq_true (by omega), cond_true, back]
  rw [← bit x, ← bit y]
  exact congrArg (BitVec.getLsbD · _) same

theorem cardAlong {α β : Type*} {f : α → β} (bijective : Function.Bijective f) (p : β → Prop) :
    Nat.card {a // p (f a)} = Nat.card {b // p b} :=
  Nat.card_congr ((Equiv.ofBijective f bijective).subtypeEquiv fun _ => Iff.rfl)

theorem wordCount (p : Nat → Prop) [DecidablePred p] :
    Nat.card {v : BitVec w // p v.toNat} = Nat.count p (2 ^ w) := by
  have numbers : Nat.card {v : BitVec w // p v.toNat} = Nat.card {k // k < 2 ^ w ∧ p k} := by
    refine Nat.card_congr ⟨fun v => ⟨v.1.toNat, v.1.isLt, v.2⟩, fun k => ⟨BitVec.ofNatLT k.1 k.2.1, ?_⟩, fun v => ?_,
      fun k => ?_⟩
    · rw [BitVec.toNat_ofNatLT]
      exact k.2.2
    · exact Subtype.ext (BitVec.eq_of_toNat_eq (BitVec.toNat_ofNatLT _ _))
    · exact Subtype.ext (BitVec.toNat_ofNatLT k.1 k.2.1)
  rw [numbers, Nat.count_eq_card_filter_range]
  exact Nat.subtype_card _ fun k => by rw [Finset.mem_filter, Finset.mem_range]

theorem residueCount {n b : Nat} (inside : b < n) :
    Nat.card {v : BitVec w // v.toNat % n = b} = 2 ^ w / n + if b < 2 ^ w % n then 1 else 0 := by
  have classes : ∀ k, k % n = b ↔ k ≡ b [MOD n] := by
    intro k
    rw [Nat.ModEq, Nat.mod_eq_of_lt inside]
  rw [wordCount fun k => k % n = b]
  simp only [classes]
  rw [Nat.count_modEq_card _ (by omega), Nat.mod_eq_of_lt inside]

theorem leadingCount {g : Nat} (narrow : g ≤ w) (bits : BitVec w) :
    Nat.card {v : BitVec w // v >>> (w - g) = bits} = if bits.toNat < 2 ^ g then 2 ^ (w - g) else 0 := by
  have shape : ∀ v : BitVec w, v >>> (w - g) = bits ↔ v.toNat / 2 ^ (w - g) = bits.toNat := by
    intro v
    rw [← BitVec.toNat_inj, BitVec.toNat_ushiftRight, Nat.shiftRight_eq_div_pow]
  simp only [shape]
  rw [wordCount fun k => k / 2 ^ (w - g) = bits.toNat, Nat.count_eq_card_filter_range]
  have split : 2 ^ w = 2 ^ g * 2 ^ (w - g) := by rw [← Nat.pow_add, Nat.add_sub_cancel' narrow]
  have positive : 0 < 2 ^ (w - g) := Nat.two_pow_pos _
  have range : (Finset.range (2 ^ w)).filter (fun k => k / 2 ^ (w - g) = bits.toNat) =
      if bits.toNat < 2 ^ g then Finset.Ico (bits.toNat * 2 ^ (w - g)) ((bits.toNat + 1) * 2 ^ (w - g)) else ∅ := by
    ext k
    rw [Finset.mem_filter, Finset.mem_range, Nat.div_eq_iff positive, split]
    by_cases fits : bits.toNat < 2 ^ g
    · have edge := Nat.mul_le_mul_right (2 ^ (w - g)) (show bits.toNat + 1 ≤ 2 ^ g from fits)
      rw [if_pos fits, Finset.mem_Ico]
      rw [Nat.succ_mul] at edge ⊢
      omega
    · have edge := Nat.mul_le_mul_right (2 ^ (w - g)) (Nat.le_of_not_lt fits)
      rw [if_neg fits]
      simp only [Finset.notMem_empty, iff_false]
      omega
  rw [range]
  split
  · rw [Nat.card_Ico, Nat.succ_mul, Nat.add_sub_cancel_left]
  · rfl

end PaxosPsi.WordMixing
