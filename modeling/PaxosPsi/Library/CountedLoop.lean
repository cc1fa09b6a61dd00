import Mathlib.Logic.Function.Basic

/-! Counted and guarded loops over an explicit state, with their invariant rules.
A guarded loop carries fuel; the variant rule shows when the fuel is enough for
the loop to leave through its own guard. -/
namespace PaxosPsi.CountedLoop

variable {σ τ : Type*}

def forLoop : Nat → (Nat → σ → σ) → σ → σ
  | 0, _, s => s
  | n + 1, body, s => body n (forLoop n body s)

@[simp] theorem forLoopZero (body : Nat → σ → σ) (s : σ) : forLoop 0 body s = s := rfl

@[simp] theorem forLoopSucc (n : Nat) (body : Nat → σ → σ) (s : σ) :
    forLoop (n + 1) body s = body n (forLoop n body s) := rfl

theorem forLoopInvariant {n : Nat} {f : Nat → σ → σ} {s : σ} (holds : Nat → σ → Prop)
    (start : holds 0 s) (next : ∀ i s, i < n → holds i s → holds (i + 1) (f i s)) :
    holds n (forLoop n f s) := by
  induction n with
  | zero => exact start
  | succ n ih =>
    have before := ih fun i s bound => next i s (Nat.lt_succ_of_lt bound)
    exact next n _ (Nat.lt_succ_self n) before

theorem forLoopPair (n : Nat) (f : Nat → σ → σ) (g : Nat → τ → τ) (s : σ) (t : τ) :
    forLoop n (fun i p => (f i p.1, g i p.2)) (s, t) = (forLoop n f s, forLoop n g t) := by
  induction n with
  | zero => rfl
  | succ n ih => rw [forLoopSucc, ih, forLoopSucc, forLoopSucc]

theorem forLoopMap (f : σ → τ) {n : Nat} {body : Nat → σ → σ} {body' : Nat → τ → τ}
    (commutes : ∀ i s, f (body i s) = body' i (f s)) (s : σ) : f (forLoop n body s) = forLoop n body' (f s) := by
  induction n with
  | zero => rfl
  | succ n ih => rw [forLoopSucc, commutes, ih, forLoopSucc]

theorem forLoopUnroll (n m : Nat) (f : Nat → σ → σ) (s : σ) :
    forLoop (n * m) f s = forLoop n (fun i s => forLoop m (fun k => f (i * m + k)) s) s := by
  have more : ∀ a b, forLoop (a + b) f s = forLoop b (fun k => f (a + k)) (forLoop a f s) := by
    intro a b
    induction b with
    | zero => rfl
    | succ b ih => rw [← Nat.add_assoc, forLoopSucc, ih, forLoopSucc]
  induction n with
  | zero => rw [Nat.zero_mul]; rfl
  | succ n ih => rw [Nat.succ_mul, more, ih, forLoopSucc]

theorem forLoopUpdate (n : Nat) (f : Nat → σ → σ) (s : Nat → σ) (a : Nat) :
    forLoop n (fun i s => Function.update s i (f i (s i))) s a = if a < n then f a (s a) else s a := by
  induction n generalizing a with
  | zero => exact (if_neg (Nat.not_lt_zero a)).symm
  | succ n ih =>
    rw [forLoopSucc]
    by_cases last : a = n
    · subst last
      rw [Function.update_self, ih, if_neg (Nat.lt_irrefl a), if_pos (Nat.lt_succ_self a)]
    · rw [Function.update_of_ne last, ih, if_congr (show a < n ↔ a < n + 1 by omega) rfl rfl]

section Fallible
variable {ε : Type*}

def forLoopM : Nat → (Nat → σ → Except ε σ) → σ → Except ε σ
  | 0, _, s => .ok s
  | n + 1, body, s => do
    let s ← forLoopM n body s
    body n s

theorem forLoopMInvariant {n : Nat} {f : Nat → σ → Except ε σ} {s : σ} (holds : Nat → σ → Prop)
    (start : holds 0 s) (next : ∀ i s, i < n → holds i s → ∃ s', f i s = .ok s' ∧ holds (i + 1) s') :
    ∃ s', forLoopM n f s = .ok s' ∧ holds n s' := by
  induction n with
  | zero => exact ⟨s, rfl, start⟩
  | succ n ih =>
    obtain ⟨s', ran, kept⟩ := ih fun i s bound => next i s (Nat.lt_succ_of_lt bound)
    obtain ⟨s'', stepped, last⟩ := next n s' (Nat.lt_succ_self n) kept
    refine ⟨s'', ?_, last⟩
    rw [forLoopM, ran]
    exact stepped

theorem forLoopMOk {n : Nat} {f : Nat → σ → Except ε σ} {g : Nat → σ → σ} {s : σ}
    (steps : ∀ i < n, ∀ s, f i s = .ok (g i s)) : forLoopM n f s = .ok (forLoop n g s) := by
  induction n with
  | zero => rfl
  | succ n ih =>
    rw [forLoopM, ih fun i bound => steps i (Nat.lt_succ_of_lt bound)]
    exact steps n (Nat.lt_succ_self n) _

/-- A loop that ran through has run every step, each from a state that kept the invariant. -/
theorem forLoopMRan {n : Nat} {f : Nat → σ → Except ε σ} {s s' : σ} (holds : σ → Prop) (start : holds s)
    (kept : ∀ i t t', holds t → f i t = .ok t' → holds t') (ran : forLoopM n f s = .ok s') :
    holds s' ∧ ∀ i < n, ∃ t t', holds t ∧ f i t = .ok t' := by
  induction n generalizing s' with
  | zero =>
    cases ran
    exact ⟨start, fun i none => absurd none (Nat.not_lt_zero i)⟩
  | succ n ih =>
    rw [forLoopM] at ran
    cases before : forLoopM n f s with
    | error e => rw [before] at ran; cases ran
    | ok t =>
      rw [before] at ran
      obtain ⟨held, steps⟩ := ih before
      refine ⟨kept n t s' held ran, fun i bound => ?_⟩
      rcases Nat.lt_succ_iff_lt_or_eq.mp bound with earlier | rfl
      · exact steps i earlier
      · exact ⟨t, s', held, ran⟩

end Fallible

def whileLoop : Nat → (σ → Bool) → (σ → σ) → σ → σ
  | 0, _, _, s => s
  | fuel + 1, guard, body, s =>
      if guard s then whileLoop fuel guard body (body s) else s

theorem whileLoopMap (f : σ → τ) {guard : σ → Bool} {guard' : τ → Bool} {body : σ → σ} {body' : τ → τ}
    (guards : ∀ s, guard' (f s) = guard s) (commutes : ∀ s, f (body s) = body' (f s)) (fuel : Nat) (s : σ) :
    f (whileLoop fuel guard body s) = whileLoop fuel guard' body' (f s) := by
  induction fuel generalizing s with
  | zero => rfl
  | succ fuel ih =>
    rw [whileLoop, whileLoop, guards]
    split
    · rw [ih, commutes]
    · rfl

/-- With fuel for every unit of the variant the loop ends where its guard fails. -/
theorem whileLoopRule {fuel : Nat} {g : σ → Bool} {f : σ → σ} {s : σ}
    (holds : σ → Prop) (variant : σ → Nat)
    (start : holds s) (enough : variant s ≤ fuel)
    (positive : ∀ s, holds s → g s = true → 0 < variant s)
    (next : ∀ s, holds s → g s = true → holds (f s) ∧ variant (f s) < variant s) :
    holds (whileLoop fuel g f s) ∧ g (whileLoop fuel g f s) = false := by
  induction fuel generalizing s with
  | zero =>
    refine ⟨start, ?_⟩
    by_contra running
    have := positive s start (by simpa [whileLoop] using running)
    omega
  | succ fuel ih =>
    simp only [whileLoop]
    split
    · rename_i running
      obtain ⟨kept, smaller⟩ := next s start running
      exact ih kept (by omega)
    · rename_i stopped
      exact ⟨start, by simpa using stopped⟩

end PaxosPsi.CountedLoop
