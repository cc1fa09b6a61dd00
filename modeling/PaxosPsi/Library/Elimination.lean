import Mathlib.Data.List.Basic
import Mathlib.Data.List.Perm.Basic

/-! Elimination orders of a hypergraph. An edge may be eliminated while one of its
vertices is touched by no other remaining edge; that vertex stays free for it. What
is never eliminated is the core. -/
namespace PaxosPsi.Elimination

variable {E V : Type*} (touches : E → V → Prop)

structure Free (core : E → Prop) (later : List E) (e : E) (v : V) : Prop where
  own : touches e v
  later : ∀ f ∈ later, ¬ touches f v
  core : ∀ f, core f → ¬ touches f v

/-- The edges of the list can be eliminated in its order, leaving the core. -/
inductive Peels (core : E → Prop) : List E → Prop where
  | done : Peels core []
  | peel {e : E} {later : List E} (v : V) (free : Free touches core later e v)
      (order : Peels core later) : Peels core (e :: later)

variable {touches}

theorem Peels.snoc {core : E → Prop} {peeled : List E} (order : Peels touches core peeled) {e : E} (member : core e)
    {v : V} (own : touches e v) (alone : ∀ f, core f → touches f v → f = e) :
    Peels touches (fun f => core f ∧ f ≠ e) (peeled ++ [e]) := by
  induction order with
  | done =>
    refine .peel v ⟨own, by simp, ?_⟩ .done
    rintro f ⟨kept, other⟩ touched
    exact other (alone f kept touched)
  | peel w free _ ih =>
    refine .peel w ⟨free.own, ?_, fun f kept => free.core f kept.1⟩ ih
    intro f listed
    rcases List.mem_append.mp listed with before | last
    · exact free.later f before
    · cases List.mem_singleton.mp last
      exact free.core _ member

theorem Peels.congr {core core' : E → Prop} {peeled : List E} (order : Peels touches core peeled)
    (same : ∀ f, core' f → core f) : Peels touches core' peeled := by
  induction order with
  | done => exact .done
  | peel v free _ ih => exact .peel v ⟨free.own, free.later, fun f kept => free.core f (same f kept)⟩ ih

section TwoCore
variable (touches)

def Stable (S : E → Prop) : Prop := ∀ e, S e → ∀ v, touches e v → ∃ f, S f ∧ f ≠ e ∧ touches f v

/-- The union of the stable sets of edges. -/
def TwoCore (all : E → Prop) (e : E) : Prop := ∃ S, (∀ f, S f → all f) ∧ Stable touches S ∧ S e

variable {touches}

theorem Peels.stable {core : E → Prop} {peeled : List E} (order : Peels touches core peeled) {S : E → Prop}
    (inside : ∀ e, S e → e ∈ peeled ∨ core e) (stable : Stable touches S) (e : E) (member : S e) : core e := by
  induction order with
  | done => exact (inside e member).resolve_left (List.not_mem_nil)
  | @peel e' later v free order ih =>
    have removed : ¬ S e' := by
      intro kept
      obtain ⟨f, other, apart, shared⟩ := stable e' kept v free.own
      rcases inside f other with listed | left
      · exact free.later f ((List.mem_cons.mp listed).resolve_left apart) shared
      · exact free.core f left shared
    refine ih fun f kept => (inside f kept).imp_left fun listed => ?_
    refine (List.mem_cons.mp listed).resolve_left ?_
    rintro rfl
    exact removed kept

theorem Peels.twoCore {core all : E → Prop} {peeled : List E} (order : Peels touches core peeled)
    (known : ∀ e, all e ↔ e ∈ peeled ∨ core e) (stable : Stable touches core) (e : E) :
    core e ↔ TwoCore touches all e := by
  constructor
  · exact fun left => ⟨core, fun f kept => (known f).mpr (Or.inr kept), stable, left⟩
  · rintro ⟨S, inside, closed, member⟩
    exact order.stable (fun f kept => (known f).mp (inside f kept)) closed e member

end TwoCore

end PaxosPsi.Elimination
