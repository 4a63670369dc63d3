import Mathlib.Logic.Relation

/-!
# Runs of a system

The states that a labelled step relation reaches, and the rule by which a run keeps what every
step keeps.
-/

namespace MbBootTv

universe u v

variable {σ : Type u} {ε : Type v} {step step' : σ → ε → σ → Prop}

/-- `y` is reached from `x` by finitely many steps, whatever their labels. -/
def Reaches (step : σ → ε → σ → Prop) : σ → σ → Prop :=
  Relation.ReflTransGen fun x y => ∃ e, step x e y

namespace Reaches

theorem refl (x : σ) : Reaches step x x := Relation.ReflTransGen.refl

theorem tail {x y z : σ} {e : ε} (h : Reaches step x y) (hstep : step y e z) :
    Reaches step x z :=
  Relation.ReflTransGen.tail h ⟨e, hstep⟩

/-- **What every step keeps, a run keeps.** -/
theorem invariant {inv : σ → Prop} {x y : σ} (h : Reaches step x y) (hx : inv x)
    (hstep : ∀ x e y, inv x → step x e y → inv y) : inv y := by
  induction h with
  | refl => exact hx
  | tail _ hst ih =>
    obtain ⟨e, he⟩ := hst
    exact hstep _ _ _ ih he

/-- A run of some steps is a run of more steps. -/
theorem mono {x y : σ} (h : Reaches step x y) (hsub : ∀ x e y, step x e y → step' x e y) :
    Reaches step' x y :=
  Relation.ReflTransGen.mono (fun _ _ ⟨e, he⟩ => ⟨e, hsub _ _ _ he⟩) _ _ h

end Reaches

end MbBootTv
