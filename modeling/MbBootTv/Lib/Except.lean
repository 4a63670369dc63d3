/-!
# Sequencing with errors

How a `do` block over `Except` comes apart: it succeeds exactly when its first step does and the
rest does on the result. `Ends` is the triple without a precondition: which errors can occur, and
what holds of a result; it goes through a `do` block by `Ends.bind`. `Paired` compares two blocks: they
end in the same error, or in results that are related; it goes through them by `Paired.bind`.
-/

namespace MbBootTv

universe u v w

variable {ε : Type u} {α β : Type v}

@[simp] theorem ok_bind (a : α) (f : α → Except ε β) : ((.ok a : Except ε α) >>= f) = f a := rfl

@[simp] theorem error_bind (e : ε) (f : α → Except ε β) :
    ((.error e : Except ε α) >>= f) = .error e := rfl

@[simp] theorem pure_eq_ok (a : α) : (pure a : Except ε α) = .ok a := rfl

theorem bind_eq_ok {x : Except ε α} {f : α → Except ε β} {b : β} :
    (x >>= f) = .ok b ↔ ∃ a, x = .ok a ∧ f a = .ok b := by
  cases x with
  | error e => simp
  | ok a => simp

theorem bind_eq_error {x : Except ε α} {f : α → Except ε β} {e : ε} :
    (x >>= f) = .error e ↔ x = .error e ∨ ∃ a, x = .ok a ∧ f a = .error e := by
  cases x with
  | error e => simp
  | ok a => simp

/-- A `do` block on a changed first result. -/
theorem map_bind {α' : Type v} {x : Except ε α} {g : α → α'} {h : β → β} {f : α → Except ε β}
    {f' : α' → Except ε β} (hf : ∀ a, x = .ok a → f' (g a) = (f a).map h) :
    (x.map g >>= f') = (x >>= f).map h := by
  cases x with
  | error e => rfl
  | ok a => exact hf a rfl

/-- The rest of a `do` block matters on the results of its first step. -/
theorem bind_congr_ok {x : Except ε α} {f g : α → Except ε β} (h : ∀ a, x = .ok a → f a = g a) :
    (x >>= f) = (x >>= g) := by
  cases x with
  | error e => rfl
  | ok a => exact h a rfl

/-- `y` yields whatever `x` yields, step by step. -/
theorem bind_ok_mono {x y : Except ε α} {f g : α → Except ε β} {b : β}
    (hx : ∀ a, x = .ok a → y = .ok a) (hf : ∀ a, f a = .ok b → g a = .ok b)
    (h : (x >>= f) = .ok b) : (y >>= g) = .ok b := by
  obtain ⟨a, ha, hb⟩ := bind_eq_ok.mp h
  exact bind_eq_ok.mpr ⟨a, hx a ha, hf a hb⟩

/-- It succeeds, with a result that passes the test. -/
def holds (x : Except ε α) (p : α → Bool) : Bool :=
  match x with
  | .error _ => false
  | .ok a => p a

theorem holds_iff {x : Except ε α} {p : α → Bool} :
    holds x p = true ↔ ∃ a, x = .ok a ∧ p a = true := by
  cases x with
  | error e => simp [holds]
  | ok a => simp [holds]

/-! ## Which errors can occur -/

/-- It ends in an error that is `allowed`, or in a result with `post`. -/
def Ends (allowed : ε → Prop) (x : Except ε α) (post : α → Prop) : Prop :=
  match x with
  | .error e => allowed e
  | .ok a => post a

namespace Ends

variable {allowed : ε → Prop} {x : Except ε α} {p q : α → Prop}

theorem error_of_eq (h : Ends allowed x p) {e : ε} (hx : x = .error e) : allowed e := by
  subst hx
  exact h

theorem ok_of_eq (h : Ends allowed x p) {a : α} (hx : x = .ok a) : p a := by
  subst hx
  exact h

theorem mono (h : Ends allowed x p) (hpq : ∀ a, x = .ok a → p a → q a) : Ends allowed x q := by
  cases x with
  | error e => exact h
  | ok a => exact hpq a rfl h

theorem weaken {allowed' : ε → Prop} (h : Ends allowed x p) (he : ∀ e, allowed e → allowed' e) :
    Ends allowed' x p := by
  cases x with
  | error e => exact he e h
  | ok a => exact h

/-- **A step after another.** -/
theorem bind {f : α → Except ε β} {r : β → Prop} (h : Ends allowed x p)
    (hf : ∀ a, x = .ok a → p a → Ends allowed (f a) r) : Ends allowed (x >>= f) r := by
  cases x with
  | error e => exact h
  | ok a => exact hf a rfl h

/-- **A branch.** -/
theorem ite {c : Prop} [Decidable c] {y : Except ε α} (ht : c → Ends allowed x p)
    (hf : ¬c → Ends allowed y p) : Ends allowed (if c then x else y) p := by
  by_cases hc : c
  · rw [if_pos hc]
    exact ht hc
  · rw [if_neg hc]
    exact hf hc

/-- **A loop** over a list, whose body yields nothing. -/
theorem forM {l : List α} {f : α → Except ε PUnit}
    (h : ∀ a ∈ l, Ends allowed (f a) fun _ => p a) :
    Ends allowed (forM l f) fun _ => ∀ a ∈ l, p a := by
  induction l with
  | nil => exact fun a ha => absurd ha List.not_mem_nil
  | cons a l ih =>
    rw [List.forM_cons]
    refine (h a List.mem_cons_self).bind fun _ _ ha => ?_
    have hrest := ih fun a ha => h a (List.mem_cons_of_mem _ ha)
    exact hrest.mono fun _ _ hl => List.forall_mem_cons.mpr ⟨ha, hl⟩

end Ends

/-! ## Two runs -/

/-- Both end in the same error, or in results that `R` relates. -/
def Paired {α' : Type v} (R : α → α' → Prop) : Except ε α → Except ε α' → Prop
  | .error e, .error e' => e = e'
  | .ok a, .ok a' => R a a'
  | _, _ => False

namespace Paired

variable {α' β' : Type v} {R : α → α' → Prop} {S : β → β' → Prop} {x : Except ε α}
  {y : Except ε α'}

/-- **A step after another, in both.** -/
theorem bind {f : α → Except ε β} {g : α' → Except ε β'} (h : Paired R x y)
    (hf : ∀ a a', x = .ok a → R a a' → Paired S (f a) (g a')) : Paired S (x >>= f) (y >>= g) := by
  cases x with
  | error e =>
    cases y with
    | error e' => exact h
    | ok a' => exact h.elim
  | ok a =>
    cases y with
    | error e' => exact h.elim
    | ok a' => exact hf a a' rfl h

theorem mono {R' : α → α' → Prop} (h : Paired R x y) (hR : ∀ a a', R a a' → R' a a') :
    Paired R' x y := by
  cases x with
  | error e =>
    cases y with
    | error e' => exact h
    | ok a' => exact h.elim
  | ok a =>
    cases y with
    | error e' => exact h.elim
    | ok a' => exact hR a a' h

/-- The second is the first on a changed result. -/
theorem of_map {g : α → α'} (hg : ∀ a, x = .ok a → R a (g a)) : Paired R x (x.map g) := by
  cases x with
  | error e => rfl
  | ok a => exact hg a rfl

theorem refl {R : α → α → Prop} (hR : ∀ a, x = .ok a → R a a) : Paired R x x := by
  cases x with
  | error e => rfl
  | ok a => exact hR a rfl

end Paired

end MbBootTv
