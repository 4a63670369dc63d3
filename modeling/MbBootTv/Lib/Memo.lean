/-!
# A cache with one entry

A slow partial function `fetch` behind a cache that keeps its last result. Whatever relation
between keys and values holds of everything that `fetch` returns, a load keeps true of the cache,
even if `fetch` fails from time to time. A reserved key marks the cache as empty; the cache is
coherent with a table `truth` when it is empty or holds what the table says for its key.
-/

namespace MbBootTv

universe u v

/-- The cached key and its value. -/
structure Memo (κ : Type u) (V : Type v) where
  key : κ
  val : V

namespace Memo

variable {κ : Type u} {V : Type v} [DecidableEq κ]

/-- Make the cache hold `k`; false when `fetch` fails. -/
def load (fetch : κ → Option V) (c : Memo κ V) (k : κ) : Bool × Memo κ V :=
  if c.key = k then (true, c)
  else
    match fetch k with
    | none => (false, c)
    | some v => (true, ⟨k, v⟩)

/-- `R` relates the key to the value. -/
def Holds (R : κ → V → Prop) (c : Memo κ V) : Prop := R c.key c.val

/-- What `truth` says, and anything of the key that marks the cache as empty. -/
def Known (empty : κ) (truth : κ → Option V) (k : κ) (v : V) : Prop := k = empty ∨ truth k = some v

/-- The cache is empty, or holds what `truth` says. -/
abbrev Coherent (empty : κ) (truth : κ → Option V) (c : Memo κ V) : Prop :=
  c.Holds (Known empty truth)

variable {empty : κ} {fetch truth : κ → Option V} {c : Memo κ V} {k : κ} {R : κ → V → Prop}

theorem load_holds (h : c.Holds R) (hfetch : ∀ v, fetch k = some v → R k v) :
    (c.load fetch k).2.Holds R := by
  unfold load
  by_cases hk : c.key = k
  · rw [if_pos hk]
    exact h
  · rw [if_neg hk]
    cases hf : fetch k with
    | none => exact h
    | some v => exact hfetch v hf

theorem load_key (hok : (c.load fetch k).1 = true) : (c.load fetch k).2.key = k := by
  unfold load at hok ⊢
  by_cases hk : c.key = k
  · rw [if_pos hk]
    exact hk
  · rw [if_neg hk] at hok ⊢
    cases hf : fetch k with
    | none =>
      rw [hf] at hok
      exact absurd hok Bool.false_ne_true
    | some v => rfl

/-- A load that succeeds leaves a value that `k` can have. -/
theorem load_rel (h : c.Holds R) (hfetch : ∀ v, fetch k = some v → R k v)
    (hok : (c.load fetch k).1 = true) : R k (c.load fetch k).2.val := by
  have hholds := load_holds h hfetch
  unfold Holds at hholds
  rwa [load_key hok] at hholds

/-- A load that succeeds leaves the value of `k`. -/
theorem load_val (h : c.Coherent empty truth) (hempty : k ≠ empty)
    (hfetch : ∀ v, fetch k = some v → truth k = some v) (hok : (c.load fetch k).1 = true) :
    truth k = some (c.load fetch k).2.val :=
  (load_rel h (fun v hv => Or.inr (hfetch v hv)) hok).resolve_left hempty

theorem fetch_of_load_false (hok : (c.load fetch k).1 = false) : fetch k = none := by
  unfold load at hok
  by_cases hk : c.key = k
  · rw [if_pos hk] at hok
    exact absurd hok.symm Bool.false_ne_true
  · rw [if_neg hk] at hok
    cases hf : fetch k with
    | none => rfl
    | some v =>
      rw [hf] at hok
      exact absurd hok.symm Bool.false_ne_true

end Memo

end MbBootTv
