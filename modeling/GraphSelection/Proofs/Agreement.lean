import GraphSelection.Proofs.Outcomes
import Mathlib.Data.List.Forall2

/-!
Outcomes of two runs. Two outcomes agree when both are the same failure, or both are results and
the results are related. Agreement is kept by every way of putting steps together, with a state
that the two runs share and without one.
-/
namespace GraphSelection

section Steps

variable {ε α β γ δ : Type} {R : α → β → Prop} {S : γ → δ → Prop}

/-- The same failure, or related results. -/
inductive Agree (R : α → β → Prop) : Except ε α → Except ε β → Prop
  | fault (e : ε) : Agree R (.error e) (.error e)
  | ok {a : α} {b : β} (h : R a b) : Agree R (.ok a) (.ok b)

namespace Agree

theorem same (x : Except ε α) : Agree Eq x x := by
  cases x with
  | error e => exact .fault e
  | ok a => exact .ok rfl

theorem throw (e : ε) : Agree R (throw e : Except ε α) (MonadExcept.throw e) := .fault e

theorem mono {R' : α → β → Prop} {x : Except ε α} {y : Except ε β} (h : Agree R x y)
    (himp : ∀ a b, R a b → R' a b) : Agree R' x y := by
  cases h with
  | fault e => exact .fault e
  | ok hr => exact .ok (himp _ _ hr)

/-- Results are told where they come from. -/
theorem told {x : Except ε α} {y : Except ε β} (h : Agree R x y) :
    Agree (fun a b => R a b ∧ x = .ok a) x y := by
  cases h with
  | fault e => exact .fault e
  | ok hr => exact .ok ⟨hr, rfl⟩

theorem bind {x : Except ε α} {y : Except ε β} {f : α → Except ε γ} {f' : β → Except ε δ}
    (hx : Agree R x y) (hf : ∀ a b, R a b → Agree S (f a) (f' b)) :
    Agree S (x >>= f) (y >>= f') := by
  cases hx with
  | fault e => exact .fault e
  | ok hr => exact hf _ _ hr

/-- The first step is the same in both runs. -/
theorem skip (x : Except ε α) {f : α → Except ε γ} {f' : α → Except ε δ}
    (hf : ∀ a, Agree S (f a) (f' a)) : Agree S (x >>= f) (x >>= f') :=
  bind (same x) fun a _ h => h ▸ hf a

/-- The first step is the same, and its result is known where it has one. -/
theorem given (x : Except ε α) {f : α → Except ε γ} {f' : α → Except ε δ}
    (hf : ∀ a, x = .ok a → Agree S (f a) (f' a)) : Agree S (x >>= f) (x >>= f') := by
  cases x with
  | error e => exact .fault e
  | ok a => exact hf a rfl

/-- The first steps have known results. -/
theorem known {a : α} {b : β} {f : α → Except ε γ} {f' : β → Except ε δ}
    (hf : Agree S (f a) (f' b)) : Agree S (Except.ok a >>= f) (Except.ok b >>= f') := hf

theorem map {x : Except ε α} {y : Except ε β} {f : α → γ} {f' : β → δ} (hx : Agree R x y)
    (hf : ∀ a b, R a b → S (f a) (f' b)) : Agree S (x.map f) (y.map f') := by
  cases hx with
  | fault e => exact .fault e
  | ok hr => exact .ok (hf _ _ hr)

theorem mapM {f : α → Except ε γ} {f' : β → Except ε δ} {xs : List α} {ys : List β}
    (h : List.Forall₂ R xs ys) (hf : ∀ a b, R a b → Agree S (f a) (f' b)) :
    Agree (List.Forall₂ S) (xs.mapM f) (ys.mapM f') := by
  induction h with
  | nil => exact .ok .nil
  | cons hr _ ih =>
    rw [List.mapM_cons, List.mapM_cons]
    exact bind (hf _ _ hr) fun c d hcd => bind ih fun cs ds hall => .ok (.cons hcd hall)

theorem foldlM {f : γ → α → Except ε γ} {f' : δ → β → Except ε δ} {xs : List α} {ys : List β}
    (h : List.Forall₂ R xs ys)
    (hf : ∀ c d a b, S c d → R a b → Agree S (f c a) (f' d b)) {c : γ} {d : δ} (hcd : S c d) :
    Agree S (xs.foldlM f c) (ys.foldlM f' d) := by
  induction h generalizing c d with
  | nil => exact .ok hcd
  | cons hr _ ih =>
    rw [List.foldlM_cons, List.foldlM_cons]
    exact bind (hf _ _ _ _ hcd hr) fun c d hcd => ih hcd

/-- Lists of results that are gathered into one list. -/
theorem flatten {x : Except ε (List (List α))} {y : Except ε (List (List β))}
    (h : Agree (List.Forall₂ (List.Forall₂ R)) x y) :
    Agree (List.Forall₂ R) (do let found ← x; return found.flatten)
      (do let found ← y; return found.flatten) :=
  bind h fun _ _ hfound => .ok (List.rel_flatten hfound)

end Agree

end Steps

section State

variable {ε σ α β γ δ : Type} {R : α → β → Prop} {S : γ → δ → Prop}

/-- Runs from one state agree, and end in one state. -/
def AgreeIn (R : α → β → Prop) (x : StateT σ (Except ε) α) (y : StateT σ (Except ε) β) : Prop :=
  ∀ s, Agree (fun p q => R p.1 q.1 ∧ p.2 = q.2) (x s) (y s)

namespace AgreeIn

theorem pure {a : α} {b : β} (h : R a b) :
    AgreeIn R (pure a : StateT σ (Except ε) α) (Pure.pure b) :=
  fun _ => .ok ⟨h, rfl⟩

theorem bind {x : StateT σ (Except ε) α} {y : StateT σ (Except ε) β}
    {f : α → StateT σ (Except ε) γ} {f' : β → StateT σ (Except ε) δ}
    (hx : AgreeIn R x y) (hf : ∀ a b, R a b → AgreeIn S (f a) (f' b)) :
    AgreeIn S (x >>= f) (y >>= f') := by
  intro s
  refine Agree.bind (hx s) fun p q hpq => ?_
  obtain ⟨a, t⟩ := p
  obtain ⟨b, t'⟩ := q
  obtain ⟨hr, rfl⟩ := hpq
  exact hf a b hr t

theorem skip (x : StateT σ (Except ε) α) {f : α → StateT σ (Except ε) γ}
    {f' : α → StateT σ (Except ε) δ} (hf : ∀ a, AgreeIn S (f a) (f' a)) :
    AgreeIn S (x >>= f) (x >>= f') := by
  intro s
  refine Agree.bind (Agree.same (x s)) fun p q hpq => ?_
  subst hpq
  exact hf p.1 p.2

theorem lift {x : Except ε α} {y : Except ε β} (h : Agree R x y) :
    AgreeIn R (liftM x : StateT σ (Except ε) α) (liftM y : StateT σ (Except ε) β) := by
  intro s
  cases h with
  | fault e => exact .fault e
  | ok hr => exact .ok ⟨hr, rfl⟩

theorem known {a : α} {b : β} {f : α → StateT σ (Except ε) γ} {f' : β → StateT σ (Except ε) δ}
    (hf : AgreeIn S (f a) (f' b)) :
    AgreeIn S ((liftM (Except.ok a : Except ε α) : StateT σ (Except ε) α) >>= f)
      ((liftM (Except.ok b : Except ε β) : StateT σ (Except ε) β) >>= f') := hf

theorem throw (e : ε) :
    AgreeIn R (throw e : StateT σ (Except ε) α) (MonadExcept.throw e) :=
  fun _ => .fault e

end AgreeIn

end State

end GraphSelection
