import GraphSelection.Program.Window
import GraphSelection.Proofs.Partwise
import GraphSelection.Proofs.Runs

/-!
What steps ensure. What a step of building makes is known from what the steps it is made of make. A
part of a predicate is known together with the calls before it: if each call that is already there
is as asked, so is each that is there afterwards.
-/
namespace GraphSelection.Program

open Cypher Plan

section Builds

variable {α β : Type} {p : α → Prop} {q : β → Prop}

/-- Whatever is built is as asked. -/
structure Ensures (p : α → Prop) (x : Build α) : Prop where
  run : ∀ s a t, x s = .ok (a, t) → p a

theorem ensures_pure {a : α} (h : p a) : Ensures p (pure a) := by
  constructor
  intro s b t hrun
  obtain ⟨rfl, _⟩ := (pure_ok a b s t).mp hrun
  exact h

theorem Ensures.bind {x : Build α} {f : α → Build β} (hx : Ensures p x)
    (hf : ∀ a, p a → Ensures q (f a)) : Ensures q (x >>= f) := by
  constructor
  intro s b u hrun
  obtain ⟨a, t, ha, hb⟩ := (bind_ok x f s u b).mp hrun
  exact (hf a (hx.run s a t ha)).run t b u hb

/-- A step of which nothing needs to be known. -/
theorem ensures_skip {f : α → Build β} (x : Build α) (hf : ∀ a, Ensures q (f a)) :
    Ensures q (x >>= f) :=
  Ensures.bind (p := fun _ => True) ⟨fun _ _ _ _ => trivial⟩ fun a _ => hf a

theorem Ensures.mono {x : Build α} {p' : α → Prop} (h : Ensures p x) (himp : ∀ a, p a → p' a) :
    Ensures p' x :=
  ⟨fun s a t hrun => himp a (h.run s a t hrun)⟩

theorem ensures_fail (f : Failure) : Ensures p (fail f) :=
  ⟨fun s a t hrun => ((fail_ok f s t a).mp hrun).elim⟩

theorem ensures_lift {x : Except Failure α} (h : ∀ a, x = .ok a → p a) :
    Ensures p (liftM x : Build α) :=
  ⟨fun s a t hrun => h a ((lift_ok x s t a).mp hrun).1⟩

end Builds

section Params

variable {P : Expr → Prop}

theorem ensures_param (hparam : ∀ x, P (.param x)) (value : Doc) : Ensures P (param value) := by
  constructor
  intro s e t hrun
  obtain ⟨rfl, _⟩ := (param_ok value e s t).mp hrun
  exact hparam _

/-- The bounds of a page, as far as there are any, are as asked. -/
structure Bounds.All (P : Expr → Prop) (b : Bounds) : Prop where
  skip : ∀ e ∈ b.skip, P e
  limit : ∀ e ∈ b.limit, P e

theorem Bounds.all_whole : Bounds.All P {} := ⟨nofun, nofun⟩

theorem ensures_bounds (hparam : ∀ x, P (.param x)) (page : Page) :
    Ensures (Bounds.All P) (bounds page) := by
  have hcount : ∀ n : Option Nat, Ensures (fun r => ∀ e ∈ r, P e) (countParam n) := by
    intro n
    cases n with
    | none => exact ensures_pure nofun
    | some n =>
      refine (ensures_param hparam _).bind fun e he => ensures_pure fun e' he' => ?_
      cases he'
      exact he
  refine (hcount page.skip).bind fun skip hskip => ?_
  exact (hcount page.limit).bind fun limit hlimit => ensures_pure ⟨hskip, hlimit⟩

end Params

section Predicates

variable {α β : Type} {C : Clause → Prop} {p : α → Prop} {q : β → Prop}

/-- A part of a predicate is as asked, and so are the calls before it. -/
structure Judges (C : Clause → Prop) (p : α → Prop) (x : Predicate α) : Prop where
  run : ∀ q : Subqueries, (∀ c ∈ q.calls, C c) →
    Ensures (fun r => p r.1 ∧ ∀ c ∈ r.2.calls, C c) (x q)

theorem judges_pure {a : α} (h : p a) : Judges C p (pure a) :=
  ⟨fun q hq => ensures_pure (a := (a, q)) ⟨h, hq⟩⟩

theorem Judges.bind {x : Predicate α} {f : α → Predicate β} (hx : Judges C p x)
    (hf : ∀ a, p a → Judges C q (f a)) : Judges C q (x >>= f) :=
  ⟨fun s hs => Ensures.bind (f := fun r => f r.1 r.2) (hx.run s hs) fun r hr =>
    (hf r.1 hr.1).run r.2 hr.2⟩

theorem judges_lift {x : Build α} (h : Ensures p x) : Judges C p (liftM x : Predicate α) :=
  ⟨fun q hq => Ensures.bind (f := fun a => pure (a, q)) h fun _ ha => ensures_pure ⟨ha, hq⟩⟩

theorem judges_skip {f : α → Predicate β} (x : Build α) (hf : ∀ a, Judges C q (f a)) :
    Judges C q ((liftM x : Predicate α) >>= f) :=
  (judges_lift (p := fun _ => True) ⟨fun _ _ _ _ => trivial⟩).bind fun a _ => hf a

/-- A call that is not shared yet is added after the others. -/
theorem judges_shared (key : String) {call : String → Build Clause}
    (h : ∀ name, Ensures C (call name)) : Judges C (fun _ => True) (shared key call) := by
  constructor
  intro q hq
  constructor
  intro s r t hrun
  obtain ⟨name, q'⟩ := r
  rcases shared_ok key call name q q' s t hrun with ⟨_, rfl, _⟩ | ⟨clause, _, hcall, rfl⟩
  · exact ⟨trivial, hq⟩
  · have hclause : C clause := (h name).run _ _ _ hcall
    exact ⟨trivial, List.forall_mem_append.mpr ⟨hq, List.forall_mem_singleton.mpr hclause⟩⟩

theorem Judges.gathered {x : Predicate α} (h : Judges C p x) :
    Ensures (fun r => p r.1 ∧ ∀ c ∈ r.2, C c) (gathered x) :=
  (h.run {} nofun).bind fun _ hr => ensures_pure hr

end Predicates

section Conditions

variable {ctx : Context} {C : Clause → Prop} {P : Expr → Prop}

/-- What a relationship asks of its targets and of its edge. -/
theorem judges_parts (hP : Partwise P) {targets : List (Entity × Option Condition)}
    {edgeCondition : Option Condition} (isComposite : Bool)
    (halternatives :
      Judges C (fun es => ∀ e ∈ es, P e) (Condition.alternatives ctx targets))
    (hfirst : Judges C (fun es => ∀ e ∈ es, P e) (Condition.firstTarget ctx targets))
    (hedge : Judges C (fun es => ∀ e ∈ es, P e) (Condition.optionPredicate ctx edgeCondition)) :
    Judges C (fun es => ∀ e ∈ es, P e) (do
      let targetParts ←
        if isComposite then do
          let alternatives ← Condition.alternatives ctx targets
          pure [(Expr.anyOf alternatives).getD (.bool false)]
        else Condition.firstTarget ctx targets
      let edgeParts ← Condition.optionPredicate ctx edgeCondition
      pure (targetParts ++ edgeParts)) := by
  have hparts : ∀ parts : List Expr, (∀ e ∈ parts, P e) →
      Judges C (fun es => ∀ e ∈ es, P e) (do
        let edgeParts ← Condition.optionPredicate ctx edgeCondition
        pure (parts ++ edgeParts)) :=
    fun parts hparts => hedge.bind fun own hown =>
      judges_pure (List.forall_mem_append.mpr ⟨hparts, hown⟩)
  split
  · refine halternatives.bind fun es hes => hparts _ ?_
    exact List.forall_mem_singleton.mpr (hP.getD (hP.anyOf hes) false)
  · exact hfirst.bind fun es hes => hparts es hes

/-- The calls of all validations, and what is left of their predicates as one. -/
theorem ensures_validationParts (hP : Partwise P) {validations : List Condition}
    (h : ∀ c ∈ validations, Judges C P (Condition.predicate ctx c)) :
    Ensures (fun r => (∀ c ∈ r.1, C c) ∧ ∀ e ∈ Expr.allOf r.2, P e)
      (validationParts ctx validations) := by
  have hparts : Ensures (fun r => (∀ c ∈ r.1, C c) ∧ ∀ e ∈ r.2, P e)
      (validationParts ctx validations) := by
    induction validations with
    | nil => exact ensures_pure ⟨nofun, nofun⟩
    | cons c rest ih =>
      rw [List.forall_mem_cons] at h
      refine h.1.gathered.bind fun first hfirst => ?_
      refine (ih h.2).bind fun more hmore => ensures_pure ⟨?_, ?_⟩
      · exact List.forall_mem_append.mpr ⟨hfirst.2, hmore.1⟩
      · exact List.forall_mem_cons.mpr ⟨hfirst.1, hmore.2⟩
  exact hparts.mono fun r hr => ⟨hr.1, hP.allOf hr.2⟩

end Conditions

end GraphSelection.Program
