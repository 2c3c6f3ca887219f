import GraphSelection.Proofs.Alike.Programs
import GraphSelection.Proofs.AskedBy.Outlines

/-!
Programs do not depend on who asks. For another principal a plan has other values of claims and
nothing else is new, and such plans are written alike. So two principals get the same failure, or
the same clauses with the same parameters, which differ in their values at most.
-/
namespace GraphSelection

open Plan Program Resolve

/-- A program without the values of its parameters. -/
def Compiled.frame (c : Compiled) : List Cypher.Clause × Option String × List String :=
  (c.clauses, c.result, c.params.keys)

theorem resultOf_askedBy (p : Principal) (o : Operation) : resultOf (o.askedBy p) = resultOf o := by
  cases o <;> rfl

theorem alike_programOf (p : Principal) (s : Setup) (o : Operation) :
    Alike (programOf (s.askedBy p).terms (o.askedBy p)) (programOf s.terms o) :=
  .bind (.fresh "this") fun subject =>
    alike_operationClauses (.root s.terms subject responseColumn) o

/-- The frame of a program is read off what its run shows. -/
theorem frame_shown (outcome : Except Failure (List Cypher.Clause × Supply))
    (result : Option String) :
    (do
      let (clauses, supply) ← outcome
      return { clauses, params := supply.params, result } : Except Failure Compiled).map
        Compiled.frame =
      (shown outcome).map fun seen => (seen.1, result, seen.2.2) := by
  cases outcome <;> rfl

theorem compile_frame (p : Principal) (s : Setup) (r : Request) :
    (compile (s.askedBy p) r).map Compiled.frame = (compile s r).map Compiled.frame := by
  unfold compile
  rw [Setup.plan_askedBy]
  cases s.plan r with
  | error f => rfl
  | ok o =>
    have hshown : shown ((programOf (s.askedBy p).terms (o.askedBy p)).run {}) =
        shown ((programOf s.terms o).run {}) := alike_programOf p s o {} {} rfl
    calc
      _ = (shown ((programOf (s.askedBy p).terms (o.askedBy p)).run {})).map fun seen =>
            (seen.1, resultOf (o.askedBy p), seen.2.2) := frame_shown ..
      _ = (shown ((programOf s.terms o).run {})).map fun seen =>
            (seen.1, resultOf o, seen.2.2) := by rw [hshown, resultOf_askedBy]
      _ = _ := (frame_shown ..).symm

/-- Two principals get the same failure, or programs that differ in the values of parameters at
most. -/
theorem compile_independent (schema : Schema) (settings : Settings) (p q : Principal)
    (r : Request) :
    (∃ f, compile ⟨schema, settings, p⟩ r = .error f ∧ compile ⟨schema, settings, q⟩ r = .error f) ∨
      ∃ c d, compile ⟨schema, settings, p⟩ r = .ok c ∧ compile ⟨schema, settings, q⟩ r = .ok d ∧
        c.clauses = d.clauses ∧ c.result = d.result ∧ c.params.keys = d.params.keys := by
  have hframe := compile_frame p ⟨schema, settings, q⟩ r
  change (compile ⟨schema, settings, p⟩ r).map _ = _ at hframe
  cases hp : compile ⟨schema, settings, p⟩ r with
  | error f =>
    cases hq : compile ⟨schema, settings, q⟩ r with
    | error g =>
      rw [hp, hq] at hframe
      cases hframe
      exact .inl ⟨f, rfl, rfl⟩
    | ok d =>
      rw [hp, hq] at hframe
      cases hframe
  | ok c =>
    cases hq : compile ⟨schema, settings, q⟩ r with
    | error g =>
      rw [hp, hq] at hframe
      cases hframe
    | ok d =>
      rw [hp, hq] at hframe
      obtain ⟨hclauses, hrest⟩ := Prod.mk.inj (Except.ok.inj hframe)
      obtain ⟨hresult, hkeys⟩ := Prod.mk.inj hrest
      exact .inr ⟨c, d, rfl, rfl, hclauses, hresult, hkeys⟩

end GraphSelection
