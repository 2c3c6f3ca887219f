import GraphSelection.Proofs.Completed.Operations
import GraphSelection.Proofs.Settled.Changes
import GraphSelection.Proofs.WellScoped

/-!
Compilation is total. A schema that was built from a definition is closed, so a request fails for
reasons that lie in the request, in a rule or in its depth, and for no others; and once a request
has a plan, the plan has a program. No binding is ever missing and no branches of a composite ever
disagree on their columns.
-/
namespace GraphSelection

open Plan Resolve Program

section Plans

variable {s : Setup} {r : Request} {o : Operation}

/-- The parts of a resolved plan can be written down. -/
theorem writable_of_operation (hclosed : s.schema.Closed) (h : s.operation r = .ok o) :
    o.StartsFree ∧ ∀ part ∈ o.parts, Writable part := by
  have hgrounded : o.Grounded := by
    have hplan := h
    simp only [Setup.operation, except_bind_ok] at hplan
    obtain ⟨target, htarget, _⟩ := hplan
    have hsettles := Setup.settles_operation hclosed (ofSchema_ok htarget)
    rw [h] at hsettles
    exact hsettles
  refine ⟨hgrounded.free, fun part hpart => ⟨?_, hgrounded.parts part hpart⟩⟩
  have hfits := Setup.guards_fits (Setup.operation_guards h part hpart)
  exact hfits.mono fun a ha => ha.1

theorem programOf_ok (hclosed : s.schema.Closed) (h : s.operation r = .ok o) :
    ∃ clauses t, programOf s.terms o {} = .ok (clauses, t) := by
  obtain ⟨hfree, hparts⟩ := writable_of_operation hclosed h
  obtain ⟨clauses, t, hrun, _⟩ := (completes_programOf s.terms hfree hparts).run {}
  exact ⟨clauses, t, hrun⟩

theorem plan_eq_of_operation (h : s.operation r = .ok o) :
    s.plan r = if s.settings.maxDepth < o.depth then .error (.tooDeep o.depth s.settings.maxDepth)
      else .ok o := by
  unfold Setup.plan
  rw [h]
  change (if s.settings.maxDepth < o.depth then _ else _) = _
  split
  · rfl
  · rfl

theorem compile_of_plan (hclosed : s.schema.Closed) (h : s.operation r = .ok o)
    (hdepth : o.depth ≤ s.settings.maxDepth) : ∃ p, compile s r = .ok p := by
  obtain ⟨clauses, t, hprogram⟩ := programOf_ok hclosed h
  have hplan : s.plan r = .ok o := by
    rw [plan_eq_of_operation h, if_neg (by omega)]
  refine ⟨⟨clauses, t.params, resultOf o⟩, ?_⟩
  simp only [compile, except_bind_ok, except_pure_ok]
  exact ⟨o, hplan, (clauses, t), hprogram, rfl⟩

/-- With a plan there is a program, or the plan is too deep. -/
theorem compile_error_of_plan (hclosed : s.schema.Closed) (h : s.operation r = .ok o)
    {f : Failure} (herror : compile s r = .error f) :
    f = .tooDeep o.depth s.settings.maxDepth := by
  by_cases hdepth : o.depth ≤ s.settings.maxDepth
  · obtain ⟨p, hp⟩ := compile_of_plan hclosed h hdepth
    rw [hp] at herror
    cases herror
  · unfold compile at herror
    rw [plan_eq_of_operation h, if_pos (by omega)] at herror
    exact (Except.error.inj herror).symm

theorem compile_error_of_operation {f : Failure} (h : s.operation r = .error f) :
    compile s r = .error f := by
  unfold compile Setup.plan
  rw [h]
  rfl

end Plans

/-- Whatever is asked of a schema that was built from a definition, no internal failure is
reported, an unknown entity only where the request names one that is not declared, and every plan
has a program, which is the answer unless the plan is too deep. -/
theorem compile_total (d : Definition) (schema : Schema) (hbuild : d.build = .ok schema)
    (settings : Settings) (principal : Principal) (r : Request) :
    (∀ f, compile ⟨schema, settings, principal⟩ r = .error f →
      f.isInternal = false ∨ f = .unknownEntity r.entity ∧ d.declares r.entity = false) ∧
    ∀ o, Setup.operation ⟨schema, settings, principal⟩ r = .ok o →
      (∃ clauses t, programOf (Setup.terms ⟨schema, settings, principal⟩) o {} =
        .ok (clauses, t)) ∧
      (o.depth ≤ settings.maxDepth →
        ∃ p, compile ⟨schema, settings, principal⟩ r = .ok p) := by
  have hclosed : schema.Closed := Definition.build_closed hbuild
  constructor
  · intro f herror
    cases htarget : schema.target r.entity with
    | error fault =>
      obtain ⟨hundeclared, rfl⟩ := Definition.build_undeclared hbuild htarget
      have hoperation : Setup.operation ⟨schema, settings, principal⟩ r =
          .error (.unknownEntity r.entity) := by
        simp only [Setup.operation, htarget]
        rfl
      rw [compile_error_of_operation hoperation] at herror
      exact .inr ⟨(Except.error.inj herror).symm, hundeclared⟩
    | ok target =>
      have hsettles := Setup.settles_operation (s := ⟨schema, settings, principal⟩) hclosed htarget
      cases hoperation : Setup.operation ⟨schema, settings, principal⟩ r with
      | error failure =>
        rw [hoperation] at hsettles
        rw [compile_error_of_operation hoperation] at herror
        cases herror
        exact .inl hsettles
      | ok o =>
        have hdeep := compile_error_of_plan (s := ⟨schema, settings, principal⟩) hclosed hoperation
          herror
        exact .inl (hdeep ▸ rfl)
  · intro o ho
    exact ⟨programOf_ok hclosed ho, compile_of_plan hclosed ho⟩

namespace Stage

open Definition

def attributeOf (typeName : String) : AttributeDef :=
  { typeName, list := false, nullable := true, unique := false, storedAs := none
    computation := none, rules := [] }

def workDef : EntityDef :=
  { labels := [], attributes := [("title", attributeOf "String")], relationships := []
    rules := [], pages := none }

/-- The definition of the stage. -/
def definition : Definition :=
  { enums := []
    entities :=
      [("Person",
        { labels := []
          attributes :=
            [("name", attributeOf "String"),
             ("born", { attributeOf "Int" with rules := [signedIn] }),
             ("fame",
               { attributeOf "Int" with
                 computation := some ⟨"RETURN size(this.name) AS fame", "fame"⟩ })]
          relationships :=
            [("works",
              { graphType := "WORKED_ON", direction := .outgoing, target := "Work", list := true
                properties := some "Role", nestedActions := none })]
          rules := [ownNode]
          pages := none }),
       ("Film", workDef), ("Series", workDef)]
    propertySets := [("Role", [("part", attributeOf "String")])]
    interfaces :=
      [("Work",
        { implementations := ["Film", "Series"], attributes := [("title", attributeOf "String")]
          relationships := [] })]
    unions := [] }

theorem definition_build : definition.build = .ok schema := by rfl

end Stage

theorem famous_total : ∃ p, compile Stage.setup Stage.famous = .ok p := by
  have hdepth : (Stage.setup.operation Stage.famous).toOption.any
      (fun o => decide (o.depth ≤ Stage.setup.settings.maxDepth)) = true := by decide +kernel
  cases ho : Stage.setup.operation Stage.famous with
  | error f =>
    rw [ho] at hdepth
    cases hdepth
  | ok o =>
    rw [ho] at hdepth
    have htotal := compile_total Stage.definition Stage.schema Stage.definition_build {} {}
      Stage.famous
    exact (htotal.2 o ho).2 (of_decide_eq_true hdepth)

end GraphSelection
