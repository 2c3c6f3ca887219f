import GraphSelection.Proofs.Resolved.Changes
import GraphSelection.Proofs.Scoped.Changes

/-!
Programs are well scoped. A plan that is resolved from a request speaks of edges only where there
are some and of the computed attributes of the schema only, so each of its parts fits into its
place, and the clauses of a plan whose parts fit refer to known names only.
-/
namespace GraphSelection.Stage

/-- Only the principal's own node is seen. -/
def ownNode : Rule :=
  { kind := .filter
    actions := Action.all
    moments := Moment.all
    needsAuthentication := true
    node := some (.record [("name", .text "$jwt.sub")])
    claims := none }

/-- Only a principal that is signed in may look. -/
def signedIn : Rule :=
  { kind := .validate
    actions := [.read, .aggregate]
    moments := Moment.all
    needsAuthentication := true
    node := none
    claims := none }

def title : Attribute := { name := "title", kind := .string }

def born : Attribute := { name := "born", kind := .int, rules := [signedIn] }

def works : Relationship :=
  { name := "works"
    graphType := "WORKED_ON"
    direction := .outgoing
    target := "Work"
    isList := true
    properties := some "Role"
    nestedActions := NestedAction.all }

/-- A person has a computed attribute and a guarded one. -/
def person : Entity :=
  { name := "Person"
    labels := ["Person"]
    attributes :=
      [("name", { name := "name", kind := .string }),
       ("born", born),
       ("fame",
         { name := "fame"
           kind := .int
           computation := some ⟨"RETURN size(this.name) AS fame", "fame"⟩ })]
    relationships := [("works", works)]
    rules := [ownNode]
    pages := none }

def work (name : String) : Entity :=
  { name
    labels := [name]
    attributes := [("title", title)]
    relationships := []
    rules := []
    pages := none }

/-- Persons, and the films and series that they worked on. -/
def schema : Schema :=
  { entities := [("Person", person), ("Film", work "Film"), ("Series", work "Series")]
    composites :=
      [("Work",
        { name := "Work"
          kind := .interface
          constituents := ["Film", "Series"]
          sharedAttributes := [("title", title)]
          relationships := [] })]
    propertySets :=
      [("Role",
        { name := "Role"
          attributes := [("part", { name := "part", kind := .string })] })] }

/-- Famous persons with a work of a title, and all their works. -/
def famous : Request :=
  { operation := .read
    entity := "Person"
    args :=
      [("where", .record
        [("fame_GT", .int 3), ("works_SOME", .record [("title", .text "Emma")])])]
    selection := [.leaf "born", .leaf "fame", (Selection.leaf "works").select [.leaf "title"]] }

/-- Nobody is signed in. -/
def setup : Resolve.Setup := ⟨schema, {}, {}⟩

end GraphSelection.Stage

namespace GraphSelection.Scoping

open Cypher Plan Resolve Minting

theorem plan_ok {s : Setup} {r : Request} {o : Operation} (h : s.plan r = .ok o) :
    s.operation r = .ok o := by
  simp only [Setup.plan, except_bind_ok] at h
  obtain ⟨o', ho, h⟩ := h
  split at h
  · simp only [except_bind_ok, except_throw_ok, false_and, exists_false] at h
  · simp only [except_pure_ok] at h
    exact h ▸ ho

theorem compile_ok {s : Setup} {r : Request} {p : Compiled} (h : compile s r = .ok p) :
    ∃ o t, s.plan r = .ok o ∧ programOf s.terms o {} = .ok (p.clauses, t) ∧
      p.params = t.params ∧ p.result = resultOf o := by
  simp only [compile, except_bind_ok, except_pure_ok] at h
  obtain ⟨o, hplan, ⟨clauses, t⟩, hprogram, rfl⟩ := h
  exact ⟨o, t, hplan, hprogram, rfl, rfl⟩

/-- Whatever is compiled, every name that the program refers to is known where it does, and no
call returns a name that is known around it. The statements of the schema are taken at their word:
each returns its declared column, which is no minted name. -/
theorem compile_wellScoped (returns : String → Names) (s : Setup) (r : Request) (p : Compiled)
    (hhonest : ∀ a, Computes s.schema a → Honest returns a)
    (hkeeps : ∀ o, s.plan r = .ok o → ∀ part ∈ o.parts, part.KeepsBranch)
    (h : compile s r = .ok p) : Answers returns p.clauses p.result := by
  obtain ⟨o, t, hplan, hprogram, _, hresult⟩ := compile_ok h
  have hsound : ∀ part ∈ o.parts, Sound returns part := by
    intro part hpart
    have hfits := Setup.guards_fits (Setup.operation_guards (plan_ok hplan) part hpart)
    exact ⟨hfits.mono hhonest, hkeeps o hplan part hpart⟩
  rw [hresult]
  exact answers_programOf hsound hprogram

theorem stage_honest (a : Attribute) (h : Computes Stage.schema a) :
    Honest (fun _ => ["fame"]) a := by
  obtain ⟨hcomputed, e, he, ha⟩ := h
  simp only [Stage.schema, Entries.values, List.map_cons, List.map_nil, List.mem_cons,
    List.not_mem_nil, or_false] at he
  have hlast : "fame".toList = ['f', 'a', 'm'] ++ ['e'] := by decide
  have hfame : ∀ n, ¬ Minted n "fame" := not_minted hlast (by decide)
  rcases he with rfl | rfl | rfl
  · simp only [Stage.person, Entries.values, List.map_cons, List.map_nil, List.mem_cons,
      List.not_mem_nil, or_false] at ha
    rcases ha with rfl | rfl | rfl
    · simp [Attribute.isComputed] at hcomputed
    · simp [Attribute.isComputed, Stage.born] at hcomputed
    · intro c hc
      cases hc
      exact ⟨rfl, hfame⟩
  all_goals
    simp only [Stage.work, Entries.values, List.map_cons, List.map_nil, List.mem_singleton] at ha
    subst ha
    simp [Attribute.isComputed, Stage.title] at hcomputed

theorem famous_keeps (o : Operation) (h : Stage.setup.plan Stage.famous = .ok o) :
    ∀ part ∈ o.parts, part.KeepsBranch := by
  have hall : (Stage.setup.plan Stage.famous).toOption.all
      (fun o => decide (∀ part ∈ o.parts, part.KeepsBranch)) = true := by
    decide +kernel
  rw [h] at hall
  exact of_decide_eq_true hall

theorem famous_wellScoped :
    ∃ p, compile Stage.setup Stage.famous = .ok p ∧
      Answers (fun _ => ["fame"]) p.clauses p.result := by
  obtain ⟨p, h⟩ : ∃ p, compile Stage.setup Stage.famous = .ok p :=
    exists_of_isOk (by decide +kernel)
  exact ⟨p, h, compile_wellScoped _ Stage.setup Stage.famous p stage_honest famous_keeps h⟩

end GraphSelection.Scoping
