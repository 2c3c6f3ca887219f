import GraphSelection.Proofs.Emitted
import GraphSelection.Proofs.Resolved.Entries
import GraphSelection.Proofs.Timed
import GraphSelection.Proofs.Validated

/-!
What a change gives back. A creation and an update show fields of the nodes that they change, after
all that is validated for these nodes. That is what the rules for the change ask: the rules for
reading do not guard what is shown, though they guard whatever is read inside of it.
-/
namespace GraphSelection.Program

open Cypher Plan

/-- The answer has the node of the context with the fields. -/
def GivesBack (ctx : Context) (fields : List Field) (answer : Expr) : Prop :=
  ∃ calls items s t, Field.items ctx fields s = .ok ((calls, items), t) ∧
    (answer = .apply "collect" [.distinct (.projection ctx.subject items)] ∨
      ∃ es, answer = .list es ∧ .projection ctx.subject items ∈ es)

/-- The last clause answers with a node, and each list of conditions is asserted of that node before
it. -/
def AnsweredAfter (checks : List (List Condition)) (fields : List Field)
    (clauses : List Clause) : Prop :=
  ∃ ctx before answer result, clauses = before ++ [.give answer result] ∧
    GivesBack ctx fields answer ∧
    ∀ conditions ∈ checks, ∃ block, Asserts ctx conditions block ∧ Holds block before

section Answers

variable {ctx : Context} {s t : Supply}

theorem updateClauses_answered {u : Update} {clauses : List Clause}
    (h : updateClauses ctx u s = .ok (clauses, t)) :
    AnsweredAfter [u.before, u.after] u.fields clauses := by
  simp only [updateClauses, bind_ok, pure_ok] at h
  obtain ⟨found, _, _, first, _, hfirst, own, _, _, written, _, hwritten, last, _, hlast,
    ⟨calls, items⟩, _, hshown, rfl, rfl⟩ := h
  refine ⟨ctx, _, _, _, rfl, ⟨calls, items, _, _, hshown, .inl rfl⟩, ?_⟩
  intro conditions hconditions
  rcases List.mem_cons.mp hconditions with rfl | hconditions
  · have hbefore : Holds first (found ++ first ++ own) := .here found own
    have hkept : Holds first written := (emits_after u.nested hwritten).2 first hbefore
    exact ⟨first, asserts_validated hfirst, (hkept.andThen_left last).andThen_left calls⟩
  · obtain rfl := List.mem_singleton.mp hconditions
    have hafter : Holds last (andThen written last) := (holds_self last).andThen_right written
    exact ⟨last, asserts_validated hlast, hafter.andThen_left calls⟩

theorem newNode_checks {e : Entity} {n : NewNode Mutation} {body : List Clause}
    (h : newNode ctx e n s = .ok (body, t)) :
    ∃ block, Asserts ctx n.validations block ∧ Holds block body := by
  simp only [newNode, bind_ok, pure_ok] at h
  obtain ⟨own, _, _, written, _, _, checks, _, hchecks, rfl, rfl⟩ := h
  exact ⟨checks, asserts_validated hchecks, (holds_self checks).andThen_right written⟩

/-- Every new node has a context, in which its conditions are asserted. -/
theorem newNodes_checks {e : Entity} {nodes : List (NewNode Mutation)} {isFirst : Bool}
    {calls : List Clause} {contexts : List Context}
    (h : newNodes ctx e isFirst nodes s = .ok ((calls, contexts), t)) :
    ∀ n ∈ nodes, ∃ own ∈ contexts, ∃ block,
      Asserts own n.validations block ∧ Holds block calls := by
  induction nodes generalizing isFirst calls contexts s t with
  | nil =>
    intro n hn
    exact absurd hn List.not_mem_nil
  | cons first rest ih =>
    simp only [newNodes, bind_ok, pure_ok, Prod.mk.injEq] at h
    obtain ⟨own, _, _, body, _, hbody, ⟨more, others⟩, _, hrest, ⟨rfl, rfl⟩, _⟩ := h
    intro n hn
    rcases List.mem_cons.mp hn with rfl | hn
    · obtain ⟨block, hasserts, hholds⟩ := newNode_checks hbody
      exact ⟨own, List.mem_cons_self, block, hasserts, ((hholds.left _).inCall []).left more⟩
    · obtain ⟨other, hother, block, hasserts, hholds⟩ := ih hrest n hn
      exact ⟨other, List.mem_cons_of_mem _ hother, block, hasserts, hholds.cons _⟩

theorem projections_all {fields : List Field} {contexts : List Context} {calls : List Clause}
    {es : List Expr} (h : projections fields contexts s = .ok ((calls, es), t)) :
    ∀ own ∈ contexts, GivesBack own fields (.list es) := by
  induction contexts generalizing calls es s t with
  | nil =>
    intro own hown
    exact absurd hown List.not_mem_nil
  | cons first rest ih =>
    simp only [projections, bind_ok, pure_ok, Prod.mk.injEq] at h
    obtain ⟨⟨own, items⟩, _, hitems, ⟨more, others⟩, _, hrest, ⟨rfl, rfl⟩, _⟩ := h
    intro ctx hctx
    rcases List.mem_cons.mp hctx with rfl | hctx
    · exact ⟨own, items, _, _, hitems, .inr ⟨_, rfl, List.mem_cons_self⟩⟩
    · obtain ⟨calls, items, u, v, hrun, heq | ⟨es, heq, hmem⟩⟩ := ih hrest ctx hctx
      · cases heq
      · cases heq
        exact ⟨calls, items, u, v, hrun, .inr ⟨_, rfl, List.mem_cons_of_mem _ hmem⟩⟩

theorem createClauses_answered {c : Create} {clauses : List Clause}
    (h : createClauses ctx c s = .ok (clauses, t)) :
    ∀ n ∈ c.nodes, AnsweredAfter [n.validations] c.fields clauses := by
  simp only [createClauses, bind_ok, pure_ok] at h
  obtain ⟨⟨calls, contexts⟩, _, hnodes, ⟨more, es⟩, _, hshown, rfl, rfl⟩ := h
  intro n hn
  obtain ⟨own, hown, block, hasserts, hholds⟩ := newNodes_checks hnodes n hn
  refine ⟨own, _, _, _, rfl, projections_all hshown own hown, ?_⟩
  intro conditions hconditions
  obtain rfl := List.mem_singleton.mp hconditions
  exact ⟨block, hasserts, hholds.left more⟩

end Answers

end GraphSelection.Program

namespace GraphSelection.Resolve

open GraphSelection Plan Program

/-- A node that a change gives back: what was written to it, what is validated at which moment and
what is shown of it. -/
structure Returned where
  entity : Entity
  action : Action
  written : List Attribute
  checks : List (Moment × List Condition)
  fields : List Field

namespace Returned

/-- The condition is validated for the node. -/
def Checks (x : Returned) (c : Condition) : Prop := ∃ check ∈ x.checks, c ∈ check.2

/-- A rule for the change itself asks for the condition, of the entity or of what is written, at a
moment at which the node is validated. -/
def AskedToChange (s : Setup) (x : Returned) (c : Condition) : Prop :=
  ∃ check ∈ x.checks, ∃ d ∈ declaredRules x.entity x.written,
    d.rule.appliesAt x.action check.1 = true ∧ ruleCondition s x.entity d = .ok (some c)

/-- What each validation rule for reading the attribute asks is such a condition. -/
def AsksToRead (s : Setup) (x : Returned) (a : Attribute) (holds : Condition → Prop) : Prop :=
  ∀ d ∈ declaredAt (childPath x.entity.name a.name) a.rules, d.rule.kind = .validate →
    d.rule.appliesTo .read = true →
    ∃ asked, ruleCondition s x.entity d = .ok asked ∧ ∀ c ∈ asked, holds c

end Returned

/-- The nodes that an operation changes and gives back. New nodes are validated once they are
written, updated ones before it as well. -/
def returnedBy : Operation → List Returned
  | .create c => c.nodes.map fun n =>
      ⟨c.entity, .create, writtenBy n.assignments, [(.after, n.validations)], c.fields⟩
  | .update u =>
      [⟨u.entity, .update, writtenBy u.assignments, [(.before, u.before), (.after, u.after)],
        u.fields⟩]
  | .lookup _ | .aggregate _ | .delete _ => []

section Plans

variable {s : Setup} {r : Request} {o : Operation} {x : Returned}

/-- The nodes are validated by the rules for the change, at each moment by those that name it. -/
theorem returned_guards (ho : s.operation r = .ok o) (hx : x ∈ returnedBy o) :
    ∀ check ∈ x.checks,
      guardValidations s x.entity x.written x.action check.1 = .ok check.2 := by
  have hguards := Setup.operation_guards ho
  cases o with
  | create c =>
    obtain ⟨n, hn, rfl⟩ := List.mem_map.mp hx
    have hpart : Part.newNode c.entity n ∈ (Operation.create c).parts :=
      List.mem_append_left _ (List.mem_flatMap.mpr ⟨n, hn, List.mem_cons_self⟩)
    obtain ⟨_, hvalidations⟩ := hguards _ hpart
    simpa using hvalidations
  | update u =>
    obtain rfl := List.mem_singleton.mp hx
    obtain ⟨_, _, hbefore, hafter⟩ := hguards (.update u) List.mem_cons_self
    simpa using ⟨hbefore, hafter⟩
  | lookup l => exact absurd hx List.not_mem_nil
  | aggregate a => exact absurd hx List.not_mem_nil
  | delete d => exact absurd hx List.not_mem_nil

/-- What is validated for a node is what the rules for its change ask, and nothing else. -/
theorem returned_checks (ho : s.operation r = .ok o) (hx : x ∈ returnedBy o) (c : Condition) :
    x.Checks c ↔ x.AskedToChange s c := by
  have hguards := returned_guards ho hx
  constructor
  · rintro ⟨check, hcheck, hc⟩
    exact ⟨check, hcheck, (mem_ruleConditions (hguards check hcheck) c).mp hc⟩
  · rintro ⟨check, hcheck, hasked⟩
    exact ⟨check, hcheck, (mem_ruleConditions (hguards check hcheck) c).mpr hasked⟩

/-- What is shown is what the request selects of the entity. -/
theorem returned_fields (ho : s.operation r = .ok o) (hx : x ∈ returnedBy o) :
    s.returnedFields x.entity ⟨r.args, r.selection, r.on⟩ r.entity = .ok x.fields := by
  simp only [Setup.operation, except_bind_ok] at ho
  obtain ⟨target, _, ho⟩ := ho
  cases target with
  | entity e =>
    simp only [Setup.entityOperation] at ho
    split at ho
    · obtain ⟨l, _, rfl⟩ := (except_map_ok ..).mp ho
      exact absurd hx List.not_mem_nil
    · obtain ⟨l, _, rfl⟩ := (except_map_ok ..).mp ho
      exact absurd hx List.not_mem_nil
    · obtain ⟨a, _, rfl⟩ := (except_map_ok ..).mp ho
      exact absurd hx List.not_mem_nil
    · obtain ⟨c, hc, rfl⟩ := (except_map_ok ..).mp ho
      obtain ⟨n, _, rfl⟩ := List.mem_map.mp hx
      obtain ⟨rfl, hfields⟩ := Setup.create_fields hc
      exact hfields
    · obtain ⟨u, hu, rfl⟩ := (except_map_ok ..).mp ho
      obtain rfl := List.mem_singleton.mp hx
      obtain ⟨rfl, hfields⟩ := Setup.update_fields hu
      exact hfields
    · obtain ⟨d, _, rfl⟩ := (except_map_ok ..).mp ho
      exact absurd hx List.not_mem_nil
  | composite c =>
    simp only [Setup.compositeOperation] at ho
    split at ho
    · obtain ⟨l, _, rfl⟩ := (except_map_ok ..).mp ho
      exact absurd hx List.not_mem_nil
    · obtain ⟨l, _, rfl⟩ := (except_map_ok ..).mp ho
      exact absurd hx List.not_mem_nil
    · cases ho
    · cases ho
    · cases ho
    · cases ho

theorem returned_parts (hx : x ∈ returnedBy o) : Field.partsOf x.fields ⊆ o.parts := by
  intro p hp
  cases o with
  | create c =>
    obtain ⟨n, _, rfl⟩ := List.mem_map.mp hx
    exact List.mem_append_right _ hp
  | update u =>
    obtain rfl := List.mem_singleton.mp hx
    exact List.mem_append_right _ hp
  | lookup l => exact absurd hx List.not_mem_nil
  | aggregate a => exact absurd hx List.not_mem_nil
  | delete d => exact absurd hx List.not_mem_nil

theorem returned_answered {terms : Terms} {clauses : List Cypher.Clause} {t : Supply}
    (h : programOf terms o {} = .ok (clauses, t)) (hx : x ∈ returnedBy o) :
    AnsweredAfter (x.checks.map Prod.snd) x.fields clauses := by
  simp only [programOf, bind_ok, fresh_ok] at h
  obtain ⟨subject, _, ⟨rfl, rfl⟩, h⟩ := h
  cases o with
  | create c =>
    obtain ⟨n, hn, rfl⟩ := List.mem_map.mp hx
    exact createClauses_answered h n hn
  | update u =>
    obtain rfl := List.mem_singleton.mp hx
    exact updateClauses_answered h
  | lookup l => exact absurd hx List.not_mem_nil
  | aggregate a => exact absurd hx List.not_mem_nil
  | delete d => exact absurd hx List.not_mem_nil

end Plans

end GraphSelection.Resolve

namespace GraphSelection.Stage

/-- A person is renamed, and the year of birth is given back. -/
def renamedShown : Request :=
  { operation := .update
    entity := "Person"
    args := [("update", .record [("name", .text "Ann")])]
    selection := [.leaf "born"] }

/-- Nothing is validated between the change and the answer. -/
def renamedShownText : String :=
  "MATCH (this0:Person)\n" ++
    "WHERE ($param1 = true AND $param2 IS NOT NULL AND this0.name = $param2)\n" ++
    "SET this0.name = $param3\n" ++
    "RETURN collect(DISTINCT this0 \x7b .born \x7d) AS this"

end GraphSelection.Stage

namespace GraphSelection

open Plan Program Resolve

/-- A creation or an update gives back what the request selects of the nodes that it changes, once
all is asserted that is validated for these nodes. What a rule for reading asks of a selected
attribute is asserted exactly when the rules for the change itself ask for it. The nodes that are
read inside the answer are validated by the rules for reading. -/
theorem changes_answered (s : Setup) (r : Request) (p : Compiled) (h : compile s r = .ok p) :
    ∃ o, s.plan r = .ok o ∧ ∀ x ∈ returnedBy o,
      s.returnedFields x.entity ⟨r.args, r.selection, r.on⟩ r.entity = .ok x.fields ∧
      AnsweredAfter (x.checks.map Prod.snd) x.fields p.clauses ∧
      (∀ a ∈ Field.attributes x.fields,
        x.AsksToRead s a x.Checks ↔ x.AsksToRead s a (x.AskedToChange s)) ∧
      ∀ part ∈ Field.partsOf x.fields, ∀ reading ∈ projected part,
        ∀ a ∈ reading.attributes, Validated s .read reading.scope a := by
  obtain ⟨o, t, hplan, hprogram, _, _⟩ := Scoping.compile_ok h
  have ho := Scoping.plan_ok hplan
  refine ⟨o, hplan, fun x hx => ⟨returned_fields ho hx, returned_answered hprogram hx, ?_, ?_⟩⟩
  · intro a _
    simp only [Returned.AsksToRead, returned_checks ho hx]
  · intro part hpart reading hreading
    have hguards := Setup.operation_guards ho part (returned_parts hx hpart)
    obtain ⟨edges, hguarded⟩ := projected_guarded hguards reading hreading
    exact hguarded.validated rfl

theorem renamedShown_compile :
    ∃ p, compile Stage.setup Stage.renamedShown = .ok p ∧ p.text = Stage.renamedShownText := by
  have hsome : (compile Stage.setup Stage.renamedShown).toOption.any
      (fun p => decide (p.text = Stage.renamedShownText)) = true := by
    decide +kernel
  obtain ⟨p, h, htext⟩ := exists_of_any hsome
  exact ⟨p, h, of_decide_eq_true htext⟩

theorem renamedShown_operation :
    ∃ x, (∀ o, Stage.setup.operation Stage.renamedShown = .ok o → x ∈ returnedBy o) ∧
      x.entity = Stage.person ∧ x.checks = [(.before, []), (.after, [])] ∧
      Stage.born ∈ Field.attributes x.fields := by
  obtain ⟨u, ho, hentity, hbefore, hafter, hborn⟩ :
      ∃ u, Stage.setup.operation Stage.renamedShown = .ok (.update u) ∧
        u.entity = Stage.person ∧ u.before = [] ∧ u.after = [] ∧
        Stage.born ∈ Field.attributes u.fields :=
    ⟨_, rfl, rfl, rfl, rfl, List.mem_cons_self⟩
  refine ⟨⟨u.entity, .update, writtenBy u.assignments, [(.before, u.before), (.after, u.after)],
    u.fields⟩, ?_, hentity, ?_, hborn⟩
  · intro o ho'
    rw [ho] at ho'
    cases ho'
    exact List.mem_cons_self
  · rw [hbefore, hafter]

/-- The year of birth is given back once the name is written. -/
theorem renamedShown_answered :
    ∃ p o x, compile Stage.setup Stage.renamedShown = .ok p ∧
      Stage.setup.plan Stage.renamedShown = .ok o ∧ x ∈ returnedBy o ∧
      Stage.born ∈ Field.attributes x.fields ∧ AnsweredAfter [[], []] x.fields p.clauses ∧
      (x.AsksToRead Stage.setup Stage.born x.Checks ↔
        x.AsksToRead Stage.setup Stage.born (x.AskedToChange Stage.setup)) := by
  obtain ⟨p, h, _⟩ := renamedShown_compile
  obtain ⟨x, hx, _, hchecks, hborn⟩ := renamedShown_operation
  obtain ⟨o, hplan, hreturned⟩ := changes_answered Stage.setup Stage.renamedShown p h
  have hmember := hx o (Scoping.plan_ok hplan)
  obtain ⟨_, hanswered, hread, _⟩ := hreturned x hmember
  rw [hchecks] at hanswered
  exact ⟨p, o, x, h, hplan, hmember, hborn, hanswered, hread Stage.born hborn⟩

/-- The rule that asks for a signed-in principal to read the year of birth is not asserted when it
is given back by an update. Nothing else is asserted there. -/
theorem renamedShown_unread :
    ∃ p o x, compile Stage.setup Stage.renamedShown = .ok p ∧
      p.text = Stage.renamedShownText ∧
      Stage.setup.plan Stage.renamedShown = .ok o ∧ x ∈ returnedBy o ∧
      Stage.born ∈ Field.attributes x.fields ∧
      ¬ x.AsksToRead Stage.setup Stage.born x.Checks := by
  obtain ⟨p, h, htext⟩ := renamedShown_compile
  obtain ⟨x, hx, hentity, hchecks, hborn⟩ := renamedShown_operation
  obtain ⟨o, _, hplan, _⟩ := Scoping.compile_ok h
  refine ⟨p, o, x, h, htext, hplan, hx o (Scoping.plan_ok hplan), hborn, ?_⟩
  intro hasked
  have hd : ⟨"Person.born.authorization[0]", Stage.signedIn⟩ ∈
      declaredAt (childPath x.entity.name Stage.born.name) Stage.born.rules := by
    rw [hentity]
    exact List.mem_singleton.mpr rfl
  obtain ⟨asked, hread, hholds⟩ := hasked _ hd rfl rfl
  rw [hentity] at hread
  cases hread
  obtain ⟨check, hcheck, hin⟩ := hholds _ rfl
  rw [hchecks] at hcheck
  simp only [List.mem_cons, List.not_mem_nil, or_false] at hcheck
  rcases hcheck with rfl | rfl
  · exact absurd hin List.not_mem_nil
  · exact absurd hin List.not_mem_nil

end GraphSelection
