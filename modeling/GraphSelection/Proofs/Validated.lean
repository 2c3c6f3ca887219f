import GraphSelection.Proofs.WellScoped

/-!
Validation rules of attributes. Whatever a scope shows of its nodes is validated by the rules for
reading, and whatever an aggregate reduces by the rules for aggregating. An aggregate inside a
connection is the exception: the connection is validated for reading only, so a rule for what is
reduced there counts exactly when a rule for reading asks the same.
-/
namespace GraphSelection.Stage

/-- The earliest year of birth, as an aggregate inside a connection. -/
def earliest : Request :=
  { operation := .connection
    entity := "Person"
    selection :=
      [(Selection.leaf "aggregate").select
        [(Selection.leaf "node").select [(Selection.leaf "born").select [.leaf "min"]]]] }

end GraphSelection.Stage

namespace GraphSelection.Resolve

open GraphSelection Plan

/-- A scope, and attributes of its nodes that are used there. -/
structure Reading where
  scope : Scope
  attributes : List Attribute

def reads (r : Read Field) : Reading := ⟨r.scope, Field.attributes r.fields⟩

/-- What a part shows of the nodes of its scopes. -/
def projected : Part → List Reading
  | .lookup (.read r) => [reads r]
  | .lookup (.connection c) => [⟨c.scope, Setup.edgeNodeAttributes c.items⟩]
  | .lookup (.composite c) => c.branches.map reads
  | .lookup (.compositeConnection c) => c.branches.map fun b => reads b.read
  | _ => []

/-- What an aggregate reduces, at the root or over a relationship. -/
def reduced : Part → List Reading
  | .aggregate a => [⟨a.scope, AggregateItem.nodeAttributesOf a.items⟩]
  | _ => []

/-- What the aggregates inside a connection reduce. -/
def reducedInside (c : Connection Field) : List Attribute :=
  c.items.flatMap fun
    | .aggregate _ items => AggregateItem.nodeAttributesOf items
    | _ => []

/-- What each validation rule of the attribute for the action asks is validated in the scope. -/
def Validated (s : Setup) (action : Action) (scope : Scope) (a : Attribute) : Prop :=
  ∀ d ∈ declaredAt (childPath scope.entity.name a.name) a.rules, d.rule.kind = .validate →
    d.rule.appliesTo action = true →
    ∃ asked, ruleCondition s scope.entity d = .ok asked ∧ ∀ c ∈ asked, c ∈ scope.validations

/-- A rule for reading the scope asks for the condition. -/
def AsksToRead (s : Setup) (scope : Scope) (attributes : List Attribute) (c : Condition) : Prop :=
  ∃ d ∈ declaredRules scope.entity attributes, d.rule.kind = .validate ∧
    d.rule.appliesTo .read = true ∧ ruleCondition s scope.entity d = .ok (some c)

section Scopes

variable {s : Setup} {attributes : List Attribute} {action : Action} {edges : Bool} {scope : Scope}

theorem declaredRules_attribute {e : Entity} {a : Attribute} (ha : a ∈ attributes) {d : Declared}
    (hd : d ∈ declaredAt (childPath e.name a.name) a.rules) : d ∈ declaredRules e attributes :=
  List.mem_append_right _ (List.mem_flatMap.mpr ⟨a, ha, hd⟩)

/-- The attributes over which a scope is guarded are validated in it. -/
theorem Guarded.validated (h : Guarded s attributes action edges scope)
    (hreading : action.isReading = true) : ∀ a ∈ attributes, Validated s action scope a := by
  intro a ha d hd hkind happlies
  have htest : d.rule.appliesAt action .before = true := by
    simp [Rule.appliesAt, hkind, happlies, hreading]
  exact ruleConditions_mem h.validations (declaredRules_attribute ha hd) htest

/-- The validations of a scope that is read are what the rules for reading ask, and nothing else. -/
theorem Guarded.mem_validations (h : Guarded s attributes .read edges scope) (c : Condition) :
    c ∈ scope.validations ↔ AsksToRead s scope attributes c := by
  refine (mem_ruleConditions h.validations c).trans ?_
  simp [AsksToRead, Rule.appliesAt, Action.isReading, and_assoc]

end Scopes

/-- What is shown is guarded for reading over at least the attributes that are shown. -/
theorem projected_guarded {s : Setup} {p : Part} (h : s.Guards p) :
    ∀ reading ∈ projected p, ∃ edges, Guarded s reading.attributes .read edges reading.scope := by
  intro reading hreading
  cases p with
  | lookup l =>
    cases l with
    | read r =>
      rw [projected, List.mem_singleton] at hreading
      exact hreading ▸ ⟨_, h.scope⟩
    | connection c =>
      rw [projected, List.mem_singleton] at hreading
      exact hreading ▸ ⟨_, h.1⟩
    | composite c =>
      obtain ⟨b, hb, rfl⟩ := List.mem_map.mp hreading
      exact ⟨_, (h b hb).1.scope⟩
    | compositeConnection c =>
      obtain ⟨b, hb, rfl⟩ := List.mem_map.mp hreading
      exact ⟨_, (h b hb).1.scope⟩
  | field f => simp [projected] at hreading
  | aggregate a => simp [projected] at hreading
  | newNode e n => simp [projected] at hreading
  | change m => simp [projected] at hreading
  | update u => simp [projected] at hreading
  | delete d => simp [projected] at hreading

theorem reduced_guarded {s : Setup} {p : Part} (h : s.Guards p) :
    ∀ reading ∈ reduced p, Guarded s reading.attributes .aggregate false reading.scope := by
  intro reading hreading
  cases p with
  | aggregate a =>
    rw [reduced, List.mem_singleton] at hreading
    exact hreading ▸ h
  | lookup l => simp [reduced] at hreading
  | field f => simp [reduced] at hreading
  | newNode e n => simp [reduced] at hreading
  | change m => simp [reduced] at hreading
  | update u => simp [reduced] at hreading
  | delete d => simp [reduced] at hreading

/-- The rules of attributes at every depth of a plan: for reading where they are shown, for
aggregating where an aggregate reduces them. Inside a connection a reduced attribute is validated
if and only if the rules for reading the connection ask for all that its own rules ask. -/
theorem fieldRules_validated (s : Setup) (r : Request) (o : Operation) (ho : s.operation r = .ok o)
    (part : Part) (hpart : part ∈ o.parts) :
    (∀ reading ∈ projected part, ∀ a ∈ reading.attributes, Validated s .read reading.scope a) ∧
      (∀ reading ∈ reduced part, ∀ a ∈ reading.attributes,
        Validated s .aggregate reading.scope a) ∧
      ∀ c, part = .lookup (.connection c) → ∀ a ∈ reducedInside c,
        (Validated s .aggregate c.scope a ↔
          ∀ d ∈ declaredAt (childPath c.scope.entity.name a.name) a.rules,
            d.rule.kind = .validate → d.rule.appliesTo .aggregate = true →
            ∃ asked, ruleCondition s c.scope.entity d = .ok asked ∧
              ∀ condition ∈ asked,
                AsksToRead s c.scope (Setup.edgeNodeAttributes c.items) condition) := by
  have hguards := Setup.operation_guards ho part hpart
  refine ⟨?_, ?_, ?_⟩
  · intro reading hreading
    obtain ⟨edges, hguarded⟩ := projected_guarded hguards reading hreading
    exact hguarded.validated rfl
  · intro reading hreading
    exact (reduced_guarded hguards reading hreading).validated rfl
  · rintro c rfl a _
    have hmem := Guarded.mem_validations hguards.1
    simp only [Validated, hmem]

/-- The year of birth is shown, so the rule that asks for a signed-in principal is validated. -/
theorem famous_validated :
    ∃ r, Stage.setup.operation Stage.famous = .ok (.lookup (.read r)) ∧
      Condition.authenticated ∈ r.scope.validations := by
  obtain ⟨r, ho, hentity, hattributes⟩ :
      ∃ r, Stage.setup.operation Stage.famous = .ok (.lookup (.read r)) ∧
        r.scope.entity = Stage.person ∧ Stage.born ∈ Field.attributes r.fields :=
    ⟨_, rfl, rfl, List.mem_cons_self⟩
  obtain ⟨hprojected, _, _⟩ :=
    fieldRules_validated Stage.setup Stage.famous _ ho (.lookup (.read r)) List.mem_cons_self
  have hd : ⟨"Person.born.authorization[0]", Stage.signedIn⟩ ∈
      declaredAt (childPath r.scope.entity.name Stage.born.name) Stage.born.rules := by
    rw [hentity]
    exact List.mem_singleton.mpr rfl
  obtain ⟨asked, hasked, hmem⟩ :=
    hprojected (reads r) List.mem_cons_self Stage.born hattributes _ hd rfl rfl
  rw [show (reads r).scope.entity = Stage.person from hentity] at hasked
  cases hasked
  exact ⟨r, ho, hmem _ rfl⟩

/-- The same attribute, reduced inside a connection, is not validated. -/
theorem earliest_unvalidated :
    ∃ c, Stage.setup.operation Stage.earliest = .ok (.lookup (.connection c)) ∧
      Stage.born ∈ reducedInside c ∧ ¬ Validated Stage.setup .aggregate c.scope Stage.born := by
  obtain ⟨c, ho, hentity, hborn, hnone⟩ :
      ∃ c, Stage.setup.operation Stage.earliest = .ok (.lookup (.connection c)) ∧
        c.scope.entity = Stage.person ∧ Stage.born ∈ reducedInside c ∧
        c.scope.validations = [] :=
    ⟨_, rfl, rfl, List.mem_cons_self, rfl⟩
  refine ⟨c, ho, hborn, ?_⟩
  intro hvalidated
  have hd : ⟨"Person.born.authorization[0]", Stage.signedIn⟩ ∈
      declaredAt (childPath c.scope.entity.name Stage.born.name) Stage.born.rules := by
    rw [hentity]
    exact List.mem_singleton.mpr rfl
  obtain ⟨asked, hasked, hmem⟩ := hvalidated _ hd rfl rfl
  rw [hentity] at hasked
  cases hasked
  have hin := hmem _ rfl
  rw [hnone] at hin
  simp at hin

end GraphSelection.Resolve
