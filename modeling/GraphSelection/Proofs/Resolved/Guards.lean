import GraphSelection.Proofs.Resolved.Conditions
import GraphSelection.Resolve.Guard

/-!
Guarded scopes. Whatever a request asks for, the filter of a guarded scope demands all that the
filter rules of the entity ask, and its validations are those of the rules for its action.
-/
namespace GraphSelection.Resolve

open GraphSelection Plan

section Rules

variable {s : Setup} {e : Entity}

theorem templateParts_fits {keys : Keys} (hknown : keys.Known s.schema) {template : Option Doc}
    {path : String} {cs : List Condition} (h : templateParts s keys template path = .ok cs) :
    ∀ c ∈ cs, c.Fits (Computes s.schema) keys.atEdge := by
  cases template with
  | none =>
    cases h
    simp
  | some doc =>
    simp only [templateParts, except_bind_ok, except_pure_ok] at h
    obtain ⟨members, _, found, hfound, rfl⟩ := h
    intro c hc
    exact Setup.ruled_fits hknown hfound c (Option.mem_toList.mp hc)

theorem ruleCondition_fits (he : e ∈ s.schema.entities.values) {d : Declared}
    {found : Option Condition} (h : ruleCondition s e d = .ok found) :
    ∀ c ∈ found, c.Fits (Computes s.schema) false := by
  simp only [ruleCondition, except_bind_ok, except_pure_ok] at h
  obtain ⟨node, hnode, claims, hclaims, rfl⟩ := h
  have hentity : (Keys.node e).Known s.schema := he
  have hprincipal : Keys.claims.Known s.schema := trivial
  refine fits_allOf ?_
  intro c hc
  rcases List.mem_append.mp hc with hc | hc
  · rcases List.mem_append.mp hc with hc | hc
    · split at hc
      · rw [List.mem_singleton] at hc
        exact hc ▸ .authenticated
      · simp at hc
    · exact templateParts_fits hentity hnode c hc
  · exact templateParts_fits hprincipal hclaims c hc

/-- A condition of rules is what one of them asks. -/
theorem ruleConditions_origin {attributes : List Attribute} {test : Rule → Bool}
    {cs : List Condition} (h : ruleConditions s e attributes test = .ok cs) {c : Condition}
    (hc : c ∈ cs) :
    ∃ d ∈ declaredRules e attributes, test d.rule = true ∧ ruleCondition s e d = .ok (some c) := by
  simp only [ruleConditions, except_bind_ok, except_pure_ok] at h
  obtain ⟨found, hfound, rfl⟩ := h
  obtain ⟨asked, hasked, hsome⟩ := List.mem_filterMap.mp hc
  obtain ⟨d, hd, hread⟩ := mem_of_mapM_ok hfound asked hasked
  obtain ⟨hdeclared, htest⟩ := List.mem_filter.mp hd
  have hsome : asked = some c := hsome
  exact ⟨d, hdeclared, htest, hsome ▸ hread⟩

theorem ruleConditions_fits (he : e ∈ s.schema.entities.values) {attributes : List Attribute}
    {test : Rule → Bool} {cs : List Condition}
    (h : ruleConditions s e attributes test = .ok cs) :
    ∀ c ∈ cs, c.Fits (Computes s.schema) false := by
  intro c hc
  obtain ⟨d, _, _, hread⟩ := ruleConditions_origin h hc
  exact ruleCondition_fits he hread c rfl

theorem guardFilter_fits (he : e ∈ s.schema.entities.values) {attributes : List Attribute}
    {action : Action} {rules : Option Condition}
    (h : guardFilter s e attributes action = .ok rules) :
    ∀ c ∈ rules, c.Fits (Computes s.schema) false := by
  simp only [guardFilter, except_bind_ok, except_pure_ok] at h
  obtain ⟨parts, hparts, rfl⟩ := h
  exact fits_allOf (ruleConditions_fits he hparts)

theorem guardValidations_fits (he : e ∈ s.schema.entities.values) {attributes : List Attribute}
    {action : Action} {moment : Moment} {cs : List Condition}
    (h : guardValidations s e attributes action moment = .ok cs) :
    FitsAll (Computes s.schema) cs :=
  ruleConditions_fits he h

/-- A rule that passes the test is read, and what it asks is among the conditions. -/
theorem ruleConditions_mem {attributes : List Attribute} {test : Rule → Bool}
    {cs : List Condition} (h : ruleConditions s e attributes test = .ok cs) {d : Declared}
    (hd : d ∈ declaredRules e attributes) (htest : test d.rule = true) :
    ∃ asked, ruleCondition s e d = .ok asked ∧ ∀ c ∈ asked, c ∈ cs := by
  simp only [ruleConditions, except_bind_ok, except_pure_ok] at h
  obtain ⟨found, hfound, rfl⟩ := h
  obtain ⟨asked, hasked, hread⟩ := ok_of_mapM_ok hfound d (List.mem_filter.mpr ⟨hd, htest⟩)
  refine ⟨asked, hread, ?_⟩
  intro c hc
  exact List.mem_filterMap.mpr ⟨asked, hasked, hc⟩

theorem mem_ruleConditions {attributes : List Attribute} {test : Rule → Bool}
    {cs : List Condition} (h : ruleConditions s e attributes test = .ok cs) (c : Condition) :
    c ∈ cs ↔ ∃ d ∈ declaredRules e attributes, test d.rule = true ∧
      ruleCondition s e d = .ok (some c) := by
  constructor
  · exact ruleConditions_origin h
  · rintro ⟨d, hd, htest, hread⟩
    obtain ⟨asked, hasked, hmem⟩ := ruleConditions_mem h hd htest
    rw [hread] at hasked
    cases hasked
    exact hmem c rfl

end Rules

/-- A filter over an entity that demands all that the filter rules for an action ask. -/
structure Narrowed (s : Setup) (e : Entity) (attributes : List Attribute) (action : Action)
    (edges : Bool) (filter : Option Condition) : Prop where
  fits : ∀ c ∈ filter, c.Fits (Computes s.schema) edges
  rules : ∃ rules, guardFilter s e attributes action = .ok rules ∧
    ∀ c ∈ demands rules, c ∈ demands filter

/-- The filter demands all that each filter rule for the action asks. -/
theorem Narrowed.demands_rule {s : Setup} {e : Entity} {attributes : List Attribute}
    {action : Action} {edges : Bool} {filter : Option Condition}
    (h : Narrowed s e attributes action edges filter) {d : Declared}
    (hd : d ∈ declaredRules e attributes) (hkind : d.rule.kind = .filter)
    (happlies : d.rule.appliesTo action = true) :
    ∃ asked, ruleCondition s e d = .ok asked ∧ ∀ c ∈ demands asked, c ∈ demands filter := by
  obtain ⟨rules, hrules, hdemands⟩ := h.rules
  simp only [guardFilter, except_bind_ok, except_pure_ok] at hrules
  obtain ⟨parts, hparts, rfl⟩ := hrules
  obtain ⟨asked, hread, hmem⟩ := ruleConditions_mem hparts hd (by simp [hkind, happlies])
  refine ⟨asked, hread, ?_⟩
  intro c hc
  obtain ⟨whole, hwhole, hc⟩ := List.mem_flatMap.mp hc
  refine hdemands c ?_
  rw [demands_allOf]
  exact List.mem_flatMap.mpr ⟨whole, hmem whole (Option.mem_toList.mp hwhole), hc⟩

/-- What a request asks goes beside the rules, never around them. -/
theorem narrowed_allOf {s : Setup} {e : Entity} {attributes : List Attribute} {action : Action}
    {edges : Bool} {asked : List Condition} {rules : Option Condition}
    (he : e ∈ s.schema.entities.values) (h : guardFilter s e attributes action = .ok rules)
    (hasked : ∀ c ∈ asked, c.Fits (Computes s.schema) edges) :
    Narrowed s e attributes action edges (Condition.allOf (asked ++ rules.toList)) where
  fits := by
    refine fits_allOf ?_
    intro c hc
    rcases List.mem_append.mp hc with hc | hc
    · exact hasked c hc
    · exact (guardFilter_fits he h c (Option.mem_toList.mp hc)).mono (fun _ h => h) (by simp)
  rules := by
    refine ⟨rules, h, ?_⟩
    intro c hc
    rw [demands_allOf, List.flatMap_append]
    exact List.mem_append_right _ hc

/-- More conditions on a filter that is narrowed already. -/
theorem Narrowed.and {s : Setup} {e : Entity} {attributes : List Attribute} {action : Action}
    {edges edges' : Bool} {filter : Option Condition} {after : List Condition}
    (h : Narrowed s e attributes action edges filter) (hedges : edges = true → edges' = true)
    (hafter : ∀ c ∈ after, c.Fits (Computes s.schema) edges') :
    Narrowed s e attributes action edges' (Condition.allOf (filter.toList ++ after)) where
  fits := by
    refine fits_allOf ?_
    intro c hc
    rcases List.mem_append.mp hc with hc | hc
    · exact (h.fits c (Option.mem_toList.mp hc)).mono (fun _ h => h) hedges
    · exact hafter c hc
  rules := by
    obtain ⟨rules, hrules, hdemands⟩ := h.rules
    refine ⟨rules, hrules, ?_⟩
    intro c hc
    rw [demands_allOf, List.flatMap_append]
    exact List.mem_append_left _ (hdemands c hc)

/-- A scope over an entity of the schema that the rules for an action guard: they narrow its
filter, and its validations are theirs. -/
structure Guarded (s : Setup) (attributes : List Attribute) (action : Action) (edges : Bool)
    (scope : Scope) : Prop where
  known : scope.entity ∈ s.schema.entities.values
  filter : Narrowed s scope.entity attributes action edges scope.filter
  validations : guardValidations s scope.entity attributes action .before = .ok scope.validations

theorem Guarded.fits {s : Setup} {attributes : List Attribute} {action : Action} {edges : Bool}
    {scope : Scope} (h : Guarded s attributes action edges scope) :
    scope.Fits (Computes s.schema) edges where
  filter := h.filter.fits
  validations := guardValidations_fits h.known h.validations

theorem guarded_guardedScope {s : Setup} {e : Entity} {relationship : Option Relationship}
    {asked : List Condition} {attributes : List Attribute} {action : Action} {edges : Bool}
    {scope : Scope} (he : e ∈ s.schema.entities.values)
    (hasked : ∀ c ∈ asked, c.Fits (Computes s.schema) edges)
    (h : guardedScope s e relationship asked attributes action = .ok scope) :
    Guarded s attributes action edges scope ∧ scope.entity = e ∧
      scope.relationship = relationship := by
  simp only [guardedScope, except_bind_ok, except_pure_ok] at h
  obtain ⟨rules, hrules, validations, hvalidations, rfl⟩ := h
  exact ⟨⟨he, narrowed_allOf he hrules hasked, hvalidations⟩, rfl, rfl⟩

end GraphSelection.Resolve
