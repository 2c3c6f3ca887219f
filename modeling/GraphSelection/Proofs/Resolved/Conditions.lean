import GraphSelection.Proofs.Outcomes
import GraphSelection.Proofs.Parts
import GraphSelection.Resolve.Condition

/-!
Conditions that are read from objects fit into their places: an edge is spoken of only under keys
of an edge, or inside a condition on related nodes, and every computed attribute is declared by an
entity of the schema. One level of an object fits when the level below does; so all of it does.
-/
namespace GraphSelection.Resolve

open GraphSelection Plan

/-- A computed attribute of an entity of the schema. -/
def Computes (schema : Schema) (a : Attribute) : Prop :=
  a.isComputed = true ∧ ∃ e ∈ schema.entities.values, a ∈ e.attributes.values

namespace Keys

/-- The keys are about an entity of the schema, or about no node. -/
def Known (schema : Schema) : Keys → Prop
  | .node e => e ∈ schema.entities.values
  | .edge _ => True
  | .claims => True

def atEdge : Keys → Bool
  | .node _ => false
  | .edge _ => true
  | .claims => false

theorem attribute_fits {schema : Schema} {keys : Keys} (hknown : keys.Known schema)
    {name : String} {subject : Subject} {a : Attribute}
    (h : keys.attribute? name = some (subject, a)) :
    subject.Fits (Computes schema) keys.atEdge := by
  cases keys with
  | claims => simp [attribute?] at h
  | edge p =>
    simp only [attribute?, Option.map_eq_some_iff, Prod.mk.injEq] at h
    obtain ⟨_, _, rfl, _⟩ := h
    rfl
  | node e =>
    simp only [attribute?, Option.map_eq_some_iff, Prod.mk.injEq] at h
    obtain ⟨a', hfound, rfl, rfl⟩ := h
    split
    · rename_i hcomputed
      exact ⟨hcomputed, e, hknown, Entries.mem_values_of_get? hfound⟩
    · trivial

end Keys

theorem ofSchema_ok {α : Type} {x : Except SchemaFault α} {a : α} (h : ofSchema x = .ok a) :
    x = .ok a := by
  cases x with
  | error fault => simp [ofSchema] at h
  | ok a' => simpa [ofSchema] using h

theorem entity_known {schema : Schema} {name : String} {e : Entity}
    (h : schema.entity name = .ok e) : e ∈ schema.entities.values := by
  unfold Schema.entity at h
  split at h
  · rename_i e' hfound
    cases h
    exact Entries.mem_values_of_get? hfound
  · simp at h

theorem target_known {schema : Schema} {name : String} {e : Entity}
    (h : schema.target name = .ok (.entity e)) : e ∈ schema.entities.values := by
  unfold Schema.target at h
  split at h
  · rename_i e' hfound
    cases h
    exact Entries.mem_values_of_get? hfound
  · split at h <;> simp at h

/-- What is kept of a composite are constituents of it. -/
theorem narrow_among {schema : Schema} {c : Composite} {members : Option Doc.Members}
    {path : String} {kept : List Kept} (h : narrow schema c members path = .ok kept) :
    ∃ entities, schema.constituents c = .ok entities ∧ ∀ k ∈ kept, k.1 ∈ entities := by
  simp only [narrow, except_bind_ok] at h
  obtain ⟨entities, hentities, h⟩ := h
  refine ⟨entities, ofSchema_ok hentities, ?_⟩
  have hall : ∀ k ∈ entities.map (fun e => ((e, none) : Kept)), k.1 ∈ entities := by
    intro k hk
    obtain ⟨e, he, rfl⟩ := List.mem_map.mp hk
    exact he
  cases members with
  | none =>
    rw [except_pure_ok] at h
    exact h ▸ hall
  | some members =>
    simp only at h
    split at h
    · rw [except_pure_ok] at h
      exact h ▸ hall
    · split at h
      · unfold narrowUnion at h
        split at h
        · simp at h
        · simp only [except_bind_ok, except_pure_ok] at h
          obtain ⟨parts, hparts, rfl⟩ := h
          intro k hk
          obtain ⟨part, hpart, hmem⟩ := List.mem_flatten.mp hk
          obtain ⟨e, he, hkept⟩ := mem_of_mapM_ok hparts part hpart
          have hfirst : ∀ k ∈ part, k.1 = e := by
            unfold keptMember at hkept
            split at hkept
            · cases hkept
              simp
            · cases hkept
              simp
            · simp only [except_bind_ok, except_pure_ok] at hkept
              obtain ⟨_, _, rfl⟩ := hkept
              simp
          exact hfirst k hmem ▸ he
      · simp only [narrowInterface, except_bind_ok, except_pure_ok] at h
        obtain ⟨allowed, _, rfl⟩ := h
        intro k hk
        obtain ⟨e, he, rfl⟩ := List.mem_map.mp hk
        exact (List.mem_filter.mp he).1

/-- The constituents that are kept are entities of the schema. -/
theorem narrow_known {schema : Schema} {c : Composite} {members : Option Doc.Members}
    {path : String} {kept : List Kept} (h : narrow schema c members path = .ok kept) :
    ∀ k ∈ kept, k.1 ∈ schema.entities.values := by
  obtain ⟨entities, hentities, hamong⟩ := narrow_among h
  intro k hk
  obtain ⟨name, _, hname⟩ := mem_of_mapM_ok hentities _ (hamong k hk)
  exact entity_known hname

/-- A reader of objects whose conditions fit. -/
def Level.Fits (schema : Schema) (below : Level) : Prop :=
  ∀ keys members path c, keys.Known schema → below keys members path = .ok (some c) →
    c.Fits (Computes schema) keys.atEdge

section Comparisons

variable {good : Attribute → Prop} {edges : Bool} {mode : ClaimMode} {subject : Subject}
  {a : Option Attribute}

variable (subject) in
/-- A comparison of the subject, or a test of it for null. -/
def Tests (c : Condition) : Prop :=
  c = .nullness subject true ∨
    ∃ op operand caseInsensitive, c = .compare subject op operand caseInsensitive

theorem Tests.fits {c : Condition} (h : Tests subject c) (hfits : subject.Fits good edges) :
    c.Fits good edges := by
  rcases h with rfl | ⟨op, operand, caseInsensitive, rfl⟩
  · exact .nullness true hfits
  · exact .compare op operand caseInsensitive hfits

theorem compared_tests {op : Comparison} {value : Doc} {caseInsensitive : Bool} {path : String}
    {c : Condition} (h : compared mode subject a op value caseInsensitive path = .ok c) :
    Tests subject c := by
  unfold compared at h
  split at h
  · split at h
    · simp at h
    · cases h
      exact .inl rfl
  · simp only [except_bind_ok, except_pure_ok] at h
    obtain ⟨_, _, rfl⟩ := h
    exact .inr ⟨_, _, _, rfl⟩

theorem operatorParts_tests {path : String} {members : Doc.Members} {cs : List Condition}
    (h : operatorParts mode subject a path members = .ok cs) : ∀ c ∈ cs, Tests subject c := by
  induction members generalizing cs with
  | nil =>
    cases h
    simp
  | cons entry rest ih =>
    obtain ⟨name, value⟩ := entry
    simp only [operatorParts] at h
    split at h
    · simp only [except_bind_ok, except_pure_ok] at h
      obtain ⟨inner, _, parts, hparts, more, hmore, rfl⟩ := h
      intro c hc
      rcases List.mem_append.mp hc with hc | hc
      · obtain ⟨entry, _, hentry⟩ := mem_of_mapM_ok hparts c hc
        simp only [except_bind_ok] at hentry
        obtain ⟨op, _, hcompared⟩ := hentry
        exact compared_tests hcompared
      · exact ih hmore c hc
    · simp only [except_bind_ok, except_pure_ok] at h
      obtain ⟨op, _, c', hcompared, _, rfl, more, hmore, rfl⟩ := h
      intro c hc
      rcases List.mem_append.mp hc with hc | hc
      · rw [List.mem_singleton] at hc
        exact hc ▸ compared_tests hcompared
      · exact ih hmore c hc

theorem compared_fits (hfits : subject.Fits good edges) {op : Comparison} {value : Doc}
    {caseInsensitive : Bool} {path : String} {c : Condition}
    (h : compared mode subject a op value caseInsensitive path = .ok c) : c.Fits good edges :=
  (compared_tests h).fits hfits

theorem attributeValue_fits (hfits : subject.Fits good edges) {field path : String} {value : Doc}
    {c : Condition} {seen seen' : Entries Spelling}
    (h : attributeValue mode subject a field value path seen = .ok (some c, seen')) :
    c.Fits good edges := by
  unfold attributeValue at h
  split at h
  · split at h
    · simp only [bind_ok, lift_ok, pure_ok] at h
      obtain ⟨_, _, _, parts, _, ⟨hparts, rfl⟩, hall, rfl⟩ := h
      exact fits_allOf (fun c hc => (operatorParts_tests hparts c hc).fits hfits) c hall
    · split at h
      · simp only [bind_ok, lift_ok, pure_ok, Option.some.injEq] at h
        obtain ⟨_, _, _, c', _, ⟨hcompared, rfl⟩, rfl, rfl⟩ := h
        exact compared_fits hfits hcompared
      · cases h
  · simp only [bind_ok, lift_ok, pure_ok, Option.some.injEq] at h
    obtain ⟨_, _, _, c', _, ⟨hcompared, rfl⟩, rfl, rfl⟩ := h
    exact compared_fits hfits hcompared

end Comparisons

section Aggregations

variable {good : Attribute → Prop} {edges : Bool} {k : AggregationKeys}

/-- The comparisons of aggregations. -/
def Aggregates (c : Condition) : Prop := ∃ a, c = .aggregation a

theorem Aggregates.fits {c : Condition} (h : Aggregates c) : c.Fits good edges := by
  obtain ⟨a, rfl⟩ := h
  exact .aggregation a

theorem leaf_aggregates {m : Measure} {op : Comparison} {value : Doc} {path : String}
    {c : Condition} (h : k.leaf m op value path = .ok c) : Aggregates c := by
  unfold AggregationKeys.leaf at h
  split at h
  · simp at h
  · split at h
    · simp at h
    · cases h
      exact ⟨_, rfl⟩

theorem operators_aggregate {m : Measure} {members : Doc.Members} {path : String}
    {cs : List Condition} (h : k.operators m members path = .ok cs) :
    ∀ c ∈ cs, Aggregates c := by
  intro c hc
  obtain ⟨entry, _, hentry⟩ := mem_of_mapM_ok h c hc
  simp only [except_bind_ok] at hentry
  obtain ⟨op, _, hleaf⟩ := hentry
  exact leaf_aggregates hleaf

theorem count_aggregates {value : Doc} {path : String} {cs : List Condition}
    (h : k.count value path = .ok cs) : ∀ c ∈ cs, Aggregates c := by
  unfold AggregationKeys.count at h
  split at h
  · split at h
    · exact operators_aggregate h
    · simp only [except_bind_ok, except_pure_ok] at h
      obtain ⟨parts, hparts, rfl⟩ := h
      intro c hc
      obtain ⟨part, hpart, hmem⟩ := List.mem_flatten.mp hc
      obtain ⟨entry, _, hentry⟩ := mem_of_mapM_ok hparts part hpart
      simp only [except_bind_ok] at hentry
      obtain ⟨m, _, operators, _, hoperators⟩ := hentry
      exact operators_aggregate hoperators c hmem
  · simp only [except_bind_ok, except_pure_ok] at h
    obtain ⟨c, hleaf, rfl⟩ := h
    simpa using leaf_aggregates hleaf

theorem attributes_aggregate {find : String → Option Attribute}
    {make : Attribute → Reduction → Measure} {members : Doc.Members} {path : String}
    {cs : List Condition} (h : k.attributes find make members path = .ok cs) :
    ∀ c ∈ cs, Aggregates c := by
  simp only [AggregationKeys.attributes, except_bind_ok, except_pure_ok] at h
  obtain ⟨parts, hparts, rfl⟩ := h
  intro c hc
  obtain ⟨part, hpart, hmem⟩ := List.mem_flatten.mp hc
  obtain ⟨⟨key, value⟩, _, hentry⟩ := mem_of_mapM_ok hparts part hpart
  unfold AggregationKeys.attributePart at hentry
  split at hentry
  · simp only [except_bind_ok, except_pure_ok] at hentry
    obtain ⟨reductions, _, found, hfound, rfl⟩ := hentry
    obtain ⟨part', hpart', hmem'⟩ := List.mem_flatten.mp hmem
    obtain ⟨⟨name, operators⟩, _, hreduction⟩ := mem_of_mapM_ok hfound part' hpart'
    simp only at hreduction
    split at hreduction
    · cases hreduction
    · simp only [except_bind_ok] at hreduction
      obtain ⟨m, _, operators', _, hoperators⟩ := hreduction
      exact operators_aggregate hoperators c hmem'
  · split at hentry
    · cases hentry
    · simp only [except_bind_ok, except_pure_ok] at hentry
      obtain ⟨m, _, c', hleaf, rfl⟩ := hentry
      rw [List.mem_singleton] at hmem
      exact hmem ▸ leaf_aggregates hleaf

theorem operandsOf_fits {below : Doc.Members → String → Result (Option Condition)}
    (hbelow : ∀ members path c, below members path = .ok (some c) → c.Fits good edges)
    {items : List Doc} {path : String} {found : List (Option Condition)}
    (h : (items.mapM fun item => do
      let members ← asRecord item path
      below members path) = .ok found) : ∀ c ∈ found.filterMap id, c.Fits good edges := by
  intro c hc
  obtain ⟨c', hmem, rfl⟩ := List.mem_filterMap.mp hc
  obtain ⟨item, _, hitem⟩ := mem_of_mapM_ok h _ hmem
  simp only [except_bind_ok] at hitem
  obtain ⟨members, _, hread⟩ := hitem
  exact hbelow members path c hread

theorem aggregationEntry_fits {below : Doc.Members → String → Result (Option Condition)}
    (hbelow : ∀ members path c, below members path = .ok (some c) → c.Fits good edges)
    {path key : String} {value : Doc} {cs : List Condition}
    (h : k.entry below path key value = .ok cs) : ∀ c ∈ cs, c.Fits good edges := by
  unfold AggregationKeys.entry at h
  simp only at h
  split at h
  · split at h
    · simp only [except_bind_ok, except_pure_ok] at h
      obtain ⟨found, hfound, rfl⟩ := h
      split
      · simp
      · simpa using Condition.Fits.all (operandsOf_fits hbelow hfound)
    · cases h
  · split at h
    · simp only [except_bind_ok, except_pure_ok] at h
      obtain ⟨found, hfound, rfl⟩ := h
      split
      · simp
      · simpa using Condition.Fits.any (operandsOf_fits hbelow hfound)
    · cases h
  · simp only [except_bind_ok, except_pure_ok] at h
    obtain ⟨members, _, inner, hinner, rfl⟩ := h
    intro c hc
    obtain ⟨c', rfl, rfl⟩ := Option.map_eq_some_iff.mp (Option.mem_toList.mp hc)
    exact .not (hbelow members _ c' hinner)
  · exact fun c hc => (count_aggregates h c hc).fits
  · simp only [except_bind_ok] at h
    obtain ⟨members, _, hmembers⟩ := h
    exact fun c hc => (attributes_aggregate hmembers c hc).fits
  · split at h
    · cases h
    · simp only [except_bind_ok] at h
      obtain ⟨members, _, hmembers⟩ := h
      exact fun c hc => (attributes_aggregate hmembers c hc).fits
  · split at h
    · simp only [except_bind_ok, except_pure_ok] at h
      obtain ⟨c, hleaf, rfl⟩ := h
      simpa using (leaf_aggregates hleaf).fits
    · cases h

theorem aggregationCondition_fits {members : Doc.Members} {path : String} {c : Condition}
    (h : k.condition members path = .ok (some c)) : c.Fits good edges := by
  have hlevel : ∀ n members path c, k.conditionAt n members path = .ok (some c) →
      c.Fits good edges := by
    intro n
    induction n with
    | zero => simp [AggregationKeys.conditionAt]
    | succ n ih =>
      intro members path c h
      simp only [AggregationKeys.conditionAt, except_bind_ok, except_pure_ok] at h
      obtain ⟨parts, hparts, hall⟩ := h
      refine fits_allOf ?_ c hall
      intro c' hc'
      obtain ⟨part, hpart, hmem⟩ := List.mem_flatten.mp hc'
      obtain ⟨⟨key, value⟩, _, hentry⟩ := mem_of_mapM_ok hparts part hpart
      exact aggregationEntry_fits ih hentry c' hmem
  exact hlevel _ members path c h

end Aggregations

namespace Reader

variable {r : Reader} {below : Level}

theorem optionally_fits (hbelow : below.Fits r.setup.schema) {e : Entity}
    (he : e ∈ r.setup.schema.entities.values) {members : Option Doc.Members} {path : String}
    {filter : Option Condition} (h : optionally below (.node e) members path = .ok filter) :
    ∀ c ∈ filter, c.Fits (Computes r.setup.schema) true := by
  intro c hc
  cases hc
  cases members with
  | none => simp [optionally] at h
  | some members =>
    exact (hbelow (.node e) members path c he h).mono (fun _ h => h) (by simp)

theorem edgePart_fits (hbelow : below.Fits r.setup.schema) {relationship : Relationship}
    {edge : Option Doc} {path : String} {filter : Option Condition}
    (h : r.edgePart below relationship edge path = .ok filter) :
    ∀ c ∈ filter, c.Fits (Computes r.setup.schema) true := by
  intro c hc
  cases hc
  unfold edgePart at h
  split at h
  · cases h
  · cases h
  · split at h
    · cases h
    · rename_i properties _
      simp only [except_bind_ok] at h
      obtain ⟨members, _, hread⟩ := h
      exact hbelow (.edge properties) members _ c trivial hread

theorem related_fits (hbelow : below.Fits r.setup.schema) {relationship : Relationship}
    {quantifier : Quantifier} {node edge : Option Doc} {path : String} {c : Condition}
    (edges : Bool) (h : r.related below relationship quantifier node edge path = .ok c) :
    c.Fits (Computes r.setup.schema) edges := by
  simp only [related, except_bind_ok] at h
  obtain ⟨members, _, target, htarget, h⟩ := h
  cases target with
  | entity e =>
    simp only [except_bind_ok, except_pure_ok] at h
    obtain ⟨filter, hfilter, edgeFilter, hedge, rfl⟩ := h
    have he := target_known (ofSchema_ok htarget)
    refine .related _ _ _ ?_ (edgePart_fits hbelow hedge)
    intro p hp
    rw [List.mem_singleton] at hp
    exact hp ▸ optionally_fits hbelow he hfilter
  | composite composite =>
    simp only [except_bind_ok, except_pure_ok] at h
    obtain ⟨kept, hkept, targets, htargets, edgeFilter, hedge, rfl⟩ := h
    refine .related _ _ _ ?_ (edgePart_fits hbelow hedge)
    intro p hp
    obtain ⟨⟨e, rest⟩, hmem, hread⟩ := mem_of_mapM_ok htargets p hp
    simp only [except_bind_ok, except_pure_ok] at hread
    obtain ⟨filter, hfilter, rfl⟩ := hread
    exact optionally_fits hbelow (narrow_known hkept _ hmem) hfilter

theorem connected_fits (hbelow : below.Fits r.setup.schema) {relationship : Relationship}
    {quantifier : Quantifier} {value : Doc} {path : String} {c : Condition} (edges : Bool)
    (h : r.connected below relationship quantifier value path = .ok c) :
    c.Fits (Computes r.setup.schema) edges := by
  unfold connected at h
  split at h
  · exact related_fits hbelow edges h
  · simp only [except_bind_ok] at h
    obtain ⟨members, _, h⟩ := h
    split at h
    · cases h
    · exact related_fits hbelow edges h

theorem relationshipValue_fits (hbelow : below.Fits r.setup.schema) {relationship : Relationship}
    {field path : String} {value : Doc} {c : Condition} {seen seen' : Entries Spelling}
    (edges : Bool)
    (h : r.relationshipValue below relationship field value path seen = .ok (some c, seen')) :
    c.Fits (Computes r.setup.schema) edges := by
  unfold relationshipValue at h
  split at h
  · simp only [bind_ok, lift_ok, pure_ok, Option.some.injEq] at h
    obtain ⟨_, _, _, c', _, ⟨hrelated, rfl⟩, rfl, rfl⟩ := h
    exact related_fits hbelow edges hrelated
  · simp only [bind_ok, lift_ok] at h
    obtain ⟨members, _, ⟨_, rfl⟩, h⟩ := h
    split at h
    · simp only [bind_ok, lift_ok, pure_ok] at h
      obtain ⟨_, _, _, parts, _, ⟨hparts, rfl⟩, hall, rfl⟩ := h
      refine fits_allOf ?_ c hall
      intro c' hc'
      obtain ⟨⟨key, inner⟩, _, hpart⟩ := mem_of_mapM_ok hparts c' hc'
      simp only [except_bind_ok] at hpart
      obtain ⟨q, _, hrelated⟩ := hpart
      exact related_fits hbelow edges hrelated
    · simp only [bind_ok, lift_ok, pure_ok, Option.some.injEq] at h
      obtain ⟨_, _, _, c', _, ⟨hrelated, rfl⟩, rfl, rfl⟩ := h
      exact related_fits hbelow edges hrelated

theorem aggregation_fits {relationship : Relationship} {members : Doc.Members} {path : String}
    {c : Condition} (edges : Bool)
    (h : r.aggregation relationship members path = .ok (some c)) :
    c.Fits (Computes r.setup.schema) edges := by
  simp only [aggregation, except_bind_ok] at h
  obtain ⟨target, _, h⟩ := h
  cases target with
  | entity e => exact aggregationCondition_fits h
  | composite composite => cases h

theorem connectionPart_fits (hbelow : below.Fits r.setup.schema) {relationship : Relationship}
    {path key : String} {inner : Doc} {cs : List Condition} (edges : Bool)
    (h : r.connectionPart below relationship path key inner = .ok cs) :
    ∀ c ∈ cs, c.Fits (Computes r.setup.schema) edges := by
  unfold connectionPart at h
  simp only at h
  split at h
  · simp only [except_bind_ok, except_pure_ok] at h
    obtain ⟨members, _, found, hfound, rfl⟩ := h
    intro c hc
    obtain rfl := Option.mem_toList.mp hc
    exact aggregation_fits edges hfound
  · simp only [except_bind_ok, except_pure_ok] at h
    obtain ⟨q, _, c, hconnected, rfl⟩ := h
    simpa using connected_fits hbelow edges hconnected

theorem connectionValue_fits (hbelow : below.Fits r.setup.schema) {relationship : Relationship}
    {field path : String} {value : Doc} {c : Condition} {seen seen' : Entries Spelling}
    (edges : Bool)
    (h : r.connectionValue below relationship field value path seen = .ok (some c, seen')) :
    c.Fits (Computes r.setup.schema) edges := by
  unfold connectionValue at h
  split at h
  · simp only [bind_ok, lift_ok, pure_ok, Option.some.injEq] at h
    obtain ⟨_, _, _, c', _, ⟨hrelated, rfl⟩, rfl, rfl⟩ := h
    exact related_fits hbelow edges hrelated
  · simp only [bind_ok, lift_ok] at h
    obtain ⟨members, _, ⟨_, rfl⟩, h⟩ := h
    split at h
    · simp only [bind_ok, lift_ok, pure_ok] at h
      obtain ⟨_, _, _, parts, _, ⟨hparts, rfl⟩, hall, rfl⟩ := h
      refine fits_allOf ?_ c hall
      intro c' hc'
      obtain ⟨part, hpart, hmem⟩ := List.mem_flatten.mp hc'
      obtain ⟨⟨key, inner⟩, _, hread⟩ := mem_of_mapM_ok hparts part hpart
      exact connectionPart_fits hbelow edges hread c' hmem
    · simp only [bind_ok, lift_ok, pure_ok, Option.some.injEq] at h
      obtain ⟨_, _, _, c', _, ⟨hconnected, rfl⟩, rfl, rfl⟩ := h
      exact connected_fits hbelow edges hconnected

theorem relationshipVariant_fits (hbelow : below.Fits r.setup.schema) {e : Entity}
    {key path : String} {value : Doc} {c : Condition} {seen seen' : Entries Spelling}
    (edges : Bool)
    (h : r.relationshipVariant below e key value path seen = .ok (some c, seen')) :
    c.Fits (Computes r.setup.schema) edges := by
  simp only [relationshipVariant] at h
  generalize dropAny key Quantifier.endings = quantified at h
  cases quantified with
  | some found =>
    obtain ⟨base, q⟩ := found
    simp only [Option.map_some, Option.getD_some] at h
    cases hbase : e.relationship? base with
    | some relationship =>
      simp only [hbase, bind_ok, lift_ok, pure_ok, Option.some.injEq] at h
      obtain ⟨_, _, _, c', _, ⟨hrelated, rfl⟩, rfl, rfl⟩ := h
      exact related_fits hbelow edges hrelated
    | none =>
      cases hconnection : (Text.dropEnd? base "Connection").bind e.relationship? with
      | some relationship =>
        simp only [hbase, hconnection, bind_ok, lift_ok, pure_ok, Option.some.injEq] at h
        obtain ⟨_, _, _, c', _, ⟨hconnected, rfl⟩, rfl, rfl⟩ := h
        exact connected_fits hbelow edges hconnected
      | none => simp [hbase, hconnection, pure_ok] at h
  | none =>
    simp only [Option.map_none, Option.getD_none] at h
    cases hconnection : (Text.dropEnd? key "Connection").bind e.relationship? with
    | some relationship =>
      simp only [hconnection] at h
      exact connectionValue_fits hbelow edges h
    | none =>
      cases haggregate : (Text.dropEnd? key "Aggregate").bind e.relationship? with
      | some relationship =>
        simp only [hconnection, haggregate, bind_ok, lift_ok] at h
        obtain ⟨members, _, ⟨_, rfl⟩, hfound, rfl⟩ := h
        exact aggregation_fits edges hfound
      | none => simp [hconnection, haggregate, pure_ok] at h

theorem suffixedKey_fits {keys : Keys} (hknown : keys.Known r.setup.schema) {key path : String}
    {value : Doc} {c : Condition} {seen seen' : Entries Spelling}
    (h : r.suffixedKey keys key value path seen = .ok (some c, seen')) :
    c.Fits (Computes r.setup.schema) keys.atEdge := by
  simp only [suffixedKey] at h
  generalize hfound : Option.bind _ _ = found at h
  cases found with
  | none => cases h
  | some found =>
    obtain ⟨base, op, subject, a⟩ := found
    simp only [bind_ok, lift_ok, pure_ok, Option.some.injEq] at h
    obtain ⟨_, _, _, c', _, ⟨hcompared, rfl⟩, rfl, rfl⟩ := h
    obtain ⟨⟨base', op'⟩, _, hattribute⟩ := Option.bind_eq_some_iff.mp hfound
    obtain ⟨⟨subject', a'⟩, hkey, heq⟩ := Option.map_eq_some_iff.mp hattribute
    cases heq
    exact compared_fits (Keys.attribute_fits hknown hkey) hcompared

theorem claimKey_fits {key path : String} {value : Doc} {c : Condition}
    {seen seen' : Entries Spelling} (edges : Bool)
    (h : r.claimKey key value path seen = .ok (some c, seen')) :
    c.Fits (Computes r.setup.schema) edges := by
  have hclaim : ∀ path, (r.claimSubject path).Fits (Computes r.setup.schema) edges :=
    fun _ => trivial
  cases hdrop : dropAny key Comparison.endings with
  | some found =>
    simp only [claimKey, hdrop, bind_ok, lift_ok, pure_ok, Option.some.injEq] at h
    obtain ⟨_, _, _, c', _, ⟨hcompared, rfl⟩, rfl, rfl⟩ := h
    exact compared_fits (hclaim _) hcompared
  | none =>
    simp only [claimKey, hdrop] at h
    exact attributeValue_fits (hclaim _) h

theorem fieldKey_fits (hbelow : below.Fits r.setup.schema) {keys : Keys}
    (hknown : keys.Known r.setup.schema) {key path : String} {value : Doc} {c : Condition}
    {seen seen' : Entries Spelling}
    (h : r.fieldKey below keys key value path seen = .ok (some c, seen')) :
    c.Fits (Computes r.setup.schema) keys.atEdge := by
  cases keys with
  | claims => exact claimKey_fits _ h
  | edge p =>
    cases hkey : (Keys.edge p).attribute? key with
    | some found =>
      simp only [fieldKey, hkey] at h
      exact attributeValue_fits (Keys.attribute_fits hknown hkey) h
    | none =>
      simp only [fieldKey, hkey] at h
      exact suffixedKey_fits hknown h
  | node e =>
    cases hkey : (Keys.node e).attribute? key with
    | some found =>
      simp only [fieldKey, hkey] at h
      exact attributeValue_fits (Keys.attribute_fits hknown hkey) h
    | none =>
      cases hrelationship : e.relationship? key with
      | some relationship =>
        simp only [fieldKey, hkey, hrelationship] at h
        exact relationshipValue_fits hbelow _ h
      | none =>
        simp only [fieldKey, hkey, hrelationship, bind_ok] at h
        obtain ⟨found, seen'', hvariant, h⟩ := h
        cases found with
        | some c' =>
          simp only [pure_ok, Option.some.injEq] at h
          obtain ⟨rfl, rfl⟩ := h
          exact relationshipVariant_fits hbelow _ hvariant
        | none => exact suffixedKey_fits hknown h

theorem operands_fits (hbelow : below.Fits r.setup.schema) {keys : Keys}
    (hknown : keys.Known r.setup.schema) {value : Doc} {path : String} {cs : List Condition}
    (h : operands below keys value path = .ok cs) :
    ∀ c ∈ cs, c.Fits (Computes r.setup.schema) keys.atEdge := by
  unfold operands at h
  split at h
  · simp only [except_bind_ok, except_pure_ok] at h
    obtain ⟨found, hfound, rfl⟩ := h
    intro c hc
    obtain ⟨c', hmem, rfl⟩ := List.mem_filterMap.mp hc
    obtain ⟨⟨index, item⟩, _, hitem⟩ := mem_of_mapM_ok hfound _ hmem
    simp only [except_bind_ok] at hitem
    obtain ⟨members, _, hread⟩ := hitem
    exact hbelow keys members _ c hknown hread
  · cases h

theorem entry_fits (hbelow : below.Fits r.setup.schema) {keys : Keys}
    (hknown : keys.Known r.setup.schema) {path key : String} {value : Doc} {cs : List Condition}
    {seen seen' : Entries Spelling}
    (h : r.entry below keys path key value seen = .ok (cs, seen')) :
    ∀ c ∈ cs, c.Fits (Computes r.setup.schema) keys.atEdge := by
  unfold entry at h
  split at h
  · simp only [bind_ok, lift_ok, pure_ok] at h
    obtain ⟨found, _, ⟨hfound, rfl⟩, rfl, rfl⟩ := h
    split
    · simp
    · simpa using Condition.Fits.all (operands_fits hbelow hknown hfound)
  · simp only [bind_ok, lift_ok, pure_ok] at h
    obtain ⟨found, _, ⟨hfound, rfl⟩, rfl, rfl⟩ := h
    split
    · simp
    · simpa using Condition.Fits.any (operands_fits hbelow hknown hfound)
  · simp only [bind_ok, lift_ok, pure_ok] at h
    obtain ⟨members, _, ⟨_, rfl⟩, inner, _, ⟨hinner, rfl⟩, rfl, rfl⟩ := h
    intro c hc
    obtain ⟨c', rfl, rfl⟩ := Option.map_eq_some_iff.mp (Option.mem_toList.mp hc)
    exact .not (hbelow keys members _ c' hknown hinner)
  · simp only [bind_ok, pure_ok] at h
    obtain ⟨found, _, hfound, rfl, rfl⟩ := h
    intro c hc
    obtain rfl := Option.mem_toList.mp hc
    exact fieldKey_fits hbelow hknown hfound

theorem entries_fits (hbelow : below.Fits r.setup.schema) {keys : Keys}
    (hknown : keys.Known r.setup.schema) {path : String} {members : Doc.Members}
    {cs : List Condition} {seen seen' : Entries Spelling}
    (h : r.entries below keys path members seen = .ok (cs, seen')) :
    ∀ c ∈ cs, c.Fits (Computes r.setup.schema) keys.atEdge := by
  induction members generalizing cs seen with
  | nil =>
    simp only [entries, pure_ok] at h
    obtain ⟨rfl, rfl⟩ := h
    simp
  | cons entry rest ih =>
    obtain ⟨key, value⟩ := entry
    simp only [entries, bind_ok, pure_ok] at h
    obtain ⟨first, _, hfirst, more, _, hmore, rfl, rfl⟩ := h
    intro c hc
    rcases List.mem_append.mp hc with hc | hc
    · exact entry_fits hbelow hknown hfirst c hc
    · exact ih hmore c hc

/-- The induction is on the height of the object. -/
theorem conditionAt_fits (r : Reader) (n : Nat) : (r.conditionAt n).Fits r.setup.schema := by
  induction n with
  | zero =>
    intro keys members path c _ h
    simp [conditionAt] at h
  | succ n ih =>
    intro keys members path c hknown h
    simp only [conditionAt, StateT.run, except_bind_ok, except_pure_ok] at h
    obtain ⟨⟨parts, seen⟩, hparts, hall⟩ := h
    exact fits_allOf (entries_fits ih hknown hparts) c hall

end Reader

namespace Setup

theorem requested_fits {s : Setup} {keys : Keys} (hknown : keys.Known s.schema)
    {members : Option Doc.Members} {path : String} {found : Option Condition}
    (h : s.requested keys members path = .ok found) :
    ∀ c ∈ found, c.Fits (Computes s.schema) keys.atEdge := by
  intro c hc
  cases hc
  cases members with
  | none => simp [requested] at h
  | some members => exact Reader.conditionAt_fits ⟨s, false⟩ _ keys members path c hknown h

theorem ruled_fits {s : Setup} {keys : Keys} (hknown : keys.Known s.schema)
    {members : Doc.Members} {path : String} {found : Option Condition}
    (h : s.ruled keys members path = .ok found) :
    ∀ c ∈ found, c.Fits (Computes s.schema) keys.atEdge := by
  intro c hc
  cases hc
  exact Reader.conditionAt_fits ⟨s, true⟩ _ keys members path c hknown h

end Setup

end GraphSelection.Resolve
