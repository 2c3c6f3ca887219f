import GraphSelection.Proofs.Resolved.Guards
import GraphSelection.Proofs.Spelled.Conditions

/-!
The sites of a plan. A site is a place of a plan that uses the property under which an attribute is
stored, of a node or of an edge: a comparison, a sort key, a projection, a measure or an assignment.
Where an attribute is computed, its value comes from its own statement, so it should have no site.
For nodes each kind of site is resolved with a look at that; for edges only measures and assignments
are.
-/
namespace GraphSelection.Plan

inductive Use where
  | filter
  | sort
  | projection
  | measure
  | assignment
  deriving DecidableEq, Repr

/-- Whether a computed attribute of an edge is refused for the use. -/
def Use.isChecked : Use → Bool
  | .measure | .assignment => true
  | .filter | .sort | .projection => false

structure Site where
  use : Use
  onEdge : Bool
  attr : Attribute

/-- The attribute of a site is declared where it is looked for. No node is asked for a stored value
of what is computed, and no edge for a measure of it or a change. -/
inductive Site.Sound (schema : Schema) : Site → Prop
  | node (use : Use) {e : Entity} {a : Attribute} (he : e ∈ schema.entities.values)
      (ha : a ∈ e.attributes.values) (hstored : a.isComputed = false) :
      Site.Sound schema ⟨use, false, a⟩
  | edge {use : Use} {p : PropertySet} {a : Attribute} (hp : p ∈ schema.propertySets.values)
      (ha : a ∈ p.attributes.values) (hstored : use.isChecked = true → a.isComputed = false) :
      Site.Sound schema ⟨use, true, a⟩

theorem Site.Sound.of_computed {schema : Schema} {t : Site} (h : t.Sound schema)
    (hcomputed : t.attr.isComputed = true) : t.onEdge = true ∧ t.use.isChecked = false := by
  cases h with
  | node use he ha hstored => exact absurd (hstored.symm.trans hcomputed) Bool.false_ne_true
  | edge hp ha hstored =>
    refine ⟨rfl, Bool.eq_false_iff.mpr fun hchecked => ?_⟩
    exact absurd ((hstored hchecked).symm.trans hcomputed) Bool.false_ne_true

/-- Where an edge is compared, sorted by or shown, any of its attributes will do. -/
theorem Site.Sound.unchecked {schema : Schema} {use : Use} (huse : use.isChecked = false)
    {p : PropertySet} {a : Attribute} (hp : p ∈ schema.propertySets.values)
    (ha : a ∈ p.attributes.values) : Site.Sound schema ⟨use, true, a⟩ :=
  .edge hp ha fun hchecked => absurd (huse.symm.trans hchecked) Bool.false_ne_true

def AllSound (schema : Schema) (sites : List Site) : Prop := ∀ t ∈ sites, t.Sound schema

def Subject.sites : Subject → List Site
  | .node a => [⟨.filter, false, a⟩]
  | .edge a => [⟨.filter, true, a⟩]
  | .computed _ => []
  | .claim _ _ => []

def Measure.sites : Measure → List Site
  | .countNodes => []
  | .countEdges => []
  | .node a _ => [⟨.measure, false, a⟩]
  | .edge a _ => [⟨.measure, true, a⟩]

mutual
def Condition.sites : Condition → List Site
  | .all items => Condition.sitesOf items
  | .any items => Condition.sitesOf items
  | .not inner => inner.sites
  | .compare subject _ _ _ => subject.sites
  | .nullness subject _ => subject.sites
  | .labels _ => []
  | .related _ _ targets _ edge => Condition.targetSites targets ++ Condition.optionSites edge
  | .aggregation a => a.measure.sites
  | .authenticated => []
def Condition.sitesOf : List Condition → List Site
  | [] => []
  | c :: rest => c.sites ++ Condition.sitesOf rest
def Condition.targetSites : List (Entity × Option Condition) → List Site
  | [] => []
  | (_, filter) :: rest => Condition.optionSites filter ++ Condition.targetSites rest
def Condition.optionSites : Option Condition → List Site
  | none => []
  | some c => c.sites
end

def Scope.sites (scope : Scope) : List Site :=
  Condition.optionSites scope.filter ++ Condition.sitesOf scope.validations

section Lists

variable {schema : Schema}

@[simp] theorem allSound_nil : AllSound schema [] := by simp [AllSound]

@[simp] theorem allSound_append {sites sites' : List Site} :
    AllSound schema (sites ++ sites') ↔ AllSound schema sites ∧ AllSound schema sites' :=
  List.forall_mem_append

@[simp] theorem allSound_singleton {t : Site} : AllSound schema [t] ↔ t.Sound schema :=
  List.forall_mem_singleton

theorem allSound_flatMap {α : Type} {xs : List α} {f : α → List Site} :
    AllSound schema (xs.flatMap f) ↔ ∀ x ∈ xs, AllSound schema (f x) := by
  simp only [AllSound, List.mem_flatMap]
  exact ⟨fun h x hx t ht => h t ⟨x, hx, ht⟩, fun h t ⟨x, hx, ht⟩ => h x hx t ht⟩

theorem Condition.sitesOf_eq (cs : List Condition) :
    Condition.sitesOf cs = cs.flatMap Condition.sites := by
  induction cs with
  | nil => rfl
  | cons c rest ih => rw [Condition.sitesOf, ih, List.flatMap_cons]

theorem Condition.targetSites_eq (targets : List (Entity × Option Condition)) :
    Condition.targetSites targets = targets.flatMap fun p => Condition.optionSites p.2 := by
  induction targets with
  | nil => rfl
  | cons p rest ih =>
    obtain ⟨e, filter⟩ := p
    rw [Condition.targetSites, ih, List.flatMap_cons]

theorem Condition.sitesOf_conjuncts (c : Condition) :
    Condition.sitesOf c.conjuncts = c.sites := by
  unfold Condition.conjuncts
  split
  · rw [Condition.sites]
  · rw [Condition.sitesOf, Condition.sitesOf, List.append_nil]

/-- Taking conjunctions apart neither adds a site nor takes one away. -/
theorem Condition.optionSites_allOf (cs : List Condition) :
    Condition.optionSites (Condition.allOf cs) = Condition.sitesOf cs := by
  have hflat : Condition.sitesOf (cs.flatMap Condition.conjuncts) = Condition.sitesOf cs := by
    simp only [Condition.sitesOf_eq, List.flatMap_assoc]
    simp only [← Condition.sitesOf_eq, Condition.sitesOf_conjuncts]
  rw [← hflat]
  unfold Condition.allOf
  split
  · rename_i hnil
    rw [hnil]
    rfl
  · rename_i c hone
    rw [hone, Condition.sitesOf, Condition.sitesOf, List.append_nil]
    rfl
  · rfl

theorem allSound_sitesOf {cs : List Condition} :
    AllSound schema (Condition.sitesOf cs) ↔ ∀ c ∈ cs, AllSound schema c.sites := by
  rw [Condition.sitesOf_eq, allSound_flatMap]

theorem allSound_toList {found : Option Condition} :
    AllSound schema (Condition.sitesOf found.toList) ↔
      AllSound schema (Condition.optionSites found) := by
  cases found <;> simp [Condition.sitesOf, Condition.optionSites]

/-- Conditions that are found among what is read. -/
theorem allSound_filterMap {found : List (Option Condition)}
    (h : ∀ c ∈ found, AllSound schema (Condition.optionSites c)) :
    AllSound schema (Condition.sitesOf (found.filterMap id)) := by
  refine allSound_sitesOf.mpr fun c hc => ?_
  obtain ⟨c', hmem, rfl⟩ := List.mem_filterMap.mp hc
  exact h _ hmem

theorem allSound_flatten {groups : List (List Condition)}
    (h : ∀ cs ∈ groups, AllSound schema (Condition.sitesOf cs)) :
    AllSound schema (Condition.sitesOf groups.flatten) := by
  refine allSound_sitesOf.mpr fun c hc => ?_
  obtain ⟨cs, hcs, hmem⟩ := List.mem_flatten.mp hc
  exact allSound_sitesOf.mp (h cs hcs) c hmem

end Lists

end GraphSelection.Plan

namespace GraphSelection.Resolve

open GraphSelection Plan

variable {schema : Schema}

namespace Keys

/-- Of a node an attribute is compared by its property only if it has one; of an edge always. -/
theorem attribute_sound {keys : Keys} (hkeys : keys.Declared schema) {name : String}
    {subject : Subject} {a : Attribute} (h : keys.attribute? name = some (subject, a)) :
    AllSound schema subject.sites := by
  cases keys with
  | claims => simp [attribute?] at h
  | edge p =>
    obtain ⟨a', hfound, heq⟩ := Option.map_eq_some_iff.mp h
    cases heq
    exact allSound_singleton.mpr (.unchecked rfl hkeys (Entries.mem_values_of_get? hfound))
  | node e =>
    obtain ⟨a', hfound, heq⟩ := Option.map_eq_some_iff.mp h
    cases heq
    split
    · exact allSound_nil
    · rename_i hstored
      exact allSound_singleton.mpr
        (.node _ hkeys (Entries.mem_values_of_get? hfound) (by simpa using hstored))

end Keys

section Comparisons

variable {mode : ClaimMode} {subject : Subject} {a : Option Attribute}

theorem Tests.sites {c : Condition} (h : Tests subject c) : c.sites = subject.sites := by
  rcases h with rfl | ⟨op, operand, caseInsensitive, rfl⟩
  · rw [Condition.sites]
  · rw [Condition.sites]

theorem compared_sound (hsubject : AllSound schema subject.sites) {op : Comparison} {value : Doc}
    {caseInsensitive : Bool} {path : String} {c : Condition}
    (h : compared mode subject a op value caseInsensitive path = .ok c) :
    AllSound schema c.sites := by
  rw [(compared_tests h).sites]
  exact hsubject

theorem attributeValue_sound (hsubject : AllSound schema subject.sites) {field path : String}
    {value : Doc} {found : Option Condition} {seen seen' : Entries Spelling}
    (h : attributeValue mode subject a field value path seen = .ok (found, seen')) :
    AllSound schema (Condition.optionSites found) := by
  unfold attributeValue at h
  split at h
  · split at h
    · simp only [bind_ok, lift_ok, pure_ok] at h
      obtain ⟨_, _, _, parts, _, ⟨hparts, rfl⟩, rfl, rfl⟩ := h
      rw [Condition.optionSites_allOf, allSound_sitesOf]
      intro c hc
      rw [(operatorParts_tests hparts c hc).sites]
      exact hsubject
    · split at h
      · simp only [bind_ok, lift_ok, pure_ok] at h
        obtain ⟨_, _, _, c, _, ⟨hcompared, rfl⟩, rfl, rfl⟩ := h
        exact compared_sound hsubject hcompared
      · cases h
  · simp only [bind_ok, lift_ok, pure_ok] at h
    obtain ⟨_, _, _, c, _, ⟨hcompared, rfl⟩, rfl, rfl⟩ := h
    exact compared_sound hsubject hcompared

end Comparisons

section Aggregations

variable {k : AggregationKeys}

/-- The attributes that can be found have sound measures, unless they are computed. -/
def Measures (schema : Schema) (find : String → Option Attribute)
    (make : Attribute → Reduction → Measure) : Prop :=
  ∀ name a f, find name = some a → a.isComputed = false → AllSound schema (make a f).sites

theorem measures_node {e : Entity} (he : e ∈ schema.entities.values) :
    Measures schema e.attribute? .node :=
  fun _ _ _ hfound hstored => allSound_singleton.mpr
    (.node _ he (Entries.mem_values_of_get? hfound) hstored)

theorem measures_edge {p : PropertySet} (hp : p ∈ schema.propertySets.values) :
    Measures schema p.attribute? .edge :=
  fun _ _ _ hfound hstored => allSound_singleton.mpr
    (.edge hp (Entries.mem_values_of_get? hfound) fun _ => hstored)

theorem leaf_sites {m : Measure} {op : Comparison} {value : Doc} {path : String} {c : Condition}
    (h : k.leaf m op value path = .ok c) : c.sites = m.sites := by
  unfold AggregationKeys.leaf at h
  split at h
  · cases h
  · split at h
    · cases h
    · cases h
      rw [Condition.sites]

theorem operators_sound {m : Measure} (hm : AllSound schema m.sites) {members : Doc.Members}
    {path : String} {cs : List Condition} (h : k.operators m members path = .ok cs) :
    AllSound schema (Condition.sitesOf cs) := by
  refine allSound_sitesOf.mpr fun c hc => ?_
  obtain ⟨entry, _, hentry⟩ := mem_of_mapM_ok h c hc
  simp only [except_bind_ok] at hentry
  obtain ⟨op, _, hleaf⟩ := hentry
  rw [leaf_sites hleaf]
  exact hm

theorem countMeasure_sites {name path : String} {m : Measure}
    (h : AggregationKeys.countMeasure name path = .ok m) : m.sites = [] := by
  unfold AggregationKeys.countMeasure at h
  split at h
  · cases h
    rfl
  · cases h
    rfl
  · cases h

theorem count_sound {value : Doc} {path : String} {cs : List Condition}
    (h : k.count value path = .ok cs) : AllSound schema (Condition.sitesOf cs) := by
  unfold AggregationKeys.count at h
  split at h
  · split at h
    · exact operators_sound allSound_nil h
    · simp only [except_bind_ok, except_pure_ok] at h
      obtain ⟨parts, hparts, rfl⟩ := h
      refine allSound_flatten fun part hpart => ?_
      obtain ⟨entry, _, hentry⟩ := mem_of_mapM_ok hparts part hpart
      simp only [except_bind_ok] at hentry
      obtain ⟨m, hm, operators, _, hoperators⟩ := hentry
      exact operators_sound (countMeasure_sites hm ▸ allSound_nil) hoperators
  · simp only [except_bind_ok, except_pure_ok] at h
    obtain ⟨c, hleaf, rfl⟩ := h
    refine allSound_sitesOf.mpr (List.forall_mem_singleton.mpr ?_)
    exact leaf_sites hleaf ▸ allSound_nil

/-- What is computed is not reduced. -/
theorem reduced_stored {a : Attribute} {f : Reduction} {make : Attribute → Reduction → Measure}
    {path : String} {m : Measure} (h : AggregationKeys.reduced a f make path = .ok m) :
    a.isComputed = false ∧ m = make a f := by
  unfold AggregationKeys.reduced at h
  split at h
  · simp only [except_bind_ok, except_throw_ok, false_and, exists_false] at h
  · rename_i hstored
    simp only [except_bind_ok, except_pure_ok] at h
    obtain ⟨_, _, rfl⟩ := h
    exact ⟨by simpa using hstored, rfl⟩

theorem suffixed_found {find : String → Option Attribute} {key : String} {a : Attribute}
    {f : Reduction} {op : Comparison}
    (h : AggregationKeys.suffixed? find key = some (a, f, op)) : ∃ base, find base = some a := by
  simp only [AggregationKeys.suffixed?, Option.bind_eq_bind, Option.bind_eq_some_iff] at h
  obtain ⟨⟨rest, op'⟩, _, ⟨base, f'⟩, _, a', hfound, heq⟩ := h
  cases heq
  exact ⟨base, hfound⟩

theorem attributePart_sound {find : String → Option Attribute}
    {make : Attribute → Reduction → Measure} (hfind : Measures schema find make)
    {path key : String} {value : Doc} {cs : List Condition}
    (h : k.attributePart find make path key value = .ok cs) :
    AllSound schema (Condition.sitesOf cs) := by
  unfold AggregationKeys.attributePart at h
  simp only at h
  split at h
  · rename_i a hfound
    simp only [except_bind_ok, except_pure_ok] at h
    obtain ⟨reductions, _, parts, hparts, rfl⟩ := h
    refine allSound_flatten fun part hpart => ?_
    obtain ⟨⟨name, operators⟩, _, hreduction⟩ := mem_of_mapM_ok hparts part hpart
    simp only at hreduction
    split at hreduction
    · cases hreduction
    · simp only [except_bind_ok] at hreduction
      obtain ⟨m, hm, operators', _, hoperators⟩ := hreduction
      obtain ⟨hstored, rfl⟩ := reduced_stored hm
      exact operators_sound (hfind _ _ _ hfound hstored) hoperators
  · split at h
    · cases h
    · rename_i a f op hsuffixed
      simp only [except_bind_ok, except_pure_ok] at h
      obtain ⟨m, hm, c, hleaf, rfl⟩ := h
      obtain ⟨base, hfound⟩ := suffixed_found hsuffixed
      obtain ⟨hstored, rfl⟩ := reduced_stored hm
      refine allSound_sitesOf.mpr (List.forall_mem_singleton.mpr ?_)
      exact leaf_sites hleaf ▸ hfind _ _ _ hfound hstored

theorem attributes_sound {find : String → Option Attribute}
    {make : Attribute → Reduction → Measure} (hfind : Measures schema find make)
    {members : Doc.Members} {path : String} {cs : List Condition}
    (h : k.attributes find make members path = .ok cs) :
    AllSound schema (Condition.sitesOf cs) := by
  simp only [AggregationKeys.attributes, except_bind_ok, except_pure_ok] at h
  obtain ⟨parts, hparts, rfl⟩ := h
  refine allSound_flatten fun part hpart => ?_
  obtain ⟨⟨key, value⟩, _, hentry⟩ := mem_of_mapM_ok hparts part hpart
  exact attributePart_sound hfind hentry

theorem junction_sound {below : Doc.Members → String → Result (Option Condition)}
    (hbelow : ∀ members path found, below members path = .ok found →
      AllSound schema (Condition.optionSites found))
    {make : List Condition → Condition}
    (hmake : ∀ cs, (make cs).sites = Condition.sitesOf cs) {items : List Doc} {path : String}
    {cs : List Condition}
    (h : (do
      let operands ← items.mapM fun item => do
        let members ← asRecord item path
        below members path
      return if (operands.filterMap id).isEmpty then [] else [make (operands.filterMap id)] :
        Result (List Condition)) = .ok cs) : AllSound schema (Condition.sitesOf cs) := by
  simp only [except_bind_ok, except_pure_ok] at h
  obtain ⟨found, hfound, rfl⟩ := h
  have hall : AllSound schema (Condition.sitesOf (found.filterMap id)) := by
    refine allSound_filterMap fun c hc => ?_
    obtain ⟨item, _, hitem⟩ := mem_of_mapM_ok hfound c hc
    simp only [except_bind_ok] at hitem
    obtain ⟨members, _, hread⟩ := hitem
    exact hbelow members path c hread
  split
  · exact allSound_nil
  · refine allSound_sitesOf.mpr (List.forall_mem_singleton.mpr ?_)
    exact hmake _ ▸ hall

theorem aggregationEntry_sound (hk : k.Declared schema)
    {below : Doc.Members → String → Result (Option Condition)}
    (hbelow : ∀ members path found, below members path = .ok found →
      AllSound schema (Condition.optionSites found))
    {path key : String} {value : Doc} {cs : List Condition}
    (h : k.entry below path key value = .ok cs) : AllSound schema (Condition.sitesOf cs) := by
  unfold AggregationKeys.entry at h
  simp only at h
  split at h
  · split at h
    · exact junction_sound hbelow (fun _ => by rw [Condition.sites]) h
    · cases h
  · split at h
    · exact junction_sound hbelow (fun _ => by rw [Condition.sites]) h
    · cases h
  · simp only [except_bind_ok, except_pure_ok] at h
    obtain ⟨members, _, inner, hinner, rfl⟩ := h
    have hsound := hbelow _ _ _ hinner
    cases inner with
    | none => exact allSound_nil
    | some c => simpa [Condition.sitesOf, Condition.sites, Condition.optionSites] using hsound
  · exact count_sound h
  · simp only [except_bind_ok] at h
    obtain ⟨members, _, hmembers⟩ := h
    exact attributes_sound (measures_node hk.target) hmembers
  · split at h
    · cases h
    · rename_i properties hproperties
      simp only [except_bind_ok] at h
      obtain ⟨members, _, hmembers⟩ := h
      exact attributes_sound (measures_edge (hk.properties properties hproperties)) hmembers
  · split at h
    · simp only [except_bind_ok, except_pure_ok] at h
      obtain ⟨c, hleaf, rfl⟩ := h
      refine allSound_sitesOf.mpr (List.forall_mem_singleton.mpr ?_)
      exact leaf_sites hleaf ▸ allSound_nil
    · cases h

theorem aggregationCondition_sound (hk : k.Declared schema) {members : Doc.Members}
    {path : String} {found : Option Condition} (h : k.condition members path = .ok found) :
    AllSound schema (Condition.optionSites found) := by
  have hlevel : ∀ n members path found, k.conditionAt n members path = .ok found →
      AllSound schema (Condition.optionSites found) := by
    intro n
    induction n with
    | zero =>
      intro members path found h
      cases h
      exact allSound_nil
    | succ n ih =>
      intro members path found h
      simp only [AggregationKeys.conditionAt, except_bind_ok, except_pure_ok] at h
      obtain ⟨parts, hparts, rfl⟩ := h
      rw [Condition.optionSites_allOf]
      refine allSound_flatten fun part hpart => ?_
      obtain ⟨⟨key, value⟩, _, hentry⟩ := mem_of_mapM_ok hparts part hpart
      exact aggregationEntry_sound hk ih hentry
  exact hlevel _ _ _ _ h

end Aggregations

/-- A reader of objects whose conditions have sound sites. -/
def Level.Sound (schema : Schema) (below : Level) : Prop :=
  ∀ keys members path found, keys.Declared schema → below keys members path = .ok found →
    AllSound schema (Condition.optionSites found)

namespace Reader

variable {r : Reader} {below : Level} (hbelow : below.Sound r.setup.schema)
include hbelow

theorem optionally_sound {keys : Keys} (hkeys : keys.Declared r.setup.schema)
    {members : Option Doc.Members} {path : String} {found : Option Condition}
    (h : optionally below keys members path = .ok found) :
    AllSound r.setup.schema (Condition.optionSites found) := by
  cases members with
  | none =>
    cases h
    exact allSound_nil
  | some members => exact hbelow _ _ _ _ hkeys h

theorem edgePart_sound {relationship : Relationship} {edge : Option Doc} {path : String}
    {found : Option Condition} (h : r.edgePart below relationship edge path = .ok found) :
    AllSound r.setup.schema (Condition.optionSites found) := by
  unfold edgePart at h
  split at h
  · cases h
    exact allSound_nil
  · cases h
    exact allSound_nil
  · split at h
    · cases h
    · rename_i properties hproperties
      simp only [except_bind_ok] at h
      obtain ⟨members, _, hread⟩ := h
      exact hbelow (.edge properties) _ _ _ (propertiesOf_known hproperties) hread

theorem related_sound {relationship : Relationship} {quantifier : Quantifier}
    {node edge : Option Doc} {path : String} {c : Condition}
    (h : r.related below relationship quantifier node edge path = .ok c) :
    AllSound r.setup.schema c.sites := by
  simp only [related, except_bind_ok] at h
  obtain ⟨members, _, target, htarget, h⟩ := h
  cases target with
  | entity e =>
    simp only [except_bind_ok, except_pure_ok] at h
    obtain ⟨filter, hfilter, edgeFilter, hedge, rfl⟩ := h
    have he : (Keys.node e).Declared r.setup.schema := target_known (ofSchema_ok htarget)
    rw [Condition.sites, Condition.targetSites_eq, allSound_append, allSound_flatMap]
    exact ⟨List.forall_mem_singleton.mpr (optionally_sound hbelow he hfilter),
      edgePart_sound hbelow hedge⟩
  | composite composite =>
    simp only [except_bind_ok, except_pure_ok] at h
    obtain ⟨kept, hkept, targets, htargets, edgeFilter, hedge, rfl⟩ := h
    rw [Condition.sites, Condition.targetSites_eq, allSound_append, allSound_flatMap]
    refine ⟨fun p hp => ?_, edgePart_sound hbelow hedge⟩
    obtain ⟨⟨e, rest⟩, hmem, hread⟩ := mem_of_mapM_ok htargets p hp
    simp only [except_bind_ok, except_pure_ok] at hread
    obtain ⟨filter, hfilter, rfl⟩ := hread
    have he : (Keys.node e).Declared r.setup.schema := narrow_known hkept _ hmem
    exact optionally_sound hbelow he hfilter

theorem connected_sound {relationship : Relationship} {quantifier : Quantifier} {value : Doc}
    {path : String} {c : Condition}
    (h : r.connected below relationship quantifier value path = .ok c) :
    AllSound r.setup.schema c.sites := by
  unfold connected at h
  split at h
  · exact related_sound hbelow h
  · simp only [except_bind_ok] at h
    obtain ⟨members, _, h⟩ := h
    split at h
    · cases h
    · exact related_sound hbelow h

theorem relationshipValue_sound {relationship : Relationship} {field path : String} {value : Doc}
    {found : Option Condition} {seen seen' : Entries Spelling}
    (h : r.relationshipValue below relationship field value path seen = .ok (found, seen')) :
    AllSound r.setup.schema (Condition.optionSites found) := by
  unfold relationshipValue at h
  split at h
  · simp only [bind_ok, lift_ok, pure_ok] at h
    obtain ⟨_, _, _, c, _, ⟨hrelated, rfl⟩, rfl, rfl⟩ := h
    exact related_sound hbelow hrelated
  · simp only [bind_ok, lift_ok] at h
    obtain ⟨members, _, ⟨_, rfl⟩, h⟩ := h
    split at h
    · simp only [bind_ok, lift_ok, pure_ok] at h
      obtain ⟨_, _, _, parts, _, ⟨hparts, rfl⟩, rfl, rfl⟩ := h
      rw [Condition.optionSites_allOf, allSound_sitesOf]
      intro c hc
      obtain ⟨⟨key, inner⟩, _, hpart⟩ := mem_of_mapM_ok hparts c hc
      simp only [except_bind_ok] at hpart
      obtain ⟨q, _, hrelated⟩ := hpart
      exact related_sound hbelow hrelated
    · simp only [bind_ok, lift_ok, pure_ok] at h
      obtain ⟨_, _, _, c, _, ⟨hrelated, rfl⟩, rfl, rfl⟩ := h
      exact related_sound hbelow hrelated

omit hbelow in
theorem aggregation_sound {relationship : Relationship} {members : Doc.Members} {path : String}
    {found : Option Condition} (h : r.aggregation relationship members path = .ok found) :
    AllSound r.setup.schema (Condition.optionSites found) := by
  simp only [aggregation, except_bind_ok] at h
  obtain ⟨target, htarget, h⟩ := h
  cases target with
  | entity e =>
    have he : e ∈ r.setup.schema.entities.values := target_known (ofSchema_ok htarget)
    exact aggregationCondition_sound ⟨he, fun _ hp => propertiesOf_known hp⟩ h
  | composite composite => cases h

theorem connectionPart_sound {relationship : Relationship} {path key : String} {inner : Doc}
    {cs : List Condition} (h : r.connectionPart below relationship path key inner = .ok cs) :
    AllSound r.setup.schema (Condition.sitesOf cs) := by
  unfold connectionPart at h
  simp only at h
  split at h
  · simp only [except_bind_ok, except_pure_ok] at h
    obtain ⟨members, _, found, hfound, rfl⟩ := h
    exact allSound_toList.mpr (aggregation_sound hfound)
  · simp only [except_bind_ok, except_pure_ok] at h
    obtain ⟨q, _, c, hconnected, rfl⟩ := h
    exact allSound_sitesOf.mpr
      (List.forall_mem_singleton.mpr (connected_sound hbelow hconnected))

theorem connectionValue_sound {relationship : Relationship} {field path : String} {value : Doc}
    {found : Option Condition} {seen seen' : Entries Spelling}
    (h : r.connectionValue below relationship field value path seen = .ok (found, seen')) :
    AllSound r.setup.schema (Condition.optionSites found) := by
  unfold connectionValue at h
  split at h
  · simp only [bind_ok, lift_ok, pure_ok] at h
    obtain ⟨_, _, _, c, _, ⟨hrelated, rfl⟩, rfl, rfl⟩ := h
    exact related_sound hbelow hrelated
  · simp only [bind_ok, lift_ok] at h
    obtain ⟨members, _, ⟨_, rfl⟩, h⟩ := h
    split at h
    · simp only [bind_ok, lift_ok, pure_ok] at h
      obtain ⟨_, _, _, parts, _, ⟨hparts, rfl⟩, rfl, rfl⟩ := h
      rw [Condition.optionSites_allOf]
      refine allSound_flatten fun part hpart => ?_
      obtain ⟨⟨key, inner⟩, _, hread⟩ := mem_of_mapM_ok hparts part hpart
      exact connectionPart_sound hbelow hread
    · simp only [bind_ok, lift_ok, pure_ok] at h
      obtain ⟨_, _, _, c, _, ⟨hconnected, rfl⟩, rfl, rfl⟩ := h
      exact connected_sound hbelow hconnected

theorem relationshipVariant_sound {e : Entity} {key path : String} {value : Doc}
    {found : Option Condition} {seen seen' : Entries Spelling}
    (h : r.relationshipVariant below e key value path seen = .ok (found, seen')) :
    AllSound r.setup.schema (Condition.optionSites found) := by
  simp only [relationshipVariant] at h
  generalize dropAny key Quantifier.endings = quantified at h
  cases quantified with
  | some split =>
    obtain ⟨base, q⟩ := split
    simp only [Option.map_some, Option.getD_some] at h
    cases hbase : e.relationship? base with
    | some relationship =>
      simp only [hbase, bind_ok, lift_ok, pure_ok] at h
      obtain ⟨_, _, _, c, _, ⟨hrelated, rfl⟩, rfl, rfl⟩ := h
      exact related_sound hbelow hrelated
    | none =>
      cases hconnection : (Text.dropEnd? base "Connection").bind e.relationship? with
      | some relationship =>
        simp only [hbase, hconnection, bind_ok, lift_ok, pure_ok] at h
        obtain ⟨_, _, _, c, _, ⟨hconnected, rfl⟩, rfl, rfl⟩ := h
        exact connected_sound hbelow hconnected
      | none =>
        simp only [hbase, hconnection, pure_ok] at h
        obtain ⟨rfl, rfl⟩ := h
        exact allSound_nil
  | none =>
    simp only [Option.map_none, Option.getD_none] at h
    cases hconnection : (Text.dropEnd? key "Connection").bind e.relationship? with
    | some relationship =>
      simp only [hconnection] at h
      exact connectionValue_sound hbelow h
    | none =>
      cases haggregate : (Text.dropEnd? key "Aggregate").bind e.relationship? with
      | some relationship =>
        simp only [hconnection, haggregate, bind_ok, lift_ok] at h
        obtain ⟨members, _, ⟨_, rfl⟩, hfound, rfl⟩ := h
        exact aggregation_sound hfound
      | none =>
        simp only [hconnection, haggregate, pure_ok] at h
        obtain ⟨rfl, rfl⟩ := h
        exact allSound_nil

omit hbelow in
theorem suffixedKey_sound {keys : Keys} (hkeys : keys.Declared r.setup.schema)
    {key path : String} {value : Doc} {found : Option Condition} {seen seen' : Entries Spelling}
    (h : r.suffixedKey keys key value path seen = .ok (found, seen')) :
    AllSound r.setup.schema (Condition.optionSites found) := by
  simp only [suffixedKey] at h
  generalize hfound : Option.bind _ _ = suffixed at h
  cases suffixed with
  | none => cases h
  | some suffixed =>
    obtain ⟨base, op, subject, a⟩ := suffixed
    simp only [bind_ok, lift_ok, pure_ok] at h
    obtain ⟨_, _, _, c, _, ⟨hcompared, rfl⟩, rfl, rfl⟩ := h
    obtain ⟨⟨base', op'⟩, _, hattribute⟩ := Option.bind_eq_some_iff.mp hfound
    obtain ⟨⟨subject', a'⟩, hkey, heq⟩ := Option.map_eq_some_iff.mp hattribute
    cases heq
    exact compared_sound (Keys.attribute_sound hkeys hkey) hcompared

omit hbelow in
theorem claimKey_sound {key path : String} {value : Doc} {found : Option Condition}
    {seen seen' : Entries Spelling}
    (h : r.claimKey key value path seen = .ok (found, seen')) :
    AllSound r.setup.schema (Condition.optionSites found) := by
  have hclaim : ∀ path, AllSound r.setup.schema (r.claimSubject path).sites :=
    fun _ => allSound_nil
  cases hdrop : dropAny key Comparison.endings with
  | some split =>
    simp only [claimKey, hdrop, bind_ok, lift_ok, pure_ok] at h
    obtain ⟨_, _, _, c, _, ⟨hcompared, rfl⟩, rfl, rfl⟩ := h
    exact compared_sound (hclaim _) hcompared
  | none =>
    simp only [claimKey, hdrop] at h
    exact attributeValue_sound (hclaim _) h

theorem fieldKey_sound {keys : Keys} (hkeys : keys.Declared r.setup.schema) {key path : String}
    {value : Doc} {found : Option Condition} {seen seen' : Entries Spelling}
    (h : r.fieldKey below keys key value path seen = .ok (found, seen')) :
    AllSound r.setup.schema (Condition.optionSites found) := by
  cases keys with
  | claims => exact claimKey_sound h
  | edge p =>
    cases hkey : (Keys.edge p).attribute? key with
    | some own =>
      simp only [fieldKey, hkey] at h
      exact attributeValue_sound (Keys.attribute_sound hkeys hkey) h
    | none =>
      simp only [fieldKey, hkey] at h
      exact suffixedKey_sound hkeys h
  | node e =>
    cases hkey : (Keys.node e).attribute? key with
    | some own =>
      simp only [fieldKey, hkey] at h
      exact attributeValue_sound (Keys.attribute_sound hkeys hkey) h
    | none =>
      cases hrelationship : e.relationship? key with
      | some relationship =>
        simp only [fieldKey, hkey, hrelationship] at h
        exact relationshipValue_sound hbelow h
      | none =>
        simp only [fieldKey, hkey, hrelationship, bind_ok] at h
        obtain ⟨variant, seen'', hvariant, h⟩ := h
        cases variant with
        | some c =>
          obtain ⟨rfl, _⟩ := (pure_ok ..).mp h
          exact relationshipVariant_sound hbelow hvariant
        | none => exact suffixedKey_sound hkeys h

theorem operands_sound {keys : Keys} (hkeys : keys.Declared r.setup.schema) {value : Doc}
    {path : String} {cs : List Condition} (h : operands below keys value path = .ok cs) :
    AllSound r.setup.schema (Condition.sitesOf cs) := by
  unfold operands at h
  split at h
  · simp only [except_bind_ok, except_pure_ok] at h
    obtain ⟨found, hfound, rfl⟩ := h
    refine allSound_filterMap fun c hc => ?_
    obtain ⟨⟨index, item⟩, _, hitem⟩ := mem_of_mapM_ok hfound c hc
    simp only [except_bind_ok] at hitem
    obtain ⟨members, _, hread⟩ := hitem
    exact hbelow _ _ _ _ hkeys hread
  · cases h

theorem entry_sound {keys : Keys} (hkeys : keys.Declared r.setup.schema) {path key : String}
    {value : Doc} {cs : List Condition} {seen seen' : Entries Spelling}
    (h : r.entry below keys path key value seen = .ok (cs, seen')) :
    AllSound r.setup.schema (Condition.sitesOf cs) := by
  unfold entry at h
  split at h
  · simp only [bind_ok, lift_ok, pure_ok] at h
    obtain ⟨found, _, ⟨hfound, rfl⟩, rfl, rfl⟩ := h
    have hsound := operands_sound hbelow hkeys hfound
    split
    · exact allSound_nil
    · simpa [Condition.sitesOf, Condition.sites] using hsound
  · simp only [bind_ok, lift_ok, pure_ok] at h
    obtain ⟨found, _, ⟨hfound, rfl⟩, rfl, rfl⟩ := h
    have hsound := operands_sound hbelow hkeys hfound
    split
    · exact allSound_nil
    · simpa [Condition.sitesOf, Condition.sites] using hsound
  · simp only [bind_ok, lift_ok, pure_ok] at h
    obtain ⟨members, _, ⟨_, rfl⟩, inner, _, ⟨hinner, rfl⟩, rfl, rfl⟩ := h
    have hsound := hbelow _ _ _ _ hkeys hinner
    cases inner with
    | none => exact allSound_nil
    | some c => simpa [Condition.sitesOf, Condition.sites, Condition.optionSites] using hsound
  · simp only [bind_ok, pure_ok] at h
    obtain ⟨found, _, hfound, rfl, rfl⟩ := h
    exact allSound_toList.mpr (fieldKey_sound hbelow hkeys hfound)

theorem entries_sound {keys : Keys} (hkeys : keys.Declared r.setup.schema) {path : String}
    {members : Doc.Members} {cs : List Condition} {seen seen' : Entries Spelling}
    (h : r.entries below keys path members seen = .ok (cs, seen')) :
    AllSound r.setup.schema (Condition.sitesOf cs) := by
  induction members generalizing cs seen with
  | nil =>
    obtain ⟨rfl, _⟩ := (pure_ok ..).mp h
    exact allSound_nil
  | cons entry rest ih =>
    obtain ⟨key, value⟩ := entry
    simp only [entries, bind_ok, pure_ok] at h
    obtain ⟨first, _, hfirst, more, _, hmore, rfl, rfl⟩ := h
    have hentry := entry_sound hbelow hkeys hfirst
    have hrest := ih hmore
    rw [allSound_sitesOf] at hentry hrest ⊢
    exact List.forall_mem_append.mpr ⟨hentry, hrest⟩

omit hbelow in
/-- The induction is on the height of the object. -/
theorem conditionAt_sound (r : Reader) (n : Nat) :
    Level.Sound r.setup.schema (r.conditionAt n) := by
  induction n with
  | zero =>
    intro keys members path found _ h
    cases h
    exact allSound_nil
  | succ n ih =>
    intro keys members path found hkeys h
    simp only [conditionAt, StateT.run, except_bind_ok, except_pure_ok] at h
    obtain ⟨⟨parts, seen⟩, hparts, rfl⟩ := h
    rw [Condition.optionSites_allOf]
    exact entries_sound ih hkeys hparts

end Reader

namespace Setup

variable {s : Setup} {keys : Keys}

theorem requested_sound (hkeys : keys.Declared s.schema) {members : Option Doc.Members}
    {path : String} {found : Option Condition} (h : s.requested keys members path = .ok found) :
    AllSound s.schema (Condition.optionSites found) := by
  cases members with
  | none =>
    cases h
    exact allSound_nil
  | some members => exact Reader.conditionAt_sound ⟨s, false⟩ _ keys members path found hkeys h

theorem ruled_sound (hkeys : keys.Declared s.schema) {members : Doc.Members} {path : String}
    {found : Option Condition} (h : s.ruled keys members path = .ok found) :
    AllSound s.schema (Condition.optionSites found) :=
  Reader.conditionAt_sound ⟨s, true⟩ _ keys members path found hkeys h

end Setup

section Rules

variable {s : Setup} {e : Entity} (he : e ∈ s.schema.entities.values)

theorem templateParts_sound {keys : Keys} (hkeys : keys.Declared s.schema)
    {template : Option Doc} {path : String} {cs : List Condition}
    (h : templateParts s keys template path = .ok cs) :
    AllSound s.schema (Condition.sitesOf cs) := by
  cases template with
  | none =>
    cases h
    exact allSound_nil
  | some doc =>
    simp only [templateParts, except_bind_ok, except_pure_ok] at h
    obtain ⟨members, _, found, hfound, rfl⟩ := h
    exact allSound_toList.mpr (Setup.ruled_sound hkeys hfound)

include he

theorem ruleCondition_sound {d : Declared} {found : Option Condition}
    (h : ruleCondition s e d = .ok found) : AllSound s.schema (Condition.optionSites found) := by
  simp only [ruleCondition, except_bind_ok, except_pure_ok] at h
  obtain ⟨node, hnode, claims, hclaims, rfl⟩ := h
  have hentity : (Keys.node e).Declared s.schema := he
  have hprincipal : Keys.claims.Declared s.schema := trivial
  have hnode := allSound_sitesOf.mp (templateParts_sound hentity hnode)
  have hclaims := allSound_sitesOf.mp (templateParts_sound hprincipal hclaims)
  rw [Condition.optionSites_allOf, allSound_sitesOf]
  intro c hc
  rcases List.mem_append.mp hc with hc | hc
  · rcases List.mem_append.mp hc with hc | hc
    · split at hc
      · rw [List.mem_singleton] at hc
        exact hc ▸ allSound_nil
      · exact absurd hc List.not_mem_nil
    · exact hnode c hc
  · exact hclaims c hc

theorem ruleConditions_sound {attributes : List Attribute} {test : Rule → Bool}
    {cs : List Condition} (h : ruleConditions s e attributes test = .ok cs) :
    AllSound s.schema (Condition.sitesOf cs) := by
  refine allSound_sitesOf.mpr fun c hc => ?_
  obtain ⟨d, _, _, hread⟩ := ruleConditions_origin h hc
  exact ruleCondition_sound he hread

theorem guardFilter_sound {attributes : List Attribute} {action : Action}
    {rules : Option Condition} (h : guardFilter s e attributes action = .ok rules) :
    AllSound s.schema (Condition.optionSites rules) := by
  simp only [guardFilter, except_bind_ok, except_pure_ok] at h
  obtain ⟨parts, hparts, rfl⟩ := h
  rw [Condition.optionSites_allOf]
  exact ruleConditions_sound he hparts

theorem guardValidations_sound {attributes : List Attribute} {action : Action} {moment : Moment}
    {cs : List Condition} (h : guardValidations s e attributes action moment = .ok cs) :
    AllSound s.schema (Condition.sitesOf cs) :=
  ruleConditions_sound he h

omit he in
/-- What is asked goes beside what the rules ask. -/
theorem allOf_sound {asked : List Condition} {rules : Option Condition}
    (hasked : AllSound s.schema (Condition.sitesOf asked))
    (hrules : AllSound s.schema (Condition.optionSites rules)) :
    AllSound s.schema (Condition.optionSites (Condition.allOf (asked ++ rules.toList))) := by
  rw [Condition.optionSites_allOf, allSound_sitesOf]
  exact List.forall_mem_append.mpr
    ⟨allSound_sitesOf.mp hasked, allSound_sitesOf.mp (allSound_toList.mpr hrules)⟩

theorem guardedScope_sound {relationship : Option Relationship} {asked : List Condition}
    {attributes : List Attribute} {action : Action} {scope : Scope}
    (hasked : AllSound s.schema (Condition.sitesOf asked))
    (h : guardedScope s e relationship asked attributes action = .ok scope) :
    AllSound s.schema scope.sites := by
  simp only [guardedScope, except_bind_ok, except_pure_ok] at h
  obtain ⟨rules, hrules, validations, hvalidations, rfl⟩ := h
  exact allSound_append.mpr
    ⟨allOf_sound hasked (guardFilter_sound he hrules), guardValidations_sound he hvalidations⟩

end Rules

end GraphSelection.Resolve
