import GraphSelection.Proofs.Restated.Places
import GraphSelection.Proofs.Spelled.Forms

/-!
Names that are not taken for keys with endings. A key with an ending can be unfolded: the name
before the ending becomes the key, and the ending moves into an object under it. As long as the
names of a schema are clean, a key with an ending has one form, and so has the name before it.
-/
namespace GraphSelection.Resolve

open GraphSelection Plan

section Spellings

/-- Comparisons in the two spellings: as the ending of a key, and as a key of an object. -/
def comparisonSpellings : List (String × String) :=
  [("_EQ", "eq"), ("_GT", "gt"), ("_GTE", "gte"), ("_LT", "lt"), ("_LTE", "lte"),
   ("_CONTAINS", "contains"), ("_STARTS_WITH", "startsWith"), ("_ENDS_WITH", "endsWith"),
   ("_IN", "in"), ("_INCLUDES", "includes")]

def quantifierSpellings : List (String × String) :=
  [("_SOME", "some"), ("_SOME", "SOME"), ("_ALL", "all"), ("_ALL", "ALL"), ("_NONE", "none"),
   ("_NONE", "NONE"), ("_SINGLE", "single"), ("_SINGLE", "SINGLE")]

/-- Comparisons of aggregations. -/
def measureSpellings : List (String × String) :=
  [("_EQ", "eq"), ("_EQUAL", "eq"), ("_GT", "gt"), ("_GTE", "gte"), ("_LT", "lt"), ("_LTE", "lte")]

def reductionSpellings : List (String × String) :=
  [("_MIN", "min"), ("_MAX", "max"), ("_AVERAGE", "average"), ("_SUM", "sum"),
   ("_SHORTEST_LENGTH", "shortestLength"), ("_LONGEST_LENGTH", "longestLength"),
   ("_AVERAGE_LENGTH", "averageLength")]

variable {ending name : String}

/-- An ending of a table and a name for the same. -/
theorem exists_ending_of_any {α : Type} [DecidableEq α] {table : List (String × α)}
    (named : String → Option α)
    (h : (table.any fun e => e.1 == ending && named name == some e.2) = true) :
    ∃ a, (ending, a) ∈ table ∧ named name = some a := by
  obtain ⟨⟨ending', a⟩, hmem, hboth⟩ := List.any_eq_true.mp h
  rw [Bool.and_eq_true, beq_iff_eq, beq_iff_eq] at hboth
  obtain ⟨rfl, hname⟩ := hboth
  exact ⟨a, hmem, hname⟩

theorem comparison_of_spelling (h : (ending, name) ∈ comparisonSpellings) :
    ∃ op, (ending, op) ∈ Comparison.endings ∧ Comparison.ofGeneric? name = some op := by
  have hall : ∀ p ∈ comparisonSpellings,
      (Comparison.endings.any fun e => e.1 == p.1 && Comparison.ofGeneric? p.2 == some e.2) = true
      := by
    decide
  exact exists_ending_of_any Comparison.ofGeneric? (hall _ h)

theorem quantifier_of_spelling (h : (ending, name) ∈ quantifierSpellings) :
    ∃ q, (ending, q) ∈ Quantifier.endings ∧ Quantifier.ofGeneric? name = some q := by
  have hall : ∀ p ∈ quantifierSpellings,
      (Quantifier.endings.any fun e => e.1 == p.1 && Quantifier.ofGeneric? p.2 == some e.2) = true
      := by
    decide
  exact exists_ending_of_any Quantifier.ofGeneric? (hall _ h)

theorem measure_of_spelling (h : (ending, name) ∈ measureSpellings) :
    ∃ op, (ending, op) ∈ Comparison.aggregateEndings ∧ Comparison.ofGeneric? name = some op := by
  have hall : ∀ p ∈ measureSpellings, (Comparison.aggregateEndings.any fun e =>
      e.1 == p.1 && Comparison.ofGeneric? p.2 == some e.2) = true := by
    decide
  exact exists_ending_of_any Comparison.ofGeneric? (hall _ h)

theorem reduction_of_spelling (h : (ending, name) ∈ reductionSpellings) :
    ∃ f, (ending, f) ∈ Reduction.endings ∧ List.lookup name Reduction.comparable = some f := by
  have hall : ∀ p ∈ reductionSpellings, (Reduction.endings.any fun e =>
      e.1 == p.1 && List.lookup p.2 Reduction.comparable == some e.2) = true := by
    decide
  exact exists_ending_of_any (fun name => List.lookup name Reduction.comparable) (hall _ h)

end Spellings

section Clean

/-- What keys end in that are made of a name. -/
def suffixes : List String :=
  "Connection" :: "Aggregate" ::
    (comparisonSpellings ++ quantifierSpellings ++ reductionSpellings ++ measureSpellings).map
      Prod.fst

/-- Keys with a meaning of their own. -/
def reservedKeys : List String :=
  "AND" :: "OR" :: "NOT" :: "typename" :: quantifierSpellings.map Prod.snd

/-- A name that neither ends like a key with an ending nor is a reserved key. -/
structure CleanName (x : String) : Prop where
  ending : ∀ ending ∈ suffixes, ¬ EndsIn x ending
  reserved : x ∉ reservedKeys

instance (x : String) : Decidable (CleanName x) :=
  decidable_of_iff ((∀ ending ∈ suffixes, ¬ EndsIn x ending) ∧ x ∉ reservedKeys)
    ⟨fun h => ⟨h.1, h.2⟩, fun h => ⟨h.ending, h.reserved⟩⟩

/-- The names of the attributes of all entities and of all relationships. -/
def attributeNames (schema : Schema) : List String :=
  schema.entities.values.flatMap (fun e => e.attributes.keys) ++
    schema.propertySets.values.flatMap fun p => p.attributes.keys

def relationshipNames (schema : Schema) : List String :=
  schema.entities.values.flatMap fun e => e.relationships.keys

/-- Attributes and relationships have different names, all of them clean. -/
structure CleanNames (schema : Schema) : Prop where
  disjoint : ∀ x ∈ attributeNames schema, x ∉ relationshipNames schema
  attributes : ∀ x ∈ attributeNames schema, CleanName x
  relationships : ∀ x ∈ relationshipNames schema, CleanName x

instance (schema : Schema) : Decidable (CleanNames schema) :=
  decidable_of_iff ((∀ x ∈ attributeNames schema, x ∉ relationshipNames schema) ∧
      (∀ x ∈ attributeNames schema, CleanName x) ∧ ∀ x ∈ relationshipNames schema, CleanName x)
    ⟨fun h => ⟨h.1, h.2.1, h.2.2⟩, fun h => ⟨h.disjoint, h.attributes, h.relationships⟩⟩

end Clean

/-- What the keys of an object are made of. -/
inductive Vocabulary where
  /-- Names of attributes and relationships. -/
  | fields
  /-- Paths of claims. -/
  | claims
  /-- Counts of an aggregation. -/
  | counts
  /-- Names of reduced attributes. -/
  | reductions
  /-- Members of a union. -/
  | members (names : List String)
  | other

/-- A key with an ending, the key that is left of it, and the keys of the objects inside. -/
inductive Unfolds (schema : Schema) : Vocabulary → String → String → List String → Prop
  | compared {f ending name : String} (hf : f ∈ attributeNames schema)
      (h : (ending, name) ∈ comparisonSpellings) : Unfolds schema .fields (f ++ ending) f [name]
  | claimed {path ending name : String} (h : (ending, name) ∈ comparisonSpellings) :
      Unfolds schema .claims (path ++ ending) path [name]
  | quantified {f ending name : String} (hf : f ∈ relationshipNames schema)
      (h : (ending, name) ∈ quantifierSpellings) : Unfolds schema .fields (f ++ ending) f [name]
  | connected {f ending name : String} (hf : f ∈ relationshipNames schema)
      (h : (ending, name) ∈ quantifierSpellings) :
      Unfolds schema .fields (f ++ "Connection" ++ ending) (f ++ "Connection") [name]
  | counted {ending name : String} (h : (ending, name) ∈ measureSpellings) :
      Unfolds schema .counts ("count" ++ ending) "count" [name]
  | reduced {f reduction ending inner name : String} (hf : f ∈ attributeNames schema)
      (hreduction : (reduction, inner) ∈ reductionSpellings)
      (h : (ending, name) ∈ measureSpellings) :
      Unfolds schema .reductions (f ++ reduction ++ ending) f [inner, name]
  /-- A key that no member of a union has, neither as it stands nor unfolded. -/
  | foreign {names inner : List String} {key base : String}
      (h : Unfolds schema .fields key base inner) (hkey : key ∉ names) (hbase : base ∉ names) :
      Unfolds schema (.members names) key base inner

theorem Unfolds.false_of_other {schema : Schema} {key base : String} {inner : List String}
    (h : Unfolds schema .other key base inner) : False := by
  cases h

section Endings

variable {ending x : String}

theorem reserved_plain : ∀ key ∈ reservedKeys, ∀ ending ∈ suffixes, ¬ EndsIn key ending := by
  decide +kernel

theorem connectives_reserved : ∀ key ∈ connectives, key ∈ reservedKeys := by decide

theorem apart_quantifiers :
    ∀ ending ∈ Quantifier.endings.map Prod.fst, ∀ other ∈ ["Connection", "Aggregate"],
      Apart ending other := by
  decide

theorem apart_connection : Apart "Connection" "Aggregate" := by decide

theorem comparison_suffix {op : Comparison} (h : (ending, op) ∈ Comparison.endings) :
    ending ∈ suffixes := by
  have hall : ∀ entry ∈ Comparison.endings, entry.1 ∈ suffixes := by decide
  exact hall _ h

theorem quantifier_suffix {q : Quantifier} (h : (ending, q) ∈ Quantifier.endings) :
    ending ∈ suffixes := by
  have hall : ∀ entry ∈ Quantifier.endings, entry.1 ∈ suffixes := by decide
  exact hall _ h

theorem aggregate_suffix {op : Comparison} (h : (ending, op) ∈ Comparison.aggregateEndings) :
    ending ∈ suffixes := by
  have hall : ∀ entry ∈ Comparison.aggregateEndings, entry.1 ∈ suffixes := by decide
  exact hall _ h

theorem connection_suffix : "Connection" ∈ suffixes := List.mem_cons_self

namespace CleanName

variable (h : CleanName x)
include h

theorem dropAny_of_suffixes {α : Type} {table : List (String × α)}
    (htable : ∀ {ending : String} {a : α}, (ending, a) ∈ table → ending ∈ suffixes) :
    dropAny x table = none := by
  refine dropAny_eq_none.mpr fun ending hmem => h.ending ending ?_
  obtain ⟨⟨ending, a⟩, hentry, rfl⟩ := List.mem_map.mp hmem
  exact htable hentry

theorem dropAny_comparisons : dropAny x Comparison.endings = none :=
  h.dropAny_of_suffixes comparison_suffix

theorem dropAny_quantifiers : dropAny x Quantifier.endings = none :=
  h.dropAny_of_suffixes quantifier_suffix

theorem dropAny_aggregates : dropAny x Comparison.aggregateEndings = none :=
  h.dropAny_of_suffixes aggregate_suffix

theorem dropEnd?_connection : Text.dropEnd? x "Connection" = none :=
  dropEnd?_eq_none.mpr (h.ending _ List.mem_cons_self)

theorem dropEnd?_aggregate : Text.dropEnd? x "Aggregate" = none :=
  dropEnd?_eq_none.mpr (h.ending _ (List.mem_cons_of_mem _ List.mem_cons_self))

end CleanName

end Endings

namespace Keys

/-- The keys are about a node or a relationship of the schema, or about claims. -/
def Declared (schema : Schema) : Keys → Prop
  | .node e => e ∈ schema.entities.values
  | .edge p => p ∈ schema.propertySets.values
  | .claims => True

/-- The relationship under a key. -/
def relationship? (keys : Keys) (name : String) : Option Relationship :=
  match keys with
  | .node e => e.relationship? name
  | _ => none

variable {schema : Schema} {keys : Keys} {name : String}

theorem Declared.attribute (h : keys.Declared schema) {found : Subject × Attribute}
    (hfound : keys.attribute? name = some found) : name ∈ attributeNames schema := by
  have hkeys : ∀ {es : Entries Attribute} {a : Attribute}, es.get? name = some a → name ∈ es.keys :=
    fun hget => List.mem_map.mpr ⟨_, Entries.mem_of_get? hget, rfl⟩
  cases keys with
  | claims => cases hfound
  | node e =>
    obtain ⟨a, ha, _⟩ := Option.map_eq_some_iff.mp hfound
    exact List.mem_append_left _ (List.mem_flatMap.mpr ⟨e, h, hkeys ha⟩)
  | edge p =>
    obtain ⟨a, ha, _⟩ := Option.map_eq_some_iff.mp hfound
    exact List.mem_append_right _ (List.mem_flatMap.mpr ⟨p, h, hkeys ha⟩)

theorem Declared.relationship (h : keys.Declared schema) {r : Relationship}
    (hfound : keys.relationship? name = some r) : name ∈ relationshipNames schema := by
  cases keys with
  | node e =>
    exact List.mem_flatMap.mpr ⟨e, h, List.mem_map.mpr ⟨_, Entries.mem_of_get? hfound, rfl⟩⟩
  | edge p => cases hfound
  | claims => cases hfound

theorem Declared.attribute_none (h : keys.Declared schema) (hname : name ∉ attributeNames schema) :
    keys.attribute? name = none := by
  cases hfound : keys.attribute? name with
  | none => rfl
  | some found => exact absurd (h.attribute hfound) hname

theorem Declared.relationship_none (h : keys.Declared schema)
    (hname : name ∉ relationshipNames schema) : keys.relationship? name = none := by
  cases hfound : keys.relationship? name with
  | none => rfl
  | some r => exact absurd (h.relationship hfound) hname

end Keys

section Suffixed

variable {schema : Schema} (hclean : CleanNames schema) {ending : String}
include hclean

theorem CleanNames.suffixed_attribute (hending : ending ∈ suffixes) (x : String) :
    x ++ ending ∉ attributeNames schema :=
  fun h => (hclean.attributes _ h).ending ending hending (endsIn_append x ending)

theorem CleanNames.suffixed_relationship (hending : ending ∈ suffixes) (x : String) :
    x ++ ending ∉ relationshipNames schema :=
  fun h => (hclean.relationships _ h).ending ending hending (endsIn_append x ending)

end Suffixed

section Forms

variable {schema : Schema} {keys : Keys} {key base x : String}

/-- The forms that keys get from the names of relationships. -/
def Keys.variantForm? (keys : Keys) (key : String) : Option KeyForm :=
  match keys with
  | .node e => Resolve.variantForm? e key
  | _ => none

attribute [local simp] Reader.form variantForm? Keys.variantForm? Keys.relationship?
  Keys.comparedForm

/-- A key that is no name is made of one, or is unknown. -/
theorem form_unnamed (r : Reader) (hkeys : keys ≠ .claims) (hattribute : keys.attribute? key = none)
    (hrelationship : keys.relationship? key = none) :
    r.form keys key = (keys.variantForm? key).getD (keys.comparedForm key) := by
  cases keys with
  | claims => exact absurd rfl hkeys
  | edge p => simp [hattribute]
  | node e =>
    have hnone : e.relationship? key = none := hrelationship
    simp [hattribute, hnone]

theorem comparedForm_none (h : dropAny key Comparison.endings = none) :
    keys.comparedForm key = .unknown := by
  simp [h]

theorem comparedForm_some {op : Comparison}
    (h : dropAny key Comparison.endings = some (base, op)) :
    keys.comparedForm key =
      ((keys.attribute? base).map fun found =>
        KeyForm.compared base op found.1 (some found.2)).getD .unknown := by
  cases hattribute : keys.attribute? base <;> simp [h, hattribute]

/-- A key with none of the endings of relationships. -/
theorem variantForm?_plain (hquantifier : dropAny key Quantifier.endings = none)
    (hconnection : Text.dropEnd? key "Connection" = none)
    (haggregate : Text.dropEnd? key "Aggregate" = none) : keys.variantForm? key = none := by
  cases keys with
  | node e => simp [hquantifier, hconnection, haggregate]
  | edge p => rfl
  | claims => rfl

theorem variantForm?_quantified {q : Quantifier}
    (hquantifier : dropAny key Quantifier.endings = some (base, q))
    (hconnection : Text.dropEnd? base "Connection" = none) :
    keys.variantForm? key = (keys.relationship? base).map (KeyForm.quantified base q) := by
  cases keys with
  | node e =>
    cases hfound : e.relationship? base <;> simp [hquantifier, hconnection, hfound]
  | edge p => rfl
  | claims => rfl

theorem variantForm?_connected {q : Quantifier}
    (hquantifier : dropAny key Quantifier.endings = some (base, q))
    (hbase : keys.relationship? base = none)
    (hconnection : Text.dropEnd? base "Connection" = some x) :
    keys.variantForm? key = (keys.relationship? x).map (KeyForm.connected base q) := by
  cases keys with
  | node e =>
    have hnone : e.relationship? base = none := hbase
    cases hfound : e.relationship? x <;> simp [hquantifier, hconnection, hnone, hfound]
  | edge p => rfl
  | claims => rfl

theorem variantForm?_connection (hquantifier : dropAny key Quantifier.endings = none)
    (hconnection : Text.dropEnd? key "Connection" = some x)
    (haggregate : Text.dropEnd? key "Aggregate" = none) :
    keys.variantForm? key = (keys.relationship? x).map KeyForm.connection := by
  cases keys with
  | node e =>
    cases hfound : e.relationship? x <;> simp [hquantifier, hconnection, haggregate, hfound]
  | edge p => rfl
  | claims => rfl

end Forms

section Apart

variable {ending x : String}

theorem Apart.symm {x y : String} (h : Apart x y) : Apart y x := ⟨h.2, h.1⟩

theorem comparison_apart {op : Comparison} (h : (ending, op) ∈ Comparison.endings) :
    ∀ other ∈ "Connection" :: "Aggregate" :: Quantifier.endings.map Prod.fst,
      Apart ending other :=
  fun other hother =>
    (apart_comparisons other hother ending (List.mem_map_of_mem (f := Prod.fst) h)).symm

theorem quantifier_apart {q : Quantifier} (h : (ending, q) ∈ Quantifier.endings) :
    ∀ other ∈ Comparison.endings.map Prod.fst, Apart ending other :=
  apart_comparisons ending (List.mem_append_right ["Connection", "Aggregate"]
    (List.mem_map_of_mem (f := Prod.fst) h))

end Apart

section Readings

variable {schema : Schema} (hclean : CleanNames schema) {keys : Keys}
  (hdeclared : keys.Declared schema) (hkeys : keys ≠ .claims) (r : Reader) {f ending : String}
include hclean hdeclared hkeys

/-- A comparison of an attribute that the keys have. -/
theorem form_compared {op : Comparison} (hending : (ending, op) ∈ Comparison.endings) (f : String) :
    r.form keys (f ++ ending) =
      ((keys.attribute? f).map fun found =>
        KeyForm.compared f op found.1 (some found.2)).getD .unknown := by
  have hsuffix := comparison_suffix hending
  have hapart := comparison_apart hending
  have hother : ∀ other ∈ ["Connection", "Aggregate"], Text.dropEnd? (f ++ ending) other = none :=
    fun other hother => dropEnd?_eq_none.mpr
      ((hapart other (List.mem_append_left (Quantifier.endings.map Prod.fst) hother)).not_endsIn f)
  have hquantifier : dropAny (f ++ ending) Quantifier.endings = none := by
    refine dropAny_other (fun other hmem => hapart other ?_) f
    exact List.mem_append_right ["Connection", "Aggregate"] hmem
  rw [form_unnamed r hkeys (hdeclared.attribute_none (hclean.suffixed_attribute hsuffix f))
      (hdeclared.relationship_none (hclean.suffixed_relationship hsuffix f)),
    variantForm?_plain hquantifier (hother _ (by simp)) (hother _ (by simp)),
    Option.getD_none, comparedForm_some (dropAny_append distinct_comparisons hending f)]

/-- The name of an attribute that the keys have. -/
theorem form_attribute (hf : f ∈ attributeNames schema) :
    r.form keys f =
      ((keys.attribute? f).map fun found => KeyForm.own found.1 (some found.2)).getD .unknown := by
  cases hattribute : keys.attribute? f with
  | some found =>
    cases keys with
    | claims => exact absurd rfl hkeys
    | edge p => simp only [Reader.form, hattribute, Option.map_some, Option.getD_some]
    | node e => simp only [Reader.form, hattribute, Option.map_some, Option.getD_some]
  | none =>
    have hname := hclean.attributes f hf
    rw [form_unnamed r hkeys hattribute (hdeclared.relationship_none (hclean.disjoint f hf)),
      variantForm?_plain hname.dropAny_quantifiers hname.dropEnd?_connection
        hname.dropEnd?_aggregate,
      Option.getD_none, comparedForm_none hname.dropAny_comparisons]
    rfl

/-- A relationship that the keys have, with a quantifier. -/
theorem form_quantified (hf : f ∈ relationshipNames schema) {q : Quantifier}
    (hending : (ending, q) ∈ Quantifier.endings) :
    r.form keys (f ++ ending) =
      ((keys.relationship? f).map (KeyForm.quantified f q)).getD .unknown := by
  have hsuffix := quantifier_suffix hending
  rw [form_unnamed r hkeys (hdeclared.attribute_none (hclean.suffixed_attribute hsuffix f))
      (hdeclared.relationship_none (hclean.suffixed_relationship hsuffix f)),
    variantForm?_quantified (dropAny_append distinct_quantifiers hending f)
      (hclean.relationships f hf).dropEnd?_connection,
    comparedForm_none (dropAny_other (quantifier_apart hending) f)]

/-- The name of a relationship that the keys have. -/
theorem form_relationship (hf : f ∈ relationshipNames schema) :
    r.form keys f = ((keys.relationship? f).map KeyForm.related).getD .unknown := by
  have hattribute : keys.attribute? f = none :=
    hdeclared.attribute_none fun hmem => hclean.disjoint f hmem hf
  cases hrelationship : keys.relationship? f with
  | some relationship =>
    cases keys with
    | claims => exact absurd rfl hkeys
    | edge p => cases hrelationship
    | node e =>
      have hfound : e.relationship? f = some relationship := hrelationship
      simp only [Reader.form, hattribute, hfound, Option.map_some, Option.getD_some]
  | none =>
    have hname := hclean.relationships f hf
    rw [form_unnamed r hkeys hattribute hrelationship,
      variantForm?_plain hname.dropAny_quantifiers hname.dropEnd?_connection
        hname.dropEnd?_aggregate,
      Option.getD_none, comparedForm_none hname.dropAny_comparisons]
    rfl

/-- A connection that the keys have, with a quantifier. -/
theorem form_connected {q : Quantifier} (hending : (ending, q) ∈ Quantifier.endings) (f : String) :
    r.form keys (f ++ "Connection" ++ ending) =
      ((keys.relationship? f).map (KeyForm.connected (f ++ "Connection") q)).getD .unknown := by
  have hsuffix := quantifier_suffix hending
  rw [form_unnamed r hkeys (hdeclared.attribute_none (hclean.suffixed_attribute hsuffix _))
      (hdeclared.relationship_none (hclean.suffixed_relationship hsuffix _)),
    variantForm?_connected (dropAny_append distinct_quantifiers hending _)
      (hdeclared.relationship_none (hclean.suffixed_relationship connection_suffix f))
      (dropEnd?_append f "Connection"),
    comparedForm_none (dropAny_other (quantifier_apart hending) _)]

/-- The key of a connection that the keys have. -/
theorem form_connection (f : String) :
    r.form keys (f ++ "Connection") =
      ((keys.relationship? f).map KeyForm.connection).getD .unknown := by
  have hquantifier : dropAny (f ++ "Connection") Quantifier.endings = none :=
    dropAny_other (fun other hother => (apart_quantifiers other hother _ (by simp)).symm) f
  have hcompared : dropAny (f ++ "Connection") Comparison.endings = none :=
    dropAny_other (apart_comparisons "Connection" List.mem_cons_self) f
  rw [form_unnamed r hkeys
      (hdeclared.attribute_none (hclean.suffixed_attribute connection_suffix f))
      (hdeclared.relationship_none (hclean.suffixed_relationship connection_suffix f)),
    variantForm?_connection hquantifier (dropEnd?_append f "Connection")
      (dropEnd?_eq_none.mpr (apart_connection.not_endsIn f)),
    comparedForm_none hcompared]

end Readings

section Claims

variable (r : Reader) {ending path : String}

theorem form_claimed {op : Comparison} (hending : (ending, op) ∈ Comparison.endings)
    (path : String) :
    r.form .claims (path ++ ending) = .compared path op (r.claimSubject path) none := by
  simp only [Reader.form, dropAny_append distinct_comparisons hending]

theorem form_claim (hpath : CleanName path) :
    r.form .claims path = .own (r.claimSubject path) none := by
  simp only [Reader.form, hpath.dropAny_comparisons]

end Claims

end GraphSelection.Resolve
