import GraphSelection.Proofs.Closed
import GraphSelection.Proofs.Total
import Mathlib.Data.List.TakeWhile

/-!
Which definitions are accepted, and what a schema that is built from one keeps of it. A definition
is accepted when it is well formed, as said below without the checks; the schema then resolves each
name that it holds, keeps the order of declaration, and its entities give the attributes of an
interface the kind and the list mark that the interface gives them.
-/
namespace GraphSelection

section Steps

variable {ε α : Type}

theorem Entries.has_iff {es : Entries α} {key : String} : es.has key = true ↔ key ∈ es.keys := by
  rw [Entries.has, Option.isSome_iff_ne_none, ne_eq, Entries.get?, List.lookup_eq_none_iff]
  simp [Entries.keys]

theorem Entries.get?_of_mem_keys {es : Entries α} {key : String} (h : key ∈ es.keys) :
    ∃ value, es.get? key = some value :=
  Option.isSome_iff_exists.mp (Entries.has_iff.mpr h)

theorem Entries.forall_values {es : Entries α} {p : α → Prop} :
    (∀ value ∈ es.values, p value) ↔ ∀ entry ∈ es, p entry.2 :=
  List.forall_mem_map

theorem forM_ok_iff {f : α → Except ε Unit} {xs : List α} :
    xs.forM f = .ok () ↔ ∀ x ∈ xs, f x = .ok () := by
  refine ⟨forM_ok, fun h => ?_⟩
  induction xs with
  | nil => rfl
  | cons x rest ih =>
    rw [List.forM_eq_forM, List.forM_cons, except_bind_ok]
    exact ⟨(), h x List.mem_cons_self, ih fun y hy => h y (List.mem_cons_of_mem _ hy)⟩

/-- A step that fails under a condition lets the rest pass when the condition does not hold. -/
theorem unless_error_ok {c : Prop} [Decidable c] {e : ε} {k : Unit → Except ε α}
    {rest : Except ε α} {a : α} :
    (if c then (Except.error e : Except ε Unit) >>= k else rest) = .ok a ↔ ¬ c ∧ rest = .ok a := by
  by_cases hc : c <;> simp [hc, bind, Except.bind]

theorem before_ok {first : Except ε Unit} {rest : Except ε α} {a : α} :
    (first >>= fun _ => rest) = .ok a ↔ first = .ok () ∧ rest = .ok a := by
  cases first <;> simp [bind, Except.bind]

/-- Results that tell what they were made from tell it in the same order. -/
theorem map_of_mapM_ok {β : Type} {f : α → Except ε β} {g : β → α} {xs : List α} {ys : List β}
    (hg : ∀ x y, f x = .ok y → g y = x) (h : xs.mapM f = .ok ys) : ys.map g = xs := by
  induction xs generalizing ys with
  | nil =>
    simp only [List.mapM_nil, except_pure_ok] at h
    subst h
    rfl
  | cons x rest ih =>
    simp only [List.mapM_cons, except_bind_ok, except_pure_ok] at h
    obtain ⟨y, hy, ys', hrest, rfl⟩ := h
    rw [List.map_cons, hg x y hy, ih hrest]

end Steps

namespace Text

theorem all_blank_dropWhile (cs : List Char) :
    (∀ c ∈ cs.dropWhile isBlank, isBlank c = true) ↔ ∀ c ∈ cs, isBlank c = true := by
  induction cs with
  | nil => simp
  | cons c rest ih =>
    by_cases hc : isBlank c = true
    · simp [hc, ih]
    · simp [hc]

/-- What is trimmed to nothing is blank throughout. -/
theorem trim_eq_empty {s : String} : trim s = "" ↔ ∀ c ∈ s.toList, isBlank c = true := by
  rw [trim, String.ofList_eq_empty_iff, trimChars, List.reverse_eq_nil_iff,
    List.dropWhile_eq_nil_iff]
  simpa using all_blank_dropWhile s.toList

end Text

namespace Definition

/-- A relationship is sound when the names that it uses are declared and its type is not blank. -/
structure RelationshipDef.Sound (d : Definition) (r : RelationshipDef) : Prop where
  target : r.target ∈ d.entities.keys ∨ r.target ∈ d.interfaces.keys ∨ r.target ∈ d.unions.keys
  properties : ∀ p, r.properties = some p → p ∈ d.propertySets.keys
  legible : ∃ c ∈ r.graphType.toList, Text.isBlank c = false

/-- The members of an interface or a union: at least one, and each of them an entity. -/
structure Composes (d : Definition) (members : List String) : Prop where
  some_member : members ≠ []
  declared : ∀ m ∈ members, m ∈ d.entities.keys

/-- An entity declares what an interface promises. -/
structure EntityDef.Implements (e : EntityDef) (i : InterfaceDef) : Prop where
  attributes : ∀ a promised, (a, promised) ∈ i.attributes →
    ∃ own, e.attributes.get? a = some own ∧ own.typeName = promised.typeName ∧
      own.list = promised.list
  relationships : ∀ r ∈ i.relationships.keys, r ∈ e.relationships.keys

/-- What is asked of a definition. -/
structure WellFormed (d : Definition) : Prop where
  inhabited : d.entities ≠ []
  distinct :
    (d.entities.keys ++ d.interfaces.keys ++ d.unions.keys ++ d.propertySets.keys).Nodup
  relationships : ∀ e ∈ d.entities.values, ∀ r ∈ e.relationships.values, r.Sound d
  attributes : ∀ e ∈ d.entities.values, ∀ a ∈ e.attributes.values,
    ¬ (a.computation.isSome ∧ a.storedAs.isSome)
  implementations : ∀ i ∈ d.interfaces.values, d.Composes i.implementations
  promises : ∀ i ∈ d.interfaces.values, ∀ m ∈ i.implementations, ∀ e,
    d.entities.get? m = some e → e.Implements i
  interfaceRelationships : ∀ i ∈ d.interfaces.values, ∀ r ∈ i.relationships.values, r.Sound d
  unionMembers : ∀ members ∈ d.unions.values, d.Composes members

variable {d : Definition}

theorem firstRepeated_eq_none {seen names : List String} :
    firstRepeated seen names = none ↔ names.Nodup ∧ ∀ name ∈ names, name ∉ seen := by
  induction names generalizing seen with
  | nil => simp [firstRepeated]
  | cons name rest ih =>
    rw [firstRepeated]
    by_cases hseen : name ∈ seen
    · simp [hseen]
    · simp only [List.contains_iff_mem, if_neg hseen, ih, List.nodup_cons, List.mem_cons,
        forall_eq_or_imp, not_or]
      constructor
      · rintro ⟨hrest, hfresh⟩
        exact ⟨⟨fun hmem => (hfresh name hmem).1 rfl, hrest⟩, hseen, fun n hn => (hfresh n hn).2⟩
      · rintro ⟨⟨hnot, hrest⟩, _, hfresh⟩
        refine ⟨hrest, fun n hn => ⟨?_, hfresh n hn⟩⟩
        rintro rfl
        exact hnot hn

theorem checkNames_ok : d.checkNames = .ok () ↔ d.names.Nodup := by
  unfold checkNames
  split
  next name hname =>
    have hnot : ¬ (d.names.Nodup ∧ ∀ n ∈ d.names, n ∉ []) := by
      rw [← firstRepeated_eq_none, hname]
      simp
    simpa [reject] using hnot
  next hname => simpa using (firstRepeated_eq_none.mp hname).1

theorem declares_iff {target : String} : d.declares target = true ↔
    target ∈ d.entities.keys ∨ target ∈ d.interfaces.keys ∨ target ∈ d.unions.keys := by
  simp only [declares, Bool.or_eq_true, Entries.has_iff, or_assoc]

theorem checkRelationship_ok {location : String} {r : RelationshipDef} :
    d.checkRelationship location r = .ok () ↔ r.Sound d := by
  have hlegible : ¬ Text.trim r.graphType = "" ↔
      ∃ c ∈ r.graphType.toList, Text.isBlank c = false := by
    rw [Text.trim_eq_empty]
    simp
  have htyped : (if Text.trim r.graphType = "" then reject location .blankType
      else (pure () : Check)) = .ok () ↔ ∃ c ∈ r.graphType.toList, Text.isBlank c = false := by
    rw [← hlegible]
    split <;> simp [*, reject, pure, Except.pure]
  have hsound : r.Sound d ↔ d.declares r.target = true ∧
      (∀ p, r.properties = some p → p ∈ d.propertySets.keys) ∧
      ∃ c ∈ r.graphType.toList, Text.isBlank c = false := by
    rw [declares_iff]
    exact ⟨fun h => ⟨h.target, h.properties, h.legible⟩, fun h => ⟨h.1, h.2.1, h.2.2⟩⟩
  rw [hsound]
  unfold checkRelationship
  cases hproperties : r.properties with
  | none => simp only [reject, unless_error_ok] at htyped ⊢; simp [htyped]
  | some p =>
    simp only [reject, unless_error_ok] at htyped ⊢
    simp [htyped, Entries.has_iff]

theorem checkAttribute_ok {location : String} {a : AttributeDef} :
    checkAttribute location a = .ok () ↔ ¬ (a.computation.isSome ∧ a.storedAs.isSome) := by
  rw [checkAttribute, ← Bool.and_eq_true]
  split <;> simp [*, reject]

theorem checkEntity_ok {name : String} {e : EntityDef} :
    d.checkEntity name e = .ok () ↔ (∀ r ∈ e.relationships.values, r.Sound d) ∧
      ∀ a ∈ e.attributes.values, ¬ (a.computation.isSome ∧ a.storedAs.isSome) := by
  simp only [checkEntity, before_ok, forM_ok_iff, checkRelationship_ok, checkAttribute_ok,
    Entries.forall_values]

theorem checkConstituents_ok {name : String} {members : List String} :
    d.checkConstituents name members = .ok () ↔ d.Composes members := by
  have hmember : ∀ m, (if d.entities.has m = true then (pure () : Check)
      else reject name (.undeclaredConstituent m)) = .ok () ↔ m ∈ d.entities.keys := by
    intro m
    rw [← Entries.has_iff]
    split <;> simp [*, reject, pure, Except.pure]
  have hcomposes : d.Composes members ↔
      ¬ members.isEmpty = true ∧ ∀ m ∈ members, m ∈ d.entities.keys := by
    rw [List.isEmpty_iff]
    exact ⟨fun h => ⟨h.some_member, h.declared⟩, fun h => ⟨h.1, h.2⟩⟩
  rw [hcomposes]
  unfold checkConstituents
  simp only [reject, unless_error_ok, forM_ok_iff] at hmember ⊢
  simp only [hmember]

theorem checkImplementation_ok {name member : String} {i : InterfaceDef} {e : EntityDef}
    (he : d.entities.get? member = some e) :
    d.checkImplementation name i member = .ok () ↔ e.Implements i := by
  have himplements : e.Implements i ↔ (∀ x ∈ i.attributes, ∃ own,
      e.attributes.get? x.1 = some own ∧ own.typeName = x.2.typeName ∧ own.list = x.2.list) ∧
      ∀ x ∈ i.relationships, x.1 ∈ e.relationships.keys :=
    ⟨fun h => ⟨fun x hx => h.attributes x.1 x.2 hx, List.forall_mem_map.mp h.relationships⟩,
      fun h => ⟨fun a promised hmem => h.1 (a, promised) hmem, List.forall_mem_map.mpr h.2⟩⟩
  rw [himplements]
  unfold checkImplementation
  simp only [he, before_ok, forM_ok_iff]
  refine and_congr (forall₂_congr fun x _ => ?_) (forall₂_congr fun x _ => ?_)
  · cases e.attributes.get? x.1 with
    | none => simp [reject]
    | some own =>
      by_cases hagree : own.typeName = x.2.typeName ∧ own.list = x.2.list
      · simp [hagree, pure, Except.pure]
      · have hdiffer : own.typeName ≠ x.2.typeName ∨ own.list ≠ x.2.list := by
          rwa [ne_eq, ne_eq, ← not_and_or]
        simp [hagree, hdiffer, reject]
  · rw [← Entries.has_iff]
    split <;> simp [*, reject, pure, Except.pure]

theorem checkInterface_ok {name : String} {i : InterfaceDef} :
    d.checkInterface name i = .ok () ↔ d.Composes i.implementations ∧
      (∀ m ∈ i.implementations, ∀ e, d.entities.get? m = some e → e.Implements i) ∧
      ∀ r ∈ i.relationships.values, r.Sound d := by
  simp only [checkInterface, before_ok, forM_ok_iff, checkRelationship_ok, checkConstituents_ok,
    Entries.forall_values]
  refine and_congr_right fun hcomposes => and_congr_left fun _ => forall₂_congr fun m hm => ?_
  obtain ⟨e, he⟩ := Entries.get?_of_mem_keys (hcomposes.declared m hm)
  rw [checkImplementation_ok he]
  simp [he]

theorem check_ok : d.check = .ok () ↔ d.WellFormed := by
  have hwellFormed : d.WellFormed ↔ ¬ List.isEmpty d.entities = true ∧ d.names.Nodup ∧
      (∀ e ∈ d.entities.values, (∀ r ∈ e.relationships.values, r.Sound d) ∧
        ∀ a ∈ e.attributes.values, ¬ (a.computation.isSome ∧ a.storedAs.isSome)) ∧
      (∀ i ∈ d.interfaces.values, d.Composes i.implementations ∧
        (∀ m ∈ i.implementations, ∀ e, d.entities.get? m = some e → e.Implements i) ∧
        ∀ r ∈ i.relationships.values, r.Sound d) ∧
      ∀ members ∈ d.unions.values, d.Composes members := by
    rw [List.isEmpty_iff]
    constructor
    · intro h
      exact ⟨h.inhabited, h.distinct, fun e he => ⟨h.relationships e he, h.attributes e he⟩,
        fun i hi => ⟨h.implementations i hi, h.promises i hi, h.interfaceRelationships i hi⟩,
        h.unionMembers⟩
    · rintro ⟨hinhabited, hdistinct, hentities, hinterfaces, hunions⟩
      exact ⟨hinhabited, hdistinct, fun e he => (hentities e he).1, fun e he => (hentities e he).2,
        fun i hi => (hinterfaces i hi).1, fun i hi => (hinterfaces i hi).2.1,
        fun i hi => (hinterfaces i hi).2.2, hunions⟩
  rw [hwellFormed]
  unfold check
  simp only [unless_error_ok, before_ok, forM_ok_iff, checkNames_ok, checkEntity_ok,
    checkInterface_ok, checkConstituents_ok, Entries.forall_values]

theorem build_ok {s : Schema} : d.build = .ok s ↔ d.WellFormed ∧ d.model = s := by
  rw [build, before_ok, check_ok, except_pure_ok]

end Definition

namespace Schema

/-- The relationships of entities and of composites. -/
def relationships (s : Schema) : List Relationship :=
  s.entities.values.flatMap (·.relationships.values) ++
    s.composites.values.flatMap (·.relationships.values)

/-- Each name that the schema holds is resolved by it, and to what bears that name. -/
structure Resolves (s : Schema) : Prop where
  targets : ∀ r ∈ s.relationships, ∃ t, s.targetOf r = .ok t ∧ t.name = r.target
  properties : ∀ r ∈ s.relationships, ∀ p, r.properties = some p →
    ∃ set, s.propertiesOf r = some set ∧ set.name = p
  constituents : ∀ c ∈ s.composites.values,
    ∃ es, s.constituents c = .ok es ∧ es.map Entity.name = c.constituents

/-- What a composite shares is what each of its constituents has under that name. -/
def SharesAttributes (s : Schema) : Prop :=
  ∀ c ∈ s.composites.values, ∀ a shared, (a, shared) ∈ c.sharedAttributes →
    ∀ m ∈ c.constituents, ∃ e own, s.entity m = .ok e ∧ e.attribute? a = some own ∧
      own.kind = shared.kind ∧ own.isList = shared.isList

end Schema

namespace Definition

variable {d : Definition}

/-- Names stand in the schema as they are declared, and interfaces before unions. -/
structure KeepsOrder (d : Definition) (s : Schema) : Prop where
  entities : s.entities.keys = d.entities.keys
  composites : s.composites.keys = d.interfaces.keys ++ d.unions.keys
  kinds : s.composites.values.map Composite.kind =
    d.interfaces.map (fun _ => .interface) ++ d.unions.map fun _ => .union
  constituents : s.composites.values.map Composite.constituents =
    d.interfaces.values.map InterfaceDef.implementations ++ d.unions.values
  attributes : s.entities.values.map (·.attributes.keys) =
    d.entities.values.map (·.attributes.keys)
  relationships : s.entities.values.map (·.relationships.keys) =
    d.entities.values.map (·.relationships.keys)
  sharedAttributes : s.composites.values.map (·.sharedAttributes.keys) =
    d.interfaces.values.map (·.attributes.keys) ++ d.unions.map fun _ => []
  sharedRelationships : s.composites.values.map (·.relationships.keys) =
    d.interfaces.values.map (·.relationships.keys) ++ d.unions.map fun _ => []
  propertySets : s.propertySets.map (fun (name, set) => (name, set.attributes.keys)) =
    d.propertySets.map fun (name, attributes) => (name, attributes.keys)

theorem model_keepsOrder : d.KeepsOrder d.model := by
  constructor <;>
    simp [model, Entries.keys, Entries.values, Entries.mapValues, buildEntity, buildInterface,
      buildUnion, Function.comp_def]

theorem entity_model {name : String} {own : EntityDef} (h : d.entities.get? name = some own) :
    d.model.entity name = .ok (buildEntity d.enums name own) := by
  have hfound : d.model.entities.get? name = some (buildEntity d.enums name own) := by
    simp [model, Entries.get?_mapValues, h]
  simp only [Schema.entity, hfound]

theorem entity_model_name {name : String} {e : Entity} (h : d.model.entity name = .ok e) :
    e.name = name := by
  unfold Schema.entity at h
  split at h
  next own hown =>
    simp only [model, Entries.get?_mapValues, Option.map_eq_some_iff] at hown
    obtain ⟨_, _, rfl⟩ := hown
    cases h
    rfl
  next => cases h

theorem target_model_name {name : String} {t : Target} (h : d.model.target name = .ok t) :
    t.name = name := by
  unfold Schema.target at h
  split at h
  next e he =>
    simp only [model, Entries.get?_mapValues, Option.map_eq_some_iff] at he
    obtain ⟨_, _, rfl⟩ := he
    cases h
    rfl
  next =>
    split at h
    next c hc =>
      simp only [model, Entries.get?_append, Entries.get?_mapValues, Option.or_eq_some_iff,
        Option.map_eq_some_iff] at hc
      cases h
      obtain ⟨_, _, rfl⟩ | ⟨_, _, _, rfl⟩ := hc <;> rfl
    next => cases h

/-- Each relationship of the schema is built from a sound one. -/
theorem WellFormed.mem_relationships (h : d.WellFormed) {r : Relationship}
    (hr : r ∈ d.model.relationships) :
    ∃ name own, own.Sound d ∧ r = buildRelationship name own := by
  simp only [Schema.relationships, List.mem_append, List.mem_flatMap] at hr
  rcases hr with ⟨e, he, hr⟩ | ⟨c, hc, hr⟩
  · obtain ⟨_, ownEntity, hentity, rfl⟩ := Entries.mem_values_mapValues he
    obtain ⟨name, own, hown, rfl⟩ := Entries.mem_values_mapValues hr
    exact ⟨name, own, h.relationships ownEntity (List.mem_map_of_mem hentity) own
      (List.mem_map_of_mem hown), rfl⟩
  · simp only [model, Entries.values, List.map_append, List.mem_append] at hc
    rcases hc with hc | hc
    · obtain ⟨_, i, hi, rfl⟩ := Entries.mem_values_mapValues hc
      obtain ⟨name, own, hown, rfl⟩ := Entries.mem_values_mapValues hr
      exact ⟨name, own, h.interfaceRelationships i (List.mem_map_of_mem hi) own
        (List.mem_map_of_mem hown), rfl⟩
    · -- a union has no relationships of its own
      obtain ⟨_, _, _, rfl⟩ := Entries.mem_values_mapValues hc
      simp [buildUnion, Entries.values] at hr

theorem WellFormed.composes (h : d.WellFormed) {c : Composite}
    (hc : c ∈ d.model.composites.values) :
    d.Composes c.constituents := by
  simp only [model, Entries.values, List.map_append, List.mem_append] at hc
  rcases hc with hc | hc
  · obtain ⟨_, i, hi, rfl⟩ := Entries.mem_values_mapValues hc
    exact h.implementations i (List.mem_map_of_mem hi)
  · obtain ⟨_, members, hmembers, rfl⟩ := Entries.mem_values_mapValues hc
    exact h.unionMembers members (List.mem_map_of_mem hmembers)

theorem WellFormed.resolves (h : d.WellFormed) : d.model.Resolves := by
  constructor
  · intro r hr
    obtain ⟨_, own, hsound, rfl⟩ := h.mem_relationships hr
    obtain ⟨t, ht⟩ := target_model (declares_iff.mpr hsound.target)
    exact ⟨t, ht, target_model_name ht⟩
  · intro r hr p hp
    obtain ⟨_, own, hsound, rfl⟩ := h.mem_relationships hr
    obtain ⟨attributes, hset⟩ := Entries.get?_of_mem_keys (hsound.properties p hp)
    refine ⟨⟨p, attributes.mapValues (buildAttribute d.enums)⟩, ?_, rfl⟩
    simp only [Schema.propertiesOf, hp, Option.bind_some, model, Entries.get?_mapValues, hset,
      Option.map_some]
  · intro c hc
    have hdeclared : ∀ m ∈ c.constituents, d.entities.has m = true :=
      fun m hm => Entries.has_iff.mpr ((h.composes hc).declared m hm)
    obtain ⟨es, hes⟩ := constituents_model hdeclared
    exact ⟨es, hes, map_of_mapM_ok (fun _ _ => entity_model_name) hes⟩

/-- The kind and the list mark of an attribute are read off its type text and its list flag. -/
theorem buildAttribute_agree {enums : List String} {name : String} {a b : AttributeDef}
    (htype : a.typeName = b.typeName) (hlist : a.list = b.list) :
    (buildAttribute enums name a).kind = (buildAttribute enums name b).kind ∧
      (buildAttribute enums name a).isList = (buildAttribute enums name b).isList := by
  simp only [buildAttribute, htype, hlist, and_self]

theorem WellFormed.sharesAttributes (h : d.WellFormed) : d.model.SharesAttributes := by
  intro c hc a shared hshared m hm
  obtain ⟨e, he⟩ := Entries.get?_of_mem_keys ((h.composes hc).declared m hm)
  simp only [model, Entries.values, List.map_append, List.mem_append] at hc
  rcases hc with hc | hc
  · obtain ⟨_, i, hi, rfl⟩ := Entries.mem_values_mapValues hc
    obtain ⟨⟨_, promised⟩, hpromised, heq⟩ := List.mem_map.mp hshared
    cases heq
    have himplements := h.promises i (List.mem_map_of_mem hi) m hm e he
    obtain ⟨own, hown, htype, hlist⟩ := himplements.attributes a promised hpromised
    refine ⟨buildEntity d.enums m e, buildAttribute d.enums a own, entity_model he, ?_,
      buildAttribute_agree htype hlist⟩
    simp only [Entity.attribute?, buildEntity, Entries.get?_mapValues, hown, Option.map_some]
  · obtain ⟨_, _, _, rfl⟩ := Entries.mem_values_mapValues hc
    simp [buildUnion] at hshared

/-- A definition is built when it is well formed and only then, and what is built from it resolves
its own names, keeps their order and gives every constituent the attributes that are shared. -/
theorem build_accepts (d : Definition) :
    ((∃ s, d.build = .ok s) ↔ d.WellFormed) ∧
      ∀ s, d.build = .ok s → s.Resolves ∧ d.KeepsOrder s ∧ s.SharesAttributes := by
  constructor
  · simp only [build_ok, exists_and_left, exists_eq', and_true]
  · intro s hs
    obtain ⟨hwell, rfl⟩ := build_ok.mp hs
    exact ⟨hwell.resolves, model_keepsOrder, hwell.sharesAttributes⟩

theorem stage_build_accepts :
    Stage.definition.build = .ok Stage.schema ∧ Stage.definition.WellFormed ∧
      Stage.schema.Resolves ∧ Stage.definition.KeepsOrder Stage.schema ∧
        Stage.schema.SharesAttributes :=
  have haccepts := build_accepts Stage.definition
  ⟨Stage.definition_build, haccepts.1.mp ⟨_, Stage.definition_build⟩,
    haccepts.2 Stage.schema Stage.definition_build⟩

end Definition

end GraphSelection
