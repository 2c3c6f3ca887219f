import GraphSelection.Proofs.Outcomes
import GraphSelection.Schema.Build
import GraphSelection.Schema.Lookup

/-!
Schemas that are built from a definition are closed: the target of every relationship is declared,
and so is every constituent of a composite. A name that is not found in such a schema is a name
that the definition does not declare.
-/
namespace GraphSelection

namespace Entries

variable {α β : Type}

theorem get?_mapValues (f : String → α → β) (es : Entries α) (key : String) :
    (es.mapValues f).get? key = (es.get? key).map (f key) := by
  induction es with
  | nil => rfl
  | cons entry rest ih =>
    obtain ⟨k, v⟩ := entry
    unfold mapValues get? at ih ⊢
    rw [List.map_cons, List.lookup_cons, List.lookup_cons]
    by_cases hk : key = k
    · subst hk
      simp
    · have hne : (key == k) = false := beq_eq_false_iff_ne.mpr hk
      rw [hne]
      exact ih

theorem get?_append (es es' : Entries α) (key : String) :
    get? (es ++ es') key = (es.get? key).or (es'.get? key) :=
  List.lookup_append

theorem mem_values_mapValues {f : String → α → β} {es : Entries α} {b : β}
    (h : b ∈ (es.mapValues f).values) : ∃ k v, (k, v) ∈ es ∧ f k v = b := by
  simp only [values, mapValues, List.map_map, List.mem_map, Function.comp] at h
  obtain ⟨⟨k, v⟩, hmem, rfl⟩ := h
  exact ⟨k, v, hmem, rfl⟩

end Entries

section Steps

variable {ε α : Type}

/-- A check of a list has passed when it has passed for every member. -/
theorem forM_ok {f : α → Except ε Unit} {xs : List α} {u : Unit} (h : xs.forM f = .ok u) :
    ∀ x ∈ xs, f x = .ok () := by
  induction xs with
  | nil => simp
  | cons x rest ih =>
    rw [List.forM_eq_forM, List.forM_cons, except_bind_ok] at h
    obtain ⟨⟨⟩, hx, hrest⟩ := h
    intro y hy
    rcases List.mem_cons.mp hy with rfl | hy
    · exact hx
    · exact ih hrest y hy

theorem mapM_ok_of_forall {β : Type} {f : α → Except ε β} {xs : List α}
    (h : ∀ x ∈ xs, ∃ y, f x = .ok y) : ∃ ys, xs.mapM f = .ok ys := by
  induction xs with
  | nil => exact ⟨[], rfl⟩
  | cons x rest ih =>
    obtain ⟨y, hy⟩ := h x List.mem_cons_self
    obtain ⟨ys, hys⟩ := ih fun x hx => h x (List.mem_cons_of_mem _ hx)
    refine ⟨y :: ys, ?_⟩
    simp only [List.mapM_cons, except_bind_ok, except_pure_ok]
    exact ⟨y, hy, ys, hys, rfl⟩

end Steps

/-- Every name that the schema refers to is found in it. -/
structure Schema.Closed (s : Schema) : Prop where
  targets : ∀ e ∈ s.entities.values, ∀ r ∈ e.relationships.values, ∃ t, s.targetOf r = .ok t
  constituents : ∀ c ∈ s.composites.values, ∃ es, s.constituents c = .ok es

namespace Definition

variable {d : Definition}

theorem target_model {name : String} (h : d.declares name = true) :
    ∃ t, d.model.target name = .ok t := by
  unfold Schema.target
  cases hentity : d.model.entities.get? name with
  | some e => exact ⟨.entity e, rfl⟩
  | none =>
    have hno : d.entities.get? name = none := by
      simpa [model, Entries.get?_mapValues] using hentity
    have hcomposite : (d.model.composites.get? name).isSome = true := by
      simp only [declares, Entries.has, hno, Option.isSome_none, Bool.false_or] at h
      simpa [model, Entries.get?_append, Entries.get?_mapValues] using h
    obtain ⟨c, hc⟩ := Option.isSome_iff_exists.mp hcomposite
    exact ⟨.composite c, by simp only [hc]⟩

theorem checkRelationship_declares {location : String} {r : RelationshipDef} {u : Unit}
    (h : d.checkRelationship location r = .ok u) : d.declares r.target = true := by
  unfold checkRelationship at h
  by_cases hdeclared : d.declares r.target = true
  · exact hdeclared
  · simp [hdeclared, reject, bind, Except.bind] at h

theorem checkConstituents_has {name : String} {members : List String} {u : Unit}
    (h : d.checkConstituents name members = .ok u) :
    ∀ m ∈ members, d.entities.has m = true := by
  unfold checkConstituents at h
  split at h
  · cases h
  · intro m hm
    have hmember := forM_ok h m hm
    by_cases hhas : d.entities.has m = true
    · exact hhas
    · simp [hhas, reject] at hmember

theorem constituents_model {c : Composite} (h : ∀ m ∈ c.constituents, d.entities.has m = true) :
    ∃ es, d.model.constituents c = .ok es := by
  refine mapM_ok_of_forall fun m hm => ?_
  obtain ⟨e, he⟩ := Option.isSome_iff_exists.mp (h m hm)
  have hfound : d.model.entities.get? m = some (buildEntity d.enums m e) := by
    simp [model, Entries.get?_mapValues, he]
  exact ⟨buildEntity d.enums m e, by simp only [Schema.entity, hfound]⟩

/-- What is built is closed. -/
theorem build_closed {schema : Schema} (h : d.build = .ok schema) : schema.Closed := by
  simp only [build, except_bind_ok, except_pure_ok] at h
  obtain ⟨_, hcheck, rfl⟩ := h
  unfold check at hcheck
  split at hcheck
  · cases hcheck
  simp only [except_bind_ok] at hcheck
  obtain ⟨_, _, _, hentities, _, hinterfaces, hunions⟩ := hcheck
  constructor
  · intro e he r hr
    obtain ⟨name, own, hown, rfl⟩ := Entries.mem_values_mapValues he
    obtain ⟨field, rel, hrel, rfl⟩ := Entries.mem_values_mapValues hr
    have hentity := forM_ok hentities (name, own) hown
    simp only [checkEntity, except_bind_ok] at hentity
    obtain ⟨_, hrelationships, _⟩ := hentity
    exact target_model (checkRelationship_declares (forM_ok hrelationships (field, rel) hrel))
  · intro c hc
    simp only [model, Entries.values, List.map_append, List.mem_append] at hc
    rcases hc with hc | hc
    · obtain ⟨name, own, hown, rfl⟩ := Entries.mem_values_mapValues hc
      have hinterface := forM_ok hinterfaces (name, own) hown
      simp only [checkInterface, except_bind_ok] at hinterface
      obtain ⟨_, hconstituents, _⟩ := hinterface
      exact constituents_model (checkConstituents_has hconstituents)
    · obtain ⟨name, members, hmembers, rfl⟩ := Entries.mem_values_mapValues hc
      exact constituents_model (checkConstituents_has (forM_ok hunions (name, members) hmembers))

/-- Only a name that is not declared is unknown. -/
theorem build_undeclared {schema : Schema} (h : d.build = .ok schema) {name : String}
    {fault : SchemaFault} (hunknown : schema.target name = .error fault) :
    d.declares name = false ∧ fault = .unknownEntity name := by
  simp only [build, except_bind_ok, except_pure_ok] at h
  obtain ⟨_, _, rfl⟩ := h
  constructor
  · cases hdeclared : d.declares name with
    | false => rfl
    | true =>
      obtain ⟨t, ht⟩ := target_model hdeclared
      rw [ht] at hunknown
      cases hunknown
  · unfold Schema.target at hunknown
    split at hunknown
    · cases hunknown
    · split at hunknown
      · cases hunknown
      · exact (Except.error.inj hunknown).symm

end Definition

end GraphSelection
