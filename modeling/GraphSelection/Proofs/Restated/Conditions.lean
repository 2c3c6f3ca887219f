import GraphSelection.Proofs.Restated.Comparisons

/-!
Conditions of restated objects. An object and one that restates it are read to conditions of one
structure, each to its own height, or both are refused for the same reason. The induction is over
the height; one level is read with agreement of the level below.
-/
namespace GraphSelection.Resolve

open GraphSelection Plan

variable {schema : Schema} {g : Doc → Doc} {d d' : Nat} {p : Place} {v v' : Doc}

section Narrowing

variable {c : Composite}

variable (schema g) in
/-- Objects in one place, or none on either side. -/
abbrev OptionStands (d d' : Nat) (p : Place) : Option Doc.Members → Option Doc.Members → Prop :=
  Option.Rel fun members members' => Stands schema g d d' p (.record members) (.record members')

variable (schema g) in
/-- One constituent, and what is left for it. -/
def KeptStands (d d' : Nat) (k k' : Kept) : Prop :=
  k.1 = k'.1 ∧ OptionStands schema g d d' (.object (.node k.1)) k.2 k'.2

/-- What is asked of a target that is an entity. -/
theorem OptionStands.ofEntity {e : Entity} {members members' : Option Doc.Members}
    (h : OptionStands schema g d d' (.target (.ok (.entity e))) members members') :
    OptionStands schema g d d' (.object (.node e)) members members' := by
  cases h with
  | none => exact .none
  | some h => exact .some (h.recast rfl rfl fun _ _ hq => hq)

/-- What is asked of an interface is asked of each constituent. -/
theorem Stands.ofInterface {entities : List Entity} {members members' : Doc.Members}
    (h : Stands schema g d d' (.target (.ok (.composite c))) (.record members) (.record members'))
    (hfound : schema.constituents c = .ok entities) (hinterface : c.isUnion = false)
    {e : Entity} (he : e ∈ entities) :
    Stands schema g d d' (.object (.node e)) (.record members) (.record members') := by
  refine h.recast rfl rfl fun key q hq => ?_
  simp only [Place.under, targetPlaces, compositePlaces, hfound, hinterface]
  exact List.mem_append_right _ (List.mem_flatMap.mpr ⟨e, he, hq⟩)

theorem keptMember_agree {entities : List Entity} {members members' : Doc.Members}
    (h : Stands schema g d d' (.target (.ok (.composite c))) (.record members) (.record members'))
    (hfound : schema.constituents c = .ok entities) (hunion : c.isUnion = true)
    {e : Entity} (he : e ∈ entities) (path : String) :
    Agree (List.Forall₂ (KeptStands schema g d d')) (keptMember members path e)
      (keptMember members' path e) := by
  have hplaces : Place.object (.node e) ∈
      (Place.target (.ok (.composite c))).under schema members e.name := by
    simp only [Place.under, targetPlaces, compositePlaces, hfound, hunion]
    exact List.mem_map.mpr ⟨e, by simp [he], rfl⟩
  have hget := get?_of_entries hplaces (h.succ.entries rfl)
  unfold keptMember
  generalize members.get? e.name = found at hget
  generalize members'.get? e.name = found' at hget
  cases hget with
  | none => exact .ok .nil
  | @some v v' hv =>
    cases Doc.paired_of_kind hv.permits with
    | null => exact .ok (.cons ⟨rfl, .none⟩ .nil)
    | list items items' => exact .fault _
    | record own own' => exact .ok (.cons ⟨rfl, .some hv⟩ .nil)
    | other hother hother' =>
      cases v <;> cases hother <;> cases v' <;> cases hother' <;> exact .fault _

/-- Names of types stay as they are. -/
theorem allowedNames_same {entities : List Entity} {members members' : Doc.Members}
    (h : Stands schema g d d' (.target (.ok (.composite c))) (.record members) (.record members'))
    (hfound : schema.constituents c = .ok entities) (hinterface : c.isUnion = false)
    (path : String) : allowedNames c members' path = allowedNames c members path := by
  have hsame : ∀ key, key = "typename" ∨ key = "typename_IN" →
      members'.get? key = members.get? key := by
    intro key hkey
    have hplaces : Place.fixed ∈
        (Place.target (.ok (.composite c))).under schema members key := by
      simp [Place.under, targetPlaces, compositePlaces, hfound, hinterface, hkey]
    have hget := get?_of_entries hplaces (h.succ.entries rfl)
    generalize members.get? key = found at hget
    generalize members'.get? key = found' at hget
    cases hget with
    | none => rfl
    | some hv => exact congrArg some hv.permits
  simp only [allowedNames, hsame _ (.inl rfl), hsame _ (.inr rfl)]

theorem narrowUnion_agree {entities : List Entity} {members members' : Doc.Members}
    (h : Stands schema g d d' (.target (.ok (.composite c))) (.record members) (.record members'))
    (hfound : schema.constituents c = .ok entities) (hunion : c.isUnion = true) (path : String) :
    Agree (List.Forall₂ (KeptStands schema g d d')) (narrowUnion c entities members path)
      (narrowUnion c entities members' path) := by
  have hfind := find?_of_entries (fun key => !c.hasConstituent key) (h.succ.entries rfl)
  unfold narrowUnion
  generalize members.find? _ = unknown at hfind ⊢
  generalize members'.find? _ = unknown' at hfind ⊢
  cases hfind with
  | @some e e' hkey =>
    obtain ⟨key, v⟩ := e
    obtain ⟨key', v'⟩ := e'
    obtain rfl : key = key' := hkey
    exact .fault _
  | none =>
    have hsame : List.Forall₂ (fun e e' => e = e' ∧ e ∈ entities) entities entities :=
      List.forall₂_same.mpr fun e he => ⟨rfl, he⟩
    refine .flatten (Agree.mapM hsame fun e e' he => ?_)
    obtain ⟨rfl, he⟩ := he
    exact keptMember_agree h hfound hunion he path

theorem narrowInterface_agree {entities : List Entity} {members members' : Doc.Members}
    (h : Stands schema g d d' (.target (.ok (.composite c))) (.record members) (.record members'))
    (hfound : schema.constituents c = .ok entities) (hinterface : c.isUnion = false)
    (path : String) :
    Agree (List.Forall₂ (KeptStands schema g d d')) (narrowInterface c entities members path)
      (narrowInterface c entities members' path) := by
  unfold narrowInterface
  rw [allowedNames_same h hfound hinterface]
  refine .skip _ fun allowed => .ok ?_
  rw [List.forall₂_map_left_iff, List.forall₂_map_right_iff, List.forall₂_same]
  intro e he
  have hrest := ((h.ofInterface hfound hinterface (List.mem_of_mem_filter he)).erase
    "typename").erase "typename_IN"
  refine ⟨rfl, ?_⟩
  simp only [isEmpty_of_entries (hrest.succ.entries rfl)]
  split
  · exact .none
  · exact .some hrest

theorem narrow_agree {members members' : Option Doc.Members}
    (h : OptionStands schema g d d' (.target (.ok (.composite c))) members members')
    (path : String) :
    Agree (List.Forall₂ (KeptStands schema g d d')) (narrow schema c members path)
      (narrow schema c members' path) := by
  unfold narrow
  cases hfound : schema.constituents c with
  | error fault => exact .fault _
  | ok entities =>
    have hall : List.Forall₂ (KeptStands schema g d d') (entities.map fun e => (e, none))
        (entities.map fun e => (e, none)) := by
      rw [List.forall₂_map_left_iff, List.forall₂_map_right_iff, List.forall₂_same]
      exact fun e _ => ⟨rfl, .none⟩
    refine .known (a := entities) (b := entities) ?_
    cases h with
    | none => exact .ok hall
    | @some members members' h =>
      simp only [isEmpty_of_entries (h.succ.entries rfl)]
      split
      · exact .ok hall
      · split
        · rename_i hunion
          exact narrowUnion_agree h hfound hunion path
        · rename_i hinterface
          exact narrowInterface_agree h hfound (Bool.not_eq_true _ ▸ hinterface) path

end Narrowing

variable (schema g) in
/-- Readers that agree on objects up to some height. -/
def LevelsAgree (d d' : Nat) (below below' : Level) : Prop :=
  ∀ keys members members' path,
    Stands schema g d d' (.object keys) (.record members) (.record members') →
      Agree (Condition.OptionAkin (Doc.Replaced g)) (below keys members path)
        (below' keys members' path)

namespace Reader

section Related

variable {s : Setup} {below below' : Level} {relationship : Relationship}

theorem nodePart_agree {node node' : Option Doc} {found : Except SchemaFault Target}
    (h : Option.Rel (Stands schema g d d' (.target found)) node node') (path : String) :
    Agree (OptionStands schema g d d' (.target found)) (nodePart node path)
      (nodePart node' path) := by
  cases h with
  | none => exact .ok .none
  | @some v v' hv =>
    cases Doc.paired_of_kind hv.permits with
    | null => exact .ok .none
    | list items items' => exact .fault _
    | record members members' => exact .ok (.some hv)
    | other hother hother' =>
      cases v <;> cases hother <;> cases v' <;> cases hother' <;> exact .fault _

theorem optionally_agree (hbelow : LevelsAgree schema g d d' below below') {keys : Keys}
    {members members' : Option Doc.Members}
    (h : OptionStands schema g d d' (.object keys) members members') (path : String) :
    Agree (Condition.OptionAkin (Doc.Replaced g)) (optionally below keys members path)
      (optionally below' keys members' path) := by
  cases h with
  | none => exact .ok .none
  | some h => exact hbelow _ _ _ _ h

/-- Each constituent that is kept, with the condition on it. -/
theorem targets_agree (hbelow : LevelsAgree schema g d d' below below') {kept kept' : List Kept}
    (h : List.Forall₂ (KeptStands schema g d d') kept kept') (path : String) :
    Agree (Condition.TargetsAkin (Doc.Replaced g))
      (kept.mapM fun (e, rest) => do
        let filter ← optionally below (.node e) rest path
        pure (e, filter))
      (kept'.mapM fun (e, rest) => do
        let filter ← optionally below' (.node e) rest path
        pure (e, filter)) := by
  refine (Agree.mapM h fun k k' hk => ?_).mono fun _ _ => Condition.targetsAkin_of_forall
  obtain ⟨e, rest⟩ := k
  obtain ⟨e', rest'⟩ := k'
  obtain ⟨rfl, hrest⟩ := hk
  exact .bind (optionally_agree hbelow hrest path) fun filter filter' hfilter => .ok ⟨rfl, hfilter⟩

theorem edgePart_object {r : Reader} {below : Level} {properties : PropertySet}
    (hproperties : r.setup.schema.propertiesOf relationship = some properties)
    (hv : v.isNull = false) (path : String) :
    edgePart r below relationship (some v) path = (do
      let members ← asRecord v (childPath path "edge")
      below (.edge properties) members (childPath path "edge")) := by
  cases v with
  | null => cases hv
  | _ => simp only [edgePart, hproperties]

theorem edgePart_unknown {r : Reader} {below : Level}
    (hproperties : r.setup.schema.propertiesOf relationship = none) (hv : v.isNull = false)
    (path : String) :
    edgePart r below relationship (some v) path =
      .error (.unknownField relationship.name "edge") := by
  cases v with
  | null => cases hv
  | _ => simp only [edgePart, hproperties]

theorem edgePart_agree (hbelow : LevelsAgree s.schema g d d' below below')
    {edge edge' : Option Doc}
    (h : Option.Rel (Stands s.schema g d d' (.edge relationship)) edge edge') (path : String) :
    Agree (Condition.OptionAkin (Doc.Replaced g))
      (edgePart ⟨s, false⟩ below relationship edge path)
      (edgePart ⟨s, false⟩ below' relationship edge' path) := by
  cases h with
  | none => exact .ok .none
  | @some v v' hv =>
    cases hnull : v.isNull with
    | true =>
      cases Doc.paired_of_kind hv.permits with
      | null => exact .ok .none
      | other hother => cases v <;> cases hother <;> cases hnull
      | _ => cases hnull
    | false =>
      have hnull' : v'.isNull = false := (Doc.isNull_of_kind hv.permits).trans hnull
      cases hproperties : s.schema.propertiesOf relationship with
      | none =>
        rw [edgePart_unknown hproperties hnull, edgePart_unknown hproperties hnull']
        exact .fault _
      | some properties =>
        rw [edgePart_object hproperties hnull, edgePart_object hproperties hnull']
        refine .bind (hv.record hv.permits _) fun members members' hmembers => ?_
        refine hbelow _ _ _ _ (hmembers.recast rfl rfl fun key q hq => ?_)
        simpa only [Place.under, edgePlaces, hproperties] using hq

theorem related_agree (hfaithful : Faithful (Doc.Replaced g))
    (hbelow : LevelsAgree s.schema g d d' below below') {node node' edge edge' : Option Doc}
    (hnode : Option.Rel (Stands s.schema g d d' (.target (s.schema.targetOf relationship)))
      node node')
    (hedge : Option.Rel (Stands s.schema g d d' (.edge relationship)) edge edge')
    (quantifier : Quantifier) (path : String) :
    Agree (Condition.Akin (Doc.Replaced g))
      (related ⟨s, false⟩ below relationship quantifier node edge path)
      (related ⟨s, false⟩ below' relationship quantifier node' edge' path) := by
  refine .bind (nodePart_agree hnode path) fun members members' hmembers => ?_
  have hedges := edgePart_agree hbelow hedge path
  simp only
  cases hfound : s.schema.targetOf relationship with
  | error fault => exact .fault _
  | ok target =>
    rw [hfound] at hmembers
    cases target with
    | entity e =>
      have hfilters := optionally_agree hbelow (OptionStands.ofEntity hmembers) path
      refine .known (.bind hfilters fun filter filter' hfilter => ?_)
      refine .bind hedges fun own own' hown => .ok ?_
      exact .related relationship quantifier false hfaithful (.cons e hfilter .nil) hown
    | composite c =>
      refine .known (.bind (narrow_agree hmembers path) fun kept kept' hkept => ?_)
      refine .bind (targets_agree hbelow hkept path) fun targets targets' htargets => ?_
      refine .bind hedges fun own own' hown => .ok ?_
      exact .related relationship quantifier true hfaithful htargets hown

theorem connected_agree (hfaithful : Faithful (Doc.Replaced g))
    (hbelow : LevelsAgree s.schema g d d' below below')
    (h : Stands s.schema g d d' (.connected relationship) v v')
    (quantifier : Quantifier) (path : String) :
    Agree (Condition.Akin (Doc.Replaced g))
      (connected ⟨s, false⟩ below relationship quantifier v path)
      (connected ⟨s, false⟩ below' relationship quantifier v' path) := by
  unfold connected
  rw [Doc.isNull_of_kind h.permits]
  split
  · exact related_agree hfaithful hbelow .none .none ..
  · refine .bind (h.record h.permits _) fun members members' hmembers => ?_
    have hentries := hmembers.succ.entries rfl
    have hfind := find?_of_entries (fun key => key != "node" && key != "edge") hentries
    generalize members.find? _ = unknown at hfind ⊢
    generalize members'.find? _ = unknown' at hfind ⊢
    cases hfind with
    | @some e e' hkey =>
      obtain ⟨key, v⟩ := e
      obtain ⟨key', v'⟩ := e'
      obtain rfl : key = key' := hkey
      exact .fault _
    | none =>
      have hnode : Option.Rel (Stands s.schema g d d' (.target (s.schema.targetOf relationship)))
          (members.get? "node") (members'.get? "node") :=
        get?_of_entries List.mem_cons_self hentries
      have hedge : Option.Rel (Stands s.schema g d d' (.edge relationship))
          (members.get? "edge") (members'.get? "edge") :=
        get?_of_entries List.mem_cons_self hentries
      exact related_agree hfaithful hbelow hnode hedge ..

theorem relationshipValue_agree (hfaithful : Faithful (Doc.Replaced g))
    (hbelow : LevelsAgree s.schema g d d' below below')
    (h : Stands s.schema g d d' (.related relationship) v v') (field path : String) :
    AgreeIn (Condition.OptionAkin (Doc.Replaced g))
      (relationshipValue ⟨s, false⟩ below relationship field v path)
      (relationshipValue ⟨s, false⟩ below' relationship field v' path) := by
  cases Doc.paired_of_kind h.permits with
  | null => exact noted_agree (related_agree hfaithful hbelow .none .none ..)
  | list items items' => exact fun _ => .fault _
  | other hother hother' =>
    cases v <;> cases hother <;> cases v' <;> cases hother' <;> exact fun _ => .fault _
  | record members members' =>
    have hentries := h.succ.entries rfl
    have hsame : isQuantifierRecord members' = isQuantifierRecord members :=
      any_of_entries (fun key => (Quantifier.ofGeneric? key).isSome) hentries
    simp only [relationshipValue, Doc.isNull, Bool.false_eq_true, ↓reduceIte]
    refine .known (a := members) (b := members') ?_
    rw [hsame]
    split
    · rename_i hquantified
      refine .skip _ fun _ => .bind (.lift (Agree.mapM hentries fun e e' he => ?_))
        fun parts parts' hparts => .pure (Condition.allOf_akin hparts)
      obtain ⟨key, v⟩ := e
      obtain ⟨key', v'⟩ := e'
      obtain ⟨rfl, hstands⟩ := he.spread
      simp only [quantifierOf]
      split
      · rename_i q hq
        have hv : Stands s.schema g d d' (.target (s.schema.targetOf relationship)) v v' :=
          hstands _ (by simp [Place.under, hquantified, hq])
        exact .known (related_agree hfaithful hbelow (.some hv) .none ..)
      · exact .fault _
    · rename_i hplain
      have hv : Stands s.schema g d d' (.target (s.schema.targetOf relationship))
          (.record members) (.record members') :=
        h.recast rfl rfl fun key q hq => by simpa [Place.under, hplain] using hq
      exact noted_agree (related_agree hfaithful hbelow (.some hv) .none ..)

theorem aggregation_agree (hg : ∀ v, v.kind ≠ .record → (g v).kind = v.kind)
    {members members' : Doc.Members}
    (h : Stands s.schema g d d' (.aggregation relationship) (.record members) (.record members'))
    (path : String) :
    Agree (Condition.OptionAkin (Doc.Replaced g))
      (aggregation ⟨s, false⟩ relationship members path)
      (aggregation ⟨s, false⟩ relationship members' path) := by
  unfold aggregation
  simp only
  cases hfound : s.schema.targetOf relationship with
  | error fault => exact .fault _
  | ok target =>
    cases target with
    | composite c => exact .known (.fault _)
    | entity e =>
      have hkeys : aggregationKeys? s.schema relationship =
          some ⟨relationship, e, s.schema.propertiesOf relationship⟩ := by
        simp only [aggregationKeys?, hfound]
      refine .known (aggregationAt_agree hg hkeys members members' path ?_)
      exact ⟨h.restated, Nat.le_refl _, Nat.le_refl _⟩

theorem connectionPart_agree (hg : ∀ v, v.kind ≠ .record → (g v).kind = v.kind)
    (hfaithful : Faithful (Doc.Replaced g)) (hbelow : LevelsAgree s.schema g d d' below below')
    {key : String}
    (haggregate : key = "aggregate" → Stands s.schema g d d' (.aggregation relationship) v v')
    (hconnected : (Quantifier.ofGeneric? key).isSome →
      Stands s.schema g d d' (.connected relationship) v v') (path : String) :
    Agree (List.Forall₂ (Condition.Akin (Doc.Replaced g)))
      (connectionPart ⟨s, false⟩ below relationship path key v)
      (connectionPart ⟨s, false⟩ below' relationship path key v') := by
  unfold connectionPart
  simp only
  split
  · rename_i hkey
    have hv := haggregate hkey
    refine .bind (hv.record hv.permits _) fun members members' hmembers => ?_
    exact .bind (aggregation_agree hg hmembers _) fun _ _ hc => .ok hc.toList
  · simp only [quantifierOf]
    split
    · rename_i q hq
      have hv := hconnected (by simp [hq])
      exact .known (.bind (connected_agree hfaithful hbelow hv ..) fun _ _ hc =>
        .ok (.cons hc .nil))
    · exact .fault _

theorem connectionValue_agree (hg : ∀ v, v.kind ≠ .record → (g v).kind = v.kind)
    (hfaithful : Faithful (Doc.Replaced g)) (hbelow : LevelsAgree s.schema g d d' below below')
    (h : Stands s.schema g d d' (.connection relationship) v v') (field path : String) :
    AgreeIn (Condition.OptionAkin (Doc.Replaced g))
      (connectionValue ⟨s, false⟩ below relationship field v path)
      (connectionValue ⟨s, false⟩ below' relationship field v' path) := by
  cases Doc.paired_of_kind h.permits with
  | null => exact noted_agree (related_agree hfaithful hbelow .none .none ..)
  | list items items' => exact fun _ => .fault _
  | other hother hother' =>
    cases v <;> cases hother <;> cases v' <;> cases hother' <;> exact fun _ => .fault _
  | record members members' =>
    have hentries := h.succ.entries rfl
    have hsame := any_of_entries
      (fun key => key == "aggregate" || (Quantifier.ofGeneric? key).isSome) hentries
    simp only [connectionValue, Doc.isNull, Bool.false_eq_true, ↓reduceIte]
    refine .known (a := members) (b := members') ?_
    simp only [hsame]
    split
    · rename_i hparts
      refine .skip _ fun _ => .bind (.lift (Agree.mapM hentries fun e e' he => ?_))
        fun parts parts' hparts => .pure (Condition.allOf_akin (List.rel_flatten hparts))
      obtain ⟨key, v⟩ := e
      obtain ⟨key', v'⟩ := e'
      obtain ⟨rfl, hstands⟩ := he.spread
      simp only [Place.under, hparts] at hstands
      have haggregate : key = "aggregate" →
          Stands s.schema g d d' (.aggregation relationship) v v' :=
        fun hkey => hstands _ (by simp [hkey])
      have hconnected : (Quantifier.ofGeneric? key).isSome →
          Stands s.schema g d d' (.connected relationship) v v' := by
        intro hkey
        have hother : key ≠ "aggregate" := by
          rintro rfl
          exact absurd hkey (by decide)
        exact hstands _ (by simp [hkey, hother])
      exact connectionPart_agree hg hfaithful hbelow haggregate hconnected path
    · rename_i hplain
      have hv : Stands s.schema g d d' (.connected relationship) (.record members)
          (.record members') :=
        h.recast rfl rfl fun key q hq => by simpa [Place.under, hplain] using hq
      exact noted_agree (connected_agree hfaithful hbelow hv ..)

end Related

section Entries

variable {s : Setup} {below below' : Level} {whole : Doc.Members} {keys : Keys} {key : String}
  (hg : ∀ v, v.kind ≠ .record → (g v).kind = v.kind) (hfaithful : Faithful (Doc.Replaced g))
  (hbelow : LevelsAgree s.schema g d d' below below')

include hg hfaithful hbelow

theorem relationshipVariant_agree {e : Entity}
    (h : ∀ q ∈ variantPlaces s.schema e key, Stands s.schema g d d' q v v') (path : String) :
    AgreeIn (Condition.OptionAkin (Doc.Replaced g))
      (relationshipVariant ⟨s, false⟩ below e key v path)
      (relationshipVariant ⟨s, false⟩ below' e key v' path) := by
  simp only [variantPlaces] at h
  simp only [relationshipVariant]
  split
  · rename_i hquantifier hrelationship
    simp only [hquantifier, hrelationship] at h
    exact noted_agree (related_agree hfaithful hbelow (.some (h _ List.mem_cons_self)) .none ..)
  · rename_i hneither
    split at h
    · rename_i hquantifier hrelationship
      exact (hneither _ _ hquantifier hrelationship).elim
    · split
      · rename_i hconnection hquantifier
        simp only [hconnection, hquantifier] at h
        exact noted_agree (connected_agree hfaithful hbelow (h _ List.mem_cons_self) ..)
      · rename_i hconnection hquantifier
        simp only [hconnection, hquantifier] at h
        exact connectionValue_agree hg hfaithful hbelow (h _ List.mem_cons_self) _ path
      · exact .pure .none
      · rename_i hconnection hquantifier
        simp only [hconnection, hquantifier] at h
        split
        · rename_i hrelationship
          simp only [hrelationship] at h
          have hv := h _ List.mem_cons_self
          refine .bind (.lift (hv.record hv.permits _)) fun _ _ hmembers => ?_
          exact .lift (aggregation_agree hg hmembers path)
        · exact .pure .none

omit hg hfaithful hbelow in
theorem suffixedKey_agree (h : ∀ q ∈ suffixedPlaces keys key, Stands s.schema g d d' q v v')
    (path : String) :
    AgreeIn (Condition.OptionAkin (Doc.Replaced g)) (suffixedKey ⟨s, false⟩ keys key v path)
      (suffixedKey ⟨s, false⟩ keys key v' path) := by
  simp only [suffixedKey]
  split
  · rename_i base op subject a hfound
    obtain ⟨⟨base', op'⟩, hending, hattribute⟩ := Option.bind_eq_some_iff.mp hfound
    obtain ⟨⟨subject', a'⟩, hnamed, heq⟩ := Option.map_eq_some_iff.mp hattribute
    cases heq
    have hv : Stands s.schema g d d' .like v v' :=
      h _ (by simp [suffixedPlaces, hending, hnamed])
    exact noted_agree (compared_agree hv.permits ..)
  · exact .throw _

omit hg hfaithful hbelow in
theorem claimKey_agree (h : Stands s.schema g d d' .operand v v') (path : String) :
    AgreeIn (Condition.OptionAkin (Doc.Replaced g)) (claimKey ⟨s, false⟩ key v path)
      (claimKey ⟨s, false⟩ key v' path) := by
  simp only [claimKey]
  split
  · exact noted_agree (compared_agree h.permits ..)
  · exact attributeValue_agree h key path

theorem fieldKey_agree (h : ∀ q ∈ fieldPlaces s.schema keys key, Stands s.schema g d d' q v v')
    (path : String) :
    AgreeIn (Condition.OptionAkin (Doc.Replaced g)) (fieldKey ⟨s, false⟩ below keys key v path)
      (fieldKey ⟨s, false⟩ below' keys key v' path) := by
  cases keys with
  | claims => exact claimKey_agree (h _ List.mem_cons_self) path
  | edge p =>
    simp only [fieldPlaces] at h
    cases hattribute : p.attribute? key with
    | some a =>
      simp only [fieldKey, Keys.attribute?, hattribute, Option.map_some] at h ⊢
      exact attributeValue_agree (h _ List.mem_cons_self) key path
    | none =>
      simp only [fieldKey, Keys.attribute?, hattribute, Option.map_none] at h ⊢
      exact suffixedKey_agree h path
  | node e =>
    simp only [fieldPlaces] at h
    cases hattribute : e.attribute? key with
    | some a =>
      simp only [fieldKey, Keys.attribute?, hattribute, Option.map_some] at h ⊢
      exact attributeValue_agree (h _ List.mem_cons_self) key path
    | none =>
      simp only [fieldKey, Keys.attribute?, hattribute, Option.map_none] at h ⊢
      split
      · rename_i relationship hrelationship
        simp only [hrelationship] at h
        exact relationshipValue_agree hfaithful hbelow (h _ List.mem_cons_self) key path
      · rename_i hrelationship
        simp only [hrelationship] at h
        have hvariant := relationshipVariant_agree hg hfaithful hbelow
          (fun q hq => h q (List.mem_append_left _ hq)) path
        refine .bind hvariant fun c c' hc => ?_
        cases hc with
        | some hc => exact .pure (.some hc)
        | none => exact suffixedKey_agree (fun q hq => h q (List.mem_append_right _ hq)) path

omit hg hfaithful in
theorem operands_agree (h : Stands s.schema g d d' (.objects keys) v v') (path : String) :
    Agree (List.Forall₂ (Condition.Akin (Doc.Replaced g))) (operands below keys v path)
      (operands below' keys v' path) := by
  cases Doc.paired_of_kind h.permits with
  | null => exact .fault _
  | record members members' => exact .fault _
  | other hother hother' =>
    cases v <;> cases hother <;> cases v' <;> cases hother' <;> exact .fault _
  | list items items' =>
    refine .bind (Agree.mapM (forall₂_indexed (h.items List.mem_cons_self)) fun e e' he => ?_)
      fun found found' hfound => .ok (found_akin hfound)
    obtain ⟨index, item⟩ := e
    obtain ⟨index', item'⟩ := e'
    obtain ⟨rfl, hitem⟩ := he
    exact .bind (hitem.record hitem.permits _) fun _ _ hmembers => hbelow _ _ _ _ hmembers

theorem entry_agree (h : ∀ q ∈ objectPlaces s.schema keys key, Stands s.schema g d d' q v v')
    (path : String) :
    AgreeIn (List.Forall₂ (Condition.Akin (Doc.Replaced g)))
      (entry ⟨s, false⟩ below keys path key v) (entry ⟨s, false⟩ below' keys path key v') := by
  simp only [objectPlaces] at h
  simp only [entry]
  split
  · exact .bind (.lift (operands_agree hbelow (h _ List.mem_cons_self) _))
      fun cs cs' hcs => .pure (junction_akin .all hcs)
  · exact .bind (.lift (operands_agree hbelow (h _ List.mem_cons_self) _))
      fun cs cs' hcs => .pure (junction_akin .any hcs)
  · have hv : Stands s.schema g d d' (.object keys) v v' := h _ List.mem_cons_self
    refine .bind (.lift (hv.record hv.permits _)) fun _ _ hmembers => ?_
    exact .bind (.lift (hbelow _ _ _ _ hmembers)) fun _ _ hinner => .pure (negated_akin hinner)
  · refine .bind (fieldKey_agree hg hfaithful hbelow (fun q hq => h q ?_) _) fun c c' hc =>
      .pure hc.toList
    simpa using hq

theorem entries_agree {members members' : Doc.Members}
    (h : List.Forall₂ (EntryStands s.schema g d d' (.object keys) whole) members members')
    (path : String) :
    AgreeIn (List.Forall₂ (Condition.Akin (Doc.Replaced g)))
      (entries ⟨s, false⟩ below keys path members)
      (entries ⟨s, false⟩ below' keys path members') := by
  induction h with
  | nil => exact .pure .nil
  | @cons e e' rest rest' he _ ih =>
    obtain ⟨key, v⟩ := e
    obtain ⟨key', v'⟩ := e'
    obtain ⟨rfl, hstands⟩ := he.spread
    refine .bind (entry_agree hg hfaithful hbelow hstands path) fun cs cs' hcs => ?_
    exact .bind ih fun more more' hmore => .pure (List.rel_append hcs hmore)

end Entries

theorem conditionAt_empty (r : Reader) (d : Nat) (keys : Keys) (path : String) :
    r.conditionAt d keys [] path = .ok none := by
  cases d <;> rfl

/-- Objects are read alike, each to its own height. -/
theorem conditionAt_agree {s : Setup} (hg : ∀ v, v.kind ≠ .record → (g v).kind = v.kind)
    (hfaithful : Faithful (Doc.Replaced g)) (d d' : Nat) :
    LevelsAgree s.schema g d d' (conditionAt ⟨s, false⟩ d) (conditionAt ⟨s, false⟩ d') := by
  induction d, d' using heights_induction with
  | empty d d' hzero =>
    intro keys members members' path h
    obtain ⟨rfl, rfl⟩ := h.empty rfl hzero
    rw [conditionAt_empty, conditionAt_empty]
    exact .ok .none
  | level d d' ih =>
    intro keys members members' path h
    refine .bind (entries_agree hg hfaithful ih (h.entries rfl) path []) fun _ _ hparts => ?_
    exact .ok (Condition.allOf_akin hparts.1)

end Reader

theorem requested_agree {s : Setup} (hg : ∀ v, v.kind ≠ .record → (g v).kind = v.kind)
    (hfaithful : Faithful (Doc.Replaced g)) {keys : Keys} {members members' : Option Doc.Members}
    (h : OptionStands s.schema g d d' (.object keys) members members') (path : String) :
    Agree (Condition.OptionAkin (Doc.Replaced g)) (s.requested keys members path)
      (s.requested keys members' path) := by
  cases h with
  | none => exact .ok .none
  | @some members members' h =>
    exact Reader.conditionAt_agree hg hfaithful _ _ keys members members' path
      ⟨h.restated, Nat.le_refl _, Nat.le_refl _⟩

end GraphSelection.Resolve
