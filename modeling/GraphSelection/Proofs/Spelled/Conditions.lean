import GraphSelection.Proofs.Resolved.Conditions
import GraphSelection.Proofs.Spelled.Aggregations
import GraphSelection.Proofs.Spelled.Entries

/-!
Conditions of objects in two spellings. The two objects are read to the same condition, each to its
own height, or both are refused with failures of one kind. The induction is over the height; one
level is read with concurring readers of the level below.
-/
namespace GraphSelection.Resolve

open GraphSelection Plan

variable {schema : Schema} {d d' : Nat} {v v' : Doc} {path path' : String}

section Declared

theorem constituents_known {c : Composite} {entities : List Entity}
    (h : schema.constituents c = .ok entities) : ∀ e ∈ entities, e ∈ schema.entities.values := by
  intro e he
  obtain ⟨name, _, hname⟩ := mem_of_mapM_ok h e he
  exact entity_known hname

theorem propertiesOf_known {r : Relationship} {p : PropertySet}
    (h : schema.propertiesOf r = some p) : p ∈ schema.propertySets.values := by
  obtain ⟨_, _, hfound⟩ := Option.bind_eq_some_iff.mp h
  exact Entries.mem_values_of_get? hfound

end Declared

section Narrowing

variable {c : Composite} {entities : List Entity} {members members' : Doc.Members}

variable (schema) in
/-- Two spellings of an object, or none on either side. -/
abbrev OptionAlternate (d d' : Nat) (p : Place) : Option Doc.Members → Option Doc.Members → Prop :=
  Option.Rel fun members members' => Alternate schema d d' p (.record members) (.record members')

variable (schema) in
/-- One constituent, and what is left for it. -/
structure KeptAlternate (d d' : Nat) (k k' : Kept) : Prop where
  entity : k'.1 = k.1
  known : k.1 ∈ schema.entities.values
  rest : OptionAlternate schema d d' (.object (.node k.1)) k.2 k'.2

/-- What is asked of an interface is asked of each constituent. -/
theorem Alternate.ofInterface
    (h : Alternate schema d d' (.target (.ok (.composite c))) (.record members) (.record members'))
    (hfound : schema.constituents c = .ok entities) (hinterface : c.isUnion = false)
    {e : Entity} (he : e ∈ entities) :
    Alternate schema d d' (.object (.node e)) (.record members) (.record members') := by
  refine h.recast rfl rfl ?_ fun key q hq => ?_
  · simp [Place.vocabulary, targetVocabulary, hinterface]
  · simp only [Place.under, targetPlaces, compositePlaces, hfound, hinterface]
    exact List.mem_append_right _ (List.mem_flatMap.mpr ⟨e, he, hq⟩)

theorem union_vocabulary (hunion : c.isUnion = true) :
    (Place.target (.ok (.composite c))).vocabulary schema = .members c.constituents := by
  simp [Place.vocabulary, targetVocabulary, hunion]

theorem interface_vocabulary (hinterface : c.isUnion = false) :
    (Place.target (.ok (.composite c))).vocabulary schema = .fields := by
  simp [Place.vocabulary, targetVocabulary, hinterface]

/-- A member of a union, where all keys are members. -/
theorem keptMember_alternate
    (h : Alternate schema d d' (.target (.ok (.composite c))) (.record members) (.record members'))
    (hfound : schema.constituents c = .ok entities) (hunion : c.isUnion = true)
    (hnames : ∀ e ∈ members, e.1 ∈ c.constituents) {e : Entity} (he : e ∈ entities) :
    Concur (List.Forall₂ (KeptAlternate schema d d')) (keptMember members path e)
      (keptMember members' path' e) := by
  have hplace : Place.object (.node e) ∈
      (Place.target (.ok (.composite c))).under schema members e.name := by
    simp only [Place.under, targetPlaces, compositePlaces, hfound, hunion]
    exact List.mem_map.mpr ⟨e, by simp [he], rfl⟩
  have hknown := constituents_known hfound e he
  have hget : Option.Rel (Alternate schema d d' (.object (.node e))) (members.get? e.name)
      (members'.get? e.name) := by
    refine get?_of_alternates hplace (fun entry hentry base inner hunfolds => ?_)
      (h.succ.entries rfl)
    rw [union_vocabulary hunion] at hunfolds
    cases hunfolds with
    | foreign _ hkey _ => exact absurd (hnames entry hentry) hkey
  unfold keptMember
  generalize members.get? e.name = found at hget
  generalize members'.get? e.name = found' at hget
  cases hget with
  | none => exact .ok .nil
  | @some v v' hv =>
    rcases hv.record_or_same rfl with ⟨own, own', rfl, rfl⟩ | ⟨rfl, hother⟩
    · exact .ok (.cons ⟨rfl, hknown, .some hv⟩ .nil)
    · cases v' with
      | null => exact .ok (.cons ⟨rfl, hknown, .none⟩ .nil)
      | record own => exact absurd rfl (hother own)
      | _ => exact .fault rfl

theorem narrowUnion_alternate
    (h : Alternate schema d d' (.target (.ok (.composite c))) (.record members) (.record members'))
    (hfound : schema.constituents c = .ok entities) (hunion : c.isUnion = true) :
    Concur (List.Forall₂ (KeptAlternate schema d d')) (narrowUnion c entities members path)
      (narrowUnion c entities members' path') := by
  have htest : ∀ key base inner,
      Unfolds schema ((Place.target (.ok (.composite c))).vocabulary schema) key base inner →
        (!c.hasConstituent base) = !c.hasConstituent key := by
    intro key base inner hunfolds
    rw [union_vocabulary hunion] at hunfolds
    cases hunfolds with
    | foreign _ hkey hbase => simp [Composite.hasConstituent, hkey, hbase]
  have hfind := find?_of_alternates (fun key => !c.hasConstituent key) htest (h.succ.entries rfl)
  unfold narrowUnion
  generalize hunknown : members.find? _ = unknown at hfind ⊢
  generalize members'.find? _ = unknown' at hfind ⊢
  cases hfind with
  | some _ => exact .fault rfl
  | none =>
    -- A key that is unfolded is no member, so here all keys have stayed.
    have hnames : ∀ e ∈ members, e.1 ∈ c.constituents := by
      intro e he
      simpa [Composite.hasConstituent] using List.find?_eq_none.mp hunknown e he
    have hsame : List.Forall₂ (fun e e' => e = e' ∧ e ∈ entities) entities entities :=
      List.forall₂_same.mpr fun e he => ⟨rfl, he⟩
    refine (Concur.mapM hsame fun e e' he => ?_).bind fun _ _ hkept => .ok (List.rel_flatten hkept)
    obtain ⟨rfl, he⟩ := he
    exact keptMember_alternate h hfound hunion hnames he

theorem typeNames_concur (value : Doc) :
    Concur Eq (typeNames c value path) (typeNames c value path') := by
  unfold typeNames
  refine Concur.andThen ?_ fun names => ?_
  · cases value with
    | text name => exact .same _
    | list items =>
      refine Concur.mapMOne items fun item => ?_
      cases item with
      | text name => exact .same _
      | _ => exact .fault rfl
    | _ => exact .fault rfl
  · split
    · exact .fault rfl
    · exact .same _

/-- Names of types stay as they are. -/
theorem allowedNames_alternate (hclean : CleanNames schema)
    (h : Alternate schema d d' (.target (.ok (.composite c))) (.record members) (.record members'))
    (hfound : schema.constituents c = .ok entities) (hinterface : c.isUnion = false) :
    Concur Eq (allowedNames c members path) (allowedNames c members' path') := by
  have hsame : ∀ key, key = "typename" ∨ key = "typename_IN" → Untouched schema .fields key →
      members'.get? key = members.get? key := by
    intro key hkey huntouched
    have hplace : Place.fixed ∈
        (Place.target (.ok (.composite c))).under schema members key := by
      simp [Place.under, targetPlaces, compositePlaces, hfound, hinterface, hkey]
    have hget := get?_of_alternates hplace
      (fun e _ => interface_vocabulary hinterface ▸ huntouched e.1) (h.succ.entries rfl)
    generalize members.get? key = found at hget
    generalize members'.get? key = found' at hget
    cases hget with
    | none => rfl
    | some hv => exact congrArg some (hv.same rfl rfl)
  simp only [allowedNames, hsame _ (.inl rfl) (untouched_typename hclean),
    hsame _ (.inr rfl) (untouched_typenames hclean)]
  split
  · exact .fault rfl
  · exact (typeNames_concur _).mapSame some
  · exact (typeNames_concur _).mapSame some
  · exact .same _

theorem narrowInterface_alternate (hclean : CleanNames schema)
    (h : Alternate schema d d' (.target (.ok (.composite c))) (.record members) (.record members'))
    (hfound : schema.constituents c = .ok entities) (hinterface : c.isUnion = false) :
    Concur (List.Forall₂ (KeptAlternate schema d d')) (narrowInterface c entities members path)
      (narrowInterface c entities members' path') := by
  unfold narrowInterface
  refine (allowedNames_alternate hclean h hfound hinterface).andThen fun allowed => .ok ?_
  rw [List.forall₂_map_left_iff, List.forall₂_map_right_iff, List.forall₂_same]
  intro e he
  have hmem := List.mem_of_mem_filter he
  -- The type names are taken out of both objects, and the rest is asked of each constituent.
  have hrest := ((h.ofInterface hfound hinterface hmem).erase (untouched_typename hclean)).erase
    (untouched_typenames hclean)
  refine ⟨rfl, constituents_known hfound e hmem, ?_⟩
  simp only [isEmpty_of_alternates (hrest.succ.entries rfl)]
  split
  · exact .none
  · exact .some hrest

theorem narrow_alternate (hclean : CleanNames schema) {members members' : Option Doc.Members}
    (h : OptionAlternate schema d d' (.target (.ok (.composite c))) members members') :
    Concur (List.Forall₂ (KeptAlternate schema d d')) (narrow schema c members path)
      (narrow schema c members' path') := by
  unfold narrow
  cases hfound : schema.constituents c with
  | error fault => exact .fault rfl
  | ok entities =>
    have hall : List.Forall₂ (KeptAlternate schema d d') (entities.map fun e => (e, none))
        (entities.map fun e => (e, none)) := by
      rw [List.forall₂_map_left_iff, List.forall₂_map_right_iff, List.forall₂_same]
      exact fun e he => ⟨rfl, constituents_known hfound e he, .none⟩
    refine .known (a := entities) (b := entities) ?_
    cases h with
    | none => exact .ok hall
    | @some members members' h =>
      simp only [isEmpty_of_alternates (h.succ.entries rfl)]
      split
      · exact .ok hall
      · split
        · rename_i hunion
          exact narrowUnion_alternate h hfound hunion
        · rename_i hinterface
          exact narrowInterface_alternate hclean h hfound (Bool.not_eq_true _ ▸ hinterface)

end Narrowing

variable (schema) in
/-- Readers that concur on objects up to some height. -/
def LevelsConcur (d d' : Nat) (below below' : Level) : Prop :=
  ∀ keys members members' path path', keys.Declared schema →
    Alternate schema d d' (.object keys) (.record members) (.record members') →
      Concur Eq (below keys members path) (below' keys members' path')

namespace Reader

section Related

variable {r : Reader} {below below' : Level} {relationship : Relationship}
  {node node' edge edge' : Option Doc}

theorem related_vocabulary : (Place.related relationship).vocabulary schema ≠ .claims := by
  simp only [Place.vocabulary, targetVocabulary]
  split
  · split <;> simp
  · simp

theorem nodePart_alternate {found : Except SchemaFault Target}
    (h : Option.Rel (Alternate schema d d' (.target found)) node node') :
    Concur (OptionAlternate schema d d' (.target found)) (nodePart node path)
      (nodePart node' path') := by
  cases h with
  | none => exact .ok .none
  | @some v v' hv =>
    rcases hv.record_or_same rfl with ⟨members, members', rfl, rfl⟩ | ⟨rfl, hother⟩
    · exact .ok (.some hv)
    · cases v' with
      | null => exact .ok .none
      | record members => exact absurd rfl (hother members)
      | _ => exact .fault rfl

theorem optionally_alternate (hbelow : LevelsConcur schema d d' below below') {keys : Keys}
    (hkeys : keys.Declared schema) {members members' : Option Doc.Members}
    (h : OptionAlternate schema d d' (.object keys) members members') :
    Concur Eq (optionally below keys members path) (optionally below' keys members' path') := by
  cases h with
  | none => exact .ok rfl
  | some h => exact hbelow _ _ _ _ _ hkeys h

/-- Each constituent that is kept, with the condition on it. -/
theorem targets_alternate (hbelow : LevelsConcur schema d d' below below') {kept kept' : List Kept}
    (h : List.Forall₂ (KeptAlternate schema d d') kept kept') :
    Concur Eq
      (kept.mapM fun (e, rest) => do
        let filter ← optionally below (.node e) rest path
        pure (e, filter))
      (kept'.mapM fun (e, rest) => do
        let filter ← optionally below' (.node e) rest path'
        pure (e, filter)) := by
  refine Concur.mapMSame h fun k k' hk => ?_
  obtain ⟨e, rest⟩ := k
  obtain ⟨e', rest'⟩ := k'
  obtain ⟨rfl, hknown, hrest⟩ := hk
  have hkeys : (Keys.node e').Declared schema := hknown
  exact (optionally_alternate hbelow hkeys hrest).andThen fun filter => .same _

theorem edgePart_alternate (hbelow : LevelsConcur r.setup.schema d d' below below')
    (h : Option.Rel (Alternate r.setup.schema d d' (.edge relationship)) edge edge') :
    Concur Eq (edgePart r below relationship edge path)
      (edgePart r below' relationship edge' path') := by
  cases h with
  | none => exact .ok rfl
  | @some v v' hv =>
    rcases hv.record_or_same rfl with ⟨members, members', rfl, rfl⟩ | ⟨rfl, hother⟩
    · simp only [edgePart]
      cases hproperties : r.setup.schema.propertiesOf relationship with
      | none => exact .fault rfl
      | some properties =>
        have hkeys : (Keys.edge properties).Declared r.setup.schema :=
          propertiesOf_known hproperties
        refine .known (hbelow _ _ _ _ _ hkeys (hv.recast rfl rfl rfl fun key q hq => ?_))
        simpa only [Place.under, edgePlaces, hproperties] using hq
    · cases v' with
      | null => exact .ok rfl
      | record members => exact absurd rfl (hother members)
      | _ =>
        simp only [edgePart]
        cases r.setup.schema.propertiesOf relationship <;> exact .fault rfl

variable (hclean : CleanNames r.setup.schema)
  (hbelow : LevelsConcur r.setup.schema d d' below below')
include hclean hbelow

theorem related_alternate
    (hnode : Option.Rel
      (Alternate r.setup.schema d d' (.target (r.setup.schema.targetOf relationship))) node node')
    (hedge : Option.Rel (Alternate r.setup.schema d d' (.edge relationship)) edge edge')
    (quantifier : Quantifier) :
    Concur Eq (r.related below relationship quantifier node edge path)
      (r.related below' relationship quantifier node' edge' path') := by
  refine (nodePart_alternate hnode).bind fun members members' hmembers => ?_
  have hedges : Concur Eq (r.edgePart below relationship edge path)
      (r.edgePart below' relationship edge' path') := edgePart_alternate hbelow hedge
  cases hfound : r.setup.schema.targetOf relationship with
  | error fault => exact .fault rfl
  | ok target =>
    rw [hfound] at hmembers
    cases target with
    | entity e =>
      have hkeys : (Keys.node e).Declared r.setup.schema := target_known hfound
      have hown : OptionAlternate r.setup.schema d d' (.object (.node e)) members members' := by
        cases hmembers with
        | none => exact .none
        | some h => exact .some (h.recast rfl rfl rfl fun _ _ hq => hq)
      refine .known ((optionally_alternate hbelow hkeys hown).andThen fun filter => ?_)
      exact hedges.andThen fun own => .same _
    | composite c =>
      refine .known ((narrow_alternate hclean hmembers).bind fun kept kept' hkept => ?_)
      refine (targets_alternate hbelow hkept).andThen fun targets => ?_
      exact hedges.andThen fun own => .same _

theorem connected_alternate (h : Alternate r.setup.schema d d' (.connected relationship) v v')
    (quantifier : Quantifier) :
    Concur Eq (r.connected below relationship quantifier v path)
      (r.connected below' relationship quantifier v' path') := by
  rcases h.record_or_same rfl with ⟨members, members', rfl, rfl⟩ | ⟨rfl, hother⟩
  · have hentries := h.succ.entries rfl
    have hfind := find?_of_alternates (fun key => key != "node" && key != "edge")
      (fun _ _ _ hunfolds => (Unfolds.false_of_other hunfolds).elim) hentries
    refine .known (a := members) (b := members') ?_
    generalize members.find? _ = unknown at hfind ⊢
    generalize members'.find? _ = unknown' at hfind ⊢
    cases hfind with
    | some hkey => exact .fault rfl
    | none =>
      have hnode : Option.Rel (Alternate r.setup.schema d d'
          (.target (r.setup.schema.targetOf relationship)))
          (Entries.get? members "node") (Entries.get? members' "node") :=
        get?_of_alternates List.mem_cons_self
          (fun _ _ _ _ hunfolds => (Unfolds.false_of_other hunfolds).elim) hentries
      have hedge : Option.Rel (Alternate r.setup.schema d d' (.edge relationship))
          (Entries.get? members "edge") (Entries.get? members' "edge") :=
        get?_of_alternates List.mem_cons_self
          (fun _ _ _ _ hunfolds => (Unfolds.false_of_other hunfolds).elim) hentries
      exact related_alternate hclean hbelow hnode hedge quantifier
  · cases v' with
    | null => exact related_alternate hclean hbelow .none .none quantifier
    | record members => exact absurd rfl (hother members)
    | _ => exact .fault rfl

/-- One quantifier of an object of quantifiers. -/
theorem quantified_alternate {whole : Doc.Members} (hparted : isQuantifierRecord whole = true)
    {e e' : String × Doc}
    (h : EntryAlternate r.setup.schema d d' (.related relationship) whole e e') :
    Concur Eq
      (do
        let q ← quantifierOf e.1 path
        r.related below relationship q (some e.2) none (childPath path e.1))
      (do
        let q ← quantifierOf e'.1 path'
        r.related below' relationship q (some e'.2) none (childPath path' e'.1)) := by
  cases h with
  | @kept key v v' hkept =>
    simp only [quantifierOf]
    cases hq : Quantifier.ofGeneric? key with
    | none => exact .fault rfl
    | some q =>
      have hv : Alternate r.setup.schema d d' (.target (r.setup.schema.targetOf relationship))
          v v' := hkept _ (by simp [Place.under, hparted, hq])
      exact .known (related_alternate hclean hbelow (.some hv) .none q)
  | unfolded hunfolds hclaims _ =>
    obtain ⟨hkey, hbase⟩ := hunfolds.no_quantifier hclean hclaims
    simp only [quantifierOf, hkey, hbase]
    exact .fault rfl

theorem relatedOutcome_alternate
    (h : Alternate r.setup.schema d d' (.related relationship) v v') :
    Concur Eq (r.relatedOutcome below relationship v path)
      (r.relatedOutcome below' relationship v' path') := by
  rcases h.record_or_same rfl with ⟨members, members', rfl, rfl⟩ | ⟨rfl, hother⟩
  · have hentries := h.succ.entries rfl
    have hsame : isQuantifierRecord members' = isQuantifierRecord members := by
      refine any_of_alternates (fun key => (Quantifier.ofGeneric? key).isSome) ?_ hentries
      intro key base inner hunfolds
      obtain ⟨hkey, hbase⟩ := hunfolds.no_quantifier hclean
        fun hclaims => absurd hclaims related_vocabulary
      simp only [hkey, hbase]
    simp only [relatedOutcome, hsame]
    split
    · rename_i hparted
      refine (Concur.mapMSame hentries fun e e' he => ?_).mapSame _
      exact quantified_alternate hclean hbelow hparted he
    · rename_i hwhole
      have hv : Alternate r.setup.schema d d' (.target (r.setup.schema.targetOf relationship))
          (.record members) (.record members') :=
        h.recast rfl rfl rfl fun key q hq => by simpa [Place.under, hwhole] using hq
      exact (related_alternate hclean hbelow (.some hv) .none _).mapSame some
  · cases v' with
    | null => exact (related_alternate hclean hbelow .none .none _).mapSame some
    | record members => exact absurd rfl (hother members)
    | _ => exact .fault rfl

omit hbelow in
theorem aggregation_alternate {members members' : Doc.Members}
    (h : Alternate r.setup.schema d d' (.aggregation relationship) (.record members)
      (.record members')) :
    Concur Eq (r.aggregation relationship members path)
      (r.aggregation relationship members' path') := by
  unfold aggregation
  cases hfound : r.setup.schema.targetOf relationship with
  | error fault => exact .fault rfl
  | ok target =>
    cases target with
    | composite c => exact .fault rfl
    | entity e =>
      refine .known ?_
      have hkeys : aggregationKeys? r.setup.schema relationship =
          some ⟨relationship, e, r.setup.schema.propertiesOf relationship⟩ := by
        simp only [aggregationKeys?, hfound]
      have hdeclared : AggregationKeys.Declared r.setup.schema
          ⟨relationship, e, r.setup.schema.propertiesOf relationship⟩ :=
        ⟨target_known hfound, fun p hp => propertiesOf_known hp⟩
      exact AggregationKeys.conditionAt_alternate hclean hdeclared hkeys _ _ _ _ _ _
        ⟨h.respelled, Nat.le_refl _, Nat.le_refl _⟩

theorem connectionPart_alternate {key : String}
    (haggregate : key = "aggregate" →
      Alternate r.setup.schema d d' (.aggregation relationship) v v')
    (hconnected : (Quantifier.ofGeneric? key).isSome →
      Alternate r.setup.schema d d' (.connected relationship) v v') :
    Concur Eq (r.connectionPart below relationship path key v)
      (r.connectionPart below' relationship path' key v') := by
  unfold connectionPart
  simp only
  split
  · rename_i hkey
    refine (asRecord_alternate rfl (haggregate hkey)).bind fun _ _ hmembers => ?_
    exact (aggregation_alternate hclean hmembers).andThen fun c => .same _
  · simp only [quantifierOf]
    cases hq : Quantifier.ofGeneric? key with
    | none => exact .fault rfl
    | some q =>
      have hv := hconnected (by simp [hq])
      exact .known ((connected_alternate hclean hbelow hv q).andThen fun c => .same _)

theorem connectionOutcome_alternate
    (h : Alternate r.setup.schema d d' (.connection relationship) v v') :
    Concur Eq (r.connectionOutcome below relationship v path)
      (r.connectionOutcome below' relationship v' path') := by
  rcases h.record_or_same rfl with ⟨members, members', rfl, rfl⟩ | ⟨rfl, hother⟩
  · have hentries := h.succ.entries rfl
    have hsame : isConnectionRecord members' = isConnectionRecord members := by
      refine any_of_alternates
        (fun key => key == "aggregate" || (Quantifier.ofGeneric? key).isSome) ?_ hentries
      intro key base inner hunfolds
      cases hunfolds
    simp only [connectionOutcome, hsame]
    split
    · rename_i hparted
      refine (Concur.mapMSame (entries_kept rfl hentries) fun e e' he => ?_).mapSame _
      obtain ⟨key, v⟩ := e
      obtain ⟨key', v'⟩ := e'
      obtain ⟨rfl, hkept⟩ := he
      have hv : ∀ q ∈ (if key' = "aggregate" then [.aggregation relationship]
          else if (Quantifier.ofGeneric? key').isSome then [.connected relationship] else []),
          Alternate r.setup.schema d d' q v v' := by
        have hunder : (Place.connection relationship).under r.setup.schema members key' =
            if key' = "aggregate" then [.aggregation relationship]
            else if (Quantifier.ofGeneric? key').isSome then [.connected relationship] else [] :=
          if_pos hparted
        exact hunder ▸ hkept
      have haggregate : key' = "aggregate" →
          Alternate r.setup.schema d d' (.aggregation relationship) v v' :=
        fun hkey => hv _ (by simp [hkey])
      have hconnected : (Quantifier.ofGeneric? key').isSome →
          Alternate r.setup.schema d d' (.connected relationship) v v' := by
        intro hkey
        have hother : key' ≠ "aggregate" := by
          rintro rfl
          exact absurd hkey (by decide)
        exact hv _ (by simp [hkey, hother])
      exact connectionPart_alternate hclean hbelow haggregate hconnected
    · rename_i hwhole
      have hv : Alternate r.setup.schema d d' (.connected relationship) (.record members)
          (.record members') := by
        refine h.recast rfl rfl rfl fun key q hq => ?_
        simp only [Place.under]
        exact (if_neg hwhole).symm ▸ hq
      exact (connected_alternate hclean hbelow hv _).mapSame some
  · cases v' with
    | null => exact (related_alternate hclean hbelow .none .none _).mapSame some
    | record members => exact absurd rfl (hother members)
    | _ => exact .fault rfl

end Related

end Reader

end GraphSelection.Resolve
