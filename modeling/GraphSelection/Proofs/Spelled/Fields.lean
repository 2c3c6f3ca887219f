import GraphSelection.Proofs.Spelled.Conditions

/-!
Entries of objects in two spellings. A key that stays is read in the place of its form; a key that
is unfolded is read to the one condition that the object under what is left of it stands for.
-/
namespace GraphSelection.Resolve

open GraphSelection Plan

variable {schema : Schema} {d d' : Nat} {v v' : Doc} {path path' : String}

section Places

/-- What stands under a key of a form stands in a place of the form. -/
def KeyForm.Stands (schema : Schema) (places : List Place) : KeyForm → Prop
  | .own _ _ => .operand ∈ places
  | .compared _ _ _ _ => .operand ∈ places ∨ .like ∈ places
  | .related r => .related r ∈ places
  | .quantified _ _ r => .target (schema.targetOf r) ∈ places
  | .connection r => .connection r ∈ places
  | .connected _ _ r => .connected r ∈ places
  | .aggregate r => .aggregation r ∈ places
  | .unknown => True

theorem KeyForm.Stands.mono {form : KeyForm} {places places' : List Place}
    (h : form.Stands schema places) (hsubset : places ⊆ places') : form.Stands schema places' := by
  cases form with
  | unknown => trivial
  | compared field op subject a => exact h.imp (fun hmem => hsubset hmem) fun hmem => hsubset hmem
  | _ => exact hsubset h

theorem comparedForm_stands (keys : Keys) (key : String) :
    (keys.comparedForm key).Stands schema (suffixedPlaces keys key) := by
  unfold suffixedPlaces
  cases hending : dropAny key Comparison.endings with
  | none =>
    rw [comparedForm_none hending]
    trivial
  | some found =>
    obtain ⟨base, op⟩ := found
    rw [comparedForm_some hending, Option.bind_some]
    cases keys.attribute? base with
    | none => trivial
    | some found => exact .inr List.mem_cons_self

theorem variantForm_stands {e : Entity} {key : String} {form : KeyForm}
    (h : variantForm? e key = some form) : form.Stands schema (variantPlaces schema e key) := by
  unfold variantForm? at h
  unfold variantPlaces
  cases hquantifier : dropAny key Quantifier.endings with
  | some found =>
    obtain ⟨base, q⟩ := found
    simp only [hquantifier, Option.map_some, Option.getD_some] at h ⊢
    cases hbase : e.relationship? base with
    | some relationship =>
      simp only [hbase, Option.some.injEq] at h
      exact h ▸ List.mem_cons_self
    | none =>
      cases hconnection : (Text.dropEnd? base "Connection").bind e.relationship? with
      | none => simp only [hbase, hconnection, reduceCtorEq] at h
      | some relationship =>
        simp only [hbase, hconnection, Option.some.injEq] at h
        exact h ▸ List.mem_cons_self
  | none =>
    simp only [hquantifier, Option.map_none, Option.getD_none] at h ⊢
    cases hconnection : (Text.dropEnd? key "Connection").bind e.relationship? with
    | some relationship =>
      simp only [hconnection, Option.some.injEq] at h
      exact h ▸ List.mem_cons_self
    | none =>
      simp only [hconnection, Option.map_eq_some_iff] at h
      obtain ⟨relationship, haggregate, rfl⟩ := h
      simp only [haggregate]
      exact List.mem_cons_self

theorem form_stands (r : Reader) (keys : Keys) (key : String) :
    (r.form keys key).Stands schema (fieldPlaces schema keys key) := by
  cases keys with
  | claims =>
    simp only [Reader.form, fieldPlaces]
    split
    · exact .inl List.mem_cons_self
    · exact List.mem_cons_self
  | edge p =>
    simp only [Reader.form, fieldPlaces, Keys.attribute?]
    cases p.attribute? key with
    | some a => exact List.mem_cons_self
    | none => exact comparedForm_stands _ _
  | node e =>
    simp only [Reader.form, fieldPlaces, Keys.attribute?]
    cases e.attribute? key with
    | some a => exact List.mem_cons_self
    | none =>
      simp only [Option.map_none]
      cases e.relationship? key with
      | some relationship => exact List.mem_cons_self
      | none =>
        simp only
        cases hvariant : variantForm? e key with
        | some form =>
          exact (variantForm_stands hvariant).mono (List.subset_append_left _ _)
        | none => exact (comparedForm_stands _ _).mono (List.subset_append_right _ _)

theorem objectPlaces_field {keys : Keys} {key : String} (h : key ∉ connectives) :
    objectPlaces schema keys key = fieldPlaces schema keys key := by
  unfold objectPlaces
  split
  · exact absurd (by decide) h
  · exact absurd (by decide) h
  · exact absurd (by decide) h
  · rfl

end Places

section Single

/-- A condition that is no conjunction. -/
def Unjoined (c : Condition) : Prop := c.conjuncts = [c]

theorem allOf_unjoined {x : Result Condition} (h : ∀ c, x = .ok c → Unjoined c) :
    (x.map fun c => Condition.allOf [c]) = x.map some := by
  cases x with
  | error f => rfl
  | ok c =>
    have hc : c.conjuncts = [c] := h c rfl
    have hflat : [c].flatMap Condition.conjuncts = [c] := by
      rw [List.flatMap_singleton, hc]
    exact congrArg Except.ok (by simp only [Condition.allOf, hflat])

variable {mode : ClaimMode} {subject : Subject} {a : Option Attribute} {op : Comparison}
  {name : String}

theorem compared_unjoined {value : Doc} {caseInsensitive : Bool} {c : Condition}
    (h : compared mode subject a op value caseInsensitive path = .ok c) : Unjoined c := by
  unfold compared at h
  split at h
  · split at h
    · cases h
    · cases h
      rfl
  · simp only [except_bind_ok, except_pure_ok] at h
    obtain ⟨_, _, rfl⟩ := h
    rfl

namespace Reader

variable {r : Reader} {below : Level} {relationship : Relationship} {q : Quantifier}

theorem related_unjoined {node edge : Option Doc} {c : Condition}
    (h : r.related below relationship q node edge path = .ok c) : Unjoined c := by
  simp only [related, except_bind_ok] at h
  obtain ⟨members, _, target, _, h⟩ := h
  cases target with
  | entity e =>
    simp only [except_bind_ok, except_pure_ok] at h
    obtain ⟨_, _, _, _, rfl⟩ := h
    rfl
  | composite c =>
    simp only [except_bind_ok, except_pure_ok] at h
    obtain ⟨_, _, _, _, _, _, rfl⟩ := h
    rfl

theorem connected_unjoined {value : Doc} {c : Condition}
    (h : r.connected below relationship q value path = .ok c) : Unjoined c := by
  unfold connected at h
  split at h
  · exact related_unjoined h
  · simp only [except_bind_ok] at h
    obtain ⟨members, _, h⟩ := h
    split at h
    · cases h
    · exact related_unjoined h

/-- An object of one comparison. -/
theorem valueOutcome_single (hname : Comparison.ofGeneric? name = some op) (value : Doc)
    (path : String) :
    r.valueOutcome subject a (.record [(name, value)]) path =
      (compared r.mode subject a op value false (childPath path name)).map some := by
  have hrecord : isOperatorRecord [(name, value)] = true := by
    simp [isOperatorRecord, hname]
  have hplain : name ≠ "caseInsensitive" := by
    rintro rfl
    cases hname
  rw [← allOf_unjoined fun c hc => compared_unjoined hc]
  simp only [valueOutcome, hrecord, if_true, operatorParts, if_neg hplain, genericComparison, hname]
  change (compared r.mode subject a op value false (childPath path name) >>= fun c =>
    (.ok ([c] ++ []) : Result (List Condition))).map Condition.allOf = _
  cases compared r.mode subject a op value false (childPath path name) <;> rfl

/-- An object of one quantifier. -/
theorem relatedOutcome_single (hname : Quantifier.ofGeneric? name = some q) (value : Doc)
    (path : String) :
    r.relatedOutcome below relationship (.record [(name, value)]) path =
      (r.related below relationship q (some value) none (childPath path name)).map some := by
  have hrecord : isQuantifierRecord [(name, value)] = true := by
    simp [isQuantifierRecord, hname]
  rw [← allOf_unjoined fun c hc => related_unjoined hc]
  simp only [relatedOutcome, hrecord, if_true, List.mapM_cons, List.mapM_nil, quantifierOf, hname]
  change (r.related below relationship q (some value) none (childPath path name) >>= fun c =>
    (.ok [c] : Result (List Condition))).map Condition.allOf = _
  cases r.related below relationship q (some value) none (childPath path name) <;> rfl

/-- A connection of one quantifier. -/
theorem connectionOutcome_single (hname : Quantifier.ofGeneric? name = some q) (value : Doc)
    (path : String) :
    r.connectionOutcome below relationship (.record [(name, value)]) path =
      (r.connected below relationship q value (childPath path name)).map some := by
  have hrecord : isConnectionRecord [(name, value)] = true := by
    simp [isConnectionRecord, hname]
  have hplain : name ≠ "aggregate" := by
    rintro rfl
    cases hname
  have hpart : r.connectionPart below relationship path name value =
      (r.connected below relationship q value (childPath path name)).map fun c => [c] := by
    simp only [connectionPart, if_neg hplain, quantifierOf, hname]
    change (r.connected below relationship q value (childPath path name) >>= fun c => .ok [c]) = _
    cases r.connected below relationship q value (childPath path name) <;> rfl
  rw [← allOf_unjoined fun c hc => connected_unjoined hc]
  simp only [connectionOutcome, hrecord, if_true, List.mapM_cons, List.mapM_nil, hpart]
  cases r.connected below relationship q value (childPath path name) <;> rfl

end Reader

end Single

namespace Reader

variable {r : Reader} {below below' : Level} {keys : Keys}

/-- A condition is no unknown key. -/
theorem some_orUnknown (x : Result Condition) (owner key : String) :
    (x.map some >>= orUnknown owner key) = x.map some := by
  cases x <;> rfl

/-- What is compared stays. -/
theorem compared_same {field : String} {op : Comparison} {subject : Subject} {a : Option Attribute}
    {places : List Place} (hform : (KeyForm.compared field op subject a).Stands schema places)
    (h : ∀ q ∈ places, Alternate schema d d' q v v') : v' = v := by
  rcases hform with hoperand | hlike
  · exact (h _ hoperand).same rfl rfl
  · exact (h _ hlike).same rfl rfl

/-- A comparison in the key, and one in an object under it. -/
theorem compared_unfolded {name : String} {op : Comparison}
    (hname : Comparison.ofGeneric? name = some op) (subject : Subject) (a : Option Attribute)
    (value : Doc) :
    Concur Eq ((compared r.mode subject a op value false path).map some)
      (r.valueOutcome subject a (.record [(name, value)]) path') := by
  rw [valueOutcome_single hname]
  exact (compared_concur op value false).mapSame some

variable (hclean : CleanNames r.setup.schema)
  (hbelow : LevelsConcur r.setup.schema d d' below below')
include hclean hbelow

/-- A key that stays. -/
theorem formOutcome_alternate {form : KeyForm} {places : List Place}
    (hform : form.Stands r.setup.schema places)
    (h : ∀ q ∈ places, Alternate r.setup.schema d d' q v v') (owner key : String) :
    Concur Eq (r.formOutcome below owner key v path form)
      (r.formOutcome below' owner key v' path' form) := by
  cases form with
  | own subject a => exact (h _ hform).same rfl rfl ▸ valueOutcome_concur r v
  | compared field op subject a =>
    exact compared_same hform h ▸ (compared_concur op v false).mapSame some
  | related relationship => exact relatedOutcome_alternate hclean hbelow (h _ hform)
  | quantified field q relationship =>
    exact (related_alternate hclean hbelow (.some (h _ hform)) .none q).mapSame some
  | connection relationship =>
    exact (connectionOutcome_alternate hclean hbelow (h _ hform)).andThen fun c => .same _
  | connected field q relationship =>
    exact (connected_alternate hclean hbelow (h _ hform) q).mapSame some
  | aggregate relationship =>
    refine (asRecord_alternate rfl (h _ hform)).bind fun _ _ hmembers => ?_
    exact (aggregation_alternate hclean hmembers).andThen fun c => .same _
  | unknown => exact .fault rfl

/-- A key that is unfolded. -/
theorem formOutcome_unfolded (hkeys : keys.Declared r.setup.schema) {key base : String}
    {inner : List String}
    (hunfolds : Unfolds r.setup.schema ((Place.object keys).vocabulary r.setup.schema) key base
      inner)
    (hclaims : (Place.object keys).vocabulary r.setup.schema = .claims → CleanName base)
    (h : ∀ q ∈ fieldPlaces r.setup.schema keys key, Alternate r.setup.schema d d' q v v') :
    Concur Eq (r.formOutcome below keys.owner key v path (r.form keys key))
      (r.formOutcome below' keys.owner base (v'.nested inner) path' (r.form keys base)) := by
  have hform : (r.form keys key).Stands r.setup.schema (fieldPlaces r.setup.schema keys key) :=
    form_stands r keys key
  -- In each case both keys have a form, or neither has: the name before the ending is known to the
  -- keys or it is not, and no other reading of the two keys comes before that.
  generalize hvocabulary : (Place.object keys).vocabulary r.setup.schema = vocabulary at hunfolds
  have hfields : vocabulary = .fields → keys ≠ .claims := by
    rintro rfl rfl
    cases hvocabulary
  cases hunfolds with
  | @compared _ ending name hf hspelling =>
    obtain ⟨op, hending, hname⟩ := comparison_of_spelling hspelling
    have hplain := hfields rfl
    rw [form_compared hclean hkeys hplain r hending base] at hform ⊢
    rw [form_attribute hclean hkeys hplain r hf]
    cases hattribute : keys.attribute? base with
    | none => exact .fault rfl
    | some found =>
      rw [hattribute] at hform
      obtain rfl := compared_same hform h
      exact compared_unfolded hname found.1 (some found.2) v'
  | @claimed _ ending name hspelling =>
    obtain ⟨op, hending, hname⟩ := comparison_of_spelling hspelling
    obtain rfl : keys = .claims := by
      cases keys with
      | claims => rfl
      | _ => cases hvocabulary
    rw [form_claimed r hending base] at hform ⊢
    rw [form_claim r (hclaims hvocabulary)]
    obtain rfl := compared_same hform h
    exact compared_unfolded hname (r.claimSubject base) none v'
  | @quantified _ ending name hf hspelling =>
    obtain ⟨q, hending, hname⟩ := quantifier_of_spelling hspelling
    have hplain := hfields rfl
    rw [form_quantified hclean hkeys hplain r hf hending] at hform ⊢
    rw [form_relationship hclean hkeys hplain r hf]
    cases hrelationship : keys.relationship? base with
    | none => exact .fault rfl
    | some relationship =>
      rw [hrelationship] at hform
      change Concur Eq _ (r.relatedOutcome below' relationship (.record [(name, v')]) path')
      rw [relatedOutcome_single hname]
      exact (related_alternate hclean hbelow (.some (h _ hform)) .none q).mapSame some
  | @connected f ending name hf hspelling =>
    obtain ⟨q, hending, hname⟩ := quantifier_of_spelling hspelling
    have hplain := hfields rfl
    rw [form_connected hclean hkeys hplain r hending f] at hform ⊢
    rw [form_connection hclean hkeys hplain r f]
    cases hrelationship : keys.relationship? f with
    | none => exact .fault rfl
    | some relationship =>
      rw [hrelationship] at hform
      change Concur Eq _ (r.connectionOutcome below' relationship (.record [(name, v')]) path' >>=
        orUnknown keys.owner (f ++ "Connection"))
      rw [connectionOutcome_single hname, some_orUnknown]
      exact (connected_alternate hclean hbelow (h _ hform) q).mapSame some
  | counted => cases keys <;> cases hvocabulary
  | reduced => cases keys <;> cases hvocabulary
  | foreign => cases keys <;> cases hvocabulary

omit hclean in
theorem operands_alternate (hkeys : keys.Declared r.setup.schema)
    (h : Alternate r.setup.schema d d' (.objects keys) v v') :
    Concur Eq (operands below keys v path) (operands below' keys v' path') := by
  rcases h.list_or_same rfl List.mem_cons_self with
    ⟨items, items', rfl, rfl, hitems⟩ | ⟨rfl, hother⟩
  · refine (Concur.mapMSame (forall₂_indexed hitems) fun e e' he => ?_).andThen fun found => .same _
    obtain ⟨index, item⟩ := e
    obtain ⟨index', item'⟩ := e'
    obtain ⟨_, hitem⟩ := he
    exact (asRecord_alternate rfl hitem).bind fun _ _ hmembers => hbelow _ _ _ _ _ hkeys hmembers
  · cases v' with
    | list items => exact absurd rfl (hother items)
    | _ => exact .fault rfl

/-- An entry whose key stays. -/
theorem outcome_kept (hkeys : keys.Declared r.setup.schema) {key : String}
    (h : ∀ q ∈ objectPlaces r.setup.schema keys key, Alternate r.setup.schema d d' q v v') :
    Concur Eq (r.outcome below keys path key v) (r.outcome below' keys path' key v') := by
  by_cases hkey : key ∈ connectives
  · simp only [connectives, List.mem_cons, List.not_mem_nil, or_false] at hkey
    rcases hkey with rfl | rfl | rfl
    · exact (operands_alternate hbelow hkeys (h _ List.mem_cons_self)).mapSame _
    · exact (operands_alternate hbelow hkeys (h _ List.mem_cons_self)).mapSame _
    · have hv : Alternate r.setup.schema d d' (.object keys) v v' := h _ List.mem_cons_self
      refine (asRecord_alternate rfl hv).bind fun _ _ hmembers => ?_
      exact (hbelow _ _ _ _ _ hkeys hmembers).andThen fun inner => .same _
  · rw [objectPlaces_field hkey] at h
    rw [outcome_of_field below path hkey, outcome_of_field below' path' hkey]
    exact (formOutcome_alternate hclean hbelow (form_stands r keys key) h _ _).mapSame _

/-- Entries of objects in two spellings are read to the same conditions. -/
theorem outcome_alternate (hkeys : keys.Declared r.setup.schema) {whole : Doc.Members}
    {e e' : String × Doc} (h : EntryAlternate r.setup.schema d d' (.object keys) whole e e') :
    Concur Eq (r.outcome below keys path e.1 e.2) (r.outcome below' keys path' e'.1 e'.2) := by
  cases h with
  | kept hkept => exact outcome_kept hclean hbelow hkeys hkept
  | @unfolded key base inner v v' hunfolds hclaims hkept =>
    obtain ⟨hkey, hbase⟩ := hunfolds.no_connective hclean hclaims
    have hfields : ∀ q ∈ fieldPlaces r.setup.schema keys key,
        Alternate r.setup.schema d d' q v v' := objectPlaces_field hkey ▸ hkept
    rw [outcome_of_field below path hkey, outcome_of_field below' path' hbase]
    exact (formOutcome_unfolded hclean hbelow hkeys hunfolds hclaims hfields).mapSame _

end Reader

end GraphSelection.Resolve
