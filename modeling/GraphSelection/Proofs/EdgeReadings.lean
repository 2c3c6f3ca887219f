import GraphSelection.Proofs.Expanded

/-!
Edges of a connection over a composite, as they are read. All `edges` entries of one connection read
the same fields of a node, and each response key is read once: for what is asked first under it.
An entry under whose keys nothing else is asked is read in a connection of its own as it is beside
the others.
-/
namespace GraphSelection.Selection

/-- The same field, under whatever response name. -/
def Agrees (f g : Selection) : Prop :=
  { f with responseName := none } = { g with responseName := none }

end GraphSelection.Selection

namespace GraphSelection.Resolve

open GraphSelection Plan

/-- The last of the selections of the name. -/
def lastNamed (name : String) (selection : List Selection) : Option Selection :=
  (selection.filter (·.name == name)).getLast?

/-- What the edges of a selection ask of the nodes of the type. -/
def askedOf (typeName : String) (selection : List Selection) : List Selection :=
  (Setup.nodeSelections selection).flatMap fun node => effective typeName node.selection node.on

/-- What one `edges` entry asks of the relationship; of several `properties` the last counts. -/
def propertiesOf (edges : Selection) : List Selection :=
  ((lastNamed "properties" edges.selection).map Selection.selection).getD []

/-- What the edges of a selection ask of the relationship. -/
def askedProperties (selection : List Selection) : List Selection :=
  selection.flatMap fun f => if f.name = "edges" then propertiesOf f else []

/-- Under each key that is asked for there is one field. It is read for what is asked first under
the key, and so for each of the others that is the same. -/
structure ShowsFirst {φ : Type} (key : φ → String) (reads : Selection → φ → Prop)
    (asked : List Selection) (fields : List φ) : Prop where
  shown : ∀ f ∈ asked, ∃ first found, asked.find? (·.key == f.key) = some first ∧
    fields.find? (key · == f.key) = some found ∧ reads first found ∧
    (f.Agrees first → reads f found)
  keys : (fields.map key).Nodup

/-- Steps that follow other ones have results where these have, and the results are related. -/
theorem mapM_follows {ε α β γ : Type} {f : α → Except ε β} {g : α → Except ε γ}
    {R : β → γ → Prop} {xs : List α} {ys : List β} (h : xs.mapM f = .ok ys)
    (hstep : ∀ x, ∀ y ∈ ys, f x = .ok y → ∃ z, g x = .ok z ∧ R y z) :
    ∃ zs, xs.mapM g = .ok zs ∧ List.Forall₂ R ys zs := by
  induction xs generalizing ys with
  | nil =>
    simp only [List.mapM_nil, except_pure_ok] at h
    subst h
    exact ⟨[], rfl, .nil⟩
  | cons x rest ih =>
    simp only [List.mapM_cons, except_bind_ok, except_pure_ok] at h
    obtain ⟨y, hy, ys, hrest, rfl⟩ := h
    obtain ⟨z, hz, hfirst⟩ := hstep x y List.mem_cons_self hy
    obtain ⟨zs, hzs, hmore⟩ := ih hrest fun x y hmem => hstep x y (List.mem_cons_of_mem _ hmem)
    exact ⟨z :: zs, by rw [List.mapM_cons, hz, hzs]; rfl, .cons hfirst hmore⟩

/-- Each field that is asked for is read for what is asked, and is shown by both. -/
def ShownByBoth {φ : Type} (key : φ → String) (reads : Selection → φ → Prop)
    (asked : List Selection) (fields fields' : List φ) : Prop :=
  ∀ f ∈ asked, ∃ found, reads f found ∧ fields.find? (key · == f.key) = some found ∧
    fields'.find? (key · == f.key) = some found

section Shown

variable {φ : Type} {key : φ → String} {reads : Selection → φ → Prop} {asked : List Selection}
  {fields : List φ}

theorem find?_of_forall₂ (hkey : ∀ f found, reads f found → key found = f.key)
    (h : List.Forall₂ reads asked fields) {name : String} {first : Selection}
    (hfirst : asked.find? (·.key == name) = some first) :
    ∃ found, fields.find? (key · == name) = some found ∧ reads first found := by
  induction h with
  | nil => cases hfirst
  | @cons f found _ _ hread _ ih =>
    rw [List.find?_cons] at hfirst ⊢
    rw [hkey f found hread]
    by_cases hname : f.key = name
    · simp only [hname, beq_self_eq_true] at hfirst ⊢
      cases hfirst
      exact ⟨found, rfl, hread⟩
    · have hother : (f.key == name) = false := by simpa using hname
      simp only [hother] at hfirst ⊢
      exact ih hfirst

theorem exists_find?_key {f : Selection} (hf : f ∈ asked) :
    ∃ first, asked.find? (·.key == f.key) = some first := by
  apply Option.isSome_iff_exists.mp
  exact List.find?_isSome.mpr ⟨f, hf, by simp⟩

/-- What is read depends on the response key and the field only. -/
structure ReadsAlike (key : φ → String) (reads : Selection → φ → Prop) : Prop where
  keyed : ∀ f found, reads f found → key found = f.key
  agrees : ∀ f g found, f.key = g.key → f.Agrees g → reads g found → reads f found
  unique : ∀ f found found', reads f found → reads f found' → found = found'

section

variable (halike : ReadsAlike key reads)
include halike

theorem ReadsAlike.shown {f first : Selection} {found : φ}
    (hfirst : asked.find? (·.key == f.key) = some first) (hread : reads first found) :
    f.Agrees first → reads f found := by
  intro hagrees
  have hkey : first.key = f.key := by simpa using List.find?_some hfirst
  exact halike.agrees f first found hkey.symm hagrees hread

/-- Fields of which the first of each key is kept. -/
theorem showsFirst_firstOf (h : List.Forall₂ reads asked fields) :
    ShowsFirst key reads asked (firstOf key fields) where
  shown := by
    intro f hf
    obtain ⟨first, hfirst⟩ := exists_find?_key hf
    obtain ⟨found, hfound, hread⟩ := find?_of_forall₂ halike.keyed h hfirst
    rw [find?_firstOf]
    exact ⟨first, found, hfirst, hfound, hread, halike.shown hfirst hread⟩
  keys := nodup_firstOf key fields

/-- Fields that are read for the first of each key. -/
theorem showsFirst_of_firstOf (h : List.Forall₂ reads (firstOf Selection.key asked) fields) :
    ShowsFirst key reads asked fields where
  shown := by
    intro f hf
    obtain ⟨first, hfirst⟩ := exists_find?_key hf
    have hkept : (firstOf Selection.key asked).find? (·.key == f.key) = some first :=
      (find?_firstOf Selection.key asked f.key).trans hfirst
    obtain ⟨found, hfound, hread⟩ := find?_of_forall₂ halike.keyed h hkept
    exact ⟨first, found, hfirst, hfound, hread, halike.shown hfirst hread⟩
  keys := by
    rw [keys_of_forall₂ halike.keyed h]
    exact nodup_firstOf Selection.key asked

end

/-- Where nothing else is asked under their keys, fields are read for what is asked. -/
theorem ShowsFirst.read (h : ShowsFirst key reads asked fields) {f : Selection} (hf : f ∈ asked)
    (hundisturbed : ∀ first, asked.find? (·.key == f.key) = some first → f.Agrees first) :
    ∃ found, reads f found ∧ fields.find? (key · == f.key) = some found := by
  obtain ⟨first, found, hfirst, hfound, _, hown⟩ := h.shown f hf
  exact ⟨found, hown (hundisturbed first hfirst), hfound⟩

/-- What some of the fields are read for is read for them alike beside all and alone. -/
theorem ShowsFirst.both {part : List Selection} {fields' : List φ}
    (h : ShowsFirst key reads asked fields) (h' : ShowsFirst key reads part fields')
    (halike : ReadsAlike key reads) (hsub : part ⊆ asked)
    (hundisturbed : ∀ f ∈ part, ∀ first, asked.find? (·.key == f.key) = some first →
      f.Agrees first) :
    ShownByBoth key reads part fields fields' := by
  intro f hf
  obtain ⟨found, hread, hfound⟩ := h.read (hsub hf) (hundisturbed f hf)
  obtain ⟨first', found', hfirst', hfound', hread', _⟩ := h'.shown f hf
  -- What stands first in the part is not disturbed either, so the same field is read for it.
  have hmem : first' ∈ part := List.mem_of_find?_eq_some hfirst'
  have hkey : first'.key = f.key := by simpa using List.find?_some hfirst'
  obtain ⟨found'', hread'', hfound''⟩ := h.read (hsub hmem) (hundisturbed first' hmem)
  rw [hkey, hfound] at hfound''
  have heq : found = found' :=
    (Option.some.inj hfound'').trans (halike.unique first' found'' found' hread'' hread')
  exact ⟨found, hread, hfound, heq ▸ hfound'⟩

end Shown

section Items

variable {k : ConnectionKeys} {nodeFields : NodeReader} {path : String}

theorem lastNamed_concat (name : String) (selection : List Selection) (f : Selection) :
    lastNamed name (selection ++ [f]) =
      if f.name = name then some f else lastNamed name selection := by
  unfold lastNamed
  rw [List.filter_append]
  by_cases hname : f.name = name
  · rw [if_pos hname, List.filter_cons_of_pos (by simpa using hname)]
    simp
  · rw [if_neg hname, List.filter_cons_of_neg (by simpa using hname)]
    simp

/-- The properties of an edge are those that the given selection reads. -/
def ReadsProperties (k : ConnectionKeys) :
    Option Selection → Option (String × List EdgeField) → Prop
  | none, properties => properties = none
  | some f, properties => ∃ found fields, k.properties = some found ∧
      f.selection.mapM (edgeField found) = .ok fields ∧ properties = some (f.key, fields)

/-- Of the selections of one name the last counts. -/
theorem edgeParts_last {selection : List Selection} {parts : EdgeParts}
    (h : selection.foldlM (k.edgePart nodeFields path) {} = .ok parts) :
    parts.node.map Prod.fst = (lastNamed "node" selection).map Selection.key ∧
      ReadsProperties k (lastNamed "properties" selection) parts.properties := by
  induction selection using List.reverseRecOn generalizing parts with
  | nil =>
    simp only [List.foldlM_nil, except_pure_ok] at h
    subst h
    exact ⟨rfl, rfl⟩
  | append_singleton selection f ih =>
    simp only [List.foldlM_append, List.foldlM_cons, List.foldlM_nil, except_bind_ok,
      except_pure_ok] at h
    obtain ⟨before, hbefore, _, hlast, rfl⟩ := h
    obtain ⟨hnode, hproperties⟩ := ih hbefore
    rw [lastNamed_concat, lastNamed_concat]
    unfold ConnectionKeys.edgePart at hlast
    simp only at hlast
    split at hlast
    · rename_i hname
      simp only [except_bind_ok, except_pure_ok] at hlast
      obtain ⟨fields, _, rfl⟩ := hlast
      simp only [hname, String.reduceEq, if_false, if_true]
      exact ⟨rfl, hproperties⟩
    · rename_i hname
      split at hlast
      · simp only [except_throw_ok] at hlast
      · rename_i found hfound
        simp only [except_bind_ok, except_pure_ok] at hlast
        obtain ⟨fields, hfields, rfl⟩ := hlast
        simp only [hname, String.reduceEq, if_false, if_true]
        exact ⟨hnode, found, fields, hfound, hfields, rfl⟩
    · rename_i hname
      simp only [except_pure_ok] at hlast
      subst hlast
      simp only [hname, String.reduceEq, if_false]
      exact ⟨hnode, hproperties⟩
    · simp only [except_throw_ok] at hlast
    · simp only [except_throw_ok] at hlast

/-- The properties that an entry of a connection reads. -/
def itemProperties : ConnectionItem Field → List EdgeField
  | .edges _ _ (some (_, fields)) _ => fields
  | _ => []

theorem edgeFieldsOf_eq (items : List (ConnectionItem Field)) :
    Setup.edgeFieldsOf items = firstOf EdgeField.key (items.flatMap itemProperties) := rfl

/-- An `edges` entry shows its last node and its last properties, each under its key. -/
def EdgesFor (f : Selection) (item : ConnectionItem Field) : Prop :=
  ∃ node properties typename, item = .edges f.key node properties typename ∧
    node.map Prod.fst = (lastNamed "node" f.selection).map Selection.key ∧
    properties.map Prod.fst = (lastNamed "properties" f.selection).map Selection.key

theorem item_ok {f : Selection} {item : ConnectionItem Field}
    (h : k.item nodeFields path f = .ok item) :
    (f.name = "edges" → EdgesFor f item) ∧
      List.Forall₂ (fun g found => ∃ properties, k.properties = some properties ∧
          edgeField properties g = .ok found)
        (if f.name = "edges" then propertiesOf f else []) (itemProperties item) := by
  unfold ConnectionKeys.item at h
  simp only at h
  split at h
  · rename_i hname
    simp only [except_pure_ok] at h
    subst h
    simp [hname, itemProperties]
  · rename_i hname
    simp only [except_pure_ok] at h
    subst h
    simp [hname, itemProperties]
  · rename_i hname
    simp only [except_bind_ok, except_pure_ok] at h
    obtain ⟨_, _, rfl⟩ := h
    simp [hname, itemProperties]
  · rename_i hname
    simp only [except_bind_ok, except_pure_ok] at h
    obtain ⟨parts, hparts, rfl⟩ := h
    obtain ⟨hnode, hproperties⟩ := edgeParts_last hparts
    rw [if_pos hname]
    unfold propertiesOf
    cases hlast : lastNamed "properties" f.selection with
    | none =>
      rw [hlast] at hproperties
      obtain ⟨node, properties, typename⟩ := parts
      simp only [ReadsProperties] at hproperties
      subst hproperties
      exact ⟨fun _ => ⟨_, _, _, rfl, hnode, by rw [hlast]; rfl⟩, .nil⟩
    | some last =>
      rw [hlast] at hproperties
      obtain ⟨node, properties, typename⟩ := parts
      obtain ⟨found, fields, hfound, hfields, heq⟩ := hproperties
      simp only at heq
      subst heq
      refine ⟨fun _ => ⟨_, _, _, rfl, hnode, by rw [hlast]; rfl⟩, ?_⟩
      exact (forall₂_of_mapM_ok hfields).imp fun g shown hg => ⟨found, hfound, hg⟩
  · rename_i hname
    split at h
    · simp only [except_throw_ok] at h
    · simp only [except_bind_ok, except_pure_ok] at h
      obtain ⟨_, _, rfl⟩ := h
      simp [hname, itemProperties]
  · simp only [except_throw_ok] at h

theorem edgeField_key {properties : PropertySet} {f : Selection} {found : EdgeField}
    (h : edgeField properties f = .ok found) : found.key = f.key := by
  unfold edgeField at h
  split at h
  · cases h
    rfl
  · split at h
    · cases h
      rfl
    · cases h

theorem items_edges {selection : List Selection} {items : List (ConnectionItem Field)}
    (h : k.items nodeFields selection path = .ok items) {edges : Selection}
    (hedges : edges ∈ selection) (hname : edges.name = "edges") :
    ∃ item ∈ items, EdgesFor edges item := by
  obtain ⟨item, hitem, hread⟩ := ok_of_mapM_ok h edges hedges
  exact ⟨item, hitem, (item_ok hread).1 hname⟩

end Items

namespace Setup

/-- The field is read for the selection under a node of the connection. -/
def ReadsNode (s : Setup) (depth : Nat) (path : String) (e : Entity) (f : Selection)
    (found : Field) : Prop :=
  s.field (s.fieldsAt (depth - 1)) e (childPath path "edges.node") f = .ok found

/-- The field is read for the selection under the properties of the relationship. -/
def ReadsProperty (s : Setup) (via : Option Via) (f : Selection) (found : EdgeField) : Prop :=
  ∃ properties, s.viaProperties via = some properties ∧ edgeField properties f = .ok found

end Setup

/-- The branch reads what the edges of the selection ask of its nodes and of the relationship. -/
structure AnswersEdges (s : Setup) (depth : Nat) (via : Option Via) (path : String)
    (selection : List Selection) (b : ConnectionBranch Field) : Prop where
  nodes : ShowsFirst Field.key (s.ReadsNode depth path b.read.scope.entity)
    (askedOf b.read.scope.entity.name selection) b.read.fields
  properties : ShowsFirst EdgeField.key (s.ReadsProperty via) (askedProperties selection)
    b.edgeFields
  relationship : b.read.scope.relationship = via.map Via.relationship

/-- What the entry asks is the first that is asked under its keys. -/
structure Undisturbed (selection : List Selection) (edges : Selection) (typeName : String) :
    Prop where
  nodes : ∀ f ∈ askedOf typeName [edges], ∀ first,
    (askedOf typeName selection).find? (·.key == f.key) = some first → f.Agrees first
  properties : ∀ f ∈ askedProperties [edges], ∀ first,
    (askedProperties selection).find? (·.key == f.key) = some first → f.Agrees first

/-- The two branches, of which the second is for the one entry, answer it with the same fields, and
these are read for what it asks. -/
structure AnswersAlike (s : Setup) (depth : Nat) (via : Option Via) (path : String)
    (edges : Selection) (b b' : ConnectionBranch Field) : Prop where
  entity : b'.read.scope.entity = b.read.scope.entity
  nodes : ShownByBoth Field.key (s.ReadsNode depth path b.read.scope.entity)
    (askedOf b.read.scope.entity.name [edges]) b.read.fields b'.read.fields
  properties : ShownByBoth EdgeField.key (s.ReadsProperty via) (askedProperties [edges])
    b.edgeFields b'.edgeFields

section Agreement

variable {s : Setup}

theorem field_agrees {below : FieldReader} {e : Entity} {path : String} {f g : Selection}
    (hkey : f.key = g.key) (h : f.Agrees g) : s.field below e path f = s.field below e path g := by
  obtain ⟨name, responseName, args, selection, on⟩ := f
  obtain ⟨name', responseName', args', selection', on'⟩ := g
  simp only [Selection.Agrees, Selection.mk.injEq, true_and] at h
  obtain ⟨rfl, rfl, rfl, rfl⟩ := h
  simp only [Setup.field, Setup.relationshipField, Asked.ofField, hkey]

theorem readsNode_alike (depth : Nat) (path : String) (e : Entity) :
    ReadsAlike Field.key (s.ReadsNode depth path e) where
  keyed _ _ hread := field_key hread
  agrees _ _ _ hkey hagrees hread := (field_agrees hkey hagrees).trans hread
  unique _ _ _ hread hread' := Except.ok.inj (hread.symm.trans hread')

theorem readsProperty_alike (via : Option Via) :
    ReadsAlike EdgeField.key (s.ReadsProperty via) where
  keyed _ _ hread := by
    obtain ⟨_, _, hread⟩ := hread
    exact edgeField_key hread
  agrees f g found hkey hagrees hread := by
    obtain ⟨properties, hproperties, hread⟩ := hread
    have hname : f.name = g.name := (Selection.mk.inj hagrees).1
    refine ⟨properties, hproperties, ?_⟩
    simpa only [edgeField, hkey, hname] using hread
  unique f found found' hread hread' := by
    obtain ⟨properties, hproperties, hread⟩ := hread
    obtain ⟨properties', hproperties', hread'⟩ := hread'
    have heq : properties = properties' := Option.some.inj (hproperties.symm.trans hproperties')
    subst heq
    exact Except.ok.inj (hread.symm.trans hread')

/-- The properties of the edges are read under each key for what is asked first. -/
theorem items_showsFirst {via : Option Via} {names : ConnectionNames} {nodeFields : NodeReader}
    {path : String} {selection : List Selection} {items : List (ConnectionItem Field)}
    (h : ConnectionKeys.items ⟨names, s.viaProperties via, none⟩ nodeFields selection path =
      .ok items) :
    ShowsFirst EdgeField.key (s.ReadsProperty via) (askedProperties selection)
      (Setup.edgeFieldsOf items) := by
  rw [edgeFieldsOf_eq]
  apply showsFirst_firstOf (readsProperty_alike via)
  exact List.rel_flatMap (forall₂_of_mapM_ok h) fun f item hitem => (item_ok hitem).2

end Agreement

section Branches

variable {s : Setup} {depth : Nat} {composite : Composite} {via : Option Via} {q : Asked}
  {path : String} {c : CompositeConnection Field}

theorem showsFirst_withTypename {e : Entity} {reads : Selection → Field → Prop}
    {asked : List Selection} {fields : List Field}
    (h : ShowsFirst Field.key reads asked fields) :
    ShowsFirst Field.key reads asked (withTypename e fields) where
  shown := by
    intro f hf
    obtain ⟨first, found, hfirst, hfound, hreads⟩ := h.shown f hf
    refine ⟨first, found, hfirst, ?_, hreads⟩
    unfold withTypename
    split
    · exact hfound
    · rw [List.find?_append, hfound]
      rfl
  keys := by
    rw [keys_withTypename]
    split
    · exact h.keys
    · rename_i hnew
      apply List.nodup_append.mpr
      refine ⟨h.keys, List.pairwise_singleton _ _, ?_⟩
      intro a ha b hb heq
      rw [List.mem_singleton] at hb
      exact hnew (hb ▸ heq ▸ ha)

/-- Only a composite is read as a connection over one. -/
theorem compositeConnection_of_lookup {below : FieldReader} {target : Target}
    (h : s.readOf below target via q path = .ok (.compositeConnection c) ∨
      s.connectionOf below target via q path = .ok (.compositeConnection c)) :
    ∃ composite, s.compositeConnection below composite via q path = .ok c := by
  cases target with
  | entity e =>
    rcases h with h | h
    · obtain ⟨_, _, heq⟩ := (except_map_ok ..).mp h
      cases heq
    · obtain ⟨_, _, heq⟩ := (except_map_ok ..).mp h
      cases heq
  | composite composite =>
    rcases h with h | h
    · obtain ⟨_, _, heq⟩ := (except_map_ok ..).mp h
      cases heq
    · obtain ⟨_, hread, heq⟩ := (except_map_ok ..).mp h
      cases heq
      exact ⟨composite, hread⟩

variable {selection : List Selection} {nodePath : String} {edge : Option Condition}
  {sort : List SortKey} {names : ConnectionNames} {items : List (ConnectionItem Field)}
  {kept : Kept} {b : ConnectionBranch Field}

theorem connectionBranch_answers
    (hheight : Selection.listHeight
      (Setup.mergedFor kept.1 (Setup.nodeSelections selection)) ≤ depth)
    (hitems : ConnectionKeys.items ⟨names, s.viaProperties via, none⟩ (fun _ _ => .ok []) selection
      path = .ok items)
    (h : s.connectionBranch (s.fieldsAt depth) via path nodePath selection edge sort
      (Setup.edgeFieldsOf items) kept = .ok b) :
    b.read.scope.entity = kept.1 ∧ AnswersEdges s depth via path selection b := by
  obtain ⟨fields, read, hfields, hbranch, rfl⟩ := Setup.connectionBranch_ok.mp h
  have hshown := Setup.branch_fields hbranch
  simp only [Setup.branch, except_bind_ok] at hbranch
  obtain ⟨_, _, hscope⟩ := hbranch
  obtain ⟨_, _, hentity, hrelationship⟩ := Setup.readScope_read hscope
  have hread := fieldsAt_fields hheight hfields
  refine ⟨hentity, ?_, items_showsFirst hitems, hrelationship⟩
  simp only [hentity, hshown]
  exact showsFirst_withTypename (showsFirst_of_firstOf (readsNode_alike depth path kept.1) hread)

theorem compositeConnection_answers (hdepth : q.height ≤ depth)
    (h : s.compositeConnection (s.fieldsAt depth) composite via q path = .ok c) :
    ∀ b ∈ c.branches, AnswersEdges s depth via path q.selection b := by
  obtain ⟨parts, items, branches, _, hitems, hbranches, rfl⟩ := Setup.compositeConnection_iff.mp h
  intro b hb
  obtain ⟨kept, _, hmade⟩ := mem_of_mapM_ok hbranches b hb
  exact (connectionBranch_answers (Nat.le_trans (height_merged q kept.1) hdepth) hitems hmade).2

/-- Rules over fewer attributes are read where those over all of them are. -/
theorem ruleConditions_mono {e : Entity} {attributes attributes' : List Attribute}
    {test : Rule → Bool} {cs : List Condition} (hsub : attributes' ⊆ attributes)
    (h : ruleConditions s e attributes test = .ok cs) :
    ∃ cs', ruleConditions s e attributes' test = .ok cs' := by
  have hread : ∀ d ∈ (declaredRules e attributes').filter fun d => test d.rule,
      ∃ asked, ruleCondition s e d = .ok asked := by
    intro d hd
    obtain ⟨hdeclared, htest⟩ := List.mem_filter.mp hd
    have hmem : d ∈ declaredRules e attributes := by
      rcases List.mem_append.mp hdeclared with hown | hof
      · exact List.mem_append_left _ hown
      · obtain ⟨a, ha, hd⟩ := List.mem_flatMap.mp hof
        exact List.mem_append_right _ (List.mem_flatMap.mpr ⟨a, hsub ha, hd⟩)
    obtain ⟨asked, hasked, _⟩ := ruleConditions_mem h hmem htest
    exact ⟨asked, hasked⟩
  obtain ⟨found, hfound⟩ := mapM_ok_of_forall hread
  exact ⟨found.filterMap id, by simp only [ruleConditions, hfound]; rfl⟩

theorem attributes_withTypename (e : Entity) (fields : List Field) :
    Field.attributes (withTypename e fields) = Field.attributes fields := by
  unfold withTypename
  split
  · rfl
  · simp [Field.attributes, Field.attr?]

/-- A branch that shows fewer attributes is read where the whole one is. -/
theorem branch_mono {e : Entity} {rest : Option Doc.Members} {fields fields' : List Field}
    {sort : List SortKey} {read : Read Field}
    (hsub : Field.attributes fields' ⊆ Field.attributes fields)
    (h : s.branch e via rest fields sort path = .ok read) :
    ∃ read', s.branch e via rest fields' sort path = .ok read' := by
  simp only [Setup.branch, Setup.readScope, guardedScope, guardFilter, guardValidations,
    attributes_withTypename, except_bind_ok, except_pure_ok] at h
  obtain ⟨own, hown, asked, hasked, _, ⟨_, ⟨_, hfilters, _⟩, validations, hvalidations, _⟩, _⟩ := h
  obtain ⟨filters', hfilters'⟩ := ruleConditions_mono hsub hfilters
  obtain ⟨validations', hvalidations'⟩ := ruleConditions_mono hsub hvalidations
  simp only [Setup.branch, Setup.readScope, guardedScope, guardFilter, guardValidations,
    attributes_withTypename, except_bind_ok, except_pure_ok]
  exact ⟨_, own, hown, asked, hasked, _, ⟨_, ⟨filters', hfilters', rfl⟩, validations',
    hvalidations', rfl⟩, rfl⟩

theorem askedOf_mono {selection : List Selection} {edges : Selection} (hedges : edges ∈ selection)
    (typeName : String) : askedOf typeName [edges] ⊆ askedOf typeName selection := by
  intro f hf
  obtain ⟨node, hnode, hasked⟩ := List.mem_flatMap.mp hf
  obtain ⟨entry, hentry, hshows⟩ := mem_nodeSelections.mp hnode
  rw [List.mem_singleton] at hentry
  subst hentry
  exact List.mem_flatMap.mpr ⟨node, mem_nodeSelections.mpr ⟨entry, hedges, hshows⟩, hasked⟩

theorem askedProperties_mono {selection : List Selection} {edges : Selection}
    (hedges : edges ∈ selection) : askedProperties [edges] ⊆ askedProperties selection := by
  intro f hf
  obtain ⟨entry, hentry, hasked⟩ := List.mem_flatMap.mp hf
  rw [List.mem_singleton] at hentry
  subst hentry
  exact List.mem_flatMap.mpr ⟨entry, hedges, hasked⟩

/-- An undisturbed entry is answered alike with the other entries and without them. -/
theorem AnswersEdges.alike {selection : List Selection} {edges : Selection}
    {b b' : ConnectionBranch Field} (h : AnswersEdges s depth via path selection b)
    (h' : AnswersEdges s depth via path [edges] b') (hedges : edges ∈ selection)
    (hundisturbed : Undisturbed selection edges b.read.scope.entity.name)
    (hentity : b'.read.scope.entity = b.read.scope.entity) :
    AnswersAlike s depth via path edges b b' where
  entity := hentity
  nodes :=
    h.nodes.both (hentity ▸ h'.nodes) (readsNode_alike ..) (askedOf_mono hedges _)
      hundisturbed.nodes
  properties :=
    h.properties.both h'.properties (readsProperty_alike via) (askedProperties_mono hedges)
      hundisturbed.properties

theorem fieldsAt_ok {e : Entity} {selection : List Selection}
    (h : ∀ f ∈ selection, ∃ found, s.field (s.fieldsAt (depth - 1)) e path f = .ok found) :
    ∃ fields, s.fieldsAt depth e selection path = .ok fields := by
  cases depth with
  | zero => exact ⟨[], rfl⟩
  | succ depth => exact mapM_ok_of_forall h

theorem mem_fieldsAt {e : Entity} {selection : List Selection} {fields : List Field}
    (h : s.fieldsAt depth e selection path = .ok fields) {found : Field} (hfound : found ∈ fields) :
    ∃ f ∈ selection, s.field (s.fieldsAt (depth - 1)) e path f = .ok found := by
  cases depth with
  | zero =>
    cases h
    exact absurd hfound List.not_mem_nil
  | succ depth => exact mem_of_mapM_ok h found hfound

/-- What an undisturbed entry asks of one type is read without the other entries. -/
theorem connectionBranch_alone {edges : Selection} {edgeFields edgeFields' : List EdgeField}
    (hedges : edges ∈ selection) (hundisturbed : Undisturbed selection edges kept.1.name)
    (hanswers : AnswersEdges s depth via path selection b) (hentity : b.read.scope.entity = kept.1)
    (h : s.connectionBranch (s.fieldsAt depth) via path nodePath selection edge sort edgeFields
      kept = .ok b) :
    ∃ b', s.connectionBranch (s.fieldsAt depth) via path nodePath [edges] edge sort edgeFields'
      kept = .ok b' := by
  have hread : ∀ f ∈ firstOf Selection.key (askedOf kept.1.name [edges]), ∃ found,
      s.ReadsNode depth path kept.1 f found ∧ found ∈ b.read.fields := by
    intro f hf
    have hmem : f ∈ askedOf kept.1.name [edges] := firstOf_subset Selection.key _ hf
    have hshown := hanswers.nodes
    rw [hentity] at hshown
    obtain ⟨found, hread, hfound⟩ :=
      hshown.read (askedOf_mono hedges kept.1.name hmem) (hundisturbed.nodes f hmem)
    exact ⟨found, hread, List.mem_of_find?_eq_some hfound⟩
  obtain ⟨fields', hfields'⟩ := fieldsAt_ok fun f hf => (hread f hf).imp fun _ h => h.1
  obtain ⟨fields, read, _, hbranch, rfl⟩ := Setup.connectionBranch_ok.mp h
  have hsub : Field.attributes fields' ⊆ Field.attributes fields := by
    intro a ha
    obtain ⟨found', hfound', hattr⟩ := List.mem_filterMap.mp ha
    obtain ⟨f, hf, hread'⟩ := mem_fieldsAt hfields' hfound'
    obtain ⟨found, hread, hmem⟩ := hread f hf
    have heq : found = found' :=
      (readsNode_alike depth path kept.1).unique f found found' hread hread'
    subst heq
    rw [← attributes_withTypename kept.1, ← Setup.branch_fields hbranch]
    exact List.mem_filterMap.mpr ⟨found, hmem, hattr⟩
  obtain ⟨read', hread'⟩ := branch_mono hsub hbranch
  exact ⟨_, Setup.connectionBranch_ok.mpr ⟨fields', read', hfields', hread', rfl⟩⟩

/-- An undisturbed entry is answered alike in a connection that has no other. -/
theorem compositeConnection_alone (hdepth : q.height ≤ depth)
    (h : s.compositeConnection (s.fieldsAt depth) composite via q path = .ok c) {edges : Selection}
    (hedges : edges ∈ q.selection)
    (hundisturbed : ∀ b ∈ c.branches, Undisturbed q.selection edges b.read.scope.entity.name) :
    ∃ c', s.compositeConnection (s.fieldsAt depth) composite via { q with selection := [edges] }
        path = .ok c' ∧
      List.Forall₂ (AnswersAlike s depth via path edges) c.branches c'.branches := by
  obtain ⟨parts, items, branches, hparts, hitems, hbranches, rfl⟩ :=
    Setup.compositeConnection_iff.mp h
  obtain ⟨item, _, hitem⟩ := ok_of_mapM_ok hitems edges hedges
  have hitems' : ConnectionKeys.items
      ⟨connectionNames composite.name via, s.viaProperties via, none⟩ (fun _ _ => .ok []) [edges]
      path = .ok [item] := by
    simp only [ConnectionKeys.items, List.mapM_cons, List.mapM_nil, hitem]
    rfl
  have hlow : Asked.height { q with selection := [edges] } ≤ depth := by
    have hown : edges.height ≤ Selection.listHeight q.selection :=
      Selection.listHeight_le_iff.mp (Nat.le_refl _) edges hedges
    simp only [Asked.height, heightOf, Selection.listHeight] at hdepth ⊢
    omega
  have hstep : ∀ kept, ∀ b ∈ branches,
      s.connectionBranch (s.fieldsAt depth) via path parts.nodePath q.selection parts.edge
        parts.sort (Setup.edgeFieldsOf items) kept = .ok b →
      ∃ b', s.connectionBranch (s.fieldsAt depth) via path parts.nodePath [edges] parts.edge
          parts.sort (Setup.edgeFieldsOf [item]) kept = .ok b' ∧
        AnswersAlike s depth via path edges b b' := by
    intro kept b hb hmade
    obtain ⟨hentity, hanswers⟩ :=
      connectionBranch_answers (Nat.le_trans (height_merged q kept.1) hdepth) hitems hmade
    have hown : Undisturbed q.selection edges kept.1.name := hentity ▸ hundisturbed b hb
    obtain ⟨b', hmade'⟩ := connectionBranch_alone hedges hown hanswers hentity hmade
    obtain ⟨hentity', hanswers'⟩ := connectionBranch_answers
      (Nat.le_trans (height_merged { q with selection := [edges] } kept.1) hlow) hitems' hmade'
    exact ⟨b', hmade', hanswers.alike hanswers' hedges (hundisturbed b hb)
      (hentity'.trans hentity.symm)⟩
  obtain ⟨branches', hbranches', halike⟩ := mapM_follows hbranches hstep
  refine ⟨⟨composite, via.map Via.relationship, branches', parts.sort, parts.page, [item]⟩, ?_,
    halike⟩
  apply Setup.compositeConnection_iff.mpr
  exact ⟨parts, [item], branches', hparts, hitems', hbranches', rfl⟩

end Branches

end GraphSelection.Resolve
