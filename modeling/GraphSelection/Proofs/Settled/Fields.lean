import GraphSelection.Proofs.Settled.Conditions
import GraphSelection.Resolve.Fields

/-!
Why reading a selection fails, and what a selection never asks for. Edges are counted, reduced and
shown only where a relationship leads to the nodes, and a connection over a composite has no
aggregates; both are faults of the request that are found while it is read.
-/
namespace GraphSelection.Resolve

open GraphSelection Plan

section Arrangements

theorem blameless_asCount (doc : Doc) (path : String) : Blameless (asCount doc path) := by
  unfold asCount
  split
  · trivial
  · rfl

theorem blameless_sortKeys (find : String → Option Attribute) (make : Attribute → SortTarget)
    (members : Doc.Members) (path : String) : Blameless (sortKeys find make members path) := by
  refine Blameless.mapM fun entry _ => ?_
  have hdirection : ∀ value here, Blameless (descending value here) := by
    intro value here
    unfold descending
    split
    · trivial
    · trivial
    · rfl
  dsimp only
  split
  · rfl
  · exact (hdirection ..).bind fun _ _ => trivial

theorem blameless_pick (args : Doc.Members) (options : Option Doc.Members) (name path : String) :
    Blameless (pick args options name path) := by
  dsimp only [pick]
  split
  · rfl
  · trivial
  · trivial
  · trivial

theorem blameless_pickCount (args : Doc.Members) (options : Option Doc.Members)
    (name path : String) : Blameless (pickCount args options name path) := by
  refine (blameless_pick ..).bind fun found _ => ?_
  split
  · trivial
  · exact (blameless_asCount ..).map some

theorem blameless_listArrangement (s : Setup) (attributes : Entries Attribute)
    (args : Doc.Members) (policy : Option PagePolicy) (isList : Bool) (path : String) :
    Blameless (listArrangement s attributes args policy isList path) := by
  refine (blameless_recordArg ..).bind fun options _ => ?_
  refine Blameless.bind ?_ fun sort _ => ?_
  · refine (blameless_pick ..).bind fun found _ => ?_
    split
    · trivial
    · refine Blameless.bind (Blameless.mapM fun item _ => ?_) fun keys _ => trivial
      exact (blameless_asRecord ..).bind fun members _ => blameless_sortKeys ..
  · refine (blameless_pickCount ..).bind fun offset _ => ?_
    exact (blameless_pickCount ..).bind fun requested _ => trivial

theorem blameless_connectionSort (node : Entries Attribute) (edge : Option (Entries Attribute))
    (members : Doc.Members) (path : String) :
    Blameless (connectionSort node edge members path) := by
  unfold connectionSort
  split
  · refine Blameless.bind (Blameless.mapM fun entry _ => ?_) fun keys _ => trivial
    refine (blameless_asRecord ..).bind fun inner _ => ?_
    split
    · exact blameless_sortKeys ..
    · split
      · rfl
      · exact blameless_sortKeys ..
  · exact blameless_sortKeys ..

theorem blameless_connectionArrangement (s : Setup) (node : Entries Attribute)
    (edge : Option (Entries Attribute)) (args : Doc.Members) (policy : Option PagePolicy)
    (path : String) : Blameless (connectionArrangement s node edge args policy path) := by
  have hafter : ∀ value here, Blameless (afterCursor value here) := by
    intro value here
    unfold afterCursor
    split
    · split
      · trivial
      · rfl
    · rfl
  refine (blameless_listArg ..).bind fun items _ => ?_
  refine Blameless.bind (Blameless.mapM fun item _ => ?_) fun keys _ => ?_
  · exact (blameless_asRecord ..).bind fun members _ => blameless_connectionSort ..
  refine Blameless.bind ?_ fun requested _ => Blameless.bind ?_ fun skip _ => ?_
  · split
    · trivial
    · exact (blameless_asCount ..).map some
  · split
    · trivial
    · exact (hafter ..).map some
  · trivial

end Arrangements

section Aggregates

/-- Where no edges are, no reduction of an edge is made. -/
def MakesGrounded (edges : Bool) (make : Attribute → Reduction → Measure) : Prop :=
  edges = false → ∀ a f, (make a f).needsEdge = false

def GroundedItem (edges : Bool) (item : AggregateItem) : Prop :=
  edges = false → item.needsEdge = false

theorem groundedItem_group {edges : Bool} {items : List AggregateItem} (key : String)
    (h : ∀ item ∈ items, GroundedItem edges item) : GroundedItem edges (.group key items) := by
  intro hedges
  exact AggregateItem.anyNeedsEdge_eq_false.mpr fun item hitem => h item hitem hedges

variable {edges : Bool} {make : Attribute → Reduction → Measure}

theorem settles_reductionItem (hmake : MakesGrounded edges make) (a : Attribute) (path : String)
    (f : Selection) : Settles (GroundedItem edges) (reductionItem a make path f) := by
  have hcheck : ∀ reduction : Reduction, Blameless (reduction.check a path) := by
    intro reduction
    unfold Reduction.check
    split
    · trivial
    · rfl
  unfold reductionItem
  split
  · exact fun _ => rfl
  · split
    · rfl
    · exact (hcheck _).bind fun _ _ => fun hedges => hmake hedges ..

theorem settles_attributeGroup (hmake : MakesGrounded edges make) (key : String) (a : Attribute)
    (selection : List Selection) (path : String) :
    Settles (GroundedItem edges) (attributeGroup key a selection make path) := by
  unfold attributeGroup
  split
  · rfl
  · refine (Settles.mapM fun f _ => settles_reductionItem hmake a path f).bind ?_
    exact fun items _ hitems => groundedItem_group key hitems

theorem settles_attributeGroups (hmake : MakesGrounded edges make) (owner : String)
    (find : String → Option Attribute) (selection : List Selection) (typeName path : String) :
    Settles (fun items => ∀ item ∈ items, GroundedItem edges item)
      (attributeGroups owner find make selection typeName path) := by
  refine Settles.mapM fun f _ => ?_
  split
  · exact fun _ => rfl
  · split
    · rfl
    · exact settles_attributeGroup hmake ..

theorem settles_countItem (f : Selection) :
    Settles (GroundedItem edges) (countItem edges f) := by
  unfold countItem
  split
  · exact fun _ => rfl
  · split
    · rename_i hedge
      intro hedges
      rw [hedges, Bool.and_false] at hedge
      cases hedge
    · split
      · exact fun _ => rfl
      · rfl

theorem settles_aggregateItem (k : AggregateKeys) (path : String) (f : Selection) :
    Settles (GroundedItem k.isTraversed) (k.item path f) := by
  have hnode : MakesGrounded k.isTraversed Measure.node := fun _ _ _ => rfl
  dsimp only [AggregateKeys.item]
  split
  · exact fun _ => rfl
  split
  · split
    · exact fun _ => rfl
    · refine (Settles.mapM fun f _ => settles_countItem f).bind ?_
      exact fun counts _ hcounts => groundedItem_group _ hcounts
  split
  · refine (settles_attributeGroups hnode ..).bind ?_
    exact fun items _ hitems => groundedItem_group _ hitems
  split
  · rename_i hedge
    have htraversed : k.isTraversed = true := (Bool.and_eq_true_iff.mp hedge).2
    have hmake : MakesGrounded k.isTraversed Measure.edge := by
      intro hedges
      rw [htraversed] at hedges
      cases hedges
    split
    · rfl
    · refine (settles_attributeGroups hmake ..).bind ?_
      exact fun items _ hitems => groundedItem_group _ hitems
  split
  · split
    · rfl
    · exact settles_attributeGroup hnode ..
  · rfl

theorem settles_aggregateItems (k : AggregateKeys) (selection : List Selection) (path : String) :
    Settles (fun items => k.isTraversed = false → AggregateItem.anyNeedsEdge items = false)
      (k.items selection path) := by
  refine (Settles.mapM fun f _ => settles_aggregateItem k path f).mono ?_
  intro items _ hitems hedges
  exact AggregateItem.anyNeedsEdge_eq_false.mpr fun item hitem => hitems item hitem hedges

variable {s : Setup} (hclosed : s.schema.Closed)

include hclosed in
theorem settles_guardedAggregate {e : Entity} (he : e ∈ s.schema.entities.values)
    (relationship : Option Relationship) (args : Doc.Members) {items : List AggregateItem}
    (hitems : relationship = none → AggregateItem.anyNeedsEdge items = false) (path : String) :
    Settles (fun a => a.scope.relationship = relationship ∧ (Part.aggregate a).Grounded)
      (guardedAggregate s e relationship args items path) := by
  have hnode : (Keys.node e).Known s.schema := he
  refine (blameless_recordArg ..).bind fun members _ => ?_
  refine (blameless_requested hclosed hnode ..).bind fun asked _ => ?_
  refine (settles_guardedScope hclosed he ..).bind fun scope _ hscope => ?_
  exact ⟨hscope, fun hnone => hitems (hscope.symm.trans hnone)⟩

theorem settles_rootAggregate (hclosed : s.schema.Closed) {e : Entity}
    (he : e ∈ s.schema.entities.values) (args : Doc.Members) (selection : List Selection)
    (path : String) :
    Settles (fun a => a.scope.relationship = none ∧ (Part.aggregate a).Grounded)
      (rootAggregate s e args selection path) := by
  refine (settles_aggregateItems ..).bind fun items _ hitems => ?_
  exact settles_guardedAggregate hclosed he none args (fun _ => hitems rfl) path

include hclosed in
theorem settles_relatedAggregate {via : Via} (hleads : Leads s.schema via.relationship)
    (args : Doc.Members) (selection : List Selection) (path : String) :
    Settles (fun a => (Part.aggregate a).Grounded)
      (relatedAggregate s via args selection path) := by
  refine (blameless_ofSchema hleads).bind fun target htarget => ?_
  cases target with
  | composite c => rfl
  | entity e =>
    have he : e ∈ s.schema.entities.values := target_known (ofSchema_ok htarget)
    refine (settles_aggregateItems ..).bind fun items _ _ => ?_
    refine (settles_guardedAggregate hclosed he (some via.relationship) args ?_ path).mono ?_
    · intro hnone
      cases hnone
    · exact fun _ _ h => h.2

end Aggregates

section Connections

/-- What an edge shows of its node is grounded; where no edges are, it shows no properties. -/
structure EdgeParts.Grounded (edges : Bool) (parts : EdgeParts) : Prop where
  properties : edges = false → parts.properties = none
  node : ∀ nodeKey fields, parts.node = some (nodeKey, fields) → GroundedFields fields

variable {edges aggregates : Bool} {k : ConnectionKeys} {nodeFields : NodeReader}

theorem settles_edgePart (hproperties : edges = false → k.properties = none)
    (hnode : ∀ f here, Settles GroundedFields (nodeFields f here)) (path : String)
    {parts : EdgeParts} (hparts : parts.Grounded edges) (f : Selection) :
    Settles (EdgeParts.Grounded edges) (k.edgePart nodeFields path parts f) := by
  dsimp only [ConnectionKeys.edgePart]
  split
  · refine (hnode ..).bind fun fields _ hfields => ⟨hparts.properties, ?_⟩
    intro nodeKey fields' h
    cases h
    exact hfields
  · split
    · rfl
    · rename_i properties hfound
      refine Blameless.bind (Blameless.mapM fun field _ => ?_) fun fields _ => ⟨?_, hparts.node⟩
      · unfold edgeField
        split
        · trivial
        · split
          · trivial
          · rfl
      · intro hedges
        rw [hproperties hedges] at hfound
        cases hfound
  · exact ⟨hparts.properties, hparts.node⟩
  · rfl
  · rfl

theorem settles_item (hproperties : edges = false → k.properties = none)
    (haggregate : ∀ keys, k.aggregate = some keys → keys.isTraversed = edges ∧ aggregates = true)
    (hnode : ∀ f here, Settles GroundedFields (nodeFields f here)) (path : String)
    (f : Selection) :
    Settles (ConnectionItem.Grounded edges aggregates) (k.item nodeFields path f) := by
  have hplain : ∀ item : ConnectionItem Field, item.needsEdge = false → item.isAggregate = false →
      (∀ key node properties typename, item ≠ .edges key node properties typename) →
      item.Grounded edges aggregates := by
    intro item hedge haggregate hother
    exact ⟨fun _ => hedge, fun _ => haggregate, fun _ _ _ _ _ h => absurd h (hother _ _ _ _)⟩
  dsimp only [ConnectionKeys.item]
  split
  · exact hplain _ rfl rfl nofun
  · exact hplain _ rfl rfl nofun
  · refine Blameless.bind (Blameless.mapM fun field _ => ?_) fun fields _ => ?_
    · unfold pageInfoField
      split
      · trivial
      · trivial
      · trivial
      · rfl
      · rfl
      · rfl
    · exact hplain _ rfl rfl nofun
  · have hstart : EdgeParts.Grounded edges {} := ⟨fun _ => rfl, nofun⟩
    refine (Settles.foldlM hstart fun parts f _ hparts => ?_).bind fun parts _ hparts => ?_
    · exact settles_edgePart hproperties hnode _ hparts f
    · refine ⟨fun hedges => ?_, fun _ => rfl, ?_⟩
      · change parts.properties.isSome = false
        rw [hparts.properties hedges]
        rfl
      · intro key nodeKey fields properties typename h
        injection h with _ hfound
        exact hparts.node nodeKey fields hfound
  · split
    · rfl
    · rename_i keys hkeys
      obtain ⟨htraversed, hallowed⟩ := haggregate keys hkeys
      refine (settles_aggregateItems ..).bind fun items _ hitems => ⟨?_, ?_, nofun⟩
      · exact fun hedges => hitems (htraversed.trans hedges)
      · intro hnot
        rw [hallowed] at hnot
        cases hnot
  · rfl

theorem blameless_connectionWhere (args : Doc.Members) (isTraversed : Bool) (path : String) :
    Blameless (connectionWhere args isTraversed path) := by
  refine (blameless_recordArg ..).bind fun found _ => ?_
  split
  · trivial
  · split
    · refine Settles.foldlM trivial fun parts entry _ _ => ?_
      dsimp only [wherePart]
      split
      · rfl
      split
      · trivial
      · refine (blameless_asRecord ..).bind fun members _ => ?_
        split
        · trivial
        · trivial
    · trivial

variable {s : Setup} (hclosed : s.schema.Closed)

include hclosed in
theorem blameless_edgeCondition (via : Option Via) (properties : Option PropertySet)
    (edge : Option Placed) : Blameless (edgeCondition s via properties edge) := by
  unfold edgeCondition
  split
  · trivial
  · split
    · rfl
    · rename_i properties
      have hedge : (Keys.edge properties).Known s.schema := trivial
      exact blameless_requested hclosed hedge ..

end Connections

/-- A reader of selections that only the selections make fail. -/
def Setup.Settled (s : Setup) (below : FieldReader) : Prop :=
  ∀ e selection path, e ∈ s.schema.entities.values →
    Settles GroundedFields (below e selection path)

namespace Setup

section Lookups

variable {s : Setup} {below : FieldReader} {e : Entity} {via : Option Via} {q : Asked}
variable (hclosed : s.schema.Closed) (hbelow : s.Settled below)

def GroundedLookup (via : Option Via) (l : Lookup Field) : Prop :=
  l.relationship? = via.map Via.relationship ∧ ∀ part ∈ Field.lookupParts l, part.Grounded

include hclosed in
theorem settles_readScope (he : e ∈ s.schema.entities.values) (members : Option Doc.Members)
    (fields : List Field) (arrangement : Arrangement) (path : String) :
    Settles (fun r => r.scope.relationship = via.map Via.relationship ∧ r.fields = fields)
      (s.readScope e via members fields arrangement path) := by
  have hnode : (Keys.node e).Known s.schema := he
  refine (blameless_requested hclosed hnode ..).bind fun asked _ => ?_
  exact (settles_guardedScope hclosed he ..).bind fun scope _ hscope => ⟨hscope, rfl⟩

include hclosed hbelow in
theorem settles_entityRead (he : e ∈ s.schema.entities.values) (path : String) :
    Settles (fun r => GroundedLookup via (.read r)) (s.entityRead below e via q path) := by
  refine (hbelow e _ path he).bind fun fields _ hfields => ?_
  refine (blameless_listArrangement ..).bind fun arrangement _ => ?_
  refine (blameless_recordArg ..).bind fun members _ => ?_
  refine (settles_readScope hclosed he ..).mono fun r _ ⟨hrelationship, hread⟩ => ?_
  refine ⟨hrelationship, fun part hpart => ?_⟩
  rcases List.mem_cons.mp hpart with rfl | hpart
  · trivial
  · subst hread
    exact hfields part hpart

theorem withTypename_grounded {fields : List Field} (h : GroundedFields fields) :
    GroundedFields (withTypename e fields) := by
  unfold withTypename
  split
  · exact h
  · intro part hpart
    obtain ⟨f, hf, hmem⟩ := Field.mem_partsOf.mp hpart
    rcases List.mem_append.mp hf with hf | hf
    · exact h part (Field.mem_partsOf.mpr ⟨f, hf, hmem⟩)
    · rw [List.mem_singleton] at hf
      subst hf
      rw [Field.parts, List.mem_singleton] at hmem
      subst hmem
      trivial

include hclosed in
theorem settles_branch (he : e ∈ s.schema.entities.values) (rest : Option Doc.Members)
    {fields : List Field} (hfields : GroundedFields fields) (sort : List SortKey)
    (path : String) :
    Settles (fun r => GroundedFields r.fields) (s.branch e via rest fields sort path) := by
  have hmember : ∀ key : SortKey, Blameless (key.forMember e) := by
    intro key
    unfold SortKey.forMember
    split
    · trivial
    · split
      · trivial
      · rfl
  refine Blameless.bind (Blameless.mapM fun key _ => hmember key) fun sort _ => ?_
  refine (settles_readScope hclosed he ..).mono fun r _ ⟨_, hread⟩ => ?_
  rw [hread]
  exact withTypename_grounded hfields

include hclosed hbelow in
theorem settles_compositeRead {c : Composite} (hc : ∃ es, s.schema.constituents c = .ok es)
    (path : String) :
    Settles (fun r => GroundedLookup via (.composite r)) (s.compositeRead below c via q path) := by
  refine (blameless_recordArg ..).bind fun members _ => ?_
  refine (blameless_narrow hc ..).bind fun kept hkept => ?_
  refine (blameless_listArrangement ..).bind fun arrangement _ => ?_
  refine (Settles.mapM (q := fun r => GroundedFields r.fields) fun k hk => ?_).bind
    fun branches _ hbranches => ⟨rfl, fun part hpart => ?_⟩
  · have he : k.1 ∈ s.schema.entities.values := narrow_known hkept k hk
    refine (hbelow k.1 _ path he).bind fun fields _ hfields => ?_
    exact settles_branch hclosed he _ hfields ..
  · rcases List.mem_cons.mp hpart with rfl | hpart
    · trivial
    · obtain ⟨b, hb, hmem⟩ := Field.mem_branchParts.mp hpart
      exact hbranches b hb part hmem

include hclosed hbelow in
theorem settles_entityConnection (he : e ∈ s.schema.entities.values) (path : String) :
    Settles (fun c => GroundedLookup via (.connection c))
      (s.entityConnection below e via q path) := by
  have hnode : (Keys.node e).Known s.schema := he
  have hproperties : via.isSome = false → s.viaProperties via = none := by
    intro hnone
    rw [Option.isSome_eq_false_iff, Option.isNone_iff_eq_none] at hnone
    rw [hnone]
    rfl
  refine (Settles.mapM (q := ConnectionItem.Grounded via.isSome true) fun f _ => ?_).bind
    fun items _ hitems => ?_
  · refine settles_item hproperties ?_ (fun f here => hbelow e _ here he) path f
    rintro keys hkeys
    cases hkeys
    exact ⟨rfl, rfl⟩
  refine (blameless_connectionWhere ..).bind fun parts _ => ?_
  refine Blameless.bind ?_ fun node _ => ?_
  · split
    · trivial
    · exact blameless_requested hclosed hnode ..
  refine (blameless_edgeCondition hclosed ..).bind fun edge _ => ?_
  refine (settles_guardedScope hclosed he ..).bind fun scope _ hscope => ?_
  refine (blameless_connectionArrangement ..).bind fun arrangement _ => ?_
  refine ⟨hscope, fun part hpart => ?_⟩
  rcases List.mem_cons.mp hpart with rfl | hpart
  · intro hnone item hitem
    have hroot : via = none := Option.map_eq_none_iff.mp (hscope.symm.trans hnone)
    exact (hitems item hitem).edge (by rw [hroot]; rfl)
  · exact groundedItems hitems part hpart

include hclosed hbelow in
theorem settles_compositeConnection {c : Composite}
    (hc : ∃ es, s.schema.constituents c = .ok es) (path : String) :
    Settles (fun r => GroundedLookup via (.compositeConnection r))
      (s.compositeConnection below c via q path) := by
  refine (Settles.mapM (q := ConnectionItem.Grounded true false) fun f _ => ?_).bind
    fun items _ hitems => ?_
  · refine settles_item (fun h => ?_) (fun keys hkeys => ?_) (fun f here => ?_) path f
    · cases h
    · cases hkeys
    · exact fun part hpart => absurd hpart List.not_mem_nil
  refine (blameless_connectionWhere ..).bind fun parts _ => ?_
  refine (blameless_narrow hc ..).bind fun kept hkept => ?_
  refine (blameless_edgeCondition hclosed ..).bind fun edge _ => ?_
  refine (blameless_connectionArrangement ..).bind fun arrangement _ => ?_
  refine (Settles.mapM (q := fun b => GroundedFields b.read.fields) fun k hk => ?_).bind
    fun branches _ hbranches => ⟨rfl, fun part hpart => ?_⟩
  · have he : k.1 ∈ s.schema.entities.values := narrow_known hkept k hk
    refine (hbelow k.1 _ _ he).bind fun fields _ hfields => ?_
    exact (settles_branch hclosed he _ hfields ..).bind fun read _ hread => hread
  · rcases List.mem_cons.mp hpart with rfl | hpart
    · exact fun item hitem => (hitems item hitem).aggregate rfl
    · obtain ⟨b, hb, hmem⟩ := Field.mem_connectionBranchParts.mp hpart
      exact hbranches b hb part hmem

include hclosed hbelow in
theorem settles_readOf {target : Target} {name : String} (ht : s.schema.target name = .ok target)
    (path : String) : Settles (GroundedLookup via) (s.readOf below target via q path) := by
  cases target with
  | entity e =>
    exact (settles_entityRead hclosed hbelow (target_known ht) path).map fun _ h => h
  | composite c =>
    have hc := hclosed.constituents c (composite_known ht)
    exact (settles_compositeRead hclosed hbelow hc path).map fun _ h => h

include hclosed hbelow in
theorem settles_connectionOf {target : Target} {name : String}
    (ht : s.schema.target name = .ok target) (path : String) :
    Settles (GroundedLookup via) (s.connectionOf below target via q path) := by
  cases target with
  | entity e =>
    exact (settles_entityConnection hclosed hbelow (target_known ht) path).map fun _ h => h
  | composite c =>
    have hc := hclosed.constituents c (composite_known ht)
    exact (settles_compositeConnection hclosed hbelow hc path).map fun _ h => h

theorem grounded_lookupField {l : Lookup Field} (key : String) (h : GroundedLookup via l) :
    ∀ part ∈ (Field.lookup key l).parts, part.Grounded := by
  intro part hpart
  rcases List.mem_cons.mp hpart with rfl | hpart
  · trivial
  · exact h.2 part hpart

include hclosed hbelow in
theorem settles_relationshipField (he : e ∈ s.schema.entities.values) (path : String)
    (f : Selection) :
    Settles (fun field => ∀ part ∈ field.parts, part.Grounded)
      (s.relationshipField below e path f) := by
  dsimp only [relationshipField]
  split
  · rename_i hfound
    refine (blameless_ofSchema (leads_of_known hclosed he hfound)).bind fun target htarget => ?_
    refine (settles_readOf hclosed hbelow (ofSchema_ok htarget) _).bind fun found _ hground => ?_
    exact grounded_lookupField f.key hground
  split
  · rename_i hfound
    refine (blameless_ofSchema (leads_of_bind hclosed he hfound)).bind fun target htarget => ?_
    refine (settles_connectionOf hclosed hbelow (ofSchema_ok htarget) _).bind
      fun found _ hground => ?_
    exact grounded_lookupField f.key hground
  split
  · rename_i relationship hfound
    have hleads : Leads s.schema (Via.mk e.name relationship).relationship :=
      leads_of_bind hclosed he hfound
    refine (settles_relatedAggregate hclosed hleads ..).bind fun found _ hground => ?_
    intro part hpart
    simp only [Field.parts, List.mem_cons, List.not_mem_nil, or_false] at hpart
    rcases hpart with rfl | rfl
    · trivial
    · exact hground
  · rfl

end Lookups

/-- At every depth only the selection itself makes reading fail, and all parts are grounded. -/
theorem settled_fieldsAt {s : Setup} (hclosed : s.schema.Closed) (depth : Nat) :
    s.Settled (s.fieldsAt depth) := by
  induction depth with
  | zero => exact fun _ _ _ _ part hpart => absurd hpart List.not_mem_nil
  | succ depth ih =>
    intro e selection path he
    refine (Settles.mapM (q := fun field => ∀ part ∈ field.parts, part.Grounded)
      fun f _ => ?_).mono fun fields _ h => groundedFields_of_forall h
    unfold field
    split
    · intro part hpart
      rw [Field.parts, List.mem_singleton] at hpart
      exact hpart ▸ trivial
    split
    · intro part hpart
      split at hpart
      all_goals
        rw [Field.parts, List.mem_singleton] at hpart
        exact hpart ▸ trivial
    · exact settles_relationshipField hclosed ih he path f

end Setup

end GraphSelection.Resolve
