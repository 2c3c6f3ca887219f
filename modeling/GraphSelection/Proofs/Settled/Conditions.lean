import GraphSelection.Proofs.Closed
import GraphSelection.Proofs.Resolved.Conditions
import GraphSelection.Resolve.Guard

/-!
Why reading a condition fails. Against a closed schema every name of the schema itself is found, so
what fails is an object of the request or of a rule that is not as it should be. Steps that fail
for such reasons only are closed under sequence; one level of an object is such a step when the
level below is, and so all of it is.
-/
namespace GraphSelection

/-- Failures that no request is to blame for. -/
def Failure.isInternal : Failure → Bool
  | .unknownEntity _ => true
  | .columns _ _ _ => true
  | .missingBinding _ => true
  | .schema _ => true
  | _ => false

end GraphSelection

namespace GraphSelection.Resolve

open GraphSelection Plan

section Steps

variable {α β : Type} {p : α → Prop} {q : β → Prop}

/-- A step that gives what is asked for, or fails for a reason that lies in the request. -/
def Settles (p : α → Prop) : Result α → Prop
  | .ok a => p a
  | .error f => f.isInternal = false

/-- A step of which nothing is asked but the reason why it fails. -/
abbrev Blameless (x : Result α) : Prop := Settles (fun _ => True) x

theorem Settles.mono {x : Result α} {p' : α → Prop} (h : Settles p x)
    (himp : ∀ a, x = .ok a → p a → p' a) : Settles p' x := by
  cases x with
  | ok a => exact himp a rfl h
  | error f => exact h

theorem Settles.bind {x : Result α} {f : α → Result β} (hx : Settles p x)
    (hf : ∀ a, x = .ok a → p a → Settles q (f a)) : Settles q (x >>= f) := by
  cases x with
  | ok a => exact hf a rfl hx
  | error failure => exact hx

theorem Blameless.bind {x : Result α} {f : α → Result β} (hx : Blameless x)
    (hf : ∀ a, x = .ok a → Settles q (f a)) : Settles q (x >>= f) :=
  Settles.bind hx fun a ha _ => hf a ha

theorem Settles.map {x : Result α} {f : α → β} (hx : Settles p x)
    (hf : ∀ a, p a → q (f a)) : Settles q (x.map f) := by
  cases x with
  | ok a => exact hf a hx
  | error failure => exact hx

theorem Blameless.map {x : Result α} (f : α → β) (hx : Blameless x) : Blameless (x.map f) :=
  Settles.map hx fun _ _ => trivial

theorem Settles.mapM {f : α → Result β} {xs : List α} (h : ∀ x ∈ xs, Settles q (f x)) :
    Settles (fun ys => ∀ y ∈ ys, q y) (xs.mapM f) := by
  induction xs with
  | nil =>
    rw [List.mapM_nil]
    exact fun y hy => absurd hy List.not_mem_nil
  | cons x rest ih =>
    rw [List.mapM_cons]
    refine (h x List.mem_cons_self).bind fun y _ hy => ?_
    refine (ih fun x hx => h x (List.mem_cons_of_mem _ hx)).bind fun ys _ hys => ?_
    intro z hz
    rcases List.mem_cons.mp hz with rfl | hz
    · exact hy
    · exact hys z hz

theorem Blameless.mapM {f : α → Result β} {xs : List α} (h : ∀ x ∈ xs, Blameless (f x)) :
    Blameless (xs.mapM f) :=
  (Settles.mapM h).mono fun _ _ _ => trivial

/-- What holds at the start of a fold and is kept by its steps holds at the end. -/
theorem Settles.foldlM {f : β → α → Result β} {xs : List α} {b : β} (hb : q b)
    (hstep : ∀ b x, x ∈ xs → q b → Settles q (f b x)) : Settles q (xs.foldlM f b) := by
  induction xs generalizing b with
  | nil => exact hb
  | cons x rest ih =>
    rw [List.foldlM_cons]
    refine (hstep b x List.mem_cons_self hb).bind fun b' _ hb' => ?_
    exact ih hb' fun b x hx => hstep b x (List.mem_cons_of_mem _ hx)

theorem blameless_ofSchema {x : Except SchemaFault α} (h : ∃ a, x = .ok a) :
    Blameless (ofSchema x) := by
  obtain ⟨a, rfl⟩ := h
  trivial

/-- A step that also notes spellings. -/
structure KeyedBlameless (x : Keyed α) : Prop where
  settles : ∀ seen, Blameless (x seen)

theorem keyed_pure (a : α) : KeyedBlameless (pure a) := ⟨fun _ => trivial⟩

theorem keyed_throw {failure : Failure} (h : failure.isInternal = false) :
    KeyedBlameless (throw failure : Keyed α) := ⟨fun _ => h⟩

theorem keyed_lift {x : Result α} (h : Blameless x) : KeyedBlameless (liftM x : Keyed α) :=
  ⟨fun seen => Blameless.bind (f := fun a => pure (a, seen)) h fun _ _ => trivial⟩

theorem KeyedBlameless.bind {x : Keyed α} {f : α → Keyed β} (hx : KeyedBlameless x)
    (hf : ∀ a, KeyedBlameless (f a)) : KeyedBlameless (x >>= f) :=
  ⟨fun seen => Blameless.bind (f := fun r => f r.1 r.2) (hx.settles seen) fun r _ =>
    (hf r.1).settles r.2⟩

theorem keyed_note (field : String) (spelling : Spelling) (path : String) :
    KeyedBlameless (note field spelling path) := by
  constructor
  intro seen
  unfold note
  split
  · split
    · trivial
    · rfl
  · trivial

end Steps

section Arguments

theorem blameless_asRecord (doc : Doc) (path : String) : Blameless (asRecord doc path) := by
  unfold asRecord
  split
  · trivial
  · rfl

theorem blameless_recordArg (args : Doc.Members) (name path : String) :
    Blameless (recordArg args name path) := by
  unfold recordArg
  split
  · trivial
  · trivial
  · trivial
  · rfl

theorem blameless_listArg (args : Doc.Members) (name path : String) :
    Blameless (listArg args name path) := by
  unfold listArg
  split
  · trivial
  · trivial
  · trivial
  · trivial
  · rfl

end Arguments

section Comparisons

variable (mode : ClaimMode) (subject : Subject) (a : Option Attribute)

theorem blameless_genericComparison (name path : String) :
    Blameless (genericComparison name path) := by
  unfold genericComparison
  split
  · trivial
  · rfl

theorem blameless_compared (op : Comparison) (value : Doc) (caseInsensitive : Bool)
    (path : String) : Blameless (compared mode subject a op value caseInsensitive path) := by
  unfold compared
  split
  · split
    · rfl
    · trivial
  · have hcheck : Blameless (checkComparison a op value caseInsensitive path) := by
      unfold checkComparison
      split
      · split
        · rfl
        · trivial
      · split
        · rfl
        · trivial
    exact hcheck.bind fun _ _ => trivial

theorem blameless_operatorParts (path : String) (members : Doc.Members) :
    Blameless (operatorParts mode subject a path members) := by
  induction members with
  | nil => trivial
  | cons entry rest ih =>
    obtain ⟨name, value⟩ := entry
    have hrest : ∀ parts : List Condition,
        Blameless (do return parts ++ (← operatorParts mode subject a path rest)) :=
      fun parts => ih.bind fun more _ => trivial
    unfold operatorParts
    dsimp only
    split
    · refine (blameless_asRecord ..).bind fun inner _ => ?_
      refine Blameless.bind (Blameless.mapM fun entry _ => ?_) fun parts _ => hrest parts
      exact (blameless_genericComparison ..).bind fun op _ => blameless_compared ..
    · refine (blameless_genericComparison ..).bind fun op _ => ?_
      exact (blameless_compared ..).bind fun c _ => hrest [c]

theorem blameless_attributeValue (field : String) (value : Doc) (path : String) :
    KeyedBlameless (attributeValue mode subject a field value path) := by
  have hequal : KeyedBlameless (do
      note field .suffixed path
      let c ← (compared mode subject a .eq value false path : Result Condition)
      return some c) :=
    (keyed_note ..).bind fun _ => (keyed_lift (blameless_compared ..)).bind fun _ => keyed_pure _
  cases value with
  | record members =>
    dsimp only [attributeValue]
    split
    · refine (keyed_note ..).bind fun _ => ?_
      exact (keyed_lift (blameless_operatorParts ..)).bind fun _ => keyed_pure _
    · split
      · exact hequal
      · exact keyed_throw rfl
  | _ => exact hequal

end Comparisons

namespace AggregationKeys

variable (k : AggregationKeys)

theorem blameless_leaf (m : Measure) (op : Comparison) (value : Doc) (path : String) :
    Blameless (k.leaf m op value path) := by
  unfold leaf
  split
  · rfl
  · split
    · rfl
    · trivial

theorem blameless_operators (m : Measure) (members : Doc.Members) (path : String) :
    Blameless (k.operators m members path) :=
  Blameless.mapM fun _ _ =>
    (blameless_genericComparison ..).bind fun _ _ => k.blameless_leaf ..

theorem blameless_count (value : Doc) (path : String) : Blameless (k.count value path) := by
  cases value with
  | record members =>
    dsimp only [count]
    split
    · exact k.blameless_operators ..
    · refine Blameless.bind (Blameless.mapM fun entry _ => ?_) fun parts _ => trivial
      have hmeasure : Blameless (countMeasure entry.1 (childPath path entry.1)) := by
        unfold countMeasure
        split
        · trivial
        · trivial
        · rfl
      refine hmeasure.bind fun m _ => (blameless_asRecord ..).bind fun operators _ => ?_
      exact k.blameless_operators ..
  | _ => exact (k.blameless_leaf ..).bind fun c _ => trivial

theorem blameless_reduced (a : Attribute) (f : Reduction)
    (make : Attribute → Reduction → Measure) (path : String) :
    Blameless (reduced a f make path) := by
  have hcheck : Blameless (f.check a path) := by
    unfold Reduction.check
    split
    · trivial
    · rfl
  unfold reduced
  split
  · rfl
  · exact hcheck.bind fun _ _ => trivial

theorem blameless_attributes (find : String → Option Attribute)
    (make : Attribute → Reduction → Measure) (members : Doc.Members) (path : String) :
    Blameless (k.attributes find make members path) := by
  refine Blameless.bind (Blameless.mapM fun entry _ => ?_) fun parts _ => trivial
  dsimp only [attributePart]
  split
  · refine (blameless_asRecord ..).bind fun reductions _ => ?_
    refine Blameless.bind (Blameless.mapM fun reduction _ => ?_) fun parts _ => trivial
    split
    · rfl
    · refine (blameless_reduced ..).bind fun m _ => ?_
      exact (blameless_asRecord ..).bind fun operators _ => k.blameless_operators ..
  · split
    · rfl
    · exact (blameless_reduced ..).bind fun m _ => (k.blameless_leaf ..).bind fun c _ => trivial

theorem blameless_entry {below : Doc.Members → String → Result (Option Condition)}
    (hbelow : ∀ members path, Blameless (below members path)) (path key : String) (value : Doc) :
    Blameless (k.entry below path key value) := by
  have hoperands : ∀ (items : List Doc) (make : List Condition → Condition) (here : String),
      Blameless (do
        let operands ← items.mapM fun item => do
          let members ← asRecord item here
          below members here
        let operands := operands.filterMap id
        return if operands.isEmpty then [] else [make operands] : Result (List Condition)) := by
    intro items make here
    refine Blameless.bind (Blameless.mapM fun item _ => ?_) fun operands _ => trivial
    exact (blameless_asRecord ..).bind fun members _ => hbelow ..
  dsimp only [entry]
  split
  · split
    · exact hoperands _ .all _
    · rfl
  · split
    · exact hoperands _ .any _
    · rfl
  · refine (blameless_asRecord ..).bind fun members _ => ?_
    exact (hbelow ..).bind fun inner _ => trivial
  · exact k.blameless_count ..
  · exact (blameless_asRecord ..).bind fun members _ => k.blameless_attributes ..
  · split
    · rfl
    · exact (blameless_asRecord ..).bind fun members _ => k.blameless_attributes ..
  · split
    · exact (k.blameless_leaf ..).bind fun c _ => trivial
    · rfl

theorem blameless_condition (members : Doc.Members) (path : String) :
    Blameless (k.condition members path) := by
  unfold condition
  generalize Doc.membersHeight members = depth
  induction depth generalizing members path with
  | zero => trivial
  | succ depth ih =>
    refine Blameless.bind (Blameless.mapM fun entry _ => ?_) fun parts _ => trivial
    exact k.blameless_entry ih ..

end AggregationKeys

section Names

variable {schema : Schema}

theorem composite_known {name : String} {c : Composite}
    (h : schema.target name = .ok (.composite c)) : c ∈ schema.composites.values := by
  unfold Schema.target at h
  split at h
  · cases h
  · split at h
    · rename_i hfound
      cases h
      exact Entries.mem_values_of_get? hfound
    · cases h

/-- Where a relationship leads is found. -/
def Leads (schema : Schema) (r : Relationship) : Prop := ∃ t, schema.targetOf r = .ok t

theorem leads_of_known (hclosed : schema.Closed) {e : Entity} (he : e ∈ schema.entities.values)
    {name : String} {r : Relationship} (h : e.relationship? name = some r) : Leads schema r :=
  hclosed.targets e he r (Entries.mem_values_of_get? h)

theorem leads_of_bind (hclosed : schema.Closed) {e : Entity} (he : e ∈ schema.entities.values)
    {name : Option String} {r : Relationship} (h : name.bind e.relationship? = some r) :
    Leads schema r := by
  obtain ⟨base, _, hfound⟩ := Option.bind_eq_some_iff.mp h
  exact leads_of_known hclosed he hfound

theorem blameless_typeNames (c : Composite) (value : Doc) (path : String) :
    Blameless (typeNames c value path) := by
  have hname : ∀ doc, Blameless (typeName path doc) := by
    intro doc
    unfold typeName
    split
    · trivial
    · rfl
  unfold typeNames
  refine Blameless.bind ?_ fun names _ => ?_
  · split
    · trivial
    · exact Blameless.mapM fun doc _ => hname doc
    · rfl
  · split
    · rfl
    · trivial

theorem blameless_narrow {c : Composite} (hknown : ∃ es, schema.constituents c = .ok es)
    (members : Option Doc.Members) (path : String) : Blameless (narrow schema c members path) := by
  refine (blameless_ofSchema hknown).bind fun entities _ => ?_
  cases members with
  | none => trivial
  | some members =>
    dsimp only
    split
    · trivial
    · split
      · unfold narrowUnion
        split
        · rfl
        · refine Blameless.bind (Blameless.mapM fun e _ => ?_) fun kept _ => trivial
          unfold keptMember
          split
          · trivial
          · trivial
          · exact (blameless_asRecord ..).bind fun own _ => trivial
      · have hallowed : Blameless (allowedNames c members path) := by
          unfold allowedNames
          dsimp only
          split
          · rfl
          · exact (blameless_typeNames ..).map some
          · exact (blameless_typeNames ..).map some
          · trivial
        exact hallowed.bind fun allowed _ => trivial

end Names

/-- A reader of objects that only the objects make fail. -/
def Level.Blameless (schema : Schema) (below : Level) : Prop :=
  ∀ keys members path, keys.Known schema → Resolve.Blameless (below keys members path)

namespace Reader

section Related

variable {r : Reader} {below : Level} {relationship : Relationship}
variable (hclosed : r.setup.schema.Closed) (hbelow : below.Blameless r.setup.schema)
variable (hleads : Leads r.setup.schema relationship)

include hbelow in
theorem blameless_optionally {keys : Keys} (hknown : keys.Known r.setup.schema)
    (members : Option Doc.Members) (path : String) :
    Blameless (optionally below keys members path) := by
  cases members with
  | none => trivial
  | some members => exact hbelow _ _ _ hknown

include hbelow in
theorem blameless_edgePart (edge : Option Doc) (path : String) :
    Blameless (r.edgePart below relationship edge path) := by
  unfold edgePart
  split
  · trivial
  · trivial
  · split
    · rfl
    · exact (blameless_asRecord ..).bind fun members _ => hbelow _ _ _ trivial

include hclosed hbelow hleads in
theorem blameless_related (q : Quantifier) (node edge : Option Doc) (path : String) :
    Blameless (r.related below relationship q node edge path) := by
  have hnode : Blameless (nodePart node path) := by
    unfold nodePart
    split
    · trivial
    · trivial
    · exact (blameless_asRecord ..).map some
  refine hnode.bind fun members _ => (blameless_ofSchema hleads).bind fun target htarget => ?_
  cases target with
  | entity e =>
    have he : (Keys.node e).Known r.setup.schema := target_known (ofSchema_ok htarget)
    refine (blameless_optionally hbelow he ..).bind fun filter _ => ?_
    exact (blameless_edgePart hbelow ..).bind fun edge _ => trivial
  | composite c =>
    have hc : ∃ es, r.setup.schema.constituents c = .ok es :=
      hclosed.constituents c (composite_known (ofSchema_ok htarget))
    refine (blameless_narrow hc ..).bind fun kept hkept => ?_
    refine Blameless.bind (Blameless.mapM fun k hk => ?_) fun targets _ => ?_
    · have he : (Keys.node k.1).Known r.setup.schema := narrow_known hkept k hk
      exact (blameless_optionally hbelow he ..).bind fun filter _ => trivial
    · exact (blameless_edgePart hbelow ..).bind fun edge _ => trivial

include hclosed hbelow hleads in
theorem blameless_connected (q : Quantifier) (value : Doc) (path : String) :
    Blameless (r.connected below relationship q value path) := by
  unfold connected
  split
  · exact blameless_related hclosed hbelow hleads ..
  · refine (blameless_asRecord ..).bind fun members _ => ?_
    split
    · rfl
    · exact blameless_related hclosed hbelow hleads ..

theorem blameless_quantifierOf (key path : String) : Blameless (quantifierOf key path) := by
  unfold quantifierOf
  split
  · trivial
  · rfl

include hclosed hbelow hleads in
theorem blameless_relationshipValue (field : String) (value : Doc) (path : String) :
    KeyedBlameless (r.relationshipValue below relationship field value path) := by
  have hrelated := blameless_related hclosed hbelow hleads
  unfold relationshipValue
  split
  · refine (keyed_note ..).bind fun _ => (keyed_lift (hrelated ..)).bind fun c => ?_
    exact keyed_pure _
  · refine (keyed_lift (blameless_asRecord ..)).bind fun members => ?_
    split
    · refine (keyed_note ..).bind fun _ => ?_
      refine (keyed_lift (Blameless.mapM fun entry _ => ?_)).bind fun parts => keyed_pure _
      exact (blameless_quantifierOf ..).bind fun q _ => hrelated ..
    · exact (keyed_note ..).bind fun _ => (keyed_lift (hrelated ..)).bind fun c => keyed_pure _

include hleads in
theorem blameless_aggregation (members : Doc.Members) (path : String) :
    Blameless (r.aggregation relationship members path) := by
  refine (blameless_ofSchema hleads).bind fun target _ => ?_
  cases target with
  | entity e => exact AggregationKeys.blameless_condition ..
  | composite c => rfl

include hclosed hbelow hleads in
theorem blameless_connectionValue (field : String) (value : Doc) (path : String) :
    KeyedBlameless (r.connectionValue below relationship field value path) := by
  unfold connectionValue
  split
  · refine (keyed_note ..).bind fun _ => ?_
    exact (keyed_lift (blameless_related hclosed hbelow hleads ..)).bind fun c => keyed_pure _
  · refine (keyed_lift (blameless_asRecord ..)).bind fun members => ?_
    split
    · refine (keyed_note ..).bind fun _ => ?_
      refine (keyed_lift (Blameless.mapM fun entry _ => ?_)).bind fun parts => keyed_pure _
      dsimp only [connectionPart]
      split
      · refine (blameless_asRecord ..).bind fun members _ => ?_
        exact (blameless_aggregation hleads ..).bind fun c _ => trivial
      · refine (blameless_quantifierOf ..).bind fun q _ => ?_
        exact (blameless_connected hclosed hbelow hleads ..).bind fun c _ => trivial
    · refine (keyed_note ..).bind fun _ => ?_
      exact (keyed_lift (blameless_connected hclosed hbelow hleads ..)).bind fun c => keyed_pure _

end Related

variable {r : Reader} {below : Level}
variable (hclosed : r.setup.schema.Closed) (hbelow : below.Blameless r.setup.schema)

include hclosed hbelow in
theorem blameless_relationshipVariant {e : Entity} (he : e ∈ r.setup.schema.entities.values)
    (key : String) (value : Doc) (path : String) :
    KeyedBlameless (r.relationshipVariant below e key value path) := by
  dsimp only [relationshipVariant]
  split
  · rename_i hfound
    have hleads := leads_of_known hclosed he hfound
    refine (keyed_note ..).bind fun _ => ?_
    exact (keyed_lift (blameless_related hclosed hbelow hleads ..)).bind fun c => keyed_pure _
  · split
    · rename_i hfound _
      have hleads := leads_of_bind hclosed he hfound
      refine (keyed_note ..).bind fun _ => ?_
      exact (keyed_lift (blameless_connected hclosed hbelow hleads ..)).bind fun c => keyed_pure _
    · rename_i hfound _
      exact blameless_connectionValue hclosed hbelow (leads_of_bind hclosed he hfound) ..
    · exact keyed_pure _
    · split
      · rename_i hfound
        have hleads := leads_of_bind hclosed he hfound
        refine (keyed_lift (blameless_asRecord ..)).bind fun members => ?_
        exact keyed_lift (blameless_aggregation hleads ..)
      · exact keyed_pure _

theorem blameless_suffixedKey (keys : Keys) (key : String) (value : Doc) (path : String) :
    KeyedBlameless (r.suffixedKey keys key value path) := by
  dsimp only [suffixedKey]
  split
  · refine (keyed_note ..).bind fun _ => ?_
    exact (keyed_lift (blameless_compared ..)).bind fun c => keyed_pure _
  · exact keyed_throw rfl

include hclosed hbelow in
theorem blameless_fieldKey {keys : Keys} (hknown : keys.Known r.setup.schema) (key : String)
    (value : Doc) (path : String) : KeyedBlameless (r.fieldKey below keys key value path) := by
  cases keys with
  | claims =>
    change KeyedBlameless (r.claimKey key value path)
    unfold claimKey
    split
    · refine (keyed_note ..).bind fun _ => ?_
      exact (keyed_lift (blameless_compared ..)).bind fun c => keyed_pure _
    · exact blameless_attributeValue ..
  | edge p =>
    dsimp only [fieldKey]
    split
    · exact blameless_attributeValue ..
    · exact blameless_suffixedKey ..
  | node e =>
    dsimp only [fieldKey]
    split
    · exact blameless_attributeValue ..
    · split
      · rename_i hfound
        have hleads := leads_of_known hclosed hknown hfound
        exact blameless_relationshipValue hclosed hbelow hleads ..
      · refine (blameless_relationshipVariant hclosed hbelow hknown ..).bind fun found => ?_
        split
        · exact keyed_pure _
        · exact blameless_suffixedKey ..

include hbelow in
theorem blameless_operands {keys : Keys} (hknown : keys.Known r.setup.schema) (value : Doc)
    (path : String) : Blameless (operands below keys value path) := by
  cases value with
  | list items =>
    refine Blameless.bind (Blameless.mapM fun item _ => ?_) fun found _ => trivial
    exact (blameless_asRecord ..).bind fun members _ => hbelow _ _ _ hknown
  | _ => rfl

include hclosed hbelow in
theorem blameless_entry {keys : Keys} (hknown : keys.Known r.setup.schema) (path key : String)
    (value : Doc) : KeyedBlameless (r.entry below keys path key value) := by
  dsimp only [entry]
  split
  · exact (keyed_lift (blameless_operands hbelow hknown ..)).bind fun cs => keyed_pure _
  · exact (keyed_lift (blameless_operands hbelow hknown ..)).bind fun cs => keyed_pure _
  · refine (keyed_lift (blameless_asRecord ..)).bind fun members => ?_
    exact (keyed_lift (hbelow _ _ _ hknown)).bind fun inner => keyed_pure _
  · exact (blameless_fieldKey hclosed hbelow hknown ..).bind fun c => keyed_pure _

include hclosed hbelow in
theorem blameless_entries {keys : Keys} (hknown : keys.Known r.setup.schema) (path : String)
    (members : Doc.Members) : KeyedBlameless (r.entries below keys path members) := by
  induction members with
  | nil => exact keyed_pure _
  | cons entry rest ih =>
    refine (blameless_entry hclosed hbelow hknown ..).bind fun cs => ?_
    exact ih.bind fun more => keyed_pure _

/-- At every depth only the object itself makes reading fail. -/
theorem blameless_conditionAt (hclosed : r.setup.schema.Closed) (depth : Nat) :
    Level.Blameless r.setup.schema (r.conditionAt depth) := by
  induction depth with
  | zero => exact fun _ _ _ _ => trivial
  | succ depth ih =>
    intro keys members path hknown
    refine Blameless.bind ?_ fun parts _ => trivial
    exact (blameless_entries hclosed ih hknown path members).settles []

end Reader

section Rules

variable {s : Setup} (hclosed : s.schema.Closed)

include hclosed in
theorem blameless_requested {keys : Keys} (hknown : keys.Known s.schema)
    (members : Option Doc.Members) (path : String) :
    Blameless (s.requested keys members path) := by
  cases members with
  | none => trivial
  | some members =>
    exact Reader.blameless_conditionAt (r := ⟨s, false⟩) hclosed _ keys members path hknown

include hclosed in
theorem blameless_templateParts {keys : Keys} (hknown : keys.Known s.schema)
    (template : Option Doc) (path : String) :
    Blameless (templateParts s keys template path) := by
  cases template with
  | none => trivial
  | some doc =>
    refine (blameless_asRecord ..).bind fun members _ => ?_
    refine Blameless.bind ?_ fun c _ => trivial
    exact Reader.blameless_conditionAt (r := ⟨s, true⟩) hclosed _ keys members path hknown

include hclosed in
theorem blameless_ruleConditions {e : Entity} (he : e ∈ s.schema.entities.values)
    (attributes : List Attribute) (test : Rule → Bool) :
    Blameless (ruleConditions s e attributes test) := by
  have hnode : (Keys.node e).Known s.schema := he
  have hclaims : Keys.claims.Known s.schema := trivial
  refine Blameless.bind (Blameless.mapM fun d _ => ?_) fun found _ => trivial
  refine (blameless_templateParts hclosed hnode ..).bind fun node _ => ?_
  exact (blameless_templateParts hclosed hclaims ..).bind fun claims _ => trivial

include hclosed in
theorem blameless_guardFilter {e : Entity} (he : e ∈ s.schema.entities.values)
    (attributes : List Attribute) (action : Action) :
    Blameless (guardFilter s e attributes action) :=
  (blameless_ruleConditions hclosed he ..).bind fun _ _ => trivial

include hclosed in
theorem blameless_guardValidations {e : Entity} (he : e ∈ s.schema.entities.values)
    (attributes : List Attribute) (action : Action) (moment : Moment) :
    Blameless (guardValidations s e attributes action moment) :=
  blameless_ruleConditions hclosed he ..

/-- A guarded scope is a scope of its entity over its relationship. -/
theorem settles_guardedScope (hclosed : s.schema.Closed) {e : Entity}
    (he : e ∈ s.schema.entities.values) (relationship : Option Relationship)
    (asked : List Condition) (attributes : List Attribute) (action : Action) :
    Settles (fun scope => scope.relationship = relationship)
      (guardedScope s e relationship asked attributes action) := by
  refine (blameless_guardFilter hclosed he ..).bind fun filter _ => ?_
  exact (blameless_guardValidations hclosed he ..).bind fun validations _ => rfl

end Rules

end GraphSelection.Resolve
