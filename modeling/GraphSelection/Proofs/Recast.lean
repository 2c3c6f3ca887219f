import GraphSelection.Proofs.Outcomes
import GraphSelection.Resolve.Guard

/-!
Conditions recast. A recasting changes the two sides of the comparisons in a condition, at every
depth, and leaves everything else as it is. When two readers differ by a recasting in what they make
of single values, they read every object alike up to the recasting, or fail alike.
-/
namespace GraphSelection

section Steps

variable {m : Type → Type} [Monad m] [LawfulMonad m] {ε α β γ δ : Type}

/-- The first steps agree, and what follows them agrees up to a change of the result. -/
theorem bind_same {x : m α} {f' : α → m γ} {f : α → m β} {h : β → γ}
    (hf : ∀ a, f' a = h <$> f a) : (x >>= f') = h <$> (x >>= f) := by
  rw [map_bind]
  exact congrArg (x >>= ·) (funext hf)

/-- The results of the first steps are changed, and what follows agrees on the changed results. -/
theorem bind_both {x' : m δ} {x : m α} {g : α → δ} {f' : δ → m γ} {f : α → m β} {h : β → γ}
    (hx : x' = g <$> x) (hf : ∀ a, f' (g a) = h <$> f a) : (x' >>= f') = h <$> (x >>= f) := by
  rw [hx, bind_map_left]
  exact bind_same hf

theorem map_both {x' : Except ε δ} {x : Except ε α} {g : α → δ} {f' : δ → γ} {f : α → β} {h : β → γ}
    (hx : x' = g <$> x) (hf : ∀ a, f' (g a) = h (f a)) : x'.map f' = h <$> x.map f := by
  subst hx
  cases x with
  | error e => rfl
  | ok a => exact congrArg Except.ok (hf a)

theorem mapM_both {f' : α → Except ε γ} {f : α → Except ε β} {h : β → γ}
    (hf : ∀ a, f' a = h <$> f a) (xs : List α) : xs.mapM f' = List.map h <$> xs.mapM f := by
  induction xs with
  | nil => rfl
  | cons x rest ih =>
    rw [List.mapM_cons, List.mapM_cons]
    exact bind_both (hf x) fun y => bind_both ih fun ys => rfl

/-- Lists of results that are gathered into one list. -/
theorem flatten_both {x' : Except ε (List (List β))} {x : Except ε (List (List α))} {h : α → β}
    (hx : x' = List.map (List.map h) <$> x) :
    (do let found ← x'; return found.flatten) =
      List.map h <$> (do let found ← x; return found.flatten) :=
  bind_both hx fun found => by rw [← List.map_flatten]; rfl

theorem foldlM_both {f' : β → α → Except ε β} {f : β → α → Except ε β} {h : β → β}
    (hf : ∀ b a, f' (h b) a = h <$> f b a) (xs : List α) (b : β) :
    xs.foldlM f' (h b) = h <$> xs.foldlM f b := by
  induction xs generalizing b with
  | nil => rfl
  | cons x rest ih =>
    rw [List.foldlM_cons, List.foldlM_cons]
    exact bind_both (hf b x) ih

/-- What is found among results that are changed. -/
theorem filterMap_map_both (h : α → β) (found : List (Option α)) :
    (found.map (Option.map h)).filterMap id = (found.filterMap id).map h := by
  rw [List.filterMap_map, List.map_filterMap]
  rfl

/-- A step that needs no state is lifted with its result. -/
theorem lift_both {σ : Type} {x' : Except ε β} {x : Except ε α} {h : α → β} (hx : x' = h <$> x) :
    (liftM x' : StateT σ (Except ε) β) = h <$> (liftM x : StateT σ (Except ε) α) := by
  subst hx
  funext s
  cases x <;> rfl

end Steps

end GraphSelection

namespace GraphSelection.Plan

/-- A change of the sides of comparisons. -/
structure Recast where
  subject : Subject → Subject
  operand : Operand → Operand

variable (f : Recast)

mutual
def Condition.recast : Condition → Condition
  | .all items => .all (Condition.eachRecast items)
  | .any items => .any (Condition.eachRecast items)
  | .not inner => .not (Condition.recast inner)
  | .compare subject op operand caseInsensitive =>
      .compare (f.subject subject) op (f.operand operand) caseInsensitive
  | .nullness subject isNull => .nullness (f.subject subject) isNull
  | .labels names => .labels names
  | .related r q targets isComposite edge =>
      .related r q (Condition.targetsRecast targets) isComposite (Condition.optionRecast edge)
  | .aggregation a => .aggregation a
  | .authenticated => .authenticated
def Condition.eachRecast : List Condition → List Condition
  | [] => []
  | c :: rest => Condition.recast c :: Condition.eachRecast rest
def Condition.targetsRecast : List (Entity × Option Condition) → List (Entity × Option Condition)
  | [] => []
  | (e, filter) :: rest => (e, Condition.optionRecast filter) :: Condition.targetsRecast rest
def Condition.optionRecast : Option Condition → Option Condition
  | none => none
  | some c => some (Condition.recast c)
end

theorem Condition.eachRecast_eq (cs : List Condition) :
    Condition.eachRecast f cs = cs.map (Condition.recast f) := by
  induction cs with
  | nil => rfl
  | cons c rest ih => rw [Condition.eachRecast, ih, List.map_cons]

theorem Condition.optionRecast_eq (c : Option Condition) :
    Condition.optionRecast f c = c.map (Condition.recast f) := by
  cases c <;> rfl

theorem Condition.targetsRecast_eq (targets : List (Entity × Option Condition)) :
    Condition.targetsRecast f targets =
      targets.map fun t => (t.1, t.2.map (Condition.recast f)) := by
  induction targets with
  | nil => rfl
  | cons t rest ih =>
    obtain ⟨e, filter⟩ := t
    rw [Condition.targetsRecast, ih, Condition.optionRecast_eq, List.map_cons]

theorem Condition.recast_conjuncts (c : Condition) :
    (c.recast f).conjuncts = c.conjuncts.map (Condition.recast f) := by
  cases c with
  | all items => exact Condition.eachRecast_eq f items
  | _ => rfl

theorem Condition.allOf_recast (cs : List Condition) :
    Condition.allOf (cs.map (Condition.recast f)) =
      (Condition.allOf cs).map (Condition.recast f) := by
  have hflat : (cs.map (Condition.recast f)).flatMap Condition.conjuncts =
      (cs.flatMap Condition.conjuncts).map (Condition.recast f) := by
    rw [List.flatMap_map, List.map_flatMap]
    simp only [Condition.recast_conjuncts]
  unfold Condition.allOf
  rw [hflat]
  split
  · rename_i hnil
    rw [List.map_eq_nil_iff.mp hnil]
    rfl
  · rename_i c hone
    obtain ⟨c', hc', rfl⟩ := List.map_eq_singleton_iff.mp hone
    rw [hc']
    rfl
  · rename_i hnil hone
    split
    · rename_i hempty
      exact absurd (by rw [hempty]; rfl) hnil
    · rename_i c hsingle
      exact absurd (by rw [hsingle]; rfl) (hone (c.recast f))
    · simp only [Option.map_some, Condition.recast, Condition.eachRecast_eq]

end GraphSelection.Plan

namespace GraphSelection.Resolve

open GraphSelection Plan

variable (f : Recast)

/-- The operands of one mode are those of another, recast. -/
def ClaimMode.Recasts (mode' mode : ClaimMode) : Prop :=
  ∀ value, operand mode' value = f.operand (operand mode value)

section Comparisons

variable {f} {mode' mode : ClaimMode} {subject : Subject} {a : Option Attribute}

theorem compared_recast (hmode : ClaimMode.Recasts f mode' mode) (op : Comparison) (value : Doc)
    (caseInsensitive : Bool) (path : String) :
    compared mode' (f.subject subject) a op value caseInsensitive path =
      Condition.recast f <$> compared mode subject a op value caseInsensitive path := by
  unfold compared
  split
  · split
    · rfl
    · rfl
  · refine bind_same fun _ => ?_
    rw [hmode value]
    rfl

theorem operatorParts_recast (hmode : ClaimMode.Recasts f mode' mode) (path : String)
    (members : Doc.Members) :
    operatorParts mode' (f.subject subject) a path members =
      List.map (Condition.recast f) <$> operatorParts mode subject a path members := by
  induction members with
  | nil => rfl
  | cons entry rest ih =>
    obtain ⟨name, value⟩ := entry
    by_cases hname : name = "caseInsensitive"
    · simp only [operatorParts, hname, ↓reduceIte]
      refine bind_same fun inner => ?_
      refine bind_both (mapM_both (fun entry => bind_same fun op => compared_recast hmode ..) inner)
        fun parts => ?_
      exact bind_both ih fun more => by rw [← List.map_append]; rfl
    · simp only [operatorParts, hname, ↓reduceIte]
      refine bind_same fun op => bind_both (compared_recast hmode ..) fun c => ?_
      simp only [pure_bind]
      exact bind_both ih fun more => rfl

/-- A condition that stands for the whole value of a key. -/
theorem noted_recast {field : String} {spelling : Spelling} {path : String}
    {x' x : Result Condition} (h : x' = Condition.recast f <$> x) :
    (do
      note field spelling path
      let c ← (x' : Result Condition)
      return some c : Keyed (Option Condition)) = Option.map (Condition.recast f) <$> (do
      note field spelling path
      let c ← (x : Result Condition)
      return some c) :=
  bind_same fun _ => bind_both (lift_both h) fun _ => rfl

theorem attributeValue_recast (hmode : ClaimMode.Recasts f mode' mode) (field : String)
    (value : Doc) (path : String) :
    attributeValue mode' (f.subject subject) a field value path =
      Option.map (Condition.recast f) <$> attributeValue mode subject a field value path := by
  cases value with
  | record members =>
    by_cases hoperators : isOperatorRecord members = true
    · simp only [attributeValue, hoperators, ↓reduceIte]
      refine bind_same fun _ =>
        bind_both (lift_both (operatorParts_recast hmode ..)) fun parts => ?_
      rw [Condition.allOf_recast]
      rfl
    · by_cases hspatial : (a.any fun a => a.kind.isSpatial) = true
      · simp only [attributeValue, hoperators, hspatial, ↓reduceIte]
        exact noted_recast (compared_recast hmode ..)
      · simp only [attributeValue, hoperators, hspatial]
        rfl
  | _ => exact noted_recast (compared_recast hmode ..)

end Comparisons

section Aggregations

-- Aggregations are compared with values as they are written, whoever reads them.

variable {k : AggregationKeys}

theorem leaf_recast (measure : Measure) (op : Comparison) (value : Doc) (path : String) :
    k.leaf measure op value path = Condition.recast f <$> k.leaf measure op value path := by
  unfold AggregationKeys.leaf
  split
  · rfl
  · split <;> rfl

theorem operators_recast (measure : Measure) (members : Doc.Members) (path : String) :
    k.operators measure members path =
      List.map (Condition.recast f) <$> k.operators measure members path :=
  mapM_both (fun _ => bind_same fun _ => leaf_recast f ..) members

theorem count_recast (value : Doc) (path : String) :
    k.count value path = List.map (Condition.recast f) <$> k.count value path := by
  unfold AggregationKeys.count
  split
  · split
    · exact operators_recast f ..
    · refine flatten_both (mapM_both (fun _ => ?_) _)
      exact bind_same fun _ => bind_same fun _ => operators_recast f ..
  · exact bind_both (leaf_recast f ..) fun c => rfl

theorem attributePart_recast (find : String → Option Attribute)
    (make : Attribute → Reduction → Measure) (path key : String) (value : Doc) :
    k.attributePart find make path key value =
      List.map (Condition.recast f) <$> k.attributePart find make path key value := by
  unfold AggregationKeys.attributePart
  simp only
  split
  · refine bind_same fun reductions => flatten_both (mapM_both (fun entry => ?_) reductions)
    split
    · rfl
    · exact bind_same fun _ => bind_same fun _ => operators_recast f ..
  · split
    · rfl
    · exact bind_same fun _ => bind_both (leaf_recast f ..) fun c => rfl

theorem attributes_recast (find : String → Option Attribute)
    (make : Attribute → Reduction → Measure) (members : Doc.Members) (path : String) :
    k.attributes find make members path =
      List.map (Condition.recast f) <$> k.attributes find make members path :=
  flatten_both (mapM_both (fun _ => attributePart_recast f ..) members)

theorem junction_recast {found : List (Option Condition)} {make : List Condition → Condition}
    (hmake : ∀ cs, make (cs.map (Condition.recast f)) = (make cs).recast f) :
    (if ((found.map (Option.map (Condition.recast f))).filterMap id).isEmpty then []
      else [make ((found.map (Option.map (Condition.recast f))).filterMap id)]) =
      (if (found.filterMap id).isEmpty then []
        else [make (found.filterMap id)]).map (Condition.recast f) := by
  rw [filterMap_map_both, List.isEmpty_map]
  split
  · rfl
  · rw [hmake]
    rfl

theorem all_recast (cs : List Condition) :
    Condition.all (cs.map (Condition.recast f)) = (Condition.all cs).recast f := by
  rw [Condition.recast, Condition.eachRecast_eq]

theorem any_recast (cs : List Condition) :
    Condition.any (cs.map (Condition.recast f)) = (Condition.any cs).recast f := by
  rw [Condition.recast, Condition.eachRecast_eq]

theorem aggregationEntry_recast {below : Doc.Members → String → Result (Option Condition)}
    (hbelow : ∀ members path,
      below members path = Option.map (Condition.recast f) <$> below members path)
    (path key : String) (value : Doc) :
    k.entry below path key value =
      List.map (Condition.recast f) <$> k.entry below path key value := by
  unfold AggregationKeys.entry
  simp only
  have hjunction : ∀ make : List Condition → Condition,
      (∀ cs, make (cs.map (Condition.recast f)) = (make cs).recast f) →
      ∀ items : List Doc, (do
        let operands ← items.mapM fun item => do
          let members ← asRecord item (childPath path key)
          below members (childPath path key)
        return if (operands.filterMap id).isEmpty then [] else [make (operands.filterMap id)] :
          Result (List Condition)) = List.map (Condition.recast f) <$> (do
        let operands ← items.mapM fun item => do
          let members ← asRecord item (childPath path key)
          below members (childPath path key)
        return if (operands.filterMap id).isEmpty then [] else [make (operands.filterMap id)]) := by
    intro make hmake items
    refine bind_both (mapM_both (fun item => bind_same fun _ => hbelow ..) items) fun found => ?_
    rw [junction_recast f hmake]
    rfl
  split
  · split
    · exact hjunction _ (all_recast f) _
    · rfl
  · split
    · exact hjunction _ (any_recast f) _
    · rfl
  · refine bind_same fun members => bind_both (hbelow ..) fun inner => ?_
    cases inner <;> rfl
  · exact count_recast f ..
  · exact bind_same fun members => attributes_recast f ..
  · split
    · rfl
    · exact bind_same fun members => attributes_recast f ..
  · split
    · exact bind_both (leaf_recast f ..) fun c => rfl
    · rfl

theorem aggregationCondition_recast (members : Doc.Members) (path : String) :
    k.condition members path =
      Option.map (Condition.recast f) <$> k.condition members path := by
  have hlevel : ∀ depth members path, k.conditionAt depth members path =
      Option.map (Condition.recast f) <$> k.conditionAt depth members path := by
    intro depth
    induction depth with
    | zero => exact fun _ _ => rfl
    | succ depth ih =>
      intro members path
      refine bind_both (mapM_both (fun entry => aggregationEntry_recast f ih ..) members)
        fun parts => ?_
      rw [← List.map_flatten, Condition.allOf_recast]
      rfl
  exact hlevel ..

end Aggregations

/-- One reader of objects reads what another reads, recast. -/
def Level.Recasts (below' below : Level) : Prop :=
  ∀ keys members path,
    below' keys members path = Option.map (Condition.recast f) <$> below keys members path

namespace Reader

/-- Two readers of one schema that differ by a recasting in what they make of single values. -/
structure Recasts (r' r : Reader) : Prop where
  schema : r'.setup.schema = r.setup.schema
  mode : ClaimMode.Recasts f r'.mode r.mode
  claim : ∀ path, r'.claimSubject path = f.subject (r.claimSubject path)
  /-- An attribute is no claim. -/
  attributes : ∀ keys name subject a,
    Keys.attribute? keys name = some (subject, a) → f.subject subject = subject

variable {f} {r' r : Reader} {below' below : Level}

theorem optionally_recast (hbelow : Level.Recasts f below' below) (keys : Keys)
    (members : Option Doc.Members) (path : String) :
    optionally below' keys members path =
      Option.map (Condition.recast f) <$> optionally below keys members path := by
  cases members with
  | none => rfl
  | some members => exact hbelow ..

theorem edgePart_recast (hread : Recasts f r' r) (hbelow : Level.Recasts f below' below)
    (relationship : Relationship) (edge : Option Doc) (path : String) :
    r'.edgePart below' relationship edge path =
      Option.map (Condition.recast f) <$> r.edgePart below relationship edge path := by
  simp only [edgePart, hread.schema]
  split
  · rfl
  · rfl
  · split
    · rfl
    · exact bind_same fun members => hbelow ..

theorem related_recast (hread : Recasts f r' r) (hbelow : Level.Recasts f below' below)
    (relationship : Relationship) (quantifier : Quantifier) (node edge : Option Doc)
    (path : String) :
    r'.related below' relationship quantifier node edge path =
      Condition.recast f <$> r.related below relationship quantifier node edge path := by
  simp only [related, hread.schema]
  refine bind_same fun members => bind_same fun target => ?_
  cases target with
  | entity e =>
    refine bind_both (optionally_recast hbelow ..) fun filter => ?_
    refine bind_both (edgePart_recast hread hbelow ..) fun edge => ?_
    rw [← Condition.optionRecast_eq, ← Condition.optionRecast_eq]
    rfl
  | composite c =>
    refine bind_same fun kept => ?_
    have hone : ∀ k : Kept, (do
        let filter ← optionally below' (.node k.1) k.2 path
        pure (k.1, filter) : Result (Entity × Option Condition)) =
        (fun t => (t.1, t.2.map (Condition.recast f))) <$> (do
          let filter ← optionally below (.node k.1) k.2 path
          pure (k.1, filter)) :=
      fun k => bind_both (optionally_recast hbelow ..) fun filter => rfl
    refine bind_both (mapM_both hone kept) fun targets => ?_
    refine bind_both (edgePart_recast hread hbelow ..) fun edge => ?_
    rw [← Condition.optionRecast_eq, ← Condition.targetsRecast_eq]
    rfl

theorem connected_recast (hread : Recasts f r' r) (hbelow : Level.Recasts f below' below)
    (relationship : Relationship) (quantifier : Quantifier) (value : Doc) (path : String) :
    r'.connected below' relationship quantifier value path =
      Condition.recast f <$> r.connected below relationship quantifier value path := by
  unfold connected
  split
  · exact related_recast hread hbelow ..
  · refine bind_same fun members => ?_
    split
    · rfl
    · exact related_recast hread hbelow ..

theorem relationshipValue_recast (hread : Recasts f r' r) (hbelow : Level.Recasts f below' below)
    (relationship : Relationship) (field : String) (value : Doc) (path : String) :
    r'.relationshipValue below' relationship field value path =
      Option.map (Condition.recast f) <$>
        r.relationshipValue below relationship field value path := by
  by_cases hnull : value.isNull = true
  · simp only [relationshipValue, hnull, ↓reduceIte]
    exact noted_recast (related_recast hread hbelow ..)
  · simp only [relationshipValue, hnull, Bool.false_eq_true, ↓reduceIte]
    refine bind_same fun members => ?_
    by_cases hquantified : isQuantifierRecord members = true
    · simp only [hquantified, ↓reduceIte]
      refine bind_same fun _ => bind_both (lift_both (mapM_both (fun entry =>
        bind_same fun q => related_recast hread hbelow ..) members)) fun parts => ?_
      rw [Condition.allOf_recast]
      rfl
    · simp only [hquantified, Bool.false_eq_true, ↓reduceIte]
      exact noted_recast (related_recast hread hbelow ..)

theorem aggregation_recast (hread : Recasts f r' r) (relationship : Relationship)
    (members : Doc.Members) (path : String) :
    r'.aggregation relationship members path =
      Option.map (Condition.recast f) <$> r.aggregation relationship members path := by
  simp only [aggregation, hread.schema]
  refine bind_same fun target => ?_
  cases target with
  | entity e => exact aggregationCondition_recast f ..
  | composite c => rfl

theorem connectionPart_recast (hread : Recasts f r' r) (hbelow : Level.Recasts f below' below)
    (relationship : Relationship) (path key : String) (inner : Doc) :
    r'.connectionPart below' relationship path key inner =
      List.map (Condition.recast f) <$> r.connectionPart below relationship path key inner := by
  by_cases haggregate : key = "aggregate"
  · simp only [connectionPart, haggregate, ↓reduceIte]
    refine bind_same fun members => bind_both (aggregation_recast hread ..) fun c => ?_
    cases c <;> rfl
  · simp only [connectionPart, haggregate, ↓reduceIte]
    exact bind_same fun q => bind_both (connected_recast hread hbelow ..) fun c => rfl

theorem connectionValue_recast (hread : Recasts f r' r) (hbelow : Level.Recasts f below' below)
    (relationship : Relationship) (field : String) (value : Doc) (path : String) :
    r'.connectionValue below' relationship field value path =
      Option.map (Condition.recast f) <$>
        r.connectionValue below relationship field value path := by
  by_cases hnull : value.isNull = true
  · simp only [connectionValue, hnull, ↓reduceIte]
    exact noted_recast (related_recast hread hbelow ..)
  · simp only [connectionValue, hnull, Bool.false_eq_true, ↓reduceIte]
    refine bind_same fun members => ?_
    split
    · refine bind_same fun _ => bind_both (lift_both (mapM_both (fun entry =>
        connectionPart_recast hread hbelow ..) members)) fun parts => ?_
      rw [← List.map_flatten, Condition.allOf_recast]
      rfl
    · exact noted_recast (connected_recast hread hbelow ..)

theorem relationshipVariant_recast (hread : Recasts f r' r)
    (hbelow : Level.Recasts f below' below) (e : Entity) (key : String) (value : Doc)
    (path : String) :
    r'.relationshipVariant below' e key value path =
      Option.map (Condition.recast f) <$> r.relationshipVariant below e key value path := by
  simp only [relationshipVariant]
  split
  · exact noted_recast (related_recast hread hbelow ..)
  · split
    · exact noted_recast (connected_recast hread hbelow ..)
    · exact connectionValue_recast hread hbelow ..
    · rfl
    · split
      · exact bind_same fun members => lift_both (aggregation_recast hread ..)
      · rfl

theorem suffixedKey_recast (hread : Recasts f r' r) (keys : Keys) (key : String) (value : Doc)
    (path : String) :
    r'.suffixedKey keys key value path =
      Option.map (Condition.recast f) <$> r.suffixedKey keys key value path := by
  simp only [suffixedKey]
  split
  · rename_i base op subject a hfound
    obtain ⟨⟨base', op'⟩, _, hattribute⟩ := Option.bind_eq_some_iff.mp hfound
    obtain ⟨⟨subject', a'⟩, hnamed, heq⟩ := Option.map_eq_some_iff.mp hattribute
    cases heq
    have hcompared : compared r'.mode (f.subject subject') (some a') op' value false
        path = Condition.recast f <$> compared r.mode subject' (some a') op' value false path :=
      compared_recast hread.mode ..
    rw [hread.attributes keys base' subject' a' hnamed] at hcompared
    exact noted_recast hcompared
  · rfl

theorem claimKey_recast (hread : Recasts f r' r) (key : String) (value : Doc) (path : String) :
    r'.claimKey key value path =
      Option.map (Condition.recast f) <$> r.claimKey key value path := by
  simp only [claimKey, hread.claim]
  split
  · exact noted_recast (compared_recast hread.mode ..)
  · exact attributeValue_recast hread.mode ..

theorem attributeKey_recast (hread : Recasts f r' r) {keys : Keys} {name : String}
    {subject : Subject} {a : Attribute} (h : keys.attribute? name = some (subject, a))
    (field : String) (value : Doc) (path : String) :
    attributeValue r'.mode subject (some a) field value path =
      Option.map (Condition.recast f) <$>
        attributeValue r.mode subject (some a) field value path := by
  have hvalue : attributeValue r'.mode (f.subject subject) (some a) field value path =
      Option.map (Condition.recast f) <$> attributeValue r.mode subject (some a) field value path :=
    attributeValue_recast hread.mode ..
  rwa [hread.attributes keys name subject a h] at hvalue

theorem fieldKey_recast (hread : Recasts f r' r) (hbelow : Level.Recasts f below' below)
    (keys : Keys) (key : String) (value : Doc) (path : String) :
    r'.fieldKey below' keys key value path =
      Option.map (Condition.recast f) <$> r.fieldKey below keys key value path := by
  cases keys with
  | claims => exact claimKey_recast hread ..
  | edge properties =>
    simp only [fieldKey]
    split
    · rename_i hfound
      exact attributeKey_recast hread hfound ..
    · exact suffixedKey_recast hread ..
  | node e =>
    simp only [fieldKey]
    split
    · rename_i hfound
      exact attributeKey_recast hread hfound ..
    · split
      · exact relationshipValue_recast hread hbelow ..
      · refine bind_both (relationshipVariant_recast hread hbelow ..) fun found => ?_
        cases found with
        | some c => rfl
        | none => exact suffixedKey_recast hread ..

theorem operands_recast (hbelow : Level.Recasts f below' below) (keys : Keys) (value : Doc)
    (path : String) :
    operands below' keys value path =
      List.map (Condition.recast f) <$> operands below keys value path := by
  unfold operands
  split
  · refine bind_both (mapM_both (fun entry => bind_same fun _ => hbelow ..) _) fun found => ?_
    rw [filterMap_map_both]
    rfl
  · rfl

theorem entry_recast (hread : Recasts f r' r) (hbelow : Level.Recasts f below' below)
    (keys : Keys) (path key : String) (value : Doc) :
    r'.entry below' keys path key value =
      List.map (Condition.recast f) <$> r.entry below keys path key value := by
  simp only [entry]
  split
  · refine bind_both (lift_both (operands_recast hbelow ..)) fun cs => ?_
    rw [all_recast, List.isEmpty_map]
    split <;> rfl
  · refine bind_both (lift_both (operands_recast hbelow ..)) fun cs => ?_
    rw [any_recast, List.isEmpty_map]
    split <;> rfl
  · refine bind_same fun members => bind_both (lift_both (hbelow ..)) fun inner => ?_
    cases inner <;> rfl
  · refine bind_both (fieldKey_recast hread hbelow ..) fun found => ?_
    cases found <;> rfl

theorem entries_recast (hread : Recasts f r' r) (hbelow : Level.Recasts f below' below)
    (keys : Keys) (path : String) (members : Doc.Members) :
    r'.entries below' keys path members =
      List.map (Condition.recast f) <$> r.entries below keys path members := by
  induction members with
  | nil => rfl
  | cons entry rest ih =>
    obtain ⟨key, value⟩ := entry
    refine bind_both (entry_recast hread hbelow ..) fun cs => bind_both ih fun more => ?_
    rw [← List.map_append]
    rfl

/-- Objects of every depth are read alike, recast. -/
theorem conditionAt_recast (hread : Recasts f r' r) (depth : Nat) :
    Level.Recasts f (r'.conditionAt depth) (r.conditionAt depth) := by
  induction depth with
  | zero => exact fun _ _ _ => rfl
  | succ depth ih =>
    intro keys members path
    simp only [conditionAt, entries_recast hread ih, StateT.run_map]
    refine bind_both rfl fun found => ?_
    simp only [Condition.allOf_recast]
    rfl

end Reader

end GraphSelection.Resolve
