import GraphSelection.Proofs.Restated.Comparisons
import GraphSelection.Proofs.Spelled.Documents
import GraphSelection.Proofs.Spelled.Outcomes

/-!
Aggregation objects in two spellings. A count and a reduction are read to the same comparisons
whether they stand in the key or in objects under it.
-/
namespace GraphSelection.Resolve

open GraphSelection Plan

variable {schema : Schema} {d d' : Nat} {v v' : Doc} {path path' : String}

/-- The entries of an object that are read one by one, into one list. -/
theorem entries_concur {α : Type} {p : Place} {whole members members' : Doc.Members}
    {f f' : String × Doc → Result (List α)}
    (h : List.Forall₂ (EntryAlternate schema d d' p whole) members members')
    (hf : ∀ e e', EntryAlternate schema d d' p whole e e' → Concur Eq (f e) (f' e')) :
    Concur Eq (do let parts ← members.mapM f; return parts.flatten)
      (do let parts ← members'.mapM f'; return parts.flatten) :=
  (Concur.mapMSame h hf).andThen fun _ => .same _

theorem mapM_single {α β : Type} (f : α → Result (List β)) (x : α) :
    (do let parts ← [x].mapM f; return parts.flatten) = f x := by
  simp only [List.mapM_cons, List.mapM_nil]
  cases f x with
  | error e => rfl
  | ok xs => exact congrArg Except.ok (by simp)

/-- A value that is an object on both sides, or on neither. -/
theorem asRecord_alternate {p : Place} (hp : p.respells = true)
    (h : Alternate schema d d' p v v') :
    Concur (fun members members' => Alternate schema d d' p (.record members) (.record members'))
      (asRecord v path) (asRecord v' path') := by
  rcases h.record_or_same hp with ⟨members, members', rfl, rfl⟩ | ⟨rfl, hother⟩
  · exact .ok h
  · cases v' with
    | record members => exact absurd rfl (hother members)
    | _ => exact .fault rfl

namespace AggregationKeys

variable (k : AggregationKeys)

/-- One comparison in an object. -/
theorem operators_single {name : String} {op : Comparison}
    (hname : Comparison.ofGeneric? name = some op) (m : Measure) (value : Doc) (path : String) :
    k.operators m [(name, value)] path =
      (do let c ← k.leaf m op value (childPath path name); return [c]) := by
  simp only [operators, List.mapM_cons, List.mapM_nil, genericComparison, hname]
  rfl

theorem count_single {name : String} {op : Comparison}
    (hname : Comparison.ofGeneric? name = some op) (value : Doc) (path : String) :
    k.count (.record [(name, value)]) path =
      (do let c ← k.leaf .countNodes op value (childPath path name); return [c]) := by
  have hrecord : isOperatorRecord [(name, value)] = true := by
    simp [isOperatorRecord, hname]
  simp only [count, hrecord, ↓reduceIte, operators_single k hname]

section Reductions

variable {find : String → Option Attribute} {make : Attribute → Reduction → Measure}

/-- One comparison of one reduction of an attribute. -/
theorem attributePart_single {f inner name : String} {a : Attribute} {reduction : Reduction}
    {op : Comparison} (hfind : find f = some a)
    (hinner : List.lookup inner Reduction.comparable = some reduction)
    (hname : Comparison.ofGeneric? name = some op) (value : Doc) (path : String) :
    Concur Eq (k.attributePart find make path f (value.nested [inner, name]))
      (do
        let m ← reduced a reduction make path
        let c ← k.leaf m op value path
        return [c]) := by
  have hoperators : ∀ m there, Concur Eq (k.operators m [(name, value)] there)
      (do let c ← k.leaf m op value path; return [c]) := by
    intro m there
    rw [operators_single k hname]
    exact (leaf_concur k op value).andThen fun c => .same _
  unfold attributePart
  simp only [hfind]
  change Concur Eq (do
    let parts ← [(inner, Doc.record [(name, value)])].mapM _
    return parts.flatten) _
  rw [mapM_single]
  simp only [hinner]
  exact (reduced_concur ..).andThen fun m => hoperators m _

theorem attributePart_suffixed {key : String} {a : Attribute} {reduction : Reduction}
    {op : Comparison} (hkey : find key = none)
    (hsuffixed : suffixed? find key = some (a, reduction, op)) (value : Doc) (path : String) :
    Concur Eq (k.attributePart find make path key value)
      (do
        let m ← reduced a reduction make path
        let c ← k.leaf m op value path
        return [c]) := by
  unfold attributePart
  simp only [hkey, hsuffixed]
  refine (reduced_concur ..).andThen fun m => ?_
  exact (leaf_concur k op value).andThen fun c => .same _

theorem attributePart_unknown {key : String} (hkey : find key = none)
    (hsuffixed : suffixed? find key = none) (value : Doc) (path : String) :
    k.attributePart find make path key value =
      .error (.filter (childPath path key) (.notAggregation key)) := by
  simp only [attributePart, hkey, hsuffixed]
  rfl

variable (hclean : CleanNames schema) (hfind : ∀ x a, find x = some a → x ∈ attributeNames schema)
include hclean hfind

/-- A reduction and a comparison in the key of an attribute. -/
theorem suffixed?_append (f : String) {reduction ending : String} {reduced : Reduction}
    {op : Comparison}
    (hreduction : (reduction, reduced) ∈ Reduction.endings)
    (hending : (ending, op) ∈ Comparison.aggregateEndings) :
    find (f ++ reduction ++ ending) = none ∧
      suffixed? find (f ++ reduction ++ ending) = (find f).map fun a => (a, reduced, op) := by
  constructor
  · cases h : find (f ++ reduction ++ ending) with
    | none => rfl
    | some a => exact absurd (hfind _ a h) (hclean.suffixed_attribute (aggregate_suffix hending) _)
  · simp only [suffixed?, dropAny_append distinct_aggregates hending,
      dropAny_append distinct_reductions hreduction, Option.bind_eq_bind, Option.bind_some]
    cases find f <;> rfl

/-- An attribute and its reductions, in two spellings. -/
theorem attributePart_alternate {whole : Doc.Members} {e e' : String × Doc}
    (h : EntryAlternate schema d d' (.reduced find) whole e e') :
    Concur Eq (k.attributePart find make path e.1 e.2)
      (k.attributePart find make path' e'.1 e'.2) := by
  cases h with
  | @kept key v v' hkept =>
    cases hkey : find key with
    | some a =>
      have hsame : v' = v := (hkept .reductions (by simp [Place.under, hkey])).same rfl rfl
      exact hsame ▸ attributePart_concur ..
    | none =>
      cases hsuffixed : suffixed? find key with
      | some found =>
        have hsame : v' = v :=
          (hkept .measured (by simp [Place.under, hkey, hsuffixed])).same rfl rfl
        exact hsame ▸ attributePart_concur ..
      | none =>
        simp only [attributePart_unknown k hkey hsuffixed]
        exact .fault rfl
  | @unfolded key base inner v v' hunfolds _ hkept =>
    cases hunfolds with
    | @reduced _ reduction ending inner name hf hreductions hspelling =>
      obtain ⟨reduced, hreduction, hinner⟩ := reduction_of_spelling hreductions
      obtain ⟨op, hending, hname⟩ := measure_of_spelling hspelling
      obtain ⟨hkey, hsuffixed⟩ := suffixed?_append hclean hfind base hreduction hending
      cases hbase : find base with
      | some a =>
        rw [hbase] at hsuffixed
        have hsame : v' = v :=
          (hkept .measured (by simp [Place.under, hkey, hsuffixed])).same rfl rfl
        subst hsame
        refine (attributePart_suffixed k hkey hsuffixed v' path).trans ?_
        refine Concur.trans ?_ (attributePart_single k hbase hinner hname v' path').symm
        refine (reduced_concur ..).andThen fun m => ?_
        exact (leaf_concur k op v').andThen fun c => .same _
      | none =>
        rw [hbase] at hsuffixed
        have hbaseSuffixed : suffixed? find base = none := by
          simp only [suffixed?, (hclean.attributes base hf).dropAny_aggregates, Option.bind_eq_bind,
            Option.bind_none]
        simp only [attributePart_unknown k hkey hsuffixed,
          attributePart_unknown k hbase hbaseSuffixed]
        exact .fault rfl

theorem attributes_alternate {members members' : Doc.Members}
    (h : Alternate schema (d + 1) (d' + 1) (.reduced find) (.record members) (.record members')) :
    Concur Eq (k.attributes find make members path) (k.attributes find make members' path') :=
  entries_concur (h.entries rfl) fun _ _ he => attributePart_alternate k hclean hfind he

end Reductions

section Counts

theorem countEnding?_append :
    ∀ entry ∈ Comparison.aggregateEndings, countEnding? ("count" ++ entry.1) = some entry.2 := by
  decide

theorem counted_plain {key : String} {op : Comparison} (h : countEnding? key = some op) :
    ∀ plain ∈ ["AND", "OR", "NOT", "count", "node", "edge"], key ≠ plain := by
  have hnone : ∀ plain ∈ ["AND", "OR", "NOT", "count", "node", "edge"],
      countEnding? plain = none := by
    decide
  rintro plain hplain rfl
  rw [hnone _ hplain] at h
  cases h

theorem entry_counted (below : Doc.Members → String → Result (Option Condition)) {key : String}
    {op : Comparison} (h : countEnding? key = some op) (value : Doc) (path : String) :
    k.entry below path key value =
      (do let c ← k.leaf .countNodes op value (childPath path key); return [c]) := by
  have hplain := counted_plain h
  simp only [entry]
  split
  · exact absurd rfl (hplain "AND" (by simp))
  · exact absurd rfl (hplain "OR" (by simp))
  · exact absurd rfl (hplain "NOT" (by simp))
  · exact absurd rfl (hplain "count" (by simp))
  · exact absurd rfl (hplain "node" (by simp))
  · exact absurd rfl (hplain "edge" (by simp))
  · simp only [h]

variable {k} in
theorem measured_counted {r : Relationship} (hk : aggregationKeys? schema r = some k)
    {key : String} {op : Comparison} (h : countEnding? key = some op) :
    Place.measured ∈ aggregationPlaces schema r key := by
  have hplain := counted_plain h
  simp only [aggregationPlaces, hk]
  split
  · exact absurd rfl (hplain "AND" (by simp))
  · exact absurd rfl (hplain "OR" (by simp))
  · exact absurd rfl (hplain "NOT" (by simp))
  · exact absurd rfl (hplain "count" (by simp))
  · exact absurd rfl (hplain "node" (by simp))
  · exact absurd rfl (hplain "edge" (by simp))
  · simp only [h, List.mem_cons, true_or]

end Counts

end AggregationKeys

section Objects

variable (schema) in
/-- Readers of aggregation objects that concur up to some height. -/
def AggregationsConcur (d d' : Nat) (r : Relationship)
    (below below' : Doc.Members → String → Result (Option Condition)) : Prop :=
  ∀ members members' path path',
    Alternate schema d d' (.aggregation r) (.record members) (.record members') →
      Concur Eq (below members path) (below' members' path')

/-- What the keys of an aggregation are about is of the schema. -/
structure AggregationKeys.Declared (schema : Schema) (k : AggregationKeys) : Prop where
  target : k.target ∈ schema.entities.values
  properties : ∀ p, k.properties = some p → p ∈ schema.propertySets.values

namespace AggregationKeys

variable {k : AggregationKeys} {r : Relationship}
  {below below' : Doc.Members → String → Result (Option Condition)}

theorem Declared.find (hdeclared : k.Declared schema) (x : String) (a : Attribute)
    (h : k.target.attribute? x = some a) : x ∈ attributeNames schema := by
  have hkeys : (Keys.node k.target).Declared schema := hdeclared.target
  exact hkeys.attribute (Option.map_eq_some_iff.mpr ⟨a, h, rfl⟩)

theorem Declared.findProperty (hdeclared : k.Declared schema) {p : PropertySet}
    (hp : k.properties = some p) (x : String) (a : Attribute) (h : p.attribute? x = some a) :
    x ∈ attributeNames schema := by
  have hkeys : (Keys.edge p).Declared schema := hdeclared.properties p hp
  exact hkeys.attribute (Option.map_eq_some_iff.mpr ⟨a, h, rfl⟩)

/-- The items of a connective, each of which is an aggregation object. -/
theorem junction_alternate (hbelow : AggregationsConcur schema d d' r below below')
    (make : List Condition → Condition) (path path' : String) :
    Alternate schema d d' (.aggregations r) v v' →
    Concur Eq
      (match v with
      | .list items => do
          let operands ← items.mapM fun item => do
            let members ← asRecord item path
            below members path
          let operands := operands.filterMap id
          return if operands.isEmpty then [] else [make operands]
      | _ => throw (.argument path .expectedList) : Result (List Condition))
      (match v' with
      | .list items => do
          let operands ← items.mapM fun item => do
            let members ← asRecord item path'
            below' members path'
          let operands := operands.filterMap id
          return if operands.isEmpty then [] else [make operands]
      | _ => throw (.argument path' .expectedList)) := by
  intro h
  rcases h.list_or_same rfl List.mem_cons_self with
    ⟨items, items', rfl, rfl, hitems⟩ | ⟨rfl, hother⟩
  · refine (Concur.mapMSame hitems fun item item' hitem => ?_).andThen fun found => .same _
    exact (asRecord_alternate rfl hitem).bind fun _ _ hmembers => hbelow _ _ _ _ hmembers
  · cases v' with
    | list items => exact absurd rfl (hother items)
    | _ => exact .fault rfl

variable (hclean : CleanNames schema) (hdeclared : k.Declared schema)
  (hk : aggregationKeys? schema r = some k) (hbelow : AggregationsConcur schema d d' r below below')
include hclean hdeclared hk hbelow

theorem entry_kept {whole : Doc.Members} {key : String}
    (h : ∀ q ∈ (Place.aggregation r).under schema whole key, Alternate schema d d' q v v') :
    Concur Eq (k.entry below path key v) (k.entry below' path' key v') := by
  simp only [Place.under, aggregationPlaces, hk] at h
  simp only [entry]
  split
  · exact junction_alternate hbelow .all _ _ (h _ List.mem_cons_self)
  · exact junction_alternate hbelow .any _ _ (h _ List.mem_cons_self)
  · refine (asRecord_alternate (p := .aggregation r) rfl (h _ List.mem_cons_self)).bind ?_
    exact fun _ _ hmembers => (hbelow _ _ _ _ hmembers).andThen fun inner => .same _
  · rw [(h _ List.mem_cons_self).same rfl rfl]
    exact count_concur k v
  · refine (asRecord_alternate (p := .reduced k.target.attribute?) rfl
      (h _ List.mem_cons_self)).bind fun _ _ hmembers => ?_
    exact attributes_alternate k hclean hdeclared.find hmembers.succ
  · split
    · exact .fault rfl
    · rename_i properties hproperties
      simp only [hproperties] at h
      refine (asRecord_alternate (p := .reduced properties.attribute?) rfl
        (h _ List.mem_cons_self)).bind fun _ _ hmembers => ?_
      exact attributes_alternate k hclean (hdeclared.findProperty hproperties) hmembers.succ
  · split
    · rename_i op hop
      rw [(h .measured (by simp_all)).same rfl rfl]
      exact (leaf_concur k op v).andThen fun c => .same _
    · exact .fault rfl

theorem entry_alternate {whole : Doc.Members} {e e' : String × Doc}
    (h : EntryAlternate schema d d' (.aggregation r) whole e e') :
    Concur Eq (k.entry below path e.1 e.2) (k.entry below' path' e'.1 e'.2) := by
  cases h with
  | kept hkept => exact entry_kept hclean hdeclared hk hbelow hkept
  | @unfolded key base inner v v' hunfolds _ hkept =>
    cases hunfolds with
    | @counted ending name hspelling =>
      obtain ⟨op, hending, hname⟩ := measure_of_spelling hspelling
      have hcount := countEnding?_append _ hending
      rw [(hkept _ (measured_counted hk hcount)).same rfl rfl, entry_counted k below hcount]
      change Concur Eq _ (k.count (.record [(name, v)]) (childPath path' "count"))
      rw [count_single k hname]
      exact (leaf_concur k op v).andThen fun c => .same _

omit hbelow in
/-- Aggregation objects in two spellings, each read to its own height. -/
theorem conditionAt_alternate (d d' : Nat) :
    AggregationsConcur schema d d' r (k.conditionAt d) (k.conditionAt d') := by
  induction d, d' using heights_induction with
  | empty d d' hzero =>
    intro members members' path path' h
    obtain ⟨rfl, rfl⟩ := h.empty rfl hzero
    rw [aggregationAt_empty, aggregationAt_empty]
    exact .ok rfl
  | level d d' ih =>
    intro members members' path path' h
    refine (Concur.mapMSame (h.entries rfl) fun e e' he => ?_).andThen fun parts => .same _
    exact entry_alternate hclean hdeclared hk ih he

end AggregationKeys

end Objects

end GraphSelection.Resolve
