import GraphSelection.Proofs.Akin.Plans
import GraphSelection.Proofs.Restated.Documents

/-!
Comparisons of restated documents. Whether a value suits a comparison depends on its kind only, so
the same comparisons are read, with one value in place of another. What an aggregation is compared
with is replaced by the given function.
-/
namespace GraphSelection

/-- Any value but an object is replaced by a function. -/
def Doc.Replaced (g : Doc → Doc) (v v' : Doc) : Prop := v' = v.replacedBy g

theorem Doc.isNull_of_replaced {g : Doc → Doc} {v v' : Doc}
    (hg : ∀ v, v.kind ≠ .record → (g v).kind = v.kind) (h : Doc.Replaced g v v') :
    v'.isNull = v.isNull := by
  subst h
  cases v with
  | record members => rfl
  | _ => exact Doc.isNull_of_kind (hg _ (by simp [Doc.kind]))

namespace Resolve

open Plan

variable {schema : Schema} {g : Doc → Doc} {d d' : Nat} {p : Place} {v v' : Doc}

/-- Objects are read as objects, and what is no object is refused on both sides. -/
theorem Stands.record (h : Stands schema g d d' p v v') (hkind : v'.kind = v.kind)
    (path : String) :
    Agree (fun members members' => Stands schema g d d' p (.record members) (.record members'))
      (asRecord v path) (asRecord v' path) := by
  cases Doc.paired_of_kind hkind with
  | null => exact .fault _
  | list items items' => exact .fault _
  | record members members' => exact .ok h
  | other hother hother' =>
    cases v <;> cases hother <;> cases v' <;> cases hother' <;> exact .fault _

section Attributes

variable {R : Doc → Doc → Prop} {subject : Subject} {a : Option Attribute}

theorem checkComparison_of_kind (hkind : v'.kind = v.kind) (op : Comparison)
    (caseInsensitive : Bool) (path : String) :
    checkComparison a op v' caseInsensitive path = checkComparison a op v caseInsensitive path := by
  simp only [checkComparison, unsuited?, Doc.isList_of_kind hkind]

theorem compared_agree (hkind : v'.kind = v.kind) (op : Comparison) (caseInsensitive : Bool)
    (path : String) :
    Agree (Condition.Akin R) (compared .ignore subject a op v caseInsensitive path)
      (compared .ignore subject a op v' caseInsensitive path) := by
  unfold compared
  rw [Doc.isNull_of_kind hkind, checkComparison_of_kind hkind]
  split
  · split
    · exact .fault _
    · exact .ok (.nullness subject true)
  · exact .skip _ fun _ => .ok (.compare subject op caseInsensitive (.literal v v'))

theorem isOperatorRecord_of_entries {whole members members' : Doc.Members}
    (h : List.Forall₂ (EntryStands schema g d d' p whole) members members') :
    isOperatorRecord members' = isOperatorRecord members := by
  unfold isOperatorRecord
  rw [isEmpty_of_entries h]
  exact congrArg _ (all_of_entries
    (fun key => key == "caseInsensitive" || (Comparison.ofGeneric? key).isSome) h)

theorem operatorParts_agree {whole members members' : Doc.Members}
    (hwhole : isOperatorRecord whole = true)
    (h : List.Forall₂ (EntryStands schema g d d' .operand whole) members members')
    (path : String) :
    Agree (List.Forall₂ (Condition.Akin R)) (operatorParts .ignore subject a path members)
      (operatorParts .ignore subject a path members') := by
  induction h with
  | nil => exact .ok .nil
  | @cons e e' rest rest' he _ ih =>
    obtain ⟨name, v⟩ := e
    obtain ⟨name', v'⟩ := e'
    obtain ⟨rfl, hplaces⟩ := he.spread
    by_cases hname : name = "caseInsensitive"
    · subst hname
      have hv : Stands schema g d d' .caseless v v' := hplaces _ (by simp [Place.under, hwhole])
      simp only [operatorParts, ↓reduceIte]
      refine .bind (hv.record hv.permits _) fun inner inner' hinner => ?_
      refine .bind (Agree.mapM (hinner.succ.entries rfl) fun f f' hf => ?_)
        fun parts parts' hparts =>
          .bind ih fun more more' hmore => .ok (List.rel_append hparts hmore)
      obtain ⟨name, v⟩ := f
      obtain ⟨name', v'⟩ := f'
      obtain ⟨rfl, hplaces⟩ := hf.spread
      have hv : Stands schema g d d' .like v v' := hplaces _ List.mem_cons_self
      exact .skip _ fun op => compared_agree hv.permits ..
    · have hv : Stands schema g d d' .like v v' := hplaces _ (by simp [Place.under, hwhole, hname])
      simp only [operatorParts, hname, ↓reduceIte]
      refine .skip _ fun op => .bind (compared_agree (R := R) hv.permits ..) fun c c' hc => ?_
      simp only [pure_bind]
      exact .bind ih fun more more' hmore => .ok (List.Forall₂.cons hc hmore)

/-- A condition that stands for the whole value of a key. -/
theorem noted_agree {field : String} {spelling : Spelling} {path : String}
    {x x' : Result Condition} (h : Agree (Condition.Akin R) x x') :
    AgreeIn (Condition.OptionAkin R)
      (do
        note field spelling path
        let c ← (x : Result Condition)
        return some c : Keyed (Option Condition))
      (do
        note field spelling path
        let c ← (x' : Result Condition)
        return some c) :=
  .skip _ fun _ => .bind (.lift h) fun _ _ hc => .pure (.some hc)

theorem attributeValue_agree (h : Stands schema g d d' .operand v v') (field path : String) :
    AgreeIn (Condition.OptionAkin R) (attributeValue .ignore subject a field v path)
      (attributeValue .ignore subject a field v' path) := by
  have hcompared : Agree (Condition.Akin R) (compared .ignore subject a .eq v false path)
      (compared .ignore subject a .eq v' false path) := compared_agree h.permits ..
  cases Doc.paired_of_kind h.permits with
  | null => exact noted_agree hcompared
  | list items items' => exact noted_agree hcompared
  | record members members' =>
    have hentries := h.succ.entries rfl
    have hsame := isOperatorRecord_of_entries hentries
    have hfirst : firstKey members' = firstKey members := by
      cases hentries with
      | nil => rfl
      | cons he _ => exact he.key.symm
    simp only [attributeValue, hsame, hfirst]
    split
    · rename_i hoperators
      exact .skip _ fun _ => .bind (.lift (operatorParts_agree hoperators hentries path))
        fun _ _ hparts => .pure (Condition.allOf_akin hparts)
    · split
      · exact noted_agree hcompared
      · exact .throw _
  | other hother hother' =>
    cases v <;> cases hother <;> cases v' <;> cases hother' <;> exact noted_agree hcompared

end Attributes

section Aggregations

variable {k : AggregationKeys} (hg : ∀ v, v.kind ≠ .record → (g v).kind = v.kind)

include hg

theorem leaf_agree (h : Doc.Replaced g v v') (m : Measure) (op : Comparison) (path : String) :
    Agree (Condition.Akin (Doc.Replaced g)) (k.leaf m op v path) (k.leaf m op v' path) := by
  unfold AggregationKeys.leaf
  rw [Doc.isNull_of_replaced hg h]
  split
  · exact .fault _
  · split
    · exact .fault _
    · exact .ok (.aggregation _ _ m op h)

theorem operators_agree {members members' : Doc.Members} {whole : Doc.Members}
    (hplaces : ∀ key, (Comparison.ofGeneric? key).isSome →
      Place.measured ∈ p.under schema whole key)
    (h : List.Forall₂ (EntryStands schema g d d' p whole) members members') (m : Measure)
    (path : String) :
    Agree (List.Forall₂ (Condition.Akin (Doc.Replaced g))) (k.operators m members path)
      (k.operators m members' path) := by
  refine Agree.mapM h fun e e' he => ?_
  obtain ⟨name, v⟩ := e
  obtain ⟨name', v'⟩ := e'
  obtain ⟨rfl, hstands⟩ := he.spread
  simp only [genericComparison]
  split
  · rename_i op hop
    have hv : Stands schema g d d' .measured v v' := hstands _ (hplaces name (by simp [hop]))
    exact leaf_agree hg hv.permits m op _
  · exact .fault _

theorem measures_agree {members members' : Doc.Members}
    (h : Stands schema g d d' .measures (.record members) (.record members')) (m : Measure)
    (path : String) :
    Agree (List.Forall₂ (Condition.Akin (Doc.Replaced g))) (k.operators m members path)
      (k.operators m members' path) := by
  refine operators_agree hg (fun key hkey => ?_) (h.succ.entries rfl) m path
  simp [Place.under, hkey]

omit hg in
theorem count_of_kind (h : v.kind ≠ .record) (path : String) :
    k.count v path = (do
      let c ← k.leaf .countNodes .eq v path
      return [c]) := by
  cases v with
  | record members => exact absurd rfl h
  | _ => rfl

theorem count_agree (h : Stands schema g d d' .counted v v') (path : String) :
    Agree (List.Forall₂ (Condition.Akin (Doc.Replaced g))) (k.count v path) (k.count v' path) := by
  obtain ⟨hkind, hvalue⟩ := h.permits
  by_cases hrecord : v.kind = .record
  · cases Doc.paired_of_kind hkind with
    | record members members' =>
      have hentries := h.succ.entries rfl
      simp only [AggregationKeys.count, isOperatorRecord_of_entries hentries]
      split
      · rename_i hoperators
        refine operators_agree hg (fun key hkey => ?_) hentries _ path
        simp [Place.under, hoperators, hkey]
      · rename_i hoperators
        refine .flatten (Agree.mapM hentries fun e e' he => ?_)
        obtain ⟨name, v⟩ := e
        obtain ⟨name', v'⟩ := e'
        obtain ⟨rfl, hstands⟩ := he.spread
        by_cases hname : name = "nodes" ∨ name = "edges"
        · have hv : Stands schema g d d' .measures v v' :=
            hstands _ (by simp [Place.under, hoperators, hname])
          refine .skip _ fun m => .bind (hv.record hv.permits _) fun inner inner' hinner => ?_
          exact measures_agree hg hinner m _
        · have hfault : AggregationKeys.countMeasure name (childPath path name) =
              .error (.filter (childPath path name) .countKeys) := by
            unfold AggregationKeys.countMeasure
            split <;> simp_all
          simp only [hfault]
          exact .fault _
    | other hother hother' => rw [hother] at hrecord; cases hrecord
    | null => cases hrecord
    | list items items' => cases hrecord
  · have hreplaced : Doc.Replaced g v v' := by
      rw [hvalue hrecord]
      cases v with
      | record members => exact absurd rfl hrecord
      | _ => rfl
    rw [count_of_kind hrecord, count_of_kind (hkind ▸ hrecord)]
    exact .bind (leaf_agree hg hreplaced ..) fun _ _ hc => .ok (.cons hc .nil)

theorem attributePart_agree {find : String → Option Attribute} {whole : Doc.Members} {key : String}
    (h : ∀ q ∈ (Place.reduced find).under schema whole key, Stands schema g d d' q v v')
    (make : Attribute → Reduction → Measure) (path : String) :
    Agree (List.Forall₂ (Condition.Akin (Doc.Replaced g))) (k.attributePart find make path key v)
      (k.attributePart find make path key v') := by
  simp only [AggregationKeys.attributePart]
  split
  · rename_i a hfind
    have hv : Stands schema g d d' .reductions v v' := h _ (by simp [Place.under, hfind])
    refine .bind (hv.record hv.permits _) fun inner inner' hinner => ?_
    refine .flatten (Agree.mapM (hinner.succ.entries rfl) fun e e' he => ?_)
    obtain ⟨name, v⟩ := e
    obtain ⟨name', v'⟩ := e'
    obtain ⟨rfl, hstands⟩ := he.spread
    simp only
    split
    · exact .fault _
    · rename_i f hlookup
      have hv : Stands schema g d d' .measures v v' := hstands _ (by simp [Place.under, hlookup])
      refine .skip _ fun m => .bind (hv.record hv.permits _) fun inner inner' hinner => ?_
      exact measures_agree hg hinner m _
  · rename_i hfind
    split
    · exact .fault _
    · rename_i a f op hsuffixed
      have hv : Stands schema g d d' .measured v v' :=
        h _ (by simp [Place.under, hfind, hsuffixed])
      exact .skip _ fun m => .bind (leaf_agree hg hv.permits ..) fun _ _ hc => .ok (.cons hc .nil)

theorem attributes_agree {find : String → Option Attribute} {members members' : Doc.Members}
    (h : Stands schema g d d' (.reduced find) (.record members) (.record members'))
    (make : Attribute → Reduction → Measure) (path : String) :
    Agree (List.Forall₂ (Condition.Akin (Doc.Replaced g))) (k.attributes find make members path)
      (k.attributes find make members' path) := by
  refine .flatten (Agree.mapM (h.succ.entries rfl) fun e e' he => ?_)
  obtain ⟨key, v⟩ := e
  obtain ⟨key', v'⟩ := e'
  obtain ⟨rfl, hstands⟩ := he.spread
  exact attributePart_agree hg hstands make path

end Aggregations

section Junctions

variable {R : Doc → Doc → Prop} {found found' : List (Option Condition)}

theorem found_akin (h : List.Forall₂ (Condition.OptionAkin R) found found') :
    List.Forall₂ (Condition.Akin R) (found.filterMap id) (found'.filterMap id) := by
  induction h with
  | nil => exact .nil
  | cons hc _ ih =>
    cases hc with
    | none => exact ih
    | some hc => exact .cons hc ih

/-- A junction of kindred conditions is kindred; without conditions there is none. -/
theorem junction_akin {make : List Condition → Condition} {cs cs' : List Condition}
    (hmake : ∀ {cs cs'}, Condition.EachAkin R cs cs' → Condition.Akin R (make cs) (make cs'))
    (h : List.Forall₂ (Condition.Akin R) cs cs') :
    List.Forall₂ (Condition.Akin R) (if cs.isEmpty then [] else [make cs])
      (if cs'.isEmpty then [] else [make cs']) := by
  cases h with
  | nil => exact .nil
  | cons hc hrest => exact .cons (hmake (Condition.eachAkin_iff.mpr (.cons hc hrest))) .nil

theorem negated_akin {c c' : Option Condition} (h : Condition.OptionAkin R c c') :
    List.Forall₂ (Condition.Akin R) (c.map Condition.not).toList (c'.map Condition.not).toList := by
  cases h with
  | none => exact .nil
  | some hc => exact .cons (.not hc) .nil

end Junctions

section AggregationObjects

variable {r : Relationship} {k : AggregationKeys}
  {below below' : Doc.Members → String → Result (Option Condition)}
  (hbelow : ∀ members members' path,
    Stands schema g d d' (.aggregation r) (.record members) (.record members') →
      Agree (Condition.OptionAkin (Doc.Replaced g)) (below members path) (below' members' path))

include hbelow

/-- The items of a connective, of which each is an aggregation object. -/
theorem aggregationJunction_agree {make : List Condition → Condition}
    (hmake : ∀ {cs cs'}, Condition.EachAkin (Doc.Replaced g) cs cs' →
      Condition.Akin (Doc.Replaced g) (make cs) (make cs')) (here : String) :
    Stands schema g d d' (.aggregations r) v v' →
    Agree (List.Forall₂ (Condition.Akin (Doc.Replaced g)))
      (match v with
      | .list items => do
          let operands ← items.mapM fun item => do
            let members ← asRecord item here
            below members here
          let operands := operands.filterMap id
          return if operands.isEmpty then [] else [make operands]
      | _ => throw (.argument here .expectedList) : Result (List Condition))
      (match v' with
      | .list items => do
          let operands ← items.mapM fun item => do
            let members ← asRecord item here
            below' members here
          let operands := operands.filterMap id
          return if operands.isEmpty then [] else [make operands]
      | _ => throw (.argument here .expectedList)) := by
  intro h
  cases Doc.paired_of_kind h.permits with
  | null => exact .throw _
  | record members members' => exact .throw _
  | other hother hother' =>
    cases v <;> cases hother <;> cases v' <;> cases hother' <;> exact .throw _
  | list items items' =>
    refine .bind (Agree.mapM (h.items List.mem_cons_self) fun item item' hitem => ?_)
      fun found found' hfound => .ok (junction_akin hmake (found_akin hfound))
    exact .bind (hitem.record hitem.permits _) fun _ _ hmembers => hbelow _ _ _ hmembers

theorem aggregationEntry_agree (hg : ∀ v, v.kind ≠ .record → (g v).kind = v.kind)
    (hk : aggregationKeys? schema r = some k) {whole : Doc.Members} {key : String}
    (h : ∀ q ∈ (Place.aggregation r).under schema whole key, Stands schema g d d' q v v')
    (path : String) :
    Agree (List.Forall₂ (Condition.Akin (Doc.Replaced g))) (k.entry below path key v)
      (k.entry below' path key v') := by
  simp only [Place.under, aggregationPlaces, hk] at h
  simp only [AggregationKeys.entry]
  split
  · exact aggregationJunction_agree hbelow .all _ (h _ List.mem_cons_self)
  · exact aggregationJunction_agree hbelow .any _ (h _ List.mem_cons_self)
  · have hv : Stands schema g d d' (.aggregation r) v v' := h _ List.mem_cons_self
    refine .bind (hv.record hv.permits _) fun _ _ hmembers => ?_
    exact .bind (hbelow _ _ _ hmembers) fun _ _ hinner => .ok (negated_akin hinner)
  · exact count_agree hg (h _ List.mem_cons_self) _
  · have hv : Stands schema g d d' (.reduced k.target.attribute?) v v' := h _ List.mem_cons_self
    exact .bind (hv.record hv.permits _) fun _ _ hmembers => attributes_agree hg hmembers .node _
  · split
    · exact .throw _
    · rename_i properties hproperties
      have hv : Stands schema g d d' (.reduced properties.attribute?) v v' :=
        h _ (by simp [hproperties])
      exact .bind (hv.record hv.permits _) fun _ _ hmembers => attributes_agree hg hmembers .edge _
  · split
    · rename_i op hop
      have hv : Stands schema g d d' .measured v v' := h _ (by simp_all)
      exact .bind (leaf_agree hg hv.permits ..) fun _ _ hc => .ok (.cons hc .nil)
    · exact .throw _

theorem aggregationEntries_agree (hg : ∀ v, v.kind ≠ .record → (g v).kind = v.kind)
    (hk : aggregationKeys? schema r = some k) {whole members members' : Doc.Members}
    (h : List.Forall₂ (EntryStands schema g d d' (.aggregation r) whole) members members')
    (path : String) :
    Agree (List.Forall₂ (List.Forall₂ (Condition.Akin (Doc.Replaced g))))
      (members.mapM fun (key, value) => k.entry below path key value)
      (members'.mapM fun (key, value) => k.entry below' path key value) := by
  refine Agree.mapM h fun e e' he => ?_
  obtain ⟨key, v⟩ := e
  obtain ⟨key', v'⟩ := e'
  obtain ⟨rfl, hstands⟩ := he.spread
  exact aggregationEntry_agree hbelow hg hk hstands path

omit hbelow in
theorem aggregationAt_empty (d : Nat) (path : String) : k.conditionAt d [] path = .ok none := by
  cases d <;> rfl

omit hbelow in
/-- Aggregation objects are read alike, each to its own height. -/
theorem aggregationAt_agree (hg : ∀ v, v.kind ≠ .record → (g v).kind = v.kind)
    (hk : aggregationKeys? schema r = some k) (members members' : Doc.Members) (path : String)
    (h : Stands schema g d d' (.aggregation r) (.record members) (.record members')) :
    Agree (Condition.OptionAkin (Doc.Replaced g)) (k.conditionAt d members path)
      (k.conditionAt d' members' path) := by
  induction d generalizing d' members members' path with
  | zero =>
    obtain ⟨rfl, rfl⟩ := h.empty rfl (.inl rfl)
    rw [aggregationAt_empty, aggregationAt_empty]
    exact .ok .none
  | succ d ih =>
    cases d' with
    | zero =>
      obtain ⟨rfl, rfl⟩ := h.empty rfl (.inr rfl)
      rw [aggregationAt_empty, aggregationAt_empty]
      exact .ok .none
    | succ d' =>
      refine .bind (aggregationEntries_agree ih hg hk (h.entries rfl) path) fun _ _ hparts => ?_
      exact .ok (Condition.allOf_akin (List.rel_flatten hparts))

end AggregationObjects

end Resolve

end GraphSelection
