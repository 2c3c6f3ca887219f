import GraphSelection.Proofs.Restated.Documents
import GraphSelection.Resolve.Fields

/-!
Selections that restate one another, taken apart. They have the same names and keys all the way
down, so what is read without arguments is read the same.
-/
namespace GraphSelection.Resolve

open GraphSelection Plan

variable {schema : Schema} {g : Doc → Doc} {views : List View}

theorem selectionRestated_iff {f f' : Selection} :
    SelectionRestated schema g views f f' ↔
      f.name = f'.name ∧ f.responseName = f'.responseName ∧
        DocRestated schema g (views.flatMap (View.arguments schema f.name)) (.record f.args)
          (.record f'.args) ∧
        SelectionsRestated schema g (views.flatMap (View.below schema f.name)) f.selection
          f'.selection ∧
        FragmentsRestated schema g (views.flatMap (View.below schema f.name)) f.on f'.on := by
  cases f
  cases f'
  exact Iff.rfl

theorem selectionsRestated_iff {fields fields' : List Selection} :
    SelectionsRestated schema g views fields fields' ↔
      List.Forall₂ (SelectionRestated schema g views) fields fields' := by
  induction fields generalizing fields' with
  | nil => cases fields' <;> simp [SelectionsRestated]
  | cons f rest ih => cases fields' <;> simp [SelectionsRestated, ih]

-- Fewer views ask for less.
mutual
theorem selectionRestated_mono {views fewer : List View} (hsub : fewer ⊆ views)
    (f f' : Selection) (h : SelectionRestated schema g views f f') :
    SelectionRestated schema g fewer f f' := by
  match f, f' with
  | ⟨name, responseName, args, selection, on⟩, ⟨name', responseName', args', selection', on'⟩ =>
    obtain ⟨hname, hresponse, hargs, hselection, hon⟩ := selectionRestated_iff.mp h
    have hbelow : ∀ {α : Type} (f : View → List α), fewer.flatMap f ⊆ views.flatMap f := by
      intro α f q hq
      obtain ⟨p, hp, hq⟩ := List.mem_flatMap.mp hq
      exact List.mem_flatMap.mpr ⟨p, hsub hp, hq⟩
    exact selectionRestated_iff.mpr ⟨hname, hresponse, docRestated_mono (hbelow _) _ _ hargs,
      selectionsRestated_mono (hbelow _) selection selection' hselection,
      fragmentsRestated_mono (hbelow _) on on' hon⟩
termination_by structural f
theorem selectionsRestated_mono {views fewer : List View} (hsub : fewer ⊆ views)
    (fields fields' : List Selection)
    (h : SelectionsRestated schema g views fields fields') :
    SelectionsRestated schema g fewer fields fields' := by
  match fields, fields' with
  | [], [] => trivial
  | f :: rest, f' :: rest' =>
    rw [SelectionsRestated] at h ⊢
    exact ⟨selectionRestated_mono hsub f f' h.1, selectionsRestated_mono hsub rest rest' h.2⟩
  | [], _ :: _ => exact h
  | _ :: _, [] => exact h
termination_by structural fields
theorem fragmentsRestated_mono {views fewer : List View} (hsub : fewer ⊆ views)
    (on on' : List (String × List Selection)) (h : FragmentsRestated schema g views on on') :
    FragmentsRestated schema g fewer on on' := by
  match on, on' with
  | [], [] => trivial
  | (typeName, fields) :: rest, (typeName', fields') :: rest' =>
    rw [FragmentsRestated] at h ⊢
    exact ⟨h.1, selectionsRestated_mono hsub fields fields' h.2.1,
      fragmentsRestated_mono hsub rest rest' h.2.2⟩
  | [], _ :: _ => exact h
  | _ :: _, [] => exact h
termination_by structural on
end

theorem get?_of_fragments {on on' : Fragments} (h : FragmentsRestated schema g views on on')
    (typeName : String) :
    SelectionsRestated schema g views ((on.get? typeName).getD [])
      ((on'.get? typeName).getD []) := by
  induction on generalizing on' with
  | nil =>
    cases on' with
    | nil => trivial
    | cons e' rest' => exact h.elim
  | cons e rest ih =>
    cases on' with
    | nil => exact h.elim
    | cons e' rest' =>
      obtain ⟨name, fields⟩ := e
      obtain ⟨name', fields'⟩ := e'
      obtain ⟨rfl, hfields, hrest⟩ := h
      by_cases hname : typeName = name
      · subst hname
        simp only [Entries.get?, List.lookup_cons, beq_self_eq_true, Option.getD_some]
        exact hfields
      · have hfalse : (typeName == name) = false := beq_false_of_ne hname
        simpa only [Entries.get?, List.lookup_cons, hfalse] using ih hrest

section Keys

variable {f f' : Selection} {fields fields' : List Selection}

theorem SelectionRestated.name (h : SelectionRestated schema g views f f') : f.name = f'.name :=
  (selectionRestated_iff.mp h).1

theorem SelectionRestated.key (h : SelectionRestated schema g views f f') : f.key = f'.key := by
  obtain ⟨hname, hresponse, _⟩ := selectionRestated_iff.mp h
  simp only [Selection.key, hname, hresponse]

theorem SelectionRestated.selection (h : SelectionRestated schema g views f f') :
    SelectionsRestated schema g (views.flatMap (View.below schema f.name)) f.selection
      f'.selection :=
  (selectionRestated_iff.mp h).2.2.2.1

theorem firstOfKey_restated (h : SelectionsRestated schema g views fields fields') :
    SelectionsRestated schema g views (firstOfKey fields) (firstOfKey fields') := by
  rw [selectionsRestated_iff] at h ⊢
  refine List.rel_foldl (fun kept kept' hkept f f' hf => ?_) .nil h
  have hany : (kept.any (·.key == f.key)) = kept'.any (·.key == f'.key) := by
    induction hkept with
    | nil => rfl
    | cons hfirst _ ih => rw [List.any_cons, List.any_cons, ih, hfirst.key, hf.key]
  simp only [hany]
  split
  · exact hkept
  · exact List.rel_append hkept (.cons hf .nil)

theorem effective_restated (typeName : String) {on on' : Fragments}
    (h : SelectionsRestated schema g views fields fields')
    (hon : FragmentsRestated schema g views on on') :
    SelectionsRestated schema g views (effective typeName fields on)
      (effective typeName fields' on') := by
  refine firstOfKey_restated (selectionsRestated_iff.mpr ?_)
  exact List.rel_append (selectionsRestated_iff.mp h)
    (selectionsRestated_iff.mp (get?_of_fragments hon typeName))

end Keys

section Heights

mutual
theorem height_restated {views : List View} (f f' : Selection)
    (h : SelectionRestated schema g views f f') :
    f'.height = f.height := by
  match f, f' with
  | ⟨name, responseName, args, selection, on⟩, ⟨name', responseName', args', selection', on'⟩ =>
    obtain ⟨_, _, _, hselection, hon⟩ := selectionRestated_iff.mp h
    simp only [Selection.height, listHeight_restated selection selection' hselection,
      fragmentsHeight_restated on on' hon]
termination_by structural f
theorem listHeight_restated {views : List View} (fields fields' : List Selection)
    (h : SelectionsRestated schema g views fields fields') :
    Selection.listHeight fields' = Selection.listHeight fields := by
  match fields, fields' with
  | [], [] => rfl
  | f :: rest, f' :: rest' =>
    rw [SelectionsRestated] at h
    simp only [Selection.listHeight, height_restated f f' h.1, listHeight_restated rest rest' h.2]
  | [], _ :: _ => exact h.elim
  | _ :: _, [] => exact h.elim
termination_by structural fields
theorem fragmentsHeight_restated {views : List View} (on on' : List (String × List Selection))
    (h : FragmentsRestated schema g views on on') :
    Selection.fragmentsHeight on' = Selection.fragmentsHeight on := by
  match on, on' with
  | [], [] => rfl
  | (typeName, fields) :: rest, (typeName', fields') :: rest' =>
    rw [FragmentsRestated] at h
    simp only [Selection.fragmentsHeight, listHeight_restated fields fields' h.2.1,
      fragmentsHeight_restated rest rest' h.2.2]
  | [], _ :: _ => exact h.elim
  | _ :: _, [] => exact h.elim
termination_by structural on
end

end Heights

section WithoutArguments

-- What is read from names and keys only is read the same.

theorem mapM_same {ε α β γ : Type} {R : α → β → Prop} {f : α → Except ε γ} {f' : β → Except ε γ}
    {xs : List α} {ys : List β} (h : List.Forall₂ R xs ys) (hf : ∀ a b, R a b → f a = f' b) :
    xs.mapM f = ys.mapM f' := by
  induction h with
  | nil => rfl
  | cons hr _ ih => rw [List.mapM_cons, List.mapM_cons, hf _ _ hr, ih]

variable {f f' : Selection} {fields fields' : List Selection}

theorem reductionItem_restated (h : SelectionRestated schema g views f f') (a : Attribute)
    (make : Attribute → Reduction → Measure) (path : String) :
    reductionItem a make path f = reductionItem a make path f' := by
  simp only [reductionItem, h.name, h.key]

theorem attributeGroup_restated (h : SelectionsRestated schema g views fields fields')
    (key : String) (a : Attribute) (make : Attribute → Reduction → Measure) (path : String) :
    attributeGroup key a fields make path = attributeGroup key a fields' make path := by
  have hitems := mapM_same (selectionsRestated_iff.mp h) fun _ _ hf =>
    reductionItem_restated hf a make path
  simp only [attributeGroup, hitems]

theorem attributeGroups_restated (h : SelectionsRestated schema g views fields fields')
    (owner : String) (find : String → Option Attribute) (make : Attribute → Reduction → Measure)
    (typeName path : String) :
    attributeGroups owner find make fields typeName path =
      attributeGroups owner find make fields' typeName path := by
  refine mapM_same (selectionsRestated_iff.mp h) fun f f' hf => ?_
  simp only [hf.name, hf.key, attributeGroup_restated hf.selection]

theorem countItems_restated (h : SelectionsRestated schema g views fields fields')
    (isTraversed : Bool) :
    fields.mapM (countItem isTraversed) = fields'.mapM (countItem isTraversed) := by
  refine mapM_same (selectionsRestated_iff.mp h) fun f f' hf => ?_
  simp only [countItem, hf.name, hf.key]

theorem isEmpty_restated (h : SelectionsRestated schema g views fields fields') :
    fields.isEmpty = fields'.isEmpty := by
  cases selectionsRestated_iff.mp h <;> rfl

theorem aggregateItems_restated (h : SelectionsRestated schema g views fields fields')
    (k : AggregateKeys) (path : String) : k.items fields path = k.items fields' path := by
  refine mapM_same (selectionsRestated_iff.mp h) fun f f' hf => ?_
  have hselection := hf.selection
  simp only [AggregateKeys.item, hf.name, hf.key, isEmpty_restated hselection,
    countItems_restated hselection, attributeGroups_restated hselection,
    attributeGroup_restated hselection]

theorem pageInfo_restated (h : SelectionsRestated schema g views fields fields')
    (path : String) : fields.mapM (pageInfoField path) = fields'.mapM (pageInfoField path) := by
  refine mapM_same (selectionsRestated_iff.mp h) fun f f' hf => ?_
  simp only [pageInfoField, hf.name, hf.key]

theorem edgeFields_restated (h : SelectionsRestated schema g views fields fields')
    (properties : PropertySet) :
    fields.mapM (edgeField properties) = fields'.mapM (edgeField properties) := by
  refine mapM_same (selectionsRestated_iff.mp h) fun f f' hf => ?_
  simp only [edgeField, hf.name, hf.key]

end WithoutArguments

end GraphSelection.Resolve
