import GraphSelection.Proofs.Outcomes
import GraphSelection.Proofs.Resolved.Fields
import GraphSelection.Resolve.Operation
import Mathlib.Data.List.Induction

/-!
The entries of a request behind the parts of a plan. Every lookup and every aggregate, at every
depth, is read for an entry of the request, the request itself or a selection in it, and by a reader
that sees all that the entry selects.
-/
namespace GraphSelection.Selection

theorem listHeight_le_iff {selection : List Selection} {n : Nat} :
    listHeight selection ≤ n ↔ ∀ f ∈ selection, f.height ≤ n := by
  induction selection with
  | nil => simp [listHeight]
  | cons f rest ih => rw [listHeight, Nat.max_le, ih, List.forall_mem_cons]

theorem listHeight_of_mem_fragments {on : Fragments} {name : String} {fields : List Selection}
    (h : (name, fields) ∈ on) : listHeight fields ≤ fragmentsHeight on := by
  induction on with
  | nil => simp at h
  | cons entry rest ih =>
    obtain ⟨typeName, others⟩ := entry
    rw [fragmentsHeight]
    rcases List.mem_cons.mp h with heq | h
    · cases heq
      exact Nat.le_max_left _ _
    · exact Nat.le_trans (ih h) (Nat.le_max_right _ _)

theorem height_eq (f : Selection) : f.height = Resolve.heightOf f.selection f.on + 1 := by
  obtain ⟨name, responseName, args, selection, on⟩ := f
  rw [height]
  rfl

end GraphSelection.Selection

namespace GraphSelection.Plan

/-- The parts that read the store on their own, beside the fields and the changes. -/
def Part.IsRead : Part → Prop
  | .lookup _ => True
  | .aggregate _ => True
  | _ => False

theorem Mutation.not_isRead {ms : List Mutation} {p : Part} (h : p ∈ partsOf ms) : ¬ p.IsRead := by
  obtain ⟨m, rfl⟩ := change_of_mem_partsOf ms p h
  exact id

namespace Operation

variable {p : Part}

/-- What a creation reads is among the fields that it gives back. -/
theorem read_of_create {c : Create} (h : p ∈ (Operation.create c).parts) (hread : p.IsRead) :
    p ∈ Field.partsOf c.fields := by
  rcases List.mem_append.mp h with h | h
  · obtain ⟨n, _, h⟩ := List.mem_flatMap.mp h
    rcases List.mem_cons.mp h with rfl | h
    · exact hread.elim
    · exact absurd hread (Mutation.not_isRead h)
  · exact h

theorem read_of_update {u : Update} (h : p ∈ (Operation.update u).parts) (hread : p.IsRead) :
    p ∈ Field.partsOf u.fields := by
  rcases List.mem_append.mp h with h | h
  · rcases List.mem_cons.mp h with rfl | h
    · exact hread.elim
    · exact absurd hread (Mutation.not_isRead h)
  · exact h

theorem not_isRead_of_delete {d : Delete} (h : p ∈ (Operation.delete d).parts) : ¬ p.IsRead := by
  rcases List.mem_cons.mp h with rfl | h
  · exact id
  · exact Mutation.not_isRead h

end Operation

end GraphSelection.Plan

namespace GraphSelection.Resolve

open GraphSelection Plan

/-- The selection is among the given ones, or somewhere below them. -/
inductive Selected : List Selection → Selection → Prop
  | here {selection : List Selection} {f : Selection} (h : f ∈ selection) : Selected selection f
  | under {selection : List Selection} {g f : Selection} (hg : g ∈ selection)
      (h : Selected g.selection f) : Selected selection f
  | fragment {selection fields : List Selection} {g f : Selection} {name : String}
      (hg : g ∈ selection) (hfields : (name, fields) ∈ g.on) (h : Selected fields f) :
      Selected selection f

/-- The selection is below the entry, in its fields or in a fragment. -/
def Asked.Selects (q : Asked) (f : Selection) : Prop :=
  Selected q.selection f ∨ ∃ name fields, (name, fields) ∈ q.on ∧ Selected fields f

/-- The entry is the request itself or is selected in it. -/
def Asks (r : Request) (q : Asked) : Prop :=
  let root : Asked := ⟨r.args, r.selection, r.on⟩
  q = root ∨ ∃ f, root.Selects f ∧ q = .ofField f

/-- How many selections stand inside one another below the entry. -/
def Asked.height (q : Asked) : Nat := heightOf q.selection q.on

section Firsts

variable {α : Type} (key : α → String)

/-- Of the members with one key the first is kept. -/
def firstOf (xs : List α) : List α :=
  xs.foldl (fun kept x => if kept.any (key · == key x) then kept else kept ++ [x]) []

theorem firstOf_concat (xs : List α) (x : α) :
    firstOf key (xs ++ [x]) =
      if ∃ y ∈ firstOf key xs, key y = key x then firstOf key xs else firstOf key xs ++ [x] := by
  simp [firstOf, List.foldl_append]

theorem firstOf_subset (xs : List α) : firstOf key xs ⊆ xs := by
  induction xs using List.reverseRecOn with
  | nil => exact List.Subset.refl _
  | append_singleton xs x ih =>
    rw [firstOf_concat]
    split
    · exact List.subset_append_of_subset_left _ ih
    · exact List.append_subset.mpr
        ⟨List.subset_append_of_subset_left _ ih, List.subset_append_right _ _⟩

theorem nodup_firstOf (xs : List α) : ((firstOf key xs).map key).Nodup := by
  induction xs using List.reverseRecOn with
  | nil => exact List.nodup_nil
  | append_singleton xs x ih =>
    rw [firstOf_concat]
    split
    · exact ih
    · rename_i hnew
      rw [List.map_append, List.map_singleton]
      apply List.nodup_append.mpr
      refine ⟨ih, List.pairwise_singleton _ _, ?_⟩
      intro a ha b hb heq
      obtain ⟨y, hy, rfl⟩ := List.mem_map.mp ha
      rw [List.mem_singleton] at hb
      exact hnew ⟨y, hy, heq.trans hb⟩

theorem find?_firstOf (xs : List α) (name : String) :
    (firstOf key xs).find? (key · == name) = xs.find? (key · == name) := by
  induction xs using List.reverseRecOn with
  | nil => rfl
  | append_singleton xs x ih =>
    rw [firstOf_concat]
    by_cases hseen : ∃ y ∈ firstOf key xs, key y = key x
    · rw [if_pos hseen, ih, List.find?_append]
      cases hfound : xs.find? (key · == name) with
      | some found => rfl
      | none =>
        -- A member with the key is found before.
        obtain ⟨y, hy, hkey⟩ := hseen
        have hother : key y ≠ name := by
          simpa using List.find?_eq_none.mp hfound y (firstOf_subset key xs hy)
        have hskip : (key x == name) = false := by simpa [hkey] using hother
        simp [hskip]
    · rw [if_neg hseen, List.find?_append, List.find?_append, ih]

/-- Each key stands where it is first. -/
theorem keys_firstOf (xs : List α) : (firstOf key xs).map key = (xs.map key).eraseDups := by
  induction xs using List.reverseRecOn with
  | nil => rfl
  | append_singleton xs x ih =>
    have hmem : (∃ y ∈ firstOf key xs, key y = key x) ↔ key x ∈ xs.map key := by
      rw [← List.mem_map, ih, List.mem_eraseDups]
    rw [firstOf_concat, List.map_append, List.map_singleton, List.eraseDups_append, ← ih]
    unfold List.removeAll
    by_cases hseen : key x ∈ xs.map key
    · rw [if_pos (hmem.mpr hseen), List.filter_cons_of_neg (by simpa using hseen)]
      simp
    · rw [if_neg (mt hmem.mp hseen), List.filter_cons_of_pos (by simpa using hseen),
        List.map_append]
      rfl

end Firsts

section Selections

variable {selection selection' : List Selection} {f g : Selection}

theorem Selected.mono (h : Selected selection f) (hsub : selection ⊆ selection') :
    Selected selection' f := by
  cases h with
  | here h => exact .here (hsub h)
  | under hg h => exact .under (hsub hg) h
  | fragment hg hfields h => exact .fragment (hsub hg) hfields h

/-- What an entry among the selections selects is selected, too. -/
theorem Selected.inside (hg : g ∈ selection) (h : (Asked.ofField g).Selects f) :
    Selected selection f := by
  rcases h with h | ⟨name, fields, hfields, h⟩
  · exact .under hg h
  · exact .fragment hg hfields h

theorem Selected.head (h : Selected selection f) : ∃ g ∈ selection, Selected [g] f := by
  cases h with
  | here h => exact ⟨f, h, .here (List.mem_singleton_self f)⟩
  | under hg h => exact ⟨_, hg, .under (List.mem_singleton_self _) h⟩
  | fragment hg hfields h => exact ⟨_, hg, .fragment (List.mem_singleton_self _) hfields h⟩

theorem Selected.of_head (hg : g ∈ selection) (h : Selected [g] f) : Selected selection f :=
  h.mono (List.cons_subset.mpr ⟨hg, List.nil_subset _⟩)

/-- What is selected of one type stands among the common fields or in a fragment. -/
theorem mem_effective {q : Asked} {name : String} (h : f ∈ effective name q.selection q.on) :
    f ∈ q.selection ∨ ∃ fields, (name, fields) ∈ q.on ∧ f ∈ fields := by
  rcases List.mem_append.mp (firstOf_subset _ _ h) with h | h
  · exact .inl h
  · cases hfound : q.on.get? name with
    | none => simp [hfound] at h
    | some fields =>
      rw [hfound, Option.getD_some] at h
      exact .inr ⟨fields, Entries.mem_of_get? hfound, h⟩

theorem mem_nodeSelections {node : Selection} :
    node ∈ Setup.nodeSelections selection ↔ ∃ edges ∈ selection, edges.name = "edges" ∧
      node ∈ edges.selection ∧ node.name = "node" := by
  simp only [Setup.nodeSelections, List.mem_flatMap, List.mem_filter, beq_iff_eq, and_assoc]

theorem selects_effective {q : Asked} {name : String}
    (h : Selected (effective name q.selection q.on) f) : q.Selects f := by
  obtain ⟨g, hg, hbelow⟩ := h.head
  rcases mem_effective hg with hg | ⟨fields, hfields, hg⟩
  · exact .inl (.of_head hg hbelow)
  · exact .inr ⟨name, fields, hfields, .of_head hg hbelow⟩

/-- What is selected under the nodes of a connection is selected in it. -/
theorem selects_node {q : Asked} {edges node : Selection} {name : String}
    (hedges : edges ∈ q.selection) (hnode : node ∈ edges.selection)
    (h : Selected (effective name node.selection node.on) f) : q.Selects f :=
  .inl (.under hedges (.inside hnode (selects_effective h)))

theorem selects_merged {q : Asked} {e : Entity}
    (h : Selected (Setup.mergedFor e (Setup.nodeSelections q.selection)) f) : q.Selects f := by
  obtain ⟨g, hg, hbelow⟩ := h.head
  obtain ⟨node, hnode, hg⟩ := List.mem_flatMap.mp (firstOf_subset _ _ hg)
  obtain ⟨edges, hedges, _, hnode, _⟩ := mem_nodeSelections.mp hnode
  exact selects_node hedges hnode (.of_head hg hbelow)

theorem height_of_mem_effective {q : Asked} {name : String}
    (h : f ∈ effective name q.selection q.on) : f.height ≤ q.height := by
  have hleft : Selection.listHeight q.selection ≤ q.height := Nat.le_max_left _ _
  have hright : Selection.fragmentsHeight q.on ≤ q.height := Nat.le_max_right _ _
  rcases mem_effective h with h | ⟨fields, hfields, h⟩
  · exact Nat.le_trans (Selection.listHeight_le_iff.mp (Nat.le_refl _) f h) hleft
  · have hfragment : f.height ≤ Selection.listHeight fields :=
      Selection.listHeight_le_iff.mp (Nat.le_refl _) f h
    have hfragments : Selection.listHeight fields ≤ Selection.fragmentsHeight q.on :=
      Selection.listHeight_of_mem_fragments hfields
    omega

/-- What stands under a node of a connection is lower than the connection. -/
theorem height_of_mem_node {q : Asked} {edges node : Selection} {name : String}
    (hedges : edges ∈ q.selection) (hnode : node ∈ edges.selection)
    (h : f ∈ effective name node.selection node.on) : f.height ≤ q.height := by
  have hbelow : f.height ≤ (Asked.ofField node).height := height_of_mem_effective h
  have hnodeHeight : node.height ≤ Selection.listHeight edges.selection :=
    Selection.listHeight_le_iff.mp (Nat.le_refl _) node hnode
  have hedgesHeight : edges.height ≤ Selection.listHeight q.selection :=
    Selection.listHeight_le_iff.mp (Nat.le_refl _) edges hedges
  have hown : Selection.listHeight q.selection ≤ q.height := Nat.le_max_left _ _
  have hin : Selection.listHeight edges.selection ≤ heightOf edges.selection edges.on :=
    Nat.le_max_left _ _
  have hnodeEq : node.height = (Asked.ofField node).height + 1 := node.height_eq
  have hedgesEq := edges.height_eq
  omega

theorem height_merged (q : Asked) (e : Entity) :
    Selection.listHeight (Setup.mergedFor e (Setup.nodeSelections q.selection)) ≤ q.height := by
  apply Selection.listHeight_le_iff.mpr
  intro f hf
  obtain ⟨node, hnode, hf⟩ := List.mem_flatMap.mp (firstOf_subset _ _ hf)
  obtain ⟨edges, hedges, _, hnode, _⟩ := mem_nodeSelections.mp hnode
  exact height_of_mem_node hedges hnode hf

end Selections

namespace Setup

/-- The part is what is read for the entry from the schema, with all that the entry selects. -/
def ReadFor (s : Setup) (q : Asked) : Part → Prop
  | .lookup l => ∃ depth target via path, q.height ≤ depth ∧
      (∃ name, s.schema.target name = .ok target) ∧
      (s.readOf (s.fieldsAt depth) target via q path = .ok l ∨
        s.connectionOf (s.fieldsAt depth) target via q path = .ok l)
  | .aggregate a => (∃ via path, relatedAggregate s via q.args q.selection path = .ok a) ∨
      ∃ e path, rootAggregate s e q.args q.selection path = .ok a
  | _ => False

/-- A reader of selections up to a height, whose parts are read for what is selected. -/
def ReadsBelow (s : Setup) (n : Nat) (below : FieldReader) : Prop :=
  ∀ e selection path fields, Selection.listHeight selection ≤ n →
    below e selection path = .ok fields → ∀ p ∈ Field.partsOf fields, p.IsRead →
    ∃ f, Selected selection f ∧ s.ReadFor (.ofField f) p

section Lookups

variable {s : Setup} {below : FieldReader} {e : Entity} {via : Option Via} {q : Asked}
  {path : String}

theorem readScope_read {members : Option Doc.Members} {fields : List Field}
    {arrangement : Arrangement} {r : Read Field}
    (h : s.readScope e via members fields arrangement path = .ok r) :
    r.fields = fields ∧ r.page = arrangement.page ∧ r.scope.entity = e ∧
      r.scope.relationship = via.map Via.relationship := by
  simp only [readScope, guardedScope, except_bind_ok, except_pure_ok] at h
  obtain ⟨_, _, scope, ⟨_, _, _, _, rfl⟩, rfl⟩ := h
  exact ⟨rfl, rfl, rfl, rfl⟩

theorem branch_fields {rest : Option Doc.Members} {fields : List Field} {sort : List SortKey}
    {b : Read Field} (h : s.branch e via rest fields sort path = .ok b) :
    b.fields = withTypename e fields := by
  simp only [branch, except_bind_ok] at h
  obtain ⟨own, _, h⟩ := h
  exact (readScope_read h).1

theorem read_withTypename {fields : List Field} {p : Part}
    (h : p ∈ Field.partsOf (withTypename e fields)) (hp : p.IsRead) : p ∈ Field.partsOf fields := by
  unfold withTypename at h
  split at h
  · exact h
  · obtain ⟨f, hf, hl⟩ := Field.mem_partsOf.mp h
    rcases List.mem_append.mp hf with hf | hf
    · exact Field.mem_partsOf.mpr ⟨f, hf, hl⟩
    · rw [List.mem_singleton] at hf
      subst hf
      rw [Field.parts, List.mem_singleton] at hl
      subst hl
      exact hp.elim

variable {n : Nat} (hbelow : s.ReadsBelow n below) (hn : q.height ≤ n) {p : Part}
include hbelow hn

theorem entityRead_reads {r : Read Field} (h : s.entityRead below e via q path = .ok r)
    (hp : p ∈ Field.partsOf r.fields) (hread : p.IsRead) :
    ∃ f, q.Selects f ∧ s.ReadFor (.ofField f) p := by
  simp only [entityRead, except_bind_ok] at h
  obtain ⟨fields, hfields, _, _, _, _, hscope⟩ := h
  rw [(readScope_read hscope).1] at hp
  have hheight : Selection.listHeight (q.fieldsFor e) ≤ n :=
    Selection.listHeight_le_iff.mpr fun f hf => Nat.le_trans (height_of_mem_effective hf) hn
  obtain ⟨f, hf, hfor⟩ := hbelow e _ _ _ hheight hfields p hp hread
  exact ⟨f, selects_effective hf, hfor⟩

theorem compositeRead_reads {c : Composite} {r : CompositeRead Field}
    (h : s.compositeRead below c via q path = .ok r) (hp : p ∈ Field.branchParts r.branches)
    (hread : p.IsRead) : ∃ f, q.Selects f ∧ s.ReadFor (.ofField f) p := by
  simp only [compositeRead, except_bind_ok, except_pure_ok] at h
  obtain ⟨_, _, kept, _, _, _, branches, hbranches, rfl⟩ := h
  obtain ⟨b, hb, hp⟩ := Field.mem_branchParts.mp hp
  obtain ⟨⟨e, rest⟩, _, hmade⟩ := mem_of_mapM_ok hbranches b hb
  simp only [except_bind_ok] at hmade
  obtain ⟨fields, hfields, hbranch⟩ := hmade
  rw [branch_fields hbranch] at hp
  have hheight : Selection.listHeight (q.fieldsFor e) ≤ n :=
    Selection.listHeight_le_iff.mpr fun f hf => Nat.le_trans (height_of_mem_effective hf) hn
  obtain ⟨f, hf, hfor⟩ := hbelow e _ _ _ hheight hfields p (read_withTypename hp hread) hread
  exact ⟨f, selects_effective hf, hfor⟩

theorem compositeConnection_reads {c : Composite} {r : CompositeConnection Field}
    (h : s.compositeConnection below c via q path = .ok r)
    (hp : p ∈ Field.connectionBranchParts r.branches) (hread : p.IsRead) :
    ∃ f, q.Selects f ∧ s.ReadFor (.ofField f) p := by
  obtain ⟨parts, _, branches, _, _, hbranches, rfl⟩ := compositeConnection_iff.mp h
  obtain ⟨b, hb, hp⟩ := Field.mem_connectionBranchParts.mp hp
  obtain ⟨⟨e, rest⟩, _, hmade⟩ := mem_of_mapM_ok hbranches b hb
  obtain ⟨fields, read, hfields, hbranch, rfl⟩ := connectionBranch_ok.mp hmade
  simp only at hp
  rw [branch_fields hbranch] at hp
  obtain ⟨f, hf, hfor⟩ := hbelow e _ _ _ (Nat.le_trans (height_merged q e) hn) hfields p
    (read_withTypename hp hread) hread
  exact ⟨f, selects_merged hf, hfor⟩

theorem entityConnection_reads {c : Connection Field}
    (h : s.entityConnection below e via q path = .ok c) (hp : p ∈ Field.itemParts c.items)
    (hread : p.IsRead) : ∃ f, q.Selects f ∧ s.ReadFor (.ofField f) p := by
  simp only [entityConnection, except_bind_ok, except_pure_ok] at h
  obtain ⟨items, hitems, _, _, _, _, _, _, _, _, _, _, rfl⟩ := h
  obtain ⟨key, nodeKey, fields, properties, typename, hitem, hp⟩ := Field.mem_itemParts.mp hp
  obtain ⟨edges, hedges, node, hnode, here, hfields⟩ := items_node hitems hitem
  have hheight : Selection.listHeight (effective e.name node.selection node.on) ≤ n :=
    Selection.listHeight_le_iff.mpr fun f hf => Nat.le_trans (height_of_mem_node hedges hnode hf) hn
  obtain ⟨f, hf, hfor⟩ := hbelow e _ _ _ hheight hfields p hp hread
  exact ⟨f, selects_node hedges hnode hf, hfor⟩

/-- What is read inside a lookup for an entry is read for something below the entry. -/
theorem readOf_reads {target : Target} {outer : Lookup Field}
    (h : s.readOf below target via q path = .ok outer) (hp : p ∈ Field.lookupParts outer)
    (hread : p.IsRead) :
    p = .lookup outer ∨ ∃ f, q.Selects f ∧ s.ReadFor (.ofField f) p := by
  cases target with
  | entity e =>
    obtain ⟨r, hr, rfl⟩ := (except_map_ok ..).mp h
    exact (List.mem_cons.mp hp).imp id fun hp => entityRead_reads hbelow hn hr hp hread
  | composite c =>
    obtain ⟨r, hr, rfl⟩ := (except_map_ok ..).mp h
    exact (List.mem_cons.mp hp).imp id fun hp => compositeRead_reads hbelow hn hr hp hread

theorem connectionOf_reads {target : Target} {outer : Lookup Field}
    (h : s.connectionOf below target via q path = .ok outer) (hp : p ∈ Field.lookupParts outer)
    (hread : p.IsRead) :
    p = .lookup outer ∨ ∃ f, q.Selects f ∧ s.ReadFor (.ofField f) p := by
  cases target with
  | entity e =>
    obtain ⟨c, hc, rfl⟩ := (except_map_ok ..).mp h
    exact (List.mem_cons.mp hp).imp id fun hp => entityConnection_reads hbelow hn hc hp hread
  | composite c =>
    obtain ⟨r, hr, rfl⟩ := (except_map_ok ..).mp h
    exact (List.mem_cons.mp hp).imp id fun hp => compositeConnection_reads hbelow hn hr hp hread

end Lookups

theorem field_reads {s : Setup} {depth : Nat} {e : Entity} {path : String} {f : Selection}
    {found : Field} {p : Part} (hbelow : s.ReadsBelow depth (s.fieldsAt depth))
    (hf : f.height ≤ depth + 1) (h : s.field (s.fieldsAt depth) e path f = .ok found)
    (hp : p ∈ found.parts) (hread : p.IsRead) :
    ∃ g, Selected [f] g ∧ s.ReadFor (.ofField g) p := by
  have hheight : (Asked.ofField f).height ≤ depth := by
    rw [f.height_eq] at hf
    exact Nat.le_of_succ_le_succ hf
  -- The lookup of the field itself is read for the field, the others for what is below it.
  have hlookup : ∀ outer, p ∈ (Field.lookup f.key outer).parts →
      s.ReadFor (.ofField f) (.lookup outer) →
      (p ∈ Field.lookupParts outer →
        p = .lookup outer ∨ ∃ g, (Asked.ofField f).Selects g ∧ s.ReadFor (.ofField g) p) →
      ∃ g, Selected [f] g ∧ s.ReadFor (.ofField g) p := by
    intro outer hp houter hinside
    rcases List.mem_cons.mp hp with rfl | hp
    · exact hread.elim
    · rcases hinside hp with rfl | ⟨g, hg, hfor⟩
      · exact ⟨f, .here (List.mem_singleton_self f), houter⟩
      · exact ⟨g, .inside (List.mem_singleton_self f) hg, hfor⟩
  unfold field at h
  split at h
  · cases h
    rw [Field.parts, List.mem_singleton] at hp
    exact (hp ▸ hread : Part.IsRead (.field _)).elim
  · split at h
    · cases h
      split at hp
      · rw [Field.parts, List.mem_singleton] at hp
        exact (hp ▸ hread : Part.IsRead (.field _)).elim
      · rw [Field.parts, List.mem_singleton] at hp
        exact (hp ▸ hread : Part.IsRead (.field _)).elim
    · unfold relationshipField at h
      simp only at h
      split at h
      · simp only [except_bind_ok, except_pure_ok] at h
        obtain ⟨target, htarget, outer, houter, rfl⟩ := h
        exact hlookup outer hp
          ⟨_, _, _, _, hheight, ⟨_, ofSchema_ok htarget⟩, .inl houter⟩
          fun hp => readOf_reads hbelow hheight houter hp hread
      · split at h
        · simp only [except_bind_ok, except_pure_ok] at h
          obtain ⟨target, htarget, outer, houter, rfl⟩ := h
          exact hlookup outer hp
            ⟨_, _, _, _, hheight, ⟨_, ofSchema_ok htarget⟩, .inr houter⟩
            fun hp => connectionOf_reads hbelow hheight houter hp hread
        · split at h
          · simp only [except_bind_ok, except_pure_ok] at h
            obtain ⟨a, ha, rfl⟩ := h
            rcases List.mem_cons.mp hp with rfl | hp
            · exact hread.elim
            · rw [List.mem_singleton] at hp
              subst hp
              exact ⟨f, .here (List.mem_singleton_self f), .inl ⟨_, _, ha⟩⟩
          · simp only [except_throw_ok] at h

/-- The induction is on the depth of the reader. -/
theorem readsBelow_fieldsAt (s : Setup) (depth : Nat) : s.ReadsBelow depth (s.fieldsAt depth) := by
  induction depth with
  | zero =>
    intro e selection path fields _ h p hp
    cases h
    simp [Field.partsOf] at hp
  | succ depth ih =>
    intro e selection path fields hheight h p hp hread
    obtain ⟨found, hfound, hp⟩ := Field.mem_partsOf.mp hp
    obtain ⟨f, hf, hfield⟩ := mem_of_mapM_ok h found hfound
    have hlow : f.height ≤ depth + 1 := Selection.listHeight_le_iff.mp hheight f hf
    obtain ⟨g, hg, hfor⟩ := field_reads ih hlow hfield hp hread
    exact ⟨g, .of_head hf hg, hfor⟩

theorem returnedFields_reads {s : Setup} {e : Entity} {q : Asked} {path : String}
    {fields : List Field} {p : Part} (h : s.returnedFields e q path = .ok fields)
    (hp : p ∈ Field.partsOf fields) (hread : p.IsRead) :
    ∃ f, q.Selects f ∧ s.ReadFor (.ofField f) p := by
  have hheight : Selection.listHeight (q.fieldsFor e) ≤ q.height :=
    Selection.listHeight_le_iff.mpr fun f hf => height_of_mem_effective hf
  obtain ⟨f, hf, hfor⟩ := readsBelow_fieldsAt s _ e _ _ _ hheight h p hp hread
  exact ⟨f, selects_effective hf, hfor⟩

theorem create_fields {s : Setup} {e : Entity} {q : Asked} {path : String} {c : Create}
    (h : s.create e q path = .ok c) :
    c.entity = e ∧ s.returnedFields e q path = .ok c.fields := by
  simp only [create, except_bind_ok] at h
  obtain ⟨values, _, h⟩ := h
  split at h
  · simp only [except_bind_ok, except_throw_ok, false_and, exists_false] at h
  · simp only [except_bind_ok, except_pure_ok] at h
    obtain ⟨nodes, _, fields, hfields, rfl⟩ := h
    exact ⟨rfl, hfields⟩

theorem update_fields {s : Setup} {e : Entity} {q : Asked} {path : String} {u : Update}
    (h : s.update e q path = .ok u) :
    u.entity = e ∧ s.returnedFields e q path = .ok u.fields := by
  simp only [update, except_bind_ok, except_pure_ok] at h
  obtain ⟨_, _, _, _, _, _, _, _, _, _, _, _, _, _, _, _, _, _, fields, hfields, rfl⟩ := h
  exact ⟨rfl, hfields⟩

/-- Whatever a plan reads is read for an entry of the request. -/
theorem operation_reads {s : Setup} {r : Request} {o : Operation} (h : s.operation r = .ok o)
    {p : Part} (hp : p ∈ o.parts) (hread : p.IsRead) : ∃ q, Asks r q ∧ s.ReadFor q p := by
  have hbelow := readsBelow_fieldsAt s (heightOf r.selection r.on)
  have hasked : ∀ outer, s.ReadFor ⟨r.args, r.selection, r.on⟩ (.lookup outer) →
      (p = .lookup outer ∨
        ∃ f, Asked.Selects ⟨r.args, r.selection, r.on⟩ f ∧ s.ReadFor (.ofField f) p) →
      ∃ q, Asks r q ∧ s.ReadFor q p := by
    rintro outer houter (rfl | ⟨f, hf, hfor⟩)
    · exact ⟨_, .inl rfl, houter⟩
    · exact ⟨_, .inr ⟨f, hf, rfl⟩, hfor⟩
  have hreturned : ∀ e fields,
      s.returnedFields e ⟨r.args, r.selection, r.on⟩ r.entity = .ok fields →
      p ∈ Field.partsOf fields → ∃ q, Asks r q ∧ s.ReadFor q p := by
    intro e fields hfields hp
    obtain ⟨f, hf, hfor⟩ := returnedFields_reads hfields hp hread
    exact ⟨_, .inr ⟨f, hf, rfl⟩, hfor⟩
  simp only [operation, except_bind_ok] at h
  obtain ⟨target, htarget, h⟩ := h
  have hknown : ∃ name, s.schema.target name = .ok target := ⟨_, ofSchema_ok htarget⟩
  cases target with
  | entity e =>
    simp only [entityOperation] at h
    split at h
    · obtain ⟨outer, houter, rfl⟩ := (except_map_ok ..).mp h
      exact hasked outer ⟨_, _, _, _, Nat.le_refl _, hknown, .inl houter⟩
        (readOf_reads hbelow (Nat.le_refl _) houter hp hread)
    · obtain ⟨outer, houter, rfl⟩ := (except_map_ok ..).mp h
      exact hasked outer ⟨_, _, _, _, Nat.le_refl _, hknown, .inr houter⟩
        (connectionOf_reads hbelow (Nat.le_refl _) houter hp hread)
    · obtain ⟨a, ha, rfl⟩ := (except_map_ok ..).mp h
      rw [Operation.parts, List.mem_singleton] at hp
      subst hp
      exact ⟨_, .inl rfl, .inr ⟨e, _, ha⟩⟩
    · obtain ⟨c, hc, rfl⟩ := (except_map_ok ..).mp h
      exact hreturned e c.fields (create_fields hc).2 (Operation.read_of_create hp hread)
    · obtain ⟨u, hu, rfl⟩ := (except_map_ok ..).mp h
      exact hreturned e u.fields (update_fields hu).2 (Operation.read_of_update hp hread)
    · obtain ⟨d, hd, rfl⟩ := (except_map_ok ..).mp h
      exact absurd hread (Operation.not_isRead_of_delete hp)
  | composite c =>
    simp only [compositeOperation] at h
    split at h
    · obtain ⟨outer, houter, rfl⟩ := (except_map_ok ..).mp h
      exact hasked outer ⟨_, _, _, _, Nat.le_refl _, hknown, .inl houter⟩
        (readOf_reads hbelow (Nat.le_refl _) houter hp hread)
    · obtain ⟨outer, houter, rfl⟩ := (except_map_ok ..).mp h
      exact hasked outer ⟨_, _, _, _, Nat.le_refl _, hknown, .inr houter⟩
        (connectionOf_reads hbelow (Nat.le_refl _) houter hp hread)
    · cases h
    · cases h
    · cases h
    · cases h

end Setup

end GraphSelection.Resolve
