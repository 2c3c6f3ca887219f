import GraphSelection.Program.Fields
import GraphSelection.Proofs.Scoped.Scopes

/-!
Branches of a composite. Each branch has names of its own and sees the node of the scope around
only when it takes it in itself; all branches return the same columns. What is merged is ordered
by these columns, or by keys of the merged maps.
-/
namespace GraphSelection.Scoping

open Cypher Plan Program Minting

section

variable {returns : String → Names}

/-- A context beside another one, with the same scope around. -/
structure Beside (ctx other : Context) : Prop where
  parents : other.parents = ctx.parents
  result : other.result = ctx.result
  relationship : other.relationship.isSome = ctx.relationship.isSome

theorem Beside.around {ctx other : Context} (h : Beside ctx other) :
    around other = Scoping.around ctx := by
  simp [Scoping.around, h.parents]

theorem Beside.reached {ctx other : Context} (h : Beside ctx other)
    {relationship : Option Relationship} (hreached : Reached ctx relationship) :
    Reached other relationship := by
  intro hsome
  exact hreached (h.relationship ▸ hsome)

theorem opens_branchContext {ctx branch : Context} {isFirst : Bool} {s t : Supply}
    (hopens : Opens ctx s.next) (h : branchContext ctx isFirst s = .ok (branch, t)) :
    s.next ≤ t.next ∧ Opens branch t.next ∧ Beside ctx branch := by
  unfold branchContext at h
  split at h
  · rw [pure_ok] at h
    obtain ⟨rfl, rfl⟩ := h
    exact ⟨Nat.le_refl _, hopens, rfl, rfl, rfl⟩
  · simp only [Context.freshSibling, bind_ok, fresh_ok] at h
    obtain ⟨subject, _, ⟨rfl, rfl⟩, h⟩ := h
    have hclear : ∀ m, Clear (around ctx) s.next m := Clear.of_older hopens.aroundOlder
    have hsubject := Within.single s "this" (by decide)
    cases hrel : ctx.relationship with
    | none =>
      simp only [hrel, pure_ok] at h
      obtain ⟨rfl, rfl⟩ := h
      refine ⟨Nat.le_succ _, ⟨?_, ?_, ?_, ?_⟩, rfl, rfl, ?_⟩
      · exact hsubject.older
      · exact fun x hx => (hopens.aroundOlder x hx).mono (Nat.le_succ _)
      · exact hsubject.fresh (hclear _)
      · exact fun _ => hopens.rooted hrel
      · simp [Context.sibling, hrel]
    | some r =>
      simp only [hrel, bind_ok, fresh_ok, pure_ok] at h
      obtain ⟨edge, _, ⟨rfl, rfl⟩, rfl, rfl⟩ := h
      have hedge := Within.single { s with next := s.next + 1 } "this" (by decide)
      have hboth : Within [_, _] s.next (s.next + 2) :=
        (hedge.mono (Nat.le_succ _) (Nat.le_refl _)).append
          (hsubject.mono (Nat.le_refl _) (Nat.le_succ _))
      refine ⟨by simp only; omega, ⟨?_, ?_, ?_, ?_⟩, rfl, rfl, ?_⟩
      · exact hboth.older
      · exact fun x hx => (hopens.aroundOlder x hx).mono (by simp only; omega)
      · exact hboth.fresh (hclear _)
      · simp [Context.sibling]
      · simp [Context.sibling, hrel]

/-- The node of a branch is that of the scope, or a new one. -/
theorem subject_branchContext {ctx branch : Context} {isFirst : Bool} {s t : Supply}
    (h : branchContext ctx isFirst s = .ok (branch, t)) :
    (isFirst = true ∧ branch = ctx) ∨ Within [branch.subject] s.next t.next := by
  unfold branchContext at h
  split at h
  · rename_i hfirst
    rw [pure_ok] at h
    exact .inl ⟨hfirst, h.1.symm⟩
  · simp only [Context.freshSibling, bind_ok, fresh_ok] at h
    obtain ⟨subject, _, ⟨rfl, rfl⟩, h⟩ := h
    have hsubject := Within.single s "this" (by decide)
    cases hrel : ctx.relationship with
    | none =>
      simp only [hrel, pure_ok] at h
      obtain ⟨rfl, rfl⟩ := h
      exact .inr hsubject
    | some r =>
      simp only [hrel, bind_ok, fresh_ok, pure_ok] at h
      obtain ⟨edge, _, ⟨rfl, rfl⟩, rfl, rfl⟩ := h
      exact .inr (hsubject.mono (Nat.le_refl _) (Nat.le_succ _))

/-- A branch takes in the node of the scope around, where there is one. -/
theorem importParent_ok (returns : String → Names) {ctx : Context} {start : List Clause}
    {s t : Supply} (h : importParent ctx s = .ok (start, t)) :
    s = t ∧ ∀ body columns, Gives returns (around ctx) body columns →
      Branch returns (around ctx) (start ++ body) columns := by
  unfold importParent at h
  split at h
  · rename_i hroot
    rw [pure_ok] at h
    obtain ⟨rfl, rfl⟩ := h
    have haround : around ctx = [] := by
      have hparents := List.isEmpty_iff.mp hroot
      simp [around, hparents]
    rw [haround]
    exact ⟨rfl, fun body columns hbody => .alone hbody⟩
  · simp only [bind_ok, lift_ok, pure_ok] at h
    obtain ⟨parent, _, ⟨hparent, rfl⟩, rfl, rfl⟩ := h
    rw [parent_ok hparent]
    exact ⟨rfl, fun body columns hbody => .importing (fun x hx => hx) hbody⟩

theorem within_sortColumns {sort : List SortKey} {columns : List String} {s t : Supply}
    (h : sortColumns sort s = .ok (columns, t)) :
    s.next ≤ t.next ∧ Within columns s.next t.next ∧ columns.length = sort.length := by
  induction sort generalizing s columns with
  | nil =>
    simp only [sortColumns, pure_ok] at h
    obtain ⟨rfl, rfl⟩ := h
    exact ⟨Nat.le_refl _, .nil _ _, rfl⟩
  | cons key rest ih =>
    simp only [sortColumns, bind_ok, fresh_ok, pure_ok] at h
    obtain ⟨name, _, ⟨rfl, rfl⟩, names, u, hrest, rfl, rfl⟩ := h
    obtain ⟨hle, hwithin, hlength⟩ := ih hrest
    simp only at hle hwithin
    refine ⟨by omega, ?_, by simp [hlength]⟩
    exact ((Within.single s "sort" (by decide)).mono (Nat.le_refl _) hle).append
      (hwithin.mono (Nat.le_succ _) (Nat.le_refl _))

theorem yields_branchKeys {ctx : Context} {edges : Bool} {needs : Names} {sort : List SortKey}
    {columns : List String} {calls : List Clause} {keys : List (String × Expr)} {s t : Supply}
    (hfits : ∀ key ∈ sort, key.target.Fits (Honest returns) edges)
    (hsubject : ctx.subject ∈ needs) (hedge : edges = true → ∀ x ∈ ctx.relationship, x ∈ needs)
    (hold : Older s.next ctx.subject)
    (h : branchKeys ctx sort columns s = .ok ((calls, keys), t)) :
    (∃ names, Yields returns needs s.next t.next calls names (keys.map Prod.snd)) ∧
      (sort.length = columns.length → keys.map Prod.fst = columns) := by
  simp only [branchKeys, bind_ok, pure_ok, Prod.mk.injEq] at h
  obtain ⟨⟨calls', values⟩, u, hvalues, ⟨rfl, rfl⟩, rfl⟩ := h
  have hsome : ∀ key ∈ (sort.zip columns).map Prod.fst,
      key.target.Fits (Honest returns) edges := by
    intro key hkey
    obtain ⟨p, hp, rfl⟩ := List.mem_map.mp hkey
    exact hfits p.1 (List.of_mem_zip hp).1
  obtain ⟨⟨names, hyields⟩, hlength⟩ := yields_sortValues hsome hsubject hedge hold hvalues
  have hmem : ∀ e ∈ (columns.zip (values.map OrderKey.expression)).map Prod.snd,
      e ∈ values.map OrderKey.expression := by
    intro e he
    obtain ⟨p, hp, rfl⟩ := List.mem_map.mp he
    exact (List.of_mem_zip hp).2
  refine ⟨⟨names, hyields.rewrap (fun e he => hyields.notStar e (hmem e he)) ?_⟩, ?_⟩
  · intro scope _ hrefers e he
    exact hrefers e (hmem e he)
  · intro heq
    refine List.map_fst_zip ?_
    simp only [List.length_map, List.length_zip] at hlength ⊢
    omega

theorem unionCall_ok {composite column : String} {bodies : List (List Clause)} {union : Clause}
    (h : unionCall composite bodies column = .ok union) :
    (bodies = [] ∧ union = .unwind (.list []) column) ∨
      (bodies ≠ [] ∧ union = .call [] [.union bodies]) := by
  unfold unionCall at h
  split at h
  · cases h
    exact .inl ⟨rfl, rfl⟩
  · split at h
    · simp at h
    · cases h
      exact .inr ⟨by simp, rfl⟩

/-- The merged rows are ordered by columns that all of them have. -/
theorem runs_mergedWindow {column : String} {sort : List SortKey} {columns : List String}
    {page : Page} {clauses : List Clause} {scope : Names} {s t : Supply}
    (hcolumn : column ∈ scope) (hcolumns : ∀ x ∈ columns, x ∈ scope)
    (h : mergedWindow column sort columns page s = .ok (clauses, t)) :
    s.next ≤ t.next ∧ ∃ after, Runs returns scope clauses after ∧ column ∈ after := by
  unfold mergedWindow at h
  split at h
  · rw [pure_ok] at h
    obtain ⟨rfl, rfl⟩ := h
    exact ⟨Nat.le_refl _, scope, .nil, hcolumn⟩
  · simp only [bind_ok, pure_ok] at h
    obtain ⟨b, u, hb, rfl, rfl⟩ := h
    obtain ⟨hle, hclosed⟩ := closed_bounds returns hb
    have hexposed : exposed scope (Column.var column :: columns.map Column.var) =
        column :: columns := exposed_vars scope (column :: columns)
    refine ⟨hle, _, .single (.carry false ?_ ?_ ?_ ?_ ?_), ?_⟩
    · intro c hc
      rcases List.mem_cons.mp hc with rfl | hc
      · exact .var hcolumn
      · obtain ⟨x, hx, rfl⟩ := List.mem_map.mp hc
        exact .var (hcolumns x hx)
    · intro k hk
      rw [hexposed]
      obtain ⟨p, hp, rfl⟩ := List.mem_map.mp hk
      exact .var (List.mem_cons_of_mem _ (List.of_mem_zip hp).2)
    · exact fun e he => hclosed.skip e he _
    · exact fun e he => hclosed.limit e he _
    · simp
    · rw [hexposed]
      exact List.mem_cons_self

theorem gives_compositeResult {ctx : Context} {relationship : Option Relationship}
    {column : String} {scope : Names} (h : column ∈ scope) :
    Gives returns scope [compositeResult ctx relationship column] [ctx.result] := by
  cases relationship with
  | none => exact gives_give _ (.var h) (by simp)
  | some r =>
    refine gives_give _ (refers_collected _ (.var h)) ?_
    unfold collected
    split <;> simp

theorem gives_edgesResult {entries : List (String × Expr)} {scope : Names}
    (typename : Option (String × String)) (result : String)
    (h : ∀ p ∈ entries, Refers returns scope p.2) :
    Gives returns scope [edgesResult entries typename result] [result] := by
  refine gives_give _ (refers_apply _ (.map ?_)) (by simp)
  intro p hp
  rcases List.mem_append.mp hp with hp | hp
  · exact h p hp
  · obtain ⟨_, _, rfl⟩ := Option.map_eq_some_iff.mp (Option.mem_toList.mp hp)
    exact .literal _

section Merged

variable {l : EdgeList} {sort : List SortKey} {columns : List String} {s t : Supply}

theorem yields_mergedEdgesCall {node properties : Option String}
    {typename : Option (String × String)} {calls : List Clause} {e : Expr}
    (hbounds : l.bounds.All (Closed returns)) (hold : Older s.next l.edges)
    (h : mergedEdgesCall l sort columns node properties typename s = .ok ((calls, e), t)) :
    ∃ names, Yields returns [l.edges, l.total] s.next t.next calls names [e] := by
  simp only [mergedEdgesCall, bind_ok, fresh_ok, pure_ok, Prod.mk.injEq] at h
  obtain ⟨result, u, ⟨rfl, rfl⟩, edge, _, ⟨rfl, rfl⟩, ⟨rfl, rfl⟩, rfl⟩ := h
  generalize hedge : ({ s with next := s.next + 1 } : Supply).name "edge" = edge
  have hnew : edge ≠ l.edges :=
    hedge ▸ hold.ne_name { s with next := s.next + 1 } (Nat.le_succ _) "edge" (by decide)
  have hunwind : Step returns [l.edges] (.unwind (.var l.edges) edge) [l.edges, edge] :=
    .unwind (.var List.mem_cons_self) (by simpa using hnew)
  have hwindow : ∃ after, Runs returns [l.edges, edge]
      (if (mergedOrder (Expr.propertyOf edge) sort columns).isEmpty && l.bounds.isWhole then []
        else [.carry [Column.var edge] false (mergedOrder (Expr.propertyOf edge) sort columns)
          l.bounds.skip l.bounds.limit none]) after ∧ edge ∈ after := by
    split
    · exact ⟨_, .nil, by simp⟩
    · refine ⟨_, .single (.carry false ?_ ?_ ?_ ?_ ?_), List.mem_cons_self⟩
      · intro c hc
        rw [List.mem_singleton] at hc
        exact hc ▸ .var (by simp)
      · intro k hk
        obtain ⟨p, _, rfl⟩ := List.mem_map.mp hk
        exact refers_propertyOf _ List.mem_cons_self
      · exact fun e he => hbounds.skip e he _
      · exact fun e he => hbounds.limit e he _
      · simp
  obtain ⟨after, hruns, hmem⟩ := hwindow
  refine ⟨_, .ofProvides (.call ?_ ?_ (.cons hunwind (.prepend hruns
    (gives_edgesResult typename (s.name "var") ?_))))⟩
  · exact (Within.single s "var" (by decide)).mono (Nat.le_refl _) (Nat.le_succ _)
  · simp
  · intro p hp
    rcases List.mem_append.mp hp with hp | hp
    · obtain ⟨_, _, rfl⟩ := Option.map_eq_some_iff.mp (Option.mem_toList.mp hp)
      exact refers_propertyOf _ hmem
    · obtain ⟨_, _, rfl⟩ := Option.map_eq_some_iff.mp (Option.mem_toList.mp hp)
      exact refers_propertyOf _ hmem

theorem yields_pageInfo {needs : Names} (fields : List PageInfoField) {n m : Nat} (hnm : n ≤ m)
    (hbounds : l.bounds.All (Closed returns)) (htotal : l.total ∈ needs) :
    Yields returns needs n m [] [] [.map (fields.map l.pageInfo)] := by
  refine .inline (by simp) hnm ?_
  intro scope hneeds
  refine .map ?_
  intro p hp
  obtain ⟨f, _, rfl⟩ := List.mem_map.mp hp
  exact refers_pageInfo f hbounds (hneeds _ htotal)

theorem yields_mergedEntries {φ : Type} {composite : String} {items : List (ConnectionItem φ)}
    {calls : List Clause} {entries : List (String × Expr)}
    (hbounds : l.bounds.All (Closed returns)) (hold : Older s.next l.edges)
    (h : mergedEntries l composite sort columns items s = .ok ((calls, entries), t)) :
    ∃ names, Yields returns [l.edges, l.total] s.next t.next calls names
      (entries.map Prod.snd) := by
  induction items generalizing s calls entries with
  | nil =>
    simp only [mergedEntries, pure_ok, Prod.mk.injEq] at h
    obtain ⟨⟨rfl, rfl⟩, rfl⟩ := h
    exact ⟨[], .nil _ (Nat.le_refl _)⟩
  | cons item rest ih =>
    simp only [mergedEntries, bind_ok, pure_ok, Prod.mk.injEq] at h
    obtain ⟨⟨first, e⟩, u, hfirst, ⟨more, entries'⟩, v, hrest, ⟨rfl, rfl⟩, rfl⟩ := h
    have hyields : ∃ names, Yields returns [l.edges, l.total] s.next u.next first names [e] := by
      cases item with
      | edges key node properties typename => exact yields_mergedEdgesCall hbounds hold hfirst
      | aggregate key items => simp [fail_ok] at hfirst
      | totalCount key =>
        simp only [pure_ok, Prod.mk.injEq] at hfirst
        obtain ⟨⟨rfl, rfl⟩, rfl⟩ := hfirst
        exact ⟨[], .inline (by simp) (Nat.le_refl _) fun scope hneeds =>
          .var (hneeds _ (by simp))⟩
      | pageInfo key fields =>
        simp only [pure_ok, Prod.mk.injEq] at hfirst
        obtain ⟨⟨rfl, rfl⟩, rfl⟩ := hfirst
        exact ⟨[], yields_pageInfo fields (Nat.le_refl _) hbounds (by simp)⟩
      | typename key typeName =>
        simp only [pure_ok, Prod.mk.injEq] at hfirst
        obtain ⟨⟨rfl, rfl⟩, rfl⟩ := hfirst
        exact ⟨[], .inline (by simp [Expr.string]) (Nat.le_refl _) fun _ _ => .literal _⟩
    obtain ⟨names, hyields⟩ := hyields
    obtain ⟨names', hyields'⟩ := ih (hold.mono hyields.le) hrest
    exact ⟨names ++ names', hyields.append hyields'⟩

end Merged

end

end GraphSelection.Scoping
