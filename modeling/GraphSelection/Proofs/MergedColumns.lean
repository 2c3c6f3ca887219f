import GraphSelection.Proofs.Completed.Operations
import GraphSelection.Proofs.Shown
import GraphSelection.Proofs.WellScoped

/-!
Columns of merged branches. A composite read orders, pages and returns its merged rows by column
names that are minted before the branches are written. Each branch returns all of these columns, so
with a branch left the union has them. With no branch left there is nothing but the column of the
result, and an order then reads columns that no clause has produced.
-/
namespace GraphSelection.Minting

/-- Names that are drawn later differ from one that was drawn before. -/
theorem Within.not_mem {names : Scoping.Names} {n m : Nat} {x : String} (h : Within names n m)
    (hx : Older n x) : x ∉ names := by
  intro hmem
  obtain ⟨i, hi, _, hmint⟩ := h x hmem
  obtain ⟨j, hj, hmint'⟩ := hx
  have := hmint.unique hmint'
  omega

end GraphSelection.Minting

namespace GraphSelection.Program

open Cypher Plan Scoping Minting

/-- What a `WITH` or a `RETURN` computes from the columns before it. -/
def expressionsOf : Clause → List Expr
  | .carry columns _ order skip limit predicate =>
      columns.map Column.expression ++ order.map OrderKey.expression ++ skip.toList ++
        limit.toList ++ predicate.toList
  | .returning columns _ => columns.map Column.expression
  | _ => []

/-- The columns that a clause adds: the name of an `UNWIND`, and what the branches of a union
return. -/
def producedColumns : Clause → List String
  | .unwind _ name => [name]
  | .call _ [.union (body :: _)] => branchColumns body
  | _ => []

section

variable {returns : String → Names}

/-- The clauses read no variable but the given ones. -/
def ReadsOnly (returns : String → Names) (names : Names) (clauses : List Clause) : Prop :=
  ∀ c ∈ clauses, ∀ e ∈ expressionsOf c, Refers returns names e

theorem readsOnly_append {names : Names} {xs ys : List Clause} :
    ReadsOnly returns names (xs ++ ys) ↔
      ReadsOnly returns names xs ∧ ReadsOnly returns names ys := by
  simp only [ReadsOnly, List.mem_append]
  constructor
  · exact fun h => ⟨fun c hc => h c (.inl hc), fun c hc => h c (.inr hc)⟩
  · rintro ⟨hxs, hys⟩ c (hc | hc)
    · exact hxs c hc
    · exact hys c hc

theorem readsOnly_single {names : Names} {c : Clause} :
    ReadsOnly returns names [c] ↔ ∀ e ∈ expressionsOf c, Refers returns names e := by
  simp [ReadsOnly]

theorem refers_var_iff {names : Names} {x : String} :
    Refers returns names (.var x) ↔ x ∈ names := by
  constructor
  · intro h
    cases h with
    | var h => exact h
  · exact .var

end

section Columns

variable {ctx : Context} {s t : Supply}

/-- The columns of the sort keys are all different. -/
theorem nodup_sortColumns {sort : List SortKey} {columns : List String}
    (h : sortColumns sort s = .ok (columns, t)) : columns.Nodup := by
  induction sort generalizing s columns with
  | nil =>
    simp only [sortColumns, pure_ok] at h
    exact h.1 ▸ List.nodup_nil
  | cons key rest ih =>
    simp only [sortColumns, bind_ok, fresh_ok, pure_ok] at h
    obtain ⟨name, _, ⟨rfl, rfl⟩, names, u, hrest, rfl, rfl⟩ := h
    obtain ⟨_, hwithin, _⟩ := within_sortColumns hrest
    have hnew : s.name "sort" ∉ names :=
      Within.not_mem hwithin (older_name s "sort" (by decide))
    exact List.nodup_cons.mpr ⟨hnew, ih hrest⟩

theorem sortValues_length {sort : List SortKey} {calls : List Clause}
    {keys : List (OrderKey Expr)} (h : sortValues ctx sort s = .ok ((calls, keys), t)) :
    keys.length = sort.length := by
  induction sort generalizing s t calls keys with
  | nil =>
    simp only [sortValues, pure_ok, Prod.mk.injEq] at h
    obtain ⟨⟨_, rfl⟩, _⟩ := h
    rfl
  | cons key rest ih =>
    simp only [sortValues, bind_ok, pure_ok, Prod.mk.injEq] at h
    obtain ⟨_, _, _, ⟨more, keys⟩, u, hrest, ⟨_, rfl⟩, _⟩ := h
    simp [ih hrest]

/-- A branch with a value for each column names its values by the columns. -/
theorem branchKeys_names {sort : List SortKey} {columns : List String} {calls : List Clause}
    {keys : List (String × Expr)} (hlength : sort.length = columns.length)
    (h : branchKeys ctx sort columns s = .ok ((calls, keys), t)) :
    keys.map Prod.fst = columns := by
  simp only [branchKeys, bind_ok, pure_ok, Prod.mk.injEq] at h
  obtain ⟨⟨_, values⟩, u, hvalues, ⟨_, rfl⟩, _⟩ := h
  have hvalues := sortValues_length hvalues
  simp only [List.length_map, List.length_zip] at hvalues
  refine List.map_fst_zip ?_
  simp [hvalues, hlength]

/-- There is a body for each branch, and each returns the column of the result and those of the
sort keys. -/
theorem branches_columns {column : String} {columns : List String} {isFirst : Bool}
    {branches : List (Read Field)} {bodies : List (List Clause)}
    (hsort : ∀ b ∈ branches, b.sort.length = columns.length)
    (h : Field.branches ctx column columns isFirst branches s = .ok (bodies, t)) :
    bodies.length = branches.length ∧ ∀ body ∈ bodies, branchColumns body = column :: columns := by
  induction branches generalizing isFirst bodies s with
  | nil =>
    simp only [Field.branches, pure_ok] at h
    obtain ⟨rfl, _⟩ := h
    exact ⟨rfl, by simp⟩
  | cons b rest ih =>
    obtain ⟨scope, fields, sort, page⟩ := b
    simp only [Field.branches, bind_ok, pure_ok] at h
    obtain ⟨own, _, _, start, _, _, found, _, _, shown, _, _, keys, _, hkeys, more, _, hmore, rfl,
      rfl⟩ := h
    have hnames := branchKeys_names (hsort _ List.mem_cons_self) hkeys
    obtain ⟨hlength, hrest⟩ := ih (fun b hb => hsort b (List.mem_cons_of_mem _ hb)) hmore
    refine ⟨by simp [hlength], List.forall_mem_cons.mpr ⟨?_, hrest⟩⟩
    rw [branchColumns_giveAll, hnames]

/-- What a union produces, with and without a branch. -/
theorem producedColumns_unionCall {composite column : String} {columns : List String}
    {bodies : List (List Clause)} {union : Clause}
    (hbodies : ∀ body ∈ bodies, branchColumns body = column :: columns)
    (h : unionCall composite bodies column = .ok union) :
    producedColumns union = if bodies = [] then [column] else column :: columns := by
  rcases unionCall_ok h with ⟨rfl, rfl⟩ | ⟨hne, rfl⟩
  · rfl
  · cases bodies with
    | nil => exact absurd rfl hne
    | cons first rest =>
      rw [if_neg hne]
      exact hbodies first List.mem_cons_self

/-- The `WITH` of merged rows reads exactly their columns; there is one when the rows are ordered
or paged. -/
theorem readsOnly_mergedWindow (returns : String → Names) {column : String} {sort : List SortKey}
    {columns : List String} {page : Page} {window : List Clause} (names : Names)
    (h : mergedWindow column sort columns page s = .ok (window, t)) :
    ReadsOnly returns names window ↔
      sort.isEmpty && page.isWhole ∨ ∀ x ∈ column :: columns, x ∈ names := by
  unfold mergedWindow at h
  split at h
  · rename_i hwhole
    rw [pure_ok] at h
    obtain ⟨rfl, _⟩ := h
    exact ⟨fun _ => .inl hwhole, fun _ c hc => absurd hc List.not_mem_nil⟩
  · rename_i hsome
    simp only [bind_ok, pure_ok] at h
    obtain ⟨b, u, hb, rfl, _⟩ := h
    obtain ⟨_, hclosed⟩ := closed_bounds returns hb
    rw [readsOnly_single, or_iff_right hsome]
    constructor
    · intro hreads x hx
      have hcolumn : Column.var x ∈ Column.var column :: columns.map Column.var :=
        List.mem_map_of_mem (f := Column.var) hx
      refine refers_var_iff.mp (hreads (.var x) ?_)
      simp only [expressionsOf, List.mem_append]
      exact .inl (.inl (.inl (.inl (List.mem_map_of_mem (f := Column.expression) hcolumn))))
    · intro hnames e he
      simp only [expressionsOf, List.mem_append, Option.toList_none, List.not_mem_nil, or_false,
        Option.mem_toList] at he
      rcases he with ((he | he) | he) | he
      · obtain ⟨c, hc, rfl⟩ := List.mem_map.mp he
        obtain ⟨x, hx, rfl⟩ := List.mem_map.mp (show c ∈ (column :: columns).map Column.var from hc)
        exact .var (hnames x hx)
      · obtain ⟨k, hk, rfl⟩ := List.mem_map.mp he
        obtain ⟨pair, hpair, rfl⟩ := List.mem_map.mp hk
        exact .var (hnames _ (List.mem_cons_of_mem _ (List.of_mem_zip hpair).2))
      · exact hclosed.skip e he names
      · exact hclosed.limit e he names

theorem readsOnly_compositeResult {names : Names} {returns : String → Names}
    {relationship : Option Relationship} {column : String} (h : column ∈ names) :
    ReadsOnly returns names [compositeResult ctx relationship column] := by
  rw [readsOnly_single]
  intro e he
  cases relationship with
  | none =>
    obtain rfl := List.mem_singleton.mp he
    exact .var h
  | some r =>
    obtain rfl := List.mem_singleton.mp he
    exact refers_collected _ (.var h)

/-- How the rows of a composite read are merged: by the union of its branches, and the clauses
after it. -/
structure MergesBy (returns : String → Names) (c : CompositeRead Field) (union : Clause)
    (after : List Clause) (column : String) (columns : List String) : Prop where
  /-- Each branch returns all the columns. -/
  emitted : ∃ bodies, unionCall c.composite.name bodies column = .ok union ∧
    bodies.length = c.branches.length ∧ ∀ body ∈ bodies, branchColumns body = column :: columns
  keyed : columns.length = c.sort.length
  distinct : (column :: columns).Nodup
  /-- The rows are ordered and paged, and then returned. -/
  ends : ∃ ctx s t window, mergedWindow column c.sort columns c.page s = .ok (window, t) ∧
    after = window ++ [compositeResult ctx c.relationship column]
  reads : ReadsOnly returns (column :: columns) after
  produced : producedColumns union = if c.branches = [] then [column] else column :: columns

/-- Without a branch the clauses after the union read what is there only when nothing is sorted. -/
theorem MergesBy.reads_iff {returns : String → Names} {c : CompositeRead Field} {union : Clause}
    {after : List Clause} {column : String} {columns : List String}
    (h : MergesBy returns c union after column columns) :
    ReadsOnly returns (producedColumns union) after ↔ c.branches ≠ [] ∨ c.sort = [] := by
  rw [h.produced]
  by_cases hbranches : c.branches = []
  · obtain ⟨ctx, s, t, window, hwindow, rfl⟩ := h.ends
    have hresult : ReadsOnly returns [column] [compositeResult ctx c.relationship column] :=
      readsOnly_compositeResult List.mem_cons_self
    have hcolumns : (∀ x ∈ column :: columns, x ∈ [column]) ↔ c.sort = [] := by
      rw [← List.length_eq_zero_iff, ← h.keyed, List.length_eq_zero_iff]
      constructor
      · intro hall
        refine List.eq_nil_iff_forall_not_mem.mpr fun x hx => ?_
        have heq : x = column := List.mem_singleton.mp (hall x (List.mem_cons_of_mem _ hx))
        exact (List.nodup_cons.mp h.distinct).1 (heq ▸ hx)
      · rintro rfl x hx
        exact hx
    rw [if_pos hbranches, readsOnly_append, readsOnly_mergedWindow returns _ hwindow, hcolumns]
    simp only [hbranches, hresult, Bool.and_eq_true, List.isEmpty_iff, ne_eq, not_true_eq_false,
      false_or, and_true]
    exact ⟨fun h => h.elim And.left id, .inr⟩
  · rw [if_neg hbranches]
    exact ⟨fun _ => .inl hbranches, fun _ => h.reads⟩

theorem lookupClauses_mergesBy (returns : String → Names) {c : CompositeRead Field}
    {clauses : List Clause} (hsort : ∀ b ∈ c.branches, b.sort.length = c.sort.length)
    (h : Field.lookupClauses ctx (.composite c) s = .ok (clauses, t)) :
    ∃ union after column columns, clauses = union :: after ∧
      MergesBy returns c union after column columns := by
  obtain ⟨composite, relationship, branches, sort, page⟩ := c
  simp only [Field.lookupClauses, bind_ok, fresh_ok, lift_ok, pure_ok] at h
  obtain ⟨_, _, ⟨rfl, rfl⟩, columns, u, hcolumns, bodies, v, hbodies, union, _, ⟨hunion, rfl⟩,
    window, w, hwindow, rfl, _⟩ := h
  obtain ⟨_, hwithin, hkeyed⟩ := within_sortColumns hcolumns
  have hnew : s.name "var" ∉ columns :=
    Within.not_mem hwithin (older_name s "var" (by decide))
  obtain ⟨hlength, hnames⟩ :=
    branches_columns (fun b hb => (hsort b hb).trans hkeyed.symm) hbodies
  refine ⟨union, _, _, columns, rfl, ⟨bodies, hunion, hlength, hnames⟩, hkeyed,
    List.nodup_cons.mpr ⟨hnew, nodup_sortColumns hcolumns⟩, ⟨ctx, v, w, window, hwindow, rfl⟩, ?_,
    ?_⟩
  · refine readsOnly_append.mpr ⟨?_, readsOnly_compositeResult List.mem_cons_self⟩
    exact (readsOnly_mergedWindow returns _ hwindow).mpr (.inr fun x hx => hx)
  · rw [producedColumns_unionCall hnames hunion]
    have hnil : bodies = [] ↔ branches = [] := by
      rw [← List.length_eq_zero_iff, hlength, List.length_eq_zero_iff]
    simp only [hnil]

end Columns

end GraphSelection.Program

namespace GraphSelection.Stage

open Cypher

/-- Works of no type, in the order of their titles. -/
def sortedUntyped : Request :=
  { operation := .read
    entity := "Work"
    args :=
      [("where", .record [("typename", .list [])]),
       ("options", .record [("sort", .list [.record [("title", .text "ASC")]])])]
    selection := [.leaf "title"] }

/-- Films in the order of their titles. -/
def sortedFilms : Request :=
  { sortedUntyped with
    args :=
      [("where", .record [("typename", .list [.text "Film"])]),
       ("options", .record [("sort", .list [.record [("title", .text "ASC")]])])] }

/-- The composite reads among the parts. -/
def compositeReads (parts : List Plan.Part) : List (Plan.CompositeRead Plan.Field) :=
  parts.filterMap fun
    | .lookup (.composite c) => some c
    | _ => none

theorem mem_compositeReads {parts : List Plan.Part} {c : Plan.CompositeRead Plan.Field}
    (h : c ∈ compositeReads parts) : .lookup (.composite c) ∈ parts := by
  obtain ⟨part, hpart, hc⟩ := List.mem_filterMap.mp h
  split at hc
  · cases hc
    exact hpart
  · cases hc

/-- The rows of an `UNWIND` are ordered by a column that is not its own. -/
def ordersOther : List Clause → Bool
  | .unwind _ name :: .carry _ _ (⟨.var key, _⟩ :: _) _ _ _ :: _ => key != name
  | _ => false

end GraphSelection.Stage

namespace GraphSelection

open Cypher Plan Resolve Program Scoping

/-- A composite read of the plan stands in the program as a union and the clauses that merge its
rows. -/
theorem composite_merges (returns : String → Names) {s : Setup} {r : Request} {p : Compiled}
    (h : compile s r = .ok p) {o : Operation} (ho : s.plan r = .ok o) {c : CompositeRead Field}
    (hc : .lookup (.composite c) ∈ o.parts) :
    ∃ union after column columns, Holds (union :: after) p.clauses ∧
      MergesBy returns c union after column columns := by
  obtain ⟨o', t, hplan, hprogram, _, _⟩ := compile_ok h
  rw [ho] at hplan
  cases hplan
  have hoperation := plan_ok ho
  have hfits := Setup.guards_fits (Setup.operation_guards hoperation _ hc)
  have hshows : Shows o.parts p.clauses :=
    shows_programOf (fun c hc => Setup.operation_create (hc ▸ hoperation)) hprogram
  obtain ⟨_, ctx, u, v, block, hblock, hholds⟩ := hshows _ hc
  obtain ⟨union, after, column, columns, rfl, hmerges⟩ :=
    lookupClauses_mergesBy returns (fun b hb => (hfits b hb).2.2) hblock
  exact ⟨union, after, column, columns, hholds, hmerges⟩

/-- Whatever is compiled, a composite read of the plan stands in the program as a union and the
clauses that order, page and return the merged rows. These read the minted columns only, and each
branch returns them all, so they read what the union has produced if and only if a branch is left
or nothing is sorted. -/
theorem composite_columns (returns : String → Names) (s : Setup) (r : Request) (p : Compiled)
    (h : compile s r = .ok p) (o : Operation) (ho : s.plan r = .ok o) (c : CompositeRead Field)
    (hc : .lookup (.composite c) ∈ o.parts) :
    ∃ union after column columns, Holds (union :: after) p.clauses ∧
      MergesBy returns c union after column columns ∧
      (ReadsOnly returns (producedColumns union) after ↔ c.branches ≠ [] ∨ c.sort = []) := by
  obtain ⟨union, after, column, columns, hholds, hmerges⟩ := composite_merges returns h ho hc
  exact ⟨union, after, column, columns, hholds, hmerges, hmerges.reads_iff⟩

theorem sortedFilms_columns :
    ∃ p o c union after column columns, compile Stage.setup Stage.sortedFilms = .ok p ∧
      Stage.setup.plan Stage.sortedFilms = .ok o ∧ .lookup (.composite c) ∈ o.parts ∧
      c.branches ≠ [] ∧ Holds (union :: after) p.clauses ∧
      MergesBy (fun _ => []) c union after column columns ∧
      ReadsOnly (fun _ => []) (producedColumns union) after := by
  obtain ⟨p, h⟩ : ∃ p, compile Stage.setup Stage.sortedFilms = .ok p :=
    exists_of_isOk (by decide +kernel)
  have hany : (Stage.setup.plan Stage.sortedFilms).toOption.any (fun o =>
      (Stage.compositeReads o.parts).any fun c => !c.branches.isEmpty) = true := by
    decide +kernel
  obtain ⟨o, ho, hbranched⟩ := exists_of_any hany
  obtain ⟨c, hfound, hbranches⟩ := List.any_eq_true.mp hbranched
  have hc : .lookup (.composite c) ∈ o.parts := Stage.mem_compositeReads hfound
  have hkept : c.branches ≠ [] := by simpa using hbranches
  obtain ⟨union, after, column, columns, hholds, hmerges, hreads⟩ :=
    composite_columns (fun _ => []) Stage.setup Stage.sortedFilms p h o ho c hc
  exact ⟨p, o, c, union, after, column, columns, h, ho, hc, hkept, hholds, hmerges,
    hreads.mpr (.inl hkept)⟩

/-- No type is kept and the works are sorted: the program orders its rows by a column that the
clause in place of the union does not have. -/
theorem sortedUntyped_unproduced :
    ∃ p union after, compile Stage.setup Stage.sortedUntyped = .ok p ∧
      p.clauses = union :: after ∧
      ¬ ReadsOnly (fun _ => []) (producedColumns union) after := by
  have hany : (compile Stage.setup Stage.sortedUntyped).toOption.any
      (fun p => Stage.ordersOther p.clauses) = true := by
    decide +kernel
  obtain ⟨p, h, horders⟩ := exists_of_any hany
  unfold Stage.ordersOther at horders
  split at horders
  · rename_i e name columns isDistinct key descending order skip limit predicate rest hclauses
    refine ⟨p, _, _, h, hclauses, fun hreads => ?_⟩
    have hkey : Refers (fun _ => []) [name] (.var key) :=
      hreads _ List.mem_cons_self (.var key) (by simp [expressionsOf])
    have heq : key = name := List.mem_singleton.mp (refers_var_iff.mp hkey)
    simp [heq] at horders
  · cases horders

end GraphSelection
