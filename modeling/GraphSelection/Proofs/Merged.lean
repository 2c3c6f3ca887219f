import GraphSelection.Proofs.Rows.Operations
import GraphSelection.Proofs.Shown
import Mathlib.Data.List.Dedup

/-!
Rows of merged branches. A union of several branches keeps one of the rows that agree in everything
that is returned; a single branch keeps all its rows. So a composite loses none of the nodes or
relationships that it matches as long as what is returned tells them apart, and loses some as soon
as two of them look alike. A graph is anything that answers clauses with rows, as long as clauses
run one after the other and single calls keep the number of rows.
-/
namespace GraphSelection.Program

open Cypher Plan

/-- How a graph answers: the rows that clauses make of the rows before them, and the value of an
expression in a row. -/
structure PropertyGraph (ρ ν : Type) where
  run : List Clause → List ρ → List ρ
  value : Expr → ρ → ν
  run_nil : ∀ rows, run [] rows = rows
  run_append : ∀ cs cs' rows, run (cs ++ cs') rows = run cs' (run cs rows)
  /-- A call whose body leaves one row of one leaves as many rows as it is run for. -/
  run_single : ∀ c, SingleCall c → ∀ rows, (run [c] rows).length = rows.length

/-- A branch of a union: what matches the nodes of its scope, the calls of what is shown of them,
and the returned columns. -/
structure MergedBranch where
  found : List Clause
  calls : List Clause
  columns : List (Column Expr)

def MergedBranch.body (b : MergedBranch) : List Clause :=
  b.found ++ b.calls ++ [.giveAll b.columns]

/-- Each call leaves one row of one, and no column is an aggregate. -/
structure MergedBranch.Ok (b : MergedBranch) : Prop where
  calls : SingleCalls b.calls
  columns : ∀ c ∈ b.columns, c.expression.Simple

namespace PropertyGraph

variable {ρ ν : Type} (g : PropertyGraph ρ ν)

/-- The rows that a branch returns: one for each row that reaches its `RETURN`. -/
def returned (body : List Clause) (rows : List ρ) : List (List ν) :=
  match body.getLast? with
  | some (.returning columns _) =>
      (g.run body.dropLast rows).map fun row => columns.map fun c => g.value c.expression row
  | _ => []

def returnedOf (bodies : List (List Clause)) (rows : List ρ) : List (List ν) :=
  bodies.flatMap fun body => g.returned body rows

/-- The rows of a union. There is nothing to merge in a single branch; of several branches, rows
that are equal become one. -/
def merged [DecidableEq ν] (bodies : List (List Clause)) (rows : List ρ) : List (List ν) :=
  if bodies.length = 1 then g.returnedOf bodies rows else (g.returnedOf bodies rows).dedup

/-- The rows that the branches match. -/
def matched (bs : List MergedBranch) (rows : List ρ) : List ρ :=
  bs.flatMap fun b => g.run b.found rows

theorem run_calls {calls : List Clause} (h : SingleCalls calls) (rows : List ρ) :
    (g.run calls rows).length = rows.length := by
  induction calls generalizing rows with
  | nil => rw [g.run_nil]
  | cons c rest ih =>
    have hrest : SingleCalls rest := fun c hc => h c (List.mem_cons_of_mem _ hc)
    rw [← List.singleton_append, g.run_append, ih hrest, g.run_single c (h c List.mem_cons_self)]

theorem returned_length {b : MergedBranch} (h : b.Ok) (rows : List ρ) :
    (g.returned b.body rows).length = (g.run b.found rows).length := by
  simp [returned, MergedBranch.body, Clause.giveAll, g.run_append, g.run_calls h.calls]

theorem returnedOf_length {bs : List MergedBranch} (h : ∀ b ∈ bs, b.Ok) (rows : List ρ) :
    (g.returnedOf (bs.map MergedBranch.body) rows).length = (g.matched bs rows).length := by
  induction bs with
  | nil => rfl
  | cons b rest ih =>
    have hrest := ih fun b hb => h b (List.mem_cons_of_mem _ hb)
    have hfirst := g.returned_length (h b List.mem_cons_self) rows
    simp only [returnedOf, matched, List.map_cons, List.flatMap_cons,
      List.length_append] at hrest ⊢
    rw [hfirst, hrest]

variable [DecidableEq ν]

/-- Merged rows are never more than matched ones, and they are as many exactly when nothing is
merged or no two rows look alike. -/
theorem merged_length {bs : List MergedBranch} (h : ∀ b ∈ bs, b.Ok) (rows : List ρ) :
    (g.merged (bs.map MergedBranch.body) rows).length ≤ (g.matched bs rows).length ∧
      ((g.merged (bs.map MergedBranch.body) rows).length = (g.matched bs rows).length ↔
        bs.length = 1 ∨ (g.returnedOf (bs.map MergedBranch.body) rows).Nodup) := by
  have hall := g.returnedOf_length h rows
  unfold merged
  rw [List.length_map]
  split
  · rename_i hsingle
    exact ⟨Nat.le_of_eq hall, fun _ => .inl hsingle, fun _ => hall⟩
  · rename_i hseveral
    have hsub := List.dedup_sublist (g.returnedOf (bs.map MergedBranch.body) rows)
    refine ⟨hall ▸ hsub.length_le, fun heq => .inr ?_, fun hdistinct => ?_⟩
    · exact List.dedup_eq_self.mp (hsub.eq_of_length (heq.trans hall.symm))
    · rcases hdistinct with hsingle | hdistinct
      · exact absurd hsingle hseveral
      · rw [List.dedup_eq_self.mpr hdistinct, hall]

end PropertyGraph

/-- The scopes that a composite merges. -/
def mergedScopes : Lookup Field → List Scope
  | .composite c => c.branches.map fun b => b.scope
  | .compositeConnection c => c.branches.map fun b => b.read.scope
  | _ => []

/-- A list of nodes forgets how often a node is reached; a connection has a row for each edge. -/
def scopeRows : Lookup Field → Context → Scope → Build (List Clause)
  | .composite _ => distinctNodes
  | _ => scopeMatch

/-- The clauses match what the step finds in the scope. -/
def Matches (rows : Context → Scope → Build (List Clause)) (scope : Scope)
    (clauses : List Clause) : Prop :=
  ∃ ctx s u t start found, importParent ctx s = .ok (start, u) ∧
    rows ctx scope u = .ok (found, t) ∧ clauses = start ++ found

/-- A connection collects and counts the only column of its branches. -/
def Counts : Lookup Field → List MergedBranch → List Clause → Prop
  | .compositeConnection _, bs, rest => ∃ column edges total more,
      (∀ b ∈ bs, b.columns.map Column.name? = [some column]) ∧
        rest = collectEdges (.var column) edges total ++ more
  | _, _, _ => True

/-- The clauses of a composite start with the union of its branches, one for each scope. -/
def Merges (l : Lookup Field) (clauses : List Clause) : Prop :=
  ∃ bs rest, clauses = .call [] [.union (bs.map MergedBranch.body)] :: rest ∧
    List.Forall₂ (fun scope b => Matches (scopeRows l) scope b.found) (mergedScopes l) bs ∧
    (∀ b ∈ bs, b.Ok) ∧ Counts l bs rest

section Branches

variable {ctx : Context} {column : String} {columns : List String} {isFirst : Bool}
  {bodies : List (List Clause)} {s t : Supply}

theorem mergedBranch_body (start found calls keyCalls : List Clause)
    (columns : List (Column Expr)) :
    MergedBranch.body ⟨start ++ found, calls ++ keyCalls, columns⟩ =
      start ++ found ++ calls ++ keyCalls ++ [.giveAll columns] := by
  simp [MergedBranch.body]

theorem branches_merged {branches : List (Read Field)}
    (h : ∀ part ∈ Field.branchParts branches, Behind part)
    (hrun : Field.branches ctx column columns isFirst branches s = .ok (bodies, t)) :
    ∃ bs : List MergedBranch, bodies = bs.map MergedBranch.body ∧
      List.Forall₂ (fun scope b => Matches distinctNodes scope b.found)
        (branches.map fun b => b.scope) bs ∧ ∀ b ∈ bs, b.Ok := by
  induction branches generalizing isFirst bodies s with
  | nil =>
    obtain ⟨rfl, rfl⟩ := (pure_ok ..).mp hrun
    exact ⟨[], rfl, .nil, by simp⟩
  | cons b rest ih =>
    obtain ⟨scope, fields, keys, window⟩ := b
    simp only [Field.branches, bind_ok, pure_ok] at hrun
    obtain ⟨own, s₁, _, start, s₂, hstart, found, s₃, hfound, shown, s₄, hshown, sorted, s₅,
      hsorted, more, s₆, hmore, rfl, rfl⟩ := hrun
    obtain ⟨bs, rfl, hbs, hok⟩ :=
      ih (fun part hpart => h part (List.mem_append_right _ hpart)) hmore
    have hitems := (ensures_items own fields fun part hpart =>
      h part (List.mem_append_left _ hpart)).run _ _ _ hshown
    have hkeys := (ensures_branchKeys keys columns).run _ _ _ hsorted
    refine ⟨⟨start ++ found, shown.1 ++ sorted.1, _⟩ :: bs,
      List.cons_eq_cons.mpr ⟨(mergedBranch_body start found shown.1 sorted.1 _).symm, rfl⟩,
      .cons ?_ hbs, List.forall_mem_cons.mpr ⟨⟨hitems.1.append hkeys.1, ?_⟩, hok⟩⟩
    · exact ⟨own, s₁, s₂, s₃, start, found, hstart, hfound, rfl⟩
    · intro c hc
      rcases List.mem_cons.mp hc with rfl | hc
      · exact simple_projection _ hitems.2
      · obtain ⟨entry, hentry, rfl⟩ := List.mem_map.mp hc
        exact hkeys.2 entry hentry

theorem connectionBranches_merged {branches : List (ConnectionBranch Field)}
    (h : ∀ part ∈ Field.connectionBranchParts branches, Behind part)
    (hrun : Field.connectionBranches ctx column columns isFirst branches s = .ok (bodies, t)) :
    ∃ bs : List MergedBranch, bodies = bs.map MergedBranch.body ∧
      List.Forall₂ (fun scope b => Matches scopeMatch scope b.found)
        (branches.map fun b => b.read.scope) bs ∧ (∀ b ∈ bs, b.Ok) ∧
      ∀ b ∈ bs, b.columns.map Column.name? = [some column] := by
  induction branches generalizing isFirst bodies s with
  | nil =>
    obtain ⟨rfl, rfl⟩ := (pure_ok ..).mp hrun
    exact ⟨[], rfl, .nil, by simp, by simp⟩
  | cons b rest ih =>
    obtain ⟨⟨scope, fields, keys, window⟩, edgeFields⟩ := b
    simp only [Field.connectionBranches, bind_ok, lift_ok, pure_ok] at hrun
    obtain ⟨own, s₁, _, start, s₂, hstart, found, s₃, hfound, shown, s₄, hshown, properties, _,
      ⟨hproperties, rfl⟩, sorted, s₅, hsorted, more, s₆, hmore, rfl, rfl⟩ := hrun
    obtain ⟨bs, rfl, hbs, hok, hnames⟩ :=
      ih (fun part hpart => h part (List.mem_append_right _ hpart)) hmore
    have hitems := (ensures_items own fields fun part hpart =>
      h part (List.mem_append_left _ hpart)).run _ _ _ hshown
    have hkeys := (ensures_branchKeys keys columns).run _ _ _ hsorted
    have hedge : ∀ entry ∈ properties, entry.2.Simple := by
      intro entry hentry
      cases hown : own.relationship with
      | none =>
        rw [hown] at hproperties
        cases hproperties
        exact absurd hentry List.not_mem_nil
      | some r =>
        rw [hown] at hproperties
        simp only [except_bind_ok, except_pure_ok] at hproperties
        obtain ⟨e, he, rfl⟩ := hproperties
        rw [List.mem_singleton] at hentry
        exact hentry ▸ simple_edgeProjection he
    refine ⟨⟨start ++ found, shown.1 ++ sorted.1, [Column.named (.map
      (("node", .projection own.subject shown.2) :: properties ++ sorted.2)) column]⟩ :: bs,
      ?_, .cons ?_ hbs, List.forall_mem_cons.mpr ⟨⟨hitems.1.append hkeys.1, ?_⟩, hok⟩,
      List.forall_mem_cons.mpr ⟨rfl, hnames⟩⟩
    · rw [List.map_cons, mergedBranch_body]
      rfl
    · exact ⟨own, s₁, s₂, s₃, start, found, hstart, hfound, rfl⟩
    · intro c hc
      rw [List.mem_singleton] at hc
      subst hc
      refine simple_map fun entry hentry => ?_
      rcases List.mem_cons.mp hentry with rfl | hentry
      · exact simple_projection _ hitems.2
      · rcases List.mem_append.mp hentry with hentry | hentry
        · exact hedge entry hentry
        · exact hkeys.2 entry hentry

theorem edgeList_collects {φ : Type} {edge : Expr} {items : List (ConnectionItem φ)} {page : Page}
    {r : List Clause × EdgeList} (h : edgeList edge items page s = .ok (r, t)) :
    r.1 = collectEdges edge r.2.edges r.2.total := by
  simp only [edgeList, bind_ok, fresh_ok] at h
  obtain ⟨edges, _, _, total, _, _, h⟩ := h
  split at h
  all_goals
    obtain ⟨b, u, _, h⟩ := (bind_ok ..).mp h
    obtain ⟨rfl, _⟩ := (pure_ok ..).mp h
    rfl

/-- The clauses of a composite that has a branch. -/
theorem lookupClauses_merges {l : Lookup Field} {clauses : List Clause}
    (h : ∀ part ∈ Field.lookupParts l, Behind part) (hne : mergedScopes l ≠ [])
    (hrun : Field.lookupClauses ctx l s = .ok (clauses, t)) : Merges l clauses := by
  match l with
  | .read _ => exact absurd rfl hne
  | .connection _ => exact absurd rfl hne
  | .composite ⟨composite, relationship, branches, sort, page⟩ =>
    simp only [Field.lookupClauses, bind_ok, fresh_ok, lift_ok, pure_ok] at hrun
    obtain ⟨column, _, _, columns, u, _, bodies, v, hbodies, union, _, ⟨hunion, rfl⟩, window, w,
      _, rfl, rfl⟩ := hrun
    obtain ⟨bs, rfl, hbs, hok⟩ :=
      branches_merged (fun part hpart => h part (List.mem_cons_of_mem _ hpart)) hbodies
    rcases unionCall_bodies hunion with hnil | rfl
    · rw [List.map_eq_nil_iff] at hnil
      subst hnil
      exact absurd (List.forall₂_nil_right_iff.mp hbs) hne
    · exact ⟨bs, _, rfl, hbs, hok, trivial⟩
  | .compositeConnection ⟨composite, relationship, branches, sort, page, items⟩ =>
    simp only [Field.lookupClauses, bind_ok, fresh_ok, lift_ok, pure_ok] at hrun
    obtain ⟨column, _, _, columns, u, _, bodies, v, hbodies, union, _, ⟨hunion, rfl⟩, collected, w,
      hcollected, entries, x, _, rfl, rfl⟩ := hrun
    obtain ⟨bs, rfl, hbs, hok, hnames⟩ :=
      connectionBranches_merged (fun part hpart => h part (List.mem_cons_of_mem _ hpart)) hbodies
    rcases unionCall_bodies hunion with hnil | rfl
    · rw [List.map_eq_nil_iff] at hnil
      subst hnil
      exact absurd (List.forall₂_nil_right_iff.mp hbs) hne
    · refine ⟨bs, _, rfl, hbs, hok, column, collected.2.edges, collected.2.total,
        entries.1 ++ [.give (.map entries.2) ctx.result], hnames, ?_⟩
      rw [← edgeList_collects hcollected]
      simp

end Branches

end GraphSelection.Program

namespace GraphSelection.Stage

open Cypher Program

/-- The works of every person, as a connection. -/
def worksCounted : Request :=
  { operation := .read
    entity := "Person"
    selection := [(Selection.leaf "worksConnection").select [.leaf "totalCount"]] }

/-- A node or a relationship, of which the branches can show its number and its title. -/
structure Thing where
  number : Nat
  title : String

mutual
/-- What an expression of the branches shows of the things that are named in a row. -/
def look (row : String → Thing) : Expr → List String
  | .var name => [toString (row name).number]
  | .literal (.string value) => [value]
  | .property (.var name) "title" => [(row name).title]
  | .map entries => "map" :: lookEntries row entries ++ ["end"]
  | .projection name items => "map" :: lookItems row name items ++ ["end"]
  | _ => []
def lookEntries (row : String → Thing) : List (String × Expr) → List String
  | [] => []
  | (key, e) :: rest => key :: look row e ++ lookEntries row rest
def lookItems (row : String → Thing) (name : String) : List (MapItem Expr) → List String
  | [] => []
  | .own key :: rest => key :: (row name).title :: lookItems row name rest
  | .entry key e :: rest => key :: look row e ++ lookItems row name rest
end

/-- The end of a path to the film over a relationship of the given number. -/
def reached (pattern : Pattern) (row : String → Thing) (number : Nat) (name : String) : Thing :=
  if name ∈ pattern.chain.flatMap (fun pair => pair.1.name.toList) then ⟨number, ""⟩
  else if (stop pattern).name = some name then ⟨2, "Emma"⟩
  else row name

/-- A person and a film, between which there are two relationships. -/
def worked (c : Clause) (rows : List (String → Thing)) : List (String → Thing) :=
  match c with
  | .matching pattern _ _ =>
      if (stop pattern).labels = ["Film"] then
        rows.flatMap fun row => [reached pattern row 3, reached pattern row 4]
      else []
  | _ => rows

def twice : PropertyGraph (String → Thing) (List String) where
  run cs rows := cs.foldl (fun rows c => worked c rows) rows
  value e row := look row e
  run_nil _ := rfl
  run_append _ _ _ := List.foldl_append
  run_single c h rows := by
    obtain ⟨imports, body, rfl, _⟩ := h
    rfl

/-- A lookup that merges branches. -/
def isMerged : Plan.Part → Bool
  | .lookup l => !(mergedScopes l).isEmpty
  | _ => false

/-- The branches of the union with which the call after the first match begins. -/
def branchesInside : List Clause → List (List Clause)
  | [_, .call _ (.call _ [.union bodies] :: _), _] => bodies
  | _ => []

end GraphSelection.Stage

namespace GraphSelection

open Cypher Plan Resolve Program

/-- What composites lose. In the program of a request every composite that has a branch is merged
from one branch for each of its scopes, whatever the graph holds. The merged rows are never more
than the matched nodes or edges, and they are as many exactly when there is a single branch or no
two matched ones look alike in all that is returned of them; a connection counts the merged rows. -/
theorem composite_rows (s : Setup) (r : Request) (p : Compiled) (h : compile s r = .ok p)
    (o : Operation) (ho : s.plan r = .ok o) (l : Lookup Field) (hl : .lookup l ∈ o.parts)
    (hne : mergedScopes l ≠ []) :
    ∃ bs rest, Holds (.call [] [.union (bs.map MergedBranch.body)] :: rest) p.clauses ∧
      List.Forall₂ (fun scope b => Matches (scopeRows l) scope b.found) (mergedScopes l) bs ∧
      (∀ b ∈ bs, b.Ok) ∧ Counts l bs rest ∧
      ∀ (ρ ν : Type) [DecidableEq ν] (g : PropertyGraph ρ ν) (rows : List ρ),
        (g.merged (bs.map MergedBranch.body) rows).length ≤ (g.matched bs rows).length ∧
          ((g.merged (bs.map MergedBranch.body) rows).length = (g.matched bs rows).length ↔
            bs.length = 1 ∨ (g.returnedOf (bs.map MergedBranch.body) rows).Nodup) := by
  obtain ⟨o', t, hplan, hprogram, _, _⟩ := Scoping.compile_ok h
  rw [ho] at hplan
  cases hplan
  have hoperation := Scoping.plan_ok ho
  have hshows : Shows o.parts p.clauses :=
    shows_programOf (fun c hc => Setup.operation_create (hc ▸ hoperation)) hprogram
  obtain ⟨hparts, ctx, supply, supply', block, hblock, hholds⟩ := hshows l hl
  have hbehind : ∀ part ∈ Field.lookupParts l, Behind part :=
    fun part hpart => behind_of_operation hoperation part (hparts hpart)
  obtain ⟨bs, rest, rfl, hbranches, hok, hcounts⟩ := lookupClauses_merges hbehind hne hblock
  exact ⟨bs, rest, hholds, hbranches, hok, hcounts, fun ρ ν _ g rows => g.merged_length hok rows⟩

theorem worksCounted_compiles : ∃ p, compile Stage.setup Stage.worksCounted = .ok p :=
  exists_of_isOk (by decide +kernel)

theorem worksCounted_plan : ∃ o l, Stage.setup.plan Stage.worksCounted = .ok o ∧
    .lookup l ∈ o.parts ∧ mergedScopes l ≠ [] := by
  have hany : (Stage.setup.plan Stage.worksCounted).toOption.any
      (fun o => o.parts.any Stage.isMerged) = true := by decide +kernel
  obtain ⟨o, ho, hmerges⟩ := exists_of_any hany
  obtain ⟨part, hpart, hmerged⟩ := List.any_eq_true.mp hmerges
  cases part with
  | lookup l => exact ⟨o, l, ho, hpart, by simpa [Stage.isMerged] using hmerged⟩
  | field f => cases hmerged
  | aggregate a => cases hmerged
  | newNode e n => cases hmerged
  | change m => cases hmerged
  | update u => cases hmerged
  | delete d => cases hmerged

theorem worksCounted_rows : ∃ p o l bs rest, compile Stage.setup Stage.worksCounted = .ok p ∧
    Stage.setup.plan Stage.worksCounted = .ok o ∧ .lookup l ∈ o.parts ∧ mergedScopes l ≠ [] ∧
    Holds (.call [] [.union (bs.map MergedBranch.body)] :: rest) p.clauses ∧
    List.Forall₂ (fun scope b => Matches (scopeRows l) scope b.found) (mergedScopes l) bs ∧
    ∀ (ρ ν : Type) [DecidableEq ν] (g : PropertyGraph ρ ν) (rows : List ρ),
      (g.merged (bs.map MergedBranch.body) rows).length ≤ (g.matched bs rows).length := by
  obtain ⟨p, h⟩ := worksCounted_compiles
  obtain ⟨o, l, ho, hl, hne⟩ := worksCounted_plan
  obtain ⟨bs, rest, hholds, hbranches, _, _, hrows⟩ :=
    composite_rows Stage.setup Stage.worksCounted p h o ho l hl hne
  exact ⟨p, o, l, bs, rest, h, ho, hl, hne, hholds, hbranches,
    fun ρ ν _ g rows => (hrows ρ ν g rows).1⟩

/-- A composite connection over two relationships between the same two nodes: two rows are matched
and one is left, which the connection counts. -/
theorem worksCounted_merged :
    ∃ p, compile Stage.setup Stage.worksCounted = .ok p ∧
      (Stage.twice.returnedOf (Stage.branchesInside p.clauses) [fun _ => ⟨1, ""⟩]).length = 2 ∧
      (Stage.twice.merged (Stage.branchesInside p.clauses) [fun _ => ⟨1, ""⟩]).length = 1 := by
  have hcounts : (compile Stage.setup Stage.worksCounted).toOption.any (fun p =>
      (Stage.twice.returnedOf (Stage.branchesInside p.clauses) [fun _ => ⟨1, ""⟩]).length == 2 &&
        (Stage.twice.merged (Stage.branchesInside p.clauses) [fun _ => ⟨1, ""⟩]).length == 1) =
      true := by
    decide +kernel
  obtain ⟨p, h, hlengths⟩ := exists_of_any hcounts
  rw [Bool.and_eq_true, beq_iff_eq, beq_iff_eq] at hlengths
  exact ⟨p, h, hlengths.1, hlengths.2⟩

end GraphSelection
