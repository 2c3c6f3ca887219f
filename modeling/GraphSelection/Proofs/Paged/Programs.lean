import GraphSelection.Proofs.Mentioned.Programs
import GraphSelection.Proofs.Paged.Requests
import GraphSelection.Proofs.Shown

/-!
The windows of a program. Wherever the page of a lookup has a size, a clause of the program puts the
rows in order and keeps only that many of them, before they are collected or returned. The steps of
a program only add parameters, so a parameter that a step makes is known by the whole program under
the same value.
-/
namespace GraphSelection.Program

open Cypher Plan

section Steps

variable {α β : Type} {env : Entries Doc} {p : α → Prop} {q : β → Prop} {i : Nat}
  {given : Set String} {m : α → Set String}

/-- If the parameters after a step are among those of the program, then so are the parameters before
it, and what it builds is as asked. -/
structure Assures (env : Entries Doc) (p : α → Prop) (x : Build α) : Prop where
  run : env.keys.Nodup → ∀ s a t, x s = .ok (a, t) → t.params <+: env → s.params <+: env ∧ p a

theorem assures_pure {a : α} (h : p a) : Assures env p (pure a) := by
  constructor
  intro _ s b t hrun hparams
  obtain ⟨rfl, rfl⟩ := (pure_ok a b s t).mp hrun
  exact ⟨hparams, h⟩

theorem assures_fail (f : Failure) : Assures env p (fail f) :=
  ⟨fun _ s a t hrun => ((fail_ok f s t a).mp hrun).elim⟩

/-- What is known of the first step is known where the second one ends. -/
theorem Assures.bind {x : Build α} {f : α → Build β} (hx : Assures env p x)
    (hf : ∀ a, Assures env (fun b => p a → q b) (f a)) : Assures env q (x >>= f) := by
  constructor
  intro hnodup s b u hrun hparams
  obtain ⟨a, t, ha, hb⟩ := (bind_ok x f s u b).mp hrun
  obtain ⟨hbetween, hq⟩ := (hf a).run hnodup t b u hb hparams
  obtain ⟨hstart, hp⟩ := hx.run hnodup s a t ha hbetween
  exact ⟨hstart, hq hp⟩

/-- Every step only adds parameters. -/
theorem Accounts.assures {x : Build α} (hx : Accounts i given m x) (hp : Ensures p x) :
    Assures env p x := by
  constructor
  intro _ s a t hrun hparams
  obtain ⟨added, _, _, hadded, _⟩ := hx.run s a t hrun
  have hgrown : s.params <+: t.params := ⟨added, hadded.symm⟩
  exact ⟨hgrown.trans hparams, hp.run s a t hrun⟩

/-- A step of which nothing has to be known. -/
theorem Accounts.skips {x : Build α} {f : α → Build β} (hx : Accounts i given m x)
    (hf : ∀ a, Assures env q (f a)) : Assures env q (x >>= f) := by
  have hany : Assures env (fun _ => True) x := hx.assures ⟨fun _ _ _ _ => trivial⟩
  exact hany.bind fun a => ⟨fun hnodup s b t hrun hparams =>
    ⟨((hf a).run hnodup s b t hrun hparams).1, fun _ => ((hf a).run hnodup s b t hrun hparams).2⟩⟩

theorem assures_skip {f : String → Build β} (hint : String) (hf : ∀ name, Assures env q (f name)) :
    Assures env q (fresh hint >>= f) := by
  have hname : Accounts 0 ∅ (fun _ => ∅) (fresh hint) := accounts_fresh hint
  exact hname.skips hf

theorem assures_fault {x : Except Failure α} {f : α → Build β}
    (hf : ∀ a, x = .ok a → Assures env q (f a)) : Assures env q ((liftM x : Build α) >>= f) := by
  constructor
  intro hnodup s b u hrun
  obtain ⟨a, t, ha, hb⟩ := (bind_ok _ f s u b).mp hrun
  obtain ⟨hx, rfl⟩ := (lift_ok x s t a).mp ha
  exact (hf a hx).run hnodup s b u hb

theorem Assures.mono {x : Build α} {p' : α → Prop} (h : Assures env p x)
    (himp : ∀ a, p a → p' a) : Assures env p' x := by
  constructor
  intro hnodup s a t hrun hparams
  obtain ⟨hstart, hp⟩ := h.run hnodup s a t hrun hparams
  exact ⟨hstart, himp a hp⟩

/-- What a step builds is the outcome of a run of it. -/
theorem Assures.runs {x : Build α} (h : Assures env p x) :
    Assures env (fun a => (∃ s t, x s = .ok (a, t)) ∧ p a) x := by
  constructor
  intro hnodup s a t hrun hparams
  obtain ⟨hstart, hp⟩ := h.run hnodup s a t hrun hparams
  exact ⟨hstart, ⟨s, t, hrun⟩, hp⟩

theorem assures_param (value : Doc) :
    Assures env (fun e => ∃ x, e = .param x ∧ env.get? x = some value) (param value) := by
  constructor
  intro hnodup s e t hrun hparams
  obtain ⟨rfl, rfl⟩ := (param_ok value e s t).mp hrun
  obtain ⟨rest, hrest⟩ := hparams
  have hsplit : env = s.params ++ (s.name "param", value) :: rest := by simpa using hrest.symm
  -- No earlier parameter has the name, so that looking it up finds this one.
  refine ⟨⟨_, hsplit.symm⟩, s.name "param", rfl, ?_⟩
  refine List.lookup_eq_some_iff.mpr ⟨s.params, rest, hsplit, fun entry hentry => ?_⟩
  rw [hsplit, Entries.keys, List.map_append] at hnodup
  have hapart := (List.nodup_append.mp hnodup).2.2
  have hne : entry.1 ≠ s.name "param" :=
    hapart entry.1 (List.mem_map_of_mem hentry) _ (by simp)
  simpa using fun heq => hne heq.symm

end Steps

section Windows

variable {env : Entries Doc} {size : Nat} {ctx : Context}

/-- The expression is a parameter with the number as its value. -/
def Bounded (env : Entries Doc) (size : Nat) (e : Option Expr) : Prop :=
  ∃ x, e = some (.param x) ∧ env.get? x = some (Doc.ofCount size)

/-- The clause puts the rows in order and keeps as many of them as a parameter says. -/
def Cuts (env : Entries Doc) (size : Nat) (order : List (OrderKey Expr)) (c : Clause) : Prop :=
  ∃ columns skip limit, c = .carry columns false order skip limit none ∧ Bounded env size limit

/-- The last clause cuts the rows, in the order of the values of the sort keys. -/
def CutsBy (env : Entries Doc) (size : Nat) (ctx : Context) (sort : List SortKey)
    (cs : List Clause) : Prop :=
  ∃ calls keys s t cut, sortValues ctx sort s = .ok ((calls, keys), t) ∧ cs = calls ++ [cut] ∧
    Cuts env size keys cut

/-- The edges are taken from their list, cut, and only then collected. -/
def CutsEdges (env : Entries Doc) (size : Nat) (sort : List SortKey)
    (typename : Option (String × String)) (result : String) (c : Clause) : Prop :=
  ∃ ctx edges edge window calls entries,
    c = .call [edges]
      (unpackEdge ctx edges edge ++ window ++ calls ++ [edgesResult entries typename result]) ∧
    CutsBy env size ctx sort window

/-- The edges of a composite hold the values of the sort keys. -/
def CutsMergedEdges (env : Entries Doc) (size : Nat) (sort : List SortKey)
    (typename : Option (String × String)) (result : String) (c : Clause) : Prop :=
  ∃ edges edge columns cut entries,
    c = .call [edges] [.unwind (.var edges) edge, cut, edgesResult entries typename result] ∧
    Cuts env size (mergedOrder (Expr.propertyOf edge) sort columns) cut

/-- Each edges item of a connection is answered by a call that cuts the edges. -/
def CutsItems {φ : Type} (cuts : Option (String × String) → String → Clause → Prop)
    (items : List (ConnectionItem φ)) (r : List Clause × List (String × Expr)) : Prop :=
  ∀ key node properties typename, .edges key node properties typename ∈ items →
    ∃ call ∈ r.1, ∃ result, (key, .var result) ∈ r.2 ∧ cuts typename result call

/-- The rows of a lookup are cut to a size after they are put in order, and before they are
collected or returned. -/
def Paged (env : Entries Doc) (size : Nat) : Lookup Field → List Clause → Prop
  | .read r, block =>
      ∃ ctx found window calls projection,
        block = found ++ window ++ calls ++ readResult ctx r.scope projection ∧
        CutsBy env size ctx r.sort window
  | .composite c, block =>
      ∃ ctx union cut column columns,
        block = [union, cut, compositeResult ctx c.relationship column] ∧
        Cuts env size (mergedOrder .var c.sort columns) cut
  | .connection c, block =>
      ∃ before calls entries result, block = before ++ calls ++ [.give (.map entries) result] ∧
        CutsItems (CutsEdges env size c.sort) c.items (calls, entries)
  | .compositeConnection c, block =>
      ∃ before calls entries result, block = before ++ calls ++ [.give (.map entries) result] ∧
        CutsItems (CutsMergedEdges env size c.sort) c.items (calls, entries)

theorem assures_countParam (bound : Option Nat) :
    Assures env (fun e => ∀ size, bound = some size → Bounded env size e) (countParam bound) := by
  cases bound with
  | none => exact assures_pure (by simp)
  | some n =>
    refine (assures_param (Doc.ofCount n)).bind fun e => assures_pure ?_
    rintro ⟨x, rfl, hx⟩ size hsize
    cases hsize
    exact ⟨x, rfl, hx⟩

theorem assures_bounds (page : Page) :
    Assures env (fun b => ∀ size, page.limit = some size → Bounded env size b.limit)
      (bounds page) := by
  refine (accounts_countParam page.skip true).skips fun skip => ?_
  exact (assures_countParam page.limit).bind fun limit => assures_pure fun h => h

theorem not_isWhole {b : Bounds} (h : Bounded env size b.limit) : b.isWhole = false := by
  obtain ⟨x, hx, _⟩ := h
  simp [Bounds.isWhole, hx]

theorem assures_orderedWindow (sort : List SortKey) (b : Bounds) :
    Assures env (fun cs => ∀ size, Bounded env size b.limit → CutsBy env size ctx sort cs)
      (orderedWindow ctx sort b) := by
  unfold orderedWindow
  split
  next h =>
    refine assures_pure fun size hsize => ?_
    rw [not_isWhole hsize, Bool.and_false] at h
    cases h
  next =>
    have hvalues : Assures env (fun r => ∃ s t, sortValues ctx sort s = .ok (r, t))
        (sortValues ctx sort) :=
      (accounts_sortValues sort).assures ⟨fun s r t hrun => ⟨s, t, hrun⟩⟩
    refine hvalues.bind fun r => assures_pure ?_
    rintro ⟨s, t, hrun⟩ size hsize
    exact ⟨r.1, r.2, s, t, _, hrun, rfl, _, b.skip, b.limit, rfl, hsize⟩

theorem assures_arranged (sort : List SortKey) (page : Page) :
    Assures env (fun cs => ∀ size, page.limit = some size → CutsBy env size ctx sort cs)
      (arranged ctx sort page) := by
  unfold arranged
  split
  next h =>
    refine assures_pure fun size hsize => ?_
    simp [Page.isWhole, hsize] at h
  next =>
    refine (assures_bounds page).bind fun b => ?_
    exact (assures_orderedWindow sort b).mono fun cs hcuts hbounds size hsize =>
      hcuts size (hbounds size hsize)

/-- The bounds of a page are made where the edges are asked for. -/
theorem assures_edgeList {φ : Type} (edge : Expr) (items : List (ConnectionItem φ)) (page : Page) :
    Assures env (fun r => ∀ size, page.limit = some size →
        ∀ key node properties typename, .edges key node properties typename ∈ items →
          Bounded env size r.2.bounds.limit)
      (edgeList edge items page) := by
  refine assures_skip _ fun edges => assures_skip _ fun total => ?_
  split
  · exact (assures_bounds page).bind fun b => assures_pure fun hb size hsize _ _ _ _ _ =>
      hb size hsize
  next hneeds =>
    refine assures_pure fun size _ key node properties typename hitem => absurd ?_ hneeds
    exact List.any_eq_true.mpr ⟨_, hitem, rfl⟩

theorem assures_mergedWindow (column : String) (sort : List SortKey) (columns : List String)
    (page : Page) :
    Assures env (fun cs => ∀ size, page.limit = some size →
        ∃ cut, cs = [cut] ∧ Cuts env size (mergedOrder .var sort columns) cut)
      (mergedWindow column sort columns page) := by
  unfold mergedWindow
  split
  next h =>
    refine assures_pure fun size hsize => ?_
    simp [Page.isWhole, hsize] at h
  next =>
    refine (assures_bounds page).bind fun b => assures_pure fun hb size hsize => ?_
    exact ⟨_, rfl, _, b.skip, b.limit, rfl, hb size hsize⟩

/-- Items beside the edges are answered without a window. -/
theorem CutsItems.cons {φ : Type} {cuts : Option (String × String) → String → Clause → Prop}
    {item : ConnectionItem φ} {rest : List (ConnectionItem φ)} (calls : List Clause)
    {entry : String × Expr} {r : List Clause × List (String × Expr)}
    (hitem : ∀ key node properties typename, item = .edges key node properties typename →
      ∃ call ∈ calls, ∃ result, entry = (key, .var result) ∧ cuts typename result call)
    (hrest : CutsItems cuts rest r) :
    CutsItems cuts (item :: rest) (calls ++ r.1, entry :: r.2) := by
  intro key node properties typename hmem
  rcases List.mem_cons.mp hmem with heq | hmem
  · obtain ⟨call, hcall, result, rfl, hcuts⟩ := hitem key node properties typename heq.symm
    exact ⟨call, List.mem_append_left _ hcall, result, List.mem_cons_self, hcuts⟩
  · obtain ⟨call, hcall, result, hresult, hcuts⟩ := hrest key node properties typename hmem
    exact ⟨call, List.mem_append_right _ hcall, result, List.mem_cons_of_mem _ hresult, hcuts⟩

theorem assures_mergedEdgesCall (l : EdgeList) (sort : List SortKey) (columns : List String)
    (node properties : Option String) (typename : Option (String × String)) :
    Assures env (fun r => ∀ size, Bounded env size l.bounds.limit →
        ∃ call result, r = ([call], .var result) ∧
          CutsMergedEdges env size sort typename result call)
      (mergedEdgesCall l sort columns node properties typename) := by
  refine assures_skip _ fun result => assures_skip _ fun edge => assures_pure fun size hsize => ?_
  rw [not_isWhole hsize, Bool.and_false, if_neg Bool.false_ne_true]
  exact ⟨_, result, rfl, l.edges, edge, columns, _, _, rfl, _, l.bounds.skip, l.bounds.limit, rfl,
    hsize⟩

theorem assures_mergedEntries {φ : Type} (l : EdgeList) (composite : String) (sort : List SortKey)
    (columns : List String) (items : List (ConnectionItem φ)) :
    Assures env (fun r => ∀ size, Bounded env size l.bounds.limit →
        CutsItems (CutsMergedEdges env size sort) items r)
      (mergedEntries l composite sort columns items) := by
  induction items with
  | nil => exact assures_pure fun size _ key node properties typename h => by simp at h
  | cons item rest ih =>
    refine Assures.bind (p := fun r : List Clause × Expr => ∀ size,
      Bounded env size l.bounds.limit → ∀ key node properties typename,
        item = .edges key node properties typename →
          ∃ call ∈ r.1, ∃ result, (item.key, r.2) = (key, .var result) ∧
            CutsMergedEdges env size sort typename result call) ?_ fun first => ?_
    · cases item with
      | edges key node properties typename =>
        refine (assures_mergedEdgesCall l sort columns _ _ typename).mono ?_
        rintro r hr size hsize _ _ _ _ ⟨⟩
        obtain ⟨call, result, rfl, hcuts⟩ := hr size hsize
        exact ⟨call, List.mem_singleton_self call, result, rfl, hcuts⟩
      | aggregate key items => exact assures_fail _
      | totalCount key => exact assures_pure fun _ _ _ _ _ _ heq => by cases heq
      | pageInfo key fields => exact assures_pure fun _ _ _ _ _ _ heq => by cases heq
      | typename key typeName => exact assures_pure fun _ _ _ _ _ _ heq => by cases heq
    · exact ih.bind fun more => assures_pure fun hmore hfirst size hsize =>
        .cons _ (hfirst size hsize) (hmore size hsize)

end Windows

/-- The clauses are what is written for the lookup. -/
def Renders (l : Lookup Field) (clauses : List Clause) : Prop :=
  ∃ ctx s t, Field.lookupClauses ctx l s = .ok (clauses, t)

/-- The lookup is written in the clauses, with its rows cut to the size. -/
def Keeps (env : Entries Doc) (size : Nat) (l : Lookup Field) (clauses : List Clause) : Prop :=
  ∃ block, Renders l block ∧ Paged env size l block ∧ Holds block clauses

/-- The lookups among the parts are written in the clauses, cut to the sizes of their pages. -/
def Windowed (env : Entries Doc) (parts : List Part) (clauses : List Clause) : Prop :=
  ∀ l size, .lookup l ∈ parts → l.page.limit = some size → Keeps env size l clauses

/-- The lookups among the parts are written in some of the branches. -/
def WindowedIn (env : Entries Doc) (parts : List Part) (bodies : List (List Clause)) : Prop :=
  ∀ l size, .lookup l ∈ parts → l.page.limit = some size → ∃ body ∈ bodies, Keeps env size l body

namespace Windowed

variable {env : Entries Doc} {parts parts' : List Part} {xs : List Clause}

theorem mono {ys : List Clause} (h : Windowed env parts xs)
    (hsub : ∀ block, Holds block xs → Holds block ys) : Windowed env parts ys := by
  intro l size hl hsize
  obtain ⟨block, hrenders, hpaged, hholds⟩ := h l size hl hsize
  exact ⟨block, hrenders, hpaged, hsub block hholds⟩

theorem left (h : Windowed env parts xs) (ys : List Clause) : Windowed env parts (xs ++ ys) :=
  h.mono fun _ hholds => hholds.left ys

theorem right (h : Windowed env parts xs) (ys : List Clause) : Windowed env parts (ys ++ xs) :=
  h.mono fun _ hholds => hholds.right ys

theorem append (h : Windowed env parts xs) (h' : Windowed env parts' xs) :
    Windowed env (parts ++ parts') xs := by
  intro l size hl
  rcases List.mem_append.mp hl with hl | hl
  · exact h l size hl
  · exact h' l size hl

/-- Parts among which there is no lookup. -/
theorem silent (h : ∀ l, .lookup l ∉ parts) : Windowed env parts xs :=
  fun l _ hl => absurd hl (h l)

theorem field (f : Field) (h : Windowed env parts xs) : Windowed env (.field f :: parts) xs := by
  have hfirst : Windowed env [.field f] xs := silent (by simp)
  exact hfirst.append h

end Windowed

theorem WindowedIn.cons {env : Entries Doc} {parts parts' : List Part} {body : List Clause}
    {bodies : List (List Clause)} (h : Windowed env parts body)
    (h' : WindowedIn env parts' bodies) :
    WindowedIn env (parts ++ parts') (body :: bodies) := by
  intro l size hl hsize
  rcases List.mem_append.mp hl with hl | hl
  · exact ⟨body, List.mem_cons_self, h l size hl hsize⟩
  · obtain ⟨body', hbody, hblock⟩ := h' l size hl hsize
    exact ⟨body', List.mem_cons_of_mem _ hbody, hblock⟩

/-- What stands in a branch stands in the union; without branches nothing does. -/
theorem WindowedIn.union {env : Entries Doc} {parts : List Part} {composite column : String}
    {bodies : List (List Clause)} {union : Clause} (h : WindowedIn env parts bodies)
    (hunion : unionCall composite bodies column = .ok union) : Windowed env parts [union] := by
  intro l size hl hsize
  obtain ⟨body, hbody, block, hrenders, hpaged, hholds⟩ := h l size hl hsize
  rcases unionCall_bodies hunion with rfl | rfl
  · exact absurd hbody List.not_mem_nil
  · exact ⟨block, hrenders, hpaged, Holds.inCall [] (.branch [] [] hbody hholds)⟩

section Fields

variable {env : Entries Doc}

/-- A lookup is written as a whole, with the lookups inside it. -/
theorem Assures.lookup {ctx : Context} {l : Lookup Field} {parts : List Part}
    (hparts : Field.lookupParts l = .lookup l :: parts)
    (h : Assures env (fun clauses =>
      (∀ size, l.page.limit = some size → Paged env size l clauses) ∧ Windowed env parts clauses)
      (Field.lookupClauses ctx l)) :
    Assures env (Windowed env (Field.lookupParts l)) (Field.lookupClauses ctx l) := by
  refine h.runs.mono fun clauses => ?_
  rintro ⟨⟨s, t, hrun⟩, hpaged, hbelow⟩ l' size hl' hsize
  rcases List.mem_cons.mp (hparts ▸ hl') with heq | hl'
  · cases heq
    exact ⟨clauses, ⟨ctx, s, t, hrun⟩, hpaged size hsize, holds_self clauses⟩
  · exact hbelow l' size hl' hsize

theorem assures_nestedCall {ctx : Context} {parts : List Part}
    {body : Context → Build (List Clause)}
    (h : ∀ inner, Assures env (Windowed env parts) (body inner)) :
    Assures env (fun r => Windowed env parts r.1) (nestedCall ctx body) := by
  refine assures_skip _ fun edge => assures_skip _ fun node => assures_skip _ fun result => ?_
  exact (h _).bind fun clauses => assures_pure fun hclauses =>
    hclauses.mono fun _ hholds => hholds.inCall _

mutual
theorem assures_item (ctx : Context) (f : Field) :
    Assures env (fun r => Windowed env f.parts r.1) (Field.item ctx f) := by
  match f with
  | .lookup key l =>
    refine (assures_nestedCall fun inner => assures_lookupClauses inner l).bind fun r => ?_
    exact assures_pure fun hr => .field _ hr
  | .stored key a =>
    exact (accounts_item ctx (.stored key a)).assures
      ⟨fun _ _ _ _ => .silent (by simp [Field.parts])⟩
  | .computed key a =>
    exact (accounts_item ctx (.computed key a)).assures
      ⟨fun _ _ _ _ => .silent (by simp [Field.parts])⟩
  | .typename key typeName =>
    exact (accounts_item ctx (.typename key typeName)).assures
      ⟨fun _ _ _ _ => .silent (by simp [Field.parts])⟩
  | .aggregate key a =>
    exact (accounts_item ctx (.aggregate key a)).assures
      ⟨fun _ _ _ _ => .silent (by simp [Field.parts])⟩
theorem assures_items (ctx : Context) (fields : List Field) :
    Assures env (fun r => Windowed env (Field.partsOf fields) r.1) (Field.items ctx fields) := by
  match fields with
  | [] => exact assures_pure (.silent fun _ => List.not_mem_nil)
  | f :: rest =>
    refine (assures_item ctx f).bind fun first => (assures_items ctx rest).bind fun more => ?_
    exact assures_pure fun hmore hfirst => (hfirst.left _).append (hmore.right _)
theorem assures_lookupClauses (ctx : Context) (l : Lookup Field) :
    Assures env (Windowed env (Field.lookupParts l)) (Field.lookupClauses ctx l) := by
  match l with
  | .read ⟨scope, fields, sort, page⟩ =>
    refine .lookup rfl ?_
    refine (accounts_distinctNodes scope).skips fun found => ?_
    refine (assures_arranged sort page).bind fun window => ?_
    refine (assures_items ctx fields).bind fun r => assures_pure fun hfields hwindow => ?_
    refine ⟨fun size hsize => ?_, (hfields.right _).left _⟩
    exact ⟨ctx, found, window, r.1, _, rfl, hwindow size hsize⟩
  | .connection ⟨scope, sort, page, items⟩ =>
    refine .lookup rfl ?_
    refine (accounts_scopeMatch scope).skips fun found => ?_
    refine (assures_edgeList _ items page).bind fun edges => ?_
    refine (assures_entries ctx edges.2 sort items).bind fun r => assures_pure ?_
    intro hentries hedges
    refine ⟨fun size hsize => ?_, (hentries.1.right _).left _⟩
    refine ⟨_, r.1, r.2, ctx.result, rfl, ?_⟩
    intro key node properties typename hitem
    have hsize := hedges size hsize key node properties typename hitem
    exact hentries.2 size hsize key node properties typename hitem
  | .composite ⟨composite, relationship, branches, sort, page⟩ =>
    refine .lookup rfl ?_
    refine assures_skip _ fun column => (accounts_sortColumns sort).skips fun columns => ?_
    refine (assures_branches ctx column columns true branches).bind fun bodies => ?_
    refine assures_fault fun union hunion => ?_
    refine (assures_mergedWindow column sort columns page).bind fun window => assures_pure ?_
    intro hwindow hbodies
    refine ⟨fun size hsize => ?_, (hbodies.union hunion).left _⟩
    obtain ⟨cut, rfl, hcut⟩ := hwindow size hsize
    exact ⟨ctx, union, cut, column, columns, rfl, hcut⟩
  | .compositeConnection ⟨composite, relationship, branches, sort, page, items⟩ =>
    refine .lookup rfl ?_
    refine assures_skip _ fun column => (accounts_sortColumns sort).skips fun columns => ?_
    refine (assures_connectionBranches ctx column columns true branches).bind fun bodies => ?_
    refine assures_fault fun union hunion => ?_
    refine (assures_edgeList _ items page).bind fun edges => ?_
    refine (assures_mergedEntries edges.2 composite.name sort columns items).bind fun r =>
      assures_pure ?_
    intro hentries hedges hbodies
    refine ⟨fun size hsize => ?_, ((hbodies.union hunion).left _).left _⟩
    refine ⟨union :: edges.1, r.1, r.2, ctx.result, by simp, ?_⟩
    intro key node properties typename hitem
    have hsize := hedges size hsize key node properties typename hitem
    exact hentries size hsize key node properties typename hitem
theorem assures_entries (ctx : Context) (l : EdgeList) (sort : List SortKey)
    (items : List (ConnectionItem Field)) :
    Assures env (fun r => Windowed env (Field.itemParts items) r.1 ∧
        ∀ size, Bounded env size l.bounds.limit → CutsItems (CutsEdges env size sort) items r)
      (Field.entries ctx l sort items) := by
  match items with
  | [] =>
    exact assures_pure ⟨.silent fun _ => List.not_mem_nil,
      fun size _ key node properties typename h => by simp at h⟩
  | .edges key node properties typename :: rest =>
    refine assures_skip _ fun result => assures_skip _ fun edge => ?_
    refine (assures_orderedWindow sort l.bounds).bind fun window => ?_
    refine (assures_nodeEntry ctx node).bind fun shown => assures_fault fun entries _ => ?_
    refine (assures_entries ctx l sort rest).bind fun more => assures_pure ?_
    intro hmore hshown hwindow
    refine ⟨.append ?_ (hmore.1.mono fun _ hholds => hholds.cons _), fun size hsize => ?_⟩
    · exact hshown.mono fun _ hholds => (((hholds.right _).left _).inCall _).left more.1
    · refine .cons [_] ?_ (hmore.2 size hsize)
      rintro _ _ _ _ ⟨⟩
      exact ⟨_, List.mem_singleton_self _, result, rfl, ctx, l.edges, edge, window, shown.1, _, rfl,
        hwindow size hsize⟩
  | .aggregate key aggregates :: rest =>
    refine (accounts_aggregateEntries (accounts_edgeMeasureCall l.edges) aggregates).skips
      fun group => ?_
    refine (assures_entries ctx l sort rest).bind fun more => assures_pure fun hmore => ?_
    exact ⟨hmore.1.right _, fun size hsize =>
      .cons _ (fun _ _ _ _ heq => by cases heq) (hmore.2 size hsize)⟩
  | .totalCount key :: rest =>
    refine (assures_entries ctx l sort rest).bind fun more => assures_pure fun hmore => ?_
    exact ⟨hmore.1, fun size hsize =>
      .cons [] (fun _ _ _ _ heq => by cases heq) (hmore.2 size hsize)⟩
  | .pageInfo key fields :: rest =>
    refine (assures_entries ctx l sort rest).bind fun more => assures_pure fun hmore => ?_
    exact ⟨hmore.1, fun size hsize =>
      .cons [] (fun _ _ _ _ heq => by cases heq) (hmore.2 size hsize)⟩
  | .typename key typeName :: rest =>
    refine (assures_entries ctx l sort rest).bind fun more => assures_pure fun hmore => ?_
    exact ⟨hmore.1, fun size hsize =>
      .cons [] (fun _ _ _ _ heq => by cases heq) (hmore.2 size hsize)⟩
theorem assures_nodeEntry (ctx : Context) (node : Option (String × List Field)) :
    Assures env (fun r => Windowed env (Field.nodeParts node) r.1) (Field.nodeEntry ctx node) := by
  match node with
  | none => exact assures_pure (.silent fun _ => List.not_mem_nil)
  | some (key, fields) =>
    exact (assures_items ctx fields).bind fun r => assures_pure fun hr => hr
theorem assures_branches (ctx : Context) (column : String) (columns : List String)
    (isFirst : Bool) (branches : List (Read Field)) :
    Assures env (WindowedIn env (Field.branchParts branches))
      (Field.branches ctx column columns isFirst branches) := by
  match branches with
  | [] => exact assures_pure fun l size hl => absurd hl List.not_mem_nil
  | ⟨scope, fields, sort, page⟩ :: rest =>
    refine (accounts_branchContext isFirst).skips fun own => ?_
    refine accounts_importParent.skips fun start => ?_
    refine (accounts_distinctNodes scope).skips fun found => ?_
    refine (assures_items own fields).bind fun shown => ?_
    refine (accounts_branchKeys sort columns).skips fun keys => ?_
    refine (assures_branches ctx column columns false rest).bind fun bodies => assures_pure ?_
    exact fun hbodies hshown => .cons (((hshown.right _).left _).left _) hbodies
theorem assures_connectionBranches (ctx : Context) (column : String) (columns : List String)
    (isFirst : Bool) (branches : List (ConnectionBranch Field)) :
    Assures env (WindowedIn env (Field.connectionBranchParts branches))
      (Field.connectionBranches ctx column columns isFirst branches) := by
  match branches with
  | [] => exact assures_pure fun l size hl => absurd hl List.not_mem_nil
  | ⟨⟨scope, fields, sort, page⟩, edgeFields⟩ :: rest =>
    refine (accounts_branchContext isFirst).skips fun own => ?_
    refine accounts_importParent.skips fun start => ?_
    refine (accounts_scopeMatch scope).skips fun found => ?_
    refine (assures_items own fields).bind fun shown => assures_fault fun properties _ => ?_
    refine (accounts_branchKeys sort columns).skips fun keys => ?_
    refine (assures_connectionBranches ctx column columns false rest).bind fun bodies =>
      assures_pure ?_
    exact fun hbodies hshown => .cons (((hshown.right _).left _).left _) hbodies
end

end Fields

end GraphSelection.Program

namespace GraphSelection

open Cypher Plan Resolve Program

/-- How often the fields of the operation are answered: a creation answers them for each of its new
nodes. -/
def Plan.Operation.answers : Operation → Nat
  | .create c => c.nodes.length
  | _ => 1

namespace Program

variable {env : Entries Doc}

/-- The program has a piece of its own for each answer, and the lookups of the plan stand in each
of the pieces. -/
def Pieced (env : Entries Doc) (o : Operation) (pieces : List (List Clause))
    (clauses : List Clause) : Prop :=
  pieces.length = o.answers ∧ Holds pieces.flatten clauses ∧
    ∀ piece ∈ pieces, Windowed env o.parts piece

theorem assures_projections (fields : List Field) (contexts : List Context) :
    Assures env (fun r => ∃ pieces : List (List Clause), pieces.length = contexts.length ∧
        r.1 = pieces.flatten ∧ ∀ piece ∈ pieces, Windowed env (Field.partsOf fields) piece)
      (projections fields contexts) := by
  induction contexts with
  | nil => exact assures_pure ⟨[], rfl, rfl, by simp⟩
  | cons ctx rest ih =>
    refine (assures_items ctx fields).bind fun first => ih.bind fun more => assures_pure ?_
    rintro ⟨pieces, hlength, hflatten, hpieces⟩ hfirst
    exact ⟨first.1 :: pieces, congrArg Nat.succ hlength, congrArg (first.1 ++ ·) hflatten,
      List.forall_mem_cons.mpr ⟨hfirst, hpieces⟩⟩

theorem pieced_whole {o : Operation} {piece clauses : List Clause} (ho : o.answers = 1)
    (hholds : Holds piece clauses) (h : Windowed env o.parts piece) :
    Pieced env o [piece] clauses :=
  ⟨ho.symm, by simpa using hholds, List.forall_mem_singleton.mpr h⟩

theorem assures_programOf (terms : Terms) (o : Operation) :
    Assures env (fun clauses => ∃ pieces, Pieced env o pieces clauses) (programOf terms o) := by
  refine assures_skip _ fun subject => ?_
  cases o with
  | lookup l =>
    refine (assures_lookupClauses _ l).mono fun clauses h => ?_
    exact ⟨[clauses], pieced_whole rfl (holds_self clauses) h⟩
  | aggregate a =>
    refine (accounts_aggregateClauses a).assures ⟨fun _ clauses _ _ => ?_⟩
    exact ⟨[clauses], pieced_whole rfl (holds_self clauses) (.silent (by simp [Operation.parts]))⟩
  | create c =>
    have hnodes : ∀ ctx, Assures env
        (fun r : List Clause × List Context => r.2.length = c.nodes.length)
        (newNodes ctx c.entity true c.nodes) := fun ctx =>
      (accounts_newNodes c.entity true c.nodes).assures (newNodes_contexts c.entity true c.nodes)
    refine (hnodes _).bind fun r => (assures_projections c.fields r.2).bind fun shown =>
      assures_pure ?_
    rintro ⟨pieces, hlength, hflatten, hpieces⟩ hcontexts
    refine ⟨pieces, hlength.trans hcontexts, ?_, fun piece hpiece l size hl => ?_⟩
    · rw [hflatten]
      exact .here r.1 _
    · exact hpieces piece hpiece l size (Operation.read_of_create hl trivial)
  | update u =>
    refine (accounts_filteredMatch _ u.filter).skips fun found => ?_
    refine (accounts_validated u.before).skips fun first => ?_
    refine (accounts_assigned _ u.assignments).skips fun own => ?_
    refine (accounts_after _ _ u.nested).skips fun written => ?_
    refine (accounts_validated u.after).skips fun last => ?_
    refine (assures_items _ u.fields).bind fun shown => assures_pure fun h => ?_
    exact ⟨[shown.1], pieced_whole rfl (((holds_self shown.1).andThen_right _).left _)
      fun l size hl => h l size (Operation.read_of_update hl trivial)⟩
  | delete d =>
    refine (accounts_deleteClauses d).assures ⟨fun _ clauses _ _ => ?_⟩
    exact ⟨[clauses], pieced_whole rfl (holds_self clauses)
      (.silent fun _ hl => Operation.not_isRead_of_delete hl trivial)⟩

end Program

/-- Every list that a program reads stands for an entry of the request. If there is a maximum for
it, then wherever the program reads it a clause keeps no more rows than that: as many as the entry
asks for, else as many as are read by default. -/
theorem compile_paged (s : Setup) (r : Request) (p : Compiled) (h : compile s r = .ok p) :
    ∃ o, s.plan r = .ok o ∧ ∃ pieces : List (List Clause), pieces.length = o.answers ∧
      Holds pieces.flatten p.clauses ∧
      ∀ l, .lookup l ∈ o.parts → ∃ q, Asks r q ∧ s.Finds q l ∧
        ∀ max, l.isList = true → s.maxSize l = some max →
          ∃ size, l.page.limit = some size ∧ s.Sizes q l max size ∧
            ∀ piece ∈ pieces, Keeps p.params size l piece := by
  obtain ⟨o, t, hplan, hprogram, hparams, _⟩ := Scoping.compile_ok h
  obtain ⟨_, pieces, hlength, hholds, hpieces⟩ :=
    (assures_programOf s.terms o).run (keys_nodup hplan hprogram hparams) {} p.clauses t hprogram
      (hparams ▸ List.prefix_refl t.params)
  refine ⟨o, hplan, pieces, hlength, hholds, fun l hl => ?_⟩
  obtain ⟨q, hasks, hfinds⟩ := Setup.operation_finds (Scoping.plan_ok hplan) hl
  refine ⟨q, hasks, hfinds, fun max hlist hmax => ?_⟩
  obtain ⟨size, hsize, hsizes⟩ := Setup.finds_sizes hfinds hlist hmax
  exact ⟨size, hsize, hsizes, fun piece hpiece => hpieces piece hpiece l size hl hsize⟩

/-- No more than ten rows at once. -/
def Stage.capped : Setup := ⟨Stage.schema, { maxLimit := some 10 }, {}⟩

/-- More persons than that, with all their works. -/
def Stage.crowd : Request :=
  { operation := .read
    entity := "Person"
    args := [("limit", .int 25)]
    selection := [.leaf "born", (Selection.leaf "works").select [.leaf "title"]] }

def Plan.Operation.lookup? : Operation → Option (Lookup Field)
  | .lookup l => some l
  | _ => none

theorem crowd_plan :
    ∃ l, Stage.capped.plan Stage.crowd = .ok (.lookup l) ∧ l.isList = true ∧
      Stage.capped.maxSize l = some 10 ∧ l.page.limit = some 10 := by
  have hsome : (Stage.capped.plan Stage.crowd).toOption.any (fun o => o.lookup?.any fun l =>
      decide (l.isList = true ∧ Stage.capped.maxSize l = some 10 ∧ l.page.limit = some 10)) =
        true := by
    decide +kernel
  obtain ⟨o, h, hcapped⟩ := exists_of_any hsome
  cases o with
  | lookup l => exact ⟨l, h, of_decide_eq_true hcapped⟩
  | aggregate _ | create _ | update _ | delete _ => cases hcapped

/-- Ten persons are kept of those that are asked for. -/
theorem crowd_paged :
    ∃ p l, compile Stage.capped Stage.crowd = .ok p ∧
      Stage.capped.plan Stage.crowd = .ok (.lookup l) ∧
      ∃ pieces : List (List Clause), pieces.length = 1 ∧ Holds pieces.flatten p.clauses ∧
        ∀ piece ∈ pieces, Keeps p.params 10 l piece := by
  obtain ⟨p, h⟩ : ∃ p, compile Stage.capped Stage.crowd = .ok p :=
    exists_of_isOk (by decide +kernel)
  obtain ⟨l, hplan, hlist, hmax, hlimit⟩ := crowd_plan
  obtain ⟨o, ho, pieces, hlength, hholds, hlookups⟩ := compile_paged Stage.capped Stage.crowd p h
  obtain rfl : Operation.lookup l = o := Except.ok.inj (hplan.symm.trans ho)
  have hroot : .lookup l ∈ (Operation.lookup l).parts := by
    cases l <;> exact List.mem_cons_self
  obtain ⟨q, _, _, hsizes⟩ := hlookups l hroot
  obtain ⟨size, hsize, _, hkeeps⟩ := hsizes 10 hlist hmax
  obtain rfl : size = 10 := Option.some.inj (hsize.symm.trans hlimit)
  exact ⟨p, l, h, hplan, pieces, hlength, hholds, hkeeps⟩

end GraphSelection
