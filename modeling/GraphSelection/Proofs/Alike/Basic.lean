import GraphSelection.Program.Mutation

/-!
Parts of programs that are built alike. The values of parameters are put aside in the supply and
never looked at again, so two parts that differ in such values only fail alike, or have the same
result and draw the same names. This is kept by every way of putting parts together.
-/
namespace GraphSelection.Program

open GraphSelection Cypher Plan

/-- What a supply shows without the values of parameters. -/
def Supply.shape (s : Supply) : Nat × List String := (s.next, s.params.map Prod.fst)

section Builds

variable {α β γ : Type}

/-- What a run shows without the values of parameters. -/
def shown (outcome : Except Failure (α × Supply)) : Except Failure (α × Nat × List String) :=
  outcome.map fun r => (r.1, r.2.shape)

/-- Runs from supplies of one shape show the same. -/
def Alike (x y : Build α) : Prop := ∀ s t, s.shape = t.shape → shown (x s) = shown (y t)

namespace Alike

theorem pure (a : α) : Alike (pure a : Build α) (Pure.pure a) :=
  fun _ _ h => congrArg (fun shape => Except.ok (a, shape)) h

theorem fail (f : Failure) : Alike (fail f : Build α) (Program.fail f) := fun _ _ _ => rfl

theorem fault (x : Except Failure α) : Alike (x : Build α) x := by
  cases x with
  | error e => exact fun _ _ _ => rfl
  | ok a => exact pure a

theorem fresh (hint : String) : Alike (fresh hint) (Program.fresh hint) := by
  intro s t h
  obtain ⟨hnext, hparams⟩ := Prod.mk.inj h
  simp only [shown, Program.fresh, Except.map, Supply.name, Supply.shape, hnext, hparams]

/-- Parameters are named alike, whatever their values. -/
theorem param (value value' : Doc) : Alike (param value) (Program.param value') := by
  intro s t h
  obtain ⟨hnext, hparams⟩ := Prod.mk.inj h
  simp only [shown, Program.param, Except.map, Supply.name, Supply.shape, hnext, List.map_append,
    hparams, List.map_cons, List.map_nil]

/-- The first steps are alike up to a change of the result, and what follows is alike after it. -/
theorem bind_changed {x : Build γ} {y : Build α} {h : α → γ} {f : γ → Build β} {g : α → Build β}
    (hx : Alike x (h <$> y)) (hf : ∀ a, Alike (f (h a)) (g a)) : Alike (x >>= f) (y >>= g) := by
  intro s t hst
  have hfirst : shown (x s) = shown ((y t).map fun r => (h r.1, r.2)) := hx s t hst
  change shown (x s >>= fun r => f r.1 r.2) = shown (y t >>= fun r => g r.1 r.2)
  cases ht : y t with
  | error e =>
    rw [ht] at hfirst
    cases hs : x s with
    | error e' =>
      rw [hs] at hfirst
      cases hfirst
      rfl
    | ok r =>
      rw [hs] at hfirst
      cases hfirst
  | ok r =>
    rw [ht] at hfirst
    cases hs : x s with
    | error e =>
      rw [hs] at hfirst
      cases hfirst
    | ok r' =>
      rw [hs] at hfirst
      obtain ⟨a, s'⟩ := r'
      obtain ⟨hresult, hshape⟩ := Prod.mk.inj (Except.ok.inj hfirst)
      cases hresult
      exact hf r.1 s' r.2 hshape

theorem bind {x y : Build α} {f g : α → Build β} (hx : Alike x y) (hf : ∀ a, Alike (f a) (g a)) :
    Alike (x >>= f) (y >>= g) := by
  have hsame : Alike x (id <$> y) := by
    rw [id_map]
    exact hx
  exact bind_changed hsame hf

/-- A nested scope draws the names of its edge, its node and its result. -/
theorem named {f g : String → String → String → Build α}
    (h : ∀ edge node result, Alike (f edge node result) (g edge node result)) :
    Alike
      (do
        let edge ← Program.fresh "this"
        let node ← Program.fresh "this"
        let result ← Program.fresh "var"
        f edge node result)
      (do
        let edge ← Program.fresh "this"
        let node ← Program.fresh "this"
        let result ← Program.fresh "var"
        g edge node result) :=
  bind (fresh "this") fun edge => bind (fresh "this") fun node => bind (fresh "var") fun result =>
    h edge node result

end Alike

end Builds

/-- Predicates are built alike when they are, whatever is known before them. -/
def AlikeIn {α : Type} (x y : Predicate α) : Prop := ∀ q, Alike (x q) (y q)

namespace AlikeIn

variable {α β : Type}

theorem pure (a : α) : AlikeIn (pure a : Predicate α) (Pure.pure a) := fun q => Alike.pure (a, q)

theorem bind {x y : Predicate α} {f g : α → Predicate β} (hx : AlikeIn x y)
    (hf : ∀ a, AlikeIn (f a) (g a)) : AlikeIn (x >>= f) (y >>= g) :=
  fun q => Alike.bind (hx q) fun r => hf r.1 r.2

theorem lift {x y : Build α} (h : Alike x y) : AlikeIn (x : Predicate α) (y : Predicate α) :=
  fun q => Alike.bind h fun a => Alike.pure (a, q)

theorem fault (x : Except Failure α) : AlikeIn (x : Predicate α) x := lift (.fault x)

theorem gathered {x y : Predicate α} (h : AlikeIn x y) : Alike (gathered x) (gathered y) :=
  .bind (h {}) fun r => .pure (r.1, r.2.calls)

/-- A call that is known is known in both; a new one is made alike under the same name. -/
theorem shared (key : String) {call call' : String → Build Clause}
    (h : ∀ name, Alike (call name) (call' name)) :
    AlikeIn (shared key call) (shared key call') := by
  refine bind (fun q => Alike.pure (q, q)) fun q => ?_
  split
  · exact pure _
  · refine bind (lift (.fresh "var")) fun name => bind (lift (h name)) fun clause => ?_
    exact bind (fun q => Alike.pure (_, _)) fun _ => pure name

end AlikeIn

/-- The same place in the program of a principal that is signed in or not. -/
def Context.signedIn (ctx : Context) (authenticated : Bool) : Context :=
  { ctx with terms := { ctx.terms with authenticated } }

section Parameters

theorem alike_typedParam (value : Doc) (kind : Option ScalarKind) :
    Alike (typedParam value kind) (typedParam value kind) :=
  .bind (.param value value) fun _ => .pure _

theorem alike_typedListParam (value : Doc) (kind : Option ScalarKind) :
    Alike (typedListParam value kind) (typedListParam value kind) :=
  .bind (.param value value) fun _ => .pure _

theorem alike_countParam (count : Option Nat) : Alike (countParam count) (countParam count) := by
  cases count with
  | none => exact .pure none
  | some n => exact .bind (.param _ _) fun _ => .pure _

theorem alike_bounds (page : Page) : Alike (bounds page) (bounds page) :=
  .bind (alike_countParam _) fun _ => .bind (alike_countParam _) fun _ => .pure _

theorem alike_assignment (name : String) (a : Assignment) :
    Alike (assignment name a) (assignment name a) :=
  .bind (alike_typedParam _ _) fun _ => .pure _

theorem alike_assignmentList (name : String) (assignments : List Assignment) :
    Alike (assignmentList name assignments) (assignmentList name assignments) := by
  induction assignments with
  | nil => exact .pure []
  | cons a rest ih => exact .bind (alike_assignment name a) fun _ => .bind ih fun _ => .pure _

theorem alike_assigned (name : String) (assignments : List Assignment) :
    Alike (assigned name assignments) (assigned name assignments) :=
  .bind (alike_assignmentList name assignments) fun _ => .pure _

end Parameters

section Calls

variable {b : Bool} (ctx : Context)

theorem alike_computedCall (a : Attribute) (result : String) :
    Alike (computedCall (ctx.signedIn b) a result) (computedCall ctx a result) := by
  unfold computedCall
  split
  · exact .fail _
  · exact .bind (.fresh "this") fun _ => .pure _

theorem alike_aggregationCall (a : Aggregation) (result : String) :
    Alike (aggregationCall (ctx.signedIn b) a result) (aggregationCall ctx a result) := by
  refine .bind (.fresh "this") fun edge => .bind (.fresh "this") fun node => ?_
  refine .bind (.fault _) fun reduced => ?_
  exact .bind (alike_typedParam _ _) fun _ => .pure _

theorem alike_edgeMeasureCall (edges : String) (m : Measure) (result : String) :
    Alike (edgeMeasureCall (ctx.signedIn b) edges m result) (edgeMeasureCall ctx edges m result) :=
  .bind (.fresh "edge") fun _ => .bind (.fault _) fun _ => .pure _

theorem alike_sortValue (key : SortKey) :
    Alike (sortValue (ctx.signedIn b) key) (sortValue ctx key) := by
  unfold sortValue
  split
  · exact .pure _
  · exact .bind (.fault _) fun _ => .pure _
  · exact .bind (.fresh "var") fun _ => .bind (alike_computedCall ctx _ _) fun _ => .pure _

theorem alike_sortValues (sort : List SortKey) :
    Alike (sortValues (ctx.signedIn b) sort) (sortValues ctx sort) := by
  induction sort with
  | nil => exact .pure _
  | cons key rest ih => exact .bind (alike_sortValue ctx key) fun _ => .bind ih fun _ => .pure _

theorem alike_orderedWindow (sort : List SortKey) (bounds : Bounds) :
    Alike (orderedWindow (ctx.signedIn b) sort bounds) (orderedWindow ctx sort bounds) := by
  unfold orderedWindow
  split
  · exact .pure []
  · exact .bind (alike_sortValues ctx sort) fun _ => .pure _

theorem alike_arranged (sort : List SortKey) (page : Page) :
    Alike (arranged (ctx.signedIn b) sort page) (arranged ctx sort page) := by
  unfold arranged
  split
  · exact .pure []
  · exact .bind (alike_bounds page) fun bounds => alike_orderedWindow ctx sort bounds

theorem alike_branchKeys (sort : List SortKey) (columns : List String) :
    Alike (branchKeys (ctx.signedIn b) sort columns) (branchKeys ctx sort columns) :=
  .bind (alike_sortValues ctx _) fun _ => .pure _

theorem alike_importParent : Alike (importParent (ctx.signedIn b)) (importParent ctx) := by
  simp only [importParent, show (ctx.signedIn b).isRoot = ctx.isRoot from rfl]
  split
  · exact .pure []
  · exact .bind (.fault _) fun _ => .pure _

end Calls

section Merged

theorem alike_sortColumns (sort : List SortKey) : Alike (sortColumns sort) (sortColumns sort) := by
  induction sort with
  | nil => exact .pure []
  | cons key rest ih => exact .bind (.fresh "sort") fun _ => .bind ih fun _ => .pure _

theorem alike_mergedWindow (column : String) (sort : List SortKey) (columns : List String)
    (page : Page) :
    Alike (mergedWindow column sort columns page) (mergedWindow column sort columns page) := by
  unfold mergedWindow
  split
  · exact .pure []
  · exact .bind (alike_bounds page) fun _ => .pure _

theorem alike_mergedEdgesCall (l : EdgeList) (sort : List SortKey) (columns : List String)
    (node properties : Option String) (typename : Option (String × String)) :
    Alike (mergedEdgesCall l sort columns node properties typename)
      (mergedEdgesCall l sort columns node properties typename) :=
  .bind (.fresh "var") fun _ => .bind (.fresh "edge") fun _ => .pure _

end Merged

end GraphSelection.Program
