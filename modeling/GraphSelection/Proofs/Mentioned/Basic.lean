import GraphSelection.Proofs.Formed.Basic
import GraphSelection.Proofs.Parts
import GraphSelection.Proofs.Rows.Scopes
import Mathlib.Data.Set.Insert

/-!
Which parameters a program mentions, and which it makes in vain. An account of a step says how many
of the parameters that the step makes are mentioned by nothing that it builds; all others are
mentioned, and nothing else is but what was given to the step. Accounts of steps add up. The bounds
of a page are the only parameters that can be left over: they are made as soon as a connection asks
for its edges or its page info, and a field of the page info need not read them.
-/
namespace GraphSelection.Cypher

/-- The parameters that some items mention. -/
def mentioned (is : List Item) : Set String := {x | .param x ∈ is}

@[simp] abbrev Expr.mentions (e : Expr) : Set String := mentioned e.items

@[simp] abbrev Clause.mentions (c : Clause) : Set String := mentioned c.items

@[simp] abbrev mentionsOf (cs : List Clause) : Set String := mentioned (Clause.itemsOf cs)

@[simp] theorem mentioned_nil : mentioned [] = ∅ := by simp [mentioned]

@[simp] theorem mentioned_append (is js : List Item) :
    mentioned (is ++ js) = mentioned is ∪ mentioned js := by
  ext x
  simp [mentioned]

@[simp] theorem mentioned_param (x : String) (is : List Item) :
    mentioned (.param x :: is) = {x} ∪ mentioned is := by
  ext y
  simp [mentioned]

@[simp] theorem mentioned_list (place : Place) (cs : List Clause) (is : List Item) :
    mentioned (.list place cs :: is) = mentioned is := by
  ext y
  simp [mentioned]

section Lists

attribute [local simp] Expr.items Expr.itemsOf Expr.itemsOfOption Expr.itemsOfEntries
  Expr.itemsOfColumns Expr.itemsOfOrder Clause.items Clause.itemsOf

@[simp] theorem itemsOf_append (es es' : List Expr) :
    Expr.itemsOf (es ++ es') = Expr.itemsOf es ++ Expr.itemsOf es' := by
  induction es with
  | nil => simp
  | cons e rest ih => simp [ih]

@[simp] theorem itemsOfEntries_append (es es' : List (String × Expr)) :
    Expr.itemsOfEntries (es ++ es') = Expr.itemsOfEntries es ++ Expr.itemsOfEntries es' := by
  induction es with
  | nil => simp
  | cons e rest ih => simp [ih]

@[simp] theorem clauseItems_nil : Clause.itemsOf [] = [] := by rw [Clause.itemsOf]

@[simp] theorem clauseItems_cons (c : Clause) (cs : List Clause) :
    Clause.itemsOf (c :: cs) = c.items ++ Clause.itemsOf cs := by
  rw [Clause.itemsOf]

@[simp] theorem clauseItems_append (cs cs' : List Clause) :
    Clause.itemsOf (cs ++ cs') = Clause.itemsOf cs ++ Clause.itemsOf cs' := by
  induction cs with
  | nil => simp
  | cons c rest ih => simp [ih]

@[simp] theorem mentions_call (imports : List String) (body : List Clause) :
    mentioned (Clause.call imports body).items = mentioned (Clause.itemsOf body) := by
  simp

@[simp] theorem mentions_find (pattern : Pattern) (predicate : Option Expr) :
    mentioned (Clause.find pattern predicate).items = mentioned (Expr.itemsOfOption predicate) := by
  simp [Clause.find]

@[simp] theorem mentions_give (e : Expr) (name : String) :
    mentioned (Clause.give e name).items = mentioned e.items := by
  simp [Clause.give, Clause.giveAll, Column.named]

@[simp] theorem mentions_carryOnly (columns : List (Column Expr)) :
    mentioned (Clause.carryOnly columns).items = mentioned (Expr.itemsOfColumns columns) := by
  simp [Clause.carryOnly]

@[simp] theorem mentions_carryAll : mentioned Clause.carryAll.items = ∅ := by
  simp [Clause.carryAll, Column.star]

@[simp] theorem mentions_keep (e : Expr) : mentioned (Clause.keep e).items = mentioned e.items := by
  simp [Clause.keep, Column.star]

@[simp] theorem mentions_window (order : List (OrderKey Expr)) (skip limit : Option Expr) :
    mentioned (Clause.window order skip limit).items = mentioned (Expr.itemsOfOrder order) ∪
      (mentioned (Expr.itemsOfOption skip) ∪ mentioned (Expr.itemsOfOption limit)) := by
  simp [Clause.window, Column.star]

/-- Taking conjunctions apart keeps what is mentioned. -/
theorem mentioned_conjuncts (e : Expr) :
    mentioned (Expr.itemsOf e.conjuncts) = mentioned e.items := by
  unfold Expr.conjuncts
  split <;> simp

theorem mentioned_disjuncts (e : Expr) :
    mentioned (Expr.itemsOf e.disjuncts) = mentioned e.items := by
  unfold Expr.disjuncts
  split <;> simp

theorem mentioned_flatMap {f : Expr → List Expr}
    (h : ∀ e, mentioned (Expr.itemsOf (f e)) = mentioned e.items) (es : List Expr) :
    mentioned (Expr.itemsOf (es.flatMap f)) = mentioned (Expr.itemsOf es) := by
  induction es with
  | nil => rfl
  | cons e rest ih => simp [h, ih]

@[simp] theorem mentioned_allOf (es : List Expr) :
    mentioned (Expr.itemsOfOption (Expr.allOf es)) = mentioned (Expr.itemsOf es) := by
  rw [← mentioned_flatMap mentioned_conjuncts es]
  unfold Expr.allOf
  split
  next h => simp [h]
  next h => simp [h]
  next => simp

@[simp] theorem mentioned_anyOf (es : List Expr) :
    mentioned (Expr.itemsOfOption (Expr.anyOf es)) = mentioned (Expr.itemsOf es) := by
  rw [← mentioned_flatMap mentioned_disjuncts es]
  unfold Expr.anyOf
  split
  next h => simp [h]
  next h => simp [h]
  next => simp

@[simp] theorem mentions_getD (e : Option Expr) (b : Bool) :
    mentioned (e.getD (.bool b)).items = mentioned (Expr.itemsOfOption e) := by
  cases e <;> simp [Expr.bool]

@[simp] theorem mentioned_toList (e : Option Expr) :
    mentioned (Expr.itemsOf e.toList) = mentioned (Expr.itemsOfOption e) := by
  cases e <;> simp

end Lists

end GraphSelection.Cypher

namespace GraphSelection.Plan

/-- The field looks at the start of the page; whether there are more edges depends on the start
only where the page has an end. -/
def PageInfoField.readsSkip (page : Page) : PageInfoField → Bool
  | .hasNextPage _ => page.limit.isSome
  | .hasPreviousPage _ => true
  | .typename _ => false

/-- The field looks at the end of the page. -/
def PageInfoField.readsLimit : PageInfoField → Bool
  | .hasNextPage _ => true
  | .hasPreviousPage _ => false
  | .typename _ => false

namespace ConnectionItem

variable {φ : Type}

def readsSkip (page : Page) : ConnectionItem φ → Bool
  | .edges _ _ _ _ => true
  | .pageInfo _ fields => fields.any (·.readsSkip page)
  | _ => false

def readsLimit : ConnectionItem φ → Bool
  | .edges _ _ _ _ => true
  | .pageInfo _ fields => fields.any PageInfoField.readsLimit
  | _ => false

end ConnectionItem

/-- One for a bound that is there and is not read. -/
def idleBound (bound : Option Nat) (isRead : Bool) : Nat :=
  if bound.isSome && !isRead then 1 else 0

/-- The bounds of a page that are made for the items of a connection and that none of them reads. -/
def idleBounds {φ : Type} (items : List (ConnectionItem φ)) (page : Page) : Nat :=
  if items.any ConnectionItem.needsPage then
    idleBound page.skip (items.any (·.readsSkip page)) +
      idleBound page.limit (items.any ConnectionItem.readsLimit)
  else 0

def Lookup.idleBounds : Lookup Field → Nat
  | .connection c => Plan.idleBounds c.items c.page
  | .compositeConnection c => Plan.idleBounds c.items c.page
  | _ => 0

def Part.idleBounds : Part → Nat
  | .lookup l => l.idleBounds
  | _ => 0

def idleBoundsOf : List Part → Nat
  | [] => 0
  | part :: rest => part.idleBounds + idleBoundsOf rest

/-- A creation answers its fields once for each new node. -/
def Operation.idleBounds : Operation → Nat
  | .create c => c.nodes.length * idleBoundsOf (Field.partsOf c.fields)
  | o => idleBoundsOf o.parts

@[simp] theorem idleBoundsOf_nil : idleBoundsOf [] = 0 := rfl

@[simp] theorem idleBoundsOf_cons (part : Part) (parts : List Part) :
    idleBoundsOf (part :: parts) = part.idleBounds + idleBoundsOf parts := rfl

@[simp] theorem idleBoundsOf_append (parts parts' : List Part) :
    idleBoundsOf (parts ++ parts') = idleBoundsOf parts + idleBoundsOf parts' := by
  induction parts with
  | nil => simp
  | cons part rest ih => simp [ih, Nat.add_assoc]

end GraphSelection.Plan

namespace GraphSelection.Program

open Cypher Plan

section Steps

variable {α β : Type} {i j k : Nat} {given : Set String} {m : α → Set String}

/-- Of the parameters that a step makes, this many are left over; what it builds mentions the
others, and besides them what was given. -/
structure Accounts (idle : Nat) (given : Set String) (m : α → Set String) (x : Build α) : Prop where
  run : ∀ s a t, x s = .ok (a, t) → ∃ (added : Entries Doc) (used left : List String),
    t.params = s.params ++ added ∧ added.keys.Perm (used ++ left) ∧ left.length = idle ∧
      m a = given ∪ {x | x ∈ used}

/-- A step that makes no parameter. -/
theorem accounts_still {x : Build α}
    (h : ∀ s a t, x s = .ok (a, t) → t.params = s.params ∧ m a = given) :
    Accounts 0 given m x := by
  constructor
  intro s a t hrun
  obtain ⟨hparams, hmentions⟩ := h s a t hrun
  exact ⟨[], [], [], by simp [hparams], .nil, rfl, by simp [hmentions]⟩

theorem accounts_pure {a : α} (h : m a = given) : Accounts 0 given m (pure a) := by
  refine accounts_still fun s b t hrun => ?_
  obtain ⟨rfl, rfl⟩ := (pure_ok a b s t).mp hrun
  exact ⟨rfl, h⟩

theorem accounts_fail (f : Failure) : Accounts i given m (fail f) :=
  ⟨fun s a t hrun => ((fail_ok f s t a).mp hrun).elim⟩

theorem accounts_lift {x : Except Failure α} (h : ∀ a, x = .ok a → m a = given) :
    Accounts 0 given m (liftM x : Build α) := by
  refine accounts_still fun s a t hrun => ?_
  obtain ⟨hx, rfl⟩ := (lift_ok x s t a).mp hrun
  exact ⟨rfl, h a hx⟩

theorem accounts_fresh (hint : String) : Accounts 0 given (fun _ => given) (fresh hint) := by
  refine accounts_still fun s a t hrun => ?_
  obtain ⟨_, rfl⟩ := (fresh_ok hint a s t).mp hrun
  exact ⟨rfl, rfl⟩

theorem accounts_param (value : Doc) : Accounts 0 ∅ Expr.mentions (param value) := by
  constructor
  intro s a t hrun
  obtain ⟨rfl, rfl⟩ := (param_ok value a s t).mp hrun
  refine ⟨[(s.name "param", value)], [s.name "param"], [], rfl, List.Perm.refl _, rfl, ?_⟩
  ext x
  simp [Expr.items]

/-- A parameter that nothing reads. -/
theorem accounts_idleParam (value : Doc) : Accounts 1 ∅ (fun _ => ∅) (param value) := by
  constructor
  intro s a t hrun
  obtain ⟨_, rfl⟩ := (param_ok value a s t).mp hrun
  exact ⟨[(s.name "param", value)], [], [s.name "param"], rfl, List.Perm.refl _, rfl, by simp⟩

/-- What a step mentions is given to the steps after it. -/
theorem Accounts.bindOn {p : α → Prop} {x : Build α} {f : α → Build β} {m' : β → Set String}
    (hx : Accounts i given m x) (hp : Ensures p x) (hf : ∀ a, p a → Accounts j (m a) m' (f a)) :
    Accounts (i + j) given m' (x >>= f) := by
  constructor
  intro s b u hrun
  obtain ⟨a, t, ha, hb⟩ := (bind_ok x f s u b).mp hrun
  obtain ⟨added, used, left, hparams, hperm, hleft, hmentions⟩ := hx.run s a t ha
  obtain ⟨added', used', left', hparams', hperm', hleft', hmentions'⟩ :=
    (hf a (hp.run s a t ha)).run t b u hb
  refine ⟨added ++ added', used ++ used', left ++ left', ?_, ?_, ?_, ?_⟩
  · rw [hparams', hparams, List.append_assoc]
  · rw [Entries.keys, List.map_append]
    refine (hperm.append hperm').trans ?_
    rw [List.append_assoc, List.append_assoc]
    refine List.Perm.append_left used ?_
    rw [← List.append_assoc, ← List.append_assoc]
    exact List.Perm.append_right left' List.perm_append_comm
  · rw [List.length_append, hleft, hleft']
  · rw [hmentions', hmentions]
    ext x
    simp [or_assoc]

theorem Accounts.bind {x : Build α} {f : α → Build β} {m' : β → Set String}
    (hx : Accounts i given m x) (hf : ∀ a, Accounts j (m a) m' (f a)) :
    Accounts (i + j) given m' (x >>= f) :=
  hx.bindOn (p := fun _ => True) ⟨fun _ _ _ _ => trivial⟩ fun a _ => hf a

/-- What a step has nothing to do with is given to it and mentioned after it. -/
theorem Accounts.frame {x : Build α} (h : Accounts i given m x) (rest : Set String) :
    Accounts i (rest ∪ given) (fun a => rest ∪ m a) x := by
  constructor
  intro s a t hrun
  obtain ⟨added, used, left, hparams, hperm, hleft, hmentions⟩ := h.run s a t hrun
  exact ⟨added, used, left, hparams, hperm, hleft, by rw [hmentions, Set.union_assoc]⟩

theorem Accounts.congr {x : Build α} {given' : Set String} {m' : α → Set String}
    (h : Accounts i given m x) (hi : j = i) (hgiven : given' = given) (hm : ∀ a, m' a = m a) :
    Accounts j given' m' x := by
  obtain rfl : m' = m := funext hm
  exact hi ▸ hgiven ▸ h

/-- A step that is given some of what is there, before steps that build on what it mentions. -/
theorem Accounts.stepOf {own : Set String} {x : Build α} {f : α → Build β} {m' : β → Set String}
    (hx : Accounts i own m x) (hf : ∀ a, Accounts j (given ∪ m a) m' (f a)) :
    Accounts (i + j) (given ∪ own) m' (x >>= f) :=
  (hx.frame given).bind hf

/-- A step of its own, before steps that build on what it mentions. -/
theorem Accounts.step {x : Build α} {f : α → Build β} {m' : β → Set String}
    (hx : Accounts i ∅ m x) (hf : ∀ a, Accounts j (given ∪ m a) m' (f a)) :
    Accounts (i + j) given m' (x >>= f) :=
  (hx.stepOf hf).congr rfl (Set.union_empty given).symm fun _ => rfl

/-- A step of its own, of whose result something more is known. -/
theorem Accounts.stepOn {p : α → Prop} {x : Build α} {f : α → Build β} {m' : β → Set String}
    (hx : Accounts i ∅ m x) (hp : Ensures p x)
    (hf : ∀ a, p a → Accounts j (given ∪ m a) m' (f a)) : Accounts (i + j) given m' (x >>= f) :=
  ((hx.frame given).bindOn hp hf).congr rfl (Set.union_empty given).symm fun _ => rfl

/-- A step that leaves no parameter over. -/
theorem Accounts.andThen {x : Build α} {f : α → Build β} {m' : β → Set String}
    (hx : Accounts 0 ∅ m x) (hf : ∀ a, Accounts j (given ∪ m a) m' (f a)) :
    Accounts j given m' (x >>= f) :=
  (hx.step hf).congr (Nat.zero_add j).symm rfl fun _ => rfl

/-- The last step and what is built in the end. -/
theorem Accounts.lastOf {own : Set String} {x : Build α} {g : α → β} {m' : β → Set String}
    (hx : Accounts i own m x) (hg : ∀ a, m' (g a) = given ∪ m a) :
    Accounts i (given ∪ own) m' (x >>= fun a => pure (g a)) :=
  hx.stepOf (j := 0) fun a => accounts_pure (hg a)

theorem Accounts.last {x : Build α} {g : α → β} {m' : β → Set String} (hx : Accounts i ∅ m x)
    (hg : ∀ a, m' (g a) = given ∪ m a) : Accounts i given m' (x >>= fun a => pure (g a)) :=
  hx.step (j := 0) fun a => accounts_pure (hg a)

theorem accounts_skip {f : String → Build β} {m' : β → Set String} (hint : String)
    (hf : ∀ name, Accounts j given m' (f name)) : Accounts j given m' (fresh hint >>= f) :=
  ((accounts_fresh hint).bind hf).congr (Nat.zero_add j).symm rfl fun _ => rfl

/-- A step without a supply, of whose result something is known. -/
theorem accounts_fault {x : Except Failure α} {f : α → Build β} {m' : β → Set String}
    (hf : ∀ a, x = .ok a → Accounts j given m' (f a)) :
    Accounts j given m' ((liftM x : Build α) >>= f) := by
  constructor
  intro s b u hrun
  obtain ⟨a, t, ha, hb⟩ := (bind_ok _ f s u b).mp hrun
  obtain ⟨hx, rfl⟩ := (lift_ok x s t a).mp ha
  exact (hf a hx).run s b u hb

/-- A part of a predicate, with the calls before it, leaves no parameter over. -/
structure Tallies (given : Set String) (m : α → Set String) (x : Predicate α) : Prop where
  run : ∀ q : Subqueries, Accounts 0 (mentionsOf q.calls ∪ given)
    (fun r => mentionsOf r.2.calls ∪ m r.1) (x q)

theorem tallies_pure {a : α} (h : m a = given) : Tallies given m (pure a) :=
  ⟨fun q => accounts_pure (a := (a, q)) (by rw [h])⟩

theorem Tallies.frame {x : Predicate α} (h : Tallies given m x) (rest : Set String) :
    Tallies (rest ∪ given) (fun a => rest ∪ m a) x := by
  constructor
  intro q
  refine ((h.run q).frame rest).congr rfl ?_ fun r => ?_ <;>
    simp only [Set.union_left_comm]

theorem Tallies.bind {x : Predicate α} {f : α → Predicate β} {m' : β → Set String}
    (hx : Tallies given m x) (hf : ∀ a, Tallies (m a) m' (f a)) : Tallies given m' (x >>= f) :=
  ⟨fun q => Accounts.bind (f := fun r => f r.1 r.2) (hx.run q) fun r => (hf r.1).run r.2⟩

theorem Tallies.andThen {x : Predicate α} {f : α → Predicate β} {m' : β → Set String}
    (hx : Tallies ∅ m x) (hf : ∀ a, Tallies (given ∪ m a) m' (f a)) :
    Tallies given m' (x >>= f) := by
  have hframed := hx.frame given
  rw [Set.union_empty] at hframed
  exact hframed.bind hf

theorem Tallies.last {x : Predicate α} {g : α → β} {m' : β → Set String} (hx : Tallies ∅ m x)
    (hg : ∀ a, m' (g a) = given ∪ m a) : Tallies given m' (x >>= fun a => pure (g a)) :=
  hx.andThen fun a => tallies_pure (hg a)

theorem tallies_lift {x : Build α} (h : Accounts 0 ∅ m x) :
    Tallies ∅ m (liftM x : Predicate α) :=
  ⟨fun q => Accounts.last (g := fun a => (a, q)) h fun _ => by simp⟩

theorem tallies_skip {f : String → Predicate β} {m' : β → Set String} (hint : String)
    (hf : ∀ name, Tallies given m' (f name)) :
    Tallies given m' ((liftM (fresh hint) : Predicate String) >>= f) := by
  have hname : Tallies ∅ (fun _ => ∅) (liftM (fresh hint) : Predicate String) :=
    tallies_lift (accounts_fresh hint)
  exact hname.andThen fun name => by simpa using hf name

theorem tallies_shared (key : String) {call : String → Build Clause}
    (h : ∀ name, Accounts 0 ∅ Clause.mentions (call name)) :
    Tallies ∅ (fun _ => ∅) (shared key call) := by
  constructor
  intro q
  constructor
  intro s r t hrun
  obtain ⟨name, q'⟩ := r
  rcases shared_ok key call name q q' s t hrun with ⟨_, rfl, rfl⟩ | ⟨clause, _, hcall, rfl⟩
  · exact ⟨[], [], [], by simp, .nil, rfl, by simp⟩
  · obtain ⟨added, used, left, hparams, hperm, hleft, hmentions⟩ := (h name).run _ _ _ hcall
    exact ⟨added, used, left, hparams, hperm, hleft, by simp [hmentions]⟩

theorem Tallies.gathered {x : Predicate α} (h : Tallies ∅ m x) :
    Accounts 0 ∅ (fun r => mentionsOf r.2 ∪ m r.1) (gathered x) :=
  ((h.run {}).congr rfl (by simp) fun _ => rfl).last fun _ => by simp

end Steps

end GraphSelection.Program
