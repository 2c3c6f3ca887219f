import GraphSelection.Proofs.Partwise

/-!
Numbers of rows. A clause makes some number of rows out of those that come in; how many a match
finds is up to the graph, so a clause relates the number before to all numbers that are possible
after. A projection all of whose columns are aggregates leaves one row, an assertion keeps every
row or stops, a call repeats its body for every row. Every call of a program, at whatever depth it
stands, can be asked for the number of rows that its body leaves of one.
-/
namespace GraphSelection.Cypher

/-- How a value depends on the rows: not at all, on each by itself, on all of them together, or on
both. -/
inductive Grain where
  | constant
  | rowwise
  | aggregate
  | mixed
  deriving DecidableEq, Repr

namespace Grain

def join : Grain → Grain → Grain
  | .constant, g => g
  | g, .constant => g
  | .rowwise, .rowwise => .rowwise
  | .aggregate, .aggregate => .aggregate
  | _, _ => .mixed

/-- No aggregate takes part. -/
def isPlain : Grain → Bool
  | .constant => true
  | .rowwise => true
  | _ => false

@[simp] theorem isPlain_join (a b : Grain) : (a.join b).isPlain = (a.isPlain && b.isPlain) := by
  cases a <;> cases b <;> rfl

end Grain

/-- Functions that make one value of all rows. -/
def aggregators : List String := ["collect", "count", "min", "max", "avg", "sum"]

mutual
def Expr.grain : Expr → Grain
  | .var _ => .rowwise
  | .param _ => .constant
  | .literal _ => .constant
  | .property base _ => base.grain
  | .binary left _ right => left.grain.join right.grain
  | .all items => Expr.grainOf items
  | .any items => Expr.grainOf items
  | .not inner => inner.grain
  | .isNull inner => inner.grain
  | .isNotNull inner => inner.grain
  | .apply function args =>
      if aggregators.contains function then .aggregate else Expr.grainOf args
  | .distinct inner => inner.grain
  | .hasLabels _ _ => .rowwise
  | .map entries => Expr.grainOfEntries entries
  | .projection _ items => Grain.rowwise.join (Expr.grainOfItems items)
  | .list items => Expr.grainOf items
  | .choice condition result otherwise =>
      condition.grain.join (result.grain.join otherwise.grain)
  | .comprehension _ source body => source.grain.join body.grain
  | .existsIn _ => .rowwise
  | .countIn _ => .rowwise
  | .star => .rowwise
def Expr.grainOf : List Expr → Grain
  | [] => .constant
  | e :: rest => e.grain.join (Expr.grainOf rest)
def Expr.grainOfEntries : List (String × Expr) → Grain
  | [] => .constant
  | (_, e) :: rest => e.grain.join (Expr.grainOfEntries rest)
def Expr.grainOfItems : List (MapItem Expr) → Grain
  | [] => .constant
  | .own _ :: rest => Expr.grainOfItems rest
  | .entry _ e :: rest => e.grain.join (Expr.grainOfItems rest)
end

/-- Stops the program or lets every row through. -/
def Expr.isAssertion : Expr → Bool
  | .apply function _ => function == "apoc.util.validatePredicate"
  | _ => false

/-- Columns that are all aggregates leave one row, also of no rows; columns without aggregates
leave as many as there were; other columns leave one row for each group. -/
def Projects (columns : List (Column Expr)) (n m : Nat) : Prop :=
  if columns ≠ [] ∧ columns.all (fun c => c.expression.grain == .aggregate) then m = 1
  else if columns.all fun c => c.expression.grain.isPlain then m = n
  else m ≤ max n 1

/-- A number of rows for each of so many, put together. -/
def Repeated (body : Nat → Prop) : Nat → Nat → Prop
  | 0, m => m = 0
  | n + 1, m => ∃ k l, body k ∧ Repeated body n l ∧ m = k + l

mutual
/-- From the first number of rows a clause can make the second. -/
def Clause.Rows : Clause → Nat → Nat → Prop
  | .matching _ isOptional _, n, m => (n = 0 → m = 0) ∧ (isOptional = true → n ≤ m)
  | .carry columns isDistinct _ skip limit predicate, n, m =>
      ∃ k, Projects columns n k ∧
        if isDistinct || skip.isSome || limit.isSome || predicate.any (!·.isAssertion) then m ≤ k
        else m = k
  | .unwind _ _, n, m => n = 0 → m = 0
  | .call _ body, n, m => Repeated (Clause.RowsAll body 1) n m
  | .union branches, n, m => Clause.RowsOfBranches branches n m
  | .create _, n, m => m = n
  | .merge _, n, m => m = n
  | .set _, n, m => m = n
  | .delete _ _, n, m => m = n
  | .returning columns isDistinct, n, m =>
      ∃ k, Projects columns n k ∧ if isDistinct then m ≤ k else m = k
  | .raw _, n, m => n = 0 → m = 0
def Clause.RowsAll : List Clause → Nat → Nat → Prop
  | [], n, m => m = n
  | c :: rest, n, m => ∃ k, Clause.Rows c n k ∧ Clause.RowsAll rest k m
/-- A union drops rows that repeat others, so there may be fewer than in its branches together. -/
def Clause.RowsOfBranches : List (List Clause) → Nat → Nat → Prop
  | [], _, m => m = 0
  | b :: rest, n, m => ∃ k l, Clause.RowsAll b n k ∧ Clause.RowsOfBranches rest n l ∧ m ≤ k + l
end

mutual
/-- The bodies of all calls in an expression. -/
def Expr.calls : Expr → List (List Clause)
  | .var _ => []
  | .param _ => []
  | .literal _ => []
  | .property base _ => base.calls
  | .binary left _ right => left.calls ++ right.calls
  | .all items => Expr.callsOf items
  | .any items => Expr.callsOf items
  | .not inner => inner.calls
  | .isNull inner => inner.calls
  | .isNotNull inner => inner.calls
  | .apply _ args => Expr.callsOf args
  | .distinct inner => inner.calls
  | .hasLabels _ _ => []
  | .map entries => Expr.callsOfEntries entries
  | .projection _ items => Expr.callsOfItems items
  | .list items => Expr.callsOf items
  | .choice condition result otherwise => condition.calls ++ result.calls ++ otherwise.calls
  | .comprehension _ source body => source.calls ++ body.calls
  | .existsIn body => Clause.callsOf body
  | .countIn body => Clause.callsOf body
  | .star => []
def Expr.callsOf : List Expr → List (List Clause)
  | [] => []
  | e :: rest => e.calls ++ Expr.callsOf rest
def Expr.callsOfOption : Option Expr → List (List Clause)
  | none => []
  | some e => e.calls
def Expr.callsOfEntries : List (String × Expr) → List (List Clause)
  | [] => []
  | (_, e) :: rest => e.calls ++ Expr.callsOfEntries rest
def Expr.callsOfItems : List (MapItem Expr) → List (List Clause)
  | [] => []
  | .own _ :: rest => Expr.callsOfItems rest
  | .entry _ e :: rest => e.calls ++ Expr.callsOfItems rest
def Expr.callsOfColumns : List (Column Expr) → List (List Clause)
  | [] => []
  | ⟨e, _⟩ :: rest => e.calls ++ Expr.callsOfColumns rest
def Expr.callsOfOrder : List (OrderKey Expr) → List (List Clause)
  | [] => []
  | ⟨e, _⟩ :: rest => e.calls ++ Expr.callsOfOrder rest
def Expr.callsOfPairs : List (Expr × Expr) → List (List Clause)
  | [] => []
  | (left, right) :: rest => left.calls ++ right.calls ++ Expr.callsOfPairs rest
/-- The bodies of all calls in a clause, its own and those inside it. -/
def Clause.calls : Clause → List (List Clause)
  | .matching _ _ predicate => Expr.callsOfOption predicate
  | .carry columns _ order skip limit predicate =>
      Expr.callsOfColumns columns ++ Expr.callsOfOrder order ++ Expr.callsOfOption skip ++
        Expr.callsOfOption limit ++ Expr.callsOfOption predicate
  | .unwind e _ => e.calls
  | .call _ body => body :: Clause.callsWithin body
  | .union branches => Clause.callsOfBranches branches
  | .create _ => []
  | .merge _ => []
  | .set assignments => Expr.callsOfPairs assignments
  | .delete _ _ => []
  | .returning columns _ => Expr.callsOfColumns columns
  | .raw _ => []
def Clause.callsOf : List Clause → List (List Clause)
  | [] => []
  | c :: rest => c.calls ++ Clause.callsOf rest
/-- The bodies of the calls inside the body of a call. The call at its head that merges the branches
of a composite, or runs a statement of the schema, is the source of the rows of this body and not a
call for a row. -/
def Clause.callsWithin : List Clause → List (List Clause)
  | [] => []
  | .call _ [.union branches] :: rest => Clause.callsOfBranches branches ++ Clause.callsOf rest
  | .call _ [.carry [⟨.var _, _⟩] false [] none none none, .raw _] :: rest => Clause.callsOf rest
  | c :: rest => c.calls ++ Clause.callsOf rest
def Clause.callsOfBranches : List (List Clause) → List (List Clause)
  | [] => []
  | b :: rest => Clause.callsOf b ++ Clause.callsOfBranches rest
end

/-- Of one row exactly one is left. -/
def OneRow (body : List Clause) : Prop := ∀ m, Clause.RowsAll body 1 m ↔ m = 1

section Possible

theorem projects_some (columns : List (Column Expr)) (n : Nat) : ∃ m, Projects columns n m := by
  unfold Projects
  split
  · exact ⟨1, rfl⟩
  · split
    · exact ⟨n, rfl⟩
    · exact ⟨0, by omega⟩

theorem repeated_some {body : Nat → Prop} (h : ∃ k, body k) (n : Nat) : ∃ m, Repeated body n m := by
  obtain ⟨k, hk⟩ := h
  induction n with
  | zero => exact ⟨0, rfl⟩
  | succ n ih =>
    obtain ⟨l, hl⟩ := ih
    exact ⟨k + l, k, l, hk, hl, rfl⟩

-- A number of rows is always possible, so that saying which ones are is never empty.
mutual
theorem rows_some (c : Clause) (n : Nat) : ∃ m, Clause.Rows c n m := by
  match c with
  | .matching _ _ _ => exact ⟨n, fun h => h, fun _ => Nat.le_refl n⟩
  | .carry columns _ _ _ _ _ =>
    obtain ⟨k, hk⟩ := projects_some columns n
    refine ⟨k, k, hk, ?_⟩
    split
    · exact Nat.le_refl k
    · rfl
  | .unwind _ _ => exact ⟨0, fun _ => rfl⟩
  | .call _ body => exact repeated_some (rowsAll_some body 1) n
  | .union branches => exact rowsOfBranches_some branches n
  | .create _ => exact ⟨n, rfl⟩
  | .merge _ => exact ⟨n, rfl⟩
  | .set _ => exact ⟨n, rfl⟩
  | .delete _ _ => exact ⟨n, rfl⟩
  | .returning columns _ =>
    obtain ⟨k, hk⟩ := projects_some columns n
    refine ⟨k, k, hk, ?_⟩
    split
    · exact Nat.le_refl k
    · rfl
  | .raw _ => exact ⟨0, fun _ => rfl⟩
theorem rowsAll_some (cs : List Clause) (n : Nat) : ∃ m, Clause.RowsAll cs n m := by
  match cs with
  | [] => exact ⟨n, rfl⟩
  | c :: rest =>
    obtain ⟨k, hk⟩ := rows_some c n
    obtain ⟨m, hm⟩ := rowsAll_some rest k
    exact ⟨m, k, hk, hm⟩
theorem rowsOfBranches_some (branches : List (List Clause)) (n : Nat) :
    ∃ m, Clause.RowsOfBranches branches n m := by
  match branches with
  | [] => exact ⟨0, rfl⟩
  | b :: rest =>
    obtain ⟨k, hk⟩ := rowsAll_some b n
    obtain ⟨l, hl⟩ := rowsOfBranches_some rest n
    exact ⟨k + l, k, l, hk, hl, Nat.le_refl _⟩
end

theorem rowsAll_append (cs cs' : List Clause) (n m : Nat) :
    Clause.RowsAll (cs ++ cs') n m ↔
      ∃ k, Clause.RowsAll cs n k ∧ Clause.RowsAll cs' k m := by
  induction cs generalizing n with
  | nil => simp [Clause.RowsAll]
  | cons c rest ih =>
    simp only [List.cons_append, Clause.RowsAll, ih]
    constructor
    · rintro ⟨k, hc, l, hrest, hafter⟩
      exact ⟨l, ⟨k, hc, hrest⟩, hafter⟩
    · rintro ⟨l, ⟨k, hc, hrest⟩, hafter⟩
      exact ⟨k, hc, l, hrest, hafter⟩

theorem repeated_of_one {body : Nat → Prop} (h : ∀ k, body k ↔ k = 1) (n m : Nat) :
    Repeated body n m → m = n := by
  induction n generalizing m with
  | zero => exact fun hm => hm
  | succ n ih =>
    rintro ⟨k, l, hk, hl, rfl⟩
    have hone : k = 1 := (h k).mp hk
    have hrest : l = n := ih l hl
    omega

end Possible

/-- Clauses that leave as many rows as there were. -/
def Keeps (cs : List Clause) : Prop := ∀ n m, Clause.RowsAll cs n m → m = n

/-- Clauses that leave one row, however many there were. -/
def Gathers (cs : List Clause) : Prop := ∀ n m, Clause.RowsAll cs n m → m = 1

section Counting

theorem oneRow_of_forall {body : List Clause} (h : ∀ m, Clause.RowsAll body 1 m → m = 1) :
    OneRow body := by
  intro m
  refine ⟨h m, fun hm => ?_⟩
  obtain ⟨k, hk⟩ := rowsAll_some body 1
  have hone : k = 1 := h k hk
  subst hone
  exact hm ▸ hk

theorem Keeps.oneRow {body : List Clause} (h : Keeps body) : OneRow body :=
  oneRow_of_forall (h 1)

theorem Gathers.oneRow {body : List Clause} (h : Gathers body) : OneRow body :=
  oneRow_of_forall (h 1)

theorem keeps_nil : Keeps [] := fun _ _ h => h

theorem Keeps.append {cs cs' : List Clause} (h : Keeps cs) (h' : Keeps cs') :
    Keeps (cs ++ cs') := by
  intro n m hrows
  obtain ⟨k, hfirst, hsecond⟩ := (rowsAll_append cs cs' n m).mp hrows
  have hk : k = n := h n k hfirst
  have hm : m = k := h' k m hsecond
  omega

theorem Gathers.keeps {cs cs' : List Clause} (h : Gathers cs) (h' : Keeps cs') :
    Gathers (cs ++ cs') := by
  intro n m hrows
  obtain ⟨k, hfirst, hsecond⟩ := (rowsAll_append cs cs' n m).mp hrows
  have hk : k = 1 := h n k hfirst
  have hm : m = k := h' k m hsecond
  omega

theorem Gathers.after {cs : List Clause} (h : Gathers cs) (before : List Clause) :
    Gathers (before ++ cs) := by
  intro n m hrows
  obtain ⟨k, _, hsecond⟩ := (rowsAll_append before cs n m).mp hrows
  exact h k m hsecond

theorem keeps_single {c : Clause} (h : ∀ n m, Clause.Rows c n m → m = n) : Keeps [c] := by
  rintro n m ⟨k, hc, hm⟩
  have hk : k = n := h n k hc
  have hsame : m = k := hm
  omega

theorem keeps_call {imports : List String} {body : List Clause} (h : OneRow body) :
    Keeps [.call imports body] :=
  keeps_single fun n m hrows => repeated_of_one h n m hrows

theorem keeps_forall {cs : List Clause} (h : ∀ c ∈ cs, Keeps [c]) : Keeps cs := by
  induction cs with
  | nil => exact keeps_nil
  | cons c rest ih =>
    have hfirst : Keeps [c] := h c List.mem_cons_self
    have hrest : Keeps rest := ih fun c hc => h c (List.mem_cons_of_mem _ hc)
    exact hfirst.append hrest

theorem projects_plain {columns : List (Column Expr)}
    (h : ∀ c ∈ columns, c.expression.grain.isPlain = true) {n m : Nat}
    (hproject : Projects columns n m) : m = n := by
  unfold Projects at hproject
  have hplain : (columns.all fun c => c.expression.grain.isPlain) = true :=
    List.all_eq_true.mpr h
  rw [if_pos hplain] at hproject
  split at hproject
  · rename_i haggregates
    obtain ⟨hne, hall⟩ := haggregates
    obtain ⟨c, rest, rfl⟩ := List.exists_cons_of_ne_nil hne
    have hc := h c List.mem_cons_self
    have haggregate := eq_of_beq (List.all_eq_true.mp hall c List.mem_cons_self)
    rw [haggregate] at hc
    cases hc
  · exact hproject

theorem projects_aggregate {e : Expr} (h : e.grain = .aggregate) (name : String) {n m : Nat}
    (hproject : Projects [Column.named e name] n m) : m = 1 := by
  have hall : [Column.named e name] ≠ [] ∧
      ([Column.named e name].all fun c => c.expression.grain == .aggregate) = true := by
    simp [Column.named, h]
  unfold Projects at hproject
  rw [if_pos hall] at hproject
  exact hproject

theorem keeps_carryOnly {columns : List (Column Expr)}
    (h : ∀ c ∈ columns, c.expression.grain.isPlain = true) : Keeps [.carryOnly columns] := by
  refine keeps_single fun n m hrows => ?_
  obtain ⟨k, hproject, hm⟩ := hrows
  have hk : k = n := projects_plain h hproject
  have hsame : m = k := hm
  omega

theorem keeps_giveAll {columns : List (Column Expr)}
    (h : ∀ c ∈ columns, c.expression.grain.isPlain = true) : Keeps [.giveAll columns] := by
  refine keeps_single fun n m hrows => ?_
  obtain ⟨k, hproject, hm⟩ := hrows
  have hk : k = n := projects_plain h hproject
  have hsame : m = k := hm
  omega

theorem keeps_give {e : Expr} (h : e.grain.isPlain = true) (name : String) :
    Keeps [.give e name] := by
  refine keeps_giveAll fun c hc => ?_
  rw [List.mem_singleton] at hc
  exact hc ▸ h

theorem keeps_carryAll : Keeps [.carryAll] := by
  refine keeps_carryOnly fun c hc => ?_
  rw [List.mem_singleton] at hc
  exact hc ▸ rfl

/-- An assertion lets every row through. -/
theorem keeps_assertion {e : Expr} (h : e.isAssertion = true) : Keeps [.keep e] := by
  refine keeps_single fun n m hrows => ?_
  obtain ⟨k, hproject, hm⟩ := hrows
  have hk : k = n := by
    refine projects_plain (fun c hc => ?_) hproject
    rw [List.mem_singleton] at hc
    exact hc ▸ rfl
  have hsame : m = k := by simpa [h] using hm
  omega

/-- An aggregate at the end leaves one row. -/
theorem gathers_give {e : Expr} (h : e.grain = .aggregate) (name : String) :
    Gathers [.give e name] := by
  rintro n m ⟨k, hrows, hm⟩
  obtain ⟨l, hproject, hk⟩ := hrows
  have hl : l = 1 := projects_aggregate h name hproject
  have hsame : m = k := hm
  have hnext : k = l := hk
  omega

theorem gathers_carry {e : Expr} (h : e.grain = .aggregate) (name : String) :
    Gathers [.carryOnly [Column.named e name]] := by
  rintro n m ⟨k, hrows, hm⟩
  obtain ⟨l, hproject, hk⟩ := hrows
  have hl : l = 1 := projects_aggregate h name hproject
  have hsame : m = k := hm
  have hnext : k = l := hk
  omega

end Counting

/-- Every call in an expression leaves one row of one. -/
def Expr.Steady (e : Expr) : Prop := ∀ body ∈ e.calls, OneRow body

/-- Every call in a list of clauses leaves one row of one, at whatever depth it stands. -/
def Steady (cs : List Clause) : Prop := ∀ body ∈ Clause.callsOf cs, OneRow body

/-- Every call in the body of a call leaves one row of one. -/
def SteadyBody (cs : List Clause) : Prop := ∀ body ∈ Clause.callsWithin cs, OneRow body

/-- An expression without aggregates and without calls. -/
structure Expr.Simple (e : Expr) : Prop where
  grain : e.grain.isPlain = true
  calls : e.calls = []

section Calls

attribute [local simp] Expr.grain Expr.grainOfEntries Expr.grainOfItems Expr.calls Expr.callsOf
  Expr.callsOfOption Expr.callsOfEntries Expr.callsOfItems Expr.callsOfColumns Expr.callsOfOrder
  Clause.calls Clause.callsOf Clause.callsWithin Clause.callsOfBranches

theorem callsOf_append (cs cs' : List Clause) :
    Clause.callsOf (cs ++ cs') = Clause.callsOf cs ++ Clause.callsOf cs' := by
  induction cs with
  | nil => rfl
  | cons c rest ih => simp [ih]

theorem steady_nil : Steady [] := fun _ h => absurd h List.not_mem_nil

theorem Steady.append {cs cs' : List Clause} (h : Steady cs) (h' : Steady cs') :
    Steady (cs ++ cs') := by
  intro body hbody
  rw [callsOf_append] at hbody
  rcases List.mem_append.mp hbody with hbody | hbody
  · exact h body hbody
  · exact h' body hbody

theorem steady_single {c : Clause} (h : ∀ body ∈ c.calls, OneRow body) : Steady [c] := by
  intro body hbody
  rw [Clause.callsOf, Clause.callsOf, List.append_nil] at hbody
  exact h body hbody

theorem Steady.cons {c : Clause} {cs : List Clause} (h : ∀ body ∈ c.calls, OneRow body)
    (hs : Steady cs) : Steady (c :: cs) :=
  (steady_single h).append hs

theorem Steady.before {c : Clause} {cs : List Clause} (h : Steady [c]) (hs : Steady cs) :
    Steady (c :: cs) :=
  h.append hs

theorem steady_of_callless {c : Clause} (h : c.calls = []) : Steady [c] :=
  steady_single fun _ hbody => absurd hbody (h ▸ List.not_mem_nil)

theorem steady_forall {cs : List Clause} (h : ∀ c ∈ cs, Steady [c]) : Steady cs := by
  induction cs with
  | nil => exact steady_nil
  | cons c rest ih =>
    have hfirst : Steady [c] := h c List.mem_cons_self
    have hrest : Steady rest := ih fun c hc => h c (List.mem_cons_of_mem _ hc)
    exact hfirst.append hrest

theorem steady_of_calls_nil {e : Expr} (h : e.calls = []) : e.Steady :=
  fun _ hbody => absurd hbody (h ▸ List.not_mem_nil)

theorem callsOf_eq_nil {es : List Expr} (h : ∀ e ∈ es, e.calls = []) : Expr.callsOf es = [] := by
  induction es with
  | nil => rfl
  | cons e rest ih =>
    have hrest := ih fun e he => h e (List.mem_cons_of_mem _ he)
    rw [Expr.callsOf, h e List.mem_cons_self, hrest, List.append_nil]

theorem steady_callsOf {es : List Expr} :
    (∀ body ∈ Expr.callsOf es, OneRow body) ↔ ∀ e ∈ es, e.Steady := by
  induction es with
  | nil => simp
  | cons e rest ih =>
    rw [Expr.callsOf, List.forall_mem_append, List.forall_mem_cons, ih, Expr.Steady]

theorem steady_partwise : Partwise Expr.Steady where
  all _ := steady_callsOf
  any _ := steady_callsOf
  bool _ := steady_of_calls_nil rfl

theorem callsOfColumns_eq_nil {columns : List (Column Expr)}
    (h : ∀ c ∈ columns, c.expression.calls = []) : Expr.callsOfColumns columns = [] := by
  induction columns with
  | nil => rfl
  | cons c rest ih =>
    have hrest := ih fun c hc => h c (List.mem_cons_of_mem _ hc)
    have hfirst := h c List.mem_cons_self
    obtain ⟨e, name⟩ := c
    rw [Expr.callsOfColumns, hfirst, hrest, List.append_nil]

theorem callsOfOrder_eq_nil {order : List (OrderKey Expr)}
    (h : ∀ key ∈ order, key.expression.calls = []) : Expr.callsOfOrder order = [] := by
  induction order with
  | nil => rfl
  | cons key rest ih =>
    have hrest := ih fun key hkey => h key (List.mem_cons_of_mem _ hkey)
    have hfirst := h key List.mem_cons_self
    obtain ⟨e, descending⟩ := key
    rw [Expr.callsOfOrder, hfirst, hrest, List.append_nil]

theorem callsOfBranches_steady {bodies : List (List Clause)} (h : ∀ b ∈ bodies, Steady b) :
    ∀ body ∈ Clause.callsOfBranches bodies, OneRow body := by
  induction bodies with
  | nil => exact fun _ hbody => absurd hbody List.not_mem_nil
  | cons b rest ih =>
    intro body hbody
    rw [Clause.callsOfBranches] at hbody
    rcases List.mem_append.mp hbody with hbody | hbody
    · exact h b List.mem_cons_self body hbody
    · exact ih (fun b hb => h b (List.mem_cons_of_mem _ hb)) body hbody

theorem simple_var (name : String) : (Expr.var name).Simple := ⟨rfl, rfl⟩

theorem simple_string (text : String) : (Expr.string text).Simple := ⟨rfl, rfl⟩

theorem simple_propertyOf (name key : String) : (Expr.propertyOf name key).Simple := ⟨rfl, rfl⟩

theorem simple_param (name : String) : (Expr.param name).Simple := ⟨rfl, rfl⟩

theorem simple_map {entries : List (String × Expr)} (h : ∀ p ∈ entries, p.2.Simple) :
    (Expr.map entries).Simple := by
  induction entries with
  | nil => exact ⟨rfl, rfl⟩
  | cons entry rest ih =>
    obtain ⟨key, e⟩ := entry
    have hfirst : e.Simple := h (key, e) List.mem_cons_self
    have hrest := ih fun p hp => h p (List.mem_cons_of_mem _ hp)
    have hgrain : (Expr.grainOfEntries rest).isPlain = true := hrest.grain
    have hcalls : Expr.callsOfEntries rest = [] := hrest.calls
    constructor
    · simp [hfirst.grain, hgrain]
    · simp [hfirst.calls, hcalls]

/-- The entries of a projection are simple. -/
def SimpleItems (items : List (MapItem Expr)) : Prop :=
  ∀ key e, MapItem.entry key e ∈ items → e.Simple

theorem simple_projection (name : String) {items : List (MapItem Expr)} (h : SimpleItems items) :
    (Expr.projection name items).Simple := by
  have hboth : (Expr.grainOfItems items).isPlain = true ∧ Expr.callsOfItems items = [] := by
    induction items with
    | nil => exact ⟨rfl, rfl⟩
    | cons item rest ih =>
      obtain ⟨hgrain, hcalls⟩ := ih fun key e he => h key e (List.mem_cons_of_mem _ he)
      cases item with
      | own key => exact ⟨hgrain, hcalls⟩
      | entry key e =>
        have hfirst : e.Simple := h key e List.mem_cons_self
        constructor
        · simp [hfirst.grain, hgrain]
        · simp [hfirst.calls, hcalls]
  constructor
  · rw [Expr.grain, Grain.isPlain_join, hboth.1]
    rfl
  · rw [Expr.calls, hboth.2]

theorem callsWithin_subset (cs : List Clause) : Clause.callsWithin cs ⊆ Clause.callsOf cs := by
  unfold Clause.callsWithin
  split
  · exact List.nil_subset _
  · rename_i imports branches rest
    have hsame : Clause.callsOf (.call imports [.union branches] :: rest) =
        [.union branches] :: (Clause.callsOfBranches branches ++ Clause.callsOf rest) := by
      simp
    rw [hsame]
    exact List.subset_cons_self _ _
  · rw [Clause.callsOf]
    exact List.subset_append_right _ _
  · exact List.Subset.refl _

theorem Steady.body {cs : List Clause} (h : Steady cs) : SteadyBody cs :=
  fun body hbody => h body (callsWithin_subset cs hbody)

/-- The rows of a body come from merged branches. -/
theorem steadyBody_union {imports : List String} {branches : List (List Clause)}
    (hbranches : ∀ b ∈ branches, Steady b) {cs : List Clause} (hs : Steady cs) :
    SteadyBody (.call imports [.union branches] :: cs) := by
  intro body hbody
  rw [Clause.callsWithin] at hbody
  rcases List.mem_append.mp hbody with hbody | hbody
  · exact callsOfBranches_steady hbranches body hbody
  · exact hs body hbody

/-- The rows of a body come from a statement of the schema. -/
theorem steadyBody_statement {imports : List String} {name column statement : String}
    {cs : List Clause} (hs : Steady cs) :
    SteadyBody (.call imports [.carryOnly [Column.named (.var name) column],
      .raw statement] :: cs) := by
  intro body hbody
  rw [Clause.carryOnly, Column.named, Clause.callsWithin] at hbody
  exact hs body hbody

/-- A call that leaves one row of one, as do the calls inside it. -/
def SingleCall (c : Clause) : Prop :=
  ∃ imports body, c = .call imports body ∧ OneRow body ∧ SteadyBody body

theorem SingleCall.keeps {c : Clause} (h : SingleCall c) : Keeps [c] := by
  obtain ⟨imports, body, rfl, hone, _⟩ := h
  exact keeps_call hone

theorem SingleCall.steady {c : Clause} (h : SingleCall c) : Steady [c] := by
  obtain ⟨imports, body, rfl, hone, hbody⟩ := h
  refine steady_single fun inner hinner => ?_
  rw [Clause.calls] at hinner
  rcases List.mem_cons.mp hinner with rfl | hinner
  · exact hone
  · exact hbody inner hinner

def SingleCalls (cs : List Clause) : Prop := ∀ c ∈ cs, SingleCall c

theorem singleCalls_nil : SingleCalls [] := fun _ h => absurd h List.not_mem_nil

theorem SingleCalls.append {cs cs' : List Clause} (h : SingleCalls cs) (h' : SingleCalls cs') :
    SingleCalls (cs ++ cs') := by
  intro c hc
  rcases List.mem_append.mp hc with hc | hc
  · exact h c hc
  · exact h' c hc

theorem singleCalls_single {c : Clause} (h : SingleCall c) : SingleCalls [c] := by
  intro c' hc'
  rw [List.mem_singleton] at hc'
  exact hc' ▸ h

theorem SingleCalls.cons {c : Clause} {cs : List Clause} (h : SingleCall c)
    (hs : SingleCalls cs) : SingleCalls (c :: cs) :=
  (singleCalls_single h).append hs

theorem SingleCalls.keeps {cs : List Clause} (h : SingleCalls cs) : Keeps cs :=
  keeps_forall fun c hc => (h c hc).keeps

theorem SingleCalls.steady {cs : List Clause} (h : SingleCalls cs) : Steady cs :=
  steady_forall fun c hc => (h c hc).steady

theorem steady_giveAll {columns : List (Column Expr)}
    (h : ∀ c ∈ columns, c.expression.calls = []) : Steady [.giveAll columns] :=
  steady_of_callless (callsOfColumns_eq_nil h)

theorem steady_give {e : Expr} (h : e.calls = []) (name : String) : Steady [.give e name] := by
  refine steady_giveAll fun c hc => ?_
  rw [List.mem_singleton] at hc
  exact hc ▸ h

theorem steady_carryOnly {columns : List (Column Expr)}
    (h : ∀ c ∈ columns, c.expression.calls = []) : Steady [.carryOnly columns] := by
  refine steady_of_callless ?_
  simp [Clause.carryOnly, callsOfColumns_eq_nil h]

theorem steady_keep {e : Expr} (h : e.Steady) : Steady [.keep e] := by
  refine steady_single fun body hbody => h body ?_
  simpa [Clause.keep, Column.star] using hbody

theorem steady_find {e : Option Expr} (pattern : Pattern) (h : ∀ p ∈ e, p.Steady) :
    Steady [.find pattern e] := by
  refine steady_single fun body hbody => ?_
  cases e with
  | none => exact absurd hbody List.not_mem_nil
  | some p => exact h p rfl body hbody

theorem steady_match (pattern : Pattern) : Steady [.find pattern none] := steady_of_callless rfl

end Calls

end GraphSelection.Cypher
