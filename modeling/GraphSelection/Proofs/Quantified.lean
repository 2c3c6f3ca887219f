import GraphSelection.Proofs.MissingClaims
import GraphSelection.Proofs.Rows.Scopes
import Mathlib.Data.List.Forall2

/-!
Quantifiers over related nodes. A block stands for the rows that its clauses reach: a match makes a
row for each pair of an edge and a node, a call goes on from every row to one row, and only rows on
which a predicate is true go on. What a quantifier is compiled to is a statement about the truths of
its inner predicate on the pairs.
-/
namespace GraphSelection.Cypher

/-- What is known of a graph: how a pattern is matched from a row, what the other clauses make of a
row, and the truth of whatever is neither a connective nor a block. -/
structure Store (ρ : Type) where
  found : Pattern → ρ → List ρ
  after : Clause → ρ → List ρ
  leaf : Expr → ρ → Truth
  /-- A call whose body leaves one row of one goes on to one row. -/
  after_single : ∀ c, SingleCall c → ∀ row, ∃ next, after c row = [next]

mutual
/-- The truth of an expression on a row, that of the blocks in it included. -/
def Expr.judged {ρ : Type} (g : Store ρ) : Expr → ρ → Truth
  | .literal (.boolean true), _ => .yes
  | .literal (.boolean false), _ => .no
  | .literal .null, _ => .unknown
  | .all items, row => Expr.judgedAll g items row
  | .any items, row => Expr.judgedAny g items row
  | .not inner, row => (Expr.judged g inner row).not
  | .existsIn body, row => Truth.ofBool !(Clause.reached g body row).isEmpty
  | .binary (.countIn body) .equal (.literal (.integer n)), row =>
      Truth.ofBool ((Clause.reached g body row).length == n)
  | e, row => g.leaf e row
def Expr.judgedAll {ρ : Type} (g : Store ρ) : List Expr → ρ → Truth
  | [], _ => .yes
  | e :: rest, row => (Expr.judged g e row).and (Expr.judgedAll g rest row)
def Expr.judgedAny {ρ : Type} (g : Store ρ) : List Expr → ρ → Truth
  | [], _ => .no
  | e :: rest, row => (Expr.judged g e row).or (Expr.judgedAny g rest row)
/-- The rows that a clause makes of a row. -/
def Clause.next {ρ : Type} (g : Store ρ) : Clause → ρ → List ρ
  | .matching pattern false none, row => g.found pattern row
  | .matching pattern false (some p), row =>
      (g.found pattern row).filter fun next => Expr.judged g p next == .yes
  | .carry [⟨.star, none⟩] false [] none none (some p), row =>
      if Expr.judged g p row == .yes then [row] else []
  | c, row => g.after c row
/-- The rows that clauses reach from a row. -/
def Clause.reached {ρ : Type} (g : Store ρ) : List Clause → ρ → List ρ
  | [], row => [row]
  | c :: rest, row => (Clause.next g c row).flatMap (Clause.reached g rest)
end

namespace Truth

/-- The truth is that of a proposition; it is not unknown. -/
def Decides (t : Truth) (p : Prop) : Prop := (p → t = .yes) ∧ (¬ p → t = .no)

variable {t t' : Truth} {p p' : Prop}

theorem decides_ofBool (b : Bool) : (ofBool b).Decides (b = true) := by
  cases b <;> simp [Decides, ofBool]

theorem Decides.congr (h : t.Decides p) (hiff : p ↔ p') : t.Decides p' :=
  ⟨fun hp => h.1 (hiff.mpr hp), fun hp => h.2 fun hp' => hp (hiff.mp hp')⟩

theorem Decides.not (h : t.Decides p) : t.not.Decides (¬ p) := by
  refine ⟨fun hp => ?_, fun hp => ?_⟩
  · rw [h.2 hp]
    rfl
  · rw [h.1 (Classical.not_not.mp hp)]
    rfl

theorem Decides.and (h : t.Decides p) (h' : t'.Decides p') : (t.and t').Decides (p ∧ p') := by
  refine ⟨fun ⟨hp, hp'⟩ => ?_, fun hnot => ?_⟩
  · rw [h.1 hp, h'.1 hp']
    rfl
  · by_cases hp : p
    · rw [h.1 hp, h'.2 fun hp' => hnot ⟨hp, hp'⟩]
      rfl
    · rw [h.2 hp]
      rfl

theorem Decides.yes_iff (h : t.Decides p) : t = .yes ↔ p := by
  refine ⟨fun ht => ?_, h.1⟩
  by_contra hp
  rw [h.2 hp] at ht
  cases ht

end Truth

section Store

variable {ρ : Type} (g : Store ρ) (row : ρ)

mutual
/-- The connectives are those of three-valued logic, whatever stands in them. -/
theorem Expr.truth_judged : (e : Expr) → e.truth (fun e => e.judged g row) = e.judged g row
  | .all items => by rw [Expr.truth, Expr.judged, Expr.truthOfAll_judged]
  | .any items => by rw [Expr.truth, Expr.judged, Expr.truthOfAny_judged]
  | .not inner => by rw [Expr.truth, Expr.judged, Expr.truth_judged inner]
  | .literal value => by
    unfold Expr.truth
    split <;> simp_all [Expr.judged]
  | .var _ | .param _ | .property _ _ | .binary _ _ _ | .isNull _ | .isNotNull _ | .apply _ _
  | .distinct _ | .hasLabels _ _ | .map _ | .projection _ _ | .list _ | .choice _ _ _
  | .comprehension _ _ _ | .existsIn _ | .countIn _ | .star => by rw [Expr.truth] <;> simp
theorem Expr.truthOfAll_judged : (es : List Expr) →
    Expr.truthOfAll (fun e => e.judged g row) es = Expr.judgedAll g es row
  | [] => by rw [Expr.truthOfAll, Expr.judgedAll]
  | e :: rest => by
    rw [Expr.truthOfAll, Expr.judgedAll, Expr.truth_judged e, Expr.truthOfAll_judged rest]
theorem Expr.truthOfAny_judged : (es : List Expr) →
    Expr.truthOfAny (fun e => e.judged g row) es = Expr.judgedAny g es row
  | [] => by rw [Expr.truthOfAny, Expr.judgedAny]
  | e :: rest => by
    rw [Expr.truthOfAny, Expr.judgedAny, Expr.truth_judged e, Expr.truthOfAny_judged rest]
end

theorem judged_not (e : Expr) : (Expr.not e).judged g row = (e.judged g row).not := by
  rw [Expr.judged]

theorem judged_hasLabels (name : String) (labels : List String) :
    (Expr.hasLabels name labels).judged g row = g.leaf (.hasLabels name labels) row := by
  rw [Expr.judged] <;> simp

theorem judged_allOf (es : List Expr) :
    ((Expr.allOf es).getD (.bool true)).judged g row = Expr.judgedAll g es row := by
  rw [← Expr.truth_judged, Expr.truth_allOf, Expr.truthOfAll_judged]

theorem judgedAll_append (es es' : List Expr) :
    Expr.judgedAll g (es ++ es') row =
      (Expr.judgedAll g es row).and (Expr.judgedAll g es' row) := by
  simp only [← Expr.truthOfAll_judged, Expr.truthOfAll_append]

theorem judged_anyOf (es : List Expr) :
    ((Expr.anyOf es).getD (.bool false)).judged g row = Expr.judgedAny g es row := by
  rw [← Expr.truth_judged, Expr.truth_anyOf, Expr.truthOfAny_judged]

theorem reached_append (cs cs' : List Clause) :
    Clause.reached g (cs ++ cs') row =
      (Clause.reached g cs row).flatMap (Clause.reached g cs') := by
  induction cs generalizing row with
  | nil => simp [Clause.reached]
  | cons c rest ih =>
    have hrest : Clause.reached g (rest ++ cs') =
        fun row => (Clause.reached g rest row).flatMap (Clause.reached g cs') := funext ih
    rw [List.cons_append, Clause.reached, Clause.reached, hrest, List.flatMap_assoc]

/-- Calls go on from every row to one row. -/
theorem reached_calls {calls : List Clause} (h : SingleCalls calls) :
    ∃ next, Clause.reached g calls row = [next] := by
  induction calls generalizing row with
  | nil => exact ⟨row, by rw [Clause.reached]⟩
  | cons c rest ih =>
    have hsingle : SingleCall c := h c List.mem_cons_self
    obtain ⟨between, hbetween⟩ := g.after_single c hsingle row
    obtain ⟨imports, body, rfl, _⟩ := hsingle
    obtain ⟨next, hnext⟩ := ih between fun c hc => h c (List.mem_cons_of_mem _ hc)
    refine ⟨next, ?_⟩
    simp only [Clause.reached, Clause.next, hbetween, List.flatMap_cons, List.flatMap_nil,
      List.append_nil, hnext]

/-- The rows on which calls end that start from the matches of a pattern, one for each match. -/
def Pairs (pattern : Pattern) (calls : List Clause) (pairs : List ρ) : Prop :=
  List.Forall₂ (fun start pair => Clause.reached g calls start = [pair]) (g.found pattern row) pairs

theorem exists_pairs (pattern : Pattern) {calls : List Clause} (h : SingleCalls calls) :
    ∃ pairs, Pairs g row pattern calls pairs := by
  unfold Pairs
  induction g.found pattern row with
  | nil => exact ⟨[], .nil⟩
  | cons start rest ih =>
    obtain ⟨pair, hpair⟩ := reached_calls g start h
    obtain ⟨pairs, hpairs⟩ := ih
    exact ⟨pair :: pairs, .cons hpair hpairs⟩

end Store

end GraphSelection.Cypher

namespace GraphSelection.Plan

open Cypher

/-- What a quantifier says of the truths of a predicate on the related nodes. -/
def Quantifier.Says : Quantifier → List Truth → Prop
  | .atLeastOne, truths => .yes ∈ truths
  | .noneAtAll, truths => .yes ∉ truths
  | .exactlyOne, truths => truths.count .yes = 1
  | .every, truths => .yes ∈ truths ∧ ∀ t ∈ truths, t = .yes

/-- What a quantifier is compiled to: of all related nodes it asks that the predicate is true of one
and false of none. -/
def Quantifier.Finds : Quantifier → List Truth → Prop
  | .every, truths => .yes ∈ truths ∧ .no ∉ truths
  | q, truths => q.Says truths

/-- A quantifier finds what it says but in one case: every related node is asked for, and the
predicate is true of some, unknown of some and false of none. -/
theorem Quantifier.finds_iff_says (q : Quantifier) (truths : List Truth) :
    (q.Finds truths ↔ q.Says truths) ↔
      ¬ (q = .every ∧ .yes ∈ truths ∧ .unknown ∈ truths ∧ .no ∉ truths) := by
  cases q with
  | every =>
    simp only [Quantifier.Finds, Quantifier.Says]
    constructor
    · rintro hiff ⟨_, hyes, hunknown, hno⟩
      obtain ⟨_, hall⟩ := hiff.mp ⟨hyes, hno⟩
      cases hall _ hunknown
    · intro hcase
      refine and_congr_right fun hyes => ⟨fun hno t ht => ?_, fun hall hno => ?_⟩
      · cases t with
        | yes => rfl
        | no => exact absurd ht hno
        | unknown => exact absurd ⟨trivial, hyes, ht, hno⟩ hcase
      · cases hall _ hno
  | _ => simp [Quantifier.Finds]

end GraphSelection.Plan

namespace GraphSelection.Program

open Cypher Plan

section Blocks

variable {ρ : Type} {g : Store ρ} {row : ρ} {pattern : Pattern} {calls : List Clause}
  {pairs : List ρ}

/-- The truth of a predicate, where there is one. -/
def judgedOption (g : Store ρ) (predicate : Option Expr) (pair : ρ) : Truth :=
  predicate.elim .yes fun p => p.judged g pair

theorem reached_keep (predicate : Option Expr) (pair : ρ) :
    Clause.reached g (predicate.map Clause.keep).toList pair =
      if judgedOption g predicate pair == .yes then [pair] else [] := by
  cases predicate with
  | none => rfl
  | some p => simp [Clause.keep, Column.star, Clause.reached, Clause.next, judgedOption]

/-- A block keeps the pairs on which its predicate is true. -/
theorem reached_narrowed (hpairs : Pairs g row pattern calls pairs) (predicate : Option Expr) :
    Clause.reached g (narrowed pattern calls predicate) row =
      pairs.filter fun pair => judgedOption g predicate pair == .yes := by
  unfold narrowed
  split
  · rename_i hnone
    have hsame : g.found pattern row = pairs := by
      simpa [Pairs, List.isEmpty_iff.mp hnone, Clause.reached, List.forall₂_eq_eq_eq] using hpairs
    cases predicate with
    | none => simp [Clause.find, Clause.reached, Clause.next, hsame, judgedOption]
    | some p => simp [Clause.find, Clause.reached, Clause.next, hsame, judgedOption]
  · unfold Pairs at hpairs
    simp only [Clause.find, List.cons_append, Clause.reached, Clause.next]
    generalize g.found pattern row = starts at hpairs ⊢
    induction hpairs with
    | nil => rfl
    | cons hfirst _ ih =>
      rw [List.flatMap_cons, reached_append, hfirst, ih, List.filter_cons, List.flatMap_cons,
        List.flatMap_nil, List.append_nil, reached_keep]
      split <;> rfl

/-- The truths of a predicate on the pairs. -/
def truthsOn (g : Store ρ) (predicate : Option Expr) (pairs : List ρ) : List Truth :=
  pairs.map (judgedOption g predicate)

/-- A block exists when its predicate is true on some pair. -/
theorem judged_exists (hpairs : Pairs g row pattern calls pairs) (predicate : Option Expr) :
    ((Expr.existsIn (narrowed pattern calls predicate)).judged g row).Decides
      (.yes ∈ truthsOn g predicate pairs) := by
  rw [Expr.judged, reached_narrowed hpairs]
  refine (Truth.decides_ofBool _).congr ?_
  simp [truthsOn]

/-- A block is counted by the pairs on which its predicate is true. -/
theorem judged_count (hpairs : Pairs g row pattern calls pairs) (predicate : Option Expr) :
    ((Expr.equals (.countIn (narrowed pattern calls predicate)) (.int 1)).judged g row).Decides
      ((truthsOn g predicate pairs).count .yes = 1) := by
  rw [Expr.equals, Expr.int, Expr.judged, reached_narrowed hpairs, truthsOn, List.count_eq_countP,
    List.countP_map, List.countP_eq_length_filter]
  refine (Truth.decides_ofBool _).congr ?_
  rw [beq_iff_eq]
  exact Int.ofNat_inj

/-- A negated predicate is true where the predicate is false. -/
theorem yes_mem_truthsOn_not (p : Expr) (pairs : List ρ) :
    .yes ∈ truthsOn g (some (.not p)) pairs ↔ .no ∈ truthsOn g (some p) pairs := by
  have hnot : ∀ t : Truth, t.not = .yes ↔ t = .no := by
    intro t
    cases t <;> decide
  simp [truthsOn, judgedOption, Expr.judged, hnot]

theorem no_notMem_truthsOn_none (pairs : List ρ) : .no ∉ truthsOn g none pairs := by
  simp [truthsOn, judgedOption]

/-- What the blocks of a quantifier say together. -/
theorem judged_quantified (hpairs : Pairs g row pattern calls pairs) (q : Quantifier)
    (predicate : Option Expr) :
    ((quantified q pattern calls predicate).judged g row).Decides
      (q.Finds (truthsOn g predicate pairs)) := by
  cases q with
  | atLeastOne => exact judged_exists hpairs predicate
  | noneAtAll => exact (judged_exists hpairs predicate).not
  | exactlyOne => exact judged_count hpairs predicate
  | every =>
    cases predicate with
    | none =>
      refine (judged_exists hpairs none).congr ?_
      simp [Quantifier.Finds, no_notMem_truthsOn_none]
    | some p =>
      have hsome := judged_exists hpairs (some p)
      have hnone := (judged_exists hpairs (some (.not p))).not
      rw [yes_mem_truthsOn_not] at hnone
      rw [quantified, Expr.judged, Expr.judgedAll, Expr.judgedAll, Expr.judgedAll,
        Truth.and_yes_right, judged_not]
      exact hsome.and hnone

end Blocks

section Related

/-- What a condition is compiled to in some run; nothing is compiled to nothing. -/
def CompiledTo (ctx : Context) (filter : Option Condition) (predicate : Option Expr) : Prop :=
  ∃ q r s t, Condition.optionPredicate ctx filter q s = .ok ((predicate.toList, r), t)

/-- What is asked of a related node and of the edge to it, compiled: a composite target brings the
labels of each constituent and its own predicate, another target at most a predicate. -/
structure Inner where
  node : String
  isComposite : Bool
  targets : List (List String × Option Expr)
  edge : Option Expr

namespace Inner

variable {ρ : Type} (g : Store ρ)

/-- Some constituent has the node, and its predicate is true. -/
def alternatives (node : String) : List (List String × Option Expr) → ρ → Truth
  | [], _ => .no
  | (labels, own) :: rest, pair =>
      ((g.leaf (.hasLabels node labels) pair).and (judgedOption g own pair)).or
        (alternatives node rest pair)

/-- The truth of what is asked on a pair. -/
def truth (i : Inner) (pair : ρ) : Truth :=
  (if i.isComposite then alternatives g i.node i.targets pair
    else i.targets.head?.elim .yes fun target => judgedOption g target.2 pair).and
    (judgedOption g i.edge pair)

end Inner

/-- The targets that are looked at: all constituents of a composite, else the only one there is. -/
def lookedAt (isComposite : Bool) (targets : List (Entity × Option Condition)) :
    List (Entity × Option Condition) :=
  if isComposite then targets else targets.take 1

/-- A target with its labels and what its own condition is compiled to. -/
def OwnCompiled (ctx : Context) (target : Entity × Option Condition)
    (own : List String × Option Expr) : Prop :=
  own.1 = target.1.labels ∧ CompiledTo ctx target.2 own.2

/-- The inner predicate is compiled from the targets and the condition on the edge. -/
structure Inner.Compiles (i : Inner) (ctx : Context) (targets : List (Entity × Option Condition))
    (edge : Option Condition) : Prop where
  targets : List.Forall₂ (OwnCompiled ctx) (lookedAt i.isComposite targets) i.targets
  edge : CompiledTo ctx edge i.edge

variable {ctx : Context} {q r : Subqueries} {s t : Supply}

theorem optionPredicate_compiled {filter : Option Condition} {es : List Expr}
    (h : Condition.optionPredicate ctx filter q s = .ok ((es, r), t)) :
    ∃ predicate : Option Expr, es = predicate.toList ∧ CompiledTo ctx filter predicate := by
  cases filter with
  | none =>
    obtain ⟨rfl, _⟩ := (predicate_pure_ok ..).mp h
    exact ⟨none, rfl, q, r, s, t, h⟩
  | some c =>
    have hrun := h
    simp only [Condition.optionPredicate, predicate_bind_ok, predicate_pure_ok] at h
    obtain ⟨e, _, _, _, rfl, _⟩ := h
    exact ⟨some e, rfl, q, r, s, t, hrun⟩

theorem allOf_hasLabels (name : String) (labels : List String) (es : List Expr) :
    ∃ e, Expr.allOf (.hasLabels name labels :: es) = some e := by
  unfold Expr.allOf
  split
  · rename_i hnil
    cases hnil
  · exact ⟨_, rfl⟩
  · exact ⟨_, rfl⟩

theorem judgedAll_option {ρ : Type} (g : Store ρ) (predicate : Option Expr) (pair : ρ) :
    Expr.judgedAll g predicate.toList pair = judgedOption g predicate pair := by
  cases predicate with
  | none => rfl
  | some p => rw [Option.toList_some, Expr.judgedAll, Expr.judgedAll, Truth.and_yes_right]; rfl

theorem alternatives_compiled {targets : List (Entity × Option Condition)} {es : List Expr}
    (h : Condition.alternatives ctx targets q s = .ok ((es, r), t)) :
    ∃ owns, List.Forall₂ (OwnCompiled ctx) targets owns ∧
      ∀ {ρ : Type} (g : Store ρ) (pair : ρ),
        Expr.judgedAny g es pair = Inner.alternatives g ctx.subject owns pair := by
  induction targets generalizing q s es with
  | nil =>
    obtain ⟨rfl, _⟩ := (predicate_pure_ok ..).mp h
    exact ⟨[], .nil, fun g pair => rfl⟩
  | cons target rest ih =>
    obtain ⟨e, filter⟩ := target
    simp only [Condition.alternatives, predicate_bind_ok, predicate_pure_ok] at h
    obtain ⟨own, _, _, hown, es', _, _, hrest, rfl, rfl, rfl⟩ := h
    obtain ⟨predicate, rfl, hcompiled⟩ := optionPredicate_compiled hown
    obtain ⟨owns, howns, hjudged⟩ := ih hrest
    refine ⟨(e.labels, predicate) :: owns, .cons ⟨rfl, hcompiled⟩ howns, ?_⟩
    intro ρ g pair
    obtain ⟨e', he'⟩ := allOf_hasLabels ctx.subject e.labels predicate.toList
    have hfirst := judged_allOf g pair (.hasLabels ctx.subject e.labels :: predicate.toList)
    rw [he', Option.getD_some, Expr.judgedAll, judgedAll_option, judged_hasLabels] at hfirst
    rw [he', Option.toList_some, List.singleton_append, Expr.judgedAny, hfirst, hjudged,
      Inner.alternatives]

/-- The predicate of a target that is no composite is its condition, if it has one. -/
theorem firstTarget_compiled {targets : List (Entity × Option Condition)} {es : List Expr}
    (h : Condition.firstTarget ctx targets q s = .ok ((es, r), t)) :
    ∃ owns, List.Forall₂ (OwnCompiled ctx) (targets.take 1) owns ∧
      ∀ {ρ : Type} (g : Store ρ) (pair : ρ), Expr.judgedAll g es pair =
        owns.head?.elim .yes fun own => judgedOption g own.2 pair := by
  cases targets with
  | nil =>
    obtain ⟨rfl, _⟩ := (predicate_pure_ok ..).mp h
    exact ⟨[], .nil, fun g pair => rfl⟩
  | cons target rest =>
    obtain ⟨predicate, rfl, hcompiled⟩ := optionPredicate_compiled h
    exact ⟨[(target.1.labels, predicate)], .cons ⟨rfl, hcompiled⟩ .nil,
      fun g pair => judgedAll_option g predicate pair⟩

/-- A condition on related nodes is compiled to the blocks of its quantifier, over the pairs that
its relationship leads to and with an inner predicate compiled from its targets and its edge. -/
theorem related_compiled {relationship : Relationship} {quantifier : Quantifier}
    {targets : List (Entity × Option Condition)} {isComposite : Bool} {edge : Option Condition}
    {e : Expr} (h : Condition.predicate ctx
      (.related relationship quantifier targets isComposite edge) q s = .ok ((e, r), t)) :
    ∃ (link : String) (i : Inner) (calls : List Clause) (predicate : Option Expr),
      i.isComposite = isComposite ∧
      i.Compiles (ctx.enter i.node (some link) ctx.result) targets edge ∧ SingleCalls calls ∧
      e = quantified quantifier (traversal ctx.subject relationship link
        (NodePattern.named i.node (targetLabels isComposite targets))) calls predicate ∧
      ∀ {ρ : Type} (g : Store ρ) (pair : ρ), judgedOption g predicate pair = i.truth g pair := by
  simp only [Condition.predicate, predicate_bind_ok, predicate_lift_ok, fresh_ok,
    predicate_pure_ok] at h
  obtain ⟨link, _, _, ⟨⟨_, rfl⟩, rfl⟩, node, _, _, ⟨⟨_, rfl⟩, rfl⟩, ⟨parts, calls⟩, _, _,
    ⟨hgathered, rfl⟩, rfl, rfl, rfl⟩ := h
  have hown := judges_parts steady_partwise isComposite
    (steady_alternatives (ctx.enter node (some link) ctx.result) targets)
    (steady_firstTarget _ targets) (steady_optionPredicate _ edge)
  have hcalls : SingleCalls calls := (hown.gathered.run _ _ _ hgathered).2
  rw [gathered_ok] at hgathered
  obtain ⟨last, hparts, _⟩ := hgathered
  have hpredicate : ∀ {ρ : Type} (g : Store ρ) (pair : ρ),
      judgedOption g (Expr.allOf parts) pair = Expr.judgedAll g parts pair := by
    intro ρ g pair
    rw [← judged_allOf]
    cases Expr.allOf parts with
    | none => rfl
    | some p => rfl
  cases isComposite with
  | true =>
    simp only [if_true, predicate_bind_ok, predicate_pure_ok] at hparts
    obtain ⟨alternatives, _, _, hown, _, _, _, ⟨rfl, rfl, rfl⟩, onEdge, _, _, hedge, rfl, _, _⟩ :=
      hparts
    obtain ⟨owns, howns, hjudged⟩ := alternatives_compiled hown
    obtain ⟨onEdge, rfl, hcompiled⟩ := optionPredicate_compiled hedge
    refine ⟨link, ⟨node, true, owns, onEdge⟩, calls, _, rfl, ⟨howns, hcompiled⟩, hcalls, rfl, ?_⟩
    intro ρ g pair
    rw [hpredicate, judgedAll_append, judgedAll_option, Expr.judgedAll, Expr.judgedAll,
      Truth.and_yes_right, judged_anyOf, hjudged]
    rfl
  | false =>
    simp only [Bool.false_eq_true, if_false, predicate_bind_ok, predicate_pure_ok] at hparts
    obtain ⟨own, _, _, hown, onEdge, _, _, hedge, rfl, _, _⟩ := hparts
    obtain ⟨owns, howns, hjudged⟩ := firstTarget_compiled hown
    obtain ⟨onEdge, rfl, hcompiled⟩ := optionPredicate_compiled hedge
    refine ⟨link, ⟨node, false, owns, onEdge⟩, calls, _, rfl, ⟨howns, hcompiled⟩, hcalls, rfl, ?_⟩
    intro ρ g pair
    rw [hpredicate, judgedAll_append, judgedAll_option, hjudged]
    rfl

/-- The pairs that a condition on related nodes is about, and the truth of its inner predicate on
each. -/
theorem related_quantifies {relationship : Relationship} {quantifier : Quantifier}
    {targets : List (Entity × Option Condition)} {isComposite : Bool} {edge : Option Condition}
    {e : Expr} (h : Condition.predicate ctx
      (.related relationship quantifier targets isComposite edge) q s = .ok ((e, r), t)) :
    ∃ (link : String) (i : Inner) (calls : List Clause), i.isComposite = isComposite ∧
      i.Compiles (ctx.enter i.node (some link) ctx.result) targets edge ∧
      ∀ {ρ : Type} (g : Store ρ) (row : ρ), ∃ pairs,
        Pairs g row (traversal ctx.subject relationship link
          (NodePattern.named i.node (targetLabels isComposite targets))) calls pairs ∧
        (e.judged g row = .yes ↔ quantifier.Finds (pairs.map (i.truth g))) ∧
        ((e.judged g row = .yes ↔ quantifier.Says (pairs.map (i.truth g))) ↔
          ¬ (quantifier = .every ∧ .yes ∈ pairs.map (i.truth g) ∧
            .unknown ∈ pairs.map (i.truth g) ∧ .no ∉ pairs.map (i.truth g))) := by
  obtain ⟨link, i, calls, predicate, hsame, hcompiles, hcalls, rfl, hpredicate⟩ :=
    related_compiled h
  refine ⟨link, i, calls, hsame, hcompiles, fun {ρ} g row => ?_⟩
  obtain ⟨pairs, hpairs⟩ := exists_pairs g row (traversal ctx.subject relationship link
    (NodePattern.named i.node (targetLabels isComposite targets))) hcalls
  have htruths : truthsOn g predicate pairs = pairs.map (i.truth g) :=
    List.map_congr_left fun pair _ => hpredicate g pair
  have hfinds := (judged_quantified hpairs quantifier predicate).yes_iff
  rw [htruths] at hfinds
  refine ⟨pairs, hpairs, hfinds, ?_⟩
  rw [hfinds]
  exact quantifier.finds_iff_says _

end Related

end GraphSelection.Program

namespace GraphSelection.Stage

open Cypher Program

/-- All works of a person have the title. -/
def allTitled : Doc.Members := [("works_ALL", .record [("title", .text "Emma")])]

/-- Everybody has worked on two films, of which the second has no title. -/
def untitled : Store Nat where
  found _ _ := [1, 2]
  after _ row := [row]
  leaf e row :=
    match e with
    | .hasLabels _ labels => Truth.ofBool (labels == ["Film"])
    | _ => if row = 1 then .yes else .unknown
  after_single _ _ row := ⟨row, rfl⟩

end GraphSelection.Stage

namespace GraphSelection.Program

open Cypher Plan

theorem allTitled_compiled :
    ∃ targets pattern p r t, Stage.setup.requested (.node Stage.person) (some Stage.allTitled)
        "where" = .ok (some (.related Stage.works .every targets true none)) ∧
      Condition.predicate Stage.context (.related Stage.works .every targets true none) {} {} =
        .ok ((quantified .every pattern [] (some p), r), t) ∧
      [1, 2].map (p.judged Stage.untitled) = [.yes, .unknown] :=
  ⟨_, _, _, _, _, rfl, rfl, rfl⟩

theorem allTitled_judged {pattern : Pattern} {p : Expr}
    (h : [1, 2].map (p.judged Stage.untitled) = [.yes, .unknown]) :
    (quantified .every pattern [] (some p)).judged Stage.untitled 0 = .yes := by
  have hpairs : Pairs Stage.untitled 0 pattern [] [1, 2] := .cons rfl (.cons rfl .nil)
  have htruths : truthsOn Stage.untitled (some p) [1, 2] = [.yes, .unknown] := h
  refine (judged_quantified hpairs .every (some p)).yes_iff.mpr ?_
  rw [htruths]
  exact ⟨by decide, by decide⟩

/-- A work without a title is not one that the condition could fail on. -/
theorem allTitled_quantifies :
    ∃ (targets : List (Entity × Option Condition)) (e : Expr) (r : Subqueries) (t : Supply)
      (link : String) (i : Inner) (calls : List Clause) (pairs : List Nat),
      Stage.setup.requested (.node Stage.person) (some Stage.allTitled) "where" =
        .ok (some (.related Stage.works .every targets true none)) ∧
      Condition.predicate Stage.context (.related Stage.works .every targets true none) {} {} =
        .ok ((e, r), t) ∧
      i.Compiles (Stage.context.enter i.node (some link) Stage.context.result) targets none ∧
      Pairs Stage.untitled 0 (traversal Stage.context.subject Stage.works link
        (NodePattern.named i.node (targetLabels true targets))) calls pairs ∧
      e.judged Stage.untitled 0 = .yes ∧
      Quantifier.every.Finds (pairs.map (i.truth Stage.untitled)) := by
  obtain ⟨targets, pattern, p, r, t, hrequested, hrun, htruths⟩ := allTitled_compiled
  obtain ⟨link, i, calls, _, hcompiles, hmeans⟩ := related_quantifies hrun
  obtain ⟨pairs, hpairs, hfinds, _⟩ := hmeans Stage.untitled 0
  have hyes : (quantified .every pattern [] (some p)).judged Stage.untitled 0 = .yes :=
    allTitled_judged htruths
  exact ⟨targets, _, r, t, link, i, calls, pairs, hrequested, hrun, hcompiles, hpairs, hyes,
    hfinds.mp hyes⟩

/-- Not all works have the title, but the condition that all have it is true. -/
theorem allTitled_unsaid :
    ∃ targets pattern p r t, Stage.setup.requested (.node Stage.person) (some Stage.allTitled)
        "where" = .ok (some (.related Stage.works .every targets true none)) ∧
      Condition.predicate Stage.context (.related Stage.works .every targets true none) {} {} =
        .ok ((quantified .every pattern [] (some p), r), t) ∧
      (quantified .every pattern [] (some p)).judged Stage.untitled 0 = .yes ∧
      ¬ Quantifier.every.Says ((Stage.untitled.found pattern 0).map (p.judged Stage.untitled)) := by
  obtain ⟨targets, pattern, p, r, t, hrequested, hrun, htruths⟩ := allTitled_compiled
  refine ⟨targets, pattern, p, r, t, hrequested, hrun, allTitled_judged htruths, ?_⟩
  rintro ⟨_, hall⟩
  have hunknown : .unknown ∈ [1, 2].map (p.judged Stage.untitled) := by
    rw [htruths]
    decide
  cases hall .unknown hunknown

end GraphSelection.Program
