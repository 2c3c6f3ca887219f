import GraphSelection.Proofs.Hanging.Tokens
import GraphSelection.Proofs.WellScoped

/-!
The tokens of a query program. Names stand at a depth: each block around them hangs their characters
once more, so a name with a line feed in it is another name at every depth.
-/
namespace GraphSelection.Cypher

open Reread

def NodePattern.IsTidy (n : NodePattern) : Prop := Reread.IsTidy (n.name.getD "")

def EdgePattern.IsTidy (e : EdgePattern) : Prop := Reread.IsTidy (e.name.getD "")

def Pattern.IsTidy (p : Pattern) : Prop :=
  p.start.IsTidy ∧ ∀ step ∈ p.chain, step.1.IsTidy ∧ step.2.IsTidy

instance (p : Pattern) : Decidable p.IsTidy :=
  inferInstanceAs (Decidable (Reread.IsTidy (p.start.name.getD "") ∧
    ∀ step ∈ p.chain, Reread.IsTidy (step.1.name.getD "") ∧ Reread.IsTidy (step.2.name.getD "")))

mutual
/-- Variables, functions and parameters, which stand as they are written, leave no quote and no
comment open, and a supplied statement leaves none open at its end of line. -/
def Expr.IsTidy : Expr → Prop
  | .var name => Reread.IsTidy name
  | .param name => Reread.IsTidy name
  | .literal _ => True
  | .property base _ => base.IsTidy
  | .binary left _ right => left.IsTidy ∧ right.IsTidy
  | .all items => Expr.AreTidy items
  | .any items => Expr.AreTidy items
  | .not inner => inner.IsTidy
  | .isNull inner => inner.IsTidy
  | .isNotNull inner => inner.IsTidy
  | .apply function args => Reread.IsTidy function ∧ Expr.AreTidy args
  | .distinct inner => inner.IsTidy
  | .hasLabels name _ => Reread.IsTidy name
  | .map entries => Expr.EntriesTidy entries
  | .projection name items => Reread.IsTidy name ∧ Expr.ItemsTidy items
  | .list items => Expr.AreTidy items
  | .choice condition result otherwise => condition.IsTidy ∧ result.IsTidy ∧ otherwise.IsTidy
  | .comprehension name list body => Reread.IsTidy name ∧ list.IsTidy ∧ body.IsTidy
  | .existsIn body => Clause.AreTidy body
  | .countIn body => Clause.AreTidy body
  | .star => True
def Expr.AreTidy : List Expr → Prop
  | [] => True
  | e :: rest => e.IsTidy ∧ Expr.AreTidy rest
def Expr.EntriesTidy : List (String × Expr) → Prop
  | [] => True
  | (_, e) :: rest => e.IsTidy ∧ Expr.EntriesTidy rest
def Expr.ItemsTidy : List (MapItem Expr) → Prop
  | [] => True
  | .own _ :: rest => Expr.ItemsTidy rest
  | .entry _ e :: rest => e.IsTidy ∧ Expr.ItemsTidy rest
def Expr.OptionTidy : Option Expr → Prop
  | none => True
  | some e => e.IsTidy
def Expr.ColumnsTidy : List (Column Expr) → Prop
  | [] => True
  | ⟨e, rename⟩ :: rest =>
      (e.IsTidy ∧ Reread.IsTidy (rename.getD "")) ∧ Expr.ColumnsTidy rest
def Expr.OrderTidy : List (OrderKey Expr) → Prop
  | [] => True
  | ⟨e, _⟩ :: rest => e.IsTidy ∧ Expr.OrderTidy rest
def Expr.AssignmentsTidy : List (Expr × Expr) → Prop
  | [] => True
  | (target, value) :: rest => (target.IsTidy ∧ value.IsTidy) ∧ Expr.AssignmentsTidy rest
def Clause.IsTidy : Clause → Prop
  | .matching pattern _ predicate => pattern.IsTidy ∧ Expr.OptionTidy predicate
  | .carry columns _ order skip limit predicate =>
      Expr.ColumnsTidy columns ∧ Expr.OrderTidy order ∧ Expr.OptionTidy skip ∧
        Expr.OptionTidy limit ∧ Expr.OptionTidy predicate
  | .unwind e name => e.IsTidy ∧ Reread.IsTidy name
  | .call imports body => (∀ name ∈ imports, Reread.IsTidy name) ∧ Clause.AreTidy body
  | .union branches => Clause.BranchesTidy branches
  | .create pattern => pattern.IsTidy
  | .merge pattern => pattern.IsTidy
  | .set assignments => Expr.AssignmentsTidy assignments
  | .delete _ names => ∀ name ∈ names, Reread.IsTidy name
  | .returning columns _ => Expr.ColumnsTidy columns
  | .raw statement => (Pending.run .blank ((Text.trim statement).toList ++ ['\n'])).2 = .blank
def Clause.AreTidy : List Clause → Prop
  | [] => True
  | c :: rest => c.IsTidy ∧ Clause.AreTidy rest
def Clause.BranchesTidy : List (List Clause) → Prop
  | [] => True
  | branch :: rest => Clause.AreTidy branch ∧ Clause.BranchesTidy rest
end

/-- A string stands for itself whatever its characters are. -/
def Literal.tokens : Literal → List Token
  | .string s => [.literal s.toList]
  | value => textTokens value.text

def labelTokens (depth : Nat) (labels : List String) : List Token :=
  labels.flatMap fun l => textTokens ":" ++ [nameAt depth l]

def NodePattern.tokensAt (depth : Nat) (n : NodePattern) : List Token :=
  textTokens "(" ++ (hungTokens depth (n.name.getD "") ++ labelTokens depth n.labels) ++
    textTokens ")"

def EdgePattern.tokensAt (depth : Nat) (e : EdgePattern) : List Token :=
  let inner := hungTokens depth (e.name.getD "") ++ labelTokens depth e.graphType.toList
  match e.arrow with
  | .right => textTokens "-[" ++ inner ++ textTokens "]->"
  | .left => textTokens "<-[" ++ inner ++ textTokens "]-"
  | .undirected => textTokens "-[" ++ inner ++ textTokens "]-"

def Pattern.tokensAt (depth : Nat) (p : Pattern) : List Token :=
  p.start.tokensAt depth ++
    p.chain.flatMap fun (edge, node) => edge.tokensAt depth ++ node.tokensAt depth

def commaTokens (parts : List (List Token)) : List Token := (textTokens ", ").intercalate parts

def braceTokens (parts : List (List Token)) : List Token :=
  textTokens "\x7b " ++ commaTokens parts ++ textTokens " \x7d"

def junctionTokens (mark : String) : List (List Token) → List Token
  | [] => textTokens "true"
  | [single] => single
  | parts => textTokens "(" ++ (textTokens mark).intercalate parts ++ textTokens ")"

/-- What stands between the braces stands one level deeper than they do. -/
def blockTokens (keyword : String) (body : List Token) : List Token :=
  textTokens keyword ++ [.mark '\x7b'] ++ body ++ [.mark '\x7d']

mutual
/-- The tokens of an expression that stands in so many blocks. -/
def Expr.tokensAt : Nat → Expr → List Token
  | depth, .var name => hungTokens depth name
  | depth, .param name => textTokens "$" ++ hungTokens depth name
  | _, .literal value => value.tokens
  | depth, .property base key =>
      (if base.isSimpleBase then base.tokensAt depth
        else textTokens "(" ++ base.tokensAt depth ++ textTokens ")") ++
        (textTokens "." ++ [nameAt depth key])
  | depth, .binary left op right =>
      left.tokensAt depth ++ textTokens " " ++ textTokens op.text ++ textTokens " " ++
        right.tokensAt depth
  | depth, .all items => junctionTokens " AND " (Expr.tokensOf depth items)
  | depth, .any items => junctionTokens " OR " (Expr.tokensOf depth items)
  | depth, .not inner =>
      if inner.isGrouped then textTokens "NOT " ++ inner.tokensAt depth
      else textTokens "NOT (" ++ inner.tokensAt depth ++ textTokens ")"
  | depth, .isNull inner => inner.tokensAt depth ++ textTokens " IS NULL"
  | depth, .isNotNull inner => inner.tokensAt depth ++ textTokens " IS NOT NULL"
  | depth, .apply function args =>
      hungTokens depth function ++ textTokens "(" ++ commaTokens (Expr.tokensOf depth args) ++
        textTokens ")"
  | depth, .distinct inner => textTokens "DISTINCT " ++ inner.tokensAt depth
  | depth, .hasLabels name labels =>
      hungTokens depth name ++ textTokens ":" ++
        (textTokens ":").intercalate (labels.map fun l => [nameAt depth l])
  | depth, .map entries =>
      if entries.isEmpty then textTokens emptyBraces
      else braceTokens (Expr.entryTokens depth entries)
  | depth, .projection name items =>
      hungTokens depth name ++ textTokens " " ++
        if items.isEmpty then textTokens emptyBraces
        else braceTokens (Expr.itemTokens depth items)
  | depth, .list items =>
      textTokens "[" ++ commaTokens (Expr.tokensOf depth items) ++ textTokens "]"
  | depth, .choice condition result otherwise =>
      textTokens "CASE WHEN " ++ condition.tokensAt depth ++ textTokens " THEN " ++
        result.tokensAt depth ++ textTokens " ELSE " ++ otherwise.tokensAt depth ++
        textTokens " END"
  | depth, .comprehension name list body =>
      textTokens "[" ++ (hungTokens depth name ++ textTokens " IN " ++ list.tokensAt depth ++
        textTokens " | " ++ body.tokensAt depth) ++ textTokens "]"
  | depth, .existsIn body => blockTokens "EXISTS" (Clause.tokensOf (depth + 1) body).flatten
  | depth, .countIn body => blockTokens "COUNT" (Clause.tokensOf (depth + 1) body).flatten
  | _, .star => textTokens "*"
def Expr.tokensOf : Nat → List Expr → List (List Token)
  | _, [] => []
  | depth, e :: rest => e.tokensAt depth :: Expr.tokensOf depth rest
def Expr.entryTokens : Nat → List (String × Expr) → List (List Token)
  | _, [] => []
  | depth, (key, e) :: rest =>
      ([nameAt depth key] ++ textTokens ": " ++ e.tokensAt depth) :: Expr.entryTokens depth rest
def Expr.itemTokens : Nat → List (MapItem Expr) → List (List Token)
  | _, [] => []
  | depth, .own key :: rest =>
      (textTokens "." ++ [nameAt depth key]) :: Expr.itemTokens depth rest
  | depth, .entry key e :: rest =>
      ([nameAt depth key] ++ textTokens ": " ++ e.tokensAt depth) :: Expr.itemTokens depth rest
def Expr.lineTokens (keyword : String) : Nat → Option Expr → List Token
  | _, none => []
  | depth, some e => textTokens ("\n" ++ keyword ++ " ") ++ e.tokensAt depth
def Expr.columnTokens : Nat → List (Column Expr) → List (List Token)
  | _, [] => []
  | depth, ⟨e, none⟩ :: rest => e.tokensAt depth :: Expr.columnTokens depth rest
  | depth, ⟨e, some name⟩ :: rest =>
      (if e.isVar name then e.tokensAt depth
        else e.tokensAt depth ++ textTokens " AS " ++ hungTokens depth name) ::
        Expr.columnTokens depth rest
def Expr.orderTokens : Nat → List (OrderKey Expr) → List (List Token)
  | _, [] => []
  | depth, ⟨e, descending⟩ :: rest =>
      (e.tokensAt depth ++ textTokens (if descending then " DESC" else " ASC")) ::
        Expr.orderTokens depth rest
def Expr.assignmentTokens : Nat → List (Expr × Expr) → List (List Token)
  | _, [] => []
  | depth, (target, value) :: rest =>
      (target.tokensAt depth ++ textTokens " = " ++ value.tokensAt depth) ::
        Expr.assignmentTokens depth rest
/-- The tokens of a clause that stands in so many blocks. -/
def Clause.tokensAt : Nat → Clause → List Token
  | depth, .matching pattern isOptional predicate =>
      textTokens (if isOptional then "OPTIONAL MATCH " else "MATCH ") ++ pattern.tokensAt depth ++
        Expr.lineTokens "WHERE" depth predicate
  | depth, .carry columns isDistinct order skip limit predicate =>
      textTokens "WITH " ++ textTokens (distinctText isDistinct) ++
        commaTokens (Expr.columnTokens depth columns) ++
        (if order.isEmpty then []
          else textTokens "\nORDER BY " ++ commaTokens (Expr.orderTokens depth order)) ++
        Expr.lineTokens "SKIP" depth skip ++ Expr.lineTokens "LIMIT" depth limit ++
        Expr.lineTokens "WHERE" depth predicate
  | depth, .unwind e name =>
      textTokens "UNWIND " ++ e.tokensAt depth ++ textTokens " AS " ++ hungTokens depth name
  | depth, .call imports body =>
      blockTokens "CALL"
        ((if imports.isEmpty then []
          else textTokens "WITH " ++ commaTokens (imports.map (hungTokens (depth + 1)))) ++
          (Clause.tokensOf (depth + 1) body).flatten)
  | depth, .union branches => (textTokens "UNION").intercalate (Clause.branchTokens depth branches)
  | depth, .create pattern => textTokens "CREATE " ++ pattern.tokensAt depth
  | depth, .merge pattern => textTokens "MERGE " ++ pattern.tokensAt depth
  | depth, .set assignments =>
      textTokens "SET " ++ commaTokens (Expr.assignmentTokens depth assignments)
  | depth, .delete detach names =>
      textTokens (if detach then "DETACH DELETE " else "DELETE ") ++
        commaTokens (names.map (hungTokens depth))
  | depth, .returning columns isDistinct =>
      textTokens "RETURN " ++ textTokens (distinctText isDistinct) ++
        commaTokens (Expr.columnTokens depth columns)
  | depth, .raw statement => hungTokens depth (Text.trim statement)
def Clause.tokensOf : Nat → List Clause → List (List Token)
  | _, [] => []
  | depth, c :: rest => c.tokensAt depth :: Clause.tokensOf depth rest
def Clause.branchTokens : Nat → List (List Clause) → List (List Token)
  | _, [] => []
  | depth, branch :: rest =>
      (Clause.tokensOf depth branch).flatten :: Clause.branchTokens depth rest
end

example : (Expr.map [("full\nname", .star)]).tokensAt 1 =
    [.mark '\x7b', .name "full\n    name".toList, .mark ':', .mark '*', .mark '\x7d'] := by
  cbv

end GraphSelection.Cypher

namespace GraphSelection.Reread

open Cypher

section Leaves

variable (depth : Nat)

theorem readsAt_value (value : Literal) : ReadsAt depth value.text value.tokens := by
  cases value with
  | null => exact readsAt_bare (by decide : IsPart AreBare "NULL")
  | boolean b =>
    have hbare : IsPart AreBare (Literal.boolean b).text := by cases b <;> decide
    exact readsAt_bare hbare
  | integer n => exact readsAt_bare (isPart_bare (Json.numeral_int n) (endsInDigit_int n))
  | float x => exact readsAt_bare (isPart_bare (Json.numeral_number _ x) (endsInDigit_number _ x))
  | string s => exact readsAt_literal s

/-- A separator with a name behind it. -/
theorem readsAt_bound {m : String} (hm : IsLink AreBare m) (key : String) :
    ReadsAt depth (m ++ Text.name key) (textTokens m ++ [nameAt depth key]) ∧
      Starts (m ++ Text.name key) :=
  ⟨(readsAt_name key).behind ⟨hm.isPart, hm.stops⟩, hm.starts.append hm.nonempty _⟩

theorem readsAt_labels (labels : List String) :
    ReadsAt depth (labelsText labels) (labelTokens depth labels) ∧ Starts (labelsText labels) := by
  unfold labelsText labelTokens
  induction labels with
  | nil => exact ⟨readsAt_empty, (by decide : Starts "")⟩
  | cons l rest ih =>
    obtain ⟨hfirst, -⟩ := readsAt_bound depth (by decide : IsLink AreBare ":") l
    have hstarts : Starts ":" := by decide
    rw [List.map_cons, String.join_cons, List.flatMap_cons]
    refine ⟨hfirst.append ih.1 (.inr ih.2), ?_⟩
    rw [String.append_assoc]
    exact hstarts.append (by decide) _

theorem readsAt_type (graphType : Option String) :
    ReadsAt depth ((graphType.map fun t => ":" ++ Text.name t).getD "")
        (labelTokens depth graphType.toList) ∧
      Starts ((graphType.map fun t => ":" ++ Text.name t).getD "") := by
  cases graphType with
  | none => exact ⟨readsAt_empty, (by decide : Starts "")⟩
  | some t =>
    have hbound := readsAt_bound depth (by decide : IsLink AreBare ":") t
    have htokens : labelTokens depth (some t).toList = textTokens ":" ++ [nameAt depth t] :=
      List.append_nil _
    rw [htokens]
    exact hbound

end Leaves

section Patterns

variable (depth : Nat)

/-- A text in brackets may stand right beside anything. -/
theorem readsAt_bracketed {s opening closing : String} {ts : List Token} (h : ReadsAt depth s ts)
    (ho : IsLink AreBare opening) (hc : IsLink AreBare closing) :
    ReadsAt depth (opening ++ s ++ closing) (textTokens opening ++ ts ++ textTokens closing) ∧
      Stops (opening ++ s ++ closing) :=
  ⟨h.enclosed ⟨ho.isPart, ho.stops⟩ ⟨hc.isPart, hc.starts⟩,
    hc.stops_append (h.behind ⟨ho.isPart, ho.stops⟩).isPart⟩

theorem readsAt_node {n : NodePattern} (h : n.IsTidy) :
    ReadsAt depth n.text (n.tokensAt depth) ∧ Stops n.text := by
  have hlabels := readsAt_labels depth n.labels
  have hinner := h.readsAt.append hlabels.1 (.inr hlabels.2)
  have htext : n.text = "(" ++ (n.name.getD "" ++ labelsText n.labels) ++ ")" := by
    simp only [NodePattern.text, String.append_assoc]
  rw [htext]
  exact readsAt_bracketed depth hinner (by decide) (by decide)

theorem readsAt_edge {e : EdgePattern} (h : e.IsTidy) :
    ReadsAt depth e.text (e.tokensAt depth) ∧ Stops e.text := by
  have htype := readsAt_type depth e.graphType
  have hinner := h.readsAt.append htype.1 (.inr htype.2)
  unfold EdgePattern.text EdgePattern.tokensAt
  cases e.arrow with
  | right => exact readsAt_bracketed depth hinner (by decide) (by decide)
  | left => exact readsAt_bracketed depth hinner (by decide) (by decide)
  | undirected => exact readsAt_bracketed depth hinner (by decide) (by decide)

theorem readsAt_pattern {p : Pattern} (h : p.IsTidy) :
    ReadsAt depth p.text (p.tokensAt depth) := by
  obtain ⟨start, chain⟩ := p
  obtain ⟨hstart, hchain⟩ := h
  have hsteps : ReadsAt depth (String.join (chain.map fun step => step.1.text ++ step.2.text))
      (chain.flatMap fun step => step.1.tokensAt depth ++ step.2.tokensAt depth) := by
    clear hstart
    induction chain with
    | nil => exact readsAt_empty
    | cons step rest ih =>
      rw [List.forall_mem_cons] at hchain
      obtain ⟨hedge, hedgeStops⟩ := readsAt_edge depth hchain.1.1
      obtain ⟨hnode, hnodeStops⟩ := readsAt_node depth hchain.1.2
      rw [List.map_cons, String.join_cons, List.flatMap_cons]
      exact (hedge.append hnode (.inl hedgeStops)).append (ih hchain.2)
        (.inl (hedgeStops.append hnodeStops))
  obtain ⟨hnode, hstops⟩ := readsAt_node depth hstart
  exact hnode.append hsteps (.inl hstops)

end Patterns

section Expressions

variable {depth : Nat} {s : String} {ts : List Token}

theorem readsAt_base {base : Expr} (h : ReadsAt depth base.text ts) :
    ReadsAt depth (if base.isSimpleBase then base.text else "(" ++ base.text ++ ")")
      (if base.isSimpleBase then ts else textTokens "(" ++ ts ++ textTokens ")") := by
  split
  next => exact h
  next => exact h.enclosed (by decide) (by decide)

theorem readsAt_commas {texts : List String} {tss : List (List Token)}
    (h : List.Forall₂ (ReadsAt depth) texts tss) :
    ReadsAt depth (commas texts) (commaTokens tss) := readsAt_intercalate (by decide) h

theorem readsAt_braces {texts : List String} {tss : List (List Token)}
    (h : List.Forall₂ (ReadsAt depth) texts tss) :
    ReadsAt depth (inBraces (commas texts)) (braceTokens tss) :=
  (readsAt_commas h).enclosed (by decide) (by decide)

theorem readsAt_junction {mark : String} (hmark : IsLink AreBare mark) {texts : List String}
    {tss : List (List Token)} (h : List.Forall₂ (ReadsAt depth) texts tss) :
    ReadsAt depth (junctionText mark texts) (junctionTokens mark tss) := by
  match h with
  | .nil => exact readsAt_bare (by decide : IsPart AreBare "true")
  | .cons hfirst .nil => exact hfirst
  | .cons hfirst (.cons hsecond hrest) =>
    exact (readsAt_intercalate hmark (.cons hfirst (.cons hsecond hrest))).enclosed (by decide)
      (by decide)

theorem readsAt_entry (key : String) (h : ReadsAt depth s ts) :
    ReadsAt depth (Text.name key ++ ": " ++ s) ([nameAt depth key] ++ textTokens ": " ++ ts) :=
  (readsAt_name key).link (by decide) h

theorem readsAt_selves {names : List String} (h : ∀ name ∈ names, IsTidy name) :
    List.Forall₂ (ReadsAt depth) names (names.map (hungTokens depth)) := by
  induction names with
  | nil => exact .nil
  | cons name rest ih =>
    rw [List.forall_mem_cons] at h
    exact .cons h.1.readsAt (ih h.2)

theorem readsAt_names (names : List String) :
    List.Forall₂ (ReadsAt depth) (names.map Text.name) (names.map fun l => [nameAt depth l]) := by
  induction names with
  | nil => exact .nil
  | cons name rest ih => exact .cons (readsAt_name name) ih

theorem readsAt_columns {keyword : String} (hkeyword : IsPart AreBare keyword ∧ Stops keyword)
    (isDistinct : Bool) {texts : List String} {tss : List (List Token)}
    (h : List.Forall₂ (ReadsAt depth) texts tss) :
    ReadsAt depth (keyword ++ distinctText isDistinct ++ commas texts)
      (textTokens keyword ++ textTokens (distinctText isDistinct) ++ commaTokens tss) := by
  have hdistinct : IsPart AreBare (distinctText isDistinct) ∧ Stops (distinctText isDistinct) := by
    cases isDistinct <;> decide
  rw [String.append_assoc, List.append_assoc]
  exact ((readsAt_commas h).behind hdistinct).behind hkeyword

theorem readsAt_orderLine {order : List (OrderKey Expr)} {tss : List (List Token)}
    (h : List.Forall₂ (ReadsAt depth) (Expr.orderTexts order) tss) :
    ReadsAt depth
        (if order.isEmpty then "" else "\nORDER BY " ++ commas (Expr.orderTexts order))
        (if order.isEmpty then [] else textTokens "\nORDER BY " ++ commaTokens tss) ∧
      Starts (if order.isEmpty then "" else "\nORDER BY " ++ commas (Expr.orderTexts order)) := by
  have hkeyword : Starts "\nORDER BY " := by decide
  split
  next => exact ⟨readsAt_empty, by decide⟩
  next => exact ⟨(readsAt_commas h).behind (by decide), hkeyword.append (by decide) _⟩

theorem lineAt_union {texts : List String} {tss : List (List Token)}
    (h : List.Forall₂ (LineAt depth) texts tss) :
    LineAt depth (String.intercalate "\nUNION\n" texts)
      ((textTokens "UNION").intercalate tss) := by
  have hunion : LineAt depth "UNION" (textTokens "UNION") :=
    (readsAt_bare (by decide : IsPart AreBare "UNION")).line
  have hmark : ("\nUNION\n" : String) = "\n" ++ "UNION" ++ "\n" := by decide
  induction h with
  | nil => exact readsAt_empty.line
  | cons hfirst hrest ih =>
    cases hrest with
    | nil => simpa using hfirst
    | cons _ _ =>
      rw [String.intercalate_cons_cons, List.intercalate_cons_cons]
      have hjoined := (hfirst.join hunion).join ih
      rw [hmark] at hjoined ⊢
      simpa only [String.append_assoc] using hjoined

mutual
theorem readsAt_text : ∀ (e : Expr) (depth : Nat), e.IsTidy →
    ReadsAt depth e.text (e.tokensAt depth)
  | .var _, _, h => by
    rw [Expr.IsTidy] at h
    exact h.readsAt
  | .param _, _, h => by
    rw [Expr.IsTidy] at h
    exact h.readsAt.behind (m := "$") (by decide)
  | .literal value, depth, _ => readsAt_value depth value
  | .property base key, depth, h => by
    rw [Expr.IsTidy] at h
    obtain ⟨hkey, hstarts⟩ := readsAt_bound depth (by decide : IsLink AreBare ".") key
    simp only [Expr.text, Expr.tokensAt]
    rw [String.append_assoc]
    exact (readsAt_base (readsAt_text base depth h)).append hkey (.inr hstarts)
  | .binary left op right, depth, h => by
    rw [Expr.IsTidy] at h
    have hop : IsPart AreBare op.text := by cases op <;> decide
    rw [Expr.text, Expr.tokensAt]
    exact ((readsAt_text left depth h.1).link (by decide : IsLink AreBare " ")
      (readsAt_bare hop)).link (by decide) (readsAt_text right depth h.2)
  | .all items, depth, h => by
    rw [Expr.IsTidy] at h
    exact readsAt_junction (by decide) (readsAt_texts items depth h)
  | .any items, depth, h => by
    rw [Expr.IsTidy] at h
    exact readsAt_junction (by decide) (readsAt_texts items depth h)
  | .not inner, depth, h => by
    rw [Expr.IsTidy] at h
    have hinner := readsAt_text inner depth h
    rw [Expr.text, Expr.tokensAt]
    split
    next => exact hinner.behind (by decide)
    next => exact hinner.enclosed (by decide) (by decide)
  | .isNull inner, depth, h => by
    rw [Expr.IsTidy] at h
    exact (readsAt_text inner depth h).before (m := " IS NULL") (by decide)
  | .isNotNull inner, depth, h => by
    rw [Expr.IsTidy] at h
    exact (readsAt_text inner depth h).before (m := " IS NOT NULL") (by decide)
  | .apply _ args, depth, h => by
    rw [Expr.IsTidy] at h
    exact (h.1.readsAt.link (by decide : IsLink AreBare "(")
      (readsAt_commas (readsAt_texts args depth h.2))).before (m := ")") (by decide)
  | .distinct inner, depth, h => by
    rw [Expr.IsTidy] at h
    exact (readsAt_text inner depth h).behind (m := "DISTINCT ") (by decide)
  | .hasLabels name labels, depth, h => by
    rw [Expr.IsTidy] at h
    exact h.readsAt.link (by decide : IsLink AreBare ":")
      (readsAt_intercalate (by decide) (readsAt_names labels))
  | .map entries, depth, h => by
    rw [Expr.IsTidy] at h
    rw [Expr.text, Expr.tokensAt]
    split
    next => exact readsAt_bare (by decide : IsPart AreBare emptyBraces)
    next => exact readsAt_braces (readsAt_entries entries depth h)
  | .projection name items, depth, h => by
    rw [Expr.IsTidy] at h
    rw [Expr.text, Expr.tokensAt]
    refine h.1.readsAt.link (by decide : IsLink AreBare " ") ?_
    split
    next => exact readsAt_bare (by decide : IsPart AreBare emptyBraces)
    next => exact readsAt_braces (readsAt_items items depth h.2)
  | .list items, depth, h => by
    rw [Expr.IsTidy] at h
    exact (readsAt_commas (readsAt_texts items depth h)).enclosed (by decide) (by decide)
  | .choice condition result otherwise, depth, h => by
    rw [Expr.IsTidy] at h
    rw [Expr.text, Expr.tokensAt]
    have hfirst := (readsAt_text condition depth h.1).behind (m := "CASE WHEN ") (by decide)
    have hsecond := hfirst.link (by decide : IsLink AreBare " THEN ")
      (readsAt_text result depth h.2.1)
    have hthird := hsecond.link (by decide : IsLink AreBare " ELSE ")
      (readsAt_text otherwise depth h.2.2)
    exact hthird.before (m := " END") (by decide)
  | .comprehension name list body, depth, h => by
    rw [Expr.IsTidy] at h
    have hsource := h.1.readsAt.link (by decide : IsLink AreBare " IN ")
      (readsAt_text list depth h.2.1)
    have hinner := hsource.link (by decide : IsLink AreBare " | ") (readsAt_text body depth h.2.2)
    have htext : (Expr.comprehension name list body).text =
        "[" ++ (name ++ " IN " ++ list.text ++ " | " ++ body.text) ++ "]" := by
      simp only [Expr.text, String.append_assoc]
    rw [htext, Expr.tokensAt]
    exact hinner.enclosed (by decide) (by decide)
  | .existsIn body, depth, h => by
    rw [Expr.IsTidy] at h
    exact (lineAt_intercalate (lineAt_texts body (depth + 1) h)).block (by decide)
  | .countIn body, depth, h => by
    rw [Expr.IsTidy] at h
    exact (lineAt_intercalate (lineAt_texts body (depth + 1) h)).block (by decide)
  | .star, _, _ => readsAt_bare (by decide : IsPart AreBare "*")
theorem readsAt_texts : ∀ (es : List Expr) (depth : Nat), Expr.AreTidy es →
    List.Forall₂ (ReadsAt depth) (Expr.texts es) (Expr.tokensOf depth es)
  | [], _, _ => .nil
  | e :: rest, depth, h => by
    rw [Expr.AreTidy] at h
    exact .cons (readsAt_text e depth h.1) (readsAt_texts rest depth h.2)
theorem readsAt_entries : ∀ (entries : List (String × Expr)) (depth : Nat),
    Expr.EntriesTidy entries →
    List.Forall₂ (ReadsAt depth) (Expr.entryTexts entries) (Expr.entryTokens depth entries)
  | [], _, _ => .nil
  | (key, e) :: rest, depth, h => by
    rw [Expr.EntriesTidy] at h
    exact .cons (readsAt_entry key (readsAt_text e depth h.1)) (readsAt_entries rest depth h.2)
theorem readsAt_items : ∀ (items : List (MapItem Expr)) (depth : Nat), Expr.ItemsTidy items →
    List.Forall₂ (ReadsAt depth) (Expr.itemTexts items) (Expr.itemTokens depth items)
  | [], _, _ => .nil
  | .own key :: rest, depth, h => by
    rw [Expr.ItemsTidy] at h
    exact .cons (readsAt_bound depth (by decide) key).1 (readsAt_items rest depth h)
  | .entry key e :: rest, depth, h => by
    rw [Expr.ItemsTidy] at h
    exact .cons (readsAt_entry key (readsAt_text e depth h.1)) (readsAt_items rest depth h.2)
theorem readsAt_line (keyword : String) (hkeyword : IsLink AreBare ("\n" ++ keyword ++ " ")) :
    ∀ (predicate : Option Expr) (depth : Nat), Expr.OptionTidy predicate →
    ReadsAt depth (Expr.lineText keyword predicate) (Expr.lineTokens keyword depth predicate) ∧
      Starts (Expr.lineText keyword predicate)
  | none, _, _ => ⟨readsAt_empty, (by decide : Starts "")⟩
  | some e, depth, h => by
    rw [Expr.OptionTidy] at h
    rw [Expr.lineText, Expr.lineTokens]
    exact ⟨(readsAt_text e depth h).behind ⟨hkeyword.isPart, hkeyword.stops⟩,
      hkeyword.starts.append hkeyword.nonempty _⟩
theorem readsAt_columnTexts : ∀ (columns : List (Column Expr)) (depth : Nat),
    Expr.ColumnsTidy columns →
    List.Forall₂ (ReadsAt depth) (Expr.columnTexts columns) (Expr.columnTokens depth columns)
  | [], _, _ => .nil
  | ⟨e, none⟩ :: rest, depth, h => by
    rw [Expr.ColumnsTidy] at h
    exact .cons (readsAt_text e depth h.1.1) (readsAt_columnTexts rest depth h.2)
  | ⟨e, some name⟩ :: rest, depth, h => by
    rw [Expr.ColumnsTidy] at h
    have hcolumn := readsAt_text e depth h.1.1
    refine .cons ?_ (readsAt_columnTexts rest depth h.2)
    split
    next => exact hcolumn
    next => exact hcolumn.link (by decide : IsLink AreBare " AS ") h.1.2.readsAt
theorem readsAt_order : ∀ (order : List (OrderKey Expr)) (depth : Nat), Expr.OrderTidy order →
    List.Forall₂ (ReadsAt depth) (Expr.orderTexts order) (Expr.orderTokens depth order)
  | [], _, _ => .nil
  | ⟨e, descending⟩ :: rest, depth, h => by
    rw [Expr.OrderTidy] at h
    have hway : IsPart AreBare (if descending then " DESC" else " ASC") ∧
        Starts (if descending then " DESC" else " ASC") := by
      cases descending <;> decide
    exact .cons ((readsAt_text e depth h.1).before hway) (readsAt_order rest depth h.2)
theorem readsAt_assignments : ∀ (assignments : List (Expr × Expr)) (depth : Nat),
    Expr.AssignmentsTidy assignments →
    List.Forall₂ (ReadsAt depth) (Expr.assignmentTexts assignments)
      (Expr.assignmentTokens depth assignments)
  | [], _, _ => .nil
  | (target, value) :: rest, depth, h => by
    rw [Expr.AssignmentsTidy] at h
    exact .cons ((readsAt_text target depth h.1.1).link (by decide : IsLink AreBare " = ")
      (readsAt_text value depth h.1.2)) (readsAt_assignments rest depth h.2)
theorem lineAt_text : ∀ (c : Clause) (depth : Nat), c.IsTidy →
    LineAt depth c.text (c.tokensAt depth)
  | .matching pattern isOptional predicate, depth, h => by
    rw [Clause.IsTidy] at h
    have hline := readsAt_line "WHERE" (by decide) predicate depth h.2
    have hkeyword : IsPart AreBare (if isOptional then "OPTIONAL MATCH " else "MATCH ") ∧
        Stops (if isOptional then "OPTIONAL MATCH " else "MATCH ") := by
      cases isOptional <;> decide
    exact (((readsAt_pattern depth h.1).behind hkeyword).append hline.1 (.inr hline.2)).line
  | .carry columns isDistinct order skip limit predicate, depth, h => by
    rw [Clause.IsTidy] at h
    obtain ⟨hcolumns, horder, hskip, hlimit, hpredicate⟩ := h
    have hfront := readsAt_columns (by decide : IsPart AreBare "WITH " ∧ Stops "WITH ") isDistinct
      (readsAt_columnTexts columns depth hcolumns)
    have hkeys := readsAt_orderLine (readsAt_order order depth horder)
    have hskipLine := readsAt_line "SKIP" (by decide) skip depth hskip
    have hlimitLine := readsAt_line "LIMIT" (by decide) limit depth hlimit
    have hline := readsAt_line "WHERE" (by decide) predicate depth hpredicate
    have hordered := hfront.append hkeys.1 (.inr hkeys.2)
    have hskipped := hordered.append hskipLine.1 (.inr hskipLine.2)
    have hlimited := hskipped.append hlimitLine.1 (.inr hlimitLine.2)
    exact (hlimited.append hline.1 (.inr hline.2)).line
  | .unwind e name, depth, h => by
    rw [Clause.IsTidy] at h
    have hfront := (readsAt_text e depth h.1).behind (m := "UNWIND ") (by decide)
    exact (hfront.link (by decide : IsLink AreBare " AS ") h.2.readsAt).line
  | .call imports body, depth, h => by
    rw [Clause.IsTidy] at h
    have hbody := lineAt_intercalate (lineAt_texts body (depth + 1) h.2)
    have hblock : LineAt (depth + 1)
        ((if imports.isEmpty then "" else "WITH " ++ commas imports ++ "\n") ++
          String.intercalate "\n" (Clause.texts body))
        ((if imports.isEmpty then []
          else textTokens "WITH " ++ commaTokens (imports.map (hungTokens (depth + 1)))) ++
          (Clause.tokensOf (depth + 1) body).flatten) := by
      split
      next => rwa [String.empty_append, List.nil_append]
      next =>
        have himports : ReadsAt (depth + 1) ("WITH " ++ commas imports) _ :=
          (readsAt_commas (readsAt_selves h.1)).behind (by decide)
        exact himports.line.join hbody
    exact (hblock.block (by decide : IsPart AreBare "CALL")).line
  | .union branches, depth, h => by
    rw [Clause.IsTidy] at h
    exact lineAt_union (lineAt_branches branches depth h)
  | .create pattern, depth, h => by
    rw [Clause.IsTidy] at h
    exact ((readsAt_pattern depth h).behind (m := "CREATE ") (by decide)).line
  | .merge pattern, depth, h => by
    rw [Clause.IsTidy] at h
    exact ((readsAt_pattern depth h).behind (m := "MERGE ") (by decide)).line
  | .set assignments, depth, h => by
    rw [Clause.IsTidy] at h
    exact ((readsAt_commas (readsAt_assignments assignments depth h)).behind (m := "SET ")
      (by decide)).line
  | .delete detach names, depth, h => by
    rw [Clause.IsTidy] at h
    have hkeyword : IsPart AreBare (if detach then "DETACH DELETE " else "DELETE ") ∧
        Stops (if detach then "DETACH DELETE " else "DELETE ") := by
      cases detach <;> decide
    exact ((readsAt_commas (readsAt_selves h)).behind hkeyword).line
  | .returning columns isDistinct, depth, h => by
    rw [Clause.IsTidy] at h
    exact (readsAt_columns (by decide : IsPart AreBare "RETURN " ∧ Stops "RETURN ") isDistinct
      (readsAt_columnTexts columns depth h)).line
  | .raw statement, _, h => by
    rw [Clause.IsTidy] at h
    exact ⟨h, rfl⟩
theorem lineAt_texts : ∀ (cs : List Clause) (depth : Nat), Clause.AreTidy cs →
    List.Forall₂ (LineAt depth) (Clause.texts cs) (Clause.tokensOf depth cs)
  | [], _, _ => .nil
  | c :: rest, depth, h => by
    rw [Clause.AreTidy] at h
    exact .cons (lineAt_text c depth h.1) (lineAt_texts rest depth h.2)
theorem lineAt_branches : ∀ (branches : List (List Clause)) (depth : Nat),
    Clause.BranchesTidy branches →
    List.Forall₂ (LineAt depth) (Clause.branchTexts branches) (Clause.branchTokens depth branches)
  | [], _, _ => .nil
  | branch :: rest, depth, h => by
    rw [Clause.BranchesTidy] at h
    exact .cons (lineAt_intercalate (lineAt_texts branch depth h.1))
      (lineAt_branches rest depth h.2)
end

end Expressions

/-- Every string literal of a program stands in its text as a token of its own value, and every
name as the token of its characters hung once for each block around it. This is the token of the
name exactly if no block is around it or no line feed is in it. -/
theorem names_hung {clauses : List Clause} (h : Clause.AreTidy clauses) :
    tokens (clausesText clauses).toList = (Clause.tokensOf 0 clauses).flatten ∧
      ∀ depth key, nameAt depth key = nameToken key.toList ↔ depth = 0 ∨ '\n' ∉ key.toList :=
  ⟨(lineAt_intercalate (lineAt_texts clauses 0 h)).tokens, nameAt_eq_iff⟩

/-- The full names of those who act in a film, with one message for all of them. -/
def fullNames : List Clause :=
  [.find (.node (.named "film" ["Film"])) none,
    .call ["film"]
      [.find (.step (.bound "film") ⟨none, some "ACTED_IN", .left⟩ (.bound "person")) none,
        .give (.map [("full\nname", .propertyOf "person" "name"), ("note", .string "seen\ntwice")])
          "cast"],
    .give (.var "cast") "this"]

theorem fullNames_hung :
    Clause.AreTidy fullNames ∧
      tokens (clausesText fullNames).toList = (Clause.tokensOf 0 fullNames).flatten ∧
      nameAt 1 "full\nname" = .name "full\n    name".toList ∧
      .literal "seen\ntwice".toList ∈ (Clause.tokensOf 0 fullNames).flatten := by
  have htidy : Clause.AreTidy fullNames := by
    simp only [fullNames, Clause.AreTidy, Clause.IsTidy, Clause.find, Clause.give, Clause.giveAll,
      Column.named, Expr.OptionTidy, Expr.ColumnsTidy, Expr.EntriesTidy, Expr.IsTidy,
      Expr.propertyOf, Expr.string]
    decide
  exact ⟨htidy, (names_hung htidy).1, by decide, by decide +kernel⟩

end GraphSelection.Reread

namespace GraphSelection.Stage

/-- The titles of all works that are films, under a key of two lines. -/
def fullTitles : Request :=
  { operation := .read
    entity := "Work"
    args := [("where", .record [("typename", .list [.text "Film"])])]
    selection := [(Selection.leaf "title").withAlias "full\ntitle"] }

end GraphSelection.Stage

namespace GraphSelection.Reread

/-- The key stands in a call, and the name that is read there has another second line. -/
theorem fullTitles_renamed :
    ∃ text, (compile Stage.setup Stage.fullTitles).toOption.map Compiled.text = some text ∧
      nameToken "full\ntitle".toList ∉ tokens text.toList ∧
      nameToken "full\n    title".toList ∈ tokens text.toList := by
  refine ⟨"CALL \x7b\n" ++
    "    MATCH (this0:Film)\n" ++
    "    RETURN this0 \x7b \x60full\n" ++
    "    title\x60: this0.title, __typename: \"Film\" \x7d AS var1\n" ++
    "\x7d\n" ++
    "RETURN var1 AS this", ?_, ?_, ?_⟩
  · decide +kernel
  · decide +kernel
  · decide +kernel

end GraphSelection.Reread
