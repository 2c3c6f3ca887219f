import GraphSelection.Proofs.Reread.Parts

/-!
The texts of expressions and clauses close their quotes, comments and brackets and have no junction
outside of their brackets, as long as the names in them are words and no keywords and the statements
that a schema supplies close their own.
-/
namespace GraphSelection.Cypher

open Reread

def NodePattern.IsLegible (n : NodePattern) : Prop := ∀ name ∈ n.name, IsPlain name

def EdgePattern.IsLegible (e : EdgePattern) : Prop := ∀ name ∈ e.name, IsPlain name

def Pattern.IsLegible (p : Pattern) : Prop :=
  p.start.IsLegible ∧ ∀ step ∈ p.chain, step.1.IsLegible ∧ step.2.IsLegible

mutual
/-- Names that stand as they are written are words and no keywords, label tests have a label, and
supplied statements close what they open. -/
def Expr.IsLegible : Expr → Prop
  | .var name => IsPlain name
  | .param name => Text.isWord name.toList = true
  | .literal _ => True
  | .property base _ => base.IsLegible
  | .binary left _ right => left.IsLegible ∧ right.IsLegible
  | .all items => Expr.AreLegible items
  | .any items => Expr.AreLegible items
  | .not inner => inner.IsLegible
  | .isNull inner => inner.IsLegible
  | .isNotNull inner => inner.IsLegible
  | .apply function args =>
      (∀ part ∈ Text.split function '.', IsPlain part) ∧ Expr.AreLegible args
  | .distinct inner => inner.IsLegible
  | .hasLabels name labels => IsPlain name ∧ labels ≠ []
  | .map entries => Expr.EntriesLegible entries
  | .projection name items => IsPlain name ∧ Expr.ItemsLegible items
  | .list items => Expr.AreLegible items
  | .choice condition result otherwise =>
      condition.IsLegible ∧ result.IsLegible ∧ otherwise.IsLegible
  | .comprehension name list body => IsPlain name ∧ list.IsLegible ∧ body.IsLegible
  | .existsIn body => Clause.AreLegible body
  | .countIn body => Clause.AreLegible body
  | .star => True
def Expr.AreLegible : List Expr → Prop
  | [] => True
  | e :: rest => e.IsLegible ∧ Expr.AreLegible rest
def Expr.EntriesLegible : List (String × Expr) → Prop
  | [] => True
  | (_, e) :: rest => e.IsLegible ∧ Expr.EntriesLegible rest
def Expr.ItemsLegible : List (MapItem Expr) → Prop
  | [] => True
  | .own _ :: rest => Expr.ItemsLegible rest
  | .entry _ e :: rest => e.IsLegible ∧ Expr.ItemsLegible rest
def Expr.OptionLegible : Option Expr → Prop
  | none => True
  | some e => e.IsLegible
def Expr.ColumnsLegible : List (Column Expr) → Prop
  | [] => True
  | ⟨e, rename⟩ :: rest =>
      (e.IsLegible ∧ ∀ name ∈ rename, IsPlain name) ∧ Expr.ColumnsLegible rest
def Expr.OrderLegible : List (OrderKey Expr) → Prop
  | [] => True
  | ⟨e, _⟩ :: rest => e.IsLegible ∧ Expr.OrderLegible rest
def Expr.AssignmentsLegible : List (Expr × Expr) → Prop
  | [] => True
  | (target, value) :: rest =>
      (target.IsLegible ∧ value.IsLegible) ∧ Expr.AssignmentsLegible rest
def Clause.IsLegible : Clause → Prop
  | .matching pattern _ predicate => pattern.IsLegible ∧ Expr.OptionLegible predicate
  | .carry columns _ order skip limit predicate =>
      Expr.ColumnsLegible columns ∧ Expr.OrderLegible order ∧ Expr.OptionLegible skip ∧
        Expr.OptionLegible limit ∧ Expr.OptionLegible predicate
  | .unwind e name => e.IsLegible ∧ IsPlain name
  | .call imports body => (∀ name ∈ imports, IsPlain name) ∧ Clause.AreLegible body
  | .union branches => Clause.BranchesLegible branches
  | .create pattern => pattern.IsLegible
  | .merge pattern => pattern.IsLegible
  | .set assignments => Expr.AssignmentsLegible assignments
  | .delete _ names => ∀ name ∈ names, IsPlain name
  | .returning columns _ => Expr.ColumnsLegible columns
  | .raw statement => EndsLine (Text.trim statement)
def Clause.AreLegible : List Clause → Prop
  | [] => True
  | c :: rest => c.IsLegible ∧ Clause.AreLegible rest
def Clause.BranchesLegible : List (List Clause) → Prop
  | [] => True
  | branch :: rest => Clause.AreLegible branch ∧ Clause.BranchesLegible rest
end

end GraphSelection.Cypher

namespace GraphSelection.Reread

open Cypher

section Leaves

theorem isPart_param {name : String} (h : Text.isWord name.toList = true) :
    IsPart Neutral ("$" ++ name) := by
  have hbinder : IsBinder "$" '$' := by decide
  have hpart := hbinder.isPart name
  rwa [name_of_isWord h] at hpart

theorem isPart_literal (value : Literal) : IsPart Neutral value.text := by
  cases value with
  | null => exact (by decide : IsPart Neutral "NULL")
  | boolean b => cases b <;> exact (by decide)
  | integer n => exact isPart_numeral (Json.numeral_int n) (endsInDigit_int n)
  | float x => exact isPart_numeral (Json.numeral_number _ x) (endsInDigit_number _ x)
  | string s =>
    have hreads : Reads (Literal.string s).text.toList [.literal s.toList] := by
      rw [Literal.text, Text.literal, String.toList_ofList]
      exact reads_literal _
    exact hreads.isPart (neutral_single fun _ => rfl)

theorem isPart_op (op : BinaryOp) : IsPart Neutral op.text := by
  cases op <;> decide

/-- Each name stands behind its mark. -/
theorem isPart_bound {m : String} {c : Char} (hbinder : IsBinder m c) (names : List String) :
    IsPart Neutral (String.join (names.map fun name => m ++ Text.name name)) ∧
      Starts (String.join (names.map fun name => m ++ Text.name name)) := by
  induction names with
  | nil => exact ⟨isPart_empty neutral_nil, (by decide : Starts "")⟩
  | cons name rest ih =>
    rw [List.map_cons, String.join_cons]
    refine ⟨(hbinder.isPart name).append ih.1 (.inr ih.2) Neutral.append, ?_⟩
    rw [String.append_assoc]
    exact hbinder.starts _

theorem isPart_labels (labels : List String) :
    IsPart Neutral (labelsText labels) ∧ Starts (labelsText labels) :=
  isPart_bound (by decide : IsBinder ":" ':') labels

theorem splitChars_eq_cons (mark : Char) (cs : List Char) :
    ∃ first rest, Text.splitChars mark cs = first :: rest ∧
      cs = first ++ rest.flatMap (mark :: ·) := by
  induction cs with
  | nil => exact ⟨[], [], rfl, rfl⟩
  | cons c more ih =>
    obtain ⟨first, rest, hsplit, hchars⟩ := ih
    rw [Text.splitChars, hsplit]
    split
    next hmark =>
      refine ⟨[], first :: rest, rfl, ?_⟩
      rw [List.flatMap_cons, List.nil_append, hmark, List.cons_append, ← hchars]
    next => exact ⟨c :: first, rest, rfl, congrArg (c :: ·) hchars⟩

/-- The pieces of a text, each but the first behind its mark. -/
theorem split_eq_cons {m : String} {mark : Char} (hm : m.toList = [mark]) (s : String) :
    ∃ first rest, Text.split s mark = first :: rest ∧
      s = first ++ String.join (rest.map (m ++ ·)) := by
  obtain ⟨first, rest, hsplit, hchars⟩ := splitChars_eq_cons mark s.toList
  refine ⟨String.ofList first, rest.map String.ofList, by rw [Text.split, hsplit]; rfl, ?_⟩
  have hpieces : (mark :: ·) = fun piece => (m ++ String.ofList piece).toList := by
    funext piece
    rw [String.toList_append, hm, String.toList_ofList]
    rfl
  refine String.toList_injective ?_
  rw [String.toList_append, String.toList_ofList, String.toList_join, List.map_map,
    List.flatMap_map, hchars, hpieces]
  rfl

/-- A function is called by a word, or by several with points between them. -/
theorem isPart_function {function : String} (h : ∀ part ∈ Text.split function '.', IsPlain part) :
    IsPart Neutral function ∧ ∃ name rest, IsPlain name ∧
      tokens function.toList = .word name.toList :: rest := by
  have hbinder : IsBinder "." '.' := by decide
  obtain ⟨first, rest, hsplit, htext⟩ := split_eq_cons hbinder.1 function
  rw [hsplit, List.forall_mem_cons] at h
  have hnames : rest.map ("." ++ ·) = rest.map fun name => "." ++ Text.name name :=
    List.map_congr_left fun name hname => by rw [name_of_isWord (h.2 name hname).1]
  obtain ⟨hrest, hstarts⟩ := isPart_bound hbinder rest
  rw [← hnames] at hrest hstarts
  rw [htext]
  have htokens := h.1.isPart.tokens_append (.inr hstarts)
  rw [(reads_isWord h.1.1).tokens] at htokens
  exact ⟨h.1.isPart.append hrest (.inr hstarts) Neutral.append, first, _, h.1, htokens⟩

end Leaves

section Patterns

theorem isPart_optional {name : Option String} (h : ∀ n ∈ name, IsPlain n) :
    IsPart Neutral (name.getD "") := by
  cases name with
  | none => exact isPart_empty neutral_nil
  | some n => exact (h n rfl).isPart

/-- A text in brackets may stand right beside anything. -/
theorem isPart_bracketed {s opening closing : String} (h : IsPart Neutral s)
    (ho : IsOpening opening ∧ IsLink (fun _ => True) opening) (hc : IsLink Closes closing) :
    IsPart Neutral (opening ++ s ++ closing) ∧ Starts (opening ++ s ++ closing) ∧
      Stops (opening ++ s ++ closing) := by
  have hfront : IsPart (fun _ => True) (opening ++ s) :=
    ho.2.isPart.append h (.inl ho.2.stops) fun _ _ => trivial
  refine ⟨(h.mono Neutral.closed).enclosed ho.1 ⟨hc.isPart, hc.starts⟩, ?_, hc.stops_append hfront⟩
  rw [String.append_assoc]
  exact ho.2.starts.append ho.2.nonempty _

theorem isPart_node {n : NodePattern} (h : n.IsLegible) :
    IsPart Neutral n.text ∧ Starts n.text ∧ Stops n.text := by
  have hlabels := isPart_labels n.labels
  have hinner : IsPart Neutral (n.name.getD "" ++ labelsText n.labels) :=
    (isPart_optional h).append hlabels.1 (.inr hlabels.2) Neutral.append
  have htext : n.text = "(" ++ (n.name.getD "" ++ labelsText n.labels) ++ ")" := by
    simp only [NodePattern.text, String.append_assoc]
  rw [htext]
  exact isPart_bracketed hinner (by decide) (by decide)

theorem isPart_edge {e : EdgePattern} (h : e.IsLegible) :
    IsPart Neutral e.text ∧ Starts e.text ∧ Stops e.text := by
  have htype : IsPart Neutral ((e.graphType.map fun t => ":" ++ Text.name t).getD "") ∧
      Starts ((e.graphType.map fun t => ":" ++ Text.name t).getD "") := by
    have hbinder : IsBinder ":" ':' := by decide
    cases e.graphType with
    | none => exact ⟨isPart_empty neutral_nil, (by decide : Starts "")⟩
    | some t => exact ⟨hbinder.isPart t, hbinder.starts _⟩
  have hinner := (isPart_optional h).append htype.1 (.inr htype.2) Neutral.append
  unfold EdgePattern.text
  cases e.arrow with
  | right => exact isPart_bracketed hinner (by decide) (by decide)
  | left => exact isPart_bracketed hinner (by decide) (by decide)
  | undirected => exact isPart_bracketed hinner (by decide) (by decide)

theorem isPart_pattern {p : Pattern} (h : p.IsLegible) : IsPart Neutral p.text := by
  obtain ⟨start, chain⟩ := p
  obtain ⟨hstart, hchain⟩ := h
  have hsteps : IsPart Neutral
      (String.join (chain.map fun step => step.1.text ++ step.2.text)) := by
    clear hstart
    induction chain with
    | nil => exact isPart_empty neutral_nil
    | cons step rest ih =>
      rw [List.forall_mem_cons] at hchain
      obtain ⟨hedge, -, hedgeStops⟩ := isPart_edge hchain.1.1
      obtain ⟨hnode, -, hnodeStops⟩ := isPart_node hchain.1.2
      rw [List.map_cons, String.join_cons]
      exact (hedge.append hnode (.inl hedgeStops) Neutral.append).append (ih hchain.2)
        (.inl (hedgeStops.append hnodeStops)) Neutral.append
  obtain ⟨hnode, -, hstops⟩ := isPart_node hstart
  exact hnode.append hsteps (.inl hstops) Neutral.append

end Patterns

section Expressions

variable {s t : String}

theorem behind {m : String} (hm : IsPart Neutral m ∧ Stops m) (h : IsPart Neutral s) :
    IsPart Neutral (m ++ s) := hm.1.append h (.inl hm.2) Neutral.append

theorem isPart_base {base : Expr} (h : IsPart Neutral base.text) :
    IsPart Neutral (if base.isSimpleBase then base.text else "(" ++ base.text ++ ")") := by
  split
  next => exact h
  next => exact (h.mono Neutral.closed).enclosed (by decide) (by decide)

theorem isPart_call {function : String} {args : List String}
    (h : ∀ part ∈ Text.split function '.', IsPlain part) (hargs : ∀ s ∈ args, IsPart Closed s) :
    IsPart Neutral (function ++ "(" ++ commas args ++ ")") :=
  (isPart_commas hargs).enclosed ((isPart_function h).1.opening (by decide)) (by decide)

theorem isPart_braces {entries : List String} (h : ∀ s ∈ entries, IsPart Closed s) :
    IsPart Neutral (inBraces (commas entries)) :=
  (isPart_commas h).enclosed (by decide) (by decide)

theorem isPart_junction {mark : String} (hmark : IsLink Closed mark) {texts : List String}
    (h : ∀ s ∈ texts, IsPart Neutral s) : IsPart Neutral (junctionText mark texts) := by
  unfold junctionText
  split
  next => decide
  next single => exact h single (List.mem_singleton.mpr rfl)
  next =>
    refine IsPart.enclosed ?_ (by decide) (by decide)
    exact isPart_intercalate closed_nil Closed.append hmark fun s hs => (h s hs).mono Neutral.closed

theorem isLink_and : IsLink Closed " AND " := by
  have htokens : tokens " AND ".toList = [Junction.and.token] := by decide
  refine ⟨?_, by decide, by decide, by decide⟩
  rw [htokens]
  exact closed_single trivial

theorem isLink_or : IsLink Closed " OR " := by
  have htokens : tokens " OR ".toList = [Junction.or.token] := by decide
  refine ⟨?_, by decide, by decide, by decide⟩
  rw [htokens]
  exact closed_single trivial

theorem isLink_colon : IsLink Closed ": " := by
  have htokens : tokens ": ".toList = [.mark ':'] := by decide
  refine ⟨?_, by decide, by decide, by decide⟩
  rw [htokens]
  exact closed_single ⟨rfl, rfl⟩

theorem isPart_entry (key : String) (h : IsPart Closed s) :
    IsPart Closed (Text.name key ++ ": " ++ s) :=
  (isPart_name key).link Closed.append isLink_colon h

theorem isPart_list (m : String) (hm : IsPart Neutral m ∧ Stops m) {texts : List String}
    (h : ∀ s ∈ texts, IsPart Closed s) : IsPart Closed (m ++ commas texts) :=
  (hm.1.mono Neutral.closed).append (isPart_commas h) (.inl hm.2) Closed.append

theorem isPart_line (keyword : String) (hkeyword : IsLink Neutral ("\n" ++ keyword ++ " "))
    (predicate : Option Expr) (h : ∀ e ∈ predicate, IsPart Neutral e.text) :
    IsPart Closed (Expr.lineText keyword predicate) ∧ Starts (Expr.lineText keyword predicate) := by
  cases predicate with
  | none => exact ⟨isPart_empty closed_nil, (by decide : Starts "")⟩
  | some e =>
    rw [Expr.lineText]
    refine ⟨(hkeyword.isPart.append (h e rfl) (.inl hkeyword.stops) Neutral.append).mono
      Neutral.closed, ?_⟩
    exact hkeyword.starts.append hkeyword.nonempty _

theorem isPart_orderLine {order : List (OrderKey Expr)}
    (h : ∀ s ∈ Expr.orderTexts order, IsPart Closed s) :
    IsPart Closed (if order.isEmpty then "" else "\nORDER BY " ++ commas (Expr.orderTexts order)) ∧
      Starts (if order.isEmpty then "" else "\nORDER BY " ++ commas (Expr.orderTexts order)) := by
  have hkeyword : Starts "\nORDER BY " := by decide
  split
  next => exact ⟨isPart_empty closed_nil, by decide⟩
  next => exact ⟨isPart_list "\nORDER BY " (by decide) h, hkeyword.append (by decide) _⟩

theorem join_bound (m first : String) (rest : List String) :
    String.join ((first :: rest).map (m ++ ·)) = m ++ String.intercalate m (first :: rest) := by
  induction rest generalizing first with
  | nil => simp [String.join_cons]
  | cons second more ih =>
    rw [List.map_cons, String.join_cons, ih, String.intercalate_cons_cons]
    simp only [String.append_assoc]

theorem isPart_hasLabels {name : String} {labels : List String} (h : IsPlain name)
    (hne : labels ≠ []) :
    IsPart Neutral (name ++ ":" ++ String.intercalate ":" (labels.map Text.name)) := by
  obtain ⟨first, rest, rfl⟩ := List.exists_cons_of_ne_nil hne
  obtain ⟨hlabels, hstarts⟩ := isPart_labels (first :: rest)
  have htext : labelsText (first :: rest) =
      ":" ++ String.intercalate ":" ((first :: rest).map Text.name) := by
    rw [List.map_cons, ← join_bound, labelsText, ← List.map_cons, List.map_map]
    rfl
  rw [String.append_assoc, ← htext]
  exact h.isPart.append hlabels (.inr hstarts) Neutral.append

theorem endsLine_union {branches : List String} (h : ∀ s ∈ branches, EndsLine s) :
    EndsLine (String.intercalate "\nUNION\n" branches) := by
  have hunion : EndsLine "UNION" :=
    ((by decide : IsPart Neutral "UNION").mono Neutral.closed).endsLine
  have hmark : ("\nUNION\n" : String) = "\n" ++ "UNION" ++ "\n" := by decide
  induction branches with
  | nil => exact (isPart_empty closed_nil).endsLine
  | cons branch rest ih =>
    rw [List.forall_mem_cons] at h
    cases rest with
    | nil => exact h.1
    | cons second more =>
      rw [String.intercalate_cons_cons, hmark]
      have hjoined := (h.1.join hunion).join (ih h.2)
      rw [hmark] at hjoined
      simpa only [String.append_assoc] using hjoined

theorem isPart_columns (keyword : String) (hkeyword : IsPart Neutral keyword ∧ Stops keyword)
    (isDistinct : Bool) {columns : List String} (h : ∀ s ∈ columns, IsPart Closed s) :
    IsPart Closed (keyword ++ distinctText isDistinct ++ commas columns) := by
  have hdistinct : IsPart Neutral (distinctText isDistinct) ∧ Stops (distinctText isDistinct) := by
    cases isDistinct <;> decide
  exact isPart_list _ ⟨behind hkeyword hdistinct.1, hkeyword.2.append hdistinct.2⟩ h

mutual
theorem isPart_text : ∀ e : Expr, e.IsLegible → IsPart Neutral e.text
  | .var _, h => by
    rw [Expr.IsLegible] at h
    exact h.isPart
  | .param _, h => by
    rw [Expr.IsLegible] at h
    exact isPart_param h
  | .literal value, _ => isPart_literal value
  | .property base key, h => by
    rw [Expr.IsLegible] at h
    have hbinder : IsBinder "." '.' := by decide
    simp only [Expr.text]
    rw [String.append_assoc]
    exact (isPart_base (isPart_text base h)).append (hbinder.isPart key) (.inr (hbinder.starts _))
      Neutral.append
  | .binary left op right, h => by
    rw [Expr.IsLegible] at h
    rw [Expr.text]
    exact ((isPart_text left h.1).link Neutral.append (by decide) (isPart_op op)).link
      Neutral.append (by decide) (isPart_text right h.2)
  | .all items, h => by
    rw [Expr.IsLegible] at h
    exact isPart_junction isLink_and (isPart_texts items h)
  | .any items, h => by
    rw [Expr.IsLegible] at h
    exact isPart_junction isLink_or (isPart_texts items h)
  | .not inner, h => by
    rw [Expr.IsLegible] at h
    have hpart := isPart_text inner h
    rw [Expr.text]
    split
    next => exact behind (m := "NOT ") (by decide) hpart
    next => exact (hpart.mono Neutral.closed).enclosed (by decide) (by decide)
  | .isNull inner, h => by
    rw [Expr.IsLegible] at h
    exact (isPart_text inner h).append (by decide : IsPart Neutral " IS NULL") (.inr (by decide))
      Neutral.append
  | .isNotNull inner, h => by
    rw [Expr.IsLegible] at h
    exact (isPart_text inner h).append (by decide : IsPart Neutral " IS NOT NULL")
      (.inr (by decide)) Neutral.append
  | .apply function args, h => by
    rw [Expr.IsLegible] at h
    exact isPart_call h.1 fun s hs => (isPart_texts args h.2 s hs).mono Neutral.closed
  | .distinct inner, h => by
    rw [Expr.IsLegible] at h
    exact behind (m := "DISTINCT ") (by decide) (isPart_text inner h)
  | .hasLabels name labels, h => by
    rw [Expr.IsLegible] at h
    exact isPart_hasLabels h.1 h.2
  | .map entries, h => by
    rw [Expr.IsLegible] at h
    rw [Expr.text]
    split
    next => decide
    next => exact isPart_braces (isPart_entries entries h)
  | .projection name items, h => by
    rw [Expr.IsLegible] at h
    rw [Expr.text]
    refine h.1.isPart.link Neutral.append (by decide) ?_
    split
    next => decide
    next => exact isPart_braces (isPart_items items h.2)
  | .list items, h => by
    rw [Expr.IsLegible] at h
    have hitems := isPart_commas fun s hs => (isPart_texts items h s hs).mono Neutral.closed
    exact hitems.enclosed (by decide) (by decide)
  | .choice condition result otherwise, h => by
    rw [Expr.IsLegible] at h
    simp only [Expr.text]
    have hfirst := behind (m := "CASE WHEN ") (by decide) (isPart_text condition h.1)
    have hsecond := hfirst.link Neutral.append (by decide : IsLink Neutral " THEN ")
      (isPart_text result h.2.1)
    have hthird := hsecond.link Neutral.append (by decide : IsLink Neutral " ELSE ")
      (isPart_text otherwise h.2.2)
    exact hthird.append (by decide : IsPart Neutral " END") (.inr (by decide)) Neutral.append
  | .comprehension name list body, h => by
    rw [Expr.IsLegible] at h
    have hsource := h.1.isPart.link Neutral.append (by decide : IsLink Neutral " IN ")
      (isPart_text list h.2.1)
    have hinner := hsource.link Neutral.append (by decide : IsLink Neutral " | ")
      (isPart_text body h.2.2)
    have htext : (Expr.comprehension name list body).text =
        "[" ++ (name ++ " IN " ++ list.text ++ " | " ++ body.text) ++ "]" := by
      simp only [Expr.text, String.append_assoc]
    rw [htext]
    exact (hinner.mono Neutral.closed).enclosed (by decide) (by decide)
  | .existsIn body, h => by
    rw [Expr.IsLegible] at h
    exact (endsLine_intercalate (endsLine_texts body h)).block (by decide)
  | .countIn body, h => by
    rw [Expr.IsLegible] at h
    exact (endsLine_intercalate (endsLine_texts body h)).block (by decide)
  | .star, _ => (by decide : IsPart Neutral "*")
theorem isPart_texts : ∀ es : List Expr, Expr.AreLegible es →
    ∀ s ∈ Expr.texts es, IsPart Neutral s
  | [], _ => List.forall_mem_nil _
  | e :: rest, h => by
    rw [Expr.AreLegible] at h
    exact List.forall_mem_cons.mpr ⟨isPart_text e h.1, isPart_texts rest h.2⟩
theorem isPart_entries : ∀ entries : List (String × Expr), Expr.EntriesLegible entries →
    ∀ s ∈ Expr.entryTexts entries, IsPart Closed s
  | [], _ => List.forall_mem_nil _
  | (key, e) :: rest, h => by
    rw [Expr.EntriesLegible] at h
    have hvalue := (isPart_text e h.1).mono Neutral.closed
    exact List.forall_mem_cons.mpr ⟨isPart_entry key hvalue, isPart_entries rest h.2⟩
theorem isPart_items : ∀ items : List (MapItem Expr), Expr.ItemsLegible items →
    ∀ s ∈ Expr.itemTexts items, IsPart Closed s
  | [], _ => List.forall_mem_nil _
  | .own key :: rest, h => by
    rw [Expr.ItemsLegible] at h
    have hbinder : IsBinder "." '.' := by decide
    exact List.forall_mem_cons.mpr
      ⟨(hbinder.isPart key).mono Neutral.closed, isPart_items rest h⟩
  | .entry key e :: rest, h => by
    rw [Expr.ItemsLegible] at h
    have hvalue := (isPart_text e h.1).mono Neutral.closed
    exact List.forall_mem_cons.mpr ⟨isPart_entry key hvalue, isPart_items rest h.2⟩
theorem isPart_option : ∀ predicate : Option Expr, Expr.OptionLegible predicate →
    ∀ e ∈ predicate, IsPart Neutral e.text
  | none, _ => fun _ he => nomatch he
  | some e, h => by
    rw [Expr.OptionLegible] at h
    have hpart := isPart_text e h
    rintro _ ⟨⟩
    exact hpart
theorem isPart_columnTexts : ∀ columns : List (Column Expr), Expr.ColumnsLegible columns →
    ∀ s ∈ Expr.columnTexts columns, IsPart Closed s
  | [], _ => List.forall_mem_nil _
  | ⟨e, none⟩ :: rest, h => by
    rw [Expr.ColumnsLegible] at h
    exact List.forall_mem_cons.mpr
      ⟨(isPart_text e h.1.1).mono Neutral.closed, isPart_columnTexts rest h.2⟩
  | ⟨e, some name⟩ :: rest, h => by
    rw [Expr.ColumnsLegible] at h
    have hpart := isPart_text e h.1.1
    refine List.forall_mem_cons.mpr ⟨?_, isPart_columnTexts rest h.2⟩
    split
    next => exact hpart.mono Neutral.closed
    next =>
      have hname := (h.1.2 name rfl).isPart
      exact (hpart.link Neutral.append (by decide : IsLink Neutral " AS ") hname).mono
        Neutral.closed
theorem isPart_order : ∀ order : List (OrderKey Expr), Expr.OrderLegible order →
    ∀ s ∈ Expr.orderTexts order, IsPart Closed s
  | [], _ => List.forall_mem_nil _
  | ⟨e, descending⟩ :: rest, h => by
    rw [Expr.OrderLegible] at h
    have hpart := isPart_text e h.1
    have hway : IsPart Neutral (if descending then " DESC" else " ASC") ∧
        Starts (if descending then " DESC" else " ASC") := by
      cases descending <;> decide
    exact List.forall_mem_cons.mpr ⟨(hpart.append hway.1 (.inr hway.2) Neutral.append).mono
      Neutral.closed, isPart_order rest h.2⟩
theorem isPart_assignments : ∀ assignments : List (Expr × Expr),
    Expr.AssignmentsLegible assignments → ∀ s ∈ Expr.assignmentTexts assignments, IsPart Closed s
  | [], _ => List.forall_mem_nil _
  | (target, value) :: rest, h => by
    rw [Expr.AssignmentsLegible] at h
    have hpart := (isPart_text target h.1.1).link Neutral.append (by decide : IsLink Neutral " = ")
      (isPart_text value h.1.2)
    exact List.forall_mem_cons.mpr ⟨hpart.mono Neutral.closed, isPart_assignments rest h.2⟩
theorem endsLine_text : ∀ c : Clause, c.IsLegible → EndsLine c.text
  | .matching pattern isOptional predicate, h => by
    rw [Clause.IsLegible] at h
    have hline := isPart_line "WHERE" (by decide) predicate (isPart_option predicate h.2)
    have hkeyword : IsPart Neutral (if isOptional then "OPTIONAL MATCH " else "MATCH ") ∧
        Stops (if isOptional then "OPTIONAL MATCH " else "MATCH ") := by
      cases isOptional <;> decide
    have hfront := hkeyword.1.append (isPart_pattern h.1) (.inl hkeyword.2) Neutral.append
    exact ((hfront.mono Neutral.closed).append hline.1 (.inr hline.2) Closed.append).endsLine
  | .carry columns isDistinct order skip limit predicate, h => by
    rw [Clause.IsLegible] at h
    obtain ⟨hcolumns, horder, hskip, hlimit, hpredicate⟩ := h
    have hfront := isPart_columns "WITH " (by decide) isDistinct
      (isPart_columnTexts columns hcolumns)
    have hkeys : IsPart Closed
        (if order.isEmpty then "" else "\nORDER BY " ++ commas (Expr.orderTexts order)) ∧
        Starts (if order.isEmpty then "" else "\nORDER BY " ++ commas (Expr.orderTexts order)) :=
      isPart_orderLine (isPart_order order horder)
    have hskipLine := isPart_line "SKIP" (by decide) skip (isPart_option skip hskip)
    have hlimitLine := isPart_line "LIMIT" (by decide) limit (isPart_option limit hlimit)
    have hline := isPart_line "WHERE" (by decide) predicate (isPart_option predicate hpredicate)
    have hordered := hfront.append hkeys.1 (.inr hkeys.2) Closed.append
    have hskipped := hordered.append hskipLine.1 (.inr hskipLine.2) Closed.append
    have hlimited := hskipped.append hlimitLine.1 (.inr hlimitLine.2) Closed.append
    exact (hlimited.append hline.1 (.inr hline.2) Closed.append).endsLine
  | .unwind e name, h => by
    rw [Clause.IsLegible] at h
    have hfront := behind (m := "UNWIND ") (by decide) (isPart_text e h.1)
    exact ((hfront.link Neutral.append (by decide : IsLink Neutral " AS ") h.2.isPart).mono
      Neutral.closed).endsLine
  | .call imports body, h => by
    rw [Clause.IsLegible] at h
    have hbody := endsLine_intercalate (endsLine_texts body h.2)
    have hblock : EndsLine ((if imports.isEmpty then "" else "WITH " ++ commas imports ++ "\n") ++
        String.intercalate "\n" (Clause.texts body)) := by
      split
      next => rwa [String.empty_append]
      next =>
        have himports := isPart_list "WITH " (by decide) fun name hname =>
          (h.1 name hname).isPart.mono Neutral.closed
        exact himports.endsLine.join hbody
    exact ((hblock.block (by decide : IsPart Neutral "CALL")).mono Neutral.closed).endsLine
  | .union branches, h => by
    rw [Clause.IsLegible] at h
    exact endsLine_union (endsLine_branches branches h)
  | .create pattern, h => by
    rw [Clause.IsLegible] at h
    have hpart := behind (m := "CREATE ") (by decide) (isPart_pattern h)
    exact (hpart.mono Neutral.closed).endsLine
  | .merge pattern, h => by
    rw [Clause.IsLegible] at h
    have hpart := behind (m := "MERGE ") (by decide) (isPart_pattern h)
    exact (hpart.mono Neutral.closed).endsLine
  | .set assignments, h => by
    rw [Clause.IsLegible] at h
    exact (isPart_list "SET " (by decide) (isPart_assignments assignments h)).endsLine
  | .delete detach names, h => by
    rw [Clause.IsLegible] at h
    have hkeyword : IsPart Neutral (if detach then "DETACH DELETE " else "DELETE ") ∧
        Stops (if detach then "DETACH DELETE " else "DELETE ") := by
      cases detach <;> decide
    have hnames := isPart_list _ hkeyword fun name hname =>
      (h name hname).isPart.mono Neutral.closed
    exact hnames.endsLine
  | .returning columns isDistinct, h => by
    rw [Clause.IsLegible] at h
    exact (isPart_columns "RETURN " (by decide) isDistinct (isPart_columnTexts columns h)).endsLine
  | .raw statement, h => by
    rw [Clause.IsLegible] at h
    exact h
theorem endsLine_texts : ∀ cs : List Clause, Clause.AreLegible cs →
    ∀ s ∈ Clause.texts cs, EndsLine s
  | [], _ => List.forall_mem_nil _
  | c :: rest, h => by
    rw [Clause.AreLegible] at h
    exact List.forall_mem_cons.mpr ⟨endsLine_text c h.1, endsLine_texts rest h.2⟩
theorem endsLine_branches : ∀ branches : List (List Clause), Clause.BranchesLegible branches →
    ∀ s ∈ Clause.branchTexts branches, EndsLine s
  | [], _ => List.forall_mem_nil _
  | branch :: rest, h => by
    rw [Clause.BranchesLegible] at h
    exact List.forall_mem_cons.mpr
      ⟨endsLine_intercalate (endsLine_texts branch h.1), endsLine_branches rest h.2⟩
end

end Expressions

end GraphSelection.Reread
