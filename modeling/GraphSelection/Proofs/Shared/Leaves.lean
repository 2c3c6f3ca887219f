import GraphSelection.Program.Condition
import GraphSelection.Proofs.Akin.Predicates

/-!
Leaves that need a call: aggregations and computed attributes. A call is known by a key that is made
of names, so the keys of two leaves tell whether their names agree, and no more. Where leaves whose
names agree are also defined alike, two leaves have one key only when one call does for both.
-/
namespace GraphSelection.Program

open GraphSelection Cypher Plan

inductive Leaf where
  | computed (a : Attribute)
  | aggregation (a : Aggregation)

namespace Leaf

/-- The key under which the call of the leaf is known. -/
def key (subject : String) : Leaf → String
  | .computed a => computedKey subject a
  | .aggregation a => aggregationKey subject a

/-- Measures of one name: nodes or edges are counted, or attributes of one name are reduced
alike. -/
inductive MeasureNamed : Measure → Measure → Prop
  | countNodes : MeasureNamed .countNodes .countNodes
  | countEdges : MeasureNamed .countEdges .countEdges
  | node {a a' : Attribute} (h : a.name = a'.name) (f : Reduction) :
      MeasureNamed (.node a f) (.node a' f)
  | edge {a a' : Attribute} (h : a.name = a'.name) (f : Reduction) :
      MeasureNamed (.edge a f) (.edge a' f)

/-- Measures that read one property of one kind, where they read any. -/
inductive MeasureAlike : Measure → Measure → Prop
  | countNodes : MeasureAlike .countNodes .countNodes
  | countEdges : MeasureAlike .countEdges .countEdges
  | node {a a' : Attribute} (hstored : a.stored = a'.stored) (hkind : a.kind = a'.kind)
      (f : Reduction) : MeasureAlike (.node a f) (.node a' f)
  | edge {a a' : Attribute} (hstored : a.stored = a'.stored) (hkind : a.kind = a'.kind)
      (f : Reduction) : MeasureAlike (.edge a f) (.edge a' f)

/-- Leaves that agree in every name, in the operator and in the text of the value. -/
inductive Named : Leaf → Leaf → Prop
  | computed {a a' : Attribute} (h : a.name = a'.name) : Named (.computed a) (.computed a')
  | aggregation {a a' : Aggregation} (hrelationship : a.relationship.name = a'.relationship.name)
      (hmeasure : MeasureNamed a.measure a'.measure) (hop : a.op = a'.op)
      (hvalue : Json.compact a.value = Json.compact a'.value) :
      Named (.aggregation a) (.aggregation a')

/-- Leaves that agree in everything a call is made of. -/
inductive Alike : Leaf → Leaf → Prop
  | computed {a a' : Attribute} (hcomputation : a.computation = a'.computation)
      (hlist : a.isList = a'.isList) : Alike (.computed a) (.computed a')
  | aggregation {a a' : Aggregation}
      (htype : a.relationship.graphType = a'.relationship.graphType)
      (hdirection : a.relationship.direction = a'.relationship.direction)
      (hlabels : a.target.labels = a'.target.labels)
      (hmeasure : MeasureAlike a.measure a'.measure) (hop : a.op = a'.op)
      (hvalue : Json.compact a.value = Json.compact a'.value) :
      Alike (.aggregation a) (.aggregation a')

/-- The name of a relationship does not hold what separates the parts of a key. -/
def Plain : Leaf → Prop
  | .computed _ => True
  | .aggregation a => ':' ∉ a.relationship.name.toList

/-- Leaves among which a name has one meaning. -/
structure Consistent (leaves : List Leaf) : Prop where
  plain : ∀ leaf ∈ leaves, leaf.Plain
  alike : ∀ leaf ∈ leaves, ∀ leaf' ∈ leaves, leaf.Named leaf' → leaf.Alike leaf'

/-- The clause is the call of the leaf: it runs the statement of the attribute and reads its column,
or it measures what the relationship of the leaf leads to and compares the measure with a parameter
that is written as the value of the leaf. The answer goes into the result. -/
inductive Calls (subject : String) (params : Entries Doc) : Leaf → String → Clause → Prop
  | computed {a : Attribute} {c : Computation} (h : a.computation = some c)
      (column result : String) :
      Calls subject params (.computed a) result
        (.call [subject]
          [.call [subject]
            [.carryOnly [Column.named (.var subject) "this"], .raw c.statement],
           .carryOnly [Column.named (.var c.column) column],
           .give (collected (.var column) a.isList) result])
  | aggregation {a : Aggregation} (edge node : String) {before : List Clause} {reduced : Expr}
      (hmeasured : measured a.measure node (some edge) = .ok (before, reduced)) {p : String}
      {value : Doc} (hparam : (p, value) ∈ params)
      (hvalue : Json.compact value = Json.compact a.value) (result : String) :
      Calls subject params (.aggregation a) result
        (.call [subject]
          (.find (traversal subject a.relationship edge (NodePattern.named node a.target.labels))
              none ::
            before ++
            [.give
              (comparison a.op
                (if a.measure.comparesLength then .apply "size" [reduced] else reduced)
                (construct a.measure.valueKind? (.param p))) result]))

theorem Calls.mono {subject result : String} {params params' : Entries Doc} {leaf : Leaf}
    {clause : Clause} (h : Calls subject params leaf result clause) (hsub : params <+: params') :
    Calls subject params' leaf result clause := by
  cases h with
  | computed hcomputation column => exact .computed hcomputation column result
  | aggregation edge node hmeasured hparam hvalue =>
    exact .aggregation edge node hmeasured (hsub.subset hparam) hvalue result

section MeasureAlike

variable {m m' : Measure} (h : MeasureAlike m m')
include h

theorem MeasureAlike.measured (node : String) (edge : Option String) :
    measured m node edge = measured m' node edge := by
  cases h with
  | countNodes => rfl
  | countEdges => rfl
  | node hstored _ f => cases edge <;> simp only [Program.measured, hstored]
  | edge hstored _ f => cases edge <;> simp only [Program.measured, hstored]

theorem MeasureAlike.comparesLength : m.comparesLength = m'.comparesLength := by
  cases h <;> rfl

theorem MeasureAlike.valueKind : m.valueKind? = m'.valueKind? := by
  cases h with
  | countNodes => rfl
  | countEdges => rfl
  | node _ hkind f => simp only [Measure.valueKind?, hkind]
  | edge _ hkind f => simp only [Measure.valueKind?, hkind]

end MeasureAlike

/-- A call does for every leaf that is like its own. -/
theorem Calls.of_alike {subject result : String} {params : Entries Doc} {leaf leaf' : Leaf}
    {clause : Clause} (h : Calls subject params leaf result clause) (halike : leaf.Alike leaf') :
    Calls subject params leaf' result clause := by
  cases h with
  | computed hcomputation column =>
    cases halike with
    | computed hsame hlist =>
      rw [hlist]
      exact .computed (hsame ▸ hcomputation) column result
  | aggregation edge node hmeasured hparam hvalue =>
    cases halike with
    | aggregation htype hdirection hlabels hmeasure hop hsame =>
      have hpattern : ∀ r r' : Relationship, r.graphType = r'.graphType →
          r.direction = r'.direction → ∀ stop,
          traversal subject r edge stop = traversal subject r' edge stop := by
        intro r r' htype hdirection stop
        simp only [traversal, htype, hdirection]
      rw [hpattern _ _ htype hdirection, hlabels, hop, hmeasure.comparesLength,
        hmeasure.valueKind]
      exact .aggregation edge node (hmeasure.measured .. ▸ hmeasured) hparam (hvalue.trans hsame)
        result

end Leaf

section Splitting

variable {α : Type} {x : α} {xs xs' ys ys' : List α}

/-- A list is split in one way at the first occurrence of an element. -/
theorem split_first (hxs : x ∉ xs) (hxs' : x ∉ xs') (h : xs ++ x :: ys = xs' ++ x :: ys') :
    xs = xs' ∧ ys = ys' := by
  induction xs generalizing xs' with
  | nil =>
    cases xs' with
    | nil => exact ⟨rfl, (List.cons.inj h).2⟩
    | cons y rest => exact absurd (by simp [(List.cons.inj h).1]) hxs'
  | cons y rest ih =>
    cases xs' with
    | nil => exact absurd (by simp [(List.cons.inj h).1]) hxs
    | cons y' rest' =>
      obtain ⟨rfl, htail⟩ := List.cons.inj h
      obtain ⟨rfl, hys⟩ := ih (fun hx => hxs (List.mem_cons_of_mem _ hx))
        (fun hx => hxs' (List.mem_cons_of_mem _ hx)) htail
      exact ⟨rfl, hys⟩

/-- And in one way at the last occurrence. -/
theorem split_last (hys : x ∉ ys) (hys' : x ∉ ys') (h : xs ++ x :: ys = xs' ++ x :: ys') :
    xs = xs' ∧ ys = ys' := by
  have hreversed := congrArg List.reverse h
  simp only [List.reverse_append, List.reverse_cons, List.append_assoc,
    List.singleton_append] at hreversed
  obtain ⟨hys, hxs⟩ := split_first (by simpa using hys) (by simpa using hys') hreversed
  exact ⟨List.reverse_inj.mp hxs, List.reverse_inj.mp hys⟩

end Splitting

section Keys

variable {subject : String}

theorem op_name_plain (op : Comparison) : ':' ∉ op.name.toList := by
  cases op <;> decide

theorem op_name_injective {op op' : Comparison} (h : op.name = op'.name) : op = op' := by
  cases op <;> cases op' <;> first | rfl | exact absurd h (by decide)

theorem reduction_name_plain (f : Reduction) : '.' ∉ f.name.toList := by
  cases f <;> decide

theorem reduction_name_injective {f f' : Reduction} (h : f.name = f'.name) : f = f' := by
  cases f <;> cases f' <;> first | rfl | exact absurd h (by decide)

/-- A reduction is split off the name of its attribute at the last dot. -/
theorem reduced_key {head : String} {a a' : Attribute} {f f' : Reduction}
    (h : head ++ a.name ++ "." ++ f.name = head ++ a'.name ++ "." ++ f'.name) :
    a.name = a'.name ∧ f = f' := by
  have hlists := congrArg String.toList h
  simp only [String.toList_append, List.append_assoc, List.append_cancel_left_eq] at hlists
  obtain ⟨hnames, hreductions⟩ :=
    split_last (reduction_name_plain f) (reduction_name_plain f') hlists
  exact ⟨String.toList_inj.mp hnames, reduction_name_injective (String.toList_inj.mp hreductions)⟩

theorem Leaf.measureNamed_of_key {m m' : Measure} (h : m.key = m'.key) :
    Leaf.MeasureNamed m m' := by
  have hstart := congrArg (fun key : String => key.toList.take 5) h
  cases m <;> cases m' <;> try (simp [Measure.key] at hstart; done)
  case countNodes.countNodes => exact .countNodes
  case countEdges.countEdges => exact .countEdges
  case node.node a f a' f' =>
    obtain ⟨hname, rfl⟩ := reduced_key h
    exact .node hname f
  case edge.edge a f a' f' =>
    obtain ⟨hname, rfl⟩ := reduced_key h
    exact .edge hname f

theorem stem_toList (subject : String) (r : Relationship) (m : Measure) (op : Comparison) :
    (aggregationStem subject r m op).toList =
      ("aggregate:" ++ subject ++ ":").toList ++
        (r.name.toList ++ ':' :: (m.key.toList ++ ':' :: op.name.toList ++ [':'])) := by
  have hcolon : ":".toList = [':'] := rfl
  change ("aggregate:" ++ subject ++ ":" ++ r.name ++ ":" ++ m.key ++ ":" ++ op.name ++
    ":").toList = _
  generalize "aggregate:" ++ subject ++ ":" = start
  generalize ":" = colon at hcolon
  simp only [String.toList_append, hcolon, List.append_assoc, List.cons_append, List.nil_append]

/-- The parts of an aggregation key. The value is split off first, since it may hold anything but
cannot hold a stem; then the relationship at the first colon and the operator at the last. -/
theorem Leaf.named_of_stem {r r' : Relationship} {m m' : Measure} {op op' : Comparison}
    (hr : ':' ∉ r.name.toList) (hr' : ':' ∉ r'.name.toList)
    (h : aggregationStem subject r m op = aggregationStem subject r' m' op') :
    r.name = r'.name ∧ MeasureNamed m m' ∧ op = op' := by
  have hlists := congrArg String.toList h
  rw [stem_toList, stem_toList] at hlists
  obtain ⟨hname, hrest⟩ := split_first hr hr' (List.append_cancel_left hlists)
  obtain ⟨hkey, hop⟩ :=
    split_last (op_name_plain op) (op_name_plain op') (List.append_cancel_right hrest)
  exact ⟨String.toList_inj.mp hname, measureNamed_of_key (String.toList_inj.mp hkey),
    op_name_injective (String.toList_inj.mp hop)⟩

/-- Leaves of one key agree in their names. -/
theorem Leaf.named_of_key {leaf leaf' : Leaf} (hplain : leaf.Plain) (hplain' : leaf'.Plain)
    (h : leaf.key subject = leaf'.key subject) : leaf.Named leaf' := by
  cases leaf with
  | computed a =>
    cases leaf' with
    | computed a' =>
      refine .computed (String.toList_inj.mp ?_)
      have hlists := congrArg String.toList h
      simpa only [Leaf.key, computedKey, String.toList_append, List.append_cancel_left_eq]
        using hlists
    | aggregation a' => exact absurd h computedKey_ne
  | aggregation a =>
    cases leaf' with
    | computed a' => exact absurd h.symm computedKey_ne
    | aggregation a' =>
      have hlists := congrArg String.toList h
      change (aggregationStem subject a.relationship a.measure a.op ++
        Json.compact a.value).toList =
        (aggregationStem subject a'.relationship a'.measure a'.op ++
          Json.compact a'.value).toList at hlists
      rw [String.toList_append, String.toList_append] at hlists
      obtain ⟨hstem, hvalue⟩ :=
        Json.marked_unique (marked_stem ..) (marked_stem ..) hlists
      obtain ⟨hname, hmeasure, hop⟩ :=
        Leaf.named_of_stem hplain hplain' (String.toList_inj.mp hstem)
      exact .aggregation hname hmeasure hop (String.toList_inj.mp hvalue)

/-- Among leaves in which a name has one meaning, a key has one call. -/
theorem Leaf.Consistent.alike_of_key {leaves : List Leaf} (h : Consistent leaves)
    {leaf leaf' : Leaf} (hleaf : leaf ∈ leaves) (hleaf' : leaf' ∈ leaves)
    (hkey : leaf.key subject = leaf'.key subject) : leaf.Alike leaf' :=
  h.alike leaf hleaf leaf' hleaf'
    (named_of_key (h.plain leaf hleaf) (h.plain leaf' hleaf') hkey)

end Keys

end GraphSelection.Program
