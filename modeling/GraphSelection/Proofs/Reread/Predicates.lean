import GraphSelection.Proofs.Reread.Texts

/-!
Predicates that are put together from tests by conjunctions, disjunctions and negations. Their
texts, read with `NOT` before `AND` before `OR`, are the same trees of the same tests: a junction
directly in one of its own kind is merged with it, and a junction of one part is that part.
-/
namespace GraphSelection.Cypher

mutual
/-- The text begins with `NOT`, although the expression need not be a negation. -/
def Expr.leadsNot : Expr → Bool
  | .binary left _ _ => left.leadsNot
  | .all items => Expr.leadsNotOf items
  | .any items => Expr.leadsNotOf items
  | .not _ => true
  | .isNull inner => inner.leadsNot
  | .isNotNull inner => inner.leadsNot
  | _ => false
def Expr.leadsNotOf : List Expr → Bool
  | [e] => e.leadsNot
  | _ => false
end

/-- A comparison, a check for null, a label test, a test for existence or a call. -/
def Expr.isTest : Expr → Bool
  | .binary _ _ _ => true
  | .isNull _ => true
  | .isNotNull _ => true
  | .hasLabels _ _ => true
  | .existsIn _ => true
  | .apply _ _ => true
  | _ => false

/-- A test of values: what it compares or checks is not itself a negation, which would take the
rest of the test along. -/
structure Expr.IsAtom (e : Expr) : Prop where
  isTest : e.isTest = true
  legible : e.IsLegible
  leads : e.leadsNot = false

end GraphSelection.Cypher

namespace GraphSelection.Reread

open Cypher

namespace Tree

mutual
def atoms {α : Type} : Tree α → List α
  | .atom a => [a]
  | .all parts => atomsOf parts
  | .any parts => atomsOf parts
  | .not inner => inner.atoms
def atomsOf {α : Type} : List (Tree α) → List α
  | [] => []
  | t :: rest => t.atoms ++ atomsOf rest
end

mutual
/-- The expression of a tree of tests; there is none for a junction of nothing. -/
def build : Tree Expr → Option Expr
  | .atom e => some e
  | .all parts => (buildParts parts).bind Expr.allOf
  | .any parts => (buildParts parts).bind Expr.anyOf
  | .not inner => inner.build.map .not
def buildParts : List (Tree Expr) → Option (List Expr)
  | [] => some []
  | t :: rest => t.build.bind fun e => (buildParts rest).map (e :: ·)
end

end Tree

section Beginnings

variable {s m : String}

theorem begins_behind (hm : Begins (tokens m.toList) ∧ Stops m) (s : String) :
    Begins (tokens (m ++ s).toList) := by
  have hpart : IsPart (fun _ => True) m := ⟨hm.2.isRest, trivial⟩
  rw [hpart.tokens_append (.inl hm.2)]
  exact hm.1.append _

theorem begins_before {P : List Token → Prop} (h : IsPart P s) (hbegins : Begins (tokens s.toList))
    {t : String} (ht : Starts t) : Begins (tokens (s ++ t).toList) := by
  rw [h.tokens_append (.inr ht)]
  exact hbegins.append _

theorem begins_literal (value : Literal) : Begins (tokens value.text.toList) := by
  cases value with
  | null => decide
  | boolean b => cases b <;> decide
  | integer n => exact begins_numeral (Json.numeral_int n) (endsInDigit_int n)
  | float x => exact begins_numeral (Json.numeral_number _ x) (endsInDigit_number _ x)
  | string s =>
    rw [Literal.text, Text.literal, String.toList_ofList, (reads_literal _).tokens]
    rfl

theorem begins_junction {mark : String} {texts : List String}
    (h : ∀ single, texts = [single] → Begins (tokens single.toList)) :
    Begins (tokens (junctionText mark texts).toList) := by
  unfold junctionText
  split
  next => decide
  next single => exact h single rfl
  next =>
    rw [String.append_assoc]
    exact begins_behind (by decide) _

theorem begins_block {keyword : String}
    (h : IsPart Neutral keyword ∧ Begins (tokens keyword.toList)) (body : String) :
    Begins (tokens (blockText keyword body).toList) := by
  have hopening : Starts " \x7b\n" := by decide
  rw [blockText, String.append_assoc, String.append_assoc]
  exact begins_before h.1 h.2 (hopening.append (by decide) _)

theorem leadsNot_of_isSimpleBase {e : Expr} (h : e.isSimpleBase = true) : e.leadsNot = false := by
  cases e <;> first | rfl | cases h

theorem begins_function {function : String} (h : ∀ part ∈ Text.split function '.', IsPlain part) :
    Begins (tokens function.toList) := by
  obtain ⟨-, name, rest, hname, htokens⟩ := isPart_function h
  rw [htokens]
  exact hname.2 "NOT" (by decide)

-- What a text begins with is not to be evaluated when types are compared.
attribute [local irreducible] Begins in
mutual
theorem begins_text : ∀ e : Expr, e.IsLegible → e.leadsNot = false → Begins (tokens e.text.toList)
  | .var _ => fun h _ => by
    rw [Expr.IsLegible] at h
    exact h.begins
  | .param _ => fun _ _ => by
    simp only [Expr.text]
    exact begins_behind (by decide) _
  | .literal value => fun _ _ => by
    simp only [Expr.text]
    exact begins_literal value
  | .property base key => fun h _ => by
    rw [Expr.IsLegible] at h
    have hbinder : IsBinder "." '.' := by decide
    have hbegins : Begins
        (tokens (if base.isSimpleBase then base.text else "(" ++ base.text ++ ")").toList) := by
      split
      next hsimple => exact begins_text base h (leadsNot_of_isSimpleBase hsimple)
      next =>
        rw [String.append_assoc]
        exact begins_behind (by decide) _
    simp only [Expr.text]
    rw [String.append_assoc]
    exact begins_before (isPart_base (isPart_text base h)) hbegins (hbinder.starts _)
  | .binary left op right => fun h hleads => by
    rw [Expr.IsLegible] at h
    rw [Expr.leadsNot] at hleads
    have hlink : IsLink Neutral " " := by decide
    have hbegins := begins_text left h.1 hleads
    simp only [Expr.text, String.append_assoc]
    exact begins_before (isPart_text left h.1) hbegins (hlink.starts.append hlink.nonempty _)
  | .all items => fun h hleads => by
    rw [Expr.IsLegible] at h
    rw [Expr.leadsNot] at hleads
    simp only [Expr.text]
    exact begins_junction (begins_texts items h hleads)
  | .any items => fun h hleads => by
    rw [Expr.IsLegible] at h
    rw [Expr.leadsNot] at hleads
    simp only [Expr.text]
    exact begins_junction (begins_texts items h hleads)
  | .not inner => fun _ hleads => by
    rw [Expr.leadsNot] at hleads
    cases hleads
  | .isNull inner => fun h hleads => by
    rw [Expr.IsLegible] at h
    rw [Expr.leadsNot] at hleads
    simp only [Expr.text]
    exact begins_before (isPart_text inner h) (begins_text inner h hleads) (by decide)
  | .isNotNull inner => fun h hleads => by
    rw [Expr.IsLegible] at h
    rw [Expr.leadsNot] at hleads
    simp only [Expr.text]
    exact begins_before (isPart_text inner h) (begins_text inner h hleads) (by decide)
  | .apply function args => fun h _ => by
    rw [Expr.IsLegible] at h
    have hopening : Starts "(" := by decide
    simp only [Expr.text, String.append_assoc]
    have hbegins := begins_function h.1
    exact begins_before (isPart_function h.1).1 hbegins (hopening.append (by decide) _)
  | .distinct inner => fun _ _ => by
    simp only [Expr.text]
    exact begins_behind (by decide) _
  | .hasLabels name labels => fun h _ => by
    rw [Expr.IsLegible] at h
    have hcolon : Starts ":" := by decide
    simp only [Expr.text, String.append_assoc]
    exact begins_before h.1.isPart h.1.begins (hcolon.append (by decide) _)
  | .map entries => fun _ _ => by
    simp only [Expr.text]
    split
    next => decide
    next =>
      rw [inBraces, String.append_assoc]
      exact begins_behind (by decide) _
  | .projection name items => fun h _ => by
    rw [Expr.IsLegible] at h
    have hblank : Starts " " := by decide
    simp only [Expr.text, String.append_assoc]
    exact begins_before h.1.isPart h.1.begins (hblank.append (by decide) _)
  | .list items => fun _ _ => by
    simp only [Expr.text, String.append_assoc]
    exact begins_behind (by decide) _
  | .choice condition result otherwise => fun _ _ => by
    simp only [Expr.text, String.append_assoc]
    exact begins_behind (by decide) _
  | .comprehension name list body => fun _ _ => by
    simp only [Expr.text, String.append_assoc]
    exact begins_behind (by decide) _
  | .existsIn body => fun _ _ => by
    simp only [Expr.text]
    exact begins_block (by decide) _
  | .countIn body => fun _ _ => by
    simp only [Expr.text]
    exact begins_block (by decide) _
  | .star => fun _ _ => by
    simp only [Expr.text]
    decide
theorem begins_texts : ∀ es : List Expr, Expr.AreLegible es → Expr.leadsNotOf es = false →
    ∀ single, Expr.texts es = [single] → Begins (tokens single.toList)
  | [], _, _, _, hsingle => by
    rw [Expr.texts] at hsingle
    cases hsingle
  | [e], h, hleads, single, hsingle => by
    rw [Expr.AreLegible] at h
    rw [Expr.leadsNotOf] at hleads
    rw [Expr.texts, Expr.texts] at hsingle
    obtain rfl : e.text = single := (List.cons.inj hsingle).1
    exact begins_text e h.1 hleads
  | _ :: _ :: _, _, _, _, hsingle => by
    rw [Expr.texts, Expr.texts] at hsingle
    cases (List.cons.inj hsingle).2
end

end Beginnings

section Atoms

theorem group?_of_append {ts us : List Token} (h : Neutral ts) (hbegins : Begins ts)
    (hne : us ≠ []) : group? (ts ++ us) = none := by
  obtain ⟨t, rest, rfl⟩ := List.exists_cons_of_ne_nil hne
  refine group?_append h ?_ t rest
  rintro rfl
  exact hbegins

theorem group?_behind {s m : String} (h : IsPart Neutral s) (hbegins : Begins (tokens s.toList))
    (hm : Starts m ∧ tokens m.toList ≠ []) : group? (tokens (s ++ m).toList) = none := by
  rw [h.tokens_append (.inr hm.1)]
  exact group?_of_append h.holds hbegins hm.2

/-- No parentheses stand around all of a test. -/
theorem group?_test {e : Expr} (h : e.IsAtom) : group? (tokens e.text.toList) = none := by
  obtain ⟨htest, hlegible, hleads⟩ := h
  cases e with
  | binary left op right =>
    rw [Expr.IsLegible] at hlegible
    rw [Expr.leadsNot] at hleads
    have hleft := isPart_text left hlegible.1
    have hblank : IsLink Neutral " " := by decide
    have hempty : tokens " ".toList = [] := by decide
    have hop : tokens op.text.toList ≠ [] := by cases op <;> decide
    simp only [Expr.text]
    rw [hblank.tokens_append (hleft.link Neutral.append hblank (isPart_op op)),
      hblank.tokens_append hleft, hempty, List.append_nil, List.append_nil, List.append_assoc]
    exact group?_of_append hleft.holds (begins_text left hlegible.1 hleads)
      (List.append_ne_nil_of_left_ne_nil hop _)
  | isNull inner =>
    rw [Expr.IsLegible] at hlegible
    rw [Expr.leadsNot] at hleads
    simp only [Expr.text]
    exact group?_behind (isPart_text inner hlegible) (begins_text inner hlegible hleads) (by decide)
  | isNotNull inner =>
    rw [Expr.IsLegible] at hlegible
    rw [Expr.leadsNot] at hleads
    simp only [Expr.text]
    exact group?_behind (isPart_text inner hlegible) (begins_text inner hlegible hleads) (by decide)
  | hasLabels name labels =>
    rw [Expr.IsLegible] at hlegible
    have hcolon : Starts ":" := by decide
    simp only [Expr.text, String.append_assoc]
    rw [hlegible.1.isPart.tokens_append (.inr (hcolon.append (by decide) _)),
      (reads_isWord hlegible.1.1).tokens]
    rfl
  | existsIn body =>
    have hkeyword : IsPart Neutral "EXISTS" := by decide
    have hopening : Starts " \x7b\n" := by decide
    have hword : tokens "EXISTS".toList = [.word "EXISTS".toList] := by decide
    simp only [Expr.text, blockText, String.append_assoc]
    rw [hkeyword.tokens_append (.inr (hopening.append (by decide) _)), hword]
    rfl
  | apply function args =>
    rw [Expr.IsLegible] at hlegible
    obtain ⟨hpart, name, rest, -, htokens⟩ := isPart_function hlegible.1
    have hopening : Starts "(" := by decide
    simp only [Expr.text, String.append_assoc]
    rw [hpart.tokens_append (.inr (hopening.append (by decide) _)), htokens]
    rfl
  | _ => cases htest

end Atoms

section Rendering

mutual
/-- The expression is written as the tree is: the tests are its atoms, its junctions have at least
two parts. -/
inductive Renders : Tree Expr → Expr → Prop
  | atom {e : Expr} (h : e.IsAtom) : Renders (.atom e) e
  | all {parts : List (Tree Expr)} {items : List Expr} (htwo : 1 < items.length)
      (h : RendersParts parts items) : Renders (.all parts) (.all items)
  | any {parts : List (Tree Expr)} {items : List Expr} (htwo : 1 < items.length)
      (h : RendersParts parts items) : Renders (.any parts) (.any items)
  | not {t : Tree Expr} {e : Expr} (h : Renders t e) : Renders (.not t) (.not e)
inductive RendersParts : List (Tree Expr) → List Expr → Prop
  | nil : RendersParts [] []
  | cons {t : Tree Expr} {e : Expr} {parts : List (Tree Expr)} {items : List Expr}
      (hfirst : Renders t e) (hrest : RendersParts parts items) :
      RendersParts (t :: parts) (e :: items)
end

/-- The tokens of an expression. -/
def exprTokens (e : Expr) : List Token := tokens e.text.toList

mutual
theorem Renders.legible : ∀ {t : Tree Expr} {e : Expr}, Renders t e → e.IsLegible
  | _, _, .atom h => h.legible
  | _, _, .all _ h => by
    rw [Expr.IsLegible]
    exact h.legible
  | _, _, .any _ h => by
    rw [Expr.IsLegible]
    exact h.legible
  | _, _, .not h => by
    rw [Expr.IsLegible]
    exact h.legible
theorem RendersParts.legible : ∀ {parts : List (Tree Expr)} {items : List Expr},
    RendersParts parts items → Expr.AreLegible items
  | _, _, .nil => trivial
  | _, _, .cons hfirst hrest => by
    rw [Expr.AreLegible]
    exact ⟨hfirst.legible, hrest.legible⟩
end

theorem tokens_parenthesized {s : String} (h : IsPart Closed s) :
    tokens ("(" ++ s ++ ")").toList = parenthesized (tokens s.toList) := by
  have hopening : IsPart (fun _ => True) "(" ∧ Stops "(" := ⟨⟨by decide, trivial⟩, by decide⟩
  have hfront : IsPart (fun _ => True) ("(" ++ s) :=
    hopening.1.append h (.inl hopening.2) fun _ _ => trivial
  have htokens : tokens "(".toList = [.mark '('] ∧ tokens ")".toList = [.mark ')'] := by decide
  rw [hfront.tokens_append (.inr (by decide)), hopening.1.tokens_append (.inl hopening.2),
    htokens.1, htokens.2]
  rfl

/-- Junctions between the tokens of texts. -/
theorem tokens_intercalate {j : Junction} {m : String} (hm : IsLink Closed m)
    (hmark : tokens m.toList = [j.token]) {texts : List String}
    (h : ∀ s ∈ texts, IsPart Closed s) :
    tokens (String.intercalate m texts).toList = joined j (texts.map (tokens ·.toList)) := by
  induction texts with
  | nil => rfl
  | cons s rest ih =>
    rw [List.forall_mem_cons] at h
    cases rest with
    | nil => rfl
    | cons second more =>
      rw [String.intercalate_cons_cons, hm.tokens_append h.1, ih h.2, hmark, List.append_assoc]
      rfl

theorem texts_eq_map (es : List Expr) : Expr.texts es = es.map Expr.text := by
  induction es with
  | nil => rfl
  | cons e rest ih => rw [Expr.texts, ih, List.map_cons]

theorem tokens_junction {j : Junction} {m : String} (hm : IsLink Closed m)
    (hmark : tokens m.toList = [j.token]) {items : List Expr} (htwo : 1 < items.length)
    (h : Expr.AreLegible items) :
    tokens (junctionText m (Expr.texts items)).toList =
      parenthesized (joined j (items.map exprTokens)) := by
  have hclosed : ∀ s ∈ Expr.texts items, IsPart Closed s := fun s hs =>
    (isPart_texts items h s hs).mono Neutral.closed
  have htexts : (Expr.texts items).map (tokens ·.toList) = items.map exprTokens := by
    rw [texts_eq_map, List.map_map]
    rfl
  have hlength : 1 < (Expr.texts items).length := by rwa [texts_eq_map, List.length_map]
  unfold junctionText
  split
  next heq => rw [heq] at hlength; cases hlength
  next heq => rw [heq] at hlength; exact absurd hlength (Nat.lt_irrefl 1)
  next =>
    rw [tokens_parenthesized (isPart_intercalate closed_nil Closed.append hm hclosed),
      tokens_intercalate hm hmark hclosed, htexts]

mutual
/-- What is written as the tree is reads as the tree. -/
theorem Renders.spells : ∀ {t : Tree Expr} {e : Expr}, Renders t e →
    Spells (t.map exprTokens) (exprTokens e)
  | _, _, .atom h =>
    .atom (isPart_text _ h.legible).holds (begins_text _ h.legible h.leads) (group?_test h)
  | _, .all items, .all htwo h => by
    have htokens : exprTokens (.all items) =
        parenthesized (joined .and (items.map exprTokens)) := by
      simp only [exprTokens, Expr.text]
      exact tokens_junction isLink_and (by decide) htwo h.legible
    rw [htokens]
    exact .all (by rwa [List.length_map]) h.spells
  | _, .any items, .any htwo h => by
    have htokens : exprTokens (.any items) = parenthesized (joined .or (items.map exprTokens)) := by
      simp only [exprTokens, Expr.text]
      exact tokens_junction isLink_or (by decide) htwo h.legible
    rw [htokens]
    exact .any (by rwa [List.length_map]) h.spells
  | _, .not e, .not h => by
    have hpart := isPart_text e h.legible
    have hnot : IsPart Neutral "NOT " ∧ Stops "NOT " := by decide
    have hword : tokens "NOT ".toList = [.word ['N', 'O', 'T']] := by decide
    have htokens : exprTokens (.not e) = .word ['N', 'O', 'T'] :: exprTokens e ∨
        exprTokens (.not e) = .word ['N', 'O', 'T'] :: parenthesized (exprTokens e) := by
      simp only [exprTokens, Expr.text]
      split
      next =>
        rw [hnot.1.tokens_append (.inl hnot.2), hword]
        exact .inl rfl
      next =>
        have hsplit : "NOT (" ++ e.text ++ ")" = "NOT " ++ ("(" ++ e.text ++ ")") := by
          have hopening : ("NOT (" : String) = "NOT " ++ "(" := by decide
          rw [hopening, String.append_assoc, String.append_assoc, String.append_assoc]
        rw [hsplit, hnot.1.tokens_append (.inl hnot.2), hword,
          tokens_parenthesized (hpart.mono Neutral.closed)]
        exact .inr rfl
    rcases htokens with htokens | htokens
    · rw [htokens]
      exact .not h.spells (.inl rfl)
    · rw [htokens]
      exact .not h.spells (.inr rfl)
theorem RendersParts.spells : ∀ {parts : List (Tree Expr)} {items : List Expr},
    RendersParts parts items → SpellsParts (Tree.mapParts exprTokens parts) (items.map exprTokens)
  | _, _, .nil => .nil
  | _, _, .cons hfirst hrest => .cons hfirst.spells hrest.spells
end

end Rendering

section Building

theorem Renders.conjuncts {t : Tree Expr} {e : Expr} (h : Renders t e) :
    RendersParts t.conjuncts e.conjuncts := by
  cases h with
  | atom h =>
    have hself : e.conjuncts = [e] := by
      have htest := h.isTest
      cases e <;> first | rfl | cases htest
    rw [hself]
    exact .cons (.atom h) .nil
  | all _ hparts => exact hparts
  | any htwo hparts => exact .cons (.any htwo hparts) .nil
  | not hinner => exact .cons (.not hinner) .nil

theorem Renders.disjuncts {t : Tree Expr} {e : Expr} (h : Renders t e) :
    RendersParts t.disjuncts e.disjuncts := by
  cases h with
  | atom h =>
    have hself : e.disjuncts = [e] := by
      have htest := h.isTest
      cases e <;> first | rfl | cases htest
    rw [hself]
    exact .cons (.atom h) .nil
  | all htwo hparts => exact .cons (.all htwo hparts) .nil
  | any _ hparts => exact hparts
  | not hinner => exact .cons (.not hinner) .nil

theorem RendersParts.append {parts parts' : List (Tree Expr)} {items items' : List Expr}
    (h : RendersParts parts items) (h' : RendersParts parts' items') :
    RendersParts (parts ++ parts') (items ++ items') := by
  match h with
  | .nil => exact h'
  | .cons hfirst hrest => exact .cons hfirst (hrest.append h')

theorem RendersParts.flatMap {f : Tree Expr → List (Tree Expr)} {g : Expr → List Expr}
    (hfg : ∀ {t e}, Renders t e → RendersParts (f t) (g e)) {parts : List (Tree Expr)}
    {items : List Expr} (h : RendersParts parts items) :
    RendersParts (parts.flatMap f) (items.flatMap g) := by
  match h with
  | .nil => exact .nil
  | .cons hfirst hrest =>
    rw [List.flatMap_cons, List.flatMap_cons]
    exact (hfg hfirst).append (hrest.flatMap hfg)

theorem RendersParts.joinAll {parts : List (Tree Expr)} {items : List Expr}
    (h : RendersParts parts items) {e : Expr} (he : Expr.allOf items = some e) :
    Renders (Tree.joinAll (parts.flatMap Tree.conjuncts)) e := by
  have hflat := h.flatMap Renders.conjuncts
  unfold Expr.allOf at he
  generalize items.flatMap Expr.conjuncts = flat at he hflat
  generalize parts.flatMap Tree.conjuncts = flatParts at hflat
  match hflat, he with
  | .cons hfirst .nil, rfl => exact hfirst
  | .cons hfirst (.cons hsecond hrest), rfl =>
    exact .all (by simp) (.cons hfirst (.cons hsecond hrest))

theorem RendersParts.joinAny {parts : List (Tree Expr)} {items : List Expr}
    (h : RendersParts parts items) {e : Expr} (he : Expr.anyOf items = some e) :
    Renders (Tree.joinAny (parts.flatMap Tree.disjuncts)) e := by
  have hflat := h.flatMap Renders.disjuncts
  unfold Expr.anyOf at he
  generalize items.flatMap Expr.disjuncts = flat at he hflat
  generalize parts.flatMap Tree.disjuncts = flatParts at hflat
  match hflat, he with
  | .cons hfirst .nil, rfl => exact hfirst
  | .cons hfirst (.cons hsecond hrest), rfl =>
    exact .any (by simp) (.cons hfirst (.cons hsecond hrest))

mutual
/-- Putting a tree together merges what is of one kind. -/
theorem renders_build : ∀ {t : Tree Expr} {e : Expr}, (∀ a ∈ t.atoms, a.IsAtom) →
    t.build = some e → Renders t.normal e
  | .atom a, e, h, hbuild => by
    obtain rfl : a = e := Option.some.inj hbuild
    exact .atom (h a (List.mem_singleton.mpr rfl))
  | .all parts, e, h, hbuild => by
    obtain ⟨items, hitems, he⟩ := Option.bind_eq_some_iff.mp hbuild
    exact (renders_buildParts h hitems).joinAll he
  | .any parts, e, h, hbuild => by
    obtain ⟨items, hitems, he⟩ := Option.bind_eq_some_iff.mp hbuild
    exact (renders_buildParts h hitems).joinAny he
  | .not inner, e, h, hbuild => by
    obtain ⟨e', he', rfl⟩ := Option.map_eq_some_iff.mp hbuild
    exact .not (renders_build h he')
theorem renders_buildParts : ∀ {parts : List (Tree Expr)} {items : List Expr},
    (∀ a ∈ Tree.atomsOf parts, a.IsAtom) → Tree.buildParts parts = some items →
    RendersParts (Tree.normalParts parts) items
  | [], items, _, hbuild => by
    obtain rfl : [] = items := Option.some.inj hbuild
    exact .nil
  | t :: rest, items, h, hbuild => by
    obtain ⟨e, he, hmap⟩ := Option.bind_eq_some_iff.mp hbuild
    obtain ⟨more, hmore, rfl⟩ := Option.map_eq_some_iff.mp hmap
    rw [Tree.atomsOf] at h
    exact .cons (renders_build (fun a ha => h a (List.mem_append_left _ ha)) he)
      (renders_buildParts (fun a ha => h a (List.mem_append_right _ ha)) hmore)
end

/-- A predicate put together from tests regroups as it was put together: its text, read again,
is the tree of the tokens of its tests, with junctions of one kind merged. -/
theorem predicate_regroups {t : Tree Expr} {e : Expr} (hatoms : ∀ a ∈ t.atoms, a.IsAtom)
    (h : t.build = some e) : reread e.text = some (t.normal.map exprTokens) :=
  readTree_spells (renders_build hatoms h).spells _ (Nat.lt_succ_self _)

/-- Films by their title, among them those with actors, or films whose year is known. -/
def soughtFilms : Tree Expr :=
  .any [.all [.atom (.equals (.propertyOf "film" "title") (.param "param0")),
      .all [.atom (.hasLabels "film" ["Movie"]),
        .atom (.existsIn [.find (.step (.bound "film") ⟨none, some "ACTED_IN", .left⟩
          (.bound "person")) none])]],
    .not (.atom (.isNull (.propertyOf "film" "year")))]

theorem soughtFilms_atoms : ∀ a ∈ soughtFilms.atoms, a.IsAtom := by
  intro a ha
  simp only [soughtFilms, Tree.atoms, Tree.atomsOf, List.append_nil, List.cons_append,
    List.nil_append, List.mem_cons, List.not_mem_nil, or_false] at ha
  rcases ha with rfl | rfl | rfl | rfl
  all_goals refine ⟨rfl, ?_, rfl⟩
  all_goals
    simp only [Expr.equals, Expr.propertyOf, Expr.IsLegible, Clause.AreLegible, Clause.find,
      Clause.IsLegible, Expr.OptionLegible, Pattern.IsLegible, Pattern.step, NodePattern.bound,
      NodePattern.IsLegible, EdgePattern.IsLegible]
    decide

/-- A conjunction in a conjunction beside a negation. -/
theorem soughtFilms_regroup :
    (∀ a ∈ soughtFilms.atoms, a.IsAtom) ∧
      ∃ e, soughtFilms.build = some e ∧
        e.text = "((film.title = $param0 AND film:Movie AND EXISTS \x7b\n" ++
          "    MATCH (film)<-[:ACTED_IN]-(person)\n" ++ "\x7d) OR NOT (film.year IS NULL))" ∧
        reread e.text = some (soughtFilms.normal.map exprTokens) :=
  ⟨soughtFilms_atoms, _, rfl, by decide, predicate_regroups soughtFilms_atoms rfl⟩

end Building

end GraphSelection.Reread
