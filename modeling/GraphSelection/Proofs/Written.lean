import GraphSelection.Document.Json

/-!
Where the text of a document can end up in a longer text. A text is followed from character to
character: a quote opens or closes a string, and outside strings a colon only stands right after
one. From outside, the text of a document leads outside again; from inside a string it never leads
out. So no text of a document ends in the text of another with a colon after a letter before it.
-/
namespace GraphSelection.Json

/-- Between two characters of a text. -/
inductive Spot where
  /-- Outside strings, right behind one or not. -/
  | outside (behind : Bool)
  | inside
  | escaped
  /-- Where no document leads. -/
  | nowhere

namespace Spot

def next : Spot → Char → Spot
  | .outside behind, c =>
      if c = '"' then .inside
      else if c = '\\' then .nowhere
      else if c = ':' then if behind then .outside false else .nowhere
      else .outside false
  | .inside, c => if c = '"' then .outside true else if c = '\\' then .escaped else .inside
  | .escaped, _ => .inside
  | .nowhere, _ => .nowhere

def after (p : Spot) (cs : List Char) : Spot := cs.foldl next p

@[simp] theorem after_nil (p : Spot) : p.after [] = p := rfl

@[simp] theorem after_cons (p : Spot) (c : Char) (cs : List Char) :
    p.after (c :: cs) = (p.next c).after cs := rfl

@[simp] theorem after_append (p : Spot) (cs ds : List Char) :
    p.after (cs ++ ds) = (p.after cs).after ds := List.foldl_append ..

@[simp] theorem after_nowhere (cs : List Char) : nowhere.after cs = nowhere := by
  induction cs with
  | nil => rfl
  | cons c rest ih => exact ih

end Spot

open Spot

/-- A text that leads from outside to outside, and out of no string. -/
structure Closed (cs : List Char) : Prop where
  outside : ∀ behind, ∃ behind', (Spot.outside behind).after cs = .outside behind'
  inside : Spot.inside.after cs = .inside ∨ Spot.inside.after cs = .nowhere

namespace Closed

variable {cs ds : List Char}

theorem nil : Closed [] := ⟨fun behind => ⟨behind, rfl⟩, .inl rfl⟩

theorem append (h : Closed cs) (h' : Closed ds) : Closed (cs ++ ds) := by
  constructor
  · intro behind
    obtain ⟨middle, hmiddle⟩ := h.outside behind
    obtain ⟨last, hlast⟩ := h'.outside middle
    exact ⟨last, by rw [after_append, hmiddle, hlast]⟩
  · rw [after_append]
    rcases h.inside with hin | hin
    · rw [hin]
      exact h'.inside
    · rw [hin, after_nowhere]
      exact .inr rfl

theorem single {c : Char} (hquote : c ≠ '"') (hslash : c ≠ '\\') (hcolon : c ≠ ':') :
    Closed [c] := by
  refine ⟨fun behind => ⟨false, ?_⟩, .inl ?_⟩ <;> simp [next, hquote, hslash, hcolon]

/-- Text without quotes, backslashes and colons. -/
theorem plain (h : ∀ c ∈ cs, c ≠ '"' ∧ c ≠ '\\' ∧ c ≠ ':') : Closed cs := by
  induction cs with
  | nil => exact nil
  | cons c rest ih =>
    obtain ⟨hquote, hslash, hcolon⟩ := h c List.mem_cons_self
    exact (single hquote hslash hcolon).append (ih fun d hd => h d (List.mem_cons_of_mem _ hd))

end Closed

section Strings

theorem hexChar_plain {n : Nat} (h : n < 16) : hexChar n ≠ '"' ∧ hexChar n ≠ '\\' := by
  have hall : ∀ n : Fin 16, hexChar n ≠ '"' ∧ hexChar n ≠ '\\' := by decide
  exact hall ⟨n, h⟩

/-- Escapes stay inside a string. -/
theorem inside_quoteChar (c : Char) : Spot.inside.after (quoteChar c) = .inside := by
  unfold quoteChar
  split
  all_goals first | rfl | skip
  rename_i hquote hslash _ _ _ _ _
  replace hquote : c ≠ '"' := hquote
  replace hslash : c ≠ '\\' := hslash
  split
  · rename_i hcontrol
    have hhigh : c.toNat / 16 < 16 := by omega
    have hlow : c.toNat % 16 < 16 := by omega
    simp [next, hexChar_plain hhigh, hexChar_plain hlow]
  · simp [next, hquote, hslash]

/-- Outside a string they lead nowhere or stay outside. -/
theorem outside_quoteChar (behind : Bool) (c : Char) :
    (∃ behind', (Spot.outside behind).after (quoteChar c) = .outside behind') ∨
      (Spot.outside behind).after (quoteChar c) = .nowhere := by
  unfold quoteChar
  split
  all_goals first | exact .inr rfl | skip
  rename_i hquote hslash _ _ _ _ _
  replace hquote : c ≠ '"' := hquote
  replace hslash : c ≠ '\\' := hslash
  split
  · exact .inr (by simp [next])
  · by_cases hcolon : c = ':'
    · subst hcolon
      cases behind
      · exact .inr rfl
      · exact .inl ⟨false, rfl⟩
    · exact .inl ⟨false, by simp [next, hquote, hslash, hcolon]⟩

theorem inside_quoted (cs : List Char) :
    Spot.inside.after (cs.flatMap quoteChar) = .inside := by
  induction cs with
  | nil => rfl
  | cons c rest ih => rw [List.flatMap_cons, after_append, inside_quoteChar, ih]

theorem outside_quoted (behind : Bool) (cs : List Char) :
    (∃ behind', (Spot.outside behind).after (cs.flatMap quoteChar) = .outside behind') ∨
      (Spot.outside behind).after (cs.flatMap quoteChar) = .nowhere := by
  induction cs generalizing behind with
  | nil => exact .inl ⟨behind, rfl⟩
  | cons c rest ih =>
    rw [List.flatMap_cons, after_append]
    rcases outside_quoteChar behind c with ⟨behind', h⟩ | h
    · rw [h]
      exact ih behind'
    · rw [h, after_nowhere]
      exact .inr rfl

theorem toList_quote (s : String) :
    (quote s).toList = '"' :: (s.toList.flatMap quoteChar ++ ['"']) := by
  simp [quote]

/-- A string leads right behind itself. -/
theorem behind_quote (behind : Bool) (s : String) :
    (Spot.outside behind).after (quote s).toList = .outside true := by
  rw [toList_quote, after_cons, after_append]
  simp only [next, ↓reduceIte, inside_quoted]
  rfl

theorem closed_quote (s : String) : Closed (quote s).toList := by
  refine ⟨fun behind => ⟨true, behind_quote behind s⟩, ?_⟩
  rw [toList_quote, after_cons, after_append]
  simp only [next, ↓reduceIte]
  rcases outside_quoted true s.toList with ⟨behind', h⟩ | h
  · rw [h]
    exact .inl rfl
  · rw [h]
    exact .inr rfl

/-- The key of a member, with its colon. -/
theorem closed_key (s : String) : Closed ((quote s).toList ++ [':']) := by
  refine ⟨fun behind => ⟨false, ?_⟩, ?_⟩
  · rw [after_append, behind_quote]
    rfl
  · rw [after_append]
    rcases (closed_quote s).inside with h | h
    · rw [h]
      exact .inl rfl
    · rw [h]
      exact .inr rfl

end Strings

section Numbers

/-- Text of digits, signs, points and marks of exponents. -/
def Numeral (cs : List Char) : Prop := ∀ c ∈ cs, c.isDigit ∨ c ∈ ['+', '-', '.', 'e']

instance (cs : List Char) : Decidable (Numeral cs) :=
  List.decidableBAll _ cs

theorem numeral_append {cs ds : List Char} : Numeral (cs ++ ds) ↔ Numeral cs ∧ Numeral ds := by
  simp only [Numeral, List.mem_append, or_imp, forall_and]

theorem numeral_subset {cs ds : List Char} (h : Numeral ds) (hsub : cs ⊆ ds) : Numeral cs :=
  fun c hc => h c (hsub hc)

theorem numeral_digits (n : Nat) : Numeral (Nat.toDigits 10 n) :=
  fun _ hc => .inl (Nat.isDigit_of_mem_toDigits (by decide) (by decide) hc)

theorem numeral_int (n : Int) : Numeral (toString n).toList := by
  rw [Int.toString_eq_repr, Int.repr_eq_if]
  split
  · rw [Nat.toList_repr]
    exact numeral_digits _
  · rw [String.toList_append, Nat.toList_repr]
    exact numeral_append.mpr ⟨by decide, numeral_digits _⟩

theorem numeral_zeros (n : Nat) : Numeral (Decimal.zeros n).toList := by
  rw [Decimal.zeros, String.toList_ofList]
  exact fun c hc => .inl (by rw [List.eq_of_mem_replicate hc]; decide)

theorem numeral_positional {digits : List Char} (h : Numeral digits) (lead : Int) :
    Numeral (Decimal.positional digits lead).toList := by
  unfold Decimal.positional
  split
  · simp only [String.toList_append, String.toList_ofList, numeral_append]
    exact ⟨⟨by decide, numeral_zeros _⟩, h⟩
  · simp only
    split
    · simp only [String.toList_append, String.toList_ofList, numeral_append]
      exact ⟨⟨h, numeral_zeros _⟩, by decide⟩
    · simp only [String.toList_append, String.toList_ofList, numeral_append]
      exact ⟨⟨numeral_subset h (List.take_subset _ _), by decide⟩,
        numeral_subset h (List.drop_subset _ _)⟩

theorem numeral_exponentText (plus : Bool) (lead : Int) :
    Numeral (Decimal.exponentText plus lead).toList := by
  unfold Decimal.exponentText
  rw [String.toList_append, numeral_append]
  refine ⟨?_, numeral_int lead⟩
  split <;> decide

theorem numeral_scientific {digits : List Char} (h : Numeral digits) (plus : Bool) (lead : Int) :
    Numeral (Decimal.scientific plus digits lead).toList := by
  unfold Decimal.scientific
  split
  · decide
  · rw [String.toList_append, String.toList_ofList, numeral_append]
    exact ⟨h, numeral_exponentText plus lead⟩
  · rename_i d rest _
    simp only [String.toList_append, String.toList_ofList, numeral_append]
    have hall : Numeral [d] ∧ Numeral rest := numeral_append.mp h
    exact ⟨⟨⟨hall.1, by decide⟩, hall.2⟩, numeral_exponentText plus lead⟩

theorem numeral_magnitude (layout : Decimal.Layout) (b : Decimal.Binary) :
    Numeral (layout.magnitude b).toList := by
  unfold Decimal.Layout.magnitude
  simp only
  split
  · exact numeral_positional (numeral_digits _) _
  · exact numeral_scientific (numeral_digits _) _ _

theorem numeral_number (layout : Decimal.Layout) (x : Float) :
    Numeral (layout.text x).toList := by
  have hsign : ∀ p : Prop, ∀ _ : Decidable p, Numeral (if p then "-" else "").toList := by
    intro p _
    split <;> decide
  unfold Decimal.Layout.text
  simp only
  split
  · rw [String.toList_append, numeral_append]
    exact ⟨hsign _ _, by decide⟩
  · rw [String.toList_append, numeral_append]
    exact ⟨hsign _ _, numeral_magnitude _ _⟩

theorem closed_numeral {cs : List Char} (h : Numeral cs) : Closed cs := by
  refine .plain fun c hc => ?_
  refine ⟨?_, ?_, ?_⟩ <;> rintro rfl <;> exact absurd (h _ hc) (by decide)

end Numbers

section Documents

theorem closed_word {s : String} (h : s.toList.all Char.isAlpha = true) : Closed s.toList := by
  refine .plain fun c hc => ?_
  have hletter := List.all_eq_true.mp h c hc
  refine ⟨?_, ?_, ?_⟩ <;> rintro rfl <;> exact absurd hletter (by decide)

theorem closed_intercalate {texts : List String} (h : ∀ s ∈ texts, Closed s.toList) :
    Closed (String.intercalate "," texts).toList := by
  induction texts with
  | nil => exact .nil
  | cons s rest ih =>
    have hs := h s List.mem_cons_self
    have hrest := ih fun t ht => h t (List.mem_cons_of_mem _ ht)
    cases rest with
    | nil => simpa using hs
    | cons t more =>
      rw [String.intercalate_cons_cons, String.toList_append, String.toList_append]
      exact (hs.append (.single (by decide) (by decide) (by decide))).append hrest

/-- A list or an object, between its brackets. -/
theorem closed_group (opening closing : Char) {texts : List String}
    (hopening : opening ≠ '"' ∧ opening ≠ '\\' ∧ opening ≠ ':')
    (hclosing : closing ≠ '"' ∧ closing ≠ '\\' ∧ closing ≠ ':')
    (h : ∀ s ∈ texts, Closed s.toList) :
    Closed (opening :: ((String.intercalate "," texts).toList ++ [closing])) :=
  (Closed.single hopening.1 hopening.2.1 hopening.2.2).append
    ((closed_intercalate h).append (.single hclosing.1 hclosing.2.1 hclosing.2.2))

mutual
theorem closed_compact (v : Doc) : Closed (compact v).toList := by
  match v with
  | .null => exact closed_word (by decide)
  | .bool true => exact closed_word (by decide)
  | .bool false => exact closed_word (by decide)
  | .int n => exact closed_numeral (numeral_int n)
  | .float x => exact closed_numeral (numeral_number _ x)
  | .text s => exact closed_quote s
  | .plain s => exact closed_quote s
  | .list items =>
    have hitems := closed_group '[' ']' (by decide) (by decide)
      (closed_compactItems items)
    simpa [compact] using hitems
  | .record members =>
    have hmembers := closed_group '\x7b' '\x7d' (by decide) (by decide)
      (closed_compactMembers members)
    simpa [compact] using hmembers
theorem closed_compactItems (items : List Doc) : ∀ s ∈ compactItems items, Closed s.toList := by
  match items with
  | [] => exact fun _ h => absurd h List.not_mem_nil
  | item :: rest =>
    intro s hs
    rcases List.mem_cons.mp hs with rfl | hs
    · exact closed_compact item
    · exact closed_compactItems rest s hs
theorem closed_compactMembers (members : List (String × Doc)) :
    ∀ s ∈ compactMembers members, Closed s.toList := by
  match members with
  | [] => exact fun _ h => absurd h List.not_mem_nil
  | (key, value) :: rest =>
    intro s hs
    rcases List.mem_cons.mp hs with rfl | hs
    · rw [String.toList_append, String.toList_append]
      exact (closed_key key).append (closed_compact value)
    · exact closed_compactMembers rest s hs
end

theorem head_compact_record (members : Doc.Members) :
    (compact (.record members)).toList.head? = some '\x7b' := by
  simp [compact]

/-- Only objects begin with a brace. -/
theorem head_compact_ne {v : Doc} (h : ∀ members, v ≠ .record members) :
    (compact v).toList.head? ≠ some '\x7b' := by
  have hnumeral : ∀ {cs : List Char}, Numeral cs → cs.head? ≠ some '\x7b' := by
    intro cs hcs hhead
    exact absurd (hcs _ (List.mem_of_head? hhead)) (by decide)
  cases v with
  | null => decide
  | bool b => cases b <;> decide
  | int n => exact hnumeral (numeral_int n)
  | float x => exact hnumeral (numeral_number _ x)
  | text s => simp [compact, toList_quote]
  | plain s => simp [compact, toList_quote]
  | list items => simp [compact]
  | record members => exact absurd rfl (h members)

end Documents

section Marks

/-- A text that ends in a letter and a colon. -/
def Marked (cs : List Char) : Prop :=
  ∃ start letter, Char.isAlpha letter ∧ cs = start ++ [letter, ':']

/-- Behind such a mark no document is open any more. -/
theorem after_marked {cs : List Char} (h : Marked cs) (p : Spot) :
    p.after cs = .inside ∨ p.after cs = .nowhere := by
  obtain ⟨start, letter, hletter, rfl⟩ := h
  have hquote : letter ≠ '"' := by rintro rfl; exact absurd hletter (by decide)
  have hslash : letter ≠ '\\' := by rintro rfl; exact absurd hletter (by decide)
  have hcolon : letter ≠ ':' := by rintro rfl; exact absurd hletter (by decide)
  rw [after_append]
  cases p.after start <;> simp [next, hquote, hslash, hcolon]

/-- What is left of a marked text is marked, or its last colon. -/
theorem marked_suffix {cs ds : List Char} (h : Marked (cs ++ ds)) (hne : ds ≠ []) :
    Marked ds ∨ ds = [':'] := by
  obtain ⟨start, letter, hletter, heq⟩ := h
  rcases List.append_eq_append_iff.mp heq with ⟨rest, rfl, rfl⟩ | ⟨rest, rfl, hrest⟩
  · exact .inl ⟨rest, letter, hletter, rfl⟩
  · match rest, hrest with
    | [], hrest => exact .inl ⟨[], letter, hletter, by simpa using hrest.symm⟩
    | [_], hrest =>
      simp only [List.cons_append, List.nil_append, List.cons.injEq] at hrest
      exact .inr hrest.2.symm
    | _ :: _ :: more, hrest =>
      simp only [List.cons_append, List.cons.injEq, List.nil_eq, List.append_eq_nil_iff] at hrest
      exact absurd hrest.2.2.2 hne

/-- Such a text does not stand inside a document before the end of another. -/
theorem not_closed_of_marked {cs : List Char} {v : Doc} (h : Marked cs ∨ cs = [':']) :
    ¬ Closed (cs ++ (compact v).toList) := by
  intro hclosed
  have hafter : (Spot.outside false).after cs = .inside ∨
      (Spot.outside false).after cs = .nowhere := by
    rcases h with h | rfl
    · exact after_marked h _
    · exact .inr rfl
  obtain ⟨behind, houtside⟩ := hclosed.outside false
  rw [after_append] at houtside
  rcases hafter with hin | hin
  · rw [hin] at houtside
    rcases (closed_compact v).inside with hv | hv <;> rw [hv] at houtside <;> cases houtside
  · rw [hin, after_nowhere] at houtside
    cases houtside

/-- Marked texts before two documents are told apart from the documents. -/
theorem marked_unique {cs ds : List Char} {v w : Doc} (hcs : Marked cs) (hds : Marked ds)
    (h : cs ++ (compact v).toList = ds ++ (compact w).toList) :
    cs = ds ∧ (compact v).toList = (compact w).toList := by
  rcases List.append_eq_append_iff.mp h with ⟨rest, rfl, hrest⟩ | ⟨rest, rfl, hrest⟩
  · by_cases hne : rest = []
    · subst hne
      exact ⟨(List.append_nil _).symm, hrest⟩
    · exact absurd (hrest ▸ closed_compact v) (not_closed_of_marked (marked_suffix hds hne))
  · by_cases hne : rest = []
    · subst hne
      exact ⟨List.append_nil _, hrest.symm⟩
    · exact absurd (hrest ▸ closed_compact w) (not_closed_of_marked (marked_suffix hcs hne))

end Marks

section Wholes

/-- Text of digits and signs. -/
def Whole (cs : List Char) : Prop := ∀ c ∈ cs, c.isDigit ∨ c = '-'

theorem whole_digits (n : Nat) : Whole (Nat.toDigits 10 n) :=
  fun _ hc => .inl (Nat.isDigit_of_mem_toDigits (by decide) (by decide) hc)

theorem whole_int (n : Int) : Whole (toString n).toList := by
  rw [Int.toString_eq_repr, Int.repr_eq_if]
  split
  · rw [Nat.toList_repr]
    exact whole_digits _
  · rw [String.toList_append, Nat.toList_repr]
    intro c hc
    rcases List.mem_append.mp hc with hc | hc
    · exact .inr (List.mem_singleton.mp hc)
    · exact whole_digits _ c hc

/-- The text of a double has a point or an exponent. -/
theorem pointed_number (layout : Decimal.Layout) (x : Float) :
    '.' ∈ (layout.text x).toList ∨ 'e' ∈ (layout.text x).toList := by
  have hpositional : ∀ digits lead, '.' ∈ (Decimal.positional digits lead).toList := by
    intro digits lead
    unfold Decimal.positional
    simp only
    split
    · simp
    · split <;> simp
  have hexponent : ∀ plus lead, 'e' ∈ (Decimal.exponentText plus lead).toList := by
    intro plus lead
    unfold Decimal.exponentText
    split <;> simp
  have hscientific : ∀ plus digits lead,
      '.' ∈ (Decimal.scientific plus digits lead).toList ∨
        'e' ∈ (Decimal.scientific plus digits lead).toList := by
    intro plus digits lead
    unfold Decimal.scientific
    split
    · exact .inl (by decide)
    · exact .inr (by simp [hexponent])
    · exact .inr (by simp [hexponent])
  have hmagnitude : ∀ b, '.' ∈ (layout.magnitude b).toList ∨ 'e' ∈ (layout.magnitude b).toList := by
    intro b
    unfold Decimal.Layout.magnitude
    simp only
    split
    · exact .inl (hpositional _ _)
    · exact hscientific _ _ _
  unfold Decimal.Layout.text
  simp only
  split
  · exact .inl (by simp)
  · rename_i b _
    rcases hmagnitude b with h | h
    · exact .inl (by simp [h])
    · exact .inr (by simp [h])

/-- Only a whole number is written as one. -/
theorem int_of_compact {v : Doc} {n : Int} (h : compact v = compact (.int n)) :
    ∃ m, v = .int m := by
  have hwhole : Whole (compact v).toList := h ▸ whole_int n
  cases v with
  | null => exact absurd (hwhole 'n' (by decide)) (by decide)
  | bool b => cases b <;> exact absurd (hwhole 'e' (by decide)) (by decide)
  | int m => exact ⟨m, rfl⟩
  | float x =>
    rcases pointed_number Decimal.documentNumber x with hx | hx
    · exact absurd (hwhole _ hx) (by decide)
    · exact absurd (hwhole _ hx) (by decide)
  | text s => exact absurd (hwhole '"' (by simp [compact, toList_quote])) (by decide)
  | plain s => exact absurd (hwhole '"' (by simp [compact, toList_quote])) (by decide)
  | list items => exact absurd (hwhole '[' (by simp [compact])) (by decide)
  | record members => exact absurd (hwhole '\x7b' (by simp [compact])) (by decide)

end Wholes

end GraphSelection.Json
