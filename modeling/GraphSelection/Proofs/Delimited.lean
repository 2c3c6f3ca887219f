import GraphSelection.Cypher.Text

/-!
Names and string literals are delimited by themselves. A reader of identifiers and a reader of
literals, which know nothing of how the texts were written, get back what was written and leave what
follows, so no name and no literal is over before its last character and two of them differ in
their texts.
-/
namespace GraphSelection.Text

/-- One character more of what is read. -/
def gain (c : Char) (r : List Char × List Char) : List Char × List Char := (c :: r.1, r.2)

/-- What stands up to the closing back-quote, where two back-quotes stand for one, and what is
left. -/
def readQuoted : List Char → Option (List Char × List Char)
  | '\x60' :: '\x60' :: rest => (readQuoted rest).map (gain '\x60')
  | '\x60' :: rest => some ([], rest)
  | c :: rest => (readQuoted rest).map (gain c)
  | [] => none

/-- An identifier at the beginning of a text, and what is left of the text. -/
def readIdentifier : List Char → Option (List Char × List Char)
  | [] => none
  | c :: rest =>
      if c = '\x60' then readQuoted rest
      else if isWordStart c then
        some (c :: rest.takeWhile isWordPart, rest.dropWhile isWordPart)
      else none

/-- What a character stands for behind a backslash. -/
def unescaped? : Char → Option Char
  | '\\' => some '\\'
  | '"' => some '"'
  | 'n' => some '\n'
  | _ => none

/-- What stands up to the closing quote, and what is left. -/
def readEscaped : List Char → Option (List Char × List Char)
  | '"' :: rest => some ([], rest)
  | '\\' :: c :: rest => (unescaped? c).bind fun d => (readEscaped rest).map (gain d)
  | ['\\'] => none
  | c :: rest => (readEscaped rest).map (gain c)
  | [] => none

/-- A literal at the beginning of a text, and what is left of the text. -/
def readLiteral : List Char → Option (List Char × List Char)
  | '"' :: rest => readEscaped rest
  | _ => none

/-- The text does not go on with what could belong to an identifier before it. -/
def Apart (t : String) : Prop := ∀ c ∈ t.toList.head?, isWordPart c = false ∧ c ≠ '\x60'

-- The instance is named, for a search may find the one that goes through all characters.
instance (t : String) : Decidable (Apart t) :=
  show Decidable (∀ c ∈ t.toList.head?, isWordPart c = false ∧ c ≠ '\x60') from
    Option.decidableForallMem t.toList.head?

section Names

theorem readQuoted_end {rest : List Char} (h : ∀ c ∈ rest.head?, c ≠ '\x60') :
    readQuoted ('\x60' :: rest) = some ([], rest) := by
  cases rest with
  | nil => rfl
  | cons c more =>
    have hc : c ≠ '\x60' := h c rfl
    rw [readQuoted]
    exact fun _ hcons => hc (List.cons.inj hcons).1

theorem readQuoted_plain {c : Char} (h : c ≠ '\x60') (rest : List Char) :
    readQuoted (c :: rest) = (readQuoted rest).map (gain c) := by
  rw [readQuoted]
  · exact fun _ hc => absurd hc h
  · exact fun hc => absurd hc h

theorem readQuoted_doubled (cs : List Char) {rest : List Char} (h : ∀ c ∈ rest.head?, c ≠ '\x60') :
    readQuoted (doubleBackquotes cs ++ '\x60' :: rest) = some (cs, rest) := by
  induction cs with
  | nil => exact readQuoted_end h
  | cons c more ih =>
    rw [doubleBackquotes]
    split
    next hc =>
      rw [List.cons_append, List.cons_append, readQuoted, ih, hc]
      rfl
    next hc =>
      rw [List.cons_append, readQuoted_plain hc, ih]
      rfl

theorem isWordStart_ne {c : Char} (h : isWordStart c = true) : c ≠ '\x60' := by
  rintro rfl
  exact absurd h (by decide)

theorem takeWhile_word {cs rest : List Char} (h : ∀ c ∈ cs, isWordPart c = true)
    (hrest : ∀ c ∈ rest.head?, isWordPart c = false) :
    (cs ++ rest).takeWhile isWordPart = cs ∧ (cs ++ rest).dropWhile isWordPart = rest := by
  have hstop : rest.takeWhile isWordPart = [] ∧ rest.dropWhile isWordPart = rest := by
    cases rest with
    | nil => exact ⟨rfl, rfl⟩
    | cons c more =>
      have hc : isWordPart c = false := hrest c rfl
      exact ⟨List.takeWhile_cons_of_neg (by simp [hc]), List.dropWhile_cons_of_neg (by simp [hc])⟩
  rw [List.takeWhile_append_of_pos h, List.dropWhile_append_of_pos h, hstop.1, hstop.2,
    List.append_nil]
  exact ⟨rfl, rfl⟩

theorem readIdentifier_name (s : String) {t : String} (h : Apart t) :
    readIdentifier (name s ++ t).toList = some (s.toList, t.toList) := by
  rw [name, String.toList_append, String.toList_ofList, nameChars]
  split
  next hword =>
    generalize s.toList = cs at hword
    cases cs with
    | nil => cases hword
    | cons c rest =>
      rw [isWord, Bool.and_eq_true, List.all_eq_true] at hword
      obtain ⟨htake, hdrop⟩ := takeWhile_word hword.2 fun d hd => (h d hd).1
      rw [List.cons_append, readIdentifier, if_neg (isWordStart_ne hword.1), if_pos hword.1, htake,
        hdrop]
  next =>
    rw [List.cons_append, List.append_assoc, readIdentifier, if_pos rfl]
    exact readQuoted_doubled s.toList fun c hc => (h c hc).2

end Names

section Literals

theorem readEscaped_plain {c : Char} (hescape : c ≠ '\\') (hquote : c ≠ '"') (rest : List Char) :
    readEscaped (c :: rest) = (readEscaped rest).map (gain c) := by
  rw [readEscaped]
  · exact fun hc => absurd hc hquote
  · exact fun _ _ hc => absurd hc hescape
  · exact fun hc => absurd hc hescape

theorem readEscaped_escaped (cs rest : List Char) :
    readEscaped (escapeChars cs ++ '"' :: rest) = some (cs, rest) := by
  induction cs with
  | nil => rfl
  | cons c more ih =>
    rw [escapeChars]
    split
    next hescape =>
      rw [List.cons_append, List.cons_append, readEscaped, ih, hescape]
      rfl
    next hescape =>
      split
      next hquote =>
        rw [List.cons_append, List.cons_append, readEscaped, ih, hquote]
        rfl
      next hquote =>
        split
        next hfeed =>
          rw [List.cons_append, List.cons_append, readEscaped, ih, hfeed]
          rfl
        next =>
          rw [List.cons_append, readEscaped_plain hescape hquote, ih]
          rfl

theorem readLiteral_literal (s t : String) :
    readLiteral (literal s ++ t).toList = some (s.toList, t.toList) := by
  rw [literal, String.toList_append, String.toList_ofList, literalChars, List.cons_append,
    List.append_assoc]
  exact readEscaped_escaped s.toList t.toList

/-- Every occurrence of a character gives way to some characters. -/
def replaced (c : Char) (replacement cs : List Char) : List Char :=
  cs.flatMap fun d => if d = c then replacement else [d]

/-- Backslashes are replaced first, so those of the other escapes are not replaced again. -/
theorem escapeChars_eq_replaced (cs : List Char) :
    escapeChars cs =
      replaced '\n' ['\\', 'n'] (replaced '"' ['\\', '"'] (replaced '\\' ['\\', '\\'] cs)) := by
  induction cs with
  | nil => rfl
  | cons c rest ih =>
    simp only [replaced, List.flatMap_cons, List.flatMap_append] at ih ⊢
    rw [escapeChars, ih]
    split
    next => simp
    next =>
      split
      next hquote => simp [hquote]
      next hquote =>
        split
        next hfeed => simp [hfeed]
        next hfeed => simp [hquote, hfeed]

example : escapeChars ['\n'] ≠
    replaced '\\' ['\\', '\\'] (replaced '"' ['\\', '"'] (replaced '\n' ['\\', 'n'] ['\n'])) := by
  decide

end Literals

/-- Texts that are read as the same value and leave the same are texts of one value. -/
theorem eq_of_read {s s' t t' : String} {read : List Char → Option (List Char × List Char)}
    {cs cs' : List Char} (heq : cs = cs') (h : read cs = some (s.toList, t.toList))
    (h' : read cs' = some (s'.toList, t'.toList)) : s = s' ∧ t = t' := by
  rw [heq, h'] at h
  obtain ⟨hs, ht⟩ := Prod.mk.inj (Option.some.inj h)
  exact ⟨(String.toList_injective hs).symm, (String.toList_injective ht).symm⟩

/-- A name with a text behind it that cannot belong to it is read as one identifier, which stands
for the name, and a literal with any text behind it as one literal, which stands for the string;
what is left is the text behind. So what is written tells the name or the string and where it
ends. -/
theorem quotes_delimited (s t u : String) (h : Apart t) :
    readIdentifier (name s ++ t).toList = some (s.toList, t.toList) ∧
      readLiteral ((Cypher.Literal.string s).text ++ u).toList = some (s.toList, u.toList) ∧
      (∀ s' t', Apart t' → name s ++ t = name s' ++ t' → s = s' ∧ t = t') ∧
      ∀ s' u', (Cypher.Literal.string s).text ++ u = (Cypher.Literal.string s').text ++ u' →
        s = s' ∧ u = u' := by
  refine ⟨readIdentifier_name s h, readLiteral_literal s u, ?_, ?_⟩
  · intro s' t' h' heq
    exact eq_of_read (congrArg String.toList heq) (readIdentifier_name s h)
      (readIdentifier_name s' h')
  · intro s' u' heq
    exact eq_of_read (congrArg String.toList heq) (readLiteral_literal s u)
      (readLiteral_literal s' u')

/-- A string that ends in a quote, a backslash and a back-quote. -/
theorem crooked_delimited :
    Apart ": 1" ∧
      readIdentifier (name "x\"\\\x60" ++ ": 1").toList = some ("x\"\\\x60".toList, ": 1".toList) ∧
      readLiteral ((Cypher.Literal.string "x\"\\\x60").text ++ "\"").toList =
        some ("x\"\\\x60".toList, "\"".toList) := by
  have hapart : Apart ": 1" := by decide
  obtain ⟨hname, hliteral, -, -⟩ := quotes_delimited "x\"\\\x60" ": 1" "\"" hapart
  exact ⟨hapart, hname, hliteral⟩

end GraphSelection.Text
