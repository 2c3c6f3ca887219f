import GraphSelection.Cypher.Text
import GraphSelection.Proofs.Reread.Indented
import GraphSelection.Proofs.Written

/-!
Texts put together from parts. Where a part ends with a separator or the next one begins with one,
the tokens of both are those of the whole, so brackets that each part closes are closed in the whole
and no junction comes to stand outside of them.
-/
namespace GraphSelection.Reread

open Cypher

section Parts

/-- The text leaves no quote or comment open, and this holds of its tokens. -/
structure IsPart (P : List Token → Prop) (s : String) : Prop where
  isRest : (Pending.run .blank s.toList).2.IsRest
  holds : P (tokens s.toList)

instance (P : List Token → Prop) [DecidablePred P] (s : String) : Decidable (IsPart P s) :=
  decidable_of_iff ((Pending.run .blank s.toList).2.IsRest ∧ P (tokens s.toList))
    ⟨fun h => ⟨h.1, h.2⟩, fun h => ⟨h.1, h.2⟩⟩

/-- The text ends behind its last token. -/
def Stops (s : String) : Prop := (Pending.run .blank s.toList).2 = .blank

instance (s : String) : Decidable (Stops s) :=
  inferInstanceAs (Decidable ((Pending.run .blank s.toList).2 = .blank))

/-- The text has nothing in front that could belong to a token before it. -/
def Starts (s : String) : Prop := ∀ c ∈ s.toList.head?, IsSeparator c

-- The instance is named, for a search may find the one that goes through all characters.
instance (s : String) : Decidable (Starts s) :=
  show Decidable (∀ c ∈ s.toList.head?, IsSeparator c) from
    Option.decidableForallMem s.toList.head?

theorem Starts.append {m : String} (h : Starts m) (hne : m.toList ≠ []) (s : String) :
    Starts (m ++ s) := by
  obtain ⟨c, rest, hchars⟩ := List.exists_cons_of_ne_nil hne
  rw [Starts, hchars] at h
  rw [Starts, String.toList_append, hchars]
  exact h

theorem tokens_append {cs ds : List Char} (hrest : (Pending.run .blank cs).2.IsRest)
    (hmeet : (Pending.run .blank cs).2 = .blank ∨ ∀ c ∈ ds.head?, IsSeparator c) :
    (Pending.run .blank (cs ++ ds)).2.IsRest = (Pending.run .blank ds).2.IsRest ∧
      tokens (cs ++ ds) = tokens cs ++ tokens ds := by
  simp only [tokens, Pending.run_append]
  cases ds with
  | nil =>
    refine ⟨eq_true hrest, ?_⟩
    simp [Pending.run, Pending.rest]
  | cons c more =>
    rcases hmeet with hstops | hstarts
    · rw [hstops]
      exact ⟨rfl, by rw [Pending.rest, List.append_nil, List.append_assoc]⟩
    · have hc : IsSeparator c := hstarts c rfl
      have hfirst : Pending.step .blank c = (separatorTokens c, .blank) :=
        step_separator (p := .blank) trivial hc
      rw [Pending.run, Pending.run, step_separator hrest hc, hfirst]
      exact ⟨rfl, by simp only [List.append_assoc]⟩

variable {P Q R : List Token → Prop} {s t m : String}

theorem Reads.isPart {ts : List Token} (h : Reads s.toList ts) (hP : P ts) : IsPart P s :=
  ⟨h.isRest, h.tokens ▸ hP⟩

theorem IsPart.mono (h : IsPart P s) (hPQ : ∀ {ts}, P ts → Q ts) : IsPart Q s :=
  ⟨h.isRest, hPQ h.holds⟩

theorem IsPart.tokens_append (h : IsPart P s) (hmeet : Stops s ∨ Starts t) :
    tokens (s ++ t).toList = tokens s.toList ++ tokens t.toList := by
  rw [String.toList_append]
  exact (Reread.tokens_append h.isRest hmeet).2

theorem IsPart.append (h : IsPart P s) (h' : IsPart Q t) (hmeet : Stops s ∨ Starts t)
    (hjoin : ∀ {ts us}, P ts → Q us → R (ts ++ us)) : IsPart R (s ++ t) := by
  refine ⟨?_, ?_⟩
  · rw [String.toList_append, (Reread.tokens_append h.isRest hmeet).1]
    exact h'.isRest
  · rw [h.tokens_append hmeet]
    exact hjoin h.holds h'.holds

theorem Stops.append (h : Stops s) (h' : Stops t) : Stops (s ++ t) := by
  rw [Stops, String.toList_append, Pending.run_append, h]
  exact h'

/-- A text between two parts. -/
structure IsLink (P : List Token → Prop) (m : String) : Prop where
  holds : P (tokens m.toList)
  nonempty : m.toList ≠ []
  starts : Starts m
  stops : Stops m

instance (P : List Token → Prop) [DecidablePred P] (m : String) : Decidable (IsLink P m) :=
  decidable_of_iff (P (tokens m.toList) ∧ m.toList ≠ [] ∧ Starts m ∧ Stops m)
    ⟨fun h => ⟨h.1, h.2.1, h.2.2.1, h.2.2.2⟩, fun h => ⟨h.1, h.2, h.3, h.4⟩⟩

theorem Stops.isRest (h : Stops m) : (Pending.run .blank m.toList).2.IsRest := by
  rw [show (Pending.run .blank m.toList).2 = .blank from h]
  trivial

theorem IsLink.closed (h : IsLink Neutral m) : IsLink Closed m :=
  ⟨h.holds.closed, h.nonempty, h.starts, h.stops⟩

theorem IsLink.isPart (h : IsLink P m) : IsPart P m := ⟨h.stops.isRest, h.holds⟩

theorem IsLink.stops_append (hm : IsLink P m) (h : IsPart Q s) : Stops (s ++ m) := by
  obtain ⟨c, rest, hchars⟩ := List.exists_cons_of_ne_nil hm.nonempty
  have hstarts := hm.starts
  have hstops := hm.stops
  rw [Starts, hchars] at hstarts
  rw [Stops, hchars, Pending.run, step_separator (p := .blank) trivial (hstarts c rfl)] at hstops
  rw [Stops, String.toList_append, hchars, Pending.run_append, Pending.run,
    step_separator h.isRest (hstarts c rfl)]
  exact hstops

theorem IsLink.tokens_append (hm : IsLink P m) (h : IsPart Q s) (t : String) :
    tokens (s ++ m ++ t).toList = tokens s.toList ++ tokens m.toList ++ tokens t.toList := by
  have hfront : IsPart (fun _ => True) (s ++ m) :=
    h.append hm.isPart (.inr hm.starts) fun _ _ => trivial
  rw [hfront.tokens_append (.inl (hm.stops_append h)), h.tokens_append (.inr hm.starts)]

theorem IsPart.link (hjoin : ∀ {ts us}, P ts → P us → P (ts ++ us)) (h : IsPart P s)
    (hm : IsLink P m) (h' : IsPart P t) : IsPart P (s ++ m ++ t) :=
  (h.append hm.isPart (.inr hm.starts) hjoin).append h' (.inl (hm.stops_append h)) hjoin

theorem isPart_empty (h : P []) : IsPart P "" := ⟨trivial, h⟩

theorem isPart_intercalate (hnil : P []) (hjoin : ∀ {ts us}, P ts → P us → P (ts ++ us))
    (hm : IsLink P m) {texts : List String} (h : ∀ s ∈ texts, IsPart P s) :
    IsPart P (String.intercalate m texts) := by
  induction texts with
  | nil => exact isPart_empty hnil
  | cons s rest ih =>
    rw [List.forall_mem_cons] at h
    cases rest with
    | nil => exact h.1
    | cons second more =>
      rw [String.intercalate_cons_cons]
      exact h.1.link hjoin hm (ih h.2)

theorem isPart_commas {texts : List String} (h : ∀ s ∈ texts, IsPart Closed s) :
    IsPart Closed (commas texts) :=
  isPart_intercalate closed_nil Closed.append (by decide : IsLink Neutral ", ").closed h

/-- A text that ends with an open bracket. -/
def IsOpening (s : String) : Prop := IsPart Opens s ∧ Stops s

instance (s : String) : Decidable (IsOpening s) := inferInstanceAs (Decidable (_ ∧ _))

/-- A text that starts with the bracket that is still to be closed. -/
def IsClosing (s : String) : Prop := IsPart Closes s ∧ Starts s

instance (s : String) : Decidable (IsClosing s) := inferInstanceAs (Decidable (_ ∧ _))

/-- Nothing is seen from the outside of what stands in brackets. -/
theorem IsPart.enclosed {opening closing : String} (h : IsPart Closed s) (ho : IsOpening opening)
    (hc : IsClosing closing) : IsPart Neutral (opening ++ s ++ closing) := by
  have hfront : IsPart (fun ts => ∃ us vs, Opens us ∧ Closed vs ∧ ts = us ++ vs) (opening ++ s) :=
    ho.1.append h (.inl ho.2) fun hus hvs => ⟨_, _, hus, hvs, rfl⟩
  refine hfront.append hc.1 (.inr hc.2) ?_
  rintro _ ws ⟨us, vs, hus, hvs, rfl⟩ hws
  exact hvs.enclosed hus hws

theorem Neutral.opens {ts us : List Token} (h : Neutral ts) (h' : Opens us) :
    Opens (ts ++ us) := by
  refine ⟨passes_append.mpr ⟨h.1, ?_⟩, ?_⟩
  · rw [h.2]
    exact h'.1
  · rw [after_append, h.2]
    exact h'.2

theorem IsPart.opening (h : IsPart Neutral s) (hm : IsLink Opens m) : IsOpening (s ++ m) :=
  ⟨h.append hm.isPart (.inr hm.starts) Neutral.opens, hm.stops_append h⟩

end Parts

section Lines

variable {s t : String}

theorem IsPart.endsLine (h : IsPart Closed s) : EndsLine s := by
  have hrun : Pending.run .blank (s.toList ++ ['\n']) = (tokens s.toList, .blank) := by
    have hblank : separatorTokens '\n' = [] := by decide
    rw [Pending.run_append, Pending.run, step_separator h.isRest (by decide), hblank]
    simp only [Pending.run, List.append_nil, tokens]
  exact ⟨by rw [hrun], by rw [hrun]; exact h.holds⟩

theorem EndsLine.isPart (h : EndsLine s) : IsPart Closed (s ++ "\n") ∧ Stops (s ++ "\n") := by
  have hchars : (s ++ "\n").toList = s.toList ++ ['\n'] := String.toList_append
  have hstops : Stops (s ++ "\n") := by
    rw [Stops, hchars]
    exact h.stops
  refine ⟨⟨hstops.isRest, ?_⟩, hstops⟩
  rw [hchars, tokens, h.stops, Pending.rest, List.append_nil]
  exact h.closed

/-- Lines are read one by one. -/
theorem EndsLine.join (h : EndsLine s) (h' : EndsLine t) : EndsLine (s ++ "\n" ++ t) := by
  have hchars : (s ++ "\n" ++ t).toList ++ ['\n'] =
      (s.toList ++ ['\n']) ++ (t.toList ++ ['\n']) := by
    rw [String.toList_append, String.toList_append, List.append_assoc]
    rfl
  constructor
  · rw [hchars, Pending.run_append, h.stops]
    exact h'.stops
  · rw [hchars, Pending.run_append, h.stops]
    exact h.closed.append h'.closed

theorem endsLine_intercalate {texts : List String} (h : ∀ s ∈ texts, EndsLine s) :
    EndsLine (String.intercalate "\n" texts) := by
  induction texts with
  | nil => exact (isPart_empty closed_nil).endsLine
  | cons s rest ih =>
    rw [List.forall_mem_cons] at h
    cases rest with
    | nil => exact h.1
    | cons second more =>
      rw [String.intercalate_cons_cons]
      exact h.1.join (ih h.2)

/-- An indented block stands in its braces. -/
theorem EndsLine.block (h : EndsLine s) {keyword : String} (hkeyword : IsPart Neutral keyword) :
    IsPart Neutral (blockText keyword s) := by
  have hopening : IsOpening (keyword ++ " \x7b\n") := hkeyword.opening (by decide)
  have hline := h.indent.isPart.1
  have htext : blockText keyword s =
      (keyword ++ " \x7b\n") ++ (Text.indent s ++ "\n") ++ "\x7d" := by
    have hclosing : ("\n\x7d" : String) = "\n" ++ "\x7d" := by decide
    rw [blockText, hclosing]
    simp only [String.append_assoc]
  rw [htext]
  exact hline.enclosed hopening (by decide)

end Lines

section Names

/-- A name that may be written as it stands: a word that is no keyword of a predicate. -/
def IsPlain (name : String) : Prop :=
  Text.isWord name.toList = true ∧
    ∀ keyword ∈ ["AND", "OR", "NOT"], (Token.word name.toList).isKeyword keyword = false

instance (name : String) : Decidable (IsPlain name) := inferInstanceAs (Decidable (_ ∧ _))

theorem reads_isWord {name : String} (h : Text.isWord name.toList = true) :
    Reads name.toList [.word name.toList] := by
  obtain ⟨hne, hparts⟩ := parts_of_isWord h
  exact reads_word hne hparts

theorem IsPlain.isPart {name : String} (h : IsPlain name) : IsPart Neutral name := by
  refine (reads_isWord h.1).isPart (neutral_single fun j => h.2 _ ?_)
  cases j <;> decide

theorem IsPlain.begins {name : String} (h : IsPlain name) : Begins (tokens name.toList) := by
  rw [(reads_isWord h.1).tokens]
  exact h.2 "NOT" (by decide)

theorem isPart_name (key : String) : IsPart Closed (Text.name key) := by
  have hreads : Reads (Text.name key).toList [nameToken key.toList] := by
    rw [Text.name, String.toList_ofList]
    exact reads_name _
  refine hreads.isPart (closed_single ?_)
  unfold nameToken
  split <;> trivial

/-- A mark that keeps the word behind it from being a keyword. -/
def IsBinder (m : String) (c : Char) : Prop :=
  m.toList = [c] ∧ IsSeparator c ∧ Text.isBlank c = false ∧ opens c = false ∧ closes c = false ∧
    binds c = true

instance (m : String) (c : Char) : Decidable (IsBinder m c) :=
  inferInstanceAs (Decidable (_ ∧ _))

theorem IsBinder.isPart {m : String} {c : Char} (h : IsBinder m c) (key : String) :
    IsPart Neutral (m ++ Text.name key) := by
  obtain ⟨hchars, hseparator, hblank, hopens, hcloses, hbinds⟩ := h
  have hreads : Reads (m ++ Text.name key).toList [.mark c, nameToken key.toList] := by
    have hlead := (reads_name key.toList).lead hseparator
    rw [separatorTokens, hblank, if_neg Bool.false_ne_true] at hlead
    rw [String.toList_append, hchars, Text.name, String.toList_ofList]
    exact hlead
  exact hreads.isPart (neutral_bound hopens hcloses hbinds)

theorem IsBinder.starts {m : String} {c : Char} (h : IsBinder m c) (s : String) :
    Starts (m ++ s) := by
  have hstarts : Starts m := by
    rw [Starts, h.1]
    rintro _ ⟨⟩
    exact h.2.1
  exact hstarts.append (by rw [h.1]; exact List.cons_ne_nil _ _) s

theorem name_of_isWord {name : String} (h : Text.isWord name.toList = true) :
    Text.name name = name := by
  rw [Text.name, Text.nameChars, if_pos h, String.ofList_toList]

end Names

section Numbers

open Json (Numeral numeral_int numeral_number numeral_digits)

/-- The tokens of a number are words that are no keywords, signs and points. -/
def Token.IsNumeral : Token → Prop
  | .word read => ∃ c rest, read = c :: rest ∧ (c.isDigit = true ∨ c = 'e')
  | .mark c => c ∈ ['+', '-', '.']
  | _ => False

theorem toUpper_digit {c : Char} (h : c.isDigit = true) : c.toUpper = c := by
  simp only [Char.isDigit, ge_iff_le, Bool.and_eq_true, decide_eq_true_eq] at h
  exact dif_neg fun hlower => absurd (UInt32.le_trans hlower.1 h.2) (by decide)

theorem Token.IsNumeral.isKeyword {t : Token} (h : t.IsNumeral) {keyword : String}
    (hkeyword : keyword ∈ ["AND", "OR", "NOT"]) : t.isKeyword keyword = false := by
  cases t with
  | word read =>
    obtain ⟨c, rest, rfl, hc⟩ := h
    have hupper : c.toUpper ≠ 'A' ∧ c.toUpper ≠ 'O' ∧ c.toUpper ≠ 'N' := by
      rcases hc with hdigit | rfl
      · rw [toUpper_digit hdigit]
        refine ⟨?_, ?_, ?_⟩ <;> (rintro rfl; cases hdigit)
      · decide
    rw [Token.isKeyword, List.map_cons, beq_eq_false_iff_ne]
    intro heq
    simp only [List.mem_cons, List.not_mem_nil, or_false] at hkeyword
    rcases hkeyword with rfl | rfl | rfl
    · exact hupper.1 (List.cons.inj (heq.trans (by decide : _ = ['A', 'N', 'D']))).1
    · exact hupper.2.1 (List.cons.inj (heq.trans (by decide : _ = ['O', 'R']))).1
    · exact hupper.2.2 (List.cons.inj (heq.trans (by decide : _ = ['N', 'O', 'T']))).1
  | mark c => rfl
  | _ => cases h

theorem passes_numeral {ts : List Token} (h : ∀ t ∈ ts, t.IsNumeral) (bound : Bool) :
    Passes 0 ⟨0, bound⟩ ts ∧ (Level.after ⟨0, bound⟩ ts).depth = 0 := by
  induction ts generalizing bound with
  | nil => exact ⟨trivial, rfl⟩
  | cons t rest ih =>
    rw [List.forall_mem_cons] at h
    have hstep : Level.Admits 0 ⟨0, bound⟩ t ∧ ∃ bound', Level.next ⟨0, bound⟩ t = ⟨0, bound'⟩ := by
      cases t with
      | word read =>
        refine ⟨fun j => ?_, _, rfl⟩
        rw [Level.marks, h.1.isKeyword (by cases j <;> decide), Bool.and_false]
      | mark c =>
        have hc : c ∈ ['+', '-', '.'] := h.1
        have hplain : opens c = false ∧ closes c = false := by
          revert hc
          simp only [List.mem_cons, List.not_mem_nil, or_false]
          rintro (rfl | rfl | rfl) <;> decide
        refine ⟨fun hcloses => absurd hcloses (by rw [hplain.2]; exact Bool.false_ne_true),
          binds c, ?_⟩
        rw [Level.next, hplain.1, hplain.2]
        rfl
      | _ => cases h.1
    obtain ⟨hadmits, bound', hnext⟩ := hstep
    obtain ⟨hpasses, hdepth⟩ := ih h.2 bound'
    refine ⟨⟨hadmits, by rw [hnext]; exact hpasses⟩, ?_⟩
    rw [Level.after, List.foldl_cons, hnext]
    exact hdepth

/-- The last character is a digit. -/
def EndsInDigit (cs : List Char) : Prop := ∃ front d, cs = front ++ [d] ∧ d.isDigit = true

theorem EndsInDigit.append {ds : List Char} (h : EndsInDigit ds) (cs : List Char) :
    EndsInDigit (cs ++ ds) := by
  obtain ⟨front, d, rfl, hd⟩ := h
  exact ⟨cs ++ front, d, (List.append_assoc _ _ _).symm, hd⟩

theorem endsInDigit_of_all {cs : List Char} (hne : cs ≠ []) (h : ∀ c ∈ cs, c.isDigit = true) :
    EndsInDigit cs :=
  ⟨cs.dropLast, cs.getLast hne, (List.dropLast_concat_getLast hne).symm,
    h _ (List.getLast_mem hne)⟩

theorem digits_ne_nil (n : Nat) : Nat.toDigits 10 n ≠ [] :=
  List.ne_nil_of_length_pos Nat.length_toDigits_pos

theorem isDigit_digits (n : Nat) : ∀ c ∈ Nat.toDigits 10 n, c.isDigit = true :=
  fun _ hc => Nat.isDigit_of_mem_toDigits (by decide) (by decide) hc

theorem endsInDigit_int (n : Int) : EndsInDigit (toString n).toList := by
  have hdigits := fun k => endsInDigit_of_all (digits_ne_nil k) (isDigit_digits k)
  rw [Int.toString_eq_repr, Int.repr_eq_if]
  split
  · rw [Nat.toList_repr]
    exact hdigits _
  · rw [String.toList_append, Nat.toList_repr]
    exact (hdigits _).append _

theorem endsInDigit_positional {digits : List Char} (hne : digits ≠ [])
    (h : ∀ c ∈ digits, c.isDigit = true) (lead : Int) :
    EndsInDigit (Decimal.positional digits lead).toList := by
  unfold Decimal.positional
  split
  · rw [String.toList_append, String.toList_ofList]
    exact (endsInDigit_of_all hne h).append _
  · simp only
    split
    · rw [String.toList_append]
      exact EndsInDigit.append ⟨['.'], '0', by decide, by decide⟩ _
    next hless =>
      rw [String.toList_append, String.toList_ofList]
      refine (endsInDigit_of_all ?_ fun c hc => h c (List.drop_subset _ _ hc)).append _
      exact List.ne_nil_of_length_pos (by rw [List.length_drop]; omega)

theorem endsInDigit_scientific (plus : Bool) (digits : List Char) (lead : Int) :
    EndsInDigit (Decimal.scientific plus digits lead).toList := by
  have hexponent : EndsInDigit (Decimal.exponentText plus lead).toList := by
    rw [Decimal.exponentText, String.toList_append]
    exact (endsInDigit_int lead).append _
  unfold Decimal.scientific
  split
  · exact ⟨['0', '.'], '0', by decide, by decide⟩
  · rw [String.toList_append]
    exact hexponent.append _
  · rw [String.toList_append]
    exact hexponent.append _

theorem endsInDigit_number (layout : Decimal.Layout) (x : Float) :
    EndsInDigit (layout.text x).toList := by
  unfold Decimal.Layout.text
  simp only
  split
  · rw [String.toList_append]
    exact EndsInDigit.append ⟨['0', '.'], '0', by decide, by decide⟩ _
  · rw [String.toList_append, Decimal.Layout.magnitude]
    refine EndsInDigit.append ?_ _
    split
    · exact endsInDigit_positional (digits_ne_nil _) (isDigit_digits _) _
    · exact endsInDigit_scientific _ _ _

/-- What is pending in a number. -/
def Pending.IsNumeral : Pending → Prop
  | .blank => True
  | .word read => (Token.word read).IsNumeral
  | _ => False

theorem isWordPart_digit {c : Char} (h : c.isDigit = true) : Text.isWordPart c = true := by
  simp only [Text.isWordPart, Char.isAlphanum, h, Bool.or_true, Bool.true_or]

theorem Pending.IsNumeral.isRest {p : Pending} (h : p.IsNumeral) : p.IsRest := by
  cases p <;> trivial

theorem Pending.IsNumeral.rest {p : Pending} (h : p.IsNumeral) : ∀ t ∈ p.rest, t.IsNumeral := by
  cases p with
  | blank => exact List.forall_mem_nil _
  | word read => exact List.forall_mem_singleton.mpr h
  | _ => cases h

theorem step_part {p : Pending} (h : p.IsNumeral) {c : Char} (hc : c.isDigit = true ∨ c = 'e') :
    ∃ read, p.step c = ([], .word read) ∧ (Token.word read).IsNumeral := by
  have hpart : Text.isWordPart c = true := by
    rcases hc with hdigit | rfl
    · exact isWordPart_digit hdigit
    · decide
  cases p with
  | blank => exact ⟨[c], if_pos hpart, c, [], rfl, hc⟩
  | word read =>
    obtain ⟨first, rest, rfl, hfirst⟩ := h
    exact ⟨_, if_pos hpart, first, rest ++ [c], rfl, hfirst⟩
  | _ => cases h

theorem run_numeral {p : Pending} (hp : p.IsNumeral) {cs : List Char} (h : Numeral cs) :
    (∀ t ∈ (p.run cs).1, t.IsNumeral) ∧ (p.run cs).2.IsNumeral := by
  induction cs generalizing p with
  | nil => exact ⟨List.forall_mem_nil _, hp⟩
  | cons c rest ih =>
    have hstep : (∀ t ∈ (p.step c).1, t.IsNumeral) ∧ (p.step c).2.IsNumeral := by
      rcases h c List.mem_cons_self with hdigit | hmark
      · obtain ⟨read, hread, hnumeral⟩ := step_part hp (.inl hdigit)
        rw [hread]
        exact ⟨List.forall_mem_nil _, hnumeral⟩
      · by_cases hexponent : c = 'e'
        · obtain ⟨read, hread, hnumeral⟩ := step_part hp (.inr hexponent)
          rw [hread]
          exact ⟨List.forall_mem_nil _, hnumeral⟩
        · have hsign : c ∈ ['+', '-', '.'] := by
            simp only [List.mem_cons, List.not_mem_nil, or_false, hexponent] at hmark ⊢
            exact hmark
          have hseparator : IsSeparator c ∧ separatorTokens c = [.mark c] := by
            revert hsign
            simp only [List.mem_cons, List.not_mem_nil, or_false]
            rintro (rfl | rfl | rfl) <;> decide
          rw [step_separator hp.isRest hseparator.1, hseparator.2]
          refine ⟨fun t ht => ?_, trivial⟩
          rcases List.mem_append.mp ht with hrest | hlast
          · exact hp.rest t hrest
          · rw [List.mem_singleton.mp hlast]
            exact hsign
    obtain ⟨htokens, hpending⟩ := ih hstep.2 fun d hd => h d (List.mem_cons_of_mem _ hd)
    refine ⟨fun t ht => ?_, hpending⟩
    rcases List.mem_append.mp ht with hfirst | hrest
    · exact hstep.1 t hfirst
    · exact htokens t hrest

/-- A number is read as words, signs and points, and a word is the last of them. -/
theorem reads_numeral {s : String} (h : Numeral s.toList) (hlast : EndsInDigit s.toList) :
    ∃ ts read, Reads s.toList (ts ++ [.word read]) ∧ (∀ t ∈ ts, t.IsNumeral) ∧
      (Token.word read).IsNumeral := by
  obtain ⟨front, d, hchars, hdigit⟩ := hlast
  rw [hchars, Json.numeral_append] at h
  obtain ⟨htokens, hpending⟩ := run_numeral (p := .blank) trivial h.1
  obtain ⟨read, hread, hnumeral⟩ := step_part hpending (.inl hdigit)
  have hrun : Pending.run .blank s.toList = ((Pending.run .blank front).1, .word read) := by
    rw [hchars, Pending.run_append, Pending.run, hread]
    simp only [Pending.run, List.append_nil]
  refine ⟨_, read, ⟨?_, ?_⟩, htokens, hnumeral⟩
  · rw [hrun]
    trivial
  · rw [tokens, hrun]
    rfl

theorem isPart_numeral {s : String} (h : Numeral s.toList) (hlast : EndsInDigit s.toList) :
    IsPart Neutral s := by
  obtain ⟨ts, read, hreads, htokens, hnumeral⟩ := reads_numeral h hlast
  refine hreads.isPart ?_
  obtain ⟨hpasses, hdepth⟩ := passes_numeral htokens false
  generalize hlevel : Level.after ⟨0, false⟩ ts = level at hdepth
  obtain ⟨depth, bound⟩ := level
  obtain rfl : depth = 0 := hdepth
  have hword := (passes_numeral (List.forall_mem_singleton.mpr hnumeral) bound).1
  exact ⟨passes_append.mpr ⟨hpasses, by rw [Level.ground, hlevel]; exact hword⟩,
    by rw [after_append, Level.ground, hlevel]; rfl⟩

theorem begins_numeral {s : String} (h : Numeral s.toList) (hlast : EndsInDigit s.toList) :
    Begins (tokens s.toList) := by
  obtain ⟨ts, read, hreads, htokens, hnumeral⟩ := reads_numeral h hlast
  rw [hreads.tokens]
  cases ts with
  | nil => exact hnumeral.isKeyword (by decide)
  | cons t rest => exact (htokens t List.mem_cons_self).isKeyword (by decide)

end Numbers

end GraphSelection.Reread
