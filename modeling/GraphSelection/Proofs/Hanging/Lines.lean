import GraphSelection.Proofs.Reread.Texts

/-!
Hanging indentation: the lines of a text behind its first one are indented and carriage returns
before line feeds are dropped. This is what the indentation of a block does to whatever stands in
one of its lines and goes on over the next ones. It changes a text if and only if there is a line
feed in it.
-/
namespace GraphSelection.Text

/-- The characters begin with the end of a line. -/
def startsEnding : List Char → Bool
  | [] => false
  | c :: rest => c == '\n' || (c == '\r' && rest.head? == some '\n')

def indentation : List Char := [' ', ' ', ' ', ' ']

theorem eq_of_mem_indentation {c : Char} (h : c ∈ indentation) : c = ' ' := by
  simpa [indentation] using h

/-- What is made of a character in front of others: a carriage return before a line feed is
dropped, and a line feed is followed by an indentation unless the next line is empty. -/
def hangChar (c : Char) (next : List Char) : List Char :=
  if c = '\r' ∧ next.head? = some '\n' then []
  else if c = '\n' ∧ startsEnding next = false then '\n' :: indentation
  else [c]

/-- What is made of some characters in front of others. -/
def hangBefore (next : List Char) : List Char → List Char
  | [] => []
  | c :: rest => hangChar c (rest ++ next) ++ hangBefore next rest

/-- The characters with every line but the first indented. -/
def hang (cs : List Char) : List Char := hangBefore [] cs

theorem hangBefore_append (next cs ds : List Char) :
    hangBefore next (cs ++ ds) = hangBefore (ds ++ next) cs ++ hangBefore next ds := by
  induction cs with
  | nil => rfl
  | cons c rest ih =>
    rw [List.cons_append, hangBefore, hangBefore, ih, List.append_assoc, List.append_assoc]

theorem hangBefore_concat (next cs : List Char) (c : Char) :
    hangBefore next (cs ++ [c]) = hangBefore (c :: next) cs ++ hangChar c next := by
  rw [hangBefore_append, hangBefore, hangBefore, List.append_nil]
  rfl

theorem hang_cons (c : Char) (rest : List Char) :
    hang (c :: rest) = hangChar c rest ++ hang rest := by
  rw [hang, hangBefore, List.append_nil]
  rfl

section Characters

theorem hangChar_plain {c : Char} (hfeed : c ≠ '\n') (hreturn : c ≠ '\r') (next : List Char) :
    hangChar c next = [c] := by
  rw [hangChar, if_neg fun h => hreturn h.1, if_neg fun h => hfeed h.1]

theorem hangChar_feed (next : List Char) :
    hangChar '\n' next = '\n' :: if startsEnding next then [] else indentation := by
  rw [hangChar, if_neg fun h => absurd h.1 (by decide)]
  cases startsEnding next <;> rfl

theorem hangChar_return {next : List Char} (h : next.head? ≠ some '\n') :
    hangChar '\r' next = ['\r'] := by
  rw [hangChar, if_neg fun h' => h h'.2, if_neg fun h' => absurd h'.1 (by decide)]

theorem hangChar_cases (c : Char) (next : List Char) :
    ((c = '\r' ∧ next.head? = some '\n') ∧ hangChar c next = []) ∨ hangChar c next = [c] ∨
      (c = '\n' ∧ hangChar c next = '\n' :: indentation) := by
  unfold hangChar
  split
  next h => exact .inl ⟨h, rfl⟩
  next =>
    split
    next h => exact .inr (.inr ⟨h.1, rfl⟩)
    next => exact .inr (.inl rfl)

theorem mem_hangChar {c d : Char} {next : List Char} (h : d ∈ hangChar c next) :
    d = c ∨ d = ' ' := by
  rcases hangChar_cases c next with ⟨-, hnone⟩ | hsame | ⟨rfl, hfeed⟩
  · rw [hnone] at h
    cases h
  · rw [hsame] at h
    exact .inl (List.mem_singleton.mp h)
  · rw [hfeed] at h
    exact (List.mem_cons.mp h).imp_right eq_of_mem_indentation

/-- A character that has nothing to do with lines makes what stands behind it irrelevant. -/
theorem hangBefore_plain {c : Char} (hfeed : c ≠ '\n') (hreturn : c ≠ '\r')
    (next cs : List Char) : hangBefore (c :: next) cs = hang cs := by
  induction cs with
  | nil => rfl
  | cons d rest ih =>
    have hhead : (rest ++ c :: next).head? = some '\n' ↔ rest.head? = some '\n' := by
      cases rest <;> simp [hfeed]
    have hstarts : startsEnding (rest ++ c :: next) = startsEnding rest := by
      match rest with
      | [] => simp [startsEnding, hfeed, hreturn]
      | [d] => simp [startsEnding, hfeed]
      | d :: e :: more => rfl
    rw [hang_cons, hangBefore, ih, hangChar, hangChar, hstarts]
    simp only [hhead]

/-- Characters of one line stay as they are, up to a carriage return right before a line feed. -/
theorem hangBefore_line {cs : List Char} (hline : '\n' ∉ cs) {next : List Char}
    (h : next.head? = some '\n' → cs.getLast? ≠ some '\r') : hangBefore next cs = cs := by
  induction cs with
  | nil => rfl
  | cons c rest ih =>
    have hfeed : c ≠ '\n' := fun hc => hline (hc ▸ List.mem_cons_self)
    have hrest : '\n' ∉ rest := fun hmem => hline (List.mem_cons_of_mem c hmem)
    have hchar : hangChar c (rest ++ next) = [c] := by
      by_cases hreturn : c = '\r'
      · subst hreturn
        refine hangChar_return fun hhead => ?_
        cases rest with
        | nil => exact h hhead rfl
        | cons d more => exact hrest (Option.some.inj hhead ▸ List.mem_cons_self)
      · exact hangChar_plain hfeed hreturn _
    have hlast : next.head? = some '\n' → rest.getLast? ≠ some '\r' := by
      intro hhead hreturn
      cases rest with
      | nil => cases hreturn
      | cons d more => exact h hhead (by rw [List.getLast?_cons_cons]; exact hreturn)
    rw [hangBefore, hchar, ih hrest hlast]
    rfl

theorem hang_line {cs : List Char} (h : '\n' ∉ cs) : hang cs = cs :=
  hangBefore_line h fun hhead => by cases hhead

end Characters

section Changes

theorem mem_hangChar_feed {c : Char} {next : List Char} : '\n' ∈ hangChar c next ↔ c = '\n' := by
  unfold hangChar
  split
  next h => simp [h.1]
  next =>
    split
    next h => simp [h.1]
    next => simp [eq_comm]

theorem mem_hangBefore_feed {next cs : List Char} : '\n' ∈ hangBefore next cs ↔ '\n' ∈ cs := by
  induction cs with
  | nil => exact Iff.rfl
  | cons c rest ih =>
    rw [hangBefore, List.mem_append, mem_hangChar_feed, ih, List.mem_cons, eq_comm]

theorem count_hangChar (c : Char) (next : List Char) :
    [c].count ' ' ≤ (hangChar c next).count ' ' := by
  unfold hangChar
  split
  next h => rw [h.1]; decide
  next =>
    split
    next h => rw [h.1]; decide
    next => exact Nat.le_refl _

theorem startsEnding_line {cs : List Char} (h : '\n' ∉ cs) : startsEnding cs = false := by
  cases cs with
  | nil => rfl
  | cons c rest =>
    have hfeed : c ≠ '\n' := fun hc => h (hc ▸ List.mem_cons_self)
    have hhead : rest.head? ≠ some '\n' := fun hhead =>
      h (List.mem_cons_of_mem c (List.mem_of_mem_head? hhead))
    simp [startsEnding, hfeed, hhead]

/-- The line behind the last line feed is indented. -/
theorem count_hang {cs : List Char} (h : '\n' ∈ cs) : cs.count ' ' < (hang cs).count ' ' := by
  induction cs with
  | nil => cases h
  | cons c rest ih =>
    rw [hang_cons, List.count_append, ← List.singleton_append, List.count_append]
    by_cases hrest : '\n' ∈ rest
    · exact Nat.add_lt_add_of_le_of_lt (count_hangChar c rest) (ih hrest)
    · obtain rfl : '\n' = c := (List.mem_cons.mp h).resolve_right hrest
      have hspaces : ['\n'].count ' ' < (hangChar '\n' rest).count ' ' := by
        rw [hangChar_feed, startsEnding_line hrest]
        decide
      rw [hang_line hrest]
      exact Nat.add_lt_add_right hspaces _

/-- What is made of the characters in so many blocks. -/
def hangs : Nat → List Char → List Char
  | 0, cs => cs
  | depth + 1, cs => hangs depth (hang cs)

theorem hangs_line (depth : Nat) {cs : List Char} (h : '\n' ∉ cs) : hangs depth cs = cs := by
  induction depth with
  | zero => rfl
  | succ depth ih => rw [hangs, hang_line h, ih]

theorem count_hangs (depth : Nat) {cs : List Char} (h : '\n' ∈ cs) :
    cs.count ' ' + depth ≤ (hangs depth cs).count ' ' := by
  induction depth generalizing cs with
  | zero => exact Nat.le_refl _
  | succ depth ih =>
    have hstep := count_hang h
    have hkept : '\n' ∈ hang cs := mem_hangBefore_feed.mpr h
    have hrest := ih hkept
    rw [hangs]
    omega

/-- Blocks change the characters exactly if there is a line feed among them. -/
theorem hangs_eq_self_iff (depth : Nat) (cs : List Char) :
    hangs depth cs = cs ↔ depth = 0 ∨ '\n' ∉ cs := by
  constructor
  · intro heq
    by_cases hfeed : '\n' ∈ cs
    · have hcount := count_hangs depth hfeed
      rw [heq] at hcount
      exact .inl (by omega)
    · exact .inr hfeed
  · rintro (rfl | hline)
    · rfl
    · exact hangs_line depth hline

end Changes

section Lines

open Reread (splitChars_eq_cons toList_indent)

theorem dropReturn_concat (front : List Char) : dropReturn (front ++ ['\r']) = front := by
  rw [dropReturn, List.reverse_append]
  exact List.reverse_reverse front

theorem dropReturn_of_ne {line : List Char} (h : line.getLast? ≠ some '\r') :
    dropReturn line = line := by
  unfold dropReturn
  split
  next rest hreturn =>
    refine absurd ?_ h
    rw [← List.head?_reverse, hreturn]
    rfl
  next => rfl

/-- A line with a line feed behind it loses its carriage return. -/
theorem hangBefore_closed {line : List Char} (hline : '\n' ∉ line) (next : List Char) :
    hangBefore ('\n' :: next) line = dropReturn line := by
  by_cases hreturn : line.getLast? = some '\r'
  · obtain ⟨front, rfl⟩ := List.getLast?_eq_some_iff.mp hreturn
    have hfront : '\n' ∉ front := fun hmem => hline (List.mem_append_left _ hmem)
    have hdropped : hangChar '\r' ('\n' :: next) = [] := if_pos ⟨rfl, rfl⟩
    rw [hangBefore_concat, hdropped, List.append_nil, dropReturn_concat]
    exact hangBefore_line hfront fun hhead => by cases hhead
  · rw [dropReturn_of_ne hreturn]
    exact hangBefore_line hline fun _ => hreturn

theorem startsEnding_long {c d : Char} {rest : List Char} (hline : '\n' ∉ c :: d :: rest)
    (next : List Char) : startsEnding (c :: d :: rest ++ next) = false := by
  rw [List.mem_cons, not_or, List.mem_cons, not_or] at hline
  simp [startsEnding, Ne.symm hline.1, Ne.symm hline.2.1]

theorem startsEnding_closed {line : List Char} (hline : '\n' ∉ line) (next : List Char) :
    startsEnding (line ++ '\n' :: next) = (dropReturn line).isEmpty := by
  by_cases hreturn : line.getLast? = some '\r'
  · obtain ⟨front, rfl⟩ := List.getLast?_eq_some_iff.mp hreturn
    rw [dropReturn_concat]
    match front with
    | [] => rfl
    | [c] => exact startsEnding_long hline _
    | c :: d :: rest => exact startsEnding_long hline _
  · rw [dropReturn_of_ne hreturn]
    match line with
    | [] => rfl
    | [c] =>
      have hfeed : c ≠ '\n' := fun hc => hline (by rw [hc]; exact List.mem_cons_self)
      have hplain : c ≠ '\r' := fun hc => hreturn (by rw [hc]; rfl)
      simp [startsEnding, hfeed, hplain]
    | c :: d :: rest => exact startsEnding_long hline _

/-- A line between two line feeds. -/
theorem hangBefore_between {line : List Char} (hline : '\n' ∉ line) (next : List Char) :
    hangBefore ('\n' :: next) ('\n' :: line) = '\n' :: indentLine (dropReturn line) := by
  rw [hangBefore, hangBefore_closed hline, hangChar_feed, startsEnding_closed hline, indentLine]
  split <;> rfl

theorem hang_last {line : List Char} (hline : '\n' ∉ line) :
    hang ('\n' :: line) = '\n' :: (indentation ++ line) := by
  rw [hang_cons, hang_line hline, hangChar_feed, startsEnding_line hline]
  rfl

/-- Lines with a line feed before each of them. -/
def feeds (lines : List (List Char)) : List Char := lines.flatMap ('\n' :: ·)

theorem hang_feeds {closed : List (List Char)} (hclosed : ∀ line ∈ closed, '\n' ∉ line)
    {last : List Char} (hlast : '\n' ∉ last) :
    hang (feeds (closed ++ [last])) =
      feeds (closed.map fun line => indentLine (dropReturn line)) ++
        '\n' :: (indentation ++ last) := by
  induction closed with
  | nil =>
    simp only [feeds, List.nil_append, List.flatMap_cons, List.flatMap_nil, List.append_nil]
    exact hang_last hlast
  | cons line rest ih =>
    rw [List.forall_mem_cons] at hclosed
    obtain ⟨second, more, hcons⟩ := List.exists_cons_of_ne_nil
      (List.append_ne_nil_of_right_ne_nil rest (List.cons_ne_nil last []))
    have hfeeds : feeds (rest ++ [last]) = '\n' :: (second ++ feeds more) := by
      rw [hcons]; rfl
    have hsplit : feeds (line :: rest ++ [last]) = ('\n' :: line) ++ feeds (rest ++ [last]) := rfl
    rw [hsplit, hang, hangBefore_append, List.append_nil, hfeeds, hangBefore_between hclosed.1,
      ← hfeeds]
    exact (congrArg (_ ++ ·) (ih hclosed.2)).trans (List.append_assoc _ _ _).symm

theorem closeLines_concat (closed : List (List Char)) (last : List Char) :
    closeLines (closed ++ [last]) =
      closed.map dropReturn ++ if last.isEmpty then [] else [last] := by
  induction closed with
  | nil => rfl
  | cons line rest ih =>
    obtain ⟨second, more, hcons⟩ := List.exists_cons_of_ne_nil
      (List.append_ne_nil_of_right_ne_nil rest (List.cons_ne_nil last []))
    rw [List.cons_append, hcons, closeLines, ← hcons, ih]
    · rfl
    · exact List.cons_ne_nil second more

theorem notMem_splitChars (mark : Char) (cs : List Char) :
    ∀ piece ∈ splitChars mark cs, mark ∉ piece := by
  induction cs with
  | nil => exact List.forall_mem_singleton.mpr List.not_mem_nil
  | cons c rest ih =>
    obtain ⟨first, more, hsplit, -⟩ := splitChars_eq_cons mark rest
    rw [hsplit, List.forall_mem_cons] at ih
    rw [splitChars, hsplit]
    split
    next => exact List.forall_mem_cons.mpr ⟨List.not_mem_nil, List.forall_mem_cons.mpr ih⟩
    next hc =>
      refine List.forall_mem_cons.mpr ⟨fun hmem => ?_, ih.2⟩
      exact (List.mem_cons.mp hmem).elim (fun heq => hc heq.symm) ih.1

theorem feeds_eq_cons {lines : List (List Char)} (h : lines ≠ []) :
    feeds lines = '\n' :: ['\n'].intercalate lines := by
  induction lines with
  | nil => exact absurd rfl h
  | cons line rest ih =>
    cases rest with
    | nil => simp [feeds]
    | cons second more =>
      have hrest := ih (List.cons_ne_nil second more)
      have hsplit : feeds (line :: second :: more) = ('\n' :: line) ++ feeds (second :: more) := rfl
      rw [hsplit, hrest, List.intercalate_cons_cons, List.cons_append, List.append_assoc]
      rfl

/-- The indentation of the lines of a text hangs the text behind a line feed, up to blanks that
are missing where its last line is empty. -/
theorem indent_hangs (s : String) :
    ∃ blanks, (∀ c ∈ blanks, c = ' ' ∨ c = '\n') ∧
      '\n' :: (indent s).toList ++ blanks = hang ('\n' :: s.toList) := by
  obtain ⟨first, rest, hsplit, hchars⟩ := splitChars_eq_cons '\n' s.toList
  have hfeeds : '\n' :: s.toList = feeds (splitChars '\n' s.toList) := by
    rw [hsplit, feeds, List.flatMap_cons, List.cons_append, ← hchars]
  obtain ⟨closed, last, hpieces⟩ : ∃ closed last, splitChars '\n' s.toList = closed ++ [last] := by
    rw [hsplit]
    exact ⟨_, _, (List.dropLast_concat_getLast (List.cons_ne_nil first rest)).symm⟩
  have hlines := notMem_splitChars '\n' s.toList
  rw [hpieces, List.forall_mem_append, List.forall_mem_singleton] at hlines
  have hclosed : (closed.map dropReturn).map indentLine =
      closed.map fun line => indentLine (dropReturn line) := List.map_map
  rw [hfeeds, hpieces, hang_feeds hlines.1 hlines.2, toList_indent, lines, hpieces,
    closeLines_concat, List.map_append, hclosed]
  generalize closed.map (fun line => indentLine (dropReturn line)) = indented
  have hspaces : ∀ c ∈ indentation, c = ' ' ∨ c = '\n' := fun _ hc =>
    .inl (eq_of_mem_indentation hc)
  by_cases hlast : last = []
  · subst hlast
    refine ⟨if indented = [] then indentation else '\n' :: indentation, ?_, ?_⟩
    · split
      next => exact hspaces
      next => exact List.forall_mem_cons.mpr ⟨.inr rfl, hspaces⟩
    · rw [List.isEmpty_nil, if_pos rfl, List.map_nil, List.append_nil, List.append_nil]
      split
      next hnone => rw [hnone]; rfl
      next hsome => rw [feeds_eq_cons hsome]
  · refine ⟨[], List.forall_mem_nil _, ?_⟩
    have hempty : last.isEmpty = false := by simpa using hlast
    have hindent : indentLine last = indentation ++ last := by rw [indentLine, hempty]; rfl
    rw [hempty, if_neg Bool.false_ne_true, List.map_singleton, hindent, List.append_nil,
      ← feeds_eq_cons (List.append_ne_nil_of_right_ne_nil _ (List.cons_ne_nil _ _))]
    simp [feeds]

end Lines

end GraphSelection.Text
