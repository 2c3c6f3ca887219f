import GraphSelection.Proofs.Reread.Trees
import GraphSelection.Text.Lines

/-!
Indentation keeps the tokens of a text, as long as it does not matter what stands in its names and
literals: a line feed ends whatever a blank ends, and between quotes and in comments the blanks that
are put in are a part like any other.
-/
namespace GraphSelection.Reread

def Token.erase : Token → Token
  | .name _ => .name []
  | .literal _ => .literal []
  | t => t

def Pending.erase : Pending → Pending
  | .name _ => .name []
  | .quoted _ => .quoted []
  | .literal isDouble _ => .literal isDouble []
  | .escape isDouble _ => .escape isDouble []
  | p => p

/-- Tokens and what is pending, up to what stands in names and literals. -/
def outline (r : List Token × Pending) : List Token × Pending := (r.1.map Token.erase, r.2.erase)

theorem outline_start (c : Char) : outline (Pending.start c) = Pending.start c := by
  unfold Pending.start
  repeat' split
  all_goals rfl

theorem outline_close (t : Token) (c : Char) :
    outline (Pending.close t c) = Pending.close t.erase c := by
  have hstart := outline_start c
  have hpending : (Pending.start c).2.erase = (Pending.start c).2 := congrArg Prod.snd hstart
  exact Prod.ext (congrArg (t.erase :: ·) (congrArg Prod.fst hstart)) hpending

theorem outline_step (p : Pending) (c : Char) : outline (p.erase.step c) = outline (p.step c) := by
  cases p with
  | name read =>
    rw [Pending.erase, Pending.step, Pending.step]
    split <;> rfl
  | quoted read =>
    rw [Pending.erase, Pending.step, Pending.step]
    split
    next => rfl
    next => rw [outline_close, outline_close]; rfl
  | literal isDouble read =>
    rw [Pending.erase, Pending.step, Pending.step]
    repeat' split
    all_goals rfl
  | _ => rfl

theorem outline_cons (p : Pending) (c : Char) (cs : List Char) :
    outline (p.run (c :: cs)) =
      ((outline (p.step c)).1 ++ (outline ((p.step c).2.run cs)).1,
        (outline ((p.step c).2.run cs)).2) := by
  simp only [outline, Pending.run, List.map_append]

theorem outline_run (p : Pending) (cs : List Char) :
    outline (p.erase.run cs) = outline (p.run cs) := by
  induction cs generalizing p with
  | nil => cases p <;> rfl
  | cons c cs ih =>
    have hstep := outline_step p c
    have hpending : (p.erase.step c).2.erase = (p.step c).2.erase := congrArg Prod.snd hstep
    rw [outline_cons, outline_cons, hstep, ← ih (p.erase.step c).2, hpending, ih]

theorem run_outline {p q : Pending} (h : p.erase = q.erase) (cs : List Char) :
    outline (p.run cs) = outline (q.run cs) := by
  rw [← outline_run p, h, outline_run]

theorem outline_append (p : Pending) (cs ds : List Char) :
    outline (p.run (cs ++ ds)) =
      ((outline (p.run cs)).1 ++ (outline ((p.run cs).2.run ds)).1,
        (outline ((p.run cs).2.run ds)).2) := by
  simp only [outline, Pending.run_append, List.map_append]

/-- Texts that are read alike from here may stand for one another at the beginning. -/
theorem outline_congr {p : Pending} {cs cs' : List Char}
    (h : outline (p.run cs) = outline (p.run cs')) (ds : List Char) :
    outline (p.run (cs ++ ds)) = outline (p.run (cs' ++ ds)) := by
  have hpending : (p.run cs).2.erase = (p.run cs').2.erase := congrArg Prod.snd h
  rw [outline_append, outline_append, h, run_outline hpending]

/-- Blanks and line feeds make no difference here. -/
def AtStart (p : Pending) : Prop :=
  ∀ c, c = ' ' ∨ c = '\n' → outline (p.step c) = ([], p.erase)

theorem atStart_blank : AtStart .blank := by
  rintro c (rfl | rfl) <;> rfl

theorem atStart_step (p : Pending) : AtStart (p.step '\n').2 := by
  have hclose : ∀ t, (Pending.close t '\n').2 = .blank := fun _ => rfl
  cases p with
  | blank => exact atStart_blank
  | word read => exact atStart_blank
  | name read => rintro c (rfl | rfl) <;> rfl
  | quoted read => exact atStart_blank
  | literal isDouble read => cases isDouble <;> (rintro c (rfl | rfl) <;> rfl)
  | escape isDouble read => cases isDouble <;> (rintro c (rfl | rfl) <;> rfl)
  | slash => exact atStart_blank
  | lineComment => exact atStart_blank
  | comment => rintro c (rfl | rfl) <;> rfl
  | star => rintro c (rfl | rfl) <;> rfl

theorem AtStart.skip {p : Pending} (h : AtStart p) (blanks : List Char)
    (hblanks : ∀ c ∈ blanks, c = ' ' ∨ c = '\n') (cs : List Char) :
    outline (p.run (blanks ++ cs)) = outline (p.run cs) := by
  induction blanks with
  | nil => rfl
  | cons c rest ih =>
    rw [List.forall_mem_cons] at hblanks
    have hstep := h c hblanks.1
    have hpending : (p.step c).2.erase = p.erase := congrArg Prod.snd hstep
    rw [List.cons_append, outline_cons, hstep, run_outline hpending, ih hblanks.2]
    rfl

/-- A carriage return at the end of a line makes no difference. -/
theorem outline_return (p : Pending) :
    outline (p.run ['\r', '\n']) = outline (p.run ['\n']) := by
  cases p with
  | literal isDouble read => cases isDouble <;> rfl
  | escape isDouble read => cases isDouble <;> rfl
  | _ => rfl

theorem outline_dropReturn (p : Pending) (line : List Char) :
    outline (p.run (Text.dropReturn line ++ ['\n'])) = outline (p.run (line ++ ['\n'])) := by
  unfold Text.dropReturn
  split
  next rest hreturn =>
    obtain rfl : line = rest.reverse ++ ['\r'] := by
      rw [← List.reverse_reverse line, hreturn, List.reverse_cons]
    rw [List.append_assoc, outline_append, outline_append p rest.reverse (['\r'] ++ ['\n'])]
    exact (by rw [← outline_return]; rfl)
  next => rfl

theorem outline_indentLine {p : Pending} (h : AtStart p) (line cs : List Char) :
    outline (p.run (Text.indentLine line ++ cs)) = outline (p.run (line ++ cs)) := by
  unfold Text.indentLine
  split
  next => rfl
  next => exact h.skip [' ', ' ', ' ', ' '] (by simp) (line ++ cs)

/-- Pieces with the mark after each of them. -/
def ended (mark : Char) (pieces : List (List Char)) : List Char := pieces.flatMap (· ++ [mark])

theorem ended_cons (mark : Char) (piece : List Char) (rest : List (List Char)) :
    ended mark (piece :: rest) = piece ++ [mark] ++ ended mark rest := List.flatMap_cons

theorem ended_splitChars (mark : Char) (cs : List Char) :
    ended mark (Text.splitChars mark cs) = cs ++ [mark] := by
  induction cs with
  | nil => rfl
  | cons c rest ih =>
    rw [Text.splitChars]
    split
    next hmark => rw [ended_cons, ih, hmark]; rfl
    next =>
      split
      next hnone =>
        rw [hnone] at ih
        exact absurd ih.symm (List.append_ne_nil_of_right_ne_nil _ (List.cons_ne_nil _ _))
      next piece pieces hpieces =>
        rw [hpieces, ended_cons] at ih
        rw [ended_cons, List.cons_append, List.cons_append, ih, List.cons_append]

theorem atStart_line (p : Pending) (line : List Char) : AtStart (p.run (line ++ ['\n'])).2 := by
  rw [Pending.run_append]
  exact atStart_step _

theorem outline_lines {p : Pending} (h : AtStart p) (pieces : List (List Char)) :
    outline (p.run (ended '\n' ((Text.closeLines pieces).map Text.indentLine))) =
      outline (p.run (ended '\n' pieces)) := by
  induction pieces generalizing p with
  | nil => rfl
  | cons piece rest ih =>
    cases rest with
    | nil =>
      rw [Text.closeLines]
      split
      next hempty =>
        rw [List.isEmpty_iff.mp hempty]
        exact (h.skip ['\n'] (by simp) []).symm
      next =>
        exact (congrArg (fun cs => outline (p.run cs)) (List.append_nil _)).trans
          ((outline_indentLine h piece ['\n']).trans
            (congrArg (fun cs => outline (p.run cs)) (List.append_nil _).symm))
    | cons second more =>
      have hline : outline (p.run (Text.indentLine (Text.dropReturn piece) ++ ['\n'])) =
          outline (p.run (piece ++ ['\n'])) :=
        (outline_indentLine h _ _).trans (outline_dropReturn p piece)
      rw [Text.closeLines, List.map_cons, ended_cons, ended_cons, outline_congr hline,
        outline_append, ih (atStart_line p piece), ← outline_append]
      exact List.cons_ne_nil second more

/-- A line feed between the lines and after the last one. -/
theorem outline_joined {p : Pending} (h : AtStart p) (pieces : List (List Char)) :
    outline (p.run (['\n'].intercalate pieces ++ ['\n'])) =
      outline (p.run (ended '\n' pieces)) := by
  cases pieces with
  | nil => exact h.skip ['\n'] (by simp) []
  | cons piece rest =>
    have hended : ['\n'].intercalate (piece :: rest) ++ ['\n'] = ended '\n' (piece :: rest) := by
      induction rest generalizing piece with
      | nil => simp [ended]
      | cons second more ih =>
        rw [List.intercalate_cons_cons, ended_cons, List.append_assoc, ih]
    rw [hended]

theorem toList_indent (s : String) :
    (Text.indent s).toList = ['\n'].intercalate ((Text.lines s).map Text.indentLine) := by
  have hmark : ("\n" : String).toList = ['\n'] := by decide
  have hlines : ((Text.lines s).map fun line => String.ofList (Text.indentLine line)).map
      String.toList = (Text.lines s).map Text.indentLine := by
    rw [List.map_map]
    exact List.map_congr_left fun line _ => String.toList_ofList
  rw [Text.indent, String.toList_intercalate, hmark, hlines]

theorem outline_indent {p : Pending} (h : AtStart p) (s : String) :
    outline (p.run ((Text.indent s).toList ++ ['\n'])) = outline (p.run (s.toList ++ ['\n'])) := by
  rw [toList_indent, outline_joined h, Text.lines, outline_lines h, ended_splitChars]

theorem after_erase (l : Level) (ts : List Token) : l.after (ts.map Token.erase) = l.after ts := by
  induction ts generalizing l with
  | nil => rfl
  | cons t rest ih =>
    have hnext : l.next t.erase = l.next t := by cases t <;> rfl
    rw [List.map_cons, Level.after, List.foldl_cons, hnext]
    exact ih _

theorem passes_erase {floor : Nat} {l : Level} {ts : List Token} :
    Passes floor l (ts.map Token.erase) ↔ Passes floor l ts := by
  induction ts generalizing l with
  | nil => exact Iff.rfl
  | cons t rest ih =>
    have hnext : l.next t.erase = l.next t := by cases t <;> rfl
    have hadmits : l.Admits floor t.erase ↔ l.Admits floor t := by cases t <;> exact Iff.rfl
    rw [List.map_cons, Passes, Passes, hnext, hadmits, ih]

theorem closed_erase {ts : List Token} : Closed (ts.map Token.erase) ↔ Closed ts := by
  simp only [Closed, passes_erase, after_erase]

/-- With a line feed behind it the text has closed its quotes, comments and brackets. -/
structure EndsLine (s : String) : Prop where
  stops : (Pending.run .blank (s.toList ++ ['\n'])).2 = .blank
  closed : Closed (Pending.run .blank (s.toList ++ ['\n'])).1

theorem erase_eq_blank {p : Pending} (h : p.erase = .blank) : p = .blank := by
  cases p <;> first | rfl | cases h

theorem closed_of_outline {r r' : List Token × Pending} (h : outline r = outline r')
    (hstops : r'.2 = .blank) (hclosed : Closed r'.1) : r.2 = .blank ∧ Closed r.1 := by
  have hpending : r.2.erase = r'.2.erase := congrArg Prod.snd h
  have htokens : r.1.map Token.erase = r'.1.map Token.erase := congrArg Prod.fst h
  rw [hstops] at hpending
  rw [← closed_erase, ← htokens, closed_erase] at hclosed
  exact ⟨erase_eq_blank hpending, hclosed⟩

theorem EndsLine.indent {s : String} (h : EndsLine s) : EndsLine (Text.indent s) := by
  obtain ⟨hstops, hclosed⟩ :=
    closed_of_outline (outline_indent atStart_blank s) h.stops h.closed
  exact ⟨hstops, hclosed⟩

end GraphSelection.Reread
