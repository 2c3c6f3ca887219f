import GraphSelection.Text.Blank
import GraphSelection.Text.Token

/-!
The tokens of a query text, read from the left with one character at a time. Words are runs of
letters, digits and underscores. Names stand between back-quotes and literals between quotes, and
their tokens hold what they stand for. Comments and blanks leave no token, any other character is
one by itself. Reading a text in two parts is reading it as a whole, so what a text consists of is
found part by part, wherever a blank or a mark stands between the parts. The literals of a text can
be read as they are written and their escapes afterwards.
-/
namespace GraphSelection.Reread

inductive Token where
  | word (chars : List Char)
  | name (chars : List Char)
  | literal (chars : List Char)
  | mark (c : Char)
  /-- A name, a literal or a comment without its end. -/
  | unended
  deriving DecidableEq

/-- What has been read of a token that is not finished. -/
inductive Pending where
  | blank
  | word (read : List Char)
  | name (read : List Char)
  /-- A back-quote in a name: its end, or the first of two that stand for one. -/
  | quoted (read : List Char)
  | literal (isDouble : Bool) (read : List Char)
  | escape (isDouble : Bool) (read : List Char)
  | slash
  | lineComment
  | comment
  /-- An asterisk in a comment, which a slash ends. -/
  | star
  deriving DecidableEq

namespace Pending

def start (c : Char) : List Token × Pending :=
  if Text.isWordPart c then ([], .word [c])
  else if c = '\x60' then ([], .name [])
  else if c = '"' then ([], .literal true [])
  else if c = '\'' then ([], .literal false [])
  else if c = '/' then ([], .slash)
  else if Text.isBlank c then ([], .blank)
  else ([.mark c], .blank)

/-- The token before a character that cannot belong to it, and the character. -/
def close (t : Token) (c : Char) : List Token × Pending := (t :: (start c).1, (start c).2)

def quote (isDouble : Bool) : Char := if isDouble then '"' else '\''

def unescape (c : Char) : Char := if c = 'n' then '\n' else c

def step : Pending → Char → List Token × Pending
  | .blank, c => start c
  | .word read, c =>
      if Text.isWordPart c then ([], .word (read ++ [c])) else close (.word read) c
  | .name read, c => if c = '\x60' then ([], .quoted read) else ([], .name (read ++ [c]))
  | .quoted read, c => if c = '\x60' then ([], .name (read ++ [c])) else close (.name read) c
  | .literal isDouble read, c =>
      if c = quote isDouble then ([.literal read], .blank)
      else if c = '\\' then ([], .escape isDouble read)
      else ([], .literal isDouble (read ++ [c]))
  | .escape isDouble read, c => ([], .literal isDouble (read ++ [unescape c]))
  | .slash, c =>
      if c = '/' then ([], .lineComment)
      else if c = '*' then ([], .comment)
      else close (.mark '/') c
  | .lineComment, c => if c = '\n' then ([], .blank) else ([], .lineComment)
  | .comment, c => if c = '*' then ([], .star) else ([], .comment)
  | .star, c =>
      if c = '/' then ([], .blank) else if c = '*' then ([], .star) else ([], .comment)

/-- The token that is left where the text ends. -/
def rest : Pending → List Token
  | .blank | .lineComment => []
  | .word read => [.word read]
  | .quoted read => [.name read]
  | .slash => [.mark '/']
  | _ => [.unended]

def run (p : Pending) : List Char → List Token × Pending
  | [] => ([], p)
  | c :: cs =>
      let (ts, q) := p.step c
      let (us, r) := run q cs
      (ts ++ us, r)

/-- Nothing that follows can change the token, unless it is one more character of it. -/
def IsRest : Pending → Prop
  | .blank | .word _ | .quoted _ => True
  | _ => False

instance : (p : Pending) → Decidable p.IsRest
  | .blank | .word _ | .quoted _ => .isTrue trivial
  | .name _ | .literal _ _ | .escape _ _ | .slash | .lineComment | .comment | .star => .isFalse id

theorem run_append (p : Pending) (cs ds : List Char) :
    p.run (cs ++ ds) = ((p.run cs).1 ++ ((p.run cs).2.run ds).1, ((p.run cs).2.run ds).2) := by
  induction cs generalizing p with
  | nil => rfl
  | cons c cs ih => simp only [List.cons_append, run, ih, List.append_assoc]

end Pending

/-- The tokens of a text. -/
def tokens (cs : List Char) : List Token :=
  (Pending.run .blank cs).1 ++ (Pending.run .blank cs).2.rest

/-- A character between two tokens: a blank, or a mark that is a token by itself. -/
def IsSeparator (c : Char) : Prop :=
  Text.isWordPart c = false ∧ c ≠ '\x60' ∧ c ≠ '"' ∧ c ≠ '\'' ∧ c ≠ '/'

instance (c : Char) : Decidable (IsSeparator c) :=
  inferInstanceAs (Decidable (_ ∧ _))

def separatorTokens (c : Char) : List Token := if Text.isBlank c then [] else [.mark c]

theorem start_separator {c : Char} (h : IsSeparator c) :
    Pending.start c = (separatorTokens c, .blank) := by
  obtain ⟨hpart, hname, hdouble, hsingle, hslash⟩ := h
  rw [Pending.start, hpart, if_neg Bool.false_ne_true, if_neg hname,
    if_neg hdouble, if_neg hsingle, if_neg hslash, separatorTokens]
  split <;> rfl

theorem step_separator {p : Pending} (hp : p.IsRest) {c : Char} (h : IsSeparator c) :
    p.step c = (p.rest ++ separatorTokens c, .blank) := by
  cases p with
  | blank => exact start_separator h
  | word read =>
    rw [Pending.step, h.1, if_neg Bool.false_ne_true, Pending.close, start_separator h]
    rfl
  | quoted read =>
    rw [Pending.step, if_neg h.2.1, Pending.close, start_separator h]
    rfl
  | _ => cases hp

/-- The text consists of the tokens, and none of its quotes or comments is left open. -/
structure Reads (cs : List Char) (ts : List Token) : Prop where
  isRest : (Pending.run .blank cs).2.IsRest
  tokens : tokens cs = ts

namespace Reads

variable {cs ds : List Char} {ts us : List Token}

theorem nil : Reads [] [] := ⟨trivial, rfl⟩

/-- The parts of a text are read one by one where a separator stands between them. -/
theorem glue (h : Reads cs ts) {c : Char} (hc : IsSeparator c) (hd : Reads ds us) :
    Reads (cs ++ c :: ds) (ts ++ separatorTokens c ++ us) := by
  have hstep := step_separator h.isRest hc
  have hrun : Pending.run .blank (cs ++ c :: ds) =
      (ts ++ separatorTokens c ++ (Pending.run .blank ds).1, (Pending.run .blank ds).2) := by
    simp only [Pending.run_append, Pending.run, hstep, ← h.tokens, Reread.tokens,
      List.append_assoc]
  constructor
  · rw [hrun]
    exact hd.isRest
  · rw [← hd.tokens, Reread.tokens, hrun, Reread.tokens, List.append_assoc]

theorem lead {c : Char} (hc : IsSeparator c) (h : Reads cs ts) :
    Reads (c :: cs) (separatorTokens c ++ ts) := nil.glue hc h

end Reads

section Words

theorem run_word {cs : List Char} (h : ∀ c ∈ cs, Text.isWordPart c = true) (read : List Char) :
    Pending.run (.word read) cs = ([], .word (read ++ cs)) := by
  induction cs generalizing read with
  | nil => rw [List.append_nil]; rfl
  | cons c rest ih =>
    rw [List.forall_mem_cons] at h
    have hstep : Pending.step (.word read) c = ([], .word (read ++ [c])) := if_pos h.1
    rw [Pending.run, hstep]
    simp only [ih h.2, List.append_assoc, List.singleton_append, List.nil_append]

theorem run_parts {cs : List Char} (hne : cs ≠ []) (h : ∀ c ∈ cs, Text.isWordPart c = true) :
    Pending.run .blank cs = ([], .word cs) := by
  obtain ⟨c, rest, rfl⟩ := List.exists_cons_of_ne_nil hne
  rw [List.forall_mem_cons] at h
  have hstep : Pending.step .blank c = ([], .word [c]) := if_pos h.1
  rw [Pending.run, hstep]
  simp only [run_word h.2, List.singleton_append, List.nil_append]

/-- A run of letters, digits and underscores is one word. -/
theorem reads_word {cs : List Char} (hne : cs ≠ []) (h : ∀ c ∈ cs, Text.isWordPart c = true) :
    Reads cs [.word cs] := by
  have hrun := run_parts hne h
  exact ⟨by rw [hrun]; trivial, by rw [tokens, hrun]; rfl⟩

theorem parts_of_isWord {cs : List Char} (h : Text.isWord cs = true) :
    cs ≠ [] ∧ ∀ c ∈ cs, Text.isWordPart c = true := by
  cases cs with
  | nil => cases h
  | cons c rest =>
    rw [Text.isWord, Bool.and_eq_true, List.all_eq_true] at h
    refine ⟨List.cons_ne_nil c rest, List.forall_mem_cons.mpr ⟨?_, h.2⟩⟩
    rcases Bool.or_eq_true_iff.mp h.1 with halpha | hline
    · exact Bool.or_eq_true_iff.mpr (.inl (Bool.or_eq_true_iff.mpr (.inl halpha)))
    · exact Bool.or_eq_true_iff.mpr (.inr hline)

end Words

section Names

theorem run_name (cs read : List Char) :
    Pending.run (.name read) (Text.doubleBackquotes cs ++ ['\x60']) =
      ([], .quoted (read ++ cs)) := by
  induction cs generalizing read with
  | nil => simp [Text.doubleBackquotes, Pending.run, Pending.step]
  | cons c rest ih =>
    rw [Text.doubleBackquotes]
    split
    next hc =>
      simp [Pending.run, Pending.step, ih, hc]
    next hc =>
      simp [Pending.run, Pending.step, ih, hc]

/-- The token of a name as it is written. -/
def nameToken (cs : List Char) : Token := if Text.isWord cs then .word cs else .name cs

/-- A name is read as one token, which stands for the name. -/
theorem reads_name (cs : List Char) : Reads (Text.nameChars cs) [nameToken cs] := by
  unfold Text.nameChars nameToken
  split
  next hword =>
    obtain ⟨hne, hparts⟩ := parts_of_isWord hword
    exact reads_word hne hparts
  next =>
    have hrun : Pending.run .blank ('\x60' :: (Text.doubleBackquotes cs ++ ['\x60'])) =
        ([], .quoted cs) := by
      have hstep : Pending.step .blank '\x60' = ([], .name []) := by decide
      rw [Pending.run, hstep]
      simp only [run_name, List.nil_append]
    exact ⟨by rw [hrun]; trivial, by rw [tokens, hrun]; rfl⟩

end Names

section Literals

theorem run_escape (read : List Char) (c : Char) (rest : List Char) :
    Pending.run (.literal true read) ('\\' :: c :: rest) =
      Pending.run (.literal true (read ++ [Pending.unescape c])) rest := rfl

theorem run_plain {c : Char} (hquote : c ≠ '"') (hescape : c ≠ '\\') (read rest : List Char) :
    Pending.run (.literal true read) (c :: rest) =
      Pending.run (.literal true (read ++ [c])) rest := by
  have hstep : Pending.step (.literal true read) c = ([], .literal true (read ++ [c])) := by
    rw [Pending.step, if_neg hescape]
    exact if_neg hquote
  rw [Pending.run, hstep]
  rfl

theorem run_literal (cs read : List Char) :
    Pending.run (.literal true read) (Text.escapeChars cs ++ ['"']) =
      ([.literal (read ++ cs)], .blank) := by
  induction cs generalizing read with
  | nil =>
    rw [List.append_nil]
    rfl
  | cons c rest ih =>
    rw [Text.escapeChars]
    split
    next hescape =>
      rw [List.cons_append, List.cons_append, run_escape, ih, hescape, List.append_assoc]
      rfl
    next hescape =>
      split
      next hquote =>
        rw [List.cons_append, List.cons_append, run_escape, ih, hquote, List.append_assoc]
        rfl
      next hquote =>
        split
        next hline =>
          rw [List.cons_append, List.cons_append, run_escape, ih, hline, List.append_assoc]
          rfl
        next =>
          rw [List.cons_append, run_plain hquote hescape, ih, List.append_assoc,
            List.singleton_append]

/-- A string literal is read as one token, which stands for the string. -/
theorem reads_literal (cs : List Char) : Reads (Text.literalChars cs) [.literal cs] := by
  have hrun : Pending.run .blank (Text.literalChars cs) = ([.literal cs], .blank) := by
    have hstep : Pending.step .blank '"' = ([], .literal true []) := by decide
    rw [Text.literalChars, Pending.run, hstep]
    simp only [run_literal, List.nil_append]
  exact ⟨by rw [hrun]; trivial, by rw [tokens, hrun]; rfl⟩

end Literals

section Verbatim

namespace Pending

/-- Reads on like `step`, but keeps the escapes of a literal. -/
def copy : Pending → Char → List Token × Pending
  | .escape isDouble read, c => ([], .literal isDouble (read ++ ['\\', c]))
  | p, c => p.step c

def copyRun (p : Pending) : List Char → List Token × Pending
  | [] => ([], p)
  | c :: cs =>
      ((p.copy c).1 ++ (copyRun (p.copy c).2 cs).1, (copyRun (p.copy c).2 cs).2)

theorem copyRun_append (p : Pending) (cs ds : List Char) :
    p.copyRun (cs ++ ds) =
      ((p.copyRun cs).1 ++ ((p.copyRun cs).2.copyRun ds).1, ((p.copyRun cs).2.copyRun ds).2) := by
  induction cs generalizing p with
  | nil => rfl
  | cons c cs ih => simp only [List.cons_append, copyRun, ih, List.append_assoc]

theorem copyRun_single (p : Pending) (c : Char) : p.copyRun [c] = p.copy c := by
  simp only [copyRun, List.append_nil]

end Pending

/-- The tokens of a text with literals as they are written. -/
def verbatim (cs : List Char) : List Token :=
  (Pending.copyRun .blank cs).1 ++ (Pending.copyRun .blank cs).2.rest

/-- What the characters of a literal stand for. -/
def unescaped : List Char → List Char
  | '\\' :: c :: rest => Pending.unescape c :: unescaped rest
  | c :: rest => c :: unescaped rest
  | [] => []

theorem unescaped_plain {c : Char} (h : c ≠ '\\') (rest : List Char) :
    unescaped (c :: rest) = c :: unescaped rest := by
  rw [unescaped]
  exact fun _ _ hc => absurd hc h

/-- No escape is left unfinished. -/
def IsWhole (cs : List Char) : Prop :=
  ∀ rest, unescaped (cs ++ rest) = unescaped cs ++ unescaped rest

theorem isWhole_nil : IsWhole [] := fun _ => rfl

theorem IsWhole.plain {cs : List Char} (h : IsWhole cs) {c : Char} (hc : c ≠ '\\') :
    IsWhole (cs ++ [c]) ∧ unescaped (cs ++ [c]) = unescaped cs ++ [c] := by
  have hlast : unescaped (cs ++ [c]) = unescaped cs ++ [c] := by
    rw [h, unescaped_plain hc]
    rfl
  refine ⟨fun rest => ?_, hlast⟩
  rw [hlast, List.append_assoc, List.singleton_append, h, unescaped_plain hc, List.append_assoc,
    List.singleton_append]

theorem IsWhole.escape {cs : List Char} (h : IsWhole cs) (c : Char) :
    IsWhole (cs ++ ['\\', c]) ∧
      unescaped (cs ++ ['\\', c]) = unescaped cs ++ [Pending.unescape c] := by
  have hlast : unescaped (cs ++ ['\\', c]) = unescaped cs ++ [Pending.unescape c] := h _
  refine ⟨fun rest => ?_, hlast⟩
  rw [hlast, List.append_assoc, h, List.append_assoc]
  rfl

/-- A token that holds nothing of a name or a literal. -/
def Token.IsBare : Token → Prop
  | .word _ | .mark _ => True
  | _ => False

instance : (t : Token) → Decidable t.IsBare
  | .word _ | .mark _ => .isTrue trivial
  | .name _ | .literal _ | .unended => .isFalse id

namespace Pending

/-- Nothing of a name or a literal has been read. -/
def IsFresh : Pending → Prop
  | .name read | .literal _ read => read = []
  | .quoted _ | .escape _ _ => False
  | _ => True

/-- Neither in a name nor in a literal. -/
def IsOutside : Pending → Prop
  | .name _ | .quoted _ | .literal _ _ | .escape _ _ => False
  | _ => True

/-- A step that has to do with no name and no literal, unless with the beginning of one. -/
structure IsBare (r : List Token × Pending) : Prop where
  tokens : ∀ t ∈ r.1, t.IsBare
  fresh : r.2.IsFresh

theorem isBare_start (c : Char) : IsBare (start c) := by
  unfold start
  repeat' split
  all_goals first
    | exact ⟨List.forall_mem_nil _, rfl⟩
    | exact ⟨List.forall_mem_nil _, trivial⟩
    | exact ⟨List.forall_mem_singleton.mpr trivial, trivial⟩

theorem isBare_close {t : Token} (ht : t.IsBare) (c : Char) : IsBare (close t c) :=
  ⟨List.forall_mem_cons.mpr ⟨ht, (isBare_start c).tokens⟩, (isBare_start c).fresh⟩

theorem isBare_step {p : Pending} (h : p.IsOutside) (c : Char) : IsBare (p.step c) := by
  have hnone : ∀ {q : Pending}, q.IsFresh → IsBare ([], q) := fun hq => ⟨List.forall_mem_nil _, hq⟩
  cases p with
  | blank => exact isBare_start c
  | word read =>
    rw [step]
    split
    next => exact hnone trivial
    next => exact isBare_close (t := .word read) trivial c
  | slash =>
    rw [step]
    repeat' split
    · exact hnone trivial
    · exact hnone trivial
    · exact isBare_close (t := .mark '/') trivial c
  | lineComment =>
    rw [step]
    split <;> exact hnone trivial
  | comment =>
    rw [step]
    split <;> exact hnone trivial
  | star =>
    rw [step]
    repeat' split
    all_goals exact hnone trivial
  | _ => cases h

end Pending

def Token.value : Token → Token
  | .literal read => .literal (unescaped read)
  | t => t

theorem Token.IsBare.value {t : Token} (h : t.IsBare) : t.value = t := by
  cases t <;> first | rfl | cases h

namespace Pending

def value : Pending → Pending
  | .literal isDouble read => .literal isDouble (unescaped read)
  | .escape isDouble read => .escape isDouble (unescaped read)
  | p => p

def IsWhole : Pending → Prop
  | .literal _ read => Reread.IsWhole read
  | .escape _ read => Reread.IsWhole read
  | _ => True

theorem IsFresh.value {p : Pending} (h : p.IsFresh) : p.value = p ∧ p.IsWhole := by
  cases p with
  | name read => exact ⟨rfl, trivial⟩
  | literal isDouble read =>
    obtain rfl : read = [] := h
    exact ⟨rfl, isWhole_nil⟩
  | quoted read => cases h
  | escape isDouble read => cases h
  | _ => exact ⟨rfl, trivial⟩

theorem IsBare.value {r : List Token × Pending} (h : IsBare r) :
    r = (r.1.map Token.value, r.2.value) ∧ r.2.IsWhole := by
  have htokens : r.1.map Token.value = r.1 :=
    (List.map_congr_left fun t ht => (h.tokens t ht).value).trans (List.map_id' r.1)
  exact ⟨Prod.ext htokens.symm h.fresh.value.1.symm, h.fresh.value.2⟩

theorem step_value {p : Pending} (h : p.IsWhole) (c : Char) :
    p.value.step c = ((p.copy c).1.map Token.value, (p.copy c).2.value) ∧ (p.copy c).2.IsWhole := by
  cases p with
  | name read =>
    simp only [copy, value, step]
    split <;> exact ⟨rfl, trivial⟩
  | quoted read =>
    obtain ⟨hstart, hwhole⟩ := (isBare_start c).value
    obtain ⟨htokens, hpending⟩ := Prod.mk.inj hstart
    simp only [copy, value, step]
    split
    next => exact ⟨rfl, trivial⟩
    next => exact ⟨Prod.ext (congrArg (Token.name read :: ·) htokens) hpending, hwhole⟩
  | literal isDouble read =>
    simp only [copy, value, step]
    split
    next => exact ⟨rfl, trivial⟩
    next =>
      split
      next => exact ⟨rfl, h⟩
      next hescape =>
        obtain ⟨hwhole, hlast⟩ := Reread.IsWhole.plain h hescape
        exact ⟨congrArg (fun read => ([], Pending.literal isDouble read)) hlast.symm, hwhole⟩
  | escape isDouble read =>
    obtain ⟨hwhole, hlast⟩ := Reread.IsWhole.escape h c
    exact ⟨congrArg (fun read => ([], Pending.literal isDouble read)) hlast.symm, hwhole⟩
  | blank | word read | slash | lineComment | comment | star =>
    exact (isBare_step (by trivial) c).value

theorem run_value {p : Pending} (h : p.IsWhole) (cs : List Char) :
    p.value.run cs = ((p.copyRun cs).1.map Token.value, (p.copyRun cs).2.value) := by
  induction cs generalizing p with
  | nil => rfl
  | cons c rest ih =>
    obtain ⟨hstep, hwhole⟩ := step_value h c
    rw [run, hstep]
    simp only [ih hwhole, copyRun, List.map_append]

theorem rest_value (p : Pending) : p.value.rest = p.rest.map Token.value := by
  cases p <;> rfl

theorem isRest_value {p : Pending} : p.value.IsRest ↔ p.IsRest := by
  cases p <;> exact Iff.rfl

theorem value_eq_blank {p : Pending} (h : p.value = .blank) : p = .blank := by
  cases p <;> first | rfl | cases h

end Pending

theorem run_eq (cs : List Char) :
    Pending.run .blank cs =
      ((Pending.copyRun .blank cs).1.map Token.value, (Pending.copyRun .blank cs).2.value) :=
  Pending.run_value (p := .blank) trivial cs

theorem tokens_eq (cs : List Char) : tokens cs = (verbatim cs).map Token.value := by
  rw [tokens, run_eq, Pending.rest_value, verbatim, List.map_append]

theorem verbatim_append {cs ds : List Char} (hrest : (Pending.run .blank cs).2.IsRest)
    (hmeet : (Pending.run .blank cs).2 = .blank ∨ ∀ c ∈ ds.head?, IsSeparator c) :
    verbatim (cs ++ ds) = verbatim cs ++ verbatim ds := by
  rw [run_eq] at hrest hmeet
  replace hrest := Pending.isRest_value.mp hrest
  replace hmeet := hmeet.imp_left Pending.value_eq_blank
  simp only [verbatim, Pending.copyRun_append]
  cases ds with
  | nil => simp [Pending.copyRun, Pending.rest]
  | cons c more =>
    rcases hmeet with hstops | hstarts
    · rw [hstops, Pending.rest, List.append_nil, List.append_assoc]
    · have hc : IsSeparator c := hstarts c rfl
      have hcopy : ∀ {p : Pending}, p.IsRest →
          p.copy c = (p.rest ++ separatorTokens c, .blank) := by
        intro p hp
        rw [← step_separator hp hc]
        cases p <;> first | rfl | cases hp
      rw [Pending.copyRun, Pending.copyRun, hcopy hrest, hcopy (p := .blank) trivial]
      simp only [Pending.rest, List.nil_append, List.append_assoc]

end Verbatim

end GraphSelection.Reread
