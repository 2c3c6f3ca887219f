import GraphSelection.Proofs.Hanging.Lines
import Mathlib.Data.List.Forall2

/-!
The tokens of a text in the blocks that it stands in. Hanging a text hangs its names and its
literals as they are written and leaves its other tokens as they are. So a text put together from
parts has the tokens of its parts in every block, a name that of its characters hung, and a string
literal always that of the string, since its line feeds are escaped.
-/
namespace GraphSelection.Reread

open Cypher
open Text (hang hangs hangChar hangBefore)

section Hanging

def Token.hang : Token → Token
  | .name read => .name (Text.hang read)
  | .literal read => .literal (Text.hang read)
  | t => t

theorem Token.IsBare.hang {t : Token} (h : t.IsBare) : t.hang = t := by
  cases t <;> first | rfl | cases h

theorem map_hang_of_isBare {ts : List Token} (h : ∀ t ∈ ts, t.IsBare) : ts.map Token.hang = ts :=
  (List.map_congr_left fun t ht => (h t ht).hang).trans (List.map_id' ts)

namespace Pending

/-- What is pending in front of some characters when everything is hung. -/
def hangBefore (next : List Char) : Pending → Pending
  | .name read => .name (Text.hangBefore next read)
  | .quoted read => .quoted (hang read)
  | .literal isDouble read => .literal isDouble (Text.hangBefore next read)
  | .escape isDouble read => .escape isDouble (hang read)
  | p => p

theorem IsFresh.hangBefore {p : Pending} (h : p.IsFresh) (next : List Char) :
    p.hangBefore next = p := by
  cases p with
  | name read =>
    obtain rfl : read = [] := h
    rfl
  | literal isDouble read =>
    obtain rfl : read = [] := h
    rfl
  | quoted read => cases h
  | escape isDouble read => cases h
  | _ => rfl

theorem IsBare.hang {r : List Token × Pending} (h : IsBare r) (next : List Char) :
    (r.1.map Token.hang, r.2.hangBefore next) = r :=
  Prod.ext (map_hang_of_isBare h.tokens) (h.fresh.hangBefore next)

theorem copyRun_name {cs : List Char} (h : '\x60' ∉ cs) (read : List Char) :
    copyRun (.name read) cs = ([], .name (read ++ cs)) := by
  induction cs generalizing read with
  | nil => rw [List.append_nil]; rfl
  | cons c rest ih =>
    rw [List.mem_cons, not_or] at h
    have hcopy : copy (.name read) c = ([], .name (read ++ [c])) := if_neg fun hc => h.1 hc.symm
    rw [copyRun, hcopy, ih h.2, List.append_assoc]
    rfl

theorem copyRun_literal {isDouble : Bool} {cs : List Char} (hquote : quote isDouble ∉ cs)
    (hescape : '\\' ∉ cs) (read : List Char) :
    copyRun (.literal isDouble read) cs = ([], .literal isDouble (read ++ cs)) := by
  induction cs generalizing read with
  | nil => rw [List.append_nil]; rfl
  | cons c rest ih =>
    rw [List.mem_cons, not_or] at hquote hescape
    have hcopy : copy (.literal isDouble read) c = ([], .literal isDouble (read ++ [c])) :=
      (if_neg fun hc => hquote.1 hc.symm).trans (if_neg fun hc => hescape.1 hc.symm)
    rw [copyRun, hcopy, ih hquote.2 hescape.2, List.append_assoc]
    rfl

/-- Hanging a character hangs what is read with it. -/
def HangsStep (p : Pending) (c : Char) (rest : List Char) : Prop :=
  copyRun (p.hangBefore (c :: rest)) (hangChar c rest) =
    ((p.copy c).1.map Token.hang, (p.copy c).2.hangBefore rest)

/-- Outside of names and literals neither the spaces behind a line feed nor the carriage return
before it make a difference. -/
theorem copyRun_feed {p : Pending} (h : p.IsOutside ∨ ∃ read, p = .quoted read) :
    copyRun p ('\n' :: Text.indentation) = p.copy '\n' ∧
      copyRun p ['\r', '\n'] = p.copy '\n' := by
  rcases h with houtside | ⟨read, rfl⟩
  · cases p <;> first | exact ⟨rfl, rfl⟩ | cases houtside
  · exact ⟨rfl, rfl⟩

theorem copyRun_kept {p : Pending} (h : p.IsOutside ∨ ∃ read, p = .quoted read) {c : Char}
    {rest : List Char} (hkept : ¬(c = '\r' ∧ rest.head? = some '\n')) :
    copyRun p (hangChar c rest) = p.copy c := by
  rcases Text.hangChar_cases c rest with hdropped | hsame | ⟨rfl, hfeed⟩
  · exact absurd hdropped.1 hkept
  · rw [hsame, copyRun_single]
  · rw [hfeed]
    exact (copyRun_feed h).1

theorem hangsStep_outside {p : Pending} (h : p.IsOutside) {c : Char} {rest : List Char}
    (hkept : ¬(c = '\r' ∧ rest.head? = some '\n')) : HangsStep p c rest := by
  have hbare : IsBare (p.copy c) := by
    have hstep := isBare_step h c
    cases p <;> first | exact hstep | cases h
  have hsame : p.hangBefore (c :: rest) = p := by cases p <;> first | rfl | cases h
  rw [HangsStep, hsame, copyRun_kept (.inl h) hkept, hbare.hang]

theorem hangsStep_name (read : List Char) (c : Char) (rest : List Char) :
    HangsStep (.name read) c rest := by
  by_cases hquote : c = '\x60'
  · subst hquote
    have hchar : hangChar '\x60' rest = ['\x60'] :=
      Text.hangChar_plain (by decide) (by decide) rest
    have hread : Text.hangBefore ('\x60' :: rest) read = hang read :=
      Text.hangBefore_plain (by decide) (by decide) rest read
    rw [HangsStep, hchar, copyRun_single, hangBefore, hread]
    rfl
  · have hcopy : copy (.name read) c = ([], .name (read ++ [c])) := if_neg hquote
    have hmem : '\x60' ∉ hangChar c rest := fun hmem =>
      (Text.mem_hangChar hmem).elim (fun h => hquote h.symm) (by decide)
    rw [HangsStep, hcopy, hangBefore, copyRun_name hmem, hangBefore, Text.hangBefore_concat]
    rfl

theorem hangsStep_quoted (read : List Char) {c : Char} {rest : List Char}
    (hkept : ¬(c = '\r' ∧ rest.head? = some '\n')) : HangsStep (.quoted read) c rest := by
  rw [HangsStep, hangBefore, copyRun_kept (.inr ⟨_, rfl⟩) hkept]
  by_cases hquote : c = '\x60'
  · subst hquote
    have hread : Text.hangBefore rest (read ++ ['\x60']) = hang read ++ ['\x60'] := by
      rw [Text.hangBefore_concat, Text.hangBefore_plain (by decide) (by decide),
        Text.hangChar_plain (by decide) (by decide)]
    exact congrArg (fun read => ([], Pending.name read)) hread.symm
  · have hcopy : ∀ read, copy (.quoted read) c = close (.name read) c := fun _ => if_neg hquote
    obtain ⟨htokens, hpending⟩ := Prod.mk.inj ((isBare_start c).hang rest)
    rw [hcopy, hcopy]
    exact Prod.ext (congrArg (Token.name (hang read) :: ·) htokens.symm) hpending.symm

theorem hangsStep_literal (isDouble : Bool) (read : List Char) (c : Char) (rest : List Char) :
    HangsStep (.literal isDouble read) c rest := by
  have hplain : ∀ {d : Char}, d = quote isDouble ∨ d = '\\' → d ≠ '\n' ∧ d ≠ '\r' ∧ d ≠ ' ' := by
    rintro d (rfl | rfl)
    · cases isDouble <;> decide
    · decide
  -- A mark stays as it is; anything else is read on, whatever is made of it.
  by_cases hmark : c = quote isDouble ∨ c = '\\'
  · obtain ⟨hfeed, hreturn, -⟩ := hplain hmark
    rw [HangsStep, Text.hangChar_plain hfeed hreturn, copyRun_single, hangBefore,
      Text.hangBefore_plain hfeed hreturn]
    by_cases hquote : c = quote isDouble
    · have hcopy : ∀ read, copy (.literal isDouble read) c = ([.literal read], .blank) :=
        fun _ => if_pos hquote
      rw [hcopy, hcopy]
      rfl
    · have hcopy : ∀ read, copy (.literal isDouble read) c = ([], .escape isDouble read) :=
        fun _ => (if_neg hquote).trans (if_pos (hmark.resolve_left hquote))
      rw [hcopy, hcopy]
      rfl
  · have hnone : ∀ {d : Char}, d = quote isDouble ∨ d = '\\' → d ∉ hangChar c rest :=
      fun hd hmem => (Text.mem_hangChar hmem).elim (fun h => hmark (h ▸ hd)) (hplain hd).2.2
    rw [not_or] at hmark
    have hcopy : copy (.literal isDouble read) c = ([], .literal isDouble (read ++ [c])) :=
      (if_neg hmark.1).trans (if_neg hmark.2)
    rw [HangsStep, hcopy, hangBefore, copyRun_literal (hnone (.inl rfl)) (hnone (.inr rfl)),
      hangBefore, Text.hangBefore_concat]
    rfl

/-- A line feed behind a backslash is read as it is, with or without an indentation. -/
theorem copyRun_escape (isDouble : Bool) (read blanks : List Char) (c : Char)
    (h : ∀ b ∈ blanks, b = ' ') :
    copyRun (.escape isDouble read) (c :: blanks) =
      ([], .literal isDouble (read ++ '\\' :: c :: blanks)) := by
  have hnone : ∀ {d : Char}, d ≠ ' ' → d ∉ blanks := fun hd hmem => hd (h _ hmem)
  have hquote : quote isDouble ≠ ' ' := by cases isDouble <;> decide
  rw [copyRun, copy, copyRun_literal (hnone hquote) (hnone (by decide)), List.append_assoc]
  rfl

theorem hangBefore_escape (c : Char) (rest read : List Char) :
    Text.hangBefore rest (read ++ ['\\', c]) = hang read ++ '\\' :: hangChar c rest := by
  rw [Text.hangBefore_append, List.cons_append, Text.hangBefore_plain (by decide) (by decide),
    Text.hangBefore, Text.hangChar_plain (by decide) (by decide), Text.hangBefore,
    Text.hangBefore, List.append_nil]
  rfl

/-- A character that is not dropped has spaces behind it at most. -/
theorem hangChar_kept {c : Char} {rest : List Char}
    (hkept : ¬(c = '\r' ∧ rest.head? = some '\n')) :
    ∃ blanks, (∀ b ∈ blanks, b = ' ') ∧ hangChar c rest = c :: blanks := by
  rcases Text.hangChar_cases c rest with hdropped | hsame | ⟨rfl, hfeed⟩
  · exact absurd hdropped.1 hkept
  · exact ⟨[], List.forall_mem_nil _, hsame⟩
  · exact ⟨Text.indentation, fun _ hb => Text.eq_of_mem_indentation hb, hfeed⟩

theorem hangsStep_escape (isDouble : Bool) (read : List Char) {c : Char} {rest : List Char}
    (hkept : ¬(c = '\r' ∧ rest.head? = some '\n')) : HangsStep (.escape isDouble read) c rest := by
  obtain ⟨blanks, hblanks, hchar⟩ := hangChar_kept hkept
  rw [HangsStep, copy, hangBefore, hangBefore, hangBefore_escape, hchar,
    copyRun_escape isDouble _ _ _ hblanks]
  rfl

theorem hangsStep_kept (p : Pending) {c : Char} {rest : List Char}
    (hkept : ¬(c = '\r' ∧ rest.head? = some '\n')) : HangsStep p c rest := by
  cases p with
  | name read => exact hangsStep_name read c rest
  | quoted read => exact hangsStep_quoted read hkept
  | literal isDouble read => exact hangsStep_literal isDouble read c rest
  | escape isDouble read => exact hangsStep_escape isDouble read hkept
  | _ => exact hangsStep_outside (by trivial) hkept

/-- Hanging some characters hangs what is read of them. -/
def HangsRun (p : Pending) (cs : List Char) : Prop :=
  copyRun (p.hangBefore cs) (hang cs) =
    ((copyRun p cs).1.map Token.hang, (copyRun p cs).2.hangBefore [])

theorem HangsStep.run {p : Pending} {c : Char} {rest : List Char} (h : HangsStep p c rest)
    (hrest : HangsRun (p.copy c).2 rest) : HangsRun p (c :: rest) := by
  rw [HangsStep] at h
  rw [HangsRun] at hrest
  rw [HangsRun, Text.hang_cons, copyRun_append, h, hrest, copyRun, List.map_append]

theorem hangsRun_outside {p : Pending} (h : p.IsOutside ∨ ∃ read, p = .quoted read)
    {more : List Char} (hmore : HangsRun p ('\n' :: more)) : HangsRun p ('\r' :: '\n' :: more) := by
  have hread : copyRun p ('\r' :: '\n' :: more) = copyRun p ('\n' :: more) := by
    have hsplit : '\r' :: '\n' :: more = ['\r', '\n'] ++ more := rfl
    rw [hsplit, copyRun_append, (copyRun_feed h).2, copyRun]
  have hsame : p.hangBefore ('\r' :: '\n' :: more) = p.hangBefore ('\n' :: more) := by
    rcases h with houtside | ⟨read, rfl⟩
    · cases p <;> first | rfl | cases houtside
    · rfl
  rw [HangsRun, hread, hsame]
  exact hmore

theorem hangsRun_escape (isDouble : Bool) (read : List Char) {more : List Char}
    (hmore : ∀ p, HangsRun p more) : HangsRun (.escape isDouble read) ('\r' :: '\n' :: more) := by
  have hkept : ¬('\n' = '\r' ∧ more.head? = some '\n') := fun h => absurd h.1 (by decide)
  obtain ⟨blanks, hblanks, hchar⟩ := hangChar_kept hkept
  have hread : copyRun (.escape isDouble read) ('\r' :: '\n' :: more) =
      copyRun (.literal isDouble (read ++ ['\\', '\r'] ++ ['\n'])) more := by
    cases isDouble <;> rfl
  have hhung : hang ('\r' :: '\n' :: more) = '\n' :: blanks ++ hang more := by
    rw [← hchar]
    exact Text.hang_cons '\n' more
  have hpending : (Pending.literal isDouble (read ++ ['\\', '\r'] ++ ['\n'])).hangBefore more =
      .literal isDouble (hang read ++ '\\' :: '\n' :: blanks) := by
    have hdropped : hangChar '\r' ('\n' :: more) = [] := if_pos ⟨rfl, rfl⟩
    rw [hangBefore, Text.hangBefore_concat, hangBefore_escape, hdropped, hchar, List.append_assoc]
    rfl
  have hrest := hmore (.literal isDouble (read ++ ['\\', '\r'] ++ ['\n']))
  rw [HangsRun, hpending] at hrest
  rw [HangsRun, hread, hhung, copyRun_append, hangBefore, copyRun_escape isDouble _ _ _ hblanks,
    hrest]
  rfl

/-- A carriage return that is dropped has a part of its own if it ends a word or a name or stands
behind a backslash: it is read together with the line feed behind it there. -/
theorem hangsRun_return (p : Pending) {more : List Char} (hfeed : ∀ p, HangsRun p ('\n' :: more))
    (hmore : ∀ p, HangsRun p more) : HangsRun p ('\r' :: '\n' :: more) := by
  cases p with
  | name read => exact (hangsStep_name read _ _).run (hfeed _)
  | literal isDouble read => exact (hangsStep_literal isDouble read _ _).run (hfeed _)
  | escape isDouble read => exact hangsRun_escape isDouble read hmore
  | quoted read => exact hangsRun_outside (.inr ⟨read, rfl⟩) (hfeed _)
  | _ => exact hangsRun_outside (.inl (by trivial)) (hfeed _)

/-- The recursion is on the number of characters, for two of them may be read at once. -/
theorem hangsRun (p : Pending) : ∀ cs, HangsRun p cs
  | [] => rfl
  | c :: rest => by
    by_cases hdropped : c = '\r' ∧ rest.head? = some '\n'
    · obtain ⟨rfl, hhead⟩ := hdropped
      cases rest with
      | nil => cases hhead
      | cons d more =>
        obtain rfl : d = '\n' := Option.some.inj hhead
        exact hangsRun_return p (fun q => hangsRun q ('\n' :: more)) fun q => hangsRun q more
    · exact (hangsStep_kept p hdropped).run (hangsRun _ rest)
termination_by cs => cs.length

theorem rest_hangBefore (p : Pending) : (p.hangBefore []).rest = p.rest.map Token.hang := by
  cases p <;> rfl

end Pending

theorem verbatim_hang (cs : List Char) : verbatim (hang cs) = (verbatim cs).map Token.hang := by
  have hrun : Pending.copyRun .blank (hang cs) = _ := Pending.hangsRun .blank cs
  rw [verbatim, hrun, Pending.rest_hangBefore, verbatim, List.map_append]

/-- What is made of a token in so many blocks. -/
def Token.hangs : Nat → Token → Token
  | 0, t => t
  | depth + 1, t => Token.hangs depth t.hang

theorem verbatim_hangs (depth : Nat) (cs : List Char) :
    verbatim (hangs depth cs) = (verbatim cs).map (Token.hangs depth) := by
  induction depth generalizing cs with
  | zero => exact (List.map_id' _).symm
  | succ depth ih =>
    rw [hangs, ih, verbatim_hang, List.map_map]
    rfl

theorem Token.IsBare.hangs {t : Token} (h : t.IsBare) (depth : Nat) : t.hangs depth = t := by
  induction depth with
  | zero => rfl
  | succ depth ih => rw [Token.hangs, h.hang, ih]

theorem Token.hangs_name (depth : Nat) (read : List Char) :
    (Token.name read).hangs depth = .name (Text.hangs depth read) := by
  induction depth generalizing read with
  | zero => rfl
  | succ depth ih => exact ih _

theorem Token.hangs_literal (depth : Nat) (read : List Char) :
    (Token.literal read).hangs depth = .literal (Text.hangs depth read) := by
  induction depth generalizing read with
  | zero => rfl
  | succ depth ih => exact ih _

end Hanging

section Blocks

namespace Pending

/-- What is read at the end of a line that leaves nothing open. -/
theorem copy_feed {p : Pending} (h : (p.copy '\n').2 = .blank) :
    p.copy '\n' = (p.rest, .blank) ∧
      (p.hangBefore []).copy '\n' = (p.rest.map Token.hang, .blank) := by
  cases p with
  | literal isDouble read => cases isDouble <;> cases h
  | name read => cases h
  | escape isDouble read => cases h
  | comment => cases h
  | star => cases h
  | _ => exact ⟨rfl, rfl⟩

theorem copyRun_blank {p : Pending} {c : Char} (hc : c = ' ' ∨ c = '\n')
    (h : (copyRun p [c, '\n']).2 = .blank) : copyRun p [c, '\n'] = copyRun p ['\n'] := by
  rcases hc with rfl | rfl
  all_goals
    cases p with
    | literal isDouble read => cases isDouble <;> cases h
    | name read => cases h
    | escape isDouble read => cases isDouble <;> cases h
    | comment => cases h
    | star => cases h
    | _ => rfl

/-- Blanks before the end of a line that leaves nothing open. -/
theorem copyRun_blanks {p : Pending} {blanks : List Char}
    (hblanks : ∀ c ∈ blanks, c = ' ' ∨ c = '\n') (h : (copyRun p (blanks ++ ['\n'])).2 = .blank) :
    copyRun p (blanks ++ ['\n']) = copyRun p ['\n'] := by
  induction blanks generalizing p with
  | nil => rfl
  | cons c rest ih =>
    rw [List.forall_mem_cons] at hblanks
    have hrest : (copyRun (p.copy c).2 (rest ++ ['\n'])).2 = .blank := h
    have hsplit : copyRun p (c :: (rest ++ ['\n'])) = copyRun p [c, '\n'] := by
      rw [copyRun, ih hblanks.2 hrest]
      rfl
    rw [List.cons_append, hsplit] at h ⊢
    exact copyRun_blank hblanks.1 h

end Pending

/-- Reading an indented block is reading the block hung, if its last line leaves nothing open. -/
theorem copyRun_indent {s : String} (h : (Pending.run .blank (s.toList ++ ['\n'])).2 = .blank) :
    Pending.copyRun .blank (s.toList ++ ['\n']) = (verbatim s.toList, .blank) ∧
      Pending.copyRun .blank ((Text.indent s).toList ++ ['\n']) =
        ((verbatim s.toList).map Token.hang, .blank) := by
  rw [run_eq] at h
  have hblank := Pending.value_eq_blank h
  rw [Pending.copyRun_append, Pending.copyRun_single] at hblank
  obtain ⟨hfeed, hhung⟩ := Pending.copy_feed hblank
  refine ⟨?_, ?_⟩
  · rw [Pending.copyRun_append, Pending.copyRun_single, hfeed, verbatim]
  · have hlead : ∀ cs, Pending.copyRun .blank ('\n' :: cs) = Pending.copyRun .blank cs :=
      fun _ => rfl
    have hrun : Pending.copyRun .blank (hang ('\n' :: s.toList)) = _ :=
      Pending.hangsRun .blank ('\n' :: s.toList)
    have hend : Pending.copyRun .blank (hang ('\n' :: s.toList) ++ ['\n']) =
        ((verbatim s.toList).map Token.hang, .blank) := by
      rw [Pending.copyRun_append, Pending.copyRun_single, hrun, hlead, hhung, verbatim,
        List.map_append]
    obtain ⟨blanks, hblanks, hindent⟩ := Text.indent_hangs s
    rw [← hindent, List.append_assoc, Pending.copyRun_append] at hend
    rw [Pending.copyRun_blanks hblanks (congrArg Prod.snd hend), ← Pending.copyRun_append,
      List.cons_append, hlead] at hend
    exact hend

end Blocks

section Parts

/-- The tokens of a text in so many blocks. -/
def hungTokens (depth : Nat) (s : String) : List Token := tokens (Text.hangs depth s.toList)

theorem hungTokens_eq (depth : Nat) (s : String) :
    hungTokens depth s = (verbatim s.toList).map fun t => (t.hangs depth).value := by
  rw [hungTokens, tokens_eq, verbatim_hangs, List.map_map]
  rfl

/-- The text leaves no quote or comment open, and these are its tokens in so many blocks. -/
structure ReadsAt (depth : Nat) (s : String) (ts : List Token) : Prop where
  isRest : (Pending.run .blank s.toList).2.IsRest
  tokens : hungTokens depth s = ts

/-- Neither names nor literals are among the tokens. -/
def AreBare (ts : List Token) : Prop := ∀ t ∈ ts, t.IsBare

instance : DecidablePred AreBare := fun ts => inferInstanceAs (Decidable (∀ t ∈ ts, t.IsBare))

def textTokens (s : String) : List Token := tokens s.toList

variable {depth : Nat} {s t m : String} {ts us : List Token}

theorem ReadsAt.isPart (h : ReadsAt depth s ts) : IsPart (fun _ => True) s := ⟨h.isRest, trivial⟩

theorem ReadsAt.append (h : ReadsAt depth s ts) (h' : ReadsAt depth t us)
    (hmeet : Stops s ∨ Starts t) : ReadsAt depth (s ++ t) (ts ++ us) := by
  have hpart : IsPart (fun _ => True) (s ++ t) :=
    h.isPart.append h'.isPart hmeet fun _ _ => trivial
  refine ⟨hpart.isRest, ?_⟩
  rw [hungTokens_eq, String.toList_append, verbatim_append h.isRest hmeet, List.map_append,
    ← hungTokens_eq, ← hungTokens_eq, h.tokens, h'.tokens]

theorem Token.isBare_value {t : Token} (h : t.value.IsBare) : t.IsBare := by
  cases t <;> exact h

/-- Blocks leave a text alone that has no name and no literal in it. -/
theorem readsAt_bare (h : IsPart AreBare s) : ReadsAt depth s (textTokens s) := by
  refine ⟨h.isRest, ?_⟩
  rw [hungTokens_eq, textTokens, tokens_eq]
  refine List.map_congr_left fun t ht => ?_
  have hbare : t.value.IsBare :=
    h.holds t.value (by rw [tokens_eq]; exact List.mem_map_of_mem ht)
  rw [(Token.isBare_value hbare).hangs]

/-- The text leaves no quote and no comment open. -/
def IsTidy (s : String) : Prop := (Pending.run .blank s.toList).2.IsRest

instance : DecidablePred IsTidy := fun s =>
  inferInstanceAs (Decidable (Pending.run .blank s.toList).2.IsRest)

theorem IsTidy.readsAt (h : IsTidy s) : ReadsAt depth s (hungTokens depth s) := ⟨h, rfl⟩

theorem readsAt_empty : ReadsAt depth "" [] := readsAt_bare (s := "") (by decide)

theorem ReadsAt.link (h : ReadsAt depth s ts) (hm : IsLink AreBare m) (h' : ReadsAt depth t us) :
    ReadsAt depth (s ++ m ++ t) (ts ++ textTokens m ++ us) :=
  (h.append (readsAt_bare hm.isPart) (.inr hm.starts)).append h'
    (.inl (hm.stops_append h.isPart))

theorem ReadsAt.behind (h : ReadsAt depth s ts) (hm : IsPart AreBare m ∧ Stops m) :
    ReadsAt depth (m ++ s) (textTokens m ++ ts) := (readsAt_bare hm.1).append h (.inl hm.2)

theorem ReadsAt.before (h : ReadsAt depth s ts) (hm : IsPart AreBare m ∧ Starts m) :
    ReadsAt depth (s ++ m) (ts ++ textTokens m) := h.append (readsAt_bare hm.1) (.inr hm.2)

theorem ReadsAt.enclosed {opening closing : String} (h : ReadsAt depth s ts)
    (ho : IsPart AreBare opening ∧ Stops opening) (hc : IsPart AreBare closing ∧ Starts closing) :
    ReadsAt depth (opening ++ s ++ closing) (textTokens opening ++ ts ++ textTokens closing) :=
  (h.behind ho).before hc

theorem readsAt_intercalate (hm : IsLink AreBare m) {texts : List String}
    {tss : List (List Token)} (h : List.Forall₂ (ReadsAt depth) texts tss) :
    ReadsAt depth (String.intercalate m texts) ((textTokens m).intercalate tss) := by
  induction h with
  | nil => exact readsAt_empty
  | cons hfirst hrest ih =>
    cases hrest with
    | nil => simpa using hfirst
    | cons _ _ =>
      rw [String.intercalate_cons_cons, List.intercalate_cons_cons]
      exact hfirst.link hm ih

end Parts

section Names

variable {depth : Nat}

theorem mem_hangs_feed {cs : List Char} : '\n' ∈ Text.hangs depth cs ↔ '\n' ∈ cs := by
  induction depth generalizing cs with
  | zero => exact Iff.rfl
  | succ depth ih => exact ih.trans Text.mem_hangBefore_feed

theorem notMem_of_isWord {cs : List Char} (h : Text.isWord cs = true) : '\n' ∉ cs := fun hmem =>
  absurd ((parts_of_isWord h).2 _ hmem) (by decide)

theorem hangs_nameToken (cs : List Char) :
    (nameToken cs).hangs depth = nameToken (Text.hangs depth cs) := by
  by_cases hline : '\n' ∈ cs
  · have hword : ∀ {ds : List Char}, '\n' ∈ ds → Text.isWord ds = false := fun hmem =>
      Bool.eq_false_iff.mpr fun h => notMem_of_isWord h hmem
    rw [nameToken, nameToken, hword hline, hword (mem_hangs_feed.mpr hline)]
    exact Token.hangs_name depth cs
  · rw [Text.hangs_line depth hline, nameToken]
    split
    next => exact Token.IsBare.hangs (t := .word cs) trivial depth
    next => rw [Token.hangs_name, Text.hangs_line depth hline]

/-- The token of a name in so many blocks. -/
def nameAt (depth : Nat) (key : String) : Token := nameToken (Text.hangs depth key.toList)

theorem nameToken_injective {cs ds : List Char} (h : nameToken cs = nameToken ds) : cs = ds := by
  unfold nameToken at h
  split at h <;> split at h <;> first | exact Token.word.inj h | exact Token.name.inj h | cases h

/-- A name keeps its token in blocks exactly if there is no line feed in it. -/
theorem nameAt_eq_iff (depth : Nat) (key : String) :
    nameAt depth key = nameToken key.toList ↔ depth = 0 ∨ '\n' ∉ key.toList :=
  ⟨fun h => (Text.hangs_eq_self_iff depth key.toList).mp (nameToken_injective h),
    fun h => congrArg nameToken ((Text.hangs_eq_self_iff depth key.toList).mpr h)⟩

theorem value_nameToken (cs : List Char) : (nameToken cs).value = nameToken cs := by
  unfold nameToken
  split <;> rfl

theorem readsAt_name (key : String) : ReadsAt depth (Text.name key) [nameAt depth key] := by
  have hreads : Reads (Text.name key).toList [nameToken key.toList] := by
    rw [Text.name, String.toList_ofList]
    exact reads_name _
  refine ⟨(hreads.isRest : Pending.IsRest _), ?_⟩
  have htokens := hreads.tokens
  rw [tokens_eq] at htokens
  obtain ⟨t, hverbatim, hvalue⟩ := List.map_eq_singleton_iff.mp htokens
  have ht : t = nameToken key.toList := by
    rw [← hvalue]
    cases t with
    | literal read =>
      unfold nameToken at hvalue
      split at hvalue <;> cases hvalue
    | _ => rfl
  rw [hungTokens_eq, hverbatim, ht, List.map_singleton, hangs_nameToken, value_nameToken, nameAt]

end Names

section Literals

variable {depth : Nat}

theorem copyRun_escapeChars (cs read : List Char) :
    Pending.copyRun (.literal true read) (Text.escapeChars cs ++ ['"']) =
      ([.literal (read ++ Text.escapeChars cs)], .blank) := by
  induction cs generalizing read with
  | nil =>
    rw [Text.escapeChars, List.append_nil]
    rfl
  | cons c rest ih =>
    have hescape : ∀ d, Pending.copyRun (.literal true read)
        ('\\' :: d :: (Text.escapeChars rest ++ ['"'])) =
          ([.literal (read ++ '\\' :: d :: Text.escapeChars rest)], .blank) := fun d =>
      (ih (read ++ ['\\', d])).trans (by rw [List.append_assoc]; rfl)
    rw [Text.escapeChars]
    repeat' split
    · exact hescape '\\'
    · exact hescape '"'
    · exact hescape 'n'
    · rename_i hback hquote hline
      have hcopy : Pending.copy (.literal true read) c = ([], .literal true (read ++ [c])) :=
        (if_neg hquote).trans (if_neg hback)
      rw [List.cons_append, Pending.copyRun, hcopy, ih, List.append_assoc]
      rfl

theorem notMem_escapeChars (cs : List Char) : '\n' ∉ Text.escapeChars cs := by
  induction cs with
  | nil => exact List.not_mem_nil
  | cons c rest ih =>
    have hplain : ∀ {d : Char}, d ≠ '\n' → '\n' ∉ d :: Text.escapeChars rest := fun hd hmem =>
      (List.mem_cons.mp hmem).elim (fun h => hd h.symm) ih
    have hescape : ∀ {d : Char}, d ≠ '\n' → '\n' ∉ '\\' :: d :: Text.escapeChars rest :=
      fun hd hmem => (List.mem_cons.mp hmem).elim (by decide) (hplain hd)
    rw [Text.escapeChars]
    repeat' split
    · exact hescape (by decide)
    · exact hescape (by decide)
    · exact hescape (by decide)
    · exact hplain ‹_›

/-- The line feeds of a string are escaped, so a literal is the same at every depth. -/
theorem readsAt_literal (value : String) :
    ReadsAt depth (Text.literal value) [.literal value.toList] := by
  have hreads : Reads (Text.literal value).toList [.literal value.toList] := by
    rw [Text.literal, String.toList_ofList]
    exact reads_literal _
  have hverbatim : verbatim (Text.literal value).toList =
      [.literal (Text.escapeChars value.toList)] := by
    have hrun : Pending.copyRun .blank (Text.literalChars value.toList) =
        ([.literal (Text.escapeChars value.toList)], .blank) :=
      copyRun_escapeChars value.toList []
    rw [Text.literal, String.toList_ofList, verbatim, hrun]
    rfl
  have htokens := hreads.tokens
  rw [tokens_eq, hverbatim] at htokens
  refine ⟨(hreads.isRest : Pending.IsRest _), ?_⟩
  rw [hungTokens_eq, hverbatim, List.map_singleton, Token.hangs_literal,
    Text.hangs_line depth (notMem_escapeChars _)]
  exact htokens

open Json (Numeral) in
theorem isPart_bare {s : String} (h : Numeral s.toList) (hlast : EndsInDigit s.toList) :
    IsPart AreBare s := by
  obtain ⟨ts, read, hreads, htokens, -⟩ := reads_numeral h hlast
  refine hreads.isPart (List.forall_mem_append.mpr ⟨fun t ht => ?_, ?_⟩)
  · have hnumeral := htokens t ht
    cases t <;> trivial
  · exact List.forall_mem_singleton.mpr trivial

end Literals

section Lines

/-- With a line feed behind it the text leaves no quote or comment open, and these are its tokens
in so many blocks. -/
structure LineAt (depth : Nat) (s : String) (ts : List Token) : Prop where
  stops : (Pending.run .blank (s.toList ++ ['\n'])).2 = .blank
  tokens : hungTokens depth s = ts

variable {depth : Nat} {s t : String} {ts us : List Token}

theorem ReadsAt.line (h : ReadsAt depth s ts) : LineAt depth s ts := by
  refine ⟨?_, h.tokens⟩
  rw [Pending.run_append, Pending.run, step_separator h.isRest (by decide)]
  rfl

theorem LineAt.closed (h : LineAt depth s ts) :
    ReadsAt depth (s ++ "\n") ts ∧ Stops (s ++ "\n") := by
  have hchars : (s ++ "\n").toList = s.toList ++ ['\n'] := String.toList_append
  have hstops : Stops (s ++ "\n") := by
    rw [Stops, hchars]
    exact h.stops
  refine ⟨⟨(hstops.isRest : Pending.IsRest _), ?_⟩, hstops⟩
  rw [hungTokens_eq, hchars, verbatim, (copyRun_indent h.stops).1, Pending.rest, List.append_nil,
    ← hungTokens_eq, h.tokens]

/-- Lines are read one by one. -/
theorem LineAt.join (h : LineAt depth s ts) (h' : LineAt depth t us) :
    LineAt depth (s ++ "\n" ++ t) (ts ++ us) := by
  obtain ⟨hfirst, hstops⟩ := h.closed
  refine ⟨?_, ?_⟩
  · rw [Stops] at hstops
    rw [String.toList_append, List.append_assoc, Pending.run_append, hstops]
    exact h'.stops
  · rw [hungTokens_eq, String.toList_append, verbatim_append hfirst.isRest (.inl hstops),
      List.map_append, ← hungTokens_eq, ← hungTokens_eq, hfirst.tokens, h'.tokens]

theorem lineAt_intercalate {texts : List String} {tss : List (List Token)}
    (h : List.Forall₂ (LineAt depth) texts tss) :
    LineAt depth (String.intercalate "\n" texts) tss.flatten := by
  induction h with
  | nil => exact readsAt_empty.line
  | cons hfirst hrest ih =>
    cases hrest with
    | nil => simpa using hfirst
    | cons _ _ =>
      rw [String.intercalate_cons_cons]
      exact hfirst.join ih

theorem LineAt.indent (h : LineAt (depth + 1) s ts) :
    ReadsAt depth (Text.indent s ++ "\n") ts ∧ Stops (Text.indent s ++ "\n") := by
  have hchars : (Text.indent s ++ "\n").toList = (Text.indent s).toList ++ ['\n'] :=
    String.toList_append
  have hrun := (copyRun_indent h.stops).2
  have hstops : Stops (Text.indent s ++ "\n") := by
    rw [Stops, hchars, run_eq, hrun]
    rfl
  refine ⟨⟨(hstops.isRest : Pending.IsRest _), ?_⟩, hstops⟩
  rw [hungTokens_eq, hchars, verbatim, hrun, Pending.rest, List.append_nil, List.map_map,
    ← h.tokens, hungTokens_eq]
  rfl

/-- In its braces a block stands one level deeper. -/
theorem LineAt.block (h : LineAt (depth + 1) s ts) {keyword : String}
    (hkeyword : IsPart AreBare keyword) :
    ReadsAt depth (blockText keyword s)
      (textTokens keyword ++ [.mark '\x7b'] ++ ts ++ [.mark '\x7d']) := by
  have hopening : IsLink AreBare " \x7b\n" := by decide
  have hfront : ReadsAt depth (keyword ++ " \x7b\n") (textTokens keyword ++ [.mark '\x7b']) :=
    (readsAt_bare hkeyword).before ⟨hopening.isPart, hopening.starts⟩
  have hstops : Stops (keyword ++ " \x7b\n") := hopening.stops_append hkeyword
  have htext : blockText keyword s =
      (keyword ++ " \x7b\n") ++ (Text.indent s ++ "\n") ++ "\x7d" := by
    have hclosing : ("\n\x7d" : String) = "\n" ++ "\x7d" := by decide
    rw [blockText, hclosing]
    simp only [String.append_assoc]
  have hclosing : IsPart AreBare "\x7d" ∧ Starts "\x7d" := by decide
  rw [htext]
  exact (hfront.append h.indent.1 (.inl hstops)).before hclosing

end Lines

end GraphSelection.Reread
