import GraphSelection.Proofs.Reread.Tokens

/-!
The boolean structure of a predicate, read from its tokens. Outside all brackets `OR` separates
first, what is left `AND` separates, then `NOT` takes the rest, brackets around all of it are
opened, and anything else is an atom. A word behind a dot, a colon or a dollar sign is a key, a
label or a parameter whatever it spells; other words are keywords in any case of their letters.
-/
namespace GraphSelection.Reread

/-- Atoms under conjunctions, disjunctions and negations. -/
inductive Tree (α : Type) where
  | atom (value : α)
  | all (parts : List (Tree α))
  | any (parts : List (Tree α))
  | not (inner : Tree α)

namespace Tree

variable {α β : Type}

def conjuncts : Tree α → List (Tree α)
  | .all parts => parts
  | t => [t]

def disjuncts : Tree α → List (Tree α)
  | .any parts => parts
  | t => [t]

def joinAll : List (Tree α) → Tree α
  | [t] => t
  | ts => .all ts

def joinAny : List (Tree α) → Tree α
  | [t] => t
  | ts => .any ts

mutual
def map (f : α → β) : Tree α → Tree β
  | .atom a => .atom (f a)
  | .all parts => .all (mapParts f parts)
  | .any parts => .any (mapParts f parts)
  | .not inner => .not (map f inner)
def mapParts (f : α → β) : List (Tree α) → List (Tree β)
  | [] => []
  | t :: rest => map f t :: mapParts f rest
end

mutual
/-- The tree without junctions of one part, of conjunctions directly in conjunctions and of
disjunctions directly in disjunctions. -/
def normal : Tree α → Tree α
  | .atom a => .atom a
  | .all parts => joinAll ((normalParts parts).flatMap conjuncts)
  | .any parts => joinAny ((normalParts parts).flatMap disjuncts)
  | .not inner => .not inner.normal
def normalParts : List (Tree α) → List (Tree α)
  | [] => []
  | t :: rest => t.normal :: normalParts rest
end

end Tree

inductive Junction where
  | and
  | or
  deriving DecidableEq

def Junction.keyword : Junction → String
  | .and => "AND"
  | .or => "OR"

/-- The word in capitals, small letters or a mixture of them. -/
def Token.isKeyword (keyword : String) : Token → Bool
  | .word chars => chars.map Char.toUpper == keyword.toList
  | _ => false

def opens (c : Char) : Bool := c == '(' || c == '[' || c == '\x7b'

def closes (c : Char) : Bool := c == ')' || c == ']' || c == '\x7d'

/-- The word behind the mark is no keyword. -/
def binds (c : Char) : Bool := c == '.' || c == ':' || c == '$'

/-- How many brackets are open, and whether the last token binds the next one. -/
structure Level where
  depth : Nat
  bound : Bool
  deriving DecidableEq

namespace Level

def ground : Level := ⟨0, false⟩

def next (l : Level) : Token → Level
  | .mark c =>
      if opens c then ⟨l.depth + 1, false⟩
      else if closes c then ⟨l.depth - 1, false⟩
      else ⟨l.depth, binds c⟩
  | _ => ⟨l.depth, false⟩

def after (l : Level) (ts : List Token) : Level := ts.foldl next l

/-- The token is a keyword outside all brackets. -/
def marks (l : Level) (keyword : String) (t : Token) : Bool :=
  l.depth == 0 && !l.bound && t.isKeyword keyword

end Level

/-- Tokens put before the first of some pieces. -/
def before (ts : List Token) : List (List Token) → List (List Token)
  | [] => [ts]
  | piece :: pieces => (ts ++ piece) :: pieces

/-- The pieces between the junctions outside all brackets; always at least one. -/
def cut (j : Junction) (l : Level) : List Token → List (List Token)
  | [] => [[]]
  | t :: rest =>
      if l.marks j.keyword t then [] :: cut j (l.next t) rest
      else before [t] (cut j (l.next t) rest)

/-- The tokens up to the bracket that closes the last of the open ones, if all end there. -/
def inside (l : Level) : List Token → Option (List Token)
  | [] => none
  | t :: rest =>
      if (l.next t).depth = 0 then
        if rest.isEmpty then some [] else none
      else (inside (l.next t) rest).map (t :: ·)

/-- What stands in parentheses around all of the tokens. -/
def group? : List Token → Option (List Token)
  | .mark '(' :: rest => inside ⟨1, false⟩ rest
  | _ => none

/-- A predicate that is no junction: a negation, a predicate in parentheses or an atom. -/
def readPart (next : List Token → Option (Tree (List Token))) :
    List Token → Option (Tree (List Token))
  | [] => none
  | t :: rest =>
      if t.isKeyword "NOT" then (next rest).map .not
      else
        match group? (t :: rest) with
        | some inner => next inner
        | none => some (.atom (t :: rest))

/-- The tree of a predicate when those of its parts can be read. -/
def readStep (next : List Token → Option (Tree (List Token))) (ts : List Token) :
    Option (Tree (List Token)) :=
  match cut .or .ground ts with
  | [_] =>
      match cut .and .ground ts with
      | [_] => readPart next ts
      | pieces => (pieces.mapM next).map .all
  | pieces => (pieces.mapM next).map .any

/-- The tree of a predicate with at most so many steps inside one another. -/
def readTree : Nat → List Token → Option (Tree (List Token))
  | 0, _ => none
  | fuel + 1, ts => readStep (readTree fuel) ts

/-- The tree of the predicate that a text is. -/
def reread (text : String) : Option (Tree (List Token)) :=
  let ts := tokens text.toList
  readTree (ts.length + 1) ts

section Levels

/-- The token may stand here: no bracket closes that was open before, and there is no junction
outside all brackets. -/
def Level.Admits (floor : Nat) (l : Level) : Token → Prop
  | .unended => False
  | .mark c => closes c = true → floor < l.depth
  | t => ∀ j : Junction, l.marks j.keyword t = false

def Passes (floor : Nat) : Level → List Token → Prop
  | _, [] => True
  | l, t :: rest => l.Admits floor t ∧ Passes floor (l.next t) rest

/-- Brackets are closed, and no junction stands outside of them. -/
def Neutral (ts : List Token) : Prop :=
  Passes 0 .ground ts ∧ Level.ground.after ts = .ground

/-- Brackets are closed. -/
def Closed (ts : List Token) : Prop :=
  ∀ depth bound, Passes (depth + 1) ⟨depth + 1, bound⟩ ts ∧
    (Level.after ⟨depth + 1, bound⟩ ts).depth = depth + 1

theorem after_append (l : Level) (ts us : List Token) :
    l.after (ts ++ us) = (l.after ts).after us := List.foldl_append

theorem passes_append {floor : Nat} {l : Level} {ts us : List Token} :
    Passes floor l (ts ++ us) ↔ Passes floor l ts ∧ Passes floor (l.after ts) us := by
  induction ts generalizing l with
  | nil => exact (true_and _).symm ▸ Iff.rfl
  | cons t rest ih =>
    rw [List.cons_append, Passes, Passes, ih, and_assoc]
    rfl

theorem neutral_nil : Neutral [] := ⟨trivial, rfl⟩

theorem Neutral.append {ts us : List Token} (h : Neutral ts) (h' : Neutral us) :
    Neutral (ts ++ us) := by
  refine ⟨passes_append.mpr ⟨h.1, ?_⟩, ?_⟩
  · rw [h.2]
    exact h'.1
  · rw [after_append, h.2, h'.2]

theorem closed_nil : Closed [] := fun _ _ => ⟨trivial, rfl⟩

theorem Closed.append {ts us : List Token} (h : Closed ts) (h' : Closed us) :
    Closed (ts ++ us) := by
  intro depth bound
  obtain ⟨hpasses, hdepth⟩ := h depth bound
  generalize hlevel : Level.after ⟨depth + 1, bound⟩ ts = level at hdepth
  obtain ⟨depth', bound'⟩ := level
  obtain rfl : depth' = depth + 1 := hdepth
  rw [passes_append, after_append, hlevel]
  exact ⟨⟨hpasses, (h' depth bound').1⟩, (h' depth bound').2⟩

/-- What passes on the ground passes inside brackets as well. -/
theorem Passes.raise {ts : List Token} {floor depth : Nat} {bound : Bool}
    (h : Passes floor ⟨depth, bound⟩ ts) (up : Nat) (bound' : Bool) :
    Passes (floor + (up + 1)) ⟨depth + (up + 1), bound'⟩ ts ∧
      (Level.after ⟨depth + (up + 1), bound'⟩ ts).depth =
        (Level.after ⟨depth, bound⟩ ts).depth + (up + 1) := by
  induction ts generalizing depth bound bound' with
  | nil => exact ⟨trivial, rfl⟩
  | cons t rest ih =>
    obtain ⟨hadmits, hrest⟩ := h
    -- Inside brackets no word is a keyword, and each bracket counts from further up.
    have hnext : ∃ depth' bound₁ bound₂, Level.next ⟨depth, bound⟩ t = ⟨depth', bound₁⟩ ∧
        Level.next ⟨depth + (up + 1), bound'⟩ t = ⟨depth' + (up + 1), bound₂⟩ := by
      cases t with
      | mark c =>
        rw [Level.next, Level.next]
        split
        next => exact ⟨_, _, _, rfl, by rw [Nat.add_right_comm]⟩
        next =>
          split
          next hcloses =>
            have hpos : floor < depth := hadmits hcloses
            have hless : depth + (up + 1) - 1 = depth - 1 + (up + 1) := by omega
            exact ⟨depth - 1, false, false, rfl, congrArg (Level.mk · false) hless⟩
          next => exact ⟨_, _, _, rfl, rfl⟩
      | _ => exact ⟨_, _, _, rfl, rfl⟩
    obtain ⟨depth', bound₁, bound₂, hlow, hhigh⟩ := hnext
    rw [hlow] at hrest
    obtain ⟨hpasses, hdepth⟩ := ih hrest bound₂
    have hadmitsHigh : Level.Admits (floor + (up + 1)) ⟨depth + (up + 1), bound'⟩ t := by
      cases t with
      | unended => exact hadmits
      | mark c => exact fun hcloses => Nat.add_lt_add_right (hadmits hcloses) _
      | _ => exact fun _ => rfl
    constructor
    · exact ⟨hadmitsHigh, by rw [hhigh]; exact hpasses⟩
    · rw [Level.after, Level.after, List.foldl_cons, List.foldl_cons, hlow, hhigh]
      exact hdepth

theorem Neutral.closed {ts : List Token} (h : Neutral ts) : Closed ts := by
  intro depth bound
  obtain ⟨hpasses, hdepth⟩ := h.1.raise depth bound
  rw [Nat.zero_add] at hpasses hdepth
  refine ⟨hpasses, ?_⟩
  rw [hdepth]
  exact (congrArg (fun l : Level => l.depth + (depth + 1)) h.2).trans (Nat.zero_add _)

/-- Words, names and literals may stand inside brackets, and marks that are no brackets. -/
def Token.IsInner : Token → Prop
  | .unended => False
  | .mark c => opens c = false ∧ closes c = false
  | _ => True

theorem closed_single {t : Token} (h : t.IsInner) : Closed [t] := by
  intro depth bound
  cases t with
  | unended => cases h
  | mark c =>
    refine ⟨⟨fun hcloses => absurd hcloses (by rw [h.2]; exact Bool.false_ne_true), trivial⟩, ?_⟩
    rw [Level.after, List.foldl_cons, List.foldl_nil, Level.next, h.1, h.2]
    rfl
  | _ => exact ⟨⟨fun _ => rfl, trivial⟩, rfl⟩

/-- Words that are no junctions, names and literals may stand anywhere, and marks that are neither
brackets nor bind what follows. -/
def Token.IsOuter : Token → Prop
  | .unended => False
  | .mark c => opens c = false ∧ closes c = false ∧ binds c = false
  | t => ∀ j : Junction, t.isKeyword j.keyword = false

theorem neutral_single {t : Token} (h : t.IsOuter) : Neutral [t] := by
  cases t with
  | unended => cases h
  | mark c =>
    refine ⟨⟨fun hcloses => absurd hcloses (by rw [h.2.1]; exact Bool.false_ne_true), trivial⟩, ?_⟩
    rw [Level.after, List.foldl_cons, List.foldl_nil, Level.next, h.1, h.2.1, h.2.2]
    rfl
  | _ => exact ⟨⟨h, trivial⟩, rfl⟩

/-- Behind a mark that binds it a word is no keyword. -/
theorem neutral_bound {c : Char} {cs : List Char} (hopens : opens c = false)
    (hcloses : closes c = false) (hbinds : binds c = true) : Neutral [.mark c, nameToken cs] := by
  have hlevel : Level.ground.next (.mark c) = ⟨0, true⟩ := by
    rw [Level.next, hopens, hcloses, hbinds]
    rfl
  have hname : Level.Admits 0 ⟨0, true⟩ (nameToken cs) ∧
      Level.next ⟨0, true⟩ (nameToken cs) = .ground := by
    unfold nameToken
    split
    next => exact ⟨fun _ => rfl, rfl⟩
    next => exact ⟨fun _ => rfl, rfl⟩
  refine ⟨⟨fun h => absurd h (by rw [hcloses]; exact Bool.false_ne_true), ?_⟩, ?_⟩
  · rw [hlevel]
    exact ⟨hname.1, trivial⟩
  · rw [Level.after, List.foldl_cons, List.foldl_cons, List.foldl_nil, hlevel, hname.2]

theorem Passes.mono {floor floor' : Nat} (hle : floor' ≤ floor) {l : Level} {ts : List Token}
    (h : Passes floor l ts) : Passes floor' l ts := by
  induction ts generalizing l with
  | nil => trivial
  | cons t rest ih =>
    refine ⟨?_, ih h.2⟩
    cases t with
    | unended => exact h.1
    | mark c => exact fun hcloses => Nat.lt_of_le_of_lt hle (h.1 hcloses)
    | _ => exact h.1

theorem next_closes {c : Char} (hopens : opens c = false) (h : closes c = true) (l : Level) :
    l.next (.mark c) = ⟨l.depth - 1, false⟩ := by
  rw [Level.next, hopens, if_neg Bool.false_ne_true, if_pos h]

/-- One bracket is left open. -/
def Opens (ts : List Token) : Prop := Passes 0 .ground ts ∧ Level.ground.after ts = ⟨1, false⟩

/-- The open bracket is closed. -/
def Closes (ts : List Token) : Prop :=
  ∀ bound, Passes 0 ⟨1, bound⟩ ts ∧ Level.after ⟨1, bound⟩ ts = .ground

/-- Brackets make neutral whatever closes its own. -/
theorem Closed.enclosed {ts opening closing : List Token} (h : Closed ts) (ho : Opens opening)
    (hc : Closes closing) : Neutral (opening ++ ts ++ closing) := by
  obtain ⟨hpasses, hdepth⟩ := h 0 false
  generalize hlevel : Level.after ⟨0 + 1, false⟩ ts = level at hdepth
  obtain ⟨depth, bound⟩ := level
  obtain rfl : depth = 1 := hdepth
  have hafter : Level.ground.after (opening ++ ts) = ⟨1, bound⟩ := by
    rw [after_append, ho.2]
    exact hlevel
  constructor
  · rw [passes_append, passes_append, hafter, ho.2]
    exact ⟨⟨ho.1, hpasses.mono (Nat.zero_le _)⟩, (hc bound).1⟩
  · rw [after_append, hafter, (hc bound).2]

instance (floor : Nat) (l : Level) (t : Token) : Decidable (l.Admits floor t) :=
  match t with
  | .unended => inferInstanceAs (Decidable False)
  | .mark c => inferInstanceAs (Decidable (closes c = true → floor < l.depth))
  | .word _ | .name _ | .literal _ =>
      decidable_of_iff (l.marks "AND" _ = false ∧ l.marks "OR" _ = false)
        ⟨fun h j => match j with | .and => h.1 | .or => h.2, fun h => ⟨h .and, h .or⟩⟩

instance Passes.decidable (floor : Nat) : (l : Level) → (ts : List Token) →
    Decidable (Passes floor l ts)
  | _, [] => inferInstanceAs (Decidable True)
  | l, t :: rest =>
      have := Passes.decidable floor (l.next t) rest
      inferInstanceAs (Decidable (_ ∧ _))

instance (ts : List Token) : Decidable (Neutral ts) := inferInstanceAs (Decidable (_ ∧ _))

instance (ts : List Token) : Decidable (Opens ts) := inferInstanceAs (Decidable (_ ∧ _))

instance (ts : List Token) : Decidable (Closes ts) :=
  inferInstanceAs (Decidable (∀ _ : Bool, _ ∧ _))

end Levels

section Cuts

variable {j : Junction} {floor : Nat} {l : Level}

theorem before_ne_nil (ts : List Token) (pieces : List (List Token)) : before ts pieces ≠ [] := by
  cases pieces <;> exact List.cons_ne_nil _ _

theorem cut_ne_nil (j : Junction) (l : Level) (ts : List Token) : cut j l ts ≠ [] := by
  cases ts with
  | nil => exact List.cons_ne_nil _ _
  | cons t rest =>
    rw [cut]
    split
    next => exact List.cons_ne_nil _ _
    next => exact before_ne_nil _ _

theorem before_nil {pieces : List (List Token)} (h : pieces ≠ []) : before [] pieces = pieces := by
  cases pieces with
  | nil => exact absurd rfl h
  | cons piece pieces => rfl

theorem before_before (ts us : List Token) (pieces : List (List Token)) :
    before ts (before us pieces) = before (ts ++ us) pieces := by
  cases pieces with
  | nil => rfl
  | cons piece pieces => simp only [before, List.append_assoc]

theorem Level.Admits.marks {t : Token} (h : l.Admits floor t) (j : Junction) :
    l.marks j.keyword t = false := by
  cases t with
  | mark c => exact Bool.and_false _
  | unended => cases h
  | _ => exact h j

/-- Nothing is cut before the first junction outside all brackets. -/
theorem cut_append {ts : List Token} (h : Passes floor l ts) (rest : List Token) :
    cut j l (ts ++ rest) = before ts (cut j (l.after ts) rest) := by
  induction ts generalizing l with
  | nil => exact (before_nil (cut_ne_nil _ _ _)).symm
  | cons t more ih =>
    rw [List.cons_append, cut, h.1.marks j, if_neg Bool.false_ne_true, ih h.2, before_before]
    rfl

theorem cut_neutral {ts : List Token} (h : Neutral ts) : cut j .ground ts = [ts] := by
  have hcut := cut_append (j := j) h.1 []
  rwa [List.append_nil, h.2, cut, before, List.append_nil] at hcut

def Junction.token (j : Junction) : Token := .word j.keyword.toList

/-- Pieces with a junction between each two of them. -/
def joined (j : Junction) : List (List Token) → List Token
  | [] => []
  | [piece] => piece
  | piece :: rest => piece ++ j.token :: joined j rest

theorem marks_token (j j' : Junction) :
    Level.ground.marks j'.keyword j.token = decide (j = j') := by
  cases j <;> cases j' <;> decide

theorem cut_joined {pieces : List (List Token)} (hne : pieces ≠ [])
    (h : ∀ ts ∈ pieces, Neutral ts) : cut j .ground (joined j pieces) = pieces := by
  induction pieces with
  | nil => exact absurd rfl hne
  | cons piece rest ih =>
    rw [List.forall_mem_cons] at h
    cases rest with
    | nil => exact cut_neutral h.1
    | cons second more =>
      rw [joined, cut_append h.1.1, h.1.2, cut, marks_token, decide_eq_true rfl, if_pos rfl]
      · have hnext : Level.ground.next j.token = .ground := rfl
        rw [hnext, ih (List.cons_ne_nil _ _) h.2, before, List.append_nil]
      · exact List.cons_ne_nil _ _

/-- The other junction does not cut. -/
theorem cut_joined_other {other : Junction} (hother : j ≠ other) {pieces : List (List Token)}
    (h : ∀ ts ∈ pieces, Neutral ts) :
    cut other .ground (joined j pieces) = [joined j pieces] := by
  induction pieces with
  | nil => rfl
  | cons piece rest ih =>
    rw [List.forall_mem_cons] at h
    cases rest with
    | nil => exact cut_neutral h.1
    | cons second more =>
      rw [joined, cut_append h.1.1, h.1.2, cut, marks_token, decide_eq_false hother,
        if_neg Bool.false_ne_true]
      · have hnext : Level.ground.next j.token = .ground := rfl
        rw [hnext, ih h.2, before, before]
        rfl
      · exact List.cons_ne_nil _ _

theorem closed_joined {pieces : List (List Token)} (h : ∀ ts ∈ pieces, Closed ts) :
    Closed (joined j pieces) := by
  induction pieces with
  | nil => exact closed_nil
  | cons piece rest ih =>
    rw [List.forall_mem_cons] at h
    cases rest with
    | nil => exact h.1
    | cons second more =>
      have hinner : Closed [j.token] := closed_single trivial
      exact h.1.append (hinner.append (ih h.2))

end Cuts

section Groups

theorem Level.Admits.floor_le {floor : Nat} {l : Level} {t : Token} (h : l.Admits floor t)
    (hfloor : floor ≤ l.depth) : floor ≤ (l.next t).depth := by
  cases t with
  | mark c =>
    rw [Level.next]
    split
    next => exact Nat.le_succ_of_le hfloor
    next =>
      split
      next hcloses => exact Nat.le_sub_one_of_lt (h hcloses)
      next => exact hfloor
  | _ => exact hfloor

theorem inside_append {floor : Nat} {l : Level} {ts : List Token} (hpos : 0 < floor)
    (h : Passes floor l ts) (hfloor : floor ≤ l.depth) (rest : List Token) :
    inside l (ts ++ rest) = (inside (l.after ts) rest).map (ts ++ ·) := by
  induction ts generalizing l with
  | nil => exact Option.map_id'.symm
  | cons t more ih =>
    have hnext := h.1.floor_le hfloor
    rw [List.cons_append, inside, if_neg (Nat.ne_of_gt (Nat.lt_of_lt_of_le hpos hnext)),
      ih h.2 hnext, Option.map_map]
    rfl

/-- Parentheses around something that closes its own are opened. -/
theorem group?_parentheses {ts : List Token} (h : Closed ts) :
    group? (.mark '(' :: (ts ++ [.mark ')'])) = some ts := by
  obtain ⟨hpasses, hdepth⟩ := h 0 false
  have hlast : ((Level.after ⟨0 + 1, false⟩ ts).next (.mark ')')).depth = 0 := by
    rw [next_closes rfl rfl, hdepth]
  have hinside := inside_append Nat.zero_lt_one hpasses (Nat.le_refl 1) [.mark ')']
  rw [inside, if_pos hlast] at hinside
  rw [group?]
  exact hinside.trans (congrArg some (List.append_nil ts))

theorem inside_closed {l : Level} {ts : List Token} (hpos : 0 < l.depth)
    (h : (l.after ts).depth = 0) (t : Token) (rest : List Token) :
    inside l (ts ++ t :: rest) = none := by
  induction ts generalizing l with
  | nil => exact absurd h (Nat.ne_of_gt hpos)
  | cons first more ih =>
    rw [List.cons_append, inside]
    split
    next =>
      rw [if_neg]
      rw [List.isEmpty_iff]
      exact List.append_ne_nil_of_right_ne_nil _ (List.cons_ne_nil _ _)
    next hopen => rw [ih (Nat.pos_of_ne_zero hopen) h, Option.map_none]

/-- Brackets that are closed before the end are none around all of it. -/
theorem group?_append {ts : List Token} (h : Neutral ts) (hne : ts ≠ []) (t : Token)
    (rest : List Token) : group? (ts ++ t :: rest) = none := by
  cases ts with
  | nil => exact absurd rfl hne
  | cons first more =>
    rw [List.cons_append]
    unfold group?
    split
    next hfirst =>
      obtain ⟨rfl, rfl⟩ := List.cons.inj hfirst
      exact inside_closed (l := ⟨1, false⟩) Nat.zero_lt_one (congrArg Level.depth h.2) t rest
    next => rfl

end Groups

section Reading

def parenthesized (ts : List Token) : List Token := .mark '(' :: (ts ++ [.mark ')'])

/-- There is a first token, and it is not `NOT`. -/
def Begins : List Token → Prop
  | [] => False
  | t :: _ => t.isKeyword "NOT" = false

instance : (ts : List Token) → Decidable (Begins ts)
  | [] => inferInstanceAs (Decidable False)
  | t :: _ => inferInstanceAs (Decidable (t.isKeyword "NOT" = false))

theorem Begins.append {ts : List Token} (h : Begins ts) (us : List Token) : Begins (ts ++ us) := by
  cases ts with
  | nil => cases h
  | cons t rest => exact h

mutual
/-- How a tree may be written: junctions of at least two parts in parentheses, and negations of
anything with parentheses or without. -/
inductive Spells : Tree (List Token) → List Token → Prop
  | atom {ts : List Token} (hneutral : Neutral ts) (hbegins : Begins ts)
      (hgroup : group? ts = none) : Spells (.atom ts) ts
  | all {parts : List (Tree (List Token))} {pieces : List (List Token)} (htwo : 1 < pieces.length)
      (hparts : SpellsParts parts pieces) : Spells (.all parts) (parenthesized (joined .and pieces))
  | any {parts : List (Tree (List Token))} {pieces : List (List Token)} (htwo : 1 < pieces.length)
      (hparts : SpellsParts parts pieces) : Spells (.any parts) (parenthesized (joined .or pieces))
  | not {inner : Tree (List Token)} {ts us : List Token} (hinner : Spells inner ts)
      (hus : us = ts ∨ us = parenthesized ts) :
      Spells (.not inner) (.word ['N', 'O', 'T'] :: us)
inductive SpellsParts : List (Tree (List Token)) → List (List Token) → Prop
  | nil : SpellsParts [] []
  | cons {t : Tree (List Token)} {ts : List Token} {parts : List (Tree (List Token))}
      {pieces : List (List Token)} (hfirst : Spells t ts) (hrest : SpellsParts parts pieces) :
      SpellsParts (t :: parts) (ts :: pieces)
end

theorem Closed.parenthesized {ts : List Token} (h : Closed ts) : Neutral (parenthesized ts) :=
  h.enclosed (by decide : Opens [.mark '(']) (by decide : Closes [.mark ')'])

theorem neutral_not : Neutral [.word ['N', 'O', 'T']] := neutral_single fun j => by
  cases j <;> decide

mutual
theorem Spells.neutral : ∀ {t : Tree (List Token)} {ts : List Token}, Spells t ts → Neutral ts
  | _, _, .atom hneutral _ _ => hneutral
  | _, _, .all _ hparts =>
    (closed_joined fun ts hts => (hparts.neutral ts hts).closed).parenthesized
  | _, _, .any _ hparts =>
    (closed_joined fun ts hts => (hparts.neutral ts hts).closed).parenthesized
  | _, _, .not hinner (.inl rfl) => neutral_not.append hinner.neutral
  | _, _, .not hinner (.inr rfl) => neutral_not.append hinner.neutral.closed.parenthesized
theorem SpellsParts.neutral : ∀ {parts : List (Tree (List Token))} {pieces : List (List Token)},
    SpellsParts parts pieces → ∀ ts ∈ pieces, Neutral ts
  | _, _, .nil => List.forall_mem_nil _
  | _, _, .cons hfirst hrest => List.forall_mem_cons.mpr ⟨hfirst.neutral, hrest.neutral⟩
end

variable {next : List Token → Option (Tree (List Token))}

theorem readStep_neutral {ts : List Token} (h : Neutral ts) :
    readStep next ts = readPart next ts := by
  simp only [readStep, cut_neutral h]

theorem readStep_parenthesized {ts : List Token} (h : Closed ts) :
    readStep next (parenthesized ts) = next ts := by
  have hnot : (Token.mark '(').isKeyword "NOT" = false := rfl
  have hgroup : group? (.mark '(' :: (ts ++ [.mark ')'])) = some ts := group?_parentheses h
  rw [readStep_neutral h.parenthesized]
  simp only [parenthesized, readPart, hnot, Bool.false_eq_true, if_false, hgroup]

theorem readStep_any {pieces : List (List Token)} (htwo : 1 < pieces.length)
    (h : ∀ ts ∈ pieces, Neutral ts) :
    readStep next (joined .or pieces) = (pieces.mapM next).map .any := by
  have hcut : cut .or .ground (joined .or pieces) = pieces :=
    cut_joined (List.ne_nil_of_length_pos (Nat.lt_trans Nat.zero_lt_one htwo)) h
  rw [readStep, hcut]
  split
  next => exact absurd htwo (Nat.lt_irrefl 1)
  next => rfl

theorem readStep_all {pieces : List (List Token)} (htwo : 1 < pieces.length)
    (h : ∀ ts ∈ pieces, Neutral ts) :
    readStep next (joined .and pieces) = (pieces.mapM next).map .all := by
  have hcut : cut .and .ground (joined .and pieces) = pieces :=
    cut_joined (List.ne_nil_of_length_pos (Nat.lt_trans Nat.zero_lt_one htwo)) h
  have hother : cut .or .ground (joined .and pieces) = [joined .and pieces] :=
    cut_joined_other (by decide) h
  simp only [readStep, hother, hcut]
  split
  next => exact absurd htwo (Nat.lt_irrefl 1)
  next => rfl

theorem length_le_joined {j : Junction} {pieces : List (List Token)} {ts : List Token}
    (h : ts ∈ pieces) : ts.length ≤ (joined j pieces).length := by
  induction pieces with
  | nil => cases h
  | cons piece rest ih =>
    cases rest with
    | nil => rw [List.mem_singleton.mp h]; exact Nat.le_refl _
    | cons second more =>
      rw [joined, List.length_append, List.length_cons]
      · rcases List.mem_cons.mp h with rfl | h
        · exact Nat.le_add_right _ _
        · have := ih h
          omega
      · exact List.cons_ne_nil _ _

theorem length_parenthesized (ts : List Token) : (parenthesized ts).length = ts.length + 2 := by
  rw [parenthesized, List.length_cons, List.length_append, List.length_singleton]

mutual
/-- A tree is read back however it is written. -/
theorem readTree_spells : ∀ {t : Tree (List Token)} {ts : List Token}, Spells t ts →
    ∀ fuel, ts.length < fuel → readTree fuel ts = some t
  | _, _, _, 0, hfuel => absurd hfuel (Nat.not_lt_zero _)
  | _, [], .atom _ hbegins _, _, _ => hbegins.elim
  | _, t :: rest, .atom hneutral hbegins hgroup, fuel + 1, _ => by
    have hnot : t.isKeyword "NOT" = false := hbegins
    rw [readTree, readStep_neutral hneutral]
    simp only [readPart, hnot, Bool.false_eq_true, if_false, hgroup]
  | _, _, .all htwo hparts, 1, hfuel => by
    rw [length_parenthesized] at hfuel
    omega
  | _, _, .any htwo hparts, 1, hfuel => by
    rw [length_parenthesized] at hfuel
    omega
  | _, _, .all htwo hparts, fuel + 2, hfuel => by
    rw [length_parenthesized] at hfuel
    have hneutral := hparts.neutral
    rw [readTree, readStep_parenthesized (closed_joined fun ts hts => (hneutral ts hts).closed),
      readTree, readStep_all htwo hneutral, readTrees_spell hparts fuel fun ts hts =>
        Nat.lt_of_le_of_lt (length_le_joined hts) (Nat.lt_of_add_lt_add_right hfuel)]
    rfl
  | _, _, .any htwo hparts, fuel + 2, hfuel => by
    rw [length_parenthesized] at hfuel
    have hneutral := hparts.neutral
    rw [readTree, readStep_parenthesized (closed_joined fun ts hts => (hneutral ts hts).closed),
      readTree, readStep_any htwo hneutral, readTrees_spell hparts fuel fun ts hts =>
        Nat.lt_of_le_of_lt (length_le_joined hts) (Nat.lt_of_add_lt_add_right hfuel)]
    rfl
  | _, _, .not hinner hus, fuel + 1, hfuel => by
    have hnot : (Token.word ['N', 'O', 'T']).isKeyword "NOT" = true := by decide
    rw [List.length_cons] at hfuel
    rw [readTree, readStep_neutral (Spells.not hinner hus).neutral, readPart, if_pos hnot]
    rcases hus with rfl | rfl
    · rw [readTree_spells hinner fuel (Nat.lt_of_succ_lt_succ hfuel)]
      rfl
    · rw [length_parenthesized] at hfuel
      obtain ⟨less, rfl⟩ : ∃ less, fuel = less + 1 := Nat.exists_eq_succ_of_ne_zero (by omega)
      rw [readTree, readStep_parenthesized hinner.neutral.closed,
        readTree_spells hinner less (by omega)]
      rfl
theorem readTrees_spell : ∀ {parts : List (Tree (List Token))} {pieces : List (List Token)},
    SpellsParts parts pieces → ∀ fuel, (∀ ts ∈ pieces, ts.length < fuel) →
      pieces.mapM (readTree fuel) = some parts
  | _, _, .nil, _, _ => rfl
  | _, _, .cons hfirst hrest, fuel, hfuel => by
    rw [List.forall_mem_cons] at hfuel
    rw [List.mapM_cons, readTree_spells hfirst fuel hfuel.1, readTrees_spell hrest fuel hfuel.2]
    rfl
end

end Reading

end GraphSelection.Reread
