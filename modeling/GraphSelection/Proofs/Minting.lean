import GraphSelection.Program.Supply
import GraphSelection.Proofs.Scoping

/-!
The names of a program are numbered by one counter, so two of them with different numbers differ,
whatever they are for. Parts of a program are built one after the other and draw their numbers
from ranges that follow one another; what one part brings into scope is new to every other.
-/
namespace GraphSelection.Minting

open Cypher Program Scoping

/-- What names are drawn for. -/
def hints : List String := ["this", "var", "edges", "totalCount", "edge", "sort", "param"]

/-- The name is a hint followed by the number. -/
def Minted (n : Nat) (x : String) : Prop := ∃ hint ∈ hints, x = hint ++ toString n

theorem minted_name (s : Supply) (hint : String) (h : hint ∈ hints) :
    Minted s.next (s.name hint) :=
  ⟨hint, h, rfl⟩

theorem hint_last (hint : String) (h : hint ∈ hints) :
    ∃ stem c, hint.toList = stem ++ [c] ∧ c.isDigit = false := by
  simp only [hints, List.mem_cons, List.not_mem_nil, or_false] at h
  rcases h with rfl | rfl | rfl | rfl | rfl | rfl | rfl
  · exact ⟨['t', 'h', 'i'], 's', by decide, by decide⟩
  · exact ⟨['v', 'a'], 'r', by decide, by decide⟩
  · exact ⟨['e', 'd', 'g', 'e'], 's', by decide, by decide⟩
  · exact ⟨['t', 'o', 't', 'a', 'l', 'C', 'o', 'u', 'n'], 't', by decide, by decide⟩
  · exact ⟨['e', 'd', 'g'], 'e', by decide, by decide⟩
  · exact ⟨['s', 'o', 'r'], 't', by decide, by decide⟩
  · exact ⟨['p', 'a', 'r', 'a'], 'm', by decide, by decide⟩

/-- The digits at the end of a minted name are those of its number. -/
theorem Minted.digits {n : Nat} {x : String} (h : Minted n x) :
    x.toList.reverse.takeWhile Char.isDigit = (Nat.toDigits 10 n).reverse := by
  obtain ⟨hint, hmem, rfl⟩ := h
  obtain ⟨stem, c, hstem, hc⟩ := hint_last hint hmem
  have hdigits : (toString n).toList = Nat.toDigits 10 n := Nat.toList_repr
  have hall : ∀ d ∈ (Nat.toDigits 10 n).reverse, d.isDigit = true := by
    intro d hd
    exact Nat.isDigit_of_mem_toDigits (by omega) (by omega) (List.mem_reverse.mp hd)
  rw [String.toList_append, hdigits, hstem, List.reverse_append, List.reverse_append,
    List.takeWhile_append_of_pos hall]
  simp [hc]

theorem Minted.unique {n m : Nat} {x : String} (hn : Minted n x) (hm : Minted m x) : n = m := by
  have hdigits : Nat.toDigits 10 n = Nat.toDigits 10 m := by
    rw [← List.reverse_inj, ← hn.digits, ← hm.digits]
  have hn' := Nat.ofDigitChars_ten_toDigits (n := n)
  rw [hdigits, Nat.ofDigitChars_ten_toDigits] at hn'
  exact hn'.symm

/-- A name that ends in no digit is not minted. -/
theorem not_minted {x : String} {stem : List Char} {c : Char} (hx : x.toList = stem ++ [c])
    (hc : c.isDigit = false) (n : Nat) : ¬ Minted n x := by
  intro h
  have hdigits := h.digits
  rw [hx, List.reverse_append] at hdigits
  simp [hc] at hdigits

/-- No name of the scope has its number in the range. -/
def Clear (scope : Names) (n m : Nat) : Prop :=
  ∀ x ∈ scope, ∀ i, n ≤ i → i < m → ¬ Minted i x

/-- Every name has its number in the range. -/
def Within (names : Names) (n m : Nat) : Prop :=
  ∀ x ∈ names, ∃ i, n ≤ i ∧ i < m ∧ Minted i x

/-- The name was minted before the number. -/
def Older (n : Nat) (x : String) : Prop := ∃ i, i < n ∧ Minted i x

theorem Older.mono {n m : Nat} {x : String} (h : Older n x) (hnm : n ≤ m) : Older m x := by
  obtain ⟨i, hi, hx⟩ := h
  exact ⟨i, by omega, hx⟩

theorem older_name (s : Supply) (hint : String) (h : hint ∈ hints) :
    Older (s.next + 1) (s.name hint) :=
  ⟨s.next, by omega, minted_name s hint h⟩

/-- A name that is drawn now is no older one. -/
theorem Older.ne_name {n : Nat} {x : String} (h : Older n x) (s : Supply) (hn : n ≤ s.next)
    (hint : String) (hhint : hint ∈ hints) : s.name hint ≠ x := by
  intro heq
  obtain ⟨i, hi, hmint⟩ := h
  have := hmint.unique (heq ▸ minted_name s hint hhint)
  omega

theorem Clear.nil (n m : Nat) : Clear [] n m := by
  intro x hx
  simp at hx

theorem Clear.append {scope added : Names} {n m : Nat} (h : Clear scope n m)
    (h' : Clear added n m) : Clear (scope ++ added) n m := by
  intro x hx
  rcases List.mem_append.mp hx with hx | hx
  · exact h x hx
  · exact h' x hx

theorem Clear.sub {scope : Names} {n m k l : Nat} (h : Clear scope n m) (hn : n ≤ k)
    (hm : l ≤ m) : Clear scope k l := by
  intro x hx i hi hl
  exact h x hx i (by omega) (by omega)

theorem Clear.of_older {scope : Names} {n : Nat} (h : ∀ x ∈ scope, Older n x) (m : Nat) :
    Clear scope n m := by
  intro x hx i hi _ hmint
  obtain ⟨j, hj, hmint'⟩ := h x hx
  have := hmint.unique hmint'
  omega

theorem Within.nil (n m : Nat) : Within [] n m := by
  intro x hx
  simp at hx

theorem Within.append {names more : Names} {n m : Nat} (h : Within names n m)
    (h' : Within more n m) : Within (names ++ more) n m := by
  intro x hx
  rcases List.mem_append.mp hx with hx | hx
  · exact h x hx
  · exact h' x hx

theorem Within.mono {names : Names} {n m k l : Nat} (h : Within names n m) (hk : k ≤ n)
    (hl : m ≤ l) : Within names k l := by
  intro x hx
  obtain ⟨i, hi, hm, hmint⟩ := h x hx
  exact ⟨i, by omega, by omega, hmint⟩

theorem Within.single (s : Supply) (hint : String) (h : hint ∈ hints) :
    Within [s.name hint] s.next (s.next + 1) := by
  intro x hx
  rw [List.mem_singleton] at hx
  subst hx
  exact ⟨s.next, by omega, by omega, minted_name s hint h⟩

/-- Two names that are drawn one after the other. -/
theorem Within.pair (s : Supply) {hint hint' : String} (h : hint ∈ hints) (h' : hint' ∈ hints) :
    Within [s.name hint, ({ s with next := s.next + 1 } : Supply).name hint'] s.next
      (s.next + 2) := by
  have hfirst := (Within.single s hint h).mono (Nat.le_refl _) (Nat.le_succ _)
  have hsecond := Within.single { s with next := s.next + 1 } hint' h'
  exact hfirst.append (hsecond.mono (Nat.le_succ _) (Nat.le_refl _))

theorem Within.older {names : Names} {n m : Nat} (h : Within names n m) :
    ∀ x ∈ names, Older m x := by
  intro x hx
  obtain ⟨i, _, hm, hmint⟩ := h x hx
  exact ⟨i, hm, hmint⟩

/-- Ranges that follow one another share no name. -/
theorem Within.clear {names : Names} {n m : Nat} (h : Within names n m) (k : Nat) :
    Clear names m k :=
  Clear.of_older h.older k

theorem Within.clear_before {names : Names} {n m : Nat} (h : Within names n m) (k : Nat) :
    Clear names k n := by
  intro x hx i _ hi hmint
  obtain ⟨j, hj, _, hmint'⟩ := h x hx
  have := hmint.unique hmint'
  omega

theorem Within.fresh {scope names : Names} {n m : Nat} (h : Within names n m)
    (hclear : Clear scope n m) : Fresh scope names := by
  intro x hx hscope
  obtain ⟨i, hi, hm, hmint⟩ := h x hx
  exact hclear x hscope i hi hm hmint

/-- Of the names with a number in the range, the scope has the given ones only. -/
def Only (scope names : Names) (n m : Nat) : Prop :=
  ∀ x ∈ scope, ∀ i, n ≤ i → i < m → Minted i x → x ∈ names

theorem Only.clear {scope : Names} {n m : Nat} (h : Only scope [] n m) : Clear scope n m := by
  intro x hx i hi hm hmint
  exact List.not_mem_nil (h x hx i hi hm hmint)

theorem Clear.only {scope : Names} {n m : Nat} (h : Clear scope n m) (names : Names) :
    Only (scope ++ names) names n m := by
  intro x hx i hi hm hmint
  rcases List.mem_append.mp hx with hx | hx
  · exact absurd hmint (h x hx i hi hm)
  · exact hx

theorem Only.left {scope names more : Names} {n m k : Nat} (h : Only scope (names ++ more) n k)
    (hmore : Within more m k) (hmk : m ≤ k) : Only scope names n m := by
  intro x hx i hi hm hmint
  rcases List.mem_append.mp (h x hx i hi (by omega) hmint) with hmem | hmem
  · exact hmem
  · obtain ⟨j, hj, _, hmint'⟩ := hmore x hmem
    have := hmint.unique hmint'
    omega

theorem Only.right {scope names more : Names} {n m k : Nat} (h : Only scope (names ++ more) n k)
    (hnames : Within names n m) (hnm : n ≤ m) : Only scope more m k := by
  intro x hx i hi hk hmint
  rcases List.mem_append.mp (h x hx i (by omega) hk hmint) with hmem | hmem
  · obtain ⟨j, _, hj, hmint'⟩ := hnames x hmem
    have := hmint.unique hmint'
    omega
  · exact hmem

end GraphSelection.Minting
