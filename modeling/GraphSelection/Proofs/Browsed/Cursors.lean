import GraphSelection.Resolve.Arrangement

/-!
Cursors are read back. Decoding undoes encoding in base 64, the decimal numeral of a number is read
as the number, and so a cursor stands for the offset it was made from, as long as the offset fits in
64 bits. A page after a cursor is accepted as long as the next offset fits as well.
-/
namespace GraphSelection.Text.Base64

theorem sextet?_letter {n : Nat} (h : n < 64) : sextet? (letter n) = some n := by
  revert n
  decide

theorem letter_ne_filling {n : Nat} (h : n < 64) : letter n ≠ '=' := by
  revert n
  decide

/-- Decoding undoes encoding. -/
theorem decode_encode {octets : List Nat} (h : ∀ x ∈ octets, x < 256) :
    decode (encode octets) = some octets := by
  fun_induction encode octets with
  | case1 => rfl
  | case2 x =>
    have hx : x < 256 := h x (by simp)
    have hlow : x % 4 * 16 % 16 = 0 := by omega
    have hback : x / 4 * 4 + x % 4 * 16 / 16 = x := by omega
    rw [decode.eq_2, sextet?_letter (by omega), sextet?_letter (by omega)]
    simp only [Option.bind_eq_bind, Option.bind_some, if_pos hlow, hback]
  | case3 x y =>
    have hx : x < 256 := h x (by simp)
    have hy : y < 256 := h y (by simp)
    have hlow : y % 16 * 4 % 4 = 0 := by omega
    have hfirst : x / 4 * 4 + (x % 4 * 16 + y / 16) / 16 = x := by omega
    have hsecond : (x % 4 * 16 + y / 16) % 16 * 16 + y % 16 * 4 / 4 = y := by omega
    rw [decode.eq_3 _ _ _ (letter_ne_filling (by omega)), sextet?_letter (by omega),
      sextet?_letter (by omega), sextet?_letter (by omega)]
    simp only [Option.bind_eq_bind, Option.bind_some, if_pos hlow, hfirst, hsecond]
  | case4 x y z rest ih =>
    have hx : x < 256 := h x (by simp)
    have hy : y < 256 := h y (by simp)
    have hz : z < 256 := h z (by simp)
    have hfirst : x / 4 * 4 + (x % 4 * 16 + y / 16) / 16 = x := by omega
    have hsecond : (x % 4 * 16 + y / 16) % 16 * 16 + (y % 16 * 4 + z / 64) / 4 = y := by omega
    have hthird : (y % 16 * 4 + z / 64) % 4 * 64 + z % 64 = z := by omega
    have hfull : letter (z % 64) ≠ '=' := letter_ne_filling (by omega)
    rw [decode.eq_4 _ _ _ _ _ (fun _ hd _ => hfull hd) (fun hd _ => hfull hd),
      sextet?_letter (by omega), sextet?_letter (by omega), sextet?_letter (by omega),
      sextet?_letter (by omega), ih fun w hw => h w (by simp [hw])]
    simp only [Option.bind_eq_bind, Option.bind_some, hfirst, hsecond, hthird]

end GraphSelection.Text.Base64

namespace GraphSelection.Decimal

theorem digit?_of_isDigit {c : Char} (h : c.isDigit = true) :
    digit? c = some (c.toNat - '0'.toNat) := if_pos h

theorem le_ofDigitChars (cs : List Char) (value : Nat) : value ≤ Nat.ofDigitChars 10 cs value := by
  induction cs generalizing value with
  | nil => simp
  | cons c rest ih =>
    rw [Nat.ofDigitChars_cons]
    exact Nat.le_trans (by omega) (ih _)

/-- Digits are read as the number that they write, if it stays below the bound. -/
theorem digitsBelow_ofDigitChars {bound : Nat} {cs : List Char}
    (hdigits : ∀ c ∈ cs, c.isDigit = true) {value : Nat}
    (hbound : Nat.ofDigitChars 10 cs value < bound) :
    digitsBelow bound value cs = .ok (Nat.ofDigitChars 10 cs value) := by
  induction cs generalizing value with
  | nil => simp [digitsBelow]
  | cons c rest ih =>
    rw [Nat.ofDigitChars_cons, Nat.mul_comm] at hbound ⊢
    -- What is read on from a number is no smaller, so each number on the way is below the bound.
    have hbelow := Nat.lt_of_le_of_lt (le_ofDigitChars rest _) hbound
    simp only [digitsBelow, digit?_of_isDigit (hdigits c List.mem_cons_self), if_pos hbelow]
    exact ih (fun d hd => hdigits d (List.mem_cons_of_mem c hd)) hbound

/-- A number is read back from its numeral. -/
theorem unsignedBelow_toString {bound n : Nat} (h : n < bound) :
    unsignedBelow bound (toString n) = .ok n := by
  have hchars : (toString n).toList = Nat.toDigits 10 n := Nat.toList_repr
  have hdigits : ∀ c ∈ Nat.toDigits 10 n, c.isDigit = true := fun c hc =>
    Nat.isDigit_of_mem_toDigits (by omega) (by omega) hc
  have hread : digitsBelow bound 0 (Nat.toDigits 10 n) = .ok n := by
    have hvalue : Nat.ofDigitChars 10 (Nat.toDigits 10 n) 0 = n := Nat.ofDigitChars_ten_toDigits
    rw [digitsBelow_ofDigitChars hdigits (by rwa [hvalue]), hvalue]
  unfold unsignedBelow
  rw [hchars]
  split
  next hnil =>
    have hpos : 0 < (Nat.toDigits 10 n).length := Nat.length_toDigits_pos
    simp [hnil] at hpos
  next hplus =>
    rw [hplus] at hdigits
    cases hdigits '+' List.mem_cons_self
  next hplus =>
    rw [hplus] at hdigits
    cases hdigits '+' List.mem_cons_self
  next => exact hread

end GraphSelection.Decimal

namespace GraphSelection.Cursor

theorem ascii_of_digits {n : Nat} : ∀ c ∈ (opening ++ toString n).toList, c.toNat < 128 := by
  have hchars : (toString n).toList = Nat.toDigits 10 n := Nat.toList_repr
  intro c hc
  rw [String.toList_append, hchars] at hc
  rcases List.mem_append.mp hc with hc | hc
  · have hopening : opening.toList.all (fun c => decide (c.toNat < 128)) = true := by decide
    exact of_decide_eq_true (List.all_eq_true.mp hopening c hc)
  · have hdigit := Nat.isDigit_of_mem_toDigits (by omega) (by omega) hc
    simp only [Char.isDigit, Bool.and_eq_true, decide_eq_true_eq] at hdigit
    have hle : c.toNat ≤ '9'.toNat := hdigit.2
    exact Nat.lt_of_le_of_lt hle (by decide)

theorem asciiChars?_toNat {cs : List Char} (h : ∀ c ∈ cs, c.toNat < 128) :
    asciiChars? (cs.map Char.toNat) = some cs := by
  have hall : (cs.map Char.toNat).all (· < 128) = true := by simpa using h
  have hback : Char.ofNat ∘ Char.toNat = id := funext Char.ofNat_toNat
  rw [asciiChars?, if_pos hall, List.map_map, hback, List.map_id]

/-- A cursor stands for its offset. -/
theorem offset?_ofOffset {n : Nat} (h : n < Decimal.word64) : offset? (ofOffset n) = some n := by
  have hoctets : ∀ x ∈ (opening ++ toString n).toList.map Char.toNat, x < 256 := by
    intro x hx
    obtain ⟨c, hc, rfl⟩ := List.mem_map.mp hx
    exact Nat.lt_trans (ascii_of_digits c hc) (by omega)
  have hopening : Text.dropStart? (opening ++ toString n) opening = some (toString n) := by
    have hstarts : opening.toList.isPrefixOf (opening ++ toString n).toList = true := by
      rw [String.toList_append, List.isPrefixOf_iff_prefix]
      exact List.prefix_append _ _
    rw [Text.dropStart?, if_pos hstarts, String.toList_append, List.drop_left, String.ofList_toList]
  simp only [offset?, ofOffset, String.toList_ofList, Text.Base64.decode_encode hoctets,
    asciiChars?_toNat ascii_of_digits, String.ofList_toList, hopening,
    Decimal.unsignedBelow_toString h, Option.bind_eq_bind, Option.bind_some]
  rfl

end GraphSelection.Cursor

namespace GraphSelection.Resolve

/-- A page starts after the edge of a cursor. -/
theorem afterCursor_ofOffset {n : Nat} (h : n + 1 < Decimal.word64) (path : String) :
    afterCursor (.text (Cursor.ofOffset n)) path = .ok (n + 1) := by
  have hoffset : Cursor.offset? (Cursor.ofOffset n) = some n :=
    Cursor.offset?_ofOffset (Nat.lt_trans (Nat.lt_succ_self n) h)
  simp only [afterCursor, Doc.asText?, Option.bind_some, hoffset, if_pos h]

end GraphSelection.Resolve
