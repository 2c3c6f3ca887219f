import GraphSelection.Proofs.Browsed.Cursors
import Mathlib.Algebra.GroupWithZero.Nat

/-!
Which texts are cursors, and of what. What base 64 is can be said without the groups that encoding
and decoding work in: the bits of the octets, cut into sixes from the left. Octets have one such
text, encoding finds it, and decoding accepts no other. So text with idle bits that are set, with
too much filling or too little, or with a letter outside the alphabet is the text of nothing. A
cursor is the base 64 of the opening word and a numeral, which has digits only, after a plus sign or
after nothing, and a number that fits in 64 bits. Whatever else a text may be, it is refused.
-/
namespace GraphSelection.Text.Base64

/-- The lowest bits of a number, the highest of them first. -/
def bits : Nat → Nat → List Bool
  | 0, _ => []
  | width + 1, n => bits width (n / 2) ++ [decide (n % 2 = 1)]

/-- The letters in the order of what they stand for. -/
def alphabet : List Char :=
  "ABCDEFGHIJKLMNOPQRSTUVWXYZabcdefghijklmnopqrstuvwxyz0123456789+/".toList

/-- The text writes the bits of the octets, eight from each, six to a letter. Zeros fill up the last
letter, and equals signs the last group of four. -/
def Encodes (octets : List Nat) (text : List Char) : Prop :=
  ∃ (sextets : List Nat) (zeros filling : Nat), (∀ n ∈ sextets, n < 64) ∧
    sextets.flatMap (bits 6) = octets.flatMap (bits 8) ++ List.replicate zeros false ∧ zeros < 6 ∧
    text = sextets.map (alphabet.getD · '=') ++ List.replicate filling '=' ∧ filling < 4 ∧
    text.length % 4 = 0

section Bits

theorem length_bits (width n : Nat) : (bits width n).length = width := by
  induction width generalizing n with
  | zero => rfl
  | succ width ih => rw [bits, List.length_append, ih, List.length_singleton]

/-- The bits of a number that is put together from two. -/
theorem bits_joined (width low a : Nat) {b : Nat} (h : b < 2 ^ low) :
    bits (width + low) (a * 2 ^ low + b) = bits width a ++ bits low b := by
  induction low generalizing b with
  | zero =>
    obtain rfl : b = 0 := by simpa using h
    simp [bits]
  | succ low ih =>
    rw [Nat.pow_succ] at h
    have hjoined : a * 2 ^ (low + 1) + b = a * 2 ^ low * 2 + b := by
      rw [Nat.pow_succ, Nat.mul_assoc]
    have hhalf : (a * 2 ^ low * 2 + b) / 2 = a * 2 ^ low + b / 2 := by omega
    have hlast : (a * 2 ^ low * 2 + b) % 2 = b % 2 := by omega
    rw [hjoined, ← Nat.add_assoc, bits, hhalf, hlast, ih (by omega), bits, List.append_assoc]

theorem bits_split (width low n : Nat) :
    bits (width + low) n = bits width (n / 2 ^ low) ++ bits low (n % 2 ^ low) := by
  rw [← bits_joined width low _ (Nat.mod_lt _ (Nat.two_pow_pos low)), Nat.mul_comm,
    Nat.div_add_mod]

theorem bits_inj {width a b : Nat} (ha : a < 2 ^ width) (hb : b < 2 ^ width)
    (h : bits width a = bits width b) : a = b := by
  induction width generalizing a b with
  | zero => omega
  | succ width ih =>
    rw [Nat.pow_succ] at ha hb
    obtain ⟨hhigh, hlast⟩ := List.append_inj' h rfl
    have hhalf : a / 2 = b / 2 := ih (by omega) (by omega) hhigh
    have hodd : (a % 2 = 1) ↔ (b % 2 = 1) := by simpa using hlast
    omega

theorem length_flatMap_bits (width : Nat) (ns : List Nat) :
    (ns.flatMap (bits width)).length = width * ns.length := by
  induction ns with
  | nil => rfl
  | cons n rest ih =>
    rw [List.flatMap_cons, List.length_append, length_bits, ih, List.length_cons, Nat.mul_succ,
      Nat.add_comm]

/-- As many numbers with the same bits are the same. -/
theorem flatMap_bits_inj (width : Nat) {ns ms : List Nat} (hn : ∀ n ∈ ns, n < 2 ^ width)
    (hm : ∀ m ∈ ms, m < 2 ^ width) (hlength : ns.length = ms.length)
    (h : ns.flatMap (bits width) = ms.flatMap (bits width)) : ns = ms := by
  induction ns generalizing ms with
  | nil => exact (List.length_eq_zero_iff.mp hlength.symm).symm
  | cons n rest ih =>
    cases ms with
    | nil => cases hlength
    | cons m more =>
      rw [List.flatMap_cons, List.flatMap_cons] at h
      obtain ⟨hfirst, hothers⟩ := List.append_inj h (by rw [length_bits, length_bits])
      rw [List.forall_mem_cons] at hn hm
      rw [bits_inj hn.1 hm.1 hfirst, ih hn.2 hm.2 (Nat.succ.inj hlength) hothers]

end Bits

section Encoding

theorem getD_alphabet {n : Nat} (h : n < 64) : alphabet.getD n '=' = letter n := by
  revert n
  decide

/-- Octets have one encoding. -/
theorem Encodes.unique {octets : List Nat} {text text' : List Char} (h : Encodes octets text)
    (h' : Encodes octets text') : text = text' := by
  obtain ⟨sextets, zeros, filling, hsmall, hbits, hzeros, rfl, hfilling, hwhole⟩ := h
  obtain ⟨sextets', zeros', filling', hsmall', hbits', hzeros', rfl, hfilling', hwhole'⟩ := h'
  have hsize := congrArg List.length hbits
  have hsize' := congrArg List.length hbits'
  simp only [List.length_append, length_flatMap_bits, List.length_replicate] at hsize hsize'
  obtain rfl : zeros = zeros' := by omega
  obtain rfl : sextets = sextets' :=
    flatMap_bits_inj 6 hsmall hsmall' (by omega) (hbits.trans hbits'.symm)
  simp only [List.length_append, List.length_map, List.length_replicate] at hwhole hwhole'
  obtain rfl : filling = filling' := by omega
  rfl

/-- Three octets are the four letters before the encoding of the others. -/
theorem Encodes.cons {x y z : Nat} {rest : List Nat} {text : List Char} (hx : x < 256)
    (hy : y < 256) (hz : z < 256) (h : Encodes rest text) :
    Encodes (x :: y :: z :: rest)
      (letter (x / 4) :: letter (x % 4 * 16 + y / 16) :: letter (y % 16 * 4 + z / 64) ::
        letter (z % 64) :: text) := by
  obtain ⟨sextets, zeros, filling, hsmall, hbits, hzeros, rfl, hfilling, hwhole⟩ := h
  refine ⟨x / 4 :: (x % 4 * 16 + y / 16) :: (y % 16 * 4 + z / 64) :: z % 64 :: sextets, zeros,
    filling, ?_, ?_, hzeros, ?_, hfilling, ?_⟩
  · intro n hn
    simp only [List.mem_cons] at hn
    rcases hn with rfl | rfl | rfl | rfl | hn
    · omega
    · omega
    · omega
    · omega
    · exact hsmall n hn
  · have hfirst : bits 8 x = bits 6 (x / 4) ++ bits 2 (x % 4) := bits_split 6 2 x
    have hsecond : bits 8 y = bits 4 (y / 16) ++ bits 4 (y % 16) := bits_split 4 4 y
    have hthird : bits 8 z = bits 2 (z / 64) ++ bits 6 (z % 64) := bits_split 2 6 z
    have hmiddle : bits 6 (x % 4 * 16 + y / 16) = bits 2 (x % 4) ++ bits 4 (y / 16) :=
      bits_joined 2 4 (x % 4) (by omega)
    have hlast : bits 6 (y % 16 * 4 + z / 64) = bits 4 (y % 16) ++ bits 2 (z / 64) :=
      bits_joined 4 2 (y % 16) (by omega)
    simp only [List.flatMap_cons, hbits, hfirst, hsecond, hthird, hmiddle, hlast,
      List.append_assoc]
  · simp only [List.map_cons, List.cons_append,
      getD_alphabet (show x / 4 < 64 by omega),
      getD_alphabet (show x % 4 * 16 + y / 16 < 64 by omega),
      getD_alphabet (show y % 16 * 4 + z / 64 < 64 by omega),
      getD_alphabet (show z % 64 < 64 by omega)]
  · simp only [List.length_cons]
    omega

theorem encodes_encode {octets : List Nat} (h : ∀ x ∈ octets, x < 256) :
    Encodes octets (encode octets) := by
  fun_induction encode octets with
  | case1 => exact ⟨[], 0, 0, by simp, rfl, by omega, rfl, by omega, rfl⟩
  | case2 x =>
    have hx : x < 256 := h x List.mem_cons_self
    refine ⟨[x / 4, x % 4 * 16], 4, 2, ?_, ?_, by omega, ?_, by omega, Nat.mod_self 4⟩
    · simp only [List.forall_mem_cons, List.not_mem_nil, false_imp_iff, implies_true, and_true]
      omega
    · have hjoined : bits 8 x = bits 6 (x / 4) ++ bits 2 (x % 4) := bits_split 6 2 x
      have hlast := bits_joined 2 4 (x % 4) (show 0 < 2 ^ 4 by omega)
      rw [Nat.add_zero] at hlast
      simp only [List.flatMap_cons, List.flatMap_nil, List.append_nil, hjoined, List.append_assoc]
      exact congrArg _ hlast
    · simp only [List.map_cons, List.map_nil, getD_alphabet (show x / 4 < 64 by omega),
        getD_alphabet (show x % 4 * 16 < 64 by omega)]
      rfl
  | case3 x y =>
    have hx : x < 256 := h x (by simp)
    have hy : y < 256 := h y (by simp)
    refine ⟨[x / 4, x % 4 * 16 + y / 16, y % 16 * 4], 2, 1, ?_, ?_, by omega, ?_, by omega,
      Nat.mod_self 4⟩
    · simp only [List.forall_mem_cons, List.not_mem_nil, false_imp_iff, implies_true, and_true]
      omega
    · have hfirst : bits 8 x = bits 6 (x / 4) ++ bits 2 (x % 4) := bits_split 6 2 x
      have hsecond : bits 8 y = bits 4 (y / 16) ++ bits 4 (y % 16) := bits_split 4 4 y
      have hmiddle : bits 6 (x % 4 * 16 + y / 16) = bits 2 (x % 4) ++ bits 4 (y / 16) :=
        bits_joined 2 4 (x % 4) (by omega)
      have hlast := bits_joined 4 2 (y % 16) (show 0 < 2 ^ 2 by omega)
      rw [Nat.add_zero] at hlast
      simp only [List.flatMap_cons, List.flatMap_nil, List.append_nil, hfirst, hsecond, hmiddle,
        List.append_assoc]
      exact congrArg _ (congrArg _ (congrArg _ hlast))
    · simp only [List.map_cons, List.map_nil, getD_alphabet (show x / 4 < 64 by omega),
        getD_alphabet (show x % 4 * 16 + y / 16 < 64 by omega),
        getD_alphabet (show y % 16 * 4 < 64 by omega)]
      rfl
  | case4 x y z rest ih =>
    have hrest : ∀ w ∈ rest, w < 256 := fun w hw => h w (by simp [hw])
    exact (ih hrest).cons (h x (by simp)) (h y (by simp)) (h z (by simp))

end Encoding

section Decoding

theorem sextet?_ascii {c : Char} {n : Nat} (h : sextet? c = some n) : c.toNat < 128 := by
  unfold sextet? at h
  split at h
  next hupper =>
    have hle : c.toNat ≤ 'Z'.toNat := (of_decide_eq_true hupper).2
    exact Nat.lt_of_le_of_lt hle (by decide)
  next =>
    split at h
    next hlower =>
      have hle : c.toNat ≤ 'z'.toNat := of_decide_eq_true (Bool.and_eq_true_iff.mp hlower).2
      exact Nat.lt_of_le_of_lt hle (by decide)
    next =>
      split at h
      next hdigit =>
        have hle : c.toNat ≤ '9'.toNat := of_decide_eq_true (Bool.and_eq_true_iff.mp hdigit).2
        exact Nat.lt_of_le_of_lt hle (by decide)
      next =>
        split at h
        next hplus => rw [hplus]; decide
        next =>
          split at h
          next hslash => rw [hslash]; decide
          next => cases h

/-- What stands for six bits is their letter. -/
theorem sextet?_some {c : Char} {n : Nat} (h : sextet? c = some n) : n < 64 ∧ letter n = c := by
  have hall : ∀ i < 128, ∀ m ∈ sextet? (Char.ofNat i), m < 64 ∧ letter m = Char.ofNat i := by
    decide
  simpa only [Char.ofNat_toNat] using
    hall c.toNat (sextet?_ascii h) n (by rwa [Char.ofNat_toNat])

/-- Text that is decoded is the encoding of the octets. -/
theorem eq_encode_of_decode {text : List Char} {octets : List Nat} (h : decode text = some octets) :
    text = encode octets ∧ ∀ x ∈ octets, x < 256 := by
  induction text using decode.induct generalizing octets with
  | case1 =>
    obtain rfl : [] = octets := Option.some.inj h
    exact ⟨rfl, List.forall_mem_nil _⟩
  | case2 a b =>
    simp only [decode, Option.bind_eq_bind, Option.bind_eq_some_iff] at h
    obtain ⟨i, ha, j, hb, h⟩ := h
    obtain ⟨hi, rfl⟩ := sextet?_some ha
    obtain ⟨hj, rfl⟩ := sextet?_some hb
    split at h
    next hlow =>
      obtain rfl : [i * 4 + j / 16] = octets := Option.some.inj h
      have hfirst : (i * 4 + j / 16) / 4 = i := by omega
      have hsecond : (i * 4 + j / 16) % 4 * 16 = j := by omega
      refine ⟨by rw [encode, hfirst, hsecond], ?_⟩
      rw [List.forall_mem_singleton]
      omega
    next => cases h
  | case3 a b c hc =>
    rw [decode.eq_3 _ _ _ hc] at h
    simp only [Option.bind_eq_bind, Option.bind_eq_some_iff] at h
    obtain ⟨i, ha, j, hb, k, hc, h⟩ := h
    obtain ⟨hi, rfl⟩ := sextet?_some ha
    obtain ⟨hj, rfl⟩ := sextet?_some hb
    obtain ⟨hk, rfl⟩ := sextet?_some hc
    split at h
    next hlow =>
      obtain rfl : [i * 4 + j / 16, j % 16 * 16 + k / 4] = octets := Option.some.inj h
      have hfirst : (i * 4 + j / 16) / 4 = i := by omega
      have hsecond : (i * 4 + j / 16) % 4 * 16 + (j % 16 * 16 + k / 4) / 16 = j := by omega
      have hthird : (j % 16 * 16 + k / 4) % 16 * 4 = k := by omega
      refine ⟨by rw [encode, hfirst, hsecond, hthird], ?_⟩
      simp only [List.forall_mem_cons, List.not_mem_nil, false_imp_iff, implies_true, and_true]
      omega
    next => cases h
  | case4 a b c d rest hc hd ih =>
    rw [decode.eq_4 _ _ _ _ _ hc hd] at h
    simp only [Option.bind_eq_bind, Option.bind_eq_some_iff] at h
    obtain ⟨i, ha, j, hb, k, hc, l, hd, others, hrest, h⟩ := h
    obtain ⟨hi, rfl⟩ := sextet?_some ha
    obtain ⟨hj, rfl⟩ := sextet?_some hb
    obtain ⟨hk, rfl⟩ := sextet?_some hc
    obtain ⟨hl, rfl⟩ := sextet?_some hd
    obtain ⟨hothers, hsmall⟩ := ih hrest
    obtain rfl := Option.some.inj h
    have hfirst : (i * 4 + j / 16) / 4 = i := by omega
    have hsecond : (i * 4 + j / 16) % 4 * 16 + (j % 16 * 16 + k / 4) / 16 = j := by omega
    have hthird : (j % 16 * 16 + k / 4) % 16 * 4 + (k % 4 * 64 + l) / 64 = k := by omega
    have hfourth : (k % 4 * 64 + l) % 64 = l := by omega
    refine ⟨by rw [encode, hfirst, hsecond, hthird, hfourth, ← hothers], ?_⟩
    simp only [List.forall_mem_cons]
    exact ⟨by omega, by omega, by omega, hsmall⟩
  | case5 text h₁ h₂ h₃ h₄ =>
    rw [decode.eq_5 _ h₁ h₂ h₃ h₄] at h
    cases h

/-- Text is decoded exactly if it is the encoding of octets. -/
theorem decode_eq_some_iff {text : List Char} {octets : List Nat} :
    decode text = some octets ↔ Encodes octets text ∧ ∀ x ∈ octets, x < 256 := by
  constructor
  · intro h
    obtain ⟨rfl, hsmall⟩ := eq_encode_of_decode h
    exact ⟨encodes_encode hsmall, hsmall⟩
  · rintro ⟨h, hsmall⟩
    rw [h.unique (encodes_encode hsmall), decode_encode hsmall]

end Decoding

end GraphSelection.Text.Base64

namespace GraphSelection.Decimal

theorem digit?_eq_some_iff {c : Char} {d : Nat} :
    digit? c = some d ↔ c.isDigit = true ∧ c.toNat - '0'.toNat = d := by
  unfold digit?
  split <;> simp_all

/-- Digits are read as the number that they write, and there is nothing else that is read. -/
theorem digitsBelow_eq_ok_iff {bound value n : Nat} {cs : List Char} (hvalue : value < bound) :
    digitsBelow bound value cs = .ok n ↔
      (∀ c ∈ cs, c.isDigit = true) ∧ Nat.ofDigitChars 10 cs value = n ∧ n < bound := by
  constructor
  · intro h
    induction cs generalizing value with
    | nil =>
      obtain rfl : value = n := Except.ok.inj h
      exact ⟨List.forall_mem_nil _, rfl, hvalue⟩
    | cons c rest ih =>
      rw [digitsBelow] at h
      split at h
      next => cases h
      next d hd =>
        obtain ⟨hdigit, rfl⟩ := digit?_eq_some_iff.mp hd
        split at h
        next hbelow =>
          obtain ⟨hdigits, hnumber, hn⟩ := ih hbelow h
          rw [Nat.ofDigitChars_cons, Nat.mul_comm]
          exact ⟨List.forall_mem_cons.mpr ⟨hdigit, hdigits⟩, hnumber, hn⟩
        next => cases h
  · rintro ⟨hdigits, rfl, hn⟩
    exact digitsBelow_ofDigitChars hdigits hn

/-- The numerals of a number: a plus sign or none, and digits that write it. -/
def Writes (numeral : String) (n : Nat) : Prop :=
  ∃ sign digits : String, (sign = "" ∨ sign = "+") ∧ numeral = sign ++ digits ∧ digits ≠ "" ∧
    (∀ c ∈ digits.toList, c.isDigit = true) ∧ Nat.ofDigitChars 10 digits.toList 0 = n

theorem ne_plus_of_isDigit {c : Char} (h : c.isDigit = true) : c ≠ '+' := by
  rintro rfl
  cases h

/-- A numeral is read as the number that it writes, if the number is below the bound. -/
theorem unsignedBelow_eq_ok_iff {bound n : Nat} {numeral : String} (hbound : 0 < bound) :
    unsignedBelow bound numeral = .ok n ↔ Writes numeral n ∧ n < bound := by
  constructor
  · intro h
    unfold unsignedBelow at h
    split at h
    next => cases h
    next => cases h
    next digits hsome hplus =>
      obtain ⟨hdigits, hnumber, hn⟩ := (digitsBelow_eq_ok_iff hbound).mp h
      have hne : digits ≠ [] := hsome
      refine ⟨⟨"+", String.ofList digits, .inr rfl, ?_, ?_, ?_, ?_⟩, hn⟩
      · have hsigned : ("+" ++ String.ofList digits).toList = '+' :: digits := by
          rw [String.toList_append, String.toList_ofList (l := digits)]
          rfl
        exact String.ext (hplus.trans hsigned.symm)
      · exact fun hnil => hne (by rw [← String.toList_ofList (l := digits), hnil]; rfl)
      · rwa [String.toList_ofList]
      · rwa [String.toList_ofList]
    next hsome _ _ =>
      obtain ⟨hdigits, hnumber, hn⟩ := (digitsBelow_eq_ok_iff hbound).mp h
      have hne : numeral ≠ "" := fun hnil => hsome (by rw [hnil]; rfl)
      exact ⟨⟨"", numeral, .inl rfl, String.empty_append.symm, hne, hdigits, hnumber⟩, hn⟩
  · rintro ⟨⟨sign, digits, hsign, rfl, hsome, hdigits, hnumber⟩, hn⟩
    have hread : digitsBelow bound 0 digits.toList = .ok n :=
      (digitsBelow_eq_ok_iff hbound).mpr ⟨hdigits, hnumber, hn⟩
    obtain ⟨c, rest, hchars⟩ : ∃ c rest, digits.toList = c :: rest :=
      List.exists_cons_of_ne_nil fun hnil => hsome (String.ext hnil)
    rw [hchars] at hread hdigits
    have hc : c ≠ '+' := ne_plus_of_isDigit (hdigits c List.mem_cons_self)
    rcases hsign with rfl | rfl
    · rw [String.empty_append, unsignedBelow, hchars]
      split
      next hnil => cases hnil
      next hplus => exact absurd (List.cons.inj hplus).1 hc
      next hplus => exact absurd (List.cons.inj hplus).1 hc
      next => exact hread
    · have hsigned : ("+" ++ digits).toList = '+' :: c :: rest := by
        rw [String.toList_append, hchars]
        rfl
      rw [unsignedBelow, hsigned]
      exact hread

end GraphSelection.Decimal

namespace GraphSelection.Text

theorem dropStart?_eq_some_iff {s start rest : String} :
    dropStart? s start = some rest ↔ s = start ++ rest := by
  unfold dropStart?
  constructor
  · intro h
    split at h
    next hprefix =>
      obtain ⟨others, hothers⟩ := List.isPrefixOf_iff_prefix.mp hprefix
      rw [← hothers, List.drop_left] at h
      obtain rfl := Option.some.inj h
      exact String.ext (by rw [String.toList_append, String.toList_ofList, hothers])
    next => cases h
  · rintro rfl
    have hprefix : start.toList.isPrefixOf (start ++ rest).toList = true := by
      rw [String.toList_append, List.isPrefixOf_iff_prefix]
      exact List.prefix_append _ _
    rw [if_pos hprefix, String.toList_append, List.drop_left, String.ofList_toList]

/-- The octets of text in UTF-8. -/
def octets (s : String) : List Nat := s.toByteArray.data.toList.map UInt8.toNat

theorem utf8EncodeChar_ascii {c : Char} (h : c.toNat < 128) :
    (String.utf8EncodeChar c).map UInt8.toNat = [c.toNat] := by
  have hsize : c.utf8Size = 1 :=
    Char.utf8Size_eq_one_iff.mpr (UInt32.le_iff_toNat_le.mpr (Nat.le_of_lt_succ h))
  rw [String.utf8EncodeChar_eq_singleton hsize, List.map_singleton, UInt32.toNat_toUInt8]
  exact congrArg (fun code => [code]) (Nat.mod_eq_of_lt (Nat.lt_trans h (by decide)))

theorem flatMap_utf8EncodeChar {cs : List Char} (h : ∀ c ∈ cs, c.toNat < 128) :
    (cs.flatMap String.utf8EncodeChar).map UInt8.toNat = cs.map Char.toNat := by
  induction cs with
  | nil => rfl
  | cons c rest ih =>
    rw [List.forall_mem_cons] at h
    rw [List.flatMap_cons, List.map_append, utf8EncodeChar_ascii h.1, ih h.2]
    rfl

theorem octets_ascii {s : String} (h : ∀ c ∈ s.toList, c.toNat < 128) :
    octets s = s.toList.map Char.toNat := by
  have hbytes : s.toByteArray = (s.toList.flatMap String.utf8EncodeChar).toByteArray := by
    rw [← List.utf8Encode, ← String.toByteArray_ofList, String.ofList_toList]
  rw [octets, hbytes, List.toList_data_toByteArray, flatMap_utf8EncodeChar h]

theorem octets_lt (s : String) : ∀ x ∈ octets s, x < 256 := by
  intro x hx
  obtain ⟨b, _, rfl⟩ := List.mem_map.mp hx
  exact b.toNat_lt

end GraphSelection.Text

namespace GraphSelection.Cursor

theorem asciiChars?_eq_some_iff {octets : List Nat} {chars : List Char} :
    asciiChars? octets = some chars ↔
      octets = chars.map Char.toNat ∧ ∀ c ∈ chars, c.toNat < 128 := by
  constructor
  · intro h
    unfold asciiChars? at h
    split at h
    next hall =>
      obtain rfl := Option.some.inj h
      have hsmall : ∀ x ∈ octets, x < 128 := by simpa using hall
      have hback : ∀ x ∈ octets, (Char.ofNat x).toNat = x := fun x hx =>
        (by decide : ∀ i < 128, (Char.ofNat i).toNat = i) x (hsmall x hx)
      refine ⟨?_, ?_⟩
      · rw [List.map_map]
        exact (List.map_id octets).symm.trans (List.map_congr_left fun x hx => (hback x hx).symm)
      · rintro c hc
        obtain ⟨x, hx, rfl⟩ := List.mem_map.mp hc
        rw [hback x hx]
        exact hsmall x hx
    next => cases h
  · rintro ⟨rfl, hsmall⟩
    exact asciiChars?_toNat hsmall

theorem writes_toString (n : Nat) : Decimal.Writes (toString n) n := by
  have hchars : (toString n).toList = Nat.toDigits 10 n := Nat.toList_repr
  refine ⟨"", toString n, .inl rfl, String.empty_append.symm, ?_, ?_, ?_⟩
  · intro hnil
    have hpos : 0 < (Nat.toDigits 10 n).length := Nat.length_toDigits_pos
    rw [← hchars, hnil] at hpos
    exact Nat.lt_irrefl 0 hpos
  · intro c hc
    rw [hchars] at hc
    exact Nat.isDigit_of_mem_toDigits (by omega) (by omega) hc
  · rw [hchars]
    exact Nat.ofDigitChars_ten_toDigits

theorem ascii_of_isDigit {c : Char} (h : c.isDigit = true) : c.toNat < 128 := by
  simp only [Char.isDigit, Bool.and_eq_true, decide_eq_true_eq] at h
  have hle : c.toNat ≤ '9'.toNat := h.2
  exact Nat.lt_of_le_of_lt hle (by decide)

theorem ascii_of_writes {numeral : String} {n : Nat} (h : Decimal.Writes numeral n) :
    ∀ c ∈ (opening ++ numeral).toList, c.toNat < 128 := by
  obtain ⟨sign, digits, hsign, rfl, _, hdigits, _⟩ := h
  have hopening : opening.toList.all (fun c => decide (c.toNat < 128)) = true := by decide
  intro c hc
  rw [String.toList_append, String.toList_append] at hc
  rcases List.mem_append.mp hc with hc | hc
  · exact of_decide_eq_true (List.all_eq_true.mp hopening c hc)
  · rcases List.mem_append.mp hc with hc | hc
    · rcases hsign with rfl | rfl
      · cases hc
      · obtain rfl : c = '+' := List.mem_singleton.mp hc
        decide
    · exact ascii_of_isDigit (hdigits c hc)

/-- A cursor is read as an offset exactly if it encodes a numeral of the offset. -/
theorem offset?_eq_some_iff {s : String} {n : Nat} :
    offset? s = some n ↔
      ∃ numeral, Text.Base64.Encodes (Text.octets (opening ++ numeral)) s.toList ∧
        Decimal.Writes numeral n ∧ n < Decimal.word64 := by
  have hpos : 0 < Decimal.word64 := Nat.two_pow_pos 64
  simp only [offset?, Option.bind_eq_bind, Option.bind_eq_some_iff, asciiChars?_eq_some_iff,
    Text.dropStart?_eq_some_iff, Text.Base64.decode_eq_some_iff]
  constructor
  · rintro ⟨octets, ⟨hencodes, _⟩, chars, ⟨rfl, hascii⟩, numeral, htext, hread⟩
    have hok : Decimal.unsignedBelow Decimal.word64 numeral = .ok n := by
      cases hresult : Decimal.unsignedBelow Decimal.word64 numeral with
      | error fault => rw [hresult] at hread; cases hread
      | ok m => rw [hresult] at hread; exact congrArg _ (Option.some.inj hread)
    obtain ⟨hwrites, hn⟩ := (Decimal.unsignedBelow_eq_ok_iff hpos).mp hok
    refine ⟨numeral, ?_, hwrites, hn⟩
    rw [Text.octets_ascii (ascii_of_writes hwrites), ← htext, String.toList_ofList]
    exact hencodes
  · rintro ⟨numeral, hencodes, hwrites, hn⟩
    have hascii := ascii_of_writes hwrites
    refine ⟨_, ⟨hencodes, Text.octets_lt _⟩, (opening ++ numeral).toList,
      ⟨Text.octets_ascii hascii, hascii⟩, numeral, String.ofList_toList, ?_⟩
    rw [(Decimal.unsignedBelow_eq_ok_iff hpos).mpr ⟨hwrites, hn⟩]
    rfl

/-- The cursor of an offset is the encoding of its numeral and is read as the offset. A text is read
as an offset exactly if it is the encoding of a numeral of the offset, with or without a plus
sign. -/
theorem cursors_exact :
    (∀ n < Decimal.word64,
      Text.Base64.Encodes (Text.octets (opening ++ toString n)) (ofOffset n).toList ∧
        offset? (ofOffset n) = some n) ∧
    ∀ s n, offset? s = some n ↔
      ∃ sign digits : String, (sign = "" ∨ sign = "+") ∧ digits ≠ "" ∧
        (∀ c ∈ digits.toList, c.isDigit = true) ∧ Nat.ofDigitChars 10 digits.toList 0 = n ∧
        n < Decimal.word64 ∧
        Text.Base64.Encodes (Text.octets (opening ++ (sign ++ digits))) s.toList := by
  refine ⟨fun n hn => ⟨?_, offset?_ofOffset hn⟩, fun s n => ?_⟩
  · rw [Text.octets_ascii (ascii_of_writes (writes_toString n)), ofOffset, String.toList_ofList]
    refine Text.Base64.encodes_encode fun x hx => ?_
    obtain ⟨c, hc, rfl⟩ := List.mem_map.mp hx
    exact Nat.lt_trans (ascii_of_digits c hc) (by decide)
  · rw [offset?_eq_some_iff]
    constructor
    · rintro ⟨_, hencodes, ⟨sign, digits, hsign, rfl, hsome, hdigits, hnumber⟩, hn⟩
      exact ⟨sign, digits, hsign, hsome, hdigits, hnumber, hn, hencodes⟩
    · rintro ⟨sign, digits, hsign, hsome, hdigits, hnumber, hn, hencodes⟩
      exact ⟨_, hencodes, ⟨sign, digits, hsign, rfl, hsome, hdigits, hnumber⟩, hn⟩

/-- The cursor that follows 41 edges. -/
theorem cursors_exact_fortyOne :
    41 < Decimal.word64 ∧ offset? "YXJyYXljb25uZWN0aW9uOjQx" = some 41 := by
  have hsmall : 41 < Decimal.word64 := by decide
  have hcursor : ofOffset 41 = "YXJyYXljb25uZWN0aW9uOjQx" := by decide
  rw [← hcursor]
  exact ⟨hsmall, (cursors_exact.1 41 hsmall).2⟩

end GraphSelection.Cursor
