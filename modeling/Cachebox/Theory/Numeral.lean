import Mathlib.Order.Basic

/-!
# Numerals

`Numeral.parse bound` reads an unsigned decimal numeral below `bound`, digit by digit, with an
optional plus sign.
-/

namespace Numeral
variable {bound n : Nat}

/-- Reads digits behind a number. -/
def readDigits (bound : Nat) : List Char → Nat → Option Nat
  | [], n => some n
  | c :: cs, n =>
    if c.isDigit then
      let n := n * 10 + (c.toNat - '0'.toNat)
      if n < bound then readDigits bound cs n else none
    else none

def parse (bound : Nat) (text : String) : Option Nat :=
  let digits := match text.toList with
    | '+' :: digits => digits
    | digits => digits
  if digits = [] then none else readDigits bound digits 0

theorem readDigits_append (cs ds : List Char) (n : Nat) :
    readDigits bound (cs ++ ds) n = (readDigits bound cs n).bind (readDigits bound ds) := by
  induction cs generalizing n with
  | nil => rfl
  | cons c cs ih =>
    simp only [List.cons_append, readDigits]
    split_ifs
    · exact ih _
    · rfl
    · rfl

theorem lt_of_readDigits {cs : List Char} {m : Nat} (hn : n < bound)
    (h : readDigits bound cs n = some m) : m < bound := by
  induction cs generalizing n with
  | nil =>
    cases h
    exact hn
  | cons c cs ih =>
    simp only [readDigits] at h
    split_ifs at h with hdigit hlt
    exact ih hlt h

theorem lt_of_parse {text : String} (hbound : 0 < bound) (h : parse bound text = some n) :
    n < bound := by
  simp only [parse] at h
  split_ifs at h
  exact lt_of_readDigits hbound h

theorem readDigits_toDigits (h : n < bound) : readDigits bound (Nat.toDigits 10 n) 0 = some n := by
  induction n using Nat.base_induction 10 (by decide) with
  | single m hm =>
    rw [Nat.toDigits_of_lt_base hm]
    simp [readDigits, Nat.isDigit_digitChar, hm, Nat.toNat_digitChar_of_lt_ten hm, h]
  | digit m k hk hm ih =>
    rw [← Nat.toDigits_append_toDigits (by decide) hm hk, readDigits_append, ih (by omega),
      Nat.toDigits_of_lt_base hk]
    have hsum : m * 10 + k = 10 * m + k := by omega
    simp [readDigits, Nat.isDigit_digitChar, hk, Nat.toNat_digitChar_of_lt_ten hk, hsum, h]

/-- Printing a number and reading it. -/
theorem parse_toString (h : n < bound) : parse bound (toString n) = some n := by
  have hdigits : (toString n).toList = Nat.toDigits 10 n := by
    rw [Nat.toString_eq_ofList_toDigits, String.toList_ofList]
  rw [parse, hdigits]
  -- a numeral does not start with a plus sign
  have hplus : ∀ digits, Nat.toDigits 10 n ≠ '+' :: digits := by
    intro digits heq
    have hmem : '+' ∈ Nat.toDigits 10 n := heq ▸ List.mem_cons_self
    exact absurd (Nat.isDigit_of_mem_toDigits (by decide) (by decide) hmem) (by decide)
  split
  next digits heq => exact absurd heq (hplus digits)
  next => rw [if_neg Nat.toDigits_ne_nil, readDigits_toDigits h]

end Numeral
