import Mathlib.Data.List.Basic

/-!
# Base64

Three bytes are written as four digits of six bits each. A last group of one or two bytes is written
with the digits that it needs and padded to four characters. `decode` reads it back.
-/

namespace Base64

def alphabet : List Char :=
  "ABCDEFGHIJKLMNOPQRSTUVWXYZabcdefghijklmnopqrstuvwxyz0123456789+/".toList

def pad : Char := '='

def digit (n : Nat) : Char := alphabet.getD n pad

def value (c : Char) : Nat := alphabet.idxOf c

def encode : List UInt8 → List Char
  | [] => []
  | [a] => [digit (a.toNat / 4), digit (a.toNat % 4 * 16), pad, pad]
  | [a, b] =>
    [digit (a.toNat / 4), digit (a.toNat % 4 * 16 + b.toNat / 16), digit (b.toNat % 16 * 4), pad]
  | a :: b :: c :: rest =>
    digit (a.toNat / 4) :: digit (a.toNat % 4 * 16 + b.toNat / 16) ::
      digit (b.toNat % 16 * 4 + c.toNat / 64) :: digit (c.toNat % 64) :: encode rest

def decode : List Char → List UInt8
  | w :: x :: y :: z :: rest =>
    if y = pad then [.ofNat (value w * 4 + value x / 16)]
    else if z = pad then
      [.ofNat (value w * 4 + value x / 16), .ofNat (value x % 16 * 16 + value y / 4)]
    else
      .ofNat (value w * 4 + value x / 16) :: .ofNat (value x % 16 * 16 + value y / 4) ::
        .ofNat (value y % 4 * 64 + value z) :: decode rest
  | _ => []

theorem value_digit {n : Nat} (hn : n < 64) : value (digit n) = n := by
  have hall : ∀ i : Fin 64, value (digit i) = i := by decide +kernel
  exact hall ⟨n, hn⟩

theorem digit_ne_pad {n : Nat} (hn : n < 64) : digit n ≠ pad := by
  have hall : ∀ i : Fin 64, digit i ≠ pad := by decide +kernel
  exact hall ⟨n, hn⟩

theorem ofNat_eq {a : UInt8} {n : Nat} (h : n = a.toNat) : UInt8.ofNat n = a := by
  rw [h, UInt8.ofNat_toNat]

theorem decode_encode (bytes : List UInt8) : decode (encode bytes) = bytes := by
  fun_induction encode bytes with
  | case1 => rfl
  | case2 a =>
    have ha := a.toNat_lt
    rw [decode, if_pos rfl, value_digit (by omega), value_digit (by omega),
      ofNat_eq (a := a) (by omega)]
  | case3 a b =>
    have ha := a.toNat_lt
    have hb := b.toNat_lt
    rw [decode, if_neg (digit_ne_pad (by omega)), if_pos rfl, value_digit (by omega),
      value_digit (by omega), value_digit (by omega), ofNat_eq (a := a) (by omega),
      ofNat_eq (a := b) (by omega)]
  | case4 a b c rest ih =>
    have ha := a.toNat_lt
    have hb := b.toNat_lt
    have hc := c.toNat_lt
    rw [decode, if_neg (digit_ne_pad (by omega)), if_neg (digit_ne_pad (by omega)),
      value_digit (by omega), value_digit (by omega), value_digit (by omega),
      value_digit (by omega), ofNat_eq (a := a) (by omega), ofNat_eq (a := b) (by omega),
      ofNat_eq (a := c) (by omega), ih]

theorem encode_injective : Function.Injective encode :=
  Function.LeftInverse.injective decode_encode

end Base64
