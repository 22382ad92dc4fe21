import MarkupTemplate.Text.Bytes

/-!
# Decimal numerals

## Main definitions

* `decimal n`: the digits of `n`, without leading zeros
* `ofDecimal s`: the number that a list of digits stands for

## Main results

* `ofDecimal_decimal`: the numeral of a number stands for it
* `decimal_injective`: so two numbers have two numerals
-/

namespace MarkupTemplate

/-- The digit for a number below ten. -/
def digit (d : Nat) : UInt8 := Byte.zero + d.toUInt8

/-- The digits of a number, the most significant first and no more of them than needed. -/
def decimal (n : Nat) : Bytes :=
  if n < 10 then [digit n] else decimal (n / 10) ++ [digit (n % 10)]

/-- The number that a list of digits stands for. -/
def ofDecimal (s : Bytes) : Nat := s.foldl (fun n b => 10 * n + (b - Byte.zero).toNat) 0

theorem ofDecimal_append_digit (s : Bytes) {d : Nat} (h : d < 10) :
    ofDecimal (s ++ [digit d]) = 10 * ofDecimal s + d := by
  have hd : (digit d - Byte.zero).toNat = d := by
    have hz : Byte.zero.toNat = 48 := rfl
    simp only [digit, Nat.toUInt8, UInt8.toNat_sub, UInt8.toNat_add, UInt8.toNat_ofNat', hz]
    omega
  simp [ofDecimal, hd]

/-- The numeral of a number stands for that number. -/
theorem ofDecimal_decimal (n : Nat) : ofDecimal (decimal n) = n := by
  induction n using Nat.strongRecOn with
  | ind n ih =>
    rw [decimal]
    split
    · next h => simpa [ofDecimal] using ofDecimal_append_digit [] h
    · rw [ofDecimal_append_digit _ (Nat.mod_lt _ (by omega)), ih (n / 10) (by omega)]
      omega

/-- Two numbers with one numeral are the same number. -/
theorem decimal_injective {m n : Nat} (h : decimal m = decimal n) : m = n := by
  rw [← ofDecimal_decimal m, h, ofDecimal_decimal]

/-- Every numeral has a digit. -/
theorem decimal_ne_nil (n : Nat) : decimal n ≠ [] := by
  rw [decimal]
  split <;> simp

end MarkupTemplate
