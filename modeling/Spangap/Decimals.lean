import Mathlib.Data.List.TakeWhile
import Spangap.FieldValues

namespace Spangap.Decimals

open List CJson FieldValues

def value (s : Name) : Nat := s.foldl (fun a c => a * 10 + (c.toNat - 48)) 0

theorem decimal_eq (n : Nat) :
    decimal n = if n < 10 then [UInt8.ofNat (48 + n)] else decimal (n / 10) ++ [UInt8.ofNat (48 + n % 10)] := by
  have hchar : ∀ d < 10, (Nat.digitChar d).toNat.toUInt8 = UInt8.ofNat (48 + d) := by decide
  rw [decimal, Nat.toDigits_eq_if (by decide)]
  split
  next h => rw [map_singleton, hchar n h]
  · rw [map_append, map_singleton, hchar _ (Nat.mod_lt _ (by decide))]
    rfl

theorem decimal_ne_nil (n : Nat) : decimal n ≠ [] := by
  rw [decimal_eq]
  split <;> simp

theorem isDigit_decimal (n : Nat) : ∀ c ∈ decimal n, isDigit c = true := by
  have hdigit : ∀ d < 10, isDigit (UInt8.ofNat (48 + d)) = true := by decide
  induction n using Nat.strongRecOn with
  | ind n ih =>
    rw [decimal_eq]
    split
    next h => simpa using hdigit n h
    next h => exact forall_mem_append.mpr ⟨ih (n / 10) (by omega), forall_mem_singleton.mpr (hdigit _ (Nat.mod_lt _ (by decide)))⟩

theorem value_append (s : Name) (c : UInt8) : value (s ++ [c]) = value s * 10 + (c.toNat - 48) := by
  rw [value, foldl_append]
  rfl

theorem value_decimal (n : Nat) : value (decimal n) = n := by
  have hdigit : ∀ d < 10, (UInt8.ofNat (48 + d)).toNat - 48 = d := by decide
  induction n using Nat.strongRecOn with
  | ind n ih =>
    rw [decimal_eq]
    split
    next h => simpa [value] using hdigit n h
    next h =>
      rw [value_append, ih (n / 10) (by omega), hdigit _ (Nat.mod_lt _ (by decide))]
      omega

theorem decimal_injective : Function.Injective decimal := by
  intro m n h
  rw [← value_decimal m, h, value_decimal]

theorem isAllDigits_decimal (n : Nat) : isAllDigits (decimal n) = true := by
  rw [isAllDigits, Bool.and_eq_true, all_eq_true]
  exact ⟨by simp [decimal_ne_nil], isDigit_decimal n⟩

theorem atoi_decimal {n : Nat} (hn : n ≤ 2147483647) : CJson.atoi (decimal n) = n := by
  have hvalue := value_decimal n
  unfold value at hvalue
  rw [CJson.atoi, hvalue, min_eq_left hn]

theorem length_decimal {n k : Nat} (hk : 0 < k) (hn : n < 10 ^ k) : (decimal n).length ≤ k := by
  rw [decimal, length_map]
  exact (Nat.length_toDigits_le_iff (by decide) hk).mpr hn

theorem digits_of_isDigit {s : Name} (h : ∀ c ∈ s, isDigit c = true) : digits s = value s := by
  rw [digits, takeWhile_eq_self_iff.mpr h]
  rfl

theorem signed_digits {s : Name} (h : isAllDigits s = true) : signed s = (false, value s) := by
  obtain ⟨hne, hall⟩ := Bool.and_eq_true_iff.mp h
  rw [all_eq_true] at hall
  obtain ⟨c, cs, rfl⟩ := exists_cons_of_ne_nil (l := s) (by simpa using hne)
  have hplain : ∀ c : UInt8, isDigit c = true → isSpace c = false ∧ c ≠ 45 ∧ c ≠ 43 := forall_byte (by decide +kernel)
  obtain ⟨hspace, h45, h43⟩ := hplain c (hall c mem_cons_self)
  unfold signed
  rw [dropWhile_cons_of_neg (by simp [hspace])]
  split
  next ht => exact absurd (List.cons.inj ht).1 h45
  next ht => exact absurd (List.cons.inj ht).1 h43
  · rw [digits_of_isDigit hall]

theorem signed_decimal (n : Nat) : signed (decimal n) = (false, n) := by
  rw [signed_digits (isAllDigits_decimal n), value_decimal]

end Spangap.Decimals
