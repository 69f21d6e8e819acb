import Spangap.Browser
import Spangap.Decimals

namespace Spangap.TypeInference

open List CJson Browser Decimals
open FieldValues (signed forall_byte)

variable {s : Name} {i : Int}

/-- A text of digits, with a minus or without one, and its value. -/
def Denotes (s : Name) (i : Int) : Prop :=
  (∃ ds, s = 45 :: ds ∧ isAllDigits ds = true ∧ i = -(value ds : Int)) ∨ (isAllDigits s = true ∧ i = value s)

theorem isDigit_le {c : UInt8} (h : isDigit c = true) : c.toNat - 48 ≤ 9 := by
  have hbyte : ∀ c : UInt8, isDigit c = true → c.toNat - 48 ≤ 9 := forall_byte (by decide +kernel)
  exact hbyte c h

/-- The quotient is rounded toward zero, so the guard is exact for every digit. -/
theorem guard_iff {d : Nat} (acc : Int) (hd : d ≤ 9) :
    acc < (-2147483648 + (d : Int)).tdiv 10 ↔ acc * 10 - d < -2147483648 := by
  have hdiv : (-2147483648 + (d : Int)).tdiv 10 = -((2147483648 - (d : Int)) / 10) := by
    rw [← Int.tdiv_eq_ediv_of_nonneg (by omega), ← Int.neg_tdiv, Int.neg_sub, Int.sub_eq_add_neg, Int.add_comm]
  rw [hdiv]
  omega

theorem le_foldl (s : Name) (n : Nat) : n ≤ s.foldl (fun a c => a * 10 + (c.toNat - 48)) n := by
  induction s generalizing n with
  | nil => exact le_refl n
  | cons c s ih => exact Nat.le_trans (by omega : n ≤ n * 10 + (c.toNat - 48)) (ih _)

theorem inferDigits_eq {n : Nat} (hn : n ≤ 2147483648) (s : Name) : inferDigits (-(n : Int)) s =
    if s.all isDigit ∧ s.foldl (fun a c => a * 10 + (c.toNat - 48)) n ≤ 2147483648 then
      some (-((s.foldl (fun a c => a * 10 + (c.toNat - 48)) n : Nat) : Int))
    else none := by
  induction s generalizing n with
  | nil => simp [inferDigits, hn]
  | cons c s ih =>
    rw [inferDigits, foldl_cons, all_cons]
    by_cases hc : isDigit c = true
    · simp only [hc, if_true, Bool.true_and, guard_iff _ (isDigit_le hc)]
      have hnext : -(n : Int) * 10 - ((c.toNat - 48 : Nat) : Int) = -((n * 10 + (c.toNat - 48) : Nat) : Int) := by omega
      rw [hnext]
      split
      next hout =>
        have := le_foldl s (n * 10 + (c.toNat - 48))
        rw [if_neg (by omega)]
      · exact ih (by omega)
    · simp [hc]

theorem inferDigits_zero (s : Name) : inferDigits 0 s =
    if s.all isDigit ∧ value s ≤ 2147483648 then some (-(value s : Int)) else none :=
  inferDigits_eq (Nat.zero_le _) s

theorem isAllDigits_iff : isAllDigits s = true ↔ s ≠ [] ∧ s.all isDigit = true := by
  simp [isAllDigits]

theorem inferType_iff : Browser.inferType s = some i ↔ Denotes s i ∧ -2147483648 ≤ i ∧ i ≤ 2147483647 := by
  cases s with
  | nil => simp [Browser.inferType, Denotes, isAllDigits]
  | cons c cs =>
    rw [Browser.inferType, inferDigits_zero, inferDigits_zero]
    by_cases hc : c = 45
    · subst hc
      have hminus : isAllDigits (45 :: cs) = false := rfl
      by_cases hcs : cs = []
      · subst hcs
        simp only [Denotes, hminus, List.cons.injEq, isAllDigits_iff]
        grind
      · simp only [if_true, if_neg hcs, Denotes, hminus, List.cons.injEq, isAllDigits_iff]
        grind
    · simp only [if_neg hc, Denotes, List.cons.injEq, isAllDigits_iff]
      grind

theorem atoi_of_denotes (h : Denotes s i) (hlow : -2147483648 ≤ i) (hhigh : i ≤ 2147483647) : FieldValues.atoi s = i := by
  rcases h with ⟨ds, rfl, hds, rfl⟩ | ⟨hs, rfl⟩
  · have hsigned : signed (45 :: ds) = (true, value ds) := by
      rw [← digits_of_isDigit (all_eq_true.mp (isAllDigits_iff.mp hds).2)]
      rfl
    rw [FieldValues.atoi, hsigned, if_pos rfl, max_eq_right hlow]
  · rw [FieldValues.atoi, signed_digits hs, if_neg (by simp), min_eq_right hhigh]

/-- An `int32_t` operation has no result when it overflows. -/
def int32 (i : Int) : Option Int := if -2147483648 ≤ i ∧ i ≤ 2147483647 then some i else none

inductive CfgType
  | str
  | int
  deriving DecidableEq, Repr

/-- The loop over the digits; `some none` is its return of `CFG_STR`. -/
def scan : Int → Name → Option (Option Int)
  | acc, [] => some (some acc)
  | acc, c :: cs =>
    if isDigit c then do
      let d : Int := (c.toNat - 48 : Nat)
      let low ← int32 (-2147483648 + d)
      if acc < low.tdiv 10 then some none
      else
        let tens ← int32 (acc * 10)
        let acc ← int32 (tens - d)
        scan acc cs
    else some none

def inferType : Name → Option CfgType
  | [] => some .str
  | c :: cs =>
    let p := if c = 45 then cs else c :: cs
    if p = [] then some .str
    else (scan 0 p).map fun r =>
      match r with
      | none => .str
      | some acc => if c ≠ 45 ∧ acc = -2147483648 then .str else .int

theorem int32_of_range (hlow : -2147483648 ≤ i) (hhigh : i ≤ 2147483647) : int32 i = some i := if_pos ⟨hlow, hhigh⟩

theorem scan_eq {acc : Int} (hlow : -2147483648 ≤ acc) (hhigh : acc ≤ 0) (s : Name) : scan acc s = some (inferDigits acc s) := by
  induction s generalizing acc with
  | nil => rfl
  | cons c s ih =>
    rw [scan, inferDigits]
    split
    next hc =>
      have hd := isDigit_le hc
      simp only [int32_of_range (i := -2147483648 + ((c.toNat - 48 : Nat) : Int)) (by omega) (by omega), Option.bind_eq_bind,
        Option.bind_some, guard_iff acc hd]
      split
      · rfl
      · rw [int32_of_range (by omega) (by omega), Option.bind_some, int32_of_range (by omega) (by omega), Option.bind_some]
        exact ih (by omega) (by omega)
    · rfl

theorem scan_zero (s : Name) : scan 0 s = some (inferDigits 0 s) := scan_eq (by decide) (le_refl 0) s

theorem inferType_eq (s : Name) : inferType s = some (if (Browser.inferType s).isSome then .int else .str) := by
  cases s with
  | nil => rfl
  | cons c cs =>
    rw [inferType, Browser.inferType]
    by_cases hc : c = 45
    · by_cases hcs : cs = []
      · simp [hc, hcs]
      · rcases hr : inferDigits 0 cs with - | acc <;> simp [hc, hcs, scan_zero, hr]
    · rcases hr : inferDigits 0 (c :: cs) with - | acc
      · simp [hc, scan_zero, hr]
      · by_cases hacc : acc = -2147483648 <;> simp [hc, scan_zero, hr, hacc]

theorem inferType_exact (s : Name) : (inferType s).isSome = true ∧
    (inferType s = some .int ↔ ∃ i, Denotes s i ∧ -2147483648 ≤ i ∧ i ≤ 2147483647) ∧
    ∀ i, Denotes s i → -2147483648 ≤ i → i ≤ 2147483647 → FieldValues.atoi s = i := by
  rw [inferType_eq]
  refine ⟨rfl, ?_, fun i => atoi_of_denotes⟩
  simp only [← inferType_iff, ← Option.isSome_iff_exists]
  cases (Browser.inferType s).isSome <;> simp

end Spangap.TypeInference
