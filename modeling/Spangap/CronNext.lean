import Spangap.Cron
import Mathlib.Order.Lattice

namespace Spangap.CronNext

open CJson Cron

section Clock

variable {l n : Int}

theorem dayOf_hour (h : l / 60 = n / 60) : dayOf l = dayOf n ∧ hourOf l = hourOf n := by
  unfold dayOf hourOf
  omega

end Clock

section Search

variable {date : Int → Date} {off : Int} {e : Entry} {horizon : Nat}

theorem matches5_iff {l : Int} :
    matches5 date e l = true ↔ matchDay date e l = true ∧ matchHour e l = true ∧ matchMin e l = true := by
  unfold matches5
  rw [Bool.and_eq_true, Bool.and_eq_true, and_assoc]

theorem matchDay_congr {l n : Int} (h : dayOf l = dayOf n) : matchDay date e l = matchDay date e n := by
  unfold matchDay
  rw [h]

theorem matchHour_congr {l n : Int} (h : hourOf l = hourOf n) : matchHour e l = matchHour e n := by
  unfold matchHour
  rw [h]

theorem matchMin_congr {l n : Int} (h : minOf l = minOf n) : matchMin e l = matchMin e n := by
  unfold matchMin
  rw [h]

theorem search_step (l : Int) (guard : Nat) :
    searchFrom date off e horizon (guard + 1) l = uint32Max ∨
      epochMinute off l ≤ horizon ∧
        (matches5 date e l = true ∧ searchFrom date off e horizon (guard + 1) l = epochMinute off l ∨
          ∃ l', l < l' ∧ l' ≤ l + 1440 ∧ searchFrom date off e horizon (guard + 1) l = searchFrom date off e horizon guard l' ∧
            ∀ n, l ≤ n → n < l' → matches5 date e n = false) := by
  rw [searchFrom]
  split
  · exact .inl rfl
  next hhor =>
    refine .inr ⟨Nat.not_lt.mp hhor, ?_⟩
    split
    next hday =>
      refine .inr ⟨_, ?_, ?_, rfl, fun n hn hn' => ?_⟩
      · unfold dayOf
        omega
      · unfold dayOf
        omega
      · have hsame : dayOf n = dayOf l := by
          unfold dayOf at hn' ⊢
          omega
        rw [matches5, matchDay_congr hsame]
        simp_all
    · split
      next hhour =>
        refine .inr ⟨_, by omega, by omega, rfl, fun n hn hn' => ?_⟩
        rw [matches5, matchHour_congr (dayOf_hour (show n / 60 = l / 60 by omega)).2]
        simp_all
      · split
        next hmin =>
          refine .inr ⟨_, by omega, by omega, rfl, fun n hn hn' => ?_⟩
          obtain rfl : n = l := by omega
          rw [matches5]
          simp_all
        next hday hhour hmin =>
          refine .inl ⟨matches5_iff.mpr ⟨?_, ?_, ?_⟩, rfl⟩
          · simpa using hday
          · simpa using hhour
          · simpa using hmin

/-- What the search returns is the first match from where it starts, and lies before the
horizon. -/
theorem search_first (hhor : horizon + 1440 < 2 ^ 32) (guard : Nat) (l : Int) (hlo : off ≤ l) (hhi : l - off ≤ horizon + 1440) :
    searchFrom date off e horizon guard l = uint32Max ∨
      ∃ r, l ≤ r ∧ r - off ≤ horizon ∧ searchFrom date off e horizon guard l = epochMinute off r ∧ matches5 date e r = true ∧
        ∀ n, l ≤ n → n < r → matches5 date e n = false := by
  induction guard generalizing l with
  | zero => exact .inl rfl
  | succ guard ih =>
    rcases @search_step date off e horizon l guard with
      hmax | ⟨hin, ⟨hmatch, heq⟩ | ⟨l', hlt, hnear, heq, hnone⟩⟩
    · exact .inl hmax
    · refine .inr ⟨l, Int.le_refl l, ?_, heq, hmatch, fun n hn hn' => by omega⟩
      unfold epochMinute at hin
      omega
    · rw [heq]
      have hin' : l - off ≤ horizon := by
        unfold epochMinute at hin
        omega
      rcases ih l' (by omega) (by omega) with hmax | ⟨r, hle, hr, heq', hmatch, hfirst⟩
      · exact .inl hmax
      · refine .inr ⟨r, by omega, hr, heq', hmatch, fun n hn hn' => ?_⟩
        rcases Int.lt_or_le n l' with h | h
        · exact hnone n hn h
        · exact hfirst n h hn'

/-- The steps that are left until a match at `n` is found or passed. Within an hour that
matches it takes the minutes up to the one of `n`; before that an hour is one step. -/
def stepsLeft (date : Int → Date) (e : Entry) (n l : Int) : Int :=
  if matchDay date e l = true ∧ matchHour e l = true ∧ minOf l ≤ minOf n then minOf n - minOf l + 1
  else n / 60 - l / 60 + 61 + if minOf n < minOf l then 60 - minOf l else 0

theorem minOf_range (l : Int) : 0 ≤ minOf l ∧ minOf l < 60 := by
  unfold minOf
  omega

theorem stepsLeft_full_hour {n l : Int} (hfull : minOf l = 0) (hle : l ≤ n) : stepsLeft date e n l ≤ n / 60 - l / 60 + 61 := by
  have hn := minOf_range n
  unfold stepsLeft
  split
  · omega
  · rw [if_neg (by omega)]
    omega

theorem search_reaches {n : Int} (hn : matches5 date e n = true) (guard : Nat) (l : Int) (hln : l ≤ n)
    (hhor : ∀ k, l ≤ k → k ≤ n → epochMinute off k ≤ horizon) (hsteps : stepsLeft date e n l ≤ guard) :
    ∃ r, l ≤ r ∧ r ≤ n ∧ searchFrom date off e horizon guard l = epochMinute off r := by
  obtain ⟨hday, hhour, hmin⟩ := matches5_iff.mp hn
  induction guard generalizing l with
  | zero =>
    have hl60 := minOf_range l
    unfold stepsLeft at hsteps
    split at hsteps
    · omega
    · split at hsteps <;> omega
  | succ guard ih =>
    have hl60 := minOf_range l
    have hgo : ∀ l', l < l' → l' ≤ n → stepsLeft date e n l' ≤ guard →
        ∃ r, l ≤ r ∧ r ≤ n ∧ searchFrom date off e horizon guard l' = epochMinute off r := by
      intro l' hlt hle hless
      obtain ⟨r, hr, hrn, heq⟩ := ih l' hle (fun k hk hkn => hhor k (by omega) hkn) hless
      exact ⟨r, by omega, hrn, heq⟩
    -- Outside an hour that matches, the next full hour is one step on.
    have hfull : ¬ (matchDay date e l = true ∧ matchHour e l = true ∧ minOf l ≤ minOf n) → ∀ l', minOf l' = 0 → l / 60 < l' / 60 → l' ≤ n →
        ∃ r, l ≤ r ∧ r ≤ n ∧ searchFrom date off e horizon guard l' = epochMinute off r := by
      intro hbad l' hzero hlater hle
      have hless := @stepsLeft_full_hour date e n l' hzero hle
      rw [stepsLeft, if_neg hbad] at hsteps
      refine hgo l' (by omega) hle ?_
      split at hsteps <;> omega
    rw [searchFrom, if_neg (Nat.not_lt.mpr (hhor l (Int.le_refl l) hln))]
    split
    next hd =>
      have hne : dayOf l ≠ dayOf n := fun h => by
        rw [matchDay_congr h, hday] at hd
        simp at hd
      refine hfull (fun h => by simp [h.1] at hd) _ ?_ ?_ ?_ <;> unfold dayOf at * <;> (try unfold minOf) <;> omega
    next hd =>
      split
      next hh =>
        have hne : l / 60 ≠ n / 60 := fun h => by
          rw [matchHour_congr (dayOf_hour h).2, hhour] at hh
          simp at hh
        refine hfull (fun h => by simp [h.2.1] at hh) _ ?_ (by omega) (by omega)
        unfold minOf
        omega
      next hh =>
        split
        next hm =>
          have hdl : matchDay date e l = true := by simpa using hd
          have hhl : matchHour e l = true := by simpa using hh
          have hne : minOf l ≠ minOf n := fun h => by
            rw [matchMin_congr h, hmin] at hm
            simp at hm
          rcases Int.lt_or_gt_of_ne hne with hlt | hgt
          · have hsame : (l + 1) / 60 = l / 60 ∧ minOf (l + 1) = minOf l + 1 := by
              unfold minOf at *
              omega
            rw [stepsLeft, if_pos ⟨hdl, hhl, by omega⟩] at hsteps
            refine hgo (l + 1) (by omega) (by unfold minOf at hne; omega) ?_
            rw [stepsLeft, if_pos ⟨matchDay_congr (dayOf_hour hsame.1).1 ▸ hdl, matchHour_congr (dayOf_hour hsame.1).2 ▸ hhl, by omega⟩]
            omega
          · have hlater : l / 60 < n / 60 := by
              unfold minOf at hgt
              omega
            by_cases hlast : minOf l = 59
            · refine hfull (fun h => by omega) _ ?_ ?_ ?_ <;> unfold minOf at * <;> omega
            · have hsame : (l + 1) / 60 = l / 60 ∧ minOf (l + 1) = minOf l + 1 := by
                unfold minOf at *
                omega
              rw [stepsLeft, if_neg (fun h => by omega), if_pos hgt] at hsteps
              refine hgo (l + 1) (by omega) (by omega) ?_
              rw [stepsLeft, if_neg (fun h => by omega), if_pos (by omega)]
              omega
        next hm => exact ⟨l, Int.le_refl l, hln, rfl⟩

end Search

section Run

variable (date : Int → Date) (off : Int)

/-- The five fields match the local time of an epoch minute. -/
def Due (e : Entry) (m : Nat) : Prop := matches5 date e (m + off) = true
  deriving Decidable

variable {date off} {e : Entry} {start m : Nat}

/-- Minutes that are far from the end of 32 bits. -/
def lastMinute : Nat := 2 ^ 32 - 600000

theorem cronNextRun_due (hstart : start ≤ lastMinute) (h : cronNextRun date off e start ≠ uint32Max) :
    start ≤ cronNextRun date off e start ∧ Due date off e (cronNextRun date off e start) ∧
      ∀ k, start ≤ k → k < cronNextRun date off e start → ¬ Due date off e k := by
  have hmod : (start + 400 * 24 * 60) % 2 ^ 32 = start + 576000 := by
    unfold lastMinute at hstart
    omega
  unfold cronNextRun at h ⊢
  rw [hmod] at h ⊢
  have hfirst := @search_first date off e (start + 576000)
    (by unfold lastMinute at hstart; omega) 1000 (start + off) (by omega) (by omega)
  obtain ⟨r, hle, hr, heq, hmatch, hnone⟩ := hfirst.resolve_left h
  have hval : ((searchFrom date off e (start + 576000) 1000 (start + off) : Nat) : Int) + off = r := by
    rw [heq, epochMinute]
    omega
  refine ⟨by omega, ?_, fun k hk hk' => ?_⟩
  · unfold Due
    rw [hval]
    exact hmatch
  · unfold Due
    rw [hnone (k + off) (by omega) (by omega)]
    simp

theorem cronNextRun_le (hstart : start ≤ lastMinute) (hle : start ≤ m) (hnear : m ≤ start + 1440) (hdue : Due date off e m) :
    cronNextRun date off e start ≤ m := by
  have hmod : (start + 400 * 24 * 60) % 2 ^ 32 = start + 576000 := by
    unfold lastMinute at hstart
    omega
  unfold cronNextRun
  rw [hmod]
  have hsteps : stepsLeft date e (m + off) (start + off) ≤ (1000 : Nat) := by
    have hm := minOf_range ((m : Int) + off)
    have hs := minOf_range ((start : Int) + off)
    unfold stepsLeft
    split
    · omega
    · split <;> omega
  obtain ⟨r, hr, hrn, heq⟩ := @search_reaches date off e (start + 576000) _ hdue 1000 (start + off) (by omega)
    (fun k hk hkn => by
      unfold epochMinute
      omega) hsteps
  rw [heq, epochMinute]
  omega

end Run

end Spangap.CronNext
