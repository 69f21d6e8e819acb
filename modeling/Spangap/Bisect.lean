import Mathlib.Data.Nat.Basic

namespace Spangap.Bisect

variable {ε : Type} {probe : Nat → Except ε Ordering}

/-- Binary search in `[lo, hi)`. `probe i` compares the key with the element at `i`, if it can
be read. -/
def bisect (probe : Nat → Except ε Ordering) : Nat → Nat → Nat → Except ε (Option Nat)
  | 0, _, _ => .ok none
  | fuel + 1, lo, hi =>
    if lo < hi then
      let mid := lo + (hi - lo) / 2
      match probe mid with
      | .error e => .error e
      | .ok .eq => .ok (some mid)
      | .ok .lt => bisect probe fuel lo mid
      | .ok .gt => bisect probe fuel (mid + 1) hi
    else .ok none

theorem bisect_total {lo hi : Nat} (fuel : Nat) (h : ∀ i, lo ≤ i → i < hi → ∃ c, probe i = .ok c) :
    ∃ r, bisect probe fuel lo hi = .ok r ∧ ∀ k, r = some k → lo ≤ k ∧ k < hi ∧ probe k = .ok .eq := by
  induction fuel generalizing lo hi with
  | zero => exact ⟨none, rfl, by simp⟩
  | succ fuel ih =>
    rw [bisect]
    split
    next hlt =>
      obtain ⟨c, hc⟩ := h (lo + (hi - lo) / 2) (by omega) (by omega)
      dsimp only
      rw [hc]
      cases c with
      | eq =>
        refine ⟨_, rfl, ?_⟩
        rintro k hk
        cases hk
        exact ⟨by omega, by omega, hc⟩
      | lt =>
        have hleft : ∀ i, lo ≤ i → i < lo + (hi - lo) / 2 → ∃ c, probe i = .ok c := fun i hlo hhi => h i hlo (by omega)
        obtain ⟨r, hr, hfound⟩ := ih hleft
        refine ⟨r, hr, fun k hk => ?_⟩
        obtain ⟨hlo, hhi, heq⟩ := hfound k hk
        exact ⟨hlo, by omega, heq⟩
      | gt =>
        have hright : ∀ i, lo + (hi - lo) / 2 + 1 ≤ i → i < hi → ∃ c, probe i = .ok c := fun i hlo hhi => h i (by omega) hhi
        obtain ⟨r, hr, hfound⟩ := ih hright
        refine ⟨r, hr, fun k hk => ?_⟩
        obtain ⟨hlo, hhi, heq⟩ := hfound k hk
        exact ⟨by omega, hhi, heq⟩
    · exact ⟨none, rfl, by simp⟩

theorem bisect_miss {lo hi : Nat} (fuel : Nat) (h : ∀ i, lo ≤ i → i < hi → ∃ c, probe i = .ok c ∧ c ≠ .eq) :
    bisect probe fuel lo hi = .ok none := by
  obtain ⟨r, hr, hfound⟩ := bisect_total fuel fun i hlo hhi => (h i hlo hhi).imp fun c hc => hc.1
  cases r with
  | none => exact hr
  | some k =>
    obtain ⟨hlo, hhi, heq⟩ := hfound k rfl
    obtain ⟨c, hc, hne⟩ := h k hlo hhi
    exact absurd (Except.ok.inj (hc.symm.trans heq)) hne

theorem bisect_hit {lo hi k fuel : Nat} (hfuel : hi - lo ≤ fuel) (hlo : lo ≤ k) (hhi : k < hi) (hk : probe k = .ok .eq)
    (hbelow : ∀ i, i < k → probe i = .ok .gt) (habove : ∀ i, k < i → i < hi → probe i = .ok .lt) :
    bisect probe fuel lo hi = .ok (some k) := by
  induction fuel generalizing lo hi with
  | zero => omega
  | succ fuel ih =>
    rw [bisect, if_pos (by omega)]
    dsimp only
    rcases lt_trichotomy (lo + (hi - lo) / 2) k with hlt | rfl | hgt
    · rw [hbelow _ hlt]
      exact ih (by omega) (by omega) hhi habove
    · rw [hk]
    · rw [habove _ hgt (by omega)]
      exact ih (by omega) hlo hgt fun i hi hi' => habove i hi (by omega)

end Spangap.Bisect
