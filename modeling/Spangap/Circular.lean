import Mathlib.Data.Nat.ModEq
import Mathlib.Logic.Function.Basic

namespace Spangap.Circular

open List Function

variable {α : Type} {N : Nat} {mem : Nat → α} {s n s' : Nat} {ds : List α}

/-- The `n` elements of a circular buffer of size `N` from position `s` on. -/
def window (N : Nat) (mem : Nat → α) (s n : Nat) : List α := (range n).map fun i => mem ((s + i) % N)

def store (N : Nat) : (Nat → α) → Nat → List α → Nat → α
  | mem, _, [] => mem
  | mem, s, d :: ds => store N (update mem (s % N) d) (s + 1) ds

@[simp] theorem window_length (N : Nat) (mem : Nat → α) (s n : Nat) : (window N mem s n).length = n := by simp [window]

theorem window_add (N : Nat) (mem : Nat → α) (s a b : Nat) : window N mem s (a + b) = window N mem s a ++ window N mem (s + a) b := by
  rw [window, range_add, map_append, map_map, window, window]
  simp [add_assoc]

theorem window_mod (h : s % N = s' % N) (mem : Nat → α) (n : Nat) : window N mem s n = window N mem s' n := by
  refine map_congr_left fun i _ => ?_
  rw [Nat.add_mod, h, ← Nat.add_mod]

theorem store_mod (h : s % N = s' % N) (mem : Nat → α) (ds : List α) : store N mem s ds = store N mem s' ds := by
  induction ds generalizing mem s s' with
  | nil => rfl
  | cons d ds ih =>
    have hnext : (s + 1) % N = (s' + 1) % N := by rw [Nat.add_mod, h, ← Nat.add_mod]
    rw [store, store, h]
    exact ih hnext _

theorem window_take (N : Nat) (mem : Nat → α) (s : Nat) {n k : Nat} (h : k ≤ n) : (window N mem s n).take k = window N mem s k := by
  rw [← Nat.add_sub_cancel' h, window_add, take_left' (window_length N mem s k)]

theorem window_drop (N : Nat) (mem : Nat → α) (s : Nat) {n k : Nat} (h : k ≤ n) :
    (window N mem s n).drop k = window N mem (s + k) (n - k) := by
  rw [← Nat.add_sub_cancel' h, window_add, drop_left' (window_length N mem s k), Nat.add_sub_cancel_left]

theorem mod_ne {a b : Nat} (hlt : a < b) (hnear : b < a + N) : a % N ≠ b % N := by
  intro h
  have hdvd : N ∣ b - a := (Nat.modEq_iff_dvd' (le_of_lt hlt)).mp h
  have := Nat.le_of_dvd (by omega) hdvd
  omega

theorem store_other {j : Nat} (h : ∀ k, k < ds.length → (s + k) % N ≠ j) : store N mem s ds j = mem j := by
  induction ds generalizing mem s with
  | nil => rfl
  | cons d ds ih =>
    have hfirst : j ≠ s % N := fun hj => h 0 (Nat.succ_pos _) hj.symm
    rw [store, ih fun k hk => ?_, update_of_ne hfirst]
    rw [add_assoc, add_comm 1 k]
    exact h (k + 1) (Nat.succ_lt_succ hk)

theorem window_store (h : ds.length ≤ N) : window N (store N mem s ds) s ds.length = ds := by
  induction ds generalizing mem s with
  | nil => rfl
  | cons d ds ih =>
    rw [length_cons] at h
    rw [length_cons, add_comm ds.length 1, window_add, store, ih (by omega)]
    have hfirst : store N (update mem (s % N) d) (s + 1) ds (s % N) = d := by
      rw [store_other fun k hk => (mod_ne (by omega) (by omega)).symm, update_self]
    simp [window, hfirst]

theorem window_store_before (h : n + ds.length ≤ N) : window N (store N mem (s + n) ds) s n = window N mem s n := by
  refine map_congr_left fun i hi => ?_
  have hi := mem_range.mp hi
  exact store_other fun k hk => (mod_ne (by omega) (by omega)).symm

end Spangap.Circular
