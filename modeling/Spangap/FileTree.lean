import Mathlib.Data.List.Infix
import Mathlib.Logic.Function.Basic

namespace Spangap.FileTree

open List Function

inductive Node (β : Type)
  | file (b : β)
  | dir
  deriving DecidableEq, Repr

/-- What lies where, by the names on the way from the root. -/
abbrev Disk (ν β : Type) := List ν → Option (Node β)

variable {ν β : Type} [DecidableEq ν] {d : Disk ν β} {p q x : List ν}

def below (d : Disk ν β) (p : List ν) : Disk ν β := fun r => d (p ++ r)

def Apart (p q : List ν) : Prop := ¬ p <+: q ∧ ¬ q <+: p

instance (p q : List ν) : Decidable (Apart p q) := inferInstanceAs (Decidable (_ ∧ _))

def Bare (d : Disk ν β) (p : List ν) : Prop := ∀ r, r ≠ [] → d (p ++ r) = none

def put (d : Disk ν β) (p : List ν) (n : Node β) : Disk ν β := update d p (some n)

def removed (d : Disk ν β) (p : List ν) : Disk ν β := update d p none

/-- All that was at and below `p` is at and below `q` instead. -/
def moved (d : Disk ν β) (p q : List ν) : Disk ν β := fun x =>
  if q <+: x then d (p ++ x.drop q.length) else if p <+: x then none else d x

omit [DecidableEq ν] in
omit [DecidableEq ν] in
theorem Apart.ne (h : Apart p q) : p ≠ q := fun he => h.1 (he ▸ prefix_rfl)

omit [DecidableEq ν] in
theorem not_prefix_append (h : Apart p q) (r : List ν) : ¬ q <+: p ++ r := by
  intro hq
  rcases le_total q.length p.length with hl | hl
  · exact h.2 (prefix_of_prefix_length_le hq (prefix_append p r) hl)
  · exact h.1 (prefix_of_prefix_length_le (prefix_append p r) hq hl)

omit [DecidableEq ν] in
theorem append_ne (h : ¬ p <+: q) (r : List ν) : p ++ r ≠ q := fun he => h (he ▸ prefix_append p r)

theorem below_moved : below (moved d p q) q = below d p := by
  funext r
  simp [below, moved]

theorem moved_gone (h : Apart p q) (r : List ν) : moved d p q (p ++ r) = none := by
  rw [moved, if_neg (not_prefix_append h r), if_pos (prefix_append p r)]

theorem moved_apart (hp : ¬ p <+: x) (hq : ¬ q <+: x) : moved d p q x = d x := by
  rw [moved, if_neg hq, if_neg hp]

@[simp] theorem removed_self : removed d p p = none := by
  rw [removed, update_self]

theorem removed_ne (h : x ≠ p) : removed d p x = d x := by
  rw [removed, update_of_ne h]

theorem below_removed (h : ¬ p <+: q) : below (removed d q) p = below d p := by
  funext r
  exact removed_ne (append_ne h r)

@[simp] theorem put_self (n : Node β) : put d p n p = some n := by
  rw [put, update_self]

theorem put_ne (h : x ≠ p) (n : Node β) : put d p n x = d x := by
  rw [put, update_of_ne h]

end Spangap.FileTree
