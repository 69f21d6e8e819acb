import Mathlib.Data.List.Infix
import Mathlib.Data.List.Induction
import Spangap.CJson

namespace Spangap.SlashPath

open List CJson

def resolve (segs : List Name) (s : Name) : List Name :=
  if s = [] ∨ s = lit "." then segs else if s = lit ".." then segs.dropLast else segs ++ [s]

/-- Where a path leads, as the names on the way from the root. -/
def normal (p : Name) : List Name := (p.splitOn 47).foldl resolve []

def Inside (t p : Name) : Prop := normal t <+: normal p

/-- What a directory entry may be called. -/
structure Proper (n : Name) : Prop where
  ne_nil : n ≠ []
  no_slash : 47 ∉ n
  not_dot : n ≠ lit "."
  not_up : n ≠ lit ".."

def rooted (segs : List Name) : Name := (segs.map (47 :: ·)).flatten

/-- An absolute path without empty or dot segments. -/
def Absolute (p : Name) : Prop :=
  p = [47] ∨ ∃ segs : List Name, segs ≠ [] ∧ (∀ s ∈ segs, Proper s) ∧ p = rooted segs

variable {p n : Name} {segs : List Name}

theorem resolve_proper (h : Proper n) : resolve segs n = segs ++ [n] := by
  rw [resolve, if_neg (not_or.mpr ⟨h.ne_nil, h.not_dot⟩), if_neg h.not_up]

@[simp] theorem resolve_nil : resolve segs [] = segs := if_pos (.inl rfl)

@[simp] theorem resolve_dot : resolve segs (lit ".") = segs := if_pos (.inr rfl)

@[simp] theorem resolve_up : resolve segs (lit "..") = segs.dropLast := by
  rw [resolve, if_neg (by decide), if_pos rfl]

theorem normal_child (p : Name) (h : 47 ∉ n) : normal (p ++ 47 :: n) = resolve (normal p) n := by
  have hone : n.splitOn 47 = [n] := splitOnP_eq_singleton (by
    intro x hx
    simp only [beq_eq_false_iff_ne]
    rintro rfl
    exact h hx)
  rw [normal, splitOn_append_cons_self, hone, foldl_append]
  rfl

theorem normal_proper (p : Name) (h : Proper n) : normal (p ++ 47 :: n) = normal p ++ [n] := by
  rw [normal_child p h.no_slash, resolve_proper h]

theorem rooted_concat (A : List Name) (s : Name) : rooted (A ++ [s]) = rooted A ++ 47 :: s := by
  simp [rooted]

theorem normal_append_rooted (p : Name) (h : ∀ s ∈ segs, Proper s) : normal (p ++ rooted segs) = normal p ++ segs := by
  induction segs using List.reverseRecOn with
  | nil => simp [rooted]
  | append_singleton A s ih =>
    rw [rooted_concat, ← append_assoc, normal_proper _ (h s (by simp)), ih fun t ht => h t (by simp [ht]),
      append_assoc]

theorem normal_rooted (h : ∀ s ∈ segs, Proper s) : normal (rooted segs) = segs := normal_append_rooted [] h

theorem cut_rooted (h : p <+: rooted segs) :
    p = [] ∨ ∃ A s B t, segs = A ++ s :: B ∧ t <+: s ∧ p = rooted A ++ 47 :: t := by
  induction segs using List.reverseRecOn with
  | nil => exact .inl (prefix_nil.mp h)
  | append_singleton A s ih =>
    obtain ⟨r, hr⟩ := h
    rw [rooted_concat] at hr
    rcases append_eq_append_iff.mp hr with ⟨t, hA, -⟩ | ⟨t, hp, hs⟩
    · rcases ih ⟨t, hA.symm⟩ with hnil | ⟨A', s', B, t', rfl, ht, hp⟩
      · exact .inl hnil
      · exact .inr ⟨A', s', B ++ [s], t', by simp, ht, hp⟩
    · cases t with
      | nil =>
        rcases ih ⟨[], by rw [hp, append_nil, append_nil]⟩ with hnil | ⟨A', s', B, t', rfl, ht, hp⟩
        · exact .inl hnil
        · exact .inr ⟨A', s', B ++ [s], t', by simp, ht, hp⟩
      | cons x t =>
        obtain ⟨rfl, ht⟩ := cons_eq_cons.mp hs
        exact .inr ⟨A, s, [], t, rfl, ⟨r, ht.symm⟩, hp⟩

end Spangap.SlashPath
