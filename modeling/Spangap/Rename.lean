import Spangap.CJson
import Spangap.FileTree

namespace Spangap.Rename

open List Option CJson FileTree Bool

/-- The file systems under the worker: which calls go through, at which call and
on which contents. A call that does not go through changes nothing. -/
structure Vfs (β : Type) where
  renames : Nat → Disk Name β → List Name → List Name → Bool
  removes : Nat → Disk Name β → List Name → Bool
  renames_from : ∀ n d p q, renames n d p q → (d p).isSome ∧ (p = q ∨ Apart p q)
  removes_from : ∀ n d p, removes n d p → (d p).isSome ∧ Bare d p

variable {β : Type} (v : Vfs β) {d : Disk Name β} {p q : List Name}

def Vfs.rename (n : Nat) (d : Disk Name β) (p q : List Name) : Option (Disk Name β) :=
  if v.renames n d p q then some (if p = q then d else moved d p q) else none

def Vfs.remove (n : Nat) (d : Disk Name β) (p : List Name) : Option (Disk Name β) :=
  if v.removes n d p then some (removed d p) else none

/-- The worker's RENAME, whose calls are numbered from `n`: the disk it leaves
and whether it returns zero. -/
def handleRename (n : Nat) (d : Disk Name β) (path path2 : List Name) : Disk Name β × Bool :=
  match v.rename n d path path2 with
  | some d' => (d', true)
  | none =>
    if (d path2).isSome then
      let d1 := (v.remove (n + 1) d path2).getD d
      match v.rename (n + 2) d1 path path2 with
      | some d' => (d', true)
      | none => (d1, false)
    else (d, false)

/-- A RENAME that fails leaves both paths as they were. One that succeeds leaves
at the second path what the first one held, and nothing at the first. -/
def AllOrNothing (d : Disk Name β) (p q : List Name) : Prop :=
  ((handleRename v 0 d p q).2 = false →
    below (handleRename v 0 d p q).1 p = below d p ∧ below (handleRename v 0 d p q).1 q = below d q) ∧
  ((handleRename v 0 d p q).2 = true →
    p = q ∧ (handleRename v 0 d p q).1 = d ∨
      below (handleRename v 0 d p q).1 q = below d p ∧ ∀ r, (handleRename v 0 d p q).1 (p ++ r) = none)

variable {v} {n : Nat}

theorem handleRename_first (h : v.renames n d p q = true) :
    handleRename v n d p q = (if p = q then d else moved d p q, true) := by
  rw [handleRename, Vfs.rename, if_pos h]

theorem handleRename_absent (h : v.renames n d p q = false) (hq : d q = none) :
    handleRename v n d p q = (d, false) := by
  simp [handleRename, Vfs.rename, h, hq]

theorem handleRename_refused (h : v.renames n d p q = false) (hq : (d q).isSome) (hr : v.removes (n + 1) d q = false) :
    handleRename v n d p q = match v.rename (n + 2) d p q with
      | some d' => (d', true)
      | none => (d, false) := by
  simp [handleRename, Vfs.rename, Vfs.remove, h, hq, hr]

theorem handleRename_dropped (h : v.renames n d p q = false) (hq : (d q).isSome) (hr : v.removes (n + 1) d q = true) :
    handleRename v n d p q = match v.rename (n + 2) (removed d q) p q with
      | some d' => (d', true)
      | none => (removed d q, false) := by
  simp [handleRename, Vfs.rename, Vfs.remove, h, hq, hr]

theorem handleRename_cases (v : Vfs β) (n : Nat) (d : Disk Name β) (p q : List Name) :
    (∃ k, v.renames k d p q = true ∧ handleRename v n d p q = (if p = q then d else moved d p q, true)) ∨
      (∃ k, v.renames k (removed d q) p q = true ∧
        handleRename v n d p q = (if p = q then removed d q else moved (removed d q) p q, true)) ∨
      handleRename v n d p q = (d, false) ∨ handleRename v n d p q = (removed d q, false) := by
  by_cases h0 : v.renames n d p q = true
  · exact .inl ⟨n, h0, handleRename_first h0⟩
  rw [not_eq_true] at h0
  by_cases hq : d q = none
  · exact .inr (.inr (.inl (handleRename_absent h0 hq)))
  rw [← ne_eq, ne_none_iff_isSome] at hq
  by_cases h1 : v.removes (n + 1) d q = true
  · rw [handleRename_dropped h0 hq h1, Vfs.rename]
    by_cases h2 : v.renames (n + 2) (removed d q) p q = true
    · exact .inr (.inl ⟨n + 2, h2, by rw [if_pos h2]⟩)
    · exact .inr (.inr (.inr (by rw [if_neg h2])))
  · rw [handleRename_refused h0 hq (by simpa using h1), Vfs.rename]
    by_cases h2 : v.renames (n + 2) d p q = true
    · exact .inl ⟨n + 2, h2, by rw [if_pos h2]⟩
    · exact .inr (.inr (.inl (by rw [if_neg h2])))

theorem handleRename_true (h : (handleRename v n d p q).2 = true) :
    p = q ∧ (handleRename v n d p q).1 = d ∨
      below (handleRename v n d p q).1 q = below d p ∧ ∀ r, (handleRename v n d p q).1 (p ++ r) = none := by
  rcases handleRename_cases v n d p q with ⟨k, hk, heq⟩ | ⟨k, hk, heq⟩ | heq | heq
  · rw [heq]
    rcases (v.renames_from k d p q hk).2 with rfl | hapart
    · exact .inl ⟨rfl, if_pos rfl⟩
    · rw [if_neg hapart.ne]
      exact .inr ⟨below_moved, moved_gone hapart⟩
  · -- the source is still there, so it is not the place that was dropped
    obtain ⟨hsrc, hpq⟩ := v.renames_from k (removed d q) p q hk
    have hne : p ≠ q := by
      rintro rfl
      simp at hsrc
    have hapart := hpq.resolve_left hne
    rw [heq, if_neg hne]
    exact .inr ⟨by rw [below_moved, below_removed hapart.1], moved_gone hapart⟩
  · rw [heq] at h
    cases h
  · rw [heq] at h
    cases h

/-- RENAME is all or nothing unless it has dropped the destination for a rename
that does not go through afterwards either. -/
theorem handleRename_allOrNothing_iff (v : Vfs β) (d : Disk Name β) (p q : List Name) :
    AllOrNothing v d p q ↔
      v.renames 0 d p q = true ∨ d q = none ∨ v.removes 1 d q = false ∨ v.renames 2 (removed d q) p q = true := by
  rw [AllOrNothing, and_iff_left handleRename_true]
  by_cases h0 : v.renames 0 d p q = true
  · refine iff_of_true ?_ (.inl h0)
    rw [handleRename_first h0]
    nofun
  rw [not_eq_true] at h0
  by_cases hq : d q = none
  · refine iff_of_true ?_ (.inr (.inl hq))
    rw [handleRename_absent h0 hq]
    exact fun _ => ⟨rfl, rfl⟩
  rw [← ne_eq, ne_none_iff_isSome] at hq
  by_cases h1 : v.removes 1 d q = true
  · rw [handleRename_dropped h0 hq h1]
    by_cases h2 : v.renames 2 (removed d q) p q = true
    · refine iff_of_true ?_ (.inr (.inr (.inr h2)))
      simp [Vfs.rename, h2]
    · refine iff_of_false ?_ (by simp [h0, h1, h2, ne_none_iff_isSome, hq])
      simp only [Vfs.rename, h2]
      intro h
      have hsame := congrFun (h rfl).2 []
      simp only [below, append_nil, false_eq_true, if_false, removed_self] at hsame
      rw [← hsame] at hq
      cases hq
  · rw [not_eq_true] at h1
    refine iff_of_true ?_ (.inr (.inr (.inl h1)))
    rw [handleRename_refused h0 hq h1]
    by_cases h2 : v.renames 2 d p q = true
    · simp [Vfs.rename, h2]
    · simp [Vfs.rename, h2]

section Example

open Classical in
/-- A file system in which only impossible calls fail. -/
noncomputable def faultless : Vfs β where
  renames _ d p q := decide ((d p).isSome ∧ (p = q ∨ Apart p q))
  removes _ d p := decide ((d p).isSome ∧ Bare d p)
  renames_from _ _ _ _ h := of_decide_eq_true h
  removes_from _ _ _ h := of_decide_eq_true h

/-- Renaming a file that is not there to one that is. -/
theorem handleRename_loses_destination :
    ∃ d : Disk Name (List UInt8), d [lit "new"] = none ∧ d [lit "keep"] = some (.file (lit "text")) ∧
      (handleRename faultless 0 d [lit "new"] [lit "keep"]).2 = false ∧
      (handleRename faultless 0 d [lit "new"] [lit "keep"]).1 [lit "keep"] = none := by
  have hne : lit "new" ≠ lit "keep" := by decide
  obtain ⟨d, hd⟩ : ∃ d : Disk Name (List UInt8), d = put (fun _ => none) [lit "keep"] (.file (lit "text")) := ⟨_, rfl⟩
  have hnew : d [lit "new"] = none := by
    rw [hd, put_ne (by simpa using hne)]
  have hkeep : d [lit "keep"] = some (.file (lit "text")) := by
    rw [hd, put_self]
  have hbare : Bare d [lit "keep"] := by
    intro r hr
    rw [hd, put_ne (by simpa using hr)]
  have hsrc : ∀ n, faultless.renames n d [lit "new"] [lit "keep"] = false := by
    intro n
    simp [faultless, hnew]
  have hsrc' : faultless.renames 2 (removed d [lit "keep"]) [lit "new"] [lit "keep"] = false := by
    simp [faultless, removed_ne (d := d) (x := [lit "new"]) (p := [lit "keep"]) (by simpa using hne), hnew]
  have hdrop : faultless.removes 1 d [lit "keep"] = true := by
    simp [faultless, hkeep, hbare]
  refine ⟨d, hnew, hkeep, ?_, ?_⟩ <;>
    rw [handleRename_dropped (hsrc 0) (by rw [hkeep]; rfl) hdrop] <;> simp [Vfs.rename, hsrc']

end Example

end Spangap.Rename
