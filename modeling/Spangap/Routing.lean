import Spangap.Commit

namespace Spangap.Routing

open List CJson DotPath Commit

variable {pat segs : List Name} {key : Name}

/-- The segments of a pattern match the leading ones of a key. -/
def Fits (segs pat : List Name) : Prop := pat.length ≤ segs.length ∧ ∀ c ∈ pat.zip segs, c.1 = lit "$" ∨ c.1 = c.2
  deriving Decidable

def wildcards (segs pat : List Name) : List Name := ((pat.zip segs).filter (·.1 = lit "$")).map Prod.snd

/-- The plain rule: the first registered pattern that fits. -/
def firstFit (pats : List (List Name)) (key : Name) : Option Match :=
  (pats.zipIdx.find? fun p => Fits (splitDots key) p.1).map fun p =>
    ⟨p.2, wildcards (splitDots key) p.1, (splitDots key).drop p.1.length⟩

theorem fits_cons {p s : Name} {ps ss : List Name} : Fits (s :: ss) (p :: ps) ↔ (p = lit "$" ∨ p = s) ∧ Fits ss ps := by
  simp only [Fits, length_cons, Nat.add_le_add_iff_right, zip_cons_cons, forall_mem_cons]
  exact and_left_comm

theorem matchPattern_eq (pat segs : List Name) :
    matchPattern pat segs = if Fits segs pat then some (wildcards segs pat) else none := by
  induction pat generalizing segs with
  | nil => simp [matchPattern, Fits, wildcards]
  | cons p ps ih =>
    cases segs with
    | nil => simp [matchPattern, Fits]
    | cons s ss =>
      rw [matchPattern, ih]
      simp only [fits_cons]
      by_cases hp : p = lit "$"
      · by_cases hfit : Fits ss ps <;> simp [hp, hfit, wildcards]
      · by_cases hs : p = s
        · subst hs
          simp [hp, wildcards]
        · simp [hp, hs]

theorem routeFrom_eq (segs : List Name) (i : Nat) (pats : List (List Name)) :
    routeFrom segs i pats = ((pats.zipIdx i).find? fun p => Fits segs p.1).map fun p =>
      ⟨p.2, wildcards segs p.1, segs.drop p.1.length⟩ := by
  induction pats generalizing i with
  | nil => rfl
  | cons pat pats ih =>
    rw [routeFrom, matchPattern_eq, zipIdx_cons, ih]
    by_cases hfit : Fits segs pat <;> simp [hfit]

theorem joined_append (s : Name) (ss : List Name) :
    s ++ (ss.map (46 :: ·)).flatten ++ [46] = ((s :: ss).map (· ++ [46])).flatten := by
  induction ss generalizing s with
  | nil => simp
  | cons t ts ih =>
    have := ih t
    simp_all

theorem splitDots_joined (hkey : key ≠ []) : key ++ [46] = ((splitDots key).map (· ++ [46])).flatten := by
  rw [splitDots, if_neg hkey]
  obtain ⟨s, ss, hs⟩ := exists_cons_of_ne_nil (segments_ne_nil key)
  rw [hs, ← joined_append, ← key_of_segments hs]

theorem foldl_joined {p : Name} (hp : p ≠ []) (ss : List Name) :
    ss.foldl (fun p seg => (if p = [] then p else p ++ [46]) ++ seg) p = p ++ (ss.map (46 :: ·)).flatten := by
  induction ss generalizing p with
  | nil => simp
  | cons s ss ih =>
    rw [foldl_cons, if_neg hp, ih (by simp)]
    simp

/-- Every literal segment is there with a dot after it, the last one too. -/
theorem litPrefix_eq (h : ∀ s ∈ pat, s ≠ []) : litPrefix pat = ((pat.takeWhile (· ≠ lit "$")).map (· ++ [46])).flatten := by
  unfold litPrefix
  cases hl : pat.takeWhile (· ≠ lit "$") with
  | nil => rfl
  | cons s ss =>
    have hs : s ≠ [] := h s ((List.takeWhile_prefix _).subset (hl ▸ mem_cons_self))
    rw [foldl_cons, if_pos rfl, nil_append, foldl_joined hs, ← joined_append]
    simp [hs]

theorem literals_of_fits (h : Fits segs pat) : pat.takeWhile (· ≠ lit "$") <+: segs := by
  induction pat generalizing segs with
  | nil => exact nil_prefix
  | cons p ps ih =>
    cases segs with
    | nil => simp [Fits] at h
    | cons s ss =>
      obtain ⟨hhead, hrest⟩ := fits_cons.mp h
      by_cases hp : p = lit "$"
      · simp [hp]
      · obtain rfl := hhead.resolve_left hp
        rw [takeWhile_cons_of_pos (by simp [hp]), cons_prefix_cons]
        exact ⟨rfl, ih hrest⟩

theorem take_of_prefixes {a b c : Name} (ha : a <+: c) (hb : b <+: c) : a.take b.length = b.take a.length := by
  rcases prefix_or_prefix_of_prefix ha hb with ⟨t, rfl⟩ | ⟨t, rfl⟩
  · rw [take_left, take_of_length_le (by simp)]
  · rw [take_left, take_of_length_le (by simp)]

theorem candidate_of_fits (hpat : ∀ s ∈ pat, s ≠ []) (h : Fits (splitDots key) pat) : candidate key pat = true := by
  rw [candidate, Bool.or_eq_true, beq_iff_eq, List.isEmpty_iff, litPrefix_eq hpat]
  obtain ⟨rest, hrest⟩ := literals_of_fits h
  by_cases hkey : key = []
  · have hnone : pat = [] := by simpa [Fits, splitDots, hkey] using h
    exact .inl (by simp [hnone])
  · right
    -- With a dot after it the key starts with both itself and the literal segments.
    have hjoined := splitDots_joined hkey
    rw [← hrest, map_append, flatten_append] at hjoined
    have hlit := prefix_append ((pat.takeWhile (· ≠ lit "$")).map (· ++ [46])).flatten (rest.map (· ++ [46])).flatten
    rw [← hjoined] at hlit
    exact take_of_prefixes (List.prefix_append key [46]) hlit

/-- The pre-check turns away only keys that no pattern fits. -/
theorem sdbRoute_eq_firstFit {pats : List (List Name)} (hpats : ∀ pat ∈ pats, ∀ s ∈ pat, s ≠ []) (key : Name) :
    sdbRoute pats key = firstFit pats key := by
  rw [sdbRoute, routeFrom_eq]
  split
  · rfl
  next hnone =>
    rw [firstFit, eq_comm, Option.map_eq_none_iff, find?_eq_none]
    intro p hp hfit
    have hmem := mem_zipIdx' hp
    exact hnone (any_eq_true.mpr ⟨p.1, by simp_all, candidate_of_fits (hpats _ (by simp_all)) (by simpa using hfit)⟩)

theorem sdbRoute_eq_firstFit_bare : sdbRoute [[lit "lxmf", lit "$"], [lit "lxmf", lit "announces"]] (lit "lxmf.announces.") =
    some ⟨0, [lit "announces"], [[]]⟩ := by
  rw [sdbRoute_eq_firstFit (by decide)]
  decide

end Spangap.Routing
