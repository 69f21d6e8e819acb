import Spangap.Merge

namespace Spangap.Commit

open List Option CJson FirstMatch DotPath Merge

variable {segs : List Name} {cs : List Child}

/-- The segments of a key for the store registry, where the empty key has none. -/
def splitDots (key : Name) : List Name := if key = [] then [] else segments key

/-- The literal start of a key pattern, up to its first wildcard. -/
def litPrefix (pat : List Name) : Name :=
  ((pat.takeWhile (· ≠ lit "$")).foldl (fun p seg => (if p = [] then p else p ++ [46]) ++ seg) []) |>
    fun p => if p = [] then p else p ++ [46]

def candidate (key : Name) (pat : List Name) : Bool :=
  (litPrefix pat).isEmpty || key.take (litPrefix pat).length == (litPrefix pat).take key.length

def matchPattern : List Name → List Name → Option (List Name)
  | [], _ => some []
  | _ :: _, [] => none
  | p :: ps, s :: ss =>
    if p = lit "$" then (matchPattern ps ss).map (s :: ·)
    else if p = s then matchPattern ps ss
    else none

/-- The registration a key belongs to, as its position in the registry, with the
binds and the segments after the pattern. -/
structure Match where
  reg : Nat
  binds : List Name
  tail : List Name
  deriving DecidableEq, Repr

def routeFrom (segs : List Name) : Nat → List (List Name) → Option Match
  | _, [] => none
  | i, pat :: pats =>
    match matchPattern pat segs with
    | some binds => some ⟨i, binds, segs.drop pat.length⟩
    | none => routeFrom segs (i + 1) pats

def sdbRoute (pats : List (List Name)) (key : Name) : Option Match :=
  if pats.any (candidate key) then routeFrom (splitDots key) 0 pats else none

inductive OpCode
  | set
  | dflt
  | delete
  deriving DecidableEq, Repr

/-- A parsed op. The value of a SET or DEFAULT is absent when its JSON did not parse. -/
structure Op where
  code : OpCode
  key : Name
  val : Option Json

def setText (key value : String) : Op := ⟨.set, lit key, some (.scalar (.str (lit value)))⟩

/-- The dedup of a SET: equal strings, or numbers with equal integer parts. -/
def same : Json → Json → Bool
  | .scalar (.str a), .scalar (.str b) => a == b
  | .scalar (.num a), .scalar (.num b) => valueint a == valueint b
  | _, _ => false

def skipped (code : OpCode) (v : Json) : Option Json → Bool
  | none => false
  | some cur =>
    match code with
    | .set => same cur v
    | .dflt => cur.isScalar
    | .delete => false

def Op.written (o : Op) : Option Json :=
  match o.code with
  | .delete => some .null
  | _ => o.val

def foldOp (root : Json) (patch : List Child) (o : Op) : List Child :=
  match o.written with
  | none => patch
  | some v =>
    if skipped o.code v (navigatePath root o.key) then patch
    else navigateOrCreate (putLeaf v) (segments o.key) patch

def buildPatch (pats : List (List Name)) (root : Json) (ops : List Op) : List Child :=
  (ops.filter fun o => (sdbRoute pats o.key).isNone).foldl (foldOp root) []

/-- What `storageApplyOps` leaves in the committed tree. -/
def commit (pats : List (List Name)) (root : List Child) (ops : List Op) : List Child :=
  deepMerge root (buildPatch pats (.obj root) ops)

def commitEach (pats : List (List Name)) (root : List Child) (ops : List Op) : List Child :=
  ops.foldl (fun r o => commit pats r [o]) root

def firstSegment (key : Name) : Option Name := (segments key).find? fun s => s ≠ []

def bare (segs : List Name) : Bool := (segs.dropWhile fun s => s = []).length == 1

theorem patch_single (v : Json) (segs : List Name) : match segs.find? fun s => s ≠ [] with
    | none => navigateOrCreate (putLeaf v) segs [] = []
    | some s =>
      if 96 ≤ s.length then navigateOrCreate (putLeaf v) segs [] = []
      else ∃ x, navigateOrCreate (putLeaf v) segs [] = [(some s, x)] ∧
        if bare segs then x = v else x.isObj = true := by
  induction segs with
  | nil => rfl
  | cons s ss ih =>
    by_cases hs : s = []
    · subst s
      simpa [navigateOrCreate, bare] using ih
    · simp only [ne_eq, hs, not_false_eq_true, decide_true, find?_cons_of_pos]
      split
      next hlong => rw [navigateOrCreate, if_neg hs, if_pos hlong]
      next hlong =>
        rw [navigateOrCreate, if_neg hs, if_neg hlong]
        by_cases hss : ss = []
        · subst ss
          exact ⟨v, by simp [putLeaf, addItemToObject, deleteItemFromObject], by simp [bare, hs]⟩
        · refine ⟨.obj (navigateOrCreate (putLeaf v) ss []), ?_, ?_⟩
          · rw [if_neg hss]
            rfl
          · simp [bare, hs, hss, Json.isObj]

theorem navigate_first {s : Name} {cur : Json}
    (hs : segs.find? (fun s => s ≠ []) = some s) (h : navigate (.obj cs) segs = some cur) :
    (getObjectItem cs s).isSome = true := by
  induction segs with
  | nil => simp at hs
  | cons t ts ih =>
    by_cases ht : t = []
    · subst t
      apply ih
      · simpa using hs
      · simpa [navigate] using h
    · have hst : t = s := by simpa [ht] using hs
      subst hst
      rw [navigate, if_neg ht] at h
      split at h
      · simp at h
      · obtain ⟨w, hw, -⟩ := bind_eq_some_iff.mp h
        rw [← child_obj, hw]
        rfl

theorem mem_navigateOrCreate {v : Json} {c : Child} {p : Name}
    (hc : c ∈ navigateOrCreate (putLeaf v) segs cs) (hp : named p c = true) :
    c ∈ cs ∨ ∃ s, segs.find? (fun s => s ≠ []) = some s ∧ fold s = fold p := by
  have hadd : ∀ {u : Json} {s : Name} {ds : List Child}, c ∈ ds ++ [(some s, u)] → c ∈ ds ∨ fold s = fold p := by
    intro u s ds hm
    rcases mem_append.mp hm with hm | hm
    · exact .inl hm
    · rw [mem_singleton.mp hm, named_some] at hp
      exact .inr hp
  have hup : ∀ {u : Json} {s : Name}, fold s ≠ fold p → c ∈ updateItem cs s u → c ∈ cs := by
    intro u s hs hm
    exact mem_of_mem_modifyFirst (by simp) hm (named_disjoint hs.symm c hp)
  induction segs with
  | nil => exact .inl hc
  | cons s ss ih =>
    by_cases hs : s = []
    · subst s
      simpa using ih hc
    · have hfind : (s :: ss).find? (fun s => s ≠ []) = some s := by simp [hs]
      rw [hfind]
      by_cases hsp : fold s = fold p
      · exact .inr ⟨s, rfl, hsp⟩
      · left
        rw [navigateOrCreate, if_neg hs] at hc
        split at hc
        · exact hc
        · split at hc
          · rcases hadd hc with hm | hm
            · exact mem_of_mem_eraseP hm
            · exact absurd hm hsp
          · split at hc
            · exact hup hsp hc
            · exact hup hsp hc
            · rcases hadd hc with hm | hm
              · exact mem_of_mem_eraseP hm
              · exact absurd hm hsp
            · rcases hadd hc with hm | hm
              · exact hm
              · exact absurd hm hsp

section Single

variable {pats : List (List Name)} {root : List Child} {o : Op}

def Touches (pats : List (List Name)) (p : Name) (o : Op) : Prop :=
  sdbRoute pats o.key = none ∧ ∃ s, firstSegment o.key = some s ∧ fold s = fold p

instance (pats : List (List Name)) (p : Name) (o : Op) : Decidable (Touches pats p o) :=
  decidable_of_iff (sdbRoute pats o.key = none ∧ ∃ s ∈ (firstSegment o.key).toList, fold s = fold p)
    (by simp [Touches])

theorem commit_routed (h : sdbRoute pats o.key ≠ none) : commit pats root [o] = root := by
  have : (sdbRoute pats o.key).isNone = false := by
    cases hr : sdbRoute pats o.key with
    | none => exact absurd hr h
    | some m => rfl
  simp [commit, buildPatch, this]

theorem commit_unrouted (h : sdbRoute pats o.key = none) :
    commit pats root [o] = deepMerge root (foldOp (.obj root) [] o) := by
  simp [commit, buildPatch, h]

end Single

end Spangap.Commit
