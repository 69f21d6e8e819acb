import Spangap.CJson

namespace Spangap.DotPath

open List CJson FirstMatch

variable {s key : Name} {ss : List Name} {f : Name → List Child → List Child}

/-- Cut a key at every dot. -/
def segments : Name → List Name
  | [] => [[]]
  | c :: cs =>
    if c = 46 then [] :: segments cs
    else
      match segments cs with
      | [] => [[c]]
      | s :: ss => (c :: s) :: ss

def extend (key n : Name) : Name := if key = [] then n else key ++ 46 :: n

/-- One step of a lookup: digits index an array, any other name is looked up
among the children of the node, whatever its kind. -/
def child : Json → Name → Option Json
  | .arr cs, s => if isAllDigits s then getArrayItem cs (atoi s) else getObjectItem cs s
  | .obj cs, s => getObjectItem cs s
  | .scalar _, _ => none

def navigate : Json → List Name → Option Json
  | v, [] => some v
  | v, s :: ss =>
    if s = [] then navigate v ss
    else if 96 ≤ s.length then none
    else (child v s).bind fun w => navigate w ss

def navigatePath (root : Json) (key : Name) : Option Json :=
  if key = [] then none else navigate root (segments key)

/-- The walk of `navigateOrCreate`, with `f` standing for what its callers do to
the children of the parent it returns. A key that ends in a dot, and one with a
segment too long for the buffer, has no leaf, but the objects created up to
there stay. -/
def navigateOrCreate (f : Name → List Child → List Child) : List Name → List Child → List Child
  | [], cs => cs
  | s :: ss, cs =>
    if s = [] then navigateOrCreate f ss cs
    else if 96 ≤ s.length then cs
    else if ss = [] then f s cs
    else
      match getObjectItem cs s with
      | some (.obj ks) => updateItem cs s (.obj (navigateOrCreate f ss ks))
      | some (.arr ks) => updateItem cs s (.arr (navigateOrCreate f ss ks))
      | some (.scalar _) => addItemToObject (deleteItemFromObject cs s) s (.obj (navigateOrCreate f ss []))
      | none => addItemToObject cs s (.obj (navigateOrCreate f ss []))

/-- Delete the leaf and add it again with its new value. -/
def putLeaf (v : Json) (leaf : Name) (cs : List Child) : List Child :=
  addItemToObject (deleteItemFromObject cs leaf) leaf v

/-- A key whose segments all fit the parser's buffer. -/
def Plain (segs : List Name) : Prop := segs ≠ [] ∧ ∀ s ∈ segs, s ≠ [] ∧ s.length ≤ 95
  deriving Decidable

theorem plain_tail (h : Plain (s :: ss)) (hne : ss ≠ []) : Plain ss :=
  ⟨hne, fun t ht => h.2 t (mem_cons_of_mem s ht)⟩

theorem segments_ne_nil (key : Name) : segments key ≠ [] := by
  cases key with
  | nil => simp [segments]
  | cons c cs =>
    simp only [segments]
    split
    · simp
    · split <;> simp

theorem key_of_segments (h : segments key = s :: ss) : key = s ++ (ss.map (46 :: ·)).flatten := by
  induction key generalizing s ss with
  | nil =>
    cases h
    rfl
  | cons c cs ih =>
    simp only [segments] at h
    split at h
    next hc =>
      cases h
      obtain ⟨t, ts, ht⟩ := exists_cons_of_ne_nil (segments_ne_nil cs)
      rw [ht, hc, ih ht]
      rfl
    · split at h
      next hnil => exact absurd hnil (segments_ne_nil cs)
      next t ts ht =>
        cases h
        rw [ih ht]
        rfl

theorem segments_append_dot (a b : Name) : segments (a ++ 46 :: b) = segments a ++ segments b := by
  induction a with
  | nil => simp [segments]
  | cons c a ih =>
    obtain ⟨s, ss, hs⟩ := exists_cons_of_ne_nil (segments_ne_nil a)
    rw [cons_append, segments, segments, ih, hs]
    split <;> rfl

theorem segments_of_not_mem (h : (46 : UInt8) ∉ s) : segments s = [s] := by
  induction s with
  | nil => rfl
  | cons c s ih =>
    rw [mem_cons, not_or] at h
    rw [segments, if_neg (Ne.symm h.1), ih h.2]

theorem segments_flatten (h : ∀ t ∈ s :: ss, (46 : UInt8) ∉ t) : segments (s ++ (ss.map (46 :: ·)).flatten) = s :: ss := by
  induction ss generalizing s with
  | nil => simpa using segments_of_not_mem (h s mem_cons_self)
  | cons t ss ih =>
    rw [map_cons, flatten_cons, cons_append, segments_append_dot,
      segments_of_not_mem (h s mem_cons_self), ih fun u hu => h u (mem_cons_of_mem s hu)]
    rfl

theorem foldl_extend (h : key ≠ []) (ss : List Name) : ss.foldl extend key = key ++ (ss.map (46 :: ·)).flatten := by
  induction ss generalizing key with
  | nil => simp
  | cons s ss ih =>
    rw [foldl_cons, extend, if_neg h, ih (by simp)]
    simp

theorem foldl_extend_segments (h : Plain (segments key)) : (segments key).foldl extend [] = key := by
  obtain ⟨s, ss, hs⟩ := exists_cons_of_ne_nil (segments_ne_nil key)
  have hne : s ≠ [] := (h.2 s (by simp [hs])).1
  rw [hs, foldl_cons, extend, if_pos rfl, foldl_extend hne, ← key_of_segments hs]

theorem segments_foldl_extend (h : ∀ s ∈ ss, s ≠ [] ∧ (46 : UInt8) ∉ s) (hne : ss ≠ []) : segments (ss.foldl extend []) = ss := by
  obtain ⟨s, ss, rfl⟩ := exists_cons_of_ne_nil hne
  rw [foldl_cons, extend, if_pos rfl, foldl_extend (h s mem_cons_self).1,
    segments_flatten fun t ht => (h t ht).2]

theorem extend_ne_nil (n : Name) (h : key ≠ []) : extend key n ≠ [] := by
  simp [extend, h]

theorem length_foldl_extend (h : key ≠ []) (ss : List Name) :
    (ss.foldl extend key).length = key.length + ((ss.map (46 :: ·)).flatten).length := by
  rw [foldl_extend h, length_append]

theorem navigate_plain (h : Plain (s :: ss)) (v : Json) : navigate v (s :: ss) = (child v s).bind fun w => navigate w ss := by
  obtain ⟨hne, hlen⟩ := h.2 s mem_cons_self
  rw [navigate, if_neg hne, if_neg (by omega)]

theorem navigateOrCreate_leaf (h : Plain [s]) (cs : List Child) : navigateOrCreate f [s] cs = f s cs := by
  obtain ⟨hne, hlen⟩ := h.2 s mem_cons_self
  rw [navigateOrCreate, if_neg hne, if_neg (by omega), if_pos rfl]

theorem navigateOrCreate_none (h : Plain (s :: ss)) (hss : ss ≠ []) {cs : List Child} (hc : getObjectItem cs s = none) :
    navigateOrCreate f (s :: ss) cs = cs ++ [(some s, .obj (navigateOrCreate f ss []))] := by
  obtain ⟨hne, hlen⟩ := h.2 s mem_cons_self
  rw [navigateOrCreate, if_neg hne, if_neg (by omega), if_neg hss, hc]
  rfl

theorem navigateOrCreate_obj (h : Plain (s :: ss)) (hss : ss ≠ []) {cs ks : List Child} (hc : getObjectItem cs s = some (.obj ks)) :
    navigateOrCreate f (s :: ss) cs = updateItem cs s (.obj (navigateOrCreate f ss ks)) := by
  obtain ⟨hne, hlen⟩ := h.2 s mem_cons_self
  rw [navigateOrCreate, if_neg hne, if_neg (by omega), if_neg hss, hc]

@[simp] theorem child_obj (cs : List Child) (s : Name) : child (.obj cs) s = getObjectItem cs s := rfl

theorem child_arr (h : isAllDigits s = true) (cs : List Child) : child (.arr cs) s = getArrayItem cs (atoi s) := by
  simp [child, h]

end Spangap.DotPath
