import Spangap.Commit
import Spangap.View

namespace Spangap.Subtree

open List Option CJson FirstMatch DotPath Merge Commit View

variable {ops : List Op}

def text (s : String) : Json := .scalar (.str (lit s))

def below (T : Option Json) (t : Name) : Option Json := T.bind fun v => child v t

theorem navigatePath_plain {key : Name} (h : Plain (segments key)) (v : Json) :
    navigatePath v key = navigate v (segments key) := by
  rw [navigatePath, if_neg]
  rintro rfl
  exact (h.2 [] (by simp [segments])).1 rfl

def under (s : Name) (o : Op) : Op := { o with key := s ++ 46 :: o.key }

structure Segment (s : Name) : Prop where
  ne_nil : s ≠ []
  length : s.length ≤ 95
  dot : (46 : UInt8) ∉ s

instance (s : Name) : Decidable (Segment s) :=
  decidable_of_iff (s ≠ [] ∧ s.length ≤ 95 ∧ (46 : UInt8) ∉ s) ⟨fun h => ⟨h.1, h.2.1, h.2.2⟩, fun h => ⟨h.1, h.2, h.3⟩⟩

def foldIn (T : Option Json) (P : List Child) (o : Op) : List Child :=
  match o.written with
  | none => P
  | some v => if skipped o.code v (T.bind fun w => navigatePath w o.key) then P else navigateOrCreate (putLeaf v) (segments o.key) P

def patchIn (T : Option Json) (ops : List Op) : List Child := ops.foldl (foldIn T) []

theorem foldIn_some (root : Json) : foldIn (some root) = foldOp root := by
  funext P o
  rfl

def grouped (P : List Child) (s : Name) (Q : List Child) : List Child := if Q = [] then P else P ++ [(some s, .obj Q)]

section Group

variable {T : Option Json} {P Q : List Child} {s : Name} {o : Op}

@[simp] theorem grouped_nil (P : List Child) (s : Name) : grouped P s [] = P := rfl

theorem segments_under (hs : Segment s) (o : Op) : segments (under s o).key = s :: segments o.key := by
  rw [under, segments_append_dot, segments_of_not_mem hs.dot]
  rfl

theorem plain_under (hs : Segment s) (ho : Plain (segments o.key)) : Plain (s :: segments o.key) :=
  ⟨cons_ne_nil _ _, forall_mem_cons.mpr ⟨⟨hs.ne_nil, hs.length⟩, ho.2⟩⟩

theorem navigatePath_under (hs : Segment s) (ho : Plain (segments o.key)) (T : Option Json) :
    (T.bind fun w => navigatePath w (under s o).key) = (below T s).bind fun w => navigatePath w o.key := by
  have hplain := plain_under hs ho
  rw [below, bind_assoc]
  congr 1
  funext w
  rw [navigatePath_plain (by rwa [segments_under hs]), segments_under hs, navigate_plain hplain]
  congr 1
  funext u
  rw [navigatePath_plain ho]

theorem getObjectItem_grouped (hP : ∀ c ∈ P, named s c = false) (hQ : Q ≠ []) : getObjectItem (grouped P s Q) s = some (.obj Q) := by
  rw [grouped, if_neg hQ]
  exact getObjectItem_addItem hP _

theorem foldIn_under (hs : Segment s) (ho : Plain (segments o.key)) (hP : ∀ c ∈ P, named s c = false) :
    foldIn T (grouped P s Q) (under s o) = grouped P s (foldIn (below T s) Q o) := by
  have hplain := plain_under hs ho
  unfold foldIn
  rw [show (under s o).written = o.written from rfl, show (under s o).code = o.code from rfl]
  cases hv : o.written with
  | none => rfl
  | some v =>
    dsimp only
    rw [navigatePath_under hs ho, segments_under hs]
    split
    · rfl
    · obtain ⟨t, ts, ht⟩ := exists_cons_of_ne_nil ho.1
      have hne : navigateOrCreate (putLeaf v) (segments o.key) Q ≠ [] := by
        rw [ht]
        exact write_ne_nil (ht ▸ ho) Q v
      rcases eq_or_ne Q [] with rfl | hQ
      · rw [grouped_nil, navigateOrCreate_none hplain ho.1 (getObjectItem_of_none hP), grouped, if_neg hne]
      · rw [navigateOrCreate_obj hplain ho.1 (getObjectItem_grouped hP hQ), grouped, grouped, if_neg hQ, if_neg hne, updateItem,
          modifyFirst_append_of_none _ hP]
        simp [modifyFirst, named]

theorem foldl_under (hs : Segment s) (hops : ∀ o ∈ ops, Plain (segments o.key)) (hP : ∀ c ∈ P, named s c = false) :
    (ops.map (under s)).foldl (foldIn T) (grouped P s Q) = grouped P s (ops.foldl (foldIn (below T s)) Q) := by
  induction ops generalizing Q with
  | nil => rfl
  | cons o ops ih =>
    obtain ⟨ho, hops⟩ := forall_mem_cons.mp hops
    rw [map_cons, foldl_cons, foldIn_under hs ho hP, ih hops]
    rfl

theorem patchIn_under (hs : Segment s) (hops : ∀ o ∈ ops, Plain (segments o.key)) (T : Option Json) :
    patchIn T (ops.map (under s)) = grouped [] s (patchIn (below T s) ops) :=
  foldl_under (P := []) (Q := []) hs hops (by simp)

end Group

section Commit

variable {pats : List (List Name)} {root d : List Child} {s : Name}

theorem commit_eq_patchIn (hops : ∀ o ∈ ops, sdbRoute pats o.key = none) :
    commit pats root ops = deepMerge root (patchIn (some (.obj root)) ops) := by
  rw [commit, buildPatch, patchIn, foldIn_some, filter_eq_self.mpr fun o ho => by simp [hops o ho]]

theorem getObjectItem_deepMerge_grouped {cur : Json} (hcur : getObjectItem root s = some cur) (Q : List Child) :
    getObjectItem (deepMerge root (grouped [] s Q)) s =
      if Q = [] then some cur else getObjectItem (mergeItem s root (.obj Q)) s := by
  unfold grouped
  split
  · rw [deepMerge_nil, hcur]
  · rw [nil_append, deepMerge_single]

theorem getObjectItem_under_obj (hs : Segment s) (hops : ∀ o ∈ ops, Plain (segments o.key))
    (hcur : getObjectItem root s = some (.obj d)) :
    getObjectItem (deepMerge root (patchIn (some (.obj root)) (ops.map (under s)))) s =
      some (.obj (deepMerge d (patchIn (some (.obj d)) ops))) := by
  have hbelow : below (some (.obj root)) s = some (.obj d) := hcur
  rw [patchIn_under hs hops, hbelow, getObjectItem_deepMerge_grouped hcur]
  split
  next hnil => rw [hnil, deepMerge_nil]
  · simp only [mergeItem, hcur]
    exact getObjectItem_updateItem _ hcur

theorem getObjectItem_under_arr (hs : Segment s) (hops : ∀ o ∈ ops, Plain (segments o.key))
    (hcur : getObjectItem root s = some (.arr d))
    (hdigits : patchIn (some (.arr d)) ops ≠ [] → allNumericKeys (patchIn (some (.arr d)) ops) = true) :
    getObjectItem (deepMerge root (patchIn (some (.obj root)) (ops.map (under s)))) s =
      some (.arr (deepMergeIntoArray d (patchIn (some (.arr d)) ops))) := by
  have hbelow : below (some (.obj root)) s = some (.arr d) := hcur
  rw [patchIn_under hs hops, hbelow, getObjectItem_deepMerge_grouped hcur]
  split
  next hnil =>
    rw [hnil]
    simp [deepMergeIntoArray, deleteElems, mergeElems]
  next hne =>
    simp only [mergeItem, hcur, if_pos (hdigits hne)]
    exact getObjectItem_updateItem _ hcur

end Commit

end Spangap.Subtree
