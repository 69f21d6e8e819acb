import Spangap.DotPath
import Mathlib.Data.List.Sort

namespace Spangap.Merge

open List Option CJson FirstMatch DotPath

variable {cs P : List Child} {n t m : Name}

def allNumericKeys (cs : List Child) : Bool :=
  !cs.isEmpty && cs.all fun c => c.1.any isAllDigits

def elemIndex (n : Option Name) : Nat := atoi (n.getD [])

def deleteElems (dstArr patchObj : List Child) : List Child :=
  (((patchObj.filter fun c => c.2.isNull).map fun c => elemIndex c.1).insertionSort (· ≥ ·)).foldl
    List.eraseIdx dstArr

def replaceOrExtend (dstArr : List Child) (i : Nat) (c : Child) : List Child :=
  if i < dstArr.length then dstArr.set i c
  else dstArr ++ replicate (i - dstArr.length) (none, Json.null) ++ [c]

mutual
def mergeItem (n : Name) (dst : List Child) : Json → List Child
  | .obj ks =>
    match getObjectItem dst n with
    | some (.obj d) => updateItem dst n (.obj (deepMerge d ks))
    | some (.arr d) =>
      if allNumericKeys ks then updateItem dst n (.arr (mergeElems (deleteElems d ks) ks))
      else addItemToObject (deleteItemFromObject dst n) n (.obj ks)
    | _ => addItemToObject (deleteItemFromObject dst n) n (.obj ks)
  | .scalar .null => deleteItemFromObject dst n
  | v => addItemToObject (deleteItemFromObject dst n) n v
termination_by structural v => v

def deepMerge (dst : List Child) : List (Option Name × Json) → List Child
  | [] => dst
  | (none, _) :: rest => deepMerge dst rest
  | (some n, v) :: rest => deepMerge (mergeItem n dst v) rest
termination_by structural src => src

def mergeElem (n : Option Name) (dstArr : List Child) : Json → List Child
  | .obj ks =>
    match dstArr[elemIndex n]? with
    | some (m, .obj d) => dstArr.set (elemIndex n) (m, .obj (deepMerge d ks))
    | _ => replaceOrExtend dstArr (elemIndex n) (n, .obj ks)
  | .scalar .null => dstArr
  | v => replaceOrExtend dstArr (elemIndex n) (n, v)
termination_by structural v => v

def mergeElems (dstArr : List Child) : List (Option Name × Json) → List Child
  | [] => dstArr
  | (n, v) :: rest => mergeElems (mergeElem n dstArr v) rest
termination_by structural src => src
end

def deepMergeIntoArray (dstArr patchObj : List Child) : List Child :=
  mergeElems (deleteElems dstArr patchObj) patchObj

/-- What the merge of one patch member does to the members it is merged into. -/
inductive Edit
  | erase
  | put (v : Json)
  | update (v : Json)

def Edit.apply (n : Name) (cs : List Child) : Edit → List Child
  | erase => deleteItemFromObject cs n
  | put v => addItemToObject (deleteItemFromObject cs n) n v
  | update v => updateItem cs n v

def mergeEdit (cur : Option Json) : Json → Edit
  | .obj ks =>
    match cur with
    | some (.obj d) => .update (.obj (deepMerge d ks))
    | some (.arr d) =>
      if allNumericKeys ks then .update (.arr (deepMergeIntoArray d ks)) else .put (.obj ks)
    | _ => .put (.obj ks)
  | .scalar .null => .erase
  | v => .put v

theorem mergeItem_eq (n : Name) (dst : List Child) (v : Json) :
    mergeItem n dst v = (mergeEdit (getObjectItem dst n) v).apply n dst := by
  cases v with
  | scalar x => cases x <;> rfl
  | arr cs => rfl
  | obj ks =>
    rcases hc : getObjectItem dst n with - | x | d | d
    · simp only [mergeItem, mergeEdit, hc, Edit.apply]
    · simp only [mergeItem, mergeEdit, hc, Edit.apply]
    · simp only [mergeItem, mergeEdit, hc, deepMergeIntoArray]
      split <;> rfl
    · simp only [mergeItem, mergeEdit, hc, Edit.apply]

theorem deepMerge_append (dst a b : List Child) : deepMerge dst (a ++ b) = deepMerge (deepMerge dst a) b := by
  induction a generalizing dst with
  | nil => rw [nil_append, deepMerge]
  | cons c a ih =>
    obtain ⟨n, v⟩ := c
    cases n with
    | none => simpa only [cons_append, deepMerge] using ih dst
    | some n => simpa only [cons_append, deepMerge] using ih (mergeItem n dst v)

@[simp] theorem deepMerge_nil (dst : List Child) : deepMerge dst [] = dst := by rw [deepMerge]

theorem deepMerge_cons (dst : List Child) (n : Name) (v : Json) (rest : List Child) :
    deepMerge dst ((some n, v) :: rest) = deepMerge (mergeItem n dst v) rest := by rw [deepMerge]

theorem deepMerge_single (dst : List Child) (n : Name) (v : Json) :
    deepMerge dst [(some n, v)] = mergeItem n dst v := by
  rw [deepMerge_cons, deepMerge_nil]

theorem getObjectItem_addItem (h : ∀ c ∈ cs, named n c = false) (v : Json) :
    getObjectItem (addItemToObject cs n v) n = some v := by
  rw [addItemToObject, getObjectItem, find?_append, find?_of_none h]
  simp [named]

theorem getObjectItem_putLeaf (h : cs.countP (named n) ≤ 1) (v : Json) : getObjectItem (putLeaf v n cs) n = some v :=
  getObjectItem_addItem (none_of_eraseP h) v

theorem countP_putLeaf (h : cs.countP (named n) ≤ 1) (v : Json) : (putLeaf v n cs).countP (named n) ≤ 1 := by
  have hz : (deleteItemFromObject cs n).countP (named n) = 0 :=
    countP_eq_zero.mpr fun c hc => by simp [none_of_eraseP h c hc]
  rw [putLeaf, addItemToObject, countP_append, hz]
  simp [named]

theorem putLeaf_of_none (h : ∀ c ∈ cs, named n c = false) (v : Json) : putLeaf v n cs = cs ++ [(some n, v)] := by
  rw [putLeaf, deleteItemFromObject_of_none h, addItemToObject]

section Own

variable (h : fold n = fold t)

include h

section

variable (hcount : cs.countP (named t) ≤ 1)
include hcount

theorem getObjectItem_apply_put (v : Json) : getObjectItem (Edit.apply n cs (.put v)) t = some v := by
  rw [getObjectItem_congr h.symm]
  exact getObjectItem_putLeaf (by rwa [named_congr h]) v

theorem getObjectItem_mergeItem_null : getObjectItem (mergeItem n cs .null) t = none := by
  rw [Json.null, mergeItem_eq, getObjectItem_congr h.symm]
  exact getObjectItem_of_none (none_of_eraseP (by rwa [named_congr h]))

theorem isSome_mergeItem {v : Json} (hv : v.isNull = false) : (getObjectItem (mergeItem n cs v) t).isSome = true := by
  rw [mergeItem_eq, getObjectItem_congr h]
  have hput := fun u : Json => getObjectItem_apply_put h hcount u
  have hup : ∀ {u : Json} (y : Json), getObjectItem cs t = some u →
      getObjectItem (Edit.apply n cs (.update y)) t = some y := by
    intro u y hu
    rw [Edit.apply, updateItem_congr h]
    exact getObjectItem_updateItem y hu
  rcases v with (- | b | r | s) | e | Q
  · simp [Json.isNull] at hv
  · simp [mergeEdit, hput]
  · simp [mergeEdit, hput]
  · simp [mergeEdit, hput]
  · simp [mergeEdit, hput]
  · rcases hc : getObjectItem cs t with - | x | e | d
    · simp [mergeEdit, hput]
    · simp [mergeEdit, hput]
    · simp only [mergeEdit]
      split
      · simp [hup _ hc]
      · simp [hput]
    · simp [mergeEdit, hup _ hc]

theorem countP_mergeItem_self (v : Json) : (mergeItem n cs v).countP (named t) ≤ 1 := by
  rw [mergeItem_eq, ← named_congr h] at *
  cases mergeEdit (getObjectItem cs n) v with
  | erase => exact le_trans (List.Sublist.countP_le (eraseP_sublist)) hcount
  | put u => exact countP_putLeaf hcount u
  | update u => rwa [Edit.apply, updateItem, countP_modifyFirst (by simp)]

end

end Own

section Locality

variable (h : fold n ≠ fold m)

include h

theorem getObjectItem_apply (e : Edit) (cs : List Child) : getObjectItem (e.apply n cs) m = getObjectItem cs m := by
  have hd := named_disjoint h
  cases e with
  | erase => simp only [Edit.apply, deleteItemFromObject, getObjectItem, find?_eraseP_of_disjoint hd]
  | put v =>
    have hx : named m (some n, v) = false := hd _ (named_some.mpr rfl)
    simp only [Edit.apply, deleteItemFromObject, addItemToObject, getObjectItem, find?_append,
      find?_eraseP_of_disjoint hd, find?_cons, hx, find?_nil, or_none]
  | update v =>
    rw [Edit.apply, getObjectItem, updateItem, find?_modifyFirst_of_disjoint hd (by simp), getObjectItem]

theorem countP_apply (e : Edit) (cs : List Child) : (e.apply n cs).countP (named m) = cs.countP (named m) := by
  have hd := named_disjoint h
  cases e with
  | erase => exact countP_eraseP_of_disjoint hd cs
  | put v =>
    have hx : named m (some n, v) = false := hd _ (named_some.mpr rfl)
    simp only [Edit.apply, deleteItemFromObject, addItemToObject, countP_append,
      countP_eraseP_of_disjoint hd, countP_singleton, hx, Bool.false_eq_true, if_false, Nat.add_zero]
  | update v => exact countP_modifyFirst (by simp) cs

theorem getObjectItem_mergeItem (cs : List Child) (v : Json) :
    getObjectItem (mergeItem n cs v) m = getObjectItem cs m := by
  rw [mergeItem_eq, getObjectItem_apply h]

theorem countP_mergeItem (cs : List Child) (v : Json) :
    (mergeItem n cs v).countP (named m) = cs.countP (named m) := by
  rw [mergeItem_eq, countP_apply h]

end Locality

section Untouched

variable {src : List Child}

/-- What the merge of every differently named member keeps is kept by the merge
of a patch that has no member of this name. -/
theorem deepMerge_rel {R : List Child → List Child → Prop}
    (hR : ∀ n a b v, fold n ≠ fold m → R a b → R (mergeItem n a v) (mergeItem n b v))
    (hsrc : ∀ c ∈ src, named m c = false) {a b : List Child} (h : R a b) : R (deepMerge a src) (deepMerge b src) := by
  induction src generalizing a b with
  | nil => rwa [deepMerge_nil, deepMerge_nil]
  | cons c src ih =>
    obtain ⟨n, v⟩ := c
    have hrest := fun d hd => hsrc d (mem_cons_of_mem _ hd)
    cases n with
    | none =>
      rw [deepMerge, deepMerge]
      exact ih hrest h
    | some n =>
      have hn : fold n ≠ fold m := by
        intro he
        have := hsrc (some n, v) mem_cons_self
        rw [named_some.mpr he] at this
        simp at this
      rw [deepMerge_cons, deepMerge_cons]
      exact ih hrest (hR n a b v hn h)

section

variable (hsrc : ∀ c ∈ src, named m c = false) (cs : List Child)
include hsrc

theorem getObjectItem_deepMerge : getObjectItem (deepMerge cs src) m = getObjectItem cs m :=
  deepMerge_rel (R := fun a _ => getObjectItem a m = getObjectItem cs m)
    (fun _ a _ v hn h => (getObjectItem_mergeItem hn a v).trans h) hsrc (b := cs) rfl

theorem countP_deepMerge : (deepMerge cs src).countP (named m) = cs.countP (named m) :=
  deepMerge_rel (R := fun a _ => a.countP (named m) = cs.countP (named m))
    (fun _ a _ v hn h => (countP_mergeItem hn a v).trans h) hsrc (b := cs) rfl

end

end Untouched

def graft (T : Option Json) (P : List Child) : Json :=
  match T with
  | some (.obj d) => .obj (deepMerge d P)
  | some (.arr e) => if allNumericKeys P then .arr (deepMergeIntoArray e P) else .obj P
  | _ => .obj P

theorem split_of_getObjectItem {x : Json} (hcount : P.countP (named t) ≤ 1) (hx : getObjectItem P t = some x) :
    ∃ A n B, P = A ++ (some n, x) :: B ∧ fold n = fold t ∧ (∀ c ∈ A, named t c = false) ∧
      ∀ c ∈ B, named t c = false := by
  obtain ⟨⟨n, y⟩, hc, rfl⟩ := map_eq_some_iff.mp hx
  obtain ⟨hn, A, B, rfl, hA⟩ := find?_eq_some_iff_append.mp hc
  have hfn := named_iff.mp hn
  cases n with
  | none => simp at hfn
  | some n =>
    refine ⟨A, n, B, rfl, by simpa using hfn, fun c hc => by simpa using hA c hc, ?_⟩
    rw [countP_append, countP_cons_of_pos hn] at hcount
    have hz : B.countP (named t) = 0 := by omega
    intro c hc
    simpa using countP_eq_zero.mp hz c hc

theorem getObjectItem_mergeItem_obj (h : fold n = fold t) (hcount : cs.countP (named t) ≤ 1) (Q : List Child) :
    getObjectItem (mergeItem n cs (.obj Q)) t = some (graft (getObjectItem cs t) Q) := by
  have hput : getObjectItem (Edit.apply n cs (.put (.obj Q))) t = some (.obj Q) := by
    rw [getObjectItem_congr h.symm]
    exact getObjectItem_putLeaf (by rwa [named_congr h]) (.obj Q)
  have hup : ∀ {u : Json} (y : Json), getObjectItem cs t = some u →
      getObjectItem (Edit.apply n cs (.update y)) t = some y := by
    intro u y hu
    rw [Edit.apply, updateItem_congr h]
    exact getObjectItem_updateItem y hu
  rw [mergeItem_eq, getObjectItem_congr h]
  rcases hc : getObjectItem cs t with - | x | e | d
  · exact hput
  · exact hput
  · simp only [mergeEdit, graft]
    split
    · exact hup _ hc
    · exact hput
  · exact hup _ hc

def mergeAt (cur : Option Json) : Option Json → Option Json
  | none => cur
  | some (.obj Q) => some (graft cur Q)
  | some (.scalar .null) => none
  | some v => some v

theorem getObjectItem_deepMerge_eq {d : List Child} {s : Name} (hd : d.countP (named s) ≤ 1)
    (hP : P.countP (named s) ≤ 1) :
    getObjectItem (deepMerge d P) s = mergeAt (getObjectItem d s) (getObjectItem P s) := by
  rcases hc : getObjectItem P s with - | x
  · exact getObjectItem_deepMerge (none_of_getObjectItem hc) d
  · obtain ⟨A, n, B, rfl, hn, hA, hB⟩ := split_of_getObjectItem hP hc
    have hcount : (deepMerge d A).countP (named s) ≤ 1 := by rwa [countP_deepMerge hA]
    rw [deepMerge_append, deepMerge_cons, getObjectItem_deepMerge hB]
    have hput := getObjectItem_apply_put hn hcount
    rcases x with (- | b | r | t) | e | Q
    · exact getObjectItem_mergeItem_null hn hcount
    · exact hput _
    · exact hput _
    · exact hput _
    · exact hput _
    · rw [getObjectItem_mergeItem_obj hn hcount, getObjectItem_deepMerge hA, mergeAt]

end Spangap.Merge
