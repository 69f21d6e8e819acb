import Spangap.Persist

namespace Spangap.DeleteTree

open List Option Function CJson FirstMatch DotPath Merge Commit Persist

variable {cs : List Child} {leaf w : Json} {s t : Name} {b : Bool} {segs ss : List Name}

def storageDeleteTree (pats : List (List Name)) (σ : State) (key : Name) : State :=
  if key = [] then σ else applyOps pats σ [⟨.delete, key, none⟩]

def dropChild : Json → Name → Json
  | .arr cs, s => .arr (if isAllDigits s then cs.eraseIdx (atoi s) else deleteItemFromObject cs s)
  | .obj cs, s => .obj (deleteItemFromObject cs s)
  | v, _ => v

def setChild : Json → Name → Json → Json
  | .arr cs, s, w => .arr (if isAllDigits s then cs.modify (atoi s) fun c => (c.1, w) else updateItem cs s w)
  | .obj cs, s, w => .obj (updateItem cs s w)
  | v, _, _ => v

def without : Json → List Name → Json
  | v, [] => v
  | v, s :: ss =>
    if 96 ≤ s.length then v
    else
      match child v s with
      | none => v
      | some w => if ss = [] then dropChild v s else setChild v s (without w ss)

/-- What a key makes of an empty patch: its segments, one in the other, down to the first that does not
fit the parser's buffer. -/
def nest (leaf : Json) : List Name → List Child
  | [] => []
  | s :: ss => if 96 ≤ s.length then [] else [(some s, if ss = [] then leaf else .obj (nest leaf ss))]

/-- Every segment the walk takes, save the last, leads to an object, or to an array whose index comes next.
`last` is the verdict on a walk that takes them all. -/
def along (last : Bool) : List Child → List Name → Bool
  | _, [] => last
  | _, [s] => last || 96 ≤ s.length
  | cs, s :: t :: ss =>
    96 ≤ s.length ||
      match getObjectItem cs s with
      | some (.obj d) => along last d (t :: ss)
      | some (.arr e) =>
        isAllDigits t && t.length < 96 &&
          if ss = [] then last
          else
            match e[atoi t]? with
            | some (_, .obj d) => along last d ss
            | _ => false
      | _ => false

theorem navigateOrCreate_nest (h : ∀ s ∈ segs, s ≠ []) :
    navigateOrCreate (putLeaf .null) segs [] = nest .null segs := by
  induction segs with
  | nil => rfl
  | cons s ss ih =>
    obtain ⟨hs, hss⟩ := forall_mem_cons.mp h
    rw [navigateOrCreate, if_neg hs, nest]
    split
    · rfl
    · split
      · rfl
      · rw [ih hss]
        rfl

theorem navigateOrCreate_dot (h : ∀ s ∈ segs, s ≠ []) :
    navigateOrCreate (putLeaf .null) (segs ++ [[]]) [] = nest (.obj []) segs := by
  induction segs with
  | nil => rfl
  | cons s ss ih =>
    obtain ⟨hs, hss⟩ := forall_mem_cons.mp h
    rw [cons_append, navigateOrCreate, if_neg hs, nest]
    split
    · rfl
    · rw [if_neg (by simp)]
      show addItemToObject [] s (.obj (navigateOrCreate (putLeaf .null) (ss ++ [[]]) [])) = _
      rw [ih hss]
      split
      next hnil => rw [hnil]; rfl
      · rfl

section Counts

variable {u : Json}

def objects (cs : List Child) : Nat := cs.countP fun c => c.2.isObj

theorem find_of_getObjectItem (h : getObjectItem cs s = some u) :
    ∃ A n B, cs = A ++ (n, u) :: B ∧ named s (n, u) = true ∧ ∀ c ∈ A, named s c = false := by
  obtain ⟨⟨n, w⟩, hc, rfl⟩ := map_eq_some_iff.mp h
  obtain ⟨hn, A, B, hcs, hA⟩ := find?_eq_some_iff_append.mp hc
  exact ⟨A, n, B, hcs, hn, fun c hc => by simpa using hA c hc⟩

theorem updateItem_eq (h : getObjectItem cs s = some u) (w : Json) :
    ∃ A n B, cs = A ++ (n, u) :: B ∧ updateItem cs s w = A ++ (n, w) :: B ∧ deleteItemFromObject cs s = A ++ B := by
  obtain ⟨A, n, B, rfl, hn, hA⟩ := find_of_getObjectItem h
  refine ⟨A, n, B, rfl, ?_, ?_⟩
  · rw [updateItem, modifyFirst_append_of_none _ hA, modifyFirst_cons_of_pos _ hn]
  · rw [deleteItemFromObject, eraseP_append_right _ fun c hc => by simp [hA c hc], eraseP_cons_of_pos hn]

theorem objects_put (h : ∀ d, getObjectItem cs s ≠ some (.obj d)) (Q : List Child) :
    objects (addItemToObject (deleteItemFromObject cs s) s (.obj Q)) = objects cs + 1 := by
  have hsame : objects (deleteItemFromObject cs s) = objects cs := by
    cases hget : getObjectItem cs s with
    | none => rw [deleteItemFromObject_of_none (none_of_getObjectItem hget)]
    | some u =>
      obtain ⟨A, n, B, hcs, -, hdel⟩ := updateItem_eq hget u
      have hu : u.isObj = false := by
        cases u with
        | obj d => exact absurd hget (h d)
        | scalar x => rfl
        | arr e => rfl
      rw [hdel, hcs, objects, objects, countP_append, countP_append, countP_cons_of_neg (by simp [hu])]
  rw [addItemToObject, objects, countP_append, ← objects, hsame]
  rfl

theorem objects_update (h : getObjectItem cs s = some u) (hkind : w.isObj = u.isObj) :
    objects (updateItem cs s w) = objects cs := by
  obtain ⟨A, n, B, hcs, hup, -⟩ := updateItem_eq h w
  rw [hup, hcs, objects, objects, countP_append, countP_append, countP_cons, countP_cons, hkind]

theorem updateItem_inj {x : Json} (h : getObjectItem cs s = some u) : updateItem cs s w = updateItem cs s x ↔ w = x := by
  refine ⟨fun heq => ?_, fun heq => heq ▸ rfl⟩
  have hw := getObjectItem_updateItem w h
  rw [heq, getObjectItem_updateItem x h] at hw
  exact (some_inj.mp hw).symm

theorem isObj_without (v : Json) (segs : List Name) : (without v segs).isObj = v.isObj := by
  cases segs with
  | nil => rfl
  | cons s ss =>
    rw [without]
    split
    · rfl
    · split
      · rfl
      · split
        · cases v <;> rfl
        · cases v <;> rfl

end Counts

/-- The kinds of leaf that a delete puts into the patch: a null, or after a dot an empty object. -/
inductive Leaf : Json → Bool → Prop
  | null : Leaf .null true
  | dot : Leaf (.obj []) false

theorem length_mergeItem_obj (s : Name) (cs Q : List Child) :
    (mergeItem s cs (.obj Q)).length = (deleteItemFromObject cs s).length + 1 := by
  have hput : (addItemToObject (deleteItemFromObject cs s) s (.obj Q)).length = (deleteItemFromObject cs s).length + 1 := by
    rw [addItemToObject, length_append, length_singleton]
  have hup : ∀ {u : Json} (w : Json), getObjectItem cs s = some u →
      (updateItem cs s w).length = (deleteItemFromObject cs s).length + 1 := by
    intro u w h
    obtain ⟨A, n, B, -, hupd, hdel⟩ := updateItem_eq h w
    rw [hupd, hdel, length_append, length_append, length_cons]
    omega
  rw [mergeItem_eq]
  rcases hc : getObjectItem cs s with - | x | e | d
  · exact hput
  · exact hput
  · simp only [mergeEdit]
    split
    · exact hup _ hc
    · exact hput
  · exact hup _ hc

theorem merge_last (hleaf : Leaf leaf b) (hs : ¬ 96 ≤ s.length) :
    Json.obj (deepMerge cs (nest leaf [s])) = without (.obj cs) [s] ↔ b = true := by
  have hwithout : without (.obj cs) [s] = .obj (deleteItemFromObject cs s) := by
    rw [without, if_neg hs, child_obj]
    cases hget : getObjectItem cs s with
    | none => rw [deleteItemFromObject_of_none (none_of_getObjectItem hget)]
    | some u => rfl
  rw [hwithout, nest, if_neg hs, if_pos rfl, deepMerge_single, Json.obj.injEq]
  cases hleaf with
  | null => exact ⟨fun _ => rfl, fun _ => rfl⟩
  | dot =>
    refine ⟨fun h => ?_, fun h => by cases h⟩
    have hlen := length_mergeItem_obj s cs []
    rw [h] at hlen
    omega

theorem merge_put_ne (hget : ∀ d, getObjectItem cs s ≠ some (.obj d)) {Q : List Child}
    (hput : mergeItem s cs (.obj Q) = addItemToObject (deleteItemFromObject cs s) s (.obj Q)) (hne : ss ≠ []) :
    Json.obj (mergeItem s cs (.obj Q)) ≠ without (.obj cs) (s :: ss) := by
  intro h
  have hcount := objects_put hget Q
  rw [← hput] at hcount
  rw [without, child_obj] at h
  split at h
  · rw [Json.obj.inj h] at hcount
    omega
  · split at h
    · rw [Json.obj.inj h] at hcount
      omega
    next w hw =>
      rw [Json.obj.inj h, objects_update hw (isObj_without w ss)] at hcount
      omega

theorem allNumericKeys_nest (leaf : Json) (t : Name) (ss : List Name) :
    allNumericKeys (nest leaf (t :: ss)) = (isAllDigits t && decide (t.length < 96)) := by
  rw [nest]
  split
  next h => simp [allNumericKeys, Nat.not_lt.mpr h]
  next h => simp [allNumericKeys, Nat.not_le.mp h]

section Elements

variable {e : List Child}

theorem length_replaceOrExtend (e : List Child) (i : Nat) (c : Child) :
    (e.eraseIdx i).length < (replaceOrExtend e i c).length := by
  rw [replaceOrExtend, length_eraseIdx]
  split
  next h =>
    rw [length_set]
    omega
  next h =>
    simp only [length_append, length_singleton, length_replicate]
    omega

theorem deepMergeIntoArray_obj (e : List Child) (t : Name) (Q : List Child) :
    deepMergeIntoArray e [(some t, .obj Q)] =
      match e[atoi t]? with
      | some (m, .obj d) => e.set (atoi t) (m, .obj (deepMerge d Q))
      | _ => replaceOrExtend e (atoi t) (some t, .obj Q) := rfl

theorem elem_last (hleaf : Leaf leaf b) (hdigits : isAllDigits t = true) (ht : ¬ 96 ≤ t.length) :
    Json.arr (deepMergeIntoArray e (nest leaf [t])) = without (.arr e) [t] ↔ b = true := by
  have hwithout : without (.arr e) [t] = .arr (e.eraseIdx (atoi t)) := by
    rw [without, if_neg ht, child_arr hdigits, getArrayItem]
    cases hget : e[atoi t]? with
    | none => rw [eraseIdx_of_length_le (getElem?_eq_none_iff.mp hget)]; rfl
    | some c => simp [dropChild, hdigits]
  rw [hwithout, nest, if_neg ht, if_pos rfl, Json.arr.injEq]
  cases hleaf with
  | null => exact ⟨fun _ => rfl, fun _ => rfl⟩
  | dot =>
    refine ⟨fun h => ?_, fun h => by cases h⟩
    have hlen := congrArg length h
    rw [deepMergeIntoArray_obj] at hlen
    split at hlen
    next hget =>
      have hlt := (List.getElem?_eq_some_iff.mp hget).1
      rw [length_set, length_eraseIdx, if_pos hlt] at hlen
      omega
    · exact absurd hlen (ne_of_gt (length_replaceOrExtend e _ _))

theorem elem_below (hdigits : isAllDigits t = true) (ht : ¬ 96 ≤ t.length) (hss : ss ≠ []) :
    Json.arr (deepMergeIntoArray e (nest leaf (t :: ss))) = without (.arr e) (t :: ss) ↔
      match e[atoi t]? with
      | some (_, .obj d) => Json.obj (deepMerge d (nest leaf ss)) = without (.obj d) ss
      | _ => False := by
  have hhere : ∀ {m : Option Name} {w : Json}, e[atoi t]? = some (m, w) →
      ∀ c, Json.arr (e.set (atoi t) c) = setChild (.arr e) t (without w ss) ↔ c = (m, without w ss) := by
    intro m w hget c
    have hlt := (List.getElem?_eq_some_iff.mp hget).1
    rw [setChild, if_pos hdigits, Json.arr.injEq, modify_eq_set_getElem?, hget]
    constructor
    · intro h
      have hat := congrArg (fun l : List Child => l[atoi t]?) h
      simpa [hlt] using hat
    · intro h
      rw [h]
      rfl
  have hflat : ∀ {m : Option Name} {w : Json}, e[atoi t]? = some (m, w) → w.isObj = false → ∀ Q,
      Json.arr (replaceOrExtend e (atoi t) (some t, .obj Q)) ≠ setChild (.arr e) t (without w ss) := by
    intro m w hget hw Q h
    have hlt := (List.getElem?_eq_some_iff.mp hget).1
    rw [replaceOrExtend, if_pos hlt, hhere hget, Prod.mk.injEq] at h
    have hkind := isObj_without w ss
    rw [← h.2, hw] at hkind
    cases hkind
  rw [nest, if_neg ht, if_neg hss, deepMergeIntoArray_obj, without, if_neg ht, child_arr hdigits, getArrayItem]
  rcases hget : e[atoi t]? with - | ⟨m, x | k | d⟩
  · refine ⟨fun h => ?_, fun h => h.elim⟩
    have hlen := length_replaceOrExtend e (atoi t) (some t, .obj (nest leaf ss))
    rw [eraseIdx_of_length_le (getElem?_eq_none_iff.mp hget)] at hlen
    exact ne_of_gt hlen (congrArg length (Json.arr.inj h))
  · refine ⟨fun h => hflat hget rfl (nest leaf ss) ?_, fun h => h.elim⟩
    simpa [hss] using h
  · refine ⟨fun h => hflat hget rfl (nest leaf ss) ?_, fun h => h.elim⟩
    simpa [hss] using h
  · simp only [map_some, if_neg hss]
    rw [hhere hget, Prod.mk.injEq]
    exact ⟨fun h => h.2, fun h => ⟨rfl, h⟩⟩

end Elements

theorem nest_long (hs : 96 ≤ s.length) (ss : List Name) (cs : List Child) :
    Json.obj (deepMerge cs (nest leaf (s :: ss))) = without (.obj cs) (s :: ss) := by
  rw [nest, if_pos hs, deepMerge_nil, without, if_pos hs]

theorem merge_exact (hleaf : Leaf leaf b) : (segs : List Name) → (cs : List Child) → segs ≠ [] →
    (Json.obj (deepMerge cs (nest leaf segs)) = without (.obj cs) segs ↔ along b cs segs = true)
  | [], _, h => absurd rfl h
  | [s], cs, _ => by
    rw [along, Bool.or_eq_true, decide_eq_true_eq]
    by_cases hs : 96 ≤ s.length
    · exact ⟨fun _ => .inr hs, fun _ => nest_long hs [] cs⟩
    · rw [merge_last hleaf hs]
      simp [hs]
  | s :: t :: ss, cs, _ => by
    rw [along, Bool.or_eq_true, decide_eq_true_eq]
    by_cases hs : 96 ≤ s.length
    · exact ⟨fun _ => .inl hs, fun _ => nest_long hs (t :: ss) cs⟩
    · have hpatch : deepMerge cs (nest leaf (s :: t :: ss)) = mergeItem s cs (.obj (nest leaf (t :: ss))) := by
        rw [nest, if_neg hs, if_neg (cons_ne_nil t ss), deepMerge_single]
      have hfalse : ∀ {p : Prop}, ¬ p → (p ↔ 96 ≤ s.length ∨ false = true) := fun hp =>
        ⟨fun h => absurd h hp, fun h => h.elim (fun h => absurd h hs) fun h => by cases h⟩
      have hwithout : ∀ {w : Json}, getObjectItem cs s = some w →
          without (.obj cs) (s :: t :: ss) = .obj (updateItem cs s (without w (t :: ss))) := by
        intro w hw
        rw [without, if_neg hs, child_obj, hw]
        rfl
      rw [hpatch]
      rcases hget : getObjectItem cs s with - | x | e | d
      · exact hfalse (merge_put_ne (by simp [hget]) (by simp only [mergeItem, hget]) (cons_ne_nil t ss))
      · exact hfalse (merge_put_ne (by simp [hget]) (by simp only [mergeItem, hget]) (cons_ne_nil t ss))
      · dsimp only
        cases hnumeric : allNumericKeys (nest leaf (t :: ss)) with
        | false =>
          have hput : mergeItem s cs (.obj (nest leaf (t :: ss))) =
              addItemToObject (deleteItemFromObject cs s) s (.obj (nest leaf (t :: ss))) := by
            simp only [mergeItem, hget, hnumeric, Bool.false_eq_true, if_false]
          rw [allNumericKeys_nest] at hnumeric
          rw [hnumeric, Bool.false_and]
          exact hfalse (merge_put_ne (by simp [hget]) hput (cons_ne_nil t ss))
        | true =>
          have hup : mergeItem s cs (.obj (nest leaf (t :: ss))) =
              updateItem cs s (.arr (deepMergeIntoArray e (nest leaf (t :: ss)))) := by
            simp only [mergeItem, hget, hnumeric, if_true]
            rfl
          rw [allNumericKeys_nest] at hnumeric
          obtain ⟨hdigits, ht⟩ := Bool.and_eq_true_iff.mp hnumeric
          have ht : ¬ 96 ≤ t.length := Nat.not_le.mpr (of_decide_eq_true ht)
          rw [hup, hwithout hget, Json.obj.injEq, updateItem_inj hget, hnumeric, Bool.true_and]
          by_cases hss : ss = []
          · rw [hss, elem_last hleaf hdigits ht, if_pos rfl]
            simp [hs]
          · rw [elem_below hdigits ht hss, if_neg hss]
            rcases e[atoi t]? with - | ⟨m, x | k | d⟩
            · simp [hs]
            · simp [hs]
            · simp [hs]
            · dsimp only
              rw [merge_exact hleaf ss d hss]
              simp [hs]
      · have hup : mergeItem s cs (.obj (nest leaf (t :: ss))) =
            updateItem cs s (.obj (deepMerge d (nest leaf (t :: ss)))) := by
          simp only [mergeItem, hget]
        rw [hup, hwithout hget, Json.obj.injEq, updateItem_inj hget, merge_exact hleaf (t :: ss) d (cons_ne_nil t ss)]
        simp [hs]
termination_by segs => segs.length

section Calls

variable {pats : List (List Name)} {σ : State} {p key : Name}

/-- The external is registered at the path or below it. -/
def atOrBelow (p pre : Name) : Bool := pre == p || (p ++ [46]).isPrefixOf pre

theorem cfgRoot_delete (hkey : key ≠ []) (hout : sdbRoute pats key = none) :
    (storageDeleteTree pats σ key).cfgRoot = deepMerge σ.cfgRoot (navigateOrCreate (putLeaf .null) (segments key) []) := by
  rw [storageDeleteTree, if_neg hkey]
  show deepMerge σ.cfgRoot (buildPatch pats (.obj σ.cfgRoot) [⟨.delete, key, none⟩]) = _
  rw [buildPatch, List.filter_cons_of_pos (by simp [hout]), List.filter_nil, List.foldl_cons, List.foldl_nil]
  congr 1
  show (if skipped .delete .null (navigatePath (.obj σ.cfgRoot) key) then _ else _) = _
  cases navigatePath (.obj σ.cfgRoot) key <;> rfl

theorem flags_delete (hkey : key ≠ []) (hout : sdbRoute pats key = none) :
    (storageDeleteTree pats σ key).externals.map (fun e => (e.pre, e.pendingDelete)) =
      σ.externals.map fun e => (e.pre, e.pendingDelete || deletedUnder key e.pre) := by
  rw [storageDeleteTree, if_neg hkey, applyOps]
  rw [List.map_map, List.filter_cons_of_pos (by simp [hout]), List.filter_nil, List.foldl_cons, List.foldl_nil, markDeleted,
    if_pos rfl, markExternalsDeletedUnder, List.map_map]
  refine map_congr_left fun e _ => ?_
  simp only [comp_apply]
  split
  next h => simp [h]
  next h => simp [h]

theorem stripDots_of_last {q : Name} {c : UInt8} (hc : c ≠ 46) :
    stripDots (q ++ [c]) = q ++ [c] ∧ stripDots (q ++ [c] ++ [46]) = q ++ [c] := by
  simp [stripDots, hc]

theorem exists_last (h : ∀ s ∈ segments p, s ≠ []) : ∃ q c, p = q ++ [c] ∧ c ≠ 46 := by
  rcases eq_nil_or_concat p with rfl | ⟨q, c, rfl⟩
  · exact absurd rfl (h [] (by simp [segments]))
  · refine ⟨q, c, concat_eq_append, ?_⟩
    rintro rfl
    rw [concat_eq_append, segments_append_dot] at h
    exact absurd rfl (h [] (by simp [segments]))

/-- A delete takes out the node at its path, with or without a dot at its end, exactly if the walk meets what it
should; and it flags the externals at or below the path. -/
theorem deleteTree_exact (hp : ∀ s ∈ segments p, s ≠ []) (hout : sdbRoute pats p = none)
    (hdot : sdbRoute pats (p ++ [46]) = none) (σ : State) :
    (Json.obj (storageDeleteTree pats σ p).cfgRoot = without (.obj σ.cfgRoot) (segments p) ↔
      along true σ.cfgRoot (segments p) = true) ∧
    (Json.obj (storageDeleteTree pats σ (p ++ [46])).cfgRoot = without (.obj σ.cfgRoot) (segments p) ↔
      along false σ.cfgRoot (segments p) = true) ∧
    ∀ key ∈ [p, p ++ [46]], (storageDeleteTree pats σ key).externals.map (fun e => (e.pre, e.pendingDelete)) =
      σ.externals.map fun e => (e.pre, e.pendingDelete || atOrBelow p e.pre) := by
  obtain ⟨q, c, hqc, hc⟩ := exists_last hp
  have hne : p ≠ [] := by simp [hqc]
  have hunder : deletedUnder p = atOrBelow p ∧ deletedUnder (p ++ [46]) = atOrBelow p := by
    obtain ⟨hself, hstrip⟩ := stripDots_of_last (q := q) hc
    rw [← hqc] at hself hstrip
    constructor
    · funext pre
      simp [deletedUnder, atOrBelow, hself, hne]
    · funext pre
      simp [deletedUnder, atOrBelow, hstrip, hne]
  refine ⟨?_, ?_, ?_⟩
  · rw [cfgRoot_delete hne hout, navigateOrCreate_nest hp]
    exact merge_exact .null _ _ (segments_ne_nil p)
  · rw [cfgRoot_delete (by simp) hdot, segments_append_dot, show segments [] = [[]] from rfl, navigateOrCreate_dot hp]
    exact merge_exact .dot _ _ (segments_ne_nil p)
  · refine forall_mem_cons.mpr ⟨?_, forall_mem_singleton.mpr ?_⟩
    · rw [flags_delete hne hout, hunder.1]
    · rw [flags_delete (by simp) hdot, hunder.2]

end Calls

/-- A list of networks, one of them with a name and a password, and a file for it. -/
def networks : State :=
  { empty with
    cfgRoot := [(some (lit "s"), .obj [(some (lit "nets"), .arr
      [(none, .obj [(some (lit "ssid"), .scalar (.str (lit "a"))), (some (lit "pass"), .scalar (.str (lit "b")))])])])]
    externals := [⟨lit "s.nets", false, false⟩] }

theorem deleteTree_exact_networks : (storageDeleteTree [] networks (lit "s.nets.0.pass")).cfgRoot =
        [(some (lit "s"), .obj [(some (lit "nets"), .arr [(none, .obj [(some (lit "ssid"), .scalar (.str (lit "a")))])])])] ∧
      (storageDeleteTree [] networks (lit "s.nets.0.pass")).externals.map (fun e => (e.pre, e.pendingDelete)) =
        [(lit "s.nets", false)] := by
  have h := @deleteTree_exact [] (lit "s.nets.0.pass") (by decide) (by decide) (by decide) networks
  exact ⟨Json.obj.inj (h.1.mpr (by decide)), h.2.2 _ mem_cons_self⟩

/-- With a dot at its end the delete of a subtree keeps the subtree and drops its file, and a delete below a key that
does not exist adds a null. -/
theorem deleteTree_keeps : without (.obj networks.cfgRoot) (segments (lit "s")) = .obj [] ∧
      (storageDeleteTree [] networks (lit "s.")).cfgRoot = networks.cfgRoot ∧
      (storageDeleteTree [] networks (lit "s.")).externals.map (fun e => (e.pre, e.pendingDelete)) = [(lit "s.nets", true)] ∧
      without (.obj empty.cfgRoot) (segments (lit "s.a")) = .obj [] ∧
      (storageDeleteTree [] empty (lit "s.a")).cfgRoot = [(some (lit "s"), .obj [(some (lit "a"), .null)])] :=
  ⟨rfl, rfl, rfl, rfl, rfl⟩

end Spangap.DeleteTree
