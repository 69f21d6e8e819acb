import Spangap.Attach

namespace Spangap.MergePatch

open List Option CJson FirstMatch DotPath Merge View Attach

variable {V : Vocabulary} {v w : Json} {n : Option Name}

mutual
/-- A node as its text tells it: the names of array elements are not printed. -/
def printed : Json → Json
  | .scalar x => .scalar x
  | .arr cs => .arr (printedElems cs)
  | .obj cs => .obj (printedMembers cs)

def printedMembers : List (Option Name × Json) → List Child
  | [] => []
  | (n, v) :: cs => (n, printed v) :: printedMembers cs

def printedElems : List (Option Name × Json) → List Child
  | [] => []
  | (_, v) :: cs => (none, printed v) :: printedElems cs
end

theorem printedMembers_eq (cs : List Child) : printedMembers cs = cs.map fun c => (c.1, printed c.2) := by
  induction cs with
  | nil => rfl
  | cons c cs ih =>
    obtain ⟨n, v⟩ := c
    rw [printedMembers, map_cons, ih]

theorem isObj_printed (v : Json) : (printed v).isObj = v.isObj := by
  cases v <;> rfl

theorem getObjectItem_printed (cs : List Child) (s : Name) :
    getObjectItem (printedMembers cs) s = (getObjectItem cs s).map printed := by
  rw [printedMembers_eq, getObjectItem, getObjectItem, List.find?_map, Option.map_map, Option.map_map]
  rfl

theorem shape_printed (v : Json) : shape (printed v) = (shape v).map printed := by
  rw [shape, shape, isObj_printed]
  split <;> rfl

theorem view_printed (v : Json) (q : List Name) : view (printed v) q = (view v q).map (Option.map printed) := by
  induction q generalizing v with
  | nil => rw [view_nil, view_nil, shape_printed, map_some]
  | cons s q ih =>
    cases v with
    | scalar x => rfl
    | arr cs => rfl
    | obj cs =>
      rw [printed, view_cons, view_cons, getObjectItem_printed]
      cases getObjectItem cs s with
      | none => rfl
      | some v => exact ih v

theorem tidy_printed (h : Tidy V v) : Tidy V (printed v) := by
  induction h with
  | scalar x => exact .scalar x
  | arr cs => exact .arr _
  | obj cs hname hnodup hval ih =>
    rw [printed, printedMembers_eq]
    refine .obj _ ?_ ?_ ?_
    · intro c hc
      obtain ⟨d, hd, rfl⟩ := mem_map.mp hc
      exact hname d hd
    · rw [List.map_map]
      exact hnodup
    · intro c hc
      obtain ⟨d, hd, rfl⟩ := mem_map.mp hc
      exact ih d hd

def member (ts : List Child) (n : Option Name) : Option Json := (ts.find? fun c => c.1 = n).map Prod.snd

def without (ts : List Child) (n : Option Name) : List Child := ts.filter fun c => c.1 ≠ n

def setMember (ts : List Child) (n : Option Name) (v : Json) : List Child := without ts n ++ [(n, v)]

def membersOf : Option Json → List Child
  | some (.obj ts) => ts
  | _ => []

mutual
def mergePatch (target : Option Json) : Json → Json
  | .obj ps => .obj (mergeMembers (membersOf target) ps)
  | .arr cs => .arr cs
  | .scalar x => .scalar x

def mergeMembers (ts : List Child) : List (Option Name × Json) → List Child
  | [] => ts
  | (n, v) :: ps =>
    mergeMembers (if v.isNull then without ts n else setMember ts n (mergePatch (member ts n) v)) ps
end

section Members

variable {ts ps : List Child} {s : Name}

/-- Members named from the vocabulary, each name once. -/
structure Distinct (V : Vocabulary) (ts : List Child) : Prop where
  names : ∀ c ∈ ts, ∃ n, c.1 = some n ∧ V.mem n
  nodup : (ts.map Prod.fst).Nodup

theorem Distinct.of_tidy (h : Tidy V (.obj ts)) : Distinct V ts := ⟨h.names, h.nodup⟩

theorem find?_congr_mem {α : Type} {l : List α} {f g : α → Bool} (h : ∀ a ∈ l, f a = g a) : l.find? f = l.find? g := by
  induction l with
  | nil => rfl
  | cons a l ih =>
    obtain ⟨ha, hl⟩ := forall_mem_cons.mp h
    rw [find?_cons, find?_cons, ha, ih hl]

theorem getObjectItem_eq_member (h : Distinct V ts) (hs : V.mem s) : getObjectItem ts s = member ts (some s) := by
  rw [getObjectItem, member]
  congr 1
  refine find?_congr_mem fun c hc => ?_
  obtain ⟨n, hn, hmem⟩ := h.names c hc
  rw [Bool.eq_iff_iff, named_iff, decide_eq_true_iff, hn, map_some]
  constructor
  · intro heq
    rw [V.inj n s hmem hs (some_inj.mp heq)]
  · intro heq
    rw [some_inj.mp heq]

theorem distinct_without (h : Distinct V ts) (n : Option Name) : Distinct V (without ts n) :=
  ⟨fun c hc => h.names c (mem_filter.mp hc).1, h.nodup.sublist (filter_sublist.map Prod.fst)⟩

theorem distinct_setMember (h : Distinct V ts) {n : Name} (hn : V.mem n) (v : Json) :
    Distinct V (setMember ts (some n) v) := by
  refine ⟨forall_mem_append.mpr ⟨fun c hc => h.names c (mem_filter.mp hc).1, forall_mem_singleton.mpr ⟨n, rfl, hn⟩⟩, ?_⟩
  rw [setMember, map_append, nodup_append]
  refine ⟨(distinct_without h (some n)).nodup, by simp, ?_⟩
  rintro a ha b hb rfl
  obtain ⟨c, hc, hca⟩ := mem_map.mp ha
  have hne := of_decide_eq_true (mem_filter.mp hc).2
  rw [hca] at hne
  exact hne (by simpa using hb)

theorem member_without (ts : List Child) (n k : Option Name) :
    member (without ts n) k = if n = k then none else member ts k := by
  rw [member, without, find?_filter]
  split
  next h =>
    rw [map_eq_none_iff, find?_eq_none]
    rintro c - hc
    simp [h] at hc
  next h =>
    rw [member]
    congr 1
    refine find?_congr_mem fun c _ => ?_
    by_cases hc : c.1 = k
    · have hne : k ≠ n := fun h' => h h'.symm
      simp [hc, hne]
    · simp [hc]

theorem member_setMember (ts : List Child) (n k : Option Name) (v : Json) :
    member (setMember ts n v) k = if n = k then some v else member ts k := by
  have hfind := member_without ts n k
  rw [member] at hfind
  rw [member, setMember, find?_append, map_or, hfind]
  split
  next h => simp [h]
  next h => simp [h]

def mergedAt (cur : Option Json) : Option Json → Option Json
  | none => cur
  | some v => if v.isNull then none else some (mergePatch cur v)

theorem getObjectItem_mergeMembers (hts : Distinct V ts) (hps : Distinct V ps) (hs : V.mem s) :
    getObjectItem (mergeMembers ts ps) s = mergedAt (getObjectItem ts s) (getObjectItem ps s) := by
  induction ps generalizing ts with
  | nil =>
    have hnone : getObjectItem [] s = none := rfl
    rw [mergeMembers, hnone, mergedAt]
  | cons c ps ih =>
    obtain ⟨k, v⟩ := c
    obtain ⟨n, hkn, hn⟩ := hps.names (k, v) mem_cons_self
    dsimp only at hkn
    subst hkn
    have hnodup := nodup_cons.mp hps.nodup
    have hrest : Distinct V ps := ⟨fun c hc => hps.names c (mem_cons_of_mem _ hc), hnodup.2⟩
    have hnext : Distinct V (if v.isNull then without ts (some n)
        else setMember ts (some n) (mergePatch (member ts (some n)) v)) := by
      split
      · exact distinct_without hts _
      · exact distinct_setMember hts hn _
    rw [mergeMembers, ih hnext hrest, getObjectItem_eq_member hnext hs, getObjectItem_eq_member hrest hs,
      getObjectItem_eq_member hps hs, getObjectItem_eq_member hts hs]
    by_cases hns : n = s
    · subst hns
      have hnone : member ps (some n) = none := by
        rw [member, map_eq_none_iff, find?_eq_none]
        intro c hc hcn
        exact hnodup.1 (mem_map.mpr ⟨c, hc, of_decide_eq_true hcn⟩)
      have hhead : member ((some n, v) :: ps) (some n) = some v := by simp [member]
      rw [hnone, hhead, mergedAt, mergedAt]
      split
      · rw [member_without, if_pos rfl]
      · rw [member_setMember, if_pos rfl]
    · have hne : some n ≠ some s := fun h => hns (some_inj.mp h)
      have hskip : member ((some n, v) :: ps) (some s) = member ps (some s) := by simp [member, hns]
      rw [hskip]
      congr 1
      split
      · rw [member_without, if_neg hne]
      · rw [member_setMember, if_neg hne]

end Members

section View

variable {ts ps : List Child} {q r t : List Name} {s : Name}

theorem tidy_membersOf (h : Tidy V (.obj ts)) (s : Name) : Tidy V (.obj (membersOf (getObjectItem ts s))) := by
  rcases hc : getObjectItem ts s with - | x | cs | us
  · exact tidy_nil
  · exact tidy_nil
  · exact tidy_nil
  · exact h.child hc

theorem view_membersOf (ts : List Child) (s : Name) (hq : q ≠ []) :
    view (.obj (membersOf (getObjectItem ts s))) q = view (.obj ts) (s :: q) := by
  obtain ⟨t, q, rfl⟩ := exists_cons_of_ne_nil hq
  rw [view_cons ts]
  rcases getObjectItem ts s with - | x | cs | us <;> rfl

theorem view_mergeMembers_cons (hts : Tidy V (.obj ts)) (hps : Tidy V (.obj ps)) (hs : V.mem s) (q : List Name) :
    view (.obj (mergeMembers ts ps)) (s :: q) =
      (mergedAt (getObjectItem ts s) (getObjectItem ps s)).bind fun v => view v q := by
  rw [view_cons, getObjectItem_mergeMembers (.of_tidy hts) (.of_tidy hps) hs]

theorem view_mergeMembers (hts : Tidy V (.obj ts)) (hps : Tidy V (.obj ps)) (hq : Spelled V q)
    (h : ∀ r, r <+: q → valueAt (.obj ps) r = none) :
    view (.obj (mergeMembers ts ps)) q = if (view (.obj ps) q).isSome then some none else view (.obj ts) q := by
  induction q generalizing ts ps with
  | nil => rfl
  | cons s q ih =>
    rw [view_mergeMembers_cons hts hps hq.head, view_cons ps]
    have hflat : valueAt (.obj ps) [s] = none := h [s] (by simp)
    rw [valueAt_cons] at hflat
    rcases hc : getObjectItem ps s with - | x | cs | us
    · rw [view_cons ts]
      rfl
    · simp [hc, valueAt, shape, Json.isObj] at hflat
    · simp [hc, valueAt, shape, Json.isObj] at hflat
    · have hbelow : ∀ r, r <+: q → valueAt (.obj us) r = none := by
        intro r hr
        have hcons := h (s :: r) (by simpa using hr)
        rwa [valueAt_cons, hc, bind_some] at hcons
      have hnull : (Json.obj us).isNull = false := rfl
      rw [mergedAt, hnull, if_neg (by simp), bind_some, bind_some, mergePatch,
        ih (tidy_membersOf hts s) (hps.child hc) hq.tail hbelow]
      split
      · rfl
      next hnone =>
        refine view_membersOf ts s ?_
        rintro rfl
        exact hnone rfl

theorem valueAt_flat (hw : w.isObj = false) (h : valueAt w r = some v) : r = [] ∧ w = v := by
  by_cases hr : r = []
  · subst hr
    rw [valueAt_nil_of_not_obj hw] at h
    exact ⟨rfl, some_inj.mp h⟩
  · rw [valueAt_below hw hr] at h
    cases h

theorem mergePatch_flat (hw : w.isObj = false) (cur : Option Json) : mergePatch cur w = w := by
  cases w with
  | obj us => cases hw
  | scalar x => rw [mergePatch]
  | arr cs => rw [mergePatch]

theorem view_mergeMembers_value (hts : Tidy V (.obj ts)) (hps : Tidy V (.obj ps)) (hr : Spelled V r)
    (h : valueAt (.obj ps) r = some v) (t : List Name) :
    view (.obj (mergeMembers ts ps)) (r ++ t) = if v.isNull then none else view v t := by
  induction r generalizing ts ps with
  | nil => cases h
  | cons s r ih =>
    rw [valueAt_cons, bind_eq_some_iff] at h
    obtain ⟨w, hw, hval⟩ := h
    rw [cons_append, view_mergeMembers_cons hts hps hr.head, hw, mergedAt]
    cases ho : w.isObj with
    | true =>
      obtain ⟨us, rfl⟩ : ∃ us, w = .obj us := by
        cases w with
        | obj us => exact ⟨us, rfl⟩
        | scalar x => cases ho
        | arr cs => cases ho
      have hnull : (Json.obj us).isNull = false := rfl
      rw [hnull, if_neg (by simp), bind_some, mergePatch]
      exact ih (tidy_membersOf hts s) (hps.child hw) hr.tail hval
    | false =>
      obtain ⟨rfl, rfl⟩ := valueAt_flat ho hval
      rw [mergePatch_flat ho, nil_append]
      split <;> rfl

theorem mem_without {c : Child} (hc : c ∈ without ts n) : c ∈ ts := (mem_filter.mp hc).1

theorem member_mem (h : member ts n = some v) : ∃ c ∈ ts, c.2 = v := by
  obtain ⟨c, hc, hv⟩ := map_eq_some_iff.mp h
  exact ⟨c, mem_of_find?_eq_some hc, hv⟩

theorem tidy_mergePatch (hv : Tidy V v) {cur : Option Json} (hcur : ∀ w, cur = some w → Tidy V w) :
    Tidy V (mergePatch cur v) := by
  induction hv generalizing cur with
  | scalar x =>
    rw [mergePatch]
    exact .scalar x
  | arr cs =>
    rw [mergePatch]
    exact .arr cs
  | obj ps hname hnodup hval ih =>
    have hstart : Tidy V (.obj (membersOf cur)) := by
      rcases cur with - | x | cs | ts
      · exact tidy_nil
      · exact tidy_nil
      · exact tidy_nil
      · exact hcur _ rfl
    rw [mergePatch]
    clear hnodup hval hcur
    generalize membersOf cur = ts at hstart
    induction ps generalizing ts with
    | nil =>
      rw [mergeMembers]
      exact hstart
    | cons c ps ihps =>
      obtain ⟨k, w⟩ := c
      obtain ⟨n, hkn, hn⟩ := hname (k, w) mem_cons_self
      dsimp only at hkn
      subst hkn
      rw [mergeMembers]
      apply ihps (fun c hc => hname c (mem_cons_of_mem _ hc)) fun c hc => ih c (mem_cons_of_mem _ hc)
      have hdistinct := Distinct.of_tidy hstart
      split
      · exact .obj _ (distinct_without hdistinct _).names (distinct_without hdistinct _).nodup
          fun c hc => hstart.values c (mem_without hc)
      · have hset := distinct_setMember hdistinct hn (mergePatch (member ts (some n)) w)
        refine .obj _ hset.names hset.nodup
          (forall_mem_append.mpr ⟨fun c hc => hstart.values c (mem_without hc), forall_mem_singleton.mpr ?_⟩)
        refine ih (some n, w) mem_cons_self fun u hu => ?_
        obtain ⟨d, hd, rfl⟩ := member_mem hu
        exact hstart.values d hd

theorem tidy_mergeMembers (hts : Tidy V (.obj ts)) (hps : Tidy V (.obj ps)) : Tidy V (.obj (mergeMembers ts ps)) := by
  have hcur : ∀ w, some (Json.obj ts) = some w → Tidy V w := by
    intro w hw
    cases hw
    exact hts
  have htidy := tidy_mergePatch hps hcur
  rwa [mergePatch] at htidy

end View

end Spangap.MergePatch
