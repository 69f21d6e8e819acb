import Spangap.Merge

namespace Spangap.View

open List Option CJson FirstMatch DotPath Merge

/-- The names in use: segments the path parser takes, no two of which differ
only in the case of their letters. -/
structure Vocabulary where
  mem : Name → Bool
  plain : ∀ n, mem n → n ≠ [] ∧ n.length ≤ 95 ∧ (46 : UInt8) ∉ n
  inj : ∀ a b, mem a → mem b → fold a = fold b → a = b

def vocabularyOf (ns : List Name) (hplain : ∀ n ∈ ns, n ≠ [] ∧ n.length ≤ 95 ∧ (46 : UInt8) ∉ n)
    (hinj : ∀ a ∈ ns, ∀ b ∈ ns, fold a = fold b → a = b) : Vocabulary where
  mem n := decide (n ∈ ns)
  plain n hn := hplain n (by simpa using hn)
  inj a b ha hb := hinj a (by simpa using ha) b (by simpa using hb)

variable (V : Vocabulary) {v x : Json} {ks P cs : List Child} {k q ss : List Name} {s n : Name}

/-- Objects whose members are named from the vocabulary, each name once.
Elements of arrays are left alone. -/
inductive Tidy : Json → Prop
  | scalar (x : Scalar) : Tidy (.scalar x)
  | arr (cs : List Child) : Tidy (.arr cs)
  | obj (cs : List Child) (hname : ∀ c ∈ cs, ∃ n, c.1 = some n ∧ V.mem n) (hnodup : (cs.map Prod.fst).Nodup)
      (hval : ∀ c ∈ cs, Tidy c.2) : Tidy (.obj cs)

def Spelled (q : List Name) : Prop := ∀ s ∈ q, V.mem s

variable {V}

theorem tidy_nil : Tidy V (.obj []) := .obj [] (by simp) (by simp) (by simp)

theorem tidy_null : Tidy V .null := .scalar .null

section

variable (h : Tidy V (.obj cs))
include h

theorem Tidy.names : ∀ c ∈ cs, ∃ n, c.1 = some n ∧ V.mem n := by
  cases h with
  | obj _ hname _ _ => exact hname

theorem Tidy.nodup : (cs.map Prod.fst).Nodup := by
  cases h with
  | obj _ _ hnodup _ => exact hnodup

theorem Tidy.values : ∀ c ∈ cs, Tidy V c.2 := by
  cases h with
  | obj _ _ _ hval => exact hval

theorem Tidy.count (s : Name) : cs.countP (named s) ≤ 1 := by
  have hname := h.names
  have hnodup := h.nodup
  clear h
  induction cs with
  | nil => simp
  | cons c cs ih =>
    obtain ⟨hc, hcs⟩ := forall_mem_cons.mp hname
    rw [map_cons, nodup_cons] at hnodup
    cases hs : named s c with
    | false =>
      rw [countP_cons_of_neg (by simp [hs])]
      exact ih hcs hnodup.2
    | true =>
      have hz : cs.countP (named s) = 0 := by
        apply countP_eq_zero.mpr
        intro d hd hds
        obtain ⟨a, hca, ha⟩ := hc
        obtain ⟨b, hdb, hb⟩ := hcs d hd
        have hfold : fold a = fold b := by
          have h1 := named_iff.mp hs
          have h2 := named_iff.mp hds
          rw [hca] at h1
          rw [hdb] at h2
          simpa using h1.trans h2.symm
        apply hnodup.1
        rw [hca, V.inj a b ha hb hfold, ← hdb]
        exact mem_map_of_mem hd
      rw [countP_cons_of_pos hs, hz]

theorem Tidy.child (hv : getObjectItem cs s = some v) : Tidy V v := by
  obtain ⟨c, hc, rfl⟩ := map_eq_some_iff.mp hv
  exact h.values c (mem_of_find?_eq_some hc)

theorem tidy_of_sublist {ds : List Child} (hs : ds.Sublist cs) : Tidy V (.obj ds) :=
  .obj ds (fun c hc => h.names c (hs.subset hc)) (h.nodup.sublist (hs.map Prod.fst))
    (fun c hc => h.values c (hs.subset hc))

theorem tidy_delete (n : Name) : Tidy V (.obj (deleteItemFromObject cs n)) :=
  tidy_of_sublist h eraseP_sublist

theorem tidy_add (hn : V.mem n) (hv : Tidy V v) (hnone : ∀ c ∈ cs, named n c = false) :
    Tidy V (.obj (addItemToObject cs n v)) := by
  refine .obj _ (forall_mem_append.mpr ⟨h.names, forall_mem_singleton.mpr ⟨n, rfl, hn⟩⟩) ?_
    (forall_mem_append.mpr ⟨h.values, forall_mem_singleton.mpr hv⟩)
  rw [addItemToObject, map_append, nodup_append]
  refine ⟨h.nodup, by simp, ?_⟩
  intro a ha b hb hab
  obtain ⟨c, hc, rfl⟩ := mem_map.mp ha
  have hcn : c.1 = some n := by simpa using hab.trans (by simpa using hb)
  have := hnone c hc
  simp [named, hcn] at this

theorem tidy_putLeaf (hn : V.mem n) (hv : Tidy V v) : Tidy V (.obj (putLeaf v n cs)) :=
  tidy_add (tidy_delete h n) hn hv (none_of_eraseP (h.count n))

end

theorem map_fst_updateItem (cs : List Child) (n : Name) (v : Json) :
    (updateItem cs n v).map Prod.fst = cs.map Prod.fst := by
  induction cs with
  | nil => rfl
  | cons c cs ih =>
    cases hc : named n c with
    | true => simp [updateItem, modifyFirst, hc]
    | false =>
      rw [updateItem, modifyFirst_cons_of_neg _ hc, map_cons, map_cons]
      exact congrArg _ ih

theorem tidy_update (h : Tidy V (.obj cs)) (n : Name) (hv : Tidy V v) : Tidy V (.obj (updateItem cs n v)) := by
  refine .obj _ ?_ ?_ ?_
  · intro c hc
    rcases mem_modifyFirst hc with hc | ⟨a, ha, -, rfl⟩
    · exact h.names c hc
    · exact h.names a ha
  · rw [map_fst_updateItem]
    exact h.nodup
  · intro c hc
    rcases mem_modifyFirst hc with hc | ⟨a, -, -, rfl⟩
    · exact h.values c hc
    · exact hv

theorem tidy_mergeItem (hv : Tidy V v) (hn : V.mem n) (h : Tidy V (.obj cs)) : Tidy V (.obj (mergeItem n cs v)) := by
  induction hv generalizing n cs with
  | scalar x => cases x <;> first | exact tidy_delete h n | exact tidy_putLeaf h hn (.scalar _)
  | arr e => exact tidy_putLeaf h hn (.arr e)
  | obj ks hname hnodup hval ih =>
    have hks : Tidy V (.obj ks) := .obj ks hname hnodup hval
    have hmerge : ∀ ds : List Child, Tidy V (.obj ds) → Tidy V (.obj (deepMerge ds ks)) := by
      clear hks hnodup
      induction ks with
      | nil =>
        intro ds hds
        rwa [deepMerge_nil]
      | cons c ks ihk =>
        intro ds hds
        obtain ⟨k, x⟩ := c
        obtain ⟨m, hkm, hm⟩ := hname (k, x) mem_cons_self
        subst hkm
        rw [deepMerge_cons]
        apply ihk (fun c hc => hname c (mem_cons_of_mem _ hc)) (fun c hc => hval c (mem_cons_of_mem _ hc))
          (fun c hc => ih c (mem_cons_of_mem _ hc))
        exact ih (some m, x) mem_cons_self hm hds
    rw [mergeItem_eq]
    rcases hc : getObjectItem cs n with - | x | e | d
    · exact tidy_putLeaf h hn hks
    · exact tidy_putLeaf h hn hks
    · simp only [mergeEdit]
      split
      · exact tidy_update h n (.arr _)
      · exact tidy_putLeaf h hn hks
    · exact tidy_update h n (hmerge d (h.child hc))

theorem tidy_deepMerge (h : Tidy V (.obj cs)) (hP : Tidy V (.obj P)) : Tidy V (.obj (deepMerge cs P)) := by
  have hname := hP.names
  have hval := hP.values
  clear hP
  induction P generalizing cs with
  | nil => rwa [deepMerge_nil]
  | cons c P ih =>
    obtain ⟨k, x⟩ := c
    obtain ⟨m, hkm, hm⟩ := hname (k, x) mem_cons_self
    subst hkm
    rw [deepMerge_cons]
    exact ih (tidy_mergeItem (hval _ mem_cons_self) hm h) (fun c hc => hname c (mem_cons_of_mem _ hc))
      (fun c hc => hval c (mem_cons_of_mem _ hc))

/-- The node a path of member names leads to. Arrays are not entered. -/
def node : Json → List Name → Option Json
  | v, [] => some v
  | .obj cs, s :: q => (getObjectItem cs s).bind fun v => node v q
  | _, _ :: _ => none

def shape (v : Json) : Option Json := if v.isObj then none else some v

/-- What a path finds: nothing, an object, or a value that is not an object. -/
def view (v : Json) (q : List Name) : Option (Option Json) := (node v q).map shape

def valueAt (v : Json) (q : List Name) : Option Json := (view v q).join

section View

variable {d : List Child}

@[simp] theorem view_nil (v : Json) : view v [] = some (shape v) := rfl

theorem view_cons (cs : List Child) (s : Name) (q : List Name) :
    view (.obj cs) (s :: q) = (getObjectItem cs s).bind fun v => view v q := by
  rw [view, node, map_bind]
  rfl

theorem view_below (h : v.isObj = false) (s : Name) (q : List Name) : view v (s :: q) = none := by
  cases v with
  | obj cs => simp [Json.isObj] at h
  | scalar x => rfl
  | arr cs => rfl

theorem valueAt_cons (cs : List Child) (s : Name) (q : List Name) :
    valueAt (.obj cs) (s :: q) = (getObjectItem cs s).bind fun v => valueAt v q := by
  rw [valueAt, view_cons]
  cases getObjectItem cs s <;> rfl

theorem valueAt_below (h : v.isObj = false) (hq : q ≠ []) : valueAt v q = none := by
  obtain ⟨s, q, rfl⟩ := exists_cons_of_ne_nil hq
  rw [valueAt, view_below h]
  rfl

theorem valueAt_nil_of_not_obj (h : v.isObj = false) : valueAt v [] = some v := by
  simp [valueAt, shape, h]

theorem valueAt_nil_obj (cs : List Child) : valueAt (.obj cs) [] = none := rfl

theorem eq_of_valueAt_nil (h : valueAt v [] = some x) : v = x := by
  cases v with
  | obj cs => simp [valueAt_nil_obj] at h
  | scalar y => exact some.inj h
  | arr cs => exact some.inj h

theorem obj_of_valueAt (hq : q ≠ []) (h : valueAt v q = some x) : ∃ cs, v = .obj cs := by
  cases v with
  | obj cs => exact ⟨cs, rfl⟩
  | scalar y => exact absurd ((valueAt_below rfl hq).symm.trans h) nofun
  | arr cs => exact absurd ((valueAt_below rfl hq).symm.trans h) nofun

theorem obj_of_view (h : view v q = some none) : ∃ cs, v = .obj cs := by
  cases v with
  | obj cs => exact ⟨cs, rfl⟩
  | scalar y => cases q <;> cases h
  | arr cs => cases q <;> cases h

theorem view_append_of_valueAt {r : List Name} (h : valueAt v r = some x) (hq : q ≠ []) : view v (r ++ q) = none := by
  induction r generalizing v with
  | nil =>
    obtain ⟨t, q, rfl⟩ := exists_cons_of_ne_nil hq
    cases hv : v.isObj with
    | true =>
      cases v <;> simp [Json.isObj] at hv
      simp [valueAt_nil_obj] at h
    | false => exact view_below hv t q
  | cons t r ih =>
    cases v with
    | scalar y => rfl
    | arr cs => rfl
    | obj cs =>
      rw [valueAt_cons, bind_eq_some_iff] at h
      obtain ⟨w, hw, h⟩ := h
      rw [cons_append, view_cons, hw, bind_some]
      exact ih h

def hit (P : List Child) : List Name → Bool
  | [] => true
  | s :: q =>
    match getObjectItem P s with
    | none => false
    | some (.obj Q) => hit Q q
    | some _ => true

theorem view_of_not_hit (h : hit P q = false) : view (.obj P) q = none := by
  induction q generalizing P with
  | nil => simp [hit] at h
  | cons s q ih =>
    rw [view_cons]
    rcases hc : getObjectItem P s with - | x | e | Q
    · rfl
    · simp [hit, hc] at h
    · simp [hit, hc] at h
    · simp only [hit, hc] at h
      exact ih h

theorem ne_nil_of_not_hit (h : hit P q = false) : q ≠ [] := by
  rintro rfl
  simp [hit] at h

section

variable (hd : Tidy V (.obj d)) (hP : Tidy V (.obj P))
include hd hP

theorem view_deepMerge (h : hit P q = false) : view (.obj (deepMerge d P)) q = view (.obj d) q := by
  induction q generalizing d P with
  | nil => simp [hit] at h
  | cons s q ih =>
    rw [view_cons, view_cons, getObjectItem_deepMerge_eq (hd.count s) (hP.count s)]
    rcases hc : getObjectItem P s with - | x | e | Q
    · rfl
    · simp [hit, hc] at h
    · simp [hit, hc] at h
    · simp only [hit, hc] at h
      obtain ⟨t, r, rfl⟩ := exists_cons_of_ne_nil (ne_nil_of_not_hit h)
      have hnone := view_of_not_hit h
      rcases hg : getObjectItem d s with - | x | e | k
      · exact hnone
      · exact hnone
      · simp only [mergeAt, graft, bind_some]
        split
        · rfl
        · exact hnone
      · exact ih (hd.child hg) (hP.child hc) h

theorem valueAt_deepMerge
    (h : valueAt (.obj (deepMerge d P)) q ≠ none) : valueAt (.obj d) q ≠ none ∨ valueAt (.obj P) q ≠ none := by
  induction q generalizing d P with
  | nil => exact absurd rfl h
  | cons s q ih =>
    rw [valueAt_cons, getObjectItem_deepMerge_eq (hd.count s) (hP.count s)] at h
    rw [valueAt_cons, valueAt_cons]
    rcases hc : getObjectItem P s with - | x | e | Q
    · rw [hc] at h
      exact .inl h
    · rw [hc] at h
      cases x with
      | null => exact absurd rfl h
      | bool b | num b | str b => exact .inr h
    · rw [hc] at h
      exact .inr h
    · rw [hc] at h
      rcases hg : getObjectItem d s with - | x | e | k
      · rw [hg] at h
        exact .inr h
      · rw [hg] at h
        exact .inr h
      · rw [hg] at h
        simp only [mergeAt, graft, bind_some] at h
        split at h
        · left
          by_cases hq : q = []
          · subst q
            rw [bind_some, valueAt_nil_of_not_obj rfl]
            simp
          · exact absurd (valueAt_below rfl hq) h
        · exact .inr h
      · rw [hg] at h
        exact ih (hd.child hg) (hP.child hc) h

theorem view_deepMerge_below_null
    (hk : valueAt (.obj P) k = some .null) (hq : q ≠ []) : view (.obj (deepMerge d P)) (k ++ q) = none := by
  induction k generalizing d P with
  | nil => simp [valueAt_nil_obj] at hk
  | cons s k ih =>
    rw [valueAt_cons, bind_eq_some_iff] at hk
    obtain ⟨x, hx, hk⟩ := hk
    rw [cons_append, view_cons, getObjectItem_deepMerge_eq (hd.count s) (hP.count s), hx]
    have hbelow : ∀ y : Json, y.isObj = false → view y (k ++ q) = none := by
      intro y hy
      obtain ⟨t, r, ht⟩ := exists_cons_of_ne_nil (show k ++ q ≠ [] by simp [hq])
      rw [ht]
      exact view_below hy t r
    rcases x with (- | b | w | b) | e | Q
    · rfl
    · exact hbelow _ rfl
    · exact hbelow _ rfl
    · exact hbelow _ rfl
    · exact hbelow _ rfl
    · rcases hg : getObjectItem d s with - | x | e | m
      · exact view_append_of_valueAt hk hq
      · exact view_append_of_valueAt hk hq
      · simp only [mergeAt, graft, bind_some]
        split
        · exact hbelow _ rfl
        · exact view_append_of_valueAt hk hq
      · exact ih (hd.child hg) (hP.child hx) hk

theorem view_deepMerge_null (hk : valueAt (.obj P) k = some .null) (hparent : view (.obj d) k.dropLast = some none) :
    view (.obj (deepMerge d P)) k = none := by
  induction k generalizing d P with
  | nil => simp [valueAt_nil_obj] at hk
  | cons s k ih =>
    rw [valueAt_cons, bind_eq_some_iff] at hk
    obtain ⟨x, hx, hk⟩ := hk
    rw [view_cons, getObjectItem_deepMerge_eq (hd.count s) (hP.count s), hx]
    by_cases hnil : k = []
    · subst k
      obtain rfl := eq_of_valueAt_nil hk
      rfl
    · obtain ⟨Q, rfl⟩ := obj_of_valueAt hnil hk
      rw [dropLast_cons_of_ne_nil hnil, view_cons, bind_eq_some_iff] at hparent
      obtain ⟨y, hy, hparent⟩ := hparent
      obtain ⟨m, rfl⟩ := obj_of_view hparent
      rw [hy]
      exact ih (hd.child hy) (hP.child hx) hk hparent

end

end View

section Write

variable {t : Name}

theorem plain_of_spelled (hk : Spelled V k) (hne : k ≠ []) : Plain k :=
  ⟨hne, fun s hs => ⟨(V.plain s (hk s hs)).1, (V.plain s (hk s hs)).2.1⟩⟩

theorem Spelled.head (h : Spelled V (s :: ss)) : V.mem s := h s mem_cons_self

theorem Spelled.append {a b : List Name} (ha : Spelled V a) (hb : Spelled V b) : Spelled V (a ++ b) :=
  forall_mem_append.mpr ⟨ha, hb⟩

theorem Spelled.cons (hs : V.mem s) (h : Spelled V ss) : Spelled V (s :: ss) := forall_mem_cons.mpr ⟨hs, h⟩

theorem Spelled.mono {a b : List Name} (hb : Spelled V b) (h : a <+: b) : Spelled V a :=
  fun s hs => hb s (h.subset hs)

theorem Spelled.tail (h : Spelled V (s :: ss)) : Spelled V ss := fun t ht => h t (mem_cons_of_mem s ht)

def written (v : Json) (ss : List Name) (cur : Option Json) : Json :=
  if ss = [] then v
  else
    match cur with
    | some (.obj ks) => .obj (navigateOrCreate (putLeaf v) ss ks)
    | some (.arr ks) => .arr (navigateOrCreate (putLeaf v) ss ks)
    | some (.scalar _) => .obj (navigateOrCreate (putLeaf v) ss [])
    | none => .obj (navigateOrCreate (putLeaf v) ss [])

theorem navigateOrCreate_edit (hk : Plain (s :: ss)) (P : List Child) (v : Json) :
    navigateOrCreate (putLeaf v) (s :: ss) P = putLeaf (written v ss (getObjectItem P s)) s P ∨
      (∃ u, getObjectItem P s = some u) ∧
        navigateOrCreate (putLeaf v) (s :: ss) P = updateItem P s (written v ss (getObjectItem P s)) := by
  obtain ⟨hne, hlen⟩ := hk.2 s mem_cons_self
  rw [navigateOrCreate, if_neg hne, if_neg (by omega)]
  by_cases hss : ss = []
  · unfold written
    rw [if_pos hss, if_pos hss]
    exact .inl rfl
  · unfold written
    rw [if_neg hss, if_neg hss]
    rcases hc : getObjectItem P s with - | x | e | d
    · left
      rw [putLeaf_of_none (none_of_getObjectItem hc)]
      rfl
    · exact .inl rfl
    · exact .inr ⟨⟨_, rfl⟩, rfl⟩
    · exact .inr ⟨⟨_, rfl⟩, rfl⟩

theorem getObjectItem_write (hP : Tidy V (.obj P)) (hk : Plain (s :: ss)) (t : Name) :
    getObjectItem (navigateOrCreate (putLeaf v) (s :: ss) P) t =
      if fold s = fold t then some (written v ss (getObjectItem P s)) else getObjectItem P t := by
  rcases navigateOrCreate_edit hk P v with he | ⟨⟨u, hu⟩, he⟩
  · rw [he]
    split
    next h => exact getObjectItem_apply_put h (hP.count t) _
    next h => exact getObjectItem_apply h (.put _) P
  · rw [he]
    split
    next h =>
      rw [getObjectItem_congr h.symm]
      exact getObjectItem_updateItem _ hu
    next h => exact getObjectItem_apply h (.update _) P

theorem tidy_write (hP : Tidy V (.obj P)) (hk : Spelled V k) (hv : Tidy V v) :
    Tidy V (.obj (navigateOrCreate (putLeaf v) k P)) := by
  induction k generalizing P with
  | nil => exact hP
  | cons s ss ih =>
    have hw : Tidy V (written v ss (getObjectItem P s)) := by
      unfold written
      split
      · exact hv
      · split
        next ks hc => exact ih (hP.child hc) hk.tail
        · exact .arr _
        · exact ih tidy_nil hk.tail
        · exact ih tidy_nil hk.tail
    rcases navigateOrCreate_edit (plain_of_spelled hk (by simp)) P v with he | ⟨-, he⟩
    · rw [he]
      exact tidy_putLeaf hP hk.head hw
    · rw [he]
      exact tidy_update hP s hw

/-- No value that is not an object stands on the way to the path. -/
def Clear (P : List Child) (k : List Name) : Prop := ∀ r, r <+: k → r ≠ k → valueAt (.obj P) r = none

theorem Clear.tail (h : Clear P (s :: ss)) (hc : getObjectItem P s = some (.obj ks)) : Clear ks ss := by
  intro r hr hne
  have := h (s :: r) (cons_prefix_cons.mpr ⟨rfl, hr⟩) (by simpa using hne)
  rwa [valueAt_cons, hc, bind_some] at this

theorem Clear.obj (h : Clear P (s :: ss)) (hss : ss ≠ []) {u : Json} (hc : getObjectItem P s = some u) :
    ∃ ks, u = .obj ks := by
  have := h [s] (by simp) (by simpa using hss.symm)
  rw [valueAt_cons, hc, bind_some] at this
  cases u with
  | obj ks => exact ⟨ks, rfl⟩
  | scalar x => simp [valueAt_nil_of_not_obj (v := .scalar x) rfl] at this
  | arr e => simp [valueAt_nil_of_not_obj (v := .arr e) rfl] at this

theorem valueAt_obj_nil (q : List Name) : valueAt (.obj []) q = none := by
  cases q with
  | nil => rfl
  | cons s r => rw [valueAt_cons]; rfl

/-- No array of the members stands above the end of the path. -/
def Open (P : List Child) (k : List Name) : Prop :=
  ∀ r, r <+: k → r ≠ k → ∀ es, valueAt (.obj P) r ≠ some (.arr es)

theorem Open.tail (h : Open P (s :: ss)) (hc : getObjectItem P s = some (.obj ks)) : Open ks ss := by
  intro r hr hne es hes
  apply h (s :: r) (cons_prefix_cons.mpr ⟨rfl, hr⟩) (by simpa using hne) es
  rwa [valueAt_cons, hc, bind_some]

theorem Clear.noArr (h : Clear P k) : Open P k := by
  intro r hr hne es
  rw [h r hr hne]
  simp

theorem open_nil (k : List Name) : Open [] k := by
  intro r _ _ es
  rw [valueAt_obj_nil]
  simp

section

variable (hP : Tidy V (.obj P)) (hk : Spelled V k) (hne : k ≠ [])
include hP hk hne

theorem view_write (ho : Open P k) (hq : Spelled V q) : view (.obj (navigateOrCreate (putLeaf v) k P)) q =
      if k <+: q then view v (q.drop k.length) else if q <+: k then some none else view (.obj P) q := by
  induction k generalizing P q with
  | nil => exact absurd rfl hne
  | cons s ss ih =>
    cases q with
    | nil => simp [shape, Json.isObj]
    | cons t q =>
      rw [view_cons, getObjectItem_write hP (plain_of_spelled hk hne)]
      by_cases hst : fold s = fold t
      · have heq : s = t := V.inj s t hk.head hq.head hst
        subst heq
        rw [if_pos rfl, bind_some, view_cons]
        unfold written
        simp only [cons_prefix_cons, true_and, length_cons, drop_succ_cons]
        by_cases hss : ss = []
        · subst hss
          simp
        · have hqss : ¬ q <+: ss → ∃ u q', q = u :: q' := by
            intro h
            refine exists_cons_of_ne_nil ?_
            rintro rfl
            exact h nil_prefix
          have hfresh : ∀ w : Option Json, (∀ u q', w.bind (fun w => view w (u :: q')) = none) →
              view (.obj (navigateOrCreate (putLeaf v) ss [])) q = if ss <+: q then view v (q.drop ss.length)
                else if q <+: ss then some none else w.bind fun w => view w q := by
            intro w hw
            rw [ih tidy_nil hk.tail hss (open_nil ss) hq.tail]
            split
            · rfl
            · split
              · rfl
              next hq' =>
                obtain ⟨u, q', rfl⟩ := hqss hq'
                rw [hw]
                rfl
          rw [if_neg hss]
          rcases hg : getObjectItem P s with - | x | es | ks
          · exact hfresh none fun _ _ => rfl
          · exact hfresh (some (.scalar x)) fun _ _ => rfl
          · refine absurd ?_ (ho [s] (by simp) (by simpa using Ne.symm hss) es)
            rw [valueAt_cons, hg, bind_some, valueAt_nil_of_not_obj rfl]
          · exact ih (hP.child hg) hk.tail hss (ho.tail hg) hq.tail
      · have hts : s ≠ t := fun h => hst (h ▸ rfl)
        rw [if_neg hst, view_cons, if_neg, if_neg]
        · exact fun h => hts (cons_prefix_cons.mp h).1.symm
        · exact fun h => hts (cons_prefix_cons.mp h).1

/-- A write that goes into an array changes that array and nothing else. -/
theorem view_write_shut {r : List Name} {es : List Child} (hr : r <+: k) (hrk : r ≠ k)
    (hes : valueAt (.obj P) r = some (.arr es)) (hq : Spelled V q) :
    view (.obj (navigateOrCreate (putLeaf v) k P)) q = view (.obj P) q ∨ (q <+: k ∧ q ≠ k) ∧
      (∃ es, view (.obj (navigateOrCreate (putLeaf v) k P)) q = some (some (.arr es))) ∧
      ∃ es, view (.obj P) q = some (some (.arr es)) := by
  induction k generalizing P q r with
  | nil => exact absurd rfl hne
  | cons s ss ih =>
    obtain - | ⟨s', r⟩ := r
    · cases hes
    obtain ⟨rfl, hrest⟩ := cons_prefix_cons.mp hr
    have hrs : r ≠ ss := fun h => hrk (h ▸ rfl)
    have hss : ss ≠ [] := by
      rintro rfl
      exact hrs (prefix_nil.mp hrest)
    rw [valueAt_cons] at hes
    obtain ⟨w, hw, hes⟩ := bind_eq_some_iff.mp hes
    cases q with
    | nil => exact .inl rfl
    | cons t q =>
      rw [view_cons, view_cons, getObjectItem_write hP (plain_of_spelled hk hne)]
      by_cases hst : fold s' = fold t
      · have heq : s' = t := V.inj s' t hk.head hq.head hst
        subst heq
        unfold written
        rw [if_pos rfl, hw, if_neg hss]
        simp only [bind_some, cons_prefix_cons, true_and, ne_eq, cons.injEq]
        cases w with
        | scalar x => cases r <;> cases hes
        | obj ks => exact ih (hP.child hw) hk.tail hss hrest hrs hes hq.tail
        | arr ks =>
          cases q with
          | nil => exact .inr ⟨⟨ nil_prefix, hss.symm⟩, ⟨_, rfl⟩, _, rfl⟩
          | cons u q => exact .inl rfl
      · rw [if_neg hst]
        exact .inl rfl

theorem valueAt_write (hc : Clear P k) (hq : Spelled V q) : valueAt (.obj (navigateOrCreate (putLeaf v) k P)) q =
      if k <+: q then valueAt v (q.drop k.length) else valueAt (.obj P) q := by
  rw [valueAt, view_write hP hk hne hc.noArr hq]
  split
  · rfl
  next hpre =>
    split
    next hqk =>
      refine (hc q hqk ?_).symm
      rintro rfl
      exact hpre hqk
    · rfl

/-- A value found after a write is of the value written, or was there before,
or is an array that the write went into. -/
theorem valueAt_write_cases (hq : Spelled V q) (h : valueAt (.obj (navigateOrCreate (putLeaf v) k P)) q = some x) :
    (k <+: q ∧ valueAt v (q.drop k.length) = some x) ∨
      ∃ y, valueAt (.obj P) q = some y ∧ (x = y ∨ x.isArr = true) := by
  induction k generalizing P q with
  | nil => exact absurd rfl hne
  | cons s ss ih =>
    cases q with
    | nil => simp [valueAt_nil_obj] at h
    | cons t q =>
      rw [valueAt_cons, getObjectItem_write hP (plain_of_spelled hk hne)] at h
      by_cases hst : fold s = fold t
      · have heq : s = t := V.inj s t hk.head hq.head hst
        subst heq
        rw [if_pos rfl, bind_some] at h
        unfold written at h
        simp only [cons_prefix_cons, true_and, length_cons, drop_succ_cons, valueAt_cons]
        by_cases hss : ss = []
        · subst hss
          left
          simpa using h
        · rw [if_neg hss] at h
          have hnew : valueAt (.obj (navigateOrCreate (putLeaf v) ss [])) q = some x →
              ss <+: q ∧ valueAt v (q.drop ss.length) = some x := by
            intro h
            rcases ih tidy_nil hk.tail hss hq.tail h with h | ⟨y, hy, -⟩
            · exact h
            · simp [valueAt_obj_nil] at hy
          rcases hg : getObjectItem P s with - | z | e | ks
          · rw [hg] at h
            exact .inl (hnew h)
          · rw [hg] at h
            exact .inl (hnew h)
          · rw [hg] at h
            right
            by_cases hqn : q = []
            · subst hqn
              exact ⟨.arr e, rfl, .inr (eq_of_valueAt_nil h ▸ rfl)⟩
            · rw [valueAt_below rfl hqn] at h
              cases h
          · rw [hg] at h
            exact ih (hP.child hg) hk.tail hss hq.tail h
      · rw [if_neg hst, ← valueAt_cons] at h
        exact .inr ⟨x, h, .inl rfl⟩

end

end Write

/-- No object is empty, so that every one of them has a value below it. -/
inductive Full : Json → Prop
  | scalar (x : Scalar) : Full (.scalar x)
  | arr (cs : List Child) : Full (.arr cs)
  | obj (cs : List Child) (hne : cs ≠ []) (hval : ∀ c ∈ cs, Full c.2) : Full (.obj cs)

theorem getObjectItem_of_mem (hP : Tidy V (.obj P)) (h : (some n, v) ∈ P) : getObjectItem P n = some v := by
  obtain ⟨A, B, rfl⟩ := append_of_mem h
  have hn : named n (some n, v) = true := named_some.mpr rfl
  have hcount := hP.count n
  rw [countP_append, countP_cons_of_pos hn] at hcount
  have hA : ∀ c ∈ A, named n c = false := by
    intro c hc
    have hz : A.countP (named n) = 0 := by omega
    simpa using countP_eq_zero.mp hz c hc
  rw [getObjectItem, find?_append, find?_of_none hA, find?_cons_of_pos hn]
  rfl

theorem exists_valueAt (hf : Full v) (ht : Tidy V v) : ∃ r, Spelled V r ∧ valueAt v r ≠ none := by
  induction hf with
  | scalar x => exact ⟨[], by simp [Spelled], by simp [valueAt_nil_of_not_obj (v := .scalar x) rfl]⟩
  | arr cs => exact ⟨[], by simp [Spelled], by simp [valueAt_nil_of_not_obj (v := .arr cs) rfl]⟩
  | obj cs hne hval ih =>
    obtain ⟨c, cs', rfl⟩ := exists_cons_of_ne_nil hne
    obtain ⟨r, hr, hv⟩ := ih c mem_cons_self (ht.values c mem_cons_self)
    obtain ⟨n, hn, hmem⟩ := ht.names c mem_cons_self
    obtain ⟨m, x⟩ := c
    subst hn
    refine ⟨n :: r, hr.cons hmem, ?_⟩
    rw [valueAt_cons, getObjectItem_of_mem ht mem_cons_self]
    exact hv

theorem exists_value_of_hit (hP : Tidy V (.obj P)) (hf : ∀ c ∈ P, Full c.2) (hq : Spelled V q)
    (hne : P ≠ [] ∨ q ≠ []) (h : hit P q = true) :
    ∃ r, Spelled V r ∧ valueAt (.obj P) r ≠ none ∧ (r <+: q ∨ q <+: r) := by
  induction q generalizing P with
  | nil =>
    rcases hne with hne | hne
    · obtain ⟨r, hr, hv⟩ := exists_valueAt (.obj P hne hf) hP
      exact ⟨r, hr, hv, .inr List.nil_prefix⟩
    · exact absurd rfl hne
  | cons s q ih =>
    have hmem : ∀ {x : Json}, getObjectItem P s = some x → Full x := by
      intro x hx
      obtain ⟨c, hc, rfl⟩ := map_eq_some_iff.mp hx
      exact hf c (mem_of_find?_eq_some hc)
    have hleaf : ∀ {x : Json}, x.isObj = false → getObjectItem P s = some x →
        ∃ r, Spelled V r ∧ valueAt (.obj P) r ≠ none ∧ (r <+: s :: q ∨ s :: q <+: r) := by
      intro x hx hg
      refine ⟨[s], by simpa [Spelled] using hq.head, ?_, .inl (by simp)⟩
      rw [valueAt_cons, hg, bind_some, valueAt_nil_of_not_obj hx]
      simp
    rcases hc : getObjectItem P s with - | x | e | Q
    · simp [hit, hc] at h
    · exact hleaf rfl hc
    · exact hleaf rfl hc
    · simp only [hit, hc] at h
      cases hmem hc with
      | obj _ hQ hval =>
        obtain ⟨r, hr, hv, hrel⟩ := ih (hP.child hc) hval hq.tail (.inl hQ) h
        refine ⟨s :: r, hr.cons hq.head, ?_, ?_⟩
        · rw [valueAt_cons, hc]
          exact hv
        · simpa [cons_prefix_cons] using hrel

theorem write_ne_nil (hk : Plain (s :: ss)) (P : List Child) (v : Json) :
    navigateOrCreate (putLeaf v) (s :: ss) P ≠ [] := by
  rcases navigateOrCreate_edit hk P v with he | ⟨⟨u, hu⟩, he⟩
  · rw [he, putLeaf, addItemToObject]
    simp
  · rw [he]
    intro hnil
    have := getObjectItem_updateItem (written v ss (getObjectItem P s)) hu
    rw [hnil] at this
    simp [getObjectItem] at this

theorem full_write (hf : ∀ c ∈ P, Full c.2) (hk : Spelled V k) (hv : Full v) :
    ∀ c ∈ navigateOrCreate (putLeaf v) k P, Full c.2 := by
  induction k generalizing P with
  | nil => exact hf
  | cons s ss ih =>
    have hobj : ss ≠ [] → ∀ Q : List Child, (∀ c ∈ Q, Full c.2) → Full (.obj (navigateOrCreate (putLeaf v) ss Q)) := by
      intro hss Q hQ
      refine .obj _ ?_ (ih hQ hk.tail)
      obtain ⟨t, ts, rfl⟩ := exists_cons_of_ne_nil hss
      exact write_ne_nil (plain_of_spelled hk.tail hss) Q v
    have hw : Full (written v ss (getObjectItem P s)) := by
      unfold written
      split
      · exact hv
      next hss =>
        split
        next ks hc =>
          obtain ⟨c, hc, hce⟩ := map_eq_some_iff.mp hc
          have hfull := hf c (mem_of_find?_eq_some hc)
          rw [hce] at hfull
          cases hfull with
          | obj _ _ hval => exact hobj hss ks hval
        · exact .arr _
        · exact hobj hss [] (by simp)
        · exact hobj hss [] (by simp)
    rcases navigateOrCreate_edit (plain_of_spelled hk (by simp)) P v with he | ⟨-, he⟩
    · rw [he]
      exact forall_mem_append.mpr ⟨fun c hc => hf c (mem_of_mem_eraseP hc), forall_mem_singleton.mpr hw⟩
    · rw [he]
      intro c hc
      rcases mem_modifyFirst hc with hc | ⟨a, -, -, rfl⟩
      · exact hf c hc
      · exact hw

def LeafOf (v : Json) (l : List Step × Scalar) (q : List Name) : Prop :=
  ∃ x, valueAt v q = some x ∧ ∃ m ∈ leaves x, l = (q.map (fun n => Step.key (some n)) ++ m.1, m.2)

theorem leafOf_flat (hv : v.isObj = false) (l : List Step × Scalar) :
    l ∈ leaves v ↔ ∃ q, Spelled V q ∧ LeafOf v l q := by
  constructor
  · intro h
    exact ⟨[], by simp [Spelled], v, valueAt_nil_of_not_obj hv, l, h, rfl⟩
  · rintro ⟨q, -, x, hx, m, hm, rfl⟩
    by_cases hq : q = []
    · subst hq
      rwa [eq_of_valueAt_nil hx]
    · rw [valueAt_below hv hq] at hx
      simp at hx

theorem mem_leaves_iff (hv : Tidy V v) (l : List Step × Scalar) : l ∈ leaves v ↔ ∃ q, Spelled V q ∧ LeafOf v l q := by
  induction hv generalizing l with
  | scalar x => exact leafOf_flat rfl l
  | arr cs => exact leafOf_flat rfl l
  | obj cs hname hnodup hval ih =>
    have ht : Tidy V (.obj cs) := .obj cs hname hnodup hval
    rw [leaves, mem_memberLeaves]
    constructor
    · rintro ⟨c, hc, m, hm, rfl⟩
      obtain ⟨n, hn, hmem⟩ := hname c hc
      obtain ⟨q, hq, x, hx, l, hl, rfl⟩ := (ih c hc m).mp hm
      refine ⟨n :: q, hq.cons hmem, x, ?_, l, hl, by simp [hn]⟩
      have hc' : (some n, c.2) ∈ cs := hn ▸ hc
      rw [valueAt_cons, getObjectItem_of_mem ht hc']
      exact hx
    · rintro ⟨q, hq, x, hx, m, hm, rfl⟩
      cases q with
      | nil => simp [valueAt_nil_obj] at hx
      | cons n q =>
        rw [valueAt_cons, bind_eq_some_iff] at hx
        obtain ⟨w, hw, hx⟩ := hx
        obtain ⟨c, hc, rfl⟩ := map_eq_some_iff.mp hw
        have hmem := mem_of_find?_eq_some hc
        obtain ⟨a, ha, haV⟩ := hname c hmem
        have han : a = n := by
          have hnamed := find?_some hc
          rw [named_iff, ha] at hnamed
          exact V.inj a n haV hq.head (by simpa using hnamed)
        refine ⟨c, hmem, (q.map (fun n => Step.key (some n)) ++ m.1, m.2), ?_, by simp [ha, han]⟩
        exact (ih c hmem _).mpr ⟨q, hq.tail, x, hx, m, hm, rfl⟩

end Spangap.View
