import Spangap.Landing

namespace Spangap.Regions

open List Option CJson FirstMatch DotPath Merge Commit Persist View Attach Landing

variable {V : Vocabulary} {pats : List (List Name)} {es : List External} {σ : State} {ops : List Op} {r q : List Name}
  {o : Op} {e : External}

def prefixes (es : List External) : List (List Name) := es.map fun e => segments e.pre

def Topmost (es : List External) (E : List Name) : Prop := ∀ D ∈ prefixes es, D <+: E → D = E
  deriving Decidable

/-- A registered prefix is at or above the path. -/
def Covered (es : List External) (q : List Name) : Prop := ∃ E ∈ prefixes es, E <+: q
  deriving Decidable

theorem Topmost.above {D E : List Name} (h : Topmost es E) (hD : D ∈ prefixes es) (hDq : D <+: q) (hEq : E <+: q) :
    E <+: D := by
  rcases prefix_or_prefix_of_prefix hEq hDq with h' | h'
  · exact h'
  · exact h D hD h' ▸ prefix_refl _

theorem exists_topmost (h : Covered es q) : ∃ e ∈ es, segments e.pre <+: q ∧ Topmost es (segments e.pre) := by
  classical
  have hlen : ∃ n, ∃ e ∈ es, segments e.pre <+: q ∧ (segments e.pre).length = n := by
    obtain ⟨E, hE, hEq⟩ := h
    obtain ⟨e, he, rfl⟩ := mem_map.mp hE
    exact ⟨_, e, he, hEq, rfl⟩
  obtain ⟨e, he, heq, hn⟩ := Nat.find_spec hlen
  refine ⟨e, he, heq, ?_⟩
  intro D hD hDE
  obtain ⟨d, hd, rfl⟩ := mem_map.mp hD
  apply hDE.eq_of_length_le
  rw [hn]
  exact Nat.find_min' hlen ⟨d, hd, hDE.trans heq, rfl⟩

section Keys

variable {a b : Name}

theorem segments_joined (hr : Spelled V r) (hne : r ≠ []) : segments (r.foldl extend []) = r :=
  segments_foldl_extend (fun s hs => ⟨(V.plain s (hr s hs)).1, (V.plain s (hr s hs)).2.2⟩) hne

section

variable (ha : Spelled V (segments a))
include ha

theorem joined_segments : (segments a).foldl extend [] = a :=
  foldl_extend_segments (plain_of_spelled ha (segments_ne_nil a))

theorem key_ne_nil : a ≠ [] := by
  rintro rfl
  exact (V.plain [] (ha [] (by simp [segments]))).1 rfl

theorem stripDots_of_spelled : stripDots a = a := by
  rcases eq_nil_or_concat a with rfl | ⟨b, c, rfl⟩
  · rfl
  · by_cases hc : c = 46
    · subst hc
      have hempty : ([] : Name) ∈ segments (b.concat 46) := by
        rw [concat_eq_append, segments_append_dot]
        simp [segments]
      exact absurd rfl (V.plain [] (ha [] hempty)).1
    · simp [stripDots, hc]

theorem deletedUnder_iff (hb : Spelled V (segments b)) : deletedUnder a b = true ↔ segments a <+: segments b := by
  rw [deletedUnder, stripDots_of_spelled ha, decide_eq_true (key_ne_nil ha), Bool.true_and, Bool.or_eq_true,
    beq_iff_eq, isPrefixOf_iff_prefix]
  constructor
  · rintro (rfl | ⟨t, rfl⟩)
    · exact prefix_refl _
    · rw [append_assoc, singleton_append, segments_append_dot]
      exact prefix_append _ _
  · rintro ⟨ts, hts⟩
    have hjoin : b = ts.foldl extend a := by
      rw [← joined_segments hb, ← hts, foldl_append, joined_segments ha]
    rw [hjoin, foldl_extend (key_ne_nil ha)]
    cases ts with
    | nil => simp
    | cons t ts => simp

end

end Keys

/-- The segments of a key start at one of the namespaces kept in files. -/
def Kept (q : List Name) : Prop := ∃ p ∈ savedNames, q.head? = some p
  deriving Decidable

theorem persistent_joined (hr : Spelled V r) (hkept : Kept r) (hlen : 2 ≤ r.length) :
    persistent (r.foldl extend []) = true := by
  obtain ⟨p, hp, hhead⟩ := hkept
  match r with
  | [] => simp at hlen
  | [_] => simp at hlen
  | s :: t :: ts =>
    obtain rfl : s = p := by simpa using hhead
    have hne : s ≠ [] := (V.plain s hr.head).1
    rw [foldl_cons, extend, if_pos rfl, foldl_extend hne, map_cons, flatten_cons, persistent,
      Bool.or_eq_true, isPrefixOf_iff_prefix, isPrefixOf_iff_prefix]
    simp only [savedNames, mem_cons, not_mem_nil, or_false] at hp
    rcases hp with rfl | rfl
    · exact .inl ⟨t ++ (ts.map (46 :: ·)).flatten, by simp [lit]⟩
    · exact .inr ⟨t ++ (ts.map (46 :: ·)).flatten, by simp [lit]⟩

section Marks

variable {P : List Child}

theorem passed_of_not_mem {c : List Name} (hc : Spelled V c) (h : c ∉ prefixes es) :
    Passed (es.map External.pre) (c.foldl extend []) := by
  by_cases hne : c = []
  · exact .inl (by simp [hne])
  · right
    intro hmem
    obtain ⟨e, he, hpre⟩ := mem_map.mp hmem
    apply h
    rw [← segments_joined hc hne, ← hpre]
    exact mem_map_of_mem he

theorem armed_of_valueAt (hkept : Kept r) (h : valueAt (.obj P) r ≠ none) : armed P = true := by
  obtain ⟨p, hp, hhead⟩ := hkept
  cases r with
  | nil => simp at hhead
  | cons s r =>
    obtain rfl : s = p := by simpa using hhead
    have hsome : (getObjectItem P s).isSome = true := by
      rw [valueAt_cons] at h
      cases hc : getObjectItem P s with
      | none => simp [hc] at h
      | some v => rfl
    simp only [savedNames, mem_cons, not_mem_nil, or_false] at hp
    rcases hp with rfl | rfl <;> simp [armed, hsome]

theorem marked_of_valueAt (hes : ∀ e ∈ es, Spelled V (segments e.pre)) (hP : Tidy V (.obj P)) (hr : Spelled V r)
    (hval : valueAt (.obj P) r ≠ none) (hkept : Kept r) (htwo : 2 ≤ r.length)
    (hlen : (r.foldl extend []).length < 128) :
    (∃ e ∈ es, segments e.pre <+: r ∧ Topmost es (segments e.pre) ∧ Mark.external e.pre ∈ marksOf es P) ∨
      ¬ Covered es r ∧ Mark.root ∈ marksOf es P := by
  have hsub : ∀ c, c <+: r → Spelled V c := fun c hc s hs => hr s (hc.subset hs)
  rw [marksOf, if_pos (armed_of_valueAt hkept hval)]
  by_cases hcov : Covered es r
  · left
    obtain ⟨e, he, ⟨b, hb⟩, htop⟩ := exists_topmost hcov
    refine ⟨e, he, ⟨b, hb⟩, htop, ?_⟩
    have hj := joined_segments (hes e he)
    rw [← hb] at hval hlen
    rw [← hj]
    apply external_mem_routePatchDirty hP (hes e he) hval hlen
    · intro c hc hne
      apply passed_of_not_mem (hsub c (hc.trans ⟨b, hb⟩))
      exact fun hmem => hne (htop c hmem hc)
    · rw [hj]
      exact key_ne_nil (hes e he)
    · rw [hj]
      exact mem_map_of_mem he
  · right
    refine ⟨hcov, root_mem_routePatchDirty_value hP hr hval hlen ?_ (persistent_joined hr hkept htwo)⟩
    intro c hc
    exact passed_of_not_mem (hsub c hc) fun hmem => hcov ⟨c, hmem, hc⟩

theorem top_of_marked (hes : ∀ e ∈ es, Spelled V (segments e.pre)) (hP : Tidy V (.obj P))
    (he : e ∈ es) (h : Mark.external e.pre ∈ marksOf es P) : Topmost es (segments e.pre) := by
  unfold marksOf at h
  split at h
  · obtain ⟨a, ha, hpre, hpass⟩ := reaches_of_external_mem hP h
    have hane : a ≠ [] := by
      rintro rfl
      exact key_ne_nil (hes e he) hpre
    have hseg : segments e.pre = a := by rw [hpre, segments_joined ha hane]
    intro D hD hDE
    by_contra hne
    obtain ⟨d, hd, rfl⟩ := mem_map.mp hD
    rw [hseg] at hDE hne
    have := hpass _ hDE hne
    rw [joined_segments (hes d hd)] at this
    rcases this with h' | h'
    · exact key_ne_nil (hes d hd) h'
    · exact h' (mem_map_of_mem hd)
  · simp at h

end Marks

/-- What an op puts at a path does no harm to an external. Above one there are
only DELETEs, and nothing is put at or below one whose delete is pending and
that is not below another. -/
def Suits (σ : State) (o : Op) (r : List Name) (e : External) : Prop :=
  (r <+: segments e.pre → r ≠ segments e.pre → o.code = .delete) ∧
    (Topmost σ.externals (segments e.pre) → e.pendingDelete = true → segments e.pre <+: r →
      o.code = .delete ∧ r = segments e.pre)
  deriving Decidable

def Strikes (σ : State) (o : Op) : Prop :=
  o.code = .delete ∧ ∃ e ∈ σ.externals, segments o.key <+: segments e.pre
  deriving Decidable

instance (a b : List Name) : Decidable (Apart a b) := inferInstanceAs (Decidable (_ ∧ _))

instance (q : List Name) : Decidable (Spelled V q) := inferInstanceAs (Decidable (∀ s ∈ q, _))

instance (o : Op) : Decidable (Proper V o) := inferInstanceAs (Decidable (_ ∧ _))

/-- Op lists whose effect on the files the dirty flags record. -/
structure Fair (V : Vocabulary) (pats : List (List Name)) (σ : State) (ops : List Op) : Prop where
  unrouted : ∀ o ∈ ops, sdbRoute pats o.key = none
  proper : ∀ o ∈ ops, Proper V o
  kept : ∀ o ∈ ops, Kept (segments o.key) ∧ 2 ≤ (segments o.key).length
  short : ∀ o ∈ ops, ∀ r ∈ landings o, (r.foldl extend []).length < 128
  suits : ∀ o ∈ ops, ∀ r ∈ landings o, ∀ e ∈ σ.externals, Suits σ o r e
  parent : ∀ o ∈ ops, Strikes σ o → (node (.obj σ.cfgRoot) (segments o.key).dropLast).any Json.isObj = true
  apart : ops.Pairwise fun a b => Strikes σ a ∨ Strikes σ b → Apart (segments a.key) (segments b.key)

instance (σ : State) (ops : List Op) : Decidable (Fair V pats σ ops) :=
  decidable_of_iff
    ((∀ o ∈ ops, sdbRoute pats o.key = none) ∧ (∀ o ∈ ops, Proper V o) ∧
      (∀ o ∈ ops, Kept (segments o.key) ∧ 2 ≤ (segments o.key).length) ∧
      (∀ o ∈ ops, ∀ r ∈ landings o, (r.foldl extend []).length < 128) ∧
      (∀ o ∈ ops, ∀ r ∈ landings o, ∀ e ∈ σ.externals, Suits σ o r e) ∧
      (∀ o ∈ ops, Strikes σ o → (node (.obj σ.cfgRoot) (segments o.key).dropLast).any Json.isObj = true) ∧
      ops.Pairwise fun a b => Strikes σ a ∨ Strikes σ b → Apart (segments a.key) (segments b.key))
    ⟨fun ⟨a, b, c, d, e, f, g⟩ => ⟨a, b, c, d, e, f, g⟩, fun ⟨a, b, c, d, e, f, g⟩ => ⟨a, b, c, d, e, f, g⟩⟩

def patchOf (σ : State) (ops : List Op) : List Child := ops.foldl (foldOp (.obj σ.cfgRoot)) []

def marks (σ : State) (ops : List Op) : List Mark := marksOf σ.externals (patchOf σ ops)

def struck (ops : List Op) (e : External) : Bool := ops.any fun o => decide (o.code = .delete) && deletedUnder o.key e.pre

theorem foldl_markDeleted (ops : List Op) (es : List External) :
    ops.foldl markDeleted es = es.map fun e => { e with pendingDelete := e.pendingDelete || struck ops e } := by
  induction ops generalizing es with
  | nil => simp [struck]
  | cons o ops ih =>
    rw [foldl_cons, ih]
    unfold markDeleted
    split
    case isTrue h =>
        rw [markExternalsDeletedUnder, List.map_map]
        apply map_congr_left
        intro e _
        cases hd : deletedUnder o.key e.pre with
        | true => simp [struck, h, hd]
        | false => simp [struck, hd]
    case isFalse h => simp [struck, h]

theorem patchOf_eq (h : ∀ o ∈ ops, sdbRoute pats o.key = none) :
    buildPatch pats (.obj σ.cfgRoot) ops = patchOf σ ops := by
  rw [buildPatch, filter_eq_self.mpr fun o ho => by simp [h o ho]]
  rfl

theorem applyOps_eq (h : ∀ o ∈ ops, sdbRoute pats o.key = none) : applyOps pats σ ops = { σ with
        cfgRoot := deepMerge σ.cfgRoot (patchOf σ ops)
        externals := σ.externals.map fun e =>
          ⟨e.pre, e.dirty || decide (Mark.external e.pre ∈ marks σ ops), e.pendingDelete || struck ops e⟩
        rootDirty := σ.rootDirty || decide (Mark.root ∈ marks σ ops)
        savePending := σ.savePending || armed (patchOf σ ops) } := by
  have hall : ops.filter (fun o => (sdbRoute pats o.key).isNone) = ops :=
    filter_eq_self.mpr fun o ho => by simp [h o ho]
  have hmarks : marksOf (ops.foldl markDeleted σ.externals) (patchOf σ ops) = marks σ ops := by
    rw [marks, marksOf, marksOf, foldl_markDeleted, List.map_map]
    rfl
  simp only [applyOps, patchOf_eq h, hall, hmarks]
  rw [foldl_markDeleted, List.map_map]
  rfl

theorem Fair.patched (h : Fair V pats σ ops) : Patched V (· ∈ ops) (patchOf σ ops) :=
  (patched_foldl patched_nil h.proper _).mono fun _ ho => ho.resolve_left id

theorem Fair.origin (h : Fair V pats σ ops) (hr : Spelled V r) (hval : valueAt (.obj (patchOf σ ops)) r ≠ none) :
    ∃ o ∈ ops, r ∈ landings o := by
  obtain ⟨x, hx⟩ := ne_none_iff_exists'.mp hval
  obtain ⟨o, ho, hlands, -⟩ := h.patched.origin r x hr hx
  exact ⟨o, ho, hlands⟩

theorem Fair.key_of_delete (hdel : o.code = .delete) (hlands : r ∈ landings o) : r = segments o.key := by
  rw [landings_delete hdel] at hlands
  simpa using hlands

theorem Fair.marked (h : Fair V pats σ ops) (hes : ∀ e ∈ σ.externals, Spelled V (segments e.pre)) (hr : Spelled V r)
    (hval : valueAt (.obj (patchOf σ ops)) r ≠ none) :
    (∃ e ∈ σ.externals, segments e.pre <+: r ∧ Topmost σ.externals (segments e.pre) ∧
        Mark.external e.pre ∈ marks σ ops) ∨
      ¬ Covered σ.externals r ∧ Mark.root ∈ marks σ ops := by
  obtain ⟨o, ho, hlands⟩ := h.origin hr hval
  obtain ⟨⟨p, hp, hhead⟩, htwo⟩ := h.kept o ho
  obtain ⟨t, ht⟩ := key_prefix_of_landing hlands
  have hkept : Kept r := by
    refine ⟨p, hp, ?_⟩
    rw [← ht, head?_append_of_ne_nil _ (segments_ne_nil _), hhead]
  have hlen : 2 ≤ r.length := le_trans htwo (key_prefix_of_landing hlands).length_le
  exact marked_of_valueAt hes h.patched.tidy hr hval hkept hlen (h.short o ho r hlands)

theorem struck_iff (h : Fair V pats σ ops) (he : Spelled V (segments e.pre)) :
    struck ops e = true ↔ ∃ o ∈ ops, o.code = .delete ∧ segments o.key <+: segments e.pre := by
  simp only [struck, List.any_eq_true, Bool.and_eq_true, decide_eq_true_eq]
  constructor
  · rintro ⟨o, ho, hdel, hunder⟩
    exact ⟨o, ho, hdel, (deletedUnder_iff (h.proper o ho).1 he).mp hunder⟩
  · rintro ⟨o, ho, hdel, hunder⟩
    exact ⟨o, ho, hdel, (deletedUnder_iff (h.proper o ho).1 he).mpr hunder⟩

theorem apart_symm {a b : List Name} (h : Apart a b) : Apart b a := ⟨h.2, h.1⟩

theorem Fair.null_of_strikes (h : Fair V pats σ ops) (ho : o ∈ ops) (hs : Strikes σ o) :
    valueAt (.obj (patchOf σ ops)) (segments o.key) = some .null := by
  obtain ⟨A, B, rfl⟩ := append_of_mem ho
  apply valueAt_delete _ (h.proper o ho) hs.1
  have hpair := pairwise_append.mp h.apart
  intro a ha
  rcases mem_append.mp ha with ha | ha
  · exact ⟨h.proper a (mem_append_left _ ha), hpair.2.2 a ha o mem_cons_self (.inr hs)⟩
  · refine ⟨h.proper a (mem_append_right _ (mem_cons_of_mem o ha)), apart_symm ?_⟩
    exact (pairwise_cons.mp hpair.2.1).1 a ha (.inl hs)

theorem view_of_isObj {v : Json} (h : (node v q).any Json.isObj = true) : view v q = some none := by
  cases hn : node v q with
  | none => simp [hn] at h
  | some w =>
    rw [hn, any_some] at h
    simp [view, hn, shape, h]

section Step

variable (hfair : Fair V pats σ ops) (htidy : Tidy V (.obj σ.cfgRoot))
  (hes : ∀ e ∈ σ.externals, Spelled V (segments e.pre))

include hfair htidy

theorem valueAt_commit (hq : Spelled V q) (h : valueAt (.obj (deepMerge σ.cfgRoot (patchOf σ ops))) q ≠ none) :
    valueAt (.obj σ.cfgRoot) q ≠ none ∨ ∃ o ∈ ops, q ∈ landings o := by
  rcases valueAt_deepMerge htidy hfair.patched.tidy h with h | h
  · exact .inl h
  · exact .inr (hfair.origin hq h)

theorem exists_landing (hq : Spelled V q)
    (h : view (.obj (deepMerge σ.cfgRoot (patchOf σ ops))) q ≠ view (.obj σ.cfgRoot) q) :
    ∃ r, Spelled V r ∧ valueAt (.obj (patchOf σ ops)) r ≠ none ∧ (r <+: q ∨ q <+: r) := by
  have hne : q ≠ [] := by
    rintro rfl
    exact h rfl
  have hhit : hit (patchOf σ ops) q = true := by
    by_contra hn
    exact h (view_deepMerge htidy hfair.patched.tidy (by simpa using hn))
  exact exists_value_of_hit hfair.patched.tidy hfair.patched.full hq (.inr hne) hhit

theorem struck_view (ho : o ∈ ops) (hs : Strikes σ o) (hq : segments o.key <+: q) :
    view (.obj (deepMerge σ.cfgRoot (patchOf σ ops))) q = none := by
  have hnull := hfair.null_of_strikes ho hs
  obtain ⟨t, rfl⟩ := hq
  by_cases ht : t = []
  · subst ht
    rw [append_nil]
    exact view_deepMerge_null htidy hfair.patched.tidy hnull (view_of_isObj (hfair.parent o ho hs))
  · exact view_deepMerge_below_null htidy hfair.patched.tidy hnull ht

include hes

theorem external_unchanged (he : e ∈ σ.externals) (htop : Topmost σ.externals (segments e.pre)) (hq : Spelled V q)
    (hE : segments e.pre <+: q) (hmark : Mark.external e.pre ∉ marks σ ops) (hstruck : struck ops e = false) :
    view (.obj (deepMerge σ.cfgRoot (patchOf σ ops))) q = view (.obj σ.cfgRoot) q := by
  by_contra hne
  obtain ⟨r, hr, hval, hcomp⟩ := exists_landing hfair htidy hq hne
  by_cases hEr : segments e.pre <+: r
  · -- the walk to the value stops at this external
    rcases hfair.marked hes hr hval with ⟨d, hd, hdr, hdtop, hmarked⟩ | ⟨hnone, -⟩
    · have hde := htop _ (mem_map_of_mem hd) (hdtop.above (mem_map_of_mem he) hEr hdr)
      have hpre : d.pre = e.pre := by rw [← joined_segments (hes d hd), hde, joined_segments (hes e he)]
      exact hmark (hpre ▸ hmarked)
    · exact hnone ⟨_, mem_map_of_mem he, hEr⟩
  · -- only a DELETE can be above it
    have hrE : r <+: segments e.pre := by
      rcases hcomp with h | h
      · exact (List.prefix_or_prefix_of_prefix h hE).resolve_right hEr
      · exact absurd (hE.trans h) hEr
    obtain ⟨o, ho, hlands⟩ := hfair.origin hr hval
    have hdel := (hfair.suits o ho r hlands e he).1 hrE (fun h => hEr (h ▸ prefix_refl _))
    have : struck ops e = true := by
      rw [struck_iff hfair (hes e he)]
      exact ⟨o, ho, hdel, Fair.key_of_delete hdel hlands ▸ hrE⟩
    rw [hstruck] at this
    cases this

def Sheltered (σ : State) (ops : List Op) : Prop := ∀ o ∈ ops, ∀ r ∈ landings o, Covered σ.externals r

theorem root_unchanged (hclear : ∀ e ∈ σ.externals, View.Clear σ.cfgRoot (segments e.pre))
    (hq : Spelled V q) (hfree : ¬ Covered σ.externals q) (hmark : Mark.root ∉ marks σ ops ∨ Sheltered σ ops) :
    valueAt (.obj (deepMerge σ.cfgRoot (patchOf σ ops))) q = valueAt (.obj σ.cfgRoot) q := by
  by_contra hne
  obtain ⟨r, hr, hval, hcomp⟩ := exists_landing hfair htidy hq fun h => hne (valueAt_of_view h)
  obtain ⟨o, ho, hlands⟩ := hfair.origin hr hval
  rcases hfair.marked hes hr hval with ⟨e, he, hEr, htop, -⟩ | ⟨huncovered, hmarked⟩
  · have hEq : ¬ segments e.pre <+: q := fun h => hfree ⟨_, mem_map_of_mem he, h⟩
    have hqr : q <+: r := hcomp.resolve_left fun h => hEq (hEr.trans h)
    have hqE : q <+: segments e.pre := (List.prefix_or_prefix_of_prefix hqr hEr).resolve_right hEq
    have hqne : q ≠ segments e.pre := fun h => hEq (h ▸ prefix_refl _)
    -- the path leads to an external, so that an object is there before and after
    have hbefore := hclear e he q hqE hqne
    have hpatch : valueAt (.obj (patchOf σ ops)) q = none := by
      by_contra hv
      obtain ⟨x, hx⟩ := ne_none_iff_exists'.mp hv
      obtain ⟨t, ht⟩ := hqr
      have htne : t ≠ [] := by
        rintro rfl
        rw [append_nil] at ht
        exact hEq (ht ▸ hEr)
      apply hval
      rw [← ht, valueAt, view_append_of_valueAt hx htne]
      rfl
    have hafter : valueAt (.obj (deepMerge σ.cfgRoot (patchOf σ ops))) q = none := by
      by_contra hv
      rcases valueAt_deepMerge htidy hfair.patched.tidy hv with h | h
      · exact h hbefore
      · exact h hpatch
    exact hne (hafter.trans hbefore.symm)
  · rcases hmark with hmark | hmark
    · exact hmark hmarked
    · exact huncovered (hmark o ho r hlands)

theorem external_gone (he : e ∈ σ.externals) (htop : Topmost σ.externals (segments e.pre))
    (hpend : (e.pendingDelete || struck ops e) = true)
    (hbefore : e.pendingDelete = true → ∀ q, Spelled V q → segments e.pre <+: q → valueAt (.obj σ.cfgRoot) q = none)
    (hq : Spelled V q) (hE : segments e.pre <+: q) :
    valueAt (.obj (deepMerge σ.cfgRoot (patchOf σ ops))) q = none := by
  cases hs : struck ops e with
  | true =>
    obtain ⟨o, ho, hdel, hkE⟩ := (struck_iff hfair (hes e he)).mp hs
    rw [valueAt, struck_view hfair htidy ho ⟨hdel, e, he, hkE⟩ (hkE.trans hE)]
    rfl
  | false =>
    rw [hs, Bool.or_false] at hpend
    by_contra hv
    rcases valueAt_commit hfair htidy hq hv with h | ⟨o, ho, hlands⟩
    · exact h (hbefore hpend q hq hE)
    · obtain ⟨hdel, hqE⟩ := (hfair.suits o ho q hlands e he).2 htop hpend hE
      have : struck ops e = true := by
        rw [struck_iff hfair (hes e he)]
        refine ⟨o, ho, hdel, ?_⟩
        have hkey : segments o.key = segments e.pre := (Fair.key_of_delete hdel hlands).symm.trans hqE
        exact hkey ▸ prefix_refl _
      rw [hs] at this
      cases this

theorem clear_commit (he : e ∈ σ.externals) (hclear : View.Clear σ.cfgRoot (segments e.pre)) :
    View.Clear (deepMerge σ.cfgRoot (patchOf σ ops)) (segments e.pre) := by
  intro r hrE hne
  by_contra hv
  rcases valueAt_commit hfair htidy ((hes e he).mono hrE) hv with h | ⟨o, ho, hlands⟩
  · exact h (hclear r hrE hne)
  · have hdel := (hfair.suits o ho r hlands e he).1 hrE hne
    have hkey := Fair.key_of_delete hdel hlands
    apply hv
    rw [valueAt, struck_view hfair htidy ho ⟨hdel, e, he, hkey ▸ hrE⟩ (hkey ▸ prefix_refl r)]
    rfl

end Step

end Spangap.Regions
