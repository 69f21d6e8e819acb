import Mathlib.Data.List.Infix
import Spangap.Regions

namespace Spangap.Flags

open List Option CJson FirstMatch DotPath Merge Commit Persist View Attach Landing Regions

variable {V : Vocabulary} {pats : List (List Name)} {σ τ : State} {ops : List Op} {E : List Name} {R cs : List Child}
  {es fs : List External} {e : External} {files : List (Name × Json)}

/-- The content of `root.json` is what no external covers. -/
def RootKept (V : Vocabulary) (R : List Child) (σ : State) : Prop :=
  ∀ q, Spelled V q → Kept q →
    valueAt (.obj R) q = if Covered σ.externals q then none else valueAt (.obj σ.cfgRoot) q

def fileOf (files : List (Name × Json)) (p : Name) : Option Json := (files.find? fun f => f.1 = p).map Prod.snd

def FileKept (V : Vocabulary) (f : Option Json) (σ : State) (E : List Name) : Prop :=
  ∀ r, Spelled V r → valueAt (.obj σ.cfgRoot) (E ++ r) = f.bind fun v => valueAt v r

def Gone (V : Vocabulary) (σ : State) (E : List Name) : Prop :=
  ∀ q, Spelled V q → E <+: q → valueAt (.obj σ.cfgRoot) q = none

/-- The shape of the tree, the registry and the files, whatever the flags say. -/
structure Shaped (V : Vocabulary) (σ : State) : Prop where
  tidy : Tidy V (.obj σ.cfgRoot)
  spelled : ∀ e ∈ σ.externals, Spelled V (segments e.pre)
  under : ∀ e ∈ σ.externals, Kept (segments e.pre)
  nodup : (σ.externals.map External.pre).Nodup
  clear : ∀ e ∈ σ.externals, View.Clear σ.cfgRoot (segments e.pre)
  gone : ∀ e ∈ σ.externals, Topmost σ.externals (segments e.pre) → e.pendingDelete = true → Gone V σ (segments e.pre)
  below : ∀ e ∈ σ.externals, ¬ Topmost σ.externals (segments e.pre) → e.dirty = false ∧ fileOf σ.files e.pre = none
  rootTidy : Tidy V (.obj (σ.rootFile.getD []))
  filesTidy : ∀ f ∈ σ.files, Tidy V f.2
  distinct : (σ.files.map Prod.fst).Nodup

/-- What the dirty flags of the externals promise about their files. -/
structure Filed (V : Vocabulary) (σ : State) : Prop extends Shaped V σ where
  file : ∀ e ∈ σ.externals, Topmost σ.externals (segments e.pre) → e.pendingDelete = false → e.dirty = false →
    FileKept V (fileOf σ.files e.pre) σ (segments e.pre) ∨ view (.obj σ.cfgRoot) (segments e.pre) = none
  registered : ∀ f ∈ σ.files, f.1 ∈ σ.externals.map External.pre

/-- What the dirty flags promise about the files. -/
structure Synced (V : Vocabulary) (σ : State) : Prop extends Filed V σ where
  root : σ.rootDirty = false → RootKept V (σ.rootFile.getD []) σ

theorem shaped_empty : Shaped V empty where
  tidy := tidy_nil
  spelled := by simp [empty]
  under := by simp [empty]
  nodup := by simp [empty]
  clear := by simp [empty]
  gone := by simp [empty]
  below := by simp [empty]
  rootTidy := tidy_nil
  filesTidy := by simp [empty]
  distinct := by simp [empty]

theorem synced_empty : Synced V empty where
  toShaped := shaped_empty
  file := by simp [empty]
  registered := by simp [empty]
  root := by
    intro _ q _ _
    rfl

theorem pre_map (f : External → External) (h : ∀ e ∈ es, (f e).pre = e.pre) :
    (es.map f).map External.pre = es.map External.pre := by
  rw [List.map_map]
  exact map_congr_left h

theorem prefixes_map {l : List External} (f : External → External) (h : ∀ e ∈ l, (f e).pre = e.pre) :
    prefixes (l.map f) = prefixes l := by
  rw [prefixes, prefixes, List.map_map]
  exact map_congr_left fun e he => by simp [h e he]

theorem top_congr (h : prefixes es = prefixes fs) (E : List Name) : Topmost es E ↔ Topmost fs E := by
  rw [Topmost, Topmost, h]

theorem covered_congr (h : prefixes es = prefixes fs) (q : List Name) : Covered es q ↔ Covered fs q := by
  rw [Covered, Covered, h]

theorem RootKept.transfer (h : RootKept V R σ) (hpre : prefixes τ.externals = prefixes σ.externals)
    (hroot : ∀ q, Spelled V q → ¬ Covered σ.externals q → valueAt (.obj τ.cfgRoot) q = valueAt (.obj σ.cfgRoot) q) :
    RootKept V R τ := by
  intro q hq hk
  rw [h q hq hk]
  by_cases hc : Covered σ.externals q
  · rw [if_pos hc, if_pos ((covered_congr hpre q).mpr hc)]
  · rw [if_neg hc, if_neg fun h' => hc ((covered_congr hpre q).mp h')]
    exact (hroot q hq hc).symm

theorem FileKept.transfer {f : Option Json} (h : FileKept V f σ E)
    (hval : ∀ r, Spelled V r → valueAt (.obj τ.cfgRoot) (E ++ r) = valueAt (.obj σ.cfgRoot) (E ++ r)) :
    FileKept V f τ E := by
  intro r hr
  rw [hval r hr]
  exact h r hr

theorem gone_of_view (h : view (.obj σ.cfgRoot) E = none) : Gone V σ E := by
  rintro q - ⟨t, rfl⟩
  have hnode : node (.obj σ.cfgRoot) E = none := by simpa [view] using h
  rw [valueAt, view_append, hnode]
  rfl

theorem fileKept_some {v : Json} (h : node (.obj σ.cfgRoot) E = some v) : FileKept V (some v) σ E := by
  intro r _
  rw [valueAt, view_append, h]
  rfl

theorem fileKept_none (hE : Spelled V E) (h : Gone V σ E) : FileKept V none σ E := by
  intro r hr
  exact h (E ++ r) (hE.append hr) (prefix_append _ _)

theorem Shaped.transfer (h : Shaped V σ) (f : External → External)
    (hf : ∀ e ∈ σ.externals, (f e).pre = e.pre ∧ ((f e).pendingDelete = true → e.pendingDelete = true) ∧
      (e.dirty = false → (f e).dirty = false))
    (hcs : Tidy V (.obj cs)) (hview : ∀ q, Spelled V q → view (.obj cs) q = view (.obj σ.cfgRoot) q)
    (htidy : ∀ f ∈ files, Tidy V f.2) (hdistinct : (files.map Prod.fst).Nodup)
    (hbelow : ∀ e ∈ σ.externals, ¬ Topmost σ.externals (segments e.pre) → fileOf files e.pre = none) :
    Shaped V { σ with cfgRoot := cs, externals := σ.externals.map f, files := files } := by
  have htop := top_congr (prefixes_map f fun e he => (hf e he).1)
  refine ⟨hcs, ?_, ?_, ?_, ?_, ?_, ?_, h.rootTidy, htidy, hdistinct⟩
  · intro e he
    obtain ⟨e, hmem, rfl⟩ := mem_map.mp he
    rw [(hf e hmem).1]
    exact h.spelled e hmem
  · intro e he
    obtain ⟨e, hmem, rfl⟩ := mem_map.mp he
    rw [(hf e hmem).1]
    exact h.under e hmem
  · rw [pre_map f fun e he => (hf e he).1]
    exact h.nodup
  · intro e he r hr hne
    obtain ⟨e, hmem, rfl⟩ := mem_map.mp he
    rw [(hf e hmem).1] at hr hne
    rw [valueAt_of_view (hview r ((h.spelled e hmem).mono hr))]
    exact h.clear e hmem r hr hne
  · intro e he ht hpend q hq hE
    obtain ⟨e, hmem, rfl⟩ := mem_map.mp he
    rw [htop, (hf e hmem).1] at ht
    rw [(hf e hmem).1] at hE
    rw [valueAt_of_view (hview q hq)]
    exact h.gone e hmem ht ((hf e hmem).2.1 hpend) q hq hE
  · intro e he ht
    obtain ⟨e, hmem, rfl⟩ := mem_map.mp he
    rw [htop, (hf e hmem).1] at ht
    rw [(hf e hmem).1]
    exact ⟨(hf e hmem).2.2 (h.below e hmem ht).1, hbelow e hmem ht⟩

theorem undirtied (C : Prop) [Decidable C] (e : External) : (if C then { e with dirty := false } else e).pre = e.pre ∧
      ((if C then { e with dirty := false } else e).pendingDelete = true → e.pendingDelete = true) ∧
      (e.dirty = false → (if C then { e with dirty := false } else e).dirty = false) := by
  split
  · exact ⟨rfl, id, fun _ => rfl⟩
  · exact ⟨rfl, id, id⟩

section

variable (h : ∀ o ∈ ops, sdbRoute pats o.key = none)
include h

theorem prefixes_applyOps : prefixes (applyOps pats σ ops).externals = prefixes σ.externals := by
  rw [applyOps_eq h]
  exact prefixes_map _ fun _ _ => rfl

theorem pre_applyOps : (applyOps pats σ ops).externals.map External.pre = σ.externals.map External.pre := by
  rw [applyOps_eq h]
  exact pre_map _ fun _ _ => rfl

theorem mem_applyOps (he : e ∈ (applyOps pats σ ops).externals) :
    ∃ d ∈ σ.externals, d.pre = e.pre ∧ (e.pendingDelete = (d.pendingDelete || struck ops d)) ∧
      e.dirty = (d.dirty || decide (Mark.external d.pre ∈ marks σ ops)) := by
  rw [applyOps_eq h] at he
  obtain ⟨d, hd, rfl⟩ := mem_map.mp he
  exact ⟨d, hd, rfl, rfl, rfl⟩

end

section

variable (h : Shaped V σ) (hfair : Fair V pats σ ops)
include h hfair

theorem shaped_applyOps : Shaped V (applyOps pats σ ops) := by
  have htop := top_congr (prefixes_applyOps (σ := σ) hfair.unrouted)
  have hmem : ∀ {e}, e ∈ (applyOps pats σ ops).externals → _ := fun he => mem_applyOps hfair.unrouted he
  have hroot : (applyOps pats σ ops).cfgRoot = deepMerge σ.cfgRoot (patchOf σ ops) := by rw [applyOps_eq hfair.unrouted]
  refine ⟨?_, ?_, ?_, ?_, ?_, ?_, ?_, h.rootTidy, h.filesTidy, h.distinct⟩
  · rw [hroot]
    exact tidy_deepMerge h.tidy hfair.patched.tidy
  · intro e he
    obtain ⟨d, hd, hpre, -⟩ := hmem he
    exact hpre ▸ h.spelled d hd
  · intro e he
    obtain ⟨d, hd, hpre, -⟩ := hmem he
    exact hpre ▸ h.under d hd
  · rw [pre_applyOps hfair.unrouted]
    exact h.nodup
  · intro e he
    obtain ⟨d, hd, hpre, -⟩ := hmem he
    rw [← hpre, hroot]
    exact clear_commit hfair h.tidy h.spelled hd (h.clear d hd)
  · intro e he ht hpend q hq hE
    obtain ⟨d, hd, hpre, hp, -⟩ := hmem he
    rw [htop, ← hpre] at ht
    rw [← hpre] at hE
    rw [hpend] at hp
    rw [hroot]
    exact external_gone hfair h.tidy h.spelled hd ht hp.symm (h.gone d hd ht) hq hE
  · intro e he ht
    obtain ⟨d, hd, hpre, -, hdirty⟩ := hmem he
    rw [htop, ← hpre] at ht
    rw [hdirty, Bool.or_eq_false_iff, decide_eq_false_iff_not, ← hpre]
    exact ⟨⟨(h.below d hd ht).1, fun hm => ht (top_of_marked h.spelled hfair.patched.tidy hd hm)⟩, (h.below d hd ht).2⟩

theorem rootKept_applyOps (hR : RootKept V R σ)
    (hmark : Mark.root ∉ marks σ ops ∨ Sheltered σ ops) : RootKept V R (applyOps pats σ ops) := by
  apply hR.transfer (prefixes_applyOps hfair.unrouted)
  intro q hq hc
  rw [applyOps_eq hfair.unrouted]
  exact root_unchanged hfair h.tidy h.spelled h.clear hq hc hmark

/-- What a commit leaves unmarked was so before, and is as it was. -/
theorem clean_applyOps (he : e ∈ (applyOps pats σ ops).externals)
    (ht : Topmost (applyOps pats σ ops).externals (segments e.pre)) (hpend : e.pendingDelete = false) (hdirty : e.dirty = false) :
    ∃ d ∈ σ.externals, d.pre = e.pre ∧ Topmost σ.externals (segments d.pre) ∧ d.pendingDelete = false ∧ d.dirty = false ∧
      (∀ f, FileKept V f σ (segments d.pre) → FileKept V f (applyOps pats σ ops) (segments d.pre)) ∧
      view (.obj (applyOps pats σ ops).cfgRoot) (segments d.pre) = view (.obj σ.cfgRoot) (segments d.pre) := by
  obtain ⟨d, hd, hpre, hp, hdd⟩ := mem_applyOps hfair.unrouted he
  rw [hpend] at hp
  rw [hdirty] at hdd
  obtain ⟨hp, hstruck⟩ := Bool.or_eq_false_iff.mp hp.symm
  obtain ⟨hdd, hmark⟩ := Bool.or_eq_false_iff.mp hdd.symm
  rw [top_congr (prefixes_applyOps hfair.unrouted), ← hpre] at ht
  have hsame : ∀ r, Spelled V r → view (.obj (applyOps pats σ ops).cfgRoot) (segments d.pre ++ r) =
      view (.obj σ.cfgRoot) (segments d.pre ++ r) := by
    intro r hr
    rw [applyOps_eq hfair.unrouted]
    exact external_unchanged hfair h.tidy h.spelled hd ht ((h.spelled d hd).append hr) (prefix_append _ _)
      (decide_eq_false_iff_not.mp hmark) hstruck
  refine ⟨d, hd, hpre, ht, hp, hdd, fun f hf => hf.transfer fun r hr => valueAt_of_view (hsame r hr), ?_⟩
  simpa using hsame [] (by simp [Spelled])

end

theorem filed_applyOps (h : Filed V σ) (hfair : Fair V pats σ ops) : Filed V (applyOps pats σ ops) := by
  refine ⟨shaped_applyOps h.toShaped hfair, ?_, ?_⟩
  · intro e he ht hpend hdirty
    obtain ⟨d, hd, hpre, ht, hp, hdd, hkept, hview⟩ := clean_applyOps h.toShaped hfair he ht hpend hdirty
    rw [← hpre, hview]
    exact (h.file d hd ht hp hdd).imp_left (hkept _)
  · rw [pre_applyOps hfair.unrouted]
    exact h.registered

theorem synced_applyOps (h : Synced V σ) (hfair : Fair V pats σ ops) : Synced V (applyOps pats σ ops) := by
  refine ⟨filed_applyOps h.toFiled hfair, ?_⟩
  intro hd
  rw [applyOps_eq hfair.unrouted, Bool.or_eq_false_iff, decide_eq_false_iff_not] at hd
  exact rootKept_applyOps h.toShaped hfair (h.root hd.1) (.inl hd.2)

section Register

variable {key p : Name}

/-- A registration on a prefix under `s.` with nothing at or below it, with no
value on the way to it and above no external that has a file. -/
structure CanRegister (V : Vocabulary) (σ : State) (p : Name) : Prop where
  spelled : Spelled V (segments p)
  under : (segments p).head? = some (lit "s") ∧ 2 ≤ (segments p).length
  absent : view (.obj σ.cfgRoot) (segments p) = none
  clear : View.Clear σ.cfgRoot (segments p)
  above : ∀ e ∈ σ.externals, segments p <+: segments e.pre → segments p ≠ segments e.pre →
    e.dirty = false ∧ fileOf σ.files e.pre = none

theorem clear_iff : (∀ r ∈ E.inits, r ≠ E → (valueAt (.obj cs) r).isNone = true) ↔ View.Clear cs E := by
  constructor
  · intro h r hr hne
    exact isNone_iff_eq_none.mp (h r ((mem_inits r E).mpr hr) hne)
  · intro h r hr hne
    exact isNone_iff_eq_none.mpr (h r ((mem_inits r E).mp hr) hne)

instance (σ : State) (p : Name) : Decidable (CanRegister V σ p) :=
  decidable_of_iff
    (Spelled V (segments p) ∧ ((segments p).head? = some (lit "s") ∧ 2 ≤ (segments p).length) ∧
      (view (.obj σ.cfgRoot) (segments p)).isNone = true ∧
      (∀ r ∈ (segments p).inits, r ≠ segments p → (valueAt (.obj σ.cfgRoot) r).isNone = true) ∧
      ∀ e ∈ σ.externals, segments p <+: segments e.pre → segments p ≠ segments e.pre →
        e.dirty = false ∧ (fileOf σ.files e.pre).isNone = true) (by
    constructor
    · rintro ⟨a, b, c, d, e⟩
      exact ⟨a, b, isNone_iff_eq_none.mp c, clear_iff.mp d,
        fun x hx h1 h2 => ⟨(e x hx h1 h2).1, isNone_iff_eq_none.mp (e x hx h1 h2).2⟩⟩
    · rintro ⟨a, b, c, d, e⟩
      exact ⟨a, b, isNone_iff_eq_none.mpr c, clear_iff.mpr d,
        fun x hx h1 h2 => ⟨(e x hx h1 h2).1, isNone_iff_eq_none.mpr (e x hx h1 h2).2⟩⟩)

theorem fileOf_eq_none (h : p ∉ files.map Prod.fst) : fileOf files p = none := by
  rw [fileOf, map_eq_none_iff, find?_eq_none]
  intro f hf hp
  exact h (mem_map.mpr ⟨f, hf, by simpa using hp⟩)

theorem shaped_again (h : Shaped V σ) (p : Name) :
    Shaped V { σ with externals := σ.externals.map fun e => if e.pre = p then { e with pendingDelete := false } else e } := by
  refine h.transfer _ (fun e _ => ?_) h.tidy (fun _ _ => rfl) h.filesTidy h.distinct fun e he ht => (h.below e he ht).2
  split
  · exact ⟨rfl, nofun, id⟩
  · exact ⟨rfl, id, id⟩

theorem prefixes_append (es : List External) (e : External) : prefixes (es ++ [e]) = prefixes es ++ [segments e.pre] := by
  simp [prefixes]

theorem covered_append (es : List External) (e : External) (q : List Name) :
    Covered (es ++ [e]) q ↔ Covered es q ∨ segments e.pre <+: q := by
  rw [Covered, prefixes_append]
  constructor
  · rintro ⟨E, hE, hEq⟩
    rcases mem_append.mp hE with hE | hE
    · exact .inl ⟨E, hE, hEq⟩
    · exact .inr (mem_singleton.mp hE ▸ hEq)
  · rintro (⟨E, hE, hEq⟩ | hEq)
    · exact ⟨E, mem_append_left _ hE, hEq⟩
    · exact ⟨_, mem_append_right _ mem_cons_self, hEq⟩

theorem topmost_of_append (h : Topmost (es ++ [e]) E) : Topmost es E := by
  intro D hD
  exact h D (by rw [prefixes_append]; exact mem_append_left _ hD)

theorem shaped_new (h : Shaped V σ) (hr : CanRegister V σ p) (hp : p ∉ σ.externals.map External.pre)
    (hnofile : fileOf σ.files p = none) : Shaped V { σ with externals := σ.externals ++ [⟨p, false, false⟩] } := by
  have hcases : ∀ {e}, e ∈ σ.externals ++ [⟨p, false, false⟩] → e ∈ σ.externals ∨ e = ⟨p, false, false⟩ := by
    simp
  refine ⟨h.tidy, ?_, ?_, ?_, ?_, ?_, ?_, h.rootTidy, h.filesTidy, h.distinct⟩
  · intro e he
    rcases hcases he with he | rfl
    · exact h.spelled e he
    · exact hr.spelled
  · intro e he
    rcases hcases he with he | rfl
    · exact h.under e he
    · exact ⟨_, mem_cons_self, hr.under.1⟩
  · rw [map_append, nodup_append]
    refine ⟨h.nodup, by simp, ?_⟩
    rintro a ha b hb rfl
    obtain rfl : a = p := by simpa using hb
    exact hp ha
  · intro e he
    rcases hcases he with he | rfl
    · exact h.clear e he
    · exact hr.clear
  · intro e he ht hpend
    rcases hcases he with he | rfl
    · exact h.gone e he (topmost_of_append ht) hpend
    · cases hpend
  · intro e he ht
    rcases hcases he with he | rfl
    · by_cases ht' : Topmost σ.externals (segments e.pre)
      · -- it was topmost, so the new prefix is above it
        have hunder : segments p <+: segments e.pre ∧ segments p ≠ segments e.pre := by
          by_contra hno
          apply ht
          intro D hD hDE
          rw [prefixes_append, mem_append, mem_singleton] at hD
          rcases hD with hD | rfl
          · exact ht' D hD hDE
          · by_contra hne
            exact hno ⟨hDE, hne⟩
        exact hr.above e he hunder.1 hunder.2
      · exact h.below e he ht'
    · exact ⟨rfl, hnofile⟩

theorem rootKept_new (hR : RootKept V R σ) (hr : CanRegister V σ p) :
    RootKept V R { σ with externals := σ.externals ++ [⟨p, false, false⟩] } := by
  intro q hq hk
  rw [hR q hq hk]
  by_cases hc : Covered σ.externals q
  · rw [if_pos hc, if_pos ((covered_append _ _ q).mpr (.inl hc))]
  · rw [if_neg hc]
    split
    next hcov => exact gone_of_view (V := V) hr.absent q hq (((covered_append _ _ q).mp hcov).resolve_left hc)
    · rfl

theorem synced_storageNewTreeFile (h : Synced V σ) (hr : CanRegister V σ (stripDots key)) :
    Synced V (storageNewTreeFile σ key) := by
  simp only [storageNewTreeFile]
  split
  · exact h
  · split
    · have hsame : ∀ e : External, (if e.pre = stripDots key then { e with pendingDelete := false } else e).pre = e.pre := by
        intro e
        split <;> rfl
      have hpre := prefixes_map (l := σ.externals) _ fun e _ => hsame e
      refine ⟨⟨shaped_again h.toShaped _, ?_, ?_⟩, fun hd => (h.root hd).transfer hpre fun _ _ _ => rfl⟩
      · intro e he ht hpend hd
        obtain ⟨e, hmem, rfl⟩ := mem_map.mp he
        rw [top_congr hpre, hsame] at ht
        by_cases hp : e.pre = stripDots key
        · right
          rw [hsame, hp]
          exact hr.absent
        · simp only [if_neg hp] at hpend hd ⊢
          exact h.file e hmem ht hpend hd
      · rw [pre_map _ fun e _ => hsame e]
        exact h.registered
    next hp =>
      have hnofile : fileOf σ.files (stripDots key) = none := by
        apply fileOf_eq_none
        intro hmem
        obtain ⟨f, hf, hfp⟩ := mem_map.mp hmem
        exact hp (hfp ▸ h.registered f hf)
      refine ⟨⟨shaped_new h.toShaped hr hp hnofile, ?_, ?_⟩, fun hd => rootKept_new (h.root hd) hr⟩
      · refine forall_mem_append.mpr ⟨fun e he ht => h.file e he (topmost_of_append ht), forall_mem_singleton.mpr fun _ _ _ => ?_⟩
        exact .inr hr.absent
      · intro f hf
        rw [map_append]
        exact mem_append_left _ (h.registered f hf)

end Register

section Drop

variable {q : List Name}

def DropsPending (σ : State) (es : List External) : Prop :=
  es.Sublist σ.externals ∧ ∀ e ∈ σ.externals, e.pendingDelete = false → e ∈ es

theorem topmost_of_drop (hd : DropsPending σ es) (h : Topmost σ.externals E) : Topmost es E := by
  intro D hD
  obtain ⟨d, hd', rfl⟩ := mem_map.mp hD
  exact h _ (mem_map_of_mem (hd.1.subset hd'))

section

variable (h : Shaped V σ) (hd : DropsPending σ es)
include h hd

theorem none_of_dropped (hq : Spelled V q) (hc : Covered σ.externals q)
    (hn : ¬ Covered es q) : valueAt (.obj σ.cfgRoot) q = none := by
  obtain ⟨e, he, heq, ht⟩ := exists_topmost hc
  cases hp : e.pendingDelete with
  | true => exact h.gone e he ht hp q hq heq
  | false => exact absurd ⟨_, mem_map_of_mem (hd.2 e he hp), heq⟩ hn

theorem gone_of_drop (he : e ∈ es) (ht : Topmost es (segments e.pre))
    (hn : ¬ Topmost σ.externals (segments e.pre)) : Gone V σ (segments e.pre) := by
  obtain ⟨d, hd', hde, hdt⟩ := exists_topmost ⟨_, mem_map_of_mem (hd.1.subset he), prefix_refl (segments e.pre)⟩
  have hp : d.pendingDelete = true := by
    by_contra hp
    have hmem := hd.2 d hd' (by simpa using hp)
    exact hn (ht _ (mem_map_of_mem hmem) hde ▸ hdt)
  intro q hq hE
  exact h.gone d hd' hdt hp q hq (hde.trans hE)

theorem shaped_drop : Shaped V { σ with externals := es } := by
  have hmem : ∀ {e}, e ∈ es → e ∈ σ.externals := fun he => hd.1.subset he
  refine ⟨h.tidy, fun e he => h.spelled e (hmem he), fun e he => h.under e (hmem he), ?_,
    fun e he => h.clear e (hmem he), ?_, ?_, h.rootTidy, h.filesTidy, h.distinct⟩
  · exact h.nodup.sublist (hd.1.map External.pre)
  · intro e he ht hp
    by_cases ht' : Topmost σ.externals (segments e.pre)
    · exact h.gone e (hmem he) ht' hp
    · exact gone_of_drop (σ := σ) h hd he ht ht'
  · intro e he ht
    exact h.below e (hmem he) fun ht' => ht (topmost_of_drop hd ht')

theorem rootKept_drop (hR : RootKept V R σ) : RootKept V R { σ with externals := es } := by
  intro q hq hk
  rw [hR q hq hk]
  by_cases hc : Covered es q
  · have hc' : Covered σ.externals q := by
      obtain ⟨E, hE, hEq⟩ := hc
      exact ⟨E, (hd.1.map fun e => segments e.pre).subset hE, hEq⟩
    rw [if_pos hc, if_pos hc']
  · rw [if_neg hc]
    split
    next hc' => exact (none_of_dropped h hd hq hc' hc).symm
    · rfl

end

end Drop

end Spangap.Flags
