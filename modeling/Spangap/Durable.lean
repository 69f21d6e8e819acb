import Spangap.Reboot
import Spangap.Worker

namespace Spangap.Durable

open List Option CJson DotPath Merge Commit Persist View Attach Landing Regions Flags Runs Worker

open Reboot (NoStray fileOf_writeFile fileOf_removeFile fileOf_of_mem navigatePath_external eq_of_pre snapshot_spec
  valueAt_storageLoad clear_of_rootKept fileOf_none_of_topmost Orderly orderly_writeFile filed_flags)

variable {V : Vocabulary} {pats : List (List Name)} {es : List External} {s t : Sys} {i : Nat} {X : Option Json → Prop}
  {p : Name} {q : List Name} {ops : List Op} {e : External} {σ : State} {v : Json}

def content (s : Sys) (p : Name) : Option Json :=
  match s.phase with
  | .writeExternal _ p' v => if p = p' then some v else fileOf s.st.files p
  | _ => fileOf s.st.files p

def copying : Phase → Option Name
  | .snapExternal _ p => some p
  | _ => none

def current : Phase → Option Name
  | .snapExternal _ p => some p
  | .writeExternal _ p _ => some p
  | _ => none

def removing : Phase → Option Name
  | .remove p => some p
  | _ => none

def rootPassed : Phase → Bool
  | .deletes => true
  | .remove _ => true
  | .collect => true
  | _ => false

def deletesPassed : Phase → Bool
  | .collect => true
  | _ => false

def passed (pres : List Name) (p : Name) : Phase → Prop
  | .idle => False
  | .scan i => p ∉ pres.drop i
  | .snapExternal i p' => p ∉ pres.drop i ∧ p ≠ p'
  | .writeExternal i _ _ => p ∉ pres.drop i
  | _ => True

instance (pres : List Name) (p : Name) : (ph : Phase) → Decidable (passed pres p ph)
  | .idle => inferInstanceAs (Decidable False)
  | .scan _ => inferInstanceAs (Decidable (¬ _))
  | .snapExternal _ _ => inferInstanceAs (Decidable (_ ∧ _))
  | .writeExternal _ _ _ => inferInstanceAs (Decidable (¬ _))
  | .testRoot | .snapRoot | .writeRoot _ | .clearRoot | .deletes | .remove _ | .collect =>
    inferInstanceAs (Decidable True)

def RootTracked (V : Vocabulary) (s : Sys) : Prop :=
  match s.phase with
  | .writeRoot snap => Tidy V (.obj snap) ∧ RootKept V snap s.st
  | .clearRoot => RootKept V (s.st.rootFile.getD []) s.st
  | _ => s.st.rootDirty = false → RootKept V (s.st.rootFile.getD []) s.st

/-- What the flags promise at every point of a pass. -/
structure Tracked (V : Vocabulary) (s : Sys) : Prop where
  shape : Shaped V s.st
  root : RootTracked V s
  file : ∀ e ∈ s.st.externals, Topmost s.st.externals (segments e.pre) → e.pendingDelete = false → e.dirty = false →
    copying s.phase ≠ some e.pre → FileKept V (content s e.pre) s.st (segments e.pre) ∨
      view (.obj s.st.cfgRoot) (segments e.pre) = none ∧ content s e.pre = fileOf s.st.files e.pre
  busy : ∀ p, current s.phase = some p →
    ∃ e ∈ s.st.externals, e.pre = p ∧ Topmost s.st.externals (segments e.pre)
  copied : ∀ i p v, s.phase = .writeExternal i p v → Tidy V v
  registered : ∀ f ∈ s.st.files, f.1 ∈ s.st.externals.map External.pre ∨ removing s.phase = some f.1
  removed : ∀ p, removing s.phase = some p → p ∉ s.st.externals.map External.pre
  way : rootPassed s.phase = true → ∀ e ∈ s.st.externals, View.Clear (s.st.rootFile.getD []) (segments e.pre)

theorem content_eq (h : ∀ i p v, s.phase ≠ .writeExternal i p v) (p : Name) : content s p = fileOf s.st.files p := by
  unfold content
  split
  next i p' v hph => exact absurd hph (h i p' v)
  · rfl

theorem content_writing (h : s.phase = .writeExternal i p v) (q : Name) :
    content s q = if q = p then some v else fileOf s.st.files q := by
  rw [content, h]

theorem tracked_iff (hcur : current s.phase = none) (hrem : removing s.phase = none) :
    Tracked V s ↔ Filed V s.st ∧ RootTracked V s ∧
      (rootPassed s.phase = true → ∀ e ∈ s.st.externals, View.Clear (s.st.rootFile.getD []) (segments e.pre)) := by
  have hwrite : ∀ i p v, s.phase ≠ .writeExternal i p v := by
    intro i p v hph
    rw [hph] at hcur
    cases hcur
  have hcopy : ∀ p, copying s.phase ≠ some p := by
    cases hph : s.phase <;> simp_all [copying, current]
  constructor
  · intro h
    refine ⟨⟨h.shape, ?_, ?_⟩, h.root, h.way⟩
    · intro e he ht hpend hd
      have := h.file e he ht hpend hd (hcopy e.pre)
      rw [content_eq hwrite] at this
      exact this.imp_right And.left
    · intro f hf
      exact (h.registered f hf).resolve_right (by simp [hrem])
  · rintro ⟨hf, hroot, hway⟩
    refine ⟨hf.toShaped, hroot, ?_, by simp [hcur], fun i p v hph => absurd hph (hwrite i p v),
      fun f hfile => .inl (hf.registered f hfile), by simp [hrem], hway⟩
    intro e he ht hpend hd _
    rw [content_eq hwrite]
    exact (hf.file e he ht hpend hd).imp_right fun hv => ⟨hv, rfl⟩

theorem rootTracked_apply (h : Tracked V s) (hfair : Fair V pats s.st ops)
    (hwin : inWindow s.phase = true → Sheltered s.st ops) :
    RootTracked V { s with st := applyOps pats s.st ops } := by
  have hroot := h.root
  have hother : (s.st.rootDirty = false → RootKept V (s.st.rootFile.getD []) s.st) →
      (applyOps pats s.st ops).rootDirty = false →
        RootKept V ((applyOps pats s.st ops).rootFile.getD []) (applyOps pats s.st ops) := by
    intro hold hd
    rw [applyOps_eq hfair.unrouted, Bool.or_eq_false_iff, decide_eq_false_iff_not] at hd
    exact rootKept_applyOps h.shape hfair (hold hd.1) (.inl hd.2)
  unfold RootTracked at hroot ⊢
  cases hph : s.phase with
  | writeRoot snap =>
    simp only [hph] at hroot hwin ⊢
    exact ⟨hroot.1, rootKept_applyOps h.shape hfair hroot.2 (.inr (hwin rfl))⟩
  | clearRoot =>
    simp only [hph] at hroot hwin ⊢
    exact rootKept_applyOps h.shape hfair hroot (.inr (hwin rfl))
  | idle | scan | snapExternal | writeExternal | testRoot | snapRoot | deletes | remove | collect =>
    simp only [hph] at hroot ⊢
    exact hother hroot

theorem tracked_apply (h : Tracked V s) (hfair : Fair V pats s.st ops)
    (hwin : inWindow s.phase = true → Sheltered s.st ops) :
    Tracked V { s with st := applyOps pats s.st ops } := by
  have hpre : prefixes (applyOps pats s.st ops).externals = prefixes s.st.externals := prefixes_applyOps hfair.unrouted
  have hnames := pre_applyOps (σ := s.st) hfair.unrouted
  refine ⟨shaped_applyOps h.shape hfair, rootTracked_apply h hfair hwin, ?_, ?_, h.copied, ?_, ?_, ?_⟩
  · intro e he ht hpend hdirty hcopy
    obtain ⟨d, hd, hpd, ht, hp, hdd, hkept, hview⟩ := clean_applyOps h.shape hfair he ht hpend hdirty
    rw [← hpd] at hcopy ⊢
    rw [hview]
    exact (h.file d hd ht hp hdd hcopy).imp_left (hkept _)
  · intro p hp
    obtain ⟨e, he, rfl, ht⟩ := h.busy p hp
    have hmem : e.pre ∈ (applyOps pats s.st ops).externals.map External.pre := by
      rw [hnames]
      exact mem_map_of_mem he
    obtain ⟨e', he', hpre'⟩ := mem_map.mp hmem
    refine ⟨e', he', hpre', ?_⟩
    rw [top_congr hpre, hpre']
    exact ht
  · intro f hf
    rw [hnames]
    exact h.registered f hf
  · intro p hp
    rw [hnames]
    exact h.removed p hp
  · intro hph e he
    obtain ⟨d, hd, hpd, -⟩ := mem_applyOps hfair.unrouted he
    rw [← hpd]
    exact h.way hph d hd

theorem clearDirty_eq (hn : (es.map External.pre).Nodup) (he : es[i]? = some e) :
    clearDirty i es = es.map fun d => if d.pre = e.pre then { d with dirty := false } else d := by
  induction es generalizing i with
  | nil => simp at he
  | cons d es ih =>
    rw [map_cons, nodup_cons] at hn
    cases i with
    | zero =>
      obtain rfl : d = e := by simpa using he
      have hrest : es.map (fun a => if a.pre = d.pre then { a with dirty := false } else a) = es := by
        conv_rhs => rw [← List.map_id es]
        apply map_congr_left
        intro a ha
        have hne : a.pre ≠ d.pre := fun hp => hn.1 (hp ▸ mem_map_of_mem ha)
        rw [if_neg hne]
        rfl
      rw [map_cons, hrest, if_pos rfl]
      rfl
    | succ i =>
      have he' : es[i]? = some e := by simpa using he
      have hne : d.pre ≠ e.pre := fun hp => hn.1 (hp ▸ mem_map_of_mem (mem_of_getElem? he'))
      rw [map_cons, if_neg hne, ← ih hn.2 he']
      rfl

theorem prefixes_clearDirty (hn : (es.map External.pre).Nodup) (he : es[i]? = some e) :
    prefixes (clearDirty i es) = prefixes es ∧ (clearDirty i es).map External.pre = es.map External.pre := by
  rw [clearDirty_eq hn he]
  exact ⟨prefixes_map _ fun d _ => (undirtied _ d).1, pre_map _ fun d _ => (undirtied _ d).1⟩

theorem tracked_clearDirty (h : Filed V s.st) (hroot : s.st.rootDirty = false → RootKept V (s.st.rootFile.getD []) s.st)
    (he : s.st.externals[i]? = some e) (hd : e.dirty = true) :
    Tracked V { s with st := { s.st with externals := clearDirty i s.st.externals }, phase := .snapExternal (i + 1) e.pre } := by
  have hmem := mem_of_getElem? he
  obtain ⟨hpre, hnames⟩ := prefixes_clearDirty h.nodup he
  have htop : Topmost s.st.externals (segments e.pre) := by
    by_contra ht
    rw [(h.below e hmem ht).1] at hd
    cases hd
  refine ⟨?_, ?_, ?_, ?_, by simp, ?_, by simp [removing], nofun⟩
  · rw [clearDirty_eq h.nodup he]
    exact h.toShaped.transfer _ (fun d _ => undirtied _ d) h.tidy (fun _ _ => rfl) h.filesTidy h.distinct
      fun d hd' ht => (h.below d hd' ht).2
  · exact fun hc => (hroot hc).transfer hpre fun _ _ _ => rfl
  · intro d hd' ht hpend hdirty hcopy
    have hne : d.pre ≠ e.pre := fun heq => hcopy (by simp [copying, heq])
    rw [top_congr hpre] at ht
    rw [clearDirty_eq h.nodup he] at hd'
    obtain ⟨d, hmem', rfl⟩ := mem_map.mp hd'
    rw [(undirtied _ d).1] at hne
    simp only [if_neg hne] at ht hpend hdirty ⊢
    exact (h.file d hmem' ht hpend hdirty).imp_right fun hv => ⟨hv, rfl⟩
  · intro p hp
    obtain rfl : e.pre = p := by simpa [current] using hp
    refine ⟨{ e with dirty := false }, ?_, rfl, ?_⟩
    · rw [clearDirty_eq h.nodup he]
      exact mem_map.mpr ⟨e, hmem, by simp⟩
    · dsimp only
      rw [top_congr hpre]
      exact htop
  · intro f hf
    rw [hnames]
    exact .inl (h.registered f hf)

theorem tracked_copy (h : Tracked V s) (hph : s.phase = .snapExternal i p)
    (hv : navigatePath (.obj s.st.cfgRoot) p = some v) : Tracked V { s with phase := .writeExternal i p v } := by
  obtain ⟨e, he, rfl, ht⟩ := h.busy p (by simp [hph, current])
  have hroot := h.root
  rw [RootTracked, hph] at hroot
  rw [navigatePath_external h.shape he] at hv
  refine ⟨h.shape, hroot, ?_, ?_, ?_, ?_, by simp [removing], nofun⟩
  · intro d hd htd hpend hdirty _
    by_cases hpre : d.pre = e.pre
    · left
      rw [content_writing rfl, if_pos hpre, hpre]
      exact fileKept_some hv
    · have := h.file d hd htd hpend hdirty (by simpa [hph, copying] using Ne.symm hpre)
      rw [content_eq (by simp [hph])] at this
      rw [content_writing rfl, if_neg hpre]
      exact this.imp_right fun hv => ⟨hv.1, rfl⟩
  · intro p hp
    obtain rfl : e.pre = p := by simpa [current] using hp
    exact ⟨e, he, rfl, ht⟩
  · rintro j p w hw
    cases hw
    exact tidy_node h.shape.tidy hv
  · intro f hf
    exact .inl ((h.registered f hf).resolve_right (by simp [hph, removing]))

theorem filed_absent (h : Tracked V s) (hph : s.phase = .snapExternal i p)
    (hv : navigatePath (.obj s.st.cfgRoot) p = none) : Filed V s.st := by
  refine ⟨h.shape, ?_, fun f hf => (h.registered f hf).resolve_right (by simp [hph, removing])⟩
  intro e he ht hpend hd
  by_cases hpre : e.pre = p
  · right
    rw [← hpre, navigatePath_external h.shape he] at hv
    simp [view, hv]
  · have := h.file e he ht hpend hd (by simpa [hph, copying] using Ne.symm hpre)
    rw [content_eq (by simp [hph])] at this
    exact this.imp_right And.left

theorem filed_written (h : Tracked V s) (hph : s.phase = .writeExternal i p v) :
    Filed V { s.st with files := writeFile p v s.st.files } := by
  obtain ⟨d, hd, rfl, htd⟩ := h.busy p (by simp [hph, current])
  have hreg : ∀ f ∈ s.st.files, f.1 ∈ s.st.externals.map External.pre :=
    fun f hf => (h.registered f hf).resolve_right (by simp [hph, removing])
  have hfiles := orderly_writeFile ⟨hreg, h.shape.filesTidy, h.shape.distinct⟩ (mem_map_of_mem hd)
    (h.copied i d.pre v hph)
  have hcontent : ∀ q, fileOf (writeFile d.pre v s.st.files) q = content s q := by
    intro q
    rw [fileOf_writeFile, content_writing hph]
  have hshape := h.shape.transfer id (fun _ _ => ⟨rfl, id, id⟩) h.shape.tidy (fun _ _ => rfl) hfiles.tidy
    hfiles.distinct (by
      intro e he ht
      have hne : e.pre ≠ d.pre := fun heq => ht (heq ▸ htd)
      rw [fileOf_writeFile, if_neg hne]
      exact (h.shape.below e he ht).2)
  rw [List.map_id] at hshape
  refine ⟨hshape, ?_, hfiles.registered⟩
  intro e he ht hpend hdirty
  rw [hcontent]
  exact (h.file e he ht hpend hdirty (by simp [hph, copying])).imp_right And.left

theorem split_of_find (hn : (es.map External.pre).Nodup) (he : es.find? External.pendingDelete = some e) :
    e.pendingDelete = true ∧ e.pre ∉ (es.eraseP External.pendingDelete).map External.pre ∧
      ∀ d ∈ es, d.pre = e.pre ∨ d ∈ es.eraseP External.pendingDelete := by
  obtain ⟨hp, A, B, rfl, hA⟩ := find?_eq_some_iff_append.mp he
  have hneg : ∀ a ∈ A, ¬ a.pendingDelete = true := fun a ha => by simpa using hA a ha
  rw [eraseP_append_right _ hneg, eraseP_cons_of_pos hp]
  rw [map_append, map_cons, nodup_middle, nodup_cons, ← map_append] at hn
  refine ⟨hp, hn.1, ?_⟩
  intro d hd
  rcases mem_append.mp hd with hd | hd
  · exact .inr (mem_append_left B hd)
  · rcases mem_cons.mp hd with rfl | hd
    · exact .inl rfl
    · exact .inr (mem_append_right A hd)

theorem dropsPending_eraseP (σ : State) : DropsPending σ (σ.externals.eraseP External.pendingDelete) :=
  ⟨eraseP_sublist, fun _ he hp => (mem_eraseP_of_neg (by simp [hp])).mpr he⟩

theorem filed_drop (h : Shaped V σ)
    (hfile : ∀ e ∈ σ.externals, Topmost σ.externals (segments e.pre) → e.pendingDelete = false → e.dirty = false →
      FileKept V (fileOf σ.files e.pre) σ (segments e.pre) ∨ view (.obj σ.cfgRoot) (segments e.pre) = none)
    (hd : DropsPending σ es) (he : e ∈ es) (ht : Topmost es (segments e.pre)) (hp : e.pendingDelete = false)
    (hc : e.dirty = false) :
    FileKept V (fileOf σ.files e.pre) σ (segments e.pre) ∨ view (.obj σ.cfgRoot) (segments e.pre) = none := by
  have hmem := hd.1.subset he
  by_cases ht' : Topmost σ.externals (segments e.pre)
  · exact hfile e hmem ht' hp hc
  · left
    rw [(h.below e hmem ht').2]
    exact fileKept_none (h.spelled e hmem) (gone_of_drop h hd he ht ht')

theorem tracked_erase (h : Filed V s.st) (hroot : s.st.rootDirty = false → RootKept V (s.st.rootFile.getD []) s.st)
    (hway : ∀ e ∈ s.st.externals, View.Clear (s.st.rootFile.getD []) (segments e.pre))
    (he : s.st.externals.find? External.pendingDelete = some e) :
    Tracked V { s with
      st := { s.st with externals := s.st.externals.eraseP External.pendingDelete }, phase := .remove e.pre } := by
  have hdrop := dropsPending_eraseP s.st
  obtain ⟨-, hgone, hrest⟩ := split_of_find h.nodup he
  refine ⟨shaped_drop h.toShaped hdrop, fun hc => rootKept_drop h.toShaped hdrop (hroot hc), ?_, by simp [current],
    by simp, ?_, ?_, fun _ d hd => hway d (hdrop.1.subset hd)⟩
  · intro d hd ht hp hc _
    exact (filed_drop h.toShaped h.file hdrop hd ht hp hc).imp_right fun hv => ⟨hv, rfl⟩
  · intro f hf
    obtain ⟨d, hd, hpre⟩ := mem_map.mp (h.registered f hf)
    rcases hrest d hd with heq | hmem
    · exact .inr (by simp [removing, ← hpre, heq])
    · exact .inl (hpre ▸ mem_map_of_mem hmem)
  · intro p hp
    obtain rfl : e.pre = p := by simpa [removing] using hp
    exact hgone

theorem filed_removed (h : Tracked V s) (hph : s.phase = .remove p) :
    Filed V { s.st with files := removeFile p s.st.files } := by
  have hp := h.removed p (by simp [hph, removing])
  have hsame : ∀ e ∈ s.st.externals, fileOf (removeFile p s.st.files) e.pre = fileOf s.st.files e.pre := by
    intro e he
    have hne : e.pre ≠ p := fun heq => hp (heq ▸ mem_map_of_mem he)
    rw [fileOf_removeFile, if_neg hne]
  have hshape := h.shape.transfer id (fun _ _ => ⟨rfl, id, id⟩) h.shape.tidy (fun _ _ => rfl)
    (fun f hf => h.shape.filesTidy f (mem_filter.mp hf).1)
    (h.shape.distinct.sublist (filter_sublist.map Prod.fst)) (by
      intro e he ht
      exact (hsame e he).trans (h.shape.below e he ht).2)
  rw [List.map_id] at hshape
  refine ⟨hshape, ?_, ?_⟩
  · intro e he ht hpend hd
    have := h.file e he ht hpend hd (by simp [hph, copying])
    rw [content_eq (by simp [hph])] at this
    rw [hsame e he]
    exact this.imp_right And.left
  · intro f hf
    obtain ⟨hf, hne⟩ := mem_filter.mp hf
    have hfp : f.1 ≠ p := by simpa using hne
    exact (h.registered f hf).resolve_right (by simpa [hph, removing] using Ne.symm hfp)

theorem tracked_work (hV : ∀ p ∈ savedNames, V.mem p) (h : Tracked V s) (hs : work s = some t) : Tracked V t := by
  obtain ⟨σ, ph, poked, sems, given⟩ := s
  cases ph with
  | idle =>
    obtain ⟨hf, hroot, -⟩ := (tracked_iff rfl rfl).mp h
    simp only [work] at hs
    split at hs
    · cases hs
      exact (tracked_iff rfl rfl).mpr ⟨filed_flags hf _ _, hroot, nofun⟩
    · cases hs
  | scan i =>
    obtain ⟨hf, hroot, -⟩ := (tracked_iff rfl rfl).mp h
    simp only [work] at hs
    cases he : σ.externals[i]? with
    | none =>
      simp only [he] at hs
      cases hs
      exact (tracked_iff rfl rfl).mpr ⟨hf, hroot, nofun⟩
    | some e =>
      simp only [he] at hs
      split at hs
      next hd =>
        cases hs
        exact tracked_clearDirty hf hroot he (Bool.and_eq_true_iff.mp hd).1
      · cases hs
        exact (tracked_iff rfl rfl).mpr ⟨hf, hroot, nofun⟩
  | snapExternal i p =>
    simp only [work] at hs
    cases hv : navigatePath (.obj σ.cfgRoot) p with
    | none =>
      have hf := filed_absent h rfl hv
      simp only [hv] at hs
      cases hs
      exact (tracked_iff rfl rfl).mpr ⟨hf, h.root, nofun⟩
    | some v =>
      simp only [hv] at hs
      cases hs
      exact tracked_copy h rfl hv
  | writeExternal i p v =>
    cases hs
    exact (tracked_iff rfl rfl).mpr ⟨filed_written h rfl, h.root, nofun⟩
  | testRoot =>
    obtain ⟨hf, hroot, -⟩ := (tracked_iff rfl rfl).mp h
    simp only [work] at hs
    cases hd : σ.rootDirty with
    | true =>
      simp only [hd, if_true] at hs
      cases hs
      exact (tracked_iff rfl rfl).mpr ⟨hf, hroot, nofun⟩
    | false =>
      simp only [hd, if_false, Bool.false_eq_true] at hs
      cases hs
      exact (tracked_iff rfl rfl).mpr ⟨hf, hroot, fun _ e he => clear_of_rootKept hf.toShaped (hroot hd) he⟩
  | snapRoot =>
    obtain ⟨hf, -, -⟩ := (tracked_iff rfl rfl).mp h
    obtain ⟨⟨htidy, hview⟩, hsnap, hkept⟩ := snapshot_spec hV hf.toShaped
    cases hs
    refine (tracked_iff rfl rfl).mpr ⟨Reboot.filed_of_view hf htidy hview, ⟨hsnap, ?_⟩, nofun⟩
    exact hkept.transfer rfl fun q hq _ => valueAt_of_view (hview q hq)
  | writeRoot snap =>
    obtain ⟨hf, ⟨htidy, hkept⟩, -⟩ := (tracked_iff rfl rfl).mp h
    cases hs
    exact (tracked_iff rfl rfl).mpr ⟨Reboot.filed_rootFile hf htidy _ _, hkept, nofun⟩
  | clearRoot =>
    obtain ⟨hf, hkept, -⟩ := (tracked_iff rfl rfl).mp h
    cases hs
    exact (tracked_iff rfl rfl).mpr
      ⟨filed_flags hf _ _, fun _ => hkept, fun _ e he => clear_of_rootKept hf.toShaped hkept he⟩
  | deletes =>
    obtain ⟨hf, hroot, hway⟩ := (tracked_iff rfl rfl).mp h
    simp only [work] at hs
    cases he : σ.externals.find? External.pendingDelete with
    | none =>
      simp only [he] at hs
      cases hs
      exact (tracked_iff rfl rfl).mpr ⟨hf, hroot, fun _ => hway rfl⟩
    | some e =>
      simp only [he] at hs
      cases hs
      exact tracked_erase hf hroot (hway rfl) he
  | remove p =>
    cases hs
    exact (tracked_iff rfl rfl).mpr ⟨filed_removed h rfl, h.root, fun _ => h.way rfl⟩
  | collect =>
    obtain ⟨hf, hroot, -⟩ := (tracked_iff rfl rfl).mp h
    cases hs
    exact (tracked_iff rfl rfl).mpr ⟨hf, hroot, nofun⟩

/-- What the files the pass is done with have at a path. -/
structure Due (q : List Name) (X : Option Json → Prop) (s : Sys) : Prop where
  root : rootPassed s.phase = true → (Covered s.st.externals q → valueAt (.obj (s.st.rootFile.getD [])) q = none) ∧
    (¬ Covered s.st.externals q → X (valueAt (.obj (s.st.rootFile.getD [])) q))
  file : ∀ e ∈ s.st.externals, Topmost s.st.externals (segments e.pre) → segments e.pre <+: q →
    passed (s.st.externals.map External.pre) e.pre s.phase →
      deletesPassed s.phase = false ∧ e.pendingDelete = true ∨
        X ((content s e.pre).bind fun v => valueAt v (q.drop (segments e.pre).length))

theorem due_idle (hph : s.phase = .idle) : Due q X s := by
  constructor
  · simp [hph, rootPassed]
  · intro e _ _ _ hp
    rw [hph] at hp
    exact hp.elim

theorem of_fileKept {f : Option Json} {E : List Name} (hf : FileKept V f σ E) (hq : Spelled V q)
    (hE : E <+: q) (hX : X (valueAt (.obj σ.cfgRoot) q)) : X (f.bind fun v => valueAt v (q.drop E.length)) := by
  obtain ⟨r, rfl⟩ := hE
  rw [drop_left, ← hf r fun s hs => hq s (mem_append_right _ hs)]
  exact hX

theorem of_absent (h : Shaped V s.st) (hg : NoStray s.st) (he : e ∈ s.st.externals) (hp : e.pendingDelete = false)
    (hv : view (.obj s.st.cfgRoot) (segments e.pre) = none) :
    fileOf s.st.files e.pre = none ∧ Gone V s.st (segments e.pre) := by
  refine ⟨?_, gone_of_view hv⟩
  have hnode : node (.obj s.st.cfgRoot) (segments e.pre) = none := by simpa [view] using hv
  exact isNone_iff_eq_none.mp (hg e he hp (by simp [navigatePath_external h he, hnode]))

theorem of_clean (h : Tracked V s) (hg : NoStray s.st) (he : e ∈ s.st.externals)
    (ht : Topmost s.st.externals (segments e.pre)) (hp : e.pendingDelete = false) (hd : e.dirty = false)
    (hcopy : copying s.phase ≠ some e.pre) (hq : Spelled V q) (hE : segments e.pre <+: q)
    (hX : X (valueAt (.obj s.st.cfgRoot) q)) :
    X ((content s e.pre).bind fun v => valueAt v (q.drop (segments e.pre).length)) := by
  rcases h.file e he ht hp hd hcopy with hf | ⟨hv, hc⟩
  · exact of_fileKept hf hq hE hX
  · obtain ⟨hnone, hgone⟩ := of_absent h.shape hg he hp hv
    rw [hgone q hq hE] at hX
    rw [hc, hnone]
    exact hX

theorem root_of_kept (hR : RootKept V (s.st.rootFile.getD []) s.st) (hq : Spelled V q) (hk : Kept q)
    (hX : X (valueAt (.obj s.st.cfgRoot) q)) :
    (Covered s.st.externals q → valueAt (.obj (s.st.rootFile.getD [])) q = none) ∧
      (¬ Covered s.st.externals q → X (valueAt (.obj (s.st.rootFile.getD [])) q)) := by
  rw [hR q hq hk]
  constructor
  · intro hc
    rw [if_pos hc]
  · intro hc
    rw [if_neg hc]
    exact hX

def Ahead (s : Sys) : Prop :=
  (∀ e ∈ s.st.externals, e.pendingDelete = false → e.dirty = true →
      ¬ passed (s.st.externals.map External.pre) e.pre s.phase) ∧
    (rootPassed s.phase = true → s.st.rootDirty = false) ∧
    (deletesPassed s.phase = true → ∀ e ∈ s.st.externals, e.pendingDelete = false) ∧
    (isIdle s.phase = false → NoStray s.st)
  deriving Decidable

theorem due_of_ahead (h : Tracked V s) (ha : Ahead s) (hq : Spelled V q) (hk : Kept q)
    (hX : X (valueAt (.obj s.st.cfgRoot) q)) : Due q X s := by
  obtain ⟨hext, hroot, hdel, hstray⟩ := ha
  constructor
  · intro hp
    have hkept : RootKept V (s.st.rootFile.getD []) s.st := by
      have hr := h.root
      unfold RootTracked at hr
      cases hph : s.phase with
      | deletes | remove | collect =>
        rw [hph] at hr
        exact hr (hroot hp)
      | idle | scan | snapExternal | writeExternal | testRoot | snapRoot | writeRoot | clearRoot =>
        simp [hph, rootPassed] at hp
    exact root_of_kept hkept hq hk hX
  · intro e he ht hE hp
    cases hpend : e.pendingDelete with
    | true =>
      refine .inl ⟨?_, rfl⟩
      by_contra hd
      have := hdel (by simpa using hd) e he
      rw [hpend] at this
      cases this
    | false =>
      right
      have hclean : e.dirty = false := by
        by_contra hd
        exact hext e he hpend (by simpa using hd) hp
      have hcopy : copying s.phase ≠ some e.pre := by
        intro hc
        cases hph : s.phase with
        | snapExternal i p =>
          rw [hph] at hp hc
          exact hp.2 (by simpa [copying] using hc.symm)
        | idle | scan | writeExternal | testRoot | snapRoot | writeRoot | clearRoot | deletes | remove | collect =>
          simp [hph, copying] at hc
      have hbusy : isIdle s.phase = false := by
        cases hph : s.phase with
        | idle =>
          rw [hph] at hp
          exact hp.elim
        | scan | snapExternal | writeExternal | testRoot | snapRoot | writeRoot | clearRoot | deletes | remove
          | collect => rfl
      exact of_clean h (hstray hbusy) he ht hpend hclean hcopy hq hE hX

theorem due_apply (h : Due q X s) (hr : ∀ o ∈ ops, sdbRoute pats o.key = none) :
    Due q X { s with st := applyOps pats s.st ops } := by
  have hpre : prefixes (applyOps pats s.st ops).externals = prefixes s.st.externals := prefixes_applyOps hr
  constructor
  · intro hp
    rw [covered_congr hpre]
    exact h.root hp
  · intro e he ht hE hp
    obtain ⟨d, hd, hpd, hpend, -⟩ := mem_applyOps hr he
    rw [top_congr hpre, ← hpd] at ht
    rw [pre_applyOps hr, ← hpd] at hp
    rw [← hpd] at hE ⊢
    rcases h.file d hd ht hE hp with ⟨hdel, hpd'⟩ | hX
    · exact .inl ⟨hdel, by simp [hpend, hpd']⟩
    · exact .inr hX

theorem Due.move (h : Due q X s) (hext : t.st.externals = s.st.externals) (hcontent : ∀ p, content t p = content s p)
    (hroot : rootPassed t.phase = true → (Covered t.st.externals q → valueAt (.obj (t.st.rootFile.getD [])) q = none) ∧
      (¬ Covered t.st.externals q → X (valueAt (.obj (t.st.rootFile.getD [])) q)))
    (hdel : deletesPassed t.phase = true → ∀ e ∈ s.st.externals, e.pendingDelete = false)
    (hfile : ∀ e ∈ s.st.externals, Topmost s.st.externals (segments e.pre) → segments e.pre <+: q →
      passed (s.st.externals.map External.pre) e.pre t.phase →
      passed (s.st.externals.map External.pre) e.pre s.phase ∨ e.pendingDelete = true ∨
        X ((content s e.pre).bind fun v => valueAt v (q.drop (segments e.pre).length))) : Due q X t := by
  refine ⟨hroot, ?_⟩
  rw [hext]
  intro e he ht hE hp
  have hpending : e.pendingDelete = true → deletesPassed t.phase = false := by
    intro hpend
    by_contra hd
    have := hdel (by simpa using hd) e he
    rw [hpend] at this
    cases this
  rw [hcontent]
  rcases hfile e he ht hE hp with hp | hpend | hX
  · rcases h.file e he ht hE hp with ⟨-, hpend⟩ | hX
    · exact .inl ⟨hpending hpend, hpend⟩
    · exact .inr hX
  · exact .inl ⟨hpending hpend, hpend⟩
  · exact .inr hX

theorem pre_drop (he : es[i]? = some e) : (es.map External.pre).drop i = e.pre :: (es.map External.pre).drop (i + 1) := by
  obtain ⟨hi, rfl⟩ := List.getElem?_eq_some_iff.mp he
  rw [drop_eq_getElem_cons (by simpa using hi), getElem_map]

section Due

variable (h : Tracked V s) (hd : Due q X s) (hq : Spelled V q) (hX : X (valueAt (.obj s.st.cfgRoot) q))

include h hd hq hX

theorem due_scan (hg : NoStray s.st) (hph : s.phase = .scan i) (hs : work s = some t) : Due q X t := by
  obtain ⟨σ, ph, poked, sems, given⟩ := s
  cases hph
  simp only [work] at hs
  cases he : σ.externals[i]? with
  | none =>
    simp only [he] at hs
    cases hs
    refine hd.move rfl (fun _ => rfl) nofun nofun ?_
    intro e _ _ _ _
    left
    have hlen := getElem?_eq_none_iff.mp he
    dsimp only [passed]
    rw [← map_drop, drop_eq_nil_of_le hlen]
    exact not_mem_nil
  | some d =>
    have hdrop := pre_drop he
    have hmem := mem_of_getElem? he
    simp only [he] at hs
    split at hs
    · cases hs
      obtain ⟨hpre, hnames⟩ := prefixes_clearDirty h.shape.nodup he
      refine ⟨nofun, ?_⟩
      intro e hmem' ht hE hp
      rw [top_congr hpre] at ht
      rw [hnames] at hp
      rw [clearDirty_eq h.shape.nodup he] at hmem'
      obtain ⟨e, heσ, rfl⟩ := mem_map.mp hmem'
      by_cases hne : e.pre = d.pre
      · simp only [if_pos hne] at hp
        exact absurd hne hp.2
      · simp only [if_neg hne] at ht hE hp ⊢
        refine (hd.file e heσ ht hE ?_).imp_left fun h' => ⟨rfl, h'.2⟩
        dsimp only [passed]
        rw [hdrop, mem_cons, not_or]
        exact ⟨hne, hp.1⟩
    next hflags =>
      cases hs
      refine hd.move rfl (fun _ => rfl) nofun nofun ?_
      intro e heσ ht hE hp
      by_cases hpre : e.pre = d.pre
      · obtain rfl := eq_of_pre h.shape heσ hmem hpre
        right
        cases hpend : e.pendingDelete with
        | true => exact .inl rfl
        | false =>
          right
          have hclean : e.dirty = false := by simpa [hpend] using hflags
          exact of_clean h hg heσ ht hpend hclean (by simp [copying]) hq hE hX
      · left
        dsimp only [passed] at hp ⊢
        rw [hdrop, mem_cons, not_or]
        exact ⟨hpre, hp⟩

theorem due_snapExternal (hg : NoStray s.st) (hph : s.phase = .snapExternal i p) (hs : work s = some t) :
    Due q X t := by
  obtain ⟨σ, ph, poked, sems, given⟩ := s
  cases hph
  simp only [work] at hs
  cases hv : navigatePath (.obj σ.cfgRoot) p with
  | none =>
    simp only [hv] at hs
    cases hs
    refine hd.move rfl (fun _ => rfl) (by rintro ⟨⟩) (by rintro ⟨⟩) ?_
    intro e he ht hE hp
    by_cases hpre : e.pre = p
    · right
      cases hpend : e.pendingDelete with
      | true => exact .inl rfl
      | false =>
        right
        have hview : view (.obj σ.cfgRoot) (segments e.pre) = none := by
          rw [← hpre, navigatePath_external h.shape he] at hv
          simp [view, hv]
        obtain ⟨hnone, hgone⟩ := of_absent h.shape hg he hpend hview
        rw [hgone q hq hE] at hX
        rw [content_eq (by simp), hnone]
        exact hX
    · exact .inl ⟨hp, hpre⟩
  | some v =>
    simp only [hv] at hs
    cases hs
    refine ⟨by rintro ⟨⟩, ?_⟩
    intro e he ht hE hp
    rw [content_writing rfl]
    by_cases hpre : e.pre = p
    · right
      rw [if_pos hpre]
      rw [← hpre, navigatePath_external h.shape he] at hv
      exact of_fileKept (V := V) (σ := σ) (fileKept_some hv) hq hE hX
    · rw [if_neg hpre]
      have := hd.file e he ht hE ⟨hp, hpre⟩
      exact this.imp_left fun h' => ⟨rfl, h'.2⟩

theorem due_erase (hph : s.phase = .deletes) (p : Name) : Due q X { s with
      st := { s.st with externals := s.st.externals.eraseP External.pendingDelete }, phase := .remove p } := by
  have hdrop := dropsPending_eraseP s.st
  obtain ⟨hcov, hunc⟩ := hd.root (by simp [hph, rootPassed])
  constructor
  · intro _
    constructor
    · rintro ⟨E, hE, hEq⟩
      exact hcov ⟨E, (hdrop.1.map fun e => segments e.pre).subset hE, hEq⟩
    · intro hn
      by_cases hc : Covered s.st.externals q
      · rw [hcov hc, ← none_of_dropped h.shape hdrop hq hc hn]
        exact hX
      · exact hunc hc
  · intro d hmem ht hE _
    have hmem' := hdrop.1.subset hmem
    rw [content_eq (by simp)]
    by_cases ht' : Topmost s.st.externals (segments d.pre)
    · have := hd.file d hmem' ht' hE (by simp [hph, passed])
      rw [content_eq (by simp [hph])] at this
      exact this.imp_left fun h' => ⟨rfl, h'.2⟩
    · right
      have hgone := gone_of_drop (σ := s.st) h.shape hdrop hmem ht ht'
      rw [hgone q hq hE] at hX
      rw [(h.shape.below d hmem' ht').2]
      exact hX

theorem due_work (hg : NoStray s.st) (hk : Kept q) (hs : work s = some t) : Due q X t := by
  obtain ⟨σ, ph, poked, sems, given⟩ := s
  cases ph with
  | scan i => exact due_scan h hd hq hX hg rfl hs
  | snapExternal i p => exact due_snapExternal h hd hq hX hg rfl hs
  | idle =>
    simp only [work] at hs
    split at hs
    · cases hs
      refine ⟨nofun, ?_⟩
      intro e he _ _ hp
      exact absurd (mem_map_of_mem he) hp
    · cases hs
  | writeExternal i p v =>
    cases hs
    refine hd.move rfl ?_ nofun nofun fun e _ _ _ hp => .inl hp
    intro p'
    have hw := content_writing (s := ⟨σ, .writeExternal i p v, poked, sems, given⟩) rfl p'
    exact (content_eq (by simp) p').trans ((fileOf_writeFile σ.files p p' v).trans hw.symm)
  | testRoot =>
    have hroot := h.root
    simp only [work] at hs
    cases hdirty : σ.rootDirty with
    | true =>
      simp only [hdirty, if_true] at hs
      cases hs
      exact hd.move rfl (fun _ => rfl) nofun nofun fun e _ _ _ hp => .inl hp
    | false =>
      simp only [hdirty, if_false, Bool.false_eq_true] at hs
      cases hs
      exact hd.move rfl (fun _ => rfl) (fun _ => root_of_kept (s := ⟨σ, .deletes, poked, sems, given⟩)
        (hroot hdirty) hq hk hX) nofun fun e _ _ _ hp => .inl hp
  | snapRoot | writeRoot snap =>
    cases hs
    exact hd.move rfl (fun _ => rfl) nofun nofun fun e _ _ _ hp => .inl hp
  | clearRoot =>
    have hroot : RootKept V (σ.rootFile.getD []) σ := h.root
    cases hs
    exact hd.move rfl (fun _ => rfl) (fun _ => root_of_kept (s := ⟨{ σ with rootDirty := false }, .deletes, poked, sems, given⟩)
      hroot hq hk hX) nofun fun e _ _ _ hp => .inl hp
  | deletes =>
    simp only [work] at hs
    cases he : σ.externals.find? External.pendingDelete with
    | none =>
      simp only [he] at hs
      cases hs
      refine hd.move rfl (fun _ => rfl) (fun _ => hd.root rfl) (fun _ e hmem => ?_) fun e _ _ _ hp => .inl hp
      simpa using find?_eq_none.mp he e hmem
    | some e =>
      simp only [he] at hs
      cases hs
      exact due_erase h hd hq hX rfl e.pre
  | remove p =>
    cases hs
    have hp := h.removed p rfl
    refine ⟨fun _ => hd.root rfl, ?_⟩
    intro e he ht hE _
    have hne : e.pre ≠ p := fun heq => hp (heq ▸ mem_map_of_mem he)
    have := hd.file e he ht hE trivial
    rw [content_eq (by simp)] at this ⊢
    rw [fileOf_removeFile, if_neg hne]
    exact this
  | collect =>
    cases hs
    exact due_idle rfl

end Due

section Run

variable {a : Action}

/-- Schedules in which the flags tell what is unsaved, and a save is asked for
while every flag that is set is still ahead of the worker. -/
def Allowed (V : Vocabulary) (pats : List (List Name)) (s : Sys) : Action → Prop
  | .apply ops => Fair V pats s.st ops ∧ (inWindow s.phase = true → Sheltered s.st ops)
  | .register key => isIdle s.phase = true ∧ CanRegister V s.st (stripDots key)
  | .save _ => Ahead s
  | .poke => True
  | .work => NoStray s.st

instance (σ : State) (ops : List Op) : Decidable (Sheltered σ ops) :=
  inferInstanceAs (Decidable (∀ o ∈ ops, ∀ r ∈ landings o, Covered σ.externals r))

instance (V : Vocabulary) (pats : List (List Name)) (s : Sys) : (a : Action) → Decidable (Allowed V pats s a)
  | .apply _ => inferInstanceAs (Decidable (_ ∧ _))
  | .register _ => inferInstanceAs (Decidable (_ ∧ _))
  | .save _ => inferInstanceAs (Decidable (Ahead s))
  | .poke => inferInstanceAs (Decidable True)
  | .work => inferInstanceAs (Decidable (NoStray s.st))

theorem phase_of_isIdle {ph : Phase} (h : isIdle ph = true) : ph = .idle := by
  cases ph with
  | idle => rfl
  | scan | snapExternal | writeExternal | testRoot | snapRoot | writeRoot | clearRoot | deletes | remove | collect =>
    cases h

theorem tracked_idle (hph : s.phase = .idle) : Tracked V s ↔ Synced V s.st := by
  rw [tracked_iff (by simp [hph, current]) (by simp [hph, removing]), RootTracked, hph]
  constructor
  · rintro ⟨hf, hroot, -⟩
    exact ⟨hf, hroot⟩
  · intro h
    exact ⟨h.toFiled, h.root, nofun⟩

theorem tracked_step (hV : ∀ p ∈ savedNames, V.mem p) (h : Tracked V s) (ha : Allowed V pats s a)
    (hs : step pats s a = some t) : Tracked V t := by
  cases a with
  | apply ops =>
    cases hs
    exact tracked_apply h ha.1 ha.2
  | register key =>
    cases hs
    have hph := phase_of_isIdle ha.1
    have hsynced := synced_storageNewTreeFile ((tracked_idle hph).mp h) ha.2
    exact (tracked_idle (s := { s with st := storageNewTreeFile s.st key }) hph).mpr hsynced
  | save c | poke =>
    cases hs
    exact { h with }
  | work => exact tracked_work hV h hs

theorem due_step (h : Tracked V s) (hd : Due q X s) (ha : Allowed V pats s a) (hq : Spelled V q) (hk : Kept q)
    (hX : X (valueAt (.obj s.st.cfgRoot) q)) (hs : step pats s a = some t) : Due q X t := by
  cases a with
  | apply ops =>
    cases hs
    exact due_apply hd ha.1.unrouted
  | register key =>
    cases hs
    exact due_idle (phase_of_isIdle ha.1)
  | save c | poke =>
    cases hs
    exact ⟨hd.root, hd.file⟩
  | work => exact due_work h hd hq hX ha hk hs

/-- Every file has an acceptable value at the path once the pass is done with it,
provided that the tree always has one. -/
theorem due_run (hV : ∀ p ∈ savedNames, V.mem p) (hq : Spelled V q) (hk : Kept q) {as : List Action}
    (h : Tracked V s) (hd : Due q X s) (hok : Meets (step pats) (Allowed V pats) s as)
    (hX : ∀ bs u, bs <+: as → run (step pats) s bs = some u → X (valueAt (.obj u.st.cfgRoot) q))
    (hrun : run (step pats) s as = some t) : Tracked V t ∧ Due q X t := by
  induction as generalizing s with
  | nil =>
    cases hrun
    exact ⟨h, hd⟩
  | cons a as ih =>
    obtain ⟨u, hu, hrest⟩ := (run_cons _ s t a as).mp hrun
    have hX0 := hX [] s nil_prefix rfl
    refine ih (tracked_step hV h hok.1 hu) (due_step h hd hok.1 hq hk hX0 hu) (hok.2 u hu) ?_ hrest
    intro bs w hbs hw
    exact hX (a :: bs) w (cons_prefix_cons.mpr ⟨rfl, hbs⟩) ((run_cons _ s w a bs).mpr ⟨u, hu, hw⟩)

theorem load_of_due (h : Tracked V t) (hd : Due q X t) (hph : t.phase = .collect) (hq : Spelled V q) :
    X (valueAt (.obj (storageLoad t.st.rootFile t.st.files)) q) := by
  have hreg : ∀ f ∈ t.st.files, f.1 ∈ t.st.externals.map External.pre :=
    fun f hf => (h.registered f hf).resolve_right (by simp [hph, removing])
  obtain ⟨-, hval⟩ := valueAt_storageLoad h.shape hreg (h.way (by simp [hph, rootPassed]))
  obtain ⟨hcov, hunc⟩ := hd.root (by simp [hph, rootPassed])
  by_cases hc : Covered t.st.externals q
  · obtain ⟨e, he, hE, ht⟩ := exists_topmost hc
    have hX := (hd.file e he ht hE (by simp [hph, passed])).resolve_left (by simp [hph, deletesPassed])
    rw [content_eq (by simp [hph])] at hX
    cases hf : fileOf t.st.files e.pre with
    | some v =>
      rw [(hval q hq).1 e he hE v hf]
      simpa [hf] using hX
    | none =>
      have hnone : ∀ d ∈ t.st.externals, segments d.pre <+: q → fileOf t.st.files d.pre = none :=
        fun d hd' hD => fileOf_none_of_topmost h.shape hd' he ht hE hD hf
      rw [(hval q hq).2 hnone, hcov hc]
      simpa [hf] using hX
  · rw [(hval q hq).2 fun e he hE => absurd ⟨_, mem_map_of_mem he, hE⟩ hc]
    exact hunc hc

/-- A save that is queued after `as` and given at the end of `bs`: at every path,
a boot from the files finds what the tree had there at some moment in between. -/
def Contained (V : Vocabulary) (pats : List (List Name)) (σ : State) (as : List Action) (call : Nat) (bs : List Action) :
    Prop :=
  ∀ s t, run (step pats) (boot σ) (as ++ [.save call]) = some s → run (step pats) s bs = some t →
    t.phase = .collect → call ∈ t.pendingSaveSems → ∀ q, Spelled V q → Kept q →
      ∃ cs u, cs <+: bs ∧ run (step pats) s cs = some u ∧
        valueAt (.obj (storageLoad t.st.rootFile t.st.files)) q = valueAt (.obj u.st.cfgRoot) q

/-- `storageSave` is durable where every flag that is set is ahead of the worker
when the save is queued. -/
theorem storageSave_durable (V : Vocabulary) (hV : ∀ p ∈ savedNames, V.mem p) (pats : List (List Name)) (σ : State)
    (h0 : Synced V σ) (as : List Action) (call : Nat) (bs : List Action)
    (h : Meets (step pats) (Allowed V pats) (boot σ) (as ++ .save call :: bs)) : Contained V pats σ as call bs := by
  intro s t hs ht hph _ q hq hk
  obtain ⟨r, hr, hsave⟩ := (run_append _ _ _ _ _).mp hs
  obtain ⟨has, hrest⟩ := meets_append h hr
  have htracked : Tracked V r :=
    run_invariant (fun _ _ _ hi ha hs => tracked_step hV hi ha hs) ((tracked_idle rfl).mpr h0) has hr
  obtain ⟨u, hu, hsu⟩ := (run_cons _ r s (Action.save call) []).mp hsave
  cases hu
  cases hsu
  have hok : Meets (step pats) (Allowed V pats) { r with pendingSaveSems := r.pendingSaveSems ++ [call] } bs :=
    hrest.2 _ rfl
  have hsaved : Tracked V { r with pendingSaveSems := r.pendingSaveSems ++ [call] } :=
    tracked_step hV htracked hrest.1 rfl
  let X : Option Json → Prop := fun x => ∃ cs u, cs <+: bs ∧
    run (step pats) { r with pendingSaveSems := r.pendingSaveSems ++ [call] } cs = some u ∧
      x = valueAt (.obj u.st.cfgRoot) q
  have hX : ∀ cs u, cs <+: bs → run (step pats) { r with pendingSaveSems := r.pendingSaveSems ++ [call] } cs = some u →
      X (valueAt (.obj u.st.cfgRoot) q) := fun cs u hcs hu => ⟨cs, u, hcs, hu, rfl⟩
  have hdue := due_of_ahead (X := X) hsaved hrest.1 hq hk (hX [] _ nil_prefix rfl)
  obtain ⟨htt, hdt⟩ := due_run hV hq hk hsaved hdue hok hX ht
  exact load_of_due htt hdt hph hq

/-- A save that is queued while a pass is at its first external. -/
def earlySave : List Action :=
  [.register (lit "s.a"), .apply [setText "s.a.x" "1", setText "s.b" "2"], .poke, .work]

/-- The rest of the pass, with an update of the tree file that it has copied. -/
def restOfPass : List Action :=
  [.poke, .work, .work, .apply [setText "s.a.y" "3"], .work, .work, .work, .work, .work, .work, .work]

theorem storageSave_durable_earlySave :
    (run (step []) (boot empty) (earlySave ++ .save 0 :: restOfPass)).any (fun t => deletesPassed t.phase) = true ∧
      Contained Reboot.fewNames [] empty earlySave 0 restOfPass :=
  ⟨by decide +kernel, storageSave_durable Reboot.fewNames (by decide) [] empty synced_empty earlySave 0 restOfPass
    (by decide +kernel)⟩

/-- A pass that has tested `root.json` when the first update comes. -/
def latePass : List Action := [.poke, .work, .work, .work, .apply [setText "s.a" "1"]]

/-- The semaphore is given by the pass that was past `root.json` when it was queued. -/
theorem storageSave_not_durable :
    ¬ ∀ as call bs, (∀ ops, .apply ops ∈ as ++ bs → ∀ o ∈ ops, persistent o.key = true) →
      Contained Reboot.fewNames [] empty as call bs := by
  intro h
  have hend : (run (step []) (boot empty) (latePass ++ [.save 0])).any (fun s =>
      (run (step []) s [.work]).any (fun t => deletesPassed t.phase && decide (0 ∈ t.pendingSaveSems) &&
        (valueAt (.obj (storageLoad t.st.rootFile t.st.files)) [lit "s", lit "a"]).isNone) &&
      [.work].inits.all fun cs => (run (step []) s cs).all fun u =>
        (valueAt (.obj u.st.cfgRoot) [lit "s", lit "a"]).isSome) = true := by decide +kernel
  obtain ⟨s, hs, hend⟩ := (any_eq_true _ _).mp hend
  rw [Bool.and_eq_true] at hend
  obtain ⟨hgiven, hheld⟩ := hend
  obtain ⟨t, ht, hgiven⟩ := (any_eq_true _ _).mp hgiven
  simp only [Bool.and_eq_true, decide_eq_true_eq, isNone_iff_eq_none] at hgiven
  obtain ⟨⟨hph, hmem⟩, hload⟩ := hgiven
  have hcollect : t.phase = .collect := by
    cases hp : t.phase <;> simp_all [deletesPassed]
  have hops : ∀ ops, Action.apply ops ∈ latePass ++ [.work] → ∀ o ∈ ops, persistent o.key = true := by
    intro ops hm
    obtain rfl : ops = [setText "s.a" "1"] := by simpa [latePass] using hm
    decide
  obtain ⟨cs, u, hcs, hu, hval⟩ := h latePass 0 [.work] hops s t hs ht hcollect hmem [lit "s", lit "a"]
    (by decide) (by decide)
  have hsome := all_eq_true.mp hheld cs ((mem_inits cs _).mpr hcs)
  rw [hu, all_some, ← hval, hload] at hsome
  cases hsome

end Run

end Spangap.Durable
