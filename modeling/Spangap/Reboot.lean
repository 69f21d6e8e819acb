import Spangap.Flags
import Spangap.Registry
import Spangap.Runs

namespace Spangap.Reboot

open List Option CJson FirstMatch DotPath Merge Commit Persist View Attach Landing Regions Flags Runs
open Registry (Outcome)

variable {V : Vocabulary} {pats : List (List Name)} {σ : State} {ops : List Op} {pres q E : List Name} {es : List External}
  {e d : External} {l : List Step × Scalar} {files : List (Name × Json)} {f : Name × Json} {att : Name → Bool}
  {cs R : List Child} {v : Json}

section Files

def writeExternalFileWith (o : Outcome) (cs : List Child) (p : Name) (files : List (Name × Json)) : List (Name × Json) :=
  match navigatePath (.obj cs) p with
  | none => files
  | some v =>
    match o with
    | .written => writeFile p v files
    | .kept => files
    | .dropped => removeFile p files

variable {p q : Name}

theorem fileOf_removeFile (files : List (Name × Json)) (p q : Name) :
    fileOf (removeFile p files) q = if q = p then none else fileOf files q := by
  have hfind : (removeFile p files).find? (fun f => decide (f.1 = q)) =
      if q = p then none else files.find? fun f => decide (f.1 = q) := by
    induction files with
    | nil => simp [removeFile]
    | cons f files ih =>
      rw [removeFile] at ih ⊢
      by_cases hf : f.1 = p
      · rw [filter_cons_of_neg (by simpa using hf), ih]
        by_cases hq : q = p
        · rw [if_pos hq, if_pos hq]
        · rw [if_neg hq, if_neg hq, find?_cons_of_neg (by simpa [hf] using Ne.symm hq)]
      · rw [filter_cons_of_pos (by simpa using hf)]
        by_cases hq : f.1 = q
        · rw [find?_cons_of_pos (by simpa using hq), find?_cons_of_pos (by simpa using hq),
            if_neg (hq ▸ hf)]
        · rw [find?_cons_of_neg (by simpa using hq), find?_cons_of_neg (by simpa using hq), ih]
  rw [fileOf, hfind, fileOf]
  split <;> rfl

theorem fileOf_writeFile (files : List (Name × Json)) (p q : Name) (v : Json) :
    fileOf (writeFile p v files) q = if q = p then some v else fileOf files q := by
  have happend : fileOf (writeFile p v files) q = (fileOf (removeFile p files) q).or (fileOf [(p, v)] q) := by
    rw [fileOf, writeFile, find?_append, map_or]
    rfl
  rw [happend, fileOf_removeFile]
  by_cases h : q = p
  · subst h
    simp [fileOf]
  · rw [if_neg h, if_neg h]
    simp [fileOf, Ne.symm h]

theorem fileOf_writeExternalFileWith (o : Name → Outcome) (cs : List Child) (files : List (Name × Json)) (a p : Name) :
    fileOf (writeExternalFileWith (o a) cs a files) p =
      if p = a then ((navigatePath (.obj cs) p).map fun v => (o p).of v (fileOf files p)).getD (fileOf files p)
      else fileOf files p := by
  by_cases h : p = a
  · subst h
    rw [if_pos rfl, writeExternalFileWith]
    cases navigatePath (.obj cs) p with
    | none => rfl
    | some v => cases o p <;> simp [Outcome.of, fileOf_writeFile, fileOf_removeFile]
  · rw [if_neg h, writeExternalFileWith]
    cases navigatePath (.obj cs) a with
    | none => rfl
    | some v => cases o a <;> simp [fileOf_writeFile, fileOf_removeFile, h]

theorem fileOf_foldl_with (o : Name → Outcome) (cs : List Child) (es : List External) (files : List (Name × Json))
    (p : Name) :
    fileOf (es.foldl (fun fs e => writeExternalFileWith (o e.pre) cs e.pre fs) files) p =
      if p ∈ es.map External.pre then
        ((navigatePath (.obj cs) p).map fun v => (o p).of v (fileOf files p)).getD (fileOf files p)
      else fileOf files p := by
  induction es generalizing files with
  | nil => simp
  | cons e es ih =>
    rw [foldl_cons, ih, fileOf_writeExternalFileWith]
    by_cases h1 : p = e.pre
    · by_cases h2 : p ∈ es.map External.pre
      · rw [if_pos h2, if_pos h1, if_pos (by simp [h2])]
        cases navigatePath (.obj cs) p with
        | none => rfl
        | some v => cases o p <;> rfl
      · rw [if_neg h2, if_pos h1, if_pos (by simp [h1])]
    · by_cases h2 : p ∈ es.map External.pre
      · rw [if_pos h2, if_neg h1, if_pos (by simp [h2])]
      · rw [if_neg h2, if_neg h1, if_neg (by simpa [h1] using h2)]

theorem fileOf_foldl_remove (es : List External) (files : List (Name × Json)) (p : Name) :
    fileOf (es.foldl (fun fs e => removeFile e.pre fs) files) p =
      if p ∈ es.map External.pre then none else fileOf files p := by
  induction es generalizing files with
  | nil => simp
  | cons e es ih =>
    rw [foldl_cons, ih, fileOf_removeFile]
    by_cases h1 : p = e.pre <;> by_cases h2 : p ∈ es.map External.pre <;> simp_all

theorem fileOf_of_mem (hn : (files.map Prod.fst).Nodup) (hf : f ∈ files) : fileOf files f.1 = some f.2 := by
  induction files with
  | nil => simp at hf
  | cons g files ih =>
    rw [map_cons, nodup_cons] at hn
    rcases mem_cons.mp hf with rfl | hmem
    · simp [fileOf]
    · have hne : g.1 ≠ f.1 := fun h => hn.1 (h ▸ List.mem_map_of_mem hmem)
      rw [← ih hn.2 hmem, fileOf, find?_cons_of_neg (by simpa using hne), fileOf]

theorem mem_of_fileOf (h : fileOf files p = some v) : (p, v) ∈ files := by
  obtain ⟨f, hf, rfl⟩ := map_eq_some_iff.mp h
  have hp : f.1 = p := by simpa using find?_some hf
  rw [← hp]
  exact mem_of_find?_eq_some hf

/-- Every file belongs to a registered prefix and is tidy, and no two have one name. -/
structure Orderly (V : Vocabulary) (pres : List Name) (files : List (Name × Json)) : Prop where
  registered : ∀ f ∈ files, f.1 ∈ pres
  tidy : ∀ f ∈ files, Tidy V f.2
  distinct : (files.map Prod.fst).Nodup

theorem orderly_removeFile (p : Name) (h : Orderly V pres files) : Orderly V pres (removeFile p files) :=
  ⟨fun f hf => h.registered f (mem_filter.mp hf).1, fun f hf => h.tidy f (mem_filter.mp hf).1,
    h.distinct.sublist (filter_sublist.map Prod.fst)⟩

theorem orderly_writeFile (h : Orderly V pres files) (hp : p ∈ pres) (hv : Tidy V v) : Orderly V pres (writeFile p v files) := by
  have hold := orderly_removeFile p h
  refine ⟨forall_mem_append.mpr ⟨hold.registered, forall_mem_singleton.mpr hp⟩,
    forall_mem_append.mpr ⟨hold.tidy, forall_mem_singleton.mpr hv⟩, ?_⟩
  rw [writeFile, map_append, nodup_append]
  refine ⟨hold.distinct, by simp, ?_⟩
  rintro a ha b hb rfl
  obtain ⟨f, hf, rfl⟩ := List.mem_map.mp ha
  have hne : f.1 ≠ p := by simpa using (mem_filter.mp hf).2
  exact hne (by simpa using hb)

theorem orderly_foldl_with {o : Name → Outcome}
    (hes : ∀ e ∈ es, e.pre ∈ pres ∧ ∀ v, navigatePath (.obj cs) e.pre = some v → Tidy V v) (h : Orderly V pres files) :
    Orderly V pres (es.foldl (fun fs e => writeExternalFileWith (o e.pre) cs e.pre fs) files) := by
  induction es generalizing files with
  | nil => exact h
  | cons e es ih =>
    obtain ⟨he, hes⟩ := forall_mem_cons.mp hes
    apply ih hes
    dsimp only [writeExternalFileWith]
    split
    · exact h
    next v hv =>
      split
      · exact orderly_writeFile h he.1 (he.2 v hv)
      · exact h
      · exact orderly_removeFile _ h

theorem orderly_foldl_remove (es : List External) (h : Orderly V pres files) :
    Orderly V pres (es.foldl (fun fs e => removeFile e.pre fs) files) := by
  induction es generalizing files with
  | nil => exact h
  | cons e es ih => exact ih (orderly_removeFile e.pre h)

end Files

section Flush

def NoStray (σ : State) : Prop :=
  ∀ e ∈ σ.externals, e.pendingDelete = false → (navigatePath (.obj σ.cfgRoot) e.pre).isNone = true →
    (fileOf σ.files e.pre).isNone = true
  deriving Decidable

/-- The files of the topmost externals are up to date. -/
def FilesKept (V : Vocabulary) (σ : State) : Prop :=
  ∀ e ∈ σ.externals, Topmost σ.externals (segments e.pre) → e.pendingDelete = false →
    FileKept V (fileOf σ.files e.pre) σ (segments e.pre)

theorem navigatePath_external (h : Shaped V σ) (he : e ∈ σ.externals) :
    navigatePath (.obj σ.cfgRoot) e.pre = node (.obj σ.cfgRoot) (segments e.pre) := by
  rw [navigatePath, if_neg (key_ne_nil (h.spelled e he))]
  exact navigate_of_open (h.spelled e he) (h.clear e he).noArr

theorem eq_of_pre (h : Shaped V σ) (hd : d ∈ σ.externals) (he : e ∈ σ.externals) (hpre : d.pre = e.pre) : d = e :=
  inj_on_of_nodup_map h.nodup hd he hpre

theorem orderly_tried (h : Filed V σ) (o : Name → Outcome)
    (hes : ∀ e ∈ es, e.pre ∈ σ.externals.map External.pre) : Orderly V (σ.externals.map External.pre)
      (es.foldl (fun fs e => writeExternalFileWith (o e.pre) σ.cfgRoot e.pre fs) σ.files) := by
  refine orderly_foldl_with (fun e he => ⟨hes e he, fun v hv => ?_⟩) { h with tidy := h.filesTidy }
  obtain ⟨d, hd, hpre⟩ := List.mem_map.mp (hes e he)
  rw [← hpre, navigatePath_external h.toShaped hd] at hv
  exact tidy_node h.tidy hv

def cleared (att : Name → Bool) (o : Name → Outcome) (e : External) : External :=
  if att e.pre && o e.pre == .written then { e with dirty := false } else e

def fileAfter (att : Name → Bool) (o : Name → Outcome) (σ : State) (p : Name) : Option Json :=
  if att p then ((navigatePath (.obj σ.cfgRoot) p).map fun v => (o p).of v (fileOf σ.files p)).getD (fileOf σ.files p)
  else fileOf σ.files p

theorem cleared_pre (att : Name → Bool) (o : Name → Outcome) (e : External) : (cleared att o e).pre = e.pre :=
  (undirtied _ e).1

theorem cleared_pendingDelete (att : Name → Bool) (o : Name → Outcome) (e : External) :
    (cleared att o e).pendingDelete = e.pendingDelete := by
  rw [cleared]
  split <;> rfl

theorem cleared_dirty (h : (cleared att o e).dirty = false) :
    e.dirty = false ∨ att e.pre = true ∧ o e.pre = .written := by
  rw [cleared] at h
  split at h
  next hw => exact .inr (by simpa using hw)
  · exact .inl h

/-- A pass over some of the dirty externals that keeps the flags of those that
fail keeps the promises of the flags. -/
theorem synced_partly (h : Synced V σ)
    (hatt : ∀ e ∈ σ.externals, att e.pre = true → e.dirty = true ∧ e.pendingDelete = false)
    (hfiles : Orderly V (σ.externals.map External.pre) files)
    (hfile : ∀ e ∈ σ.externals, fileOf files e.pre = fileAfter att o σ e.pre) :
    Synced V { σ with externals := σ.externals.map (cleared att o), files := files } := by
  have hpre := prefixes_map (l := σ.externals) (cleared att o) fun e _ => cleared_pre att o e
  have hclean : ∀ e ∈ σ.externals, e.dirty = false → fileOf files e.pre = fileOf σ.files e.pre := by
    intro e he hd
    rw [hfile e he, fileAfter, if_neg]
    intro ha
    rw [(hatt e he ha).1] at hd
    cases hd
  have hshape : Shaped V { σ with externals := σ.externals.map (cleared att o), files := files } := by
    refine h.toShaped.transfer (cleared att o) (fun e _ => undirtied _ e) h.tidy (fun _ _ => rfl) hfiles.tidy
      hfiles.distinct ?_
    intro e he ht
    rw [hclean e he (h.below e he ht).1, (h.below e he ht).2]
  refine ⟨⟨hshape, ?_, ?_⟩, fun hd => (h.root hd).transfer hpre fun _ _ _ => rfl⟩
  · intro e he ht hpend hd
    obtain ⟨e, hmem, rfl⟩ := List.mem_map.mp he
    rw [top_congr hpre, cleared_pre] at ht
    rw [cleared_pendingDelete] at hpend
    rw [cleared_pre]
    rcases cleared_dirty hd with hd | ⟨ha, ho⟩
    · rw [hclean e hmem hd]
      exact h.file e hmem ht hpend hd
    · rw [hfile e hmem, fileAfter, if_pos ha, ho, navigatePath_external h.toShaped hmem]
      cases hn : node (.obj σ.cfgRoot) (segments e.pre) with
      | none => exact .inr (by simpa [view] using hn)
      | some v => exact .inl (fileKept_some hn)
  · rw [pre_map _ fun e _ => cleared_pre att o e]
    exact hfiles.registered

def attempted (σ : State) (p : Name) : Bool :=
  σ.externals.any fun e => e.pre == p && (e.dirty && !e.pendingDelete)

theorem attempted_pre (hnodup : (σ.externals.map External.pre).Nodup) (he : e ∈ σ.externals) :
    attempted σ e.pre = (e.dirty && !e.pendingDelete) := by
  rw [attempted, Bool.eq_iff_iff, List.any_eq_true]
  constructor
  · rintro ⟨d, hd, h⟩
    rw [Bool.and_eq_true, beq_iff_eq] at h
    rw [← inj_on_of_nodup_map hnodup hd he h.1]
    exact h.2
  · intro h
    exact ⟨e, he, by rw [h]; simp⟩

theorem fileOf_attempted (o : Name → Outcome) (σ : State) (p : Name) :
    fileOf ((σ.externals.filter fun e => e.dirty && !e.pendingDelete).foldl
      (fun fs e => writeExternalFileWith (o e.pre) σ.cfgRoot e.pre fs) σ.files) p = fileAfter (attempted σ) o σ p := by
  have hmem : p ∈ (σ.externals.filter fun e => e.dirty && !e.pendingDelete).map External.pre ↔ attempted σ p = true := by
    rw [attempted, List.any_eq_true, List.mem_map]
    simp only [mem_filter, Bool.and_eq_true, beq_iff_eq]
    exact exists_congr fun e => by tauto
  rw [fileOf_foldl_with, fileAfter]
  simp only [hmem]

theorem writeExternalFileWith_written (cs : List Child) (p : Name) (fs : List (Name × Json)) :
    writeExternalFileWith .written cs p fs = writeExternalFile cs p fs := by
  rw [writeExternalFileWith, writeExternalFile]
  cases navigatePath (.obj cs) p <;> rfl

theorem fileOf_writeExternals (σ : State) (p : Name) :
    fileOf (writeExternals σ).files p = fileAfter (attempted σ) (fun _ => .written) σ p := by
  rw [← fileOf_attempted]
  simp only [writeExternals, writeExternalFileWith_written]

theorem synced_writeExternals (h : Synced V σ) : Synced V (writeExternals σ) := by
  have hatt : ∀ e ∈ σ.externals, attempted σ e.pre = true → e.dirty = true ∧ e.pendingDelete = false := by
    intro e he ha
    rw [attempted_pre h.nodup he] at ha
    simpa using ha
  have hfiles : Orderly V (σ.externals.map External.pre) (writeExternals σ).files := by
    simp only [writeExternals, ← writeExternalFileWith_written]
    exact orderly_tried h.toFiled (fun _ => .written) fun e he => List.mem_map_of_mem (mem_filter.mp he).1
  have hsync := synced_partly h hatt hfiles fun e _ => fileOf_writeExternals σ e.pre
  rwa [map_congr_left fun e he => by rw [cleared, attempted_pre h.nodup he, beq_self_eq_true, Bool.and_true]] at hsync

theorem filesKept_writeExternals (h : Synced V σ) (hg : NoStray σ) : FilesKept V (writeExternals σ) := by
  have hsync := synced_writeExternals h
  intro e he ht hpend
  obtain ⟨d, hd, rfl⟩ := List.mem_map.mp he
  have hlive : d.pendingDelete = false := by split at hpend <;> exact hpend
  have hclean : (if d.dirty && !d.pendingDelete then { d with dirty := false } else d).dirty = false := by
    cases hdirty : d.dirty <;> simp [hlive, hdirty]
  rcases hsync.file _ he ht hpend hclean with hf | hf
  · exact hf
  · rw [(undirtied _ d).1] at hf ⊢
    have hn : navigatePath (.obj σ.cfgRoot) d.pre = none := by
      rw [navigatePath_external h.toShaped hd]
      simpa [view, writeExternals] using hf
    have hfile : fileOf σ.files d.pre = none := isNone_iff_eq_none.mp (hg d hd hlive (by rw [hn]; rfl))
    rw [fileOf_writeExternals, fileAfter, hn, map_none, getD_none, hfile, ite_self]
    exact fileKept_none (h.spelled d hd) (gone_of_view hf)

theorem of_mem_live (h : E ∈ live es) : ∃ e ∈ es, e.pendingDelete = false ∧ segments e.pre = E := by
  obtain ⟨e, he, rfl⟩ := List.mem_map.mp h
  obtain ⟨he, hpend⟩ := mem_filter.mp he
  exact ⟨e, he, by simpa using hpend, rfl⟩

theorem dropsPending_live (σ : State) : DropsPending σ (σ.externals.filter fun e => !e.pendingDelete) :=
  ⟨filter_sublist, fun _ he hp => mem_filter.mpr ⟨he, by simp [hp]⟩⟩

variable (hV : ∀ p ∈ savedNames, V.mem p)

include hV

theorem snapshot_spec (h : Shaped V σ) : (Tidy V (.obj (withExternalsDetached savedMembers σ.externals σ.cfgRoot).2) ∧
      ∀ q, Spelled V q →
        view (.obj (withExternalsDetached savedMembers σ.externals σ.cfgRoot).2) q = view (.obj σ.cfgRoot) q) ∧
    Tidy V (.obj (withExternalsDetached savedMembers σ.externals σ.cfgRoot).1) ∧
      RootKept V (withExternalsDetached savedMembers σ.externals σ.cfgRoot).1 σ := by
  have hlive : ∀ E ∈ live σ.externals, Spelled V E ∧ E ≠ [] ∧ View.Clear σ.cfgRoot E := by
    intro E hE
    obtain ⟨e, he, -, rfl⟩ := of_mem_live hE
    exact ⟨h.spelled e he, segments_ne_nil _, h.clear e he⟩
  obtain ⟨hback, ds, hds, htidy, hview⟩ := withExternalsDetached_spec savedMembers h.tidy hlive
  refine ⟨hback, ?_, ?_⟩
  · rw [hds]
    exact tidy_savedMembers hV htidy
  · intro q hq hk
    obtain ⟨p, hp, hhead⟩ := hk
    cases q with
    | nil => simp at hhead
    | cons s q =>
      obtain rfl : s = p := by simpa using hhead
      have hsnap : valueAt (.obj (withExternalsDetached savedMembers σ.externals σ.cfgRoot).1) (s :: q) =
          valueAt (.obj ds) (s :: q) := by
        rw [hds, valueAt, view_savedMembers hp]
        rfl
      rw [hsnap, valueAt, hview _ hq]
      by_cases hl : ∃ E ∈ live σ.externals, E <+: s :: q
      · obtain ⟨E, hE, hEq⟩ := hl
        obtain ⟨e, he, -, rfl⟩ := of_mem_live hE
        rw [if_pos ⟨_, hE, hEq⟩, if_pos ⟨_, List.mem_map_of_mem he, hEq⟩]
        rfl
      · rw [if_neg hl]
        split
        next hc => exact none_of_dropped h (dropsPending_live σ) hq hc hl
        · rfl

omit hV

/-- All files are up to date, and no delete is pending. -/
structure Settled (V : Vocabulary) (σ : State) : Prop extends Synced V σ where
  clean : σ.rootDirty = false
  live : ∀ e ∈ σ.externals, e.pendingDelete = false
  kept : FilesKept V σ

theorem mem_removeDeleted (he : e ∈ (removeDeleted σ).externals) : e ∈ σ.externals ∧ e.pendingDelete = false := by
  obtain ⟨he, hp⟩ := mem_filter.mp he
  exact ⟨he, by simpa using hp⟩

theorem fileOf_removeDeleted (h : Shaped V σ) (he : e ∈ (removeDeleted σ).externals) :
    fileOf (removeDeleted σ).files e.pre = fileOf σ.files e.pre := by
  rw [removeDeleted, fileOf_foldl_remove, if_neg]
  intro hm
  obtain ⟨d, hd, hpre⟩ := List.mem_map.mp hm
  obtain ⟨hd, hp⟩ := mem_filter.mp hd
  rw [eq_of_pre h hd (mem_removeDeleted he).1 hpre, (mem_removeDeleted he).2] at hp
  cases hp

theorem fileKept_uncovered (h : Shaped V σ) (he : e ∈ (removeDeleted σ).externals)
    (ht : Topmost (removeDeleted σ).externals (segments e.pre)) (ht' : ¬ Topmost σ.externals (segments e.pre)) :
    FileKept V (fileOf (removeDeleted σ).files e.pre) σ (segments e.pre) := by
  rw [fileOf_removeDeleted h he, (h.below e (mem_removeDeleted he).1 ht').2]
  exact fileKept_none (h.spelled e (mem_removeDeleted he).1) (gone_of_drop (σ := σ) h (dropsPending_live σ) he ht ht')

theorem synced_removeDeleted (h : Synced V σ) : Synced V (removeDeleted σ) := by
  have hdrop := dropsPending_live σ
  have hfiles : Orderly V (σ.externals.map External.pre) (removeDeleted σ).files :=
    orderly_foldl_remove _ { h with tidy := h.filesTidy }
  have hdropped := shaped_drop h.toShaped hdrop
  have hshape : Shaped V (removeDeleted σ) := by
    refine { hdropped with below := ?_, filesTidy := hfiles.tidy, distinct := hfiles.distinct }
    intro e he ht
    rw [fileOf_removeDeleted h.toShaped he]
    exact hdropped.below e he ht
  refine ⟨⟨hshape, ?_, ?_⟩, fun hd => rootKept_drop h.toShaped hdrop (h.root hd)⟩
  · intro e he ht hp hd
    by_cases ht' : Topmost σ.externals (segments e.pre)
    · rw [fileOf_removeDeleted h.toShaped he]
      exact h.file e (mem_removeDeleted he).1 ht' hp hd
    · exact .inl (fileKept_uncovered h.toShaped he ht ht')
  · intro f hf
    obtain ⟨e, he, hep⟩ := List.mem_map.mp (hfiles.registered f hf)
    rw [← hep]
    apply List.mem_map_of_mem
    apply hdrop.2 e he
    by_contra hp
    have hnone : fileOf (removeDeleted σ).files f.1 = none := by
      rw [removeDeleted, fileOf_foldl_remove, if_pos]
      rw [← hep]
      exact List.mem_map_of_mem (mem_filter.mpr ⟨he, by simpa using hp⟩)
    rw [fileOf_of_mem hfiles.distinct hf] at hnone
    cases hnone

theorem settled_removeDeleted (h : Synced V σ) (hd : σ.rootDirty = false) (hk : FilesKept V σ) :
    Settled V (removeDeleted σ) := by
  refine ⟨synced_removeDeleted h, hd, fun e he => (mem_removeDeleted he).2, ?_⟩
  intro e he ht hp
  by_cases ht' : Topmost σ.externals (segments e.pre)
  · rw [fileOf_removeDeleted h.toShaped he]
    exact hk e (mem_removeDeleted he).1 ht' hp
  · exact fileKept_uncovered h.toShaped he ht ht'

theorem filed_of_view (h : Filed V σ) (hcs : Tidy V (.obj cs))
    (hview : ∀ q, Spelled V q → view (.obj cs) q = view (.obj σ.cfgRoot) q) : Filed V { σ with cfgRoot := cs } := by
  have hshape := h.toShaped.transfer id (fun _ _ => ⟨rfl, id, id⟩) hcs hview h.filesTidy h.distinct
    fun e he ht => (h.below e he ht).2
  rw [List.map_id] at hshape
  refine ⟨hshape, ?_, h.registered⟩
  intro e he ht hpend hd
  rcases h.file e he ht hpend hd with hf | hf
  · exact .inl (hf.transfer fun r hr => valueAt_of_view (hview _ ((h.spelled e he).append hr)))
  · right
    rw [hview _ (h.spelled e he)]
    exact hf

theorem filed_rootFile (h : Filed V σ) (hR : Tidy V (.obj R)) (pending dirty : Bool) :
    Filed V { σ with rootFile := some R, savePending := pending, rootDirty := dirty } :=
  ⟨{ h with rootTidy := hR }, h.file, h.registered⟩

theorem filed_flags (h : Filed V σ) (pending dirty : Bool) :
    Filed V { σ with savePending := pending, rootDirty := dirty } :=
  ⟨{ h with }, h.file,
    h.registered⟩

theorem synced_writeRoot (hV : ∀ p ∈ savedNames, V.mem p) (h : Synced V σ) :
    Synced V (writeRoot σ) ∧ (writeRoot σ).rootDirty = false ∧
      ∀ q, Spelled V q → view (.obj (writeRoot σ).cfgRoot) q = view (.obj σ.cfgRoot) q := by
  unfold writeRoot
  cases hd : σ.rootDirty with
  | false => exact ⟨h, hd, fun _ _ => rfl⟩
  | true =>
    obtain ⟨⟨htidy, hview⟩, hsnap, hkept⟩ := snapshot_spec hV h.toShaped
    refine ⟨⟨filed_rootFile (filed_of_view h.toFiled htidy hview) hsnap _ _, ?_⟩, rfl, hview⟩
    intro _
    exact hkept.transfer rfl fun q hq _ => valueAt_of_view (hview q hq)

theorem settled_writeSettingsFile (hV : ∀ p ∈ savedNames, V.mem p) (h : Synced V σ) (hg : NoStray σ) :
    Settled V (writeSettingsFile σ) ∧
      ∀ q, Spelled V q → view (.obj (writeSettingsFile σ).cfgRoot) q = view (.obj σ.cfgRoot) q := by
  have h0 : Synced V { σ with savePending := false } := ⟨filed_flags h.toFiled false σ.rootDirty, h.root⟩
  have h1 := synced_writeExternals h0
  have hk := filesKept_writeExternals h0 hg
  obtain ⟨h2, hd, hview⟩ := synced_writeRoot hV h1
  have hext : (writeRoot (writeExternals { σ with savePending := false })).externals =
      (writeExternals { σ with savePending := false }).externals := by
    unfold writeRoot
    split <;> rfl
  have hfiles : (writeRoot (writeExternals { σ with savePending := false })).files =
      (writeExternals { σ with savePending := false }).files := by
    unfold writeRoot
    split <;> rfl
  refine ⟨settled_removeDeleted h2 hd ?_, hview⟩
  intro e he ht hp
  rw [hext] at he ht
  rw [hfiles]
  exact (hk e he ht hp).transfer fun r hr => valueAt_of_view (hview _ ((h1.spelled e he).append hr))

end Flush

section Files

variable (h : Shaped V σ) (hreg : ∀ f ∈ σ.files, f.1 ∈ σ.externals.map External.pre)

include h hreg

theorem topmost_of_file (hf : f ∈ σ.files) :
    ∃ e ∈ σ.externals, e.pre = f.1 ∧ Topmost σ.externals (segments e.pre) := by
  obtain ⟨e, he, hpre⟩ := List.mem_map.mp (hreg f hf)
  refine ⟨e, he, hpre, ?_⟩
  by_contra ht
  have := (h.below e he ht).2
  rw [hpre, fileOf_of_mem h.distinct hf] at this
  cases this

theorem files_apart : σ.files.Pairwise fun f g => Apart (segments f.1) (segments g.1) := by
  have hne : σ.files.Pairwise fun f g => f.1 ≠ g.1 := pairwise_map.mp h.distinct
  refine hne.imp_of_mem ?_
  intro f g hf hg hfg
  obtain ⟨d, hd, hdf, htd⟩ := topmost_of_file h hreg hf
  obtain ⟨e, he, heg, hte⟩ := topmost_of_file h hreg hg
  have hseg : segments f.1 ≠ segments g.1 := by
    rw [← hdf, ← heg]
    intro heq
    apply hfg
    rw [← hdf, ← heg, ← joined_segments (h.spelled d hd), heq, joined_segments (h.spelled e he)]
  rw [← hdf, ← heg] at hseg ⊢
  exact ⟨fun hp => hseg (hte _ (List.mem_map_of_mem hd) hp), fun hp => hseg (htd _ (List.mem_map_of_mem he) hp).symm⟩

theorem valueAt_storageLoad (hclear : ∀ e ∈ σ.externals, View.Clear (σ.rootFile.getD []) (segments e.pre)) :
    Tidy V (.obj (storageLoad σ.rootFile σ.files)) ∧ ∀ q, Spelled V q →
      (∀ e ∈ σ.externals, segments e.pre <+: q → ∀ v, fileOf σ.files e.pre = some v →
        valueAt (.obj (storageLoad σ.rootFile σ.files)) q = valueAt v (q.drop (segments e.pre).length)) ∧
      ((∀ e ∈ σ.externals, segments e.pre <+: q → fileOf σ.files e.pre = none) →
        valueAt (.obj (storageLoad σ.rootFile σ.files)) q = valueAt (.obj (σ.rootFile.getD [])) q) := by
  have hsome : storageLoad σ.rootFile σ.files = storageLoad (some (σ.rootFile.getD [])) σ.files := rfl
  have hfs : ∀ f ∈ σ.files, Spelled V (segments f.1) ∧ Tidy V f.2 ∧
      View.Clear (σ.rootFile.getD []) (segments f.1) := by
    intro f hf
    obtain ⟨e, he, hpre, -⟩ := topmost_of_file h hreg hf
    rw [← hpre]
    exact ⟨h.spelled e he, h.filesTidy f hf, hclear e he⟩
  obtain ⟨htidy, hval⟩ := storageLoad_spec h.rootTidy hfs (files_apart h hreg)
  refine ⟨htidy, fun q hq => ⟨?_, ?_⟩⟩
  · intro e _ hE v hv
    exact (hval q hq).1 (e.pre, v) (mem_of_fileOf hv) hE
  · intro hnone
    apply (hval q hq).2
    intro f hf hfq
    obtain ⟨e, he, hpre, -⟩ := topmost_of_file h hreg hf
    rw [← hpre] at hfq
    have := hnone e he hfq
    rw [hpre, fileOf_of_mem h.distinct hf] at this
    cases this

end Files

theorem kept_of_above {r : List Name} (hE : Kept E) (h : r <+: E) (hne : r ≠ []) : Kept r := by
  obtain ⟨p, hp, hhead⟩ := hE
  obtain ⟨t, rfl⟩ := h
  exact ⟨p, hp, by rwa [head?_append_of_ne_nil _ hne] at hhead⟩

theorem clear_of_rootKept (h : Shaped V σ) (hR : RootKept V R σ)
    (he : e ∈ σ.externals) : View.Clear R (segments e.pre) := by
  intro r hr hne
  by_cases hrn : r = []
  · subst hrn
    rfl
  · rw [hR r ((h.spelled e he).mono hr) (kept_of_above (h.under e he) hr hrn)]
    split
    · rfl
    · exact h.clear e he r hr hne

theorem fileOf_none_of_topmost (h : Shaped V σ) (hd : d ∈ σ.externals) (he : e ∈ σ.externals)
    (ht : Topmost σ.externals (segments e.pre)) (hE : segments e.pre <+: q) (hD : segments d.pre <+: q)
    (hf : fileOf σ.files e.pre = none) : fileOf σ.files d.pre = none := by
  by_cases htd : Topmost σ.externals (segments d.pre)
  · have heq := ht _ (List.mem_map_of_mem hd) (htd.above (List.mem_map_of_mem he) hE hD)
    have hpre : d.pre = e.pre := by rw [← joined_segments (h.spelled d hd), heq, joined_segments (h.spelled e he)]
    rwa [hpre]
  · exact (h.below d hd htd).2

theorem Settled.load (h : Settled V σ) : Tidy V (.obj (storageLoad σ.rootFile σ.files)) ∧
    ∀ q, Spelled V q → Kept q → valueAt (.obj (storageLoad σ.rootFile σ.files)) q = valueAt (.obj σ.cfgRoot) q := by
  have hroot := h.root h.clean
  obtain ⟨htidy, hval⟩ := valueAt_storageLoad h.toShaped h.registered fun e he => clear_of_rootKept h.toShaped hroot he
  refine ⟨htidy, ?_⟩
  intro q hq hk
  by_cases hc : Covered σ.externals q
  · obtain ⟨e, he, ⟨r, rfl⟩, ht⟩ := exists_topmost hc
    have hkept := h.kept e he ht (h.live e he) r fun s hs => hq s (mem_append_right _ hs)
    cases hf : fileOf σ.files e.pre with
    | some v =>
      rw [(hval _ hq).1 e he (prefix_append _ _) v hf, drop_left, hkept, hf]
      rfl
    | none =>
      have hnone : ∀ d ∈ σ.externals, segments d.pre <+: segments e.pre ++ r → fileOf σ.files d.pre = none :=
        fun d hd hD => fileOf_none_of_topmost h.toShaped hd he ht (prefix_append _ r) hD hf
      rw [(hval _ hq).2 hnone, hroot _ hq hk, if_pos hc, hkept, hf]
      rfl
  · rw [(hval q hq).2 fun e he hE => absurd ⟨_, List.mem_map_of_mem he, hE⟩ hc, hroot q hq hk, if_neg hc]

inductive Event
  | register (key : Name)
  | apply (ops : List Op)
  | flush

def step (pats : List (List Name)) (σ : State) : Event → Option State
  | .register key => some (storageNewTreeFile σ key)
  | .apply ops => some (applyOps pats σ ops)
  | .flush => some (writeSettingsFile σ)

/-- Registrations under `s.` with nothing stored below, and SETs and DELETEs
under the namespaces that are kept. -/
def Asked (σ : State) : Event → Prop
  | .register key =>
    (lit "s.").isPrefixOf (stripDots key) = true ∧ (navigatePath (.obj σ.cfgRoot) (stripDots key)).isNone = true
  | .apply ops => ∀ o ∈ ops, o.code ≠ .dflt ∧ persistent o.key = true
  | .flush => True

instance (σ : State) : (e : Event) → Decidable (Asked σ e)
  | .register _ => inferInstanceAs (Decidable (_ ∧ _))
  | .apply ops => inferInstanceAs (Decidable (∀ o ∈ ops, _))
  | .flush => inferInstanceAs (Decidable True)

/-- Events that keep the dirty flags right. -/
def Allowed (V : Vocabulary) (pats : List (List Name)) (σ : State) : Event → Prop
  | .register key => CanRegister V σ (stripDots key)
  | .apply ops => Fair V pats σ ops
  | .flush => NoStray σ

instance (V : Vocabulary) (pats : List (List Name)) (σ : State) : (e : Event) → Decidable (Allowed V pats σ e)
  | .register key => inferInstanceAs (Decidable (CanRegister V σ (stripDots key)))
  | .apply ops => inferInstanceAs (Decidable (Fair V pats σ ops))
  | .flush => inferInstanceAs (Decidable (NoStray σ))

theorem synced_step (hV : ∀ p ∈ savedNames, V.mem p) {τ : State} {e : Event} (h : Synced V σ)
    (he : Allowed V pats σ e) (hs : step pats σ e = some τ) : Synced V τ := by
  cases e with
  | register key =>
    cases hs
    exact synced_storageNewTreeFile h he
  | apply ops =>
    cases hs
    exact synced_applyOps h he
  | flush =>
    cases hs
    exact (settled_writeSettingsFile hV h he).1.toSynced

def SavedLeaf (l : List Step × Scalar) : Prop := ∃ p ∈ savedNames, l.1.head? = some (.key (some p))
  deriving Decidable

/-- After the events and a last flush, the files load into the leaves that the
tree held. -/
def Survives (pats : List (List Name)) (es : List Event) : Prop :=
  ∀ σ, run (step pats) empty es = some σ → ∀ l, SavedLeaf l →
    (l ∈ leaves (.obj (storageLoad (writeSettingsFile σ).rootFile (writeSettingsFile σ).files)) ↔
      l ∈ leaves (.obj σ.cfgRoot))

theorem leafOf_transfer {u w : List Child} (h : ∀ q, Spelled V q → Kept q → valueAt (.obj u) q = valueAt (.obj w) q)
    (hl : SavedLeaf l) (hq : Spelled V q) (hleaf : LeafOf (.obj u) l q) : LeafOf (.obj w) l q := by
  obtain ⟨x, hx, m, hm, rfl⟩ := hleaf
  cases q with
  | nil => simp [valueAt_nil_obj] at hx
  | cons n q =>
    obtain ⟨p, hp, hhead⟩ := hl
    have hkept : Kept (n :: q) := ⟨p, hp, by simpa using hhead⟩
    exact ⟨x, by rw [← h _ hq hkept, hx], m, hm, rfl⟩

theorem mem_leaves_congr {u w : List Child} (hu : Tidy V (.obj u)) (hw : Tidy V (.obj w))
    (h : ∀ q, Spelled V q → Kept q → valueAt (.obj u) q = valueAt (.obj w) q)
    (hl : SavedLeaf l) : l ∈ leaves (.obj u) ↔ l ∈ leaves (.obj w) := by
  rw [mem_leaves_iff hu, mem_leaves_iff hw]
  constructor
  · rintro ⟨q, hq, hleaf⟩
    exact ⟨q, hq, leafOf_transfer h hl hq hleaf⟩
  · rintro ⟨q, hq, hleaf⟩
    exact ⟨q, hq, leafOf_transfer (fun q hq hk => (h q hq hk).symm) hl hq hleaf⟩

/-- Persisted state survives a reboot after events that keep the dirty flags right. -/
theorem persisted_survives (V : Vocabulary) (hV : ∀ p ∈ savedNames, V.mem p) (pats : List (List Name))
    (es : List Event) (h : Meets (step pats) (Allowed V pats) empty (es ++ [.flush])) : Survives pats es := by
  intro σ hrun l hl
  obtain ⟨hes, hflush⟩ := meets_append h hrun
  have hsync : Synced V σ := run_invariant (fun _ _ _ hi ha hs => synced_step hV hi ha hs) synced_empty hes hrun
  obtain ⟨hsettled, hview⟩ := settled_writeSettingsFile hV hsync hflush.1
  obtain ⟨htidy, hval⟩ := hsettled.load
  apply mem_leaves_congr htidy hsync.tidy _ hl
  intro q hq hk
  rw [hval q hq hk]
  exact valueAt_of_view (hview q hq)

def fewNames : Vocabulary :=
  vocabularyOf [lit "s", lit "secrets", lit "a", lit "b", lit "x", lit "y"] (by decide) (by decide)

/-- A tree file that is written, deleted and registered again. -/
def secondLife : List Event :=
  [.register (lit "s.a"), .apply [setText "s.a.x" "1", setText "secrets.b" "2"], .flush,
    .apply [⟨.delete, lit "s.a", none⟩, setText "s.b" "3"], .flush, .register (lit "s.a."),
    .apply [setText "s.a.y" "4"]]

theorem persisted_survives_secondLife : (run (step []) empty secondLife).isSome = true ∧ Survives [] secondLife :=
  ⟨by decide +kernel, persisted_survives fewNames (by decide) [] secondLife (by decide +kernel)⟩

/-- A tree file that is deleted and set again before the next flush. -/
def setAfterDelete : List Event :=
  [.register (lit "s.a"), .apply [setText "s.a.x" "1"], .flush, .apply [⟨.delete, lit "s.a", none⟩],
    .apply [setText "s.a.y" "2"]]

/-- The last flush removes the file of `s.a` and has not written `s.a.y` anywhere. -/
theorem persisted_loses_write : ¬ ∀ es, Meets (step []) Asked empty es → Survives [] es := by
  intro h
  have hend : (run (step []) empty setAfterDelete).any (fun σ =>
      decide (([.key (some (lit "s")), .key (some (lit "a")), .key (some (lit "y"))], .str (lit "2")) ∈
        leaves (.obj σ.cfgRoot)) &&
      decide (([.key (some (lit "s")), .key (some (lit "a")), .key (some (lit "y"))], .str (lit "2")) ∉
        leaves (.obj (storageLoad (writeSettingsFile σ).rootFile (writeSettingsFile σ).files)))) = true := by
    decide +kernel
  cases ht : run (step []) empty setAfterDelete with
  | none => simp [ht] at hend
  | some σ =>
    simp only [ht, any_some, Bool.and_eq_true, decide_eq_true_eq] at hend
    exact hend.2 ((h setAfterDelete (by decide +kernel) σ ht _ ⟨_, mem_cons_self, rfl⟩).mpr hend.1)

end Spangap.Reboot
