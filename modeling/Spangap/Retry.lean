import Spangap.Reboot
import Spangap.Shelves
import Spangap.StoreEngine

namespace Spangap.Retry

open CJson FirstMatch DotPath Merge Commit Persist View Attach Landing Regions Flags Reboot Registry Runs Fields
open List Option
  RecordMap StoreFile StoreRoundTrip Shelves StoreEngine
open RecordStore (Store sdbHasRecord compact)

section Tree

def writeExternalsWith (o : Name → Outcome) (σ : State) : State :=
  { σ with
    externals := σ.externals.map fun e => if e.dirty && !e.pendingDelete then { e with dirty := false } else e
    files := (σ.externals.filter fun e => e.dirty && !e.pendingDelete).foldl
      (fun fs e => writeExternalFileWith (o e.pre) σ.cfgRoot e.pre fs) σ.files }

def writeRootWith (o : Outcome) (σ : State) : State :=
  if σ.rootDirty then
    let r := withExternalsDetached savedMembers σ.externals σ.cfgRoot
    { σ with cfgRoot := r.2, rootFile := o.of r.1 σ.rootFile, rootDirty := false }
  else σ

/-- A pass of `writeSettingsFile` in which writes may fail. No flag outlives it. -/
def writeSettingsFileWith (oRoot : Outcome) (o : Name → Outcome) (σ : State) : State :=
  removeDeleted (writeRootWith oRoot (writeExternalsWith o { σ with savePending := false }))

/-- The parts whose last write failed. -/
structure Lost where
  root : Bool
  pres : List Name

def restore (L : Lost) (σ : State) : State :=
  { σ with
    externals := σ.externals.map fun e => { e with dirty := e.dirty || decide (e.pre ∈ L.pres) }
    rootDirty := σ.rootDirty || L.root }

/-- What is lost after a pass: the writes that failed, and what was lost before
and not tried again. -/
def lostAfter (oRoot : Outcome) (o : Name → Outcome) (σ : State) (L : Lost) : Lost where
  root := if σ.rootDirty then oRoot != .written else L.root
  pres := (σ.externals.filter fun e =>
    if e.dirty && !e.pendingDelete then o e.pre != .written else decide (e.pre ∈ L.pres)).map External.pre

variable {V : Vocabulary} {pats : List (List Name)} {σ : State} {L : Lost} {o : Name → Outcome} {oRoot : Outcome}
  {e : External}

theorem mem_lostAfter (oRoot : Outcome) (o : Name → Outcome) (L : Lost)
    (hnodup : (σ.externals.map External.pre).Nodup) (he : e ∈ σ.externals) :
    e.pre ∈ (lostAfter oRoot o σ L).pres ↔
      (if e.dirty && !e.pendingDelete then o e.pre != .written else decide (e.pre ∈ L.pres)) = true := by
  rw [lostAfter, List.mem_map]
  constructor
  · rintro ⟨d, hd, hpre⟩
    obtain ⟨hd, h⟩ := mem_filter.mp hd
    rwa [inj_on_of_nodup_map hnodup hd he hpre] at h
  · intro h
    exact ⟨e, mem_filter.mpr ⟨he, h⟩, rfl⟩

def marked (ps : List Name) (e : External) : External := { e with dirty := e.dirty || decide (e.pre ∈ ps) }

theorem restore_externals (L : Lost) (σ : State) : (restore L σ).externals = σ.externals.map (marked L.pres) := rfl

theorem restore_pres (L : Lost) (σ : State) : (restore L σ).externals.map External.pre = σ.externals.map External.pre :=
  pre_map (marked L.pres) fun _ _ => rfl

theorem marked_after (oRoot : Outcome) (hnodup : (σ.externals.map External.pre).Nodup) (he : e ∈ σ.externals) :
    marked (lostAfter oRoot o σ L).pres (if e.dirty && !e.pendingDelete then { e with dirty := false } else e) =
      cleared (attempted σ) o (marked L.pres e) := by
  have hlost := mem_lostAfter oRoot o L hnodup he
  have hatt := attempted_pre hnodup he
  by_cases ha : (e.dirty && !e.pendingDelete) = true
  · obtain ⟨hd, hpend⟩ := Bool.and_eq_true_iff.mp ha
    rw [if_pos ha] at hlost
    rw [if_pos ha, cleared]
    simp only [marked, hatt, hpend, Bool.true_and, hlost, hd, Bool.true_or, Bool.false_or]
    cases ho : o e.pre <;> simp
  · rw [if_neg ha, decide_eq_true_iff] at hlost
    rw [if_neg ha, cleared]
    simp only [marked, hatt, ha, Bool.false_and, hlost, Bool.false_eq_true, if_false]

theorem synced_writeExternalsWith (oRoot : Outcome) (o : Name → Outcome) (h : Synced V (restore L σ)) :
    Synced V (restore ⟨L.root, (lostAfter oRoot o σ L).pres⟩ (writeExternalsWith o σ)) := by
  have hnodup : (σ.externals.map External.pre).Nodup := by
    rw [← restore_pres L σ]
    exact h.nodup
  have hext : (restore ⟨L.root, (lostAfter oRoot o σ L).pres⟩ (writeExternalsWith o σ)).externals =
      (restore L σ).externals.map (cleared (attempted σ) o) := by
    rw [restore_externals, restore_externals, writeExternalsWith, List.map_map, List.map_map]
    exact map_congr_left fun e he => marked_after oRoot hnodup he
  have hfiles : Orderly V ((restore L σ).externals.map External.pre) (writeExternalsWith o σ).files := by
    refine orderly_tried h.toFiled o fun e he => ?_
    rw [restore_pres]
    exact mem_map_of_mem (mem_filter.mp he).1
  have hatt : ∀ e ∈ (restore L σ).externals, attempted σ e.pre = true → e.dirty = true ∧ e.pendingDelete = false := by
    intro e he ha
    obtain ⟨d, hd, rfl⟩ := List.mem_map.mp he
    rw [attempted_pre hnodup hd, Bool.and_eq_true] at ha
    exact ⟨by simp [ha.1], by simpa using ha.2⟩
  have hsync := synced_partly h hatt hfiles fun e _ => fileOf_attempted o σ e.pre
  rw [← hext] at hsync
  exact hsync

theorem withExternalsDetached_marked {α : Type} (f : List Child → α) (ps : List Name) (es : List External)
    (cs : List Child) : withExternalsDetached f (es.map (marked ps)) cs = withExternalsDetached f es cs := by
  induction es generalizing cs with
  | nil => rfl
  | cons e es ih =>
    rw [map_cons, withExternalsDetached, withExternalsDetached]
    simp only [marked, ih]

theorem synced_writeRootWith (oRoot : Outcome) (hV : ∀ p ∈ savedNames, V.mem p) {ps : List Name} {lost : Bool}
    (h : Synced V (restore ⟨lost, ps⟩ σ)) :
    Synced V (restore ⟨if σ.rootDirty then oRoot != .written else lost, ps⟩ (writeRootWith oRoot σ)) := by
  rw [writeRootWith]
  cases hd : σ.rootDirty with
  | false => exact h
  | true =>
    obtain ⟨⟨htidy, hview⟩, hsnap, hkept⟩ := snapshot_spec hV h.toShaped
    rw [restore_externals, withExternalsDetached_marked] at htidy hview hsnap hkept
    have hfiled := filed_of_view h.toFiled htidy hview
    cases oRoot with
    | written =>
      refine ⟨filed_rootFile hfiled hsnap _ _, fun _ => ?_⟩
      exact hkept.transfer rfl fun q hq _ => valueAt_of_view (hview q hq)
    | kept => exact ⟨filed_flags hfiled _ _, nofun⟩
    | dropped =>
      exact ⟨⟨{ hfiled with rootTidy := tidy_nil }, hfiled.file, hfiled.registered⟩, nofun⟩

theorem removeDeleted_restore (L : Lost) (σ : State) : removeDeleted (restore L σ) = restore L (removeDeleted σ) := by
  simp only [removeDeleted, restore, List.filter_map, List.foldl_map]
  rfl

theorem synced_writeSettingsFileWith (hV : ∀ p ∈ savedNames, V.mem p) (h : Synced V (restore L σ)) :
    Synced V (restore (lostAfter oRoot o σ L) (writeSettingsFileWith oRoot o σ)) := by
  have h0 : Synced V (restore L { σ with savePending := false }) := ⟨filed_flags h.toFiled false _, h.root⟩
  have h1 := synced_writeRootWith oRoot hV (synced_writeExternalsWith oRoot o h0)
  rw [writeSettingsFileWith, ← removeDeleted_restore]
  exact synced_removeDeleted h1

theorem markDeleted_marked (ps : List Name) (ops : List Op) (es : List External) :
    ops.foldl markDeleted (es.map (marked ps)) = (ops.foldl markDeleted es).map (marked ps) := by
  induction ops generalizing es with
  | nil => rfl
  | cons o ops ih =>
    have hone : markDeleted (es.map (marked ps)) o = (markDeleted es o).map (marked ps) := by
      rw [markDeleted, markDeleted]
      split
      · rw [markExternalsDeletedUnder, markExternalsDeletedUnder, List.map_map, List.map_map]
        refine map_congr_left fun e _ => ?_
        by_cases hd : deletedUnder o.key e.pre = true <;> simp [marked, hd]
      · rfl
    rw [foldl_cons, foldl_cons, hone, ih]

theorem applyOps_restore (pats : List (List Name)) (L : Lost) (σ : State) (ops : List Op) :
    applyOps pats (restore L σ) ops = restore L (applyOps pats σ ops) := by
  have hpres : ∀ es : List External, (es.map (marked L.pres)).map External.pre = es.map External.pre :=
    fun es => pre_map (marked L.pres) fun _ _ => rfl
  simp only [applyOps, restore_externals, markDeleted_marked, marksOf, hpres, List.map_map]
  simp only [restore, List.map_map, State.mk.injEq, true_and, and_true]
  refine ⟨map_congr_left fun e _ => ?_, Bool.or_right_comm _ _ _⟩
  simp only [Function.comp, marked, External.mk.injEq, true_and, and_true]
  exact Bool.or_right_comm _ _ _

def treeOps (pats : List (List Name)) (ops : List Op) : List Op := ops.filter fun o => (sdbRoute pats o.key).isNone

theorem applyOps_treeOps (pats : List (List Name)) (σ : State) (ops : List Op) :
    applyOps pats σ (treeOps pats ops) = applyOps pats σ ops := by
  have hpatch : ∀ (t : Json) (ops : List Op), buildPatch pats t (treeOps pats ops) = buildPatch pats t ops := by
    intro t ops
    simp [buildPatch, treeOps]
  simp only [applyOps, hpatch]
  simp [treeOps]

theorem storageNewTreeFile_restore (L : Lost) (σ : State) (key : Name)
    (h : stripDots key ∈ L.pres → stripDots key ∈ σ.externals.map External.pre) :
    storageNewTreeFile (restore L σ) key = restore L (storageNewTreeFile σ key) := by
  simp only [storageNewTreeFile, restore_pres]
  split
  · rfl
  · split
    · simp only [restore, State.mk.injEq, true_and, and_true, List.map_map]
      refine map_congr_left fun e _ => ?_
      simp only [Function.comp]
      split <;> rfl
    next hnew =>
      have hlost : stripDots key ∉ L.pres := fun hl => hnew (h hl)
      simp only [restore, map_append, map_cons, map_nil, hlost, decide_false, Bool.or_false]

def Lost.registered (L : Lost) (σ : State) : Lost := { L with pres := L.pres.filter (· ∈ σ.externals.map External.pre) }

theorem restore_registered (L : Lost) (σ : State) : restore (L.registered σ) σ = restore L σ := by
  simp only [restore, Lost.registered, State.mk.injEq, true_and, and_true]
  refine map_congr_left fun e he => ?_
  have hmem : e.pre ∈ σ.externals.map External.pre := mem_map_of_mem he
  simp only [mem_filter, hmem, decide_true, and_true]

/-- What was lost is marked again. -/
structure Recovered (L : Lost) (σ : State) : Prop where
  root : L.root = true → σ.rootDirty = true
  pres : ∀ e ∈ σ.externals, e.pendingDelete = false → e.pre ∈ L.pres → e.dirty = true

instance (L : Lost) (σ : State) : Decidable (Recovered L σ) :=
  decidable_of_iff ((L.root = true → σ.rootDirty = true) ∧
    ∀ e ∈ σ.externals, e.pendingDelete = false → e.pre ∈ L.pres → e.dirty = true)
    ⟨fun h => ⟨h.1, h.2⟩, fun h => ⟨h.root, h.pres⟩⟩

theorem synced_recovered (h : Synced V (restore L σ)) (hrec : Recovered L σ) : Synced V σ := by
  have hmem : ∀ {e}, e ∈ σ.externals → marked L.pres e ∈ (restore L σ).externals := fun he => mem_map_of_mem he
  have hpre : prefixes (restore L σ).externals = prefixes σ.externals := prefixes_map _ fun _ _ => rfl
  have htop : ∀ E, Topmost (restore L σ).externals E ↔ Topmost σ.externals E := top_congr hpre
  refine ⟨⟨⟨h.tidy, ?_, ?_, ?_, ?_, ?_, ?_, h.rootTidy, h.filesTidy, h.distinct⟩, ?_, ?_⟩, ?_⟩
  · exact fun e he => h.spelled (marked L.pres e) (hmem he)
  · exact fun e he => h.under (marked L.pres e) (hmem he)
  · rw [← restore_pres L σ]
    exact h.nodup
  · exact fun e he => h.clear (marked L.pres e) (hmem he)
  · exact fun e he ht => h.gone (marked L.pres e) (hmem he) ((htop _).mpr ht)
  · intro e he ht
    obtain ⟨hd, hf⟩ := h.below (marked L.pres e) (hmem he) fun ht' => ht ((htop _).mp ht')
    exact ⟨(Bool.or_eq_false_iff.mp hd).1, hf⟩
  · intro e he ht hpend hd
    have hkept : e.pre ∉ L.pres := fun hl => by simp [hrec.pres e he hpend hl] at hd
    exact h.file (marked L.pres e) (hmem he) ((htop _).mpr ht) hpend (by simp [marked, hd, hkept])
  · rw [← restore_pres L σ]
    exact h.registered
  · intro hd
    have hkept : L.root = false := by
      rw [← Bool.not_eq_true]
      exact fun hl => by simp [hrec.root hl] at hd
    exact (h.root (by simp [restore, hd, hkept])).transfer hpre.symm fun _ _ _ => rfl

theorem writeSettingsFileWith_written (σ : State) :
    writeSettingsFileWith .written (fun _ => .written) σ = writeSettingsFile σ := by
  have hroot : ∀ σ, writeRootWith .written σ = writeRoot σ := by
    intro σ
    rw [writeRootWith, writeRoot]
    rfl
  rw [writeSettingsFileWith, hroot, writeSettingsFile, writeExternalsWith, writeExternals]
  simp only [writeExternalFileWith_written]

end Tree

section Run

/-- The settings and the record stores, with the writes that were lost so far. -/
structure Sys where
  st : State
  shelf : Shelf Store (List UInt8)
  lost : Lost
  lostStores : List Name

/-- A flush comes with what becomes of each write: of `root.json`, of the
externals and of the stores. -/
inductive Event
  | register (key : Name)
  | apply (ops : List Op)
  | flush (root : Outcome) (trees stores : Name → Outcome)

variable (B : Board) (regs : List Reg) (text : Option Json → Name) (V : Vocabulary)

def flushed (root : Outcome) (trees files : Name → Outcome) (s : Sys) : Sys where
  st := writeSettingsFileWith root trees s.st
  shelf := storageDbFlushDirty (stores B) files s.shelf
  lost := lostAfter root trees s.st s.lost
  lostStores := lostAfterFlush files s.shelf s.lostStores

def step (s : Sys) : Event → Option Sys
  | .register key => some { s with st := storageNewTreeFile s.st key, lost := s.lost.registered s.st }
  | .apply ops =>
    some { s with
      st := applyOps (patterns regs) s.st ops
      shelf := sdbApplyOps (stores B) regs text s.shelf ops }
  | .flush root trees files => some (flushed B root trees files s)

/-- Events that keep the flags right, but for the writes that were lost. A flush
may fail in any way. -/
def Allowed (s : Sys) : Event → Prop
  | .register key => CanRegister V (restore s.lost s.st) (stripDots key)
  | .apply ops =>
    Fair V (patterns regs) (restore s.lost s.st) (treeOps (patterns regs) ops) ∧
      Meets (fun sh o => some (sdbApplyOp (stores B) regs text sh o))
        (fun sh o => OpPlaced regs sh o ∧ OpTaken (stores B) domain regs text sh o) s.shelf ops
  | .flush _ _ _ => Savable domain s.shelf

instance (sh : Shelf Store (List UInt8)) (o : Op) : Decidable (OpTaken (stores B) domain regs text sh o) :=
  inferInstanceAs (Decidable (∀ t ∈ target regs o, ∀ row ∈ t.2.tail.head?, ∀ field ∈ (t.2.tail.drop 1).head?, o.code ≠ .delete →
    Takes t.1.schema _ row field (text o.val)))

instance (sh : Shelf Store (List UInt8)) : Decidable (Savable domain sh) :=
  inferInstanceAs (Decidable (∀ i ∈ sh.insts, i.writes = true → ∀ s ∈ i.store, (buildDiskImage (compact s 0)).length ≤ _))

instance (s : Sys) : (e : Event) → Decidable (Allowed B regs text V s e)
  | .register _ => inferInstanceAs (Decidable (CanRegister _ _ _))
  | .apply _ => inferInstanceAs (Decidable (_ ∧ _))
  | .flush _ _ _ => inferInstanceAs (Decidable (Savable _ _))

/-- Nothing is lost, the files are as the flags say, no store is loaded, and every file of a
registered store loads as one. -/
structure Booted (s : Sys) : Prop where
  synced : Synced V s.st
  lost : s.lost = ⟨false, []⟩
  insts : s.shelf.insts = []
  readable : ∀ r ∈ regs, ∀ binds, StoreRuns.Sound r.schema
    ((stores B r.schema).load (instPath r binds) r.capRecords (s.shelf.files (instPath r binds))).1

structure Good (s : Sys) : Prop where
  tree : Synced V (restore s.lost s.st)
  stores : Shelves.Kept (stores B) domain regs s.lostStores s.shelf

variable {B regs text V} {s t : Sys}

theorem Booted.good (h : Booted B regs V s) : Good B regs V s where
  tree := by
    have hsame : restore ⟨false, []⟩ s.st = s.st := by simp [restore]
    rw [h.lost, hsame]
    exact h.synced
  stores := by
    refine ⟨?_, ?_, ?_, ?_, ?_, fun r hr binds _ _ _ => h.readable r hr binds, ?_⟩ <;> simp [h.insts]

theorem good_step (hV : ∀ p ∈ savedNames, V.mem p) (hE : ∀ r ∈ regs, (stores B r.schema).Lawful (domain r.schema)) {e : Event}
    (h : Good B regs V s) (ha : Allowed B regs text V s e) (hs : step B regs text s e = some t) : Good B regs V t := by
  cases e with
  | register key =>
    cases hs
    refine ⟨?_, h.stores⟩
    have hreg : stripDots key ∈ (s.lost.registered s.st).pres → stripDots key ∈ s.st.externals.map External.pre :=
      fun hmem => of_decide_eq_true (mem_filter.mp hmem).2
    rw [← storageNewTreeFile_restore _ _ _ hreg, restore_registered]
    exact synced_storageNewTreeFile h.tree ha
  | apply ops =>
    cases hs
    constructor
    · rw [← applyOps_restore, ← applyOps_treeOps]
      exact synced_applyOps h.tree ha.1
    · exact run_invariant (fun _ _ _ hk hp hs => some_inj.mp hs ▸ kept_sdbApplyOp hE hk hp.1 hp.2) h.stores ha.2
        (run_total _ _ _)
  | flush root trees files =>
    cases hs
    exact ⟨synced_writeSettingsFileWith hV h.tree, kept_storageDbFlushDirty hE h.stores ha files⟩

/-- The files hold what is in memory. -/
structure UpToDate (B : Board) (V : Vocabulary) (s : Sys) : Prop where
  root : RootKept V (s.st.rootFile.getD []) s.st
  trees : FilesKept V s.st
  stores : ∀ i ∈ s.shelf.insts, i.path ≠ [] → ∀ w, i.store = some w →
    (stores B i.schema).Same (i.reloaded (stores B) s.shelf.files) w

/-- What was lost is marked again, no external has lost its subtree but not its file, and no store is too large to be loaded. -/
structure Ready (s : Sys) : Prop where
  tree : Recovered s.lost s.st
  stores : Marked s.lostStores s.shelf
  stray : NoStray s.st
  small : Savable domain s.shelf

instance (s : Sys) : Decidable (Ready s) :=
  decidable_of_iff (Recovered s.lost s.st ∧ Marked s.lostStores s.shelf ∧ NoStray s.st ∧ Savable domain s.shelf)
    ⟨fun h => ⟨h.1, h.2.1, h.2.2.1, h.2.2.2⟩, fun h => ⟨h.tree, h.stores, h.stray, h.small⟩⟩

def flushedWell (B : Board) (s : Sys) : Sys := flushed B .written (fun _ => .written) (fun _ => .written) s

/-- A flush in which nothing fails brings all files up to date, whatever failed
before it, once what was lost is marked again. -/
theorem failed_flush_retried (V : Vocabulary) (hV : ∀ p ∈ savedNames, V.mem p) (B : Board) (hc : B.codec.Lossless)
    (regs : List Reg) (hregs : ∀ r ∈ regs, Described r.schema) (text : Option Json → Name) (s₀ s : Sys) (h₀ : Booted B regs V s₀)
    (es : List Event) (hes : Meets (step B regs text) (Allowed B regs text V) s₀ es) (hrun : run (step B regs text) s₀ es = some s)
    (hready : Ready s) : UpToDate B V (flushedWell B s) := by
  have hE : ∀ r ∈ regs, (stores B r.schema).Lawful (domain r.schema) := fun r hr => lawful_stores (hregs r hr) hc
  have hgood : Good B regs V s := run_invariant (fun _ _ _ hi ha hs => good_step hV hE hi ha hs) h₀.good hes hrun
  have hsync := synced_recovered hgood.tree hready.tree
  obtain ⟨hsettled, -⟩ := settled_writeSettingsFile hV hsync hready.stray
  rw [← writeSettingsFileWith_written] at hsettled
  exact ⟨hsettled.root hsettled.clean, hsettled.kept, files_storageDbFlushDirty hE hgood.stores hready.small hready.stores⟩

def books : List Reg := [⟨[lit "s", lit "book", lit "$"], lit "$1.db.gz", build 1 1 contacts, true, .reload, 0⟩]

theorem books_described : ∀ r ∈ books, Described r.schema := by
  have hcontacts : Described (build 1 1 contacts) := described_build contacts_declared (by decide) (by decide) (by decide +kernel)
  simpa [books] using hcontacts

def stringOf : Option Json → Name
  | some (.scalar (.str v)) => v
  | _ => []

def blankSys : Sys := ⟨empty, ⟨[], [], fun _ => none⟩, ⟨false, []⟩, []⟩

theorem booted_blank (V : Vocabulary) : Booted plainBoard books V blankSys :=
  ⟨synced_empty, rfl, rfl, fun r _ binds => load_none plainBoard r.schema (instPath r binds) r.capRecords⟩

def firstWrites : List Event :=
  [.register (lit "s.a"), .apply [setText "s.b" "1", setText "s.a.x" "2", setText "s.book.c.k.name" "anna"]]

/-- A flush that loses every write, and a change to each of the three files after it. -/
def changedAfter : List Event :=
  firstWrites ++ [.flush .kept (fun _ => .dropped) (fun _ => .kept),
    .apply [setText "s.b" "3", setText "s.a.x" "4", setText "s.book.c.k.name" "bert"]]

theorem failed_flush_retried_changedAfter :
    ∃ s, run (step plainBoard books stringOf) blankSys changedAfter = some s ∧
      UpToDate plainBoard fewNames (flushedWell plainBoard s) := by
  cases h : run (step plainBoard books stringOf) blankSys changedAfter with
  | none =>
    have hsome : (run (step plainBoard books stringOf) blankSys changedAfter).isSome = true := by decide +kernel
    simp [h] at hsome
  | some s =>
    have hready : (run (step plainBoard books stringOf) blankSys changedAfter).all (fun s => decide (Ready s)) = true := by
      decide +kernel
    rw [h] at hready
    exact ⟨s, rfl, failed_flush_retried fewNames (by decide) plainBoard verbatim_lossless books books_described stringOf blankSys s
      (booted_blank _) changedAfter (by decide +kernel) h (of_decide_eq_true hready)⟩

/-- A flush that loses every write, and nothing after it. -/
def lostWrites : List Event := firstWrites ++ [.flush .kept (fun _ => .kept) (fun _ => .kept)]

/-- The flags are cleared with the writes that were lost, so the next flush
writes nothing: `root.json`, the external and the store are out of date. -/
theorem failed_flush_forgotten :
    ∃ s, run (step plainBoard books stringOf) blankSys lostWrites = some s ∧
      Meets (step plainBoard books stringOf) (Allowed plainBoard books stringOf fewNames) blankSys lostWrites ∧
      ¬ RootKept fewNames ((flushedWell plainBoard s).st.rootFile.getD []) (flushedWell plainBoard s).st ∧
      ¬ FilesKept fewNames (flushedWell plainBoard s).st ∧
      ¬ ∀ i ∈ (flushedWell plainBoard s).shelf.insts, i.path ≠ [] → ∀ w, i.store = some w →
        (stores plainBoard i.schema).Same (i.reloaded (stores plainBoard) (flushedWell plainBoard s).shelf.files) w := by
  have hend : (run (step plainBoard books stringOf) blankSys lostWrites).any (fun s =>
      let t := flushedWell plainBoard s
      decide (t.st.rootFile.isNone) && (valueAt (.obj t.st.cfgRoot) [lit "s", lit "b"]).isSome &&
        decide (¬ Covered t.st.externals [lit "s", lit "b"]) &&
        t.st.externals.any (fun e => !e.pendingDelete && decide (Topmost t.st.externals (segments e.pre)) &&
          (fileOf t.st.files e.pre).isNone && (valueAt (.obj t.st.cfgRoot) (segments e.pre ++ [lit "x"])).isSome) &&
        t.shelf.insts.any (fun i => !i.path.isEmpty && !sdbHasRecord (i.reloaded (stores plainBoard) t.shelf.files) (lit "k") &&
          i.store.any fun w => sdbHasRecord w (lit "k"))) = true := by
    decide +kernel
  cases h : run (step plainBoard books stringOf) blankSys lostWrites with
  | none => simp [h] at hend
  | some s =>
    rw [h, any_some] at hend
    refine ⟨s, rfl, by decide +kernel, ?_⟩
    generalize flushedWell plainBoard s = t at hend ⊢
    simp only [Bool.and_eq_true, decide_eq_true_eq, List.any_eq_true, Bool.not_eq_true', Option.isNone_iff_eq_none] at hend
    obtain ⟨⟨⟨⟨hroot, hb⟩, hcov⟩, e, he, ⟨⟨hlive, htop⟩, hnone⟩, hx⟩, i, hi, ⟨hpath, hfile⟩, hrow⟩ := hend
    refine ⟨fun hkept => ?_, fun hkept => ?_, fun hkept => ?_⟩
    · have hq := hkept [lit "s", lit "b"] (by decide) (by decide)
      rw [hroot, if_neg hcov] at hq
      rw [← hq] at hb
      cases hb
    · have hq := hkept e he htop hlive [lit "x"] (by decide)
      rw [hnone] at hq
      rw [hq] at hx
      cases hx
    · obtain ⟨w, hw, hhas⟩ := (Option.any_eq_true _ _).mp hrow
      have hsame : sdbHasRecord _ (lit "k") = sdbHasRecord w (lit "k") := (hkept i hi (by simpa using hpath) w hw).has (lit "k")
      rw [hfile, hhas] at hsame
      cases hsame

end Run

end Spangap.Retry
