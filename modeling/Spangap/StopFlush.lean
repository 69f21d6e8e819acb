import Spangap.Persist
import Spangap.Runs
import Spangap.StoreEngine

namespace Spangap.StopFlush

open List Option CJson DotPath Commit Persist Registry Fields StoreEngine Runs Bool

inductive Call
  | truncate (path : Name)
  | write (path : Name)
  | rename (src dst : Name)
  | remove (path : Name)
  deriving DecidableEq, Repr

/-- Calls in a row. Each may fail, and what follows may depend on it. -/
inductive Script
  | done (ok : Bool)
  | call (c : Call) (next : Bool → Script)

def Script.andThen : Script → (Bool → Script) → Script
  | .done ok, k => k ok
  | .call c next, k => .call c fun b => (next b).andThen k

def flushChunk : Nat := 8192

def writeChunks (tmp : Name) : Nat → Script
  | 0 => .done true
  | n + 1 => .call (.write tmp) fun ok => if ok then writeChunks tmp n else .done false

def atomicWriteFile (path : Name) (len : Nat) : Script :=
  let tmp := path ++ lit ".new"
  .call (.truncate tmp) fun opened =>
    if opened then
      (writeChunks tmp ((len + flushChunk - 1) / flushChunk)).andThen fun ok =>
        if ok then .call (.rename tmp path) fun _ => .done true
        else .call (.remove tmp) fun _ => .done false
    else .done false

/-- `gz` is the length of the compressed text, if there was memory to compress it. -/
def atomicWriteJsonGz (path : Name) (gz : Option Nat) (len : Nat) : Script :=
  let gzPath := path ++ lit ".gz"
  match gz with
  | some n =>
    (atomicWriteFile gzPath n).andThen fun ok =>
      if ok then .call (.remove path) fun _ => .done true else .done false
  | none =>
    (atomicWriteFile path len).andThen fun ok =>
      if ok then .call (.remove gzPath) fun _ => .done true else .done false

def writeStore (path : Name) (len : Nat) : Script :=
  let tmp := path ++ lit ".new"
  (atomicWriteFile tmp len).andThen fun ok =>
    if ok then .call (.rename tmp path) fun _ => .done true else .done false

def removeExternal (path : Name) : Script :=
  .call (.remove path) fun _ => .call (.remove (path ++ lit ".gz")) fun _ => .done true

def rootPath : Name := lit "/storage/root.json"

def externalPath (pre : Name) : Name := lit "/storage/external/" ++ pre ++ lit ".json"

/-- Where the persist worker stands. The lock is held inside a step and never
across two of them, and a step makes at most one call. -/
inductive Phase
  | idle
  | takeBlobs
  | blobs (jobs : List (Name × Nat))
  | gate
  | scan (i : Nat)
  | snapExternal (i : Nat) (pre : Name)
  | testRoot
  | snapRoot
  | clearRoot
  | snapStores
  | stores (deletes : List Name) (jobs : List (Name × Nat))
  | deletes
  | collect
  | calls (script : Script) (back : Phase)

/-- What a step of the worker depends on besides the state: memory for a
snapshot, for its text and for its compression, and the result of the call. -/
structure Luck where
  snaps : Bool
  prints : Bool
  deflates : Bool
  call : Bool

/-- The calls made so far are kept as a log. A blob is a path and a length. -/
structure Sys (S F : Type) where
  st : State
  shelf : Shelf S F
  pendingBlobs : List (Name × Nat)
  flushStopped : Bool
  poked : Bool
  phase : Phase
  log : List Call

/-- The lengths of the texts of trees, plain and compressed, and of compressed stores. -/
structure Sizes (S : Type) where
  text : Json → Nat
  gz : Json → Nat
  store : S → Nat

inductive Action
  | apply (ops : List Op)
  | register (key : Name)
  | storagePersistBlob (path : Name) (len : Nat)
  | storageStopFlushing
  | poke
  | work (luck : Luck)

variable {S F : Type} (z : Sizes S) {js : List (Name × Nat)} {i : Nat} {script : Script} {back : Phase} {luck : Luck}

def jsonScript (z : Sizes S) (luck : Luck) (path : Name) (v : Json) : Script :=
  atomicWriteJsonGz path (if luck.deflates then some (z.gz v) else none) (z.text v)

def storeJobs (luck : Luck) (sh : Shelf S F) : List (Name × Nat) :=
  sh.insts.filterMap fun i =>
    if i.writes && luck.snaps then i.store.map fun s => (i.path, z.store s) else none

def clearStores (E : Schema → Engine S F) (sh : Shelf S F) : Shelf S F :=
  { sh with insts := sh.insts.map (Inst.flushed E), pendingDeletes := [] }

def unflag (i : Nat) (es : List External) : List External := es.modify i fun e => { e with dirty := false }

/-- One step of `saveWorkerFn`. The flag is looked at in one place. -/
def work (E : Schema → Engine S F) (luck : Luck) (s : Sys S F) : Option (Sys S F) :=
  let σ := s.st
  match s.phase with
  | .idle => if s.poked then some { s with poked := false, phase := .takeBlobs } else none
  | .takeBlobs => some { s with pendingBlobs := [], phase := .blobs s.pendingBlobs }
  | .blobs [] => some { s with phase := .gate }
  | .blobs (j :: js) => some { s with phase := .calls (atomicWriteFile j.1 j.2) (.blobs js) }
  | .gate =>
    if s.flushStopped then some { s with phase := .collect }
    else some { s with st := { σ with savePending := false }, phase := .scan 0 }
  | .scan i =>
    match σ.externals[i]? with
    | none => some { s with phase := .testRoot }
    | some e =>
      if e.dirty && !e.pendingDelete then
        some { s with
          st := { σ with externals := unflag i σ.externals }
          phase := .snapExternal (i + 1) e.pre }
      else some { s with phase := .scan (i + 1) }
  | .snapExternal i p =>
    match navigatePath (.obj σ.cfgRoot) p with
    | none => some { s with phase := .scan i }
    | some v =>
      if luck.snaps && luck.prints then some { s with phase := .calls (jsonScript z luck (externalPath p) v) (.scan i) }
      else some { s with phase := .scan i }
  | .testRoot => some { s with phase := if σ.rootDirty then .snapRoot else .snapStores }
  | .snapRoot =>
    if luck.snaps then
      let r := withExternalsDetached savedMembers σ.externals σ.cfgRoot
      some { s with
        st := { σ with cfgRoot := r.2 }
        phase := if luck.prints then .calls (jsonScript z luck rootPath (.obj r.1)) .clearRoot else .clearRoot }
    else some { s with phase := .clearRoot }
  | .clearRoot => some { s with st := { σ with rootDirty := false }, phase := .snapStores }
  | .snapStores =>
    some { s with shelf := clearStores E s.shelf, phase := .stores s.shelf.pendingDeletes (storeJobs z luck s.shelf) }
  | .stores (p :: ps) js => some { s with phase := .calls (.call (.remove p) fun _ => .done true) (.stores ps js) }
  | .stores [] (j :: js) =>
    some { s with phase := if luck.deflates then .calls (writeStore j.1 j.2) (.stores [] js) else .stores [] js }
  | .stores [] [] => some { s with phase := .deletes }
  | .deletes =>
    match σ.externals.find? External.pendingDelete with
    | none => some { s with phase := .collect }
    | some e =>
      some { s with
        st := { σ with externals := σ.externals.eraseP External.pendingDelete }
        phase := .calls (removeExternal (externalPath e.pre)) .deletes }
  | .collect => some { s with phase := .idle }
  | .calls (.done _) back => some { s with phase := back }
  | .calls (.call c next) back => some { s with phase := .calls (next luck.call) back, log := s.log ++ [c] }

def persistBlob (path : Name) (len : Nat) (bs : List (Name × Nat)) : List (Name × Nat) :=
  if bs.any (fun b => b.1 == path) then bs.map fun b => if b.1 = path then (path, len) else b
  else bs ++ [(path, len)]

def stop (s : Sys S F) : Sys S F := { s with flushStopped := true }

/-- The poke that comes with a blob or a save is a step of its own, and so is
one by the save timer. -/
def step (E : Schema → Engine S F) (regs : List Reg) (text : Option Json → Name) (s : Sys S F) : Action → Option (Sys S F)
  | .apply ops =>
    some { s with
      st := applyOps (patterns regs) s.st ops
      shelf := sdbApplyOps E regs text s.shelf ops }
  | .register key => some { s with st := storageNewTreeFile s.st key }
  | .storagePersistBlob path len => some { s with pendingBlobs := persistBlob path len s.pendingBlobs }
  | .storageStopFlushing => some (stop s)
  | .poke => some { s with poked := true }
  | .work luck => work z E luck s

def Own : Action → Prop
  | .work _ => True
  | .poke => True
  | _ => False

/-- Whatever the allowed actions do from here on, no file is touched. -/
def Silent (E : Schema → Engine S F) (regs : List Reg) (text : Option Json → Name) (allowed : Action → Prop)
    (s : Sys S F) : Prop :=
  ∀ as t, (∀ a ∈ as, allowed a) → run (step z E regs text) s as = some t → t.log = s.log

section Rest

def NoDeletes (s : Sys S F) : Prop := ∀ e ∈ s.st.externals, e.pendingDelete = false

def StoresDone (s : Sys S F) : Prop :=
  s.shelf.pendingDeletes = [] ∧ (∀ i ∈ s.shelf.insts, i.writes = false) ∧ NoDeletes s

def RootDone (s : Sys S F) : Prop := s.st.rootDirty = false ∧ StoresDone s

def ScanDone (i : Nat) (s : Sys S F) : Prop :=
  (∀ e ∈ s.st.externals.drop i, e.dirty = true → e.pendingDelete = false →
    (navigatePath (.obj s.st.cfgRoot) e.pre).isNone = true) ∧ RootDone s

/-- What the worker has yet to do touches no file. -/
def Rest (s : Sys S F) : Phase → Prop
  | .idle => True
  | .takeBlobs => True
  | .blobs js => js = []
  | .gate => True
  | .scan i => ScanDone i s
  | .snapExternal i p => (navigatePath (.obj s.st.cfgRoot) p).isNone = true ∧ ScanDone i s
  | .testRoot => RootDone s
  | .snapRoot => False
  | .clearRoot => StoresDone s
  | .snapStores => StoresDone s
  | .stores ps js => ps = [] ∧ js = [] ∧ NoDeletes s
  | .deletes => NoDeletes s
  | .collect => True
  | .calls (.done _) back => Rest s back
  | .calls (.call _ _) _ => False

/-- No blob waits, and the worker is outside a flush or finds nothing to do in
the rest of it. -/
def Settled (s : Sys S F) : Prop := s.pendingBlobs = [] ∧ Rest s s.phase

variable {z} {E : Schema → Engine S F} {s t : Sys S F}

theorem Rest.congr (hst : t.st = s.st) (hsh : t.shelf = s.shelf) (ph : Phase) : Rest t ph ↔ Rest s ph := by
  induction ph with
  | calls script back ih =>
    cases script with
    | done ok => exact ih
    | call c next => exact Iff.rfl
  | _ => simp only [Rest, ScanDone, RootDone, StoresDone, NoDeletes, hst, hsh]

theorem drop_unflag (i : Nat) (es : List External) : (unflag i es).drop (i + 1) = es.drop (i + 1) := by
  apply ext_getElem?
  intro n
  have hne : i ≠ i + 1 + n := by omega
  simp [unflag, getElem?_drop, hne]

theorem pendings_unflag (i : Nat) (es : List External) :
    (unflag i es).map External.pendingDelete = es.map External.pendingDelete := by
  apply ext_getElem?
  intro n
  simp only [unflag, getElem?_map, getElem?_modify]
  cases es[n]? with
  | none => rfl
  | some e => by_cases hi : i = n <;> simp [hi]

theorem noPending_unflag (i : Nat) (es : List External) :
    (∀ e ∈ unflag i es, e.pendingDelete = false) ↔ ∀ e ∈ es, e.pendingDelete = false := by
  rw [← forall_mem_map (f := External.pendingDelete) (P := (· = false)), pendings_unflag, List.forall_mem_map]

theorem scanDone_succ (h : ScanDone i s) : ScanDone (i + 1) s := by
  refine ⟨fun e he => h.1 e ?_, h.2⟩
  rw [← drop_drop] at he
  exact mem_of_mem_drop he

section Scan

variable {e : External} (hph : s.phase = .scan i)

include hph

theorem work_scan_end (he : s.st.externals[i]? = none) : work z E luck s = some { s with phase := .testRoot } := by
  rw [work, hph]
  dsimp only
  rw [he]

variable (he : s.st.externals[i]? = some e)

include he

theorem work_scan_due (hdue : (e.dirty && !e.pendingDelete) = true) :
    work z E luck s = some { s with
      st := { s.st with externals := unflag i s.st.externals }
      phase := .snapExternal (i + 1) e.pre } := by
  rw [work, hph]
  dsimp only
  rw [he]
  dsimp only
  rw [if_pos hdue]

theorem work_scan_pass (hdue : ¬ (e.dirty && !e.pendingDelete) = true) :
    work z E luck s = some { s with phase := .scan (i + 1) } := by
  rw [work, hph]
  dsimp only
  rw [he]
  dsimp only
  rw [if_neg hdue]

end Scan

theorem settled_work_scan (hs : s.flushStopped = true) (hblobs : s.pendingBlobs = []) (hph : s.phase = .scan i)
    (h : ScanDone i s) (hw : work z E luck s = some t) : t.flushStopped = true ∧ Settled t ∧ t.log = s.log := by
  cases he : s.st.externals[i]? with
  | none =>
    rw [work_scan_end hph he] at hw
    cases hw
    exact ⟨hs, ⟨hblobs, h.2⟩, rfl⟩
  | some e =>
    by_cases hdue : (e.dirty && !e.pendingDelete) = true
    · rw [work_scan_due hph he hdue] at hw
      cases hw
      rw [and_eq_true, not_eq_true'] at hdue
      have hmem : e ∈ s.st.externals.drop i :=
        mem_iff_getElem?.mpr ⟨0, by rw [getElem?_drop]; exact he⟩
      refine ⟨hs, ⟨hblobs, h.1 e hmem hdue.1 hdue.2, ?_⟩, rfl⟩
      obtain ⟨hscan, hroot, hdel, hinst, hext⟩ := scanDone_succ h
      refine ⟨fun d hd => hscan d ?_, hroot, hdel, hinst, (noPending_unflag i _).mpr hext⟩
      rwa [← drop_unflag]
    · rw [work_scan_pass hph he hdue] at hw
      cases hw
      exact ⟨hs, ⟨hblobs, scanDone_succ h⟩, rfl⟩

theorem settled_work (hs : s.flushStopped = true) (h : Settled s) (hw : work z E luck s = some t) :
    t.flushStopped = true ∧ Settled t ∧ t.log = s.log := by
  obtain ⟨hblobs, hrest⟩ := h
  have hstep := hw
  unfold work at hw
  generalize hph : s.phase = ph at hw hrest
  cases ph with
  | idle =>
    dsimp only at hw
    split at hw
    · cases hw
      exact ⟨hs, ⟨hblobs, trivial⟩, rfl⟩
    · cases hw
  | takeBlobs =>
    cases hw
    exact ⟨hs, ⟨rfl, hblobs⟩, rfl⟩
  | blobs js =>
    obtain rfl : js = [] := hrest
    cases hw
    exact ⟨hs, ⟨hblobs, trivial⟩, rfl⟩
  | gate =>
    dsimp only at hw
    rw [if_pos hs] at hw
    cases hw
    exact ⟨hs, ⟨hblobs, trivial⟩, rfl⟩
  | scan i => exact settled_work_scan hs hblobs hph hrest hstep
  | snapExternal i p =>
    dsimp only at hw
    rw [isNone_iff_eq_none.mp hrest.1] at hw
    cases hw
    exact ⟨hs, ⟨hblobs, hrest.2⟩, rfl⟩
  | testRoot =>
    cases hw
    refine ⟨hs, ⟨hblobs, ?_⟩, rfl⟩
    dsimp only
    rw [hrest.1]
    exact hrest.2
  | snapRoot =>
    exact hrest.elim
  | clearRoot =>
    cases hw
    exact ⟨hs, ⟨hblobs, hrest⟩, rfl⟩
  | snapStores =>
    cases hw
    refine ⟨hs, ⟨hblobs, hrest.1, ?_, hrest.2.2⟩, rfl⟩
    rw [storeJobs, filterMap_eq_nil_iff]
    intro i hi
    simp [hrest.2.1 i hi]
  | stores ps js =>
    obtain ⟨rfl, rfl, hext⟩ := hrest
    cases hw
    exact ⟨hs, ⟨hblobs, hext⟩, rfl⟩
  | deletes =>
    have hnone : s.st.externals.find? External.pendingDelete = none :=
      find?_eq_none.mpr fun e he => by simp [hrest e he]
    dsimp only at hw
    rw [hnone] at hw
    cases hw
    exact ⟨hs, ⟨hblobs, trivial⟩, rfl⟩
  | collect =>
    cases hw
    exact ⟨hs, ⟨hblobs, trivial⟩, rfl⟩
  | calls script back =>
    cases script with
    | call c next => exact hrest.elim
    | done ok =>
      cases hw
      have hback : Rest s back := by simpa only [Rest] using hrest
      refine ⟨hs, ⟨hblobs, ?_⟩, rfl⟩
      exact (Rest.congr (s := s) (t := { s with phase := back }) rfl rfl back).mpr hback

end Rest

section Stop

variable {z} {E : Schema → Engine S F} {regs : List Reg} {text : Option Json → Name} {s t : Sys S F}

theorem silent_of_settled (hs : s.flushStopped = true) (h : Settled s) : Silent z E regs text Own s := by
  intro as t has hrun
  induction as generalizing s with
  | nil =>
    cases hrun
    rfl
  | cons a as ih =>
    obtain ⟨ha, hown⟩ := forall_mem_cons.mp has
    obtain ⟨u, hu, hrest⟩ := (run_cons _ s t a as).mp hrun
    cases a with
    | work luck =>
      obtain ⟨hstop, hsettled, hlog⟩ := settled_work hs h hu
      rw [ih hstop hsettled hown hrest, hlog]
    | poke =>
      cases hu
      have hpoked : Settled { s with poked := true } :=
        ⟨h.1, (Rest.congr (s := s) (t := { s with poked := true }) rfl rfl s.phase).mpr h.2⟩
      exact ih (s := { s with poked := true }) hs hpoked hown hrest
    | apply | register | storagePersistBlob | storageStopFlushing => exact ha.elim

def lucky : Luck := ⟨true, true, true, true⟩

theorem silent_work (h : Silent z E regs text Own s) (hw : work z E lucky s = some t) :
    t.log = s.log ∧ Silent z E regs text Own t := by
  have hone : run (step z E regs text) s [.work lucky] = some t := (run_cons _ _ _ _ _).mpr ⟨t, hw, rfl⟩
  have hlog := h [.work lucky] t (by simp [Own]) hone
  refine ⟨hlog, fun as u has hrun => ?_⟩
  rw [hlog]
  exact h (.work lucky :: as) u (forall_mem_cons.mpr ⟨trivial, has⟩) ((run_cons _ _ _ _ _).mpr ⟨t, hw, hrun⟩)

theorem silent_poke (h : Silent z E regs text Own s) : Silent z E regs text Own { s with poked := true } :=
  fun as u has hrun => h (.poke :: as) u (forall_mem_cons.mpr ⟨trivial, has⟩) ((run_cons _ _ _ _ _).mpr ⟨_, rfl, hrun⟩)

/-- Scripts that make a call first. -/
def Script.Calls : Script → Prop
  | .done _ => False
  | .call _ _ => True

theorem not_silent_script (hph : s.phase = .calls script back) (hc : script.Calls) :
    ¬ Silent z E regs text Own s := by
  intro h
  cases script with
  | done ok => exact hc.elim
  | call c next =>
    cases s
    cases hph
    simpa using (silent_work h rfl).1

theorem calls_jsonScript (z : Sizes S) (luck : Luck) (path : Name) (v : Json) : (jsonScript z luck path v).Calls := by
  rw [jsonScript]
  split <;> trivial

theorem not_silent_into (hw : work z E lucky s = some t)
    (hph : t.phase = .calls script back) (hc : script.Calls) : ¬ Silent z E regs text Own s :=
  fun h => not_silent_script hph hc (silent_work h hw).2

theorem not_silent_blobs {j : Name × Nat} (hph : s.phase = .blobs (j :: js)) : ¬ Silent z E regs text Own s := by
  cases s
  cases hph
  exact not_silent_into rfl rfl trivial

theorem writes_of_storeJobs {sh : Shelf S F} (h : storeJobs z lucky sh = []) : ∀ i ∈ sh.insts, i.writes = false := by
  intro i hi
  rw [storeJobs, filterMap_eq_nil_iff] at h
  have hnone := h i hi
  cases hw : i.writes with
  | false => rfl
  | true =>
    have hstore : i.store.isSome = true := by
      rw [Inst.writes, and_eq_true, and_eq_true] at hw
      exact hw.1.1
    simp [hw, lucky, ne_none_iff_isSome.mpr hstore] at hnone

theorem not_silent_snapRoot (hph : s.phase = .snapRoot) : ¬ Silent z E regs text Own s := by
  cases s
  cases hph
  exact not_silent_into rfl rfl (calls_jsonScript _ _ _ _)

theorem not_silent_snapExternal {p : Name} {v : Json} (hph : s.phase = .snapExternal i p)
    (hv : navigatePath (.obj s.st.cfgRoot) p = some v) : ¬ Silent z E regs text Own s := by
  have hw : work z E lucky s = some { s with phase := .calls (jsonScript z lucky (externalPath p) v) (.scan i) } := by
    rw [work, hph]
    dsimp only
    rw [hv]
    rfl
  exact not_silent_into hw rfl (calls_jsonScript _ _ _ _)

theorem work_snapExternal {p : Name} (hph : s.phase = .snapExternal i p)
    (hv : navigatePath (.obj s.st.cfgRoot) p = none) : work z E lucky s = some { s with phase := .scan i } := by
  rw [work, hph]
  dsimp only
  rw [hv]

section

variable (h : Silent z E regs text Own s)
include h

theorem settled_takeBlobs (hph : s.phase = .takeBlobs) : Settled s := by
  cases s with
  | mk st shelf blobs stopped poked ph log =>
    cases hph
    have hnext := (silent_work h rfl).2
    cases blobs with
    | nil => exact ⟨rfl, trivial⟩
    | cons j js => exact absurd hnext (not_silent_blobs rfl)

theorem settled_idle (hph : s.phase = .idle) : Settled s := by
  cases s
  cases hph
  have hnext := settled_takeBlobs (silent_work (silent_poke h) rfl).2 rfl
  exact ⟨hnext.1, trivial⟩

theorem settled_collect (hph : s.phase = .collect) : Settled s := by
  cases s
  cases hph
  have hnext := settled_idle (silent_work h rfl).2 rfl
  exact ⟨hnext.1, trivial⟩

theorem settled_gate (hs : s.flushStopped = true) (hph : s.phase = .gate) : Settled s := by
  cases s
  cases hph
  have hnext := settled_collect (silent_work h (if_pos hs)).2 rfl
  exact ⟨hnext.1, trivial⟩

theorem settled_deletes (hph : s.phase = .deletes) : Settled s := by
  have hw : work z E lucky s = match s.st.externals.find? External.pendingDelete with
    | none => some { s with phase := .collect }
    | some e => some { s with
        st := { s.st with externals := s.st.externals.eraseP External.pendingDelete }
        phase := .calls (removeExternal (externalPath e.pre)) .deletes } := by
    rw [work, hph]
  cases hf : s.st.externals.find? External.pendingDelete with
  | none =>
    rw [hf] at hw
    have hnext := settled_collect (silent_work h hw).2 rfl
    refine ⟨hnext.1, ?_⟩
    rw [hph]
    intro e he
    simpa using find?_eq_none.mp hf e he
  | some e =>
    rw [hf] at hw
    exact absurd h (not_silent_into hw rfl trivial)

theorem settled_stores {ps : List Name} (hph : s.phase = .stores ps js) : Settled s := by
  cases s
  cases hph
  cases ps with
  | cons p ps => exact absurd h (not_silent_into rfl rfl trivial)
  | nil =>
    cases js with
    | cons j js => exact absurd h (not_silent_into rfl rfl trivial)
    | nil =>
      have hnext := settled_deletes (silent_work h rfl).2 rfl
      exact ⟨hnext.1, rfl, rfl, hnext.2⟩

theorem settled_snapStores (hph : s.phase = .snapStores) : Settled s := by
  cases s
  cases hph
  obtain ⟨hblobs, hdel, hjobs, hext⟩ := settled_stores (silent_work h rfl).2 rfl
  exact ⟨hblobs, hdel, writes_of_storeJobs hjobs, hext⟩

theorem settled_clearRoot (hph : s.phase = .clearRoot) : Settled s := by
  cases s
  cases hph
  have hnext := settled_snapStores (silent_work h rfl).2 rfl
  exact ⟨hnext.1, hnext.2⟩

theorem settled_testRoot (hph : s.phase = .testRoot) : Settled s := by
  cases s
  cases hph
  have hnext := (silent_work h rfl).2
  dsimp only at hnext
  split at hnext
  · exact absurd hnext (not_silent_snapRoot rfl)
  next hd =>
    have hdone := settled_snapStores hnext rfl
    exact ⟨hdone.1, by simpa using hd, hdone.2⟩

theorem settled_scan (hph : s.phase = .scan i) : Settled s := by
  obtain ⟨n, hn⟩ : ∃ n, n = s.st.externals.length - i := ⟨_, rfl⟩
  induction n generalizing s i with
  | zero =>
    have hend : s.st.externals.length ≤ i := by omega
    have hnext := settled_testRoot (silent_work h (work_scan_end hph (getElem?_eq_none hend))).2 rfl
    refine ⟨hnext.1, ?_⟩
    rw [hph]
    refine ⟨?_, hnext.2⟩
    rw [drop_eq_nil_of_le hend]
    nofun
  | succ n ih =>
    have hlt : i < s.st.externals.length := by omega
    obtain ⟨e, he⟩ : ∃ e, s.st.externals[i]? = some e := ⟨_, getElem?_eq_getElem hlt⟩
    have hdrop : s.st.externals.drop i = e :: s.st.externals.drop (i + 1) := by
      rw [List.drop_eq_getElem_cons hlt, (List.getElem?_eq_some_iff.mp he).2]
    by_cases hdue : (e.dirty && !e.pendingDelete) = true
    · have h1 := (silent_work h (work_scan_due hph he hdue)).2
      cases hv : navigatePath (.obj s.st.cfgRoot) e.pre with
      | some v => exact absurd h1 (not_silent_snapExternal rfl hv)
      | none =>
        have h2 := (silent_work h1 (work_snapExternal rfl hv)).2
        have hlen : n = (unflag i s.st.externals).length - (i + 1) := by
          rw [unflag, length_modify]
          omega
        obtain ⟨hblobs, hscan, hroot, hdel, hinst, hext⟩ := ih h2 rfl hlen
        refine ⟨hblobs, ?_⟩
        rw [hph]
        refine ⟨?_, hroot, hdel, hinst, (noPending_unflag i _).mp hext⟩
        rw [hdrop]
        refine forall_mem_cons.mpr ⟨fun _ _ => isNone_iff_eq_none.mpr hv, fun d hd => hscan d ?_⟩
        exact drop_unflag i s.st.externals ▸ hd
    · have h1 := (silent_work h (work_scan_pass hph he hdue)).2
      obtain ⟨hblobs, hscan, hroot⟩ := ih h1 rfl (by dsimp only; omega)
      refine ⟨hblobs, ?_⟩
      rw [hph]
      refine ⟨?_, hroot⟩
      rw [hdrop]
      refine forall_mem_cons.mpr ⟨fun hd hp => absurd ?_ hdue, hscan⟩
      rw [hd, hp]
      rfl

end

theorem settled_of_silent (hs : s.flushStopped = true) (h : Silent z E regs text Own s) : Settled s := by
  obtain ⟨ph, hph⟩ : ∃ ph, ph = s.phase := ⟨_, rfl⟩
  induction ph generalizing s with
  | idle => exact settled_idle h hph.symm
  | takeBlobs => exact settled_takeBlobs h hph.symm
  | blobs js =>
    cases js with
    | cons j js => exact absurd h (not_silent_blobs hph.symm)
    | nil =>
      have hw : work z E lucky s = some { s with phase := .gate } := by rw [work, ← hph]
      have hnext := settled_gate (s := { s with phase := .gate }) (silent_work h hw).2 hs rfl
      exact ⟨hnext.1, by rw [← hph]; rfl⟩
  | gate => exact settled_gate h hs hph.symm
  | scan i => exact settled_scan h hph.symm
  | snapExternal i p =>
    cases hv : navigatePath (.obj s.st.cfgRoot) p with
    | some v => exact absurd h (not_silent_snapExternal hph.symm hv)
    | none =>
      have hnext := settled_scan (silent_work h (work_snapExternal hph.symm hv)).2 rfl
      refine ⟨hnext.1, ?_⟩
      rw [← hph]
      exact ⟨isNone_iff_eq_none.mpr hv, hnext.2⟩
  | testRoot => exact settled_testRoot h hph.symm
  | snapRoot => exact absurd h (not_silent_snapRoot hph.symm)
  | clearRoot => exact settled_clearRoot h hph.symm
  | snapStores => exact settled_snapStores h hph.symm
  | stores ps js => exact settled_stores h hph.symm
  | deletes => exact settled_deletes h hph.symm
  | collect => exact settled_collect h hph.symm
  | calls script back ih =>
    cases script with
    | call c next => exact absurd h (not_silent_script hph.symm trivial)
    | done ok =>
      have hw : work z E lucky s = some { s with phase := back } := by rw [work, ← hph]
      have hnext := ih (s := { s with phase := back }) hs (silent_work h hw).2 rfl
      refine ⟨hnext.1, ?_⟩
      rw [← hph, Rest]
      exact (Rest.congr (s := s) (t := { s with phase := back }) rfl rfl back).mp hnext.2

/-- Stopping the flushes stops the worker if and only if no blob waits and the
worker has nothing left to do in the flush it is in. -/
theorem storageStopFlushing_silences_iff (z : Sizes S) (E : Schema → Engine S F) (regs : List Reg)
    (text : Option Json → Name) (s : Sys S F) : Silent z E regs text Own (stop s) ↔ Settled s := by
  have hsame : Settled (stop s) ↔ Settled s := by
    rw [Settled, Settled]
    exact and_congr_right fun _ => Rest.congr (s := s) (t := stop s) rfl rfl s.phase
  rw [← hsame]
  exact ⟨settled_of_silent rfl, silent_of_settled rfl⟩

def bootSys : Sys RecordStore.Store (List UInt8) := ⟨empty, ⟨[], [], fun _ => none⟩, [], false, false, .idle, []⟩

def unitSizes : Sizes RecordStore.Store := ⟨fun _ => 1, fun _ => 1, fun _ => 1⟩

def noText : Option Json → Name := fun _ => []

/-- The worker is about to take the snapshot of `root.json`. -/
def underway : List Action := [.apply [setText "s.a" "1"], .poke] ++ replicate 6 (.work lucky)

def blobWaiting : List Action := [.storagePersistBlob (lit "/blob") 1]

/-- A flush that is under way goes on, and a blob that waits is written. -/
theorem storageStopFlushing_ignored :
    (∃ t, run (step unitSizes (stores plainBoard) [] noText) bootSys (underway ++ [.storageStopFlushing]) = some t ∧
      ¬ Silent unitSizes (stores plainBoard) [] noText Own t) ∧
    ∃ t, run (step unitSizes (stores plainBoard) [] noText) bootSys (blobWaiting ++ [.storageStopFlushing]) = some t ∧
      ¬ Silent unitSizes (stores plainBoard) [] noText Own t := by
  have hloud : ∀ as bs : List Action, (∀ b ∈ bs, Own b) →
      (run (step unitSizes (stores plainBoard) [] noText) bootSys as).any (fun t =>
        (run (step unitSizes (stores plainBoard) [] noText) t bs).any fun u => decide (u.log ≠ t.log)) = true →
      ∃ t, run (step unitSizes (stores plainBoard) [] noText) bootSys as = some t ∧ ¬ Silent unitSizes (stores plainBoard) [] noText Own t := by
    intro as bs hbs hend
    obtain ⟨t, ht, hend⟩ := (any_eq_true _ _).mp hend
    obtain ⟨u, hu, hlog⟩ := (any_eq_true _ _).mp hend
    exact ⟨t, ht, fun hsilent => of_decide_eq_true hlog (hsilent bs u hbs hu)⟩
  constructor
  · exact hloud _ [.work lucky, .work lucky] (by simp [Own]) (by decide +kernel)
  · exact hloud _ [.poke, .work lucky, .work lucky, .work lucky, .work lucky] (by simp [Own]) (by decide +kernel)

end Stop

end Spangap.StopFlush
