import Spangap.Commit

namespace Spangap.Persist

open List Option CJson FirstMatch DotPath Merge Commit

/-- A subtree with a file of its own. The file's path is determined by the prefix. -/
structure External where
  pre : Name
  dirty : Bool
  pendingDelete : Bool
  deriving DecidableEq, Repr

/-- The committed tree, what is known to be unsaved of it, and the files. A file
is modelled by the tree its text parses to. -/
structure State where
  cfgRoot : List Child
  externals : List External
  rootDirty : Bool
  savePending : Bool
  rootFile : Option (List Child)
  files : List (Name × Json)

def empty : State := ⟨[], [], false, false, none, []⟩

inductive Mark
  | root
  | external (pre : Name)
  deriving DecidableEq, Repr

def persistent (path : Name) : Bool := (lit "s.").isPrefixOf path || (lit "secrets.").isPrefixOf path

mutual
/-- The dirty flags a patch sets. The walk stops at the first external prefix,
and at members whose path does not fit its buffer. -/
def routePatchDirty (pres : List Name) (path : Name) : Json → List Mark
  | .obj cs => if path ≠ [] ∧ path ∈ pres then [.external path] else routeMembers pres path cs
  | _ =>
    if path ≠ [] ∧ path ∈ pres then [.external path]
    else if persistent path then [.root] else []

def routeMembers (pres : List Name) (path : Name) : List (Option Name × Json) → List Mark
  | [] => []
  | (none, _) :: cs => routeMembers pres path cs
  | (some n, v) :: cs =>
    (if 128 ≤ (extend path n).length then [] else routePatchDirty pres (extend path n) v) ++
      routeMembers pres path cs
end

def stripDots (s : Name) : Name := (s.reverse.dropWhile (· = 46)).reverse

/-- An external lies at or below a key that is deleted. -/
def deletedUnder (key pre : Name) : Bool :=
  stripDots key ≠ [] && (pre == stripDots key || (stripDots key ++ [46]).isPrefixOf pre)

def markExternalsDeletedUnder (key : Name) (exts : List External) : List External :=
  exts.map fun e => if deletedUnder key e.pre then { e with pendingDelete := true } else e

def markDeleted (exts : List External) (o : Op) : List External :=
  if o.code = .delete then markExternalsDeletedUnder o.key exts else exts

def armed (patch : List Child) : Bool :=
  (getObjectItem patch (lit "s")).isSome || (getObjectItem patch (lit "secrets")).isSome

def marksOf (exts : List External) (patch : List Child) : List Mark :=
  if armed patch then routePatchDirty (exts.map External.pre) [] (.obj patch) else []

def applyOps (pats : List (List Name)) (σ : State) (ops : List Op) : State :=
  let exts := (ops.filter fun o => (sdbRoute pats o.key).isNone).foldl markDeleted σ.externals
  let patch := buildPatch pats (.obj σ.cfgRoot) ops
  let marks := marksOf exts patch
  { σ with
    cfgRoot := deepMerge σ.cfgRoot patch
    externals := exts.map fun e => { e with dirty := e.dirty || decide (Mark.external e.pre ∈ marks) }
    rootDirty := σ.rootDirty || decide (Mark.root ∈ marks)
    savePending := σ.savePending || armed patch }

/-- A name that would not survive the next directory scan is refused; a prefix
that is registered already loses its pending delete. -/
def storageNewTreeFile (σ : State) (key : Name) : State :=
  let p := stripDots key
  if p = [] ∨ 64 ≤ p.length + 8 then σ
  else if p ∈ σ.externals.map External.pre then
    { σ with externals := σ.externals.map fun e => if e.pre = p then { e with pendingDelete := false } else e }
  else { σ with externals := σ.externals ++ [⟨p, false, false⟩] }

def detachLeaf : List Name → List Child → Option (List Child × Json)
  | [], _ => none
  | s :: ss, cs =>
    if s = [] ∨ 96 ≤ s.length then none
    else if ss = [] then (getObjectItem cs s).map fun v => (deleteItemFromObject cs s, v)
    else
      match getObjectItem cs s with
      | some (.obj ks) => (detachLeaf ss ks).map fun r => (updateItem cs s (.obj r.1), r.2)
      | some (.arr ks) => (detachLeaf ss ks).map fun r => (updateItem cs s (.arr r.1), r.2)
      | _ => none

def reattachLeaf (v : Json) : List Name → List Child → List Child
  | [], cs => cs
  | s :: ss, cs =>
    if ss = [] then addItemToObject cs s v
    else
      match getObjectItem cs s with
      | some (.obj ks) => updateItem cs s (.obj (reattachLeaf v ss ks))
      | some (.arr ks) => updateItem cs s (.arr (reattachLeaf v ss ks))
      | _ => cs

/-- What `f` sees with every live external detached, and the tree after they are
attached again, the last one first. -/
def withExternalsDetached {α : Type} (f : List Child → α) : List External → List Child → α × List Child
  | [], cs => (f cs, cs)
  | e :: es, cs =>
    if e.pendingDelete then withExternalsDetached f es cs
    else
      match detachLeaf (segments e.pre) cs with
      | none => withExternalsDetached f es cs
      | some (cs', v) =>
        let r := withExternalsDetached f es cs'
        (r.1, reattachLeaf v (segments e.pre) r.2)

def savedMembers (cs : List Child) : List Child :=
  ((getObjectItem cs (lit "s")).map fun v => ((some (lit "s"), v) : Child)).toList ++
    ((getObjectItem cs (lit "secrets")).map fun v => ((some (lit "secrets"), v) : Child)).toList

def writeFile (p : Name) (v : Json) (files : List (Name × Json)) : List (Name × Json) :=
  (files.filter fun f => f.1 ≠ p) ++ [(p, v)]

def removeFile (p : Name) (files : List (Name × Json)) : List (Name × Json) := files.filter fun f => f.1 ≠ p

/-- An external whose subtree is gone writes no file, and its old one stays. -/
def writeExternalFile (cs : List Child) (p : Name) (files : List (Name × Json)) : List (Name × Json) :=
  match navigatePath (.obj cs) p with
  | some v => writeFile p v files
  | none => files

def writeExternals (σ : State) : State :=
  { σ with
    externals := σ.externals.map fun e => if e.dirty && !e.pendingDelete then { e with dirty := false } else e
    files := (σ.externals.filter fun e => e.dirty && !e.pendingDelete).foldl
      (fun fs e => writeExternalFile σ.cfgRoot e.pre fs) σ.files }

def writeSettingsFileOnly (σ : State) : State :=
  let r := withExternalsDetached savedMembers σ.externals σ.cfgRoot
  { σ with cfgRoot := r.2, rootFile := some r.1 }

def writeRoot (σ : State) : State :=
  if σ.rootDirty then { writeSettingsFileOnly σ with rootDirty := false } else σ

def removeDeleted (σ : State) : State :=
  { σ with
    externals := σ.externals.filter fun e => !e.pendingDelete
    files := (σ.externals.filter fun e => e.pendingDelete).foldl (fun fs e => removeFile e.pre fs) σ.files }

/-- A pass of `writeSettingsFile` that nothing interrupts. -/
def writeSettingsFile (σ : State) : State :=
  removeDeleted (writeRoot (writeExternals { σ with savePending := false }))

def attachAtPath (cs : List Child) (f : Name × Json) : List Child :=
  navigateOrCreate (putLeaf f.2) (segments f.1) cs

/-- The tree of the next boot: `root.json`, then the files, the shortest prefix first. -/
def storageLoad (rootFile : Option (List Child)) (files : List (Name × Json)) : List Child :=
  (files.insertionSort fun a b => a.1.length ≤ b.1.length).foldl attachAtPath (rootFile.getD [])

def savedNames : List Name := [lit "s", lit "secrets"]

theorem mem_routeMembers {pres : List Name} {path n : Name} {x : Json} {cs : List Child} {m : Mark}
    (hc : (some n, x) ∈ cs) (hlen : (extend path n).length < 128)
    (hm : m ∈ routePatchDirty pres (extend path n) x) : m ∈ routeMembers pres path cs := by
  induction cs with
  | nil => simp at hc
  | cons c cs ih =>
    rcases mem_cons.mp hc with rfl | hrest
    · rw [routeMembers, mem_append, if_neg (by omega)]
      exact .inl hm
    · obtain ⟨k, v⟩ := c
      cases k with
      | none =>
        rw [routeMembers]
        exact ih hrest
      | some k =>
        rw [routeMembers, mem_append]
        exact .inr (ih hrest)

theorem getObjectItem_append (a b : List Child) (p : Name) :
    getObjectItem (a ++ b) p = (getObjectItem a p).or (getObjectItem b p) := by
  rw [getObjectItem, find?_append, map_or, getObjectItem, getObjectItem]

theorem getObjectItem_member (n : Name) (v : Option Json) (p : Name) :
    getObjectItem (v.map fun x => ((some n, x) : Child)).toList p = if fold n = fold p then v else none := by
  cases v with
  | none => simp [getObjectItem]
  | some x =>
    by_cases h : fold n = fold p
    · simp [getObjectItem, named, h]
    · simp [getObjectItem, named, h]

theorem getObjectItem_savedMembers (cs : List Child) :
    ∀ p ∈ savedNames, getObjectItem (savedMembers cs) p = getObjectItem cs p := by
  intro p hp
  have hne : fold (lit "s") ≠ fold (lit "secrets") := by decide
  simp only [savedNames, mem_cons, not_mem_nil, or_false] at hp
  rw [savedMembers, getObjectItem_append, getObjectItem_member, getObjectItem_member]
  rcases hp with rfl | rfl
  · rw [if_pos rfl, if_neg hne.symm, or_none]
  · rw [if_neg hne, if_pos rfl, none_or]

end Spangap.Persist
