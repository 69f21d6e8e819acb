import Spangap.Persist
import Spangap.Runs

namespace Spangap.Worker

open CJson DotPath Merge Commit Persist Runs

/-- Where the persist worker stands in a pass of `writeSettingsFile`. The lock is
held inside a step and never across two of them. -/
inductive Phase
  | idle
  | scan (i : Nat)
  | snapExternal (i : Nat) (pre : Name)
  | writeExternal (i : Nat) (pre : Name) (snap : Json)
  | testRoot
  | snapRoot
  | writeRoot (snap : List Child)
  | clearRoot
  | deletes
  | remove (pre : Name)
  | collect

/-- The storage actor, the tasks that register files, and the worker. Save
semaphores are named by the call they belong to. -/
structure Sys where
  st : State
  phase : Phase
  poked : Bool
  pendingSaveSems : List Nat
  given : List Nat

def boot (σ : State) : Sys := ⟨σ, .idle, false, [], []⟩

inductive Action
  | apply (ops : List Op)
  | register (key : Name)
  | save (call : Nat)
  | poke
  | work

def clearDirty (i : Nat) (exts : List External) : List External :=
  exts.modify i fun e => { e with dirty := false }

/-- One step of the worker. The pass reads `rootDirty` without the lock and
clears it only when the file is written. -/
def work (s : Sys) : Option Sys :=
  let σ := s.st
  match s.phase with
  | .idle => if s.poked then some { s with poked := false, st := { σ with savePending := false }, phase := .scan 0 } else none
  | .scan i =>
    match σ.externals[i]? with
    | none => some { s with phase := .testRoot }
    | some e =>
      if e.dirty && !e.pendingDelete then
        some { s with st := { σ with externals := clearDirty i σ.externals }, phase := .snapExternal (i + 1) e.pre }
      else some { s with phase := .scan (i + 1) }
  | .snapExternal i p =>
    match navigatePath (.obj σ.cfgRoot) p with
    | none => some { s with phase := .scan i }
    | some v => some { s with phase := .writeExternal i p v }
  | .writeExternal i p v => some { s with st := { σ with files := writeFile p v σ.files }, phase := .scan i }
  | .testRoot => some { s with phase := if σ.rootDirty then .snapRoot else .deletes }
  | .snapRoot =>
    let r := withExternalsDetached savedMembers σ.externals σ.cfgRoot
    some { s with st := { σ with cfgRoot := r.2 }, phase := .writeRoot r.1 }
  | .writeRoot snap => some { s with st := { σ with rootFile := some snap }, phase := .clearRoot }
  | .clearRoot => some { s with st := { σ with rootDirty := false }, phase := .deletes }
  | .deletes =>
    match σ.externals.find? External.pendingDelete with
    | none => some { s with phase := .collect }
    | some e =>
      some { s with st := { σ with externals := σ.externals.eraseP External.pendingDelete }, phase := .remove e.pre }
  | .remove p => some { s with st := { σ with files := removeFile p σ.files }, phase := .deletes }
  | .collect => some { s with given := s.given ++ s.pendingSaveSems, pendingSaveSems := [], phase := .idle }

/-- The actor queues a save semaphore under the lock. The poke that comes with a
save is a step of its own, and so is one by the save timer. -/
def step (pats : List (List Name)) (s : Sys) : Action → Option Sys
  | .apply ops => some { s with st := applyOps pats s.st ops }
  | .register key => some { s with st := storageNewTreeFile s.st key }
  | .save call => some { s with pendingSaveSems := s.pendingSaveSems ++ [call] }
  | .poke => some { s with poked := true }
  | .work => work s

/-- The worker holds a snapshot of `root.json`, or has written it, and has not
cleared the dirty flag yet. -/
def inWindow : Phase → Bool
  | .writeRoot _ => true
  | .clearRoot => true
  | _ => false

def isIdle : Phase → Bool
  | .idle => true
  | _ => false

end Spangap.Worker
