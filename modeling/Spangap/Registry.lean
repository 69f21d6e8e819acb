import Spangap.Commit
import Spangap.RecordMap

namespace Spangap.Registry

open CJson DotPath Commit Fields

/-- The record stores of one schema as the registry uses them. A store is loaded for its path
and record cap; loading and the two writes say whether they leave the store dirty, and a snapshot
gives the store that stays and the file. -/
structure Engine (S F : Type) where
  load : Name → Nat → Option F → S × Bool
  snapshot : S → S × F
  get : S → Name → Name → Option Name
  has : S → Name → Bool
  each : S → List (Name × Name × Name)
  set : S → Name → Name → Name → S × Bool
  delete : S → Name → S × Bool

inductive Evict
  | reload
  | drop
  deriving DecidableEq, Repr

/-- A registered key pattern, with the pattern of its files. -/
structure Reg where
  pat : List Name
  filePat : Name
  schema : Schema
  persist : Bool
  evict : Evict
  cap : Nat

def patterns (regs : List Reg) : List (List Name) := regs.map Reg.pat

def Reg.capRecords (r : Reg) : Nat := if r.evict = .drop then r.cap else 0

/-- One instance of a registered store, by the values of the wildcards. A store
that is not persisted has no path. -/
structure Inst (S : Type) where
  reg : Nat
  key : Name
  schema : Schema
  capRecords : Nat
  path : Name
  store : Option S
  dirty : Bool

structure Shelf (S F : Type) where
  insts : List (Inst S)
  pendingDeletes : List Name
  files : Name → Option F

/-- `$1` to `$9` stand for the values of the wildcards. -/
def sdbSubst (binds : List Name) : Name → Name
  | [] => []
  | 36 :: c :: cs =>
    if 49 ≤ c ∧ c ≤ 57 then (binds.getD (c.toNat - 49) []) ++ sdbSubst binds cs
    else 36 :: sdbSubst binds (c :: cs)
  | c :: cs => c :: sdbSubst binds cs

def joinBinds (binds : List Name) : Name := (binds.intersperse [0x1f]).flatten

def instPath (r : Reg) (binds : List Name) : Name := if r.persist then 47 :: sdbSubst binds r.filePat else []

variable {S F : Type} (E : Schema → Engine S F) (regs : List Reg) (text : Option Json → Name) {e : Engine S F}

def Shelf.lookup (sh : Shelf S F) (reg : Nat) (key : Name) : Option (Inst S) :=
  sh.insts.find? fun i => i.reg == reg && i.key == key

def Shelf.erase (sh : Shelf S F) (reg : Nat) (key : Name) : List (Inst S) :=
  sh.insts.filter fun i => !(i.reg == reg && i.key == key)

def Shelf.put (sh : Shelf S F) (i : Inst S) : Shelf S F := { sh with insts := i :: sh.erase i.reg i.key }

def sdbInstance (r : Reg) (m : Match) (sh : Shelf S F) : Inst S :=
  (sh.lookup m.reg (joinBinds m.binds)).getD
    ⟨m.reg, joinBinds m.binds, r.schema, r.capRecords, instPath r m.binds, none, false⟩

def resident (sh : Shelf S F) (i : Inst S) : S × Bool :=
  match i.store with
  | some s => (s, i.dirty)
  | none => (E i.schema).load i.path i.capRecords (if i.path = [] then none else sh.files i.path)

def sdbResolveLoaded (r : Reg) (m : Match) (sh : Shelf S F) : S × Bool := resident E sh (sdbInstance r m sh)

def keep (r : Reg) (m : Match) (sh : Shelf S F) (w : S × Bool) : Shelf S F :=
  sh.put { sdbInstance r m sh with store := some w.1, dirty := w.2 }

def fieldOp (e : Engine S F) (o : Op) (row field : Name) (w : S × Bool) : S × Bool :=
  let cur := e.get w.1 row field
  if o.code = .delete then w
  else if o.code = .dflt ∧ cur.any (fun v => v ≠ []) = true then w
  else if cur = some (text o.val) then w
  else ((e.set w.1 row field (text o.val)).1, w.2 || (e.set w.1 row field (text o.val)).2)

def recordOp (e : Engine S F) (o : Op) (row : Name) (w : S × Bool) : S × Bool :=
  if o.code = .delete then ((e.delete w.1 row).1, w.2 || (e.delete w.1 row).2) else w

def instanceOp (o : Op) (r : Reg) (m : Match) (sh : Shelf S F) : Shelf S F :=
  if o.code = .delete then
    { sh with
      insts := sh.erase m.reg (joinBinds m.binds)
      pendingDeletes :=
        if (sdbInstance r m sh).path = [] then sh.pendingDeletes else sh.pendingDeletes ++ [(sdbInstance r m sh).path] }
  else sh

def routedOp (o : Op) (r : Reg) (m : Match) (sh : Shelf S F) : Shelf S F :=
  match m.tail with
  | [row, field] =>
    if (r.schema.find field).isNone then sh
    else keep r m sh (fieldOp text (E r.schema) o row field (sdbResolveLoaded E r m sh))
  | [row] => keep r m sh (recordOp (E r.schema) o row (sdbResolveLoaded E r m sh))
  | _ => instanceOp o r m sh

def sdbApplyOp (sh : Shelf S F) (o : Op) : Shelf S F :=
  match sdbRoute (patterns regs) o.key with
  | none => sh
  | some m =>
    match regs[m.reg]? with
    | none => sh
    | some r => routedOp E text o r m sh

def sdbApplyOps (sh : Shelf S F) (ops : List Op) : Shelf S F := ops.foldl (sdbApplyOp E regs text) sh

/-- How a write of a file ends: it has the new content, it is as before, or it
was dropped for a rename that failed. -/
inductive Outcome
  | written
  | kept
  | dropped
  deriving DecidableEq, Repr

def Outcome.of {α : Type} (o : Outcome) (new : α) (old : Option α) : Option α :=
  match o with
  | .written => some new
  | .kept => old
  | .dropped => none

def Inst.writes (i : Inst S) : Bool := i.store.isSome && i.dirty && !i.path.isEmpty

def flushFile (o : Name → Outcome) (files : Name → Option F) (i : Inst S) : Name → Option F :=
  match i.store with
  | some s => if i.writes then Function.update files i.path ((o i.path).of ((E i.schema).snapshot s).2 (files i.path)) else files
  | none => files

/-- The flag is cleared before the deflate and the write, whatever becomes of them. -/
def Inst.flushed (i : Inst S) : Inst S :=
  if i.writes then { i with store := i.store.map fun s => ((E i.schema).snapshot s).1, dirty := false } else i

def storageDbFlushDirty (o : Name → Outcome) (sh : Shelf S F) : Shelf S F where
  insts := sh.insts.map (Inst.flushed E)
  pendingDeletes := []
  files := sh.insts.foldl (flushFile E o) fun p => if p ∈ sh.pendingDeletes then none else sh.files p

/-- The store that a restart finds in the file of an instance. -/
def Inst.reloaded (files : Name → Option F) (i : Inst S) : S := ((E i.schema).load i.path i.capRecords (files i.path)).1

structure Engine.Same (e : Engine S F) (s t : S) : Prop where
  get : ∀ row field, e.get s row field = e.get t row field
  has : ∀ row, e.has s row = e.has t row
  each : e.each s = e.each t

/-- The stores there are, the writes that the flag tells of, and the stores that a load accepts. -/
structure Domain (S : Type) where
  Valid : S → Prop
  Takes : S → Name → Name → Name → Prop
  Saves : S → Prop

/-- A file gives back what was saved in it, and a write that does not leave the
store dirty has changed nothing. -/
structure Engine.Lawful (e : Engine S F) (D : Domain S) : Prop where
  empty : ∀ path cap, D.Valid (e.load path cap none).1
  set : ∀ s row field v, D.Valid s → D.Takes s row field v →
    D.Valid (e.set s row field v).1 ∧ ((e.set s row field v).2 = false → e.Same (e.set s row field v).1 s)
  delete : ∀ s row, D.Valid s → D.Valid (e.delete s row).1 ∧ ((e.delete s row).2 = false → e.Same (e.delete s row).1 s)
  snapshot : ∀ s, D.Valid s → D.Valid (e.snapshot s).1 ∧ e.Same (e.snapshot s).1 s
  saved : ∀ path cap s, path ≠ [] → D.Valid s → D.Saves s →
    D.Valid (e.load path cap (some (e.snapshot s).2)).1 ∧ e.Same (e.load path cap (some (e.snapshot s).2)).1 s

theorem Engine.Same.refl (e : Engine S F) (s : S) : e.Same s s := ⟨fun _ _ => rfl, fun _ => rfl, rfl⟩

theorem Engine.Same.trans {s t u : S} (h : e.Same s t) (h' : e.Same t u) : e.Same s u :=
  ⟨fun r f => (h.get r f).trans (h'.get r f), fun r => (h.has r).trans (h'.has r), h.each.trans h'.each⟩

theorem Engine.Same.symm {s t : S} (h : e.Same s t) : e.Same t s :=
  ⟨fun r f => (h.get r f).symm, fun r => (h.has r).symm, h.each.symm⟩

end Spangap.Registry
