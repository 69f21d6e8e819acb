import Spangap.Registry

namespace Spangap.Shelves

open List Option Function CJson DotPath Commit Fields RecordMap Registry

variable {S F : Type} {E : Schema → Engine S F} {D : Schema → Domain S} {regs : List Reg} {text : Option Json → Name}
  {sh : Shelf S F} {i j : Inst S} {r : Reg} {m : Match} {o : Op} {lost : List Name} {w : S × Bool}

/-- What the flags of the resident stores promise about their files, apart from
the files whose last write was lost. A file is good for a registration unless
a store of another schema has taken its path, or it is about to be removed. -/
structure Kept (E : Schema → Engine S F) (D : Schema → Domain S) (regs : List Reg) (lost : List Name) (sh : Shelf S F) : Prop where
  typed : ∀ i ∈ sh.insts, ∃ r binds, regs[i.reg]? = some r ∧ i.schema = r.schema ∧ i.capRecords = r.capRecords ∧
    i.path = instPath r binds
  keys : sh.insts.Pairwise fun i j => ¬(i.reg = j.reg ∧ i.key = j.key)
  apart : sh.insts.Pairwise fun i j => i.path ≠ [] → i.path ≠ j.path
  linked : ∀ i ∈ sh.insts, i.path ≠ [] → i.path ∉ sh.pendingDeletes
  valid : ∀ i ∈ sh.insts, ∀ s, i.store = some s → (D i.schema).Valid s
  readable : ∀ r ∈ regs, ∀ binds, instPath r binds ≠ [] → instPath r binds ∉ sh.pendingDeletes →
    (∀ i ∈ sh.insts, i.path = instPath r binds → i.schema = r.schema) →
      (D r.schema).Valid ((E r.schema).load (instPath r binds) r.capRecords (sh.files (instPath r binds))).1
  file : ∀ i ∈ sh.insts, i.path ≠ [] → i.path ∉ lost → i.dirty = false → ∀ s, i.store = some s →
    (E i.schema).Same (i.reloaded E sh.files) s

/-- The file of the instance belongs to no other, and is not about to be removed
under a store that is used. -/
def Placed (r : Reg) (m : Match) (sh : Shelf S F) : Prop :=
  (sdbInstance r m sh).path ≠ [] →
    (∀ j ∈ sh.erase m.reg (joinBinds m.binds), j.path ≠ (sdbInstance r m sh).path) ∧
      (m.tail.length = 1 ∨ m.tail.length = 2 → (sdbInstance r m sh).path ∉ sh.pendingDeletes)
  deriving Decidable

def target (regs : List Reg) (o : Op) : Option (Reg × Match) :=
  (sdbRoute (patterns regs) o.key).bind fun m => regs[m.reg]?.map fun r => (r, m)

def OpPlaced (regs : List Reg) (sh : Shelf S F) (o : Op) : Prop := ∀ t ∈ target regs o, Placed t.1 t.2 sh
  deriving Decidable

/-- A field op that comes to a write makes one that the flag tells of. -/
def OpTaken (E : Schema → Engine S F) (D : Schema → Domain S) (regs : List Reg) (text : Option Json → Name) (sh : Shelf S F)
    (o : Op) : Prop :=
  ∀ t ∈ target regs o, ∀ row ∈ t.2.tail.head?, ∀ field ∈ (t.2.tail.drop 1).head?, o.code ≠ .delete →
    (D t.1.schema).Takes (sdbResolveLoaded E t.1 t.2 sh).1 row field (text o.val)

theorem sdbApplyOp_target (sh : Shelf S F) (o : Op) :
    sdbApplyOp E regs text sh o = (target regs o).elim sh fun t => routedOp E text o t.1 t.2 sh := by
  rw [sdbApplyOp, target]
  cases sdbRoute (patterns regs) o.key with
  | none => rfl
  | some m => cases hr : regs[m.reg]? <;> simp [hr]

theorem mem_target (h : (r, m) ∈ target regs o) : regs[m.reg]? = some r := by
  simp only [target, mem_def, bind_eq_some_iff, map_eq_some_iff] at h
  obtain ⟨m', -, r', hr, heq⟩ := h
  cases heq
  exact hr

section Ops

theorem sdbInstance_cases (r : Reg) (m : Match) (sh : Shelf S F) :
    (sdbInstance r m sh ∈ sh.insts ∧ (sdbInstance r m sh).reg = m.reg ∧
        (sdbInstance r m sh).key = joinBinds m.binds) ∨
      sdbInstance r m sh = ⟨m.reg, joinBinds m.binds, r.schema, r.capRecords, instPath r m.binds, none, false⟩ := by
  rw [sdbInstance]
  cases hl : sh.lookup m.reg (joinBinds m.binds) with
  | none => exact .inr rfl
  | some i =>
    have hkey := find?_some hl
    rw [Bool.and_eq_true, beq_iff_eq, beq_iff_eq] at hkey
    exact .inl ⟨mem_of_find?_eq_some hl, hkey⟩

theorem sdbInstance_key (r : Reg) (m : Match) (sh : Shelf S F) :
    (sdbInstance r m sh).reg = m.reg ∧ (sdbInstance r m sh).key = joinBinds m.binds := by
  rcases sdbInstance_cases r m sh with ⟨-, hkey⟩ | hnew
  · exact hkey
  · rw [hnew]
    exact ⟨rfl, rfl⟩

theorem mem_erase {reg : Nat} {key : Name} (h : i ∈ sh.erase reg key) : i ∈ sh.insts := (mem_filter.mp h).1

section

variable (h : Kept E D regs lost sh)
include h

/-- An instance is the one of its key, or another one. -/
theorem erase_or_eq (r : Reg) (m : Match) (hi : i ∈ sh.insts) : i ∈ sh.erase m.reg (joinBinds m.binds) ∨ i = sdbInstance r m sh := by
  by_cases hkey : i.reg = m.reg ∧ i.key = joinBinds m.binds
  · right
    have hfound : (sh.lookup m.reg (joinBinds m.binds)).isSome = true := by
      rw [Shelf.lookup, find?_isSome]
      exact ⟨i, hi, by simp [hkey]⟩
    obtain ⟨j, hj⟩ := isSome_iff_exists.mp hfound
    have hjkey := find?_some hj
    rw [Bool.and_eq_true, beq_iff_eq, beq_iff_eq] at hjkey
    rw [sdbInstance, hj, getD_some]
    by_contra hne
    have : Std.Symm fun i j : Inst S => ¬(i.reg = j.reg ∧ i.key = j.key) := ⟨fun _ _ hij h => hij ⟨h.1.symm, h.2.symm⟩⟩
    exact h.keys.forall hi (mem_of_find?_eq_some hj) hne ⟨hkey.1.trans hjkey.1.symm, hkey.2.trans hjkey.2.symm⟩
  · left
    rw [Shelf.erase, mem_filter, Bool.not_eq_true', Bool.and_eq_false_iff, beq_eq_false_iff_ne, beq_eq_false_iff_ne]
    exact ⟨hi, not_and_or.mp hkey⟩

theorem typed_sdbInstance (hr : regs[m.reg]? = some r) : (sdbInstance r m sh).schema = r.schema ∧
    (sdbInstance r m sh).capRecords = r.capRecords ∧ ∃ binds, (sdbInstance r m sh).path = instPath r binds := by
  rcases sdbInstance_cases r m sh with ⟨hi, hreg, -⟩ | hnew
  · obtain ⟨r', binds, hr', hschema, hcap, hpath⟩ := h.typed _ hi
    rw [hreg, hr] at hr'
    cases hr'
    exact ⟨hschema, hcap, binds, hpath⟩
  · rw [hnew]
    exact ⟨rfl, rfl, m.binds, rfl⟩

theorem valid_resident (hE : ∀ r ∈ regs, (E r.schema).Lawful (D r.schema)) (hr : regs[m.reg]? = some r) (hp : Placed r m sh)
    (ht : m.tail.length = 1 ∨ m.tail.length = 2) : (D r.schema).Valid (sdbResolveLoaded E r m sh).1 := by
  obtain ⟨hschema, hcap, binds, hpath⟩ := typed_sdbInstance h hr
  rw [sdbResolveLoaded, resident]
  cases hs : (sdbInstance r m sh).store with
  | some s =>
    rcases sdbInstance_cases r m sh with ⟨hi, -⟩ | hnew
    · have hvalid := h.valid _ hi s hs
      rwa [hschema] at hvalid
    · rw [hnew] at hs
      cases hs
  | none =>
    dsimp only
    rw [hschema, hcap]
    split
    · exact (hE r (mem_of_getElem? hr)).empty _ _
    next hne =>
      obtain ⟨hother, hlinked⟩ := hp hne
      rw [hpath] at hne hother hlinked ⊢
      refine h.readable r (mem_of_getElem? hr) binds hne (hlinked ht) fun i hi heq => ?_
      rcases erase_or_eq h r m hi with hi | rfl
      · exact absurd heq (hother i hi)
      · exact hschema

theorem same_resident (hr : regs[m.reg]? = some r) (hpath : (sdbInstance r m sh).path ≠ [])
    (hlost : (sdbInstance r m sh).path ∉ lost) (hd : (sdbResolveLoaded E r m sh).2 = false) :
    (E r.schema).Same ((sdbInstance r m sh).reloaded E sh.files) (sdbResolveLoaded E r m sh).1 := by
  have hschema := (typed_sdbInstance h hr).1
  rw [sdbResolveLoaded, resident] at hd ⊢
  cases hs : (sdbInstance r m sh).store with
  | none =>
    simp only [if_neg hpath]
    exact .refl _ _
  | some s =>
    rw [hs] at hd
    rcases sdbInstance_cases r m sh with ⟨hi, -⟩ | hnew
    · have hf := h.file _ hi hpath hlost hd s hs
      rwa [hschema] at hf
    · rw [hnew] at hs
      cases hs

theorem kept_keep (hr : regs[m.reg]? = some r) (hp : Placed r m sh) (ht : m.tail.length = 1 ∨ m.tail.length = 2)
    (hvalid : (D r.schema).Valid w.1)
    (hw : w.2 = false → (sdbResolveLoaded E r m sh).2 = false ∧ (E r.schema).Same (sdbResolveLoaded E r m sh).1 w.1) :
    Kept E D regs lost (keep r m sh w) := by
  obtain ⟨hschema, hcap, binds, hpath⟩ := typed_sdbInstance h hr
  obtain ⟨hreg, hkey⟩ := sdbInstance_key r m sh
  rw [keep, Shelf.put]
  dsimp only
  rw [hreg, hkey]
  refine ⟨?_, ?_, ?_, ?_, ?_, ?_, ?_⟩
  · exact forall_mem_cons.mpr ⟨⟨r, binds, hr, hschema, hcap, hpath⟩, fun i hi => h.typed i (mem_erase hi)⟩
  · refine pairwise_cons.mpr ⟨fun j hj => ?_, h.keys.filter _⟩
    have hne := (mem_filter.mp hj).2
    rintro ⟨hjr, hjk⟩
    simp [← hjr, ← hjk] at hne
  · exact pairwise_cons.mpr ⟨fun j hj hne heq => (hp hne).1 j hj heq.symm, h.apart.filter _⟩
  · exact forall_mem_cons.mpr ⟨fun hne => (hp hne).2 ht, fun i hi => h.linked i (mem_erase hi)⟩
  · refine forall_mem_cons.mpr ⟨fun s hs => ?_, fun i hi => h.valid i (mem_erase hi)⟩
    cases hs
    rwa [hschema]
  · intro r' hr' b hb hlinked hsame
    refine h.readable r' hr' b hb hlinked fun i hi heq => ?_
    rcases erase_or_eq h r m hi with hi | rfl
    · exact hsame i (mem_cons_of_mem _ hi) heq
    · have hnew := hsame _ mem_cons_self heq
      exact hnew
  · refine forall_mem_cons.mpr ⟨fun hne hlost hd s hs => ?_, fun i hi => h.file i (mem_erase hi)⟩
    obtain ⟨hres, hsame⟩ := hw hd
    cases hs
    have hload := (same_resident h hr hne hlost hres).trans hsame
    rw [← hschema] at hload
    exact hload

theorem kept_instanceOp (hp : Placed r m sh) : Kept E D regs lost (instanceOp o r m sh) := by
  rw [instanceOp]
  split
  · refine ⟨fun i hi => h.typed i (mem_erase hi), h.keys.filter _, h.apart.filter _, fun i hi hpath => ?_,
      fun i hi => h.valid i (mem_erase hi), fun r' hr' b hb hlinked hsame => ?_, fun i hi => h.file i (mem_erase hi)⟩
    · have hlinked := h.linked i (mem_erase hi) hpath
      dsimp only
      split
      · exact hlinked
      next hne =>
        rw [mem_append, mem_singleton, not_or]
        exact ⟨hlinked, (hp hne).1 i hi⟩
    · -- The path of the instance that goes is queued, and its file with it.
      have hqueued : instPath r' b ∉ sh.pendingDeletes ∧ (sdbInstance r m sh).path ≠ instPath r' b := by
        dsimp only at hlinked
        split at hlinked
        next hnone => exact ⟨hlinked, fun heq => hb (heq ▸ hnone)⟩
        · rw [mem_append, mem_singleton, not_or] at hlinked
          exact ⟨hlinked.1, fun heq => hlinked.2 heq.symm⟩
      refine h.readable r' hr' b hb hqueued.1 fun i hi heq => ?_
      rcases erase_or_eq h r m hi with hi | rfl
      · exact hsame i hi heq
      · exact absurd heq hqueued.2
  · exact h

end

variable {e : Engine S F} {d : Domain S}

theorem fieldOp_clean (he : e.Lawful d) (hvalid : d.Valid w.1) {row field : Name}
    (htake : o.code ≠ .delete → d.Takes w.1 row field (text o.val)) :
    d.Valid (fieldOp text e o row field w).1 ∧
      ((fieldOp text e o row field w).2 = false → w.2 = false ∧ e.Same w.1 (fieldOp text e o row field w).1) := by
  simp only [fieldOp]
  split_ifs with hdelete
  · exact ⟨hvalid, fun h => ⟨h, .refl _ _⟩⟩
  · exact ⟨hvalid, fun h => ⟨h, .refl _ _⟩⟩
  · exact ⟨hvalid, fun h => ⟨h, .refl _ _⟩⟩
  · obtain ⟨hnew, hset⟩ := he.set w.1 row field (text o.val) hvalid (htake hdelete)
    refine ⟨hnew, fun h => ?_⟩
    obtain ⟨hw, hd⟩ := Bool.or_eq_false_iff.mp h
    exact ⟨hw, (hset hd).symm⟩

theorem recordOp_clean (he : e.Lawful d) (hvalid : d.Valid w.1) (row : Name) :
    d.Valid (recordOp e o row w).1 ∧ ((recordOp e o row w).2 = false → w.2 = false ∧ e.Same w.1 (recordOp e o row w).1) := by
  rw [recordOp]
  split
  · obtain ⟨hnew, hdelete⟩ := he.delete w.1 row hvalid
    refine ⟨hnew, fun h => ?_⟩
    obtain ⟨hw, hd⟩ := Bool.or_eq_false_iff.mp h
    exact ⟨hw, (hdelete hd).symm⟩
  · exact ⟨hvalid, fun h => ⟨h, .refl _ _⟩⟩

theorem kept_sdbApplyOp (hE : ∀ r ∈ regs, (E r.schema).Lawful (D r.schema)) (h : Kept E D regs lost sh)
    (hp : OpPlaced regs sh o) (htake : OpTaken E D regs text sh o) : Kept E D regs lost (sdbApplyOp E regs text sh o) := by
  rw [sdbApplyOp_target]
  cases ht : target regs o with
  | none => exact h
  | some t =>
    obtain ⟨r, m⟩ := t
    have hr := mem_target ht
    have he := hE r (mem_of_getElem? hr)
    have hplaced : Placed r m sh := hp (r, m) ht
    rw [elim_some]
    dsimp only [routedOp]
    split
    next row field hm =>
      split
      · exact h
      · have htail : m.tail.length = 1 ∨ m.tail.length = 2 := by simp [hm]
        obtain ⟨hvalid, hclean⟩ := fieldOp_clean he (valid_resident h hE hr hplaced htail)
          (htake (r, m) ht row (by simp [hm]) field (by simp [hm]))
        exact kept_keep h hr hplaced htail hvalid hclean
    next row hm =>
      have htail : m.tail.length = 1 ∨ m.tail.length = 2 := by simp [hm]
      obtain ⟨hvalid, hclean⟩ := recordOp_clean he (valid_resident h hE hr hplaced htail) row
      exact kept_keep h hr hplaced htail hvalid hclean
    · exact kept_instanceOp h hplaced

end Ops

section Flush

variable {out : Name → Outcome} {is : List (Inst S)} {files : Name → Option F}

def fileAfter (E : Schema → Engine S F) (out : Name → Outcome) (i : Inst S) (old : Option F) : Option F :=
  match i.store with
  | some s => if i.writes then (out i.path).of ((E i.schema).snapshot s).2 old else old
  | none => old

theorem flushFile_self (i : Inst S) (files : Name → Option F) :
    flushFile E out files i i.path = fileAfter E out i (files i.path) := by
  rw [flushFile, fileAfter]
  cases i.store with
  | none => rfl
  | some s =>
    dsimp only
    split
    · exact update_self _ _ _
    · rfl

theorem flushFile_other {p : Name} (h : i.writes = true → p ≠ i.path) (files : Name → Option F) :
    flushFile E out files i p = files p := by
  rw [flushFile]
  cases i.store with
  | none => rfl
  | some s =>
    dsimp only
    split
    next hw => exact update_of_ne (h hw) _ _
    · rfl

theorem foldl_flushFile_other {p : Name} (h : ∀ i ∈ is, i.writes = true → p ≠ i.path) (files : Name → Option F) :
    is.foldl (flushFile E out) files p = files p := by
  induction is generalizing files with
  | nil => rfl
  | cons i is ih =>
    obtain ⟨hi, his⟩ := forall_mem_cons.mp h
    rw [foldl_cons, ih his, flushFile_other hi]

theorem Inst.path_ne_nil (h : i.writes = true) : i.path ≠ [] := by
  simp only [Inst.writes, Bool.and_eq_true, Bool.not_eq_true', isEmpty_eq_false_iff] at h
  exact h.2

theorem foldl_flushFile_self (his : is.Pairwise fun i j => i.path ≠ [] → i.path ≠ j.path) (hi : i ∈ is)
    (hpath : i.path ≠ []) (files : Name → Option F) :
    is.foldl (flushFile E out) files i.path = fileAfter E out i (files i.path) := by
  induction is generalizing files with
  | nil => cases hi
  | cons j is ih =>
    obtain ⟨hj, his⟩ := pairwise_cons.mp his
    rw [foldl_cons]
    rcases mem_cons.mp hi with rfl | hmem
    · rw [foldl_flushFile_other fun k hk _ => hj k hk hpath, flushFile_self]
    · rw [ih his hmem, flushFile_other fun hw heq => hj i hmem (Inst.path_ne_nil hw) heq.symm]

def lostAfterFlush (out : Name → Outcome) (sh : Shelf S F) (lost : List Name) : List Name :=
  ((sh.insts.filter fun i => i.writes && out i.path != .written).map Inst.path) ++
    lost.filter fun p => decide (p ∉ sh.pendingDeletes) && !sh.insts.any fun i => i.writes && i.path == p

theorem not_lost_of_writes (h : i.path ∉ lostAfterFlush out sh lost) (hi : i ∈ sh.insts) (hw : i.writes = true) :
    out i.path = .written := by
  by_contra hne
  refine h (mem_append_left _ (mem_map_of_mem (mem_filter.mpr ⟨hi, ?_⟩)))
  simp [hw, hne]

theorem eq_of_path (his : is.Pairwise fun i j => i.path ≠ [] → i.path ≠ j.path) (hi : i ∈ is) (hj : j ∈ is)
    (hpath : i.path ≠ []) (h : j.path = i.path) : j = i := by
  induction is with
  | nil => cases hi
  | cons k is ih =>
    obtain ⟨hk, his⟩ := pairwise_cons.mp his
    rcases mem_cons.mp hi with rfl | hi' <;> rcases mem_cons.mp hj with rfl | hj'
    · rfl
    · exact absurd h.symm (hk j hj' hpath)
    · exact absurd h (hk i hi' (h ▸ hpath))
    · exact ih his hi' hj'

theorem not_lost_of_clean (h : Kept E D regs lost sh) (hi : i ∈ sh.insts) (hpath : i.path ≠ []) (hw : i.writes = false)
    (hlost : i.path ∉ lostAfterFlush out sh lost) : i.path ∉ lost := by
  intro hl
  refine hlost (mem_append_right _ (mem_filter.mpr ⟨hl, ?_⟩))
  rw [Bool.and_eq_true, decide_eq_true_iff, Bool.not_eq_true', List.any_eq_false]
  refine ⟨h.linked i hi hpath, fun j hj hjw => ?_⟩
  rw [Bool.and_eq_true, beq_iff_eq] at hjw
  rw [eq_of_path h.apart hi hj hpath hjw.2, hw] at hjw
  cases hjw.1

/-- Every store that a flush writes is one that a load accepts. -/
def Savable (D : Schema → Domain S) (sh : Shelf S F) : Prop :=
  ∀ i ∈ sh.insts, i.writes = true → ∀ s ∈ i.store, (D i.schema).Saves s

@[simp] theorem flushed_reg (i : Inst S) : (Inst.flushed E i).reg = i.reg := by
  rw [Inst.flushed]
  split <;> rfl

@[simp] theorem flushed_key (i : Inst S) : (Inst.flushed E i).key = i.key := by
  rw [Inst.flushed]
  split <;> rfl

@[simp] theorem flushed_schema (i : Inst S) : (Inst.flushed E i).schema = i.schema := by
  rw [Inst.flushed]
  split <;> rfl

@[simp] theorem flushed_capRecords (i : Inst S) : (Inst.flushed E i).capRecords = i.capRecords := by
  rw [Inst.flushed]
  split <;> rfl

@[simp] theorem flushed_path (i : Inst S) : (Inst.flushed E i).path = i.path := by
  rw [Inst.flushed]
  split <;> rfl

section

variable (hE : ∀ r ∈ regs, (E r.schema).Lawful (D r.schema)) (h : Kept E D regs lost sh)
include hE h

theorem lawful_inst (hi : i ∈ sh.insts) : (E i.schema).Lawful (D i.schema) := by
  obtain ⟨r, -, hr, hschema, -⟩ := h.typed i hi
  rw [hschema]
  exact hE r (mem_of_getElem? hr)

/-- The snapshot leaves a store with the same answers. -/
theorem store_flushed (hi : i ∈ sh.insts) {s : S} (hs : (Inst.flushed E i).store = some s) :
    ∃ s₀, i.store = some s₀ ∧ (D i.schema).Valid s ∧ (E i.schema).Same s₀ s := by
  rw [Inst.flushed] at hs
  split at hs
  · obtain ⟨s₀, hs₀, rfl⟩ := map_eq_some_iff.mp hs
    obtain ⟨hvalid, hsame⟩ := (lawful_inst hE h hi).snapshot s₀ (h.valid i hi s₀ hs₀)
    exact ⟨s₀, hs₀, hvalid, hsame.symm⟩
  · exact ⟨s, hs, h.valid i hi s hs, .refl _ _⟩

omit hE in
theorem file_flushed (out : Name → Outcome) (hi : i ∈ sh.insts) (hpath : i.path ≠ []) :
    (storageDbFlushDirty E out sh).files i.path = fileAfter E out i (sh.files i.path) := by
  rw [storageDbFlushDirty]
  dsimp only
  rw [foldl_flushFile_self h.apart hi hpath, if_neg (h.linked i hi hpath)]

theorem readable_flushed (hsave : Savable D sh) (out : Name → Outcome) (hr : r ∈ regs) {binds : List Name}
    (hb : instPath r binds ≠ []) (hsame : ∀ i ∈ sh.insts, i.path = instPath r binds → i.schema = r.schema) :
    (D r.schema).Valid ((E r.schema).load (instPath r binds) r.capRecords
      ((storageDbFlushDirty E out sh).files (instPath r binds))).1 := by
  by_cases howned : ∃ i ∈ sh.insts, i.path = instPath r binds
  · obtain ⟨i, hi, heq⟩ := howned
    have hold := h.readable r hr binds hb (heq ▸ h.linked i hi (heq ▸ hb)) hsame
    have hfile := file_flushed h out hi (heq ▸ hb)
    rw [heq] at hfile
    rw [hfile, fileAfter, heq, hsame i hi heq]
    split
    next s hs =>
      split
      next hw =>
        cases out (instPath r binds) with
        | written =>
          have hvalid := h.valid i hi s hs
          have hsaves := hsave i hi hw s hs
          rw [hsame i hi heq] at hvalid hsaves
          exact ((hE r hr).saved _ _ s hb hvalid hsaves).1
        | kept => exact hold
        | dropped => exact (hE r hr).empty _ _
      · exact hold
    · exact hold
  · have hnone : ∀ i ∈ sh.insts, i.writes = true → instPath r binds ≠ i.path := fun i hi _ heq => howned ⟨i, hi, heq.symm⟩
    rw [storageDbFlushDirty]
    dsimp only
    rw [foldl_flushFile_other hnone]
    split
    · exact (hE r hr).empty _ _
    next hlinked => exact h.readable r hr binds hb hlinked hsame

theorem kept_storageDbFlushDirty (hsave : Savable D sh) (out : Name → Outcome) :
    Kept E D regs (lostAfterFlush out sh lost) (storageDbFlushDirty E out sh) := by
  refine ⟨forall_mem_map.mpr fun i hi => ?_, pairwise_map.mpr ?_, pairwise_map.mpr ?_, fun _ _ _ => not_mem_nil,
    forall_mem_map.mpr fun i hi s hs => ?_, fun r hr binds hb _ hsame => ?_,
    forall_mem_map.mpr fun i hi hpath hlost hd s hs => ?_⟩
  · simpa using h.typed i hi
  · simpa using h.keys
  · simpa using h.apart
  · obtain ⟨-, -, hvalid, -⟩ := store_flushed hE h hi hs
    rwa [flushed_schema]
  · refine readable_flushed hE h hsave out hr hb fun i hi => ?_
    simpa using hsame _ (mem_map_of_mem hi)
  · rw [flushed_path] at hpath hlost
    obtain ⟨s₀, hs₀, -, hsnap⟩ := store_flushed hE h hi hs
    rw [Inst.reloaded, flushed_path, flushed_schema, flushed_capRecords, file_flushed h out hi hpath, fileAfter, hs₀]
    refine .trans ?_ hsnap
    dsimp only
    cases hw : i.writes with
    | true =>
      rw [if_pos rfl, not_lost_of_writes hlost hi hw]
      exact ((lawful_inst hE h hi).saved _ _ s₀ hpath (h.valid i hi s₀ hs₀) (hsave i hi hw s₀ hs₀)).2
    | false =>
      rw [Inst.flushed, if_neg (by simp [hw])] at hd
      rw [if_neg (by simp)]
      exact h.file i hi hpath (not_lost_of_clean h hi hpath hw hlost) hd s₀ hs₀

end

def Marked (lost : List Name) (sh : Shelf S F) : Prop :=
  ∀ i ∈ sh.insts, i.path ≠ [] → i.path ∈ lost → i.store.isSome = true → i.dirty = true
  deriving Decidable

/-- A flush in which nothing fails leaves no file behind, once the lost ones are marked. -/
theorem not_lost_after (hm : Marked lost sh) (hi : i ∈ sh.insts) (hpath : i.path ≠ [])
    (hs : i.store.isSome = true) : i.path ∉ lostAfterFlush (fun _ => .written) sh lost := by
  rw [lostAfterFlush, mem_append, not_or]
  constructor
  · simp
  · rw [mem_filter]
    rintro ⟨hl, hkeep⟩
    have hw : i.writes = true := by simp [Inst.writes, hs, hm i hi hpath hl hs, hpath]
    rw [Bool.and_eq_true, Bool.not_eq_true', List.any_eq_false] at hkeep
    exact hkeep.2 i hi (by simp [hw])

theorem files_storageDbFlushDirty (hE : ∀ r ∈ regs, (E r.schema).Lawful (D r.schema)) (h : Kept E D regs lost sh)
    (hsave : Savable D sh) (hm : Marked lost sh) :
    ∀ i ∈ (storageDbFlushDirty E (fun _ => .written) sh).insts, i.path ≠ [] → ∀ s, i.store = some s →
      (E i.schema).Same (i.reloaded E (storageDbFlushDirty E (fun _ => .written) sh).files) s := by
  intro j hj hpath s hs
  refine (kept_storageDbFlushDirty hE h hsave _).file j hj hpath ?_ ?_ s hs
  · obtain ⟨i, hi, rfl⟩ := mem_map.mp hj
    obtain ⟨s₀, hs₀, -⟩ := store_flushed hE h hi hs
    rw [flushed_path] at hpath ⊢
    exact not_lost_after hm hi hpath (by rw [hs₀]; rfl)
  · obtain ⟨i, hi, rfl⟩ := mem_map.mp hj
    obtain ⟨s₀, hs₀, -⟩ := store_flushed hE h hi hs
    rw [flushed_path] at hpath
    rw [Inst.flushed]
    split
    · rfl
    next hw => simpa [Inst.writes, hs₀, hpath] using hw

end Flush

end Spangap.Shelves
