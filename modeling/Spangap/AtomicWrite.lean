import Spangap.Rename
import Spangap.StoreFile

namespace Spangap.AtomicWrite

open List Option Function Bytes CJson FileTree Rename StoreFile

variable {data : List UInt8} {v : Vfs (List UInt8)} {dir : List Name} {name new old : Name} {c : Codec}

abbrev Files := Disk Name (List UInt8)

/-- What else may go wrong in a write: the memory for the compressor, the open,
and how much of each chunk is taken. What is taken is on the disk: a flush that
fails in `fs_close` is not among the faults. -/
structure Faults where
  deflates : Bool
  opens : Bool
  takes : Nat → Nat

variable {f : Faults}

def flushChunk : Nat := 8192

def chunks : Nat → List UInt8 → List (List UInt8)
  | 0, _ => []
  | _ + 1, [] => []
  | n + 1, data => data.take flushChunk :: chunks n (data.drop flushChunk)

def writeChunks (takes : Nat → Nat) (tmp : List Name) :
    Files → Nat → List UInt8 → List (List UInt8) → List Files × Bool
  | _, _, _, [] => ([], true)
  | d, i, sofar, c :: cs =>
    let k := min (takes i) c.length
    let d' := put d tmp (.file (sofar ++ c.take k))
    if k = c.length then
      let w := writeChunks takes tmp d' (i + 1) (sofar ++ c) cs
      (d' :: w.1, w.2)
    else ([d'], false)

def renameTrace (v : Vfs (List UInt8)) (n : Nat) (d : Files) (p q : List Name) : List Files :=
  match v.rename n d p q with
  | some d' => [d']
  | none =>
    if (d q).isSome then
      let d1 := (v.remove (n + 1) d q).getD d
      [d, d1, (v.rename (n + 2) d1 p q).getD d1]
    else [d]

/-- The disks after each file operation, and what `atomicWriteFile` returns: the
result of the rename is not looked at. -/
def atomicWriteFile (f : Faults) (v : Vfs (List UInt8)) (d : Files) (path tmp : List Name) (data : List UInt8) :
    List Files × Bool :=
  if f.opens then
    let d0 := put d tmp (.file [])
    let w := writeChunks f.takes tmp d0 0 [] (chunks data.length data)
    let d1 := w.1.getLastD d0
    if w.2 then (d0 :: w.1 ++ renameTrace v 0 d1 tmp path, true)
    else (d0 :: w.1 ++ [(v.remove 0 d1 tmp).getD d1], false)
  else ([], false)

section Paths

variable (dir : List Name) (name : Name)

/-- A path with something appended to its name. -/
def extended (ext : Name) : List Name := dir ++ [name ++ ext]

def plainPath : List Name := extended dir name []

def gzPath : List Name := extended dir name (lit ".gz")

def plainTmp : List Name := extended dir name (lit ".new")

def gzTmp : List Name := extended dir name (lit ".gz.new")

def atomicWriteJsonGz (c : Codec) (f : Faults) (v : Vfs (List UInt8)) (d : Files) (text : Name) : List Files × Bool :=
  let w :=
    if f.deflates then atomicWriteFile f v d (gzPath dir name) (gzTmp dir name) (gzDeflateBin c text)
    else atomicWriteFile f v d (plainPath dir name) (plainTmp dir name) text
  let other := if f.deflates then plainPath dir name else gzPath dir name
  if w.2 then (w.1 ++ [(v.remove 3 (w.1.getLastD d) other).getD (w.1.getLastD d)], true) else w

def readFileStr (d : Files) (p : List Name) : Option (List UInt8) :=
  match d p with
  | some (.file b) => if b = [] then none else some b
  | _ => none

def gzText (c : Codec) (d : Files) : Option Name :=
  ((readFileStr d (gzPath dir name)).bind (gzInflateBin c)).map cstr

def plainText (d : Files) : Option Name := (readFileStr d (plainPath dir name)).map cstr

/-- What the next boot reads: the compressed file, or else the plain one. -/
def readJsonFile (c : Codec) (d : Files) : Option Name := (gzText dir name c d).or (plainText dir name d)

/-- Wherever the write is cut off, the old or the new text is read. -/
def CrashAtomic (c : Codec) (f : Faults) (v : Vfs (List UInt8)) (d : Files) (old new : Name) : Prop :=
  ∀ s ∈ d :: (atomicWriteJsonGz dir name c f v d new).1,
    readJsonFile dir name c s = some old ∨ readJsonFile dir name c s = some new

end Paths

section Chunks

theorem chunks_flatten {n : Nat} (h : data.length ≤ n) : (chunks n data).flatten = data := by
  induction n generalizing data with
  | zero =>
    obtain rfl := length_eq_zero_iff.mp (Nat.le_zero.mp h)
    rfl
  | succ n ih =>
    cases data with
    | nil => rfl
    | cons x xs =>
      have hdrop : ((x :: xs).drop flushChunk).length ≤ n := by
        rw [length_drop, flushChunk]
        omega
      rw [chunks, flatten_cons, ih hdrop, take_append_drop]
      nofun

/-- Every chunk is taken whole. -/
def Taken (takes : Nat → Nat) : Nat → List (List UInt8) → Prop
  | _, [] => True
  | i, c :: cs => c.length ≤ takes i ∧ Taken takes (i + 1) cs

variable {takes : Nat → Nat} (tmp : List Name)

theorem writeChunks_elsewhere {tmp x : List Name} (hx : x ≠ tmp) (cs : List (List UInt8)) (d : Files) (i : Nat)
    (sofar : List UInt8) : ∀ s ∈ (writeChunks takes tmp d i sofar cs).1, s x = d x := by
  induction cs generalizing d i sofar with
  | nil => nofun
  | cons c cs ih =>
    intro s hs
    rw [writeChunks] at hs
    split at hs
    · rcases mem_cons.mp hs with rfl | hs
      · exact put_ne hx _
      · rw [ih _ _ _ s hs, put_ne hx]
    · rw [mem_singleton.mp hs, put_ne hx]

theorem writeChunks_taken (cs : List (List UInt8)) (d : Files) (i : Nat) (sofar : List UInt8) :
    (writeChunks takes tmp d i sofar cs).2 = true ↔ Taken takes i cs := by
  induction cs generalizing d i sofar with
  | nil => simp [writeChunks, Taken]
  | cons c cs ih =>
    rw [writeChunks, Taken]
    split
    next hk =>
      rw [ih]
      exact (and_iff_right (by omega)).symm
    next hk =>
      simp only [Bool.false_eq_true, false_iff, not_and]
      omega

theorem put_put (d : Files) (p : List Name) (m n : Node (List UInt8)) : put (put d p m) p n = put d p n :=
  update_idem _ _ _

theorem writeChunks_last (cs : List (List UInt8)) (d : Files) (i : Nat) (sofar : List UInt8)
    (htaken : Taken takes i cs) :
    (writeChunks takes tmp (put d tmp (.file sofar)) i sofar cs).1.getLastD (put d tmp (.file sofar)) =
      put d tmp (.file (sofar ++ cs.flatten)) := by
  induction cs generalizing i sofar with
  | nil => simp [writeChunks]
  | cons c cs ih =>
    obtain ⟨hc, htaken⟩ := htaken
    have hk : min (takes i) c.length = c.length := by omega
    have hrest := ih (i + 1) (sofar ++ c) htaken
    rw [writeChunks]
    simp only [hk, if_true, take_length, put_put]
    rw [getLastD_cons, hrest, flatten_cons, append_assoc]

end Chunks

section Trace

variable (v : Vfs (List UInt8)) (d : Files) (path tmp : List Name)

/-- The write gets as far as the rename. -/
def Written (f : Faults) (data : List UInt8) : Prop := f.opens = true ∧ Taken f.takes 0 (chunks data.length data)

theorem atomicWriteFile_result : (atomicWriteFile f v d path tmp data).2 = true ↔ Written f data := by
  rw [atomicWriteFile, Written, ← writeChunks_taken tmp _ (put d tmp (.file [])) 0 []]
  by_cases hopen : f.opens = true
  · rw [if_pos hopen, and_iff_right hopen]
    simp only
    split <;> simp_all
  · rw [if_neg hopen]
    simp [hopen]

theorem atomicWriteFile_written (hw : Written f data) : ∃ ss : List Files, (atomicWriteFile f v d path tmp data).1 =
        ss ++ renameTrace v 0 (put d tmp (.file data)) tmp path ∧
      ∀ s ∈ ss, ∀ x, x ≠ tmp → s x = d x := by
  have hlast := writeChunks_last tmp (chunks data.length data) d 0 [] hw.2
  rw [nil_append, chunks_flatten (le_rfl)] at hlast
  have htaken := (writeChunks_taken tmp (chunks data.length data) (put d tmp (.file [])) 0 []).mpr hw.2
  refine ⟨put d tmp (.file []) :: (writeChunks f.takes tmp (put d tmp (.file [])) 0 []
    (chunks data.length data)).1, ?_, ?_⟩
  · rw [atomicWriteFile, if_pos hw.1]
    simp only [htaken, if_true, hlast]
  · intro s hs x hx
    rcases mem_cons.mp hs with rfl | hs
    · exact put_ne hx _
    · rw [writeChunks_elsewhere hx _ _ _ _ s hs, put_ne hx]

theorem remove_getD (n : Nat) (s : Files) (p : List Name) :
    (v.remove n s p).getD s = if v.removes n s p then removed s p else s := by
  rw [Vfs.remove]
  split <;> rfl

theorem atomicWriteFile_unwritten (hw : ¬ Written f data) :
    ∀ s ∈ (atomicWriteFile f v d path tmp data).1, ∀ x, x ≠ tmp → s x = d x := by
  rw [Written, ← writeChunks_taken tmp _ (put d tmp (.file [])) 0 []] at hw
  intro s hs x hx
  rw [atomicWriteFile] at hs
  split at hs
  next hopen =>
    simp only [hopen, true_and] at hw
    simp only [hw, Bool.false_eq_true, if_false] at hs
    have hall : ∀ t ∈ put d tmp (.file []) ::
        (writeChunks f.takes tmp (put d tmp (.file [])) 0 [] (chunks data.length data)).1, t x = d x := by
      intro t ht
      rcases mem_cons.mp ht with rfl | ht
      · exact put_ne hx _
      · rw [writeChunks_elsewhere hx _ _ _ _ t ht, put_ne hx]
    rcases mem_append.mp hs with hs | hs
    · exact hall s hs
    · have hend : ((writeChunks f.takes tmp (put d tmp (.file [])) 0 [] (chunks data.length data)).1.getLastD
          (put d tmp (.file []))) x = d x := hall _ getLastD_mem_cons
      rw [mem_singleton.mp hs, remove_getD]
      split
      · rw [removed_ne hx, hend]
      · exact hend
  · cases hs

end Trace

section Views

variable {d s : Files} {p tmp : List Name} {a b : Name}

theorem extended_prefix_iff : extended dir name a <+: extended dir name b ↔ a = b := by
  rw [extended, extended, prefix_append_right_inj, cons_prefix_cons]
  simp

theorem extended_ne (h : a ≠ b) : extended dir name a ≠ extended dir name b := by
  simpa [extended] using h

theorem gzText_congr (h : s (gzPath dir name) = d (gzPath dir name)) : gzText dir name c s = gzText dir name c d := by
  rw [gzText, gzText, readFileStr, readFileStr, h]

theorem plainText_congr (h : s (plainPath dir name) = d (plainPath dir name)) :
    plainText dir name s = plainText dir name d := by
  rw [plainText, plainText, readFileStr, readFileStr, h]

theorem gzText_removed : gzText dir name c (removed s (gzPath dir name)) = none := by
  rw [gzText, readFileStr, removed_self]
  rfl

theorem plainText_removed : plainText dir name (removed s (plainPath dir name)) = none := by
  rw [plainText, readFileStr, removed_self]
  rfl

theorem gz_ne_plain : gzPath dir name ≠ plainPath dir name := extended_ne (by decide)

theorem moved_dest (h : s tmp = some (.file data)) : moved s tmp p p = some (.file data) := by
  have hm := congrFun (below_moved (d := s) (p := tmp) (q := p)) []
  simpa [below, h] using hm

theorem moved_other {e : Name} (hea : e ≠ a) (heb : e ≠ b) :
    moved s (extended dir name a) (extended dir name b) (extended dir name e) = s (extended dir name e) :=
  moved_apart (fun h => hea (extended_prefix_iff.mp h).symm) (fun h => heb (extended_prefix_iff.mp h).symm)

theorem gzText_written (hc : c.Lossless) (hnul : 0 ∉ new) (hlen : new.length < 4294967296)
    (h : s (gzPath dir name) = some (.file (gzDeflateBin c new))) :
    gzText dir name c s = if new.length ≤ 8 * 1024 * 1024 then some new else none := by
  have hne : gzDeflateBin c new ≠ [] := by simp [gzDeflateBin, gzHdr]
  have hcstr := cstr_eq hnul
  rw [gzText, readFileStr, h]
  simp only [hne, if_false, bind_some]
  split
  next hsize => rw [gzInflateBin_gzDeflateBin hc hsize, map_some, hcstr]
  next hsize =>
    rw [gzInflateBin_oversize hlen (by omega)]
    rfl

theorem plainText_written (hne : new ≠ []) (hnul : 0 ∉ new)
    (h : s (plainPath dir name) = some (.file new)) : plainText dir name s = some new := by
  have hcstr := cstr_eq hnul
  rw [plainText, readFileStr, h]
  simp only [hne, if_false, map_some, hcstr]

end Views

section Crash

variable {d s : Files}
  {path tmp other : List Name}

/-- The old or the new text is read. -/
def Reads (dir : List Name) (name : Name) (c : Codec) (old new : Name) (s : Files) : Prop :=
  readJsonFile dir name c s = some old ∨ readJsonFile dir name c s = some new

theorem reads_congr (hg : s (gzPath dir name) = d (gzPath dir name))
    (hp : s (plainPath dir name) = d (plainPath dir name)) : Reads dir name c old new s ↔ Reads dir name c old new d := by
  rw [Reads, Reads, readJsonFile, readJsonFile, gzText_congr hg, plainText_congr hp]

def cleared (v : Vfs (List UInt8)) (other : List Name) (s : Files) : Files :=
  if v.removes 3 s other then removed s other else s

theorem renameTrace_ne_nil (n : Nat) (p q : List Name) : renameTrace v n d p q ≠ [] := by
  rw [renameTrace]
  split
  · nofun
  · split <;> nofun

theorem write_reads_iff (hg : gzPath dir name ≠ tmp) (hp : plainPath dir name ≠ tmp)
    (hd : Reads dir name c old new d) :
    (∀ s ∈ d :: (let w := atomicWriteFile f v d path tmp data
        if w.2 then (w.1 ++ [(v.remove 3 (w.1.getLastD d) other).getD (w.1.getLastD d)], true) else w).1,
      Reads dir name c old new s) ↔
    (Written f data → (∀ s ∈ renameTrace v 0 (put d tmp (.file data)) tmp path, Reads dir name c old new s) ∧
      Reads dir name c old new
        (cleared v other ((renameTrace v 0 (put d tmp (.file data)) tmp path).getLastD d))) := by
  rw [forall_mem_cons, and_iff_right hd]
  by_cases hw : Written f data
  · have hres := (atomicWriteFile_result v d path tmp).mpr hw
    obtain ⟨ss, htrace, helse⟩ := atomicWriteFile_written v d path tmp hw
    have hbefore : ∀ s ∈ ss, Reads dir name c old new s := fun s hs =>
      (reads_congr (helse s hs _ hg) (helse s hs _ hp)).mpr hd
    have hlast : (ss ++ renameTrace v 0 (put d tmp (.file data)) tmp path).getLastD d =
        (renameTrace v 0 (put d tmp (.file data)) tmp path).getLastD d := by
      rw [getLastD_eq_getLast?, getLast?_append_of_ne_nil _ (renameTrace_ne_nil 0 tmp path),
        ← getLastD_eq_getLast?]
    simp only [hres, if_true, htrace, hlast, remove_getD]
    rw [← cleared, imp_iff_right hw, forall_mem_append, forall_mem_append, forall_mem_singleton,
      and_assoc, and_iff_right hbefore]
  · have hres : (atomicWriteFile f v d path tmp data).2 = false := by
      simpa using mt (atomicWriteFile_result v d path tmp).mp hw
    have helse := atomicWriteFile_unwritten v d path tmp hw
    simp only [hres, Bool.false_eq_true, if_false]
    exact iff_of_true (fun s hs => (reads_congr (helse s hs _ hg) (helse s hs _ hp)).mpr hd) (absurd · hw)

/-- What a text at every point of the rename and after the clean-up takes, call by call. -/
theorem renameTrace_forall_iff {P Q : Files → Prop} {p q : List Name} (hne : p ≠ q) (hP : P d) (e : Files) :
    (∀ s ∈ renameTrace v 0 d p q, P s) ∧ Q ((renameTrace v 0 d p q).getLastD e) ↔
      if v.renames 0 d p q then P (moved d p q) ∧ Q (moved d p q)
      else if d q = none then Q d
      else if v.removes 1 d q then
        P (removed d q) ∧
          if v.renames 2 (removed d q) p q then P (moved (removed d q) p q) ∧ Q (moved (removed d q) p q) else Q (removed d q)
      else if v.renames 2 d p q then P (moved d p q) ∧ Q (moved d p q) else Q d := by
  by_cases h0 : v.renames 0 d p q = true
  · simp [renameTrace, Vfs.rename, h0, hne]
  by_cases hq : d q = none
  · simp [renameTrace, Vfs.rename, h0, hq, hP]
  have hsome : (d q).isSome = true := isSome_iff_ne_none.mpr hq
  by_cases h1 : v.removes 1 d q = true
  · by_cases h2 : v.renames 2 (removed d q) p q = true <;>
      simp [renameTrace, Vfs.rename, Vfs.remove, h0, hq, hsome, h1, h2, hne, hP, and_assoc]
  · by_cases h2 : v.renames 2 d p q = true <;>
      simp [renameTrace, Vfs.rename, Vfs.remove, h0, hq, hsome, h1, h2, hne, hP]

/-- The old or the new text is in the plain file. -/
def PlainReads (dir : List Name) (name : Name) (old new : Name) (s : Files) : Prop :=
  plainText dir name s = some old ∨ plainText dir name s = some new

theorem reads_of_gzText (h : gzText dir name c s = some new) : Reads dir name c old new s := by
  rw [Reads, readJsonFile, h]
  exact .inr rfl

theorem reads_iff_plainReads (h : gzText dir name c s = none) :
    Reads dir name c old new s ↔ PlainReads dir name old new s := by
  rw [Reads, PlainReads, readJsonFile, h, none_or]

theorem reads_of_gz_eq (h : gzText dir name c s = gzText dir name c d) (hsome : gzText dir name c d ≠ none) :
    Reads dir name c old new s ↔ Reads dir name c old new d := by
  obtain ⟨t, ht⟩ := ne_none_iff_exists'.mp hsome
  rw [Reads, Reads, readJsonFile, readJsonFile, h, ht, some_or, some_or]

theorem gzText_cleared : gzText dir name c (cleared v (plainPath dir name) s) = gzText dir name c s := by
  rw [cleared]
  split
  · exact gzText_congr (removed_ne gz_ne_plain)
  · rfl

theorem reads_cleared_plain (h : gzText dir name c s = none) :
    Reads dir name c old new (cleared v (plainPath dir name) s) ↔
      PlainReads dir name old new s ∧ v.removes 3 s (plainPath dir name) = false := by
  rw [reads_iff_plainReads (gzText_cleared.trans h), cleared]
  by_cases hz : v.removes 3 s (plainPath dir name) = true
  · simp [hz, PlainReads, plainText_removed]
  · simp [hz]

theorem reads_cleared_gz : Reads dir name c old new (cleared v (gzPath dir name) s) ↔
      if v.removes 3 s (gzPath dir name) then PlainReads dir name old new s else Reads dir name c old new s := by
  rw [cleared]
  split
  · rw [reads_iff_plainReads gzText_removed, PlainReads, PlainReads,
      plainText_congr (removed_ne gz_ne_plain.symm)]
  · exact Iff.rfl

end Crash

section Conditions

variable (dir : List Name) (name : Name) (c : Codec) (v : Vfs (List UInt8)) (d : Files) (old new : Name)

/-- A renamed compressed file can be read, or the plain one still can. -/
def RenamedReads (s : Files) : Prop :=
  new.length ≤ 8 * 1024 * 1024 ∨ PlainReads dir name old new d ∧ v.removes 3 s (plainPath dir name) = false

/-- The calls of a compressed write that leave a text at every point. -/
def GzSurvives : Prop :=
  let d1 := put d (gzTmp dir name) (.file (gzDeflateBin c new))
  let d2 := removed d1 (gzPath dir name)
  if v.renames 0 d1 (gzTmp dir name) (gzPath dir name) then
    RenamedReads dir name v d old new (moved d1 (gzTmp dir name) (gzPath dir name))
  else if d (gzPath dir name) = none then v.removes 3 d1 (plainPath dir name) = false
  else if v.removes 1 d1 (gzPath dir name) then
    PlainReads dir name old new d ∧
      if v.renames 2 d2 (gzTmp dir name) (gzPath dir name) then
        RenamedReads dir name v d old new (moved d2 (gzTmp dir name) (gzPath dir name))
      else v.removes 3 d2 (plainPath dir name) = false
  else if v.renames 2 d1 (gzTmp dir name) (gzPath dir name) then
    RenamedReads dir name v d old new (moved d1 (gzTmp dir name) (gzPath dir name))
  else gzText dir name c d ≠ none ∨ v.removes 3 d1 (plainPath dir name) = false

def PlainSurvives : Prop :=
  let d1 := put d (plainTmp dir name) (.file new)
  let d2 := removed d1 (plainPath dir name)
  if v.renames 0 d1 (plainTmp dir name) (plainPath dir name) then True
  else if d (plainPath dir name) = none then v.removes 3 d1 (gzPath dir name) = false
  else if v.removes 1 d1 (plainPath dir name) then
    gzText dir name c d ≠ none ∧
      (v.renames 2 d2 (plainTmp dir name) (plainPath dir name) = true ∨ v.removes 3 d2 (gzPath dir name) = false)
  else v.renames 2 d1 (plainTmp dir name) (plainPath dir name) = true ∨
    v.removes 3 d1 (gzPath dir name) = false ∨ PlainReads dir name old new d

end Conditions

section Survival

variable {d s : Files}

theorem gz_ne_gzTmp : gzPath dir name ≠ gzTmp dir name := extended_ne (by decide)

theorem plain_ne_gzTmp : plainPath dir name ≠ gzTmp dir name := extended_ne (by decide)

theorem gz_ne_plainTmp : gzPath dir name ≠ plainTmp dir name := extended_ne (by decide)

theorem plain_ne_plainTmp : plainPath dir name ≠ plainTmp dir name := extended_ne (by decide)

theorem plainReads_congr (h : s (plainPath dir name) = d (plainPath dir name)) :
    PlainReads dir name old new s ↔ PlainReads dir name old new d := by
  rw [PlainReads, PlainReads, plainText_congr h]

theorem reads_renamed_iff (hc : c.Lossless) (hnul : 0 ∉ new) (hlen : new.length < 4294967296)
    (hs : s (gzTmp dir name) = some (.file (gzDeflateBin c new)))
    (hp : s (plainPath dir name) = d (plainPath dir name)) :
    Reads dir name c old new (moved s (gzTmp dir name) (gzPath dir name)) ∧
      Reads dir name c old new (cleared v (plainPath dir name) (moved s (gzTmp dir name) (gzPath dir name))) ↔
    RenamedReads dir name v d old new (moved s (gzTmp dir name) (gzPath dir name)) := by
  have hgz := gzText_written hc hnul hlen (moved_dest (p := gzPath dir name) hs)
  have hplain : moved s (gzTmp dir name) (gzPath dir name) (plainPath dir name) = d (plainPath dir name) := by
    rw [← hp]
    exact moved_other (by decide) (by decide)
  rw [RenamedReads]
  split at hgz
  next hfits => exact iff_of_true ⟨reads_of_gzText hgz, reads_of_gzText (gzText_cleared.trans hgz)⟩ (.inl hfits)
  next hfits =>
    rw [reads_iff_plainReads hgz, reads_cleared_plain hgz, plainReads_congr hplain, ← and_assoc, and_self,
      or_iff_right hfits]

theorem reads_kept_iff (hg : s (gzPath dir name) = d (gzPath dir name))
    (hp : s (plainPath dir name) = d (plainPath dir name)) (hd : Reads dir name c old new d) :
    Reads dir name c old new (cleared v (plainPath dir name) s) ↔
      gzText dir name c d ≠ none ∨ v.removes 3 s (plainPath dir name) = false := by
  by_cases hgz : gzText dir name c d = none
  · have hgs := (gzText_congr (c := c) hg).trans hgz
    rw [reads_cleared_plain hgs, plainReads_congr hp, ← reads_iff_plainReads hgz, and_iff_right hd]
    simp [hgz]
  · have hgs : gzText dir name c (cleared v (plainPath dir name) s) = gzText dir name c d :=
      gzText_cleared.trans (gzText_congr hg)
    rw [reads_of_gz_eq hgs hgz]
    exact iff_of_true hd (.inl hgz)

theorem gzSurvives_iff (hc : c.Lossless) (hnul : 0 ∉ new) (hlen : new.length < 4294967296)
    (hd : Reads dir name c old new d) :
    (∀ s ∈ renameTrace v 0 (put d (gzTmp dir name) (.file (gzDeflateBin c new))) (gzTmp dir name) (gzPath dir name),
        Reads dir name c old new s) ∧
      Reads dir name c old new (cleared v (plainPath dir name)
        ((renameTrace v 0 (put d (gzTmp dir name) (.file (gzDeflateBin c new))) (gzTmp dir name)
          (gzPath dir name)).getLastD d)) ↔
    GzSurvives dir name c v d old new := by
  obtain ⟨d1, hd1⟩ : ∃ d1, d1 = put d (gzTmp dir name) (.file (gzDeflateBin c new)) := ⟨_, rfl⟩
  have htmp : d1 (gzTmp dir name) = some (.file (gzDeflateBin c new)) := by rw [hd1, put_self]
  have hg : d1 (gzPath dir name) = d (gzPath dir name) := by rw [hd1, put_ne gz_ne_gzTmp]
  have hp : d1 (plainPath dir name) = d (plainPath dir name) := by rw [hd1, put_ne plain_ne_gzTmp]
  have hgone : gzText dir name c (removed d1 (gzPath dir name)) = none := gzText_removed
  have htmp' : removed d1 (gzPath dir name) (gzTmp dir name) = some (.file (gzDeflateBin c new)) := by
    rw [removed_ne gz_ne_gzTmp.symm, htmp]
  have hp' : removed d1 (gzPath dir name) (plainPath dir name) = d (plainPath dir name) := by
    rw [removed_ne gz_ne_plain.symm, hp]
  rw [GzSurvives, ← hd1, renameTrace_forall_iff (Q := fun s => Reads dir name c old new (cleared v (plainPath dir name) s))
      gz_ne_gzTmp.symm ((reads_congr hg hp).mpr hd), hg,
    reads_renamed_iff hc hnul hlen htmp hp, reads_renamed_iff hc hnul hlen htmp' hp', reads_iff_plainReads hgone,
    plainReads_congr hp', reads_kept_iff hg hp hd]
  split_ifs with h0 hq h1 h2 h2
  · rfl
  · have hgz : gzText dir name c d = none := by rw [gzText, readFileStr, hq]; rfl
    simp [hgz]
  · rfl
  · refine and_congr_right fun hplain => ?_
    rw [reads_cleared_plain hgone, plainReads_congr hp', and_iff_right hplain]
  · rfl
  · rfl

theorem reads_renamed_plain (hne : new ≠ []) (hnul : 0 ∉ new) (hd : Reads dir name c old new d)
    (hs : s (plainTmp dir name) = some (.file new)) (hg : s (gzPath dir name) = d (gzPath dir name)) :
    Reads dir name c old new (moved s (plainTmp dir name) (plainPath dir name)) ∧
      Reads dir name c old new (cleared v (gzPath dir name) (moved s (plainTmp dir name) (plainPath dir name))) := by
  have hplain : PlainReads dir name old new (moved s (plainTmp dir name) (plainPath dir name)) :=
    .inr (plainText_written hne hnul (moved_dest hs))
  have hgz : gzText dir name c (moved s (plainTmp dir name) (plainPath dir name)) = gzText dir name c d := by
    refine gzText_congr ?_
    rw [← hg]
    exact moved_other (by decide) (by decide)
  have hr : Reads dir name c old new (moved s (plainTmp dir name) (plainPath dir name)) := by
    by_cases hnone : gzText dir name c d = none
    · exact (reads_iff_plainReads (hgz.trans hnone)).mpr hplain
    · exact (reads_of_gz_eq hgz hnone).mpr hd
  refine ⟨hr, ?_⟩
  rw [reads_cleared_gz]
  split
  · exact hplain
  · exact hr

theorem plainSurvives_iff (hne : new ≠ []) (hnul : 0 ∉ new) (hd : Reads dir name c old new d) :
    (∀ s ∈ renameTrace v 0 (put d (plainTmp dir name) (.file new)) (plainTmp dir name) (plainPath dir name),
        Reads dir name c old new s) ∧
      Reads dir name c old new (cleared v (gzPath dir name)
        ((renameTrace v 0 (put d (plainTmp dir name) (.file new)) (plainTmp dir name)
          (plainPath dir name)).getLastD d)) ↔
    PlainSurvives dir name c v d old new := by
  obtain ⟨d1, hd1⟩ : ∃ d1, d1 = put d (plainTmp dir name) (.file new) := ⟨_, rfl⟩
  have htmp : d1 (plainTmp dir name) = some (.file new) := by rw [hd1, put_self]
  have hp : d1 (plainPath dir name) = d (plainPath dir name) := by rw [hd1, put_ne plain_ne_plainTmp]
  have hg : d1 (gzPath dir name) = d (gzPath dir name) := by rw [hd1, put_ne gz_ne_plainTmp]
  have hd1r : Reads dir name c old new d1 := (reads_congr hg hp).mpr hd
  have htmp' : removed d1 (plainPath dir name) (plainTmp dir name) = some (.file new) := by
    rw [removed_ne plain_ne_plainTmp.symm, htmp]
  have hg' : removed d1 (plainPath dir name) (gzPath dir name) = d (gzPath dir name) := by rw [removed_ne gz_ne_plain, hg]
  have hgone : ¬ PlainReads dir name old new (removed d1 (plainPath dir name)) := by simp [PlainReads, plainText_removed]
  have hgz : Reads dir name c old new (removed d1 (plainPath dir name)) ↔ gzText dir name c d ≠ none := by
    by_cases hnone : gzText dir name c d = none
    · rw [reads_iff_plainReads ((gzText_congr hg').trans hnone)]
      exact iff_of_false hgone (not_not.mpr hnone)
    · exact iff_of_true ((reads_of_gz_eq (gzText_congr hg') hnone).mpr hd) hnone
  have hclear : Reads dir name c old new (cleared v (gzPath dir name) d1) ↔
      v.removes 3 d1 (gzPath dir name) = false ∨ PlainReads dir name old new d := by
    rw [reads_cleared_gz, plainReads_congr hp]
    split <;> simp_all
  have hclear' : Reads dir name c old new (cleared v (gzPath dir name) (removed d1 (plainPath dir name))) ↔
      v.removes 3 (removed d1 (plainPath dir name)) (gzPath dir name) = false ∧ gzText dir name c d ≠ none := by
    rw [reads_cleared_gz, hgz]
    split <;> simp_all
  rw [PlainSurvives, ← hd1, renameTrace_forall_iff (Q := fun s => Reads dir name c old new (cleared v (gzPath dir name) s))
      plain_ne_plainTmp.symm hd1r, hp, hgz, iff_true_intro (reads_renamed_plain hne hnul hd htmp hg),
    iff_true_intro (reads_renamed_plain hne hnul hd htmp' hg'), hclear, hclear']
  split_ifs with h0 hq h1 h2 h2
  · rfl
  · have hplain : ¬ PlainReads dir name old new d := by simp [PlainReads, plainText, readFileStr, hq]
    rw [or_iff_left hplain]
  · simp [h2]
  · simp [h2, and_comm]
  · simp [h2]
  · simp [h2]

/-- Which text the next boot reads is decided by the calls that the rename and
the clean-up after it make. -/
theorem atomicWriteJsonGz_crashAtomic_iff (hc : c.Lossless) (hne : new ≠ []) (hnul : 0 ∉ new)
    (hlen : new.length < 4294967296) (hold : readJsonFile dir name c d = some old) :
    CrashAtomic dir name c f v d old new ↔
      if f.deflates then Written f (gzDeflateBin c new) → GzSurvives dir name c v d old new
      else Written f new → PlainSurvives dir name c v d old new := by
  have hd : Reads dir name c old new d := .inl hold
  rw [CrashAtomic, atomicWriteJsonGz]
  split
  · rw [← gzSurvives_iff hc hnul hlen hd]
    exact write_reads_iff gz_ne_gzTmp plain_ne_gzTmp hd
  · rw [← plainSurvives_iff hne hnul hd]
    exact write_reads_iff gz_ne_plainTmp plain_ne_plainTmp hd

end Survival

section Example

def sure : Faults := ⟨true, true, fun _ => flushChunk⟩

def settled (old : Name) : Files :=
  put (fun _ => none) (gzPath [] (lit "root.json")) (.file (gzDeflateBin verbatim old))

theorem readJsonFile_settled (hnul : 0 ∉ old) (hlen : old.length ≤ 8 * 1024 * 1024) :
    readJsonFile [] (lit "root.json") verbatim (settled old) = some old := by
  have hfile : settled old (gzPath [] (lit "root.json")) = some (.file (gzDeflateBin verbatim old)) := put_self _
  have hgz := gzText_written verbatim_lossless hnul (by omega) hfile
  rw [if_pos hlen] at hgz
  rw [readJsonFile, hgz, some_or]

theorem atomicWriteJsonGz_crashAtomic_faultless :
    CrashAtomic [] (lit "root.json") verbatim sure faultless (settled (lit "1")) (lit "1") (lit "22") := by
  refine (atomicWriteJsonGz_crashAtomic_iff verbatim_lossless (by decide) (by decide) (by decide)
    (readJsonFile_settled (by decide) (by decide))).mpr ?_
  rw [sure, if_pos rfl, GzSurvives]
  intro hw
  have hrename : (faultless : Vfs (List UInt8)).renames 0
      (put (settled (lit "1")) (gzTmp [] (lit "root.json")) (.file (gzDeflateBin verbatim (lit "22"))))
      (gzTmp [] (lit "root.json")) (gzPath [] (lit "root.json")) = true := by
    have hapart : Apart (gzTmp [] (lit "root.json")) (gzPath [] (lit "root.json")) := by decide
    simp [faultless, hapart]
  rw [if_pos hrename]
  exact .inl (by decide)

open Classical in
/-- A FAT volume: a rename does not replace a file. -/
noncomputable def fat : Vfs (List UInt8) where
  renames _ d p q := decide ((d p).isSome ∧ Apart p q ∧ d q = none)
  removes _ d p := decide ((d p).isSome ∧ Bare d p)
  renames_from _ _ _ _ h := ⟨(of_decide_eq_true h).1, .inr (of_decide_eq_true h).2.1⟩
  removes_from _ _ _ h := of_decide_eq_true h

theorem taken_sure (n i : Nat) (data : List UInt8) : Taken sure.takes i (chunks n data) := by
  induction n generalizing i data with
  | zero => trivial
  | succ n ih =>
    cases data with
    | nil => trivial
    | cons x xs =>
      refine ⟨?_, ih (i + 1) _⟩
      rw [length_take]
      exact min_le_left _ _

/-- Cut off between the removal and the retry on a FAT volume, nothing is left to read. -/
theorem fat_write_loses_both : readJsonFile [] (lit "root.json") verbatim (settled (lit "1")) = some (lit "1") ∧
      ∃ s ∈ (atomicWriteJsonGz [] (lit "root.json") verbatim sure fat (settled (lit "1")) (lit "22")).1,
        readJsonFile [] (lit "root.json") verbatim s = none := by
  obtain ⟨d1, hd1⟩ : ∃ d1, d1 = put (settled (lit "1")) (gzTmp [] (lit "root.json"))
    (.file (gzDeflateBin verbatim (lit "22"))) := ⟨_, rfl⟩
  have hfile : d1 (gzPath [] (lit "root.json")) = some (.file (gzDeflateBin verbatim (lit "1"))) := by
    rw [hd1, put_ne gz_ne_gzTmp, settled, put_self]
  have hplain : d1 (plainPath [] (lit "root.json")) = none := by
    rw [hd1, put_ne plain_ne_gzTmp, settled, put_ne gz_ne_plain.symm]
  have hbare : Bare d1 (gzPath [] (lit "root.json")) := by
    intro r hr
    have hlong : ∀ e, gzPath [] (lit "root.json") ++ r ≠ extended [] (lit "root.json") e := by
      intro e he
      have hlen := congrArg length he
      have hpos := length_pos_of_ne_nil hr
      simp only [gzPath, extended, length_append, length_cons] at hlen
      omega
    have htmp : gzPath [] (lit "root.json") ++ r ≠ gzTmp [] (lit "root.json") := hlong _
    have hgz : gzPath [] (lit "root.json") ++ r ≠ gzPath [] (lit "root.json") := hlong _
    rw [hd1, put_ne htmp, settled, put_ne hgz]
  have hrename : fat.renames 0 d1 (gzTmp [] (lit "root.json")) (gzPath [] (lit "root.json")) = false := by
    simp [fat, hfile]
  have hremove : fat.removes 1 d1 (gzPath [] (lit "root.json")) = true := by
    simp [fat, hfile, hbare]
  have htrace : removed d1 (gzPath [] (lit "root.json")) ∈
      renameTrace fat 0 d1 (gzTmp [] (lit "root.json")) (gzPath [] (lit "root.json")) := by
    simp [renameTrace, Vfs.rename, Vfs.remove, hrename, hremove, hfile]
  have hwritten : Written sure (gzDeflateBin verbatim (lit "22")) := ⟨rfl, taken_sure _ _ _⟩
  obtain ⟨ss, hss, -⟩ := atomicWriteFile_written fat (settled (lit "1")) (gzPath [] (lit "root.json"))
    (gzTmp [] (lit "root.json")) hwritten
  rw [← hd1] at hss
  refine ⟨readJsonFile_settled (by decide) (by decide), removed d1 (gzPath [] (lit "root.json")), ?_, ?_⟩
  · have hmem : removed d1 (gzPath [] (lit "root.json")) ∈ (atomicWriteFile sure fat (settled (lit "1"))
        (gzPath [] (lit "root.json")) (gzTmp [] (lit "root.json")) (gzDeflateBin verbatim (lit "22"))).1 := by
      rw [hss]
      exact mem_append_right _ htrace
    rw [atomicWriteJsonGz]
    simp only [sure, if_true] at hmem ⊢
    split
    · exact mem_append_left _ hmem
    · exact hmem
  · rw [readJsonFile, gzText_removed, none_or, plainText, readFileStr, removed_ne gz_ne_plain.symm, hplain]
    rfl

end Example

end Spangap.AtomicWrite
