import Spangap.RecordMap

namespace Spangap.StoreRuns

open List Bytes CJson Fields FieldValues RecordStore FiniteMaps Tiling Compaction RecordEdits RecordMap

/-- What an operation leaves behind, also when an append found no room. -/
def apply (s : Store) : Op → Store
  | .set key field val m m' => (sdbSetField s key field val m m').1
  | .delete key => sdbDeleteRecord s key
  | .flush written => sdbFlush s written
  | .snapshot => sdbSnapshotRaw s

def Fits (sc : Schema) : Op → Prop
  | .set key field val _ _ =>
    key.length ≤ 65535 ∧ ∀ fd, sc.find field = some fd → fd.kind = .text → val.length ≤ 65535
  | _ => True

instance (sc : Schema) : DecidablePred (Fits sc)
  | .set _ field _ _ _ => inferInstanceAs (Decidable (_ ∧ ∀ fd, sc.find field = some fd → _))
  | .delete _ | .flush _ | .snapshot => .isTrue trivial

variable {sc : Schema} {s : Store} {rs A B : List (Record sc)} {key : Name} {a : Heap} {l : List (Name × (Name → Name))}

/-- The arena is tiled by some records. -/
def Sound (sc : Schema) (s : Store) : Prop := ∃ rs, Tiled sc s rs

theorem exists_table (ht : Tiled sc s rs) : ∃ m : Table, Represents m (pairs rs) := by
  apply exists_represents
  rw [map_fst_pairs]
  exact ht.nodup_keys

theorem Sound.refines (hs : Sound sc s) : ∃ m, Refines sc s m := by
  obtain ⟨rs, ht⟩ := hs
  obtain ⟨m, hm⟩ := exists_table ht
  exact ⟨m, rs, ht, hm⟩

theorem sound_of_lists (hs : Lists sc s l) : Sound sc s := by
  obtain ⟨rs, ht, -⟩ := hs
  exact ⟨rs, ht⟩

theorem Sound.dirty (hs : Sound sc s) (d : Bool) : Sound sc { s with dirty := d } := by
  obtain ⟨rs, ht⟩ := hs
  exact ⟨rs, ht.schema, ht.tiles, ht.room, ht.fits, ht.indexed⟩

theorem Sound.capRecords (hs : Sound sc s) (n : Nat) : Sound sc { s with capRecords := n } := by
  obtain ⟨rs, ht⟩ := hs
  exact ⟨rs, ht.schema, ht.tiles, ht.room, ht.fits, ht.indexed⟩

theorem sound_sdbInitEmpty {path : Name} {n : Nat} {m : Heap} (hs : sdbInitEmpty sc path n m = some s) :
    Sound sc s := by
  obtain ⟨rs, ht, -⟩ := (refines_sdbInitEmpty hs).1
  exact ⟨rs, ht⟩

section Full

variable (h : Laid sc)
include h

theorem tiled_appendRecord_full (ht : Tiled sc s rs) {image : List UInt8} (hfull : (appendRecord s key image a).2 = false) :
    Tiled sc (appendRecord s key image a).1 (live rs) := by
  rw [appendRecord] at hfull ⊢
  simp only at hfull ⊢
  by_cases hroom : (makeRoom s image.length a).2 = true
  · rw [if_pos hroom] at hfull
    cases hfull
  · rw [if_neg hroom, makeRoom]
    rw [makeRoom] at hroom
    cases he : ensureCap s (s.used + image.length) a with
    | some t =>
      rw [he] at hroom
      exact absurd rfl hroom
    | none => exact tiled_reclaimForAppend h ht image.length a

theorem lists_appendRecord_full (ht : Tiled sc s rs) {image : List UInt8} (hfull : (appendRecord s key image a).2 = false) :
    Lists sc (appendRecord s key image a).1 (pairs rs) :=
  ⟨live rs, tiled_appendRecord_full h ht hfull, by rw [pairs, live_live, pairs]⟩

theorem sound_storeField {field val : Name} {fd : Field} {off : Nat} (hs : Sound sc s) (hoff : findRec s key = some off)
    (hfd : sc.find field = some fd) (htext : fd.kind = .text → val.length ≤ 65535) : Sound sc (storeField s off fd val a).1 := by
  obtain ⟨rs, ht⟩ := hs
  by_cases hok : (storeField s off fd val a).2 = true
  · obtain ⟨X, v, Y, l, -, hl, -⟩ := lists_storeField h ht hoff hfd htext hok
    exact sound_of_lists hl
  · -- only the append of a rebuilt record can fail
    obtain ⟨A, r, B, rfl, rfl, hr, rfl⟩ := lookup_split ht hoff
    by_cases hk : fd.kind = .text
    · simp only [storeField, hk, Bool.not_eq_true] at hok ⊢
      rw [storeText_eq h ht] at hok ⊢
      split at hok
      · cases hok
      next hsame =>
        rw [if_neg hsame]
        split at hok
        · cases hok
        next hsize =>
          rw [if_neg hsize]
          exact (sound_of_lists (lists_appendRecord_full h (tiled_bury h ht hr) hok)).dirty true
    · rcases fd with ⟨name, kind, off, width⟩
      cases kind <;> first | exact absurd rfl hk | exact absurd rfl hok

end Full

section Trim

variable (h : Laid sc)
include h

theorem tiled_foldl_bury {hs : Nat} (hhs : hs = sc.hdrSize) (n : Nat) (ht : Tiled sc s (A ++ B)) : ∃ B', Tiled sc
      ((((liveSpans (fileHdr + (arena A).length) B).map fun p => (p.1, p.2.image.length)).take n).foldl
        (fun t r => { t with
          block := tombstone t.block r.1
          index := t.index.erase (keyAt hs t.block r.1) }) s)
      (A ++ B') ∧ live B' = (live B).drop n := by
  subst hhs
  induction B generalizing A s n with
  | nil => exact ⟨[], by simpa [liveSpans, spans] using ht, drop_nil.symm⟩
  | cons r B ih =>
    have hnext : ∀ q : Record sc, q.image.length = r.image.length →
        fileHdr + (arena (A ++ [q])).length = fileHdr + (arena A).length + r.image.length := by
      intro q hq
      simp [hq, Nat.add_assoc]
    have happ : ∀ q : Record sc, ∀ C, (A ++ [q]) ++ C = A ++ q :: C := by simp
    by_cases hr : r.deleted = true
    · obtain ⟨B', hB, hlive⟩ := ih n (happ r B ▸ ht)
      rw [hnext r rfl, happ] at hB
      exact ⟨r :: B', by simpa [liveSpans, spans, hr] using hB, by simpa [live, hr] using hlive⟩
    · rw [Bool.not_eq_true] at hr
      cases n with
      | zero => exact ⟨r :: B, by simpa using ht, rfl⟩
      | succ n =>
        obtain ⟨pre, hblock, hpre⟩ := ht.split
        have hkey : keyAt sc.hdrSize s.block (fileHdr + (arena A).length) = r.key := by
          rw [hblock, ← hpre, keyAt_image]
        have hbury := tiled_bury h ht hr
        have hlen : (bury h r).image.length = r.image.length := overwrite_image_length r _ _
        obtain ⟨B', hB, hlive⟩ := ih n (happ (bury h r) B ▸ hbury)
        rw [hnext (bury h r) hlen, happ] at hB
        refine ⟨bury h r :: B', ?_, by simpa [live, hr, deleted_bury h r] using hlive⟩
        have hspan : liveSpans (fileHdr + (arena A).length) (r :: B) =
            (fileHdr + (arena A).length, r) ::
              liveSpans (fileHdr + (arena A).length + r.image.length) B := by
          simp [liveSpans, spans, hr]
        rw [hspan, map_cons, take_succ_cons, foldl_cons, hkey]
        exact hB

theorem tiled_trim (ht : Tiled sc s rs) : ∃ rs', Tiled sc (trim s) rs' ∧ live rs' = (live rs).drop (overflow s) := by
  rw [trim]
  split
  next hzero => exact ⟨rs, ht, by rw [hzero, drop_zero]⟩
  next =>
    rw [compact, dropOldest, ht.liveRecords_eq h]
    obtain ⟨B, hB, hlive⟩ := tiled_foldl_bury h (congrArg Schema.hdrSize ht.schema) (overflow s) (A := []) ht
    exact ⟨live B, tiled_compactInPlace h hB, (live_live B).trans hlive⟩

theorem lists_trim (hs : Lists sc s l) : Lists sc (trim s) (l.drop (overflow s)) := by
  obtain ⟨rs, ht, rfl⟩ := hs
  obtain ⟨rs', ht', hlive⟩ := tiled_trim h ht
  exact ⟨rs', ht', by rw [pairs, hlive, pairs, map_drop]⟩

theorem sound_trim (hs : Sound sc s) : Sound sc (trim s) := by
  obtain ⟨rs, ht⟩ := hs
  exact sound_of_lists (lists_trim h ⟨rs, ht, rfl⟩)

theorem sound_sdbSetField (hs : Sound sc s) {field val : Name} {b : Heap} (hfits : Fits sc (.set key field val a b)) :
    Sound sc (sdbSetField s key field val a b).1 := by
  have hschema : s.schema = sc := hs.elim fun _ ht => ht.schema
  rw [sdbSetField, hschema]
  cases hfd : sc.find field with
  | none => exact hs
  | some fd =>
    have htext := hfits.2 fd hfd
    cases hoff : findRec s key with
    | some off => exact sound_storeField h hs hoff hfd htext
    | none =>
      have hnew : Sound sc (appendRecord s key (blankRecord sc key) a).1 := by
        by_cases hroom : (appendRecord s key (blankRecord sc key) a).2 = true
        · obtain ⟨rs, ht⟩ := hs
          exact sound_of_lists (lists_create h ht hfits.1 hoff hroom)
        · obtain ⟨rs, ht⟩ := hs
          exact sound_of_lists (lists_appendRecord_full h ht (by simpa using hroom))
      simp only
      split
      · cases hfound : findRec (trim (appendRecord s key (blankRecord sc key) a).1) key with
        | some off => exact sound_storeField h (sound_trim h hnew) hfound hfd htext
        | none => exact (sound_trim h hnew).dirty true
      · exact hnew

theorem sound_apply (hs : Sound sc s) {op : Op} (hfits : Fits sc op) : Sound sc (apply s op) := by
  cases op with
  | set key field val a b => exact sound_sdbSetField h hs hfits
  | delete key =>
    obtain ⟨rs, ht⟩ := hs
    rcases lists_delete h ⟨rs, ht, rfl⟩ key with ⟨hl, -⟩ | ⟨X, v, Y, -, hl⟩ <;> exact sound_of_lists hl
  | flush written =>
    obtain ⟨rs, ht⟩ := hs
    exact sound_of_lists (lists_flush h ⟨rs, ht, rfl⟩ written)
  | snapshot =>
    obtain ⟨rs, ht⟩ := hs
    exact sound_of_lists (lists_compact h ⟨rs, ht, rfl⟩)

end Trim

end Spangap.StoreRuns
