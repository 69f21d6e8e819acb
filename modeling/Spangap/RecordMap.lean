import Spangap.RecordEdits
import Spangap.Runs

namespace Spangap.RecordMap

open Bytes CJson Fields FieldValues RecordStore FiniteMaps Tiling Compaction RecordEdits Runs
open List Option Function

/-- What a record store is for: a finite map from record keys to the values of
the fields, by field name. -/
abbrev Table := AList fun _ : Name => (Name → Name)

/-- A record no field of which has been written. -/
def blank (sc : Schema) (n : Name) : Name :=
  match sc.find n with
  | some fd => unset fd
  | none => []

namespace Table

def set (sc : Schema) (m : Table) (key field val : Name) : Table :=
  match sc.find field with
  | none => m
  | some fd => m.insert key (update ((m.lookup key).getD (blank sc)) field (normalise fd val))

/-- A write as the store makes it, of any value. -/
def write (sc : Schema) (m : Table) (key field val : Name) : Table :=
  match sc.find field with
  | none => m
  | some fd => m.insert key (update ((m.lookup key).getD (blank sc)) field (stored fd val))

def get (sc : Schema) (m : Table) (key field : Name) : Option Name :=
  (m.lookup key).bind fun v => (sc.find field).map fun _ => v field

def report (sc : Schema) (e : Name × (Name → Name)) : List (Name × Name × Name) :=
  sc.fields.filterMap fun fd =>
    ((some (e.2 fd.name)).filter (reported fd)).map fun v => (e.1, fd.name, v)

def forEach (sc : Schema) (m : Table) : List (Name × Name × Name) :=
  (m.entries.map fun e => (e.1, e.2)).flatMap (report sc)

def step (sc : Schema) (m : Table) : Op → Table
  | .set key field val _ _ => m.set sc key field val
  | .delete key => m.erase key
  | .flush _ => m
  | .snapshot => m

end Table

/-- The store and the map answer every question alike. The callback order is
the order of the arena, which the map does not have. -/
structure Answers (sc : Schema) (s : Store) (m : Table) : Prop where
  has : ∀ key, sdbHasRecord s key = (m.lookup key).isSome
  get : ∀ key field, sdbGetField s key field = m.get sc key field
  count : sdbRecordCount s = m.keys.length
  each : (sdbForEach s).Perm (m.forEach sc)

/-- Values are C strings, and keys and texts fit their two-byte lengths. -/
def Sized (sc : Schema) : Op → Prop
  | .set key field val _ _ =>
    key.length ≤ 65535 ∧ 0 ∉ val ∧ ∀ fd, sc.find field = some fd → fd.kind = .text → val.length ≤ 65535
  | _ => True

/-- Data given with a digit for each nibble is given in hex. -/
def Hexed (sc : Schema) : Op → Prop
  | .set _ field val _ _ => ∀ fd, sc.find field = some fd → Decodable fd val
  | _ => True

instance (sc : Schema) : DecidablePred (Sized sc)
  | .set _ field _ _ _ =>
    inferInstanceAs (Decidable (_ ∧ _ ∧ ∀ fd, sc.find field = some fd → _))
  | .delete _ | .flush _ | .snapshot => .isTrue trivial

instance (sc : Schema) : DecidablePred (Hexed sc)
  | .set _ field _ _ _ => inferInstanceAs (Decidable (∀ fd, sc.find field = some fd → _))
  | .delete _ | .flush _ | .snapshot => .isTrue trivial

variable {sc : Schema} {s : Store} {rs A B : List (Record sc)} {m : Table}

def pairs (rs : List (Record sc)) : List (Name × (Name → Name)) := (live rs).map fun r => (r.key, values r)

theorem pairs_append (A B : List (Record sc)) : pairs (A ++ B) = pairs A ++ pairs B := by
  simp [pairs, live_append]

theorem pairs_cons {r : Record sc} (hr : r.deleted = false) (B : List (Record sc)) :
    pairs (r :: B) = (r.key, values r) :: pairs B := by
  rw [pairs, live_cons, hr]
  rfl

theorem pairs_cons_deleted {r : Record sc} (hr : r.deleted = true) (B : List (Record sc)) :
    pairs (r :: B) = pairs B := by
  rw [pairs, live_cons, hr]
  rfl

theorem map_fst_pairs (rs : List (Record sc)) : (pairs rs).map Prod.fst = (live rs).map Record.key := by
  rw [pairs, List.map_map]
  rfl

/-- What a callback gets of a record. -/
def reports (r : Record sc) : List (Name × Name × Name) :=
  sc.fields.filterMap fun fd => ((fieldOf fd r.hdr r.texts).filter (reported fd)).map fun v => (r.key, fd.name, v)

section Answers

variable (h : Laid sc) (ht : Tiled sc s rs) (hm : Represents m (pairs rs))
include ht hm

theorem answers_has (key : Name) : sdbHasRecord s key = (m.lookup key).isSome := by
  rw [Bool.eq_iff_iff, sdbHasRecord, ht.indexed.lookup_isSome, hm.lookup_isSome, map_fst_entries, map_fst_pairs]

theorem answers_count : sdbRecordCount s = m.keys.length := by
  rw [sdbRecordCount, ht.indexed.length_keys, hm.length_keys, pairs, entries, length_map, length_map,
    ← map_snd_liveSpans fileHdr rs, length_map]

omit hm in
theorem lookup_split {key : Name} {off : Nat} (hoff : s.index.lookup key = some off) :
    ∃ A r B, rs = A ++ r :: B ∧ off = fileHdr + (arena A).length ∧ r.deleted = false ∧ r.key = key :=
  mem_entries ((ht.indexed.lookup key off).mp hoff)

omit ht in
theorem lookup_values {r : Record sc} (hrs : rs = A ++ r :: B) (hr : r.deleted = false) :
    m.lookup r.key = some (values r) := by
  rw [hm.lookup, hrs, pairs_append, pairs_cons hr]
  simp

include h in
theorem answers_get (key field : Name) : sdbGetField s key field = m.get sc key field := by
  rw [sdbGetField, findRec, Table.get]
  cases hoff : s.index.lookup key with
  | none =>
    have hnone : m.lookup key = none := by
      have := answers_has ht hm key
      rw [sdbHasRecord, hoff] at this
      simpa using this.symm
    rw [hnone]
    rfl
  | some off =>
    obtain ⟨A, r, B, hrs, rfl, hr, rfl⟩ := lookup_split ht hoff
    obtain ⟨pre, hblock, hpre⟩ := (hrs ▸ ht : Tiled sc s (A ++ r :: B)).split
    rw [lookup_values hm hrs hr, bind_some, bind_some, ht.schema]
    cases hfd : sc.find field with
    | none => rfl
    | some fd =>
      rw [bind_some, ← hpre, readRecordText_image r pre (arena B) ht.schema hblock, hblock,
        fieldOf_image h r pre (arena B) (mem_of_find hfd).1, fieldOf_values h r hfd]
      rfl

omit hm in
include h in
theorem sdbForEach_live : sdbForEach s = (live rs).flatMap reports := by
  rw [sdbForEach, ht.liveRecords_eq h, ← map_snd_liveSpans fileHdr rs, List.flatMap_map, List.flatMap_map]
  refine flatMap_congr ?_
  rintro ⟨off, r⟩ hp
  obtain ⟨A, B, hrs, rfl⟩ := mem_spans (mem_filter.mp hp).1
  obtain ⟨pre, hblock, hpre⟩ := (hrs ▸ ht : Tiled sc s (A ++ r :: B)).split
  simp only [← hpre, readRecordText_image r pre (arena B) ht.schema hblock, ht.schema]
  refine filterMap_congr ?_
  intro fd hfd
  rw [hblock, fieldOf_image h r pre (arena B) hfd]

omit hm in
include h in
theorem sdbForEach_eq (hnames : (sc.fields.map Field.name).Nodup) : sdbForEach s = (pairs rs).flatMap (Table.report sc) := by
  rw [sdbForEach_live h ht, pairs, List.flatMap_map]
  refine flatMap_congr fun r _ => filterMap_congr fun fd hfd => ?_
  rw [fieldOf_values h r (find_of_mem hnames hfd)]

include h in
theorem answers_each (hnames : (sc.fields.map Field.name).Nodup) : (sdbForEach s).Perm (m.forEach sc) := by
  rw [sdbForEach_eq h ht hnames, Table.forEach]
  exact (hm.perm.symm.flatMap_right _)

include h in
theorem answers (hnames : (sc.fields.map Field.name).Nodup) : Answers sc s m :=
  ⟨answers_has ht hm, answers_get h ht hm, answers_count ht hm, answers_each h ht hm hnames⟩

end Answers

def Refines (sc : Schema) (s : Store) (m : Table) : Prop :=
  ∃ rs, Tiled sc s rs ∧ Represents m (pairs rs)

/-- The store holds the records of a list, in the order of the arena. -/
def Lists (sc : Schema) (s : Store) (l : List (Name × (Name → Name))) : Prop := ∃ rs, Tiled sc s rs ∧ pairs rs = l

/-- A record has new values, in its place or at the end. -/
def Placed {α : Type} (X Y : List α) (e : α) (l : List α) : Prop := l = X ++ e :: Y ∨ l = X ++ Y ++ [e]

section Write

variable (h : Laid sc) {r : Record sc} {key field val : Name} {fd : Field} {a : Heap}

theorem lists_replace {q : Record sc} {t : Store} {v : Name → Name} (hkey : q.key = r.key) (hq : q.deleted = false)
    (hv : values q = v) (ht : Tiled sc t (A ++ q :: B)) : Lists sc t (pairs A ++ (r.key, v) :: pairs B) := by
  refine ⟨A ++ q :: B, ht, ?_⟩
  rw [pairs_append, pairs_cons hq, hkey, hv]

include h

theorem lists_storeFixed (ht : Tiled sc s (A ++ r :: B)) (hr : r.deleted = false) (hfd : sc.find field = some fd)
    (hk : fd.kind ≠ .text) :
    Lists sc
      { s with
        block := storeFixed fd s.block (fileHdr + (arena A).length + fd.off) val
        dirty := true }
      (pairs A ++ (r.key, update (values r) field (stored fd val)) :: pairs B) := by
  obtain ⟨hmem, -⟩ := mem_of_find hfd
  obtain ⟨hoff, hfit⟩ := h.fixed fd hmem hk
  have h8 : 8 ≤ fd.off := hoff
  have hslot : fd.off + (slotBytes fd val).length ≤ sc.hdrSize := by
    rw [slotBytes_length (h.fixstr fd hmem)]
    exact hfit
  have hp : 4 ≤ fd.off := by omega
  refine lists_replace (q := overwrite r fd.off (slotBytes fd val) hp hslot) rfl
    ((overwrite_deleted r hp hslot h8).trans hr) (values_overwrite h hfd hk hp hslot) ?_
  refine tiled_replace ht (overwrite_image_length r hp hslot) rfl (overwrite_deleted r hp hslot h8) true ?_
  intro pre hpre hblock
  have hsize := r.hdrSize_le_image
  rw [storeFixed_eq hk (h.fixstr fd hmem), hblock, ← hpre, poke_arena r hp hslot]
  rw [hblock, length_append, length_append, hpre]
  omega

theorem exists_retext (r : Record sc) (hfd : sc.find field = some fd) (hk : fd.kind = .text)
    (hval : val.length ≤ 65535)
    (hsize : (buildRecord r.hdr r.key (r.texts.set fd.off val)).length < 4294967296) :
    ∃ q : Record sc, q.image = buildRecord r.hdr r.key (r.texts.set fd.off val) ∧ q.key = r.key ∧
      q.deleted = r.deleted ∧ values q = update (values r) field (stored fd val) := by
  have hcount : (r.texts.set fd.off val).length = sc.textCount := by
    rw [length_set, r.texts_length]
  have htext : ∀ t ∈ r.texts.set fd.off val, t.length < 65536 := by
    intro t htm
    rcases mem_or_eq_of_mem_set htm with htm | rfl
    · exact r.text_length t htm
    · omega
  refine ⟨built h r.hdr_length r.key_length hcount htext hsize, built_image h _ _ _ _ hsize, rfl,
    built_deleted h _ _ _ _ hsize, ?_⟩
  exact values_retext h hfd hk rfl fun g hg => fieldOf_built h _ _ _ _ hsize hg

theorem storeText_eq (ht : Tiled sc s (A ++ r :: B)) (fd : Field) (val : Name) (a : Heap) :
    storeText s (fileHdr + (arena A).length) fd val a =
      if r.texts[fd.off]? = some val then (s, true)
      else if (buildRecord r.hdr r.key (r.texts.set fd.off val)).length = r.image.length then
        ({ s with
            block := poke s.block (fileHdr + (arena A).length)
              (buildRecord r.hdr r.key (r.texts.set fd.off val))
            dirty := true }, true)
      else
        let p := appendRecord
          { s with
            block := tombstone s.block (fileHdr + (arena A).length)
            index := s.index.erase r.key }
          r.key (buildRecord r.hdr r.key (r.texts.set fd.off val)) a
        ({ p.1 with dirty := true }, p.2) := by
  obtain ⟨pre, hblock, hpre⟩ := ht.split
  have hread : readRecordText s (fileHdr + (arena A).length) = (r.key, r.texts) := by
    rw [← hpre, readRecordText_image r pre (arena B) ht.schema hblock]
  have hlen : rdU32 s.block (fileHdr + (arena A).length) = r.image.length := by
    rw [← hpre, hblock, rdU32_image h]
  have hhdr : slice s.block (fileHdr + (arena A).length) s.schema.hdrSize = r.hdr := by
    have hslice := slice_image r pre (arena B) (k := 0) (n := sc.hdrSize) (by omega)
    rw [Nat.add_zero] at hslice
    rw [ht.schema, ← hpre, hblock, hslice, slice, drop_zero, ← r.hdr_length, take_length]
  unfold storeText
  simp only [hread, hhdr, hlen]

theorem lists_storeText (ht : Tiled sc s (A ++ r :: B)) (hr : r.deleted = false) (hfd : sc.find field = some fd)
    (hk : fd.kind = .text) (hval : val.length ≤ 65535)
    (hok : (storeText s (fileHdr + (arena A).length) fd val a).2 = true) :
    ∃ l, Lists sc (storeText s (fileHdr + (arena A).length) fd val a).1 l ∧
      Placed (pairs A) (pairs B) (r.key, update (values r) field (stored fd val)) l := by
  obtain ⟨hmem, hname⟩ := mem_of_find hfd
  rw [storeText_eq h ht] at hok ⊢
  by_cases hsame : r.texts[fd.off]? = some val
  · rw [if_pos hsame]
    have hkeep : update (values r) field (stored fd val) = values r := by
      have hv := fieldOf_values h r hfd
      rw [fieldOf_text hk, hsame, some_inj] at hv
      rw [stored, if_pos hk, update_eq_self_iff]
      exact hv
    exact ⟨_, lists_replace rfl hr hkeep.symm ht, .inl rfl⟩
  rw [if_neg hsame] at hok ⊢
  by_cases hfits : (buildRecord r.hdr r.key (r.texts.set fd.off val)).length = r.image.length
  · obtain ⟨pre, hblock, hpre⟩ := ht.split
    have hsize : (buildRecord r.hdr r.key (r.texts.set fd.off val)).length < 4294967296 := by
      have hroom := ht.room
      have hfit := ht.fits
      rw [Store.used, hblock, length_append, length_append] at hroom
      omega
    obtain ⟨q, himage, hkey, hdel, hv⟩ := exists_retext h r hfd hk hval hsize
    rw [if_pos hfits]
    refine ⟨_, lists_replace hkey (hdel.trans hr) hv ?_, .inl rfl⟩
    refine tiled_replace ht (by rw [himage, hfits]) hkey hdel true ?_
    intro pre hpre hblock
    have hpoke := poke_middle (a := pre) (k := 0) (b := q.image) r.image (arena B) (by rw [himage]; omega)
    rw [Nat.add_zero, hpre] at hpoke
    rw [hblock, ← himage, hpoke, poke, take_zero, Nat.zero_add, himage, hfits, drop_length,
      nil_append, append_nil]
  · rw [if_neg hfits] at hok ⊢
    have hbury := tiled_bury h ht hr
    have hsize := length_of_appendRecord h hbury hok
    obtain ⟨q, himage, hkey, hdel, hv⟩ := exists_retext h r hfd hk hval hsize
    have hp : pairs (A ++ bury h r :: B) = pairs A ++ pairs B := by
      rw [pairs_append, pairs_cons_deleted (deleted_bury h r)]
    have hfresh : r.key ∉ (live (A ++ bury h r :: B)).map Record.key := by
      have hkeys := ht.nodup_keys
      rw [← map_fst_pairs, pairs_append, pairs_cons hr] at hkeys
      rw [← map_fst_pairs, hp]
      exact notMem_of_nodup_middle hkeys
    obtain ⟨rs', ht', hrs'⟩ := tiled_appendRecord h hbury hkey himage (hdel.trans hr) hfresh hok
    refine ⟨_, ⟨rs' ++ [q], { ht' with }, rfl⟩, .inr ?_⟩
    rw [pairs_append, pairs, hrs', ← pairs, hp, pairs_cons (hdel.trans hr), hv, hkey]
    rfl

theorem lists_storeField (ht : Tiled sc s rs) {off : Nat} (hoff : findRec s key = some off) (hfd : sc.find field = some fd)
    (htext : fd.kind = .text → val.length ≤ 65535) (hok : (storeField s off fd val a).2 = true) :
    ∃ X v Y l, pairs rs = X ++ (key, v) :: Y ∧ Lists sc (storeField s off fd val a).1 l ∧
      Placed X Y (key, update v field (stored fd val)) l := by
  obtain ⟨A, r, B, rfl, rfl, hr, rfl⟩ := lookup_split ht hoff
  have hsplit : pairs (A ++ r :: B) = pairs A ++ (r.key, values r) :: pairs B := by rw [pairs_append, pairs_cons hr]
  by_cases hk : fd.kind = .text
  · simp only [storeField, hk] at hok ⊢
    obtain ⟨l, hl, hplaced⟩ := lists_storeText h ht hr hfd hk (htext hk) hok
    exact ⟨_, _, _, l, hsplit, hl, hplaced⟩
  · have hfixed : storeField s (fileHdr + (arena A).length) fd val a =
        ({ s with
            block := storeFixed fd s.block (fileHdr + (arena A).length + fd.off) val
            dirty := true }, true) := by
      rcases fd with ⟨name, kind, off, width⟩
      cases kind <;> first | rfl | exact absurd rfl hk
    rw [hfixed]
    exact ⟨_, _, _, _, hsplit, lists_storeFixed h ht hr hfd hk, .inl rfl⟩

theorem refines_storeField (hs : Refines sc s m) {off : Nat} (hoff : findRec s key = some off)
    (hfd : sc.find field = some fd) (htext : fd.kind = .text → val.length ≤ 65535)
    (hok : (storeField s off fd val a).2 = true) :
    Refines sc (storeField s off fd val a).1 (m.write sc key field val) := by
  obtain ⟨rs, ht, hm⟩ := hs
  obtain ⟨X, v, Y, l, hsplit, ⟨rs', ht', rfl⟩, hplaced⟩ := lists_storeField h ht hoff hfd htext hok
  rw [hsplit] at hm
  have hlookup : m.lookup key = some v := (hm.lookup key v).mpr (by simp)
  simp only [Table.write, hfd, hlookup, getD_some]
  refine ⟨rs', ht', (hm.insert_replace _).of_perm ?_⟩
  rcases hplaced with hl | hl
  · rw [hl]
  · rw [hl, append_assoc]
    exact List.Perm.append_left _ (perm_append_singleton _ _).symm

theorem fieldOf_zeros {fd : Field} (hfd : fd ∈ sc.fields) :
    fieldOf fd (replicate sc.hdrSize 0) (replicate sc.textCount []) = some (unset fd) := by
  by_cases hk : fd.kind = .text
  · rw [fieldOf_text hk, getElem?_replicate_of_lt (h.ranked fd hfd hk), unset, hk]
  · have hfit := (h.fixed fd hfd hk).2
    have hzero : slice (replicate sc.hdrSize (0 : UInt8)) fd.off fd.extent =
        replicate fd.extent 0 := by
      rw [slice, drop_replicate, take_replicate, Nat.min_eq_left (by omega)]
    rw [fieldOf_fixed hk, hzero, slotValue_zeros hk]

abbrev blankRecord (sc : Schema) (key : Name) : List UInt8 :=
  buildRecord (replicate sc.hdrSize 0) key (replicate sc.textCount [])

theorem exists_blank {key : Name} (hkey : key.length ≤ 65535)
    (hsize : (blankRecord sc key).length < 4294967296) :
    ∃ q : Record sc, q.image = blankRecord sc key ∧ q.key = key ∧ q.deleted = false ∧ values q = blank sc := by
  have hb : 8 ≤ sc.hdrSize := h.builtin
  have htext : ∀ t ∈ replicate sc.textCount ([] : Name), t.length < 65536 := by
    intro t ht
    rw [eq_of_mem_replicate ht]
    decide
  have hhdr : (replicate sc.hdrSize (0 : UInt8)).length = sc.hdrSize := length_replicate
  have hcount : (replicate sc.textCount ([] : Name)).length = sc.textCount := length_replicate
  have hkey' : key.length < 65536 := by omega
  refine ⟨built h hhdr hkey' hcount htext hsize, built_image h _ _ _ _ hsize, rfl, ?_, ?_⟩
  · rw [built_deleted, isDeleted, flagsAt, slice, drop_replicate, take_replicate,
      Nat.min_eq_left (by rw [flagsOff]; omega)]
    decide
  · funext n
    rw [values, blank]
    cases hfd : sc.find n with
    | none => rfl
    | some fd =>
      obtain ⟨hmem, -⟩ := mem_of_find hfd
      exact congrArg (Option.getD · [])
        ((fieldOf_built h hhdr hkey' hcount htext hsize hmem).trans (fieldOf_zeros h hmem))

theorem lists_create (ht : Tiled sc s rs) (hkey : key.length ≤ 65535) (hnone : findRec s key = none)
    (hok : (appendRecord s key (blankRecord sc key) a).2 = true) :
    Lists sc (appendRecord s key (blankRecord sc key) a).1 (pairs rs ++ [(key, blank sc)]) := by
  obtain ⟨q, himage, hqkey, hq, hv⟩ := exists_blank h hkey (length_of_appendRecord h ht hok)
  have hfresh : key ∉ (live rs).map Record.key := by
    have := ht.indexed.notMem hnone
    rwa [map_fst_entries] at this
  obtain ⟨rs', ht', hrs'⟩ := tiled_appendRecord h ht hqkey himage hq hfresh hok
  refine ⟨rs' ++ [q], ht', ?_⟩
  rw [pairs_append, pairs_cons hq, hqkey, hv, pairs, hrs', ← pairs]
  rfl

theorem refines_create (hs : Refines sc s m) (hkey : key.length ≤ 65535) (hnone : findRec s key = none)
    (hok : (appendRecord s key (blankRecord sc key) a).2 = true) :
    Refines sc (appendRecord s key (blankRecord sc key) a).1 (m.insert key (blank sc)) := by
  obtain ⟨rs, ht, hm⟩ := hs
  obtain ⟨rs', ht', hrs'⟩ := lists_create h ht hkey hnone hok
  refine ⟨rs', ht', hrs' ▸ hm.insert_fresh ?_ _⟩
  rw [map_fst_pairs, ← map_fst_entries fileHdr]
  exact ht.indexed.notMem hnone

end Write

theorem makeRoom_capRecords (s : Store) (n : Nat) (a : Heap) : (makeRoom s n a).1.capRecords = s.capRecords := by
  rw [makeRoom]
  cases he : ensureCap s (s.used + n) a with
  | some t =>
    obtain ⟨cap, rfl, -⟩ := ensureCap_spec he
    rfl
  | none =>
    simp only [reclaimForAppend]
    split <;> rfl

theorem appendRecord_capRecords (s : Store) (key : Name) (image : List UInt8) (a : Heap) :
    (appendRecord s key image a).1.capRecords = s.capRecords := by
  simp only [appendRecord]
  split <;> exact makeRoom_capRecords s image.length a

theorem storeField_capRecords (s : Store) (off : Nat) (fd : Field) (val : Name) (a : Heap) :
    (storeField s off fd val a).1.capRecords = s.capRecords := by
  rcases fd with ⟨name, kind, o, width⟩
  cases kind with
  | text =>
    simp only [storeField, storeText]
    split
    · rfl
    · split
      · rfl
      · exact appendRecord_capRecords _ _ _ a
  | _ => rfl

theorem trim_eq (hcap : s.capRecords = 0) : trim s = s := by
  have hzero : overflow s = 0 := by simp [overflow, hcap]
  rw [trim, if_pos hzero]

theorem trim_capRecords (s : Store) : (trim s).capRecords = s.capRecords := by
  have hdrop : ∀ (f : Store → Nat × Nat → Store) (l : List (Nat × Nat)) (u : Store),
      (∀ u r, (f u r).capRecords = u.capRecords) → (l.foldl f u).capRecords = u.capRecords := by
    intro f l u hf
    induction l generalizing u with
    | nil => rfl
    | cons r l ih => exact (ih (f u r)).trans (hf u r)
  rw [trim]
  split
  · rfl
  · exact hdrop _ _ s fun _ _ => rfl

theorem sdbSetField_capRecords (s : Store) (key field val : Name) (a b : Heap) :
    (sdbSetField s key field val a b).1.capRecords = s.capRecords := by
  have happ := appendRecord_capRecords s key (blankRecord s.schema key) a
  rw [sdbSetField]
  split
  · rfl
  · split
    · exact storeField_capRecords ..
    · simp only
      split
      · split
        · rw [storeField_capRecords, trim_capRecords, happ]
        · exact (trim_capRecords _).trans happ
      · exact happ

theorem step_capRecords {t : Store} {op : Op} (hstep : step s op = some t) : t.capRecords = s.capRecords := by
  cases op with
  | set key field val a b =>
    simp only [step, ite_none_right_eq_some, some_inj] at hstep
    rw [← hstep.2]
    exact sdbSetField_capRecords s key field val a b
  | delete key =>
    cases hstep
    rw [sdbDeleteRecord]
    split <;> rfl
  | flush written =>
    cases hstep
    rw [sdbFlush]
    split <;> rfl
  | snapshot =>
    cases hstep
    rfl

section Step

variable (h : Laid sc) {l : List (Name × (Name → Name))}
include h

theorem lists_compact (hs : Lists sc s l) : Lists sc (compact s 0) l := by
  obtain ⟨rs, ht, rfl⟩ := hs
  refine ⟨live rs, tiled_compactInPlace h ht, ?_⟩
  rw [pairs, live_live, pairs]

omit h in
theorem Lists.dirty (hs : Lists sc s l) (d : Bool) : Lists sc { s with dirty := d } l := by
  obtain ⟨rs, ht, hl⟩ := hs
  exact ⟨rs, { ht with }, hl⟩

/-- A flush and a snapshot drop the tombstones. -/
theorem lists_flush (hs : Lists sc s l) (written : Bool) : Lists sc (sdbFlush s written) l := by
  rw [sdbFlush]
  split
  · exact hs.dirty false
  · exact (lists_compact h hs).dirty _

theorem lists_delete (hs : Lists sc s l) (key : Name) :
    Lists sc (sdbDeleteRecord s key) l ∧ key ∉ l.map Prod.fst ∨
      ∃ X v Y, l = X ++ (key, v) :: Y ∧ Lists sc (sdbDeleteRecord s key) (X ++ Y) := by
  obtain ⟨rs, ht, rfl⟩ := hs
  rw [sdbDeleteRecord]
  cases hoff : findRec s key with
  | none =>
    refine .inl ⟨⟨rs, ht, rfl⟩, ?_⟩
    rw [map_fst_pairs, ← map_fst_entries fileHdr]
    exact ht.indexed.notMem hoff
  | some off =>
    obtain ⟨A, r, B, rfl, rfl, hr, rfl⟩ := lookup_split ht hoff
    refine .inr ⟨pairs A, values r, pairs B, by rw [pairs_append, pairs_cons hr], ?_⟩
    refine Lists.dirty (s := { s with
      block := tombstone s.block (fileHdr + (arena A).length)
      index := s.index.erase r.key }) ⟨_, tiled_bury h ht hr, ?_⟩ true
    rw [pairs_append, pairs_cons_deleted (deleted_bury h r)]

omit h in
theorem refines_of_lists {t : Store} (hs : Refines sc s m) (ht : ∀ l, Lists sc s l → Lists sc t l) : Refines sc t m := by
  obtain ⟨rs, htiled, hm⟩ := hs
  obtain ⟨rs', ht', hl⟩ := ht _ ⟨rs, htiled, rfl⟩
  exact ⟨rs', ht', hl ▸ hm⟩

theorem refines_delete (hs : Refines sc s m) (key : Name) :
    Refines sc (sdbDeleteRecord s key) (m.erase key) := by
  obtain ⟨rs, ht, hm⟩ := hs
  rcases lists_delete h ⟨rs, ht, rfl⟩ key with ⟨⟨rs', ht', hl⟩, hnone⟩ | ⟨X, v, Y, hl, rs', ht', hl'⟩
  · have hnot : key ∉ m := by rwa [← AList.lookup_isSome, hm.lookup_isSome]
    have herase : m.erase key = m := AList.ext (kerase_of_notMem_keys hnot)
    exact ⟨rs', ht', by rwa [herase, hl]⟩
  · rw [hl] at hm
    exact ⟨rs', ht', hl' ▸ hm.erase⟩

theorem refines_write (hs : Refines sc s m) (hcap : s.capRecords = 0) {key field val : Name} {a b : Heap}
    (hkey : key.length ≤ 65535)
    (hval : ∀ fd, sc.find field = some fd → fd.kind = .text → val.length ≤ 65535)
    (hok : (sdbSetField s key field val a b).2 = true) :
    Refines sc (sdbSetField s key field val a b).1 (m.write sc key field val) := by
  have hschema : s.schema = sc := hs.elim fun _ hrs => hrs.1.schema
  rw [sdbSetField, hschema] at hok ⊢
  cases hfd : sc.find field with
  | none => simpa only [Table.write, hfd] using hs
  | some fd =>
    have htext := hval fd hfd
    simp only [hfd] at hok ⊢
    cases hoff : findRec s key with
    | some off =>
      simp only [hoff] at hok ⊢
      exact refines_storeField h hs hoff hfd htext hok
    | none =>
      simp only [hoff] at hok ⊢
      have happ := (appendRecord_capRecords s key (blankRecord sc key) a).trans hcap
      have hroom : (appendRecord s key (blankRecord sc key) a).2 = true := by
        by_contra hfull
        rw [Bool.not_eq_true] at hfull
        rw [hfull, Bool.false_and, if_neg Bool.false_ne_true] at hok
        rw [hfull] at hok
        cases hok
      have hnew := refines_create h hs hkey hoff hroom
      rw [trim_eq happ] at hok ⊢
      generalize appendRecord s key (blankRecord sc key) a = p at hok hroom hnew ⊢
      obtain ⟨off, hfound⟩ : ∃ off, findRec p.1 key = some off := by
        obtain ⟨rs, ht, hm⟩ := hnew
        have hhas := answers_has ht hm key
        rw [AList.lookup_insert] at hhas
        exact isSome_iff_exists.mp hhas
      simp only [hroom, hfound, isSome_some, Bool.and_self, if_true] at hok ⊢
      have hset := refines_storeField h hnew hfound hfd htext hok
      have hmap : Table.write sc (m.insert key (blank sc)) key field val = m.write sc key field val := by
        obtain ⟨rs, ht, hm⟩ := hs
        have hhas := answers_has ht hm key
        have hlookup : m.lookup key = none := by
          rw [sdbHasRecord, show s.index.lookup key = none from hoff] at hhas
          simpa using hhas.symm
        simp [Table.write, hfd, hlookup]
      rwa [hmap] at hset

omit h in
theorem write_eq_set {key field val : Name} {a b : Heap} (hsized : Sized sc (.set key field val a b))
    (hhex : Hexed sc (.set key field val a b)) : m.write sc key field val = m.set sc key field val := by
  rw [Table.write, Table.set]
  cases hfd : sc.find field with
  | none => rfl
  | some fd => simp only [stored_eq_normalise hsized.2.1 (hhex fd hfd)]

theorem refines_step (hs : Refines sc s m) (hcap : s.capRecords = 0) {t : Store} {op : Op}
    (hsized : Sized sc op) (hhex : Hexed sc op) (hstep : step s op = some t) : Refines sc t (m.step sc op) := by
  cases op with
  | set key field val a b =>
    simp only [step, ite_none_right_eq_some, some_inj] at hstep
    rw [← hstep.2]
    rw [Table.step, ← write_eq_set hsized hhex]
    exact refines_write h hs hcap hsized.1 hsized.2.2 hstep.1
  | delete key =>
    cases hstep
    exact refines_delete h hs key
  | flush written =>
    cases hstep
    exact refines_of_lists hs fun _ hl => lists_flush h hl written
  | snapshot =>
    cases hstep
    exact refines_of_lists hs fun _ hl => lists_compact h hl

theorem refines_run (hs : Refines sc s m) (hcap : s.capRecords = 0) {t : Store} {ops : List Op}
    (hsized : ∀ op ∈ ops, Sized sc op) (hhex : ∀ op ∈ ops, Hexed sc op) (hrun : run step s ops = some t) :
    Refines sc t (ops.foldl (Table.step sc) m) := by
  induction ops generalizing s m with
  | nil =>
    cases hrun
    exact hs
  | cons op ops ih =>
    obtain ⟨u, hu, hrest⟩ := (run_cons step s t op ops).mp hrun
    have hnext := refines_step h hs hcap (hsized op mem_cons_self) (hhex op mem_cons_self) hu
    exact ih hnext ((step_capRecords hu).trans hcap) (fun o ho => hsized o (mem_cons_of_mem op ho))
      (fun o ho => hhex o (mem_cons_of_mem op ho)) hrest

omit h in
theorem refines_sdbInitEmpty {path : Name} {n : Nat} {a : Heap} (hs : sdbInitEmpty sc path n a = some s) :
    Refines sc s ∅ ∧ s.capRecords = n := by
  obtain ⟨u, hu, rfl⟩ := map_eq_some_iff.mp hs
  obtain ⟨cap, rfl, hneed, hcap⟩ := ensureCap_spec hu
  refine ⟨⟨[], ⟨rfl, ⟨fileHeader sc 0, fileHeader_length sc 0, ?_⟩, ?_, ?_, ?_⟩, ?_⟩, rfl⟩
  · simp
  · simpa [Store.used, fileHeader_length] using hneed
  · rcases hcap with rfl | hcap
    · simp [fileHdr] at hneed
    · exact hcap.2
  · exact represents_empty
  · exact represents_empty

end Step

/-- A record store without a record cap is a finite map: after any run of its
operations, with compactions and reclaims wherever the heap makes them, it
answers as the map does and its arena is tiled by records the index points at. -/
theorem recordStore_refines {ds : List Decl} (hds : Declared ds) (hnames : (ds.map Decl.name).Nodup)
    (hfew : ds.countP Decl.isText < 65536) (schemaId schemaVer : Nat) (path : Name) (a : Heap) {s t : Store} {ops : List Op}
    (hinit : sdbInitEmpty (build schemaId schemaVer ds) path 0 a = some s)
    (hsized : ∀ op ∈ ops, Sized (build schemaId schemaVer ds) op)
    (hhex : ∀ op ∈ ops, Hexed (build schemaId schemaVer ds) op) (hrun : run step s ops = some t) :
    Answers (build schemaId schemaVer ds) t (ops.foldl (Table.step (build schemaId schemaVer ds)) ∅) ∧
      ∃ rs, Tiled (build schemaId schemaVer ds) t rs := by
  have h := laid_build hds hfew schemaId schemaVer
  obtain ⟨hstart, hcap⟩ := refines_sdbInitEmpty hinit
  obtain ⟨rs, ht, hm⟩ := refines_run h hstart hcap hsized hhex hrun
  have hall := names_foldl_declare ⟨schemaId, schemaVer, hdrBuiltin, []⟩ ds
  rw [map_nil, nil_append] at hall
  exact ⟨answers h ht hm (by rwa [build, hall]), rs, ht⟩

def contacts : List Decl :=
  [.u8 (lit "hops"), .u32 (lit "seen"), .fixstr (lit "tag") 4, .data (lit "hash") 2, .text (lit "name")]

def plenty : Heap := ⟨true, true, true⟩

def tight : Heap := ⟨false, false, false⟩

/-- Two records of which one is dropped, with texts that grow. -/
def contactOps : List Op :=
  [.set (lit "a") (lit "hash") (lit "AB01") plenty plenty, .set (lit "b") (lit "hops") (lit "258") plenty plenty,
    .set (lit "a") (lit "name") (lit "anna") plenty tight, .set (lit "a") (lit "tag") (lit "first") plenty plenty,
    .delete (lit "b"), .snapshot, .set (lit "a") (lit "name") (lit "annabel") tight tight, .flush true]

theorem contacts_declared : Declared contacts where
  fixstr := by simp [contacts]
  header := by decide

theorem recordStore_refines_contacts :
    ∃ s t, sdbInitEmpty (build 1 1 contacts) (lit "c.db.gz") 0 plenty = some s ∧
      run step s contactOps = some t ∧
        Answers (build 1 1 contacts) t (contactOps.foldl (Table.step (build 1 1 contacts)) ∅) := by
  obtain ⟨s, hs⟩ := isSome_iff_exists.mp
    (show (sdbInitEmpty (build 1 1 contacts) (lit "c.db.gz") 0 plenty).isSome by decide +kernel)
  have hrun : (sdbInitEmpty (build 1 1 contacts) (lit "c.db.gz") 0 plenty).any
      fun s => (run step s contactOps).isSome := by
    decide +kernel
  rw [hs] at hrun
  obtain ⟨t, ht⟩ := isSome_iff_exists.mp hrun
  have hans := recordStore_refines contacts_declared (by decide) (by decide) 1 1 (lit "c.db.gz") plenty hs
    (by decide +kernel) (by decide +kernel) ht
  exact ⟨s, t, hs, ht, hans.1⟩

/-- Four characters for two bytes of data of which the last two are no hex
digits: the first byte stays although the value is not hex. -/
theorem data_partly_decoded :
    ∃ s t, sdbInitEmpty (build 1 1 contacts) (lit "c.db.gz") 0 plenty = some s ∧
      Declared contacts ∧ (contacts.map Decl.name).Nodup ∧
      (∀ op ∈ [Op.set (lit "a") (lit "hash") (lit "abzz") plenty plenty], Sized (build 1 1 contacts) op) ∧
      run step s [.set (lit "a") (lit "hash") (lit "abzz") plenty plenty] = some t ∧
      sdbGetField t (lit "a") (lit "hash") = some (lit "ab00") ∧
      Table.get (build 1 1 contacts)
        ([Op.set (lit "a") (lit "hash") (lit "abzz") plenty plenty].foldl (Table.step (build 1 1 contacts)) ∅)
        (lit "a") (lit "hash") = some [] := by
  obtain ⟨s, hs⟩ := isSome_iff_exists.mp
    (show (sdbInitEmpty (build 1 1 contacts) (lit "c.db.gz") 0 plenty).isSome by decide +kernel)
  have hrun : (sdbInitEmpty (build 1 1 contacts) (lit "c.db.gz") 0 plenty).any fun s =>
      (run step s [.set (lit "a") (lit "hash") (lit "abzz") plenty plenty]).any fun t =>
        sdbGetField t (lit "a") (lit "hash") = some (lit "ab00") := by
    decide +kernel
  rw [hs, Option.any_some, Option.any_eq_true] at hrun
  obtain ⟨t, ht, hget⟩ := hrun
  exact ⟨s, t, hs, contacts_declared, by decide, by decide +kernel, ht, by simpa using hget, by decide +kernel⟩

end Spangap.RecordMap
