import Spangap.StoreRuns

namespace Spangap.TextWrites

open Bytes CJson Fields FieldValues RecordStore FiniteMaps Tiling Compaction RecordEdits RecordMap StoreRuns
open List Option Function

variable {sc : Schema} {s t : Store} {key field val v : Name} {fd : Field} {a b : Heap} {off n : Nat} {r : Record sc}

/-- The field has its new value, and nothing else has changed. -/
structure Whole (sc : Schema) (s t : Store) (key field val : Name) : Prop where
  written : sdbGetField t key field = some val
  others : ∀ k f, (k, f) ≠ (key, field) → sdbGetField t k f = sdbGetField s k f
  records : ∀ k, sdbHasRecord t k = sdbHasRecord s k
  sound : Sound sc t

theorem length_readCounted (p : List UInt8) : (readCounted p).1.length < 65536 := by
  have hcount := le_lt (p.take 2)
  have hlen : (p.take 2).length ≤ 2 := length_take_le 2 p
  have hpow : 256 ^ (p.take 2).length ≤ 256 ^ 2 := Nat.pow_le_pow_right (by decide) hlen
  exact lt_of_le_of_lt (length_take_le _ _) (by omega)

theorem length_of_mem_readCounteds {p : List UInt8} (hv : v ∈ readCounteds n p) : v.length < 65536 := by
  induction n generalizing p with
  | zero => cases hv
  | succ n ih =>
    rcases mem_cons.mp hv with rfl | hv
    · exact length_readCounted p
    · exact ih hv

theorem length_text (hfd : s.schema.find field = some fd) (hk : fd.kind = .text)
    (hv : sdbGetField s key field = some v) : v.length < 65536 := by
  obtain ⟨off, -, hv⟩ := bind_eq_some_iff.mp hv
  rw [hfd, bind_some, fieldOf_text hk] at hv
  exact length_of_mem_readCounteds (mem_of_getElem? hv)

theorem makeRoom_schema (s : Store) (n : Nat) (a : Heap) : (makeRoom s n a).1.schema = s.schema := by
  rw [makeRoom]
  cases he : ensureCap s (s.used + n) a with
  | some t =>
    obtain ⟨cap, rfl, -⟩ := ensureCap_spec he
    rfl
  | none =>
    simp only [reclaimForAppend]
    split <;> rfl

theorem storeField_schema (s : Store) (off : Nat) (fd : Field) (val : Name) (a : Heap) :
    (storeField s off fd val a).1.schema = s.schema := by
  rcases fd with ⟨name, kind, o, width⟩
  cases kind with
  | text =>
    simp only [storeField, storeText, appendRecord]
    split
    · rfl
    · split
      · rfl
      · split <;> exact makeRoom_schema _ _ a
  | _ => rfl

/-- A text that a live record gets is kept whole exactly if its length fits the two bytes it is written in. -/
theorem text_whole_iff (h : Laid sc) (hs : Sound sc s) (hlive : sdbHasRecord s key = true) (hfd : sc.find field = some fd)
    (hk : fd.kind = .text) (hok : (sdbSetField s key field val a b).2 = true) :
    Whole sc s (sdbSetField s key field val a b).1 key field val ↔ val.length ≤ 65535 := by
  obtain ⟨m, hm⟩ := hs.refines
  have hschema : s.schema = sc := hs.elim fun _ ht => ht.schema
  obtain ⟨off, hoff⟩ := isSome_iff_exists.mp hlive
  have hset : sdbSetField s key field val a b = storeField s off fd val b := by
    rw [sdbSetField, hschema, hfd]
    simp only [findRec, hoff]
  rw [hset] at hok ⊢
  constructor
  · intro hwhole
    have := length_text (by rw [storeField_schema, hschema, hfd]) hk hwhole.written
    omega
  · intro hval
    obtain ⟨rs, ht, hrs⟩ := hm
    obtain ⟨rs', ht', hrs'⟩ := refines_storeField h ⟨rs, ht, hrs⟩ hoff hfd (fun _ => hval) hok
    obtain ⟨v, hv⟩ := isSome_iff_exists.mp ((answers_has ht hrs key).symm.trans hlive)
    have hwrite : m.write sc key field val = m.insert key (update v field val) := by
      simp [Table.write, hfd, hv, stored, if_pos hk]
    rw [hwrite] at hrs'
    refine ⟨?_, ?_, ?_, rs', ht'⟩
    · rw [answers_get h ht' hrs', Table.get, AList.lookup_insert, bind_some, hfd, map_some, update_self]
    · intro k f hne
      rw [answers_get h ht' hrs', answers_get h ht hrs, Table.get, Table.get]
      by_cases hkey : k = key
      · have hfield : f ≠ field := fun hf => hne (by rw [hkey, hf])
        rw [hkey, AList.lookup_insert, hv, bind_some, bind_some, update_of_ne hfield]
      · rw [AList.lookup_insert_ne hkey]
    · intro k
      rw [answers_has ht' hrs', answers_has ht hrs]
      by_cases hkey : k = key
      · rw [hkey, AList.lookup_insert, hv]
        rfl
      · rw [AList.lookup_insert_ne hkey]

section Room

variable {rs rs' A B : List (Record sc)}

/-- No room for `n` more bytes: they do not fit, the arena cannot grow, and without its tombstones they still do not fit and
no fresh block is to be had. -/
def Full (s : Store) (n : Nat) (m : Heap) : Prop :=
  s.cap < s.used + n ∧
    granted m.double (doubled (s.used + n) (if s.cap = 0 then 256 else s.cap) (s.used + n)) = false ∧
    granted m.needed (pageRound (s.used + n)) = false ∧ s.cap < liveBytes s + n ∧
    ¬(s.cap * 9 ≤ liveBytes s * 10 ∧
      granted m.fresh (pageRound (max (liveBytes s + liveBytes s / 5) (liveBytes s + n))) = true)

theorem ensureCap_none (s : Store) (need : Nat) (m : Heap) : ensureCap s need m = none ↔ s.cap < need ∧
      granted m.double (doubled need (if s.cap = 0 then 256 else s.cap) need) = false ∧
        granted m.needed (pageRound need) = false := by
  rw [ensureCap]
  split
  next hfit => exact ⟨fun h => (by cases h), fun h => absurd h.1 (Nat.not_lt.mpr hfit)⟩
  next hfit =>
    have hlt : s.cap < need := Nat.lt_of_not_le hfit
    generalize doubled need (if s.cap = 0 then 256 else s.cap) need = ncap
    simp only [hlt, true_and]
    cases granted m.double ncap <;> cases granted m.needed (pageRound need) <;> simp

theorem used_eq (ht : Tiled sc s rs) : s.used = fileHdr + (arena rs).length := by
  obtain ⟨hd, hhd, hblock⟩ := ht.tiles
  rw [Store.used, hblock, length_append, hhd]

theorem makeRoom_full (h : Laid sc) (ht : Tiled sc s rs) (n : Nat) (m : Heap) : (makeRoom s n m).2 = false ↔ Full s n m := by
  rw [makeRoom, Full, ← and_assoc, ← and_assoc, and_assoc (a := s.cap < _), ← ensureCap_none]
  cases ensureCap s (s.used + n) m with
  | some t => simp
  | none =>
    have hlive : liveBytes s = fileHdr + (arena (live rs)).length := liveBytes_eq h ht
    simp only [reclaimForAppend, true_and]
    split
    next hmove =>
      have hmoved := used_eq (tiled_relocate h ht (le_trans (by omega) (le_pageRound _)) (lt_of_granted hmove.2))
      have hfit := le_pageRound (max (liveBytes s + liveBytes s / 5) (liveBytes s + n))
      have hroom : (relocate s (pageRound (max (liveBytes s + liveBytes s / 5) (liveBytes s + n)))).used + n ≤
          pageRound (max (liveBytes s + liveBytes s / 5) (liveBytes s + n)) := by omega
      exact ⟨fun hfull => absurd (decide_eq_false_iff_not.mp hfull) (not_not.mpr hroom), fun hfull => absurd hmove hfull.2⟩
    next hmove =>
      have hpacked := used_eq (tiled_compactInPlace h ht)
      rw [decide_eq_false_iff_not, hpacked, ← hlive, not_le]
      exact ⟨fun hfull => ⟨hfull, hmove⟩, fun hfull => hfull.1⟩

theorem appendRecord_full (h : Laid sc) (ht : Tiled sc s rs) (key : Name) (image : List UInt8) (m : Heap) :
    (appendRecord s key image m).2 = false ↔ Full s image.length m := by
  rw [← makeRoom_full h ht, appendRecord]
  simp only
  split
  next hroom => simp [hroom]
  next => rfl

end Room

section Strand

variable {rs A B : List (Record sc)} {l : List (Name × (Name → Name))}

/-- Every record that was live still is, with its values, and the index points at each live record. -/
structure Intact (sc : Schema) (s t : Store) : Prop where
  kept : ∀ k, sdbHasRecord s k = true → sdbHasRecord t k = true ∧ ∀ f, sdbGetField t k f = sdbGetField s k f
  sound : Sound sc t

/-- The store while the record at `off` has its tombstone. -/
def buried (s : Store) (off : Nat) : Store :=
  { s with block := tombstone s.block off, index := s.index.erase (readRecordText s off).1 }

def rebuilt (s : Store) (off : Nat) (fd : Field) (val : Name) : List UInt8 :=
  buildRecord (slice s.block off s.schema.hdrSize) (readRecordText s off).1 ((readRecordText s off).2.set fd.off val)

/-- A new text of another length for which there is no room. -/
def Strands (s : Store) (off : Nat) (fd : Field) (val : Name) (m : Heap) : Prop :=
  fd.kind = .text ∧ (readRecordText s off).2[fd.off]? ≠ some val ∧ (rebuilt s off fd val).length ≠ rdU32 s.block off ∧
    Full (buried s off) (rebuilt s off fd val).length m

theorem storeField_text (hk : fd.kind = .text) : storeField s off fd val a = storeText s off fd val a := by
  simp only [storeField, hk]

theorem storeField_fixed (hk : fd.kind ≠ .text) (s : Store) (off : Nat) (val : Name) (a : Heap) :
    (storeField s off fd val a).2 = true := by
  rcases fd with ⟨name, kind, o, width⟩
  cases kind <;> first | rfl | exact absurd rfl hk

theorem has_iff (hs : Lists sc s l) (k : Name) : sdbHasRecord s k = true ↔ k ∈ l.map Prod.fst := by
  obtain ⟨rs, ht, rfl⟩ := hs
  rw [sdbHasRecord, ht.indexed.lookup_isSome, map_fst_entries, map_fst_pairs]

theorem intact_of_lists (h : Laid sc) (hs : Lists sc s l) (ht : Lists sc t l) : Intact sc s t := by
  obtain ⟨rs, hs, rfl⟩ := hs
  obtain ⟨rs', ht, hl⟩ := ht
  obtain ⟨m, hm⟩ := exists_table hs
  have hm' : Represents m (pairs rs') := hl ▸ hm
  refine ⟨fun k hk => ⟨?_, fun f => ?_⟩, rs', ht⟩
  · rw [answers_has ht hm', ← answers_has hs hm, hk]
  · rw [answers_get h ht hm', answers_get h hs hm]

theorem storeText_rebuilt (s : Store) (off : Nat) (fd : Field) (val : Name) (m : Heap) : storeText s off fd val m =
      if (readRecordText s off).2[fd.off]? = some val then (s, true)
      else if (rebuilt s off fd val).length = rdU32 s.block off then
        ({ s with block := poke s.block off (rebuilt s off fd val), dirty := true }, true)
      else
        let p := appendRecord (buried s off) (readRecordText s off).1 (rebuilt s off fd val) m
        ({ p.1 with dirty := true }, p.2) :=
  rfl

theorem tiled_buried (h : Laid sc) (ht : Tiled sc s (A ++ r :: B)) (hr : r.deleted = false) :
    Tiled sc (buried s (fileHdr + (arena A).length)) (A ++ bury h r :: B) := by
  obtain ⟨pre, hblock, hpre⟩ := ht.split
  rw [buried, ← hpre, readRecordText_image r pre (arena B) ht.schema hblock, hpre]
  exact tiled_bury h ht hr

theorem storeField_full (h : Laid sc) (ht : Tiled sc s (A ++ r :: B)) (hr : r.deleted = false) (fd : Field) (val : Name)
    (m : Heap) :
    ((storeField s (fileHdr + (arena A).length) fd val m).2 = false ↔ Strands s (fileHdr + (arena A).length) fd val m) ∧
      ((storeField s (fileHdr + (arena A).length) fd val m).2 = false →
        Lists sc (storeField s (fileHdr + (arena A).length) fd val m).1 (pairs A ++ pairs B)) := by
  by_cases hk : fd.kind = .text
  · have hbury := tiled_buried h ht hr
    have hlive : pairs (A ++ bury h r :: B) = pairs A ++ pairs B := by
      rw [pairs_append, pairs_cons_deleted (deleted_bury h r)]
    rw [Strands, storeField_text hk, storeText_rebuilt, ← appendRecord_full h hbury]
    split
    next hsame => simp [hsame]
    next hsame =>
      split
      next hsize => simp [hsize]
      next hsize =>
        refine ⟨⟨fun hfull => ⟨hk, hsame, hsize, hfull⟩, fun hfull => hfull.2.2.2⟩, fun hfull => ?_⟩
        exact (hlive ▸ lists_appendRecord_full h hbury hfull).dirty true
  · have hok := storeField_fixed hk s (fileHdr + (arena A).length) val m
    simp [Strands, hk, hok]

def blankImage (s : Store) (key : Name) : List UInt8 :=
  buildRecord (replicate s.schema.hdrSize 0) key (replicate s.schema.textCount [])

/-- The store with the new record, before its field is written. -/
def created (s : Store) (key : Name) (a : Heap) : Store := trim (appendRecord s key (blankImage s key) a).1

/-- How many records the new one pushes out. -/
def dropped (s : Store) (key : Name) (a : Heap) : Nat := overflow (appendRecord s key (blankImage s key) a).1

theorem split_last {α : Type} {X Y D : List α} {x y : α} (hsplit : X ++ x :: Y = D ++ [y]) (hx : x ∉ D) :
    X = D ∧ x = y ∧ Y = [] := by
  rcases eq_nil_or_concat Y with rfl | ⟨Z, z, rfl⟩
  · obtain ⟨rfl, hlast⟩ := append_inj' hsplit rfl
    exact ⟨rfl, by simpa using hlast, rfl⟩
  · have hcut : (X ++ x :: Z) ++ [z] = D ++ [y] := by simpa using hsplit
    obtain ⟨rfl, -⟩ := append_inj' hcut rfl
    exact absurd (by simp) hx

theorem fresh_of_findRec (ht : Tiled sc s rs) (hnone : findRec s key = none) : key ∉ (pairs rs).map Prod.fst := by
  rw [map_fst_pairs, ← map_fst_entries fileHdr]
  exact ht.indexed.notMem hnone

theorem length_keys (ht : Tiled sc s rs) : s.index.keys.length = (pairs rs).length := by
  rw [ht.indexed.length_keys, ← length_map (f := Prod.fst), map_fst_entries, ← map_fst_pairs, length_map]

section

variable (h : Laid sc) (ht : Tiled sc s rs) (hkey : key.length ≤ 65535) (hnone : findRec s key = none)
  (hok : (appendRecord s key (blankImage s key) a).2 = true)
include h ht hkey hnone hok

theorem lists_created : (appendRecord s key (blankImage s key) a).1.index.keys.length = (pairs rs).length + 1 ∧
      dropped s key a ≤ (pairs rs).length ∧
        Lists sc (created s key a) ((pairs rs).drop (dropped s key a) ++ [(key, blank sc)]) := by
  have himage : blankImage s key = blankRecord sc key := by
    rw [blankImage, ht.schema]
  rw [himage] at hok
  have hnew := lists_create h ht hkey hnone hok
  rw [← himage] at hnew
  have hcount : (appendRecord s key (blankImage s key) a).1.index.keys.length = (pairs rs).length + 1 := by
    obtain ⟨rs', ht', hl⟩ := hnew
    rw [length_keys ht', hl, length_append, length_singleton]
  have hdrop : dropped s key a ≤ (pairs rs).length := by
    rw [dropped, overflow]
    simp only [hcount]
    split <;> omega
  have htrim := lists_trim h hnew
  rw [← dropped, drop_append_of_le_length hdrop] at htrim
  exact ⟨hcount, hdrop, htrim⟩

/-- The new record is the last one, so the trim has left it. -/
theorem tiled_created :
    ∃ A r B, Tiled sc (created s key a) (A ++ r :: B) ∧ r.deleted = false ∧ pairs A = (pairs rs).drop (dropped s key a) ∧
      pairs B = [] ∧ values r = blank sc ∧ findRec (created s key a) key = some (fileHdr + (arena A).length) := by
  obtain ⟨-, -, hnew⟩ := lists_created h ht hkey hnone hok
  have hhas : sdbHasRecord (created s key a) key = true := by
    rw [has_iff hnew]
    simp
  obtain ⟨off, hoff⟩ := isSome_iff_exists.mp hhas
  obtain ⟨rs₁, ht₁, hl⟩ := hnew
  obtain ⟨A, r, B, rfl, rfl, hr, rfl⟩ := lookup_split ht₁ hoff
  rw [pairs_append, pairs_cons hr] at hl
  have hnot : (r.key, values r) ∉ (pairs rs).drop (dropped s r.key a) := fun hmem =>
    fresh_of_findRec ht hnone (mem_map_of_mem (mem_of_mem_drop hmem))
  obtain ⟨hA, hlast, hB⟩ := split_last hl hnot
  exact ⟨A, r, B, ht₁, hr, hA, hB, (Prod.mk.inj hlast).2, hoff⟩

end

/-- The write of a text for whose record there is no room takes with it the record, or those that a new one pushed out. -/
def Loses (s : Store) (key field val : Name) (a b : Heap) : Prop :=
  ∃ fd, s.schema.find field = some fd ∧
    match findRec s key with
    | some off => Strands s off fd val b
    | none =>
      ¬Full s (blankImage s key).length a ∧ dropped s key a ≠ 0 ∧
        ∃ off, findRec (created s key a) key = some off ∧ Strands (created s key a) off fd val b

theorem not_intact {l' : List (Name × (Name → Name))} (hs : Lists sc s l) (ht : Lists sc t l') {k : Name}
    (hk : k ∈ l.map Prod.fst) (hgone : k ∉ l'.map Prod.fst) : ¬Intact sc s t := fun hintact =>
  hgone ((has_iff ht k).mp (hintact.kept k ((has_iff hs k).mpr hk)).1)

theorem nodup_fst (ht : Tiled sc s rs) : ((pairs rs).map Prod.fst).Nodup := by
  rw [map_fst_pairs]
  exact ht.nodup_keys

theorem intact_present (h : Laid sc) (ht : Tiled sc s rs) (hoff : findRec s key = some off) (fd : Field) (val : Name)
    (m : Heap) :
    ((storeField s off fd val m).2 = false → Intact sc s (storeField s off fd val m).1) ↔ ¬Strands s off fd val m := by
  obtain ⟨A, r, B, rfl, rfl, hr, rfl⟩ := lookup_split ht hoff
  obtain ⟨hiff, hlost⟩ := storeField_full h ht hr fd val m
  rw [← hiff]
  refine ⟨fun hintact hfull => ?_, fun hok hfull => absurd hfull hok⟩
  have hkeys := nodup_fst ht
  rw [pairs_append, pairs_cons hr] at hkeys
  exact not_intact ⟨_, ht, rfl⟩ (hlost hfull) (by simp [pairs_append, pairs_cons hr]) (notMem_of_nodup_middle hkeys) (hintact hfull)

theorem intact_created (h : Laid sc) (ht : Tiled sc s rs) (hkey : key.length ≤ 65535) (hnone : findRec s key = none)
    (hok : (appendRecord s key (blankImage s key) a).2 = true) (hoff : findRec (created s key a) key = some off)
    (fd : Field) (val : Name) (m : Heap) :
    ((storeField (created s key a) off fd val m).2 = false → Intact sc s (storeField (created s key a) off fd val m).1) ↔
      ¬(dropped s key a ≠ 0 ∧ Strands (created s key a) off fd val m) := by
  obtain ⟨-, hdrop, -⟩ := lists_created h ht hkey hnone hok
  obtain ⟨A, r, B, ht₁, hr, hA, hB, -, hfound⟩ := tiled_created h ht hkey hnone hok
  cases hoff.symm.trans hfound
  obtain ⟨hiff, hlost⟩ := storeField_full h ht₁ hr fd val m
  rw [hA, hB, append_nil] at hlost
  rw [← hiff]
  constructor
  · rintro hintact ⟨hne, hfull⟩
    have hpos : 0 < (pairs rs).length := by omega
    have hfirst : (pairs rs)[0] ∈ (pairs rs).take (dropped s key a) := by
      rw [mem_take_iff_getElem]
      exact ⟨0, by omega, rfl⟩
    have hkeys := nodup_fst ht
    rw [← take_append_drop (dropped s key a) (pairs rs), map_append] at hkeys
    refine not_intact ⟨rs, ht, rfl⟩ (hlost hfull) (mem_map_of_mem (getElem_mem hpos)) ?_ (hintact hfull)
    exact disjoint_of_nodup_append hkeys (mem_map_of_mem hfirst)
  · intro hok hfull
    have hzero : dropped s key a = 0 := by
      by_contra hne
      exact hok ⟨hne, hfull⟩
    have hsame := hlost hfull
    rw [hzero, drop_zero] at hsame
    exact intact_of_lists h ⟨rs, ht, rfl⟩ hsame

theorem findRec_appendRecord {image : List UInt8} (hok : (appendRecord s key image a).2 = true) :
    (findRec (appendRecord s key image a).1 key).isSome = true := by
  rw [appendRecord] at hok ⊢
  simp only at hok ⊢
  split at hok
  next hroom =>
    rw [if_pos hroom, findRec, AList.lookup_insert]
    rfl
  next hroom => exact absurd hok hroom

theorem sdbSetField_created (hfd : s.schema.find field = some fd) (hnone : findRec s key = none)
    (hok : (appendRecord s key (blankImage s key) a).2 = true) (val : Name) (b : Heap) :
    sdbSetField s key field val a b =
      match findRec (created s key a) key with
      | some off => storeField (created s key a) off fd val b
      | none => ({ created s key a with dirty := true }, true) := by
  have hfound := findRec_appendRecord hok
  rw [blankImage] at hok hfound
  simp only [sdbSetField, hfd, hnone, hok, hfound, Bool.and_self, if_true]
  rfl

theorem sdbSetField_refused (hfd : s.schema.find field = some fd) (hnone : findRec s key = none)
    (hfull : (appendRecord s key (blankImage s key) a).2 = false) (val : Name) (b : Heap) :
    sdbSetField s key field val a b = appendRecord s key (blankImage s key) a := by
  rw [blankImage] at hfull ⊢
  simp only [sdbSetField, hfd, hnone, hfull, Bool.false_and, Bool.false_eq_true, if_false]

/-- A write that is short of memory loses nothing, except where it strands a text. -/
theorem setField_intact_iff (h : Laid sc) (hs : Sound sc s)
    (hkey : ∀ fd, sc.find field = some fd → fd.kind = .text → key.length ≤ 65535) (val : Name) (a b : Heap) :
    ((sdbSetField s key field val a b).2 = false → Intact sc s (sdbSetField s key field val a b).1) ↔
      ¬Loses s key field val a b := by
  obtain ⟨rs, ht⟩ := hs
  rw [Loses]
  cases hfd : s.schema.find field with
  | none => simp [sdbSetField, hfd]
  | some fd =>
    cases hoff : findRec s key with
    | some off =>
      have hset : sdbSetField s key field val a b = storeField s off fd val b := by simp only [sdbSetField, hfd, hoff]
      simpa [hset] using intact_present h ht hoff fd val b
    | none =>
      by_cases hfull : Full s (blankImage s key).length a
      · have hrefused := (appendRecord_full h ht key _ a).mpr hfull
        rw [sdbSetField_refused hfd hoff hrefused]
        simpa [hfull] using fun _ => intact_of_lists h ⟨rs, ht, rfl⟩ (lists_appendRecord_full h ht hrefused)
      · have hok : (appendRecord s key (blankImage s key) a).2 = true := by
          rwa [← appendRecord_full h ht key, Bool.not_eq_false] at hfull
        rw [sdbSetField_created hfd hoff hok]
        by_cases hk : fd.kind = .text
        · have hlen := hkey fd (ht.schema ▸ hfd) hk
          obtain ⟨A, r, B, -, -, -, -, -, hfound⟩ := tiled_created h ht hlen hoff hok
          simpa [hfound, hfull] using intact_created h ht hlen hoff hok hfound fd val b
        · cases findRec (created s key a) key with
          | none => simp
          | some off => simp [storeField_fixed hk, Strands, hk]

end Strand

def pages : Schema := build 1 1 [.text (lit "body")]

def page : Store :=
  (sdbSetField ⟨pages, [], 0, fileHeader pages 0, 256, false, ∅⟩ (lit "a") (lit "body") (lit "hi") plenty plenty).1

def body : Field := ⟨lit "body", .text, 0, 0⟩

theorem laid_pages : Laid pages := laid_build ⟨by simp, by decide⟩ (by decide) 1 1

theorem sound_page : Sound pages page :=
  sound_sdbSetField laid_pages (sound_sdbInitEmpty (show sdbInitEmpty pages [] 0 plenty = some _ from rfl)) (by decide)

theorem doubled_le (fuel n need : Nat) : doubled fuel n need ≤ max n (2 * need) := by
  induction fuel generalizing n with
  | zero => exact Nat.le_max_left _ _
  | succ fuel ih =>
    rw [doubled]
    split
    · have := ih (n * 2)
      omega
    · exact Nat.le_max_left _ _

theorem ensureCap_plenty {need : Nat} (hneed : need < 2147483648) : ensureCap s need plenty ≠ none := by
  rw [ne_eq, ensureCap_none]
  rintro ⟨hcap, hdouble, -⟩
  have hstart : (if s.cap = 0 then 256 else s.cap) ≤ max 256 need := by split <;> omega
  have hle := doubled_le need (if s.cap = 0 then 256 else s.cap) need
  rw [granted, plenty, Bool.true_and, decide_eq_false_iff_not] at hdouble
  omega

theorem not_full_plenty (hn : s.used + n < 2147483648) : ¬Full s n plenty := fun hfull =>
  ensureCap_plenty hn ((ensureCap_none s _ plenty).mpr ⟨hfull.1, hfull.2.1, hfull.2.2.1⟩)

theorem text_whole_iff_hello :
    Whole pages page (sdbSetField page (lit "a") (lit "body") (lit "hello") plenty plenty).1 (lit "a") (lit "body") (lit "hello") :=
  (text_whole_iff laid_pages sound_page (by decide +kernel) (show _ = some body from rfl) rfl (by decide +kernel)).mpr (by decide)

theorem findRec_page : findRec page (lit "a") = some 29 := by decide +kernel

theorem set_page (val : Name) (m : Heap) :
    sdbSetField page (lit "a") (lit "body") val plenty m = storeField page 29 body val m := by
  simp only [sdbSetField, show page.schema.find (lit "body") = some body from rfl, findRec_page]

theorem length_rebuilt_body {k x : Name} (hread : readRecordText s off = (k, [x]))
    (hhdr : (slice s.block off s.schema.hdrSize).length = 8) (val : Name) :
    (rebuilt s off body val).length = 12 + k.length + val.length := by
  rw [rebuilt, hread, buildRecord]
  simp only
  rw [poke_length (by simp [hhdr]; omega)]
  simp [counted, body, hhdr]
  omega

/-- A page of 64 KiB is not what is read back. -/
theorem text_cut : sdbHasRecord page (lit "a") = true ∧
      (sdbSetField page (lit "a") (lit "body") (replicate 65536 97) plenty plenty).2 = true ∧
      sdbGetField (sdbSetField page (lit "a") (lit "body") (replicate 65536 97) plenty plenty).1 (lit "a") (lit "body") ≠
        some (replicate 65536 97) := by
  refine ⟨by decide +kernel, ?_, fun hread => ?_⟩
  · obtain ⟨rs, ht⟩ := sound_page
    obtain ⟨A, r, B, rfl, hoff, hr, -⟩ := lookup_split ht findRec_page
    have hfull := (storeField_full laid_pages ht hr body (replicate 65536 97) plenty).1
    rw [← hoff] at hfull
    rw [set_page, ← Bool.not_eq_false, hfull]
    refine fun hstrands => not_full_plenty ?_ hstrands.2.2.2
    rw [length_rebuilt_body (show readRecordText page 29 = (lit "a", [lit "hi"]) by decide +kernel) (by decide +kernel),
      length_replicate, show (buried page 29).used = 44 by decide +kernel]
    decide
  · rw [set_page] at hread
    have := length_text (by rw [storeField_schema]; exact show page.schema.find (lit "body") = some body from rfl) rfl hread
    rw [length_replicate] at this
    omega

/-- A page that grows beyond the arena takes the old page with it. -/
theorem page_lost : sdbGetField page (lit "a") (lit "body") = some (lit "hi") ∧
      (sdbSetField page (lit "a") (lit "body") (replicate 300 97) tight tight).2 = false ∧
      sdbHasRecord (sdbSetField page (lit "a") (lit "body") (replicate 300 97) tight tight).1 (lit "a") = false := by
  decide +kernel

theorem setField_intact_iff_second :
    (sdbSetField page (lit "b") (lit "body") (replicate 300 97) tight tight).2 = false ∧
      Intact pages page (sdbSetField page (lit "b") (lit "body") (replicate 300 97) tight tight).1 := by
  have hfull : (sdbSetField page (lit "b") (lit "body") (replicate 300 97) tight tight).2 = false := by decide +kernel
  refine ⟨hfull, (setField_intact_iff laid_pages sound_page (fun _ _ _ => by decide) _ _ _).mpr ?_ hfull⟩
  rintro ⟨fd, -, hloses⟩
  exact hloses.2.1 (by decide +kernel)

end Spangap.TextWrites
