import Spangap.Registry
import Spangap.StoreRoundTrip
import Spangap.TextWrites

namespace Spangap.StoreEngine

open List Option CJson Fields FieldValues RecordStore Tiling Compaction RecordEdits RecordMap StoreFile StoreRuns
  StoreRoundTrip TextWrites Registry

/-- What a record store depends on besides its calls: the codec, what the heap holds behind a
block, the layouts of older files, and the heap's answers to the requests of a write. -/
structure Board where
  codec : Codec
  junk : Nat → UInt8
  legacy : List (Nat × Nat × Schema)
  heap : Store → Name → Name → Name → Heap × Heap

/-- No compression, and memory for everything. -/
def plainBoard : Board := ⟨verbatim, fun _ => 0, [], fun _ _ _ _ => (plenty, plenty)⟩

/-- A walk over a file takes fewer turns than a `size_t` counts. -/
def loadFuel : Nat := 4294967296

/-- The record stores of `storage_db.cpp`, with the allocations of a load granted. -/
def stores (B : Board) (sc : Schema) : Engine Store (List UInt8) where
  load path cap file :=
    let u := unloaded sc path cap
    match sdbLoad B.junk B.codec loadFuel freely B.legacy u file with
    | some (some s, _) => (s, s.dirty)
    | _ => (u, false)
  snapshot s := (sdbSnapshotRaw s, storeFile B.codec s)
  get := sdbGetField
  has := sdbHasRecord
  each := sdbForEach
  set s key field val :=
    let t := (sdbSetField { s with dirty := false } key field val (B.heap s key field val).1 (B.heap s key field val).2).1
    (t, t.dirty)
  delete s key :=
    let t := sdbDeleteRecord { s with dirty := false } key
    (t, t.dirty)

/-- The lengths fit their two bytes, and the first field of a record is not an empty text: the
append of that record would leave the flag as it is. -/
def Takes (sc : Schema) (s : Store) (key field val : Name) : Prop :=
  Fits sc (.set key field val plenty plenty) ∧
    (sdbHasRecord s key = false → ∀ fd, sc.find field = some fd → fd.kind = .text → val ≠ [])

instance (sc : Schema) (s : Store) (key field val : Name) : Decidable (Takes sc s key field val) :=
  inferInstanceAs (Decidable (_ ∧ (_ → ∀ fd, sc.find field = some fd → _)))

def domain (sc : Schema) : Domain Store where
  Valid := Sound sc
  Takes := Takes sc
  Saves s := (buildDiskImage (compact s 0)).length ≤ 8 * 1024 * 1024

variable {B : Board} {sc : Schema} {s t : Store} {rs : List (Record sc)} {key field val : Name} {fd : Field} {off : Nat} {a b : Heap}

/-- The one write that does not set the flag is that of the text that is there. -/
theorem storeField_clean (h : (storeField s off fd val a).1.dirty = false) :
    (storeField s off fd val a).1 = s ∧ fd.kind = .text ∧ (readRecordText s off).2[fd.off]? = some val := by
  by_cases hk : fd.kind = .text
  · rw [storeField_text hk] at h ⊢
    unfold storeText at h ⊢
    dsimp only at h ⊢
    split at h
    next hsame =>
      rw [if_pos hsame]
      exact ⟨rfl, hk, hsame⟩
    · split at h <;> cases h
  · rcases fd with ⟨name, kind, o, width⟩
    cases kind <;> first | exact absurd rfl hk | cases h

theorem text_created (h : Laid sc) (ht : Tiled sc s rs) (hkey : key.length ≤ 65535) (hnone : findRec s key = none)
    (hok : (appendRecord s key (blankImage s key) a).2 = true) (hfd : sc.find field = some fd) (hk : fd.kind = .text)
    (hoff : findRec (created s key a) key = some off) : (readRecordText (created s key a) off).2[fd.off]? = some [] := by
  obtain ⟨A, r, B, ht', -, -, -, hblank, hfound⟩ := tiled_created h ht hkey hnone hok
  cases hoff.symm.trans hfound
  obtain ⟨pre, hblock, hpre⟩ := ht'.split
  have hvalue := fieldOf_values h r hfd
  rw [fieldOf_text hk, hblank, blank, hfd] at hvalue
  rw [← hpre, readRecordText_image r pre (arena B) ht'.schema hblock, hvalue]
  simp [unset, hk]

/-- A write that leaves the flag as it was leaves the live records as they were. -/
theorem live_of_clean (h : Laid sc) (ht : Tiled sc s rs) (htake : Takes sc s key field val)
    (hclean : (sdbSetField s key field val a b).1.dirty = false) :
    ∃ rs', Tiled sc (sdbSetField s key field val a b).1 rs' ∧ live rs' = live rs := by
  obtain ⟨⟨hkey, -⟩, hfirst⟩ := htake
  cases hfd : sc.find field with
  | none =>
    have hset : (sdbSetField s key field val a b).1 = s := by simp [sdbSetField, ht.schema, hfd]
    rw [hset]
    exact ⟨rs, ht, rfl⟩
  | some fd =>
    cases hoff : findRec s key with
    | some off =>
      have hset : sdbSetField s key field val a b = storeField s off fd val b := by simp [sdbSetField, ht.schema, hfd, hoff]
      rw [hset] at hclean ⊢
      rw [(storeField_clean hclean).1]
      exact ⟨rs, ht, rfl⟩
    | none =>
      cases hroom : (appendRecord s key (blankImage s key) a).2 with
      | false =>
        rw [sdbSetField_refused (ht.schema ▸ hfd) hoff hroom]
        exact ⟨live rs, tiled_appendRecord_full h ht hroom, live_live rs⟩
      | true =>
        rw [sdbSetField_created (ht.schema ▸ hfd) hoff hroom] at hclean
        cases hfound : findRec (created s key a) key with
        | none =>
          rw [hfound] at hclean
          cases hclean
        | some off =>
          rw [hfound] at hclean
          obtain ⟨-, hk, htext⟩ := storeField_clean hclean
          have hempty := text_created h ht hkey hoff hroom hfd hk hfound
          have hval : val = [] := some_inj.mp (htext.symm.trans hempty)
          exact absurd hval (hfirst (by simpa [sdbHasRecord, findRec] using hoff) fd hfd hk)

theorem same_stores (h : SameRecords s t) : (stores B sc).Same t s :=
  ⟨fun key field => (h.get key field).symm, fun key => (h.has key).symm, h.each.symm⟩

theorem load_none (B : Board) (sc : Schema) (path : Name) (cap : Nat) : Sound sc ((stores B sc).load path cap none).1 := by
  have hempty : (sdbInitEmpty sc path cap plenty).isSome = true := by
    simp [sdbInitEmpty, ensureCap, fileHdr, doubled, granted, plenty]
  obtain ⟨s, hs⟩ := isSome_iff_exists.mp hempty
  have hload : ((stores B sc).load path cap none).1 = s := by
    simp only [stores, sdbLoad, unloaded, freely, hs]
  rw [hload]
  exact sound_sdbInitEmpty hs

theorem load_saved (hsc : Described sc) (hc : B.codec.Lossless) {path : Name} (hpath : path ≠ []) (cap : Nat) (ht : Tiled sc s rs)
    (hsize : (domain sc).Saves s) :
    ∃ t, ((stores B sc).load path cap (some (storeFile B.codec s))).1 = t ∧ Tiled sc t (live rs) := by
  obtain ⟨t, hload, htiled, -⟩ := sdbLoad_storeFile B.junk hsc hc ht hsize
    (u := unloaded sc path cap) rfl B.legacy (m := freely)
  have hfuel : rs.length < loadFuel := by
    have hroom := ht.room
    have hfits := ht.fits
    have hused := used_eq ht
    have hlen := length_le_arena hsc.laid rs
    unfold loadFuel
    omega
  refine ⟨t, ?_, htiled⟩
  have hdone := hload loadFuel hfuel
  rw [if_neg (show (unloaded sc path cap).path ≠ [] from hpath), if_neg (by simp [freely])] at hdone
  simp only [stores, hdone]

/-- What the registry asks of a store, `storage_db.cpp` does within the limits of its format. -/
theorem lawful_stores (hsc : Described sc) (hc : B.codec.Lossless) : (stores B sc).Lawful (domain sc) where
  empty path cap := load_none B sc path cap
  set s key field val hvalid htake := by
    refine ⟨sound_sdbSetField hsc.laid (hvalid.dirty false) htake.1, fun hclean => ?_⟩
    obtain ⟨rs, ht⟩ := hvalid
    have hclear : Tiled sc { s with dirty := false } rs := { ht with }
    obtain ⟨rs', ht', hlive⟩ := live_of_clean hsc.laid hclear htake hclean
    exact same_stores (sameRecords_of_tiled hsc.laid ht ht' hlive)
  delete s key hvalid := by
    refine ⟨(sound_apply hsc.laid (hvalid.dirty false) trivial : Sound sc (apply _ (.delete key))), fun hclean => ?_⟩
    obtain ⟨rs, ht⟩ := hvalid
    have hsame : sdbDeleteRecord { s with dirty := false } key = { s with dirty := false } := by
      simp only [stores, sdbDeleteRecord] at hclean ⊢
      split at hclean
      · rfl
      · cases hclean
    have hclear : Tiled sc (sdbDeleteRecord { s with dirty := false } key) rs := by
      rw [hsame]
      exact { ht with }
    exact same_stores (sameRecords_of_tiled hsc.laid ht hclear rfl)
  snapshot s hvalid := by
    obtain ⟨rs, ht⟩ := hvalid
    have hcompact : Tiled sc (sdbSnapshotRaw s) (live rs) := tiled_compactInPlace hsc.laid ht
    exact ⟨⟨_, hcompact⟩, same_stores (sameRecords_of_tiled hsc.laid ht hcompact (live_live rs))⟩
  saved path cap s hpath hvalid hsize := by
    obtain ⟨rs, ht⟩ := hvalid
    obtain ⟨t, hload, ht'⟩ := load_saved hsc hc hpath cap ht hsize
    have hsame := sameRecords_of_tiled hsc.laid ht ht' (live_live rs)
    simp only [stores] at hload ⊢
    rw [hload]
    exact ⟨⟨_, ht'⟩, same_stores hsame⟩

-- Without the second clause of `Takes`: a record that starts with an empty text is there, and nothing is marked.
example :
    let w := (stores plainBoard (build 1 1 contacts)).set (unloaded (build 1 1 contacts) [] 0) (lit "a") (lit "name") []
    (stores plainBoard (build 1 1 contacts)).has w.1 (lit "a") = true ∧ w.2 = false := by
  decide +kernel

end Spangap.StoreEngine
