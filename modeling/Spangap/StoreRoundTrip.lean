import Spangap.StoreFile
import Spangap.StoreRuns

namespace Spangap.StoreRoundTrip

open Bytes CJson Fields FieldValues RecordStore FiniteMaps Tiling Compaction RecordEdits RecordMap StoreFile
open List Option
  StoreRuns

variable {sc : Schema} {s u t : Store} {ds : List Decl} {c : Codec} {b hd : List UInt8} {rs : List (Record sc)}

def Narrow (f : Field) : Prop := f.off < 65536 ∧ f.width < 65536 ∧ f.name.length ≤ 255

theorem serializeField_length {f : Field} (hf : f.name.length ≤ 255) :
    (serializeField f).length = 6 + f.name.length := by
  simp [serializeField, hf]
  omega

theorem parseFields_serialize {fs : List Field} (hfs : ∀ f ∈ fs, Narrow f) (rest : List UInt8) :
    parseFields fs.length (fs.flatMap serializeField ++ rest) = some (fs.map rawField) := by
  induction fs with
  | nil => rfl
  | cons f fs ih =>
    obtain ⟨hoff, hwidth, hname⟩ := hfs f mem_cons_self
    have hlen := serializeField_length hname
    have hnl : (UInt8.ofNat (min f.name.length 255)).toNat = f.name.length := by
      rw [UInt8.toNat_ofNat', min_eq_left hname]
      omega
    obtain ⟨p, hp⟩ : ∃ p, serializeField f ++ (fs.flatMap serializeField ++ rest) = p := ⟨_, rfl⟩
    have hparts : p = [kindCode f.kind] ++ (leBytes 2 f.off ++ (leBytes 2 f.width ++
        ([UInt8.ofNat (min f.name.length 255)] ++ (f.name ++ (fs.flatMap serializeField ++ rest))))) := by
      rw [← hp]
      simp [serializeField, take_of_length_le hname]
    have hplen : 6 + f.name.length ≤ p.length := by
      rw [← hp, length_append, hlen]
      omega
    have hkind : p.getD 0 0 = kindCode f.kind := by
      rw [hparts]
      rfl
    have ho : slice p 1 2 = leBytes 2 f.off := by
      rw [hparts]
      exact slice_at rfl (leBytes_length 2 _) _
    have hw : slice p 3 2 = leBytes 2 f.width := by
      rw [hparts, ← append_assoc]
      exact slice_at (by simp) (leBytes_length 2 _) _
    have hn : p.getD 5 0 = UInt8.ofNat (min f.name.length 255) := by
      rw [hparts]
      rfl
    have hnamed : slice p 6 f.name.length = f.name := by
      rw [hparts, ← append_assoc, ← append_assoc, ← append_assoc]
      exact slice_at (by simp) rfl _
    have hrest : p.drop (6 + f.name.length) = fs.flatMap serializeField ++ rest := by
      rw [← hp]
      exact drop_left' hlen
    rw [flatMap_cons, append_assoc, hp, length_cons, parseFields, if_neg (by omega), hn, hnl,
      if_neg (by omega), hrest, ih fun g hg => hfs g (mem_cons_of_mem f hg), hnamed, hkind, ho, hw,
      le_leBytes_of_lt hoff, le_leBytes_of_lt hwidth]
    rfl

theorem length_le_flatMap (fs : List Field) : fs.length ≤ (fs.flatMap serializeField).length := by
  induction fs with
  | nil => exact le_refl 0
  | cons f fs ih =>
    rw [flatMap_cons, length_append, length_cons, serializeField, length_cons]
    omega

theorem length_le_descriptor (sc : Schema) : sc.fields.length ≤ (serializeDescriptor sc).length := by
  have := length_le_flatMap sc.fields
  rw [serializeDescriptor, length_append]
  omega

theorem parseDescriptor_serialize (hfs : ∀ f ∈ sc.fields, Narrow f)
    (hdesc : (serializeDescriptor sc).length ≤ 65535) :
    parseDescriptor (serializeDescriptor sc) sc.hdrSize = some (layoutOf sc) := by
  have hcount := length_le_descriptor sc
  have hparse := parseFields_serialize hfs []
  rw [append_nil] at hparse
  rw [parseDescriptor, if_neg (by rw [serializeDescriptor, length_append, leBytes_length]; omega), serializeDescriptor,
    take_left' (leBytes_length 2 _), drop_left' (leBytes_length 2 _),
    le_leBytes_of_lt (by omega), hparse]
  rfl

theorem width_foldl_declare (hsc : ∀ f ∈ sc.fields, f.width = f.extent ∨ f.width = 0) :
    ∀ f ∈ (ds.foldl Schema.declare sc).fields, f.width = f.extent ∨ f.width = 0 := by
  induction ds generalizing sc with
  | nil => exact hsc
  | cons d ds ih =>
    refine ih fun f hf => ?_
    cases d <;>
      simp only [Schema.declare, Schema.u8, Schema.u32, Schema.fixstr, Schema.data, Schema.text,
        mem_append, mem_singleton] at hf <;>
      rcases hf with hf | rfl <;> first | exact hsc f hf | simp [Field.extent]

theorem narrow_build {schemaId schemaVer : Nat} (h : Laid (build schemaId schemaVer ds))
    (hnames : ∀ f ∈ (build schemaId schemaVer ds).fields, f.name.length ≤ 255) :
    ∀ f ∈ (build schemaId schemaVer ds).fields, Narrow f := by
  intro f hf
  have hempty : ∀ g ∈ (Schema.mk schemaId schemaVer hdrBuiltin []).fields, g.width = g.extent ∨ g.width = 0 := nofun
  have hwidth := width_foldl_declare hempty f hf
  have hheader := h.header
  have htext : (build schemaId schemaVer ds).textCount < 65536 := Nat.mod_lt _ (by decide)
  by_cases hk : f.kind = .text
  · have hrank := h.ranked f hf hk
    simp only [Field.extent, hk] at hwidth
    exact ⟨by omega, by omega, hnames f hf⟩
  · have hfixed := h.fixed f hf hk
    exact ⟨by omega, by omega, hnames f hf⟩

/-- The schemas a file can describe. -/
structure Described (sc : Schema) : Prop where
  laid : Laid sc
  id : sc.schemaId < 65536
  narrow : ∀ f ∈ sc.fields, Narrow f
  short : (serializeDescriptor sc).length ≤ 65535

theorem described_build (hds : Declared ds) {schemaId schemaVer : Nat} (hid : schemaId < 65536)
    (hnames : ∀ d ∈ ds, d.name.length ≤ 255)
    (hdesc : (serializeDescriptor (build schemaId schemaVer ds)).length ≤ 65535) :
    Described (build schemaId schemaVer ds) := by
  have hall := names_foldl_declare ⟨schemaId, schemaVer, hdrBuiltin, []⟩ ds
  rw [map_nil, nil_append] at hall
  have hcount := length_le_descriptor (build schemaId schemaVer ds)
  have hlen : (build schemaId schemaVer ds).fields.length = ds.length := by
    rw [← length_map (f := Field.name), build, hall, length_map]
  have hfew : ds.countP Decl.isText < 65536 := by
    have := countP_le_length (p := Decl.isText) (l := ds)
    omega
  have h := laid_build hds hfew schemaId schemaVer
  have hsame : ∀ ds sc, (List.foldl Schema.declare sc ds).schemaId = sc.schemaId := by
    intro ds
    induction ds with
    | nil => intro _; rfl
    | cons d ds ih => intro sc; rw [foldl_cons, ih]; cases d <;> rfl
  refine ⟨h, lt_of_le_of_lt (le_of_eq (hsame ds _)) hid, narrow_build h fun f hf => ?_, hdesc⟩
  have hmem : f.name ∈ ds.map Decl.name := hall ▸ mem_map.mpr ⟨f, hf, rfl⟩
  obtain ⟨d, hd, hname⟩ := mem_map.mp hmem
  exact hname ▸ hnames d hd

section Reload

variable {A B : List (Record sc)} (junk : Nat → UInt8)

theorem peek_eq_slice {off n : Nat} (hfit : off + n ≤ b.length) : peek b junk off n = slice b off n := by
  apply ext_getElem
  · rw [slice_length hfit]
    simp [peek]
  · intro i hi hj
    simp only [peek, length_map, length_range] at hi
    simp only [peek, slice, getElem_map, getElem_range, getElem_take, getElem_drop]
    rw [getD_eq_getElem?_getD, getElem?_eq_getElem (by omega), getD_some]

theorem behind_eq {off rlen : Nat} (hfit : off + rlen < 4294967296) : behind off rlen = off + rlen :=
  Nat.mod_eq_of_lt hfit

theorem counted_key_fits (r : Record sc) : sc.hdrSize + 2 + r.key.length ≤ r.image.length := by
  rw [Record.image, length_append, r.hdr_length, length_append, counted_length]
  omega

theorem rebuildIndex_image (h : Laid sc) (r : Record sc) (pre post : List UInt8)
    (hblock : b = pre ++ (r.image ++ post)) (hsize : b.length < 4294967296) (fuel : Nat)
    (index : AList fun _ : Name => Nat) :
    rebuildIndex junk sc.hdrSize b (fuel + 1) pre.length index =
      rebuildIndex junk sc.hdrSize b fuel (pre.length + r.image.length)
        (if r.deleted then index else index.insert r.key pre.length) := by
  have hb : 8 ≤ sc.hdrSize := h.builtin
  have hkey := counted_key_fits r
  have hlen : b.length = pre.length + r.image.length + post.length := by
    rw [hblock, length_append, length_append, Nat.add_assoc]
  have hrlen : le (peek b junk pre.length 4) = r.image.length := by
    rw [peek_eq_slice junk (by omega), hblock]
    exact rdU32_image h r pre post
  have hflags : (peek b junk (pre.length + flagsOff) 1).headD 0 &&& 1 != 0 ↔ r.deleted = true := by
    rw [peek_eq_slice junk (by rw [flagsOff]; omega), hblock, ← isDeleted_image h r pre post]
    rfl
  have hdrop : b.drop (pre.length + sc.hdrSize) = counted r.key ++ ((r.texts.map counted).flatten ++ post) := by
    rw [hblock, drop_image]
  have hklen : le (peek b junk (pre.length + sc.hdrSize) 2) = r.key.length := by
    rw [peek_eq_slice junk (by omega), slice, hdrop, counted, append_assoc,
      take_left' (leBytes_length 2 _), le_leBytes_of_lt r.key_length]
  have hread : peek b junk (pre.length + sc.hdrSize + 2) r.key.length = r.key := by
    rw [peek_eq_slice junk (by omega), slice, ← drop_drop, hdrop, counted, append_assoc,
      drop_left' (leBytes_length 2 _), take_left]
  have hbehind : behind pre.length r.image.length = pre.length + r.image.length := behind_eq (by omega)
  rw [rebuildIndex, if_pos (by omega), if_neg (by omega)]
  simp only [hrlen, hbehind, hklen]
  rw [if_neg (by omega)]
  by_cases hr : r.deleted = true
  · rw [if_pos (hflags.mpr hr), if_pos hr]
  · rw [if_neg (mt hflags.mp hr), if_neg hr, if_neg (by omega), hread, Nat.mod_eq_of_lt (by omega)]

/-- The walk over a tiled block finds its records, one after the other, when no
live key comes twice. -/
theorem rebuildIndex_arena (h : Laid sc) (hhd : hd.length = fileHdr)
    (hsize : (hd ++ arena (A ++ B)).length < 4294967296) (hkeys : ((live (A ++ B)).map Record.key).Nodup)
    {index : AList fun _ : Name => Nat} (hindex : Represents index (entries fileHdr A)) {fuel : Nat}
    (hfuel : B.length < fuel) :
    ∃ t, rebuildIndex junk sc.hdrSize (hd ++ arena (A ++ B)) fuel (fileHdr + (arena A).length) index =
        some (.indexed t) ∧ Represents t (entries fileHdr (A ++ B)) := by
  induction B generalizing A index fuel with
  | nil =>
    obtain ⟨fuel, rfl⟩ := Nat.exists_eq_add_of_lt hfuel
    refine ⟨index, ?_, by simpa using hindex⟩
    rw [rebuildIndex, if_neg (by simp [hhd])]
  | cons r B ih =>
    obtain ⟨fuel, rfl⟩ : ∃ n, fuel = n + 1 := ⟨fuel - 1, by omega⟩
    have hsnoc : A ++ r :: B = A ++ [r] ++ B := by simp
    have hnext : Represents (if r.deleted then index else index.insert r.key (fileHdr + (arena A).length))
        (entries fileHdr (A ++ [r])) := by
      by_cases hr : r.deleted = true
      · have hnil : ∀ b, entries b ([] : List (Record sc)) = [] := fun _ => rfl
        simpa [entries_append, entries_cons, hnil, hr] using hindex
      · rw [if_neg hr, entries_snoc fileHdr A (by simpa using hr)]
        refine hindex.insert_fresh ?_ _
        rw [map_fst_entries]
        rw [live_append, live_cons, if_neg hr, map_append, nodup_append] at hkeys
        exact fun hmem => hkeys.2.2 r.key hmem r.key (by simp) rfl
    have hround := rebuildIndex_image junk h r (hd ++ arena A) (arena B) (b := hd ++ arena (A ++ r :: B)) (by simp)
      hsize fuel index
    obtain ⟨t, ht, hrep⟩ := ih (hsnoc ▸ hsize) (hsnoc ▸ hkeys) hnext (Nat.lt_of_succ_lt_succ hfuel)
    refine ⟨t, ?_, hsnoc ▸ hrep⟩
    rw [length_append, hhd] at hround
    rw [hround, hsnoc, ← ht]
    simp [Nat.add_assoc]

theorem compact_zero (s : Store) : compact s 0 = sdbCompactInPlace s := by
  rw [compact, dropOldest, take_zero, foldl_nil]

theorem compact_block (h : Laid sc) (ht : Tiled sc s rs) :
    ∃ n, (compact s 0).block = fileHeader sc n ++ arena (live rs) := by
  rw [compact_zero]
  obtain ⟨hd, hhd, hblock⟩ := (tiled_compactInPlace h ht).tiles
  obtain ⟨X, n, hX⟩ : ∃ X n, (sdbCompactInPlace s).block = poke X 0 (fileHeader sc n) :=
    ⟨_, _, by rw [← ht.schema]; rfl⟩
  refine ⟨n, ?_⟩
  have htake := congrArg (List.take fileHdr) (hblock.symm.trans hX)
  rw [take_left' hhd, poke, take_zero, nil_append, take_left' (fileHeader_length sc n)] at htake
  rw [hblock, htake]

/-- The parts of a file of the current format. -/
def imageOf (sc : Schema) (n : Nat) (recs : List UInt8) : List UInt8 :=
  fileHeader sc n ++ (leBytes 2 (serializeDescriptor sc).length ++ (serializeDescriptor sc ++ recs))

theorem buildDiskImage_eq {n : Nat} {recs : List UInt8} (hs : s.schema = sc)
    (hblock : s.block = fileHeader sc n ++ recs) : buildDiskImage s = imageOf sc n recs := by
  have hfmt : poke (fileHeader sc n) 4 (leBytes 2 2) = fileHeader sc n := rfl
  rw [buildDiskImage, hs, hblock, take_left' (fileHeader_length sc n), hfmt,
    drop_left' (fileHeader_length sc n), imageOf]

theorem readerOf_imageOf (hsc : Described sc) (legacy : List (Nat × Nat × Schema)) (n : Nat) (recs : List UInt8) :
    readerOf sc legacy (imageOf sc n recs) =
      some (layoutOf sc, fileHdr + 2 + (serializeDescriptor sc).length) := by
  have hhdr : slice (imageOf sc n recs) 10 2 = leBytes 2 sc.hdrSize := rfl
  have hfmt : slice (imageOf sc n recs) 4 2 = leBytes 2 2 := rfl
  have hlen : slice (imageOf sc n recs) fileHdr 2 = leBytes 2 (serializeDescriptor sc).length :=
    slice_at (fileHeader_length sc n) (leBytes_length 2 _) _
  have hbody : slice (imageOf sc n recs) (fileHdr + 2) (serializeDescriptor sc).length =
      serializeDescriptor sc := by
    rw [imageOf, ← append_assoc]
    exact slice_at (by simp [fileHeader_length]) rfl _
  have hsize : (imageOf sc n recs).length =
      fileHdr + 2 + (serializeDescriptor sc).length + recs.length := by
    simp [imageOf, fileHeader_length]
    omega
  have hdl : le (leBytes 2 (serializeDescriptor sc).length) = (serializeDescriptor sc).length :=
    le_leBytes_of_lt (Nat.lt_succ_of_le hsc.short)
  have hds : le (leBytes 2 sc.hdrSize) = sc.hdrSize := le_leBytes_of_lt hsc.laid.header
  simp only [readerOf, hhdr, hfmt, hlen, hdl, hds, hbody]
  rw [if_pos (by decide), if_neg (by omega), if_neg (by omega), parseDescriptor_serialize hsc.narrow hsc.short]
  rfl

theorem loadImage_imageOf (hsc : Described sc) (m : LoadHeap) (legacy : List (Nat × Nat × Schema))
    (hu : u.schema = sc) (fuel n : Nat) (recs : List UInt8) :
    loadImage junk fuel m legacy u (imageOf sc n recs) =
      if m.block = false then some (sdbInitEmpty u.schema u.path u.capRecords m.init, false)
      else adopt junk fuel u (fileHeader sc n ++ recs) (sdbInitEmpty u.schema u.path u.capRecords m.init) := by
  have hfid : slice (imageOf sc n recs) 6 2 = leBytes 2 sc.schemaId := rfl
  have hle : le (leBytes 2 sc.schemaId) = sc.schemaId := le_leBytes_of_lt hsc.id
  have hmagic : (imageOf sc n recs).take 4 = lit "SGDB" := rfl
  have hlen : fileHdr ≤ (imageOf sc n recs).length := by
    simp [imageOf, fileHeader_length]
  have hhead : (imageOf sc n recs).take fileHdr = fileHeader sc n := take_left' (fileHeader_length sc n)
  have htail : (imageOf sc n recs).drop (fileHdr + 2 + (serializeDescriptor sc).length) = recs := by
    rw [imageOf, ← append_assoc, ← append_assoc]
    exact drop_left' (by simp [fileHeader_length, Nat.add_assoc])
  simp only [loadImage, hu, hmagic, hfid, hle, readerOf_imageOf hsc, hhead, htail]
  rw [if_neg (by simpa using hlen), if_neg (by simp), if_pos trivial]

theorem adopt_arena (h : Laid sc) (hu : u.schema = sc) (hhd : hd.length = fileHdr)
    (hsize : (hd ++ arena rs).length < 4294967296) (hkeys : ((live rs).map Record.key).Nodup) (e : Option Store) :
    ∃ t, (∀ fuel, rs.length < fuel → adopt junk fuel u (hd ++ arena rs) e = some (some t, true)) ∧
      Tiled sc t rs ∧ rdU32 t.block 12 = (live rs).length := by
  obtain ⟨index, hindex, hrep⟩ := rebuildIndex_arena junk h (A := []) (B := rs) hhd (by simpa using hsize) hkeys
    represents_empty (Nat.lt_succ_self _)
  have hcount : index.keys.length = (live rs).length := by
    rw [hrep.length_keys, ← length_map (f := Prod.fst), map_fst_entries, length_map, nil_append]
  have hraw : Tiled sc { u with block := hd ++ arena rs, cap := (hd ++ arena rs).length, dirty := false, index := index } rs :=
    ⟨hu, ⟨hd, hhd, rfl⟩, le_rfl, hsize, hrep⟩
  refine ⟨_, fun fuel hfuel => ?_, tiled_writeFileHeader hraw index.keys.length, ?_⟩
  · rw [adopt, hu]
    have hwalk := rebuildIndex_mono hindex hfuel
    rw [nil_append, arena_nil, length_nil, Nat.add_zero] at hwalk
    rw [hwalk]
    rfl
  · have hfit : (live rs).length < 256 ^ 4 := by
      have := length_le_arena h (live rs)
      have := arena_live_length rs
      rw [length_append] at hsize
      omega
    rw [writeFileHeader, poke_head (hhd.trans (fileHeader_length _ _).symm), rdU32, hcount]
    have hslice : slice (fileHeader u.schema (live rs).length ++ arena rs) 12 4 = leBytes 4 (live rs).length := rfl
    rw [hslice, le_leBytes_of_lt hfit]

section Load

variable (hsc : Described sc) (hc : c.Lossless) (ht : Tiled sc s rs)
  (hsize : (buildDiskImage (compact s 0)).length ≤ 8 * 1024 * 1024) (hu : u.schema = sc)
  (legacy : List (Nat × Nat × Schema)) {m : LoadHeap}
include hsc hc ht hsize hu

theorem sdbLoad_storeFile : ∃ t, (∀ fuel, rs.length < fuel → sdbLoad junk c fuel m legacy u (some (storeFile c s)) =
        if u.path = [] then some (sdbInitEmpty u.schema u.path u.capRecords m.init, true)
        else if m.raw = false ∨ m.block = false then
          some (sdbInitEmpty u.schema u.path u.capRecords m.init, false)
        else some (some t, true)) ∧
      Tiled sc t (live rs) ∧ rdU32 t.block 12 = (live rs).length := by
  have h := hsc.laid
  have hcompact := tiled_compactInPlace h ht
  obtain ⟨n, hblock⟩ := compact_block h ht
  have himage := buildDiskImage_eq (s := compact s 0) (by rw [compact_zero]; exact hcompact.schema) hblock
  have hbytes : (fileHeader sc n ++ arena (live rs)).length < 4294967296 := by
    rw [← hblock, compact_zero]
    exact lt_of_le_of_lt hcompact.room hcompact.fits
  have hkeys : ((live (live rs)).map Record.key).Nodup := by
    rw [← map_fst_entries fileHdr]
    exact hcompact.indexed.nodup
  obtain ⟨t, hadopt, htiled, hcount⟩ := adopt_arena junk h hu (fileHeader_length sc n) hbytes hkeys
    (sdbInitEmpty u.schema u.path u.capRecords m.init)
  refine ⟨t, fun fuel hfuel => ?_, htiled, by rw [hcount, live_live]⟩
  have hlive : (live rs).length < fuel := lt_of_le_of_lt (length_filter_le _ _) hfuel
  have hgz : storeFile c s ≠ [] := by
    simp [storeFile, gzDeflateBin, gzHdr]
  rw [sdbLoad]
  simp only [hgz, or_false]
  rw [storeFile, gzInflateBin_gzDeflateBin hc hsize, himage]
  simp only [loadImage_imageOf junk hsc m legacy hu fuel n, hadopt fuel hlive]
  by_cases hraw : m.raw = false <;> simp [hraw]

end Load

end Reload

/-- The bytes of the live records, in arena order. -/
def liveImages (s : Store) : List (List UInt8) := (liveRecords s).map fun r => slice s.block r.1 r.2

/-- Two stores hold the same live records in the same order. -/
structure SameRecords (s t : Store) : Prop where
  images : liveImages s = liveImages t
  has : ∀ key, sdbHasRecord s key = sdbHasRecord t key
  get : ∀ key field, sdbGetField s key field = sdbGetField t key field
  count : sdbRecordCount s = sdbRecordCount t
  each : sdbForEach s = sdbForEach t

theorem liveImages_eq (h : Laid sc) (ht : Tiled sc s rs) : liveImages s = (live rs).map Record.image := by
  rw [liveImages, ht.liveRecords_eq h, ← map_snd_liveSpans fileHdr rs, List.map_map, List.map_map]
  refine map_congr_left ?_
  rintro ⟨off, r⟩ hp
  obtain ⟨A, B, hrs, rfl⟩ := mem_spans (mem_filter.mp hp).1
  obtain ⟨pre, hblock, hpre⟩ := (hrs ▸ ht : Tiled sc s (A ++ r :: B)).split
  simp only [Function.comp, hblock, ← hpre]
  exact slice_at rfl rfl _

theorem sameRecords_of_tiled (h : Laid sc) {rs' : List (Record sc)} (hs : Tiled sc s rs) (ht : Tiled sc t rs')
    (hlive : live rs' = live rs) : SameRecords s t := by
  obtain ⟨m, hm⟩ := exists_table hs
  have hm' : Represents m (pairs rs') := by rwa [pairs, hlive, ← pairs]
  refine ⟨?_, fun key => ?_, fun key field => ?_, ?_, ?_⟩
  · rw [liveImages_eq h hs, liveImages_eq h ht, hlive]
  · rw [answers_has hs hm, answers_has ht hm']
  · rw [answers_get h hs hm, answers_get h ht hm']
  · rw [answers_count hs hm, answers_count ht hm']
  · rw [sdbForEach_live h hs, sdbForEach_live h ht, hlive]

def recordsAt (s : Store) : List (Nat × Nat) := walk s.schema.hdrSize s.block s.used fileHdr

theorem recordsAt_live (h : Laid sc) (ht : Tiled sc t (live rs)) : recordsAt t = liveRecords t := by
  obtain ⟨hd, hhd, hblock⟩ := ht.tiles
  have hfuel : (live rs).length ≤ t.used := by
    have := length_le_arena h (live rs)
    rw [Store.used, hblock, length_append]
    omega
  have hwalk := walk_arena h hd (live rs) t.used hfuel
  rw [hhd, ← hblock] at hwalk
  have hall : liveSpans fileHdr (live rs) = spans fileHdr (live rs) := by
    refine filter_eq_self.mpr ?_
    rintro ⟨off, r⟩ hp
    have hr : r ∈ live rs := map_snd_spans fileHdr (live rs) ▸ mem_map.mpr ⟨_, hp, rfl⟩
    simp [deleted_of_mem_live hr]
  rw [recordsAt, ht.schema, hwalk, ht.liveRecords_eq h, hall]

/-- The stores in use: an empty one, what an operation makes of one, one loaded
from the file of another, and one that takes over what a migration wrote. -/
inductive Reached (sc : Schema) (c : Codec) : Store → Prop
  | init {s : Store} (path : Name) (n : Nat) (m : Heap) (hs : sdbInitEmpty sc path n m = some s) : Reached sc c s
  | step {s : Store} (op : Op) (hs : Reached sc c s) (hfits : Fits sc op) : Reached sc c (apply s op)
  | reload {s t u : Store} {ok : Bool} (junk : Nat → UInt8) (fuel : Nat) (m : LoadHeap)
      (legacy : List (Nat × Nat × Schema)) (hs : Reached sc c s) (hu : u.schema = sc)
      (hsize : (buildDiskImage (compact s 0)).length ≤ 8 * 1024 * 1024)
      (hload : sdbLoad junk c fuel m legacy u (some (storeFile c s)) = some (some t, ok)) : Reached sc c t
  | migrated {s : Store} (n : Nat) (hs : Reached sc c s) :
      Reached sc c (writeFileHeader { s with capRecords := n, dirty := true } s.index.keys.length)

theorem sound_reached (hsc : Described sc) (hc : c.Lossless) (hs : Reached sc c s) : Sound sc s := by
  induction hs with
  | init path n m hs => exact sound_sdbInitEmpty hs
  | step op hs hfits ih => exact sound_apply hsc.laid ih hfits
  | @reload s t u ok junk fuel m legacy hs hu hsize hload ih =>
    obtain ⟨rs, ht⟩ := ih
    obtain ⟨v, hv, htiled, -⟩ := sdbLoad_storeFile junk hsc hc ht hsize hu legacy (m := m)
    have hlong := hv (fuel + rs.length + 1) (by omega)
    rw [sdbLoad_mono hload (by omega)] at hlong
    split at hlong
    · exact sound_sdbInitEmpty (hu ▸ (Prod.mk.inj (some_inj.mp hlong)).1.symm)
    · split at hlong
      · exact sound_sdbInitEmpty (hu ▸ (Prod.mk.inj (some_inj.mp hlong)).1.symm)
      · obtain rfl := some_inj.mp (Prod.mk.inj (some_inj.mp hlong)).1
        exact ⟨_, htiled⟩
  | migrated n hs ih =>
    obtain ⟨rs, ht⟩ := (ih.capRecords n).dirty true
    exact ⟨rs, tiled_writeFileHeader ht _⟩

/-- What a flush writes, a load under the same schema reads back: the same live
records in the same order, without tombstones, counted in the header. -/
theorem storeFile_round_trip {ds : List Decl} (hds : Declared ds) {schemaId schemaVer : Nat}
    (hid : schemaId < 65536) (hnames : ∀ d ∈ ds, d.name.length ≤ 255)
    (hdesc : (serializeDescriptor (build schemaId schemaVer ds)).length ≤ 65535) {c : Codec} (hc : c.Lossless)
    {s u : Store} (hs : Reached (build schemaId schemaVer ds) c s)
    (hsize : (buildDiskImage (compact s 0)).length ≤ 8 * 1024 * 1024)
    (hu : u.schema = build schemaId schemaVer ds) (hpath : u.path ≠ []) (junk : Nat → UInt8) {m : LoadHeap}
    (hraw : m.raw = true) (hblock : m.block = true) (legacy : List (Nat × Nat × Schema)) :
    ∃ t, (∃ n, ∀ fuel, n < fuel →
        sdbLoad junk c fuel m legacy u (some (storeFile c s)) = some (some t, true)) ∧
      SameRecords s t ∧ recordsAt t = liveRecords t ∧ rdU32 t.block 12 = (liveRecords t).length := by
  have hsc := described_build hds hid hnames hdesc
  obtain ⟨rs, ht⟩ := sound_reached hsc hc hs
  obtain ⟨t, hload, htiled, hcount⟩ := sdbLoad_storeFile junk hsc hc ht hsize hu legacy (m := m)
  refine ⟨t, ⟨rs.length, fun fuel hfuel => ?_⟩, sameRecords_of_tiled hsc.laid ht htiled (live_live rs),
    recordsAt_live hsc.laid htiled, ?_⟩
  · rw [hload fuel hfuel, if_neg hpath, if_neg (by simp [hraw, hblock])]
  · rw [hcount, ← length_map (f := fun p : Nat × Nat => slice t.block p.1 p.2)]
    have himages := liveImages_eq hsc.laid htiled
    rw [live_live, liveImages] at himages
    rw [himages, length_map]

def freely : LoadHeap := ⟨true, true, plenty, fun _ => (plenty, plenty)⟩

theorem reached_run {ops : List Op} (hs : Reached sc c s)
    (hops : ∀ op ∈ ops, Fits sc op) : Reached sc c (ops.foldl apply s) := by
  induction ops generalizing s with
  | nil => exact hs
  | cons op ops ih =>
    exact ih (.step op hs (hops op mem_cons_self)) fun o ho => hops o (mem_cons_of_mem op ho)

def unloaded (sc : Schema) (path : Name) (capRecords : Nat) : Store := ⟨sc, path, capRecords, [], 0, false, ∅⟩

theorem storeFile_round_trip_contacts : ∃ s t, sdbInitEmpty (build 1 1 contacts) (lit "c.db.gz") 0 plenty = some s ∧
      (∃ n, ∀ fuel, n < fuel →
        sdbLoad (fun _ => 0) verbatim fuel freely [] (unloaded (build 1 1 contacts) (lit "c.db.gz") 0)
          (some (storeFile verbatim (contactOps.foldl apply s))) = some (some t, true)) ∧
      SameRecords (contactOps.foldl apply s) t := by
  obtain ⟨s, hs⟩ := isSome_iff_exists.mp
    (show (sdbInitEmpty (build 1 1 contacts) (lit "c.db.gz") 0 plenty).isSome by decide +kernel)
  have hsize : (sdbInitEmpty (build 1 1 contacts) (lit "c.db.gz") 0 plenty).any fun s =>
      (buildDiskImage (compact (contactOps.foldl apply s) 0)).length ≤ 8 * 1024 * 1024 := by
    decide +kernel
  rw [hs, any_some, decide_eq_true_eq] at hsize
  have hreached : Reached (build 1 1 contacts) verbatim (contactOps.foldl apply s) :=
    reached_run (.init _ _ _ hs) (by decide +kernel)
  obtain ⟨t, hload, hsame, -⟩ := storeFile_round_trip contacts_declared (by decide) (by decide)
    (by decide +kernel) verbatim_lossless hreached hsize
    (u := unloaded (build 1 1 contacts) (lit "c.db.gz") 0) rfl (by decide) (fun _ => 0) (m := freely) rfl rfl []
  exact ⟨s, t, hs, hload, hsame⟩

theorem keep_index (hs off rlen : Nat) (c : Cursor) (t : AList fun _ : Name => Nat) :
    ∃ u, Cursor.keep hs { c with index := t } off rlen = { c.keep hs off rlen with index := u } := by
  rw [Cursor.keep, Cursor.keep]
  split
  · exact ⟨_, rfl⟩
  · simp only
    split <;> exact ⟨_, rfl⟩

/-- What a compaction writes does not depend on the index. -/
theorem compactLoop_index (hs used fuel off : Nat) (c : Cursor) (t : AList fun _ : Name => Nat) :
    ∃ u, compactLoop hs used fuel off { c with index := t } = { compactLoop hs used fuel off c with index := u } := by
  induction fuel generalizing off c t with
  | zero => exact ⟨t, rfl⟩
  | succ fuel ih =>
    rw [compactLoop, compactLoop]
    split
    · split
      · exact ⟨t, rfl⟩
      · split
        · exact ih _ c t
        · obtain ⟨u, hu⟩ := keep_index hs off (rdU32 c.block off) c t
          rw [hu]
          exact ih _ _ u
    · exact ⟨t, rfl⟩

theorem compact_index (s : Store) (t : AList fun _ : Name => Nat) :
    (compact { s with index := t } 0).block = (compact s 0).block := by
  obtain ⟨u, hu⟩ := compactLoop_index s.schema.hdrSize s.used s.used fileHdr ⟨s.block, s.index, fileHdr, [], 0⟩ t
  simp only [Store.used] at hu
  rw [compact_zero, compact_zero]
  simp only [sdbCompactInPlace, writeFileHeader, Store.used, hu]
  rfl

theorem storeFile_index (c : Codec) (s : Store) (t : AList fun _ : Name => Nat) :
    storeFile c { s with index := t } = storeFile c s := by
  rw [storeFile, storeFile, buildDiskImage, buildDiskImage, compact_index]
  rfl

def notes : List Decl := [.u8 (lit "n"), .text (lit "a"), .text (lit "b")]

/-- A key whose length does not fit its two bytes, and which reads as two texts
behind an empty key. -/
def longKey : Name :=
  leBytes 2 40000 ++ (replicate 40000 97 ++ (leBytes 2 25536 ++ replicate 25532 97))

def textsOfLongKey : List Name := [replicate 40000 97, replicate 25532 97 ++ [0, 0, 0, 0]]

theorem longKey_length : longKey.length = 65536 := by
  simp only [longKey, length_append, leBytes_length, length_replicate]

theorem counted_longKey : counted longKey ++ (([[], []] : List Name).map counted).flatten =
    counted [] ++ (textsOfLongKey.map counted).flatten := by
  have hzero : leBytes 2 65536 = counted [] := by decide
  have hpad : (([[], []] : List Name).map counted).flatten = [0, 0, 0, 0] := by decide
  have hfirst : counted (replicate 40000 97) = leBytes 2 40000 ++ replicate 40000 97 := by
    rw [counted, length_replicate]
  have hsecond : counted (replicate 25532 97 ++ [0, 0, 0, 0]) =
      leBytes 2 25536 ++ (replicate 25532 97 ++ [0, 0, 0, 0]) := by
    rw [counted, length_append, length_replicate]
    rfl
  rw [hpad, counted, longKey_length, hzero, longKey]
  simp only [textsOfLongKey, map_cons, map_nil, flatten_cons, flatten_nil, append_nil,
    hfirst, hsecond, append_assoc]

theorem notes_declared : Declared notes where
  fixstr := by simp [notes]
  header := by decide

theorem notes_described : Described (build 1 1 notes) :=
  described_build notes_declared (by decide) (by decide) (by decide +kernel)

theorem buildRecord_longKey (hdr : List UInt8) :
    buildRecord hdr longKey [[], []] = buildRecord hdr [] textsOfLongKey := by
  simp only [buildRecord, append_assoc, counted_longKey]

theorem buildRecord_longKey_length : (buildRecord (replicate 9 0) [] textsOfLongKey).length = 65551 := by
  have hlen : (replicate 9 (0 : UInt8) ++ counted [] ++ (textsOfLongKey.map counted).flatten).length = 65551 := by
    simp only [textsOfLongKey, map_cons, map_nil, flatten_cons, flatten_nil,
      length_append, counted_length, length_replicate, length_cons, length_nil]
  rw [buildRecord, poke_length, hlen]
  rw [hlen, leBytes_length]
  decide

/-- An empty store of notes with room for one record of the long key. -/
def notebook : Store := ⟨build 1 1 notes, lit "n.db.gz", 0, fileHeader (build 1 1 notes) 0, 131072, false, ∅⟩

theorem notebook_tiled : Tiled (build 1 1 notes) notebook [] where
  schema := rfl
  tiles := ⟨fileHeader (build 1 1 notes) 0, fileHeader_length _ 0, by simp [notebook]⟩
  room := by decide
  fits := by decide
  indexed := represents_empty

/-- The store with one more record, indexed under a key of its own. -/
def noted (key : Name) : Store :=
  { notebook with
    block := storeFixed ⟨lit "n", .u8, 8, 0⟩
      (notebook.block ++ buildRecord (replicate 9 0) [] textsOfLongKey) 24 (lit "1")
    dirty := true
    index := notebook.index.insert key 16 }

theorem sound_noted : Sound (build 1 1 notes) (noted []) := by
  have h := notes_described.laid
  have htext : ∀ t ∈ textsOfLongKey, t.length < 65536 := by
    simp only [textsOfLongKey, mem_cons, not_mem_nil, or_false, forall_eq_or_imp, forall_eq,
      length_append, length_replicate, length_cons, length_nil]
    omega
  have hsize : (buildRecord (replicate 9 0) [] textsOfLongKey).length < 4294967296 := by
    rw [buildRecord_longKey_length]
    decide
  have hhdr : (replicate 9 (0 : UInt8)).length = (build 1 1 notes).hdrSize := by decide
  have hcount : textsOfLongKey.length = (build 1 1 notes).textCount := by decide
  have happ := tiled_append notebook_tiled (r := built h hhdr (by decide) hcount htext hsize) ?_ nofun ?_
  · rw [built_image] at happ
    have hfind : (build 1 1 notes).find (lit "n") = some ⟨lit "n", .u8, 8, 0⟩ := rfl
    exact sound_storeField h (a := plenty) ⟨_, happ⟩ (AList.lookup_insert _) hfind nofun
  · rw [built_deleted]
    rfl
  · rw [built_image, buildRecord_longKey_length]
    decide

theorem sdbSetField_new {key field val : Name} {fd : Field} {a b : Heap} {image : List UInt8}
    (hfd : s.schema.find field = some fd) (hk : fd.kind = .u8) (hnew : findRec s key = none)
    (himage : blankRecord s.schema key = image)
    (hgrow : ensureCap s (s.used + image.length) a = some t) (hcap : t.capRecords = 0) :
    (sdbSetField s key field val a b).1 =
      { t with
        block := storeFixed fd (t.block ++ image) (t.used % 4294967296 + fd.off) val
        dirty := true
        index := t.index.insert key (t.used % 4294967296) } := by
  have happend : appendRecord s key image a =
      ({ t with block := t.block ++ image, index := t.index.insert key (t.used % 4294967296) }, true) := by
    rw [appendRecord, makeRoom, hgrow]
    rfl
  rw [sdbSetField, hfd]
  simp only [hnew, himage, happend]
  rw [trim_eq (by exact hcap)]
  simp only [findRec, AList.lookup_insert, storeField, hk]
  rfl

theorem set_longKey (hs : sdbInitEmpty (build 1 1 notes) (lit "n.db.gz") 0 plenty = some s) :
    (sdbSetField s longKey (lit "n") (lit "1") plenty plenty).1 = noted longKey := by
  have hstart : s = { notebook with cap := 256 } := (some_inj.mp hs).symm
  have hschema : s.schema = build 1 1 notes := by rw [hstart]; rfl
  have hused : s.used = 16 := by rw [hstart]; rfl
  have hnew : findRec s longKey = none := by rw [hstart]; rfl
  have hfind : s.schema.find (lit "n") = some ⟨lit "n", .u8, 8, 0⟩ := by rw [hschema]; rfl
  have himage : buildRecord (replicate s.schema.hdrSize 0) longKey (replicate s.schema.textCount []) =
      buildRecord (replicate 9 0) [] textsOfLongKey := by
    rw [hschema]
    exact buildRecord_longKey _
  have hgrow : ensureCap s (s.used + (buildRecord (replicate 9 0) [] textsOfLongKey).length) plenty =
      some notebook := by
    have hcap : doubled 65567 256 65567 = 131072 := by decide +kernel
    rw [buildRecord_longKey_length, hused, hstart, ensureCap, if_neg (by decide)]
    simp only [if_neg (show (256 : Nat) ≠ 0 by decide), hcap]
    rfl
  have hend : notebook.used % 4294967296 = 16 := rfl
  rw [sdbSetField_new hfind rfl hnew himage hgrow rfl, hend]
  rfl

/-- A key of 65536 bytes is there until the store is written and read back. -/
theorem longKey_lost :
    ∃ s t, sdbInitEmpty (build 1 1 notes) (lit "n.db.gz") 0 plenty = some s ∧ (∀ b ∈ longKey, b ≠ 0) ∧
      (∃ n, ∀ fuel, n < fuel →
        sdbLoad (fun _ => 0) verbatim fuel freely [] (unloaded (build 1 1 notes) (lit "n.db.gz") 0)
          (some (storeFile verbatim (apply s (.set longKey (lit "n") (lit "1") plenty plenty)))) =
            some (some t, true)) ∧
      sdbHasRecord (apply s (.set longKey (lit "n") (lit "1") plenty plenty)) longKey = true ∧
      sdbHasRecord t longKey = false := by
  obtain ⟨s, hs⟩ := isSome_iff_exists.mp
    (show (sdbInitEmpty (build 1 1 notes) (lit "n.db.gz") 0 plenty).isSome by decide +kernel)
  obtain ⟨rs, ht⟩ := sound_noted
  have hsize : (buildDiskImage (compact (noted []) 0)).length ≤ 8 * 1024 * 1024 := by
    obtain ⟨n, hblock⟩ := compact_block notes_described.laid ht
    obtain ⟨hd, hhd, hused⟩ := ht.tiles
    have hschema : (compact (noted []) 0).schema = build 1 1 notes := rfl
    have hroom : hd.length + (arena rs).length ≤ 131072 := by
      rw [← length_append, ← hused]
      exact ht.room
    have hlive := arena_live_length rs
    have hdesc : (serializeDescriptor (build 1 1 notes)).length = 23 := by decide +kernel
    rw [buildDiskImage_eq hschema hblock, imageOf, length_append, length_append,
      length_append, fileHeader_length, leBytes_length, hdesc, fileHdr]
    omega
  obtain ⟨t, hload, htiled, -⟩ := sdbLoad_storeFile (fun _ => 0) notes_described verbatim_lossless ht hsize
    (u := unloaded (build 1 1 notes) (lit "n.db.gz") 0) rfl [] (m := freely)
  have hset := set_longKey hs
  have hfile : storeFile verbatim (noted longKey) = storeFile verbatim (noted []) :=
    storeFile_index verbatim (noted []) (notebook.index.insert longKey 16)
  have hne : longKey ≠ [] := by
    intro h
    have := longKey_length
    rw [h] at this
    cases this
  refine ⟨s, t, hs, ?_, ⟨rs.length, fun fuel hfuel => ?_⟩, ?_, ?_⟩
  · have hlow : ∀ b ∈ leBytes 2 40000, b ≠ 0 := by decide +kernel
    have hhigh : ∀ b ∈ leBytes 2 25536, b ≠ 0 := by decide +kernel
    intro b hb
    simp only [longKey, mem_append, mem_replicate] at hb
    rcases hb with hb | ⟨-, rfl⟩ | hb | ⟨-, rfl⟩
    · exact hlow b hb
    · decide
    · exact hhigh b hb
    · decide
  · rw [apply, hset, hfile, hload fuel hfuel]
    rfl
  · rw [apply, hset, sdbHasRecord, noted, AList.lookup_insert]
    rfl
  · rw [← (sameRecords_of_tiled notes_described.laid ht htiled (live_live rs)).has, sdbHasRecord, noted,
      AList.lookup_insert_ne hne]
    rfl

end Spangap.StoreRoundTrip
