import Mathlib.Data.List.Sort
import Spangap.Spanfs

namespace Spangap.SpanfsPack

open Bytes CJson Crc32 Bisect Spanfs
open List hiding count

variable {i : Nat} {e : Entry} {r : Nat × Nat × Entry} {a : List UInt8} {path name : Name}

/-- A file: its path below the root and its bytes. -/
abbrev Entry := Name × List UInt8

variable {q : Nat × Nat × Entry}

def alignUp (x a : Nat) : Nat := (x + a - 1) / a * a

def dataAlign : Nat := 4

def PathLE (x y : Entry) : Prop := (compare x.1 y.1).isLE = true

instance : DecidableRel PathLE := fun x y => inferInstanceAs (Decidable ((compare x.1 y.1).isLE = true))

/-- The files of a tree, which are found in some order, sorted by their paths. -/
def collect (files : List Entry) : List Entry := files.insertionSort PathLE

def pathBlob (entries : List Entry) : List UInt8 := entries.flatMap fun e => e.1 ++ [0]

def pathOffs : Nat → List Entry → List Nat
  | _, [] => []
  | off, e :: es => off :: pathOffs (off + (e.1 ++ [0]).length) es

def layData : Nat → List Entry → List Nat × List UInt8 × Nat
  | cur, [] => ([], [], cur)
  | cur, e :: es =>
    let pad := alignUp cur dataAlign - cur
    let r := layData (cur + pad + e.2.length) es
    ((cur + pad) :: r.1, replicate pad 0 ++ (e.2 ++ r.2.1), r.2.2)

def record (pathOff dataOff dataLen : Nat) : List UInt8 := leBytes 4 pathOff ++ (leBytes 4 dataOff ++ leBytes 4 dataLen)

def index (pathOffs dataOffs : List Nat) (entries : List Entry) : List UInt8 :=
  (pathOffs.zip (dataOffs.zip entries)).flatMap fun r => record r.1 r.2.1 r.2.2.2.length

def blobStart (entries : List Entry) : Nat := headerSz + entries.length * entrySz

def dataStart (entries : List Entry) : Nat := alignUp (blobStart entries + (pathBlob entries).length) dataAlign

def header (count totalSize crc : Nat) : List UInt8 :=
  leBytes 4 magic ++ ([1, 0, 0, 0] ++ (leBytes 4 count ++ (leBytes 4 totalSize ++ leBytes 4 crc)))

def metadata (entries : List Entry) : List UInt8 :=
  index (pathOffs (blobStart entries) entries) (layData (dataStart entries) entries).1 entries ++
    (pathBlob entries ++ replicate (dataStart entries - (blobStart entries + (pathBlob entries).length)) 0)

def totalSize (files : List Entry) : Nat := (layData (dataStart (collect files)) (collect files)).2.2

def image (files : List Entry) : List UInt8 :=
  let entries := collect files
  header entries.length (totalSize files) (crc32 0 (metadata entries)).toNat ++ (metadata entries ++ (layData (dataStart entries) entries).2.1)

/-- `struct.pack` refuses a number that does not fit; the total size is the largest one. -/
def pack (files : List Entry) : Option (List UInt8) := if totalSize files < 2 ^ 32 then some (image files) else none

section Layout

variable {es : List Entry}

theorem le_alignUp (x : Nat) : x ≤ alignUp x dataAlign := by
  rw [alignUp, dataAlign]
  omega

theorem alignUp_alignUp (x : Nat) : alignUp (alignUp x dataAlign) dataAlign = alignUp x dataAlign := by
  rw [alignUp, alignUp, dataAlign]
  omega

def rows : Nat → Nat → List Entry → List (Nat × Nat × Entry)
  | _, _, [] => []
  | po, cur, e :: es => (po, alignUp cur dataAlign, e) :: rows (po + (e.1 ++ [0]).length) (alignUp cur dataAlign + e.2.length) es

theorem lay_rows (po cur : Nat) (es : List Entry) : (pathOffs po es).zip ((layData cur es).1.zip es) = rows po cur es := by
  induction es generalizing po cur with
  | nil => rfl
  | cons e es ih =>
    have hcur : cur + (alignUp cur dataAlign - cur) = alignUp cur dataAlign := Nat.add_sub_cancel' (le_alignUp cur)
    rw [pathOffs, layData, rows]
    dsimp only
    rw [zip_cons_cons, zip_cons_cons, hcur, ih]

@[simp] theorem rows_length (po cur : Nat) (es : List Entry) : (rows po cur es).length = es.length := by
  induction es generalizing po cur with
  | nil => rfl
  | cons e es ih => rw [rows, length_cons, length_cons, ih]

theorem layData_ge (cur : Nat) (es : List Entry) : cur ≤ (layData cur es).2.2 := by
  induction es generalizing cur with
  | nil => exact le_refl cur
  | cons e es ih => exact le_trans (by omega) (ih (cur + (alignUp cur dataAlign - cur) + e.2.length))

theorem layData_length (cur : Nat) (es : List Entry) : cur + (layData cur es).2.1.length = (layData cur es).2.2 := by
  induction es generalizing cur with
  | nil => rfl
  | cons e es ih =>
    have := ih (cur + (alignUp cur dataAlign - cur) + e.2.length)
    rw [layData]
    dsimp only
    rw [length_append, length_append, length_replicate]
    omega

theorem row_path {po cur : Nat} (hr : r ∈ rows po cur es) (ha : a.length = po) (c : List UInt8) :
    po ≤ r.1 ∧ r.1 + (r.2.2.1.length + 1) ≤ po + (pathBlob es).length ∧ ∃ s, (a ++ (pathBlob es ++ c)).drop r.1 = r.2.2.1 ++ 0 :: s := by
  induction es generalizing po cur a with
  | nil => cases hr
  | cons e es ih =>
    have hblob : pathBlob (e :: es) = (e.1 ++ [0]) ++ pathBlob es := flatMap_cons
    rw [rows, mem_cons] at hr
    rw [hblob, length_append, length_append, length_singleton]
    rcases hr with rfl | hr
    · refine ⟨le_rfl, by dsimp only; omega, pathBlob es ++ c, ?_⟩
      rw [drop_left' ha, append_assoc, append_assoc]
      rfl
    · have hnext := ih hr (show (a ++ (e.1 ++ [0])).length = po + (e.1 ++ [0]).length by rw [length_append, ha])
      rw [length_append, length_singleton, append_assoc, ← append_assoc] at hnext
      rw [← append_assoc a]
      obtain ⟨hlo, hhi, hs⟩ := hnext
      refine ⟨by omega, by omega, ?_⟩
      simpa only [append_assoc] using hs

theorem row_data {po cur : Nat} (hr : r ∈ rows po cur es) (ha : a.length = cur) (c : List UInt8) :
    cur ≤ r.2.1 ∧ r.2.1 + r.2.2.2.length ≤ (layData cur es).2.2 ∧ ∃ s, (a ++ ((layData cur es).2.1 ++ c)).drop r.2.1 = r.2.2.2 ++ s := by
  induction es generalizing po cur a with
  | nil => cases hr
  | cons e es ih =>
    have hle := le_alignUp cur
    have hcur : cur + (alignUp cur dataAlign - cur) = alignUp cur dataAlign := Nat.add_sub_cancel' hle
    rw [rows, mem_cons] at hr
    rw [layData]
    dsimp only
    rw [hcur]
    rcases hr with rfl | hr
    · have hpre : (a ++ replicate (alignUp cur dataAlign - cur) 0).length = alignUp cur dataAlign := by
        rw [length_append, length_replicate, ha, hcur]
      refine ⟨hle, layData_ge _ es, (layData (alignUp cur dataAlign + e.2.length) es).2.1 ++ c, ?_⟩
      rw [append_assoc, ← append_assoc a, drop_left' hpre, append_assoc]
    · have hpre : (a ++ (replicate (alignUp cur dataAlign - cur) 0 ++ e.2)).length = alignUp cur dataAlign + e.2.length := by
        rw [length_append, length_append, length_replicate, ha, ← Nat.add_assoc, hcur]
      obtain ⟨hlo, hhi, s, hs⟩ := ih hr hpre
      refine ⟨by omega, hhi, s, ?_⟩
      simpa only [append_assoc] using hs

theorem record_length (p d n : Nat) : (record p d n).length = 12 := by simp [record]

theorem index_rows (l : List (Nat × Nat × Entry)) (h : l[i]? = some r) (c : List UInt8) :
    ∃ s, (l.flatMap (fun r => record r.1 r.2.1 r.2.2.2.length) ++ c).drop (12 * i) = record r.1 r.2.1 r.2.2.2.length ++ s := by
  induction l generalizing i with
  | nil => simp at h
  | cons q l ih =>
    cases i with
    | zero =>
      obtain rfl : q = r := by simpa using h
      rw [Nat.mul_zero, drop_zero, flatMap_cons, append_assoc]
      exact ⟨_, rfl⟩
    | succ i =>
      obtain ⟨s, hs⟩ := ih (by simpa using h)
      refine ⟨s, ?_⟩
      rw [flatMap_cons, append_assoc, show 12 * (i + 1) = 12 + 12 * i by omega, ← drop_drop, drop_left' (record_length _ _ _), hs]

theorem word_of_drop {b s : List UInt8} {off v : Nat} (h : b.drop off = leBytes 4 v ++ s) (hv : v < 2 ^ 32) : word b off = v := by
  rw [word, slice, h, take_left' (leBytes_length 4 v), le_leBytes_of_lt hv]

end Layout

section Packed

variable {files : List Entry}

theorem collect_perm (files : List Entry) : (collect files).Perm files := perm_insertionSort PathLE files

theorem mem_collect : e ∈ collect files ↔ e ∈ files := (collect_perm files).mem_iff

theorem collect_length (files : List Entry) : (collect files).length = files.length := (collect_perm files).length_eq

def layout (files : List Entry) : List (Nat × Nat × Entry) :=
  rows (blobStart (collect files)) (dataStart (collect files)) (collect files)

theorem index_eq (files : List Entry) :
    index (pathOffs (blobStart (collect files)) (collect files)) (layData (dataStart (collect files)) (collect files)).1 (collect files) =
      (layout files).flatMap fun r => record r.1 r.2.1 r.2.2.2.length := by
  rw [index, lay_rows]
  rfl

theorem index_length (l : List (Nat × Nat × Entry)) : (l.flatMap fun r => record r.1 r.2.1 r.2.2.2.length).length = 12 * l.length := by
  induction l with
  | nil => rfl
  | cons r l ih =>
    rw [flatMap_cons, length_append, record_length, ih, length_cons]
    omega

theorem blob_le (es : List Entry) : blobStart es + (pathBlob es).length ≤ dataStart es := le_alignUp _

theorem blobStart_eq (es : List Entry) : blobStart es = 20 + 12 * es.length := by
  rw [blobStart, headerSz, entrySz, Nat.mul_comm]

theorem metadata_length (files : List Entry) : 20 + (metadata (collect files)).length = dataStart (collect files) := by
  have hle := blob_le (collect files)
  have hstart := blobStart_eq (collect files)
  rw [metadata, index_eq, length_append, length_append, length_replicate, index_length, layout, rows_length]
  omega

theorem header_length (c t k : Nat) : (header c t k).length = 20 := by simp [header]

theorem image_length (files : List Entry) : (image files).length = totalSize files := by
  have hmeta := metadata_length files
  have hdata := layData_length (dataStart (collect files)) (collect files)
  rw [image, length_append, header_length, length_append, totalSize]
  omega

theorem image_words (hsize : totalSize files < 2 ^ 32) :
    word (image files) 0 = magic ∧ slice (image files) 4 1 = [1] ∧ count (image files) = files.length ∧ total (image files) = totalSize files ∧
      word (image files) 16 = (crc32 0 (metadata (collect files))).toNat := by
  have hlen := collect_length files
  have hfew : (collect files).length < 2 ^ 32 := by
    have h₁ := blobStart_eq (collect files)
    have h₂ := blob_le (collect files)
    have h₃ := layData_ge (dataStart (collect files)) (collect files)
    rw [totalSize] at hsize
    omega
  refine ⟨word_of_drop (v := magic) rfl (by decide), rfl, ?_, word_of_drop (v := totalSize files) rfl hsize, word_of_drop rfl (UInt32.toNat_lt _)⟩
  rw [← hlen]
  exact word_of_drop rfl hfew

/-- Row `q` of the index is its row `i`, and what it points to is there. -/
structure Placed (files : List Entry) (i : Nat) (q : Nat × Nat × Entry) : Prop where
  pathOff : word (image files) (20 + 12 * i) = q.1
  dataOff : word (image files) (24 + 12 * i) = q.2.1
  dataLen : word (image files) (28 + 12 * i) = q.2.2.2.length
  path : ∃ s, (image files).drop q.1 = q.2.2.1 ++ 0 :: s
  data : ∃ s, (image files).drop q.2.1 = q.2.2.2 ++ s
  low : 20 + 12 * files.length ≤ q.1
  high : q.1 + (q.2.2.1.length + 1) ≤ totalSize files
  fits : q.2.1 + q.2.2.2.length ≤ totalSize files

theorem layout_placed (hsize : totalSize files < 2 ^ 32) (h : (layout files)[i]? = some q) : Placed files i q := by
  have hlen := collect_length files
  have hmem : q ∈ layout files := mem_of_getElem? h
  have hstart := blobStart_eq (collect files)
  have hblob := blob_le (collect files)
  have htotal := layData_ge (dataStart (collect files)) (collect files)
  rw [← totalSize] at htotal
  have himage : image files = header (collect files).length (totalSize files) (crc32 0 (metadata (collect files))).toNat ++
      (metadata (collect files) ++ (layData (dataStart (collect files)) (collect files)).2.1) := rfl
  generalize hh : header (collect files).length (totalSize files) (crc32 0 (metadata (collect files))).toNat = hd at himage
  have hhead : hd.length = 20 := hh ▸ header_length _ _ _
  obtain ⟨hlo, hhi, s, hs⟩ := row_path hmem (a := hd ++ (layout files).flatMap fun r => record r.1 r.2.1 r.2.2.2.length)
    (by rw [length_append, hhead, index_length, layout, rows_length, hstart])
    (replicate (dataStart (collect files) - (blobStart (collect files) + (pathBlob (collect files)).length)) 0 ++
      (layData (dataStart (collect files)) (collect files)).2.1)
  obtain ⟨-, hfits, s', hs'⟩ := row_data hmem (a := hd ++ metadata (collect files))
    (by rw [length_append, hhead, metadata_length]) []
  obtain ⟨s'', hs''⟩ := index_rows (layout files) h (pathBlob (collect files) ++
    (replicate (dataStart (collect files) - (blobStart (collect files) + (pathBlob (collect files)).length)) 0 ++
      (layData (dataStart (collect files)) (collect files)).2.1))
  rw [← totalSize] at hfits
  have hrecord : (image files).drop (20 + 12 * i) = leBytes 4 q.1 ++ (leBytes 4 q.2.1 ++ (leBytes 4 q.2.2.2.length ++ s'')) := by
    rw [himage, metadata, index_eq, ← drop_drop, drop_left' hhead, append_assoc, append_assoc, hs'', record,
      append_assoc, append_assoc]
  have hdrop : ∀ k, (image files).drop (20 + k + 12 * i) = ((image files).drop (20 + 12 * i)).drop k := by
    intro k
    rw [drop_drop]
    congr 1
    omega
  refine ⟨word_of_drop hrecord (by omega), word_of_drop (s := leBytes 4 q.2.2.2.length ++ s'') ?_ (by omega),
    word_of_drop (s := s'') ?_ (by omega), ⟨s, ?_⟩, ⟨s', ?_⟩, by omega, by omega, hfits⟩
  · rw [hdrop 4, hrecord, drop_left' (leBytes_length 4 _)]
  · rw [hdrop 8, hrecord, ← append_assoc, drop_left' (by rw [length_append, leBytes_length, leBytes_length])]
  · rw [← hs, himage, metadata, index_eq]
    simp
  · rw [← hs', himage, append_nil, append_assoc]

theorem Placed.valid (h : Placed files i q) : Valid (image files) (20 + 12 * files.length) (totalSize files) i := by
  obtain ⟨s, hs⟩ := h.path
  have hhigh := h.high
  refine ⟨by rw [h.pathOff]; exact h.low, by rw [h.pathOff]; omega, by rw [h.dataOff, h.dataLen]; exact h.fits, ?_⟩
  rw [h.pathOff, slice, hs, take_append]
  refine mem_append_right _ ?_
  rw [show totalSize files - q.1 - q.2.2.1.length = totalSize files - q.1 - q.2.2.1.length - 1 + 1 by omega, take_succ_cons]
  exact mem_cons_self

theorem layout_length (files : List Entry) : (layout files).length = files.length := by
  rw [layout, rows_length, collect_length]

theorem layout_some (hi : i < files.length) : ∃ q, (layout files)[i]? = some q :=
  ⟨_, getElem?_eq_getElem (by rwa [layout_length])⟩

theorem covers_image (hsize : totalSize files < 2 ^ 32) : covers (image files) = dataStart (collect files) := by
  obtain ⟨-, -, hcount, htotal, -⟩ := image_words hsize
  rw [covers, hcount, htotal]
  cases hes : collect files with
  | nil =>
    have hnone : files.length = 0 := by rw [← collect_length, hes, length_nil]
    rw [if_neg (by omega), totalSize, hes]
    rfl
  | cons e es =>
    have hsome : 0 < files.length := by
      rw [← collect_length, hes]
      exact Nat.succ_pos _
    have hrow : (layout files)[0]? = some (blobStart (e :: es), alignUp (dataStart (e :: es)) dataAlign, e) := by
      rw [layout, hes, rows]
      rfl
    rw [if_pos hsome, first]
    exact (layout_placed hsize hrow).dataOff.trans (alignUp_alignUp _)

theorem image_accepted (hsize : totalSize files < 2 ^ 32) : Accepted (image files) := by
  obtain ⟨hmagic, hversion, hcount, htotal, hcrc⟩ := image_words hsize
  have hlen := collect_length files
  have hstart := blobStart_eq (collect files)
  have hblob := blob_le (collect files)
  have hge := layData_ge (dataStart (collect files)) (collect files)
  rw [← totalSize] at hge
  have hmeta := metadata_length files
  have hcovers := covers_image hsize
  have hfits : 20 + 12 * files.length < 2 ^ 32 := by omega
  refine ⟨⟨?_, hmagic, hversion, ?_, ?_, ?_⟩, ?_, ?_, ?_, ?_, ?_⟩
  · rw [image_length, headerSz]
    omega
  · rw [htotal, headerSz]
    omega
  · rw [htotal, image_length]
  · rw [htotal, hcount, indexEnd_eq hfits]
    omega
  · rwa [hcount]
  · rw [hcount, hcovers]
    omega
  · rw [hcovers, htotal]
    exact hge
  · rw [hcrc, hcovers, ← hmeta, Nat.add_sub_cancel_left, image, slice_at (header_length _ _ _) rfl]
  · intro i hi
    rw [hcount] at hi ⊢
    rw [htotal]
    obtain ⟨q, hq⟩ := layout_some hi
    exact (layout_placed hsize hq).valid

theorem open_image (hsize : totalSize files < 2 ^ 32) : openMem (image files) = .ok (Spanfs.image (image files)) := by
  have hacc := image_accepted hsize
  rcases open_fits (by rwa [image_length]) hacc.headed hacc.fits with ⟨-, hopen⟩ | ⟨hno, -⟩
  · exact hopen
  · exact absurd hacc hno

theorem rows_entries (po cur : Nat) (es : List Entry) : (rows po cur es).map (fun q => q.2.2) = es := by
  induction es generalizing po cur with
  | nil => rfl
  | cons e es ih => rw [rows, map_cons, ih]

theorem layout_entry (h : (collect files)[i]? = some e) : ∃ q, (layout files)[i]? = some q ∧ q.2.2 = e := by
  rw [← rows_entries (blobStart (collect files)) (dataStart (collect files)) (collect files), getElem?_map] at h
  obtain ⟨q, hq, rfl⟩ := Option.map_eq_some_iff.mp h
  exact ⟨q, hq, rfl⟩

theorem takeWhile_name (h : 0 ∉ name) (s : List UInt8) : (name ++ 0 :: s).takeWhile (· ≠ 0) = name := by
  have hall : ∀ b ∈ name, decide (b ≠ 0) = true := by
    intro b hb
    refine decide_eq_true ?_
    rintro rfl
    exact h hb
  rw [takeWhile_append_of_pos hall, takeWhile_cons_of_neg (by simp), append_nil]

theorem entry_image (hsize : totalSize files < 2 ^ 32) (hnul : ∀ f ∈ files, 0 ∉ f.1) (h : (collect files)[i]? = some e) :
    ∃ off, (Spanfs.image (image files)).entPath i = .ok e.1 ∧ (Spanfs.image (image files)).entData i = .ok (off, e.2.length) ∧
      slice (image files) off e.2.length = e.2 := by
  have hacc := image_accepted hsize
  obtain ⟨-, -, hcount, -, -⟩ := image_words hsize
  obtain ⟨q, hq, rfl⟩ := layout_entry h
  have hp := layout_placed hsize hq
  have hi : i < count (image files) := by
    obtain ⟨hlt, -⟩ := List.getElem?_eq_some_iff.mp h
    rwa [hcount, ← collect_length]
  have hmem : q.2.2 ∈ files := mem_collect.mp (mem_of_getElem? h)
  obtain ⟨s, hs⟩ := hp.path
  obtain ⟨s', hs'⟩ := hp.data
  refine ⟨q.2.1, ?_, ?_, ?_⟩
  · rw [hacc.entPath hi, hp.pathOff, hs, takeWhile_name (hnul _ hmem)]
  · rw [hacc.entData hi, hp.dataOff, hp.dataLen]
  · rw [slice, hs', take_left]

theorem lt_of_isLE {a c : Name} (h : (compare a c).isLE = true) (hne : a ≠ c) : compare a c = .lt := by
  rcases Ordering.isLE_iff_eq_lt_or_eq_eq.mp h with hlt | heq
  · exact hlt
  · exact absurd (Std.compare_eq_iff_eq.mp heq) hne

instance : Std.Total PathLE where
  total x y := by
    rw [PathLE, PathLE, Std.OrientedOrd.eq_swap (a := y.1)]
    cases compare x.1 y.1 <;> simp

instance : IsTrans Entry PathLE where
  trans _ _ _ := Std.TransCmp.isLE_trans

theorem collect_sorted (hnodup : (files.map Prod.fst).Nodup) : (collect files).Pairwise fun x y => compare x.1 y.1 = .lt := by
  have hle : (collect files).Pairwise PathLE := pairwise_insertionSort PathLE files
  have hne : (collect files).Pairwise fun x y => x.1 ≠ y.1 := by
    have hperm : ((collect files).map Prod.fst).Nodup := ((collect_perm files).map Prod.fst).nodup_iff.mpr hnodup
    exact pairwise_map.mp hperm
  exact (hle.and hne).imp fun h => lt_of_isLE h.1 h.2

theorem probe_image (hsize : totalSize files < 2 ^ 32) (hnul : ∀ f ∈ files, 0 ∉ f.1) (h : (collect files)[i]? = some e)
    (path : Name) : probe (image files) path i = .ok (compare path e.1) := by
  obtain ⟨off, hpath, -, -⟩ := entry_image hsize hnul h
  rw [probe, hpath, ok_bind]

theorem lookup_hit (hnodup : (files.map Prod.fst).Nodup) (hnul : ∀ f ∈ files, 0 ∉ f.1) (hsize : totalSize files < 2 ^ 32) {f : Entry}
    (hf : f ∈ files) (hpath : path.dropWhile (· = 47) = f.1) :
    ∃ off, (Spanfs.image (image files)).lookup path = .ok (off, f.2.length) ∧ slice (image files) off f.2.length = f.2 := by
  obtain ⟨-, -, hcount, -, -⟩ := image_words hsize
  have hsorted := collect_sorted hnodup
  have hlen : (collect files).length = count (image files) := (collect_length files).trans hcount.symm
  obtain ⟨k, hk, hget⟩ := mem_iff_getElem.mp (mem_collect.mpr hf)
  have hk' : (collect files)[k]? = some f := List.getElem?_eq_some_iff.mpr ⟨hk, hget⟩
  have hhit : bisect (probe (image files) f.1) (count (image files)) 0 (count (image files)) = .ok (some k) := by
    refine bisect_hit (by omega) (Nat.zero_le k) (by omega) ?_ (fun i hi => ?_) (fun i hi hi' => ?_)
    · rw [probe_image hsize hnul hk', Std.compare_eq_iff_eq.mpr rfl]
    · have hlt := pairwise_iff_getElem.mp hsorted i k (by omega) hk hi
      rw [probe_image hsize hnul (getElem?_eq_getElem (by omega)), Std.OrientedOrd.eq_swap, ← hget, hlt]
      rfl
    · have hlt := pairwise_iff_getElem.mp hsorted k i hk (by omega) hi
      rw [probe_image hsize hnul (getElem?_eq_getElem (by omega)), ← hget, hlt]
  obtain ⟨off, -, hdata, hslice⟩ := entry_image hsize hnul hk'
  refine ⟨off, ?_, hslice⟩
  rw [lookup_eq, hpath, hhit, ok_bind]
  exact hdata

theorem lookup_miss (hnul : ∀ f ∈ files, 0 ∉ f.1) (hsize : totalSize files < 2 ^ 32)
    (hpath : path.dropWhile (· = 47) ∉ files.map Prod.fst) :
    (Spanfs.image (image files)).lookup path = .error (.err .notFound) := by
  obtain ⟨-, -, hcount, -, -⟩ := image_words hsize
  have hlen : (collect files).length = count (image files) := (collect_length files).trans hcount.symm
  rw [lookup_eq, bisect_miss (count (image files)) fun i _ hi => ?_]
  · rfl
  · have hget : (collect files)[i]? = some _ := getElem?_eq_getElem (hlen ▸ hi)
    refine ⟨_, probe_image hsize hnul hget _, fun heq => hpath ?_⟩
    rw [Std.compare_eq_iff_eq.mp heq]
    exact mem_map_of_mem (mem_collect.mp (mem_of_getElem? hget))

theorem dropWhile_slashes (h : name.head? ≠ some 47) (n : Nat) : (replicate n 47 ++ name).dropWhile (· = 47) = name := by
  rw [dropWhile_append_of_pos fun b hb => decide_eq_true (eq_of_mem_replicate hb)]
  cases name with
  | nil => rfl
  | cons b name => exact dropWhile_cons_of_neg (by simpa using h)

/-- What the packer writes, the reader accepts, finds and lists. -/
theorem pack_agrees (hnodup : (files.map Prod.fst).Nodup) (hnul : ∀ f ∈ files, 0 ∉ f.1) (hrel : ∀ f ∈ files, f.1.head? ≠ some 47)
    (hsize : totalSize files < 2 ^ 32) :
    ∃ img fs, pack files = some img ∧ openMem img = .ok fs ∧
      (∀ f ∈ files, ∀ n, ∃ off, fs.lookup (replicate n 47 ++ f.1) = .ok (off, f.2.length) ∧ slice img off f.2.length = f.2) ∧
      (∀ path : Name, path.dropWhile (· = 47) ∉ files.map Prod.fst → fs.lookup path = .error (.err .notFound)) ∧
      ∃ listed : List Entry, listed.Perm files ∧ listed.Pairwise (fun x y => compare x.1 y.1 = .lt) ∧ listed.length = fs.entryCount ∧
        ∀ i e, listed[i]? = some e → ∃ off, fs.entryAt i = .ok (e.1, off, e.2.length) ∧ slice img off e.2.length = e.2 := by
  obtain ⟨-, -, hcount, -, -⟩ := image_words hsize
  have hlen : (collect files).length = count (image files) := (collect_length files).trans hcount.symm
  refine ⟨image files, Spanfs.image (image files), if_pos hsize, open_image hsize,
    fun f hf n => lookup_hit hnodup hnul hsize hf (dropWhile_slashes (hrel f hf) n), fun path hpath => lookup_miss hnul hsize hpath,
    collect files, collect_perm files, collect_sorted hnodup, hlen, fun i e he => ?_⟩
  obtain ⟨hi, -⟩ := List.getElem?_eq_some_iff.mp he
  have hcounted : i < (Spanfs.image (image files)).entryCount := Nat.lt_of_lt_of_eq hi hlen
  obtain ⟨off, hpath, hdata, hslice⟩ := entry_image hsize hnul he
  refine ⟨off, ?_, hslice⟩
  rw [Image.entryAt, require_pos hcounted, ok_bind, hpath, ok_bind, hdata, ok_bind]

end Packed

def three : List Entry := [(lit "b", [1]), (lit "a/x", []), (lit "a", [7, 8, 9])]

theorem pack_agrees_three : ∃ img fs, pack three = some img ∧ openMem img = .ok fs ∧ fs.entryCount = 3 ∧
    (∃ off, fs.lookup (lit "//a") = .ok (off, 3) ∧ slice img off 3 = [7, 8, 9]) ∧ fs.lookup (lit "/a/") = .error (.err .notFound) := by
  obtain ⟨img, fs, hpack, hopen, hhit, hmiss, listed, hperm, -, hlen, -⟩ :=
    pack_agrees (by decide : (three.map Prod.fst).Nodup) (by decide) (by decide) (by decide +kernel)
  refine ⟨img, fs, hpack, hopen, ?_, hhit (lit "a", [7, 8, 9]) (by decide) 2, hmiss _ (by decide)⟩
  rw [← hlen, hperm.length_eq]
  rfl

section Canonical

variable {files others : List Entry}

theorem collect_congr (hnodup : (files.map Prod.fst).Nodup) (h : files.Perm others) : collect files = collect others := by
  have hnodup' : (others.map Prod.fst).Nodup := (h.map Prod.fst).nodup_iff.mp hnodup
  refine ((collect_perm files).trans (h.trans (collect_perm others).symm)).eq_of_pairwise ?_ (collect_sorted hnodup) (collect_sorted hnodup')
  intro a b _ _ hab hba
  rw [Std.OrientedOrd.eq_swap, hba] at hab
  cases hab

theorem collect_eq_of_image (hsize : totalSize files < 2 ^ 32) (hsize' : totalSize others < 2 ^ 32) (hnul : ∀ f ∈ files, 0 ∉ f.1)
    (hnul' : ∀ f ∈ others, 0 ∉ f.1) (himg : image files = image others) : collect files = collect others := by
  have hlen : (collect files).length = (collect others).length := by
    rw [collect_length, collect_length, ← (image_words hsize).2.2.1, ← (image_words hsize').2.2.1, himg]
  refine ext_getElem hlen fun i hi hi' => ?_
  obtain ⟨off, hpath, hdata, hslice⟩ := entry_image hsize hnul (getElem?_eq_getElem hi)
  obtain ⟨off', hpath', hdata', hslice'⟩ := entry_image hsize' hnul' (getElem?_eq_getElem hi')
  rw [himg, hpath'] at hpath
  rw [himg, hdata'] at hdata
  obtain ⟨rfl, hbytes⟩ := Prod.mk.inj (Except.ok.inj hdata)
  rw [himg, ← hbytes, hslice'] at hslice
  exact Prod.ext (Except.ok.inj hpath).symm hslice.symm

/-- An image tells the files it was made of, and nothing of the order they were found in. -/
theorem pack_eq_iff (hnodup : (files.map Prod.fst).Nodup) (hnul : ∀ f ∈ files, 0 ∉ f.1) (hnul' : ∀ f ∈ others, 0 ∉ f.1)
    (hsize : totalSize files < 2 ^ 32) : pack files = pack others ↔ files.Perm others := by
  rw [pack, pack, if_pos hsize]
  constructor
  · intro h
    split at h
    next hsize' =>
      have hsame := collect_eq_of_image hsize hsize' hnul hnul' (Option.some.inj h)
      exact (collect_perm files).symm.trans (hsame ▸ collect_perm others)
    · cases h
  · intro h
    have hsame := collect_congr hnodup h
    rw [totalSize, hsame, ← totalSize] at hsize
    rw [if_pos hsize, image, image, hsame, totalSize, totalSize, hsame]

theorem pack_eq_iff_three : (pack three = pack three.reverse ↔ three.Perm three.reverse) ∧
    pack three = pack three.reverse := by
  have h : pack three = pack three.reverse ↔ three.Perm three.reverse :=
    pack_eq_iff (by decide) (by decide) (by decide) (by decide +kernel)
  exact ⟨h, h.mpr (reverse_perm three).symm⟩

end Canonical

end Spangap.SpanfsPack
