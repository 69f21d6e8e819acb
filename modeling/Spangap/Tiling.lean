import Spangap.RecordStore
import Spangap.FiniteMaps

namespace Spangap.Tiling

open List Bytes CJson Fields FieldValues RecordStore FiniteMaps

/-- A record of a schema in its parts, with the length its header announces. -/
structure Record (sc : Schema) where
  hdr : List UInt8
  key : Name
  texts : List Name
  hdr_length : hdr.length = sc.hdrSize
  key_length : key.length < 65536
  texts_length : texts.length = sc.textCount
  text_length : ∀ t ∈ texts, t.length < 65536
  rec_len : rdU32 hdr 0 = (hdr ++ (counted key ++ (texts.map counted).flatten)).length

variable {sc : Schema}

namespace Record

def image (r : Record sc) : List UInt8 := r.hdr ++ (counted r.key ++ (r.texts.map counted).flatten)

def deleted (r : Record sc) : Bool := isDeleted r.hdr 0

theorem hdrSize_le_image (r : Record sc) : sc.hdrSize ≤ r.image.length := by
  rw [image, length_append, r.hdr_length]
  exact Nat.le_add_right _ _

end Record

def arena (rs : List (Record sc)) : List UInt8 := (rs.map Record.image).flatten

def spans (b : Nat) : List (Record sc) → List (Nat × Record sc)
  | [] => []
  | r :: rs => (b, r) :: spans (b + r.image.length) rs

def liveSpans (b : Nat) (rs : List (Record sc)) : List (Nat × Record sc) :=
  (spans b rs).filter fun p => !p.2.deleted

def live (rs : List (Record sc)) : List (Record sc) := rs.filter fun r => !r.deleted

def entries (b : Nat) (rs : List (Record sc)) : List (Name × Nat) :=
  (liveSpans b rs).map fun p => (p.2.key, p.1)

@[simp] theorem arena_nil : arena ([] : List (Record sc)) = [] := rfl

@[simp] theorem arena_cons (r : Record sc) (rs : List (Record sc)) : arena (r :: rs) = r.image ++ arena rs := rfl

@[simp] theorem arena_append (A B : List (Record sc)) : arena (A ++ B) = arena A ++ arena B := by
  simp [arena]

theorem spans_append (b : Nat) (A B : List (Record sc)) :
    spans b (A ++ B) = spans b A ++ spans (b + (arena A).length) B := by
  induction A generalizing b with
  | nil => simp [spans]
  | cons r A ih => simp [spans, ih, Nat.add_assoc]

theorem entries_append (b : Nat) (A B : List (Record sc)) :
    entries b (A ++ B) = entries b A ++ entries (b + (arena A).length) B := by
  simp [entries, liveSpans, spans_append]

theorem entries_cons (b : Nat) (r : Record sc) (rs : List (Record sc)) :
    entries b (r :: rs) =
      (if r.deleted then [] else [(r.key, b)]) ++ entries (b + r.image.length) rs := by
  by_cases h : r.deleted = true <;> simp [entries, liveSpans, spans, h]

theorem map_snd_spans (b : Nat) (rs : List (Record sc)) : (spans b rs).map Prod.snd = rs := by
  induction rs generalizing b with
  | nil => rfl
  | cons r rs ih => simp [spans, ih]

theorem map_snd_liveSpans (b : Nat) (rs : List (Record sc)) : (liveSpans b rs).map Prod.snd = live rs := by
  rw [live, ← map_snd_spans b rs, filter_map, map_snd_spans]
  rfl

theorem map_fst_entries (b : Nat) (rs : List (Record sc)) :
    (entries b rs).map Prod.fst = (live rs).map Record.key := by
  rw [← map_snd_liveSpans b rs, entries, map_map, map_map]
  rfl

theorem live_live (rs : List (Record sc)) : live (live rs) = live rs := by
  simp [live]

theorem mem_spans {b o : Nat} {r : Record sc} {rs : List (Record sc)} (h : (o, r) ∈ spans b rs) :
    ∃ A B, rs = A ++ r :: B ∧ o = b + (arena A).length := by
  induction rs generalizing b with
  | nil => cases h
  | cons q rs ih =>
    rcases mem_cons.mp h with h | h
    · cases h
      exact ⟨[], rs, rfl, rfl⟩
    · obtain ⟨A, B, rfl, rfl⟩ := ih h
      exact ⟨q :: A, B, rfl, by simp [Nat.add_assoc]⟩

theorem mem_entries {b off : Nat} {k : Name} {rs : List (Record sc)} (h : (k, off) ∈ entries b rs) :
    ∃ A r B, rs = A ++ r :: B ∧ off = b + (arena A).length ∧ r.deleted = false ∧ r.key = k := by
  obtain ⟨⟨o, r⟩, hmem, he⟩ := mem_map.mp h
  cases he
  obtain ⟨hspan, hlive⟩ := mem_filter.mp hmem
  obtain ⟨A, B, hrs, ho⟩ := mem_spans hspan
  exact ⟨A, r, B, hrs, ho, by simpa using hlive, rfl⟩

section Reading

variable (h : Laid sc) (r : Record sc) (pre post : List UInt8)
include h

omit h in
theorem slice_image {k n : Nat} (hk : k + n ≤ sc.hdrSize) :
    slice (pre ++ (r.image ++ post)) (pre.length + k) n = slice r.hdr k n := by
  have := r.hdrSize_le_image
  rw [slice_middle post (by omega), Record.image, slice_append_left _ (by rw [r.hdr_length]; exact hk)]

theorem rdU32_image : rdU32 (pre ++ (r.image ++ post)) pre.length = r.image.length := by
  have hb : 8 ≤ sc.hdrSize := h.builtin
  have hs := slice_image r pre post (k := 0) (n := 4) (by omega)
  rw [Nat.add_zero] at hs
  rw [rdU32, hs]
  exact r.rec_len

theorem flagsAt_image : flagsAt (pre ++ (r.image ++ post)) pre.length = flagsAt r.hdr 0 := by
  have hb : 8 ≤ sc.hdrSize := h.builtin
  rw [flagsAt, slice_image r pre post (by rw [flagsOff]; omega), flagsAt, Nat.zero_add]

theorem isDeleted_image : isDeleted (pre ++ (r.image ++ post)) pre.length = r.deleted := by
  rw [isDeleted, flagsAt_image h, Record.deleted, isDeleted]

omit h in
theorem drop_image : (pre ++ (r.image ++ post)).drop (pre.length + sc.hdrSize) =
    counted r.key ++ ((r.texts.map counted).flatten ++ post) := by
  rw [drop_length_add_append, Record.image, append_assoc, append_assoc]
  exact drop_left' r.hdr_length

omit h in
theorem keyAt_image : keyAt sc.hdrSize (pre ++ (r.image ++ post)) pre.length = r.key := by
  rw [keyAt, drop_image, readCounted_counted r.key_length]

omit h in
theorem readRecordText_image {s : Store} (hs : s.schema = sc) (hb : s.block = pre ++ (r.image ++ post)) :
    readRecordText s pre.length = (r.key, r.texts) := by
  simp only [readRecordText, hs, hb, drop_image, readCounted_counted r.key_length, ← r.texts_length,
    readCounteds_counted r.text_length]

theorem fieldOf_image {fd : Field} (hfd : fd ∈ sc.fields) (texts : List Name) :
    fieldOf fd ((pre ++ (r.image ++ post)).drop pre.length) texts = fieldOf fd r.hdr texts := by
  by_cases hk : fd.kind = .text
  · rw [fieldOf_text hk, fieldOf_text hk]
  · have hfit := (h.fixed fd hfd hk).2
    rw [fieldOf_fixed hk, fieldOf_fixed hk, drop_left, Record.image, append_assoc,
      slice_append_left _ (by rw [r.hdr_length]; exact hfit)]

theorem walk_arena (rs : List (Record sc)) (fuel : Nat) (hf : rs.length ≤ fuel) :
    walk sc.hdrSize (pre ++ arena rs) fuel pre.length =
      (spans pre.length rs).map fun p => (p.1, p.2.image.length) := by
  have hb : 8 ≤ sc.hdrSize := h.builtin
  induction rs generalizing pre fuel with
  | nil => cases fuel <;> simp [walk, spans]
  | cons r rs ih =>
    obtain ⟨fuel, rfl⟩ : ∃ n, fuel = n + 1 := ⟨fuel - 1, by simp only [length_cons] at hf; omega⟩
    have hsize := r.hdrSize_le_image
    have hnext := ih (pre ++ r.image) fuel (by simpa using hf)
    rw [append_assoc, length_append] at hnext
    rw [arena_cons, walk, rdU32_image h, if_pos, if_neg, hnext]
    · rfl
    · simp only [length_append]
      omega
    · simp only [length_append]
      omega

end Reading

/-- The records tile the arena behind the file header, and the index points at
the live ones. -/
structure Tiled (sc : Schema) (s : Store) (rs : List (Record sc)) : Prop where
  schema : s.schema = sc
  tiles : ∃ hd : List UInt8, hd.length = fileHdr ∧ s.block = hd ++ arena rs
  room : s.used ≤ s.cap
  fits : s.cap < 4294967296
  indexed : Represents s.index (entries fileHdr rs)

variable {s : Store} {rs : List (Record sc)}

theorem length_le_arena (h : Laid sc) (rs : List (Record sc)) : rs.length ≤ (arena rs).length := by
  have hb : 8 ≤ sc.hdrSize := h.builtin
  induction rs with
  | nil => exact le_refl 0
  | cons r rs ih =>
    have := r.hdrSize_le_image
    rw [arena_cons, length_append, length_cons]
    omega

theorem Tiled.liveRecords_eq (h : Laid sc) (ht : Tiled sc s rs) :
    liveRecords s = (liveSpans fileHdr rs).map fun p => (p.1, p.2.image.length) := by
  obtain ⟨hd, hhd, hblock⟩ := ht.tiles
  have hfuel : rs.length ≤ s.used := by
    have := length_le_arena h rs
    rw [Store.used, hblock, length_append]
    omega
  have hwalk := walk_arena h hd rs s.used hfuel
  rw [hhd, ← hblock] at hwalk
  rw [liveRecords, ht.schema, hwalk, filter_map, liveSpans]
  congr 1
  refine filter_congr ?_
  rintro ⟨o, r⟩ hp
  obtain ⟨A, B, rfl, rfl⟩ := mem_spans hp
  have hdel := isDeleted_image h r (hd ++ arena A) (arena B)
  rw [append_assoc, ← arena_cons, ← arena_append, ← hblock, length_append, hhd] at hdel
  simp [hdel]

theorem Tiled.nodup_keys (ht : Tiled sc s rs) : ((live rs).map Record.key).Nodup := by
  rw [← map_fst_entries fileHdr]
  exact ht.indexed.nodup

theorem Tiled.split {A B : List (Record sc)} {r : Record sc} (ht : Tiled sc s (A ++ r :: B)) :
    ∃ pre, s.block = pre ++ (r.image ++ arena B) ∧ pre.length = fileHdr + (arena A).length := by
  obtain ⟨hd, hhd, hblock⟩ := ht.tiles
  refine ⟨hd ++ arena A, ?_, by rw [length_append, hhd]⟩
  rw [hblock, arena_append, arena_cons, append_assoc]

end Spangap.Tiling
