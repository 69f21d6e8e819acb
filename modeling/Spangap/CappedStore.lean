import Spangap.TextWrites

namespace Spangap.CappedStore

open Bytes CJson Fields FieldValues RecordStore FiniteMaps Tiling Compaction RecordEdits RecordMap StoreRuns TextWrites Runs
open List

variable {sc : Schema} {s t : Store} {key field val : Name} {a b : Heap} {l l' : List (Name × (Name → Name))} {c : Nat}

def liveKeys (s : Store) : List Name := (liveRecords s).map fun r => (readRecordText s r.1).1

theorem liveKeys_eq (h : Laid sc) (hs : Lists sc s l) : liveKeys s = l.map Prod.fst := by
  obtain ⟨rs, ht, rfl⟩ := hs
  rw [liveKeys, ht.liveRecords_eq h, map_fst_pairs, ← map_snd_liveSpans fileHdr rs, map_map, map_map]
  refine map_congr_left ?_
  rintro ⟨off, r⟩ hp
  obtain ⟨A, B, hrs, rfl⟩ := mem_spans (mem_filter.mp hp).1
  obtain ⟨pre, hblock, hpre⟩ := (hrs ▸ ht : Tiled sc s (A ++ r :: B)).split
  simp [← hpre, readRecordText_image r pre (arena B) ht.schema hblock]

theorem recordCount_eq (hs : Lists sc s l) : sdbRecordCount s = l.length := by
  obtain ⟨rs, ht, rfl⟩ := hs
  exact length_keys ht

theorem get_of_mem (h : Laid sc) (hs : Lists sc s l) {v : Name → Name} (hv : (key, v) ∈ l) (f : Name) :
    sdbGetField s key f = (sc.find f).map fun _ => v f := by
  obtain ⟨rs, ht, rfl⟩ := hs
  obtain ⟨m, hm⟩ := exists_table ht
  rw [answers_get h ht hm, Table.get, (hm.lookup key v).mpr hv, Option.bind_some]

theorem dropped_eq (hkeys : (appendRecord s key (blankImage s key) a).1.index.keys.length = l.length + 1) (hcap : s.capRecords = c)
    (hc : 0 < c) (hlen : l.length ≤ c) : dropped s key a = if l.length = c then 1 + c / 8 else 0 := by
  rw [dropped, overflow, appendRecord_capRecords, hcap, hkeys]
  split_ifs <;> omega

/-- What a write does to the list of the records. -/
theorem lists_set (h : Laid sc) (hs : Lists sc s l) (hcap : s.capRecords = c) (hc : 0 < c) (hlen : l.length ≤ c)
    (hfits : Fits sc (.set key field val a b)) (hok : (sdbSetField s key field val a b).2 = true) :
    ∃ l', Lists sc (sdbSetField s key field val a b).1 l' ∧
      (l' = l ∨ (∃ X v Y w, l = X ++ (key, v) :: Y ∧ Placed X Y (key, w) l') ∨
        ∃ fd, sc.find field = some fd ∧ key ∉ l.map Prod.fst ∧
          l' = l.drop (if l.length = c then 1 + c / 8 else 0) ++ [(key, Function.update (blank sc) field (stored fd val))]) := by
  obtain ⟨rs, ht, rfl⟩ := hs
  have hschema := ht.schema
  cases hfd : sc.find field with
  | none =>
    have hset : sdbSetField s key field val a b = (s, true) := by simp only [sdbSetField, hschema, hfd]
    exact ⟨_, by rw [hset]; exact ⟨rs, ht, rfl⟩, .inl rfl⟩
  | some fd =>
    cases hoff : findRec s key with
    | some off =>
      have hset : sdbSetField s key field val a b = storeField s off fd val b := by simp only [sdbSetField, hschema, hfd, hoff]
      rw [hset] at hok ⊢
      obtain ⟨X, v, Y, l', hsplit, hl, hplaced⟩ := lists_storeField h ht hoff hfd (hfits.2 fd hfd) hok
      exact ⟨l', hl, .inr (.inl ⟨X, v, Y, _, hsplit, hplaced⟩)⟩
    | none =>
      cases hroom : (appendRecord s key (blankImage s key) a).2 with
      | false =>
        rw [sdbSetField_refused (hschema ▸ hfd) hoff hroom, hroom] at hok
        cases hok
      | true =>
        obtain ⟨hkeys, -, rs₁, ht₁, hl₁⟩ := lists_created h ht hfits.1 hoff hroom
        obtain ⟨A, r, B, -, -, -, -, -, hfound⟩ := tiled_created h ht hfits.1 hoff hroom
        rw [sdbSetField_created (hschema ▸ hfd) hoff hroom, hfound] at hok ⊢
        obtain ⟨X, v, Y, l', hsplit, hl, hplaced⟩ := lists_storeField h ht₁ hfound hfd (hfits.2 fd hfd) hok
        have hfresh := fresh_of_findRec ht hoff
        have hnot : (key, v) ∉ (pairs rs).drop (dropped s key a) := fun hmem =>
          hfresh (mem_map_of_mem (mem_of_mem_drop hmem))
        obtain ⟨rfl, hlast, rfl⟩ := split_last (hsplit.symm.trans hl₁) hnot
        obtain rfl := (Prod.mk.inj hlast).2
        rw [dropped_eq hkeys hcap hc hlen] at hplaced
        exact ⟨l', hl, .inr (.inr ⟨fd, rfl, hfresh, by simpa [Placed] using hplaced⟩)⟩

theorem lists_step (h : Laid sc) (hs : Lists sc s l) (hcap : s.capRecords = c) (hc : 0 < c) (hlen : l.length ≤ c) {op : Op}
    (hfits : Fits sc op) (hstep : step s op = some t) : ∃ l', Lists sc t l' ∧ l'.length ≤ c := by
  cases op with
  | set key field val a b =>
    simp only [step, Option.ite_none_right_eq_some, Option.some_inj] at hstep
    obtain ⟨hok, rfl⟩ := hstep
    obtain ⟨l', hl, rfl | ⟨X, v, Y, w, rfl, rfl | rfl⟩ | ⟨fd, -, -, rfl⟩⟩ := lists_set h hs hcap hc hlen hfits hok
    · exact ⟨_, hl, hlen⟩
    · exact ⟨_, hl, by simpa using hlen⟩
    · refine ⟨_, hl, ?_⟩
      simp only [length_append, length_cons, length_nil] at hlen ⊢
      omega
    · refine ⟨_, hl, ?_⟩
      rw [length_append, length_drop, length_singleton]
      split_ifs <;> omega
  | delete key =>
    cases hstep
    rcases lists_delete h hs key with ⟨hl, -⟩ | ⟨X, v, Y, rfl, hl⟩
    · exact ⟨_, hl, hlen⟩
    · refine ⟨_, hl, ?_⟩
      simp only [length_append, length_cons] at hlen ⊢
      omega
  | flush written =>
    cases hstep
    exact ⟨_, lists_flush h hs written, hlen⟩
  | snapshot =>
    cases hstep
    exact ⟨_, lists_compact h hs, hlen⟩

theorem lists_run (h : Laid sc) (hc : 0 < c) {ops : List Op} (hfits : ∀ op ∈ ops, Fits sc op) (hs : Lists sc s l)
    (hcap : s.capRecords = c) (hlen : l.length ≤ c) (hrun : run step s ops = some t) :
    t.capRecords = c ∧ ∃ l', Lists sc t l' ∧ l'.length ≤ c := by
  have hkeep : ∀ u op v, (u.capRecords = c ∧ ∃ l', Lists sc u l' ∧ l'.length ≤ c) → Fits sc op → step u op = some v →
      v.capRecords = c ∧ ∃ l', Lists sc v l' ∧ l'.length ≤ c := by
    rintro u op v ⟨hcap, l', hl, hlen⟩ hfits hstep
    exact ⟨(step_capRecords hstep).trans hcap, lists_step h hl hcap hc hlen hfits hstep⟩
  exact run_invariant hkeep ⟨hcap, l, hs, hlen⟩ (meets_of_forall hfits) hrun

/-- A write of a new record into a full store has dropped the oldest records. -/
def Trims (sc : Schema) (c : Nat) (s t : Store) : Op → Prop
  | .set key field val _ _ =>
      ∃ fd, sc.find field = some fd ∧ sdbHasRecord s key = false ∧ sdbRecordCount s = c ∧
        liveKeys t = (liveKeys s).drop (1 + c / 8) ++ [key] ∧ sdbGetField t key field = some (stored fd val) ∧
          ∀ k ∈ (liveKeys s).drop (1 + c / 8), ∀ f, sdbGetField t k f = sdbGetField s k f
  | _ => False

theorem removed_cases (h : Laid sc) (hs : Lists sc s l) (hcap : s.capRecords = c) (hc : 0 < c) (hlen : l.length ≤ c) {op : Op}
    (hfits : Fits sc op) (hstep : step s op = some t) {k : Name} (hold : sdbHasRecord s k = true)
    (hgone : sdbHasRecord t k = false) : op = .delete k ∨ Trims sc c s t op := by
  have hk : k ∈ l.map Prod.fst := (has_iff hs k).mp hold
  have hgone : ∀ {l'}, Lists sc t l' → k ∉ l'.map Prod.fst := fun hl hmem => by simp [(has_iff hl k).mpr hmem] at hgone
  cases op with
  | set key field val a b =>
    simp only [step, Option.ite_none_right_eq_some, Option.some_inj] at hstep
    obtain ⟨hok, rfl⟩ := hstep
    obtain ⟨l', hl, rfl | ⟨X, v, Y, w, rfl, hplaced⟩ | ⟨fd, hfd, hfresh, hl'⟩⟩ := lists_set h hs hcap hc hlen hfits hok
    · exact absurd hk (hgone hl)
    · refine absurd ?_ (hgone hl)
      rcases hplaced with rfl | rfl <;> simpa [or_comm, or_left_comm, or_assoc] using hk
    · by_cases hfull : l.length = c
      · rw [if_pos hfull] at hl'
        refine .inr ⟨fd, hfd, ?_, (recordCount_eq hs).trans hfull, ?_, ?_, ?_⟩
        · rw [← Bool.not_eq_true, has_iff hs]
          exact hfresh
        · rw [liveKeys_eq h hl, liveKeys_eq h hs, hl', map_append, map_drop]
          rfl
        · rw [get_of_mem h hl (by rw [hl']; exact mem_append_right _ mem_cons_self), hfd, Option.map_some,
            Function.update_self]
        · intro k hk f
          rw [liveKeys_eq h hs, ← map_drop] at hk
          obtain ⟨⟨k, v⟩, hmem, rfl⟩ := mem_map.mp hk
          rw [get_of_mem h hl (by rw [hl']; exact mem_append_left _ hmem), get_of_mem h hs (mem_of_mem_drop hmem)]
      · rw [if_neg hfull, drop_zero] at hl'
        refine absurd ?_ (hgone hl)
        rw [hl', map_append]
        exact mem_append_left _ hk
  | delete key =>
    cases hstep
    rcases lists_delete h hs key with ⟨hl, -⟩ | ⟨X, v, Y, rfl, hl⟩
    · exact absurd hk (hgone hl)
    · grind
  | flush written =>
    cases hstep
    exact absurd hk (hgone (lists_flush h hs written))
  | snapshot =>
    cases hstep
    exact absurd hk (hgone (lists_compact h hs))

/-- A capped store never holds more records than its cap, and what a write removes is the oldest of a full store. -/
theorem cap_drops_oldest {ds : List Decl} (hds : Declared ds) (hfew : ds.countP Decl.isText < 65536) {schemaId schemaVer : Nat}
    {path : Name} {m : Heap} (hc : 0 < c) {s₀ : Store} {ops : List Op} {op : Op}
    (hinit : sdbInitEmpty (build schemaId schemaVer ds) path c m = some s₀)
    (hfits : ∀ o ∈ op :: ops, Fits (build schemaId schemaVer ds) o) (hrun : run step s₀ ops = some s)
    (hstep : step s op = some t) :
    sdbRecordCount t ≤ c ∧ ∀ k, sdbHasRecord s k = true → sdbHasRecord t k = false →
      op = .delete k ∨ Trims (build schemaId schemaVer ds) c s t op := by
  have h := laid_build hds hfew schemaId schemaVer
  obtain ⟨hop, hfits⟩ := forall_mem_cons.mp hfits
  obtain ⟨⟨rs, ht, hm⟩, hcap⟩ := refines_sdbInitEmpty hinit
  have hnone : (pairs rs).length = 0 := hm.length_keys.symm
  obtain ⟨hcap, l, hl, hlen⟩ := lists_run h hc hfits ⟨rs, ht, rfl⟩ hcap (by omega) hrun
  obtain ⟨l', hl', hlen'⟩ := lists_step h hl hcap hc hlen hop hstep
  exact ⟨(recordCount_eq hl').symm ▸ hlen', fun k => removed_cases h hl hcap hc hlen hop hstep⟩

def desk : Store := ⟨pages, [], 1, fileHeader pages 0, 256, false, ∅⟩

def first : Op := .set (lit "a") (lit "body") (lit "hi") plenty plenty

def second (val : Name) : Op := .set (lit "b") (lit "body") val plenty plenty

def held : Store := (sdbSetField desk (lit "a") (lit "body") (lit "hi") plenty plenty).1

theorem cap_drops_oldest_second : ∃ t, step held (second (lit "yo")) = some t ∧ Trims pages 1 held t (second (lit "yo")) := by
  have hstep : (step held (second (lit "yo"))).isSome = true := by decide +kernel
  obtain ⟨t, ht⟩ := Option.isSome_iff_exists.mp hstep
  have hgone : (step held (second (lit "yo"))).map (sdbHasRecord · (lit "a")) = some false := by decide +kernel
  rw [ht] at hgone
  have hcap := (@cap_drops_oldest held t 1 [.text (lit "body")] ⟨by simp, by decide⟩ (by decide) 1 1 [] plenty
    (by decide) desk [first] (second (lit "yo")) rfl (by decide) rfl ht).2 (lit "a") (by decide +kernel) (Option.some_inj.mp hgone)
  exact ⟨t, ht, hcap.resolve_left (by decide)⟩

theorem lookup_appendRecord (s : Store) {k key : Name} (hk : k ≠ key) {image : List UInt8}
    (hsize : s.used + image.length < 2147483648) :
    (appendRecord s key image plenty).2 = true ∧ (appendRecord s key image plenty).1.index.lookup k = s.index.lookup k := by
  obtain ⟨u, hu⟩ := Option.ne_none_iff_exists'.mp (ensureCap_plenty (s := s) hsize)
  obtain ⟨cap, rfl, -⟩ := ensureCap_spec hu
  simp [appendRecord, makeRoom, hu, AList.lookup_insert_ne hk]

/-- A new page of 64 KiB pushes the old one out, and is not what is read back. -/
theorem full_store_cuts_text :
    sdbHasRecord held (lit "a") = true ∧ ∃ t, step held (second (replicate 65536 97)) = some t ∧
      sdbHasRecord t (lit "a") = false ∧ sdbGetField t (lit "b") (lit "body") ≠ some (replicate 65536 97) := by
  obtain ⟨long, hlong⟩ : ∃ long : Name, long = replicate 65536 97 := ⟨_, rfl⟩
  have hsize : long.length = 65536 := by rw [hlong, length_replicate]
  rw [← hlong]
  obtain ⟨u, hu⟩ : ∃ u, u = created held (lit "b") plenty := ⟨_, rfl⟩
  have hread : readRecordText u 16 = (lit "b", [[]]) := by rw [hu]; decide +kernel
  have hlen := length_rebuilt_body hread (by rw [hu]; decide +kernel) long
  have hset : sdbSetField held (lit "b") (lit "body") long plenty plenty = storeText u 16 body long plenty := by
    rw [sdbSetField_created (show held.schema.find (lit "body") = some body from rfl) (by decide +kernel) (by decide +kernel), ← hu,
      show findRec u (lit "b") = some 16 by rw [hu]; decide +kernel]
    rfl
  have hused : (buried u 16).used = 29 := by rw [hu]; decide +kernel
  have hrec : rdU32 u.block 16 = 13 := by rw [hu]; decide +kernel
  obtain ⟨hok, hlook⟩ := lookup_appendRecord (buried u 16) (show lit "a" ≠ lit "b" by decide)
    (show (buried u 16).used + (rebuilt u 16 body long).length < 2147483648 by rw [hused, hlen, hsize]; decide)
  have hnew : (readRecordText u 16).2[body.off]? ≠ some long := by
    rw [hread]
    rintro ⟨⟩
    cases hsize
  have hschema : (storeText u 16 body long plenty).1.schema = pages :=
    (storeField_schema u 16 body long plenty).trans (by rw [hu]; rfl)
  rw [storeText_rebuilt, if_neg hnew, if_neg (by rw [hlen, hrec, hsize]; decide), hread] at hset hschema
  refine ⟨by decide +kernel, _, by rw [second, step, hset, hok, if_pos rfl], ?_, fun hget => ?_⟩
  · have hgone : (buried u 16).index.lookup (lit "a") = none := by rw [hu]; decide +kernel
    simp [sdbHasRecord, hlook, hgone]
  · have := length_text (show _ = some body by rw [hschema]; rfl) rfl hget
    omega

end Spangap.CappedStore
