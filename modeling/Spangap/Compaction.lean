import Spangap.Tiling

namespace Spangap.Compaction

open List Bytes CJson Fields FieldValues RecordStore FiniteMaps Tiling

variable {sc : Schema} {s : Store} {rs A B : List (Record sc)} {r : Record sc} {m : Heap} {need fuel n : Nat}
  {t : AList fun _ : Name => Nat} {image hd : List UInt8} {key : Name}

theorem fileHeader_length (sc : Schema) (n : Nat) : (fileHeader sc n).length = fileHdr := by
  have hmagic : (lit "SGDB").length = 4 := by decide
  simp [fileHeader, fileHdr, hmagic]

theorem live_append (A B : List (Record sc)) : live (A ++ B) = live A ++ live B := filter_append A B

theorem live_cons (r : Record sc) (rs : List (Record sc)) :
    live (r :: rs) = (if r.deleted then [] else [r]) ++ live rs := by
  by_cases h : r.deleted = true <;> simp [live, h]

theorem live_snoc (hr : r.deleted = false) : live (A ++ [r]) = live A ++ [r] := by
  rw [live_append, live_cons, hr]
  rfl

theorem arena_live_length (rs : List (Record sc)) : (arena (live rs)).length ≤ (arena rs).length := by
  induction rs with
  | nil => exact le_refl 0
  | cons r rs ih =>
    rw [live_cons]
    split
    · rw [nil_append, arena_cons, length_append]
      omega
    · rw [singleton_append, arena_cons, arena_cons, length_append, length_append]
      omega

theorem deleted_of_mem_live (h : r ∈ live rs) : r.deleted = false := by
  simpa using (mem_filter.mp h).2

theorem entries_snoc (b : Nat) (A : List (Record sc)) (hr : r.deleted = false) :
    entries b (A ++ [r]) = entries b A ++ [(r.key, b + (arena A).length)] := by
  rw [entries_append, entries_cons, hr]
  rfl

/-- An index in which the records of `A` are at home and those of `B` still
where they were takes the next live record. -/
theorem represents_move {b o : Nat} (hr : r.deleted = false) (h : Represents t (entries b A ++ entries o (r :: B))) :
    Represents (t.insert r.key (b + (arena A).length))
      (entries b (A ++ [r]) ++ entries (o + r.image.length) B) := by
  rw [entries_cons, hr, if_neg Bool.false_ne_true, singleton_append] at h
  rw [entries_snoc b A hr, append_assoc, singleton_append]
  exact h.insert_replace _

section InPlace

variable (h : Laid sc)

/-- The compaction loop between two records: `A` is read and `B` is not. The
live records of `A` are written or buffered, and nothing of `B` is overwritten. -/
structure Between (hd : List UInt8) (used : Nat) (A B : List (Record sc)) (c : Cursor) : Prop where
  length : c.block.length = used
  written : c.block.take c.w ++ c.scratch = hd ++ arena (live A)
  cursor : c.w ≤ used
  ahead : c.block.drop (fileHdr + (arena A).length) = arena B
  scratch : c.scratch.length ≤ compactScratch
  kept : c.kept = (live A).length
  indexed : Represents c.index (entries fileHdr (live A) ++ entries (fileHdr + (arena A).length) B)

variable {used : Nat} {c : Cursor}

theorem Between.cursor_scratch (hhd : hd.length = fileHdr) (hb : Between hd used A B c) :
    c.w + c.scratch.length = fileHdr + (arena (live A)).length := by
  have hl := congrArg List.length hb.written
  have hc := hb.cursor
  have hlen := hb.length
  rw [length_append, length_append, length_take, hhd] at hl
  omega

theorem Between.flush (hhd : hd.length = fileHdr) (hused : fileHdr + (arena A).length ≤ used)
    (hb : Between hd used A B c) : Between hd used A B c.flush ∧ c.flush.scratch = [] := by
  have hw := hb.cursor_scratch hhd
  have hlive := arena_live_length A
  have hlen := hb.length
  refine ⟨⟨?_, ?_, ?_, ?_, Nat.zero_le _, hb.kept, hb.indexed⟩, rfl⟩
  · exact (poke_length (by omega)).trans hlen
  · rw [Cursor.flush, append_nil, take_poke (by omega)]
    exact hb.written
  · show c.w + c.scratch.length ≤ used
    omega
  · exact (drop_poke (by omega) (by omega)).trans hb.ahead

theorem Between.block_eq (hused : fileHdr + (arena A).length ≤ used) (hb : Between hd used A (r :: B) c) :
    ∃ pre, c.block = pre ++ (r.image ++ arena B) ∧ pre.length = fileHdr + (arena A).length := by
  refine ⟨c.block.take (fileHdr + (arena A).length), ?_, ?_⟩
  · rw [← arena_cons, ← hb.ahead, take_append_drop]
  · rw [length_take, hb.length]
    exact min_eq_left hused

theorem Between.slice_eq (hb : Between hd used A (r :: B) c) :
    slice c.block (fileHdr + (arena A).length) r.image.length = r.image := by
  rw [slice, hb.ahead, arena_cons, take_left]

theorem Between.reindex (hr : r.deleted = false) (hhd : hd.length = fileHdr) (hused : fileHdr + (arena A).length ≤ used)
    (hfit : used < 4294967296) (hb : Between hd used A (r :: B) c) :
    Represents
      (c.reindex sc.hdrSize (fileHdr + (arena A).length) (c.w + c.scratch.length)).index
      (entries fileHdr (live (A ++ [r])) ++ entries (fileHdr + (arena (A ++ [r])).length) B) := by
  obtain ⟨pre, hblock, hpre⟩ := hb.block_eq hused
  have hkey : keyAt sc.hdrSize c.block (fileHdr + (arena A).length) = r.key := by
    rw [hblock, ← hpre, keyAt_image]
  have hlive := arena_live_length A
  rw [Cursor.reindex, hkey, hb.cursor_scratch hhd, Nat.mod_eq_of_lt (by omega), live_snoc hr, arena_append,
    arena_cons, arena_nil, append_nil, length_append, ← Nat.add_assoc]
  exact represents_move hr hb.indexed

theorem drop_next {b : List UInt8} (ha : b.drop (fileHdr + (arena A).length) = arena (r :: B)) :
    b.drop (fileHdr + (arena (A ++ [r])).length) = arena B := by
  rw [arena_append, length_append, ← Nat.add_assoc, ← drop_drop, ha, arena_cons, arena_cons,
    arena_nil, append_nil, drop_left]

section

variable (hr : r.deleted = false) (hhd : hd.length = fileHdr) (hused : fileHdr + (arena (A ++ r :: B)).length = used)
  (hfit : used < 4294967296) (hb : Between hd used A (r :: B) c)
include hr hhd hused hfit hb

theorem Between.moved (hempty : c.scratch = []) : Between hd used (A ++ [r]) B
      { c.reindex sc.hdrSize (fileHdr + (arena A).length) c.w with
        block := poke c.block c.w (slice c.block (fileHdr + (arena A).length) r.image.length)
        w := c.w + r.image.length
        kept := c.kept + 1 } := by
  have hA : fileHdr + (arena A).length + r.image.length ≤ used := by
    rw [arena_append, arena_cons, length_append, length_append] at hused
    omega
  have hw := hb.cursor_scratch hhd
  have hidx := hb.reindex hr hhd (by omega) hfit
  have hlive := arena_live_length A
  have hlen := hb.length
  rw [hempty, length_nil, Nat.add_zero] at hw hidx
  refine ⟨?_, ?_, ?_, ?_, by simp [Cursor.reindex, hempty], ?_, hidx⟩
  · rw [hb.slice_eq, poke_length (by omega), hlen]
  · have hwritten := hb.written
    rw [hempty, append_nil] at hwritten
    simp only [hb.slice_eq, Cursor.reindex, hempty, append_nil]
    rw [take_poke (by omega), hwritten, live_snoc hr, arena_append, arena_cons, arena_nil,
      append_nil, append_assoc]
  · show c.w + r.image.length ≤ used
    omega
  · rw [hb.slice_eq]
    refine Eq.trans (drop_poke (by omega) ?_) (drop_next hb.ahead)
    rw [arena_append, length_append, arena_cons, arena_nil, append_nil]
    omega
  · simp only [hb.kept, live_snoc hr, length_append, length_singleton]

theorem Between.buffered (hroom : c.scratch.length + r.image.length ≤ compactScratch) : Between hd used (A ++ [r]) B
      { c.reindex sc.hdrSize (fileHdr + (arena A).length) (c.w + c.scratch.length) with
        scratch := c.scratch ++ slice c.block (fileHdr + (arena A).length) r.image.length
        kept := c.kept + 1 } := by
  have hA : fileHdr + (arena A).length ≤ used := by
    rw [arena_append, length_append] at hused
    omega
  refine ⟨hb.length, ?_, hb.cursor, drop_next hb.ahead, ?_, ?_, hb.reindex hr hhd hA hfit⟩
  · simp only [hb.slice_eq, Cursor.reindex]
    rw [← append_assoc, hb.written, live_snoc hr, arena_append, arena_cons, arena_nil,
      append_nil, append_assoc]
  · simpa only [hb.slice_eq, length_append] using hroom
  · simp only [hb.kept, live_snoc hr, length_append, length_singleton]

theorem Between.keep :
    Between hd used (A ++ [r]) B (c.keep sc.hdrSize (fileHdr + (arena A).length) r.image.length) := by
  have hA : fileHdr + (arena A).length ≤ used := by
    rw [arena_append, length_append] at hused
    omega
  obtain ⟨hflush, hempty⟩ := hb.flush hhd hA
  unfold Cursor.keep
  split
  · exact hflush.moved hr hhd hused hfit hempty
  next hsmall =>
    by_cases hfull : compactScratch < c.scratch.length + r.image.length
    · simp only [if_pos hfull]
      refine hflush.buffered hr hhd hused hfit ?_
      rw [hempty, length_nil]
      omega
    · simp only [if_neg hfull]
      exact hb.buffered hr hhd hused hfit (by omega)

end

theorem Between.skip (hr : r.deleted = true) (hb : Between hd used A (r :: B) c) : Between hd used (A ++ [r]) B c := by
  have hlive : live (A ++ [r]) = live A := by
    rw [live_append, live_cons, hr]
    exact append_nil _
  have hidx := hb.indexed
  rw [entries_cons, hr, if_pos rfl, nil_append] at hidx
  refine ⟨hb.length, hlive ▸ hb.written, hb.cursor, drop_next hb.ahead, hb.scratch, hlive ▸ hb.kept, ?_⟩
  rw [hlive, arena_append, length_append, arena_cons, arena_nil, append_nil, ← Nat.add_assoc]
  exact hidx

include h in
theorem Between.loop (hhd : hd.length = fileHdr) (hused : fileHdr + (arena (A ++ B)).length = used)
    (hfit : used < 4294967296) (hfuel : B.length ≤ fuel) (hb : Between hd used A B c) :
    Between hd used (A ++ B) []
      (compactLoop sc.hdrSize used fuel (fileHdr + (arena A).length) c) := by
  have h8 : 8 ≤ sc.hdrSize := h.builtin
  induction B generalizing A c fuel with
  | nil =>
    rw [append_nil] at hused ⊢
    cases fuel with
    | zero => exact hb
    | succ fuel => rwa [compactLoop, if_neg (by omega)]
  | cons r B ih =>
    obtain ⟨fuel, rfl⟩ : ∃ n, fuel = n + 1 := ⟨fuel - 1, by simp only [length_cons] at hfuel; omega⟩
    have hsum := hused
    rw [arena_append, arena_cons, length_append, length_append] at hsum
    have hsize := r.hdrSize_le_image
    obtain ⟨pre, hblock, hpre⟩ := hb.block_eq (by omega)
    have hlen : rdU32 c.block (fileHdr + (arena A).length) = r.image.length := by
      rw [hblock, ← hpre, rdU32_image h]
    have hdel : isDeleted c.block (fileHdr + (arena A).length) = r.deleted := by
      rw [hblock, ← hpre, isDeleted_image h]
    have hnext : Between hd used (A ++ [r]) B
        (if r.deleted then c else c.keep sc.hdrSize (fileHdr + (arena A).length) r.image.length) := by
      by_cases hr : r.deleted = true
      · rw [if_pos hr]
        exact hb.skip hr
      · rw [if_neg hr]
        exact hb.keep (by simpa using hr) hhd hused hfit
    have hfuel' : B.length ≤ fuel := by simpa using hfuel
    have hrest := ih (by simpa using hused) hfuel' hnext
    rw [append_assoc, singleton_append, arena_append, length_append, arena_cons,
      arena_nil, append_nil, ← Nat.add_assoc] at hrest
    rw [compactLoop, if_pos (by omega), hlen, if_neg (by omega), hdel]
    exact hrest

end InPlace

theorem poke_head {fh X : List UInt8} (hl : hd.length = fh.length) : poke (hd ++ X) 0 fh = fh ++ X := by
  rw [poke, Nat.zero_add, drop_left' hl]
  rfl

theorem tiled_writeFileHeader (ht : Tiled sc s rs) (n : Nat) : Tiled sc (writeFileHeader s n) rs := by
  obtain ⟨hd, hhd, hblock⟩ := ht.tiles
  have hpoke : (writeFileHeader s n).block = fileHeader s.schema n ++ arena rs := by
    rw [writeFileHeader, hblock, poke_head (hhd.trans (fileHeader_length _ n).symm)]
  refine { ht with tiles := ⟨_, fileHeader_length _ n, hpoke⟩, room := ?_ }
  have hroom := ht.room
  rw [Store.used, hblock, length_append, hhd] at hroom
  rw [Store.used, hpoke, length_append, fileHeader_length]
  exact hroom

theorem compactLoop_spec (h : Laid sc) (ht : Tiled sc s rs) : ∃ hd : List UInt8, hd.length = fileHdr ∧
      Between hd s.used rs []
        (compactLoop sc.hdrSize s.used s.used fileHdr ⟨s.block, s.index, fileHdr, [], 0⟩).flush ∧
      (compactLoop sc.hdrSize s.used s.used fileHdr ⟨s.block, s.index, fileHdr, [], 0⟩).flush.scratch = [] := by
  obtain ⟨hd, hhd, hblock⟩ := ht.tiles
  have hused : fileHdr + (arena rs).length = s.used := by
    rw [Store.used, hblock, length_append, hhd]
  have hfit : s.used < 4294967296 := lt_of_le_of_lt ht.room ht.fits
  have hfuel : rs.length ≤ s.used := by
    have := length_le_arena h rs
    omega
  have hstart : Between hd s.used [] rs ⟨s.block, s.index, fileHdr, [], 0⟩ := by
    refine ⟨rfl, ?_, by simp only []; omega, ?_, Nat.zero_le _, rfl, ht.indexed⟩
    · simp only [hblock]
      rw [take_left' hhd]
      rfl
    · simp only [hblock]
      exact drop_left' hhd
  have hloop := hstart.loop h hhd (by exact hused) hfit hfuel
  exact ⟨hd, hhd, hloop.flush hhd (le_of_eq hused)⟩

theorem tiled_compactInPlace (h : Laid sc) (ht : Tiled sc s rs) : Tiled sc (sdbCompactInPlace s) (live rs) := by
  obtain rfl := ht.schema
  obtain ⟨hd, hhd, hend, hempty⟩ := compactLoop_spec h ht
  rw [sdbCompactInPlace]
  generalize (compactLoop s.schema.hdrSize s.used s.used fileHdr ⟨s.block, s.index, fileHdr, [], 0⟩).flush = c
    at hend hempty
  have hw := hend.written
  rw [hempty, append_nil] at hw
  have hidx := hend.indexed
  rw [show entries (fileHdr + (arena rs).length) ([] : List (Record s.schema)) = [] from rfl,
    append_nil] at hidx
  have hroom : (c.block.take c.w).length ≤ s.cap := by
    have := ht.room
    have := hend.length
    rw [length_take]
    omega
  have hcut : Tiled s.schema { s with block := c.block.take c.w, index := c.index } (live rs) :=
    ⟨rfl, ⟨hd, hhd, hw⟩, hroom, ht.fits, hidx⟩
  exact tiled_writeFileHeader hcut c.kept

theorem relocateStep_foldl (hs : s.schema = sc) (hhd : hd.length = fileHdr) (hblock : s.block = hd ++ arena (A ++ B))
    (hfit : s.used < 4294967296)
    (ht : Represents t (entries fileHdr (live A) ++ entries (fileHdr + (arena A).length) B)) :
    ∃ t', ((liveSpans (fileHdr + (arena A).length) B).map fun p => (p.1, p.2.image.length)).foldl
        (relocateStep s) (hd ++ arena (live A), t) = (hd ++ arena (live (A ++ B)), t') ∧
      Represents t' (entries fileHdr (live (A ++ B))) := by
  induction B generalizing A t with
  | nil => exact ⟨t, by simp [liveSpans, spans], by simpa [entries, liveSpans, spans] using ht⟩
  | cons r B ih =>
    have hnext : fileHdr + (arena (A ++ [r])).length = fileHdr + (arena A).length + r.image.length := by
      simp [Nat.add_assoc]
    have happ : (A ++ [r]) ++ B = A ++ r :: B := by simp
    by_cases hr : r.deleted = true
    · have hlive : live (A ++ [r]) = live A := by
        rw [live_append, live_cons, hr]
        exact append_nil _
      rw [entries_cons, hr, if_pos rfl, nil_append, ← hnext, ← hlive] at ht
      have hrest := ih (happ ▸ hblock) ht
      rw [happ, hnext, hlive] at hrest
      simpa [liveSpans, spans, hr] using hrest
    · rw [Bool.not_eq_true] at hr
      have hslice : slice s.block (fileHdr + (arena A).length) r.image.length = r.image := by
        have hpre : (hd ++ arena A).length = fileHdr + (arena A).length := by rw [length_append, hhd]
        rw [hblock, arena_append, arena_cons, ← append_assoc, ← hpre]
        rw [slice, drop_left, take_left]
      have hkey : keyAt s.schema.hdrSize (hd ++ arena (live A) ++ r.image) (hd ++ arena (live A)).length =
          r.key := by
        rw [hs]
        simpa using keyAt_image r (hd ++ arena (live A)) []
      have hoff : (hd ++ arena (live A)).length = fileHdr + (arena (live A)).length := by
        rw [length_append, hhd]
      have hsmall : fileHdr + (arena (live A)).length < 4294967296 := by
        have := arena_live_length A
        rw [Store.used, hblock, length_append, arena_append, length_append, hhd] at hfit
        omega
      have hmove := represents_move hr ht
      rw [← live_snoc hr, ← hnext] at hmove
      have hrest := ih (happ ▸ hblock) hmove
      rw [happ, hnext, live_snoc hr, arena_append, arena_cons, arena_nil, append_nil,
        ← append_assoc] at hrest
      have hspan : liveSpans (fileHdr + (arena A).length) (r :: B) =
          (fileHdr + (arena A).length, r) :: liveSpans (fileHdr + (arena A).length + r.image.length) B := by
        simp [liveSpans, spans, hr]
      rw [hspan, map_cons, foldl_cons, relocateStep, hslice, hkey, hoff,
        Nat.mod_eq_of_lt hsmall]
      exact hrest

theorem liveBytes_eq (h : Laid sc) (ht : Tiled sc s rs) : liveBytes s = fileHdr + (arena (live rs)).length := by
  rw [liveBytes, ht.liveRecords_eq h, ← map_snd_liveSpans fileHdr rs, arena, length_flatten,
    map_map, map_map, map_map]
  rfl

theorem tiled_relocate (h : Laid sc) (ht : Tiled sc s rs) {newcap : Nat} (hcap : liveBytes s ≤ newcap)
    (hfit : newcap < 4294967296) : Tiled sc (relocate s newcap) (live rs) := by
  obtain ⟨hd, hhd, hblock⟩ := ht.tiles
  have hused : s.used < 4294967296 := lt_of_le_of_lt ht.room ht.fits
  obtain ⟨t, hfold, hidx⟩ : ∃ t,
      ((liveSpans fileHdr rs).map fun p => (p.1, p.2.image.length)).foldl (relocateStep s)
        (hd ++ arena (live ([] : List (Record sc))), s.index) = (hd ++ arena (live rs), t) ∧
      Represents t (entries fileHdr (live rs)) :=
    relocateStep_foldl (A := []) ht.schema hhd hblock hused ht.indexed
  have hhead : s.block.take fileHdr = hd ++ arena (live ([] : List (Record sc))) := by
    rw [hblock, take_left' hhd]
    exact (append_nil hd).symm
  rw [relocate, ht.liveRecords_eq h, hhead, hfold]
  have hmoved : Tiled sc { s with block := hd ++ arena (live rs), cap := newcap, index := t } (live rs) := by
    refine ⟨ht.schema, ⟨hd, hhd, rfl⟩, ?_, hfit, hidx⟩
    rw [liveBytes_eq h ht] at hcap
    rw [Store.used, length_append, hhd]
    exact hcap
  exact tiled_writeFileHeader hmoved _

theorem le_doubled (hn : 0 < n) (hfuel : need ≤ n + fuel) : need ≤ doubled fuel n need := by
  induction fuel generalizing n with
  | zero => exact hfuel
  | succ fuel ih =>
    rw [doubled]
    split
    · exact ih (by omega) (by omega)
    · omega

theorem le_pageRound (n : Nat) : n ≤ pageRound n := by
  rw [pageRound]
  omega

theorem lt_of_granted {ok : Bool} (h : granted ok n = true) : n < 4294967296 := by
  simp only [granted, Bool.and_eq_true, decide_eq_true_eq] at h
  exact h.2

theorem ensureCap_spec {t : Store} (h : ensureCap s need m = some t) :
    ∃ cap, t = { s with cap := cap } ∧ need ≤ cap ∧ (cap = s.cap ∨ s.cap < need ∧ cap < 4294967296) := by
  rw [ensureCap] at h
  split at h
  · cases h
    exact ⟨s.cap, rfl, ‹_›, .inl rfl⟩
  next hneed =>
    have hpos : 0 < if s.cap = 0 then 256 else s.cap := by split <;> omega
    generalize (if s.cap = 0 then 256 else s.cap) = n at h hpos
    simp only at h
    split at h
    next hgrant =>
      cases h
      exact ⟨_, rfl, le_doubled hpos (by omega), .inr ⟨by omega, lt_of_granted hgrant⟩⟩
    · split at h
      next hgrant =>
        cases h
        exact ⟨_, rfl, le_pageRound need, .inr ⟨by omega, lt_of_granted hgrant⟩⟩
      · cases h

theorem tiled_ensureCap (ht : Tiled sc s rs) {t : Store} (h : ensureCap s need m = some t) :
    Tiled sc t rs ∧ t.used = s.used ∧ need ≤ t.cap := by
  obtain ⟨cap, rfl, hneed, hcap⟩ := ensureCap_spec h
  refine ⟨{ ht with room := ?_, fits := ?_ }, rfl, hneed⟩
  · have := ht.room
    show s.used ≤ cap
    omega
  · have := ht.fits
    show cap < 4294967296
    omega

theorem tiled_reclaimForAppend (h : Laid sc) (ht : Tiled sc s rs) (recSize : Nat) (m : Heap) :
    Tiled sc (reclaimForAppend s recSize m).1 (live rs) := by
  rw [reclaimForAppend]
  split
  next hmove =>
    refine tiled_relocate h ht ?_ (lt_of_granted hmove.2)
    exact le_trans (by omega) (le_pageRound _)
  · exact tiled_compactInPlace h ht

theorem tiled_makeRoom (h : Laid sc) (ht : Tiled sc s rs) {recSize : Nat} (hroom : (makeRoom s recSize m).2 = true) :
    (makeRoom s recSize m).1.used + recSize ≤ (makeRoom s recSize m).1.cap ∧
      ∃ rs', Tiled sc (makeRoom s recSize m).1 rs' ∧ live rs' = live rs := by
  rw [makeRoom] at hroom ⊢
  cases he : ensureCap s (s.used + recSize) m with
  | some t =>
    obtain ⟨htt, hused, hneed⟩ := tiled_ensureCap ht he
    exact ⟨hused ▸ hneed, rs, htt, rfl⟩
  | none =>
    rw [he] at hroom
    refine ⟨?_, live rs, tiled_reclaimForAppend h ht recSize m, live_live rs⟩
    simpa [reclaimForAppend] using hroom

theorem tiled_append (ht : Tiled sc s rs) (hr : r.deleted = false) (hkey : r.key ∉ (live rs).map Record.key)
    (hroom : s.used + r.image.length ≤ s.cap) :
    Tiled sc
      { s with block := s.block ++ r.image, index := s.index.insert r.key (s.used % 4294967296) }
      (rs ++ [r]) := by
  obtain ⟨hd, hhd, hblock⟩ := ht.tiles
  have hused : s.used = fileHdr + (arena rs).length := by rw [Store.used, hblock, length_append, hhd]
  have hfit := ht.fits
  refine ⟨ht.schema, ⟨hd, hhd, ?_⟩, ?_, hfit, ?_⟩
  · simp [hblock]
  · rw [Store.used, length_append]
    exact hroom
  · rw [Nat.mod_eq_of_lt (by omega), hused, entries_snoc fileHdr rs hr]
    refine ht.indexed.insert_fresh ?_ _
    rwa [map_fst_entries]

theorem tiled_appendRecord (h : Laid sc) (ht : Tiled sc s rs) (hkey : r.key = key)
    (himage : r.image = image) (hr : r.deleted = false) (hfresh : key ∉ (live rs).map Record.key)
    (hok : (appendRecord s key image m).2 = true) :
    ∃ rs', Tiled sc (appendRecord s key image m).1 (rs' ++ [r]) ∧ live rs' = live rs := by
  subst hkey himage
  rw [appendRecord] at hok ⊢
  by_cases hroom : (makeRoom s r.image.length m).2 = true
  · obtain ⟨hfit, rs', ht', hlive⟩ := tiled_makeRoom h ht hroom
    rw [if_pos hroom]
    exact ⟨rs', tiled_append ht' hr (hlive ▸ hfresh) hfit, hlive⟩
  · rw [if_neg hroom] at hok
    exact absurd hok hroom

theorem length_of_appendRecord (h : Laid sc) (ht : Tiled sc s rs)
    (hok : (appendRecord s key image m).2 = true) : image.length < 4294967296 := by
  rw [appendRecord] at hok
  by_cases hroom : (makeRoom s image.length m).2 = true
  · obtain ⟨hfit, rs', ht', -⟩ := tiled_makeRoom h ht hroom
    have := ht'.fits
    omega
  · rw [if_neg hroom] at hok
    exact absurd hok hroom

end Spangap.Compaction
