import Spangap.Compaction

namespace Spangap.RecordEdits

open List Option Function Bytes CJson Fields FieldValues RecordStore FiniteMaps Tiling Compaction

variable {sc : Schema} {s : Store} {rs A B : List (Record sc)} {fd : Field} {r' r : Record sc} {field val : Name}

section Schema

variable (h : Laid sc)
include h

omit h in
theorem find_of_mem (hnames : (sc.fields.map Field.name).Nodup) (hfd : fd ∈ sc.fields) : sc.find fd.name = some fd := by
  have hsome : (sc.find fd.name).isSome := by
    rw [Schema.find, find?_isSome]
    exact ⟨fd, hfd, beq_self_eq_true _⟩
  obtain ⟨g, hg⟩ := isSome_iff_exists.mp hsome
  have hname : g.name = fd.name := by simpa using find?_some hg
  rw [hg, inj_on_of_nodup_map hnames (mem_of_find?_eq_some hg) hfd hname]

omit h in
theorem mem_of_find {n : Name} (hfd : sc.find n = some fd) : fd ∈ sc.fields ∧ fd.name = n :=
  ⟨mem_of_find?_eq_some hfd, by simpa using find?_some hfd⟩

theorem slots_apart {f g : Field} (hf : f ∈ sc.fields) (hg : g ∈ sc.fields) (hne : f ≠ g)
    (hfk : f.kind ≠ .text) (hgk : g.kind ≠ .text) :
    f.off + f.extent ≤ g.off ∨ g.off + g.extent ≤ f.off := by
  have hsym : sc.fields.Pairwise fun f g => f.kind ≠ .text → g.kind ≠ .text →
      f.off + f.extent ≤ g.off ∨ g.off + g.extent ≤ f.off :=
    h.apart.imp fun hfg hf hg => .inl (hfg hf hg)
  have : Std.Symm fun f g : Field => f.kind ≠ .text → g.kind ≠ .text →
      f.off + f.extent ≤ g.off ∨ g.off + g.extent ≤ f.off := ⟨fun _ _ hfg hg hf => (hfg hf hg).symm⟩
  exact hsym.forall hf hg hne hfk hgk

theorem ranks_ne {f g : Field} (hf : f ∈ sc.fields) (hg : g ∈ sc.fields) (hne : f ≠ g)
    (hfk : f.kind = .text) (hgk : g.kind = .text) : f.off ≠ g.off := by
  have : Std.Symm fun f g : Field => f.kind = .text → g.kind = .text → f.off ≠ g.off :=
    ⟨fun _ _ hfg hg hf => (hfg hf hg).symm⟩
  exact h.ranks.forall hf hg hne hfk hgk

end Schema

def values (r : Record sc) (n : Name) : Name :=
  match sc.find n with
  | some fd => (fieldOf fd r.hdr r.texts).getD []
  | none => []

theorem fieldOf_values (h : Laid sc) (r : Record sc) {n : Name} (hfd : sc.find n = some fd) :
    fieldOf fd r.hdr r.texts = some (values r n) := by
  simp only [values, hfd]
  by_cases hk : fd.kind = .text
  · have hlt : fd.off < r.texts.length := r.texts_length ▸ h.ranked fd (mem_of_find hfd).1 hk
    rw [fieldOf_text hk, getElem?_eq_getElem hlt]
    rfl
  · rw [fieldOf_fixed hk]
    rfl

section Poke

def overwrite (r : Record sc) (p : Nat) (bs : List UInt8) (hp : 4 ≤ p) (hfit : p + bs.length ≤ sc.hdrSize) :
    Record sc where
  hdr := poke r.hdr p bs
  key := r.key
  texts := r.texts
  hdr_length := (poke_length (by rw [r.hdr_length]; exact hfit)).trans r.hdr_length
  key_length := r.key_length
  texts_length := r.texts_length
  text_length := r.text_length
  rec_len := by
    have hb : p + bs.length ≤ r.hdr.length := by rw [r.hdr_length]; exact hfit
    rw [rdU32, slice_poke_apart hb (.inl hp), length_append, poke_length hb, ← length_append]
    exact r.rec_len

variable (r : Record sc) {p : Nat} {bs : List UInt8} (hp : 4 ≤ p) (hfit : p + bs.length ≤ sc.hdrSize)

theorem overwrite_image : (overwrite r p bs hp hfit).image = poke r.image p bs := by
  rw [Record.image, Record.image, poke_append_left _ (by rw [r.hdr_length]; exact hfit)]
  rfl

theorem overwrite_image_length : (overwrite r p bs hp hfit).image.length = r.image.length := by
  have := r.hdrSize_le_image
  rw [overwrite_image, poke_length (by omega)]

theorem slice_overwrite {k n : Nat} (hapart : k + n ≤ p ∨ p + bs.length ≤ k) :
    slice (overwrite r p bs hp hfit).hdr k n = slice r.hdr k n :=
  slice_poke_apart (by rw [r.hdr_length]; exact hfit) hapart

theorem overwrite_deleted (h8 : 8 ≤ p) : (overwrite r p bs hp hfit).deleted = r.deleted := by
  rw [Record.deleted, Record.deleted, isDeleted, isDeleted, flagsAt, flagsAt, Nat.zero_add,
    slice_overwrite r hp hfit (.inl (by rw [flagsOff]; omega))]

theorem poke_arena (pre post : List UInt8) : poke (pre ++ (r.image ++ post)) (pre.length + p) bs =
      pre ++ ((overwrite r p bs hp hfit).image ++ post) := by
  have := r.hdrSize_le_image
  rw [poke_middle _ _ (by omega), overwrite_image]

end Poke

theorem tiled_replace (ht : Tiled sc s (A ++ r :: B)) (hlen : r'.image.length = r.image.length)
    (hkey : r'.key = r.key) (hdel : r'.deleted = r.deleted) {b : List UInt8} (dirty : Bool)
    (hb : ∀ pre : List UInt8, pre.length = fileHdr + (arena A).length → s.block = pre ++ (r.image ++ arena B) →
      b = pre ++ (r'.image ++ arena B)) :
    Tiled sc { s with block := b, dirty := dirty } (A ++ r' :: B) := by
  obtain ⟨hd, hhd, hblock⟩ := ht.tiles
  have hpre : (hd ++ arena A).length = fileHdr + (arena A).length := by rw [length_append, hhd]
  have hnew := hb (hd ++ arena A) hpre (by rw [hblock, arena_append, arena_cons, append_assoc])
  refine ⟨ht.schema, ⟨hd, hhd, ?_⟩, ?_, ht.fits, ?_⟩
  · simp [hnew]
  · have hroom := ht.room
    simp only [Store.used, hnew, hblock, arena_append, arena_cons, length_append, hlen] at hroom ⊢
    omega
  · have hidx := ht.indexed
    rw [entries_append, entries_cons] at hidx ⊢
    rwa [hlen, hkey, hdel]

section Bury

variable (h : Laid sc)

include h in
theorem flag_fits (b : UInt8) : flagsOff + [b].length ≤ sc.hdrSize := by
  have hb : 8 ≤ sc.hdrSize := h.builtin
  rw [flagsOff, length_singleton]
  omega

def bury (r : Record sc) : Record sc :=
  overwrite r flagsOff [flagsAt r.hdr 0 ||| 1] (le_refl flagsOff) (flag_fits h _)

theorem deleted_bury (r : Record sc) : (bury h r).deleted = true := by
  have hflag : ∀ c : UInt8, (c ||| 1) &&& 1 != 0 := forall_byte (by decide +kernel)
  have hself : slice (bury h r).hdr flagsOff 1 = [flagsAt r.hdr 0 ||| 1] :=
    slice_poke_self (by rw [r.hdr_length]; exact flag_fits h _)
  rw [Record.deleted, isDeleted, flagsAt, Nat.zero_add, hself]
  exact hflag _

theorem tiled_bury (ht : Tiled sc s (A ++ r :: B)) (hr : r.deleted = false) : Tiled sc { s with
        block := tombstone s.block (fileHdr + (arena A).length)
        index := s.index.erase r.key }
      (A ++ bury h r :: B) := by
  obtain ⟨hd, hhd, hblock⟩ := ht.tiles
  have hpre : (hd ++ arena A).length = fileHdr + (arena A).length := by rw [length_append, hhd]
  have hsplit : s.block = (hd ++ arena A) ++ (r.image ++ arena B) := by
    rw [hblock, arena_append, arena_cons, append_assoc]
  have hnew : tombstone s.block (fileHdr + (arena A).length) = hd ++ arena (A ++ bury h r :: B) := by
    have hpoke := poke_arena r (le_refl flagsOff) (flag_fits h (flagsAt r.hdr 0 ||| 1)) (hd ++ arena A)
      (arena B)
    rw [tombstone, hsplit, ← hpre, flagsAt_image h, hpoke, arena_append, arena_cons, append_assoc]
    rfl
  have hlen : (bury h r).image.length = r.image.length := overwrite_image_length r _ _
  refine ⟨ht.schema, ⟨hd, hhd, hnew⟩, ?_, ht.fits, ?_⟩
  · have hroom := ht.room
    rw [Store.used, hblock] at hroom
    rw [Store.used, hnew]
    simpa [hlen] using hroom
  · have hidx := ht.indexed
    rw [entries_append, entries_cons, hr, if_neg Bool.false_ne_true, singleton_append] at hidx
    rw [entries_append, entries_cons, deleted_bury, if_pos rfl, nil_append, hlen]
    exact hidx.erase

end Bury

section Built

variable (h : Laid sc) {hdr : List UInt8} {key : Name} {texts : List Name} (hhdr : hdr.length = sc.hdrSize)
  (hkey : key.length < 65536) (hcount : texts.length = sc.textCount) (htext : ∀ t ∈ texts, t.length < 65536)
  (hsize : (buildRecord hdr key texts).length < 4294967296)

include h hhdr in
theorem len_fits (n : Nat) : 0 + (leBytes 4 n).length ≤ hdr.length := by
  have hb : 8 ≤ sc.hdrSize := h.builtin
  rw [leBytes_length, hhdr]
  omega

include h hhdr in
theorem buildRecord_eq : buildRecord hdr key texts = poke hdr 0 (leBytes 4 (buildRecord hdr key texts).length) ++
      (counted key ++ (texts.map counted).flatten) := by
  have hfit := len_fits h hhdr
  have hlen : (buildRecord hdr key texts).length = (hdr ++ counted key ++ (texts.map counted).flatten).length := by
    refine poke_length (le_trans (hfit _) ?_)
    simp only [length_append]
    omega
  rw [hlen, buildRecord, append_assoc, poke_append_left _ (hfit _)]

def built : Record sc where
  hdr := poke hdr 0 (leBytes 4 (buildRecord hdr key texts).length)
  key := key
  texts := texts
  hdr_length := (poke_length (len_fits h hhdr _)).trans hhdr
  key_length := hkey
  texts_length := hcount
  text_length := htext
  rec_len := by
    have hself := slice_poke_self (len_fits h hhdr (buildRecord hdr key texts).length)
    rw [leBytes_length] at hself
    rw [rdU32, hself, le_leBytes_of_lt hsize, ← buildRecord_eq h hhdr]

theorem built_image : (built h hhdr hkey hcount htext hsize).image = buildRecord hdr key texts :=
  (buildRecord_eq h hhdr).symm

theorem slice_built {k n : Nat} (hk : 4 ≤ k) : slice (built h hhdr hkey hcount htext hsize).hdr k n = slice hdr k n :=
  slice_poke_apart (len_fits h hhdr _) (.inr (by rw [leBytes_length]; omega))

theorem built_deleted : (built h hhdr hkey hcount htext hsize).deleted = isDeleted hdr 0 := by
  rw [Record.deleted, isDeleted, flagsAt, slice_built h hhdr hkey hcount htext hsize (by simp [flagsOff]),
    isDeleted, flagsAt]

theorem fieldOf_built (hfd : fd ∈ sc.fields) :
    fieldOf fd (built h hhdr hkey hcount htext hsize).hdr texts = fieldOf fd hdr texts := by
  by_cases hk : fd.kind = .text
  · rw [fieldOf_text hk, fieldOf_text hk]
  · have hoff : 8 ≤ fd.off := (h.fixed fd hfd hk).1
    rw [fieldOf_fixed hk, fieldOf_fixed hk, slice_built h hhdr hkey hcount htext hsize (by omega)]

end Built

section Values

variable (h : Laid sc)
include h

omit h in
theorem values_update {v : Name} (hfd : sc.find field = some fd) (hself : fieldOf fd r'.hdr r'.texts = some v)
    (hother : ∀ g ∈ sc.fields, g ≠ fd → fieldOf g r'.hdr r'.texts = fieldOf g r.hdr r.texts) :
    values r' = update (values r) field v := by
  funext n
  by_cases hn : n = field
  · subst hn
    rw [update_self]
    simp [values, hfd, hself]
  · rw [update_of_ne hn]
    cases hg : sc.find n with
    | none => simp only [values, hg]
    | some g =>
      obtain ⟨hmem, hname⟩ := mem_of_find hg
      have hne : g ≠ fd := by
        rintro rfl
        exact hn (hname.symm.trans (mem_of_find hfd).2)
      simp only [values, hg, hother g hmem hne]

theorem values_overwrite (hfd : sc.find field = some fd) (hk : fd.kind ≠ .text) (hp : 4 ≤ fd.off)
    (hfit : fd.off + (slotBytes fd val).length ≤ sc.hdrSize) :
    values (overwrite r fd.off (slotBytes fd val) hp hfit) =
      update (values r) field (stored fd val) := by
  obtain ⟨hmem, -⟩ := mem_of_find hfd
  have hlen := slotBytes_length (h.fixstr fd hmem) val
  refine values_update hfd ?_ ?_
  · have hself : slice (overwrite r fd.off (slotBytes fd val) hp hfit).hdr fd.off (slotBytes fd val).length =
        slotBytes fd val := slice_poke_self (by rw [r.hdr_length]; exact hfit)
    rw [hlen] at hself
    rw [fieldOf_fixed hk, hself, stored, if_neg hk]
  · intro g hg hne
    by_cases hgk : g.kind = .text
    · rw [fieldOf_text hgk, fieldOf_text hgk]
      rfl
    · rw [fieldOf_fixed hgk, fieldOf_fixed hgk, slice_overwrite r hp hfit]
      have := slots_apart h hg hmem hne hgk hk
      omega

theorem values_retext (hfd : sc.find field = some fd) (hk : fd.kind = .text)
    (htexts : r'.texts = r.texts.set fd.off val) (hfields : ∀ g ∈ sc.fields, fieldOf g r'.hdr r'.texts = fieldOf g r.hdr r'.texts) :
    values r' = update (values r) field (stored fd val) := by
  obtain ⟨hmem, -⟩ := mem_of_find hfd
  have hlt : fd.off < r.texts.length := r.texts_length ▸ h.ranked fd hmem hk
  refine values_update hfd ?_ ?_
  · rw [fieldOf_text hk, htexts, getElem?_set_self hlt, stored, if_pos hk]
  · intro g hg hne
    rw [hfields g hg]
    by_cases hgk : g.kind = .text
    · rw [fieldOf_text hgk, fieldOf_text hgk, htexts, getElem?_set_ne (ranks_ne h hmem hg hne.symm hk hgk)]
    · rw [fieldOf_fixed hgk, fieldOf_fixed hgk]

end Values

end Spangap.RecordEdits
