import Mathlib.Algebra.BigOperators.Group.List.Basic
import Mathlib.Algebra.Order.BigOperators.Group.List
import Mathlib.Algebra.Order.Ring.Nat
import Mathlib.Data.List.DropRight
import Spangap.Bytes
import Spangap.CJson

namespace Spangap.Ustar

open List Option Bytes CJson

variable {fields : List (Nat × List UInt8)} {typeflag : UInt8} {f : Nat × List UInt8}

def tarBlock : Nat := 512

def octalDigits : Nat → Nat → List UInt8
  | 0, _ => []
  | n + 1, v => octalDigits n (v / 8) ++ [UInt8.ofNat (48 + v % 8)]

def octalField (width v : Nat) : List UInt8 := octalDigits (width - 1) v ++ [0]

def octalFrom (v : Nat) : List UInt8 → Nat
  | [] => v
  | c :: cs => if c = 0 ∨ c = 32 then v else if c < 48 ∨ 55 < c then 0 else octalFrom (8 * v + (c.toNat - 48)) cs

def octalValue (field : List UInt8) : Nat := octalFrom 0 field

/-- The sum of the bytes, with spaces for the checksum's own. -/
def headerChecksum (h : List UInt8) : Nat := ((poke h 148 (replicate 8 32)).map UInt8.toNat).sum

/-- The header without a name. The fields stand at their offsets in the block. -/
def fillHeader (typeflag : UInt8) (size mtime : Nat) : List UInt8 :=
  let h := replicate tarBlock 0
  let h := poke h 100 (if typeflag = 53 then lit "0000755" else lit "0000644")
  let h := poke h 108 (lit "0000000")
  let h := poke h 116 (lit "0000000")
  let h := poke h 124 (octalField 12 size)
  let h := poke h 136 (octalField 12 mtime)
  let h := poke h 156 [typeflag]
  let h := poke h 257 (lit "ustar")
  let h := poke h 263 (lit "00")
  let h := poke h 265 (lit "root")
  poke h 297 (lit "root")

def sealHeader (h : List UInt8) : List UInt8 := poke h 148 (octalField 7 (headerChecksum h) ++ [32])

def splitBefore (name : Name) : Nat → Option Nat
  | 0 => none
  | i + 1 =>
    let tail := name.length - i - 1
    if name[i]? = some 47 ∧ tail ≠ 0 ∧ tail ≤ 100 ∧ i ≤ 155 then some i else splitBefore name i

def setEntryName (h : List UInt8) (name : Name) : Option (List UInt8) :=
  if name.length = 0 then none
  else if name.length ≤ 100 then some (poke h 0 name)
  else if 155 + 1 + 100 < name.length then none
  else (splitBefore name name.length).map fun i => poke (poke h 345 (name.take i)) 0 (name.drop (i + 1))

def safeFrom (seg : Name) : Name → Bool
  | [] => seg ≠ lit ".."
  | c :: cs => if c ≠ 47 then safeFrom (seg ++ [c]) cs else seg ≠ [] && seg ≠ lit ".." && safeFrom [] cs

def safeEntryName (name : Name) : Bool :=
  name ≠ [] && name.head? ≠ some 47 && name.length < 256 && safeFrom [] name

def cstr (field : List UInt8) : Name := field.takeWhile (· ≠ 0)

def entryPath (h : List UInt8) : Name :=
  let head := cstr (slice h 345 155)
  let tail := cstr (slice h 0 100)
  if head ≠ [] then head ++ 47 :: tail else tail

/-- The parts of a path between its slashes are neither empty nor `..`. -/
def Relative (name : Name) : Prop := ∀ c ∈ name.splitOn 47, c ≠ [] ∧ c ≠ lit ".."
  deriving Decidable

@[simp] theorem octalDigits_length (n v : Nat) : (octalDigits n v).length = n := by
  induction n generalizing v with
  | zero => rfl
  | succ n ih => rw [octalDigits, length_append, ih]; rfl

theorem octalFrom_digits (n : Nat) {v : Nat} (hv : v < 8 ^ n) (a : Nat) (rest : List UInt8) :
    octalFrom a (octalDigits n v ++ rest) = octalFrom (8 ^ n * a + v) rest := by
  induction n generalizing v rest with
  | zero =>
    obtain rfl : v = 0 := by simpa using hv
    simp [octalDigits]
  | succ n ih =>
    have hdiv : v / 8 < 8 ^ n := by
      rw [Nat.pow_succ] at hv
      omega
    have hdigit : (UInt8.ofNat (48 + v % 8)).toNat = 48 + v % 8 := by
      rw [UInt8.toNat_ofNat']
      omega
    have hne : ¬ (UInt8.ofNat (48 + v % 8) = 0 ∨ UInt8.ofNat (48 + v % 8) = 32) := by
      rw [← UInt8.toNat_inj, ← UInt8.toNat_inj, hdigit]
      simp only [UInt8.toNat_ofNat]
      omega
    have hrange : ¬ (UInt8.ofNat (48 + v % 8) < 48 ∨ 55 < UInt8.ofNat (48 + v % 8)) := by
      rw [UInt8.lt_iff_toNat_lt, UInt8.lt_iff_toNat_lt, hdigit]
      simp only [UInt8.toNat_ofNat]
      omega
    rw [octalDigits, append_assoc, ih hdiv, singleton_append, octalFrom, if_neg hne, if_neg hrange, hdigit, Nat.pow_succ]
    congr 1
    rw [mul_add, ← Nat.mul_assoc, mul_comm 8 (8 ^ n)]
    omega

theorem octalValue_octalField {width v : Nat} (hv : v < 8 ^ (width - 1)) (rest : List UInt8) :
    octalValue (octalField width v ++ rest) = v := by
  rw [octalValue, octalField, append_assoc, octalFrom_digits _ hv, mul_zero, zero_add]
  rfl

theorem octalField_length {width : Nat} (h : 0 < width) (v : Nat) : (octalField width v).length = width := by
  rw [octalField, length_append, octalDigits_length, length_singleton]
  omega

section Names

variable {name w : Name}

theorem relative_append (a b : Name) : Relative (a ++ 47 :: b) ↔ Relative a ∧ Relative b := by
  simp only [Relative, splitOn_append_cons_self, mem_append]
  constructor
  · intro h
    exact ⟨fun c hc => h c (.inl hc), fun c hc => h c (.inr hc)⟩
  · rintro ⟨ha, hb⟩ c (hc | hc)
    · exact ha c hc
    · exact hb c hc

theorem relative_single (h : 47 ∉ w) : Relative w ↔ w ≠ [] ∧ w ≠ lit ".." := by
  have hone : w.splitOn 47 = [w] := splitOnP_eq_singleton (by
    intro x hx
    simp only [beq_eq_false_iff_ne]
    rintro rfl
    exact h hx)
  simp only [Relative, hone, mem_singleton, forall_eq]

theorem not_relative_nil : ¬ Relative [] := by
  decide

theorem Relative.head_ne (h : Relative name) : name.head? ≠ some 47 := by
  intro hhead
  obtain ⟨rest, rfl⟩ : ∃ rest, name = [] ++ 47 :: rest := by
    cases name with
    | nil => simp at hhead
    | cons c cs => exact ⟨cs, by simpa using hhead⟩
  exact not_relative_nil ((relative_append [] rest).mp h).1

theorem Relative.getLast_ne (h : Relative name) : name.getLast? ≠ some 47 := by
  intro hlast
  obtain ⟨rest, rfl⟩ := getLast?_eq_some_iff.mp hlast
  exact not_relative_nil ((relative_append rest []).mp h).2

theorem safeFrom_iff (hw : 47 ∉ w) (cs : Name) (hne : w ++ cs ≠ []) (hlast : (w ++ cs).getLast? ≠ some 47) :
    safeFrom w cs = true ↔ Relative (w ++ cs) := by
  induction cs generalizing w with
  | nil =>
    rw [append_nil] at hne ⊢
    rw [relative_single hw, safeFrom, decide_eq_true_eq]
    exact ⟨fun h => ⟨hne, h⟩, fun h => h.2⟩
  | cons c cs ih =>
    rw [safeFrom]
    by_cases hc : c = 47
    · subst hc
      have hcs : cs ≠ [] := by
        rintro rfl
        exact hlast (by simp)
      have hrest : cs.getLast? ≠ some 47 := by
        rwa [getLast?_append_cons, getLast?_cons_of_ne_nil hcs] at hlast
      have ih' := ih (w := []) (by simp) hcs hrest
      rw [if_neg (by simp), relative_append, relative_single hw, Bool.and_eq_true, Bool.and_eq_true, decide_eq_true_eq,
        decide_eq_true_eq, ih', nil_append]
    · rw [if_pos hc]
      have happ : w ++ c :: cs = w ++ [c] ++ cs := by simp
      rw [happ] at hne hlast ⊢
      refine ih ?_ hne hlast
      rw [mem_append, mem_singleton]
      rintro (h | h)
      · exact hw h
      · exact hc h.symm

theorem relative_of_safe (h : safeEntryName name = true) (hlast : name.getLast? ≠ some 47) : Relative name ∧ name.length < 256 := by
  simp only [safeEntryName, Bool.and_eq_true, decide_eq_true_eq] at h
  obtain ⟨⟨⟨hne, -⟩, hlen⟩, hsafe⟩ := h
  exact ⟨(safeFrom_iff (w := []) (by simp) name hne hlast).mp hsafe, hlen⟩

theorem safe_iff (h : Relative name) : safeEntryName name = true ↔ name.length < 256 := by
  have hne : name ≠ [] := by
    rintro rfl
    exact not_relative_nil h
  have hsafe : safeFrom [] name = true := (safeFrom_iff (w := []) (by simp) name hne h.getLast_ne).mpr h
  simp only [safeEntryName, Bool.and_eq_true, decide_eq_true_eq, hsafe, and_true]
  exact ⟨fun hs => hs.2, fun hlen => ⟨⟨hne, h.head_ne⟩, hlen⟩⟩

end Names

section Header

variable {h g : List UInt8} {name : Name}

theorem slice_poke_head {off n : Nat} {bs : List UInt8} (hn : bs.length ≤ n) (hoff : off + n ≤ h.length) :
    slice (poke h off bs) off n = bs ++ (slice h off n).drop bs.length := by
  have hl : (h.take off).length = off := by
    rw [length_take]
    omega
  rw [slice, slice, poke, append_assoc, drop_left' hl, take_append, take_of_length_le hn, drop_take,
    drop_drop]

theorem cstr_padded (hname : 0 ∉ name) (n : Nat) : cstr (name ++ replicate n 0) = name := by
  rw [cstr, takeWhile_append_of_pos (fun a ha => by
    simp only [ne_eq, decide_eq_true_eq]
    rintro rfl
    exact hname ha)]
  cases n with
  | zero => rw [replicate_zero, takeWhile_nil, append_nil]
  | succ n => rw [replicate_succ, takeWhile_cons_of_neg (by simp), append_nil]

theorem cstr_poke {off n : Nat} (hzero : slice h off n = replicate n 0) (hname : 0 ∉ name) (hn : name.length ≤ n)
    (hoff : off + n ≤ h.length) : cstr (slice (poke h off name) off n) = name := by
  rw [slice_poke_head hn hoff, hzero, drop_replicate, cstr_padded hname]

theorem splitBefore_spec {n i : Nat} (hs : splitBefore name n = some i) :
    name[i]? = some 47 ∧ name.length - i - 1 ≠ 0 ∧ name.length - i - 1 ≤ 100 ∧ i ≤ 155 := by
  induction n with
  | zero => simp [splitBefore] at hs
  | succ n ih =>
    rw [splitBefore] at hs
    split at hs
    next hfit =>
      cases hs
      exact hfit
    · exact ih hs

structure Nameless (h : List UInt8) : Prop where
  length : h.length = 512
  name : slice h 0 100 = replicate 100 0
  head : slice h 345 155 = replicate 155 0

theorem setEntryName_spec (hh : Nameless h) (hzero : 0 ∉ name) (hhead : name.head? ≠ some 47) (hset : setEntryName h name = some g) :
    g.length = 512 ∧ entryPath g = name ∧ name.length ≤ 256 ∧ ∀ k n, 100 ≤ k → k + n ≤ 345 → slice g k n = slice h k n := by
  obtain ⟨hlen, hname, hpre⟩ := hh
  unfold setEntryName at hset
  split at hset
  · simp at hset
  next hne =>
    split at hset
    next hshort =>
      cases hset
      have hfree : slice (poke h 0 name) 345 155 = replicate 155 0 := by
        rw [slice_poke_apart (by omega) (.inr (by omega)), hpre]
      refine ⟨by rw [poke_length (by omega), hlen], ?_, by omega, fun k n hk hn => slice_poke_apart (by omega) (.inr (by omega))⟩
      rw [entryPath, hfree, cstr_poke hname hzero hshort (by omega)]
      exact if_neg (by decide)
    next hlong =>
      split at hset
      · simp at hset
      next hfits =>
        obtain ⟨i, hi, rfl⟩ := map_eq_some_iff.mp hset
        obtain ⟨hslash, htail, htail', hpre'⟩ := splitBefore_spec hi
        have hsplit : name = name.take i ++ 47 :: name.drop (i + 1) := by
          obtain ⟨hlt, hget⟩ := List.getElem?_eq_some_iff.mp hslash
          rw [← hget, ← drop_eq_getElem_cons hlt, take_append_drop]
        have hpos : name.take i ≠ [] := by
          intro hnil
          rw [hnil] at hsplit
          exact hhead (by rw [hsplit]; rfl)
        have htake : (name.take i).length = i := by
          rw [length_take]
          omega
        have hdrop : (name.drop (i + 1)).length = name.length - i - 1 := by
          rw [length_drop]
          omega
        have hmid : (poke h 345 (name.take i)).length = 512 := by rw [poke_length (by omega), hlen]
        have hblank : slice (poke h 345 (name.take i)) 0 100 = replicate 100 0 := by
          rw [slice_poke_apart (by omega) (.inl (by omega)), hname]
        have hhd : cstr (slice (poke (poke h 345 (name.take i)) 0 (name.drop (i + 1))) 345 155) = name.take i := by
          rw [slice_poke_apart (by omega) (.inr (by omega)), cstr_poke hpre (fun hm => hzero (mem_of_mem_take hm)) (by omega) (by omega)]
        have htl : cstr (slice (poke (poke h 345 (name.take i)) 0 (name.drop (i + 1))) 0 100) = name.drop (i + 1) :=
          cstr_poke hblank (fun hm => hzero (mem_of_mem_drop hm)) (by omega) (by omega)
        refine ⟨by rw [poke_length (by omega), hmid], ?_, by omega, fun k n hk hn => ?_⟩
        · rw [entryPath, hhd, htl, if_pos hpos]
          exact hsplit.symm
        · rw [slice_poke_apart (by omega) (.inr (by omega)), slice_poke_apart (by omega) (.inl (by omega))]

def pokes (h : List UInt8) (fields : List (Nat × List UInt8)) : List UInt8 := fields.foldl (fun h f => poke h f.1 f.2) h

theorem pokes_length (hin : ∀ f ∈ fields, f.1 + f.2.length ≤ h.length) : (pokes h fields).length = h.length := by
  induction fields generalizing h with
  | nil => rfl
  | cons f fields ih =>
    have hlen : (poke h f.1 f.2).length = h.length := poke_length (hin f mem_cons_self)
    exact (ih fun x hx => hlen ▸ hin x (mem_cons_of_mem f hx)).trans hlen

theorem slice_pokes {k n : Nat} (hin : ∀ f ∈ fields, f.1 + f.2.length ≤ h.length)
    (hapart : ∀ f ∈ fields, k + n ≤ f.1 ∨ f.1 + f.2.length ≤ k) : slice (pokes h fields) k n = slice h k n := by
  induction fields generalizing h with
  | nil => rfl
  | cons f fields ih =>
    have hf := hin f mem_cons_self
    have hlen : (poke h f.1 f.2).length = h.length := poke_length hf
    refine (ih (fun x hx => hlen ▸ hin x (mem_cons_of_mem f hx)) fun x hx => hapart x (mem_cons_of_mem f hx)).trans ?_
    exact slice_poke_apart hf (hapart f mem_cons_self)

def modeFields (typeflag : UInt8) : List (Nat × List UInt8) :=
  [(100, if typeflag = 53 then lit "0000755" else lit "0000644"), (108, lit "0000000"), (116, lit "0000000")]

def ownerFields : List (Nat × List UInt8) := [(257, lit "ustar"), (263, lit "00"), (265, lit "root"), (297, lit "root")]

theorem fillHeader_eq (typeflag : UInt8) (size mtime : Nat) : fillHeader typeflag size mtime =
      pokes (poke (poke (poke (pokes (replicate tarBlock 0) (modeFields typeflag)) 124 (octalField 12 size)) 136 (octalField 12 mtime))
        156 [typeflag]) ownerFields := rfl

theorem modeFields_in (hf : f ∈ modeFields typeflag) : 100 ≤ f.1 ∧ f.1 + f.2.length ≤ 123 := by
  simp only [modeFields, mem_cons, not_mem_nil, or_false] at hf
  rcases hf with rfl | rfl | rfl
  · split <;> decide
  · decide
  · decide

theorem ownerFields_in (hf : f ∈ ownerFields) : 257 ≤ f.1 ∧ f.1 + f.2.length ≤ 345 := by
  simp only [ownerFields, mem_cons, not_mem_nil, or_false] at hf
  rcases hf with rfl | rfl | rfl | rfl <;> decide

theorem fillHeader_spec (typeflag : UInt8) (size mtime : Nat) :
    Nameless (fillHeader typeflag size mtime) ∧ slice (fillHeader typeflag size mtime) 124 12 = octalField 12 size ∧
      slice (fillHeader typeflag size mtime) 156 1 = [typeflag] := by
  have hsize : (octalField 12 size).length = 12 := octalField_length (by decide) size
  have hmtime : (octalField 12 mtime).length = 12 := octalField_length (by decide) mtime
  have hblock : (replicate tarBlock (0 : UInt8)).length = 512 := length_replicate
  have hmode : ∀ f ∈ modeFields typeflag, f.1 + f.2.length ≤ (replicate tarBlock (0 : UInt8)).length := fun f hf => by
    have := modeFields_in hf
    omega
  rw [fillHeader_eq]
  set h₁ := pokes (replicate tarBlock 0) (modeFields typeflag) with hh₁
  have hlen₁ : h₁.length = 512 := (pokes_length hmode).trans hblock
  have hlen₂ : (poke h₁ 124 (octalField 12 size)).length = 512 := (poke_length (by omega)).trans hlen₁
  have hlen₃ : (poke (poke h₁ 124 (octalField 12 size)) 136 (octalField 12 mtime)).length = 512 := (poke_length (by omega)).trans hlen₂
  set h₄ := poke (poke (poke h₁ 124 (octalField 12 size)) 136 (octalField 12 mtime)) 156 [typeflag] with hh₄
  have hlen₄ : h₄.length = 512 := (poke_length (by rw [length_singleton]; omega)).trans hlen₃
  have howner : ∀ f ∈ ownerFields, f.1 + f.2.length ≤ h₄.length := fun f hf => by
    have := ownerFields_in hf
    omega
  have hbefore : ∀ {k n}, k + n ≤ 257 ∨ 345 ≤ k → slice (pokes h₄ ownerFields) k n = slice h₄ k n := fun hk =>
    slice_pokes howner fun f hf => by
      have := ownerFields_in hf
      omega
  have hzero : ∀ k n, k + n ≤ 100 ∨ 345 ≤ k → k + n ≤ 512 → slice (pokes h₄ ownerFields) k n = replicate n 0 := by
    intro k n hk hn
    rw [hbefore (by omega), hh₄, slice_poke_apart (by rw [length_singleton]; omega) (by rw [length_singleton]; omega),
      slice_poke_apart (by omega) (by omega), slice_poke_apart (by omega) (by omega), hh₁, slice_pokes hmode fun f hf => by
        have := modeFields_in hf
        omega, slice, tarBlock, drop_replicate, take_replicate, min_eq_left (by omega)]
  refine ⟨⟨(pokes_length howner).trans hlen₄, hzero 0 100 (.inl (by decide)) (by decide), hzero 345 155 (.inr (by decide)) (by decide)⟩,
    ?_, ?_⟩
  · rw [hbefore (.inl (by decide)), hh₄, slice_poke_apart (by rw [length_singleton]; omega) (.inl (by decide)),
      slice_poke_apart (by omega) (.inl (by decide))]
    have hself : slice (poke h₁ 124 (octalField 12 size)) 124 (octalField 12 size).length = octalField 12 size :=
      slice_poke_self (by omega)
    rwa [hsize] at hself
  · rw [hbefore (.inl (by decide)), hh₄]
    exact slice_poke_self (by rw [length_singleton]; omega)

theorem headerChecksum_lt (hlen : h.length = 512) : headerChecksum h < 8 ^ 6 := by
  have hbyte : ∀ x ∈ (poke h 148 (replicate 8 32)).map UInt8.toNat, x ≤ 255 := by
    intro x hx
    obtain ⟨b, -, rfl⟩ := mem_map.mp hx
    have := b.toNat_lt
    omega
  have hsum := sum_le_card_nsmul _ _ hbyte
  rw [length_map, poke_length (by rw [length_replicate]; omega), hlen] at hsum
  exact lt_of_le_of_lt hsum (by decide)

theorem sealHeader_spec (hlen : h.length = 512) :
    (sealHeader h).length = 512 ∧ octalValue (slice (sealHeader h) 148 8) = headerChecksum (sealHeader h) ∧
      ∀ k n, k + n ≤ 148 ∨ 156 ≤ k → slice (sealHeader h) k n = slice h k n := by
  set z := octalField 7 (headerChecksum h) ++ [32] with hz
  have hzlen : z.length = 8 := by rw [hz, length_append, octalField_length (by decide), length_singleton]
  have hself : slice (poke h 148 z) 148 z.length = z := slice_poke_self (by omega)
  have hmask : headerChecksum (poke h 148 z) = headerChecksum h := by
    rw [headerChecksum, poke_poke_self (by rw [length_replicate]; omega) (by omega), length_replicate, ← hzlen, drop_length,
      hzlen, append_nil, headerChecksum]
  rw [show sealHeader h = poke h 148 z from rfl]
  refine ⟨(poke_length (by omega)).trans hlen, ?_, fun k n hk => slice_poke_apart (by omega) (by omega)⟩
  rw [hmask, show (8 : Nat) = z.length from hzlen.symm, hself, hz]
  exact octalValue_octalField (headerChecksum_lt hlen) [32]

/-- A header block that names an entry and carries its own checksum. -/
structure Describes (h : List UInt8) (path : Name) (size : Nat) (typeflag : UInt8) : Prop where
  length : h.length = 512
  path : entryPath h = path
  size : octalValue (slice h 124 12) = size
  type : slice h 156 1 = [typeflag]
  chksum : octalValue (slice h 148 8) = headerChecksum h

theorem describes_sealed {size mtime : Nat} (hset : setEntryName (fillHeader typeflag size mtime) name = some g)
    (hsize : size < 2 ^ 32) (hzero : 0 ∉ name) (hhead : name.head? ≠ some 47) : Describes (sealHeader g) name size typeflag := by
  obtain ⟨hblank, hfield, htype⟩ := fillHeader_spec typeflag size mtime
  obtain ⟨hlen, hpath, -, hkeep⟩ := setEntryName_spec hblank hzero hhead hset
  obtain ⟨hlen', hsum, hapart⟩ := sealHeader_spec hlen
  refine ⟨hlen', ?_, ?_, ?_, hsum⟩
  · rw [entryPath, hapart 345 155 (.inr (by decide)), hapart 0 100 (.inl (by decide))]
    exact hpath
  · have hval := octalValue_octalField (lt_trans hsize (by decide : 2 ^ 32 < 8 ^ (12 - 1))) []
    rw [hapart 124 12 (.inl (by decide)), hkeep 124 12 (by decide) (by decide), hfield]
    rwa [append_nil] at hval
  · rw [hapart 156 1 (.inr (by decide)), hkeep 156 1 (by decide) (by decide), htype]

theorem Describes.not_zero {path : Name} {size : Nat} (hd : Describes h path size typeflag) (ht : typeflag ≠ 0) :
    h.all (· = 0) = false := by
  rw [List.all_eq_false]
  refine ⟨typeflag, ?_, by simpa using ht⟩
  have hmem : typeflag ∈ slice h 156 1 := hd.type ▸ mem_singleton.mpr rfl
  exact mem_of_mem_drop (mem_of_mem_take hmem)

end Header

end Spangap.Ustar
