import Spangap.Bisect
import Spangap.Bytes
import Spangap.CJson

namespace Spangap.Spanfs

open List Bytes CJson Crc32 Bisect

inductive EspErr
  | invalidArg | invalidState | invalidSize | notFound | invalidCrc
  deriving DecidableEq, Repr

/-- A call comes to an end with an error, or by reading outside the buffer. -/
inductive Halt
  | err (e : EspErr)
  | outside
  deriving DecidableEq, Repr

def magic : Nat := 0x53504653

def headerSz : Nat := 20

def entrySz : Nat := 12

def wrap (n : Nat) : Nat := n % 2 ^ 32

section Reads

variable (b : List UInt8)

def span (off n : Nat) : Except Halt (List UInt8) := if off + n ≤ b.length then .ok (slice b off n) else .error .outside

def rdU32 (off : Nat) : Except Halt Nat := do
  let bs ← span b off 4
  .ok (le bs)

def cstrAt (off : Nat) : Except Halt Name :=
  if 0 ∈ b.drop off then .ok ((b.drop off).takeWhile (· ≠ 0)) else .error .outside

end Reads

def require (p : Prop) [Decidable p] (e : EspErr) : Except Halt Unit := if p then .ok () else .error (.err e)

structure Image where
  base : List UInt8
  entryCount : Nat
  totalSize : Nat
  deriving DecidableEq, Repr

def entryOff (i : Nat) : Nat := headerSz + wrap (i * entrySz)

def indexEnd (count : Nat) : Nat := wrap (headerSz + wrap (count * entrySz))

def checkEntry (b : List UInt8) (indexEnd total i : Nat) : Except Halt Unit := do
  let po ← rdU32 b (entryOff i)
  let doff ← rdU32 b (entryOff i + 4)
  let dlen ← rdU32 b (entryOff i + 8)
  require (indexEnd ≤ po ∧ po < total) .invalidSize
  require (doff + dlen ≤ total) .invalidSize
  let path ← span b po (total - po)
  require (0 ∈ path) .invalidSize

def checkEntries (b : List UInt8) (indexEnd total : Nat) : Nat → Nat → Except Halt Unit
  | 0, _ => .ok ()
  | n + 1, i => do
      checkEntry b indexEnd total i
      checkEntries b indexEnd total n (i + 1)

def metaEnd (b : List UInt8) (count total : Nat) : Except Halt Nat :=
  if 0 < count then do
    let first ← rdU32 b (headerSz + 4)
    require (indexEnd count ≤ first ∧ first ≤ total) .invalidSize
    .ok first
  else .ok total

def openMem (b : List UInt8) : Except Halt Image := do
  require (headerSz ≤ b.length) .invalidSize
  let m ← rdU32 b 0
  require (m = magic) .invalidState
  let version ← span b 4 1
  require (version = [1]) .invalidState
  let count ← rdU32 b 8
  let total ← rdU32 b 12
  let crc ← rdU32 b 16
  require (headerSz ≤ total ∧ total ≤ b.length) .invalidSize
  require (indexEnd count ≤ total) .invalidSize
  let crcEnd ← metaEnd b count total
  let covered ← span b headerSz (wrap (crcEnd + 2 ^ 32 - headerSz))
  require ((crc32 0 covered).toNat = crc) .invalidCrc
  checkEntries b (indexEnd count) total count 0
  .ok ⟨b, count, total⟩

namespace Image

variable (fs : Image)

def entPath (i : Nat) : Except Halt Name := do
  let po ← rdU32 fs.base (entryOff i)
  cstrAt fs.base po

/-- Where the data of entry `i` is, and how long. -/
def entData (i : Nat) : Except Halt (Nat × Nat) := do
  let off ← rdU32 fs.base (entryOff i + 4)
  let len ← rdU32 fs.base (entryOff i + 8)
  .ok (off, len)

def lookup (path : Name) : Except Halt (Nat × Nat) := do
  let path := path.dropWhile (· = 47)
  let found ← bisect (fun i => do let p ← fs.entPath i; .ok (compare path p)) fs.entryCount 0 fs.entryCount
  match found with
  | some i => fs.entData i
  | none => .error (.err .notFound)

def entryAt (i : Nat) : Except Halt (Name × Nat × Nat) := do
  require (i < fs.entryCount) .invalidArg
  let path ← fs.entPath i
  let data ← fs.entData i
  .ok (path, data)

end Image

section Steps

variable {b : List UInt8}

/-- The number at `off` of a buffer that has it. -/
def word (b : List UInt8) (off : Nat) : Nat := le (slice b off 4)

@[simp] theorem ok_bind {α β : Type} (a : α) (f : α → Except Halt β) : (Except.ok a >>= f) = f a := rfl

@[simp] theorem error_bind {α β : Type} (e : Halt) (f : α → Except Halt β) : ((.error e : Except Halt α) >>= f) = .error e := rfl

theorem span_ok {off n : Nat} (h : off + n ≤ b.length) : span b off n = .ok (slice b off n) := if_pos h

theorem span_outside {off n : Nat} (h : b.length < off + n) : span b off n = .error .outside := if_neg (Nat.not_le.mpr h)

theorem rdU32_ok {off : Nat} (h : off + 4 ≤ b.length) : rdU32 b off = .ok (word b off) := by
  rw [rdU32, span_ok h]
  rfl

theorem rdU32_outside {off : Nat} (h : b.length < off + 4) : rdU32 b off = .error .outside := by
  rw [rdU32, span_outside h]
  rfl

theorem require_pos {p : Prop} [Decidable p] (h : p) (e : EspErr) : require p e = .ok () := if_pos h

theorem require_neg {p : Prop} [Decidable p] (h : ¬ p) (e : EspErr) : require p e = .error (.err e) := if_neg h

theorem wrap_of_lt {n : Nat} (h : n < 2 ^ 32) : wrap n = n := Nat.mod_eq_of_lt h

end Steps

section Entries

variable {b : List UInt8} {ie total i : Nat}

/-- What is required of entry `i` when its record is in the buffer. -/
structure Valid (b : List UInt8) (ie total i : Nat) : Prop where
  low : ie ≤ word b (20 + 12 * i)
  high : word b (20 + 12 * i) < total
  data : word b (24 + 12 * i) + word b (28 + 12 * i) ≤ total
  terminated : 0 ∈ slice b (word b (20 + 12 * i)) (total - word b (20 + 12 * i))

theorem entryOff_eq (h : 12 * i < 2 ^ 32) : entryOff i = 20 + 12 * i := by
  rw [entryOff, entrySz, Nat.mul_comm, wrap_of_lt h]
  rfl

theorem checkEntry_valid (hi : 12 * i < 2 ^ 32) (hin : 32 + 12 * i ≤ b.length) (htotal : total ≤ b.length) (hv : Valid b ie total i) :
    checkEntry b ie total i = .ok () := by
  have hspan := hv.high
  rw [checkEntry, entryOff_eq hi, rdU32_ok (by omega), rdU32_ok (by omega), rdU32_ok (by omega), show 20 + 12 * i + 4 = 24 + 12 * i by omega,
    show 20 + 12 * i + 8 = 28 + 12 * i by omega]
  simp only [ok_bind]
  rw [require_pos ⟨hv.low, hv.high⟩, ok_bind, require_pos hv.data, ok_bind, span_ok (by omega), ok_bind, require_pos hv.terminated]

theorem checkEntry_invalid (hi : 12 * i < 2 ^ 32) (hin : 32 + 12 * i ≤ b.length) (htotal : total ≤ b.length) (hv : ¬ Valid b ie total i) :
    checkEntry b ie total i = .error (.err .invalidSize) := by
  rw [checkEntry, entryOff_eq hi, rdU32_ok (by omega), rdU32_ok (by omega), rdU32_ok (by omega), show 20 + 12 * i + 4 = 24 + 12 * i by omega,
    show 20 + 12 * i + 8 = 28 + 12 * i by omega]
  simp only [ok_bind]
  by_cases hpath : ie ≤ word b (20 + 12 * i) ∧ word b (20 + 12 * i) < total
  · rw [require_pos hpath, ok_bind]
    by_cases hdata : word b (24 + 12 * i) + word b (28 + 12 * i) ≤ total
    · have hnul : ¬ 0 ∈ slice b (word b (20 + 12 * i)) (total - word b (20 + 12 * i)) := fun h => hv ⟨hpath.1, hpath.2, hdata, h⟩
      rw [require_pos hdata, ok_bind, span_ok (by omega), ok_bind, require_neg hnul]
    · rw [require_neg hdata, error_bind]
  · rw [require_neg hpath, error_bind]

theorem checkEntry_outside (hi : 12 * i < 2 ^ 32) (hout : b.length < 32 + 12 * i) : checkEntry b ie total i = .error .outside := by
  rw [checkEntry, entryOff_eq hi]
  by_cases h₁ : 20 + 12 * i + 4 ≤ b.length
  · rw [rdU32_ok h₁, ok_bind]
    by_cases h₂ : 20 + 12 * i + 4 + 4 ≤ b.length
    · rw [rdU32_ok h₂, ok_bind, rdU32_outside (by omega), error_bind]
    · rw [rdU32_outside (by omega), error_bind]
  · rw [rdU32_outside (by omega), error_bind]

variable (ie) in
theorem checkEntries_cases (hsize : b.length < 2 ^ 32) (htotal : total ≤ b.length) (n : Nat) (hi : 20 + 12 * i ≤ b.length) :
    (¬ ∀ j, i ≤ j → j < i + n → 32 + 12 * j ≤ b.length → Valid b ie total j) ∧ checkEntries b ie total n i = .error (.err .invalidSize) ∨
      (∀ j, i ≤ j → j < i + n → 32 + 12 * j ≤ b.length → Valid b ie total j) ∧
        checkEntries b ie total n i = if 20 + 12 * (i + n) ≤ b.length then .ok () else .error .outside := by
  induction n generalizing i with
  | zero => exact .inr ⟨fun j hlo hhi => absurd hhi (by omega), (if_pos hi).symm⟩
  | succ n ih =>
    rw [checkEntries]
    by_cases hin : 32 + 12 * i ≤ b.length
    · by_cases hv : Valid b ie total i
      · rw [checkEntry_valid (by omega) hin htotal hv, ok_bind, show i + (n + 1) = i + 1 + n by omega]
        rcases ih (show 20 + 12 * (i + 1) ≤ b.length by omega) with ⟨hbad, heq⟩ | ⟨hall, heq⟩
        · exact .inl ⟨fun hall => hbad fun j hlo hhi => hall j (by omega) hhi, heq⟩
        · refine .inr ⟨fun j hlo hhi hj => ?_, heq⟩
          rcases Nat.eq_or_lt_of_le hlo with rfl | hlt
          · exact hv
          · exact hall j hlt hhi hj
      · rw [checkEntry_invalid (by omega) hin htotal hv, error_bind]
        exact .inl ⟨fun hall => hv (hall i (le_refl i) (by omega) hin), rfl⟩
    · rw [checkEntry_outside (by omega) (by omega), error_bind, if_neg (by omega)]
      exact .inr ⟨fun j hlo hhi hj => absurd hj (by omega), rfl⟩

end Entries

section Open

variable {b : List UInt8}

def count (b : List UInt8) : Nat := word b 8

def total (b : List UInt8) : Nat := word b 12

def first (b : List UInt8) : Nat := word b 24

structure Headed (b : List UInt8) : Prop where
  size : headerSz ≤ b.length
  magic : word b 0 = magic
  version : slice b 4 1 = [1]
  low : headerSz ≤ total b
  high : total b ≤ b.length
  index : indexEnd (count b) ≤ total b

def openIndex (b : List UInt8) (count total crc : Nat) : Except Halt Image := do
  let crcEnd ← metaEnd b count total
  let covered ← span b headerSz (wrap (crcEnd + 2 ^ 32 - headerSz))
  require ((crc32 0 covered).toNat = crc) .invalidCrc
  checkEntries b (indexEnd count) total count 0
  .ok ⟨b, count, total⟩

theorem open_headed (h : Headed b) : openMem b = openIndex b (count b) (total b) (word b 16) := by
  have hlen : 20 ≤ b.length := h.size
  have htotal : headerSz ≤ word b 12 ∧ word b 12 ≤ b.length := ⟨h.low, h.high⟩
  have hindex : indexEnd (word b 8) ≤ word b 12 := h.index
  rw [openMem, require_pos h.size, ok_bind, rdU32_ok (by omega), ok_bind, require_pos h.magic, ok_bind, span_ok (by omega), ok_bind,
    require_pos h.version, ok_bind, rdU32_ok (by omega), ok_bind, rdU32_ok (by omega), ok_bind, rdU32_ok (by omega), ok_bind,
    require_pos htotal, ok_bind, require_pos hindex, ok_bind]
  rfl

theorem open_unheaded (h : ¬ Headed b) : ∃ e, openMem b = .error (.err e) := by
  rw [openMem]
  by_cases hsize : headerSz ≤ b.length
  · have hlen : 20 ≤ b.length := hsize
    rw [require_pos hsize, ok_bind, rdU32_ok (by omega), ok_bind]
    by_cases hmagic : word b 0 = magic
    · rw [require_pos hmagic, ok_bind, span_ok (by omega), ok_bind]
      by_cases hversion : slice b 4 1 = [1]
      · rw [require_pos hversion, ok_bind, rdU32_ok (by omega), ok_bind, rdU32_ok (by omega), ok_bind, rdU32_ok (by omega), ok_bind]
        by_cases htotal : headerSz ≤ word b 12 ∧ word b 12 ≤ b.length
        · have hindex : ¬ indexEnd (word b 8) ≤ word b 12 := fun hindex => h ⟨hsize, hmagic, hversion, htotal.1, htotal.2, hindex⟩
          rw [require_pos htotal, ok_bind, require_neg hindex]
          exact ⟨_, rfl⟩
        · rw [require_neg htotal]
          exact ⟨_, rfl⟩
      · rw [require_neg hversion]
        exact ⟨_, rfl⟩
    · rw [require_neg hmagic]
      exact ⟨_, rfl⟩
  · rw [require_neg hsize]
    exact ⟨_, rfl⟩

/-- The end of the index does not fit its type. -/
def Wraps (b : List UInt8) : Prop := 2 ^ 32 ≤ 20 + 12 * count b

/-- The header passes the checks with a count that is too large, and nothing stops the reader
before it comes to the end of the buffer. -/
structure Overruns (b : List UInt8) : Prop where
  headed : Headed b
  wraps : Wraps b
  unstopped : b.length < 28 ∨ indexEnd (count b) ≤ first b ∧ first b ≤ total b ∧
    (first b < 20 ∨ (crc32 0 (slice b 20 (first b - 20))).toNat = word b 16 ∧
      ∀ i, 32 + 12 * i ≤ b.length → Valid b (indexEnd (count b)) (total b) i)

theorem wrap_back {n : Nat} (hlo : 20 ≤ n) (hhi : n < 2 ^ 32) : wrap (n + 2 ^ 32 - headerSz) = n - 20 := by
  rw [wrap, headerSz, show n + 2 ^ 32 - 20 = n - 20 + 2 ^ 32 by omega, Nat.add_mod_right]
  exact Nat.mod_eq_of_lt (by omega)

theorem wrap_under {n : Nat} (h : n < 20) : wrap (n + 2 ^ 32 - headerSz) = n + 2 ^ 32 - 20 := wrap_of_lt (by rw [headerSz]; omega)

theorem metaEnd_some (hpos : 0 < count b) (hsize : 28 ≤ b.length) :
    metaEnd b (count b) (total b) =
      if indexEnd (count b) ≤ first b ∧ first b ≤ total b then .ok (first b) else .error (.err .invalidSize) := by
  rw [metaEnd, if_pos hpos, rdU32_ok (by rw [headerSz]; omega), ok_bind, show word b (headerSz + 4) = first b from rfl, require]
  split <;> rfl

theorem openIndex_covered {n : Nat} (hsize : b.length < 2 ^ 32) (hmeta : metaEnd b (count b) (total b) = .ok n) (hlo : 20 ≤ n)
    (hhi : n ≤ b.length) :
    openIndex b (count b) (total b) (word b 16) =
      if (crc32 0 (slice b 20 (n - 20))).toNat = word b 16 then do
        checkEntries b (indexEnd (count b)) (total b) (count b) 0
        .ok ⟨b, count b, total b⟩
      else .error (.err .invalidCrc) := by
  rw [openIndex, hmeta, ok_bind, wrap_back hlo (by omega), span_ok (by rw [headerSz]; omega), ok_bind, require, headerSz]
  split
  · rfl
  · rfl

theorem open_wraps (hsize : b.length < 2 ^ 32) (h : Headed b) (hw : Wraps b) :
    Overruns b ∧ openMem b = .error .outside ∨ ¬ Overruns b ∧ ∃ e, openMem b = .error (.err e) := by
  have hbig : 2 ^ 32 ≤ 20 + 12 * count b := hw
  have hpos : 0 < count b := by omega
  have hlen : 20 ≤ b.length := h.size
  have htotal := h.high
  rw [open_headed h]
  by_cases hshort : b.length < 28
  · refine .inl ⟨⟨h, hw, .inl hshort⟩, ?_⟩
    rw [openIndex, metaEnd, if_pos hpos, rdU32_outside (by rw [headerSz]; omega), error_bind, error_bind]
  · have hmeta := metaEnd_some hpos (Nat.not_lt.mp hshort)
    by_cases hfirst : indexEnd (count b) ≤ first b ∧ first b ≤ total b
    · rw [if_pos hfirst] at hmeta
      by_cases hunder : first b < 20
      · refine .inl ⟨⟨h, hw, .inr ⟨hfirst.1, hfirst.2, .inl hunder⟩⟩, ?_⟩
        rw [openIndex, hmeta, ok_bind, wrap_under hunder, span_outside (by rw [headerSz]; omega), error_bind]
      · rw [openIndex_covered hsize hmeta (by omega) (by omega)]
        by_cases hcrc : (crc32 0 (slice b 20 (first b - 20))).toNat = word b 16
        · rw [if_pos hcrc]
          rcases checkEntries_cases (indexEnd (count b)) (i := 0) hsize htotal (count b) hlen with ⟨hbad, heq⟩ | ⟨hall, heq⟩
          · refine .inr ⟨?_, _, by rw [heq, error_bind]⟩
            rintro ⟨-, -, hshort' | ⟨-, -, hunder' | ⟨-, hall⟩⟩⟩
            · exact hshort hshort'
            · exact hunder hunder'
            · exact hbad fun j _ _ hj => hall j hj
          · refine .inl ⟨⟨h, hw, .inr ⟨hfirst.1, hfirst.2, .inr ⟨hcrc, fun i hi => hall i (Nat.zero_le i) (by omega) hi⟩⟩⟩, ?_⟩
            rw [heq, if_neg (by omega), error_bind]
        · rw [if_neg hcrc]
          refine .inr ⟨?_, _, rfl⟩
          rintro ⟨-, -, hshort' | ⟨-, -, hunder' | ⟨hcrc', -⟩⟩⟩
          · exact hshort hshort'
          · exact hunder hunder'
          · exact hcrc hcrc'
    · rw [if_neg hfirst] at hmeta
      refine .inr ⟨?_, _, by rw [openIndex, hmeta, error_bind]⟩
      rintro ⟨-, -, hshort' | ⟨hlo, hhi, -⟩⟩
      · exact hshort hshort'
      · exact hfirst ⟨hlo, hhi⟩

def covers (b : List UInt8) : Nat := if 0 < count b then first b else total b

/-- What an image that is opened is like. -/
structure Accepted (b : List UInt8) : Prop where
  headed : Headed b
  fits : 20 + 12 * count b < 2 ^ 32
  low : 20 + 12 * count b ≤ covers b
  high : covers b ≤ total b
  crc : (crc32 0 (slice b 20 (covers b - 20))).toNat = word b 16
  entries : ∀ i, i < count b → Valid b (20 + 12 * count b) (total b) i

theorem indexEnd_eq {n : Nat} (h : 20 + 12 * n < 2 ^ 32) : indexEnd n = 20 + 12 * n := by
  rw [indexEnd, entrySz, headerSz, Nat.mul_comm, wrap_of_lt (show 12 * n < 2 ^ 32 by omega), wrap_of_lt h]

theorem metaEnd_covers (h : Headed b) (hfits : 20 + 12 * count b < 2 ^ 32) :
    metaEnd b (count b) (total b) =
      if 20 + 12 * count b ≤ covers b ∧ covers b ≤ total b then .ok (covers b) else .error (.err .invalidSize) := by
  have hindex := h.index
  have hhigh := h.high
  have hlow : 20 ≤ total b := h.low
  rw [indexEnd_eq hfits] at hindex
  by_cases hpos : 0 < count b
  · have hcovers : covers b = first b := if_pos hpos
    rw [hcovers, metaEnd_some hpos (by omega), indexEnd_eq hfits]
  · have hcovers : covers b = total b := if_neg hpos
    rw [hcovers, metaEnd, if_neg hpos, if_pos ⟨hindex, le_rfl⟩]

theorem open_fits (hsize : b.length < 2 ^ 32) (h : Headed b) (hfits : 20 + 12 * count b < 2 ^ 32) :
    Accepted b ∧ openMem b = .ok ⟨b, count b, total b⟩ ∨ ¬ Accepted b ∧ ∃ e, openMem b = .error (.err e) := by
  have hlen : 20 ≤ b.length := h.size
  have hhigh := h.high
  have hindex := h.index
  have hmeta := metaEnd_covers h hfits
  rw [indexEnd_eq hfits] at hindex
  rw [open_headed h]
  by_cases hcovers : 20 + 12 * count b ≤ covers b ∧ covers b ≤ total b
  · rw [if_pos hcovers] at hmeta
    rw [openIndex_covered hsize hmeta (by omega) (by omega), indexEnd_eq hfits]
    by_cases hcrc : (crc32 0 (slice b 20 (covers b - 20))).toNat = word b 16
    · rw [if_pos hcrc]
      rcases checkEntries_cases (20 + 12 * count b) (i := 0) hsize hhigh (count b) hlen with ⟨hbad, heq⟩ | ⟨hall, heq⟩
      · exact .inr ⟨fun ha => hbad fun j _ hj _ => ha.entries j (by omega), _, by rw [heq, error_bind]⟩
      · have hentries : ∀ i, i < count b → Valid b (20 + 12 * count b) (total b) i :=
          fun i hi => hall i (Nat.zero_le i) (by omega) (by omega)
        exact .inl ⟨⟨h, hfits, hcovers.1, hcovers.2, hcrc, hentries⟩, by rw [heq, if_pos (by omega), ok_bind]⟩
    · rw [if_neg hcrc]
      exact .inr ⟨fun ha => hcrc ha.crc, _, rfl⟩
  · rw [if_neg hcovers] at hmeta
    exact .inr ⟨fun ha => hcovers ⟨ha.low, ha.high⟩, _, by rw [openIndex, hmeta, error_bind]⟩

end Open

section Use

variable {b : List UInt8} {i : Nat}

/-- The image that an accepted buffer is opened as. -/
def image (b : List UInt8) : Image := ⟨b, count b, total b⟩

section

variable (h : Accepted b) (hi : i < count b)
include h hi

theorem Accepted.record : 32 + 12 * i ≤ b.length := by
  have := h.low
  have := h.high
  have := h.headed.high
  omega

theorem Accepted.entryOff : entryOff i = 20 + 12 * i := by
  have := h.fits
  exact entryOff_eq (by omega)

theorem Accepted.entPath : (image b).entPath i = .ok ((b.drop (word b (20 + 12 * i))).takeWhile (· ≠ 0)) := by
  have hin := h.record hi
  have hnul : 0 ∈ b.drop (word b (20 + 12 * i)) := mem_of_mem_take (h.entries i hi).terminated
  rw [Image.entPath, h.entryOff hi, show (image b).base = b from rfl, rdU32_ok (by omega), ok_bind, cstrAt, if_pos hnul]

theorem Accepted.entData : (image b).entData i = .ok (word b (24 + 12 * i), word b (28 + 12 * i)) := by
  have hin := h.record hi
  rw [Image.entData, h.entryOff hi, show (image b).base = b from rfl, rdU32_ok (by omega), ok_bind, rdU32_ok (by omega), ok_bind, show 20 + 12 * i + 4 = 24 + 12 * i by omega,
    show 20 + 12 * i + 8 = 28 + 12 * i by omega]

theorem Accepted.inside : word b (24 + 12 * i) + word b (28 + 12 * i) ≤ b.length :=
  le_trans (h.entries i hi).data h.headed.high

end

/-- The reader stays inside the buffer: when it opens it, at every entry and at every lookup. -/
structure Safe (b : List UInt8) : Prop where
  opens : openMem b ≠ .error .outside
  entries : ∀ fs, openMem b = .ok fs → ∀ i, i < fs.entryCount → ∃ name off len, fs.entryAt i = .ok (name, off, len) ∧ off + len ≤ b.length
  lookups : ∀ fs, openMem b = .ok fs → ∀ path,
    fs.lookup path ≠ .error .outside ∧ ∀ off len, fs.lookup path = .ok (off, len) → off + len ≤ b.length

theorem Accepted.entryAt (h : Accepted b) (hi : i < count b) :
    (image b).entryAt i =
      .ok ((b.drop (word b (20 + 12 * i))).takeWhile (· ≠ 0), word b (24 + 12 * i), word b (28 + 12 * i)) := by
  rw [Image.entryAt, require_pos (show i < (image b).entryCount from hi), ok_bind, h.entPath hi, ok_bind, h.entData hi, ok_bind]

def probe (b : List UInt8) (path : Name) (i : Nat) : Except Halt Ordering := do
  let p ← (image b).entPath i
  .ok (compare path p)

theorem Accepted.probe (h : Accepted b) (hi : i < count b) (path : Name) :
    probe b path i = .ok (compare path ((b.drop (word b (20 + 12 * i))).takeWhile (· ≠ 0))) := by
  rw [Spanfs.probe, h.entPath hi, ok_bind]

theorem lookup_eq (b : List UInt8) (path : Name) :
    (image b).lookup path =
      (bisect (probe b (path.dropWhile (· = 47))) (count b) 0 (count b) >>= fun
        | some i => (image b).entData i
        | none => .error (.err .notFound)) := rfl

theorem Accepted.lookup (h : Accepted b) (path : Name) :
    (image b).lookup path = .error (.err .notFound) ∨
      ∃ i, i < count b ∧ (image b).lookup path = .ok (word b (24 + 12 * i), word b (28 + 12 * i)) := by
  obtain ⟨r, hr, hfound⟩ := bisect_total (count b) fun i _ hi => ⟨_, h.probe hi (path.dropWhile (· = 47))⟩
  rw [lookup_eq, hr, ok_bind]
  cases r with
  | none => exact .inl rfl
  | some i =>
    obtain ⟨-, hi, -⟩ := hfound i rfl
    exact .inr ⟨i, hi, h.entData hi⟩

theorem Accepted.safe (h : Accepted b) (hopen : openMem b = .ok (image b)) : Safe b := by
  refine ⟨by rw [hopen]; simp, fun fs hfs i hi => ?_, fun fs hfs path => ?_⟩
  · cases hopen.symm.trans hfs
    exact ⟨_, _, _, h.entryAt hi, h.inside hi⟩
  · cases hopen.symm.trans hfs
    rcases h.lookup path with hno | ⟨i, hi, hyes⟩
    · rw [hno]
      exact ⟨by simp, by simp⟩
    · rw [hyes]
      refine ⟨by simp, fun off len heq => ?_⟩
      obtain ⟨rfl, rfl⟩ := Prod.mk.inj (Except.ok.inj heq)
      exact h.inside hi

theorem safe_of_refused {e : EspErr} (h : openMem b = .error (.err e)) : Safe b :=
  ⟨by rw [h]; simp, fun fs hfs => absurd (h.symm.trans hfs) (by simp), fun fs hfs => absurd (h.symm.trans hfs) (by simp)⟩

/-- The reader stays inside the buffer unless the count of entries is so large that the end of
the index wraps around and no check stops it. -/
theorem safe_iff_not_overruns (hsize : b.length < 2 ^ 32) : Safe b ↔ ¬ Overruns b := by
  by_cases hhead : Headed b
  · by_cases hwraps : Wraps b
    · rcases open_wraps hsize hhead hwraps with ⟨hover, hopen⟩ | ⟨hno, e, hopen⟩
      · exact ⟨fun hsafe => absurd hopen hsafe.opens, fun hno => absurd hover hno⟩
      · exact ⟨fun _ => hno, fun _ => safe_of_refused hopen⟩
    · refine ⟨fun _ hover => hwraps hover.wraps, fun _ => ?_⟩
      rcases open_fits hsize hhead (Nat.not_le.mp hwraps) with ⟨hacc, hopen⟩ | ⟨-, e, hopen⟩
      · exact hacc.safe hopen
      · exact safe_of_refused hopen
  · obtain ⟨e, hopen⟩ := open_unheaded hhead
    exact ⟨fun _ hover => hhead hover.headed, fun _ => safe_of_refused hopen⟩

end Use

def small : List UInt8 :=
  [83, 70, 80, 83, 1, 0, 0, 0, 1, 0, 0, 0, 38, 0, 0, 0, 180, 71, 12, 33, 32, 0, 0, 0, 36, 0, 0, 0, 2, 0, 0, 0, 97, 0, 0, 0, 104, 105]

theorem safe_small : small.length < 2 ^ 32 ∧ openMem small = .ok (image small) ∧ Safe small :=
  ⟨by decide, by decide +kernel,
    (safe_iff_not_overruns (by decide)).mpr fun h => absurd h.wraps (show ¬ 2 ^ 32 ≤ 20 + 12 * count small by decide +kernel)⟩

/-- Forty bytes whose count of entries is 0x15555556, twelve times which is eight. -/
def crafted : List UInt8 :=
  [83, 70, 80, 83, 1, 0, 0, 0, 86, 85, 85, 21, 40, 0, 0, 0, 180, 47, 5, 113, 32, 0, 0, 0, 40, 0, 0, 0, 0, 0, 0, 0, 0, 0, 0, 0, 0, 0, 0, 0]

theorem crafted_overrun : crafted.length = 40 ∧ openMem crafted = .error .outside := by decide +kernel

end Spangap.Spanfs
