import Mathlib.Algebra.Group.Nat.Defs
import Mathlib.Data.List.Basic
import Mathlib.Logic.Function.Iterate

namespace Spangap.Bytes

open List

variable {α : Type} {b bs a m : List α} {n off k p : Nat}

def le : List UInt8 → Nat
  | [] => 0
  | b :: bs => b.toNat + 256 * le bs

/-- The low `n` bytes of a number, least significant first. -/
def leBytes : Nat → Nat → List UInt8
  | 0, _ => []
  | n + 1, v => UInt8.ofNat v :: leBytes n (v / 256)

@[simp] theorem leBytes_length (n v : Nat) : (leBytes n v).length = n := by
  induction n generalizing v with
  | zero => rfl
  | succ n ih => simp [leBytes, ih]

theorem le_leBytes (n v : Nat) : le (leBytes n v) = v % 256 ^ n := by
  induction n generalizing v with
  | zero => simp [leBytes, le, Nat.mod_one]
  | succ n ih =>
    have hb : (UInt8.ofNat v).toNat = v % 256 := by simp
    rw [leBytes, le, ih, hb, Nat.pow_succ', Nat.mod_mul]

theorem le_leBytes_of_lt {v : Nat} (h : v < 256 ^ n) : le (leBytes n v) = v := by
  rw [le_leBytes, Nat.mod_eq_of_lt h]

theorem le_lt (bs : List UInt8) : le bs < 256 ^ bs.length := by
  induction bs with
  | nil => exact Nat.one_pos
  | cons x bs ih =>
    have := x.toNat_lt
    rw [le, length_cons, Nat.pow_succ]
    omega

def slice (b : List α) (off n : Nat) : List α := (b.drop off).take n

def poke (b : List α) (off : Nat) (bs : List α) : List α := b.take off ++ bs ++ b.drop (off + bs.length)

@[simp] theorem poke_length (h : off + bs.length ≤ b.length) : (poke b off bs).length = b.length := by
  simp only [poke, length_append, length_take, length_drop]
  omega

theorem poke_append_left (c : List α) (h : off + bs.length ≤ a.length) : poke (a ++ c) off bs = poke a off bs ++ c := by
  simp [poke, take_append_of_le_length (show off ≤ a.length by omega),
    drop_append_of_le_length h]

theorem poke_append_right (a c : List α) (k : Nat) (bs : List α) :
    poke (a ++ c) (a.length + k) bs = a ++ poke c k bs := by
  rw [poke, poke, take_length_add_append, Nat.add_assoc, drop_length_add_append]
  simp

theorem poke_middle (m c : List α) (h : k + b.length ≤ m.length) :
    poke (a ++ (m ++ c)) (a.length + k) b = a ++ (poke m k b ++ c) := by
  rw [poke_append_right, poke_append_left c h]

theorem poke_poke_self {z v : List α} (hv : v.length ≤ z.length) (hz : p + z.length ≤ b.length) :
    poke (poke b p z) p v = poke b p (v ++ z.drop v.length) := by
  have hp : (b.take p).length = p := by
    rw [length_take]
    omega
  have hlen : (v ++ z.drop v.length).length = z.length := by
    rw [length_append, length_drop]
    omega
  have hmid := poke_middle (a := b.take p) (k := 0) (b := v) z (b.drop (p + z.length)) (by omega)
  rw [hp, Nat.add_zero, ← append_assoc, ← poke] at hmid
  rw [hmid, poke, poke, hlen]
  simp

theorem slice_append_left (c : List α) (h : off + n ≤ a.length) : slice (a ++ c) off n = slice a off n := by
  rw [slice, slice, drop_append_of_le_length (by omega), take_append_of_le_length]
  rw [length_drop]
  omega

theorem slice_append_right (a c : List α) (k n : Nat) : slice (a ++ c) (a.length + k) n = slice c k n := by
  rw [slice, slice, drop_length_add_append]

theorem slice_middle (c : List α) (h : k + n ≤ m.length) : slice (a ++ (m ++ c)) (a.length + k) n = slice m k n := by
  rw [slice_append_right, slice_append_left c h]

theorem slice_at (hk : a.length = k) (hn : m.length = n) (c : List α) : slice (a ++ (m ++ c)) k n = m := by
  rw [slice, drop_left' hk, take_left' hn]

theorem take_poke (h : p ≤ b.length) : (poke b p bs).take (p + bs.length) = b.take p ++ bs := by
  have hl : (b.take p ++ bs).length = p + bs.length := by
    rw [length_append, length_take, Nat.min_eq_left h]
  rw [poke, ← hl, take_left]

theorem drop_poke {o : Nat} (hp : p ≤ b.length) (ho : p + bs.length ≤ o) : (poke b p bs).drop o = b.drop o := by
  have hl : (b.take p ++ bs).length = p + bs.length := by
    rw [length_append, length_take, Nat.min_eq_left hp]
  obtain ⟨j, rfl⟩ := Nat.exists_eq_add_of_le ho
  rw [poke, ← hl, drop_length_add_append, hl, drop_drop]

@[simp] theorem slice_length (h : off + n ≤ b.length) : (slice b off n).length = n := by
  simp only [slice, length_take, length_drop]
  omega

theorem slice_poke_self (h : off + bs.length ≤ b.length) : slice (poke b off bs) off bs.length = bs := by
  have hl : (b.take off).length = off := by
    rw [length_take]
    omega
  rw [poke, append_assoc]
  have := slice_append_right (b.take off) (bs ++ b.drop (off + bs.length)) 0 bs.length
  rw [hl] at this
  simpa [slice] using this

theorem slice_poke_apart (h : off + bs.length ≤ b.length) (hapart : k + n ≤ off ∨ off + bs.length ≤ k) :
    slice (poke b off bs) k n = slice b k n := by
  have hl : (b.take off).length = off := by
    rw [length_take]
    omega
  rcases hapart with hbefore | hafter
  · have hsplit : slice b k n = slice (b.take off ++ b.drop off) k n := by rw [take_append_drop]
    rw [hsplit, poke, append_assoc, slice_append_left _ (by omega), slice_append_left _ (by omega)]
  · obtain ⟨j, rfl⟩ := Nat.exists_eq_add_of_le hafter
    have hw : (b.take off ++ bs).length = off + bs.length := by rw [length_append, hl]
    rw [poke, ← hw, slice_append_right, hw, slice, slice, drop_drop]

def counted (t : List UInt8) : List UInt8 := leBytes 2 t.length ++ t

def readCounted (p : List UInt8) : List UInt8 × List UInt8 :=
  ((p.drop 2).take (le (p.take 2)), p.drop (2 + le (p.take 2)))

def readCounteds : Nat → List UInt8 → List (List UInt8)
  | 0, _ => []
  | n + 1, p => (readCounted p).1 :: readCounteds n (readCounted p).2

@[simp] theorem counted_length (t : List UInt8) : (counted t).length = 2 + t.length := by
  simp [counted]

theorem readCounted_counted {t : List UInt8} (h : t.length < 65536) (rest : List UInt8) :
    readCounted (counted t ++ rest) = (t, rest) := by
  have hp : le ((counted t ++ rest).take 2) = t.length := by
    rw [counted, append_assoc, take_append_of_le_length (by simp),
      take_of_length_le (by simp), le_leBytes_of_lt (by simpa using h)]
  have hd : (counted t ++ rest).drop 2 = t ++ rest := by
    exact drop_left' (leBytes_length 2 t.length)
  rw [readCounted, hp, ← drop_drop, hd, take_left, drop_left]

theorem readCounteds_counted {ts : List (List UInt8)} (h : ∀ t ∈ ts, t.length < 65536)
    (rest : List UInt8) : readCounteds ts.length ((ts.map counted).flatten ++ rest) = ts := by
  induction ts with
  | nil => rfl
  | cons t ts ih =>
    rw [map_cons, flatten_cons, append_assoc, length_cons, readCounteds,
      readCounted_counted (h t mem_cons_self),
      ih fun u hu => h u (mem_cons_of_mem t hu)]

end Spangap.Bytes

namespace Spangap.Crc32

open List

def shift (c : UInt32) : UInt32 := (c >>> 1) ^^^ (0xEDB88320 &&& (0 - (c &&& 1)))

def update (c : UInt32) (b : UInt8) : UInt32 := shift^[8] (c ^^^ b.toUInt32)

def crc32 (c : UInt32) (bs : List UInt8) : UInt32 := ~~~ bs.foldl update (~~~ c)

@[simp] theorem crc32_nil (c : UInt32) : crc32 c [] = c := by
  rw [crc32, foldl_nil, UInt32.not_not]

theorem crc32_append (c : UInt32) (a b : List UInt8) : crc32 c (a ++ b) = crc32 (crc32 c a) b := by
  rw [crc32, crc32, crc32, foldl_append, UInt32.not_not]

example : crc32 0 [0x31, 0x32, 0x33, 0x34, 0x35, 0x36, 0x37, 0x38, 0x39] = 0xCBF43926 := by decide +kernel

end Spangap.Crc32
