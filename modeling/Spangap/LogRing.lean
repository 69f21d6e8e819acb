import Spangap.Circular

namespace Spangap.LogRing

open List Circular

def ringSize : Nat := 8192

def add32 (a b : Nat) : Nat := (a + b) % 2 ^ 32

def sub32 (a b : Nat) : Nat := (a + 2 ^ 32 - b) % 2 ^ 32

/-- The ring between the tasks that log and the log task. -/
structure Ring where
  mem : Nat → UInt8
  head : Nat
  tail : Nat
  dropped : Nat

def Ring.avail (r : Ring) : Nat := sub32 r.head r.tail

def Ring.free (r : Ring) : Nat := sub32 ringSize r.avail

def logRingWrite (r : Ring) (data : List UInt8) : Ring :=
  let n := min data.length r.free
  { r with
    mem := store ringSize r.mem r.head (data.take n)
    head := add32 r.head n
    dropped := add32 r.dropped (data.length - n) }

def logRingRead (r : Ring) (maxLen : Nat) : Ring × List UInt8 :=
  let n := min r.avail maxLen
  ({ r with tail := add32 r.tail n }, window ringSize r.mem r.tail n)

def Ring.contents (r : Ring) : List UInt8 := window ringSize r.mem r.tail r.avail

structure Sound (r : Ring) : Prop where
  head : r.head < 2 ^ 32
  tail : r.tail < 2 ^ 32
  avail : r.avail ≤ ringSize

theorem add32_lt (a b : Nat) : add32 a b < 2 ^ 32 := Nat.mod_lt _ (Nat.two_pow_pos 32)

theorem add32_mod (a b : Nat) : add32 a b % ringSize = (a + b) % ringSize := Nat.mod_mod_of_dvd (a + b) (by decide)

theorem sub32_of_le {a b : Nat} (ha : a < 2 ^ 32) (h : b ≤ a) : sub32 a b = a - b := by
  rw [sub32]
  omega

theorem add32_sub32 {a b : Nat} (ha : a < 2 ^ 32) (hb : b < 2 ^ 32) : add32 b (sub32 a b) = a := by
  rw [add32, sub32]
  omega

theorem sub32_add_left {a b n : Nat} (ha : a < 2 ^ 32) (hb : b < 2 ^ 32) (hn : sub32 a b + n < 2 ^ 32) :
    sub32 (add32 a n) b = sub32 a b + n := by
  rw [sub32] at hn
  rw [sub32, sub32, add32]
  omega

theorem sub32_add_right {a b n : Nat} (ha : a < 2 ^ 32) (hb : b < 2 ^ 32) (hn : n ≤ sub32 a b) : sub32 a (add32 b n) = sub32 a b - n := by
  rw [sub32] at hn
  rw [sub32, sub32, add32]
  omega

section Refine

variable {r : Ring}

theorem Sound.free (h : Sound r) : r.free = ringSize - r.avail := sub32_of_le (by decide) h.avail

theorem Sound.head_eq (h : Sound r) : r.head % ringSize = (r.tail + r.avail) % ringSize := by
  rw [← add32_mod, Ring.avail, add32_sub32 h.head h.tail]

theorem avail_write (h : Sound r) (data : List UInt8) : (logRingWrite r data).avail = r.avail + min data.length r.free := by
  have havail := h.avail
  have hfree := h.free
  have hsize : ringSize < 2 ^ 32 := by decide
  exact sub32_add_left h.head h.tail (show r.avail + min data.length r.free < 2 ^ 32 by omega)

theorem sound_write (h : Sound r) (data : List UInt8) : Sound (logRingWrite r data) := by
  refine ⟨add32_lt _ _, h.tail, ?_⟩
  have havail := h.avail
  have hfree := h.free
  rw [avail_write h]
  omega

theorem contents_write (h : Sound r) (data : List UInt8) : (logRingWrite r data).contents = r.contents ++ data.take r.free := by
  have havail := h.avail
  have hfree := h.free
  have htake : data.take (min data.length r.free) = data.take r.free := by rw [min_comm, take_eq_take_min (i := r.free)]
  have hlen : (data.take r.free).length = min data.length r.free := by rw [length_take, min_comm]
  have hmem : (logRingWrite r data).mem = store ringSize r.mem r.head (data.take r.free) := by
    rw [← htake]
    rfl
  rw [Ring.contents, avail_write h, window_add, hmem, store_mod h.head_eq, show (logRingWrite r data).tail = r.tail from rfl, ← hlen,
    window_store (by omega), window_store_before (by omega), Ring.contents]

theorem tail_read (r : Ring) (maxLen : Nat) : (logRingRead r maxLen).1.tail = add32 r.tail (min r.avail maxLen) := by rw [logRingRead]

theorem head_read (r : Ring) (maxLen : Nat) : (logRingRead r maxLen).1.head = r.head := by
  cases r
  rfl

theorem mem_read (r : Ring) (maxLen : Nat) : (logRingRead r maxLen).1.mem = r.mem := by
  cases r
  rfl

theorem avail_read (h : Sound r) (maxLen : Nat) : (logRingRead r maxLen).1.avail = r.avail - min r.avail maxLen := by
  have hle : min r.avail maxLen ≤ sub32 r.head r.tail := by
    rw [← Ring.avail]
    exact min_le_left _ _
  rw [Ring.avail, tail_read, head_read, sub32_add_right h.head h.tail hle, ← Ring.avail]

theorem sound_read (h : Sound r) (maxLen : Nat) : Sound (logRingRead r maxLen).1 := by
  refine ⟨by rw [head_read]; exact h.head, by rw [tail_read]; exact add32_lt _ _, ?_⟩
  rw [avail_read h]
  exact le_trans (Nat.sub_le _ _) h.avail

theorem read_eq (h : Sound r) (maxLen : Nat) :
    (logRingRead r maxLen).2 = r.contents.take maxLen ∧ (logRingRead r maxLen).1.contents = r.contents.drop maxLen := by
  have hlen : r.contents.length = r.avail := window_length _ _ _ _
  have htake : r.contents.take maxLen = r.contents.take (min r.avail maxLen) := by
    rw [take_eq_take_min, hlen, min_comm]
  have hdrop : r.contents.drop maxLen = r.contents.drop (min r.avail maxLen) := by
    rw [drop_eq_drop_min, hlen, min_comm]
  constructor
  · rw [htake, Ring.contents, window_take _ _ _ (min_le_left _ _), logRingRead]
  · rw [hdrop, Ring.contents, Ring.contents, window_drop _ _ _ (min_le_left _ _), avail_read h]
    rw [tail_read, mem_read]
    exact window_mod (add32_mod _ _) _ _

end Refine

end Spangap.LogRing
