import Spangap.LogRing
import Spangap.Runs

namespace Spangap.LogStream

open List Runs Circular LogRing

/-- How far `logRingRead` has come: the head is loaded, then the bytes are copied. -/
inductive Reader where
  | idle
  | loaded (n : Nat)
  | copied (buf : List UInt8)

/-- The ring and its reader, with what was accepted and read so far and, since
`logRingDropped` was last taken, how many bytes were offered and accepted. -/
structure State where
  ring : Ring
  reader : Reader
  accepted : List UInt8
  got : List UInt8
  offered : Nat
  kept : Nat

def start (r : Ring) : State := ⟨r, .idle, r.contents, [], 0, 0⟩

inductive Event where
  | write (data : List UInt8)
  | load (maxLen : Nat)
  | copy
  | store
  | takeDropped

def step (s : State) : Event → Option State
  | .write data =>
    let n := min data.length s.ring.free
    some { s with
      ring := logRingWrite s.ring data
      accepted := s.accepted ++ data.take n
      offered := s.offered + data.length
      kept := s.kept + n }
  | .load maxLen =>
    match s.reader with
    | .idle => some (if s.ring.avail = 0 then s else { s with reader := .loaded (min s.ring.avail maxLen) })
    | _ => none
  | .copy =>
    match s.reader with
    | .loaded n => some { s with reader := .copied (window ringSize s.ring.mem s.ring.tail n) }
    | _ => none
  | .store =>
    match s.reader with
    | .copied buf =>
      some { s with ring := { s.ring with tail := add32 s.ring.tail buf.length }, reader := .idle, got := s.got ++ buf }
    | _ => none
  | .takeDropped => some { s with ring := { s.ring with dropped := 0 }, offered := 0, kept := 0 }

/-- What the reader has in hand still waits in the ring. -/
def Reader.Behind (r : Ring) : Reader → Prop
  | .idle => True
  | .loaded n => n ≤ r.avail
  | .copied buf => buf <+: r.contents

structure Inv (s : State) : Prop where
  sound : Sound s.ring
  reader : s.reader.Behind s.ring
  bytes : s.accepted = s.got ++ s.ring.contents
  count : add32 s.kept s.ring.dropped = s.offered % 2 ^ 32

section Steps

variable {s : State}

theorem take_min_free (data : List UInt8) (n : Nat) : data.take (min data.length n) = data.take n := by
  rw [min_comm, ← take_eq_take_min]

theorem count_write {kept dropped offered n len : Nat} (h : add32 kept dropped = offered % 2 ^ 32) (hn : n ≤ len) :
    add32 (kept + n) (add32 dropped (len - n)) = (offered + len) % 2 ^ 32 := by
  rw [add32] at h
  rw [add32, add32]
  omega

theorem behind_write {r : Ring} (h : Sound r) {reader : Reader} (hb : reader.Behind r) (data : List UInt8) :
    reader.Behind (logRingWrite r data) := by
  cases reader with
  | idle => trivial
  | loaded n => exact le_trans hb (by rw [avail_write h]; exact Nat.le_add_right _ _)
  | copied buf =>
    rw [Reader.Behind, contents_write h]
    exact prefix_append_of_prefix hb

theorem inv_write (h : Inv s) {t : State} (data : List UInt8) (ht : step s (.write data) = some t) : Inv t := by
  cases ht
  refine ⟨sound_write h.sound data, behind_write h.sound h.reader data, ?_, ?_⟩
  · rw [contents_write h.sound, take_min_free, h.bytes, append_assoc]
  · exact count_write h.count (min_le_left _ _)

theorem inv_store (h : Inv s) {buf : List UInt8} (hr : s.reader = .copied buf) :
    Inv { s with ring := { s.ring with tail := add32 s.ring.tail buf.length }, reader := .idle, got := s.got ++ buf } := by
  have hb := h.reader
  rw [hr] at hb
  have hlen : buf.length ≤ s.ring.avail := by
    rw [← window_length ringSize s.ring.mem s.ring.tail s.ring.avail]
    exact hb.length_le
  -- Until now the bytes were in the ring: the tail store is what `logRingRead` ends with.
  have hread : { s.ring with tail := add32 s.ring.tail buf.length } = (logRingRead s.ring buf.length).1 := by
    rw [logRingRead, min_eq_right hlen]
  refine ⟨hread ▸ sound_read h.sound _, trivial, ?_, h.count⟩
  rw [hread, (read_eq h.sound _).2, h.bytes, append_assoc]
  obtain ⟨rest, hrest⟩ := hb
  rw [← hrest, drop_left]

theorem inv_step (s : State) (e : Event) (t : State) (h : Inv s) (_ : True) (ht : step s e = some t) : Inv t := by
  cases e with
  | write data => exact inv_write h data ht
  | takeDropped =>
    cases ht
    exact ⟨⟨h.sound.head, h.sound.tail, h.sound.avail⟩, h.reader, h.bytes, rfl⟩
  | load maxLen =>
    simp only [step] at ht
    split at ht <;> cases ht
    split
    · exact h
    · exact { h with reader := min_le_left _ _ }
  | copy =>
    simp only [step] at ht
    split at ht <;> cases ht
    rename_i n hn
    have hle : n ≤ s.ring.avail := by simpa [hn, Reader.Behind] using h.reader
    refine { h with reader := ?_ }
    rw [Reader.Behind, ← window_take _ _ _ hle]
    exact List.take_prefix n _
  | store =>
    simp only [step] at ht
    split at ht <;> cases ht
    exact inv_store h ‹_›

theorem inv_start {r : Ring} (hr : Sound r) (hd : r.dropped = 0) : Inv (start r) := by
  refine ⟨hr, trivial, (nil_append _).symm, ?_⟩
  have hcount : add32 0 r.dropped = 0 % 2 ^ 32 := by rw [hd, add32]
  simpa only [start] using hcount

end Steps

/-- What was read is what was accepted, in order, up to what waits in the ring. A write takes as much as
fits, and what it does not take is counted. -/
theorem ring_fifo {r : Ring} (hr : Sound r) (hd : r.dropped = 0) {es : List Event} {s : State} (hrun : run step (start r) es = some s) :
    s.accepted = s.got ++ s.ring.contents ∧ s.ring.contents.length ≤ ringSize ∧
      add32 s.kept s.ring.dropped = s.offered % 2 ^ 32 ∧
      ∀ data t, step s (.write data) = some t → t.accepted = s.accepted ++ data.take (ringSize - s.ring.contents.length) := by
  have h := run_invariant inv_step (inv_start hr hd) (meets_of_forall fun _ _ => trivial) hrun
  have hlen : s.ring.contents.length = s.ring.avail := window_length _ _ _ _
  rw [hlen, ← h.sound.free]
  refine ⟨h.bytes, h.sound.avail, h.count, ?_⟩
  intro data t ht
  cases ht
  rw [take_min_free]

def wrapping : Ring := ⟨fun _ => 0, 2 ^ 32 - 1, 2 ^ 32 - 1, 0⟩

theorem ring_fifo_wrap : ∃ s, run step (start wrapping) [.write [7, 8], .load 9, .copy, .store] = some s ∧ s.got = [7, 8] ∧
    s.accepted = s.got ++ s.ring.contents := by
  have hrun : run step (start wrapping) [.write [7, 8], .load 9, .copy, .store] = some _ := rfl
  exact ⟨_, hrun, by decide +kernel, (ring_fifo ⟨by decide, by decide, by decide⟩ rfl hrun).1⟩

end Spangap.LogStream
