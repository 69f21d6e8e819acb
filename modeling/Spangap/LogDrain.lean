import Spangap.CJson
import Spangap.LogLines
import Spangap.LogRing
import Spangap.Runs

namespace Spangap.LogDrain

open List CJson AnsiText LogLines LogRing Runs

/-- The ring with the lines that were written to it and the reads of the log task. -/
structure Log where
  ring : Ring
  lines : List (List UInt8)
  reads : List (List UInt8)

variable {s : Log} {r : Ring}

inductive Act
  | write (line : List UInt8)
  | read

/-- The log task reads into a buffer of 512 bytes, one of them for a terminator. -/
def step (s : Log) : Act → Log
  | .write l => { s with ring := logRingWrite s.ring l, lines := s.lines ++ [l] }
  | .read =>
    let r := logRingRead s.ring 511
    if r.2 = [] then s else { s with ring := r.1, reads := s.reads ++ [r.2] }

theorem step_write (s : Log) (l : List UInt8) : step s (.write l) = ⟨logRingWrite s.ring l, s.lines ++ [l], s.reads⟩ := rfl

/-- What a consumer that takes no escape sequences is offered. -/
def Log.plain (s : Log) : List UInt8 := s.reads.flatMap stripAnsi

def Log.file (s : Log) (levelMax : Nat) : List UInt8 := s.reads.flatMap fun p => logFileWrite levelMax (stripAnsi p)

def allowed (s : Log) : Act → Prop
  | .write l => Line l ∧ l.length ≤ s.ring.free
  | .read => True

instance (s : Log) : (a : Act) → Decidable (allowed s a)
  | .write l => inferInstanceAs (Decidable (Line l ∧ l.length ≤ s.ring.free))
  | .read => .isTrue trivial

theorem contents_whole (h : Sound r) {l : List UInt8} (hroom : l.length ≤ r.free) :
    (logRingWrite r l).contents = r.contents ++ l := by
  rw [contents_write h, take_of_length_le hroom]

structure Inv (s : Log) : Prop where
  sound : Sound s.ring
  lines : ∀ l ∈ s.lines, Line l
  kept : s.reads.flatten ++ s.ring.contents = s.lines.flatten

theorem inv_step {a : Act} (h : Inv s) (hok : allowed s a) : Inv (step s a) := by
  cases a with
  | write l =>
    obtain ⟨hline, hroom⟩ := hok
    refine ⟨sound_write h.sound l, forall_mem_append.mpr ⟨h.lines, forall_mem_singleton.mpr hline⟩, ?_⟩
    show s.reads.flatten ++ (logRingWrite s.ring l).contents = (s.lines ++ [l]).flatten
    rw [contents_whole h.sound hroom, ← append_assoc, h.kept, flatten_append, flatten_singleton]
  | read =>
    obtain ⟨hread, hrest⟩ := read_eq h.sound 511
    rw [step]
    split
    · exact h
    · refine ⟨sound_read h.sound 511, h.lines, ?_⟩
      rw [flatten_append, flatten_singleton, hread, hrest, append_assoc, take_append_drop, h.kept]

theorem inv_run {acts : List Act} (h : Inv s) (hok : Meets (fun s a => some (step s a)) allowed s acts) :
    Inv (acts.foldl step s) :=
  run_invariant (fun _ _ _ hs ha ht => Option.some.inj ht ▸ inv_step hs ha) h hok (run_total step s acts)

def start (r : Ring) : Log := ⟨r, [], []⟩

theorem inv_start (hr : Sound r) (hempty : r.avail = 0) : Inv (start r) := by
  refine ⟨hr, fun l hl => absurd hl not_mem_nil, ?_⟩
  show [] ++ r.contents = []
  rw [Ring.contents, hempty]
  rfl

/-- When everything has been read, a plain consumer was offered the stripped lines if and only
if no read ended inside an escape sequence, and then the file got the lines that pass the filter
whenever the filter does not tell the parts of a line apart. -/
theorem drain_lines {r : Ring} (hr : Sound r) (hempty : r.avail = 0) {acts : List Act}
    (hok : Meets (fun s a => some (step s a)) allowed (start r) acts) {s : Log} (hs : acts.foldl step (start r) = s)
    (hdry : s.ring.avail = 0) (levelMax : Nat) :
    (s.plain = (s.lines.map stripAnsi).flatten ↔ Whole s.reads) ∧
      (Whole s.reads → Even levelMax s.reads →
        s.file levelMax = ((s.lines.map stripAnsi).filter (passes levelMax)).flatten) := by
  have hinv := inv_run (inv_start hr hempty) hok
  rw [hs] at hinv
  have hreads : s.reads.flatten = s.lines.flatten := by
    have hnone : s.ring.contents = [] := by rw [Ring.contents, hdry]; rfl
    rw [← hinv.kept, hnone, append_nil]
  refine ⟨?_, file_lines hinv.lines hreads⟩
  rw [Log.plain, ← flatMap_def]
  exact plain_lines hinv.lines hreads

def quiet : Ring := ⟨fun _ => 0, 0, 0, 0⟩

def coloured (colour text : String) : List UInt8 := lit "\x1b[" ++ lit colour ++ lit "m" ++ lit text ++ lit "\x1b[0m\n"

def twoLines : List Act :=
  [.write (coloured "0;31" "E [a] one"), .read, .write (coloured "0;37" "D [b] two"), .write (coloured "0;32" "I [b] three"), .read]

theorem sound_quiet : Sound quiet := ⟨by decide, by decide, by decide⟩

theorem drain_lines_two : (twoLines.foldl step (start quiet)).plain = lit "E [a] one\nD [b] two\nI [b] three\n" ∧
      (twoLines.foldl step (start quiet)).file 2 = lit "E [a] one\nI [b] three\n" := by
  have hok : Meets (fun s a => some (step s a)) allowed (start quiet) twoLines := by decide +kernel
  have h := drain_lines sound_quiet (by decide) hok rfl (by decide +kernel) 2
  have hwhole : Whole (twoLines.foldl step (start quiet)).reads := by decide +kernel
  exact ⟨(h.1.mpr hwhole).trans (by decide +kernel), (h.2 hwhole (by decide +kernel)).trans (by decide +kernel)⟩

theorem reads_step (h : Sound s.ring) (hne : s.ring.contents ≠ []) :
    (step s .read).reads = s.reads ++ [s.ring.contents.take 511] ∧ (step s .read).ring = (logRingRead s.ring 511).1 := by
  have hread : (logRingRead s.ring 511).2 = s.ring.contents.take 511 := (read_eq h 511).1
  have hsome : (logRingRead s.ring 511).2 ≠ [] := by
    rw [hread, Ne, take_eq_nil_iff]
    exact fun h => h.elim (by decide) hne
  rw [step, if_neg hsome, hread]
  exact ⟨rfl, rfl⟩

theorem reads_twice (h : Sound s.ring) (hsome : s.ring.contents.drop 511 ≠ [])
    (hshort : (s.ring.contents.drop 511).length ≤ 511) :
    (step (step s .read) .read).reads = s.reads ++ [s.ring.contents.take 511] ++ [s.ring.contents.drop 511] := by
  obtain ⟨hfirst, hring⟩ := reads_step h fun hnil => hsome (by rw [hnil, drop_nil])
  have hrest : (step s .read).ring.contents = s.ring.contents.drop 511 := by rw [hring, (read_eq h 511).2]
  rw [(reads_step (hring ▸ sound_read h 511) (hrest ▸ hsome)).1, hfirst, hrest, take_of_length_le hshort]

theorem reads_pair (h : Sound r) {l m : List UInt8} (hempty : r.contents = []) (hl : l.length ≤ r.free)
    (hm : m.length ≤ (logRingWrite r l).free) (hsome : (l ++ m).drop 511 ≠ []) (hshort : ((l ++ m).drop 511).length ≤ 511) :
    ([Act.write l, .write m, .read, .read].foldl step (start r)).reads = [(l ++ m).take 511, (l ++ m).drop 511] := by
  have hboth : (logRingWrite (logRingWrite r l) m).contents = l ++ m := by
    rw [contents_whole (sound_write h l) hm, contents_whole h hl, hempty, nil_append]
  rw [foldl_cons, foldl_cons, start, step_write, step_write, foldl_cons, foldl_cons, foldl_nil]
  rw [reads_twice (s := ⟨logRingWrite (logRingWrite r l) m, [] ++ [l] ++ [m], []⟩) (sound_write (sound_write h l) m)
    (hboth ▸ hsome) (hboth ▸ hshort)]
  rw [hboth, nil_append, singleton_append]

def long : List UInt8 := lit "\x1b[0;32mI [x] " ++ replicate 487 97 ++ lit "\x1b[0m\n"

def boom : List UInt8 := coloured "0;31" "E [x] boom"

def longAndError : List Act := [.write long, .write boom, .read, .read]

theorem reads_longAndError :
    (longAndError.foldl step (start quiet)).reads = [(long ++ boom).take 511, (long ++ boom).drop 511] :=
  reads_pair (l := long) (m := boom) sound_quiet (by decide +kernel) (by decide +kernel) (by decide +kernel)
    (by decide +kernel) (by decide +kernel)

/-- The first read ends before the `m` of a colour: it is left in the plain text, and the error is no longer
one for the file. -/
theorem drain_cuts_error : Meets (fun s a => some (step s a)) allowed (start quiet) longAndError ∧
      (longAndError.foldl step (start quiet)).ring.avail = 0 ∧
      (longAndError.foldl step (start quiet)).plain = lit "I [x] " ++ replicate 487 97 ++ lit "\nmE [x] boom\n" ∧
      (longAndError.foldl step (start quiet)).file 0 = [] ∧
      (((longAndError.foldl step (start quiet)).lines.map stripAnsi).filter (passes 0)).flatten = lit "E [x] boom\n" := by
  rw [Log.plain, Log.file, reads_longAndError]
  decide +kernel

end Spangap.LogDrain
