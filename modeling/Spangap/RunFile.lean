import Mathlib.Data.List.Basic
import Spangap.CJson

namespace Spangap.RunFile

open List Option CJson

def isLineEnd (c : UInt8) : Bool := c = 10 || c = 13

/-- The scan of the buffer: the lines that end in it, and the bytes behind the
last line end. An empty line is not run. -/
def scan (line : Name) : List UInt8 → List Name × Name
  | [] => ([], line)
  | c :: p =>
    if isLineEnd c then (if line = [] then (scan [] p).1 else line :: (scan [] p).1, (scan [] p).2)
    else scan (line ++ [c]) p

/-- How much a read of `want` bytes gets: as the file system likes, but not
nothing before the end of the file. -/
def fsRead (wish want : Nat) (rest : List UInt8) : Nat :=
  if want = 0 ∨ rest = [] then 0 else min (max 1 wish) (min want rest.length)

/-- The lines handed to `cliProcess`, from a partial line at the start of the
buffer of 127 bytes. `wishes k` is how much the read number `k` would like to get. -/
def runLoop (wishes : Nat → Nat) : Nat → Nat → Name → List UInt8 → Option (List Name)
  | 0, _, _, _ => none
  | fuel + 1, k, kept, rest =>
    let n := fsRead (wishes k) (127 - kept.length) rest
    if n = 0 ∧ kept = [] then some []
    else
      let found := scan [] (kept ++ rest.take n)
      if n = 0 then some (found.1 ++ if found.2 = [] then [] else [found.2])
      else (runLoop wishes fuel (k + 1) found.2 (rest.drop n)).map (found.1 ++ ·)

def cliRunFile (wishes : Nat → Nat) (fuel : Nat) (content : List UInt8) : Option (List Name) :=
  runLoop wishes fuel 0 [] content

def pieces (content : List UInt8) : List Name := content.splitOnP isLineEnd

def lines (content : List UInt8) : List Name := (pieces content).filter fun l => l ≠ []

/-- What is run: a line that fills the buffer is the last one, as far as it fits. -/
def ran : List Name → List Name
  | [] => []
  | l :: ls => if 127 ≤ l.length then [l.take 127] else if l = [] then ran ls else l :: ran ls

section Scan

variable {line p q : List UInt8}

section

variable (h : ∀ c ∈ line, isLineEnd c = false)
include h

theorem pieces_end {c : UInt8} (hc : isLineEnd c = true) (p : List UInt8) :
    pieces (line ++ c :: p) = line :: pieces p := splitOnP_append_cons_of_forall_mem h c hc p

theorem pieces_partial (p : List UInt8) : ∃ t ls, pieces (line ++ p) = (line ++ t) :: ls := by
  induction line with
  | nil =>
    obtain ⟨t, ls, h⟩ := exists_cons_of_ne_nil (splitOnP_ne_nil isLineEnd p)
    exact ⟨t, ls, h⟩
  | cons c line ih =>
    obtain ⟨hc, hline⟩ := forall_mem_cons.mp h
    obtain ⟨t, ls, hp⟩ := ih hline
    refine ⟨t, ls, ?_⟩
    rw [pieces] at hp
    rw [pieces, cons_append, splitOnP_cons_eq_if_modifyHead, hc, hp]
    rfl

theorem ran_scan (hlen : line.length + p.length ≤ 127) (q : List UInt8) :
    ran (pieces (line ++ p ++ q)) = (scan line p).1 ++ ran (pieces ((scan line p).2 ++ q)) := by
  induction p generalizing line with
  | nil => rw [append_nil, scan, nil_append]
  | cons c p ih =>
    rw [length_cons] at hlen
    rw [scan]
    cases hc : isLineEnd c with
    | true =>
      have hrest := @ih [] (by simp) (by simp only [length_nil]; omega)
      rw [nil_append] at hrest
      rw [if_pos rfl, append_assoc, cons_append, pieces_end h hc, ran, if_neg (by omega), hrest]
      split
      · rfl
      · rw [cons_append]
    | false =>
      rw [if_neg (by simp), append_cons line c p]
      refine ih ?_ (by simp only [length_append, length_singleton]; omega)
      simpa [or_imp, forall_and] using ⟨h, hc⟩

theorem scan_unended :
    (∀ c ∈ (scan line p).2, isLineEnd c = false) ∧ (scan line p).2.length ≤ line.length + p.length := by
  induction p generalizing line with
  | nil => exact ⟨h, Nat.le_refl _⟩
  | cons c p ih =>
    rw [scan, length_cons]
    cases hc : isLineEnd c with
    | true =>
      obtain ⟨hends, hlen⟩ := @ih [] (by simp)
      rw [length_nil] at hlen
      exact ⟨hends, by simp only [if_true]; omega⟩
    | false =>
      obtain ⟨hends, hlen⟩ := @ih (line ++ [c]) (by simpa [or_imp, forall_and] using ⟨h, hc⟩)
      rw [length_append, length_singleton] at hlen
      exact ⟨hends, by simp only [Bool.false_eq_true, if_false]; omega⟩

end

theorem scan_open (h : ∀ c ∈ line ++ p, isLineEnd c = false) : scan line p = ([], line ++ p) := by
  induction p generalizing line with
  | nil => rw [scan, append_nil]
  | cons c p ih =>
    have hc : isLineEnd c = false := h c (by simp)
    rw [scan, hc, if_neg (by simp), ih (by simpa using h), append_assoc]
    rfl

end Scan

section Loop

variable {wishes : Nat → Nat} {fuel k : Nat} {kept rest : List UInt8}

theorem fsRead_le (wish want : Nat) (rest : List UInt8) :
    fsRead wish want rest ≤ want ∧ fsRead wish want rest ≤ rest.length := by
  rw [fsRead]
  split <;> omega

theorem fsRead_eq_zero {wish want : Nat} (h : fsRead wish want rest = 0) : want = 0 ∨ rest = [] := by
  rw [fsRead] at h
  split at h
  · assumption
  next hne =>
    obtain ⟨hwant, hrest⟩ := not_or.mp hne
    have := length_pos_of_ne_nil hrest
    omega

theorem runLoop_eq (hkept : ∀ c ∈ kept, isLineEnd c = false) (hlen : kept.length ≤ 127) (hfuel : rest.length < fuel) :
    runLoop wishes fuel k kept rest = some (ran (pieces (kept ++ rest))) := by
  induction fuel generalizing k kept rest with
  | zero => omega
  | succ fuel ih =>
    obtain ⟨hwant, hrest⟩ := fsRead_le (wishes k) (127 - kept.length) rest
    rw [runLoop]
    by_cases hn : fsRead (wishes k) (127 - kept.length) rest = 0
    · -- the end of the file, or a buffer without a line end in it
      rw [hn, take_zero, append_nil, scan_open (by simpa using hkept), nil_append]
      by_cases hnil : kept = []
      · subst hnil
        rcases fsRead_eq_zero hn with h | rfl
        · rw [length_nil] at h
          omega
        · rfl
      · rw [if_neg (by simp [hnil]), if_pos rfl, if_neg hnil, nil_append]
        rcases fsRead_eq_zero hn with h | rfl
        · obtain ⟨t, ls, hp⟩ := pieces_partial hkept rest
          have hfull : kept.length = 127 := by omega
          rw [hp, ran, if_pos (by rw [length_append]; omega), take_append_of_le_length (by omega),
            take_of_length_le (by omega)]
        · rw [append_nil, pieces, splitOnP_eq_singleton hkept, ran]
          split
          · rw [take_of_length_le hlen]
          · rfl
    · have hbuf : (kept ++ rest.take (fsRead (wishes k) (127 - kept.length) rest)).length ≤ 127 := by
        rw [length_append, length_take]
        omega
      have hfound := @ran_scan [] (kept ++ rest.take (fsRead (wishes k) (127 - kept.length) rest)) (by simp)
        (by rw [length_nil]; omega) (rest.drop (fsRead (wishes k) (127 - kept.length) rest))
      obtain ⟨hends, hleft⟩ := @scan_unended [] (kept ++ rest.take (fsRead (wishes k) (127 - kept.length) rest)) (by simp)
      rw [length_nil] at hleft
      rw [nil_append, append_assoc, take_append_drop] at hfound
      rw [if_neg fun h => hn h.1, if_neg hn, ih hends (by omega) (by rw [length_drop]; omega), hfound]
      rfl

end Loop

/-- A line that fills the buffer has nothing but line ends behind it, and no
byte more than the buffer. -/
def Fits (content : List UInt8) : Prop :=
  ∀ A l B, pieces content = A ++ l :: B → 127 ≤ l.length → l.length = 127 ∧ ∀ s ∈ B, s = []

theorem ran_eq_filter_iff (ls : List Name) :
    ran ls = ls.filter (fun l => l ≠ []) ↔
      ∀ A l B, ls = A ++ l :: B → 127 ≤ l.length → l.length = 127 ∧ ∀ s ∈ B, s = [] := by
  induction ls with
  | nil => simp [ran]
  | cons s ls ih =>
    rw [ran]
    by_cases hlong : 127 ≤ s.length
    · have hne : s ≠ [] := by
        rintro rfl
        simp at hlong
      rw [if_pos hlong, filter_cons_of_pos (by simpa using hne)]
      constructor
      · intro h
        obtain ⟨hcut, hrest⟩ := cons_eq_cons.mp h
        have hlen := congrArg length hcut
        rw [length_take] at hlen
        have hempty : ∀ t ∈ ls, t = [] := by simpa using filter_eq_nil_iff.mp hrest.symm
        intro A l B heq hl
        rcases cons_eq_append_iff.mp heq with ⟨-, hlB⟩ | ⟨A', -, hls⟩
        · cases hlB
          exact ⟨by omega, hempty⟩
        · rw [hempty l (hls ▸ mem_append_right _ mem_cons_self)] at hl
          simp at hl
      · intro h
        obtain ⟨hlen, hempty⟩ := h [] s ls rfl hlong
        rw [take_of_length_le (by omega), filter_eq_nil_iff.mpr (by simpa using hempty)]
    · have hsame : (∀ A l B, s :: ls = A ++ l :: B → 127 ≤ l.length → l.length = 127 ∧ ∀ s ∈ B, s = []) ↔
          ∀ A l B, ls = A ++ l :: B → 127 ≤ l.length → l.length = 127 ∧ ∀ s ∈ B, s = [] := by
        constructor
        · intro h A l B heq
          exact h (s :: A) l B (by rw [heq]; rfl)
        · intro h A l B heq hl
          rcases cons_eq_append_iff.mp heq with ⟨-, hlB⟩ | ⟨A', -, hls⟩
          · cases hlB
            exact absurd hl hlong
          · exact h A' l B hls hl
      rw [if_neg hlong, hsame, ← ih]
      by_cases hne : s = []
      · rw [if_pos hne, filter_cons_of_neg (by simpa using hne)]
      · rw [if_neg hne, filter_cons_of_pos (by simpa using hne), cons_inj_right]

/-- A script is run line by line, whatever the reads return, if and only if no
line is too long for the buffer. -/
theorem cliRunFile_lines_iff (wishes : Nat → Nat) (content : List UInt8) :
    (∀ fuel, content.length < fuel → cliRunFile wishes fuel content = some (lines content)) ↔ Fits content := by
  have hrun : ∀ fuel, content.length < fuel → cliRunFile wishes fuel content = some (ran (pieces content)) :=
    fun fuel hfuel => runLoop_eq (by simp) (by simp) hfuel
  rw [Fits, ← ran_eq_filter_iff]
  constructor
  · intro h
    have hlines := h (content.length + 1) (Nat.lt_succ_self _)
    rw [hrun _ (Nat.lt_succ_self _)] at hlines
    exact some_inj.mp hlines
  · intro h fuel hfuel
    rw [hrun fuel hfuel, h]
    rfl

def overlong : List UInt8 := replicate 127 97 ++ lit "\nb\n"

/-- The read into the full buffer is taken for the end of the file, and the
second line is never run. -/
theorem cliRunFile_stops :
    cliRunFile (fun _ => 127) 200 overlong = some [replicate 127 97] ∧
      lines overlong = [replicate 127 97, lit "b"] := by
  decide +kernel

end Spangap.RunFile
