import Mathlib.Data.List.Basic

namespace Spangap.AnsiText

open List

/-- Where the loop of `stripAnsi` is: at text, at the bracket that it has looked ahead to, or
behind it. -/
inductive Skip
  | copy | bracket | params
  deriving DecidableEq, Repr

def stripLoop : Skip → List UInt8 → List UInt8
  | _, [] => []
  | .copy, b :: bs => if b = 27 ∧ bs.head? = some 91 then stripLoop .bracket bs else b :: stripLoop .copy bs
  | .bracket, _ :: bs => stripLoop .params bs
  | .params, b :: bs => stripLoop (if b = 109 then .copy else .params) bs

/-- The text without its escape sequences `ESC [ ... m`. -/
def stripAnsi (bs : List UInt8) : List UInt8 := stripLoop .copy bs

/-- The same as a machine that reads one byte after the other and holds an escape back. -/
inductive Scan
  | text | esc | seq
  deriving DecidableEq, Repr

variable {s : Scan} {bs b : List UInt8}

def step : Scan → UInt8 → Scan × List UInt8
  | .text, b => if b = 27 then (.esc, []) else (.text, [b])
  | .esc, b => if b = 91 then (.seq, []) else if b = 27 then (.esc, [27]) else (.text, [27, b])
  | .seq, b => (if b = 109 then .text else .seq, [])

def held : Scan → List UInt8
  | .esc => [27]
  | .text | .seq => []

def scan : Scan → List UInt8 → Scan
  | s, [] => s
  | s, b :: bs => scan (step s b).1 bs

def emitted : Scan → List UInt8 → List UInt8
  | _, [] => []
  | s, b :: bs => (step s b).2 ++ emitted (step s b).1 bs

def strip (s : Scan) (bs : List UInt8) : List UInt8 := emitted s bs ++ held (scan s bs)

theorem scan_append (s : Scan) (a b : List UInt8) : scan s (a ++ b) = scan (scan s a) b := by
  induction a generalizing s with
  | nil => rfl
  | cons x a ih => exact ih _

theorem emitted_append (s : Scan) (a b : List UInt8) : emitted s (a ++ b) = emitted s a ++ emitted (scan s a) b := by
  induction a generalizing s with
  | nil => rfl
  | cons x a ih => rw [cons_append, emitted, emitted, ih, append_assoc, scan]

theorem strip_append (s : Scan) (a b : List UInt8) : strip s (a ++ b) = emitted s a ++ strip (scan s a) b := by
  rw [strip, strip, emitted_append, scan_append, append_assoc]

theorem strip_cons (s : Scan) (b : UInt8) (bs : List UInt8) : strip s (b :: bs) = (step s b).2 ++ strip (step s b).1 bs := by
  rw [strip, strip, emitted, scan, append_assoc]

theorem strip_esc (h : bs.head? ≠ some 91) : strip .esc bs = 27 :: strip .text bs := by
  cases bs with
  | nil => rfl
  | cons b bs =>
    have hb : b ≠ 91 := by simpa using h
    have hesc : step .esc b = if b = 27 then (.esc, [27]) else (.text, [27, b]) := if_neg hb
    have htext : step .text b = if b = 27 then (.esc, []) else (.text, [b]) := rfl
    rw [strip_cons, strip_cons, hesc, htext]
    split <;> rfl

theorem strip_loop (bs : List UInt8) : stripLoop .copy bs = strip .text bs ∧ stripLoop .params bs = strip .seq bs ∧
      (bs.head? = some 91 → stripLoop .bracket bs = strip .esc bs) := by
  induction bs with
  | nil => exact ⟨rfl, rfl, by simp⟩
  | cons b bs ih =>
    obtain ⟨hcopy, hparams, hbracket⟩ := ih
    refine ⟨?_, ?_, fun hb => ?_⟩
    · have htext : step .text b = if b = 27 then (.esc, []) else (.text, [b]) := rfl
      rw [stripLoop, strip_cons, htext]
      split
      next hopen =>
        rw [if_pos hopen.1, hbracket hopen.2]
        rfl
      next hopen =>
        rw [hcopy]
        by_cases hesc : b = 27
        · rw [if_pos hesc, hesc]
          exact (strip_esc fun hb => hopen ⟨hesc, hb⟩).symm
        · rw [if_neg hesc]
          rfl
    · rw [stripLoop, strip_cons, step]
      by_cases hend : b = 109
      · rw [if_pos hend, if_pos hend, hcopy]
        rfl
      · rw [if_neg hend, if_neg hend, hparams]
        rfl
    · obtain rfl : b = 91 := by simpa using hb
      rw [stripLoop, hparams]
      exact (strip_cons .esc 91 bs).symm

theorem stripAnsi_eq (bs : List UInt8) : stripAnsi bs = strip .text bs := (strip_loop bs).1

theorem mem_emitted {b : UInt8} (h : b ∈ emitted s bs) : b ∈ bs ∨ b = 27 := by
  induction bs generalizing s with
  | nil => cases h
  | cons c bs ih =>
    rw [emitted, mem_append] at h
    rcases h with h | h
    · cases s with
      | text =>
        rw [step] at h
        split at h
        · cases h
        · exact .inl (mem_singleton.mp h ▸ mem_cons_self)
      | esc =>
        rw [step] at h
        split at h
        · cases h
        · split at h
          · exact .inr (mem_singleton.mp h)
          · rcases mem_cons.mp h with h | h
            · exact .inr h
            · exact .inl (mem_singleton.mp h ▸ mem_cons_self)
      | seq => cases h
    · exact (ih h).imp_left (mem_cons_of_mem c)

/-- A cut in state `s` before `b` makes no difference: it is not between an escape and its
bracket, and not inside a sequence unless the next one begins right there. -/
def Harmless : Scan → List UInt8 → Prop
  | .text, _ => True
  | .esc, b => b.head? ≠ some 91
  | .seq, b => b = [] ∨ b.take 2 = [27, 91]

instance : (s : Scan) → (b : List UInt8) → Decidable (Harmless s b)
  | .text, _ => .isTrue trivial
  | .esc, b => inferInstanceAs (Decidable (b.head? ≠ some 91))
  | .seq, b => inferInstanceAs (Decidable (b = [] ∨ b.take 2 = [27, 91]))

theorem strip_seq_le (b : List UInt8) :
    (strip .seq b).length ≤ (strip .text b).length ∧ (strip .seq b).length ≤ (strip .esc b).length := by
  induction b with
  | nil => exact ⟨Nat.le_refl 0, Nat.zero_le 1⟩
  | cons c b ih =>
    obtain ⟨htext, hesc⟩ := ih
    have hseq : (strip .seq (c :: b)).length ≤ (strip .text b).length := by
      rw [strip_cons, step]
      split
      · exact Nat.le_refl _
      · exact htext
    constructor
    · rw [strip_cons .text, step]
      split
      next hc =>
        rw [strip_cons, step, if_neg (by rw [hc]; decide)]
        exact hesc
      · exact Nat.le_trans hseq (Nat.le_succ _)
    · rw [strip_cons .esc, step]
      split
      next hc =>
        refine Nat.le_of_eq ?_
        rw [strip_cons, step, if_neg (by rw [hc]; decide)]
      · split
        next hc =>
          rw [strip_cons, step, if_neg (by rw [hc]; decide)]
          exact Nat.le_trans hesc (Nat.le_succ _)
        · exact Nat.le_trans hseq (Nat.le_add_right _ 2)

theorem strip_harmless (h : Harmless s b) : held s ++ strip .text b = strip s b := by
  cases s with
  | text => rfl
  | esc => exact (strip_esc h).symm
  | seq =>
    rcases h with rfl | h
    · rfl
    · match b, h with
      | c :: d :: b, h =>
        obtain ⟨rfl, rfl⟩ : c = 27 ∧ d = 91 := by simpa using h
        rfl

theorem strip_harmful (h : ¬ Harmless s b) : (strip s b).length < (held s ++ strip .text b).length := by
  cases s with
  | text => exact absurd trivial h
  | esc =>
    cases b with
    | nil => exact absurd (by simp [Harmless]) h
    | cons c b =>
      obtain rfl : c = 91 := by simpa [Harmless] using h
      have hle := (strip_seq_le b).1
      have hesc : strip .esc (91 :: b) = strip .seq b := strip_cons .esc 91 b
      have htext : strip .text (91 :: b) = 91 :: strip .text b := strip_cons .text 91 b
      rw [hesc, htext]
      simp only [held, length_append, length_cons, length_nil]
      omega
  | seq =>
    cases b with
    | nil => exact absurd (.inl rfl) h
    | cons c b =>
      have hle := (strip_seq_le b).1
      have hseq : (strip .seq (c :: b)).length ≤ (strip .text b).length := by
        rw [strip_cons, step]
        split
        · exact Nat.le_refl _
        · exact hle
      have htext : strip .text (c :: b) = c :: strip .text b := by
        by_cases hc : c = 27
        · subst hc
          have hb : b.head? ≠ some 91 := by
            intro hb
            obtain ⟨b, rfl⟩ : ∃ b', b = 91 :: b' := by
              cases b with
              | nil => simp at hb
              | cons d b => exact ⟨b, by rw [Option.some.inj hb]⟩
            exact h (.inr rfl)
          exact (strip_cons .text 27 b).trans (strip_esc hb)
        · rw [strip_cons, step, if_neg hc]
          rfl
      rw [htext]
      exact Nat.lt_succ_of_le hseq

/-- Each piece that the text is cut into ends where a cut makes no difference. -/
def Whole : List (List UInt8) → Prop
  | [] => True
  | p :: ps => Harmless (scan .text p) ps.flatten ∧ Whole ps

instance decidableWhole : (ps : List (List UInt8)) → Decidable (Whole ps)
  | [] => .isTrue trivial
  | p :: ps =>
    have := decidableWhole ps
    inferInstanceAs (Decidable (Harmless (scan .text p) ps.flatten ∧ Whole ps))

theorem strip_pieces_le (ps : List (List UInt8)) : (strip .text ps.flatten).length ≤ (ps.flatMap (strip .text)).length := by
  induction ps with
  | nil => exact Nat.le_refl 0
  | cons p ps ih =>
    have hcut : (strip (scan .text p) ps.flatten).length ≤ (held (scan .text p) ++ strip .text ps.flatten).length := by
      by_cases h : Harmless (scan .text p) ps.flatten
      · exact Nat.le_of_eq (congrArg length (strip_harmless h).symm)
      · exact Nat.le_of_lt (strip_harmful h)
    rw [flatten_cons, flatMap_cons, strip_append, show strip .text p = emitted .text p ++ held (scan .text p) from rfl]
    simp only [length_append] at hcut ⊢
    omega

theorem strip_pieces (ps : List (List UInt8)) : ps.flatMap (strip .text) = strip .text ps.flatten ↔ Whole ps := by
  induction ps with
  | nil => exact ⟨fun _ => trivial, fun _ => rfl⟩
  | cons p ps ih =>
    rw [flatten_cons, flatMap_cons, strip_append, show strip .text p = emitted .text p ++ held (scan .text p) from rfl,
      append_assoc, append_right_inj, Whole, ← ih]
    constructor
    · intro heq
      have hle := strip_pieces_le ps
      have hlen := congrArg length heq
      have hno : Harmless (scan .text p) ps.flatten := by
        by_contra hharm
        have hlt := strip_harmful hharm
        rw [length_append] at hlen hlt
        omega
      refine ⟨hno, ?_⟩
      rw [← strip_harmless hno] at heq
      exact append_cancel_left heq
    · rintro ⟨hno, heq⟩
      rw [heq, strip_harmless hno]

end Spangap.AnsiText
