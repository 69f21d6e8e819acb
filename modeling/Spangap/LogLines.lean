import Spangap.AnsiText

namespace Spangap.LogLines

open List AnsiText

def levelCharToNum (c : UInt8) : Nat :=
  if c = 69 then 0 else if c = 87 then 1 else if c = 73 then 2 else if c = 68 then 3 else if c = 86 then 4 else 2

def isLevel (c : UInt8) : Bool := c = 69 || c = 87 || c = 73 || c = 68 || c = 86

def levelFrom : Bool → List UInt8 → UInt8
  | left, c :: d :: bs =>
    if c = 10 then 73 else if isLevel c && left && d = 32 then c else levelFrom (c = 32) (d :: bs)
  | _, _ => 73

/-- The level letter of a line, a single one between blanks. -/
def lineLevel (line : List UInt8) : UInt8 := levelFrom true line

def segments : List UInt8 → List (List UInt8)
  | [] => []
  | b :: bs =>
    if b = 10 then [b] :: segments bs
    else
      match segments bs with
      | [] => [[b]]
      | s :: ss => (b :: s) :: ss

def passes (levelMax : Nat) (line : List UInt8) : Bool := levelCharToNum (lineLevel line) ≤ levelMax

/-- What `logFileWrite` sends to the file. -/
def logFileWrite (levelMax : Nat) (data : List UInt8) : List UInt8 := ((segments data).filter (passes levelMax)).flatten

def Terminated (l : List UInt8) : Prop := ∃ w, l = w ++ [10] ∧ 10 ∉ w

def Fragment (s : List UInt8) : Prop := s ≠ [] ∧ 10 ∉ s.dropLast

theorem segments_flatten (bs : List UInt8) : (segments bs).flatten = bs := by
  induction bs with
  | nil => rfl
  | cons b bs ih =>
    rw [segments]
    split
    · rw [flatten_cons, ih]
      rfl
    · cases hs : segments bs with
      | nil =>
        rw [hs] at ih
        rw [← ih]
        rfl
      | cons s ss =>
        rw [hs] at ih
        rw [← ih]
        rfl

theorem segments_fragment (bs : List UInt8) : ∀ s ∈ segments bs, Fragment s := by
  induction bs with
  | nil => exact fun s hs => absurd hs not_mem_nil
  | cons b bs ih =>
    intro s hs
    rw [segments] at hs
    split at hs
    · rcases mem_cons.mp hs with rfl | hs
      · exact ⟨cons_ne_nil _ _, not_mem_nil⟩
      · exact ih s hs
    next hb =>
      cases hss : segments bs with
      | nil =>
        rw [hss] at hs
        obtain rfl := mem_singleton.mp hs
        exact ⟨cons_ne_nil _ _, not_mem_nil⟩
      | cons t ts =>
        rw [hss] at hs ih
        rcases mem_cons.mp hs with rfl | hs
        · obtain ⟨hne, hmem⟩ := ih t mem_cons_self
          refine ⟨cons_ne_nil _ _, ?_⟩
          rw [dropLast_cons_of_ne_nil hne, mem_cons, not_or]
          exact ⟨fun h => hb h.symm, hmem⟩
        · exact ih s (mem_cons_of_mem t hs)

theorem segments_line {w : List UInt8} (hw : 10 ∉ w) (bs : List UInt8) : segments (w ++ 10 :: bs) = (w ++ [10]) :: segments bs := by
  induction w with
  | nil => exact if_pos rfl
  | cons b w ih =>
    rw [mem_cons, not_or] at hw
    rw [cons_append, segments, if_neg (fun h => hw.1 h.symm), ih hw.2]
    rfl

theorem segments_lines {ls : List (List UInt8)} (h : ∀ l ∈ ls, Terminated l) : segments ls.flatten = ls := by
  induction ls with
  | nil => rfl
  | cons l ls ih =>
    obtain ⟨w, rfl, hw⟩ := h l mem_cons_self
    rw [flatten_cons, append_assoc, singleton_append, segments_line hw, ih fun m hm => h m (mem_cons_of_mem _ hm)]

def groupLines : List (List UInt8) → List (List (List UInt8))
  | [] => []
  | s :: ss =>
    if s.getLast? = some 10 then [s] :: groupLines ss
    else
      match groupLines ss with
      | [] => [[s]]
      | g :: gs => (s :: g) :: gs

theorem groupLines_flatten (ss : List (List UInt8)) : (groupLines ss).flatten = ss := by
  induction ss with
  | nil => rfl
  | cons s ss ih =>
    rw [groupLines]
    split
    · rw [flatten_cons, ih]
      rfl
    · cases hg : groupLines ss with
      | nil =>
        rw [hg] at ih
        rw [← ih]
        rfl
      | cons g gs =>
        rw [hg] at ih
        rw [← ih]
        rfl

theorem segments_part {s : List UInt8} (hs : 10 ∉ s) (hne : s ≠ []) (bs : List UInt8) :
    segments (s ++ bs) =
      match segments bs with
      | [] => [s]
      | t :: ts => (s ++ t) :: ts := by
  induction s with
  | nil => exact absurd rfl hne
  | cons b s ih =>
    rw [mem_cons, not_or] at hs
    rw [cons_append, segments, if_neg (fun h => hs.1 h.symm)]
    cases s with
    | nil => rfl
    | cons c s =>
      rw [ih hs.2 (cons_ne_nil _ _)]
      cases segments bs <;> rfl

theorem segments_group {ss : List (List UInt8)} (h : ∀ s ∈ ss, Fragment s) : segments ss.flatten = (groupLines ss).map List.flatten := by
  induction ss with
  | nil => rfl
  | cons s ss ih =>
    obtain ⟨hne, hmem⟩ := h s mem_cons_self
    have ih := ih fun t ht => h t (mem_cons_of_mem s ht)
    rw [flatten_cons, groupLines]
    by_cases hlast : s.getLast? = some 10
    · obtain ⟨w, rfl⟩ : ∃ w, s = w ++ [10] := ⟨s.dropLast, (dropLast_append_getLast? 10 hlast).symm⟩
      rw [dropLast_concat] at hmem
      rw [if_pos hlast, append_assoc, singleton_append, segments_line hmem, ih, map_cons]
      simp
    · have hnone : 10 ∉ s := by
        intro hin
        rw [← dropLast_concat_getLast hne, mem_append] at hin
        rcases hin with hin | hin
        · exact hmem hin
        · exact hlast (by rw [getLast?_eq_some_getLast hne, mem_singleton.mp hin])
      rw [if_neg hlast, segments_part hnone hne, ih]
      cases groupLines ss with
      | nil => simp
      | cons g gs => rfl

section Lines

variable {ls ps : List (List UInt8)} {levelMax : Nat}

/-- A line whose escape sequences all end in it. -/
structure Line (l : List UInt8) : Prop where
  terminated : Terminated l
  closed : scan .text l = .text

theorem terminated_iff (l : List UInt8) : Terminated l ↔ l.getLast? = some 10 ∧ 10 ∉ l.dropLast := by
  constructor
  · rintro ⟨w, rfl, hw⟩
    exact ⟨getLast?_concat, by rwa [dropLast_concat]⟩
  · rintro ⟨hlast, hmem⟩
    exact ⟨l.dropLast, (dropLast_append_getLast? 10 hlast).symm, hmem⟩

instance (l : List UInt8) : Decidable (Line l) :=
  decidable_of_iff ((l.getLast? = some 10 ∧ 10 ∉ l.dropLast) ∧ scan .text l = .text)
    ⟨fun h => ⟨(terminated_iff l).mpr h.1, h.2⟩, fun h => ⟨(terminated_iff l).mp h.terminated, h.closed⟩⟩

theorem strip_lines (h : ∀ l ∈ ls, Line l) : stripAnsi ls.flatten = ls.flatMap stripAnsi := by
  induction ls with
  | nil => rfl
  | cons l ls ih =>
    have hclosed := (h l mem_cons_self).closed
    have hl : stripAnsi l = emitted .text l := by rw [stripAnsi_eq, strip, hclosed, held, append_nil]
    rw [flatten_cons, flatMap_cons, ← ih fun m hm => h m (mem_cons_of_mem l hm), hl, stripAnsi_eq, stripAnsi_eq,
      strip_append, hclosed]

theorem strip_terminated {l : List UInt8} (h : Line l) : Terminated (stripAnsi l) := by
  obtain ⟨⟨w, rfl, hw⟩, hclosed⟩ := h
  have hnone : ∀ c, c ∈ emitted .text w → c ≠ 10 := by
    rintro c hc rfl
    rcases mem_emitted hc with hin | heq
    · exact hw hin
    · exact absurd heq (by decide)
  rw [stripAnsi_eq, strip_append]
  rw [scan_append] at hclosed
  cases hs : scan .text w with
  | text => exact ⟨emitted .text w, rfl, fun hin => hnone 10 hin rfl⟩
  | esc =>
    refine ⟨emitted .text w ++ [27], by rw [append_assoc]; rfl, ?_⟩
    rw [mem_append, not_or]
    exact ⟨fun hin => hnone 10 hin rfl, by decide⟩
  | seq =>
    rw [hs] at hclosed
    exact absurd hclosed (by decide)

def fragments (ps : List (List UInt8)) : List (List UInt8) := ps.flatMap fun p => segments (stripAnsi p)

/-- All parts of a line pass the level filter or none does, as the whole line does. -/
def Even (levelMax : Nat) (ps : List (List UInt8)) : Prop :=
  ∀ g ∈ groupLines (fragments ps), ∀ f ∈ g, passes levelMax f = passes levelMax g.flatten

instance (levelMax : Nat) (ps : List (List UInt8)) : Decidable (Even levelMax ps) := inferInstanceAs (Decidable (∀ _ ∈ _, _))

theorem fragments_flatten (ps : List (List UInt8)) : (fragments ps).flatten = ps.flatMap stripAnsi := by
  induction ps with
  | nil => rfl
  | cons p ps ih => rw [fragments, flatMap_cons, flatten_append, segments_flatten, ← fragments, ih, flatMap_cons]

theorem fragments_fragment (ps : List (List UInt8)) : ∀ s ∈ fragments ps, Fragment s := by
  intro s hs
  obtain ⟨p, -, hs⟩ := mem_flatMap.mp hs
  exact segments_fragment (stripAnsi p) s hs

theorem plain_lines (hls : ∀ l ∈ ls, Line l) (hps : ps.flatten = ls.flatten) : ps.flatMap stripAnsi = ls.flatMap stripAnsi ↔ Whole ps := by
  have heq : stripAnsi = strip .text := funext stripAnsi_eq
  rw [← strip_lines hls, ← hps, heq]
  exact strip_pieces ps

theorem group_filter (levelMax : Nat) {gs : List (List (List UInt8))} (h : ∀ g ∈ gs, ∀ f ∈ g, passes levelMax f = passes levelMax g.flatten) :
    (gs.flatten.filter (passes levelMax)).flatten = ((gs.map List.flatten).filter (passes levelMax)).flatten := by
  induction gs with
  | nil => rfl
  | cons g gs ih =>
    have hg := h g mem_cons_self
    rw [flatten_cons, filter_append, flatten_append, ih fun g' hg' => h g' (mem_cons_of_mem g hg'), map_cons]
    cases hp : passes levelMax g.flatten with
    | true =>
      have hall : g.filter (passes levelMax) = g := filter_eq_self.mpr fun f hf => (hg f hf).trans hp
      rw [hall, filter_cons_of_pos hp, flatten_cons]
    | false =>
      have hnone : g.filter (passes levelMax) = [] := filter_eq_nil_iff.mpr fun f hf => by rw [hg f hf, hp]; simp
      rw [hnone, filter_cons_of_neg (by rw [hp]; simp)]
      rfl

theorem write_fragments (levelMax : Nat) (ps : List (List UInt8)) :
    ps.flatMap (fun p => logFileWrite levelMax (stripAnsi p)) = ((fragments ps).filter (passes levelMax)).flatten := by
  induction ps with
  | nil => rfl
  | cons p ps ih => rw [flatMap_cons, ih, fragments, fragments, flatMap_cons, filter_append, flatten_append, logFileWrite]

theorem file_lines (hls : ∀ l ∈ ls, Line l) (hps : ps.flatten = ls.flatten) (hwhole : Whole ps) (heven : Even levelMax ps) :
    ps.flatMap (fun p => logFileWrite levelMax (stripAnsi p)) = ((ls.map stripAnsi).filter (passes levelMax)).flatten := by
  have hlines : (groupLines (fragments ps)).map List.flatten = ls.map stripAnsi := by
    rw [← segments_group (fragments_fragment ps), fragments_flatten, (plain_lines hls hps).mpr hwhole, flatMap_def]
    refine segments_lines fun l hl => ?_
    obtain ⟨m, hm, rfl⟩ := mem_map.mp hl
    exact strip_terminated (hls m hm)
  rw [write_fragments, ← hlines, ← group_filter levelMax heven, groupLines_flatten]

end Lines

end Spangap.LogLines
