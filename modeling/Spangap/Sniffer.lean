import Mathlib.Data.List.Infix
import Mathlib.Tactic.IntervalCases
import Spangap.CJson

namespace Spangap.Sniffer

open List Option CJson

def rpcMagic : List UInt8 := [0xF5, 0x53, 0x47, 0x01]

inductive Phase
  | preamble
  | header
  | body
  | discard
  deriving DecidableEq, Repr

/-- What the sniffer causes: a byte for the console, and the run of a command
with the one reply that answers it. -/
inductive Event
  | console (b : UInt8)
  | reply (id : UInt8) (cmd : List UInt8)
  deriving DecidableEq, Repr

/-- The state of the sniffer. `allocs` counts the buffers asked for. -/
structure State where
  phase : Phase
  matched : Nat
  head : List UInt8
  id : UInt8
  want : Nat
  got : Nat
  cmd : List UInt8
  allocs : Nat
  deriving DecidableEq, Repr

/-- The payload length, high byte first. -/
def lengthOf (hi lo : UInt8) : Nat := hi.toNat * 256 + lo.toNat

def rpcReset (s : State) : State :=
  { s with phase := .preamble, matched := 0, head := [], want := 0, got := 0, cmd := [] }

def start : State := ⟨.preamble, 0, [], 0, 0, 0, [], 0⟩

/-- One byte. `fits k` says whether the buffer number `k` is large enough. The
Boolean tells a byte of a frame from one of the console. -/
def rpcFeed (fits : Nat → Bool) (s : State) (b : UInt8) : State × List Event × Bool :=
  match s.phase with
  | .preamble =>
    if rpcMagic[s.matched]? = some b then
      if s.matched + 1 = rpcMagic.length then ({ s with matched := s.matched + 1, phase := .header, head := [] }, [], true)
      else ({ s with matched := s.matched + 1 }, [], true)
    else
      let held := (rpcMagic.take s.matched).map Event.console
      if rpcMagic.head? = some b then ({ s with matched := 1 }, held, true) else ({ s with matched := 0 }, held, false)
  | .header =>
    let head := s.head ++ [b]
    if head.length < 3 then ({ s with head := head }, [], true)
    else
      let id := head.getD 0 0
      let want := lengthOf (head.getD 1 0) (head.getD 2 0)
      let s := { s with head := head, id := id, want := want, got := 0 }
      if want = 0 then (rpcReset s, [.reply id []], true)
      else ({ s with phase := if fits s.allocs then .body else .discard, cmd := [], allocs := s.allocs + 1 }, [], true)
  | .body =>
    let s := { s with cmd := s.cmd ++ [b], got := s.got + 1 }
    if s.got < s.want then (s, [], true) else (rpcReset s, [.reply s.id s.cmd], true)
  | .discard =>
    let s := { s with got := s.got + 1 }
    if s.want ≤ s.got then (rpcReset s, [], true) else (s, [], true)

/-- With no claim on the port `handleChar` comes down to this. -/
def consoleByte (fits : Nat → Bool) (s : State) (b : UInt8) : State × List Event :=
  ((rpcFeed fits s b).1, (rpcFeed fits s b).2.1 ++ if (rpcFeed fits s b).2.2 then [] else [.console b])

def handleChars (fits : Nat → Bool) : State → List UInt8 → State × List Event
  | s, [] => (s, [])
  | s, b :: bs =>
    ((handleChars fits (consoleByte fits s b).1 bs).1, (consoleByte fits s b).2 ++ (handleChars fits (consoleByte fits s b).1 bs).2)

def NoMagicBefore (n : Nat) (s : List UInt8) : Prop := ∀ i, i < n → ¬ rpcMagic <+: s.drop i

inductive Piece
  | console (bs : List UInt8)
  | frame (id : UInt8) (payload : List UInt8)
  | unfinished (bs : List UInt8)
  deriving DecidableEq, Repr

def CutShort (t : List UInt8) : Prop :=
  t.length < 3 ∨ ∃ id hi lo p, t = id :: hi :: lo :: p ∧ p.length < lengthOf hi lo

/-- The stream cut into console bytes and frames, each taken at the leftmost
magic outside the frames before it. -/
inductive Cut : List UInt8 → List Piece → Prop
  | rest (s c held : List UInt8) (hs : s = c ++ held) (hmagic : ∀ i, ¬ rpcMagic <+: s.drop i)
      (hheld : held <+: rpcMagic) (hlongest : ∀ i, i < c.length → ¬ s.drop i <+: rpcMagic) :
      Cut s [.console c, .unfinished held]
  | short (s c t : List UInt8) (hs : s = c ++ (rpcMagic ++ t)) (hleft : NoMagicBefore c.length s) (ht : CutShort t) :
      Cut s [.console c, .unfinished (rpcMagic ++ t)]
  | frame (s c : List UInt8) (id hi lo : UInt8) (p t : List UInt8) (ps : List Piece)
      (hs : s = c ++ (rpcMagic ++ (id :: hi :: lo :: (p ++ t)))) (hleft : NoMagicBefore c.length s)
      (hp : p.length = lengthOf hi lo) (h : Cut t ps) : Cut s (.console c :: .frame id p :: ps)

/-- What a cut stream has to cause, from the buffer number `k` on: the console
bytes, and one reply for each frame that could be buffered. -/
def expected (fits : Nat → Bool) : Nat → List Piece → List Event
  | _, [] => []
  | k, .console bs :: ps => bs.map .console ++ expected fits k ps
  | k, .frame id p :: ps =>
    (if p = [] ∨ fits k then [.reply id p] else []) ++ expected fits (if p = [] then k else k + 1) ps
  | k, .unfinished _ :: ps => expected fits k ps

section Feed

variable {fits : Nat → Bool} {s : State} {b : UInt8} {bs p t : List UInt8}

theorem handleChars_append (fits : Nat → Bool) (s : State) (a b : List UInt8) :
    handleChars fits s (a ++ b) = ((handleChars fits (handleChars fits s a).1 b).1,
      (handleChars fits s a).2 ++ (handleChars fits (handleChars fits s a).1 b).2) := by
  induction a generalizing s with
  | nil => rfl
  | cons c a ih => rw [cons_append, handleChars, ih, handleChars, append_assoc]

/-- Between two frames, with nothing held back. -/
def Idle (s : State) : Prop := s.phase = .preamble ∧ s.matched = 0

theorem Idle.matched_zero (h : Idle s) : { s with matched := 0 } = s := by
  rw [← h.2]

theorem idle_rpcReset (s : State) : Idle (rpcReset s) := ⟨rfl, rfl⟩

theorem consoleByte_match (hs : s.phase = .preamble) (hb : rpcMagic[s.matched]? = some b) (hm : s.matched < 3) :
    consoleByte fits s b = ({ s with matched := s.matched + 1 }, []) := by
  have hlen : ¬ s.matched + 1 = rpcMagic.length := by
    have : rpcMagic.length = 4 := rfl
    omega
  rw [consoleByte, rpcFeed, hs]
  simp only [hb, if_true, if_neg hlen, append_nil]

theorem consoleByte_miss (hs : s.phase = .preamble) (hb : rpcMagic[s.matched]? ≠ some b) :
    consoleByte fits s b =
      if b = 0xF5 then ({ s with matched := 1 }, (rpcMagic.take s.matched).map .console)
      else ({ s with matched := 0 }, (rpcMagic.take s.matched).map .console ++ [.console b]) := by
  have hhead : rpcMagic.head? = some b ↔ b = 0xF5 := by
    rw [rpcMagic, head?_cons, some_inj, eq_comm]
  rw [consoleByte, rpcFeed, hs]
  simp only [if_neg hb, hhead]
  split
  · rw [if_pos rfl, append_nil]
  · rfl

theorem exists_difference {α : Type} [DecidableEq α] {m x : List α} (hm : ¬ m <+: x) (hx : ¬ x <+: m) :
    ∃ j c t, x = m.take j ++ c :: t ∧ j < m.length ∧ m[j]? ≠ some c := by
  induction m generalizing x with
  | nil => exact absurd nil_prefix hm
  | cons a m ih =>
    cases x with
    | nil => exact absurd nil_prefix hx
    | cons c x =>
      by_cases hc : a = c
      · subst hc
        rw [cons_prefix_cons] at hm hx
        obtain ⟨j, c, t, rfl, hj, hne⟩ := ih (fun h => hm ⟨rfl, h⟩) fun h => hx ⟨rfl, h⟩
        exact ⟨j + 1, c, t, rfl, Nat.succ_lt_succ hj, hne⟩
      · exact ⟨0, c, x, rfl, Nat.succ_pos _, by simpa using hc⟩

theorem handleChars_prefix (hs : Idle s) {j : Nat} (hj : j ≤ 3) :
    handleChars fits s (rpcMagic.take j) = ({ s with matched := j }, []) := by
  induction j with
  | zero => rw [take_zero, handleChars, hs.matched_zero]
  | succ j ih =>
    have hb : rpcMagic[j]? = some (rpcMagic.getD j 0) := by
      have hlt : j < 3 := hj
      interval_cases j <;> rfl
    rw [take_add_one, hb, toList_some, handleChars_append, ih (by omega), nil_append]
    have hfeed := @consoleByte_match fits { s with matched := j } _ hs.1 hb hj
    rw [handleChars, hfeed]
    rfl

theorem handleChars_mismatch (hs : Idle s) {j : Nat} (hj : j ≤ 3) (hb : rpcMagic[j]? ≠ some b) (t : List UInt8) :
    (handleChars fits s (rpcMagic.take j ++ b :: t)).2 =
      (rpcMagic.take j).map .console ++ (handleChars fits s (b :: t)).2 := by
  have hmiss := @consoleByte_miss fits { s with matched := j } b hs.1 hb
  rw [handleChars_append, handleChars_prefix hs hj, handleChars, handleChars, hmiss, nil_append]
  by_cases hf : b = 0xF5
  · have hfirst : consoleByte fits s b = ({ s with matched := 1 }, []) := by
      rw [consoleByte_match hs.1 (by rw [hs.2, hf]; rfl) (by rw [hs.2]; omega), hs.2]
    rw [if_pos hf, hfirst, nil_append]
  · have hfirst : consoleByte fits s b = (s, [.console b]) := by
      rw [consoleByte_miss hs.1 (by rw [hs.2]; simpa [rpcMagic, eq_comm] using hf), if_neg hf, hs.2, hs.matched_zero]
      rfl
    rw [if_neg hf, hfirst, hs.matched_zero, append_assoc]

theorem handleChars_plain (hs : Idle s) (hp : 0xF5 ∉ p) (t : List UInt8) :
    (handleChars fits s (p ++ t)).2 = p.map .console ++ (handleChars fits s t).2 := by
  induction p with
  | nil => rfl
  | cons b p ih =>
    obtain ⟨hb, hp⟩ := not_or.mp (mt mem_cons.mpr hp)
    have hmiss : rpcMagic[0]? ≠ some b := by simpa [rpcMagic] using hb
    rw [cons_append, handleChars, consoleByte_miss hs.1 (by rwa [hs.2]), if_neg (Ne.symm hb), hs.2,
      hs.matched_zero, ih hp]
    rfl

theorem handleChars_console (hs : Idle s) (hno : ¬ rpcMagic <+: b :: bs) (hopen : ¬ b :: bs <+: rpcMagic) :
    (handleChars fits s (b :: bs)).2 = .console b :: (handleChars fits s bs).2 := by
  obtain ⟨j, c, t, heq, hj, hc⟩ := exists_difference hno hopen
  cases j with
  | zero =>
    cases heq
    have hb : 0xF5 ∉ [b] := by simpa [rpcMagic] using hc
    exact handleChars_plain hs hb bs
  | succ j =>
    have hcons : rpcMagic.take (j + 1) ++ c :: t = 0xF5 :: ([0x53, 0x47, 0x01].take j ++ c :: t) := rfl
    obtain ⟨rfl, hbs⟩ := cons_eq_cons.mp (heq.trans hcons)
    have htail : (0xF5 : UInt8) ∉ [0x53, 0x47, 0x01].take j := fun h => by
      have hmem := take_subset _ _ h
      simp at hmem
    rw [heq, handleChars_mismatch hs (Nat.le_of_lt_succ hj) hc, hbs, handleChars_plain hs htail]
    rfl

theorem handleChars_magic (hs : Idle s) (t : List UInt8) :
    (handleChars fits s (rpcMagic ++ t)).2 =
      (handleChars fits { s with matched := 4, phase := .header, head := [] } t).2 := by
  have hsplit : rpcMagic = rpcMagic.take 3 ++ [0x01] := rfl
  have hlast : consoleByte fits { s with matched := 3 } 0x01 =
      ({ s with matched := 4, phase := .header, head := [] }, []) := by
    rw [consoleByte, rpcFeed, hs.1]
    rfl
  rw [hsplit, append_assoc, handleChars_append, handleChars_prefix hs (le_refl 3), nil_append,
    singleton_append, handleChars, hlast]
  rfl

theorem handleChars_header_short (hs : s.phase = .header) (ht : s.head.length + t.length < 3) :
    (handleChars fits s t).2 = [] := by
  induction t generalizing s with
  | nil => rfl
  | cons b t ih =>
    rw [length_cons] at ht
    have hfeed : consoleByte fits s b = ({ s with head := s.head ++ [b] }, []) := by
      rw [consoleByte, rpcFeed, hs]
      simp only [length_append, length_singleton, if_pos (show s.head.length + 1 < 3 by omega), if_true,
        append_nil]
    rw [handleChars, hfeed, nil_append]
    refine ih hs ?_
    simp only [length_append, length_singleton]
    omega

def announced (fits : Nat → Bool) (s : State) (id : UInt8) (hi lo : UInt8) : State :=
  { s with
    head := [id, hi, lo], id := id, want := lengthOf hi lo, got := 0, cmd := [],
    phase := if fits s.allocs then .body else .discard, allocs := s.allocs + 1 }

theorem handleChars_header (hs : s.phase = .header) (hh : s.head = []) (id hi lo : UInt8) (t : List UInt8) :
    (handleChars fits s (id :: hi :: lo :: t)).2 =
      if lengthOf hi lo = 0 then
        .reply id [] :: (handleChars fits (rpcReset { s with head := [id, hi, lo], id := id, want := 0, got := 0 }) t).2
      else (handleChars fits (announced fits s id hi lo) t).2 := by
  have hfirst : consoleByte fits s id = ({ s with head := [id] }, []) := by
    rw [consoleByte, rpcFeed, hs, hh]
    rfl
  have hsecond : consoleByte fits { s with head := [id] } hi = ({ s with head := [id, hi] }, []) := by
    rw [consoleByte, rpcFeed, hs]
    rfl
  have hthird : consoleByte fits { s with head := [id, hi] } lo =
      if lengthOf hi lo = 0 then
        (rpcReset { s with head := [id, hi, lo], id := id, want := 0, got := 0 }, [.reply id []])
      else (announced fits s id hi lo, []) := by
    rw [consoleByte, rpcFeed, hs]
    simp only [cons_append, nil_append, length_cons, length_nil, lt_irrefl, if_false,
      getD_cons_zero, getD_cons_succ]
    by_cases h0 : lengthOf hi lo = 0
    · simp only [h0]
      rfl
    · simp only [if_neg h0]
      rfl
  rw [handleChars, hfirst, handleChars, hsecond, handleChars, hthird]
  split <;> rfl

/-- The state that a payload byte leads to, before the frame may end. -/
def took (s : State) (b : UInt8) : State :=
  { s with cmd := if s.phase = .body then s.cmd ++ [b] else s.cmd, got := s.got + 1 }

section

variable (hs : s.phase = .body ∨ s.phase = .discard)
include hs

theorem consoleByte_payload (b : UInt8) : consoleByte fits s b = if s.got + 1 < s.want then (took s b, [])
      else (rpcReset (took s b), if s.phase = .body then [.reply s.id (s.cmd ++ [b])] else []) := by
  rcases hs with hs | hs
  · rw [consoleByte, rpcFeed, took, hs]
    dsimp only
    split <;> rfl
  · rw [consoleByte, rpcFeed, took, hs]
    simp only [← not_lt, ite_not]
    split <;> rfl

theorem handleChars_payload (hp : p ≠ []) (hlen : s.got + p.length = s.want)
    (t : List UInt8) : ∃ u, Idle u ∧ u.allocs = s.allocs ∧ (handleChars fits s (p ++ t)).2 =
      (if s.phase = .body then [.reply s.id (s.cmd ++ p)] else []) ++ (handleChars fits u t).2 := by
  induction p generalizing s with
  | nil => exact absurd rfl hp
  | cons b p ih =>
    rw [length_cons] at hlen
    rw [cons_append, handleChars, consoleByte_payload hs]
    by_cases hnil : p = []
    · subst hnil
      rw [if_neg (by rw [length_nil] at hlen; omega)]
      exact ⟨_, idle_rpcReset _, rfl, rfl⟩
    · have := length_pos_of_ne_nil hnil
      obtain ⟨u, hu, hallocs, hout⟩ := @ih (took s b) hs hnil (show s.got + 1 + p.length = s.want by omega)
      refine ⟨u, hu, hallocs, ?_⟩
      rw [if_pos (by omega), hout]
      rcases hs with hs | hs <;> simp [took, hs]

theorem handleChars_payload_short (hlen : s.got + p.length < s.want) : (handleChars fits s p).2 = [] := by
  induction p generalizing s with
  | nil => rfl
  | cons b p ih =>
    rw [length_cons] at hlen
    rw [handleChars, consoleByte_payload hs, if_pos (by omega)]
    exact @ih (took s b) hs (show s.got + 1 + p.length < s.want by omega)

end

theorem handleChars_consoles (hs : Idle s) (c : List UInt8) (hno : NoMagicBefore c.length (c ++ t))
    (hopen : ∀ i, i < c.length → ¬ (c ++ t).drop i <+: rpcMagic) :
    (handleChars fits s (c ++ t)).2 = c.map .console ++ (handleChars fits s t).2 := by
  induction c with
  | nil => rfl
  | cons b c ih =>
    have hb : ¬ rpcMagic <+: b :: (c ++ t) := hno 0 (Nat.succ_pos _)
    have hb' : ¬ b :: (c ++ t) <+: rpcMagic := hopen 0 (Nat.succ_pos _)
    rw [cons_append, handleChars_console hs hb hb',
      ih (fun i hi => hno (i + 1) (Nat.succ_lt_succ hi)) fun i hi => hopen (i + 1) (Nat.succ_lt_succ hi)]
    rfl

theorem not_open_of_magic (c t : List UInt8) {i : Nat} (hi : i < c.length) :
    ¬ (c ++ (rpcMagic ++ t)).drop i <+: rpcMagic := by
  intro h
  have hlen := h.length_le
  rw [length_drop, length_append, length_append] at hlen
  omega

theorem handleChars_frame (hs : Idle s) (id hi lo : UInt8) (hp : p.length = lengthOf hi lo) (t : List UInt8) :
    ∃ u, Idle u ∧ u.allocs = (if p = [] then s.allocs else s.allocs + 1) ∧
      (handleChars fits s (rpcMagic ++ (id :: hi :: lo :: (p ++ t)))).2 =
        (if p = [] ∨ fits s.allocs then [.reply id p] else []) ++ (handleChars fits u t).2 := by
  rw [handleChars_magic hs, handleChars_header rfl rfl]
  by_cases hnil : p = []
  · subst hnil
    have hzero : lengthOf hi lo = 0 := hp.symm
    rw [if_pos hzero, if_pos (show ([] : List UInt8) = [] ∨ fits s.allocs = true from .inl rfl)]
    refine ⟨_, idle_rpcReset _, ?_, rfl⟩
    rfl
  · have hlen : ¬ lengthOf hi lo = 0 := by
      have := length_pos_of_ne_nil hnil
      omega
    simp only [if_neg hlen, hnil, false_or]
    generalize hu : announced fits _ id hi lo = u
    have hwant : u.got + p.length = u.want := by
      rw [← hu, hp]
      exact zero_add _
    have hphase : u.phase = if fits s.allocs then .body else .discard := by
      rw [← hu]
      rfl
    obtain ⟨w, hw, hallocs, hout⟩ := handleChars_payload (by rw [hphase]; split <;> simp) hnil hwant t
    refine ⟨w, hw, hallocs.trans (by rw [← hu]; rfl), hout.trans ?_⟩
    rw [hphase, ← hu]
    cases fits s.allocs <;> rfl

theorem handleChars_short (hs : Idle s) (ht : CutShort t) : (handleChars fits s (rpcMagic ++ t)).2 = [] := by
  rw [handleChars_magic hs]
  rcases ht with ht | ⟨id, hi, lo, p, rfl, hp⟩
  · exact handleChars_header_short rfl (by simpa using ht)
  · rw [handleChars_header rfl rfl, if_neg (by omega)]
    refine handleChars_payload_short ?_ (by simpa [announced] using hp)
    rw [announced]
    dsimp only
    split
    · exact .inl rfl
    · exact .inr rfl

theorem handleChars_cut {ps : List Piece} (h : Cut bs ps) (hs : Idle s) :
    (handleChars fits s bs).2 = expected fits s.allocs ps := by
  induction h generalizing s with
  | rest bs c held hbs hmagic hheld hlongest =>
    subst hbs
    have hprefix : held = rpcMagic.take held.length := prefix_iff_eq_take.mp hheld
    have hlt : held.length ≤ 3 := by
      by_contra hn
      have hwhole : held = rpcMagic := hheld.eq_of_length_le (by simp only [rpcMagic, length_cons, length_nil]; omega)
      have hat := hmagic c.length
      rw [drop_left, hwhole] at hat
      exact hat prefix_rfl
    rw [handleChars_consoles hs c (fun i _ => hmagic i) hlongest, hprefix, handleChars_prefix hs hlt]
    rfl
  | short bs c t hbs hleft ht =>
    subst hbs
    rw [handleChars_consoles hs c hleft fun i hi => not_open_of_magic c t hi, handleChars_short hs ht]
    rfl
  | frame bs c id hi lo p t ps hbs hleft hp _ ih =>
    subst hbs
    obtain ⟨u, hu, hallocs, hout⟩ := @handleChars_frame fits s p hs id hi lo hp t
    rw [handleChars_consoles hs c hleft fun i hi => not_open_of_magic c _ hi, hout, ih hu, hallocs]
    rfl

end Feed

section Cut

variable {s c c' t t' : List UInt8} {ps ps' : List Piece}

theorem magic_at (c t : List UInt8) : rpcMagic <+: (c ++ (rpcMagic ++ t)).drop c.length := by
  rw [drop_left]
  exact prefix_append _ _

theorem leftmost_unique (hs : s = c ++ (rpcMagic ++ t)) (hs' : s = c' ++ (rpcMagic ++ t')) (h : NoMagicBefore c.length s)
    (h' : NoMagicBefore c'.length s) : c = c' ∧ t = t' := by
  have hlen : c.length = c'.length := by
    rcases lt_trichotomy c.length c'.length with hlt | heq | hlt
    · exact absurd (hs ▸ magic_at c t) (h' _ hlt)
    · exact heq
    · exact absurd (hs' ▸ magic_at c' t') (h _ hlt)
  obtain ⟨hc, ht⟩ := append_inj (hs.symm.trans hs') hlen
  exact ⟨hc, append_cancel_left ht⟩

theorem not_cutShort {id hi lo : UInt8} {p : List UInt8} (hp : p.length = lengthOf hi lo) (t : List UInt8) :
    ¬ CutShort (id :: hi :: lo :: (p ++ t)) := by
  rintro (h | ⟨id', hi', lo', q, heq, hq⟩)
  · simp only [length_cons] at h
    omega
  · cases heq
    rw [length_append] at hq
    omega

theorem cutShort_or (t : List UInt8) :
    CutShort t ∨ ∃ id hi lo p u, t = id :: hi :: lo :: (p ++ u) ∧ p.length = lengthOf hi lo := by
  match t with
  | [] | [_] | [_, _] => exact .inl (.inl (by simp))
  | id :: hi :: lo :: q =>
    by_cases hq : q.length < lengthOf hi lo
    · exact .inl (.inr ⟨id, hi, lo, q, rfl, hq⟩)
    · refine .inr ⟨id, hi, lo, q.take (lengthOf hi lo), q.drop (lengthOf hi lo), ?_, ?_⟩
      · rw [take_append_drop]
      · rw [length_take]
        omega

theorem exists_cut (s : List UInt8) : ∃ ps, Cut s ps := by
  induction hn : s.length using Nat.strong_induction_on generalizing s with
  | _ n ih =>
    subst hn
    by_cases hmagic : ∃ i, rpcMagic <+: s.drop i
    · obtain ⟨i, ⟨t, ht⟩, hleft⟩ : ∃ i, rpcMagic <+: s.drop i ∧ NoMagicBefore i s :=
        ⟨Nat.find hmagic, Nat.find_spec hmagic, fun j hj => Nat.find_min hmagic hj⟩
      have hs : s = s.take i ++ (rpcMagic ++ t) := by rw [ht, take_append_drop]
      have hi : NoMagicBefore (s.take i).length s := fun j hj => hleft j (by rw [length_take] at hj; omega)
      rcases cutShort_or t with hshort | ⟨id, hi', lo, p, u, rfl, hp⟩
      · exact ⟨_, .short s _ t hs hi hshort⟩
      · obtain ⟨ps, hps⟩ := ih u.length (by
          have hlen := congrArg length hs
          simp only [length_append, length_cons] at hlen
          omega) u rfl
        exact ⟨_, .frame s _ id hi' lo p u ps hs hi hp hps⟩
    · have hend : ∃ i, s.drop i <+: rpcMagic := ⟨s.length, by rw [drop_length]; exact nil_prefix⟩
      refine ⟨_, .rest s (s.take (Nat.find hend)) (s.drop (Nat.find hend)) (take_append_drop _ _).symm
        (fun i hi => hmagic ⟨i, hi⟩) (Nat.find_spec hend) fun i hi => Nat.find_min hend ?_⟩
      rw [length_take] at hi
      omega

theorem cut_unique (h : Cut s ps) (h' : Cut s ps') : ps = ps' := by
  induction h generalizing ps' with
  | rest s c held hs hmagic hheld hlongest =>
    cases h' with
    | rest _ c' held' hs' _ hheld' hlongest' =>
      have hlen : c.length = c'.length := by
        rcases lt_trichotomy c.length c'.length with hlt | heq | hlt
        · refine absurd ?_ (hlongest' _ hlt)
          rwa [hs, drop_left]
        · exact heq
        · refine absurd ?_ (hlongest _ hlt)
          rwa [hs', drop_left]
      obtain ⟨rfl, rfl⟩ := append_inj (hs.symm.trans hs') hlen
      rfl
    | short _ c' t hs' => exact absurd (hs' ▸ magic_at c' t) (hmagic _)
    | frame _ c' id hi lo p t _ hs' => exact absurd (hs' ▸ magic_at c' _) (hmagic _)
  | short s c t hs hleft ht =>
    cases h' with
    | rest _ _ _ _ hmagic => exact absurd (hs ▸ magic_at c t) (hmagic _)
    | short _ c' t' hs' hleft' =>
      obtain ⟨rfl, rfl⟩ := leftmost_unique hs hs' hleft hleft'
      rfl
    | frame _ c' id hi lo p t' _ hs' hleft' hp =>
      obtain ⟨-, rfl⟩ := leftmost_unique hs hs' hleft hleft'
      exact absurd ht (not_cutShort hp t')
  | frame s c id hi lo p t ps hs hleft hp _ ih =>
    cases h' with
    | rest _ _ _ _ hmagic => exact absurd (hs ▸ magic_at c _) (hmagic _)
    | short _ c' t' hs' hleft' ht =>
      obtain ⟨-, rfl⟩ := leftmost_unique hs hs' hleft hleft'
      exact absurd ht (not_cutShort hp t)
    | frame _ c' id' hi' lo' p' t' ps' hs' hleft' hp' h' =>
      obtain ⟨rfl, heq⟩ := leftmost_unique hs hs' hleft hleft'
      obtain ⟨rfl, rfl, rfl, hpt⟩ : id = id' ∧ hi = hi' ∧ lo = lo' ∧ p ++ t = p' ++ t' := by simpa using heq
      obtain ⟨rfl, rfl⟩ := append_inj hpt (hp.trans hp'.symm)
      rw [ih h']

end Cut

/-- Every stream is cut in one way, and the sniffer gives the console the
console bytes in order and answers every frame that could be buffered once. -/
theorem handleChars_splits (fits : Nat → Bool) (stream : List UInt8) :
    ∃ ps, Cut stream ps ∧ (∀ ps', Cut stream ps' → ps' = ps) ∧
      (handleChars fits start stream).2 = expected fits 0 ps := by
  obtain ⟨ps, hps⟩ := exists_cut stream
  exact ⟨ps, hps, fun ps' h => cut_unique h hps, handleChars_cut hps ⟨rfl, rfl⟩⟩

example : (handleChars (fun _ => true) start ([0xF5, 0xF5, 0x53, 0x47] ++ [0x01, 7, 0, 4] ++ rpcMagic ++ [97])).2 =
    [.console 0xF5, .reply 7 rpcMagic, .console 97] := by decide

end Spangap.Sniffer
