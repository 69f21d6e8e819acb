import Spangap.Ustar

namespace Spangap.TarReader

open List Bytes CJson Ustar

inductive Err
  | ok | magic | deflate | tar | notSafe | crc | truncated | sink
  deriving DecidableEq, Repr

inductive Event
  | dir (name : Name)
  | file (name : Name) (size : Nat)
  | data (bytes : List UInt8)
  | fileEnd
  deriving DecidableEq, Repr

def record : List Event → Event → List Event
  | .data a :: l, .data b => .data (a ++ b) :: l
  | l, e => e :: l

theorem record_other {e : Event} (he : ∀ d, e ≠ .data d) (l : List Event) : record l e = e :: l := by
  cases e with
  | data d => exact absurd rfl (he d)
  | dir | file | fileEnd =>
    cases l with
    | nil => rfl
    | cons x l => cases x <;> rfl

inductive Stage
  | hdr | data | pad | fin
  deriving DecidableEq, Repr

/-- The part of the reader that parses the archive. The callbacks keep `ctx`; a callback that
is not there is one that accepts everything. -/
structure Tar (κ : Type) where
  stage : Stage
  hdr : List UInt8
  pending : Nat
  pad : Nat
  zeroBlocks : Nat
  entries : Nat
  bytes : Nat
  inFile : Bool
  ctx : κ
  log : List Event

structure EntryHead where
  isDir : Bool
  name : Name
  size : Nat
  deriving DecidableEq, Repr

def parseHeader (h : List UInt8) : Except Err EntryHead :=
  if octalValue (slice h 148 8) ≠ headerChecksum h then .error .tar
  else
    let path := entryPath h
    let type := (slice h 156 1).headD 0
    let name := path.rdropWhile (· = 47)
    let isDir := type = 53 || name ≠ path
    if 264 ≤ path.length then .error .notSafe
    else if !isDir && type ≠ 48 && type ≠ 0 then .error .notSafe
    else if !safeEntryName name then .error .notSafe
    else .ok ⟨isDir, name, octalValue (slice h 124 12)⟩

def EntryHead.event (e : EntryHead) : Event := if e.isDir then .dir e.name else .file e.name (e.size % 2 ^ 32)

def Tar.opened {κ : Type} (t : Tar κ) (e : EntryHead) : Tar κ :=
  { t with
    inFile := t.inFile || !e.isDir
    pending := e.size
    bytes := if e.isDir then t.bytes else t.bytes + e.size
    pad := (tarBlock - e.size % tarBlock) % tarBlock }

section Parse

variable {κ : Type} (cb : κ → Event → κ × Bool)

def Tar.call (t : Tar κ) (e : Event) : Tar κ × Bool :=
  ({ t with ctx := (cb t.ctx e).1, log := record t.log e }, (cb t.ctx e).2)

def Tar.notify (t : Tar κ) (e : Event) : Tar κ × Bool := if t.inFile then t.call cb e else (t, true)

def endEntry (t : Tar κ) : Tar κ × Err :=
  let r := t.notify cb .fileEnd
  if r.2 then ({ r.1 with inFile := false, stage := if r.1.pad = 0 then .hdr else .pad }, .ok) else (r.1, .sink)

def startEntry (t : Tar κ) (e : EntryHead) : Tar κ × Err :=
  let r := ({ t with entries := t.entries + 1 } : Tar κ).call cb e.event
  if r.2 then
    if e.size = 0 then endEntry cb (r.1.opened e) else ({ r.1.opened e with stage := .data }, .ok)
  else (r.1, .sink)

def tarHeader (t : Tar κ) (h : List UInt8) : Tar κ × Err :=
  if h.all (· = 0) then
    ({ t with zeroBlocks := t.zeroBlocks + 1, stage := if 2 ≤ t.zeroBlocks + 1 then .fin else t.stage }, .ok)
  else
    match parseHeader h with
    | .error e => ({ t with zeroBlocks := 0 }, e)
    | .ok e => startEntry cb { t with zeroBlocks := 0 } e

def tarTurn (t : Tar κ) (p : List UInt8) : Tar κ × List UInt8 × Err :=
  match t.stage with
  | .hdr =>
    let n := min (tarBlock - t.hdr.length) p.length
    let h := t.hdr ++ p.take n
    if h.length < tarBlock then ({ t with hdr := h }, p.drop n, .ok)
    else
      let r := tarHeader cb { t with hdr := [] } h
      (r.1, p.drop n, r.2)
  | .data =>
    let n := min t.pending p.length
    let r := t.notify cb (.data (p.take n))
    if !r.2 then (r.1, p, .sink)
    else
      let t : Tar κ := { r.1 with pending := r.1.pending - n }
      if t.pending = 0 then
        let r := endEntry cb t
        (r.1, p.drop n, r.2)
      else (t, p.drop n, .ok)
  | .pad =>
    let n := min t.pad p.length
    ({ t with pad := t.pad - n, stage := if t.pad - n = 0 then .hdr else .pad }, p.drop n, .ok)
  | .fin => (t, p, .ok)

def tarTurns : Nat → Tar κ → List UInt8 → Tar κ × Err
  | 0, t, _ => (t, .ok)
  | fuel + 1, t, p =>
    if p = [] ∨ t.stage = .fin then (t, .ok)
    else
      let r := tarTurn cb t p
      if r.2.2 ≠ .ok then (r.1, r.2.2) else tarTurns fuel r.1 r.2.1

/-- Any amount of the archive, at any alignment. From the third turn on, every one takes some
of the input. -/
def tarConsume (t : Tar κ) (p : List UInt8) : Tar κ × Err := tarTurns cb (p.length + 2) t p

end Parse

section Cuts

variable {κ : Type} {cb : κ → Event → κ × Bool} {t : Tar κ} {a b : List UInt8}

def Tar.want (t : Tar κ) : Nat :=
  match t.stage with
  | .hdr => tarBlock - t.hdr.length
  | .data => t.pending
  | .pad => t.pad
  | .fin => 0

structure Ready (t : Tar κ) : Prop where
  hdr : t.hdr.length < tarBlock
  data : t.stage = .data → 0 < t.pending
  pad : t.stage = .pad → 0 < t.pad

theorem Ready.want_pos (h : Ready t) (hfin : t.stage ≠ .fin) : 0 < t.want := by
  have := h.hdr
  unfold Tar.want
  cases hs : t.stage with
  | hdr => exact Nat.sub_pos_of_lt this
  | data => exact h.data hs
  | pad => exact h.pad hs
  | fin => exact absurd hs hfin

/-- Callbacks that take the data of an entry however it is cut. -/
structure Smooth (cb : κ → Event → κ × Bool) : Prop where
  accepts : ∀ k a, (cb k (.data a)).2 = true
  joins : ∀ k a b, (cb (cb k (.data a)).1 (.data b)).1 = (cb k (.data (a ++ b))).1

theorem record_data (l : List Event) (a b : List UInt8) : record (record l (.data a)) (.data b) = record l (.data (a ++ b)) := by
  cases l with
  | nil => rfl
  | cons e l =>
    cases e with
    | data c => simp only [record, append_assoc]
    | dir | file | fileEnd => rfl

def absorb (cb : κ → Event → κ × Bool) (t : Tar κ) (a : List UInt8) : Tar κ :=
  match t.stage with
  | .hdr => { t with hdr := t.hdr ++ a }
  | .data => { (t.notify cb (.data a)).1 with pending := t.pending - a.length }
  | .pad => { t with pad := t.pad - a.length }
  | .fin => t

def complete (cb : κ → Event → κ × Bool) (t : Tar κ) (a : List UInt8) : Tar κ × Err :=
  match t.stage with
  | .hdr => tarHeader cb { t with hdr := [] } (t.hdr ++ a)
  | .data => endEntry cb { (t.notify cb (.data a)).1 with pending := 0 }
  | .pad => ({ t with pad := 0, stage := .hdr }, .ok)
  | .fin => (t, .ok)

theorem notify_eq (cb : κ → Event → κ × Bool) (t : Tar κ) (e : Event) : ∃ k l, (t.notify cb e).1 = { t with ctx := k, log := l } := by
  unfold Tar.notify
  split
  · exact ⟨_, _, rfl⟩
  · exact ⟨t.ctx, t.log, rfl⟩

@[simp] theorem notify_stage (t : Tar κ) (e : Event) : (t.notify cb e).1.stage = t.stage := by
  obtain ⟨k, l, h⟩ := notify_eq cb t e
  rw [h]

@[simp] theorem notify_hdr (t : Tar κ) (e : Event) : (t.notify cb e).1.hdr = t.hdr := by
  obtain ⟨k, l, h⟩ := notify_eq cb t e
  rw [h]

@[simp] theorem notify_pending (t : Tar κ) (e : Event) : (t.notify cb e).1.pending = t.pending := by
  obtain ⟨k, l, h⟩ := notify_eq cb t e
  rw [h]

theorem notify_data_accepts (hcb : Smooth cb) (t : Tar κ) (a : List UInt8) : (t.notify cb (.data a)).2 = true := by
  unfold Tar.notify
  split
  · exact hcb.accepts _ _
  · rfl

theorem absorb_stage : (absorb cb t a).stage = t.stage := by
  unfold absorb
  split
  · rfl
  · exact notify_stage t _
  · rfl
  · rfl

theorem turn_lt (hcb : Smooth cb) (h : a.length < t.want) : tarTurn cb t a = (absorb cb t a, [], .ok) := by
  unfold Tar.want at h
  unfold tarTurn absorb
  cases hs : t.stage with
  | hdr =>
    rw [hs] at h
    dsimp only at h ⊢
    have hlen : (t.hdr ++ a).length < tarBlock := by
      rw [length_append]
      omega
    rw [min_eq_right (by omega), take_length, drop_length, if_pos hlen]
  | data =>
    rw [hs] at h
    dsimp only at h ⊢
    rw [min_eq_right (by omega), take_length, drop_length, notify_data_accepts hcb, Bool.not_true, if_neg (by simp),
      if_neg (by rw [notify_pending]; omega), notify_pending]
  | pad =>
    rw [hs] at h
    dsimp only at h ⊢
    rw [min_eq_right (by omega), drop_length, if_neg (by omega)]
  | fin =>
    rw [hs] at h
    exact absurd h (Nat.not_lt_zero _)

theorem turn_ge (hcb : Smooth cb) (hfin : t.stage ≠ .fin) (ht : t.hdr.length ≤ tarBlock) (h : t.want ≤ a.length) :
    tarTurn cb t a = ((complete cb t (a.take t.want)).1, a.drop t.want, (complete cb t (a.take t.want)).2) := by
  unfold Tar.want at h ⊢
  unfold tarTurn complete
  cases hs : t.stage with
  | hdr =>
    rw [hs] at h
    dsimp only at h ⊢
    have hlen : ¬ (t.hdr ++ a.take (tarBlock - t.hdr.length)).length < tarBlock := by
      rw [length_append, length_take]
      omega
    rw [min_eq_left h, if_neg hlen]
  | data =>
    rw [hs] at h
    dsimp only at h ⊢
    rw [min_eq_left h, notify_data_accepts hcb, Bool.not_true, if_neg (by simp), if_pos (by rw [notify_pending]; omega),
      notify_pending, Nat.sub_self]
  | pad =>
    rw [hs] at h
    dsimp only at h ⊢
    rw [min_eq_left h, Nat.sub_self, if_pos rfl]
  | fin => exact absurd hs hfin

theorem want_absorb : (absorb cb t a).want = t.want - a.length := by
  unfold Tar.want
  rw [absorb_stage]
  unfold absorb
  cases hs : t.stage with
  | hdr =>
    dsimp only
    rw [length_append]
    omega
  | data => rfl
  | pad => rfl
  | fin => exact (Nat.zero_sub _).symm

theorem notify_join (hcb : Smooth cb) (t : Tar κ) (n : Nat) (a b : List UInt8) :
    (({ (t.notify cb (.data a)).1 with pending := n } : Tar κ).notify cb (.data b)).1 =
      { (t.notify cb (.data (a ++ b))).1 with pending := n } := by
  unfold Tar.notify
  cases hf : t.inFile with
  | true => simp [Tar.call, hf, hcb.joins, record_data]
  | false => simp [hf]

theorem complete_absorb (hcb : Smooth cb) : complete cb (absorb cb t a) b = complete cb t (a ++ b) := by
  unfold complete
  rw [absorb_stage]
  unfold absorb
  cases hs : t.stage with
  | hdr =>
    dsimp only
    rw [append_assoc]
  | data =>
    dsimp only
    rw [notify_join hcb]
  | pad => rfl
  | fin => rfl

theorem absorb_absorb (hcb : Smooth cb) : absorb cb (absorb cb t a) b = absorb cb t (a ++ b) := by
  rw [absorb, absorb_stage]
  unfold absorb
  cases hs : t.stage with
  | hdr =>
    dsimp only
    rw [append_assoc]
  | data =>
    dsimp only
    rw [notify_join hcb, length_append, Nat.sub_sub]
  | pad =>
    dsimp only
    rw [length_append, Nat.sub_sub]
  | fin => rfl

theorem ready_absorb (ht : Ready t) (h : a.length < t.want) : Ready (absorb cb t a) := by
  have hwant : 0 < (absorb cb t a).want := by
    rw [want_absorb]
    omega
  refine ⟨?_, fun hs => ?_, fun hs => ?_⟩
  · have hhdr := ht.hdr
    unfold Tar.want at h
    unfold absorb
    cases hs : t.stage with
    | hdr =>
      rw [hs] at h
      dsimp only at h ⊢
      rw [length_append]
      omega
    | data =>
      dsimp only
      rwa [notify_hdr]
    | pad => exact hhdr
    | fin => exact hhdr
  · rwa [Tar.want, hs] at hwant
  · rwa [Tar.want, hs] at hwant

theorem ready_endEntry (ht : t.hdr.length < tarBlock) (hok : (endEntry cb t).2 = .ok) : Ready (endEntry cb t).1 := by
  unfold endEntry at hok ⊢
  dsimp only at hok ⊢
  split at hok
  next hyes =>
    rw [if_pos hyes]
    refine ⟨by simpa using ht, fun hs => ?_, fun hs => ?_⟩
    · dsimp only at hs
      split at hs <;> simp at hs
    · dsimp only at hs ⊢
      split at hs
      · simp at hs
      next hpad => exact Nat.pos_of_ne_zero hpad
  · simp at hok

theorem ready_startEntry {e : EntryHead} (ht : t.hdr.length < tarBlock) (hok : (startEntry cb t e).2 = .ok) :
    Ready (startEntry cb t e).1 := by
  unfold startEntry at hok ⊢
  dsimp only at hok ⊢
  split at hok
  next hyes =>
    rw [if_pos hyes]
    split at hok
    next hsize =>
      rw [if_pos hsize]
      exact ready_endEntry ht hok
    next hsize =>
      rw [if_neg hsize]
      exact ⟨ht, fun _ => Nat.pos_of_ne_zero hsize, by simp⟩
  · simp at hok

theorem ready_complete (ht : Ready t) (hok : (complete cb t a).2 = .ok) : Ready (complete cb t a).1 := by
  unfold complete at hok ⊢
  cases hs : t.stage with
  | hdr =>
    rw [hs] at hok
    dsimp only at hok ⊢
    have hnil : ([] : List UInt8).length < tarBlock := by decide
    unfold tarHeader at hok ⊢
    split
    · refine ⟨hnil, fun h => ?_, fun h => ?_⟩ <;> dsimp only at h <;> split at h <;> simp_all
    next hzero =>
      rw [if_neg hzero] at hok
      cases hp : parseHeader (t.hdr ++ a) with
      | error e =>
        rw [hp] at hok
        dsimp only at hok ⊢
        exact ⟨hnil, by simp, by simp⟩
      | ok e =>
        rw [hp] at hok
        exact ready_startEntry hnil hok
  | data =>
    rw [hs] at hok
    exact ready_endEntry (by simpa using ht.hdr) hok
  | pad => exact ⟨ht.hdr, by simp, by simp⟩
  | fin => exact ht

theorem turn_progress (hcb : Smooth cb) (ht : Ready t) (hfin : t.stage ≠ .fin) (ha : a ≠ []) :
    (tarTurn cb t a).2.1.length < a.length ∧ ((tarTurn cb t a).2.2 = .ok → Ready (tarTurn cb t a).1) := by
  have hpos := ht.want_pos hfin
  have hlen := length_pos_of_ne_nil ha
  rcases Nat.lt_or_ge a.length t.want with h | h
  · rw [turn_lt hcb h]
    exact ⟨hlen, fun _ => ready_absorb ht h⟩
  · rw [turn_ge hcb hfin (le_of_lt ht.hdr) h]
    refine ⟨?_, ready_complete ht⟩
    dsimp only
    rw [length_drop]
    omega

theorem turns_fuel (hcb : Smooth cb) (ht : Ready t) {f g : Nat} (hf : a.length ≤ f) (hg : a.length ≤ g) :
    tarTurns cb f t a = tarTurns cb g t a := by
  induction f generalizing t a g with
  | zero =>
    obtain rfl : a = [] := length_eq_zero_iff.mp (Nat.le_zero.mp hf)
    cases g with
    | zero => rfl
    | succ g => rw [tarTurns, tarTurns, if_pos (.inl rfl)]
  | succ f ih =>
    cases g with
    | zero =>
      obtain rfl : a = [] := length_eq_zero_iff.mp (Nat.le_zero.mp hg)
      rw [tarTurns, tarTurns, if_pos (.inl rfl)]
    | succ g =>
      rw [tarTurns, tarTurns]
      split
      · rfl
      next hgo =>
        obtain ⟨ha, hfin⟩ := not_or.mp hgo
        obtain ⟨hless, hready⟩ := turn_progress hcb ht hfin ha
        dsimp only
        split
        · rfl
        next hok => exact ih (hready (not_not.mp hok)) (by omega) (by omega)

theorem consume_nil (t : Tar κ) : tarConsume cb t [] = (t, .ok) := by
  rw [tarConsume, tarTurns, if_pos (.inl rfl)]

theorem consume_fin (hfin : t.stage = .fin) (a : List UInt8) : tarConsume cb t a = (t, .ok) := by
  rw [tarConsume, tarTurns, if_pos (.inr hfin)]

section

variable (hcb : Smooth cb) (ht : Ready t)
include hcb ht

theorem consume_turn (hfin : t.stage ≠ .fin) (ha : a ≠ []) :
    tarConsume cb t a = if (tarTurn cb t a).2.2 ≠ .ok then ((tarTurn cb t a).1, (tarTurn cb t a).2.2)
      else tarConsume cb (tarTurn cb t a).1 (tarTurn cb t a).2.1 := by
  obtain ⟨hless, hready⟩ := turn_progress hcb ht hfin ha
  rw [tarConsume, tarTurns, if_neg (not_or.mpr ⟨ha, hfin⟩)]
  dsimp only
  split
  · rfl
  next hok => exact turns_fuel hcb (hready (not_not.mp hok)) (by omega) (by omega)

theorem consume_ge (hfin : t.stage ≠ .fin) (h : t.want ≤ a.length) :
    tarConsume cb t a = if (complete cb t (a.take t.want)).2 ≠ .ok then complete cb t (a.take t.want)
      else tarConsume cb (complete cb t (a.take t.want)).1 (a.drop t.want) := by
  have hpos := ht.want_pos hfin
  have ha : a ≠ [] := ne_nil_of_length_pos (by omega)
  rw [consume_turn hcb ht hfin ha, turn_ge hcb hfin (le_of_lt ht.hdr) h]

theorem consume_lt (ha : a ≠ []) (h : a.length < t.want) : tarConsume cb t a = (absorb cb t a, .ok) := by
  have hfin : t.stage ≠ .fin := by
    intro hs
    rw [Tar.want, hs] at h
    exact absurd h (Nat.not_lt_zero _)
  rw [consume_turn hcb ht hfin ha, turn_lt hcb h, if_neg (by simp), consume_nil]

theorem consume_append (a b : List UInt8) : tarConsume cb t (a ++ b) =
      if (tarConsume cb t a).2 ≠ .ok then tarConsume cb t a else tarConsume cb (tarConsume cb t a).1 b := by
  induction h : a.length using Nat.strong_induction_on generalizing t a with
  | _ n ih =>
    by_cases hfin : t.stage = .fin
    · rw [consume_fin hfin, consume_fin hfin, if_neg (by simp), consume_fin hfin]
    by_cases ha : a = []
    · subst ha
      rw [consume_nil, if_neg (by simp), nil_append]
    by_cases hb : b = []
    · subst hb
      rw [append_nil, consume_nil]
      split
      · rfl
      next hgood => exact Prod.ext rfl (not_not.mp hgood)
    rcases Nat.lt_or_ge a.length t.want with hlt | hge
    · rw [consume_lt hcb ht ha hlt, if_neg (by simp)]
      have hready : Ready (absorb cb t a) := ready_absorb ht hlt
      have hstage : (absorb cb t a).stage ≠ .fin := by rwa [absorb_stage]
      rcases Nat.lt_or_ge (a ++ b).length t.want with hlt' | hge'
      · rw [consume_lt hcb ht (by simp [ha]) hlt', consume_lt hcb hready hb, absorb_absorb hcb]
        rw [want_absorb]
        rw [length_append] at hlt'
        omega
      · rw [length_append] at hge'
        rw [consume_ge hcb ht hfin (by rw [length_append]; omega), consume_ge hcb hready hstage (by rw [want_absorb]; omega),
          want_absorb, complete_absorb hcb, take_append, drop_append, take_of_length_le (by omega),
          drop_of_length_le (by omega), nil_append]
    · have hpos := ht.want_pos hfin
      rw [consume_ge hcb ht hfin (by rw [length_append]; omega), consume_ge hcb ht hfin hge,
        take_append_of_le_length hge, drop_append_of_le_length hge]
      split
      · rfl
      next hgood => exact ih _ (by rw [length_drop]; omega) (ready_complete ht (not_not.mp hgood)) _ rfl

end

end Cuts

end Spangap.TarReader
