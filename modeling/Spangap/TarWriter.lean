import Spangap.Codec
import Spangap.Ustar

namespace Spangap.TarWriter

open List Bytes CJson Ustar Codec Crc32

def deflateOut : Nat := 8192

def gzHeader : List UInt8 := [0x1f, 0x8b, 8, 0, 0, 0, 0, 0, 0, 0xff]

/-- The writer, with all it has handed to its sink. -/
structure Writer (δ : Type) where
  comp : δ
  crc : UInt32
  rawLen : Nat
  pending : Nat
  pad : Nat
  ok : Bool
  sent : List UInt8

section Model

variable {δ : Type} (D : Deflater δ) (sink : List UInt8 → List UInt8 → Bool)

def deflateTurns (fin : Bool) : Nat → Writer δ → List UInt8 → Writer δ × Bool
  | 0, w, _ => (w, false)
  | fuel + 1, w, p =>
    let c := D.compress w.comp p deflateOut fin
    let w := { w with comp := c.state }
    if c.status = .failed then ({ w with ok := false }, false)
    else if c.out ≠ [] ∧ sink w.sent c.out = false then ({ w with ok := false, sent := w.sent ++ c.out }, false)
    else
      let w := { w with sent := w.sent ++ c.out }
      let p := p.drop c.used
      if fin = true ∧ c.status = .done ∨ fin = false ∧ p = [] then (w, true)
      else if c.used = 0 ∧ c.out = [] then ({ w with ok := false }, false)
      else deflateTurns fin fuel w p

def deflateRun (w : Writer δ) (data : List UInt8) (fin : Bool) : Writer δ × Bool :=
  deflateTurns D sink fin (D.credit w.comp + (D.rate + 1) * data.length + 1) w data

/-- The one place where bytes of the archive enter the compressor. -/
def writeRaw (w : Writer δ) (data : List UInt8) : Writer δ × Bool :=
  if !w.ok then (w, false)
  else if data = [] then (w, true)
  else deflateRun D sink { w with crc := crc32 w.crc data, rawLen := w.rawLen + data.length } data false

def andThen (r : Writer δ × Bool) (next : Writer δ → Writer δ × Bool) : Writer δ × Bool := if r.2 then next r.1 else r

def zeroRuns : Nat → Writer δ → Nat → Writer δ × Bool
  | 0, w, _ => (w, true)
  | n + 1, w, len =>
    if len = 0 then (w, true)
    else andThen (writeRaw D sink w (replicate (min len 64) 0)) fun w => zeroRuns n w (len - min len 64)

def writeZeros (w : Writer δ) (len : Nat) : Writer δ × Bool := zeroRuns D sink len w len

/-- Zeros for a body that came up short, then the padding; there may be nothing to write. -/
def finishEntry (w : Writer δ) : Writer δ × Bool :=
  andThen (writeZeros D sink w w.pending) fun w =>
    andThen (writeZeros D sink { w with pending := 0 } w.pad) fun w => ({ w with pad := 0 }, true)

def dirHeader (name : Name) (mtime : Nat) : Option (List UInt8) :=
  if 256 ≤ (name ++ [47]).length then none else (setEntryName (fillHeader 53 0 mtime) (name ++ [47])).map sealHeader

def fileHeader (name : Name) (size mtime : Nat) : Option (List UInt8) := (setEntryName (fillHeader 48 size mtime) name).map sealHeader

def targzWriterAddDir (w : Writer δ) (name : Name) (mtime : Nat) : Writer δ × Bool :=
  if !w.ok then (w, false)
  else
    andThen (finishEntry D sink w) fun w =>
      match dirHeader name mtime with
      | none => (w, true)
      | some h => writeRaw D sink w h

def targzWriterAddFile (w : Writer δ) (name : Name) (size mtime : Nat) : Writer δ × Bool :=
  if !w.ok then (w, false)
  else
    andThen (finishEntry D sink w) fun w =>
      match fileHeader name size mtime with
      | none => (w, true)
      | some h =>
        andThen (writeRaw D sink w h) fun w =>
          ({ w with pending := size, pad := (tarBlock - size % tarBlock) % tarBlock }, true)

def targzWriterData (w : Writer δ) (data : List UInt8) : Writer δ × Bool :=
  if !w.ok then (w, false)
  else
    let data := data.take w.pending
    andThen (writeRaw D sink w data) fun w =>
      let w : Writer δ := { w with pending := w.pending - data.length }
      if w.pending = 0 ∧ w.pad ≠ 0 then andThen (writeZeros D sink w w.pad) fun w => ({ w with pad := 0 }, true) else (w, true)

def targzWriterClose (w : Writer δ) : Writer δ × Bool :=
  if !w.ok then (w, false)
  else
    andThen (finishEntry D sink w) fun w =>
      andThen (writeZeros D sink w (2 * tarBlock)) fun w =>
        andThen (deflateRun D sink w [] true) fun w =>
          let foot := leBytes 4 w.crc.toNat ++ leBytes 4 w.rawLen
          ({ w with sent := w.sent ++ foot }, sink w.sent foot)

def targzWriterOpen : Option (Writer δ) :=
  if sink [] gzHeader then some ⟨D.init, 0, 0, 0, 0, true, gzHeader⟩ else none

/-- An entry and, for a file, the calls that bring its body. -/
inductive Item
  | dir (name : Name) (mtime : Nat)
  | file (name : Name) (size mtime : Nat) (body : List (List UInt8))

def addItem (w : Writer δ) : Item → Writer δ
  | .dir name mtime => (targzWriterAddDir D sink w name mtime).1
  | .file name size mtime body =>
    body.foldl (fun w d => (targzWriterData D sink w d).1) (targzWriterAddFile D sink w name size mtime).1

/-- All the bytes of an archive, if nothing failed. -/
def archive (items : List Item) : Option (List UInt8) :=
  (targzWriterOpen D sink).bind fun w =>
    let r := targzWriterClose D sink (items.foldl (addItem D sink) w)
    if r.2 then some r.1.sent else none

end Model

section Written

variable {ι δ : Type} {I : Inflater ι} {S : Streaming I} {D : Deflater δ} {sink : List UInt8 → List UInt8 → Bool}

/-- All is well and the bytes `x` of the archive went into the compressor. -/
structure Written (L : Lossless S D) (w : Writer δ) (x : List UInt8) : Prop where
  ok : w.ok = true
  crc : w.crc = crc32 0 x
  rawLen : w.rawLen = x.length
  rep : ∃ z, L.Rep false w.comp x z ∧ w.sent = gzHeader ++ z

/-- A step that succeeds, writes `d` and leaves the counters as `pending` and `pad`. -/
structure Adds (L : Lossless S D) (x d : List UInt8) (pending pad : Nat) (r : Writer δ × Bool) : Prop where
  success : r.2 = true
  written : Written L r.1 (x ++ d)
  pending : r.1.pending = pending
  pad : r.1.pad = pad

variable {L : Lossless S D} {w : Writer δ} {x d : List UInt8}

theorem andThen_success {r : Writer δ × Bool} (h : r.2 = true) (next : Writer δ → Writer δ × Bool) : andThen r next = next r.1 := if_pos h

section

variable (hsink : ∀ a b, sink a b = true)
include hsink

theorem deflate_feed (fuel : Nat) {p z : List UInt8} (hp : p ≠ []) (hrep : L.Rep false w.comp x z)
    (hfuel : D.credit w.comp + (D.rate + 1) * p.length < fuel) :
    ∃ s z', deflateTurns D sink false fuel w p = ({ w with comp := s, sent := w.sent ++ z' }, true) ∧ L.Rep false s (x ++ p) (z ++ z') := by
  induction fuel generalizing w x z p with
  | zero => exact absurd hfuel (Nat.not_lt_zero _)
  | succ fuel ih =>
    obtain ⟨hokay, hprog, hnext⟩ := L.feed _ _ _ _ deflateOut hrep (by decide) hp
    have hless := fun hprog => fuel_less (D.used_le w.comp p deflateOut false) (D.bounded w.comp p deflateOut false) hprog hfuel
    rw [deflateTurns]
    generalize D.compress w.comp p deflateOut false = c at *
    dsimp only
    rw [if_neg (by rw [hokay]; simp), if_neg (fun h => absurd ((hsink _ _).symm.trans h.2) (by simp))]
    by_cases hend : p.drop c.used = []
    · rw [if_pos (.inr ⟨rfl, hend⟩)]
      refine ⟨c.state, c.out, rfl, ?_⟩
      rwa [take_of_length_le (drop_eq_nil_iff.mp hend)] at hnext
    · have hmoved : c.used ≠ 0 ∨ c.out.length ≠ 0 := hprog.imp id fun h => by rwa [Ne, length_eq_zero_iff]
      rw [if_neg (by simpa using hend), if_neg (fun h => hprog.elim (fun h' => h' h.1) (fun h' => h' h.2))]
      obtain ⟨s, z', hrun, hrep'⟩ := ih (w := { w with comp := c.state, sent := w.sent ++ c.out }) hend hnext
        (by rw [length_drop]; exact hless hmoved)
      refine ⟨s, c.out ++ z', ?_, ?_⟩
      · rw [hrun]
        simp
      · rwa [append_assoc, take_append_drop, append_assoc] at hrep'

theorem deflate_close (fuel : Nat) {fin : Bool} {z : List UInt8} (hrep : L.Rep fin w.comp x z)
    (hfuel : D.credit w.comp < fuel) :
    ∃ s z', deflateTurns D sink true fuel w [] = ({ w with comp := s, sent := w.sent ++ z' }, true) ∧ S.Whole (z ++ z') x := by
  induction fuel generalizing w z fin with
  | zero => exact absurd hfuel (Nat.not_lt_zero _)
  | succ fuel ih =>
    have hclose := L.close _ _ _ _ deflateOut hrep (by decide)
    have hused : (D.compress w.comp [] deflateOut true).used = 0 := Nat.le_zero.mp (D.used_le w.comp [] deflateOut true)
    have hbound := D.bounded w.comp [] deflateOut true
    rw [deflateTurns]
    generalize D.compress w.comp [] deflateOut true = c at *
    dsimp only
    rw [hused, mul_zero, add_zero] at hbound
    rcases hclose with ⟨hokay, hout, hnext⟩ | ⟨hdone, hwhole⟩
    · have hpos := length_pos_of_ne_nil hout
      rw [if_neg (by rw [hokay]; simp), if_neg (fun h => absurd ((hsink _ _).symm.trans h.2) (by simp)), if_neg (by rw [hokay]; simp),
        if_neg (fun h => hout h.2), drop_nil]
      obtain ⟨s, z', hrun, hwhole⟩ := ih (w := { w with comp := c.state, sent := w.sent ++ c.out }) hnext (by dsimp only; omega)
      refine ⟨s, c.out ++ z', ?_, ?_⟩
      · rw [hrun]
        simp
      · rwa [append_assoc] at hwhole
    · rw [if_neg (by rw [hdone]; simp), if_neg (fun h => absurd ((hsink _ _).symm.trans h.2) (by simp)), if_pos (.inl ⟨rfl, hdone⟩)]
      exact ⟨c.state, c.out, rfl, hwhole⟩

theorem writeRaw_adds (h : Written L w x) (d : List UInt8) : Adds L x d w.pending w.pad (writeRaw D sink w d) := by
  unfold writeRaw
  rw [if_neg (by rw [h.ok]; simp)]
  split
  next hnil =>
    subst hnil
    exact ⟨rfl, by rwa [append_nil], rfl, rfl⟩
  next hne =>
    obtain ⟨z, hrep, hsent⟩ := h.rep
    obtain ⟨s, z', hrun, hrep'⟩ := deflate_feed (w := { w with crc := crc32 w.crc d, rawLen := w.rawLen + d.length }) hsink _ hne hrep
      (Nat.lt_succ_self _)
    rw [deflateRun, hrun]
    refine ⟨rfl, ⟨h.ok, ?_, ?_, z ++ z', hrep', ?_⟩, rfl, rfl⟩
    · dsimp only
      rw [h.crc, crc32_append]
    · dsimp only
      rw [h.rawLen, length_append]
    · dsimp only
      rw [hsent, append_assoc]

theorem zeroRuns_adds (n len : Nat) (hn : len ≤ n) (h : Written L w x) :
    Adds L x (replicate len 0) w.pending w.pad (zeroRuns D sink n w len) := by
  induction n generalizing w x len with
  | zero =>
    obtain rfl : len = 0 := Nat.le_zero.mp hn
    exact ⟨rfl, by rwa [replicate_zero, append_nil], rfl, rfl⟩
  | succ n ih =>
    rw [zeroRuns]
    split
    next hzero =>
      subst hzero
      exact ⟨rfl, by rwa [replicate_zero, append_nil], rfl, rfl⟩
    next hne =>
      have hraw := writeRaw_adds hsink h (replicate (min len 64) 0)
      rw [andThen_success hraw.success]
      obtain ⟨hs, hw, hp, hpad⟩ := ih (len - min len 64) (by omega) hraw.written
      refine ⟨hs, ?_, hp.trans hraw.pending, hpad.trans hraw.pad⟩
      rwa [append_assoc, replicate_append_replicate, Nat.add_sub_cancel' (min_le_left _ _)] at hw

theorem writeZeros_adds (h : Written L w x) (len : Nat) :
    Adds L x (replicate len 0) w.pending w.pad (writeZeros D sink w len) :=
  zeroRuns_adds hsink len len (le_refl len) h

end

theorem Written.counters (h : Written L w x) (n k : Nat) : Written L { w with pending := n, pad := k } x :=
  { h with }

theorem finishEntry_adds (hsink : ∀ a b, sink a b = true) (h : Written L w x) :
    Adds L x (replicate (w.pending + w.pad) 0) 0 0 (finishEntry D sink w) := by
  have hbody := writeZeros_adds hsink h w.pending
  unfold finishEntry
  rw [andThen_success hbody.success]
  generalize writeZeros D sink w w.pending = r at *
  have hpad := writeZeros_adds hsink (hbody.written.counters 0 r.1.pad) r.1.pad
  rw [andThen_success hpad.success]
  generalize writeZeros D sink { r.1 with pending := 0 } r.1.pad = r' at *
  refine ⟨rfl, ?_, hpad.pending, rfl⟩
  have hw := hpad.written.counters r'.1.pending 0
  rwa [append_assoc, replicate_append_replicate, hbody.pad] at hw

end Written

end Spangap.TarWriter
