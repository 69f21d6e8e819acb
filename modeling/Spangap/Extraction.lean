import Spangap.ReaderOutcome

namespace Spangap.Extraction

open Bytes CJson Ustar Codec TarReader GzReader
open List hiding extract

variable {p h : List UInt8} {e : EntryHead} {more : Bool}

/-- Calls that make sense to an extractor, the last one first: with `some n`, a file is open
and `n` of its bytes are still to come. -/
inductive Brackets : List Event → Option Nat → Prop
  | nil : Brackets [] none
  | dir {l name} : Brackets l none → Relative name → name.length < 256 → Brackets (.dir name :: l) none
  | file {l name size} : Brackets l none → Relative name → name.length < 256 → Brackets (.file name size :: l) (some size)
  | data {l bytes n} : Brackets l (some (n + bytes.length)) → Brackets (.data bytes :: l) (some n)
  | fileEnd {l} : Brackets l (some 0) → Brackets (.fileEnd :: l) none

def small (h : List UInt8) : Bool :=
  match parseHeader h with
  | .error _ => true
  | .ok e => e.isDir || e.size < 2 ^ 32

section Turns

variable {κ : Type} {cb : κ → Event → κ × Bool} {t : Tar κ}

structure Sound (t : Tar κ) : Prop where
  log : Brackets t.log (if t.inFile then some t.pending else none)
  file : t.inFile = true → t.stage = .data

structure Leaves (t : Tar κ) (e : Err) : Prop where
  sound : e = .ok → Sound t
  log : ∃ o, Brackets t.log o

theorem Sound.shut (h : Sound t) (hstage : t.stage ≠ .data) : t.inFile = false := by
  cases hf : t.inFile with
  | false => rfl
  | true => exact absurd (h.file hf) hstage

theorem Sound.shut_log (h : Sound t) (hstage : t.stage ≠ .data) : Brackets t.log none := by
  have hlog := h.log
  rwa [h.shut hstage] at hlog

theorem sound_shut (hshut : t.inFile = false) (hlog : Brackets t.log none) : Sound t :=
  ⟨by rwa [hshut], fun hf => absurd (hshut.symm.trans hf) (by simp)⟩

theorem Sound.leaves (h : Sound t) (e : Err) : Leaves t e := ⟨fun _ => h, _, h.log⟩

theorem brackets_record {l : List Event} {d : List UInt8} {n : Nat} (h : Brackets l (some (n + d.length))) :
    Brackets (record l (.data d)) (some n) := by
  cases h with
  | file h hrel hlen => exact .data (.file h hrel hlen)
  | data h =>
    refine .data ?_
    rwa [length_append, ← add_assoc, Nat.add_right_comm]

theorem endEntry_leaves (h : Brackets t.log (if t.inFile then some 0 else none)) :
    Leaves (endEntry cb t).1 (endEntry cb t).2 := by
  unfold endEntry Tar.notify
  cases hf : t.inFile with
  | false =>
    rw [hf] at h
    refine Sound.leaves ⟨?_, by simp⟩ _
    exact h
  | true =>
    rw [hf] at h
    have hend : Brackets (record t.log .fileEnd) none := by
      rw [record_other (by simp)]
      exact .fileEnd h
    dsimp only [Tar.call]
    cases hyes : (cb t.ctx .fileEnd).2 with
    | true => exact Sound.leaves ⟨hend, by simp⟩ _
    | false => exact ⟨by simp, none, hend⟩

theorem startEntry_leaves (h : Sound t) (hstage : t.stage = .hdr) (hrel : Relative e.name) (hlen : e.name.length < 256)
    (hsmall : e.isDir = false → e.size < 2 ^ 32) : Leaves (startEntry cb t e).1 (startEntry cb t e).2 := by
  have hshut := h.shut (by rw [hstage]; simp)
  have hlog := h.log
  rw [hshut] at hlog
  -- The call that announces the entry.
  have hopen : Brackets (record t.log e.event) (if !e.isDir then some e.size else none) := by
    unfold EntryHead.event
    cases hd : e.isDir with
    | true =>
      rw [if_pos rfl, record_other (by simp)]
      exact .dir hlog hrel hlen
    | false =>
      rw [if_neg (by simp), record_other (by simp), Nat.mod_eq_of_lt (hsmall hd)]
      exact .file hlog hrel hlen
  unfold startEntry
  dsimp only [Tar.call]
  split
  · have hin : ((⟨t.stage, t.hdr, t.pending, t.pad, t.zeroBlocks, t.entries + 1, t.bytes, t.inFile, (cb t.ctx e.event).1,
        record t.log e.event⟩ : Tar κ).opened e).inFile = !e.isDir := by
      rw [Tar.opened, hshut, Bool.false_or]
    split
    next hsize =>
      refine endEntry_leaves ?_
      rw [hin, ← hsize]
      exact hopen
    next hsize =>
      refine Sound.leaves ⟨?_, fun _ => rfl⟩ _
      rw [hin]
      exact hopen
  · exact ⟨by simp, _, hopen⟩

theorem parseHeader_safe (hp : parseHeader h = .ok e) : Relative e.name ∧ e.name.length < 256 := by
  unfold parseHeader at hp
  split at hp
  · simp at hp
  · dsimp only at hp
    split at hp
    · simp at hp
    · split at hp
      · simp at hp
      · split at hp
        · simp at hp
        next hsafe =>
          cases hp
          refine relative_of_safe (by simpa using hsafe) fun hlast => ?_
          have hne : (entryPath h).rdropWhile (· = 47) ≠ [] := fun hnil => by
            rw [hnil] at hlast
            simp at hlast
          rw [getLast?_eq_some_getLast hne] at hlast
          exact absurd (Option.some.inj hlast) (by simpa using rdropWhile_last_not _ _ hne)

theorem tarHeader_leaves (ht : Sound t) (hstage : t.stage = .hdr) (hsmall : small h = true) :
    Leaves (tarHeader cb t h).1 (tarHeader cb t h).2 := by
  unfold tarHeader
  split
  · refine Sound.leaves ?_ _
    exact ⟨ht.log, fun hf => absurd ((ht.shut (by rw [hstage]; simp)).symm.trans hf) (by simp)⟩
  · cases hp : parseHeader h with
    | error e =>
      refine Sound.leaves ?_ _
      exact ⟨ht.log, ht.file⟩
    | ok e =>
      obtain ⟨hrel, hlen⟩ := parseHeader_safe hp
      refine startEntry_leaves ⟨ht.log, ht.file⟩ hstage hrel hlen fun hd => ?_
      rw [small, hp] at hsmall
      simpa [hd] using hsmall

def completed (t : Tar κ) (p : List UInt8) : Option (List UInt8) :=
  let h := t.hdr ++ p.take (min (tarBlock - t.hdr.length) p.length)
  if t.stage = .hdr ∧ tarBlock ≤ h.length then some h else none

theorem turn_leaves (ht : Sound t) (hsmall : ∀ h, completed t p = some h → small h = true) :
    Leaves (tarTurn cb t p).1 (tarTurn cb t p).2.2 := by
  unfold tarTurn
  cases hs : t.stage with
  | hdr =>
    have hdata : t.stage ≠ .data := by rw [hs]; simp
    dsimp only
    split
    · refine Sound.leaves (sound_shut ?_ ?_) _
      · exact ht.shut hdata
      · exact ht.shut_log hdata
    next hfull =>
      refine tarHeader_leaves (sound_shut (ht.shut hdata) (ht.shut_log hdata)) rfl (hsmall _ ?_)
      exact if_pos ⟨hs, Nat.not_lt.mp hfull⟩
  | data =>
    dsimp only
    have hlen : (p.take (min t.pending p.length)).length = min t.pending p.length := by
      rw [length_take]
      omega
    -- The data that the call hands over is no longer owed.
    have hgiven : Brackets (t.notify cb (.data (p.take (min t.pending p.length)))).1.log
        (if (t.notify cb (.data (p.take (min t.pending p.length)))).1.inFile then some (t.pending - min t.pending p.length) else none) := by
      have hlog := ht.log
      unfold Tar.notify
      cases hf : t.inFile with
      | false =>
        simpa [hf] using hlog
      | true =>
        rw [hf] at hlog
        have : Brackets (record t.log (.data (p.take (min t.pending p.length)))) (some (t.pending - min t.pending p.length)) := by
          refine brackets_record ?_
          rwa [hlen, Nat.sub_add_cancel (min_le_left _ _)]
        simpa [Tar.call, hf] using this
    split
    · exact ⟨by simp, _, hgiven⟩
    · split
      next hzero =>
        rw [notify_pending] at hzero
        refine endEntry_leaves ?_
        rw [hzero] at hgiven
        exact hgiven
      · refine Sound.leaves ?_ _
        refine ⟨?_, fun _ => (notify_stage t _).trans hs⟩
        rw [notify_pending]
        exact hgiven
  | pad =>
    have hdata : t.stage ≠ .data := by rw [hs]; simp
    refine Sound.leaves (sound_shut ?_ ?_) _
    · exact ht.shut hdata
    · exact ht.shut_log hdata
  | fin => exact ht.leaves _

def smallTurns (cb : κ → Event → κ × Bool) : Nat → Tar κ → List UInt8 → Bool
  | 0, _, _ => true
  | fuel + 1, t, p =>
    p = [] || t.stage = .fin || (completed t p).all small &&
      ((tarTurn cb t p).2.2 ≠ .ok || smallTurns cb fuel (tarTurn cb t p).1 (tarTurn cb t p).2.1)

theorem turns_leave (ht : Sound t) (fuel : Nat) (hsmall : smallTurns cb fuel t p = true) :
    Leaves (tarTurns cb fuel t p).1 (tarTurns cb fuel t p).2 := by
  induction fuel generalizing t p with
  | zero => exact ht.leaves _
  | succ fuel ih =>
    rw [tarTurns]
    split
    · exact ht.leaves _
    next hgo =>
      obtain ⟨hp, hfin⟩ := not_or.mp hgo
      simp only [smallTurns, hp, hfin, decide_false, Bool.false_or, Bool.and_eq_true, Bool.or_eq_true, decide_eq_true_eq] at hsmall
      obtain ⟨hblock, hrest⟩ := hsmall
      have hturn : Leaves (tarTurn cb t p).1 (tarTurn cb t p).2.2 := turn_leaves ht fun h hh => by
        rw [hh] at hblock
        exact hblock
      dsimp only
      split
      · exact hturn
      next hok => exact ih (hturn.sound (not_not.mp hok)) (hrest.resolve_left hok)

end Turns

section Reader

variable {ι κ : Type} (I : Inflater ι) (cb : κ → Event → κ × Bool)

def smallInflate (more : Bool) : Nat → Reader ι κ → List UInt8 → Bool
  | 0, _, _ => true
  | fuel + 1, r, p =>
    let c := I.decompress r.inf p (dictSize - r.dictOfs) more
    let r' := deliver cb { r with inf := c.state } c.out
    r.gz ≠ .deflate || smallTurns cb (c.out.length + 2) r.tar c.out &&
      (r'.err ≠ .ok || c.status = .done || c.status = .failed || (c.used = 0 && c.out = []) || smallInflate more fuel r' (p.drop c.used))

def smallSome (more : Bool) (r : Reader ι κ) (p : List UInt8) : Bool :=
  r.err ≠ .ok || smallInflate I cb more (I.credit r.inf + (I.rate + 1) * p.length + 1) r p

def smallOffer (r : Reader ι κ) (p : List UInt8) : Bool := p = [] || smallSome I cb true r p

def smallBody (r : Reader ι κ) (p : List UInt8) : Bool :=
  let feed := r.hold.length + p.length - 8
  let fromHold := min feed r.hold.length
  r.hold.length + p.length ≤ 8 ||
    smallOffer I cb r (r.hold.take fromHold) && smallOffer I cb (offer I cb r (r.hold.take fromHold)) (p.take (feed - fromHold))

def smallFeed (r : Reader ι κ) (data : List UInt8) : Bool :=
  r.err ≠ .ok ||
    if r.gz ≠ .deflate ∧ r.gz ≠ .footer then (gzHeader r data).1.gz ≠ .deflate || smallBody I cb (gzHeader r data).1 (gzHeader r data).2
    else smallBody I cb r data

/-- Every feed and the end come to header blocks whose size fits 32 bits. -/
def smallRun : Reader ι κ → List (List UInt8) → Bool
  | r, [] => smallSome I cb false r []
  | r, c :: feeds => smallFeed I cb r c && smallRun (targzReaderFeed I cb r c) feeds

structure Tidy (r : Reader ι κ) : Prop where
  sound : r.err = .ok → Sound r.tar
  log : ∃ o, Brackets r.tar.log o

variable {I cb} {r : Reader ι κ}

theorem deliver_tidy (h : Sound r.tar) {out : List UInt8} (hsmall : smallTurns cb (out.length + 2) r.tar out = true) :
    Tidy (deliver cb r out) := by
  unfold deliver
  split
  · exact ⟨fun _ => h, _, h.log⟩
  · have hturns : Leaves (tarConsume cb r.tar out).1 (tarConsume cb r.tar out).2 := turns_leave h _ hsmall
    refine ⟨fun hok => hturns.sound ?_, hturns.log⟩
    dsimp only at hok
    split at hok
    · exact hok
    next hgood => exact not_not.mp hgood

theorem inflate_tidy (fuel : Nat) (h : Tidy r) (herr : r.err = .ok) (hsmall : smallInflate I cb more fuel r p = true) :
    Tidy (inflateTurns I cb more fuel r p).1 := by
  induction fuel generalizing r p with
  | zero => exact h
  | succ fuel ih =>
    rw [inflateTurns]
    split
    · exact h
    next hgz =>
      rw [smallInflate] at hsmall
      rw [decide_eq_false hgz, Bool.false_or, Bool.and_eq_true] at hsmall
      obtain ⟨hout, hrest⟩ := hsmall
      generalize I.decompress r.inf p (dictSize - r.dictOfs) more = c at *
      have hd : Tidy (deliver cb { r with inf := c.state } c.out) :=
        deliver_tidy (r := { r with inf := c.state }) (h.sound herr) hout
      dsimp only
      generalize deliver cb { r with inf := c.state } c.out = r' at *
      split
      · exact hd
      next hgood =>
        have hgo : c.status ≠ .done → c.status ≠ .failed → ¬ (c.used = 0 ∧ c.out = []) → Tidy (inflateTurns I cb more fuel r' (p.drop c.used)).1 := by
          intro hdone hfail hidle
          refine ih hd (not_not.mp hgood) ?_
          simpa [not_not.mp hgood, hdone, hfail, hidle] using hrest
        cases hst : c.status with
        | done => exact ⟨hd.sound, hd.log⟩
        | failed => exact ⟨by simp, hd.log⟩
        | needsMoreInput | hasMoreOutput =>
          dsimp only
          split
          · exact hd
          next hidle => exact hgo (by rw [hst]; simp) (by rw [hst]; simp) hidle

theorem some_tidy (h : Tidy r) (herr : r.err = .ok) (hsmall : smallSome I cb more r p = true) :
    Tidy (inflateSome I cb more r p).1 := by
  refine inflate_tidy _ h herr ?_
  rwa [smallSome, decide_eq_false (not_not.mpr herr), Bool.false_or] at hsmall

theorem offer_tidy (h : Tidy r) (herr : r.err = .ok) (hsmall : smallOffer I cb r p = true) : Tidy (offer I cb r p) := by
  unfold offer
  split
  · exact h
  next hne =>
    rw [smallOffer, decide_eq_false hne, Bool.false_or] at hsmall
    have hsome := some_tidy h herr hsmall
    dsimp only
    split
    · exact hsome
    · split
      · exact ⟨by simp, hsome.log⟩
      · exact hsome

theorem body_tidy (h : Tidy r) (herr : r.err = .ok) (hsmall : smallBody I cb r p = true) : Tidy (feedBody I cb r p) := by
  unfold feedBody
  dsimp only
  split
  · exact ⟨h.sound, h.log⟩
  next hlong =>
    rw [smallBody] at hsmall
    rw [decide_eq_false hlong, Bool.false_or, Bool.and_eq_true] at hsmall
    have hfirst := offer_tidy h herr hsmall.1
    split
    · exact hfirst
    next hgood =>
      have hsecond := offer_tidy hfirst (not_not.mp hgood) hsmall.2
      split
      · exact hsecond
      · exact ⟨hsecond.sound, hsecond.log⟩

theorem Tidy.sameBody {s : Reader ι κ} (h : Tidy r) (herr : r.err = .ok) (hsame : ReaderCuts.SameBody r s) : Tidy s :=
  ⟨fun _ => hsame.tar ▸ h.sound herr, hsame.tar ▸ h.log⟩

theorem feed_tidy (h : Tidy r) (hsmall : smallFeed I cb r p = true) : Tidy (targzReaderFeed I cb r p) := by
  unfold targzReaderFeed
  split
  · exact h
  next hgood =>
    have herr : r.err = .ok := not_not.mp hgood
    rw [smallFeed, decide_eq_false hgood, Bool.false_or] at hsmall
    split
    next hhead =>
      have hnext := h.sameBody herr (ReaderCuts.header_turned r p).toSameBody
      rw [if_pos hhead] at hsmall
      dsimp only
      split
      · exact hnext
      next hdone =>
        obtain ⟨herr', hgz⟩ := not_or.mp hdone
        rw [decide_eq_false hgz, Bool.false_or] at hsmall
        exact body_tidy hnext (not_not.mp herr') hsmall
    next hhead =>
      rw [if_neg hhead] at hsmall
      exact body_tidy h herr hsmall

theorem finish_log (herr : r.err ≠ .ok) : (targzReaderFinish I cb r).1 = r.tar := by
  rw [targzReaderFinish, if_neg (fun h => herr h.1)]

theorem run_tidy (feeds : List (List UInt8)) (h : Tidy r) (hsmall : smallRun I cb r feeds = true) :
    ∃ r' : Reader ι κ, Tidy r' ∧ (targzReaderFinish I cb (feeds.foldl (targzReaderFeed I cb) r)).1 = r'.tar ∧
      ((targzReaderFinish I cb (feeds.foldl (targzReaderFeed I cb) r)).2 = .ok → r'.err = .ok ∧ r'.tar.stage ≠ .data) := by
  induction feeds generalizing r with
  | nil =>
    have htidy : Tidy (if r.err = .ok ∧ r.gz = .deflate then (inflateSome I cb false r []).1 else r) := by
      split
      next hopen => exact some_tidy h hopen.1 hsmall
      · exact h
    rw [foldl_nil, targzReaderFinish]
    generalize (if r.err = .ok ∧ r.gz = .deflate then (inflateSome I cb false r []).1 else r) = r' at htidy
    refine ⟨r', htidy, rfl, ?_⟩
    dsimp only
    split_ifs with herr hgz hhold hstage hcrc <;> intro hok
    · exact absurd hok herr
    · cases hok
    · cases hok
    · cases hok
    · cases hok
    · exact ⟨not_not.mp herr, fun hdata => hstage (.inl hdata)⟩
  | cons c feeds ih =>
    rw [smallRun, Bool.and_eq_true] at hsmall
    exact ih (feed_tidy h hsmall.1) hsmall.2

theorem run_failed (feeds : List (List UInt8)) (herr : r.err ≠ .ok) : feeds.foldl (targzReaderFeed I cb) r = r := by
  induction feeds with
  | nil => rfl
  | cons c feeds ih => rw [foldl_cons, ReaderOutcome.feed_failed herr, ih]

end Reader

/-- However the bytes come, the calls are well bracketed with safe names, none is made after
the reader has reported an error, and an extraction that ends well has left no file open. -/
theorem extract_brackets {ι κ : Type} (I : Inflater ι) (cb : κ → Event → κ × Bool) (ctx : κ) (feeds : List (List UInt8))
    (hsmall : smallRun I cb (targzReaderOpen I ctx) feeds = true) :
    (∃ o, Brackets (extract I cb ctx feeds).1.log o) ∧
      ((extract I cb ctx feeds).2 = .ok → Brackets (extract I cb ctx feeds).1.log none) ∧
      ∀ fed rest, feeds = fed ++ rest → (fed.foldl (targzReaderFeed I cb) (targzReaderOpen I ctx)).err ≠ .ok →
        (extract I cb ctx feeds).1.log = (fed.foldl (targzReaderFeed I cb) (targzReaderOpen I ctx)).tar.log := by
  have hstart : Tidy (targzReaderOpen I ctx) := ⟨fun _ => ⟨.nil, by simp [targzReaderOpen, freshTar]⟩, none, .nil⟩
  obtain ⟨r, htidy, hlog, hend⟩ := run_tidy feeds hstart hsmall
  refine ⟨?_, fun hok => ?_, ?_⟩
  · rw [extract, hlog]
    exact htidy.log
  · obtain ⟨herr, hstage⟩ := hend hok
    have hsound := htidy.sound herr
    have hbrackets := hsound.log
    rw [hsound.shut hstage] at hbrackets
    rw [extract, hlog]
    exact hbrackets
  · rintro fed rest rfl herr
    rw [extract, foldl_append, run_failed rest herr, finish_log herr]

/-- A decompressor for data that is not compressed at all. -/
def stored : Inflater Unit where
  init := ()
  decompress := fun _ p _ more => ⟨(), p.length, p, if more then .needsMoreInput else .done⟩
  credit := fun _ => 0
  rate := 1
  used_le := fun _ _ _ _ => le_rfl
  bounded := by
    intro s p room more
    simp

/-- A member with a file of the size `size` and the bytes behind its header. -/
def member (size : Nat) (rest : List UInt8) : List UInt8 :=
  [0x1f, 0x8b, 8, 0, 0, 0, 0, 0, 0, 0xff] ++ ((setEntryName (fillHeader 48 size 0) (lit "a")).elim [] sealHeader ++ (rest ++ replicate 8 0))

theorem extract_brackets_small_file :
    (extract stored ReaderOutcome.acceptAll () [[], member 3 (lit "xyz" ++ replicate 1533 0)]).1.log =
        [.fileEnd, .data (lit "xyz"), .file (lit "a") 3] ∧
      ∃ o, Brackets (extract stored ReaderOutcome.acceptAll () [[], member 3 (lit "xyz" ++ replicate 1533 0)]).1.log o :=
  ⟨by decide +kernel, (extract_brackets stored ReaderOutcome.acceptAll () _ (by decide +kernel)).1⟩

/-- A file of four gigabytes is announced with size 0 and then given data. -/
theorem extract_announces_less : ¬ ∃ o, Brackets (extract stored ReaderOutcome.acceptAll () [member (2 ^ 32) [120]]).1.log o := by
  have hlog : (extract stored ReaderOutcome.acceptAll () [member (2 ^ 32) [120]]).1.log = [.data [120], .file (lit "a") 0] := by
    decide +kernel
  rw [hlog]
  rintro ⟨o, h⟩
  cases h with
  | data h => cases h

end Spangap.Extraction
