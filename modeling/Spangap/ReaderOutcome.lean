import Spangap.PairCode
import Spangap.ReaderCuts

namespace Spangap.ReaderOutcome

open Bytes CJson Codec Crc32 Ustar TarReader GzReader ReaderCuts
open List hiding extract

variable {bs y : List UInt8}

theorem hold_split (y p : List UInt8) : let hold := y.drop (y.length - 8)
    let n := hold.length + p.length - 8
    y.take (y.length - 8) ++ (hold.take (min n hold.length) ++ p.take (n - min n hold.length)) = (y ++ p).take ((y ++ p).length - 8) ∧
      hold.drop (min n hold.length) ++ p.drop (n - min n hold.length) = (y ++ p).drop ((y ++ p).length - 8) := by
  intro hold n
  have hy : y.take (y.length - 8) ++ hold = y := take_append_drop _ y
  have hlen : (y.take (y.length - 8)).length = y.length - 8 := by
    rw [length_take]
    omega
  have hhold : hold.length = y.length - (y.length - 8) := length_drop
  have hcount : (y ++ p).length - 8 = (y.take (y.length - 8)).length + n := by
    rw [length_append]
    omega
  have hmin : n - min n hold.length = n - hold.length := by omega
  have htake : hold.take (min n hold.length) = hold.take n := by
    rcases le_total n hold.length with h | h
    · rw [min_eq_left h]
    · rw [min_eq_right h, take_length, take_of_length_le h]
  have hdrop : hold.drop (min n hold.length) = hold.drop n := by
    rcases le_total n hold.length with h | h
    · rw [min_eq_left h]
    · rw [min_eq_right h, drop_length, drop_of_length_le h]
  have hyp : y ++ p = y.take (y.length - 8) ++ (hold ++ p) := by rw [← append_assoc, hy]
  rw [hmin, htake, hdrop, hcount]
  constructor
  · rw [hyp, take_length_add_append, take_append]
  · rw [hyp, drop_length_add_append, drop_append]

theorem offered_append (y p : List UInt8) : ∃ w, (y ++ p).take ((y ++ p).length - 8) = y.take (y.length - 8) ++ w := by
  have hle : y.length - 8 ≤ (y ++ p).length - 8 := by
    rw [length_append]
    omega
  have hpre : (y ++ p).take (y.length - 8) = y.take (y.length - 8) := take_append_of_le_length (by omega)
  obtain ⟨w, hw⟩ := (take_prefix_take_left hle : (y ++ p).take _ <+: (y ++ p).take _)
  exact ⟨w, by rw [← hw, hpre]⟩

section Reads

variable {ι κ : Type} {I : Inflater ι} (S : Streaming I) (cb : κ → Event → κ × Bool) (t₀ : Tar κ)

/-- The reader after its header and the bytes `y`. -/
structure Body (y : List UInt8) (r : Reader ι κ) : Prop where
  follows : Follows S cb t₀ true (y.take (y.length - 8)) r
  hold : r.err = .ok → r.hold = y.drop (y.length - 8)

/-- The reader after all of the bytes `bs`, in whatever pieces they came. -/
def Reads (ctx : κ) (bs : List UInt8) (r : Reader ι κ) : Prop :=
  let t := gzHeader (targzReaderOpen I ctx) bs
  if t.1.err ≠ .ok ∨ t.1.gz ≠ .deflate then r = t.1 else Body S cb (freshTar ctx) t.2 r

variable {S cb t₀} {r : Reader ι κ}

theorem Body.append_failed (hcb : Smooth cb) (ht : Ready t₀) (h : Body S cb t₀ y r) (herr : r.err ≠ .ok) (p : List UInt8) :
    Body S cb t₀ (y ++ p) r := by
  obtain ⟨w, hw⟩ := offered_append y p
  exact ⟨hw ▸ h.follows.append hcb ht (.inl herr) w, fun hok => absurd hok herr⟩

theorem Body.append (hcb : Smooth cb) (ht : Ready t₀) (h : Body S cb t₀ y r) (herr : r.err = .ok) (p : List UInt8) :
    Body S cb t₀ (y ++ p) (feedBody I cb r p) := by
  have hhold := h.hold herr
  have hlen : r.hold.length = y.length - (y.length - 8) := by rw [hhold, length_drop]
  unfold feedBody
  dsimp only
  split
  next hshort =>
    have hcount : (y ++ p).length - 8 = y.length - 8 := by
      rw [length_append]
      omega
    constructor
    · rw [hcount, take_append_of_le_length (Nat.sub_le _ _)]
      exact h.follows.withHold _
    · intro _
      rw [hcount, drop_append_of_le_length (Nat.sub_le _ _), ← hhold]
  next hlong =>
    obtain ⟨hoffered, hnext⟩ := hold_split y p
    rw [← hhold] at hoffered hnext
    rw [← append_assoc] at hoffered
    set a := r.hold.take (min (r.hold.length + p.length - 8) r.hold.length)
    set b := p.take (r.hold.length + p.length - 8 - min (r.hold.length + p.length - 8) r.hold.length)
    have hfirst := offer_follows hcb ht h.follows herr a
    split
    next hbad => exact ⟨hoffered ▸ hfirst.append hcb ht (.inl hbad) b, fun hok => absurd hok hbad⟩
    next hgood =>
      have hsecond := offer_follows hcb ht hfirst (not_not.mp hgood) b
      rw [hoffered] at hsecond
      split
      next hbad => exact ⟨hsecond, fun hok => absurd hok hbad⟩
      · exact ⟨hsecond.withHold _, fun _ => hnext⟩

theorem freshTar_ready (ctx : κ) : Ready (freshTar ctx) :=
  ⟨Nat.zero_lt_succ 511, by simp [freshTar], by simp [freshTar]⟩

theorem feed_failed (herr : r.err ≠ .ok) (c : List UInt8) : targzReaderFeed I cb r c = r := if_pos herr

theorem feed_head (herr : r.err = .ok) (hgz : r.gz ≠ .deflate) (hfoot : r.gz ≠ .footer) (c : List UInt8) :
    targzReaderFeed I cb r c =
      if (gzHeader r c).1.err ≠ .ok ∨ (gzHeader r c).1.gz ≠ .deflate then (gzHeader r c).1
      else feedBody I cb (gzHeader r c).1 (gzHeader r c).2 := by
  rw [targzReaderFeed, if_neg (not_not.mpr herr), if_pos ⟨hgz, hfoot⟩]

theorem feed_body (herr : r.err = .ok) (hgz : r.gz = .deflate ∨ r.gz = .footer) (c : List UInt8) :
    targzReaderFeed I cb r c = feedBody I cb r c := by
  rw [targzReaderFeed, if_neg (not_not.mpr herr), if_neg]
  rintro ⟨hno, hno'⟩
  exact hgz.elim hno hno'

theorem body_start {ctx : κ} (hsame : SameBody (targzReaderOpen I ctx) r) (herr : r.err = .ok) (hgz : r.gz = .deflate) :
    Body S cb (freshTar ctx) [] r := by
  obtain ⟨hplain, hverdict⟩ := S.fresh
  refine ⟨?_, fun _ => hsame.hold⟩
  have htar : tarConsume cb (freshTar ctx) [] = (r.tar, .ok) := by
    rw [consume_nil, hsame.tar]
    rfl
  refine (follows_settled (x := []) hplain.symm htar).mpr ?_
  rw [hverdict]
  exact ⟨herr, hgz, fun _ => ⟨herr, hgz, htar, ⟨hsame.crc, hsame.rawLen⟩, hsame.inf ▸ S.init, hsame.dictOfs ▸ Nat.zero_lt_succ 32767⟩⟩

theorem reads_feed (hcb : Smooth cb) {ctx : κ} (h : Reads S cb ctx bs r) (c : List UInt8) :
    Reads S cb ctx (bs ++ c) (targzReaderFeed I cb r c) := by
  have hready : HeadReady (targzReaderOpen I ctx : Reader ι κ) := fun hs => absurd hs (by simp [targzReaderOpen])
  have hsame := header_turned (targzReaderOpen I ctx : Reader ι κ) bs
  have hfoot := hsame.unfooted (by simp [targzReaderOpen])
  unfold Reads at h ⊢
  dsimp only at h ⊢
  rw [header_append hready rfl bs c]
  split at h
  next hhead =>
    subst h
    by_cases herr : (gzHeader (targzReaderOpen I ctx : Reader ι κ) bs).1.err = .ok
    · have hgz := hhead.resolve_left (not_not.mpr herr)
      have hnot : ¬ Headed (gzHeader (targzReaderOpen I ctx : Reader ι κ) bs).1 := by
        rintro (h | h | h)
        · exact h herr
        · exact hgz h
        · exact hfoot h
      rw [if_neg hnot, feed_head herr hgz hfoot]
      have hsame' := header_turned (gzHeader (targzReaderOpen I ctx : Reader ι κ) bs).1 c
      split
      · rfl
      next hdone =>
        obtain ⟨herr', hgz'⟩ := not_or.mp hdone
        have hstart : Body S cb (freshTar ctx) [] _ := body_start (hsame.trans hsame').toSameBody (not_not.mp herr') (not_not.mp hgz')
        exact hstart.append hcb (freshTar_ready ctx) (not_not.mp herr') _
    · rw [if_pos (show Headed _ from .inl herr), if_pos (.inl herr), feed_failed herr]
  next hhead =>
    obtain ⟨-, hgz⟩ := not_or.mp hhead
    rw [if_pos (show Headed _ from .inr (.inl (not_not.mp hgz))), if_neg hhead]
    by_cases herr : r.err = .ok
    · have hpast : r.gz = .deflate ∨ r.gz = .footer := by
        obtain ⟨-, ⟨-, hgz, -⟩ | ⟨-, hlive⟩⟩ := h.follows.okay herr
        · exact .inr hgz
        · exact .inl hlive.gz
      rw [feed_body herr hpast]
      exact h.append hcb (freshTar_ready ctx) herr c
    · rw [feed_failed herr]
      exact h.append_failed hcb (freshTar_ready ctx) herr c

end Reads

section Outcome

variable {ι κ : Type} {I : Inflater ι} (S : Streaming I) (cb : κ → Event → κ × Bool) (t₀ : Tar κ)

def footerCheck (t : Tar κ) (hold o : List UInt8) : Err :=
  if hold.length < 8 then .truncated
  else if t.stage = .data ∨ t.stage = .pad ∨ t.hdr ≠ [] then .truncated
  else if le (slice hold 0 4) ≠ (crc32 0 o).toNat ∨ le (slice hold 4 4) ≠ o.length % 2 ^ 32 then .crc
  else .ok

def settle (more : Bool) (hold x : List UInt8) : Tar κ × Err :=
  let c := tarConsume cb t₀ (S.plain more x)
  (c.1,
    if c.2 ≠ .ok then c.2
    else
      match S.verdict more x with
      | .failed => .deflate
      | .done => footerCheck c.1 hold (S.plain more x)
      | .wants => .truncated)

/-- What the bytes behind the header come to. A decompressor that still waits is told that
nothing follows. -/
def bodyOutcome (y : List UInt8) : Tar κ × Err :=
  let x := y.take (y.length - 8)
  let hold := y.drop (y.length - 8)
  if (tarConsume cb t₀ (S.plain true x)).2 = .ok ∧ S.verdict true x = .wants then settle S cb t₀ false hold x else settle S cb t₀ true hold x

/-- What an extraction of the bytes `bs` comes to. -/
def outcome (ctx : κ) (bs : List UInt8) : Tar κ × Err :=
  let t := gzHeader (targzReaderOpen I ctx : Reader ι κ) bs
  if t.1.err ≠ .ok then (freshTar ctx, t.1.err)
  else if t.1.gz ≠ .deflate then (freshTar ctx, .truncated)
  else bodyOutcome S cb (freshTar ctx) t.2

variable {S cb t₀} {x : List UInt8} {r : Reader ι κ}

def finished (r : Reader ι κ) : Tar κ × Err :=
  (r.tar,
    if r.err ≠ .ok then r.err
    else if r.gz = .deflate then .truncated
    else if r.hold.length < 8 then .truncated
    else if r.tar.stage = .data ∨ r.tar.stage = .pad ∨ r.tar.hdr ≠ [] then .truncated
    else if le (slice r.hold 0 4) ≠ r.crc.toNat ∨ le (slice r.hold 4 4) ≠ r.rawLen % 2 ^ 32 then .crc
    else .ok)

theorem finish_eq (r : Reader ι κ) :
    targzReaderFinish I cb r = finished (if r.err = .ok ∧ r.gz = .deflate then (inflateSome I cb false r []).1 else r) := rfl

theorem finished_follows {more : Bool} {hold : List UInt8} (hf : Follows S cb t₀ more x r) (hhold : r.err = .ok → r.hold = hold) :
    finished r = settle S cb t₀ more hold x := by
  obtain ⟨htar, hf⟩ := hf
  unfold finished settle
  dsimp only
  rw [← htar]
  refine Prod.ext rfl ?_
  split at hf
  next hbad => rw [if_pos hbad, if_pos (hf ▸ hbad), hf]
  next hgood =>
    rw [if_neg hgood]
    cases hv : S.verdict more x with
    | failed =>
      rw [hv] at hf
      rw [if_pos (by rw [hf]; simp), hf]
    | done =>
      rw [hv] at hf
      obtain ⟨herr, hgz, hsums⟩ := hf
      rw [if_neg (not_not.mpr herr), if_neg (by rw [hgz]; simp), hhold herr, hsums.crc, hsums.rawLen]
      rfl
    | wants =>
      rw [hv] at hf
      rw [if_neg (not_not.mpr hf.1), if_pos hf.2.1]

theorem finish_body (hcb : Smooth cb) (ht : Ready t₀) (h : Body S cb t₀ y r) :
    targzReaderFinish I cb r = bodyOutcome S cb t₀ y := by
  rw [finish_eq, bodyOutcome]
  set x := y.take (y.length - 8)
  by_cases herr : r.err = .ok
  · obtain ⟨htar, ⟨hv, hgz, -⟩ | ⟨hv, hlive⟩⟩ := h.follows.okay herr
    · rw [if_neg (fun hno => absurd (hgz.symm.trans hno.2) (by simp)), if_neg (fun hno => absurd (hv.symm.trans hno.2) (by simp))]
      exact finished_follows h.follows h.hold
    · rw [if_pos ⟨herr, hlive.gz⟩, if_pos ⟨by rw [htar], hv⟩]
      obtain ⟨hf, hhold, -⟩ := turns_follow hcb ht _ hlive
        (.inr ⟨rfl, rfl⟩ : false = true ∧ true = true ∨ false = false ∧ ([] : List UInt8) = []) (Nat.lt_succ_self _)
      rw [append_nil, ← inflateSome] at hf
      exact finished_follows hf fun _ => hhold.trans (h.hold herr)
  · have hend : ¬ ((tarConsume cb t₀ (S.plain true x)).2 = .ok ∧ S.verdict true x = .wants) := by
      rintro ⟨hok, hv⟩
      obtain ⟨-, hf⟩ := h.follows
      rw [if_neg (not_not.mpr hok), hv] at hf
      exact herr hf.1
    rw [if_neg (fun hno => herr hno.1), if_neg hend]
    exact finished_follows h.follows h.hold

theorem finish_reads (hcb : Smooth cb) {ctx : κ} (h : Reads S cb ctx bs r) :
    targzReaderFinish I cb r = outcome S cb ctx bs := by
  have hsame := header_turned (targzReaderOpen I ctx : Reader ι κ) bs
  unfold Reads at h
  unfold outcome
  dsimp only at h ⊢
  split at h
  next hhead =>
    subst h
    by_cases herr : (gzHeader (targzReaderOpen I ctx : Reader ι κ) bs).1.err = .ok
    · have hgz := hhead.resolve_left (not_not.mpr herr)
      rw [if_neg (not_not.mpr herr), if_pos hgz, finish_eq, if_neg (fun hno => hgz hno.2), finished, if_neg (not_not.mpr herr), if_neg hgz,
        if_pos (by rw [hsame.hold]; exact Nat.zero_lt_succ 7), hsame.tar]
      rfl
    · rw [if_pos herr, finish_eq, if_neg (fun hno => herr hno.1), finished, if_pos herr, hsame.tar]
      rfl
  next hhead =>
    obtain ⟨herr, hgz⟩ := not_or.mp hhead
    rw [if_neg herr, if_neg hgz]
    exact finish_body hcb (freshTar_ready ctx) h

theorem reads_open (ctx : κ) : Reads S cb ctx [] (targzReaderOpen I ctx) := by
  unfold Reads
  rw [header_nil, if_pos (.inr (by simp [targzReaderOpen]))]

theorem reads_feeds (hcb : Smooth cb) {ctx : κ} (feeds : List (List UInt8)) (h : Reads S cb ctx bs r) :
    Reads S cb ctx (bs ++ feeds.flatten) (feeds.foldl (targzReaderFeed I cb) r) := by
  induction feeds generalizing bs r with
  | nil => rwa [flatten_nil, append_nil]
  | cons c feeds ih =>
    rw [flatten_cons, ← append_assoc]
    exact ih (reads_feed hcb h c)

theorem extract_eq (S : Streaming I) (hcb : Smooth cb) (ctx : κ) (feeds : List (List UInt8)) :
    extract I cb ctx feeds = outcome S cb ctx feeds.flatten := by
  have h := reads_feeds hcb feeds (reads_open ctx : Reads S cb ctx [] (targzReaderOpen I ctx))
  rw [nil_append] at h
  exact finish_reads hcb h

end Outcome

/-- Callbacks that keep nothing and accept everything. -/
def acceptAll (_ : Unit) (_ : Event) : Unit × Bool := ((), true)

theorem smooth_acceptAll : Smooth acceptAll := ⟨fun _ _ => rfl, fun _ _ _ => rfl⟩

section View

variable {ι κ κ' : Type} {I : Inflater ι} {cb : κ → Event → κ × Bool} {cb' : κ' → Event → κ' × Bool} {view : κ → κ'}

/-- The callbacks `cb` go by nothing but `view` of what they keep. -/
def GoesBy (view : κ → κ') (cb : κ → Event → κ × Bool) (cb' : κ' → Event → κ' × Bool) : Prop :=
  ∀ k e, cb' (view k) e = (view (cb k e).1, (cb k e).2)

def tarView (view : κ → κ') (t : Tar κ) : Tar κ' :=
  ⟨t.stage, t.hdr, t.pending, t.pad, t.zeroBlocks, t.entries, t.bytes, t.inFile, view t.ctx, t.log⟩

def readerView (view : κ → κ') (r : Reader ι κ) : Reader ι κ' :=
  ⟨r.inf, r.dictOfs, r.gz, r.gzBuf, r.gzFlags, r.extraLeft, r.hold, r.crc, r.rawLen, tarView view r.tar, r.err⟩

variable (h : GoesBy view cb cb')
include h

theorem call_view (t : Tar κ) (e : Event) : (tarView view t).call cb' e = (tarView view (t.call cb e).1, (t.call cb e).2) := by
  rw [Tar.call, show (tarView view t).ctx = view t.ctx from rfl, h]
  rfl

theorem notify_view (t : Tar κ) (e : Event) : (tarView view t).notify cb' e = (tarView view (t.notify cb e).1, (t.notify cb e).2) := by
  unfold Tar.notify
  rw [call_view h, show (tarView view t).inFile = t.inFile from rfl]
  split <;> rfl

theorem endEntry_view (t : Tar κ) : endEntry cb' (tarView view t) = (tarView view (endEntry cb t).1, (endEntry cb t).2) := by
  unfold endEntry
  rw [notify_view h]
  dsimp only
  split <;> rfl

theorem startEntry_view (t : Tar κ) (e : EntryHead) :
    startEntry cb' (tarView view t) e = (tarView view (startEntry cb t e).1, (startEntry cb t e).2) := by
  unfold startEntry
  have hcall := call_view h { t with entries := t.entries + 1 } e.event
  have hend := endEntry_view h ((({ t with entries := t.entries + 1 } : Tar κ).call cb e.event).1.opened e)
  rw [show ({ tarView view t with entries := (tarView view t).entries + 1 } : Tar κ') = tarView view { t with entries := t.entries + 1 } from rfl, hcall]
  dsimp only
  split
  · split
    · exact hend
    · rfl
  · rfl

theorem tarHeader_view (t : Tar κ) (b : List UInt8) :
    tarHeader cb' (tarView view t) b = (tarView view (tarHeader cb t b).1, (tarHeader cb t b).2) := by
  have hstart := startEntry_view h { t with zeroBlocks := 0 }
  unfold tarHeader
  split
  · rfl
  · cases parseHeader b with
    | error e => rfl
    | ok e => exact hstart e

theorem tarTurn_view (t : Tar κ) (p : List UInt8) :
    tarTurn cb' (tarView view t) p = (tarView view (tarTurn cb t p).1, (tarTurn cb t p).2) := by
  cases hs : t.stage with
  | hdr =>
    have hhead := tarHeader_view h { t with hdr := [] } (t.hdr ++ p.take (min (Ustar.tarBlock - t.hdr.length) p.length))
    rw [hs] at hhead
    rw [tarTurn, tarTurn, hs, show (tarView view t).stage = .hdr from hs]
    dsimp only
    rw [show (tarView view t).hdr = t.hdr from rfl]
    split
    · rfl
    · exact congrArg (fun r : Tar κ' × Err => (r.1, p.drop (min (Ustar.tarBlock - t.hdr.length) p.length), r.2)) hhead
  | data =>
    rw [tarTurn, tarTurn, hs, show (tarView view t).stage = .data from hs]
    dsimp only
    rw [notify_view h, show (tarView view t).pending = t.pending from rfl]
    generalize t.notify cb (.data (p.take (min t.pending p.length))) = r
    have hend := endEntry_view h { r.1 with pending := r.1.pending - min t.pending p.length }
    rw [show (tarView view r.1).pending = r.1.pending from rfl]
    split
    · rfl
    · split
      · exact congrArg (fun r : Tar κ' × Err => (r.1, p.drop (min t.pending p.length), r.2)) hend
      · rfl
  | pad =>
    rw [tarTurn, tarTurn, hs, show (tarView view t).stage = .pad from hs]
    rfl
  | fin =>
    rw [tarTurn, tarTurn, hs, show (tarView view t).stage = .fin from hs]

theorem tarTurns_view (fuel : Nat) (t : Tar κ) (p : List UInt8) :
    tarTurns cb' fuel (tarView view t) p = (tarView view (tarTurns cb fuel t p).1, (tarTurns cb fuel t p).2) := by
  induction fuel generalizing t p with
  | zero => rfl
  | succ fuel ih =>
    rw [tarTurns, tarTurns, tarTurn_view h, show (tarView view t).stage = t.stage from rfl]
    dsimp only
    split
    · rfl
    · split
      · rfl
      · exact ih _ _

theorem deliver_view (r : Reader ι κ) (out : List UInt8) : deliver cb' (readerView view r) out = readerView view (deliver cb r out) := by
  have hconsume : tarConsume cb' (readerView view r).tar out = (tarView view (tarConsume cb r.tar out).1, (tarConsume cb r.tar out).2) :=
    tarTurns_view h _ r.tar out
  unfold deliver
  rw [hconsume]
  split <;> rfl

theorem inflateTurns_view (more : Bool) (fuel : Nat) (r : Reader ι κ) (p : List UInt8) :
    inflateTurns I cb' more fuel (readerView view r) p =
      (readerView view (inflateTurns I cb more fuel r p).1, (inflateTurns I cb more fuel r p).2) := by
  induction fuel generalizing r p with
  | zero => rfl
  | succ fuel ih =>
    have hdeliver : ∀ (s : ι) (out : List UInt8), deliver cb' ({ readerView view r with inf := s } : Reader ι κ') out =
        readerView view (deliver cb { r with inf := s } out) :=
      fun s out => deliver_view h { r with inf := s } out
    rw [inflateTurns, inflateTurns]
    dsimp only
    rw [hdeliver, show (readerView view r).gz = r.gz from rfl, show (readerView view r).inf = r.inf from rfl,
      show (readerView view r).dictOfs = r.dictOfs from rfl]
    generalize I.decompress r.inf p (dictSize - r.dictOfs) more = c at *
    generalize deliver cb { r with inf := c.state } c.out = r' at *
    rw [show (readerView view r').err = r'.err from rfl]
    split
    · rfl
    · split
      · rfl
      · cases c.status with
        | done | failed => rfl
        | needsMoreInput | hasMoreOutput =>
          dsimp only
          split
          · rfl
          · exact ih _ _

theorem offer_view (r : Reader ι κ) (p : List UInt8) : offer I cb' (readerView view r) p = readerView view (offer I cb r p) := by
  have hsome : inflateSome I cb' true (readerView view r) p = (readerView view (inflateSome I cb true r p).1, (inflateSome I cb true r p).2) :=
    inflateTurns_view h true _ r p
  unfold offer
  rw [hsome]
  generalize inflateSome I cb true r p = c
  dsimp only
  rw [show (readerView view c.1).err = c.1.err from rfl, show (readerView view c.1).gz = c.1.gz from rfl]
  split
  · rfl
  · split
    · rfl
    · split <;> rfl

theorem feedBody_view (r : Reader ι κ) (p : List UInt8) : feedBody I cb' (readerView view r) p = readerView view (feedBody I cb r p) := by
  unfold feedBody
  rw [show (readerView view r).hold = r.hold from rfl]
  dsimp only
  rw [offer_view h, offer_view h]
  generalize offer I cb r (r.hold.take (min (r.hold.length + p.length - 8) r.hold.length)) = r₁
  generalize offer I cb r₁ (p.take _) = r₂
  rw [show (readerView view r₁).err = r₁.err from rfl, show (readerView view r₂).err = r₂.err from rfl]
  split
  · rfl
  · split
    · rfl
    · split <;> rfl

omit h in
theorem gzTurn_view (r : Reader ι κ) (c : UInt8) (cs : List UInt8) :
    gzTurn (readerView view r) c cs = (readerView view (gzTurn r c cs).1, (gzTurn r c cs).2) := by
  cases hs : r.gz with
  | fixed =>
    rw [gzTurn, gzTurn, hs, show (readerView view r).gz = _ from hs, show (readerView view r).gzBuf = r.gzBuf from rfl]
    dsimp only
    split
    · rfl
    · split <;> rfl
  | extraLen | fhcrc =>
    rw [gzTurn, gzTurn, hs, show (readerView view r).gz = _ from hs, show (readerView view r).gzBuf = r.gzBuf from rfl]
    dsimp only
    split <;> rfl
  | extra | fname | fcomment =>
    rw [gzTurn, gzTurn, hs, show (readerView view r).gz = _ from hs]
    rfl
  | deflate | footer => rw [gzTurn, gzTurn, hs, show (readerView view r).gz = _ from hs]

omit h in
theorem gzTurns_view (fuel : Nat) (r : Reader ι κ) (p : List UInt8) :
    gzTurns fuel (readerView view r) p = (readerView view (gzTurns fuel r p).1, (gzTurns fuel r p).2) := by
  induction fuel generalizing r p with
  | zero => rfl
  | succ fuel ih =>
    cases p with
    | nil => rfl
    | cons c cs =>
      rw [gzTurns, gzTurns, gzTurn_view, show (readerView view r).gz = r.gz from rfl]
      dsimp only
      rw [show (readerView view (gzTurn r c cs).1).err = (gzTurn r c cs).1.err from rfl]
      split
      · rfl
      · split
        · rfl
        · exact ih _ _

theorem feed_view (r : Reader ι κ) (data : List UInt8) :
    targzReaderFeed I cb' (readerView view r) data = readerView view (targzReaderFeed I cb r data) := by
  have hhead : gzHeader (readerView view r) data = (readerView view (gzHeader r data).1, (gzHeader r data).2) := gzTurns_view _ r data
  unfold targzReaderFeed
  rw [show (readerView view r).err = r.err from rfl, show (readerView view r).gz = r.gz from rfl, hhead]
  dsimp only
  rw [feedBody_view h, feedBody_view h, show (readerView view (gzHeader r data).1).err = (gzHeader r data).1.err from rfl,
    show (readerView view (gzHeader r data).1).gz = (gzHeader r data).1.gz from rfl]
  split
  · rfl
  · split
    · split <;> rfl
    · rfl

theorem finish_view (r : Reader ι κ) :
    targzReaderFinish I cb' (readerView view r) = (tarView view (targzReaderFinish I cb r).1, (targzReaderFinish I cb r).2) := by
  have hsome : inflateSome I cb' false (readerView view r) [] = (readerView view (inflateSome I cb false r []).1, (inflateSome I cb false r []).2) :=
    inflateTurns_view h false _ r []
  unfold targzReaderFinish
  rw [hsome, show (readerView view r).err = r.err from rfl, show (readerView view r).gz = r.gz from rfl]
  split <;> rfl

theorem extract_view (ctx : κ) (feeds : List (List UInt8)) :
    extract I cb' (view ctx) feeds = (tarView view (extract I cb ctx feeds).1, (extract I cb ctx feeds).2) := by
  have hfeeds : ∀ r : Reader ι κ, feeds.foldl (targzReaderFeed I cb') (readerView view r) = readerView view (feeds.foldl (targzReaderFeed I cb) r) := by
    induction feeds with
    | nil => exact fun r => rfl
    | cons c feeds ih =>
      intro r
      rw [foldl_cons, foldl_cons, feed_view h, ih]
  rw [extract, extract, show targzReaderOpen I (view ctx) = readerView view (targzReaderOpen I ctx) from rfl, hfeeds, finish_view h]

omit h in
/-- The callbacks that are made, the data of each entry, and the result are the same however
the bytes are cut. -/
theorem extract_cuts (S : Streaming I) (h : GoesBy view cb cb') (hcb : Smooth cb') (ctx : κ) {feeds feeds' : List (List UInt8)}
    (hsame : feeds.flatten = feeds'.flatten) :
    (extract I cb ctx feeds).2 = (extract I cb ctx feeds').2 ∧ (extract I cb ctx feeds).1.log = (extract I cb ctx feeds').1.log := by
  have heq : extract I cb' (view ctx) feeds = extract I cb' (view ctx) feeds' := by rw [extract_eq S hcb, extract_eq S hcb, hsame]
  rw [extract_view h, extract_view h] at heq
  obtain ⟨htar, herr⟩ := Prod.mk.inj heq
  have hlog := congrArg Tar.log htar
  exact ⟨herr, hlog⟩

end View

def counting (k : Nat) (_ : Event) : Nat × Bool := (k + 1, true)

/-- A member with a name field and two bytes of data. -/
theorem extract_cuts_name_field : (extract PairCode.inflater counting 0
        [[0x1f], [0x8b, 8, 8, 0, 0, 0, 0, 0], [0xff, 97], [], [98, 0, 1, 7, 1], [8, 0, 1, 2, 3, 4, 5, 6, 7, 8]]).2 =
        (extract PairCode.inflater counting 0
          [[0x1f, 0x8b, 8, 8, 0, 0, 0, 0, 0, 0xff, 97, 98, 0, 1, 7, 1, 8, 0, 1, 2, 3, 4, 5, 6, 7, 8]]).2 ∧
      (extract PairCode.inflater counting 0
        [[0x1f], [0x8b, 8, 8, 0, 0, 0, 0, 0], [0xff, 97], [], [98, 0, 1, 7, 1], [8, 0, 1, 2, 3, 4, 5, 6, 7, 8]]).1.log =
        (extract PairCode.inflater counting 0
          [[0x1f, 0x8b, 8, 8, 0, 0, 0, 0, 0, 0xff, 97, 98, 0, 1, 7, 1, 8, 0, 1, 2, 3, 4, 5, 6, 7, 8]]).1.log :=
  extract_cuts PairCode.streaming (show GoesBy (fun _ => ()) counting acceptAll from fun _ _ => rfl) smooth_acceptAll 0 rfl

/-- A sink with room for two bytes. -/
def twoBytes (k : Nat) : Event → Nat × Bool
  | .data d => (k + d.length, k + d.length ≤ 2)
  | _ => (k, true)

/-- The head of a member with a file `f` of six bytes, and its rest. -/
def fileHead : List UInt8 :=
  [0x1f, 0x8b, 8, 0, 0, 0, 0, 0, 0, 0xff] ++ PairCode.encode (sealHeader (poke (fillHeader 48 6 0) 0 (lit "f")))

def fileRest : List UInt8 := PairCode.encode (lit "abcdef") ++ replicate 9 0

set_option maxRecDepth 20000 in
/-- The sink refuses all of the data, or the third byte of it. -/
theorem sink_sees_cuts : [fileHead, fileRest].flatten = (fileHead :: fileRest.map fun b => [b]).flatten ∧
    (extract PairCode.inflater twoBytes 0 [fileHead, fileRest]).1.log = [.data (lit "abcdef"), .file (lit "f") 6] ∧
      (extract PairCode.inflater twoBytes 0 (fileHead :: fileRest.map fun b => [b])).1.log =
        [.data (lit "abc"), .file (lit "f") 6] := by
  refine ⟨by simp [← flatMap_def], ?_⟩
  decide +kernel

end Spangap.ReaderOutcome
