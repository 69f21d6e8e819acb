import Spangap.PairCode
import Spangap.ReaderOutcome
import Spangap.TarWriter

namespace Spangap.RoundTrip

open List Option Bytes CJson Ustar Codec Crc32 TarWriter

variable {size mtime : Nat} {name : Name} {h b z x : List UInt8} {i : Item} {feeds : List (List UInt8)}

def fitted (size : Nat) (body : List UInt8) : List UInt8 := (body ++ replicate size 0).take size

def padding (size : Nat) : Nat := (tarBlock - size % tarBlock) % tarBlock

def itemBytes : Item → List UInt8
  | .dir name mtime => (dirHeader name mtime).getD []
  | .file name size mtime body =>
    (fileHeader name size mtime).getD [] ++ (fitted size body.flatten ++ replicate (padding size) 0)

/-- The writer has a header for the entry. -/
def accepted : Item → Bool
  | .dir name mtime => (dirHeader name mtime).isSome
  | .file name size mtime _ => (fileHeader name size mtime).isSome

section Write

variable {ι δ : Type} {I : Inflater ι} {S : Streaming I} {D : Deflater δ} {sink : List UInt8 → List UInt8 → Bool}
  {L : Lossless S D}
  {w : Writer δ} {y : List UInt8}

def Owes (L : Lossless S D) (w : Writer δ) (y : List UInt8) : Prop :=
  ∃ x, Written L w x ∧ x ++ replicate (w.pending + w.pad) 0 = y

theorem finishEntry_owes (hsink : ∀ a b, sink a b = true) (h : Owes L w y) : Adds L [] y 0 0 (finishEntry D sink w) := by
  obtain ⟨x, hw, rfl⟩ := h
  obtain ⟨hs, hw', hp, hpad⟩ := finishEntry_adds hsink hw
  exact ⟨hs, hw', hp, hpad⟩

def Filling (L : Lossless S D) (base : List UInt8) (size : Nat) (w : Writer δ) (b : List UInt8) : Prop :=
  size ≤ b.length ∧ w.pending = 0 ∧ w.pad = 0 ∧ Written L w (base ++ (b.take size ++ replicate (padding size) 0)) ∨
    w.pending ≠ 0 ∧ w.pending + b.length = size ∧ w.pad = padding size ∧ Written L w (base ++ b)

theorem filling_start (hw : Written L w y) (size : Nat) : Filling L y size { w with pending := size, pad := padding size } [] := by
  by_cases hzero : size = 0
  · subst hzero
    refine .inl ⟨le_refl 0, rfl, rfl, ?_⟩
    have hempty : List.take 0 ([] : List UInt8) ++ replicate (padding 0) 0 = [] := rfl
    rw [hempty, append_nil]
    exact hw.counters _ _
  · refine .inr ⟨hzero, rfl, rfl, ?_⟩
    rw [append_nil]
    exact hw.counters _ _

section

variable (hsink : ∀ a b, sink a b = true)
include hsink

theorem data_full (hfull : size ≤ b.length) (hpending : w.pending = 0) (hpad : w.pad = 0)
    (hw : Written L w (y ++ (b.take size ++ replicate (padding size) 0))) (d : List UInt8) :
    Filling L y size (targzWriterData D sink w d).1 (b ++ d) := by
  have hraw := writeRaw_adds hsink hw (d.take w.pending)
  have hwr := hraw.written
  unfold targzWriterData
  rw [if_neg (by rw [hw.ok]; simp)]
  dsimp only
  rw [andThen_success hraw.success]
  generalize writeRaw D sink w (d.take w.pending) = r at *
  rw [hpending, take_zero, append_nil] at hwr
  rw [if_neg (fun hno => hno.2 (hraw.pad.trans hpad))]
  refine .inl ⟨?_, ?_, hraw.pad.trans hpad, ?_⟩
  · rw [length_append]
    omega
  · dsimp only
    rw [hraw.pending, hpending, Nat.zero_sub]
  · rw [take_append_of_le_length hfull]
    exact hwr.counters _ _

theorem data_open (hsum : w.pending + b.length = size) (hpad : w.pad = padding size)
    (hw : Written L w (y ++ b)) (d : List UInt8) : Filling L y size (targzWriterData D sink w d).1 (b ++ d) := by
  have hraw := writeRaw_adds hsink hw (d.take w.pending)
  unfold targzWriterData
  rw [if_neg (by rw [hw.ok]; simp)]
  dsimp only
  rw [andThen_success hraw.success]
  generalize writeRaw D sink w (d.take w.pending) = r at *
  have hwr : Written L r.1 (y ++ (b ++ d.take w.pending)) := append_assoc y b _ ▸ hraw.written
  have hlen : (d.take w.pending).length = min w.pending d.length := length_take
  rcases Nat.lt_or_ge d.length w.pending with hless | hmore
  · have hleft : r.1.pending - (d.take w.pending).length = w.pending - d.length := by
      rw [hraw.pending, hlen, min_eq_right (le_of_lt hless)]
    rw [hleft, if_neg (fun hno => by omega)]
    refine .inr ⟨?_, ?_, hraw.pad.trans hpad, ?_⟩
    · dsimp only
      omega
    · dsimp only
      rw [length_append]
      omega
    · rw [take_of_length_le (le_of_lt hless)] at hwr
      exact hwr.counters _ _
  · have hzero : r.1.pending - (d.take w.pending).length = 0 := by
      rw [hraw.pending, hlen]
      omega
    have hcut : (b ++ d).take size = b ++ d.take w.pending := by
      rw [take_append, take_of_length_le (by omega), show size - b.length = w.pending by omega]
    have henough : size ≤ (b ++ d).length := by
      rw [length_append]
      omega
    rw [hzero]
    split
    · have hzeros := writeZeros_adds hsink (hwr.counters 0 r.1.pad) r.1.pad
      rw [andThen_success hzeros.success]
      generalize writeZeros D sink { r.1 with pending := 0 } r.1.pad = r' at *
      refine .inl ⟨henough, hzeros.pending, rfl, ?_⟩
      have hdone := hzeros.written.counters r'.1.pending 0
      rw [append_assoc, hraw.pad, hpad] at hdone
      rw [hcut]
      exact hdone
    next hno =>
      have hnopad : r.1.pad = 0 := Decidable.byContradiction fun hne => hno ⟨rfl, hne⟩
      refine .inl ⟨henough, rfl, hnopad, ?_⟩
      rw [hcut, ← hpad, ← hraw.pad, hnopad, replicate_zero, append_nil]
      exact hwr.counters _ _

theorem data_filling (h : Filling L y size w b) (d : List UInt8) :
    Filling L y size (targzWriterData D sink w d).1 (b ++ d) := by
  rcases h with ⟨hfull, hpending, hpad, hw⟩ | ⟨-, hsum, hpad, hw⟩
  · exact data_full hsink hfull hpending hpad hw d
  · exact data_open hsink hsum hpad hw d

theorem body_filling (body : List (List UInt8)) (h : Filling L y size w b) :
    Filling L y size (body.foldl (fun w d => (targzWriterData D sink w d).1) w) (b ++ body.flatten) := by
  induction body generalizing w b with
  | nil => rwa [flatten_nil, append_nil]
  | cons d body ih =>
    rw [flatten_cons, ← append_assoc]
    exact ih (data_filling hsink h d)

end

theorem Filling.owes (h : Filling L y size w b) : Owes L w (y ++ (fitted size b ++ replicate (padding size) 0)) := by
  rcases h with ⟨hfull, hpending, hpad, hw⟩ | ⟨-, hsum, hpad, hw⟩
  · refine ⟨_, hw, ?_⟩
    rw [hpending, hpad, fitted, take_append_of_le_length hfull]
    exact append_nil _
  · refine ⟨_, hw, ?_⟩
    rw [fitted, take_append, take_of_length_le (by omega), take_replicate, Nat.min_eq_left (by omega), hpad,
      show size - b.length = w.pending by omega, append_assoc, append_assoc, replicate_append_replicate]

theorem addItem_owes (hsink : ∀ a b, sink a b = true) (h : Owes L w y) (hi : accepted i = true) :
    Owes L (addItem D sink w i) (y ++ itemBytes i) := by
  have hfin := finishEntry_owes hsink h
  have hok : w.ok = true := by
    obtain ⟨x, hw, -⟩ := h
    exact hw.ok
  cases i with
  | dir name mtime =>
    obtain ⟨g, hg⟩ := isSome_iff_exists.mp hi
    have hraw := writeRaw_adds hsink hfin.written g
    rw [addItem, targzWriterAddDir, if_neg (by rw [hok]; simp), andThen_success hfin.success, hg, itemBytes, hg]
    refine ⟨_, hraw.written, ?_⟩
    rw [hraw.pending, hraw.pad, hfin.pending, hfin.pad]
    exact append_nil _
  | file name size mtime body =>
    obtain ⟨g, hg⟩ := isSome_iff_exists.mp hi
    have hraw := writeRaw_adds hsink hfin.written g
    rw [addItem, targzWriterAddFile, if_neg (by rw [hok]; simp), andThen_success hfin.success, hg, itemBytes, hg]
    dsimp only
    rw [andThen_success hraw.success]
    have hstart := (body_filling hsink body (filling_start hraw.written size)).owes
    rw [nil_append, nil_append, append_assoc] at hstart
    exact hstart

theorem items_owe (hsink : ∀ a b, sink a b = true) (items : List Item) (h : Owes L w y) (hitems : ∀ i ∈ items, accepted i = true) :
    Owes L (items.foldl (addItem D sink) w) (y ++ items.flatMap itemBytes) := by
  induction items generalizing w y with
  | nil => rwa [flatMap_nil, append_nil]
  | cons i items ih =>
    rw [flatMap_cons, ← append_assoc]
    exact ih (addItem_owes hsink h (hitems i mem_cons_self)) fun j hj => hitems j (mem_cons_of_mem i hj)

def image (items : List Item) : List UInt8 := items.flatMap itemBytes ++ replicate (2 * tarBlock) 0

def footer (x : List UInt8) : List UInt8 := leBytes 4 (crc32 0 x).toNat ++ leBytes 4 x.length

theorem close_owes (hsink : ∀ a b, sink a b = true) (h : Owes L w y) :
    ∃ z, S.Whole z (y ++ replicate (2 * tarBlock) 0) ∧ (targzWriterClose D sink w).2 = true ∧
      (targzWriterClose D sink w).1.sent = gzHeader ++ (z ++ footer (y ++ replicate (2 * tarBlock) 0)) := by
  have hfin := finishEntry_owes hsink h
  have hok : w.ok = true := by
    obtain ⟨x, hw, -⟩ := h
    exact hw.ok
  rw [targzWriterClose, if_neg (by rw [hok]; simp), andThen_success hfin.success]
  have hzeros := writeZeros_adds hsink hfin.written (2 * tarBlock)
  rw [andThen_success hzeros.success]
  generalize writeZeros D sink (finishEntry D sink w).1 (2 * tarBlock) = r at *
  have hw := hzeros.written
  rw [nil_append] at hw
  obtain ⟨z, hrep, hsent⟩ := hw.rep
  obtain ⟨s, z', hrun, hwhole⟩ := deflate_close hsink (D.credit r.1.comp + (D.rate + 1) * 0 + 1) hrep (by omega)
  rw [deflateRun, length_nil, hrun, andThen_success rfl]
  refine ⟨z ++ z', hwhole, hsink _ _, ?_⟩
  rw [hsent, hw.crc, hw.rawLen, footer]
  simp

/-- The bytes of an archive: the fixed header, a stream that stands for the image, its checksum
and its length. -/
theorem archive_eq (hsink : ∀ a b, sink a b = true) (L : Lossless S D) (items : List Item) (hitems : ∀ i ∈ items, accepted i = true) :
    ∃ z, S.Whole z (image items) ∧ archive D sink items = some (gzHeader ++ (z ++ footer (image items))) := by
  have hopen : Owes L (⟨D.init, 0, 0, 0, 0, true, gzHeader⟩ : Writer δ) [] :=
    ⟨[], ⟨rfl, (crc32_nil 0).symm, rfl, [], L.init, (append_nil _).symm⟩, rfl⟩
  obtain ⟨z, hwhole, hyes, hsent⟩ := close_owes hsink (items_owe hsink items hopen hitems)
  refine ⟨z, hwhole, ?_⟩
  rw [archive, targzWriterOpen, if_pos (hsink _ _), bind_some]
  rw [if_pos hyes, hsent]
  rfl

end Write

section Read

open TarReader

variable {κ : Type} {cb : κ → Event → κ × Bool} {t : Tar κ}

def itemEvents : Item → List Event
  | .dir name _ => [.dir name]
  | .file name size _ body => .file name size :: ((if size = 0 then [] else [.data (fitted size body.flatten)]) ++ [.fileEnd])

/-- A C string without a leading slash and without empty and `..` components. -/
structure Named (name : Name) : Prop where
  nul : 0 ∉ name
  relative : Relative name

/-- An entry that the writer accepts under a name of a safe shape. -/
def Good : Item → Prop
  | .dir name mtime => Named name ∧ accepted (.dir name mtime) = true
  | .file name size mtime body => Named name ∧ size < 2 ^ 32 ∧ accepted (.file name size mtime body) = true

theorem Good.accepted {i : Item} (h : Good i) : accepted i = true := by
  cases i with
  | dir name mtime => exact h.2
  | file name size mtime body => exact h.2.2

structure Between (t : Tar κ) : Prop where
  stage : t.stage = .hdr
  hdr : t.hdr = []
  inFile : t.inFile = false
  zeroBlocks : t.zeroBlocks = 0

theorem consume_exact (hcb : Smooth cb) (ht : Ready t) (hfin : t.stage ≠ .fin) {a : List UInt8} (ha : t.want = a.length) (rest : List UInt8) :
    tarConsume cb t (a ++ rest) =
      if (complete cb t a).2 ≠ .ok then complete cb t a else tarConsume cb (complete cb t a).1 rest := by
  rw [consume_ge hcb ht hfin (by rw [ha, length_append]; omega), ha, take_left, drop_left]

theorem consume_header (hcb : Smooth cb) (hstage : t.stage = .hdr) (hhdr : t.hdr = []) (hlen : h.length = 512) (rest : List UInt8) :
    tarConsume cb t (h ++ rest) = if (tarHeader cb t h).2 ≠ .ok then tarHeader cb t h else tarConsume cb (tarHeader cb t h).1 rest := by
  have hready : Ready t :=
    ⟨by rw [hhdr]; decide, fun hs => absurd (hstage.symm.trans hs) (by simp), fun hs => absurd (hstage.symm.trans hs) (by simp)⟩
  have hwant : t.want = h.length := by
    rw [Tar.want, hstage, hhdr, hlen]
    rfl
  have hcomplete : complete cb t h = tarHeader cb t h := by
    have hself : ({ t with hdr := [] } : Tar κ) = t := by rw [← hhdr]
    rw [complete, hstage]
    dsimp only
    rw [hhdr, nil_append, hstage.symm, hself]
  rw [consume_exact hcb hready (by rw [hstage]; simp) hwant, hcomplete]

theorem rdropWhile_relative (h : Relative name) : name.rdropWhile (· = 47) = name := by
  rw [rdropWhile_eq_self_iff]
  intro hne hlast
  refine h.getLast_ne ?_
  rw [getLast?_eq_some_getLast hne]
  exact congrArg some (of_decide_eq_true hlast)

theorem parse_file (hd : Describes h name size 48) (hrel : Relative name) (hlen : name.length ≤ 256) :
    parseHeader h = if name.length < 256 then .ok ⟨false, name, size⟩ else .error .notSafe := by
  have hsafe := safe_iff hrel
  unfold parseHeader
  rw [if_neg (not_not.mpr hd.chksum), hd.path, hd.type, hd.size]
  dsimp only
  rw [rdropWhile_relative hrel, if_neg (by omega)]
  split
  next hno => simp at hno
  · by_cases hshort : name.length < 256
    · rw [if_neg (by rw [hsafe.mpr hshort]; simp), if_pos hshort]
      simp
    · rw [if_pos (by simpa using mt hsafe.mp hshort), if_neg hshort]

theorem parse_dir (hd : Describes h (name ++ [47]) 0 53) (hrel : Relative name) (hlen : name.length < 256) :
    parseHeader h = .ok ⟨true, name, 0⟩ := by
  have hdrop : (name ++ [47]).rdropWhile (· = 47) = name := by
    rw [rdropWhile_concat_pos _ _ _ (by simp), rdropWhile_relative hrel]
  unfold parseHeader
  rw [if_neg (not_not.mpr hd.chksum), hd.path, hd.type, hd.size]
  dsimp only
  rw [hdrop, if_neg (by rw [length_append, length_singleton]; omega), if_neg (by simp), if_neg (by simp [(safe_iff hrel).mpr hlen])]
  simp

theorem endEntry_outside (h : t.inFile = false) (hpad : t.pad = 0) : endEntry cb t = ({ t with stage := .hdr }, .ok) := by
  have hquiet : t.notify cb .fileEnd = (t, true) := if_neg (by simp [h])
  have hself : ({ t with inFile := false, stage := .hdr } : Tar κ) = { t with stage := .hdr } := by rw [← h]
  rw [endEntry, hquiet]
  rw [if_pos rfl, if_pos hpad, hself]

theorem endEntry_inside (hyes : ∀ k e, (cb k e).2 = true) (h : t.inFile = true) : endEntry cb t =
      ({ t with inFile := false, stage := if t.pad = 0 then .hdr else .pad, ctx := (cb t.ctx .fileEnd).1, log := .fileEnd :: t.log }, .ok) := by
  have hcall : t.notify cb .fileEnd = t.call cb .fileEnd := if_pos h
  rw [endEntry, hcall, Tar.call, record_other (by simp)]
  rw [if_pos (hyes _ _)]

def announced (cb : κ → Event → κ × Bool) (t : Tar κ) (e : EntryHead) : Tar κ :=
  (({ t with zeroBlocks := 0, entries := t.entries + 1 } : Tar κ).call cb e.event).1.opened e

theorem announced_log (cb : κ → Event → κ × Bool) (t : Tar κ) (e : EntryHead) : (announced cb t e).log = e.event :: t.log := by
  refine record_other (fun d hd => ?_) t.log
  unfold EntryHead.event at hd
  split at hd <;> cases hd

theorem announced_empty (cb : κ → Event → κ × Bool) (t : Tar κ) (isDir : Bool) (name : Name) : (announced cb t ⟨isDir, name, 0⟩).pad = 0 := by
  show (tarBlock - 0 % tarBlock) % tarBlock = 0
  decide

theorem tarHeader_ok (hyes : ∀ k e, (cb k e).2 = true) (t : Tar κ) {e : EntryHead} (hzero : h.all (· = 0) = false)
    (hparse : parseHeader h = .ok e) :
    tarHeader cb t h = if e.size = 0 then endEntry cb (announced cb t e) else ({ announced cb t e with stage := .data }, .ok) := by
  unfold tarHeader
  rw [if_neg (by rw [hzero]; simp), hparse]
  exact if_pos (hyes _ _)

theorem header_dir (hyes : ∀ k e, (cb k e).2 = true) (ht : Between t) (hd : Describes h (name ++ [47]) 0 53) (hrel : Relative name)
    (hlen : name.length < 256) :
    (tarHeader cb t h).2 = .ok ∧ Between (tarHeader cb t h).1 ∧ (tarHeader cb t h).1.log = .dir name :: t.log := by
  have hout : (announced cb t ⟨true, name, 0⟩).inFile = false := by
    show (t.inFile || !true) = false
    rw [ht.inFile]
    rfl
  rw [tarHeader_ok hyes t (hd.not_zero (by decide)) (parse_dir hd hrel hlen), if_pos rfl,
    endEntry_outside hout (announced_empty cb t true name)]
  exact ⟨rfl, ⟨rfl, ht.hdr, hout, rfl⟩, announced_log cb t _⟩

theorem header_empty (hyes : ∀ k e, (cb k e).2 = true) (ht : Between t) (hd : Describes h name 0 48) (hrel : Relative name)
    (hlen : name.length < 256) :
    (tarHeader cb t h).2 = .ok ∧ Between (tarHeader cb t h).1 ∧ (tarHeader cb t h).1.log = .fileEnd :: .file name 0 :: t.log := by
  have hparse : parseHeader h = .ok ⟨false, name, 0⟩ := (parse_file hd hrel (by omega)).trans (if_pos hlen)
  have hin : (announced cb t ⟨false, name, 0⟩).inFile = true := Bool.or_true _
  rw [tarHeader_ok hyes t (hd.not_zero (by decide)) hparse, if_pos rfl, endEntry_inside hyes hin,
    if_pos (announced_empty cb t false name)]
  exact ⟨rfl, ⟨rfl, ht.hdr, rfl, rfl⟩, congrArg (Event.fileEnd :: ·) (announced_log cb t _)⟩

/-- In the entry of the file that was announced last. -/
structure Inside (t : Tar κ) (size : Nat) : Prop where
  stage : t.stage = .data
  hdr : t.hdr = []
  inFile : t.inFile = true
  zeroBlocks : t.zeroBlocks = 0
  pending : t.pending = size
  pad : t.pad = padding size
  some : 0 < size

theorem header_file (hyes : ∀ k e, (cb k e).2 = true) (ht : Between t) (hd : Describes h name size 48) (hrel : Relative name)
    (hlen : name.length < 256) (hsize : size < 2 ^ 32) (hpos : 0 < size) :
    (tarHeader cb t h).2 = .ok ∧ Inside (tarHeader cb t h).1 size ∧ (tarHeader cb t h).1.log = .file name size :: t.log := by
  have hparse : parseHeader h = .ok ⟨false, name, size⟩ := (parse_file hd hrel (by omega)).trans (if_pos hlen)
  have hevent : (⟨false, name, size⟩ : EntryHead).event = .file name size := congrArg (Event.file name) (Nat.mod_eq_of_lt hsize)
  rw [tarHeader_ok hyes t (hd.not_zero (by decide)) hparse, if_neg (Nat.pos_iff_ne_zero.mp hpos)]
  exact ⟨rfl, ⟨rfl, ht.hdr, Bool.or_true _, rfl, rfl, rfl, hpos⟩, hevent ▸ announced_log cb t _⟩

theorem header_long (cb : κ → Event → κ × Bool) (t : Tar κ) (hd : Describes h name size 48) (hrel : Relative name)
    (hlen : name.length = 256) : (tarHeader cb t h).2 = .notSafe := by
  unfold tarHeader
  rw [if_neg (by rw [hd.not_zero (by decide)]; simp), parse_file hd hrel (by omega), if_neg (by omega)]

theorem consume_body (hcb : Smooth cb) (hyes : ∀ k e, (cb k e).2 = true) (ht : Inside t size) {d : List UInt8}
    (hd : d.length = size) {l : List Event} (hlog : t.log = l) (hhead : ∀ a, l.head? ≠ some (.data a)) :
    ∃ t' : Tar κ, Between t' ∧ t'.log = .fileEnd :: .data d :: l ∧
      ∀ rest, tarConsume cb t (d ++ (replicate (padding size) 0 ++ rest)) = tarConsume cb t' rest := by
  have hready : Ready t := ⟨by rw [ht.hdr]; decide, fun _ => ht.pending ▸ ht.some, fun hs => absurd (ht.stage.symm.trans hs) (by simp)⟩
  have hrecord : record t.log (.data d) = .data d :: l := by
    rw [hlog]
    cases l with
    | nil => rfl
    | cons e l =>
      cases e with
      | data a => exact absurd rfl (hhead a)
      | dir | file | fileEnd => rfl
  have hcall : t.notify cb (.data d) = t.call cb (.data d) := if_pos ht.inFile
  obtain ⟨t₁, ht₁, hstage, hhdr, hin, hzero, hpad, hlog₁⟩ : ∃ t₁ : Tar κ, complete cb t d = (t₁, .ok) ∧
      t₁.stage = (if padding size = 0 then .hdr else .pad) ∧ t₁.hdr = [] ∧ t₁.inFile = false ∧ t₁.zeroBlocks = 0 ∧ t₁.pad = padding size ∧
        t₁.log = .fileEnd :: .data d :: l := by
    rw [complete, ht.stage]
    have hin : ({ (t.call cb (.data d)).1 with pending := 0 } : Tar κ).inFile = true := ht.inFile
    rw [hcall, endEntry_inside hyes hin]
    exact ⟨_, rfl, by rw [← ht.pad]; rfl, ht.hdr, rfl, ht.zeroBlocks, ht.pad, congrArg (Event.fileEnd :: ·) hrecord⟩
  have hconsume : ∀ rest, tarConsume cb t (d ++ rest) = tarConsume cb t₁ rest := by
    intro rest
    rw [consume_exact hcb hready (by rw [ht.stage]; simp) (by rw [Tar.want, ht.stage, hd]; exact ht.pending), ht₁]
    exact if_neg (by simp)
  by_cases hnone : padding size = 0
  · refine ⟨t₁, ⟨hstage.trans (if_pos hnone), hhdr, hin, hzero⟩, hlog₁, fun rest => ?_⟩
    rw [hconsume, hnone]
    rfl
  · have hstage' : t₁.stage = .pad := hstage.trans (if_neg hnone)
    have hready₁ : Ready t₁ :=
      ⟨by rw [hhdr]; decide, fun hs => absurd (hstage'.symm.trans hs) (by simp), fun _ => hpad ▸ Nat.pos_of_ne_zero hnone⟩
    refine ⟨{ t₁ with pad := 0, stage := .hdr }, ⟨rfl, hhdr, hin, hzero⟩, hlog₁, fun rest => ?_⟩
    have hwant : t₁.want = (replicate (padding size) (0 : UInt8)).length := by
      rw [Tar.want, hstage', length_replicate]
      exact hpad
    rw [hconsume, consume_exact hcb hready₁ (by rw [hstage']; simp) hwant, complete, hstage']
    exact if_neg (by simp)

theorem fitted_length (size : Nat) (body : List UInt8) : (fitted size body).length = size := by
  rw [fitted, length_take, length_append, length_replicate]
  omega

/-- An entry that the reader has room for. -/
def Short : Item → Prop
  | .dir _ _ => True
  | .file name _ _ _ => name.length < 256

instance : (i : Item) → Decidable (Short i)
  | .dir _ _ => .isTrue trivial
  | .file name _ _ _ => inferInstanceAs (Decidable (name.length < 256))

theorem dir_describes (hname : Named name) (h : accepted (.dir name mtime) = true) :
    ∃ hdr, dirHeader name mtime = some hdr ∧ name.length < 256 ∧ Describes hdr (name ++ [47]) 0 53 := by
  obtain ⟨hdr, hhdr⟩ := isSome_iff_exists.mp h
  refine ⟨hdr, hhdr, ?_⟩
  unfold dirHeader at hhdr
  split at hhdr
  · simp at hhdr
  next hlen =>
    obtain ⟨g, hset, rfl⟩ := map_eq_some_iff.mp hhdr
    have hhead : (name ++ [47]).head? ≠ some 47 := by
      cases name with
      | nil => exact absurd hname.relative not_relative_nil
      | cons b name => exact hname.relative.head_ne
    have hzero : (0 : UInt8) ∉ name ++ [47] := by simpa using hname.nul
    rw [length_append] at hlen
    exact ⟨by omega, describes_sealed hset (by decide) hzero hhead⟩

theorem file_describes {body : List (List UInt8)} (hname : Named name) (hsize : size < 2 ^ 32)
    (h : accepted (.file name size mtime body) = true) :
    ∃ hdr, fileHeader name size mtime = some hdr ∧ name.length ≤ 256 ∧ Describes hdr name size 48 := by
  obtain ⟨hdr, hhdr⟩ := isSome_iff_exists.mp h
  refine ⟨hdr, hhdr, ?_⟩
  obtain ⟨g, hset, rfl⟩ := map_eq_some_iff.mp hhdr
  obtain ⟨hblank, -, -⟩ := fillHeader_spec 48 size mtime
  obtain ⟨-, -, hlen, -⟩ := setEntryName_spec hblank hname.nul hname.relative.head_ne hset
  exact ⟨hlen, describes_sealed hset hsize hname.nul hname.relative.head_ne⟩

theorem consume_long (hcb : Smooth cb) (ht : Between t) (hi : Good i) (hlong : ¬ Short i) (rest : List UInt8) :
    (tarConsume cb t (itemBytes i ++ rest)).2 = .notSafe := by
  cases i with
  | dir name mtime => exact absurd trivial hlong
  | file name size mtime body =>
    obtain ⟨hname, hsize, hacc⟩ := hi
    obtain ⟨hdr, hhdr, hlen, hd⟩ := file_describes hname hsize hacc
    have hfull : name.length = 256 := le_antisymm hlen (Nat.not_lt.mp hlong)
    have hbad := header_long cb t hd hname.relative hfull
    rw [itemBytes, hhdr, getD_some, append_assoc, consume_header hcb ht.stage ht.hdr hd.length, if_pos (by rw [hbad]; simp), hbad]

section Accepting

variable (hcb : Smooth cb) (hyes : ∀ k e, (cb k e).2 = true)

include hcb hyes

theorem consume_item (ht : Between t) (hi : Good i) (hshort : Short i) :
    ∃ t' : Tar κ, Between t' ∧ t'.log = (itemEvents i).reverse ++ t.log ∧
      ∀ rest, tarConsume cb t (itemBytes i ++ rest) = tarConsume cb t' rest := by
  cases i with
  | dir name mtime =>
    obtain ⟨hdr, hhdr, hlen, hd⟩ := dir_describes hi.1 hi.2
    obtain ⟨hok, hnext, hlog⟩ := header_dir hyes ht hd hi.1.relative hlen
    refine ⟨_, hnext, hlog, fun rest => ?_⟩
    rw [itemBytes, hhdr, getD_some, consume_header hcb ht.stage ht.hdr hd.length, if_neg (not_not.mpr hok)]
  | file name size mtime body =>
    obtain ⟨hname, hsize, hacc⟩ := hi
    obtain ⟨hdr, hhdr, -, hd⟩ := file_describes hname hsize hacc
    rw [itemBytes, hhdr, getD_some, itemEvents]
    rcases Nat.eq_zero_or_pos size with rfl | hpos
    · obtain ⟨hok, hnext, hlog⟩ := header_empty hyes ht hd hname.relative hshort
      refine ⟨_, hnext, hlog, fun rest => ?_⟩
      rw [append_assoc, consume_header hcb ht.stage ht.hdr hd.length, if_neg (not_not.mpr hok)]
      rfl
    · obtain ⟨hok, hin, hlog⟩ := header_file hyes ht hd hname.relative hshort hsize hpos
      obtain ⟨t', hnext, hlog', hrest⟩ := consume_body hcb hyes hin (fitted_length size body.flatten) hlog (by simp)
      refine ⟨t', hnext, ?_, fun rest => ?_⟩
      · rw [hlog', if_neg (Nat.pos_iff_ne_zero.mp hpos)]
        rfl
      · rw [append_assoc, append_assoc, consume_header hcb ht.stage ht.hdr hd.length, if_neg (not_not.mpr hok), hrest]

theorem consume_items (items : List Item) (ht : Between t) (hgood : ∀ i ∈ items, Good i)
    (hshort : ∀ i ∈ items, Short i) : ∃ t' : Tar κ, Between t' ∧ t'.log = (items.flatMap itemEvents).reverse ++ t.log ∧
      ∀ rest, tarConsume cb t (items.flatMap itemBytes ++ rest) = tarConsume cb t' rest := by
  induction items generalizing t with
  | nil => exact ⟨t, ht, rfl, fun _ => rfl⟩
  | cons i items ih =>
    obtain ⟨t₁, ht₁, hlog₁, hrest₁⟩ := consume_item hcb hyes ht (hgood i mem_cons_self) (hshort i mem_cons_self)
    obtain ⟨t₂, ht₂, hlog₂, hrest₂⟩ :=
      ih ht₁ (fun j hj => hgood j (mem_cons_of_mem i hj)) fun j hj => hshort j (mem_cons_of_mem i hj)
    refine ⟨t₂, ht₂, ?_, fun rest => ?_⟩
    · rw [hlog₂, hlog₁, flatMap_cons, reverse_append, append_assoc]
    · rw [flatMap_cons, append_assoc, hrest₁, hrest₂]

theorem consume_items_long (items : List Item) (ht : Between t) (hgood : ∀ i ∈ items, Good i)
    (hlong : ¬ ∀ i ∈ items, Short i) (rest : List UInt8) :
    (tarConsume cb t (items.flatMap itemBytes ++ rest)).2 = .notSafe := by
  induction items generalizing t with
  | nil => exact absurd nofun hlong
  | cons i items ih =>
    have hi := hgood i mem_cons_self
    rw [flatMap_cons, append_assoc]
    by_cases hshort : Short i
    · obtain ⟨t₁, ht₁, -, hrest₁⟩ := consume_item hcb hyes ht hi hshort
      have hlong' : ¬ ∀ j ∈ items, Short j := fun hall => hlong (forall_mem_cons.mpr ⟨hshort, hall⟩)
      rw [hrest₁]
      exact ih ht₁ (fun j hj => hgood j (mem_cons_of_mem i hj)) hlong'
    · exact consume_long hcb ht hi hshort _

end Accepting

theorem consume_end (hcb : Smooth cb) (ht : Between t) :
    tarConsume cb t (replicate (2 * tarBlock) 0) = ({ t with zeroBlocks := 2, stage := .fin }, .ok) := by
  have hsplit : replicate (2 * tarBlock) (0 : UInt8) = replicate 512 0 ++ (replicate 512 0 ++ []) := by
    rw [append_nil, replicate_append_replicate]
    rfl
  have hzero : (replicate 512 (0 : UInt8)).all (· = 0) = true := by
    rw [List.all_eq_true]
    intro b hb
    rw [eq_of_mem_replicate hb]
    rfl
  have hfirst : tarHeader cb t (replicate 512 0) = ({ t with zeroBlocks := 1 }, .ok) := by
    rw [tarHeader, if_pos hzero, ht.zeroBlocks]
    rfl
  have hsecond : tarHeader cb { t with zeroBlocks := 1 } (replicate 512 0) = ({ t with zeroBlocks := 2, stage := .fin }, .ok) := by
    rw [tarHeader, if_pos hzero]
    rfl
  have hlast := consume_header hcb (t := { t with zeroBlocks := 1 }) ht.stage ht.hdr (length_replicate (n := 512) (a := 0)) []
  rw [hsecond, if_neg (by simp), consume_nil] at hlast
  rw [hsplit, consume_header hcb ht.stage ht.hdr length_replicate, hfirst, if_neg (by simp)]
  exact hlast

theorem between_fresh (ctx : κ) : Between (GzReader.freshTar ctx) := ⟨rfl, rfl, rfl, rfl⟩

end Read

section Outcome

open TarReader GzReader ReaderCuts ReaderOutcome

variable {ι κ δ : Type} {I : Inflater ι} {S : Streaming I} {cb : κ → Event → κ × Bool} {t : Tar κ}

theorem header_fixed (I : Inflater ι) (ctx : κ) :
    GzReader.gzHeader (targzReaderOpen I ctx) TarWriter.gzHeader = ({ targzReaderOpen I ctx with gz := .deflate }, []) := by
  simp [GzReader.gzHeader, gzTurns, gzTurn, TarWriter.gzHeader, targzReaderOpen, afterFixed, afterExtra, afterName, afterComment]

theorem outcome_header (S : Streaming I) (cb : κ → Event → κ × Bool) (ctx : κ) (y : List UInt8) :
    outcome S cb ctx (TarWriter.gzHeader ++ y) = bodyOutcome S cb (freshTar ctx) y := by
  have hready : HeadReady (targzReaderOpen I ctx : Reader ι κ) := fun hs => absurd hs (by simp [targzReaderOpen])
  have hhead := header_append hready rfl TarWriter.gzHeader y
  rw [header_fixed, if_pos (show Headed _ from .inr (.inl rfl)), nil_append] at hhead
  unfold outcome
  rw [hhead]
  rfl

theorem whole_outcome (hcb : Smooth cb) (ht : Ready t) {foot : List UInt8} (hz : S.Whole z x) (hfoot : foot.length = 8) :
    bodyOutcome S cb t (z ++ foot) =
      ((tarConsume cb t x).1, if (tarConsume cb t x).2 ≠ .ok then (tarConsume cb t x).2 else footerCheck (tarConsume cb t x).1 foot x) := by
  have hlen : (z ++ foot).length - 8 = z.length := by
    rw [length_append, hfoot, Nat.add_sub_cancel]
  unfold bodyOutcome
  rw [hlen, take_left, drop_left]
  rcases hz with ⟨hdone, rfl⟩ | ⟨hwants, hdone, rfl⟩
  · rw [if_neg (by rw [hdone]; simp), settle, hdone]
  · -- What was put out before the end was known is a part of it all.
    obtain ⟨w, hw⟩ := S.grows false z [] hwants
    rw [append_nil] at hw
    have hall := consume_append hcb ht (S.plain true z) w
    rw [hw] at hall
    by_cases hok : (tarConsume cb t (S.plain true z)).2 = .ok
    · rw [if_pos ⟨hok, hwants⟩, settle, hdone]
    · rw [if_pos hok] at hall
      rw [if_neg (fun hno => hok hno.1), settle, hall, if_pos hok, if_pos hok]

theorem footer_length (x : List UInt8) : (footer x).length = 8 := by
  rw [footer, length_append, leBytes_length, leBytes_length]

theorem footerCheck_footer (hstage : t.stage = .fin) (hhdr : t.hdr = []) : footerCheck t (footer x) x = .ok := by
  have hcrc : le (slice (footer x) 0 4) = (crc32 0 x).toNat := by
    have hlt : (crc32 0 x).toNat < 256 ^ 4 := UInt32.toNat_lt _
    rw [slice, footer, drop_zero, take_left' (leBytes_length 4 _), le_leBytes_of_lt hlt]
  have hsize : le (slice (footer x) 4 4) = x.length % 2 ^ 32 := by
    rw [slice, footer, drop_left' (leBytes_length 4 _), take_of_length_le (le_of_eq (leBytes_length 4 _)), le_leBytes,
      show 256 ^ 4 = 2 ^ 32 from rfl]
  unfold footerCheck
  rw [if_neg (by rw [footer_length]; simp), if_neg (by rw [hstage, hhdr]; simp), if_neg (by rw [hcrc, hsize]; simp)]

theorem accepting (hyes : ∀ k e, (cb k e).2 = true) : GoesBy (fun _ => ()) cb acceptAll :=
  fun k e => Prod.ext rfl (hyes k e).symm

theorem extract_whole (hcb : Smooth cb) (ctx : κ) (hz : S.Whole z x)
    (hfeeds : feeds.flatten = TarWriter.gzHeader ++ (z ++ footer x)) :
    extract I cb ctx feeds =
      ((tarConsume cb (freshTar ctx) x).1,
        if (tarConsume cb (freshTar ctx) x).2 ≠ .ok then (tarConsume cb (freshTar ctx) x).2
        else footerCheck (tarConsume cb (freshTar ctx) x).1 (footer x) x) := by
  rw [extract_eq S hcb, hfeeds, outcome_header, whole_outcome hcb (freshTar_ready ctx) hz (footer_length x)]

section Accepting

variable (hcb : Smooth cb) (hyes : ∀ k e, (cb k e).2 = true) (ctx : κ) {items : List Item} (hgood : ∀ i ∈ items, Good i)
  (hz : S.Whole z (image items)) (hfeeds : feeds.flatten = TarWriter.gzHeader ++ (z ++ footer (image items)))

include hcb hyes hgood hz hfeeds

theorem extract_short (hshort : ∀ i ∈ items, Short i) :
    (extract I cb ctx feeds).2 = .ok ∧ (extract I cb ctx feeds).1.log.reverse = items.flatMap itemEvents := by
  obtain ⟨t, ht, hlog, hrest⟩ := consume_items hcb hyes items (between_fresh ctx) hgood hshort
  have hall : tarConsume cb (freshTar ctx) (image items) = ({ t with zeroBlocks := 2, stage := .fin }, .ok) := by
    rw [image, hrest, consume_end hcb ht]
  rw [extract_whole hcb ctx hz hfeeds, hall]
  refine ⟨footerCheck_footer rfl ht.hdr, ?_⟩
  rw [hlog, reverse_append, reverse_reverse]
  rfl

theorem extract_long (hlong : ¬ ∀ i ∈ items, Short i) : (extract I cb ctx feeds).2 = .notSafe := by
  have hbad := consume_items_long hcb hyes items (between_fresh ctx) hgood hlong (replicate (2 * tarBlock) 0)
  rw [← image] at hbad
  rw [extract_whole hcb ctx hz hfeeds]
  dsimp only
  rw [hbad, if_pos (by simp)]

end Accepting

/-- The entries come out of an archive as they went in, however its bytes are cut, if and only
if no file's name has 256 bytes. -/
theorem round_trip {D : Deflater δ} {sink : List UInt8 → List UInt8 → Bool} (L : Lossless S D) (hsink : ∀ a b, sink a b = true)
    (hyes : ∀ k e, (cb k e).2 = true) (ctx : κ) {items : List Item} (hgood : ∀ i ∈ items, Good i) :
    ∃ bytes, archive D sink items = some bytes ∧ ∀ feeds : List (List UInt8), feeds.flatten = bytes →
      ((extract I cb ctx feeds).2 = .ok ∧ (extract I cb ctx feeds).1.log.reverse = items.flatMap itemEvents ↔
        ∀ i ∈ items, Short i) := by
  obtain ⟨z, hz, harchive⟩ := archive_eq hsink L items fun i hi => (hgood i hi).accepted
  refine ⟨_, harchive, fun feeds hfeeds => ?_⟩
  have hview := extract_view (I := I) (accepting hyes) ctx feeds
  constructor
  · rintro ⟨hok, -⟩
    by_contra hlong
    have hbad := extract_long smooth_acceptAll (fun _ _ => rfl) () hgood hz hfeeds hlong
    rw [hview] at hbad
    exact absurd (hok.symm.trans hbad) (by simp)
  · intro hshort
    have hall := extract_short smooth_acceptAll (fun _ _ => rfl) () hgood hz hfeeds hshort
    rwa [hview] at hall

end Outcome

section Runs

open TarReader GzReader ReaderOutcome

instance (name : Name) : Decidable (Named name) :=
  decidable_of_iff (0 ∉ name ∧ Relative name) ⟨fun h => ⟨h.1, h.2⟩, fun h => ⟨h.nul, h.relative⟩⟩

instance : (i : Item) → Decidable (Good i)
  | .dir _ _ => inferInstanceAs (Decidable (_ ∧ _))
  | .file _ _ _ _ => inferInstanceAs (Decidable (_ ∧ _ ∧ _))

def takeAll (_ _ : List UInt8) : Bool := true

theorem takeAll_eq : ∀ a b, takeAll a b = true := fun _ _ => rfl

def tree : List Item := [.dir (lit "d") 0, .file (lit "d/f") 3 0 [[1, 2], [3, 4]], .file (lit "e") 600 0 [[9]]]

/-- A directory, a file with a body that is too long and one with a body that is too short. -/
theorem round_trip_tree :
    ∃ bytes, archive PairCode.deflater takeAll tree = some bytes ∧ ∀ feeds : List (List UInt8), feeds.flatten = bytes →
      (extract PairCode.inflater counting 0 feeds).2 = .ok ∧
        (extract PairCode.inflater counting 0 feeds).1.log.reverse = tree.flatMap itemEvents := by
  obtain ⟨bytes, hbytes, hall⟩ := round_trip PairCode.lossless takeAll_eq (show ∀ k e, (counting k e).2 = true from fun _ _ => rfl) 0
    (show ∀ i ∈ tree, Good i by decide +kernel)
  exact ⟨bytes, hbytes, fun feeds hfeeds => (hall feeds hfeeds).mpr (by decide +kernel)⟩

def longName : Name := replicate 155 97 ++ 47 :: replicate 100 98

/-- The writer has room for a prefix of 155 bytes, a slash and a name of 100 bytes. -/
theorem round_trip_loses_long_name :
    Good (.file longName 0 0 []) ∧ ∃ bytes, archive PairCode.deflater takeAll [.file longName 0 0 []] = some bytes ∧
      (extract PairCode.inflater acceptAll () [bytes]).2 = .notSafe := by
  have hgood : Good (.file longName 0 0 []) := by decide +kernel
  obtain ⟨z, hz, harchive⟩ := archive_eq takeAll_eq PairCode.lossless [.file longName 0 0 []]
    (by decide +kernel)
  refine ⟨hgood, _, harchive, ?_⟩
  exact extract_long smooth_acceptAll (fun _ _ => rfl) () (by simpa using hgood) hz (by simp) (by decide +kernel)

end Runs

end Spangap.RoundTrip
