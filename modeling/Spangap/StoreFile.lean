import Spangap.RecordStore

namespace Spangap.StoreFile

open List Option Bytes CJson Fields FieldValues RecordStore

variable {s : Store} {r : LoadResult} {m : LoadHeap} {legacy : List (Nat × Nat × Schema)} {e : Option Store} {rb b : List UInt8}

/-- The compressor, the decompressor with the room it is given, and the checksum. -/
structure Codec where
  deflate : List UInt8 → List UInt8
  inflate : List UInt8 → Nat → Option (List UInt8)
  crc : List UInt8 → Nat

variable {c : Codec}

def Codec.Lossless (c : Codec) : Prop := ∀ b, c.inflate (c.deflate b) b.length = some b

def gzHdr : List UInt8 := [0x1f, 0x8b, 8, 0, 0, 0, 0, 0, 0, 0xff]

def gzDeflateBin (c : Codec) (b : List UInt8) : List UInt8 :=
  gzHdr ++ (c.deflate b ++ (leBytes 4 (c.crc b) ++ leBytes 4 b.length))

def skipString (gz : List UInt8) (off : Nat) : Nat := off + ((gz.drop off).takeWhile (· != 0)).length + 1

def flagSet (flg : UInt8) (bit : UInt8) : Bool := flg &&& bit != 0

def gzDataOff (gz : List UInt8) : Option Nat :=
  let flg := gz.getD 3 0
  let off := gzHdr.length
  if flagSet flg 4 ∧ gz.length < off + 2 then none
  else
    let off := if flagSet flg 4 then off + 2 + le (slice gz off 2) else off
    let off := if flagSet flg 8 then skipString gz off else off
    let off := if flagSet flg 16 then skipString gz off else off
    some (if flagSet flg 2 then off + 2 else off)

def gzInflateBin (c : Codec) (gz : List UInt8) : Option (List UInt8) :=
  if gz.length < 18 ∨ gz.take 3 ≠ gzHdr.take 3 then none
  else
    (gzDataOff gz).bind fun off =>
      if gz.length < off + 8 then none
      else
        let crc := le (slice gz (gz.length - 8) 4)
        let isz := le (slice gz (gz.length - 4) 4)
        if 8 * 1024 * 1024 < isz then none
        else
          (c.inflate (slice gz off (gz.length - off - 8)) isz).filter fun out =>
            out.length = isz ∧ c.crc out % 4294967296 = crc

theorem gzDataOff_gzDeflateBin : gzDataOff (gzDeflateBin c b) = some 10 := by
  have hflg : (gzDeflateBin c b).getD 3 0 = 0 := rfl
  simp only [gzDataOff, hflg]
  rfl

theorem gzDeflateBin_length : (gzDeflateBin c b).length = 10 + (c.deflate b).length + 8 := by
  simp [gzDeflateBin, gzHdr]
  omega

theorem gzDeflateBin_isz : slice (gzDeflateBin c b) ((gzDeflateBin c b).length - 4) 4 = leBytes 4 b.length := by
  rw [gzDeflateBin_length, gzDeflateBin, ← append_assoc, ← append_assoc,
    ← append_nil (leBytes 4 b.length)]
  exact slice_at (by simp [gzHdr]; omega) (leBytes_length 4 _) _

theorem gzInflateBin_frame (hlen : b.length < 4294967296) : gzInflateBin c (gzDeflateBin c b) =
      if 8 * 1024 * 1024 < b.length then none
      else (c.inflate (c.deflate b) b.length).filter fun out =>
        out.length = b.length ∧ c.crc out % 4294967296 = c.crc b % 4294967296 := by
  have hgz : gzDeflateBin c b = gzHdr ++ (c.deflate b ++ (leBytes 4 (c.crc b) ++ leBytes 4 b.length)) := rfl
  have hsize := gzDeflateBin_length (c := c) (b := b)
  have hcrc : slice (gzDeflateBin c b) ((gzDeflateBin c b).length - 8) 4 = leBytes 4 (c.crc b) := by
    rw [hsize, Nat.add_sub_cancel, hgz, ← append_assoc]
    exact slice_at (by rw [length_append]; rfl) (leBytes_length 4 _) _
  have hbody : slice (gzDeflateBin c b) 10 ((gzDeflateBin c b).length - 10 - 8) = c.deflate b := by
    rw [hsize, hgz]
    exact slice_at rfl (by omega) _
  have hisz : le (leBytes 4 b.length) = b.length := le_leBytes_of_lt (by omega)
  have hsum : le (leBytes 4 (c.crc b)) = c.crc b % 4294967296 := le_leBytes 4 _
  rw [gzInflateBin, if_neg, gzDataOff_gzDeflateBin, bind_some, if_neg (by omega), hcrc, gzDeflateBin_isz,
    hbody, hisz, hsum]
  rw [not_or]
  exact ⟨by omega, by simp [hgz, gzHdr]⟩

theorem gzInflateBin_gzDeflateBin (hc : c.Lossless) (hsize : b.length ≤ 8 * 1024 * 1024) :
    gzInflateBin c (gzDeflateBin c b) = some b := by
  rw [gzInflateBin_frame (by omega), if_neg (by omega), hc b]
  simp

theorem gzInflateBin_oversize (hlen : b.length < 4294967296) (hsize : 8 * 1024 * 1024 < b.length) :
    gzInflateBin c (gzDeflateBin c b) = none := by
  rw [gzInflateBin_frame hlen, if_pos hsize]

def verbatim : Codec := ⟨id, fun b _ => some b, fun _ => 0⟩

theorem verbatim_lossless : verbatim.Lossless := fun _ => rfl

def kindCode : Kind → UInt8
  | .u8 => 1
  | .u32 => 2
  | .fixstr => 3
  | .text => 4
  | .data => 5

def kindOf (n : UInt8) : Option Kind :=
  if n = 1 then some .u8
  else if n = 2 then some .u32
  else if n = 3 then some .fixstr
  else if n = 4 then some .text
  else if n = 5 then some .data
  else none

/-- A field as a descriptor spells it, whose kind may be none the code knows. -/
structure RawField where
  name : Name
  kind : UInt8
  off : Nat
  width : Nat
  deriving DecidableEq, Repr

/-- The part of a schema that decides how records are read. -/
structure Layout where
  hdrSize : Nat
  fields : List RawField
  deriving DecidableEq, Repr

def rawField (f : Field) : RawField := ⟨f.name, kindCode f.kind, f.off, f.width⟩

def layoutOf (sc : Schema) : Layout := ⟨sc.hdrSize, sc.fields.map rawField⟩

def serializeField (f : Field) : List UInt8 :=
  kindCode f.kind ::
    (leBytes 2 f.off ++ (leBytes 2 f.width ++ (UInt8.ofNat (min f.name.length 255) :: f.name.take 255)))

def serializeDescriptor (sc : Schema) : List UInt8 :=
  leBytes 2 sc.fields.length ++ sc.fields.flatMap serializeField

def parseFields : Nat → List UInt8 → Option (List RawField)
  | 0, _ => some []
  | k + 1, p =>
    if p.length < 6 then none
    else
      let nl := (p.getD 5 0).toNat
      if p.length < 6 + nl then none
      else
        (parseFields k (p.drop (6 + nl))).map fun fs =>
          ⟨slice p 6 nl, p.getD 0 0, le (slice p 1 2), le (slice p 3 2)⟩ :: fs

def parseDescriptor (p : List UInt8) (hdr : Nat) : Option Layout :=
  if p.length < 2 then none else (parseFields (le (p.take 2)) (p.drop 2)).map fun fs => ⟨hdr, fs⟩

/-- The uncompressed file: the header with the current format number, the
descriptor behind its length, and the records. -/
def buildDiskImage (s : Store) : List UInt8 :=
  let desc := serializeDescriptor s.schema
  poke (s.block.take fileHdr) 4 (leBytes 2 2) ++ (leBytes 2 desc.length ++ (desc ++ s.block.drop fileHdr))

/-- The file `sdbFlush` writes, which is also what `sdbSnapshotRaw` and
`sdbGzDeflate` make. -/
def storeFile (c : Codec) (s : Store) : List UInt8 := gzDeflateBin c (buildDiskImage (compact s 0))

section Load

/-- What a read finds in memory: the bytes of the block, and behind it whatever
the heap has there. -/
def peek (b : List UInt8) (junk : Nat → UInt8) (off n : Nat) : List UInt8 :=
  (range n).map fun i => b.getD (off + i) (junk (off + i))

variable (junk : Nat → UInt8)

inductive Walked
  | corrupt
  | indexed (index : AList fun _ : Name => Nat)

/-- The offset behind a record, in the 32 bits of a `size_t`. -/
def behind (off rlen : Nat) : Nat := (off + rlen) % 4294967296

/-- No result when the fuel does not last. -/
def rebuildIndex (hs : Nat) (b : List UInt8) : Nat → Nat → (AList fun _ : Name => Nat) → Option Walked
  | 0, _, _ => none
  | fuel + 1, off, index =>
    if off < b.length then
      if b.length < off + hs then some .corrupt
      else
        let rlen := le (peek b junk off 4)
        if rlen < hs ∨ b.length < behind off rlen then some .corrupt
        else if (peek b junk (off + flagsOff) 1).headD 0 &&& 1 != 0 then
          rebuildIndex hs b fuel (behind off rlen) index
        else
          let klen := le (peek b junk (off + hs) 2)
          if rlen < hs + 2 + klen then some .corrupt
          else
            rebuildIndex hs b fuel (behind off rlen)
              (index.insert (peek b junk (off + hs + 2) klen) (off % 4294967296))
    else some (.indexed index)

/-- `c_str()` hands on the bytes before the first zero. -/
def cstr (n : Name) : Name := n.takeWhile (· != 0)

theorem cstr_eq {n : Name} (h : 0 ∉ n) : cstr n = n := by
  induction n with
  | nil => rfl
  | cons x n ih =>
    rw [mem_cons, not_or] at h
    rw [cstr, takeWhile_cons_of_pos (by simpa using Ne.symm h.1), ← cstr, ih h.2]

def readTextsAt (b : List UInt8) : Nat → Nat → List Name
  | 0, _ => []
  | n + 1, p =>
    let l := le (peek b junk p 2)
    peek b junk (p + 2) l :: readTextsAt b n (p + 2 + l)

/-- A file opened for migration: its records with the layout they were written in. -/
structure Source where
  layout : Layout
  block : List UInt8
  index : AList fun _ : Name => Nat

def Layout.textCount (l : Layout) : Nat := l.fields.countP (fun f => f.kind == 4) % 65536

def Source.keyAt (r : Source) (off : Nat) : Name :=
  peek r.block junk (off + r.layout.hdrSize + 2) (le (peek r.block junk (off + r.layout.hdrSize) 2))

def Source.textsAt (r : Source) (off : Nat) : List Name :=
  readTextsAt junk r.block r.layout.textCount
    (off + r.layout.hdrSize + 2 + le (peek r.block junk (off + r.layout.hdrSize) 2))

def Source.getField (r : Source) (key field : Name) : Option Name :=
  (r.index.lookup key).bind fun off =>
    (r.layout.fields.find? fun f => f.name == field).bind fun f =>
      (kindOf f.kind).bind fun kind =>
        fieldOf ⟨f.name, kind, f.off, f.width⟩ (peek r.block junk off (f.off + f.width + 4)) (r.textsAt junk off)

/-- The writes one record of the file leads to. A record none of whose fields
survives is kept through the first field of the current schema. -/
def Source.writes (r : Source) (sc : Schema) (off : Nat) : List (Name × Name × Name) :=
  let key := cstr (r.keyAt junk off)
  let ws := r.layout.fields.filterMap fun f =>
    (sc.find (cstr f.name)).bind fun _ =>
      (r.getField junk key (cstr f.name)).map fun v => (key, cstr f.name, cstr v)
  if ws.isEmpty then
    match sc.fields with
    | [] => []
    | f :: _ => [(key, cstr f.name, [])]
  else ws

def Source.live (r : Source) : Nat → Nat → Option (List Nat)
  | 0, _ => none
  | fuel + 1, off =>
    if off < r.block.length then
      let rlen := le (peek r.block junk off 4)
      if rlen < r.layout.hdrSize ∨ r.block.length < behind off rlen then some []
      else
        (Source.live r fuel (behind off rlen)).map fun offs =>
          if (peek r.block junk (off + flagsOff) 1).headD 0 &&& 1 != 0 then offs else off :: offs
    else some []

def migrateInto (heaps : Nat → Heap × Heap) : Nat → Store → List (Name × Name × Name) → Store
  | _, s, [] => s
  | i, s, (key, field, val) :: ws =>
    migrateInto heaps (i + 1) (sdbSetField s key field val (heaps i).1 (heaps i).2).1 ws

/-- The heap's answers during a load: for the file and its inflated bytes, for
the resident block, for an empty arena and for the writes of a migration. -/
structure LoadHeap where
  raw : Bool
  block : Bool
  init : Heap
  set : Nat → Heap × Heap

/-- The layout of the records in a file and where they start. -/
def readerOf (sc : Schema) (legacy : List (Nat × Nat × Schema)) (blk : List UInt8) : Option (Layout × Nat) :=
  let fhdr := le (slice blk 10 2)
  if 2 ≤ le (slice blk 4 2) then
    if blk.length < fileHdr + 2 then none
    else
      let descLen := le (slice blk fileHdr 2)
      if blk.length < fileHdr + 2 + descLen then none
      else (parseDescriptor (slice blk (fileHdr + 2) descLen) fhdr).map fun l => (l, fileHdr + 2 + descLen)
  else if fhdr = sc.hdrSize then some (layoutOf sc, fileHdr)
  else
    (legacy.find? fun l => l.1 == le (slice blk 6 2) && l.2.1 == fhdr).map fun l =>
      (layoutOf l.2.2, fileHdr)

/-- A load that ends: the store, which is not loaded when not even an empty
arena could be had, and what `sdbLoad` returns. -/
abbrev LoadResult := Option Store × Bool

/-- The block adopted as it is, provided that its records can be walked. -/
def adopt (fuel : Nat) (s : Store) (rb : List UInt8) (empty : Option Store) : Option LoadResult :=
  (rebuildIndex junk s.schema.hdrSize rb fuel fileHdr ∅).map fun w =>
    match w with
    | .corrupt => (empty, false)
    | .indexed index =>
      (some (writeFileHeader { s with block := rb, cap := rb.length, dirty := false, index := index }
        index.keys.length), true)

def migrate (fuel : Nat) (m : LoadHeap) (s : Store) (l : Layout) (rb : List UInt8) (empty : Option Store) :
    Option LoadResult :=
  (rebuildIndex junk l.hdrSize rb fuel fileHdr ∅).bind fun w =>
    match w with
    | .corrupt => some (empty, false)
    | .indexed index =>
      match sdbInitEmpty s.schema s.path 0 m.init with
      | none => some (empty, false)
      | some ds =>
        let r : Source := ⟨l, rb, index⟩
        (r.live junk fuel fileHdr).map fun offs =>
          let ds := migrateInto m.set 0 ds (offs.flatMap (r.writes junk s.schema))
          (some (writeFileHeader { ds with capRecords := s.capRecords, dirty := true } ds.index.keys.length),
            true)

/-- The part of `sdbLoad` behind the decompressor. `s` is the store before the
load, with nothing resident. -/
def loadImage (fuel : Nat) (m : LoadHeap) (legacy : List (Nat × Nat × Schema)) (s : Store) (blk : List UInt8) :
    Option LoadResult :=
  let empty := sdbInitEmpty s.schema s.path s.capRecords m.init
  if blk.length < fileHdr ∨ blk.take 4 ≠ lit "SGDB" then some (empty, false)
  else if le (slice blk 6 2) ≠ s.schema.schemaId then some (empty, false)
  else
    match readerOf s.schema legacy blk with
    | none => some (empty, false)
    | some (l, recStart) =>
      if m.block = false then some (empty, false)
      else
        let rb := blk.take fileHdr ++ blk.drop recStart
        if l = layoutOf s.schema then adopt junk fuel s rb empty else migrate junk fuel m s l rb empty

/-- `sdbLoad` of a store that is not loaded. The file at its path is absent or
its bytes. -/
def sdbLoad (c : Codec) (fuel : Nat) (m : LoadHeap) (legacy : List (Nat × Nat × Schema)) (s : Store)
    (file : Option (List UInt8)) : Option LoadResult :=
  let empty := sdbInitEmpty s.schema s.path s.capRecords m.init
  match file with
  | none => some (empty, true)
  | some raw =>
    if s.path = [] ∨ raw = [] then some (empty, true)
    else if m.raw = false then some (empty, false)
    else
      match gzInflateBin c raw with
      | none => some (empty, false)
      | some blk => loadImage junk fuel m legacy s blk

end Load

section Fuel

variable {junk : Nat → UInt8} {fuel fuel' : Nat}

theorem rebuildIndex_mono {hs off : Nat} {index : AList fun _ : Name => Nat}
    {w : Walked} (hw : rebuildIndex junk hs b fuel off index = some w) (hle : fuel ≤ fuel') :
    rebuildIndex junk hs b fuel' off index = some w := by
  induction fuel generalizing fuel' off index with
  | zero => cases hw
  | succ fuel ih =>
    obtain ⟨fuel', rfl⟩ : ∃ n, fuel' = n + 1 := ⟨fuel' - 1, by omega⟩
    have hrest : ∀ {off index}, rebuildIndex junk hs b fuel off index = some w →
        rebuildIndex junk hs b fuel' off index = some w := fun h => ih h (by omega)
    rw [rebuildIndex] at hw ⊢
    simp only at hw ⊢
    split_ifs at hw ⊢ <;> first | exact hw | exact hrest hw

theorem Source.live_mono {r : Source} {off : Nat} {offs : List Nat} (h : r.live junk fuel off = some offs)
    (hle : fuel ≤ fuel') : r.live junk fuel' off = some offs := by
  induction fuel generalizing fuel' off offs with
  | zero => cases h
  | succ fuel ih =>
    obtain ⟨fuel', rfl⟩ : ∃ n, fuel' = n + 1 := ⟨fuel' - 1, by omega⟩
    rw [Source.live] at h ⊢
    simp only at h ⊢
    split at h
    next hoff =>
      rw [if_pos hoff]
      split at h
      next hbad =>
        rw [if_pos hbad]
        exact h
      next hbad =>
        rw [if_neg hbad]
        obtain ⟨rest, hrest, hoffs⟩ := map_eq_some_iff.mp h
        rw [ih hrest (by omega)]
        exact congrArg some hoffs
    next hoff =>
      rw [if_neg hoff]
      exact h

theorem adopt_mono (h : adopt junk fuel s rb e = some r) (hle : fuel ≤ fuel') : adopt junk fuel' s rb e = some r := by
  obtain ⟨w, hw, hr⟩ := map_eq_some_iff.mp h
  rw [adopt, rebuildIndex_mono hw hle]
  exact congrArg some hr

theorem migrate_mono {l : Layout} (h : migrate junk fuel m s l rb e = some r)
    (hle : fuel ≤ fuel') : migrate junk fuel' m s l rb e = some r := by
  obtain ⟨w, hw, hr⟩ := bind_eq_some_iff.mp h
  rw [migrate, rebuildIndex_mono hw hle, bind_some]
  cases w with
  | corrupt => exact hr
  | indexed index =>
    simp only at hr ⊢
    split at hr
    · exact hr
    · obtain ⟨offs, hoffs, hres⟩ := map_eq_some_iff.mp hr
      rw [Source.live_mono hoffs hle]
      exact congrArg some hres

theorem loadImage_mono {blk : List UInt8} (h : loadImage junk fuel m legacy s blk = some r)
    (hle : fuel ≤ fuel') : loadImage junk fuel' m legacy s blk = some r := by
  rw [loadImage] at h ⊢
  simp only at h ⊢
  split_ifs at h ⊢
  · exact h
  · exact h
  · split at h <;> exact h
  · split at h
    · exact h
    · split_ifs at h ⊢
      · exact adopt_mono h hle
      · exact migrate_mono h hle

theorem sdbLoad_mono {file : Option (List UInt8)}
    (h : sdbLoad junk c fuel m legacy s file = some r) (hle : fuel ≤ fuel') : sdbLoad junk c fuel' m legacy s file = some r := by
  cases file with
  | none => exact h
  | some raw =>
    simp only [sdbLoad] at h ⊢
    split_ifs at h ⊢
    · exact h
    · exact h
    · split at h
      · exact h
      · exact loadImage_mono h hle

end Fuel

end Spangap.StoreFile
