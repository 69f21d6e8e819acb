import Spangap.FieldValues

namespace Spangap.RecordStore

open Bytes CJson Fields FieldValues

/-- A resident record store: a file header and records packed one after the
other. `block` is the part of the arena in use and `cap` what is allocated. -/
structure Store where
  schema : Schema
  path : Name
  capRecords : Nat
  block : List UInt8
  cap : Nat
  dirty : Bool
  index : AList fun _ : Name => Nat

def Store.used (s : Store) : Nat := s.block.length

def fileHdr : Nat := 16

def fileHeader (sc : Schema) (recCount : Nat) : List UInt8 :=
  lit "SGDB" ++ leBytes 2 2 ++ leBytes 2 sc.schemaId ++ leBytes 2 sc.schemaVer ++ leBytes 2 sc.hdrSize ++
    leBytes 4 recCount

def writeFileHeader (s : Store) (recCount : Nat) : Store :=
  { s with block := poke s.block 0 (fileHeader s.schema recCount) }

def rdU32 (b : List UInt8) (off : Nat) : Nat := le (slice b off 4)

def flagsOff : Nat := 4

def flagsAt (b : List UInt8) (off : Nat) : UInt8 := (slice b (off + flagsOff) 1).headD 0

def isDeleted (b : List UInt8) (off : Nat) : Bool := flagsAt b off &&& 1 != 0

def tombstone (b : List UInt8) (off : Nat) : List UInt8 := poke b (off + flagsOff) [flagsAt b off ||| 1]

def keyAt (hs : Nat) (b : List UInt8) (off : Nat) : Name := (readCounted (b.drop (off + hs))).1

/-- The heap's answers to the requests one append may make: growing by
doubling, growing to what is needed, and a fresh block for the live records. -/
structure Heap where
  double : Bool
  needed : Bool
  fresh : Bool
  deriving DecidableEq, Repr

def granted (ok : Bool) (n : Nat) : Bool := ok && n < 4294967296

def doubled : Nat → Nat → Nat → Nat
  | 0, ncap, _ => ncap
  | fuel + 1, ncap, need => if ncap < need then doubled fuel (ncap * 2) need else ncap

def pageRound (n : Nat) : Nat := (n + 4095) / 4096 * 4096

def ensureCap (s : Store) (need : Nat) (m : Heap) : Option Store :=
  if need ≤ s.cap then some s
  else
    let ncap := doubled need (if s.cap = 0 then 256 else s.cap) need
    if granted m.double ncap then some { s with cap := ncap }
    else if granted m.needed (pageRound need) then some { s with cap := pageRound need }
    else none

/-- The records a walk over the arena visits, as offset and length. It stops at
a length that cannot be one. -/
def walk (hs : Nat) (b : List UInt8) : Nat → Nat → List (Nat × Nat)
  | 0, _ => []
  | fuel + 1, off =>
    if off < b.length then
      if rdU32 b off < hs ∨ b.length < off + rdU32 b off then []
      else (off, rdU32 b off) :: walk hs b fuel (off + rdU32 b off)
    else []

def liveRecords (s : Store) : List (Nat × Nat) :=
  (walk s.schema.hdrSize s.block s.used fileHdr).filter fun r => !isDeleted s.block r.1

def readRecordText (s : Store) (off : Nat) : Name × List Name :=
  let p := readCounted (s.block.drop (off + s.schema.hdrSize))
  (p.1, readCounteds s.schema.textCount p.2)

/-- The flags byte comes with the header copy. -/
def buildRecord (hdrCopy : List UInt8) (key : Name) (texts : List Name) : List UInt8 :=
  let r := hdrCopy ++ counted key ++ (texts.map counted).flatten
  poke r 0 (leBytes 4 r.length)

def compactScratch : Nat := 8192

/-- The state of the in-place compaction loop: the write cursor, the live bytes
buffered behind it and the number of records kept. -/
structure Cursor where
  block : List UInt8
  index : AList fun _ : Name => Nat
  w : Nat
  scratch : List UInt8
  kept : Nat

def Cursor.flush (c : Cursor) : Cursor :=
  { c with block := poke c.block c.w c.scratch, w := c.w + c.scratch.length, scratch := [] }

def Cursor.reindex (hs : Nat) (c : Cursor) (off newOff : Nat) : Cursor :=
  { c with index := c.index.insert (keyAt hs c.block off) (newOff % 4294967296) }

def Cursor.keep (hs : Nat) (c : Cursor) (off rlen : Nat) : Cursor :=
  if compactScratch < rlen then
    let c := c.flush.reindex hs off c.flush.w
    { c with block := poke c.block c.w (slice c.block off rlen), w := c.w + rlen, kept := c.kept + 1 }
  else
    let c := if compactScratch < c.scratch.length + rlen then c.flush else c
    let c := c.reindex hs off (c.w + c.scratch.length)
    { c with scratch := c.scratch ++ slice c.block off rlen, kept := c.kept + 1 }

def compactLoop (hs used : Nat) : Nat → Nat → Cursor → Cursor
  | 0, _, c => c
  | fuel + 1, off, c =>
    if off < used then
      if rdU32 c.block off < hs ∨ used < off + rdU32 c.block off then c
      else
        compactLoop hs used fuel (off + rdU32 c.block off)
          (if isDeleted c.block off then c else c.keep hs off (rdU32 c.block off))
    else c

def sdbCompactInPlace (s : Store) : Store :=
  let c := (compactLoop s.schema.hdrSize s.used s.used fileHdr ⟨s.block, s.index, fileHdr, [], 0⟩).flush
  writeFileHeader { s with block := c.block.take c.w, index := c.index } c.kept

def relocateStep (s : Store) (p : List UInt8 × AList fun _ : Name => Nat) (r : Nat × Nat) :
    List UInt8 × AList fun _ : Name => Nat :=
  let nb := p.1 ++ slice s.block r.1 r.2
  (nb, p.2.insert (keyAt s.schema.hdrSize nb p.1.length) (p.1.length % 4294967296))

def relocate (s : Store) (newcap : Nat) : Store :=
  let moved := (liveRecords s).foldl (relocateStep s) (s.block.take fileHdr, s.index)
  writeFileHeader { s with block := moved.1, cap := newcap, index := moved.2 } (liveRecords s).length

def liveBytes (s : Store) : Nat := fileHdr + ((liveRecords s).map Prod.snd).sum

def reclaimForAppend (s : Store) (recSize : Nat) (m : Heap) : Store × Bool :=
  let newcap := pageRound (max (liveBytes s + liveBytes s / 5) (liveBytes s + recSize))
  let t :=
    if s.cap * 9 ≤ liveBytes s * 10 ∧ granted m.fresh newcap then relocate s newcap
    else sdbCompactInPlace s
  (t, t.used + recSize ≤ t.cap)

def makeRoom (s : Store) (recSize : Nat) (m : Heap) : Store × Bool :=
  match ensureCap s (s.used + recSize) m with
  | some t => (t, true)
  | none => reclaimForAppend s recSize m

def appendRecord (s : Store) (key : Name) (image : List UInt8) (m : Heap) : Store × Bool :=
  let r := makeRoom s image.length m
  if r.2 then
    ({ r.1 with block := r.1.block ++ image, index := r.1.index.insert key (r.1.used % 4294967296) }, true)
  else r

def dropOldest (s : Store) (n : Nat) : Store :=
  ((liveRecords s).take n).foldl
    (fun t r =>
      { t with
        block := tombstone t.block r.1
        index := t.index.erase (keyAt s.schema.hdrSize t.block r.1) })
    s

def compact (s : Store) (n : Nat) : Store := sdbCompactInPlace (dropOldest s n)

def sdbInitEmpty (sc : Schema) (path : Name) (capRecords : Nat) (m : Heap) : Option Store :=
  (ensureCap ⟨sc, path, capRecords, [], 0, false, ∅⟩ fileHdr m).map fun s =>
    { s with block := fileHeader sc 0 }

def findRec (s : Store) (key : Name) : Option Nat := s.index.lookup key

def sdbHasRecord (s : Store) (key : Name) : Bool := (s.index.lookup key).isSome

def sdbRecordCount (s : Store) : Nat := s.index.keys.length

def sdbGetField (s : Store) (key field : Name) : Option Name :=
  (findRec s key).bind fun off =>
    (s.schema.find field).bind fun fd => fieldOf fd (s.block.drop off) (readRecordText s off).2

/-- A text write: unchanged text is left alone, a record of the same size is
overwritten, and any other one is tombstoned and appended anew. -/
def storeText (s : Store) (off : Nat) (fd : Field) (val : Name) (m : Heap) : Store × Bool :=
  let p := readRecordText s off
  if p.2[fd.off]? = some val then (s, true)
  else
    let image := buildRecord (slice s.block off s.schema.hdrSize) p.1 (p.2.set fd.off val)
    if image.length = rdU32 s.block off then
      ({ s with block := poke s.block off image, dirty := true }, true)
    else
      let r := appendRecord { s with block := tombstone s.block off, index := s.index.erase p.1 } p.1 image m
      ({ r.1 with dirty := true }, r.2)

def storeField (s : Store) (off : Nat) (fd : Field) (val : Name) (m : Heap) : Store × Bool :=
  match fd.kind with
  | .text => storeText s off fd val m
  | _ => ({ s with block := storeFixed fd s.block (off + fd.off) val, dirty := true }, true)

def overflow (s : Store) : Nat :=
  let n := s.index.keys.length
  if s.capRecords ≠ 0 ∧ s.capRecords < n then min (n - s.capRecords + s.capRecords / 8) (n - 1) else 0

def trim (s : Store) : Store := if overflow s = 0 then s else compact s (overflow s)

/-- The flag says whether every append found room. -/
def sdbSetField (s : Store) (key field val : Name) (m m' : Heap) : Store × Bool :=
  match s.schema.find field with
  | none => (s, true)
  | some fd =>
    match findRec s key with
    | some off => storeField s off fd val m'
    | none =>
      let image := buildRecord (List.replicate s.schema.hdrSize 0) key
        (List.replicate s.schema.textCount [])
      let r := appendRecord s key image m
      if r.2 && (findRec r.1 key).isSome then
        let t := trim r.1
        match findRec t key with
        | some off => storeField t off fd val m'
        | none => ({ t with dirty := true }, true)
      else r

def sdbDeleteRecord (s : Store) (key : Name) : Store :=
  match findRec s key with
  | none => s
  | some off => { s with block := tombstone s.block off, index := s.index.erase key, dirty := true }

def sdbFlush (s : Store) (written : Bool) : Store :=
  if s.path = [] then { s with dirty := false }
  else { compact s 0 with dirty := s.dirty && !written }

def sdbSnapshotRaw (s : Store) : Store := compact s 0

def reported (fd : Field) (v : Name) : Bool := fd.kind == .u8 || fd.kind == .u32 || !v.isEmpty

def sdbForEach (s : Store) : List (Name × Name × Name) :=
  (liveRecords s).flatMap fun r =>
    s.schema.fields.filterMap fun fd =>
      ((fieldOf fd (s.block.drop r.1) (readRecordText s r.1).2).filter (reported fd)).map fun v =>
        ((readRecordText s r.1).1, fd.name, v)

inductive Op
  | set (key field val : Name) (m m' : Heap)
  | delete (key : Name)
  | flush (written : Bool)
  | snapshot
  deriving DecidableEq, Repr

/-- A step in which an append finds no room has no result. -/
def step (s : Store) : Op → Option Store
  | .set key field val m m' =>
    if (sdbSetField s key field val m m').2 then some (sdbSetField s key field val m m').1 else none
  | .delete key => some (sdbDeleteRecord s key)
  | .flush written => some (sdbFlush s written)
  | .snapshot => some (sdbSnapshotRaw s)

end Spangap.RecordStore
