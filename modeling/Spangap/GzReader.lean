import Spangap.Codec
import Spangap.TarReader

namespace Spangap.GzReader

open Bytes CJson Codec Crc32 TarReader

inductive GzStage
  | fixed | extraLen | extra | fname | fcomment | fhcrc | deflate | footer
  deriving DecidableEq, Repr

def dictSize : Nat := 32768

/-- The reader. `gzBuf` holds the bytes gathered for the header field at hand, `hold` the last
bytes of the input, which the decompressor never sees. -/
structure Reader (ι κ : Type) where
  inf : ι
  dictOfs : Nat
  gz : GzStage
  gzBuf : List UInt8
  gzFlags : UInt8
  extraLeft : Nat
  hold : List UInt8
  crc : UInt32
  rawLen : Nat
  tar : Tar κ
  err : Err

def afterComment (flags : UInt8) : GzStage := if flags &&& 0x02 ≠ 0 then .fhcrc else .deflate

def afterName (flags : UInt8) : GzStage := if flags &&& 0x10 ≠ 0 then .fcomment else afterComment flags

def afterExtra (flags : UInt8) : GzStage := if flags &&& 0x08 ≠ 0 then .fname else afterName flags

def afterFixed (flags : UInt8) : GzStage := if flags &&& 0x04 ≠ 0 then .extraLen else afterExtra flags

section Head

variable {ι κ : Type}

def gzTurn (r : Reader ι κ) (c : UInt8) (cs : List UInt8) : Reader ι κ × List UInt8 :=
  match r.gz with
  | .fixed =>
    let buf := r.gzBuf ++ [c]
    if buf.length < 10 then ({ r with gzBuf := buf }, cs)
    else if buf.take 3 ≠ [0x1f, 0x8b, 8] then ({ r with gzBuf := buf, err := .magic }, cs)
    else ({ r with gzBuf := [], gzFlags := buf.getD 3 0, gz := afterFixed (buf.getD 3 0) }, cs)
  | .extraLen =>
    let buf := r.gzBuf ++ [c]
    if buf.length < 2 then ({ r with gzBuf := buf }, cs)
    else ({ r with gzBuf := [], extraLeft := le buf, gz := if le buf ≠ 0 then .extra else afterExtra r.gzFlags }, cs)
  | .extra =>
    let n := min (c :: cs).length r.extraLeft
    ({ r with extraLeft := r.extraLeft - n, gz := if r.extraLeft - n ≠ 0 then .extra else afterExtra r.gzFlags }, (c :: cs).drop n)
  | .fname => ({ r with gz := if c ≠ 0 then .fname else afterName r.gzFlags }, cs)
  | .fcomment => ({ r with gz := if c ≠ 0 then .fcomment else afterComment r.gzFlags }, cs)
  | .fhcrc =>
    let buf := r.gzBuf ++ [c]
    if buf.length < 2 then ({ r with gzBuf := buf }, cs) else ({ r with gzBuf := [], gz := .deflate }, cs)
  | .deflate | .footer => (r, c :: cs)

def gzTurns : Nat → Reader ι κ → List UInt8 → Reader ι κ × List UInt8
  | 0, r, p => (r, p)
  | _ + 1, r, [] => (r, [])
  | fuel + 1, r, c :: cs =>
    if r.gz = .deflate ∨ r.gz = .footer then (r, c :: cs)
    else
      let t := gzTurn r c cs
      if t.1.err ≠ .ok then t else gzTurns fuel t.1 t.2

/-- The header of the member, which may be split across feeds like anything else. -/
def gzHeader (r : Reader ι κ) (p : List UInt8) : Reader ι κ × List UInt8 := gzTurns (p.length + 1) r p

end Head

section Body

variable {ι κ : Type} (I : Inflater ι) (cb : κ → Event → κ × Bool)

def deliver (r : Reader ι κ) (out : List UInt8) : Reader ι κ :=
  if out = [] then r
  else
    let t := tarConsume cb r.tar out
    { r with
      crc := crc32 r.crc out
      rawLen := r.rawLen + out.length
      tar := t.1
      err := if t.2 ≠ .ok then t.2 else r.err
      dictOfs := if t.2 ≠ .ok then r.dictOfs else (r.dictOfs + out.length) % dictSize }

def inflateTurns (more : Bool) : Nat → Reader ι κ → List UInt8 → Reader ι κ × List UInt8
  | 0, r, p => (r, p)
  | fuel + 1, r, p =>
    if r.gz ≠ .deflate then (r, p)
    else
      let c := I.decompress r.inf p (dictSize - r.dictOfs) more
      let p := p.drop c.used
      let r := deliver cb { r with inf := c.state } c.out
      if r.err ≠ .ok then (r, p)
      else
        match c.status with
        | .done => ({ r with gz := .footer }, p)
        | .failed => ({ r with err := .deflate }, p)
        | .needsMoreInput | .hasMoreOutput => if c.used = 0 ∧ c.out = [] then (r, p) else inflateTurns more fuel r p

/-- Every turn that goes on takes input or puts something out, which is bounded. -/
def inflateSome (more : Bool) (r : Reader ι κ) (p : List UInt8) : Reader ι κ × List UInt8 :=
  inflateTurns I cb more (I.credit r.inf + (I.rate + 1) * p.length + 1) r p

def offer (r : Reader ι κ) (p : List UInt8) : Reader ι κ :=
  if p = [] then r
  else
    let t := inflateSome I cb true r p
    if t.1.err ≠ .ok then t.1 else if t.2 ≠ [] ∧ t.1.gz = .deflate then { t.1 with err := .deflate } else t.1

def feedBody (r : Reader ι κ) (p : List UInt8) : Reader ι κ :=
  let total := r.hold.length + p.length
  if total ≤ 8 then { r with hold := r.hold ++ p }
  else
    let feed := total - 8
    let fromHold := min feed r.hold.length
    let fromData := feed - fromHold
    let next := r.hold.drop fromHold ++ p.drop fromData
    let r₁ := offer I cb r (r.hold.take fromHold)
    if r₁.err ≠ .ok then r₁
    else
      let r₂ := offer I cb r₁ (p.take fromData)
      if r₂.err ≠ .ok then r₂ else { r₂ with hold := next }

/-- The result code of a feed is the error of the reader it leaves. -/
def targzReaderFeed (r : Reader ι κ) (data : List UInt8) : Reader ι κ :=
  if r.err ≠ .ok then r
  else if r.gz ≠ .deflate ∧ r.gz ≠ .footer then
    let t := gzHeader r data
    if t.1.err ≠ .ok ∨ t.1.gz ≠ .deflate then t.1 else feedBody I cb t.1 t.2
  else feedBody I cb r data

def targzReaderFinish (r : Reader ι κ) : Tar κ × Err :=
  let r := if r.err = .ok ∧ r.gz = .deflate then (inflateSome I cb false r []).1 else r
  (r.tar,
    if r.err ≠ .ok then r.err
    else if r.gz = .deflate then .truncated
    else if r.hold.length < 8 then .truncated
    else if r.tar.stage = .data ∨ r.tar.stage = .pad ∨ r.tar.hdr ≠ [] then .truncated
    else if le (slice r.hold 0 4) ≠ r.crc.toNat ∨ le (slice r.hold 4 4) ≠ r.rawLen % 2 ^ 32 then .crc
    else .ok)

def freshTar (ctx : κ) : Tar κ := ⟨.hdr, [], 0, 0, 0, 0, 0, false, ctx, []⟩

def targzReaderOpen (ctx : κ) : Reader ι κ := ⟨I.init, 0, .fixed, [], 0, 0, [], 0, 0, freshTar ctx, .ok⟩

/-- A whole extraction: the parser at the end, with the calls that were made, and the result. -/
def extract (ctx : κ) (feeds : List (List UInt8)) : Tar κ × Err :=
  targzReaderFinish I cb (feeds.foldl (targzReaderFeed I cb) (targzReaderOpen I ctx))

end Body

end Spangap.GzReader
