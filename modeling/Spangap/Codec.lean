import Mathlib.Data.List.Infix

namespace Spangap.Codec

structure Result (σ τ : Type) where
  state : σ
  used : Nat
  out : List UInt8
  status : τ

theorem fuel_less {credit credit' rate used len out fuel : Nat} (hused : used ≤ len) (hbound : out + credit' ≤ credit + rate * used)
    (hprog : used ≠ 0 ∨ out ≠ 0) (hfuel : credit + (rate + 1) * len < fuel + 1) : credit' + (rate + 1) * (len - used) < fuel := by
  have hsplit : (rate + 1) * len = (rate + 1) * used + (rate + 1) * (len - used) := by rw [← Nat.mul_add, Nat.add_sub_cancel' hused]
  rw [hsplit, Nat.add_mul, Nat.one_mul] at hfuel
  omega

inductive InflateStatus
  | failed | done | needsMoreInput | hasMoreOutput
  deriving DecidableEq, Repr

/-- A decompressor that is called with some input, room for output and whether more input may
follow. It cannot go on putting out without input: `credit` bounds what it may still put out,
and a byte of input adds at most `rate`. -/
structure Inflater (ι : Type) where
  init : ι
  decompress : ι → List UInt8 → Nat → Bool → Result ι InflateStatus
  credit : ι → Nat
  rate : Nat
  used_le : ∀ s p room more, (decompress s p room more).used ≤ p.length
  bounded : ∀ s p room more, (decompress s p room more).out.length + credit (decompress s p room more).state ≤
    credit s + rate * (decompress s p room more).used

inductive Verdict
  | wants | done | failed
  deriving DecidableEq, Repr

/-- How a call with input `p` must turn out, after input `x` and output `o`: `plain` is what
some input gives in all and `verdict` how the decompressor then stands, if more input may
follow or not. -/
def Answers {ι : Type} (plain : Bool → List UInt8 → List UInt8) (verdict : Bool → List UInt8 → Verdict) (more : Bool)
    (x o p : List UInt8) (r : Result ι InflateStatus) : Prop :=
  match r.status with
  | .hasMoreOutput => o ++ r.out <+: plain more (x ++ p) ∧ (r.used ≠ 0 ∨ r.out ≠ [])
  | .needsMoreInput => o ++ r.out = plain more (x ++ p) ∧ verdict more (x ++ p) = .wants ∧ r.used = p.length
  | .done => o ++ r.out = plain more (x ++ p) ∧ verdict more (x ++ p) = .done
  | .failed => o ++ r.out = plain more (x ++ p) ∧ verdict more (x ++ p) = .failed

/-- A decompressor whose output depends on its input and not on how that is cut. `Rep more s x o`
says that it is in state `s` after input `x` and output `o`, and that more input may follow. -/
structure Streaming {ι : Type} (I : Inflater ι) where
  plain : Bool → List UInt8 → List UInt8
  verdict : Bool → List UInt8 → Verdict
  Rep : Bool → ι → List UInt8 → List UInt8 → Prop
  init : Rep true I.init [] []
  fresh : plain true [] = [] ∧ verdict true [] = .wants
  grows : ∀ more x y, verdict true x = .wants → plain true x <+: plain more (x ++ y)
  stays : ∀ more x y, verdict true x ≠ .wants → plain more (x ++ y) = plain true x ∧ verdict more (x ++ y) = verdict true x
  feed : ∀ s x o p room, Rep true s x o → 0 < room → Answers plain verdict true x o p (I.decompress s p room true)
  close : ∀ m s x o room, Rep m s x o → 0 < room → Answers plain verdict false x o [] (I.decompress s [] room false)
  fed : ∀ s x o p room, Rep true s x o → 0 < room →
    (I.decompress s p room true).status = .needsMoreInput ∨ (I.decompress s p room true).status = .hasMoreOutput →
    Rep true (I.decompress s p room true).state (x ++ p.take (I.decompress s p room true).used) (o ++ (I.decompress s p room true).out)
  closing : ∀ m s x o room, Rep m s x o → 0 < room →
    (I.decompress s [] room false).status = .needsMoreInput ∨ (I.decompress s [] room false).status = .hasMoreOutput →
    Rep false (I.decompress s [] room false).state x (o ++ (I.decompress s [] room false).out)

inductive DeflateStatus
  | failed | okay | done
  deriving DecidableEq, Repr

/-- A compressor that is called with some input, room for output and whether the input ends. -/
structure Deflater (δ : Type) where
  init : δ
  compress : δ → List UInt8 → Nat → Bool → Result δ DeflateStatus
  credit : δ → Nat
  rate : Nat
  used_le : ∀ s p room fin, (compress s p room fin).used ≤ p.length
  bounded : ∀ s p room fin, (compress s p room fin).out.length + credit (compress s p room fin).state ≤
    credit s + rate * (compress s p room fin).used

/-- All of a compressed stream: the decompressor is done with it, at the latest when it is told
that nothing follows. -/
def Streaming.Whole {ι : Type} {I : Inflater ι} (S : Streaming I) (z x : List UInt8) : Prop :=
  S.verdict true z = .done ∧ S.plain true z = x ∨ S.verdict true z = .wants ∧ S.verdict false z = .done ∧ S.plain false z = x

/-- What the compressor puts out gives its input back. `Rep fin s x z` says that it is in state
`s` after input `x` and output `z`, and whether the input has ended. -/
structure Lossless {ι δ : Type} {I : Inflater ι} (S : Streaming I) (D : Deflater δ) where
  Rep : Bool → δ → List UInt8 → List UInt8 → Prop
  init : Rep false D.init [] []
  feed : ∀ s x z p room, Rep false s x z → 0 < room → p ≠ [] →
    (D.compress s p room false).status = .okay ∧
      ((D.compress s p room false).used ≠ 0 ∨ (D.compress s p room false).out ≠ []) ∧
      Rep false (D.compress s p room false).state (x ++ p.take (D.compress s p room false).used) (z ++ (D.compress s p room false).out)
  close : ∀ fin s x z room, Rep fin s x z → 0 < room →
    (D.compress s [] room true).status = .okay ∧ (D.compress s [] room true).out ≠ [] ∧
        Rep true (D.compress s [] room true).state x (z ++ (D.compress s [] room true).out) ∨
      (D.compress s [] room true).status = .done ∧ S.Whole (z ++ (D.compress s [] room true).out) x

end Spangap.Codec
