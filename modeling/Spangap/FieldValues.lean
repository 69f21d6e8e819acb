import Mathlib.Algebra.GroupWithZero.Nat
import Spangap.Fields

namespace Spangap.FieldValues

open List Option Bytes CJson Fields

variable {fd : Field} {val : Name}

def isSpace (c : UInt8) : Bool := c == 32 || (9 ≤ c && c ≤ 13)

def digits (s : Name) : Nat := (s.takeWhile isDigit).foldl (fun a c => a * 10 + (c.toNat - 48)) 0

def signed (s : Name) : Bool × Nat :=
  match s.dropWhile isSpace with
  | 45 :: t => (true, digits t)
  | 43 :: t => (false, digits t)
  | t => (false, digits t)

def atoi (s : Name) : Int :=
  if (signed s).1 then max (-2147483648) (-((signed s).2 : Int)) else min 2147483647 ((signed s).2 : Int)

def strtoul (s : Name) : Nat :=
  if 4294967296 ≤ (signed s).2 then 4294967295
  else if (signed s).1 then (4294967296 - (signed s).2) % 4294967296 else (signed s).2

def decimal (n : Nat) : Name := (Nat.toDigits 10 n).map fun c => c.toNat.toUInt8

def intText (i : Int) : Name := if i < 0 then 45 :: decimal (-i).toNat else decimal i.toNat

/-- The text of a leaf of the tree, where it has one. -/
def leafText : Json → Option Name
  | .scalar (.str s) => some s
  | .scalar (.num v) => some (intText (valueint v))
  | _ => none

def hexNib (c : UInt8) : Option Nat :=
  if 48 ≤ c ∧ c ≤ 57 then some (c.toNat - 48)
  else if 97 ≤ c ∧ c ≤ 102 then some (c.toNat - 97 + 10)
  else if 65 ≤ c ∧ c ≤ 70 then some (c.toNat - 65 + 10)
  else none

def hexDigit (n : Nat) : UInt8 := (lit "0123456789abcdef").getD n 0

def hexEncodeBytes (bs : List UInt8) : Name :=
  bs.flatMap fun b => [hexDigit (b.toNat >>> 4), hexDigit (b.toNat &&& 15)]

/-- Decoding ends at the first pair that is not two hex digits. -/
def hexDecodeInto : Name → Nat → List UInt8
  | a :: b :: s, n + 1 =>
    match hexNib a, hexNib b with
    | some hi, some lo => UInt8.ofNat (hi <<< 4 ||| lo) :: hexDecodeInto s n
    | _, _ => []
  | _, _ => []

def isAllZero (bs : List UInt8) : Bool := bs.all (· == 0)

def fieldOf (fd : Field) (h : List UInt8) (texts : List Name) : Option Name :=
  match fd.kind with
  | .u8 => some (decimal (le (slice h fd.off 1)))
  | .u32 => some (decimal (le (slice h fd.off 4)))
  | .fixstr => some ((slice h fd.off fd.width).takeWhile (· != 0))
  | .data =>
    some (if isAllZero (slice h fd.off fd.width) then [] else hexEncodeBytes (slice h fd.off fd.width))
  | .text => texts[fd.off]?

/-- The in-place write of a fixed field whose slot starts at `p`. -/
def storeFixed (fd : Field) (b : List UInt8) (p : Nat) (val : Name) : List UInt8 :=
  match fd.kind with
  | .u8 => poke b p [UInt8.ofNat (atoi val % 256).toNat]
  | .u32 => poke b p (leBytes 4 (strtoul val))
  | .fixstr =>
    poke (poke b p (replicate fd.width 0)) p
      (val.take (if fd.width ≤ val.length then fd.width - 1 else val.length))
  | .data =>
    if val.length = fd.width * 2 then
      poke (poke b p (replicate fd.width 0)) p (hexDecodeInto val fd.width)
    else poke b p (replicate fd.width 0)
  | .text => b

/-- The value a field holds after a write: integers reduced to their width, a
string slot cut to leave room for the zero, binary data kept only when it is
written as hex digits for every byte. All-zero data is the unset value. -/
def normalise (fd : Field) (val : Name) : Name :=
  match fd.kind with
  | .u8 => decimal (atoi val % 256).toNat
  | .u32 => decimal (strtoul val)
  | .fixstr => val.take (fd.width - 1)
  | .data =>
    if val.length = 2 * fd.width ∧ val.all (fun c => (hexNib c).isSome) ∧ ¬ val.all (· == 48) then fold val
    else []
  | .text => val

def unset (fd : Field) : Name :=
  match fd.kind with
  | .u8 | .u32 => lit "0"
  | _ => []

def Decodable (fd : Field) (val : Name) : Prop :=
  fd.kind = .data → val.length = fd.width * 2 → val.all fun c => (hexNib c).isSome
  deriving Decidable

theorem forall_byte {p : UInt8 → Prop} (h : ∀ n : Fin 256, p (UInt8.ofNat n.val)) (c : UInt8) : p c := by
  have hc := h ⟨c.toNat, c.toNat_lt⟩
  rwa [UInt8.ofNat_toNat] at hc

theorem hexNib_spec {c : UInt8} {n : Nat} (h : hexNib c = some n) : n < 16 ∧ hexDigit n = toLower c := by
  have hall : ∀ c, (hexNib c).all fun n => n < 16 ∧ hexDigit n = toLower c :=
    forall_byte (by decide +kernel)
  have hc := hall c
  rw [h] at hc
  simpa using hc

theorem hexNib_zero : ∀ c, hexNib c = some 0 ↔ c = 48 := forall_byte (by decide +kernel)

theorem nibbles (hi lo : Fin 16) :
    (UInt8.ofNat (hi.val <<< 4 ||| lo.val)).toNat >>> 4 = hi.val ∧
      (UInt8.ofNat (hi.val <<< 4 ||| lo.val)).toNat &&& 15 = lo.val ∧
      (UInt8.ofNat (hi.val <<< 4 ||| lo.val) = 0 ↔ hi.val = 0 ∧ lo.val = 0) := by
  revert hi lo
  decide +kernel

theorem hexDecodeInto_hex (n : Nat) (hlen : val.length = n * 2) (hhex : val.all fun c => (hexNib c).isSome) :
    (hexDecodeInto val n).length = n ∧ hexEncodeBytes (hexDecodeInto val n) = fold val ∧
      isAllZero (hexDecodeInto val n) = val.all (· == 48) := by
  induction n generalizing val with
  | zero =>
    rw [eq_nil_of_length_eq_zero hlen]
    exact ⟨rfl, rfl, rfl⟩
  | succ n ih =>
    match val, hlen with
    | [_], hlen => simp only [length_singleton] at hlen; omega
    | a :: b :: s, hlen =>
      simp only [all_cons, Bool.and_eq_true] at hhex
      obtain ⟨ha, hb, hs⟩ := hhex
      obtain ⟨hi, hhi⟩ := isSome_iff_exists.mp ha
      obtain ⟨lo, hlo⟩ := isSome_iff_exists.mp hb
      have hrest : s.length = n * 2 := by
        simp only [length_cons] at hlen
        omega
      obtain ⟨hl, he, hz⟩ := ih hrest hs
      obtain ⟨h1, h2, h3⟩ := nibbles ⟨hi, (hexNib_spec hhi).1⟩ ⟨lo, (hexNib_spec hlo).1⟩
      simp only [hexDecodeInto, hhi, hlo, length_cons, hl]
      refine ⟨trivial, ?_, ?_⟩
      · rw [hexEncodeBytes, flatMap_cons, h1, h2, (hexNib_spec hhi).2,
          (hexNib_spec hlo).2, ← hexEncodeBytes, he]
        rfl
      · have hza := hexNib_zero a
        have hzb := hexNib_zero b
        rw [hhi, some_inj] at hza
        rw [hlo, some_inj] at hzb
        rw [isAllZero, all_cons, ← isAllZero, hz, all_cons, all_cons, ← Bool.and_assoc]
        congr 1
        rw [Bool.eq_iff_iff, Bool.and_eq_true, beq_iff_eq, beq_iff_eq, beq_iff_eq, h3, hza, hzb]

theorem hexDecodeInto_length (val : Name) (n : Nat) : (hexDecodeInto val n).length ≤ n := by
  induction n generalizing val with
  | zero => simp [hexDecodeInto]
  | succ n ih =>
    match val with
    | [] => simp [hexDecodeInto]
    | [_] => simp [hexDecodeInto]
    | a :: b :: s =>
      rw [hexDecodeInto]
      split
      · simpa using ih s
      · simp

def slotBytes (fd : Field) (val : Name) : List UInt8 :=
  match fd.kind with
  | .u8 => [UInt8.ofNat (atoi val % 256).toNat]
  | .u32 => leBytes 4 (strtoul val)
  | .fixstr => val.take (fd.width - 1) ++ replicate (fd.width - (val.take (fd.width - 1)).length) 0
  | .data =>
    if val.length = fd.width * 2 then
      hexDecodeInto val fd.width ++ replicate (fd.width - (hexDecodeInto val fd.width).length) 0
    else replicate fd.width 0
  | .text => []

def slotValue (fd : Field) (bs : List UInt8) : Name :=
  match fd.kind with
  | .u8 | .u32 => decimal (le bs)
  | .fixstr => bs.takeWhile (· != 0)
  | .data => if isAllZero bs then [] else hexEncodeBytes bs
  | .text => []

theorem fieldOf_fixed (hk : fd.kind ≠ .text) (h : List UInt8) (texts : List Name) :
    fieldOf fd h texts = some (slotValue fd (slice h fd.off fd.extent)) := by
  rcases fd with ⟨name, kind, off, width⟩
  cases kind <;> first | rfl | exact absurd rfl hk

theorem fieldOf_text (hk : fd.kind = .text) (h : List UInt8) (texts : List Name) : fieldOf fd h texts = texts[fd.off]? := by
  rw [fieldOf, hk]

theorem slotBytes_length (hfix : fd.kind = .fixstr → 0 < fd.width) (val : Name) : (slotBytes fd val).length = fd.extent := by
  rcases fd with ⟨name, kind, off, width⟩
  cases kind with
  | u8 => rfl
  | u32 => exact leBytes_length 4 _
  | fixstr =>
    simp only [slotBytes, Field.extent, length_append, length_take, length_replicate]
    omega
  | data =>
    have hl := hexDecodeInto_length val width
    simp only [slotBytes, Field.extent]
    split
    · rw [length_append, length_replicate]
      omega
    · exact length_replicate
  | text => rfl

theorem storeFixed_eq (hk : fd.kind ≠ .text) (hfix : fd.kind = .fixstr → 0 < fd.width) {b : List UInt8} {p : Nat}
    (hp : p + fd.extent ≤ b.length) (val : Name) : storeFixed fd b p val = poke b p (slotBytes fd val) := by
  rcases fd with ⟨name, kind, off, width⟩
  cases kind with
  | u8 => rfl
  | u32 => rfl
  | fixstr =>
    have hcut : val.take (if width ≤ val.length then width - 1 else val.length) = val.take (width - 1) := by
      split
      · rfl
      · rw [take_length, take_of_length_le (by omega)]
    simp only [storeFixed, slotBytes, hcut]
    rw [poke_poke_self (by rw [length_take, length_replicate]; omega)
      (by rw [length_replicate]; exact hp), drop_replicate]
  | data =>
    have hl := hexDecodeInto_length val width
    simp only [storeFixed, slotBytes]
    split
    · rw [poke_poke_self (by rw [length_replicate]; exact hl)
        (by rw [length_replicate]; exact hp), drop_replicate]
    · rfl
  | text => exact absurd rfl hk

theorem takeWhile_zeros {s : Name} (hs : 0 ∉ s) (n : Nat) :
    (s ++ replicate n 0).takeWhile (· != 0) = s := by
  induction s with
  | nil => cases n <;> simp [replicate_succ]
  | cons c s ih =>
    have hc : (c != 0) = true := by
      rw [bne_iff_ne]
      rintro rfl
      exact hs mem_cons_self
    rw [cons_append, takeWhile_cons, hc, if_pos rfl, ih (fun h => hs (mem_cons_of_mem c h))]

theorem isAllZero_replicate (n : Nat) : isAllZero (replicate n 0) = true := by
  simp [isAllZero]

theorem slotValue_slotBytes (hk : fd.kind ≠ .text) (hnul : 0 ∉ val) (hdec : Decodable fd val) :
    slotValue fd (slotBytes fd val) = normalise fd val := by
  rcases fd with ⟨name, kind, off, width⟩
  cases kind with
  | u8 =>
    have hb : (UInt8.ofNat (atoi val % 256).toNat).toNat = (atoi val % 256).toNat := by
      exact Nat.mod_eq_of_lt (by omega)
    simp [slotValue, slotBytes, normalise, le, hb]
  | u32 =>
    have hlt : strtoul val < 256 ^ 4 := by
      unfold strtoul
      split
      · decide
      · split <;> omega
    simp only [slotValue, slotBytes, normalise, le_leBytes_of_lt hlt]
  | fixstr => exact takeWhile_zeros (fun h => hnul (mem_of_mem_take h)) _
  | data =>
    simp only [slotValue, slotBytes, normalise]
    by_cases hlen : val.length = width * 2
    · have hhex := hdec rfl hlen
      obtain ⟨hl, he, hz⟩ := hexDecodeInto_hex width hlen hhex
      rw [if_pos hlen, hl, Nat.sub_self, replicate_zero, append_nil, he, hz]
      have hlen' : val.length = 2 * width := by omega
      simp only [hlen', hhex, true_and]
      by_cases hzero : val.all (· == 48) = true <;> simp [hzero]
    · have hlen' : ¬ val.length = 2 * width := by omega
      rw [if_neg hlen, isAllZero_replicate, if_pos rfl, if_neg (fun h => hlen' h.1)]
  | text => exact absurd rfl hk

def stored (fd : Field) (val : Name) : Name :=
  if fd.kind = .text then val else slotValue fd (slotBytes fd val)

theorem stored_eq_normalise (hnul : 0 ∉ val) (hdec : Decodable fd val) : stored fd val = normalise fd val := by
  by_cases hk : fd.kind = .text
  · rw [stored, if_pos hk, normalise, hk]
  · rw [stored, if_neg hk, slotValue_slotBytes hk hnul hdec]

theorem decimal_zero : decimal 0 = lit "0" := by decide +kernel

theorem slotValue_zeros (hk : fd.kind ≠ .text) : slotValue fd (replicate fd.extent 0) = unset fd := by
  rcases fd with ⟨name, kind, off, width⟩
  cases kind with
  | u8 => exact decimal_zero
  | u32 => exact decimal_zero
  | fixstr => exact takeWhile_zeros (s := []) (by simp) width
  | data => simp [slotValue, unset, Field.extent, isAllZero_replicate]
  | text => exact absurd rfl hk

end Spangap.FieldValues
