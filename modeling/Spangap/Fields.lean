import Spangap.Bytes
import Spangap.CJson
import Mathlib.Data.List.AList

namespace Spangap.Fields

open List Bytes CJson

variable {sc : Schema}

inductive Kind
  | u8
  | u32
  | fixstr
  | data
  | text
  deriving DecidableEq, Repr

/-- `off` is a byte offset in the fixed header, and for a text field its rank
among the text fields. -/
structure Field where
  name : Name
  kind : Kind
  off : Nat
  width : Nat
  deriving DecidableEq, Repr

def Field.extent (f : Field) : Nat :=
  match f.kind with
  | .u8 => 1
  | .u32 => 4
  | .fixstr => f.width
  | .data => f.width
  | .text => 0

def Field.isText (f : Field) : Bool := f.kind == .text

structure Schema where
  schemaId : Nat
  schemaVer : Nat
  hdrSize : Nat
  fields : List Field

def Schema.find (sc : Schema) (name : Name) : Option Field := sc.fields.find? fun f => f.name == name

/-- The counter is a `uint16_t`. -/
def Schema.textCount (sc : Schema) : Nat := sc.fields.countP Field.isText % 65536

inductive Decl
  | u8 (name : Name)
  | u32 (name : Name)
  | fixstr (name : Name) (width : Nat)
  | data (name : Name) (nbytes : Nat)
  | text (name : Name)
  deriving DecidableEq, Repr

def Decl.name : Decl → Name
  | u8 n | u32 n | fixstr n _ | data n _ | text n => n

def Decl.isText : Decl → Bool
  | text _ => true
  | _ => false

def Schema.u8 (sc : Schema) (name : Name) : Schema :=
  { sc with fields := sc.fields ++ [⟨name, .u8, sc.hdrSize, 0⟩], hdrSize := (sc.hdrSize + 1) % 65536 }

def Schema.u32 (sc : Schema) (name : Name) : Schema :=
  -- the offset is rounded up to a multiple of four
  let h := (sc.hdrSize + 3) / 4 * 4 % 65536
  { sc with fields := sc.fields ++ [⟨name, .u32, h, 0⟩], hdrSize := (h + 4) % 65536 }

def Schema.fixstr (sc : Schema) (name : Name) (width : Nat) : Schema :=
  { sc with
    fields := sc.fields ++ [⟨name, .fixstr, sc.hdrSize, width⟩]
    hdrSize := (sc.hdrSize + width) % 65536 }

def Schema.data (sc : Schema) (name : Name) (nbytes : Nat) : Schema :=
  { sc with
    fields := sc.fields ++ [⟨name, .data, sc.hdrSize, nbytes⟩]
    hdrSize := (sc.hdrSize + nbytes) % 65536 }

def Schema.text (sc : Schema) (name : Name) : Schema :=
  { sc with fields := sc.fields ++ [⟨name, .text, sc.textCount, 0⟩] }

def Schema.declare (sc : Schema) : Decl → Schema
  | .u8 n => sc.u8 n
  | .u32 n => sc.u32 n
  | .fixstr n w => sc.fixstr n w
  | .data n w => sc.data n w
  | .text n => sc.text n

def hdrBuiltin : Nat := 8

def build (schemaId schemaVer : Nat) (ds : List Decl) : Schema :=
  ds.foldl Schema.declare ⟨schemaId, schemaVer, hdrBuiltin, []⟩

def Decl.grow (h : Nat) : Decl → Nat
  | .u8 _ => h + 1
  | .u32 _ => (h + 3) / 4 * 4 + 4
  | .fixstr _ w => h + w
  | .data _ w => h + w
  | .text _ => h

/-- The field declarations of a schema: no string slot without room for the
terminator, and a header that fits its `uint16_t` size. -/
structure Declared (ds : List Decl) : Prop where
  fixstr : ∀ n w, Decl.fixstr n w ∈ ds → 0 < w
  header : ds.foldl Decl.grow hdrBuiltin < 65536

/-- Where the fields of a schema lie: fixed ones behind the built-in header,
one after the other; text ones ranked by their number. -/
structure Laid (sc : Schema) : Prop where
  builtin : hdrBuiltin ≤ sc.hdrSize
  header : sc.hdrSize < 65536
  few : sc.fields.countP Field.isText < 65536
  fixed : ∀ f ∈ sc.fields, f.kind ≠ .text → hdrBuiltin ≤ f.off ∧ f.off + f.extent ≤ sc.hdrSize
  apart : sc.fields.Pairwise fun f g => f.kind ≠ .text → g.kind ≠ .text → f.off + f.extent ≤ g.off
  ranked : ∀ f ∈ sc.fields, f.kind = .text → f.off < sc.textCount
  ranks : sc.fields.Pairwise fun f g => f.kind = .text → g.kind = .text → f.off ≠ g.off
  fixstr : ∀ f ∈ sc.fields, f.kind = .fixstr → 0 < f.width

theorem le_grow (h : Nat) (d : Decl) : h ≤ d.grow h := by
  cases d <;> simp only [Decl.grow] <;> omega

theorem le_foldl_grow (h : Nat) (ds : List Decl) : h ≤ ds.foldl Decl.grow h := by
  induction ds generalizing h with
  | nil => exact le_refl h
  | cons d ds ih => exact le_trans (le_grow h d) (ih (d.grow h))

theorem laid_fixed (h : Laid sc) {f : Field} {size : Nat} (hkind : f.kind ≠ .text) (hoff : sc.hdrSize ≤ f.off) (hsize : f.off + f.extent = size) (hfit : size < 65536) (hwidth : f.kind = .fixstr → 0 < f.width) :
    Laid { sc with fields := sc.fields ++ [f], hdrSize := size } where
  builtin := by
    have := h.builtin
    show _ ≤ size
    omega
  header := hfit
  few := by
    simp only [countP_append, countP_singleton, Field.isText, beq_iff_eq, hkind,
      if_false, Nat.add_zero]
    exact h.few
  fixed := by
    intro g hg hk
    rcases mem_append.mp hg with hg | hg
    · have := h.fixed g hg hk
      show _ ∧ _ ≤ size
      omega
    · rw [mem_singleton.mp hg]
      have := h.builtin
      exact ⟨by omega, le_of_eq hsize⟩
  apart := by
    refine pairwise_append.mpr ⟨h.apart, pairwise_singleton _ _, ?_⟩
    intro g hg k hk hgk _
    rw [mem_singleton.mp hk]
    exact le_trans (h.fixed g hg hgk).2 hoff
  ranked := by
    refine forall_mem_append.mpr ⟨fun g hg hk => ?_, forall_mem_singleton.mpr fun hk => absurd hk hkind⟩
    simpa [Schema.textCount, countP_append, Field.isText, hkind] using h.ranked g hg hk
  ranks := by
    refine pairwise_append.mpr ⟨h.ranks, pairwise_singleton _ _, ?_⟩
    intro g _ k hk _ hkt
    rw [mem_singleton.mp hk] at hkt
    exact absurd hkt hkind
  fixstr := forall_mem_append.mpr ⟨h.fixstr, forall_mem_singleton.mpr hwidth⟩

theorem laid_text (h : Laid sc) (name : Name) (hfew : sc.fields.countP Field.isText + 1 < 65536) : Laid (sc.text name) := by
  have hcount : sc.textCount = sc.fields.countP Field.isText := Nat.mod_eq_of_lt h.few
  have hnext : (sc.text name).textCount = sc.textCount + 1 := by
    rw [hcount, Schema.textCount, Schema.text, countP_append]
    exact Nat.mod_eq_of_lt hfew
  refine ⟨h.builtin, h.header, ?_, ?_, ?_, ?_, ?_, ?_⟩
  · rw [Schema.text, countP_append]
    exact hfew
  · exact forall_mem_append.mpr ⟨h.fixed, forall_mem_singleton.mpr fun hk => absurd rfl hk⟩
  · refine pairwise_append.mpr ⟨h.apart, pairwise_singleton _ _, ?_⟩
    intro g _ k hk _ hkt
    rw [mem_singleton.mp hk] at hkt
    exact absurd rfl hkt
  · rw [hnext]
    exact forall_mem_append.mpr ⟨fun g hg hk => Nat.lt_succ_of_lt (h.ranked g hg hk), forall_mem_singleton.mpr fun _ => Nat.lt_succ_self _⟩
  · refine pairwise_append.mpr ⟨h.ranks, pairwise_singleton _ _, ?_⟩
    intro g hg k hk hgt _
    rw [mem_singleton.mp hk]
    exact ne_of_lt (h.ranked g hg hgt)
  · exact forall_mem_append.mpr ⟨h.fixstr, forall_mem_singleton.mpr nofun⟩

theorem laid_declare (h : Laid sc) {d : Decl} (hfixstr : ∀ n w, d = .fixstr n w → 0 < w) (hheader : d.grow sc.hdrSize < 65536) (hfew : sc.fields.countP Field.isText + [d].countP Decl.isText < 65536) :
    Laid (sc.declare d) ∧ (sc.declare d).hdrSize = d.grow sc.hdrSize := by
  have hmod := Nat.mod_eq_of_lt hheader
  cases d with
  | u8 n => exact ⟨laid_fixed h nofun le_rfl hmod.symm (hmod ▸ hheader) nofun, hmod⟩
  | u32 n =>
    simp only [Decl.grow] at hheader hmod
    have halign : (sc.hdrSize + 3) / 4 * 4 % 65536 = (sc.hdrSize + 3) / 4 * 4 :=
      Nat.mod_eq_of_lt (by omega)
    simp only [Schema.declare, Schema.u32, halign, hmod]
    exact ⟨laid_fixed h nofun (by simp only []; omega) rfl hheader nofun, rfl⟩
  | fixstr n w =>
    exact ⟨laid_fixed h nofun le_rfl hmod.symm (hmod ▸ hheader) fun _ => hfixstr n w rfl, hmod⟩
  | data n w => exact ⟨laid_fixed h nofun le_rfl hmod.symm (hmod ▸ hheader) nofun, hmod⟩
  | text n => exact ⟨laid_text h n hfew, rfl⟩

theorem declare_names (sc : Schema) (d : Decl) :
    (sc.declare d).fields.map Field.name = sc.fields.map Field.name ++ [d.name] := by
  cases d <;> simp [Schema.declare, Schema.u8, Schema.u32, Schema.fixstr, Schema.data, Schema.text, Decl.name]

theorem declare_countP (sc : Schema) (d : Decl) :
    (sc.declare d).fields.countP Field.isText =
      sc.fields.countP Field.isText + [d].countP Decl.isText := by
  cases d <;> simp [Schema.declare, Schema.u8, Schema.u32, Schema.fixstr, Schema.data, Schema.text,
    Decl.isText, Field.isText]

theorem names_foldl_declare (sc : Schema) (ds : List Decl) :
    (ds.foldl Schema.declare sc).fields.map Field.name = sc.fields.map Field.name ++ ds.map Decl.name := by
  induction ds generalizing sc with
  | nil => simp
  | cons d ds ih => rw [foldl_cons, ih, declare_names, map_cons, append_assoc, singleton_append]

theorem laid_foldl_declare (h : Laid sc) {ds : List Decl} (hfixstr : ∀ n w, Decl.fixstr n w ∈ ds → 0 < w)
    (hheader : ds.foldl Decl.grow sc.hdrSize < 65536)
    (hfew : sc.fields.countP Field.isText + ds.countP Decl.isText < 65536) : Laid (ds.foldl Schema.declare sc) := by
  induction ds generalizing sc with
  | nil => exact h
  | cons d ds ih =>
    rw [← singleton_append, countP_append] at hfew
    obtain ⟨hlaid, hsize⟩ := laid_declare h (fun n w hd => hfixstr n w (hd ▸ mem_cons_self))
      (lt_of_le_of_lt (le_foldl_grow _ ds) hheader) (by omega)
    refine ih hlaid (fun n w hd => hfixstr n w (mem_cons_of_mem d hd)) (hsize ▸ hheader) ?_
    rw [declare_countP]
    omega

theorem laid_build {ds : List Decl} (h : Declared ds) (hfew : ds.countP Decl.isText < 65536)
    (schemaId schemaVer : Nat) : Laid (build schemaId schemaVer ds) := by
  have hempty : Laid ⟨schemaId, schemaVer, hdrBuiltin, []⟩ := by
    constructor <;> simp [hdrBuiltin]
  exact laid_foldl_declare hempty h.fixstr h.header (by simpa using hfew)

end Spangap.Fields
