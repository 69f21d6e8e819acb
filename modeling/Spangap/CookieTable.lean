import Mathlib.Data.List.Forall2
import Spangap.Cookies
import Spangap.TypeInference

namespace Spangap.CookieTable

open List Option CJson FirstMatch DotPath Merge Commit Subtree View Browser Cookies Decimals
open FieldValues (decimal leafText intText)
open TypeInference (inferType_iff)

def fieldNames : Vocabulary := vocabularyOf [lit "cookie", lit "expires", lit "realm"] (by decide) (by decide)

/-- What a text becomes by being stored and read again. -/
def canon (s : Name) : Name :=
  match inferType s with
  | some i => intText i
  | none => s

/-- The texts a slot shows; a field that is not there shows as empty. -/
abbrev Slot := Field → Name

variable {T : List Slot} {fs : List Field} {n i : Nat} {c : Child}

def blank : Slot := fun _ => []

def Shows (v : Json) (t : Slot) : Prop :=
  ∃ ks, v = .obj ks ∧ Tidy fieldNames (.obj ks) ∧ ∀ f : Field, ((getObjectItem ks f.name).bind leafText).getD [] = t f

theorem valueint_intCast {i : Int} (hlo : -2147483648 ≤ i) (hhi : i ≤ 2147483647) : valueint (i : Rat) = i := by
  have hup : (2147483647 : Rat) ≤ i → i = 2147483647 := by
    intro h
    have : ((2147483647 : Int) : Rat) ≤ (i : Rat) := h
    have := Rat.intCast_le_intCast.mp this
    omega
  have hdown : (i : Rat) ≤ -2147483648 → i = -2147483648 := by
    intro h
    have : (i : Rat) ≤ ((-2147483648 : Int) : Rat) := h
    have := Rat.intCast_le_intCast.mp this
    omega
  unfold valueint
  split
  next h => exact (hup h).symm
  · split
    next h => exact (hdown h).symm
    · rw [Rat.num_intCast, Rat.den_intCast]
      simp

theorem leafText_textValue (s : Name) : leafText (textValue s) = some (canon s) := by
  unfold textValue canon
  cases h : inferType s with
  | none => rfl
  | some i =>
    obtain ⟨-, hlo, hhi⟩ := inferType_iff.mp h
    simp only [leafText, valueint_intCast hlo hhi]

theorem leafText_same {a b : Json} (h : same a b = true) : leafText a = leafText b := by
  unfold same at h
  split at h
  · rw [beq_iff_eq] at h
    rw [leafText, leafText, h]
  · rw [beq_iff_eq] at h
    rw [leafText, leafText, h]
  · simp at h

theorem canon_decimal (n : Nat) : canon (decimal n) = decimal n := by
  unfold canon
  split
  next i h =>
    obtain ⟨⟨ds, hds, -⟩ | ⟨-, rfl⟩, -⟩ := inferType_iff.mp h
    · have := isDigit_decimal n 45 (by simp [hds])
      exact absurd this (by decide)
    · rw [value_decimal, intText, if_neg (by omega), Int.toNat_natCast]
  · rfl

section Slot

theorem mem_fieldNames (f : Field) : fieldNames.mem f.name = true := by
  cases f <;> decide

theorem fold_name_ne {f g : Field} (h : f ≠ g) : fold f.name ≠ fold g.name := by
  revert h
  cases f <;> cases g <;> decide

theorem segments_name (f : Field) : segments f.name = [f.name] := by
  cases f <;> decide

theorem plain_name (f : Field) : Plain (segments f.name) := by
  cases f <;> decide

def live (T : Option Json) (o : Op) : Bool :=
  match o.written with
  | none => false
  | some v => !skipped o.code v (T.bind fun w => navigatePath w o.key)

variable {T : Option Json} {P ks : List Child} {w : Field → Op}

theorem foldIn_field (hkey : ∀ f, (w f).key = f.name) (hval : ∀ f v, (w f).written = some v → Tidy fieldNames v)
    (hP : Tidy fieldNames (.obj P)) (f : Field) :
    Tidy fieldNames (.obj (foldIn T P (w f))) ∧
      ∀ g : Field, getObjectItem (foldIn T P (w f)) g.name = if g = f ∧ live T (w f) = true then (w f).written else getObjectItem P g.name := by
  unfold foldIn live
  cases hv : (w f).written with
  | none => exact ⟨hP, fun g => by simp⟩
  | some v =>
    dsimp only
    split
    next hskip => exact ⟨hP, fun g => by simp [hskip]⟩
    next hskip =>
      have hput : navigateOrCreate (putLeaf v) (segments (w f).key) P = putLeaf v f.name P := by
        rw [hkey, segments_name, navigateOrCreate_leaf (segments_name f ▸ plain_name f)]
      rw [hput]
      refine ⟨tidy_putLeaf hP (mem_fieldNames f) (hval f v hv), fun g => ?_⟩
      rcases eq_or_ne g f with rfl | hne
      · rw [if_pos ⟨rfl, by simpa using hskip⟩]
        exact getObjectItem_putLeaf (hP.count _) v
      · rw [if_neg (by simp [hne])]
        exact getObjectItem_apply (fold_name_ne hne.symm) (.put v) P

theorem foldl_fields (hkey : ∀ f, (w f).key = f.name) (hval : ∀ f v, (w f).written = some v → Tidy fieldNames v)
    (hP : Tidy fieldNames (.obj P)) (fs : List Field) :
    Tidy fieldNames (.obj ((fs.map w).foldl (foldIn T) P)) ∧
      ∀ g : Field, getObjectItem ((fs.map w).foldl (foldIn T) P) g.name =
        if g ∈ fs ∧ live T (w g) = true then (w g).written else getObjectItem P g.name := by
  induction fs generalizing P with
  | nil => exact ⟨hP, fun g => by simp⟩
  | cons f fs ih =>
    obtain ⟨htidy, hget⟩ := foldIn_field (T := T) hkey hval hP f
    obtain ⟨htidy', hget'⟩ := ih htidy
    refine ⟨htidy', fun g => ?_⟩
    rw [map_cons, foldl_cons, hget', hget]
    rcases eq_or_ne g f with rfl | hne
    · by_cases hl : live T (w g) = true <;> simp [hl]
    · simp [hne]

def setField (t : Slot) (f : Field) : Op := ⟨.set, f.name, some (textValue (t f))⟩

def unsetField (f : Field) : Op := ⟨.delete, f.name, none⟩

theorem textValue_scalar (s : Name) : ∃ x, textValue s = .scalar x ∧ x ≠ .null := by
  unfold textValue
  split
  · exact ⟨_, rfl, by simp⟩
  · exact ⟨_, rfl, by simp⟩

theorem mergeAt_scalar (cur : Option Json) {x : Scalar} (hx : x ≠ .null) : mergeAt cur (some (.scalar x)) = some (.scalar x) := by
  cases x with
  | null => exact absurd rfl hx
  | bool b | num b | str b => rfl

theorem setField_tidy (t : Slot) (f : Field) (v : Json) (hv : (setField t f).written = some v) : Tidy fieldNames v := by
  obtain ⟨x, hx, -⟩ := textValue_scalar (t f)
  rw [show (setField t f).written = some (textValue (t f)) from rfl, hx] at hv
  cases hv
  exact .scalar x

theorem navigatePath_field (f : Field) (ks : List Child) : navigatePath (.obj ks) f.name = getObjectItem ks f.name := by
  rw [navigatePath_plain (plain_name f), segments_name, navigate_plain (segments_name f ▸ plain_name f)]
  cases h : getObjectItem ks f.name <;> simp [child, h, navigate]

theorem shows_set (hks : Tidy fieldNames (.obj ks)) (t : Slot) (hall : ∀ f, f ∈ fs) :
    Shows (.obj (deepMerge ks (patchIn (some (.obj ks)) (fs.map (setField t))))) (canon ∘ t) := by
  obtain ⟨htidy, hget⟩ := foldl_fields (T := some (.obj ks)) (w := setField t) (fun _ => rfl) (setField_tidy t) tidy_nil fs
  refine ⟨_, rfl, tidy_deepMerge hks htidy, fun f => ?_⟩
  rw [patchIn, getObjectItem_deepMerge_eq (hks.count _) (htidy.count _), hget]
  obtain ⟨x, hx, hnull⟩ := textValue_scalar (t f)
  have htext := leafText_textValue (t f)
  split
  · rw [show (setField t f).written = some (textValue (t f)) from rfl]
    rw [hx] at htext ⊢
    rw [mergeAt_scalar _ hnull, bind_some, htext]
    rfl
  next hnot =>
    have hskip : skipped .set (textValue (t f)) (navigatePath (.obj ks) f.name) = true := by
      simpa [hall f, live, setField, Op.written] using hnot
    rw [navigatePath_field] at hskip
    cases hcur : getObjectItem ks f.name with
    | none => simp [hcur, skipped] at hskip
    | some cur =>
      rw [hcur] at hskip
      have hsame : same cur (textValue (t f)) = true := hskip
      simp only [getObjectItem, find?_nil, map_none, mergeAt, bind_some, leafText_same hsame, htext]
      rfl

theorem shows_unset (hks : Tidy fieldNames (.obj ks)) (hall : ∀ f, f ∈ fs) :
    Shows (.obj (deepMerge ks (patchIn (some (.obj ks)) (fs.map unsetField)))) blank := by
  have hval : ∀ f v, (unsetField f).written = some v → Tidy fieldNames v := by
    intro f v hv
    cases hv
    exact tidy_null
  obtain ⟨htidy, hget⟩ := foldl_fields (T := some (.obj ks)) (w := unsetField) (fun _ => rfl) hval tidy_nil fs
  refine ⟨_, rfl, tidy_deepMerge hks htidy, fun f => ?_⟩
  have hlive : live (some (.obj ks)) (unsetField f) = true := by
    simp only [live, unsetField, Op.written]
    cases (some (Json.obj ks)).bind fun w => navigatePath w f.name <;> rfl
  rw [patchIn, getObjectItem_deepMerge_eq (hks.count _) (htidy.count _), hget, if_pos ⟨hall f, hlive⟩]
  rfl

theorem shows_new (t : Slot) (hall : ∀ f, f ∈ fs) : Shows (.obj (patchIn none (fs.map (setField t)))) (canon ∘ t) := by
  obtain ⟨htidy, hget⟩ := foldl_fields (T := none) (w := setField t) (fun _ => rfl) (setField_tidy t) tidy_nil fs
  refine ⟨_, rfl, htidy, fun f => ?_⟩
  have hlive : live none (setField t f) = true := rfl
  rw [patchIn, hget, if_pos ⟨hall f, hlive⟩, show (setField t f).written = some (textValue (t f)) from rfl, bind_some,
    leafText_textValue]
  rfl

end Slot

section Array

/-- Ops on one slot, and the texts they leave there. -/
structure Group where
  idx : Nat
  ops : List Op
  texts : Slot

def Group.keyed (g : Group) : List Op := g.ops.map (under (decimal g.idx))

def Group.patch (arr : List Child) (g : Group) : List Child := patchIn (below (some (.arr arr)) (decimal g.idx)) g.ops

def slotPatch (arr : List Child) (gs : List Group) : List Child :=
  gs.filterMap fun g => if g.patch arr = [] then none else some (some (decimal g.idx), .obj (g.patch arr))

variable {arr a : List Child} {gs : List Group}

theorem segment_decimal (hn : n ≤ 2147483647) : Segment (decimal n) := by
  refine ⟨decimal_ne_nil n, (length_decimal (by decide) (lt_of_le_of_lt hn (show _ < 10 ^ 10 by decide))).trans (by decide), fun h => ?_⟩
  exact absurd (isDigit_decimal n _ h) (by decide)

theorem named_decimal {m : Nat} {v : Json} : named (decimal m) (some (decimal n), v) = true ↔ n = m := by
  rw [named_some]
  constructor
  · intro h
    exact decimal_injective (eq_of_fold_digits (isAllDigits_decimal m) h)
  · rintro rfl
    rfl

theorem below_decimal (arr : List Child) (hn : n ≤ 2147483647) :
    below (some (.arr arr)) (decimal n) = arr[n]?.map Prod.snd := by
  rw [below, bind_some, child_arr (isAllDigits_decimal n), atoi_decimal hn]
  rfl

/-- A group of ops that touches no slot of the others. -/
structure Apart (gs : List Group) : Prop where
  small : ∀ g ∈ gs, g.idx ≤ 2147483647
  nodup : (gs.map Group.idx).Nodup
  plain : ∀ g ∈ gs, ∀ o ∈ g.ops, Plain (segments o.key)

theorem Apart.tail {g : Group} (h : Apart (g :: gs)) : Apart gs :=
  ⟨fun x hx => h.small x (mem_cons_of_mem _ hx), (nodup_cons.mp h.nodup).2, fun x hx => h.plain x (mem_cons_of_mem _ hx)⟩

theorem foldl_slots (h : Apart gs) {P : List Child} (hP : ∀ g ∈ gs, ∀ c ∈ P, named (decimal g.idx) c = false) :
    (gs.flatMap Group.keyed).foldl (foldIn (some (.arr arr))) P = P ++ slotPatch arr gs := by
  induction gs generalizing P with
  | nil => simp [slotPatch]
  | cons g gs ih =>
    have hg := mem_cons_self (a := g) (l := gs)
    have hgroup : g.keyed.foldl (foldIn (some (.arr arr))) P = grouped P (decimal g.idx) (g.patch arr) :=
      foldl_under (Q := []) (segment_decimal (h.small g hg)) (h.plain g hg) (hP g hg)
    rw [flatMap_cons, foldl_append, hgroup, ih h.tail]
    · unfold grouped slotPatch
      rw [filterMap_cons]
      by_cases hnil : g.patch arr = []
      · rw [if_pos hnil, if_pos hnil]
      · rw [if_neg hnil, if_neg hnil, append_assoc]
        rfl
    · intro x hx c hc
      unfold grouped at hc
      split at hc
      · exact hP x (mem_cons_of_mem _ hx) c hc
      · rcases mem_append.mp hc with hc | hc
        · exact hP x (mem_cons_of_mem _ hx) c hc
        · rw [mem_singleton.mp hc, Bool.eq_false_iff, ne_eq, named_decimal]
          exact fun heq => (nodup_cons.mp h.nodup).1 (heq ▸ mem_map_of_mem hx)

theorem patchIn_slots (h : Apart gs) : patchIn (some (.arr arr)) (gs.flatMap Group.keyed) = slotPatch arr gs :=
  foldl_slots (P := []) h (by simp)

theorem mem_slotPatch (hc : c ∈ slotPatch arr gs) : ∃ n Q, c = (some (decimal n), .obj Q) := by
  obtain ⟨g, -, hg⟩ := mem_filterMap.mp hc
  split at hg
  · simp at hg
  · exact ⟨_, _, (some.inj hg).symm⟩

theorem allNumericKeys_slotPatch (h : slotPatch arr gs ≠ []) : allNumericKeys (slotPatch arr gs) = true := by
  rw [allNumericKeys, Bool.and_eq_true, List.all_eq_true]
  refine ⟨by simpa using h, fun c hc => ?_⟩
  obtain ⟨n, Q, rfl⟩ := mem_slotPatch hc
  exact isAllDigits_decimal n

theorem deleteElems_slotPatch (a : List Child) : deleteElems a (slotPatch arr gs) = a := by
  have hnone : (slotPatch arr gs).filter (fun c => c.2.isNull) = [] := by
    rw [filter_eq_nil_iff]
    intro c hc
    obtain ⟨n, Q, rfl⟩ := mem_slotPatch hc
    simp [Json.isNull]
  rw [deleteElems, hnone]
  rfl

/-- The slots show the texts that the table has for them. -/
def Rows (a : List Child) (T : List Slot) : Prop := List.Forall₂ (fun c t => Shows c.2 t) a T

theorem rows_set (h : Rows a T) {t : Slot} (hc : Shows c.2 t) : Rows (a.set i c) (T.set i t) := by
  induction h generalizing i with
  | nil => exact .nil
  | cons hab h ih =>
    cases i with
    | zero => exact .cons hc h
    | succ i => exact .cons hab ih

theorem Rows.get (h : Rows a T) {t : Slot} (ht : T[i]? = some t) : ∃ c, a[i]? = some c ∧ Shows c.2 t := by
  induction h generalizing i with
  | nil => simp at ht
  | cons hab h ih =>
    cases i with
    | zero =>
      cases ht
      exact ⟨_, rfl, hab⟩
    | succ i => exact ih ht

def Group.Leaves (g : Group) : Prop :=
  ∀ ks, Tidy fieldNames (.obj ks) → Shows (.obj (deepMerge ks (patchIn (some (.obj ks)) g.ops))) g.texts

theorem mergeElem_group {g : Group} (hrows : Rows a T) (hin : g.idx < T.length) (hsmall : g.idx ≤ 2147483647)
    (hsame : a[g.idx]? = arr[g.idx]?) (hg : g.Leaves) :
    ∃ c, mergeElems a (slotPatch arr [g]) = a.set g.idx c ∧ Rows (a.set g.idx c) (T.set g.idx g.texts) := by
  obtain ⟨⟨m, v⟩, hc, ks, hks, htidy, -⟩ := hrows.get (getElem?_eq_getElem hin)
  subst hks
  have hpatch : g.patch arr = patchIn (some (.obj ks)) g.ops := by
    rw [Group.patch, below_decimal arr hsmall, ← hsame, hc]
    rfl
  refine ⟨(m, .obj (deepMerge ks (g.patch arr))), ?_, rows_set hrows (hpatch ▸ hg ks htidy)⟩
  unfold slotPatch
  by_cases hnil : g.patch arr = []
  · simp only [filterMap_cons, hnil, if_true, filterMap_nil, mergeElems, deepMerge_nil]
    obtain ⟨hi, hget⟩ := List.getElem?_eq_some_iff.mp hc
    rw [← hget, set_getElem_self]
  · simp only [filterMap_cons, if_neg hnil, filterMap_nil, mergeElems, mergeElem, elemIndex, getD_some,
      atoi_decimal hsmall, hc]

theorem mergeElems_append (a P Q : List Child) : mergeElems a (P ++ Q) = mergeElems (mergeElems a P) Q := by
  induction P generalizing a with
  | nil => rw [nil_append, mergeElems]
  | cons c P ih => rw [cons_append, mergeElems, mergeElems, ih]

theorem rows_slots (h : Apart gs) (hleave : ∀ g ∈ gs, g.Leaves) (hin : ∀ g ∈ gs, g.idx < T.length) (hrows : Rows a T)
    (hsame : ∀ g ∈ gs, a[g.idx]? = arr[g.idx]?) :
    Rows (mergeElems a (slotPatch arr gs)) (gs.foldl (fun T g => T.set g.idx g.texts) T) := by
  induction gs generalizing a T with
  | nil => exact hrows
  | cons g gs ih =>
    have hg := mem_cons_self (a := g) (l := gs)
    obtain ⟨c, hmerge, hset⟩ := mergeElem_group hrows (hin g hg) (h.small g hg) (hsame g hg) (hleave g hg)
    have hsplit : slotPatch arr (g :: gs) = slotPatch arr [g] ++ slotPatch arr gs := filterMap_append (l := [g])
    rw [hsplit, mergeElems_append, hmerge, foldl_cons]
    refine ih h.tail (fun x hx => hleave x (mem_cons_of_mem _ hx)) ?_ hset ?_
    · intro x hx
      rw [length_set]
      exact hin x (mem_cons_of_mem _ hx)
    · intro x hx
      have hne : g.idx ≠ x.idx := fun heq => (nodup_cons.mp h.nodup).1 (heq ▸ mem_map_of_mem hx)
      rw [getElem?_set_ne hne]
      exact hsame x (mem_cons_of_mem _ hx)

end Array

end Spangap.CookieTable
