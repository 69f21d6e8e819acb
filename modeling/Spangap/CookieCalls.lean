import Spangap.CookieTable

namespace Spangap.CookieCalls

open List Option CJson FirstMatch DotPath Merge Commit Subtree View Browser Cookies CookieTable Decimals
open FieldValues (decimal leafText)

variable {gs : List Group} {o : Op} {arr root : List Child} {T : List Slot} {pats : List (List Name)}

def rooted (o : Op) : Op := under (lit "secrets") (under (lit "auth") (under (lit "cookies") o))

/-- The sessions of the committed tree are the rows of the table. -/
def Holds (root : List Child) (T : List Slot) : Prop :=
  ∃ arr, node (.obj root) [lit "secrets", lit "auth", lit "cookies"] = some (.arr arr) ∧ Rows arr T

theorem node_three {a b c : Name} {v : Json} (h : node (.obj root) [a, b, c] = some v) :
    ∃ A B, getObjectItem root a = some (.obj A) ∧ getObjectItem A b = some (.obj B) ∧ getObjectItem B c = some v := by
  obtain ⟨x, hx, h⟩ := bind_eq_some_iff.mp h
  rcases x with x | x | A
  · simp [node] at h
  · simp [node] at h
  obtain ⟨y, hy, h⟩ := bind_eq_some_iff.mp h
  rcases y with y | y | B
  · simp [node] at h
  · simp [node] at h
  obtain ⟨z, hz, h⟩ := bind_eq_some_iff.mp h
  cases h
  exact ⟨A, B, hx, hy, hz⟩

theorem key_eq (i : Nat) (f : Field) (c : OpCode) (v : Option Json) :
    cookieKey i f = (rooted (under (decimal i) ⟨c, f.name, v⟩)).key := by
  have hlit : lit "secrets.auth.cookies." = lit "secrets" ++ 46 :: (lit "auth" ++ 46 :: (lit "cookies" ++ [46])) := by decide
  rw [cookieKey, hlit]
  simp [rooted, under]

theorem segment_names : Segment (lit "secrets") ∧ Segment (lit "auth") ∧ Segment (lit "cookies") := by decide

theorem plain_rooted (ho : Plain (segments o.key)) :
    Plain (segments (under (lit "cookies") o).key) ∧ Plain (segments (under (lit "auth") (under (lit "cookies") o)).key) := by
  obtain ⟨-, hauth, hcookies⟩ := segment_names
  have hone : Plain (segments (under (lit "cookies") o).key) := segments_under hcookies o ▸ plain_under hcookies ho
  exact ⟨hone, segments_under hauth (under (lit "cookies") o) ▸ plain_under hauth hone⟩

theorem navigatePath_rooted (h : node (.obj root) [lit "secrets", lit "auth", lit "cookies"] = some (.arr arr))
    (ho : Plain (segments o.key)) : navigatePath (.obj root) (rooted o).key = navigatePath (.arr arr) o.key := by
  obtain ⟨A, B, hA, hB, hC⟩ := node_three h
  obtain ⟨hsecrets, hauth, hcookies⟩ := segment_names
  obtain ⟨hone, htwo⟩ := plain_rooted ho
  have h1 := navigatePath_under hsecrets htwo (some (.obj root))
  have h2 := navigatePath_under hauth hone (some (.obj A))
  have h3 := navigatePath_under hcookies ho (some (.obj B))
  rw [show below (some (.obj root)) (lit "secrets") = some (.obj A) from hA] at h1
  rw [show below (some (.obj A)) (lit "auth") = some (.obj B) from hB] at h2
  rw [show below (some (.obj B)) (lit "cookies") = some (.arr arr) from hC] at h3
  exact h1.trans (h2.trans h3)

theorem storageGetStr_eq (h : Holds root T) {i : Nat} (hi : i ≤ 2147483647) (f : Field) (n : Nat) :
    storageGetStr root (cookieKey i f) n = (T.getD i blank f).take (n - 1) := by
  obtain ⟨arr, hnode, hrows⟩ := h
  have hseg := segment_decimal hi
  have hplain : Plain (segments (under (decimal i) ⟨.set, f.name, none⟩).key) :=
    segments_under hseg _ ▸ plain_under hseg (plain_name f)
  have hstep := navigatePath_under (o := ⟨.set, f.name, none⟩) hseg (plain_name f) (some (.arr arr))
  rw [storageGetStr, key_eq i f .set none, navigatePath_rooted hnode hplain]
  rw [bind_some, below_decimal arr hi] at hstep
  rw [hstep]
  congr 1
  by_cases hlt : i < T.length
  · obtain ⟨c, hc, ks, hks, -, htext⟩ := hrows.get (getElem?_eq_getElem hlt)
    have hget : T.getD i blank = T[i] := by simp [hlt]
    rw [hc, map_some, bind_some, hks, navigatePath_field, hget]
    exact htext f
  · have hlen := hrows.length_eq
    have hget : T.getD i blank = blank := by simp [getElem?_eq_none (Nat.not_lt.mp hlt)]
    rw [getElem?_eq_none (by omega), hget]
    rfl

theorem cookieCount_eq (h : Holds root T) : cookieCount root = T.length := by
  obtain ⟨arr, hnode, hrows⟩ := h
  obtain ⟨A, B, hA, hB, hC⟩ := node_three hnode
  have hseg : segments (Persist.stripDots (lit "secrets.auth.cookies.")) = [lit "secrets", lit "auth", lit "cookies"] := by decide
  have hplain : Plain (segments (Persist.stripDots (lit "secrets.auth.cookies."))) := by decide
  have hnav : navigatePath (.obj root) (Persist.stripDots (lit "secrets.auth.cookies.")) = some (.arr arr) := by
    rw [navigatePath_plain hplain, hseg, navigate_plain (by decide), child_obj, hA, bind_some, navigate_plain (by decide), child_obj,
      hB, bind_some, navigate_plain (by decide), child_obj, hC]
    rfl
  simp only [cookieCount, storageArrayCount, hnav]
  exact hrows.length_eq

/-- No record store has a key of the sessions. -/
def Unrouted (pats : List (List Name)) : Prop := ∀ i f, sdbRoute pats (cookieKey i f) = none

theorem node_commit (hnode : node (.obj root) [lit "secrets", lit "auth", lit "cookies"] = some (.arr arr)) {ops : List Op}
    (hplain : ∀ o ∈ ops, Plain (segments o.key)) (hroute : ∀ o ∈ ops, sdbRoute pats (rooted o).key = none)
    (hdigits : patchIn (some (.arr arr)) ops ≠ [] → allNumericKeys (patchIn (some (.arr arr)) ops) = true) :
    node (.obj (commit pats root (ops.map rooted))) [lit "secrets", lit "auth", lit "cookies"] =
      some (.arr (deepMergeIntoArray arr (patchIn (some (.arr arr)) ops))) := by
  obtain ⟨A, B, hA, hB, hC⟩ := node_three hnode
  obtain ⟨hsecrets, hauth, hcookies⟩ := segment_names
  have hmap : ops.map rooted = ((ops.map (under (lit "cookies"))).map (under (lit "auth"))).map (under (lit "secrets")) := by
    rw [List.map_map, List.map_map]
    rfl
  have hone : ∀ o ∈ ops.map (under (lit "cookies")), Plain (segments o.key) := by
    intro o ho
    obtain ⟨x, hx, rfl⟩ := mem_map.mp ho
    exact (plain_rooted (hplain x hx)).1
  have htwo : ∀ o ∈ (ops.map (under (lit "cookies"))).map (under (lit "auth")), Plain (segments o.key) := by
    intro o ho
    rw [List.map_map] at ho
    obtain ⟨x, hx, rfl⟩ := mem_map.mp ho
    exact (plain_rooted (hplain x hx)).2
  rw [commit_eq_patchIn, hmap, node, getObjectItem_under_obj hsecrets htwo hA, bind_some, node,
    getObjectItem_under_obj hauth hone hB, bind_some, node, getObjectItem_under_arr hcookies hplain hC hdigits]
  · rfl
  · intro o ho
    obtain ⟨x, hx, rfl⟩ := mem_map.mp ho
    exact hroute x hx

def Group.Ours (g : Group) : Prop := ∀ o ∈ g.ops, ∃ f : Field, o.key = f.name

section

variable (hsmall : ∀ g ∈ gs, g.idx ≤ 2147483647) (hours : ∀ g ∈ gs, Group.Ours g)
include hsmall hours

theorem keyed_ours (ho : o ∈ gs.flatMap Group.keyed) :
    ∃ i f, (rooted o).key = cookieKey i f ∧ Plain (segments o.key) := by
  obtain ⟨g, hg, ho⟩ := mem_flatMap.mp ho
  obtain ⟨x, hx, rfl⟩ := mem_map.mp ho
  obtain ⟨f, hf⟩ := hours g hg x hx
  have hseg := segment_decimal (hsmall g hg)
  refine ⟨g.idx, f, ?_, segments_under hseg x ▸ plain_under hseg (hf ▸ plain_name f)⟩
  rw [key_eq g.idx f x.code x.val, ← hf]

theorem apart_of_ours (hnodup : (gs.map Group.idx).Nodup) : Apart gs :=
  ⟨hsmall, hnodup, fun g hg o ho => by
    obtain ⟨f, hf⟩ := hours g hg o ho
    exact hf ▸ plain_name f⟩

end

theorem node_groups (hnode : node (.obj root) [lit "secrets", lit "auth", lit "cookies"] = some (.arr arr)) (hpats : Unrouted pats)
    (hsmall : ∀ g ∈ gs, g.idx ≤ 2147483647) (hours : ∀ g ∈ gs, Group.Ours g) (hnodup : (gs.map Group.idx).Nodup) :
    node (.obj (commit pats root ((gs.flatMap Group.keyed).map rooted))) [lit "secrets", lit "auth", lit "cookies"] =
      some (.arr (mergeElems arr (slotPatch arr gs))) := by
  have hapart := apart_of_ours hsmall hours hnodup
  have hpatch : patchIn (some (.arr arr)) (gs.flatMap Group.keyed) = slotPatch arr gs := patchIn_slots hapart
  rw [node_commit hnode, hpatch, deepMergeIntoArray, deleteElems_slotPatch]
  · intro o ho
    obtain ⟨-, -, -, hplain⟩ := keyed_ours hsmall hours ho
    exact hplain
  · intro o ho
    obtain ⟨i, f, hkey, -⟩ := keyed_ours hsmall hours ho
    rw [hkey]
    exact hpats i f
  · rw [hpatch]
    exact allNumericKeys_slotPatch

theorem holds_groups (h : Holds root T) (hpats : Unrouted pats) (hlen : T.length ≤ 2147483647) (hin : ∀ g ∈ gs, g.idx < T.length)
    (hours : ∀ g ∈ gs, Group.Ours g) (hleave : ∀ g ∈ gs, g.Leaves) (hnodup : (gs.map Group.idx).Nodup) :
    Holds (commit pats root ((gs.flatMap Group.keyed).map rooted)) (gs.foldl (fun T g => T.set g.idx g.texts) T) := by
  obtain ⟨arr, hnode, hrows⟩ := h
  have hsmall : ∀ g ∈ gs, g.idx ≤ 2147483647 := fun g hg => by
    have := hin g hg
    omega
  exact ⟨_, node_groups hnode hpats hsmall hours hnodup,
    rows_slots (apart_of_ours hsmall hours hnodup) hleave hin hrows fun _ _ => rfl⟩

/-- Texts that are stored as they are and fit the buffers they are read into. -/
structure Sound (t : Slot) : Prop where
  canon : ∀ f, canon (t f) = t f
  cookie : (t .cookie).length ≤ 63
  expires : (t .expires).length ≤ 23
  realm : (t .realm).length ≤ 31

theorem sound_blank : Sound blank := ⟨fun _ => rfl, by decide, by decide, by decide⟩

theorem Sound.length {t : Slot} (h : Sound t) (f : Field) : (t f).length ≤ 127 := by
  cases f with
  | cookie => exact h.cookie.trans (by decide)
  | expires => exact h.expires.trans (by decide)
  | realm => exact h.realm.trans (by decide)

theorem sound_getD (h : ∀ t ∈ T, Sound t) (i : Nat) : Sound (T.getD i blank) := by
  by_cases hi : i < T.length
  · rw [getD_eq_getElem?_getD, getElem?_eq_getElem hi]
    exact h _ (getElem_mem hi)
  · rw [getD_eq_getElem?_getD, getElem?_eq_none (Nat.not_lt.mp hi)]
    exact sound_blank

theorem setOp_eq (t : Slot) (i : Nat) (f : Field) : setOp i f (t f) = rooted (under (decimal i) (setField t f)) := by
  rw [setOp, key_eq i f .set (some (textValue (t f)))]
  rfl

theorem unsetOp_eq (i : Nat) (f : Field) : unsetOp i f = rooted (under (decimal i) (unsetField f)) := by
  rw [unsetOp, key_eq i f .delete none]
  rfl

def filling (i : Nat) (fs : List Field) (t : Slot) : Group := ⟨i, fs.map (setField t), canon ∘ t⟩

def clearing (i : Nat) (fs : List Field) : Group := ⟨i, fs.map unsetField, blank⟩

theorem ours_filling (i : Nat) (fs : List Field) (t : Slot) : Group.Ours (filling i fs t) := by
  intro o ho
  obtain ⟨f, -, rfl⟩ := mem_map.mp ho
  exact ⟨f, rfl⟩

theorem ours_clearing (i : Nat) (fs : List Field) : Group.Ours (clearing i fs) := by
  intro o ho
  obtain ⟨f, -, rfl⟩ := mem_map.mp ho
  exact ⟨f, rfl⟩

theorem keyed_filling (i : Nat) (fs : List Field) (t : Slot) : (filling i fs t).keyed.map rooted = fs.map fun f => setOp i f (t f) := by
  rw [Group.keyed, filling, List.map_map, List.map_map]
  exact map_congr_left fun f _ => (setOp_eq t i f).symm

theorem keyed_clearing (i : Nat) (fs : List Field) : (clearing i fs).keyed.map rooted = fs.map fun f => unsetOp i f := by
  rw [Group.keyed, clearing, List.map_map, List.map_map]
  exact map_congr_left fun f _ => (unsetOp_eq i f).symm

theorem getElem?_foldl_set {α : Type} (g : Nat → α) (idx k : Nat) (S : List α) (j : Nat) :
    ((range' idx k).foldl (fun S i => S.set i (g i)) S)[j]? =
      if idx ≤ j ∧ j < idx + k ∧ j < S.length then some (g j) else S[j]? := by
  induction k generalizing idx S with
  | zero =>
    rw [if_neg (by omega)]
    rfl
  | succ k ih =>
    rw [range'_succ, foldl_cons, ih, length_set, getElem?_set]
    rcases lt_trichotomy j idx with hlt | rfl | hgt
    · rw [if_neg (by omega), if_neg (by omega), if_neg (by omega)]
    · by_cases hj : j < S.length
      · rw [if_neg (by omega), if_pos rfl, if_pos hj, if_pos (by omega)]
      · rw [if_neg (by omega), if_pos rfl, if_neg hj, if_neg (by omega), getElem?_eq_none (Nat.not_lt.mp hj)]
    · by_cases hj : j < idx + 1 + k ∧ j < S.length
      · rw [if_pos (by omega), if_pos (by omega)]
      · rw [if_neg (by omega), if_neg (by omega), if_neg (by omega)]

theorem foldl_shift {idx : Nat} (hidx : idx < T.length) :
    ((range' idx (T.length - 1 - idx)).foldl (fun S i => S.set i (T.getD (i + 1) blank)) T).set (T.length - 1) blank =
      T.eraseIdx idx ++ [blank] := by
  have hlen : ∀ (l : List Nat) (S : List Slot), (l.foldl (fun S i => S.set i (T.getD (i + 1) blank)) S).length = S.length := by
    intro l
    induction l with
    | nil => exact fun _ => rfl
    | cons i l ih => exact fun S => (ih _).trans (length_set ..)
  apply ext_getElem?
  intro j
  rw [getElem?_set, hlen, getElem?_foldl_set, getElem?_append, length_eraseIdx, if_pos hidx, getElem?_eraseIdx]
  rcases lt_trichotomy j (T.length - 1) with hlt | rfl | hgt
  · rw [if_neg (by omega), if_pos hlt]
    by_cases hj : j < idx
    · rw [if_neg (by omega), if_pos hj]
    · rw [if_pos (by omega), if_neg hj, getD_eq_getElem?_getD, getElem?_eq_getElem (by omega)]
      rfl
  · rw [if_pos rfl, if_pos (by omega), if_neg (by omega), Nat.sub_self]
    rfl
  · rw [if_neg (by omega), if_neg (by omega), if_neg (by omega), getElem?_eq_none (by omega), getElem?_eq_none (by simp; omega)]

theorem holds_remove (h : Holds root T) (hpats : Unrouted pats) (hsound : ∀ t ∈ T, Sound t) (hlen : T.length ≤ 2147483647)
    (idx : Nat) (hidx : idx < T.length) : Holds (cookieRemove pats root idx) (T.eraseIdx idx ++ [blank]) := by
  have hall : ∀ f, f ∈ [Field.cookie, .expires, .realm] := fun f => by cases f <;> simp
  let fill : Nat → Group := fun i => filling i [.cookie, .expires, .realm] (T.getD (i + 1) blank)
  let gs := (range' idx (T.length - 1 - idx)).map fill ++ [clearing (T.length - 1) [.cookie, .expires, .realm]]
  have hmem : ∀ g ∈ gs, (∃ i, idx ≤ i ∧ i < T.length - 1 ∧ g = fill i) ∨ g = clearing (T.length - 1) [.cookie, .expires, .realm] := by
    intro g hg
    rcases mem_append.mp hg with hg | hg
    · obtain ⟨i, hi, rfl⟩ := mem_map.mp hg
      rw [mem_range'_1] at hi
      exact .inl ⟨i, hi.1, by omega, rfl⟩
    · exact .inr (mem_singleton.mp hg)
  have hops : removeOps root idx T.length = (gs.flatMap Group.keyed).map rooted := by
    rw [flatMap_append, List.map_append, flatMap_map, map_flatMap, flatMap_singleton, keyed_clearing, removeOps]
    congr 1
    refine flatMap_congr fun i hi => ?_
    rw [mem_range'_1] at hi
    rw [keyed_filling]
    refine map_congr_left fun f _ => ?_
    rw [storageGetStr_eq h (by omega), take_of_length_le ((sound_getD hsound (i + 1)).length f)]
  have hidxs : gs.map Group.idx = range' idx (T.length - 1 - idx) ++ [T.length - 1] := by
    rw [List.map_append, List.map_map, show Group.idx ∘ fill = id from rfl, List.map_id, List.map_singleton, clearing]
  have htexts : gs.foldl (fun T g => T.set g.idx g.texts) T = T.eraseIdx idx ++ [blank] := by
    rw [← foldl_shift hidx, foldl_append, foldl_map, foldl_cons, foldl_nil]
    congr 1
    refine foldl_ext _ _ _ fun S i _ => ?_
    congr 1
    funext f
    exact (sound_getD hsound (i + 1)).canon f
  rw [cookieRemove, cookieCount_eq h, hops, ← htexts]
  refine holds_groups h hpats hlen ?_ ?_ ?_ ?_
  · intro g hg
    rcases hmem g hg with ⟨i, -, hi, rfl⟩ | rfl
    · exact lt_of_lt_of_le hi (Nat.sub_le _ _)
    · exact Nat.sub_lt (Nat.zero_lt_of_lt hidx) Nat.one_pos
  · intro g hg
    rcases hmem g hg with ⟨i, -, -, rfl⟩ | rfl
    · exact ours_filling _ _ _
    · exact ours_clearing _ _
  · intro g hg ks hks
    rcases hmem g hg with ⟨i, -, -, rfl⟩ | rfl
    · exact shows_set hks _ hall
    · exact shows_unset hks hall
  · rw [hidxs, nodup_append]
    refine ⟨nodup_range', nodup_singleton _, fun a ha b hb => ?_⟩
    rw [mem_range'_1] at ha
    rw [mem_singleton.mp hb]
    omega

def slotOf (token realm : Name) (expires : Nat) : Slot
  | .cookie => token
  | .expires => decimal expires
  | .realm => realm

theorem addOps_eq (i : Nat) (token realm : Name) (expires : Nat) : addOps i token realm expires =
      ([filling i [.cookie, .realm, .expires] (slotOf token realm expires)].flatMap Group.keyed).map rooted := by
  rw [flatMap_singleton, keyed_filling]
  rfl

theorem all_fields (f : Field) : f ∈ [Field.cookie, .realm, .expires] := by
  cases f <;> simp

theorem holds_fill (h : Holds root T) (hpats : Unrouted pats) (hlen : T.length ≤ 2147483647) {i : Nat} (hi : i < T.length)
    (token realm : Name) (expires : Nat) :
    Holds (commit pats root (addOps i token realm expires)) (T.set i (canon ∘ slotOf token realm expires)) := by
  rw [addOps_eq]
  refine holds_groups (T := T) h hpats hlen ?_ ?_ ?_ (nodup_singleton _) <;> intro g hg <;> rw [mem_singleton.mp hg]
  · exact hi
  · exact ours_filling _ _ _
  · exact fun ks hks => shows_set hks _ all_fields

theorem holds_append (h : Holds root T) (hpats : Unrouted pats) (hlen : T.length ≤ 2147483647) (token realm : Name) (expires : Nat) :
    Holds (commit pats root (addOps T.length token realm expires)) (T ++ [canon ∘ slotOf token realm expires]) := by
  obtain ⟨arr, hnode, hrows⟩ := h
  let g := filling T.length [.cookie, .realm, .expires] (slotOf token realm expires)
  have hlen' : arr.length = T.length := hrows.length_eq
  have hpatch : g.patch arr = patchIn none g.ops := by
    rw [Group.patch, show g.idx = T.length from rfl, below_decimal arr hlen, getElem?_eq_none (le_of_eq hlen')]
    rfl
  have hshows : Shows (.obj (g.patch arr)) (canon ∘ slotOf token realm expires) := hpatch ▸ shows_new _ all_fields
  have hne : g.patch arr ≠ [] := by
    intro hnil
    rw [hpatch] at hnil
    have hget := (foldl_fields (T := none) (w := setField (slotOf token realm expires)) (fun _ => rfl) (setField_tidy _) tidy_nil
      [.cookie, .realm, .expires]).2 .cookie
    rw [if_pos ⟨all_fields _, rfl⟩] at hget
    exact absurd (hget.symm.trans (congrArg (getObjectItem · (Field.name .cookie)) hnil)) (by simp [setField, Op.written, getObjectItem])
  rw [addOps_eq]
  refine ⟨_, node_groups hnode hpats (?_ : ∀ x ∈ [g], _) ?_ (nodup_singleton _), ?_⟩
  · intro x hx
    rw [mem_singleton.mp hx]
    exact hlen
  · intro x hx
    rw [mem_singleton.mp hx]
    exact ours_filling _ _ _
  · have hmerge : mergeElems arr (slotPatch arr [g]) = arr ++ [(some (decimal T.length), .obj (g.patch arr))] := by
      simp only [slotPatch, filterMap_cons, if_neg hne, filterMap_nil, mergeElems, mergeElem, elemIndex, getD_some]
      rw [show g.idx = T.length from rfl, atoi_decimal hlen, getElem?_eq_none (le_of_eq hlen')]
      simp only [replaceOrExtend, hlen', lt_irrefl, if_false, Nat.sub_self, replicate_zero, append_nil]
    rw [hmerge]
    exact rel_append hrows (.cons hshows .nil)

end Spangap.CookieCalls
