import Spangap.Persist
import Spangap.View

namespace Spangap.Attach

open List Option CJson FirstMatch DotPath Merge Persist View

variable {V : Vocabulary} {cs cs' : List Child} {s : Name} {ss E q : List Name} {v : Json}

theorem view_append (v : Json) (a b : List Name) : view v (a ++ b) = (node v a).bind fun w => view w b := by
  induction a generalizing v with
  | nil => rfl
  | cons s a ih =>
    cases v with
    | scalar x => rfl
    | arr cs => rfl
    | obj cs =>
      rw [cons_append, view_cons, node, bind_assoc]
      congr 1
      funext w
      exact ih w

theorem navigate_scalar (hk : Spelled V (s :: ss)) (x : Scalar) : navigate (.scalar x) (s :: ss) = none := by
  rw [navigate_plain (plain_of_spelled hk (by simp)), child]
  rfl

theorem navigate_of_open (hE : Spelled V E) (ho : Open cs E) : navigate (.obj cs) E = node (.obj cs) E := by
  induction E generalizing cs with
  | nil => rfl
  | cons s ss ih =>
    rw [navigate_plain (plain_of_spelled hE (by simp)), child_obj, node]
    rcases hg : getObjectItem cs s with - | x | es | ks
    · rfl
    · cases ss with
      | nil => rfl
      | cons t ts => exact navigate_scalar hE.tail x
    · cases ss with
      | nil => rfl
      | cons t ts =>
        refine absurd ?_ (ho [s] (by simp) (by simp) es)
        rw [valueAt_cons, hg, bind_some, valueAt_nil_of_not_obj rfl]
    · exact ih hE.tail (ho.tail hg)

theorem not_long (hE : Spelled V (s :: ss)) : ¬ (s = [] ∨ 96 ≤ s.length) := by
  obtain ⟨hne, hlen, -⟩ := V.plain s hE.head
  rintro (h | h)
  · exact hne h
  · omega

/-- An edit of one member is seen below its name only. -/
theorem view_edit {A : List Name → Option (Option Json)} (hs : V.mem s)
    (hother : ∀ t, fold s ≠ fold t → getObjectItem cs' t = getObjectItem cs t)
    (hself : ∀ q, Spelled V q → ((getObjectItem cs' s).bind fun v => view v q) =
      if ss <+: q then A q else (getObjectItem cs s).bind fun v => view v q) (hq : Spelled V q) :
    view (.obj cs') q = if s :: ss <+: q then A q.tail else view (.obj cs) q := by
  cases q with
  | nil => simp [shape, Json.isObj]
  | cons t q =>
    rw [view_cons, view_cons]
    by_cases hst : fold s = fold t
    · obtain rfl := V.inj s t hs hq.head hst
      rw [hself q hq.tail]
      simp [cons_prefix_cons]
    · rw [hother t hst, if_neg]
      rw [cons_prefix_cons]
      rintro ⟨rfl, -⟩
      exact hst rfl

def Detached (V : Vocabulary) (E : List Name) (cs cs' : List Child) : Prop :=
  Tidy V (.obj cs') ∧ ∀ q, Spelled V q → view (.obj cs') q = if E <+: q then none else view (.obj cs) q

theorem detachLeaf_none (hE : Spelled V E) (hne : E ≠ []) (hc : Clear cs E) (h : detachLeaf E cs = none) :
    node (.obj cs) E = none := by
  induction E generalizing cs with
  | nil => exact absurd rfl hne
  | cons s ss ih =>
    rw [detachLeaf, if_neg (not_long hE)] at h
    rw [node]
    by_cases hss : ss = []
    · subst hss
      rw [if_pos rfl, map_eq_none_iff] at h
      rw [h]
      rfl
    · rw [if_neg hss] at h
      rcases hg : getObjectItem cs s with - | u
      · rfl
      · obtain ⟨ks, rfl⟩ := hc.obj hss hg
        rw [hg] at h
        simp only [map_eq_none_iff] at h
        exact ih hE.tail hss (hc.tail hg) h

theorem detachLeaf_some (hcs : Tidy V (.obj cs)) (hE : Spelled V E) (hne : E ≠ []) (hc : Clear cs E)
    (h : detachLeaf E cs = some (cs', v)) :
    node (.obj cs) E = some v ∧ Detached V E cs cs' := by
  induction E generalizing cs cs' with
  | nil => exact absurd rfl hne
  | cons s ss ih =>
    rw [detachLeaf, if_neg (not_long hE)] at h
    by_cases hss : ss = []
    · subst hss
      rw [if_pos rfl, map_eq_some_iff] at h
      obtain ⟨u, hu, he⟩ := h
      cases he
      refine ⟨by rw [node, hu]; rfl, tidy_delete hcs s, fun q hq => ?_⟩
      refine view_edit (A := fun _ => none) hE.head (fun t hst => getObjectItem_apply hst .erase cs) (fun q hq => ?_) hq
      have hnone : getObjectItem (deleteItemFromObject cs s) s = none := getObjectItem_of_none (none_of_eraseP (hcs.count s))
      simp [hnone]
    · rw [if_neg hss] at h
      rcases hg : getObjectItem cs s with - | u
      · rw [hg] at h
        simp at h
      · obtain ⟨ks, rfl⟩ := hc.obj hss hg
        rw [hg, map_eq_some_iff] at h
        obtain ⟨⟨ks', w⟩, hr, he⟩ := h
        cases he
        obtain ⟨hnode, htidy, hview⟩ := ih (hcs.child hg) hE.tail hss (hc.tail hg) hr
        refine ⟨by rw [node, hg]; exact hnode, tidy_update hcs s htidy, fun q hq => ?_⟩
        refine view_edit (A := fun _ => none) hE.head (fun t hst => getObjectItem_apply hst (.update _) cs) (fun q hq => ?_) hq
        rw [getObjectItem_updateItem _ hg, hg]
        exact hview q hq

theorem reattachLeaf_spec (hcs : Tidy V (.obj cs)) (hv : Tidy V v) (hE : Spelled V E) (hne : E ≠ [])
    (hparent : view (.obj cs) E.dropLast = some none) (habsent : view (.obj cs) E = none) :
    Tidy V (.obj (reattachLeaf v E cs)) ∧ ∀ q, Spelled V q →
      view (.obj (reattachLeaf v E cs)) q = if E <+: q then view v (q.drop E.length) else view (.obj cs) q := by
  induction E generalizing cs with
  | nil => exact absurd rfl hne
  | cons s ss ih =>
    rw [view_cons] at habsent
    simp only [length_cons, ← drop_tail]
    by_cases hss : ss = []
    · subst hss
      have hnone : getObjectItem cs s = none := by
        rcases hg : getObjectItem cs s with - | u
        · rfl
        · simp [hg] at habsent
      have hno := none_of_getObjectItem hnone
      have hre : reattachLeaf v [s] cs = addItemToObject cs s v := by simp [reattachLeaf]
      rw [hre]
      refine ⟨tidy_add hcs hE.head hv hno, fun q hq => ?_⟩
      refine view_edit (A := fun q => view v (q.drop 0)) hE.head (fun t hst => ?_) (fun q hq => ?_) hq
      · have hget := getObjectItem_apply hst (.put v) cs
        rwa [Edit.apply, deleteItemFromObject_of_none hno] at hget
      · rw [getObjectItem_addItem hno]
        simp
    · rw [dropLast_cons_of_ne_nil hss, view_cons, bind_eq_some_iff] at hparent
      obtain ⟨u, hu, hparent⟩ := hparent
      rw [hu, bind_some] at habsent
      obtain ⟨ks, rfl⟩ := obj_of_view hparent
      obtain ⟨htidy, hview⟩ := ih (hcs.child hu) hE.tail hss hparent habsent
      have hre : reattachLeaf v (s :: ss) cs = updateItem cs s (.obj (reattachLeaf v ss ks)) := by
        rw [reattachLeaf, if_neg hss, hu]
      rw [hre]
      refine ⟨tidy_update hcs s htidy, fun q hq => ?_⟩
      refine view_edit (A := fun q => view v (q.drop ss.length)) hE.head (fun t hst => getObjectItem_apply hst (.update _) cs)
        (fun q hq => ?_) hq
      rw [getObjectItem_updateItem _ hu, hu]
      exact hview q hq

theorem valueAt_of_view {u w : Json} (h : view u q = view w q) : valueAt u q = valueAt w q := by
  rw [valueAt, valueAt, h]

theorem parent_of_node (hne : E ≠ []) (h : node (.obj cs) E = some v) : view (.obj cs) E.dropLast = some none := by
  induction E generalizing cs with
  | nil => exact absurd rfl hne
  | cons s ss ih =>
    by_cases hss : ss = []
    · subst hss
      rfl
    · rw [node, bind_eq_some_iff] at h
      obtain ⟨u, hu, h⟩ := h
      obtain ⟨t, ts, rfl⟩ := exists_cons_of_ne_nil hss
      cases u with
      | scalar x => simp [node] at h
      | arr e => simp [node] at h
      | obj ks =>
        rw [dropLast_cons_of_ne_nil hss, view_cons, hu]
        exact ih hss h

theorem tidy_node {u : Json} (hu : Tidy V u) (h : node u E = some v) : Tidy V v := by
  induction E generalizing u with
  | nil =>
    cases h
    exact hu
  | cons s ss ih =>
    cases u with
    | obj cs =>
      rw [node, bind_eq_some_iff] at h
      obtain ⟨w, hw, h⟩ := h
      exact ih (hu.child hw) h
    | scalar x => cases h
    | arr e => cases h

theorem not_prefix_dropLast (hne : E ≠ []) : ¬ E <+: E.dropLast := by
  intro h
  have := h.length_le
  rw [length_dropLast] at this
  have := length_pos_of_ne_nil hne
  omega

def live (es : List External) : List (List Name) :=
  (es.filter fun e => !e.pendingDelete).map fun e => segments e.pre

/-- The function sees the tree without the live externals, and the tree that
comes back finds what it found before. -/
theorem withExternalsDetached_spec {α : Type} (f : List Child → α) {es : List External}
    (hcs : Tidy V (.obj cs)) (hes : ∀ E ∈ live es, Spelled V E ∧ E ≠ [] ∧ Clear cs E) :
    (Tidy V (.obj (withExternalsDetached f es cs).2) ∧
      ∀ q, Spelled V q → view (.obj (withExternalsDetached f es cs).2) q = view (.obj cs) q) ∧
    ∃ ds, (withExternalsDetached f es cs).1 = f ds ∧ Tidy V (.obj ds) ∧ ∀ q, Spelled V q →
      view (.obj ds) q = if ∃ E ∈ live es, E <+: q then none else view (.obj cs) q := by
  induction es generalizing cs with
  | nil => exact ⟨⟨hcs, fun _ _ => rfl⟩, cs, rfl, hcs, fun q _ => by simp [live]⟩
  | cons e es ih =>
    rw [withExternalsDetached]
    by_cases hpd : e.pendingDelete = true
    · have hlive : live (e :: es) = live es := by simp [live, hpd]
      rw [if_pos hpd, hlive]
      exact ih hcs (by rwa [hlive] at hes)
    · have hlive : live (e :: es) = segments e.pre :: live es := by simp [live, hpd]
      rw [if_neg hpd, hlive]
      rw [hlive] at hes
      obtain ⟨⟨hE, hne, hc⟩, hes⟩ := forall_mem_cons.mp hes
      rcases hdet : detachLeaf (segments e.pre) cs with - | ⟨cs', v⟩
      · obtain ⟨hback, ds, hds, htidy, hview⟩ := ih hcs hes
        refine ⟨hback, ds, hds, htidy, fun q hq => ?_⟩
        rw [hview q hq]
        by_cases hpre : segments e.pre <+: q
        · obtain ⟨r, rfl⟩ := hpre
          have hnone := detachLeaf_none hE hne hc hdet
          simp [view_append, hnone]
        · simp [hpre]
      · obtain ⟨hnode, htidy', hview'⟩ := detachLeaf_some hcs hE hne hc hdet
        have hes' : ∀ E ∈ live es, Spelled V E ∧ E ≠ [] ∧ Clear cs' E := by
          intro E' hE'
          obtain ⟨hsp, hne', hc'⟩ := hes E' hE'
          refine ⟨hsp, hne', fun r hr hrne => ?_⟩
          have hrs : Spelled V r := fun t ht => hsp t (hr.subset ht)
          rw [valueAt, hview' r hrs]
          split
          · rfl
          · exact hc' r hr hrne
        obtain ⟨⟨htidy2, hview2⟩, ds, hds, htidy3, hview3⟩ := ih htidy' hes'
        have hdrop : Spelled V (segments e.pre).dropLast := fun t ht => hE t (dropLast_subset _ ht)
        have hparent : view (.obj (withExternalsDetached f es cs').2) (segments e.pre).dropLast = some none := by
          rw [hview2 _ hdrop, hview' _ hdrop, if_neg (not_prefix_dropLast hne)]
          exact parent_of_node hne hnode
        have habsent : view (.obj (withExternalsDetached f es cs').2) (segments e.pre) = none := by
          rw [hview2 _ hE, hview' _ hE, if_pos (prefix_refl _)]
        obtain ⟨htidy4, hview4⟩ := reattachLeaf_spec htidy2 (tidy_node hcs hnode) hE hne hparent habsent
        refine ⟨⟨htidy4, fun q hq => ?_⟩, ds, hds, htidy3, fun q hq => ?_⟩
        · rw [hview4 q hq]
          split
          next hpre =>
            obtain ⟨r, rfl⟩ := hpre
            rw [view_append, hnode, drop_left]
            rfl
          next hpre => rw [hview2 q hq, hview' q hq, if_neg hpre]
        · rw [hview3 q hq, hview' q hq]
          by_cases hpre : segments e.pre <+: q
          · simp [hpre]
          · simp [hpre]

section Saved

variable (hV : ∀ p ∈ savedNames, V.mem p)

include hV

theorem tidy_savedMembers (hcs : Tidy V (.obj cs)) : Tidy V (.obj (savedMembers cs)) := by
  have hne : fold (lit "s") ≠ fold (lit "secrets") := by decide
  have hs := hV (lit "s") (.head _)
  have ht := hV (lit "secrets") (.tail _ (.head _))
  rcases h1 : getObjectItem cs (lit "s") with - | u <;> rcases h2 : getObjectItem cs (lit "secrets") with - | w <;>
    simp [savedMembers, h1, h2]
  · exact tidy_nil
  · exact tidy_add tidy_nil ht (hcs.child h2) (by simp)
  · exact tidy_add tidy_nil hs (hcs.child h1) (by simp)
  · refine tidy_add (tidy_add tidy_nil hs (hcs.child h1) (by simp)) ht (hcs.child h2) ?_
    intro c hc
    rw [mem_singleton.mp hc]
    simpa [named] using hne

end Saved

theorem view_savedMembers (hs : s ∈ savedNames) (q : List Name) :
    view (.obj (savedMembers cs)) (s :: q) = view (.obj cs) (s :: q) := by
  rw [view_cons, view_cons, getObjectItem_savedMembers cs s hs]

def Apart (a b : List Name) : Prop := ¬ a <+: b ∧ ¬ b <+: a

theorem not_both_prefix {a b : List Name} (h : Apart a b) (ha : a <+: q) (hb : b <+: q) : False := by
  rcases prefix_or_prefix_of_prefix ha hb with h' | h'
  · exact h.1 h'
  · exact h.2 h'

theorem foldl_attachAtPath {fs : List (Name × Json)} (hcs : Tidy V (.obj cs))
    (hfs : ∀ f ∈ fs, Spelled V (segments f.1) ∧ Tidy V f.2 ∧ Clear cs (segments f.1))
    (hapart : fs.Pairwise fun f g => Apart (segments f.1) (segments g.1)) :
    Tidy V (.obj (fs.foldl attachAtPath cs)) ∧ ∀ q, Spelled V q →
      (∀ f ∈ fs, segments f.1 <+: q →
        valueAt (.obj (fs.foldl attachAtPath cs)) q = valueAt f.2 (q.drop (segments f.1).length)) ∧
      ((∀ f ∈ fs, ¬ segments f.1 <+: q) → valueAt (.obj (fs.foldl attachAtPath cs)) q = valueAt (.obj cs) q) := by
  induction fs generalizing cs with
  | nil => exact ⟨hcs, fun q _ => ⟨by simp, fun _ => rfl⟩⟩
  | cons f fs ih =>
    obtain ⟨⟨hsp, hv, hc⟩, hfs⟩ := forall_mem_cons.mp hfs
    obtain ⟨hfirst, hapart⟩ := pairwise_cons.mp hapart
    have hne := segments_ne_nil f.1
    have hwrite : ∀ q, Spelled V q → valueAt (.obj (attachAtPath cs f)) q =
        if segments f.1 <+: q then valueAt f.2 (q.drop (segments f.1).length) else valueAt (.obj cs) q :=
      fun q hq => valueAt_write hcs hsp hne hc hq
    have hnew : Tidy V (.obj (attachAtPath cs f)) := tidy_write hcs hsp hv
    have hrest : ∀ g ∈ fs, Spelled V (segments g.1) ∧ Tidy V g.2 ∧ Clear (attachAtPath cs f) (segments g.1) := by
      intro g hg
      obtain ⟨hgs, hgv, hgc⟩ := hfs g hg
      refine ⟨hgs, hgv, fun r hr hrne => ?_⟩
      rw [hwrite r fun t ht => hgs t (hr.subset ht), if_neg]
      · exact hgc r hr hrne
      · exact fun hfr => (hfirst g hg).1 (hfr.trans hr)
    obtain ⟨htidy, hview⟩ := ih hnew hrest hapart
    refine ⟨htidy, fun q hq => ?_⟩
    obtain ⟨hin, hout⟩ := hview q hq
    rw [foldl_cons]
    constructor
    · intro g hg hpre
      rcases mem_cons.mp hg with rfl | hg
      · rw [hout fun g' hg' hpre' => not_both_prefix (hfirst g' hg') hpre hpre', hwrite q hq, if_pos hpre]
      · exact hin g hg hpre
    · intro hnone
      obtain ⟨hf, hnone⟩ := forall_mem_cons.mp hnone
      rw [hout hnone, hwrite q hq, if_neg hf]

theorem storageLoad_spec {R : List Child} {files : List (Name × Json)} (hR : Tidy V (.obj R))
    (hfs : ∀ f ∈ files, Spelled V (segments f.1) ∧ Tidy V f.2 ∧ Clear R (segments f.1))
    (hapart : files.Pairwise fun f g => Apart (segments f.1) (segments g.1)) :
    Tidy V (.obj (storageLoad (some R) files)) ∧ ∀ q, Spelled V q →
      (∀ f ∈ files, segments f.1 <+: q →
        valueAt (.obj (storageLoad (some R) files)) q = valueAt f.2 (q.drop (segments f.1).length)) ∧
      ((∀ f ∈ files, ¬ segments f.1 <+: q) →
        valueAt (.obj (storageLoad (some R) files)) q = valueAt (.obj R) q) := by
  have hperm := perm_insertionSort (fun a b : Name × Json => a.1.length ≤ b.1.length) files
  have hsym : ∀ {f g : Name × Json}, Apart (segments f.1) (segments g.1) → Apart (segments g.1) (segments f.1) :=
    fun h => ⟨h.2, h.1⟩
  have := foldl_attachAtPath hR (fun f hf => hfs f (hperm.mem_iff.mp hf)) ((hperm.pairwise_iff hsym).mpr hapart)
  obtain ⟨htidy, hview⟩ := this
  refine ⟨htidy, fun q hq => ⟨fun f hf => (hview q hq).1 f (hperm.mem_iff.mpr hf), fun hnone => ?_⟩⟩
  exact (hview q hq).2 fun f hf => hnone f (hperm.mem_iff.mp hf)

end Spangap.Attach
