import Spangap.Commit

namespace Spangap.Browser

open List CJson FirstMatch DotPath Merge Commit

variable {key p : Name} {v : Json} {pats : List (List Name)} {o : Op}

def isSecret (key : Name) : Bool := (lit "secrets.").isPrefixOf key

def isFw (key : Name) : Bool := key == lit "fw" || (lit "fw.").isPrefixOf key

def isStorageDb (key : Name) : Bool := key == lit "storage" || (lit "storage.").isPrefixOf key

def gated (key : Name) : Bool := isSecret key || isFw key || isStorageDb key

def inferDigits : Int → Name → Option Int
  | acc, [] => some acc
  | acc, c :: cs =>
    if isDigit c then
      let d : Int := (c.toNat - 48 : Nat)
      if acc < (-2147483648 + d).tdiv 10 then none else inferDigits (acc * 10 - d) cs
    else none

/-- The `int` a text is stored as, if `inferType` takes it for one. -/
def inferType : Name → Option Int
  | [] => none
  | c :: cs =>
    if c = 45 then if cs = [] then none else inferDigits 0 cs
    else (inferDigits 0 (c :: cs)).bind fun acc => if acc = -2147483648 then none else some (-acc)

def textValue (s : Name) : Json :=
  match inferType s with
  | some i => .scalar (.num i)
  | none => .scalar (.str s)

/-- The op that a value of an incoming message is turned into. Booleans are
ignored, objects are walked. -/
def opOf (key : Name) : Json → Option Op
  | .scalar .null => some ⟨.delete, key, none⟩
  | .scalar (.bool _) => none
  | .scalar (.num v) => some ⟨.set, key, some (.scalar (.num (valueint v)))⟩
  | .scalar (.str s) => some ⟨.set, key, some (textValue s)⟩
  | .arr cs => some ⟨.set, key, some (.arr cs)⟩
  | .obj _ => none

mutual
def mergeIncomingItem (key : Name) : Json → List Op
  | .obj ks => mergeIncomingPatch key ks
  | v => (opOf key v).toList

/-- The ops of a message, in the order in which they are submitted. Only an
element of a top-level array is without a name, and the code aborts on the
first of them. -/
def mergeIncomingPatch (key : Name) : List (Option Name × Json) → List Op
  | [] => []
  | (none, _) :: _ => []
  | (some n, v) :: rest =>
    (if gated (extend key n) then [] else mergeIncomingItem (extend key n) v) ++ mergeIncomingPatch key rest
end

section Handle

/- `cJSON_ParseWithLength`, and the patterns of the registered record stores. -/
variable (parse : Name → Option Json) (pats : List (List Name))

/-- A fetch request opens or closes a record store for the browser and writes nothing. -/
def isFetch (v : Json) : Bool :=
  match getObjectItem v.children (lit "fetch") with
  | some (.scalar (.str _)) => true
  | _ => false

/-- What a message of the config channel does to the committed tree. Every op
of it is applied in a call of its own. -/
def dcHandleMessage (root : List Child) (text : Name) : List Child :=
  if text = lit "\x7b\"ping\":1\x7d" then root
  else if text = lit "\x7b\"save\":1\x7d" then root
  else
    match parse text with
    | none => root
    | some v => if isFetch v then root else commitEach pats root (mergeIncomingPatch [] v.children)

def protectedNames : List Name := [lit "secrets", lit "fw", lit "storage"]

def Untouched (root root' : List Child) : Prop :=
  ∀ p ∈ protectedNames, getObjectItem root' p = getObjectItem root p

mutual
def ends : Json → List (List Name × Json)
  | .obj ks => memberEnds ks
  | v => [([], v)]

def memberEnds : List (Option Name × Json) → List (List Name × Json)
  | [] => []
  | (none, _) :: _ => []
  | (some n, v) :: rest => (ends v).map (fun e => (n :: e.1, e.2)) ++ memberEnds rest
end

/-- The names of a path joined by dots, where the empty name at the start adds none. -/
def joined (key : Name) (ns : List Name) : Name := ns.foldl extend key

/-- The key is passed over by its spelling, belongs to a record store, or starts
outside the protected names whatever its case. -/
def KeptOut (key : Name) : Prop :=
  gated key = true ∨ (sdbRoute pats key).isSome = true ∨
    ∀ s, firstSegment key = some s → ∀ p ∈ protectedNames, fold s ≠ p

/-- Messages that cannot reach a protected name: those that are not patches, and
the patches all of whose values other than booleans are kept out. -/
def Harmless (text : Name) : Prop :=
  text = lit "\x7b\"ping\":1\x7d" ∨ text = lit "\x7b\"save\":1\x7d" ∨
    ∀ v, parse text = some v → isFetch v = true ∨
      ∀ e ∈ memberEnds v.children, (∀ b, e.2 ≠ .scalar (.bool b)) → KeptOut pats (joined [] e.1)

end Handle

theorem gated_extend (h : gated key = true) (n : Name) : gated (extend key n) = true := by
  have happ : ∀ {a : Name}, a.isPrefixOf key = true → a.isPrefixOf (key ++ 46 :: n) = true := by
    intro a ha
    rw [List.isPrefixOf_iff_prefix] at ha ⊢
    exact ha.trans (prefix_append key _)
  have hne : key ≠ [] := by
    rintro rfl
    exact absurd h (by decide)
  rw [extend, if_neg hne]
  simp only [gated, isSecret, isFw, isStorageDb, Bool.or_eq_true, beq_iff_eq] at h ⊢
  rcases h with (h | h | h) | h | h
  · exact .inl (.inl (happ h))
  · subst h
    exact .inl (.inr (.inr rfl))
  · exact .inl (.inr (.inr (happ h)))
  · subst h
    exact .inr (.inr rfl)
  · exact .inr (.inr (happ h))

theorem gated_joined (h : gated key = true) (ns : List Name) : gated (joined key ns) = true := by
  induction ns generalizing key with
  | nil => exact h
  | cons n ns ih => exact ih (gated_extend h n)

def emitted (key : Name) (v : Json) : Option Op := if gated key then none else opOf key v

theorem emitted_gated (h : gated key = true) (es : List (List Name × Json)) :
    (es.filterMap fun e => emitted (joined key e.1) e.2) = [] := by
  apply filterMap_eq_nil_iff.mpr
  intro e _
  rw [emitted, if_pos (gated_joined h e.1)]

mutual
theorem mergeIncomingItem_eq (key : Name) (v : Json) (h : gated key = false) :
    mergeIncomingItem key v = (ends v).filterMap fun e => emitted (joined key e.1) e.2 := by
  cases v with
  | obj ks =>
    rw [mergeIncomingItem, ends]
    exact mergeIncomingPatch_eq key ks
  | scalar x => cases x <;> simp [mergeIncomingItem, ends, opOf, emitted, joined, h]
  | arr cs => simp [mergeIncomingItem, ends, opOf, emitted, joined, h]

theorem mergeIncomingPatch_eq (key : Name) (cs : List (Option Name × Json)) :
    mergeIncomingPatch key cs = (memberEnds cs).filterMap fun e => emitted (joined key e.1) e.2 := by
  cases cs with
  | nil => simp [mergeIncomingPatch, memberEnds]
  | cons c rest =>
    obtain ⟨n, v⟩ := c
    cases n with
    | none => simp [mergeIncomingPatch, memberEnds]
    | some n =>
      rw [mergeIncomingPatch, memberEnds, filterMap_append, ← mergeIncomingPatch_eq key rest,
        filterMap_map]
      congr 1
      by_cases hg : gated (extend key n) = true
      · rw [if_pos hg]
        exact (emitted_gated hg (ends v)).symm
      · rw [if_neg hg, mergeIncomingItem_eq (extend key n) v (by simpa using hg)]
        rfl
end

section Effect

variable {root : List Child}

def Sent (o : Op) : Prop := o.code = .delete ∨ o.code = .set ∧ ∃ v, o.val = some v ∧ v.isNull = false

theorem sent_of_opOf (h : opOf key v = some o) : Sent o := by
  rcases v with (- | b | r | s) | cs | cs
  · cases h
    exact .inl rfl
  · simp [opOf] at h
  · cases h
    exact .inr ⟨rfl, _, rfl, rfl⟩
  · cases h
    refine .inr ⟨rfl, _, rfl, ?_⟩
    unfold textValue
    split <;> rfl
  · cases h
    exact .inr ⟨rfl, _, rfl, rfl⟩
  · simp [opOf] at h

theorem foldOp_avoids (h : ¬ Touches pats p o) (hr : sdbRoute pats o.key = none) :
    ∀ c ∈ foldOp (.obj root) [] o, named p c = false := by
  intro c hc
  unfold foldOp at hc
  split at hc
  · simp at hc
  · split at hc
    · simp at hc
    next v _ _ =>
      have hp := patch_single v (segments o.key)
      split at hp
      · simp [hp] at hc
      next s hs =>
        split at hp
        · simp [hp] at hc
        · obtain ⟨x, hx, -⟩ := hp
          rw [hx, mem_singleton] at hc
          subst hc
          by_contra hn
          exact h ⟨hr, s, hs, named_some.mp (by simpa using hn)⟩

theorem getObjectItem_commit (h : ¬ Touches pats p o) :
    getObjectItem (commit pats root [o]) p = getObjectItem root p := by
  by_cases hr : sdbRoute pats o.key = none
  · rw [commit_unrouted hr, getObjectItem_deepMerge (foldOp_avoids h hr)]
  · rw [commit_routed hr]

def leavesMember (o : Op) : Bool := !(o.code == .delete && bare (segments o.key))

theorem isSome_commit (ho : Sent o) (hlen : p.length < 96) (h : Touches pats p o)
    (hcount : root.countP (named p) ≤ 1) :
    (getObjectItem (commit pats root [o]) p).isSome = leavesMember o ∧
      (commit pats root [o]).countP (named p) ≤ 1 := by
  obtain ⟨hr, s, hs, hsp⟩ := h
  have hshort : ¬ 96 ≤ s.length := by
    have := congrArg length hsp
    simp only [fold, length_map] at this
    omega
  have hpatch : ∀ v, ∃ x, navigateOrCreate (putLeaf v) (segments o.key) [] = [(some s, x)] ∧
      if bare (segments o.key) then x = v else x.isObj = true := by
    intro v
    have := patch_single v (segments o.key)
    rw [show (segments o.key).find? (fun s => s ≠ []) = some s from hs] at this
    simpa only [if_neg hshort] using this
  rw [commit_unrouted hr]
  rcases ho with hd | ⟨hset, v, hv, hnull⟩
  · have hfold : foldOp (.obj root) [] o = navigateOrCreate (putLeaf .null) (segments o.key) [] := by
      cases hn : navigatePath (.obj root) o.key <;> simp [foldOp, Op.written, hd, hn, skipped]
    obtain ⟨x, hx, hbare⟩ := hpatch .null
    rw [hfold, hx, deepMerge_single]
    refine ⟨?_, countP_mergeItem_self hsp hcount x⟩
    by_cases hb : bare (segments o.key) = true
    · rw [if_pos hb] at hbare
      subst x
      simp [getObjectItem_mergeItem_null hsp hcount, leavesMember, hd, hb]
    · rw [if_neg hb] at hbare
      rw [isSome_mergeItem hsp hcount (by cases x <;> simp_all [Json.isNull, Json.isObj])]
      simp [leavesMember, hb]
  · have hw : o.written = some v := by simp [Op.written, hset, hv]
    have hl : leavesMember o = true := by simp [leavesMember, hset]
    rw [hl]
    simp only [foldOp, hw, hset]
    split
    next hskip =>
      refine ⟨?_, hcount⟩
      cases hn : navigatePath (.obj root) o.key with
      | none => simp [hn, skipped] at hskip
      | some cur =>
        rw [navigatePath] at hn
        split at hn
        · simp at hn
        · rw [getObjectItem_congr hsp.symm]
          exact navigate_first hs hn
    · obtain ⟨x, hx, hbare⟩ := hpatch v
      rw [hx, deepMerge_single]
      refine ⟨isSome_mergeItem hsp hcount ?_, countP_mergeItem_self hsp hcount x⟩
      by_cases hb : bare (segments o.key) = true
      · rw [if_pos hb] at hbare
        rw [hbare, hnull]
      · rw [if_neg hb] at hbare
        cases x <;> simp_all [Json.isNull, Json.isObj]

theorem countP_commit (ho : Sent o) (hlen : p.length < 96) (hcount : root.countP (named p) ≤ 1) :
    (commit pats root [o]).countP (named p) ≤ 1 := by
  by_cases h : Touches pats p o
  · exact (isSome_commit ho hlen h hcount).2
  · by_cases hr : sdbRoute pats o.key = none
    · rwa [commit_unrouted hr, countP_deepMerge (foldOp_avoids h hr)]
    · rwa [commit_routed hr]

end Effect

section Run

variable {ops : List Op}

theorem getObjectItem_commitEach (h : ∀ o ∈ ops, ¬ Touches pats p o) (root : List Child) :
    getObjectItem (commitEach pats root ops) p = getObjectItem root p := by
  induction ops generalizing root with
  | nil => rfl
  | cons o ops ih =>
    obtain ⟨ho, hops⟩ := forall_mem_cons.mp h
    exact (ih hops _).trans (getObjectItem_commit ho)

theorem isSome_commitEach (hsent : ∀ o ∈ ops, Sent o) (hlen : p.length < 96) (h : ∃ o ∈ ops, Touches pats p o) :
    ∃ b, ∀ root : List Child, root.countP (named p) ≤ 1 →
      (getObjectItem (commitEach pats root ops) p).isSome = b := by
  induction ops with
  | nil => simp at h
  | cons o ops ih =>
    obtain ⟨ho, hops⟩ := forall_mem_cons.mp hsent
    by_cases hlater : ∃ a ∈ ops, Touches pats p a
    · obtain ⟨b, hb⟩ := ih hops hlater
      refine ⟨b, fun root hcount => ?_⟩
      exact hb _ (countP_commit ho hlen hcount)
    · have hnone : ∀ a ∈ ops, ¬ Touches pats p a := fun a ha ht => hlater ⟨a, ha, ht⟩
      have htouch : Touches pats p o := by
        obtain ⟨a, ha, ht⟩ := h
        rcases mem_cons.mp ha with rfl | ha
        · exact ht
        · exact absurd ht (hnone a ha)
      refine ⟨leavesMember o, fun root hcount => ?_⟩
      rw [commitEach, foldl_cons]
      have := getObjectItem_commitEach hnone (commit pats root [o])
      rw [commitEach] at this
      rw [this]
      exact (isSome_commit ho hlen htouch hcount).1

theorem exists_changed (hsent : ∀ o ∈ ops, Sent o) (hlen : p.length < 96) (h : ∃ o ∈ ops, Touches pats p o) :
    ∃ root : List Child, getObjectItem (commitEach pats root ops) p ≠ getObjectItem root p := by
  obtain ⟨b, hb⟩ := isSome_commitEach hsent hlen h
  cases b with
  | true =>
    refine ⟨[], fun he => ?_⟩
    have := hb [] (by simp)
    rw [he] at this
    simp [getObjectItem] at this
  | false =>
    refine ⟨[(some p, .obj [])], fun he => ?_⟩
    have := hb [(some p, .obj [])] countP_le_length
    rw [he] at this
    simp [getObjectItem, named] at this

end Run

theorem untouched_refl (root : List Child) : Untouched root root := fun _ _ => rfl

theorem fold_protectedNames : ∀ p ∈ protectedNames, fold p = p := by decide

theorem length_protectedNames : ∀ p ∈ protectedNames, p.length < 96 := by decide

mutual
theorem ends_not_obj (v : Json) : ∀ e ∈ ends v, e.2.isObj = false := by
  cases v with
  | obj ks =>
    rw [ends]
    exact memberEnds_not_obj ks
  | scalar x => simp [ends, Json.isObj]
  | arr cs => simp [ends, Json.isObj]

theorem memberEnds_not_obj (cs : List (Option Name × Json)) : ∀ e ∈ memberEnds cs, e.2.isObj = false := by
  cases cs with
  | nil => simp [memberEnds]
  | cons c rest =>
    obtain ⟨n, v⟩ := c
    cases n with
    | none => simp [memberEnds]
    | some n =>
      have hv := ends_not_obj v
      have hrest := memberEnds_not_obj rest
      intro e he
      rw [memberEnds, mem_append] at he
      rcases he with he | he
      · obtain ⟨d, hd, rfl⟩ := mem_map.mp he
        exact hv d hd
      · exact hrest e he
end

theorem mem_mergeIncomingPatch {cs : List Child} : o ∈ mergeIncomingPatch [] cs ↔
      ∃ e ∈ memberEnds cs, gated (joined [] e.1) = false ∧ opOf (joined [] e.1) e.2 = some o := by
  rw [mergeIncomingPatch_eq, mem_filterMap]
  constructor
  · rintro ⟨e, he, ho⟩
    by_cases hg : gated (joined [] e.1) = true
    · simp [emitted, hg] at ho
    · exact ⟨e, he, by simpa using hg, by simpa [emitted, hg] using ho⟩
  · rintro ⟨e, he, hg, ho⟩
    exact ⟨e, he, by simp [emitted, hg, ho]⟩

theorem opOf_key (h : opOf key v = some o) : o.key = key := by
  rcases v with (- | b | r | s) | cs | cs <;> first | (cases h; rfl) | simp [opOf] at h

theorem exists_opOf (key : Name) (hv : v.isObj = false) (hb : ∀ b, v ≠ .scalar (.bool b)) : ∃ o, opOf key v = some o := by
  rcases v with (- | b | r | s) | cs | cs
  · exact ⟨_, rfl⟩
  · exact absurd rfl (hb b)
  · exact ⟨_, rfl⟩
  · exact ⟨_, rfl⟩
  · exact ⟨_, rfl⟩
  · simp [Json.isObj] at hv

theorem keptOut_iff (pats : List (List Name)) (cs : List Child) :
    (∀ p ∈ protectedNames, ∀ o ∈ mergeIncomingPatch [] cs, ¬ Touches pats p o) ↔
      ∀ e ∈ memberEnds cs, (∀ b, e.2 ≠ .scalar (.bool b)) → KeptOut pats (joined [] e.1) := by
  constructor
  · intro h e he hb
    by_cases hg : gated (joined [] e.1) = true
    · exact .inl hg
    · obtain ⟨o, ho⟩ := exists_opOf (joined [] e.1) (memberEnds_not_obj cs e he) hb
      refine .inr (or_iff_not_imp_left.mpr fun hr s hs p hp hsp => ?_)
      have hkey := opOf_key ho
      apply h p hp o (mem_mergeIncomingPatch.mpr ⟨e, he, by simpa using hg, ho⟩)
      exact ⟨by simpa [hkey] using hr, s, by rw [hkey, hs], by rw [hsp, fold_protectedNames p hp]⟩
  · rintro h p hp o ho ⟨hr, s, hs, hsp⟩
    obtain ⟨e, he, hg, ho⟩ := mem_mergeIncomingPatch.mp ho
    have hb : ∀ b, e.2 ≠ .scalar (.bool b) := by
      intro b hb
      simp [hb, opOf] at ho
    rw [opOf_key ho] at hr hs
    rcases h e he hb with hk | hk | hk
    · simp [hg] at hk
    · simp [hr] at hk
    · exact hk s hs p hp (hsp.trans (fold_protectedNames p hp))

theorem commitEach_untouched_iff (pats : List (List Name)) (cs : List Child) :
    (∀ root, Untouched root (commitEach pats root (mergeIncomingPatch [] cs))) ↔
      ∀ e ∈ memberEnds cs, (∀ b, e.2 ≠ .scalar (.bool b)) → KeptOut pats (joined [] e.1) := by
  rw [← keptOut_iff]
  constructor
  · intro h p hp o ho ht
    have hsent : ∀ o ∈ mergeIncomingPatch [] cs, Sent o := by
      intro o ho
      obtain ⟨e, -, -, ho⟩ := mem_mergeIncomingPatch.mp ho
      exact sent_of_opOf ho
    obtain ⟨root, hne⟩ := exists_changed hsent (length_protectedNames p hp) ⟨o, ho, ht⟩
    exact hne (h root p hp)
  · intro h root p hp
    exact getObjectItem_commitEach (h p hp) root

/-- A message leaves the protected names of every tree alone exactly when it is harmless. -/
theorem dcHandleMessage_untouched_iff (parse : Name → Option Json) (pats : List (List Name)) (text : Name) :
    (∀ root, Untouched root (dcHandleMessage parse pats root text)) ↔ Harmless parse pats text := by
  unfold dcHandleMessage Harmless
  by_cases hping : text = lit "\x7b\"ping\":1\x7d"
  · simp [hping, untouched_refl]
  · by_cases hsave : text = lit "\x7b\"save\":1\x7d"
    · simp [hsave, untouched_refl]
    · simp only [hping, hsave, if_false, false_or]
      cases hv : parse text with
      | none => simp [untouched_refl]
      | some v =>
        by_cases hf : isFetch v = true
        · simp [hf, untouched_refl]
        · simpa [hf] using commitEach_untouched_iff pats v.children

/-- A browser that sends a null for the bare name deletes every secret. -/
theorem dcHandleMessage_deletes_secrets :
    ¬ ∀ parse pats text root, Untouched root (dcHandleMessage parse pats root text) := by
  intro h
  have hkept := h (fun _ => some (.obj [(some (lit "secrets"), .null)])) [] (lit "\x7b\"secrets\":null\x7d")
    [(some (lit "secrets"), .obj [(some (lit "key"), .scalar (.str (lit "k")))])] (lit "secrets") (.head _)
  have hsome := congrArg Option.isSome hkept
  revert hsome
  decide +kernel

end Spangap.Browser
