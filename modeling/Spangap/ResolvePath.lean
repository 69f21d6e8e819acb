import Spangap.SlashPath

namespace Spangap.ResolvePath

open List Option CJson SlashPath

variable {segs : List Name}

/-- Back over the last component, from the end of the output: its bytes, and the
slash before it unless that is the root. -/
def popBack : Name → Name
  | c :: d :: r => if c = 47 then d :: r else popBack (d :: r)
  | r => r

def popUp (out : Name) : Name := if out.length ≤ 1 then out else (popBack out.reverse.tail).reverse

def pushToken (out tok : Name) : Option Name :=
  if tok = [] then some out
  else if tok = lit "." then some out
  else if tok = lit ".." then some (popUp out)
  else
    (if 1 < out.length then if 256 ≤ out.length + 1 then none else some (out ++ [47]) else some out).bind fun out =>
      if 256 ≤ out.length + tok.length + 1 then none else some (out ++ tok)

def collapse (tok out : Name) : List UInt8 → Option Name
  | [] => pushToken out tok
  | c :: p => if c = 47 then (pushToken out tok).bind fun out => collapse [] out p else collapse (tok ++ [c]) out p

/-- The working copy takes the first 255 bytes. -/
def cliCollapseAbsolute (path : Name) (cap : Nat) : Option Name :=
  if path = [] ∨ path.head? ≠ some 47 ∨ cap ≤ path.length then none
  else (collapse [] [47] (path.take 255).tail).bind fun out => if cap < out.length + 1 then none else some out

def complete (cwd userPath : Name) : Name :=
  if userPath = [] then cwd else if userPath.head? = some 47 then userPath else cwd ++ 47 :: userPath

/-- The output, if the call returns true. -/
def cliResolveFsPath (cwd userPath : Name) (outLen : Nat) : Option Name :=
  if userPath = [] then some (cwd.take (outLen - 1))
  else if 320 ≤ (complete cwd userPath).length then none
  else (cliCollapseAbsolute (complete cwd userPath) 320).bind fun work => if outLen ≤ work.length then none else some work

def shown (segs : List Name) : Name := if segs = [] then [47] else rooted segs

def normalForm (p : Name) : Name := shown (normal p)

section Normal

variable {p n : Name}

theorem proper_resolve (hs : ∀ s ∈ segs, Proper s) (hn : 47 ∉ n) : ∀ s ∈ resolve segs n, Proper s := by
  rw [resolve]
  split
  · exact hs
  next h =>
    split
    · exact fun s hmem => hs s (dropLast_subset _ hmem)
    next hup =>
      refine forall_mem_append.mpr ⟨hs, forall_mem_singleton.mpr ?_⟩
      exact ⟨fun h' => h (.inl h'), hn, fun h' => h (.inr h'), hup⟩

theorem not_mem_of_mem_splitOn {s : Name} (h : s ∈ p.splitOn 47) : (47 : UInt8) ∉ s := by
  induction p generalizing s with
  | nil =>
    rw [splitOn_nil, mem_singleton] at h
    simp [h]
  | cons c p ih =>
    rw [splitOn, splitOnP_cons_eq_if_modifyHead] at h
    split at h
    · rcases mem_cons.mp h with rfl | h
      · simp
      · exact ih h
    next hc =>
      cases hp : List.splitOnP (· == (47 : UInt8)) p with
      | nil => simp [hp] at h
      | cons t ts =>
        rw [hp, modifyHead_cons] at h
        rcases mem_cons.mp h with rfl | h
        · have ht : (47 : UInt8) ∉ t := ih (by rw [splitOn, hp]; exact mem_cons_self)
          rw [mem_cons, not_or]
          exact ⟨fun h => hc (by simp [h]), ht⟩
        · exact ih (by rw [splitOn, hp]; exact mem_cons_of_mem _ h)

theorem proper_foldl {ns : List Name} (hn : ∀ n ∈ ns, (47 : UInt8) ∉ n) (hs : ∀ s ∈ segs, Proper s) :
    ∀ s ∈ ns.foldl resolve segs, Proper s := by
  induction ns generalizing segs with
  | nil => exact hs
  | cons n ns ih =>
    obtain ⟨hn, hns⟩ := forall_mem_cons.mp hn
    exact ih hns (proper_resolve hs hn)

theorem proper_normal (p : Name) : ∀ s ∈ normal p, Proper s :=
  proper_foldl (fun _ hn => not_mem_of_mem_splitOn hn) (by simp)

theorem absolute_normalForm (p : Name) : Absolute (normalForm p) := by
  rw [normalForm, shown]
  split
  · exact .inl rfl
  next h => exact .inr ⟨normal p, h, proper_normal p, rfl⟩

theorem normal_shown (hs : ∀ s ∈ segs, Proper s) : normal (shown segs) = segs := by
  rw [shown]
  split
  next h =>
    rw [h]
    decide
  · exact normal_rooted hs

theorem normalForm_normalForm (p : Name) : normalForm (normalForm p) = normalForm p := by
  rw [normalForm, normalForm, normal_shown (proper_normal p)]

end Normal

section Collapse

variable {p tok : Name}

theorem popBack_append {s : Name} (hs : 47 ∉ s) (R : Name) : popBack (s ++ 47 :: R) = if R = [] then [47] else R := by
  induction s with
  | nil => cases R <;> rfl
  | cons c s ih =>
    obtain ⟨hc, hs⟩ := not_or.mp (mt mem_cons.mpr hs)
    obtain ⟨d, r, hr⟩ : ∃ d r, s ++ 47 :: R = d :: r := exists_cons_of_ne_nil (by simp)
    rw [cons_append, hr, popBack, if_neg (Ne.symm hc), ← hr, ih hs]

theorem rooted_ne_nil (h : segs ≠ []) : rooted segs ≠ [] := by
  obtain ⟨s, ss, rfl⟩ := exists_cons_of_ne_nil h
  simp [rooted]

theorem popUp_shown (hs : ∀ s ∈ segs, Proper s) : popUp (shown segs) = shown segs.dropLast := by
  induction segs using List.reverseRecOn with
  | nil => rfl
  | append_singleton A s _ =>
    have hp := hs s (by simp)
    obtain ⟨B, c, hB⟩ : ∃ B c, s = B ++ [c] := by
      have h := dropLast_concat_getLast hp.ne_nil
      exact ⟨_, _, h.symm⟩
    have hno : (47 : UInt8) ∉ B.reverse := by
      rw [mem_reverse]
      exact fun h => hp.no_slash (by rw [hB]; exact mem_append_left _ h)
    have hlen : ¬ (rooted A ++ 47 :: s).length ≤ 1 := by
      simp only [hB, length_append, length_cons]
      omega
    have hrev : (rooted A ++ 47 :: s).reverse.tail = B.reverse ++ 47 :: (rooted A).reverse := by
      rw [hB]
      simp
    rw [shown, if_neg (by simp), dropLast_concat, popUp, rooted_concat, if_neg hlen, hrev, popBack_append hno, shown]
    by_cases hA : A = []
    · subst hA
      rfl
    · rw [if_neg hA, if_neg (by simpa using rooted_ne_nil hA), reverse_reverse]

theorem length_rooted_dropLast (segs : List Name) : (rooted segs.dropLast).length ≤ (rooted segs).length := by
  rcases eq_nil_or_concat segs with rfl | ⟨A, s, rfl⟩
  · exact le_rfl
  · rw [concat_eq_append, dropLast_concat, rooted_concat, length_append]
    exact Nat.le_add_right _ _

theorem length_rooted_resolve (segs : List Name) (n : Name) :
    (rooted (resolve segs n)).length ≤ (rooted segs).length + (1 + n.length) := by
  rw [resolve]
  split
  · omega
  · split
    · exact Nat.le_add_right_of_le (length_rooted_dropLast segs)
    · rw [rooted_concat, length_append, length_cons]
      omega

theorem one_lt_length_rooted (hs : ∀ s ∈ segs, Proper s) (h : segs ≠ []) : 1 < (rooted segs).length := by
  obtain ⟨s, ss, rfl⟩ := exists_cons_of_ne_nil h
  have hlen := length_pos_of_ne_nil (hs s mem_cons_self).ne_nil
  simp only [rooted, map_cons, flatten_cons, length_append, length_cons]
  omega

theorem length_shown (segs : List Name) : (shown segs).length = max 1 (rooted segs).length := by
  rw [shown]
  split
  next h =>
    rw [h]
    rfl
  next h =>
    have := length_pos_of_ne_nil (rooted_ne_nil h)
    omega

theorem pushToken_proper (hs : ∀ s ∈ segs, Proper s) (ht : Proper tok) : pushToken (shown segs) tok =
      if 255 ≤ (shown (segs ++ [tok])).length then none else some (shown (segs ++ [tok])) := by
  have hnew : shown (segs ++ [tok]) = rooted segs ++ 47 :: tok := by
    rw [shown, if_neg (by simp), rooted_concat]
  rw [pushToken, if_neg ht.ne_nil, if_neg ht.not_dot, if_neg ht.not_up, hnew, length_append, length_cons]
  by_cases hsegs : segs = []
  · subst hsegs
    rw [shown, if_pos rfl, if_neg (by simp), bind_some]
    simp only [rooted, map_nil, flatten_nil, length_nil, length_singleton]
    split_ifs
    · rfl
    · omega
    · omega
    · rfl
  · rw [shown, if_neg hsegs, if_pos (one_lt_length_rooted hs hsegs)]
    split_ifs with hslash hlen hlen
    · rfl
    · omega
    all_goals
      rw [bind_some, length_append, length_singleton]
      split_ifs
    · rfl
    · omega
    · omega
    · rw [append_assoc]
      rfl

theorem pushToken_eq (hs : ∀ s ∈ segs, Proper s) (htok : 47 ∉ tok) (hlen : (rooted segs).length < 255) :
    pushToken (shown segs) tok = if 255 ≤ (shown (resolve segs tok)).length then none
      else some (shown (resolve segs tok)) := by
  have hshort : (shown segs).length < 255 := by
    rw [length_shown]
    omega
  by_cases hnil : tok = []
  · rw [hnil, resolve_nil, if_neg (by omega)]
    rfl
  · by_cases hdot : tok = lit "."
    · rw [hdot, resolve_dot, if_neg (by omega)]
      rfl
    · by_cases hup : tok = lit ".."
      · have hpop : (shown segs.dropLast).length < 255 := by
          have := length_rooted_dropLast segs
          rw [length_shown]
          omega
        rw [hup, resolve_up, if_neg (by omega), ← popUp_shown hs]
        rfl
      · have ht : Proper tok := ⟨hnil, htok, hdot, hup⟩
        rw [resolve_proper ht, pushToken_proper hs ht]

/-- The walk leaves the normal form, or runs out of room at the end of the input
if that takes 255 bytes. -/
theorem collapse_eq (hs : ∀ s ∈ segs, Proper s) (htok : 47 ∉ tok)
    (hlen : (rooted segs).length + 1 + tok.length + p.length ≤ 255) :
    collapse tok (shown segs) p =
      if 255 ≤ (shown (((tok ++ p).splitOn 47).foldl resolve segs)).length then none
      else some (shown (((tok ++ p).splitOn 47).foldl resolve segs)) := by
  induction p generalizing segs tok with
  | nil =>
    rw [append_nil, splitOn_eq_singleton htok, collapse, pushToken_eq hs htok (by omega)]
    rfl
  | cons c p ih =>
    rw [length_cons] at hlen
    rw [collapse]
    by_cases hc : c = 47
    · subst hc
      -- the slash that ends the component leaves room for it
      have hnew := length_rooted_resolve segs tok
      rw [if_pos rfl, pushToken_eq hs htok (by omega), if_neg (by rw [length_shown]; omega), bind_some,
        splitOn_append_cons_self, splitOn_eq_singleton htok, foldl_append]
      exact ih (proper_resolve hs htok) (by simp) (by simp only [length_nil]; omega)
    · rw [if_neg hc, append_cons tok c p]
      refine ih hs ?_ (by simp only [length_append, length_singleton]; omega)
      rw [mem_append, mem_singleton, not_or]
      exact ⟨htok, Ne.symm hc⟩

theorem cliCollapseAbsolute_eq {path : Name} (habs : path.head? = some 47) {cap : Nat} (hcap : path.length < cap)
    (hroom : 255 ≤ cap) : cliCollapseAbsolute path cap =
      if 255 ≤ (normalForm (path.take 255)).length then none else some (normalForm (path.take 255)) := by
  cases path with
  | nil => cases habs
  | cons c p =>
    cases habs
    have hroot : shown [] = [47] := rfl
    have hnormal : normalForm (47 :: p.take 254) = shown ((([] ++ p.take 254).splitOn 47).foldl resolve []) := by
      rw [normalForm, normal, ← nil_append (47 :: _), splitOn_append_cons_self]
      rfl
    have hcut : (rooted []).length + 1 + ([] : Name).length + (p.take 254).length ≤ 255 := by
      have := length_take_le 254 p
      simp only [rooted, map_nil, flatten_nil, length_nil]
      omega
    rw [length_cons] at hcap
    rw [cliCollapseAbsolute, if_neg (by simp; omega), take_succ_cons, tail_cons, ← hroot,
      collapse_eq (by simp) (by simp) hcut, ← hnormal]
    split
    · rfl
    · rw [bind_some, if_neg (by omega)]

end Collapse

/-- What the buffers cut off does not change where the path leads. -/
def Reliable (cwd userPath : Name) (outLen : Nat) : Prop :=
  if userPath = [] then cwd.take (outLen - 1) = normalForm cwd
  else
    320 ≤ (complete cwd userPath).length ∨
      255 ≤ (normalForm ((complete cwd userPath).take 255)).length ∨
      outLen ≤ (normalForm ((complete cwd userPath).take 255)).length ∨
      normalForm ((complete cwd userPath).take 255) = normalForm (complete cwd userPath)

theorem cliResolveFsPath_eq {cwd userPath : Name} (hcwd : cwd.head? = some 47) (hne : userPath ≠ []) (outLen : Nat) :
    cliResolveFsPath cwd userPath outLen =
      if 320 ≤ (complete cwd userPath).length ∨ 255 ≤ (normalForm ((complete cwd userPath).take 255)).length ∨
          outLen ≤ (normalForm ((complete cwd userPath).take 255)).length then none
      else some (normalForm ((complete cwd userPath).take 255)) := by
  have habs : (complete cwd userPath).head? = some 47 := by
    rw [complete, if_neg hne]
    split
    · assumption
    · rw [head?_append, hcwd]
      rfl
  rw [cliResolveFsPath, if_neg hne]
  by_cases hlong : 320 ≤ (complete cwd userPath).length
  · rw [if_pos hlong, if_pos (.inl hlong)]
  · rw [if_neg hlong, cliCollapseAbsolute_eq habs (by omega) (by omega)]
    by_cases hfull : 255 ≤ (normalForm ((complete cwd userPath).take 255)).length
    · rw [if_pos hfull, if_pos (.inr (.inl hfull))]
      rfl
    · rw [if_neg hfull, bind_some]
      simp [hlong, hfull]

/-- The target is never changed silently if and only if the cut is harmless; the
normal form is absolute, without dot or empty components, and its own normal form. -/
theorem cliResolveFsPath_right_iff (cwd userPath : Name) (outLen : Nat) (hcwd : cwd.head? = some 47) :
    ((∀ out, cliResolveFsPath cwd userPath outLen = some out → out = normalForm (complete cwd userPath)) ∧
        Absolute (normalForm (complete cwd userPath)) ∧
        normalForm (normalForm (complete cwd userPath)) = normalForm (complete cwd userPath)) ↔
      Reliable cwd userPath outLen := by
  have hform : Absolute (normalForm (complete cwd userPath)) ∧
      normalForm (normalForm (complete cwd userPath)) = normalForm (complete cwd userPath) :=
    ⟨absolute_normalForm _, normalForm_normalForm _⟩
  rw [and_iff_left hform, Reliable]
  by_cases hne : userPath = []
  · rw [cliResolveFsPath, if_pos hne, if_pos hne, complete, if_pos hne]
    exact ⟨fun h => h _ rfl, fun h out hout => (some_inj.mp hout).symm.trans h⟩
  · rw [cliResolveFsPath_eq hcwd hne, if_neg hne]
    constructor
    · intro h
      split at h
      next hfail =>
        rcases hfail with hfail | hfail | hfail
        · exact .inl hfail
        · exact .inr (.inl hfail)
        · exact .inr (.inr (.inl hfail))
      · exact .inr (.inr (.inr (h _ rfl)))
    · intro h out hout
      split at hout
      · cases hout
      next hok =>
        rcases h with h | h | h | h
        · exact absurd (.inl h) hok
        · exact absurd (.inr (.inl h)) hok
        · exact absurd (.inr (.inr h)) hok
        · rw [← h]
          exact (some_inj.mp hout).symm

theorem cliResolveFsPath_right_iff_up : (lit "/a/b").head? = some 47 ∧
      (((∀ out, cliResolveFsPath (lit "/a/b") (lit "../c") 256 = some out →
            out = normalForm (complete (lit "/a/b") (lit "../c"))) ∧
          Absolute (normalForm (complete (lit "/a/b") (lit "../c"))) ∧
          normalForm (normalForm (complete (lit "/a/b") (lit "../c"))) = normalForm (complete (lit "/a/b") (lit "../c"))) ↔
        Reliable (lit "/a/b") (lit "../c") 256) :=
  ⟨by decide, cliResolveFsPath_right_iff (lit "/a/b") (lit "../c") 256 (by decide)⟩

/-- Two slashes, a name of 253 bytes and another component. -/
def doubled : Name := 47 :: 47 :: (replicate 253 97 ++ lit "/b")

/-- The component behind the first 255 bytes is dropped without a word. -/
theorem cliResolveFsPath_cuts : cliResolveFsPath (lit "/") doubled 256 = some (47 :: replicate 253 97) ∧
      normalForm (complete (lit "/") doubled) = 47 :: (replicate 253 97 ++ lit "/b") := by
  decide +kernel

end Spangap.ResolvePath
