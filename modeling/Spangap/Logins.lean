import Mathlib.Data.List.GetD
import Mathlib.Data.List.ReduceOption
import Spangap.CookieCalls
import Spangap.Runs

namespace Spangap.Logins

open CJson DotPath Commit View Browser Cookies CookieTable CookieCalls Decimals Runs
open Subtree (text)
open FieldValues (decimal hexEncodeBytes)

variable {i n now t : Nat} {s : Session} {cookie : Name} {root : List Child} {verify : Name → Name → Bool}
  {pats : List (List Name)} {future : List Name}

structure Session where
  token : Name
  realm : Name
  expires : Nat
  deriving DecidableEq, Repr

variable {S : List Session} {R : List (Option Session)}

inductive Call
  | login (password tryRealm : Name) (rnd : Vector UInt8 16) (now millis : Nat)
  | logout (cookie : Name)
  | check (cookie : Name) (now : Nat)

inductive Event
  | issued (s : Session) (now : Nat)
  | refused
  | logout (cookie : Name)
  | checked (cookie : Name) (now : Nat) (answer : Name)

def tokenOf (rnd : Vector UInt8 16) : Name := hexEncodeBytes rnd.toList

section Machine

variable (verify : Name → Name → Bool) (pats : List (List Name))

def call (s : Auth) : Call → Auth × Event
  | .login password tryRealm rnd now millis =>
    match authLogin verify pats s password tryRealm rnd.toList now millis with
    | (s', some (name, token)) => (s', .issued ⟨token, name, now + cookieExpiry⟩ now)
    | (s', none) => (s', .refused)
  | .logout cookie => ({ s with root := (authLogout pats s.root cookie).1 }, .logout cookie)
  | .check cookie now => ({ s with root := (authCheck pats s.root cookie now).1 }, .checked cookie now (authCheck pats s.root cookie now).2)

def history (s : Auth) : List Call → List Event
  | [] => []
  | c :: cs => (call verify pats s c).2 :: history (call verify pats s c).1 cs

end Machine

def unexpired (now : Nat) (s : Session) : Bool := now ≤ s.expires

def realmOf (S : List Session) (cookie : Name) (now : Nat) : Name :=
  (((S.filter (unexpired now)).find? fun s => s.token = cookie).map Session.realm).getD []

/-- A history as the documentation has it, from the sessions that are neither logged out
nor evicted. -/
inductive Documented : List Session → List Event → Prop
  | nil (S : List Session) : Documented S []
  | issued {S : List Session} {s : Session} {now : Nat} {es : List Event} (hroom : (S.filter (unexpired now)).length < maxCookies)
      (h : Documented (S ++ [s]) es) : Documented S (.issued s now :: es)
  | evicts {S : List Session} {s e : Session} {now : Nat} {es : List Event} (hfull : maxCookies ≤ (S.filter (unexpired now)).length)
      (he : e ∈ S.filter (unexpired now)) (hleast : ∀ x ∈ S.filter (unexpired now), e.expires ≤ x.expires)
      (h : Documented (S.filter (fun x => x.token ≠ e.token) ++ [s]) es) : Documented S (.issued s now :: es)
  | refused {S : List Session} {es : List Event} (h : Documented S es) : Documented S (.refused :: es)
  | logout {S : List Session} {cookie : Name} {es : List Event} (h : Documented (S.filter fun x => x.token ≠ cookie) es) :
      Documented S (.logout cookie :: es)
  | checked {S : List Session} {cookie answer : Name} {now : Nat} {es : List Event} (hanswer : answer = realmOf S cookie now)
      (h : Documented S es) : Documented S (.checked cookie now answer :: es)

/-- A clock that has been set and never goes back. -/
def Clocked : Nat → List Call → Prop
  | _, [] => True
  | t, .logout _ :: cs => Clocked t cs
  | t, .login _ _ _ now _ :: cs => (1700000000 < now ∧ now + cookieExpiry < 2 ^ 63 ∧ t ≤ now) ∧ Clocked now cs
  | t, .check _ now :: cs => (1700000000 < now ∧ now + cookieExpiry < 2 ^ 63 ∧ t ≤ now) ∧ Clocked now cs

def tokens (cs : List Call) : List Name :=
  cs.filterMap fun
    | .login _ _ rnd _ _ => some (tokenOf rnd)
    | _ => none

def expiryAt (root : List Child) (i : Nat) : Int := strtoll (storageGetStr root (cookieKey i .expires) 32)

/-- The search for the earliest expiry does not get lost: there are slots left, or no slot
is empty, or the last one is, or behind the last empty one there is a session that has
expired. -/
def Room (root : List Child) (now : Nat) : Prop :=
  cookieCount root < maxCookies ∨ (∀ i < cookieCount root, expiryAt root i ≠ 0) ∨ expiryAt root (cookieCount root - 1) = 0 ∨
    ∃ i < cookieCount root, expiryAt root i < now ∧ ∀ j < cookieCount root, i ≤ j → expiryAt root j ≠ 0

instance (root : List Child) (now : Nat) : Decidable (Room root now) := inferInstanceAs (Decidable (_ ∨ _ ∨ _ ∨ _))

/-- A login whose session can be stored as it is and finds its place. -/
def Fitting (verify : Name → Name → Bool) (s : Auth) : Call → Prop
  | .login password tryRealm rnd now millis =>
    isRateLimited s millis = false → ∀ name ∈ openedRealm verify s.root password tryRealm,
      inferType (tokenOf rnd) = none ∧ canon name = name ∧ Room s.root now
  | _ => True

theorem oldest_spec (exp : Nat → Int) (hexp : ∀ i < n, 0 ≤ exp i) (hn : 0 < n) :
    (oldest exp n).2 < n ∧ (oldest exp n).1 = exp (oldest exp n).2 ∧ (exp (n - 1) = 0 → (oldest exp n).2 = n - 1) ∧
      ∀ j < n, (∀ l < n, j ≤ l → exp l ≠ 0) → exp (oldest exp n).2 ≠ 0 ∧ exp (oldest exp n).2 ≤ exp j := by
  induction n with
  | zero => exact absurd hn (lt_irrefl 0)
  | succ n ih =>
    have hstep : oldest exp (n + 1) = if (oldest exp n).1 = 0 ∨ exp n < (oldest exp n).1 then (exp n, n) else oldest exp n := by
      rw [oldest, List.range_succ, List.foldl_append]
      rfl
    rcases Nat.eq_zero_or_pos n with rfl | hpos
    · have hfirst : oldest exp 1 = (exp 0, 0) := hstep.trans (if_pos (.inl rfl))
      rw [hfirst]
      refine ⟨Nat.one_pos, rfl, fun _ => rfl, fun j hj hne => ?_⟩
      obtain rfl : j = 0 := by omega
      exact ⟨hne 0 Nat.one_pos (le_refl 0), Int.le_refl _⟩
    · obtain ⟨hlt, hval, -, hleast⟩ := ih (fun i hi => hexp i (by omega)) hpos
      rw [hstep]
      split
      next htake =>
        refine ⟨Nat.lt_succ_self n, rfl, fun _ => rfl, fun j hj hne => ⟨hne n (Nat.lt_succ_self n) (by omega), ?_⟩⟩
        rcases Nat.lt_succ_iff_lt_or_eq.mp hj with hj | rfl
        · obtain ⟨hk, hle⟩ := hleast j hj fun l hl hjl => hne l (by omega) hjl
          rcases htake with hzero | hless
          · exact absurd (hval ▸ hzero) hk
          · dsimp only
            omega
        · exact Int.le_refl _
      next hkeep =>
        rw [not_or, Int.not_lt] at hkeep
        refine ⟨by omega, hval, fun hzero => ?_, fun j hj hne => ?_⟩
        · have := hexp (oldest exp n).2 (by omega)
          rw [Nat.add_sub_cancel] at hzero
          omega
        · refine ⟨hval ▸ hkeep.1, ?_⟩
          rcases Nat.lt_succ_iff_lt_or_eq.mp hj with hj | rfl
          · exact (hleast j hj fun l hl hjl => hne l (by omega) hjl).2
          · omega

section Rows

open List

def texts : Option Session → Slot
  | none => blank
  | some s => slotOf s.token s.realm s.expires

structure Good (s : Session) : Prop where
  token : canon s.token = s.token
  tokenLen : s.token.length = 32
  realm : canon s.realm = s.realm
  realmLen : s.realm.length ≤ 31
  valid : 1700000000 < s.expires
  small : s.expires < 2 ^ 63

theorem Good.sound (h : Good s) : Sound (texts (some s)) where
  canon f := by
    cases f with
    | cookie => exact h.token
    | expires => exact canon_decimal _
    | realm => exact h.realm
  cookie := le_of_eq h.tokenLen |>.trans (by decide)
  expires := (length_decimal (by decide) (lt_trans h.small (show 2 ^ 63 < 10 ^ 19 by decide))).trans (by decide)
  realm := h.realmLen

/-- The slots hold the sessions that live, in the order of their logins, and perhaps some
that have expired. -/
structure Inv (root : List Child) (S : List Session) (t : Nat) (future : List Name) (R : List (Option Session)) : Prop where
  holds : Holds root (R.map texts)
  short : R.length ≤ maxCookies
  good : ∀ s, some s ∈ R → Good s
  nodup : (R.reduceOption.map Session.token).Nodup
  fresh : ∀ s, some s ∈ R → s.token ∉ future
  agree : R.reduceOption.filter (unexpired t) = S.filter (unexpired t)

theorem filter_later {A B : List Session} (h : A.filter (unexpired t) = B.filter (unexpired t)) (hle : t ≤ now) :
    A.filter (unexpired now) = B.filter (unexpired now) := by
  have hboth : ∀ l : List Session, l.filter (unexpired now) = (l.filter (unexpired t)).filter (unexpired now) := by
    intro l
    rw [filter_filter]
    refine filter_congr fun s _ => ?_
    unfold unexpired
    rw [← Bool.decide_and]
    exact decide_eq_decide.mpr (by omega)
  rw [hboth A, hboth B, h]

section

variable (h : Inv root S t future R)
include h

theorem Inv.later (hle : t ≤ now) : Inv root S now future R :=
  { h with agree := filter_later h.agree hle }

theorem Inv.sound : ∀ x ∈ R.map texts, Sound x := by
  intro x hx
  obtain ⟨r, hr, rfl⟩ := mem_map.mp hx
  cases r with
  | none => exact sound_blank
  | some s => exact (h.good s hr).sound

theorem Inv.small : (R.map texts).length ≤ 2147483647 := by
  rw [length_map]
  exact h.short.trans (by decide)

theorem Inv.count : cookieCount root = R.length := by
  rw [cookieCount_eq h.holds, length_map]

theorem Inv.getStr (hi : i ≤ maxCookies) (f : Field) (n : Nat) :
    storageGetStr root (cookieKey i f) n = (texts (R.getD i none) f).take (n - 1) := by
  rw [storageGetStr_eq h.holds (hi.trans (by decide)), show blank = texts none from rfl, getD_map]

end

theorem strtoll_decimal (hn : n < 2 ^ 63) : strtoll (decimal n) = n := by
  rw [strtoll, signed_decimal]
  simp only [Bool.false_eq_true, if_false]
  omega

section

variable (h : Inv root S t future R)
include h

theorem Inv.expiry (hi : i ≤ maxCookies) (hn : 24 ≤ n) (hs : R[i]? = some (some s)) :
    strtoll (storageGetStr root (cookieKey i .expires) n) = s.expires := by
  have hgood := h.good s (mem_of_getElem? hs)
  rw [h.getStr hi, getD_eq_getElem?_getD, hs, Option.getD_some,
    take_of_length_le (hgood.sound.expires.trans (by omega))]
  exact strtoll_decimal hgood.small

theorem Inv.expiry_none (hi : i ≤ maxCookies) (hs : R.getD i none = none) : expiryAt root i = 0 := by
  rw [expiryAt, h.getStr hi, hs]
  decide

theorem Inv.row (hi : i ≤ maxCookies) :
    R[i]?.join = none ∧ expiryAt root i = 0 ∨ ∃ s, R[i]? = some (some s) ∧ expiryAt root i = s.expires := by
  cases hr : R[i]?.join with
  | none => exact .inl ⟨rfl, h.expiry_none hi (by cases hj : R[i]? <;> simp_all)⟩
  | some s =>
    rw [Option.join_eq_some_iff] at hr
    exact .inr ⟨s, hr, h.expiry hi (by decide) hr⟩

theorem Inv.expiry_nonneg (hi : i ≤ maxCookies) : 0 ≤ expiryAt root i := by
  rcases h.row hi with ⟨-, hzero⟩ | ⟨s, -, hexp⟩ <;> omega

theorem Inv.row_of_expiry (hi : i ≤ maxCookies) (hne : expiryAt root i ≠ 0) :
    ∃ s, R[i]? = some (some s) ∧ expiryAt root i = s.expires :=
  (h.row hi).resolve_left fun hno => hne hno.2

theorem Inv.token_at (hi : i ≤ maxCookies) (hne : cookie ≠ []) :
    storageGetStr root (cookieKey i .cookie) 64 = cookie ↔ ∃ s, R[i]? = some (some s) ∧ s.token = cookie := by
  rw [h.getStr hi, getD_eq_getElem?_getD]
  cases hr : R[i]? with
  | none => simpa [texts, blank] using hne.symm
  | some r =>
    cases r with
    | none => simpa [texts, blank] using hne.symm
    | some s =>
      have hgood := (h.good s (mem_of_getElem? hr)).sound.cookie
      rw [Option.getD_some, take_of_length_le hgood]
      simp [texts, slotOf]

theorem Inv.find_none (hfind : cookie = [] ∨ findCookie root cookie = none) (s : Session) (hs : some s ∈ R) : s.token ≠ cookie := by
  rintro rfl
  have hne : s.token ≠ [] := ne_nil_of_length_pos (by rw [(h.good s hs).tokenLen]; decide)
  have hfind := hfind.resolve_left hne
  rw [findCookie, h.count, find?_eq_none] at hfind
  obtain ⟨i, hi⟩ := mem_iff_getElem?.mp hs
  obtain ⟨hlt, -⟩ := List.getElem?_eq_some_iff.mp hi
  have hno := hfind i (mem_range.mpr hlt)
  rw [decide_eq_true_eq, h.token_at (by have := h.short; omega) hne] at hno
  exact hno ⟨s, hi, rfl⟩

theorem Inv.find_some (hne : cookie ≠ []) (hfind : findCookie root cookie = some i) :
    i < R.length ∧ ∃ s, R[i]? = some (some s) ∧ s.token = cookie := by
  rw [findCookie, h.count] at hfind
  have hmem := mem_range.mp (mem_of_find?_eq_some hfind)
  have hprop := find?_some hfind
  rw [decide_eq_true_eq, h.token_at (by have := h.short; omega) hne] at hprop
  exact ⟨hmem, hprop⟩

end

end Rows

section Steps

open List

variable
  {n : Session}

theorem split_at {r : Option Session} (hr : R[i]? = some r) :
    R.reduceOption = (R.take i).reduceOption ++ ([r].reduceOption ++ (R.drop (i + 1)).reduceOption) ∧
      (R.eraseIdx i).reduceOption = (R.take i).reduceOption ++ (R.drop (i + 1)).reduceOption := by
  obtain ⟨hi, rfl⟩ := List.getElem?_eq_some_iff.mp hr
  refine ⟨?_, ?_⟩
  · rw [← reduceOption_append, ← reduceOption_append, singleton_append, ← drop_eq_getElem_cons hi,
      take_append_drop]
  · rw [eraseIdx_eq_take_drop_succ, reduceOption_append]

theorem filter_agree {A B : List Session} {q : Session → Bool} (h : A.filter q = B.filter q) (p : Session → Bool) :
    (A.filter p).filter q = (B.filter p).filter q := by
  rw [filter_comm q p A, h, filter_comm q p B]

theorem reduceOption_eraseIdx (hr : R[i]? = some (some s)) (hnodup : (R.reduceOption.map Session.token).Nodup) :
    (R.eraseIdx i).reduceOption = R.reduceOption.filter fun x => x.token ≠ s.token := by
  obtain ⟨hall, hrest⟩ := split_at hr
  rw [hall] at hnodup ⊢
  rw [hrest, show [some s].reduceOption = [s] from rfl] at *
  rw [map_append, map_append, map_singleton, singleton_append, nodup_middle, nodup_cons, ← map_append,
    mem_map] at hnodup
  have hkeep : ∀ l : List Session, (∀ x ∈ l, x ∈ (R.take i).reduceOption ++ (R.drop (i + 1)).reduceOption) →
      l.filter (fun x => x.token ≠ s.token) = l := fun l hl =>
    filter_eq_self.mpr fun x hx => decide_eq_true fun heq => hnodup.1 ⟨x, hl x hx, heq⟩
  rw [filter_append, filter_append, hkeep _ fun x hx => mem_append_left _ hx,
    hkeep _ fun x hx => mem_append_right _ hx]
  simp

theorem reduceOption_eraseIdx_none (hr : R[i]? = some none) : (R.eraseIdx i).reduceOption = R.reduceOption := by
  obtain ⟨hall, hrest⟩ := split_at hr
  rw [hall, hrest]
  rfl

theorem Inv.unique (h : Inv root S t future R) {x : Session} (hs : some s ∈ R) (hx : x ∈ R.reduceOption) (heq : x.token = s.token) :
    x = s :=
  inj_on_of_nodup_map h.nodup hx (reduceOption_mem_iff.mpr hs) heq

theorem Inv.drop_expired (h : Inv root S now future R) (hs : R[i]? = some (some s)) (hold : unexpired now s = false) :
    (R.eraseIdx i).reduceOption.filter (unexpired now) = S.filter (unexpired now) := by
  rw [reduceOption_eraseIdx hs h.nodup, filter_comm, ← h.agree]
  refine filter_eq_self.mpr fun x hx => decide_eq_true fun heq => ?_
  rw [mem_filter] at hx
  rw [h.unique (mem_of_getElem? hs) hx.1 heq, hold] at hx
  exact absurd hx.2 (by simp)

section

variable (h : Inv root S t future R) (hpats : Unrouted pats)
include h hpats

theorem Inv.holds_remove (hi : i < R.length) :
    Holds (cookieRemove pats root i) ((R.eraseIdx i ++ [none]).map texts) := by
  have hholds := CookieCalls.holds_remove h.holds hpats h.sound h.small i (by rwa [length_map])
  rwa [eraseIdx_eq_take_drop_succ, ← map_take, ← map_drop, ← map_append, ← eraseIdx_eq_take_drop_succ,
    show [blank] = [none].map texts from rfl, ← map_append] at hholds

theorem Inv.remove (hi : i < R.length) {S' : List Session}
    (hagree : (R.eraseIdx i).reduceOption.filter (unexpired t) = S'.filter (unexpired t)) :
    Inv (cookieRemove pats root i) S' t future (R.eraseIdx i ++ [none]) := by
  have hmem : ∀ s, some s ∈ R.eraseIdx i ++ [none] → some s ∈ R := by
    intro s hs
    rcases mem_append.mp hs with hs | hs
    · exact mem_of_mem_eraseIdx hs
    · simp at hs
  have hred : (R.eraseIdx i ++ [none]).reduceOption = (R.eraseIdx i).reduceOption := by
    rw [reduceOption_append]
    exact append_nil _
  refine ⟨h.holds_remove hpats hi, ?_, fun s hs => h.good s (hmem s hs), ?_, fun s hs => h.fresh s (hmem s hs), hred ▸ hagree⟩
  · rw [length_append, length_eraseIdx_of_lt hi, length_singleton]
    have := h.short
    omega
  · rw [hred]
    exact h.nodup.sublist (((eraseIdx_sublist R i).filterMap id).map _)

theorem Inv.logout (cookie : Name) :
    ∃ R', Inv (authLogout pats root cookie).1 (S.filter fun x => x.token ≠ cookie) t future R' := by
  -- Without a session for the cookie nothing changes on either side.
  have hskip : (∀ s, some s ∈ R → s.token ≠ cookie) → Inv root (S.filter fun x => x.token ≠ cookie) t future R := by
    intro hno
    have hall : R.reduceOption.filter (fun x => x.token ≠ cookie) = R.reduceOption :=
      filter_eq_self.mpr fun x hx => decide_eq_true (hno x (reduceOption_mem_iff.mp hx))
    refine { h with agree := ?_ }
    rw [← hall]
    exact filter_agree h.agree _
  unfold authLogout
  split
  next hnil => exact ⟨R, hskip (h.find_none (.inl hnil))⟩
  next hne =>
    split
    next i hfind =>
      obtain ⟨hi, s, hs, rfl⟩ := h.find_some hne hfind
      refine ⟨_, h.remove hpats hi ?_⟩
      rw [reduceOption_eraseIdx hs h.nodup]
      exact filter_agree h.agree _
    next hfind => exact ⟨R, hskip (h.find_none (.inr hfind))⟩

end

theorem realmOf_eq (h : Inv root S now future R) (cookie : Name) :
    realmOf S cookie now = (((R.reduceOption.filter (unexpired now)).find? fun s => s.token = cookie).map Session.realm).getD [] := by
  rw [realmOf, h.agree]

theorem Inv.check (h : Inv root S now future R) (hpats : Unrouted pats) (hnow : 1700000000 < now) (cookie : Name) :
    (authCheck pats root cookie now).2 = realmOf S cookie now ∧ ∃ R', Inv (authCheck pats root cookie now).1 S now future R' := by
  have hnone : (∀ s, some s ∈ R → s.token ≠ cookie) → realmOf S cookie now = [] := by
    intro hno
    rw [realmOf_eq h, find?_eq_none.mpr]
    · rfl
    · intro s hs
      simpa using hno s (reduceOption_mem_iff.mp (mem_of_mem_filter hs))
  unfold authCheck
  split
  next hnil => exact ⟨(hnone (h.find_none (.inl hnil))).symm, R, h⟩
  next hne =>
    split
    next i hfind =>
      obtain ⟨hi, s, hs, rfl⟩ := h.find_some hne hfind
      have hsmall : i ≤ maxCookies := (le_of_lt hi).trans h.short
      have hgood := h.good s (mem_of_getElem? hs)
      have hmem : s ∈ R.reduceOption := reduceOption_mem_iff.mpr (mem_of_getElem? hs)
      have hone : ∀ x ∈ R.reduceOption, x.token = s.token → x = s := fun x hx => h.unique (mem_of_getElem? hs) hx
      dsimp only
      rw [h.expiry hsmall (le_rfl) hs]
      split
      next hexp =>
        have hold : unexpired now s = false := by
          unfold unexpired
          exact decide_eq_false (by omega)
        refine ⟨?_, _, h.remove hpats hi (h.drop_expired hs hold)⟩
        rw [realmOf_eq h, find?_eq_none.mpr]
        · rfl
        · intro x hx
          rw [mem_filter] at hx
          simp only [decide_eq_true_eq]
          intro heq
          rw [hone x hx.1 heq, hold] at hx
          exact absurd hx.2 (by simp)
      next hexp =>
        have hlive : unexpired now s = true := by
          have hvalid := hgood.valid
          unfold clockValid at hexp
          unfold unexpired
          exact decide_eq_true (by omega)
        refine ⟨?_, R, h⟩
        have hfound : (R.reduceOption.filter (unexpired now)).find? (fun x => x.token = s.token) = some s := by
          have hsome : ((R.reduceOption.filter (unexpired now)).find? (fun x => x.token = s.token)).isSome = true :=
            find?_isSome.mpr ⟨s, mem_filter.mpr ⟨hmem, hlive⟩, decide_eq_true rfl⟩
          obtain ⟨x, hx⟩ := Option.isSome_iff_exists.mp hsome
          rw [hx, hone x (mem_of_mem_filter (mem_of_find?_eq_some hx)) (by simpa using find?_some hx)]
        rw [realmOf_eq h, hfound, h.getStr hsmall, getD_eq_getElem?_getD, hs, Option.getD_some,
          take_of_length_le hgood.sound.realm]
        rfl
    next hfind => exact ⟨(hnone (h.find_none (.inr hfind))).symm, R, h⟩

theorem Inv.place (h : Inv root S now (n.token :: future) R) (hgood : Good n) (hnew : n.token ∉ future) (hlive : unexpired now n = true)
    {root' : List Child} {L : List (Option Session)} (hsub : ∀ s, some s ∈ L → some s ∈ R) (hred : L.reduceOption = R.reduceOption)
    (hlen : L.length < maxCookies) (hholds : Holds root' ((L ++ [some n]).map texts)) :
    Inv root' (S ++ [n]) now future (L ++ [some n]) := by
  have hall : (L ++ [some n]).reduceOption = R.reduceOption ++ [n] := by
    rw [reduceOption_append, hred]
    rfl
  have hmem : ∀ s, some s ∈ L ++ [some n] → some s ∈ R ∨ s = n := by
    intro s hs
    rcases mem_append.mp hs with hs | hs
    · exact .inl (hsub s hs)
    · exact .inr (by simpa using hs)
  refine ⟨hholds, ?_, ?_, ?_, ?_, ?_⟩
  · rw [length_append, length_singleton]
    omega
  · intro s hs
    rcases hmem s hs with hs | rfl
    · exact h.good s hs
    · exact hgood
  · rw [hall, map_append, nodup_append]
    refine ⟨h.nodup, nodup_singleton _, fun a ha b hb => ?_⟩
    obtain ⟨x, hx, rfl⟩ := mem_map.mp ha
    rw [map_singleton, mem_singleton] at hb
    rw [hb]
    intro heq
    exact h.fresh x (reduceOption_mem_iff.mp hx) (heq ▸ mem_cons_self)
  · intro s hs
    rcases hmem s hs with hs | rfl
    · exact fun hin => h.fresh s hs (mem_cons_of_mem _ hin)
    · exact hnew
  · rw [hall, filter_append, filter_append, h.agree]

theorem texts_good (hgood : Good n) : canon ∘ slotOf n.token n.realm n.expires = texts (some n) := by
  funext f
  exact hgood.sound.canon f

theorem Inv.victim (h : Inv root S now future R) (hfull : R.length = maxCookies) (hroom : Room root now) :
    (oldest (expiryAt root) maxCookies).2 < R.length ∧
      (R[(oldest (expiryAt root) maxCookies).2]? = some none ∨
        ∃ e, R[(oldest (expiryAt root) maxCookies).2]? = some (some e) ∧
          (unexpired now e = false ∨ none ∉ R ∧ ∀ x, some x ∈ R → e.expires ≤ x.expires)) := by
  obtain ⟨hlt, -, hlast, hleast⟩ := oldest_spec (expiryAt root) (n := maxCookies) (fun i hi => h.expiry_nonneg (le_of_lt hi)) (by decide)
  set k := (oldest (expiryAt root) maxCookies).2
  have hk : k ≤ maxCookies := le_of_lt hlt
  refine ⟨hfull ▸ hlt, ?_⟩
  rw [Room, h.count, hfull] at hroom
  rcases hroom with hroom | hroom | hroom | ⟨i, hi, hexp, hne⟩
  · exact absurd hroom (lt_irrefl _)
  · obtain ⟨e, he, heq⟩ := h.row_of_expiry hk (hroom k hlt)
    refine .inr ⟨e, he, .inr ⟨fun hnone => ?_, fun x hx => ?_⟩⟩
    · obtain ⟨i, hi⟩ := mem_iff_getElem?.mp hnone
      obtain ⟨hil, -⟩ := List.getElem?_eq_some_iff.mp hi
      exact hroom i (hfull ▸ hil) (h.expiry_none (le_of_lt (hfull ▸ hil)) (by simp [hi]))
    · obtain ⟨i, hi⟩ := mem_iff_getElem?.mp hx
      obtain ⟨hil, -⟩ := List.getElem?_eq_some_iff.mp hi
      have hle := (hleast i (hfull ▸ hil) fun l hl _ => hroom l hl).2
      rw [heq, expiryAt, h.expiry (le_of_lt (hfull ▸ hil)) (by decide) hi] at hle
      exact Int.ofNat_le.mp hle
  · rcases h.row hk with ⟨hr, -⟩ | ⟨e, he, heq⟩
    · rw [getElem?_eq_getElem (hfull ▸ hlt)] at hr ⊢
      exact .inl (congrArg some hr)
    · have hpos := (h.good e (mem_of_getElem? he)).valid
      rw [← hlast hroom] at hroom
      omega
  · obtain ⟨hzero, hle⟩ := hleast i hi hne
    obtain ⟨e, he, heq⟩ := h.row_of_expiry hk hzero
    refine .inr ⟨e, he, .inl (decide_eq_false ?_)⟩
    omega

theorem Inv.add (h : Inv root S now (n.token :: future) R) (hpats : Unrouted pats) (hgood : Good n) (hnew : n.token ∉ future)
    (hlive : unexpired now n = true) (hroom : Room root now) :
    ∃ S' R', Inv (cookieAdd pats root n.token n.realm n.expires) S' now future R' ∧
      ∀ es, Documented S' es → Documented S (.issued n now :: es) := by
  have hcount := h.count
  unfold cookieAdd
  dsimp only
  split
  next hfull =>
    have hlen : R.length = maxCookies := le_antisymm h.short (hcount ▸ hfull)
    obtain ⟨hlt, hvictim⟩ := h.victim hlen hroom
    rw [hcount, hlen, show (fun i => strtoll (storageGetStr root (cookieKey i .expires) 32)) = expiryAt root from rfl]
    set k := (oldest (expiryAt root) maxCookies).2
    -- Whichever slot goes, the new session comes to stand in the last one.
    have hplace : ∀ S' : List Session, (R.eraseIdx k).reduceOption.filter (unexpired now) = S'.filter (unexpired now) →
        Inv (commit pats (cookieRemove pats root k) (addOps (maxCookies - 1) n.token n.realm n.expires)) (S' ++ [n]) now future
          (R.eraseIdx k ++ [some n]) := by
      intro S' hagree
      have hgone := h.remove hpats hlt hagree
      have hshort : (R.eraseIdx k).length = maxCookies - 1 := by rw [length_eraseIdx_of_lt hlt, hlen]
      refine hgone.place hgood hnew hlive (fun s hs => mem_append_left _ hs) ?_ (hshort ▸ by decide) ?_
      · rw [reduceOption_append]
        exact (append_nil _).symm
      · have hin : maxCookies - 1 < ((R.eraseIdx k ++ [none]).map texts).length := by
          rw [length_map, length_append, hshort]
          decide
        have hfill := holds_fill hgone.holds hpats hgone.small hin n.token n.realm n.expires
        rw [texts_good hgood, ← map_set, set_append_right _ _ (le_of_eq hshort), hshort, Nat.sub_self] at hfill
        exact hfill
    have hfew : (R.reduceOption.filter (unexpired now)).length < maxCookies →
        ∀ es, Documented (S ++ [n]) es → Documented S (.issued n now :: es) :=
      fun hless es hes => .issued (h.agree ▸ hless) hes
    rcases hvictim with hnone | ⟨e, he, hcase⟩
    · refine ⟨_, _, hplace S (by rw [reduceOption_eraseIdx_none hnone, h.agree]), hfew ?_⟩
      have hlost := reduceOption_length_lt_iff.mpr (mem_of_getElem? hnone)
      exact lt_of_le_of_lt (length_filter_le _ _) (hlen ▸ hlost)
    · cases hold : unexpired now e with
      | false =>
        refine ⟨_, _, hplace S (h.drop_expired he hold), hfew ?_⟩
        have hmem := reduceOption_mem_iff.mpr (mem_of_getElem? he)
        have hless : (R.reduceOption.filter (unexpired now)).length < R.reduceOption.length :=
          length_filter_lt_length_iff_exists.mpr ⟨e, hmem, by simp [hold]⟩
        exact lt_of_lt_of_le hless (hlen ▸ reduceOption_length_le R)
      | true =>
        obtain ⟨hall, hleast⟩ := hcase.resolve_left (by simp [hold])
        have hevery : R.reduceOption.filter (unexpired now) = R.reduceOption := by
          refine filter_eq_self.mpr fun x hx => ?_
          have hle := hleast x (reduceOption_mem_iff.mp hx)
          unfold unexpired at hold ⊢
          simp only [decide_eq_true_eq] at hold ⊢
          omega
        have hsixteen : R.reduceOption.length = maxCookies := by
          refine le_antisymm (hlen ▸ reduceOption_length_le R) (Nat.not_lt.mp fun hless => ?_)
          exact hall (reduceOption_length_lt_iff.mp (hlen ▸ hless))
        refine ⟨_, _, hplace (S.filter fun x => x.token ≠ e.token) ?_, fun es hes => ?_⟩
        · rw [reduceOption_eraseIdx he h.nodup]
          exact filter_agree h.agree _
        · refine .evicts (e := e) ?_ ?_ ?_ hes
          · rw [← h.agree, hevery, hsixteen]
          · rw [← h.agree, hevery]
            exact reduceOption_mem_iff.mpr (mem_of_getElem? he)
          · intro x hx
            rw [← h.agree, hevery] at hx
            exact hleast x (reduceOption_mem_iff.mp hx)
  next hfree =>
    have hlen : R.length < maxCookies := by
      rw [hcount] at hfree
      omega
    have happend := holds_append h.holds hpats h.small n.token n.realm n.expires
    rw [texts_good hgood, length_map, show [texts (some n)] = [some n].map texts from rfl, ← map_append] at happend
    rw [hcount]
    refine ⟨_, _, h.place hgood hnew hlive (fun _ hs => hs) rfl hlen happend, fun es hes => .issued ?_ hes⟩
    rw [← h.agree]
    exact lt_of_le_of_lt ((length_filter_le _ _).trans (reduceOption_length_le R)) hlen

end Steps

theorem length_openedRealm {password tryRealm name : Name} (h : openedRealm verify root password tryRealm = some name) :
    name.length ≤ 31 := by
  obtain ⟨r, hr, hname⟩ := List.exists_of_findSome?_eq_some h
  obtain ⟨i, -, hget⟩ := List.mem_filterMap.mp hr
  split at hname
  · cases hname
    unfold realmGet at hget
    dsimp only at hget
    split at hget
    · simp at hget
    · cases hget
      exact List.length_take_le _ _
  · simp at hname

theorem length_hexEncodeBytes (bs : List UInt8) : (hexEncodeBytes bs).length = 2 * bs.length := by
  induction bs with
  | nil => rfl
  | cons b bs ih =>
    rw [hexEncodeBytes, List.flatMap_cons, List.length_append, List.length_cons]
    rw [hexEncodeBytes] at ih
    simp only [ih, List.length_cons, List.length_nil]
    omega

theorem good_login {password tryRealm name : Name} {rnd : Vector UInt8 16}
    (hname : openedRealm verify root password tryRealm = some name) (htoken : inferType (tokenOf rnd) = none) (hrealm : canon name = name)
    (hvalid : 1700000000 < now) (hsmall : now + cookieExpiry < 2 ^ 63) : Good ⟨tokenOf rnd, name, now + cookieExpiry⟩ where
  token := by
    dsimp only
    rw [canon, htoken]
  tokenLen := by
    dsimp only
    rw [tokenOf, length_hexEncodeBytes, Vector.length_toList]
  realm := hrealm
  realmLen := length_openedRealm hname
  valid := lt_of_lt_of_le hvalid (Nat.le_add_right _ _)
  small := hsmall

theorem login_cases (verify : Name → Name → Bool) (pats : List (List Name)) (s : Auth) (password tryRealm : Name) (rnd : Vector UInt8 16)
    (now millis : Nat) :
    (isRateLimited s millis = false ∧ ∃ name, openedRealm verify s.root password tryRealm = some name ∧
      call verify pats s (.login password tryRealm rnd now millis) =
        ({ s with root := cookieAdd pats s.root (tokenOf rnd) name (now + cookieExpiry), failCount := 0 },
          .issued ⟨tokenOf rnd, name, now + cookieExpiry⟩ now)) ∨
      ∃ s', s'.root = s.root ∧ call verify pats s (.login password tryRealm rnd now millis) = (s', .refused) := by
  cases hrate : isRateLimited s millis with
  | true =>
    refine .inr ⟨s, rfl, ?_⟩
    simp only [call, authLogin, hrate, if_true]
  | false =>
    cases hname : openedRealm verify s.root password tryRealm with
    | none =>
      refine .inr ⟨{ s with failCount := s.failCount + 1, lastFailMs := millis }, rfl, ?_⟩
      simp only [call, authLogin, hrate, hname, Bool.false_eq_true, if_false]
    | some name =>
      refine .inl ⟨rfl, name, rfl, ?_⟩
      simp only [call, authLogin, hrate, hname, Bool.false_eq_true, if_false]
      rfl

theorem documented_of_inv (hpats : Unrouted pats) {calls : List Call} {s : Auth}
    (hclock : Clocked t calls) (htokens : (tokens calls).Nodup)
    (hmeets : Meets (fun s c => some (call verify pats s c).1) (Fitting verify) s calls) (h : Inv s.root S t (tokens calls) R) :
    Documented S (history verify pats s calls) := by
  induction calls generalizing s S t R with
  | nil => exact .nil S
  | cons c calls ih =>
    obtain ⟨hfit, hmeets⟩ := hmeets
    have hmeets := hmeets _ rfl
    cases c with
    | logout cookie =>
      obtain ⟨R', hinv⟩ := h.logout hpats cookie
      exact .logout (ih hclock htokens hmeets hinv)
    | check cookie now =>
      obtain ⟨⟨hvalid, -, hle⟩, hclock⟩ := hclock
      obtain ⟨hanswer, R', hinv⟩ := (h.later hle).check hpats hvalid cookie
      exact .checked hanswer (ih hclock htokens hmeets hinv)
    | login password tryRealm rnd now millis =>
      obtain ⟨⟨hvalid, hsmall, hle⟩, hclock⟩ := hclock
      obtain ⟨hnew, htokens⟩ := List.nodup_cons.mp htokens
      have hlater := h.later hle
      rcases login_cases verify pats s password tryRealm rnd now millis with ⟨hrate, name, hname, hcall⟩ | ⟨s', hroot, hcall⟩
      · obtain ⟨htoken, hrealm, hroom⟩ := hfit hrate name hname
        have hgood := good_login hname htoken hrealm hvalid hsmall
        have hlive : unexpired now ⟨tokenOf rnd, name, now + cookieExpiry⟩ = true := decide_eq_true (Nat.le_add_right _ _)
        obtain ⟨S', R', hinv, hdoc⟩ := Inv.add (n := ⟨tokenOf rnd, name, now + cookieExpiry⟩) hlater hpats hgood hnew hlive hroom
        rw [history, hcall]
        rw [hcall] at hmeets
        exact hdoc _ (ih hclock htokens hmeets hinv)
      · rw [history, hcall]
        rw [hcall] at hmeets
        refine .refused (ih hclock htokens hmeets (R := R) ?_)
        rw [hroot]
        exact { hlater with fresh := fun x hx hin => hlater.fresh x hx (List.mem_cons_of_mem _ hin) }

/-- Sessions live as documented from a table without sessions on. -/
theorem logins_documented (hpats : Unrouted pats) {s : Auth}
    (hstart : node (.obj s.root) [lit "secrets", lit "auth", lit "cookies"] = some (.arr [])) {calls : List Call} (hclock : Clocked 0 calls)
    (htokens : (tokens calls).Nodup) (hmeets : Meets (fun s c => some (call verify pats s c).1) (Fitting verify) s calls) :
    Documented [] (history verify pats s calls) :=
  documented_of_inv (R := []) hpats hclock htokens hmeets
    ⟨⟨[], hstart, .nil⟩, by decide, by simp, by simp, by simp, rfl⟩

instance (verify : Name → Name → Bool) (s : Auth) (c : Call) : Decidable (Fitting verify s c) :=
  match c with
  | .login password tryRealm rnd now millis =>
    decidable_of_iff
      (isRateLimited s millis = false → ∀ name ∈ (openedRealm verify s.root password tryRealm).toList,
        inferType (tokenOf rnd) = none ∧ canon name = name ∧ Room s.root now) (by simp [Fitting])
  | .logout _ => .isTrue trivial
  | .check _ _ => .isTrue trivial

def decidableClocked : ∀ (t : Nat) (cs : List Call), Decidable (Clocked t cs)
  | _, [] => .isTrue trivial
  | t, .logout _ :: cs => decidableClocked t cs
  | _, .login _ _ _ now _ :: cs | _, .check _ now :: cs =>
    have := decidableClocked now cs
    inferInstanceAs (Decidable (_ ∧ _))

instance (t : Nat) (cs : List Call) : Decidable (Clocked t cs) := decidableClocked t cs

/-- A device with one realm and nobody logged in. -/
def device : Auth where
  root := [(some (lit "secrets"), .obj [(some (lit "auth"), .obj [
    (some (lit "realms"), .arr [(none, .obj [(some (lit "name"), text "admin"), (some (lit "hash"), text "x")])]),
    (some (lit "cookies"), .arr [])])])]
  failCount := 0
  lastFailMs := 0

def loginOf (k : Nat) : Call := .login (lit "pw") [] (Vector.replicate 16 (UInt8.ofNat (160 + k))) (1800000000 + k) 0

def cookieOf (k : Nat) : Name := tokenOf (Vector.replicate 16 (UInt8.ofNat (160 + k)))

theorem unrouted_nil : Unrouted [] := fun _ _ => rfl

/-- Seventeen logins, a logout and one more login. -/
def busy : List Call :=
  (List.range 17).map loginOf ++ [.check (cookieOf 0) 1800000020, .logout (cookieOf 5), .check (cookieOf 3) 1800000020, loginOf 21]

theorem logins_documented_busy : Documented [] (history (fun _ _ => true) [] device busy) :=
  logins_documented unrouted_nil rfl (by decide +kernel) (by decide +kernel) (by decide +kernel)

def misanswered : List Session → List Event → Bool
  | S, .issued s _ :: es => S.length < maxCookies && misanswered (S ++ [s]) es
  | S, .refused :: es => misanswered S es
  | S, .logout cookie :: es => misanswered (S.filter fun x => x.token ≠ cookie) es
  | S, .checked cookie now answer :: es => answer ≠ realmOf S cookie now || misanswered S es
  | _, [] => false

theorem not_documented_of_misanswered {es : List Event} (h : misanswered S es = true) : ¬ Documented S es := by
  intro hdoc
  induction hdoc with
  | nil S => simp [misanswered] at h
  | issued hroom _ ih => exact ih (Bool.and_eq_true_iff.mp h).2
  | @evicts S s e now es hfull he hleast _ ih =>
    have hshort := of_decide_eq_true (Bool.and_eq_true_iff.mp h).1
    exact absurd (hfull.trans (List.length_filter_le _ _)) (Nat.not_le.mpr hshort)
  | refused _ ih => exact ih h
  | logout _ ih => exact ih h
  | checked hanswer _ ih =>
    rcases Bool.or_eq_true_iff.mp h with h | h
    · exact of_decide_eq_true h hanswer
    · exact ih h

/-- After two logouts from the full table the next session takes the last slot, and the one
after it evicts that session, with a slot still empty. -/
def crowded : List Call :=
  (List.range 16).map loginOf ++ [.logout (cookieOf 0), .logout (cookieOf 1), loginOf 17, loginOf 18, .check (cookieOf 17) 1800000020]

/-- A token that reads as a number loses its zeros. -/
def numeric : List Call :=
  [.login (lit "pw") [] ((Vector.replicate 16 0).set 15 66) 1800000000 0,
    .check (tokenOf ((Vector.replicate 16 0).set 15 66)) 1800000000]

theorem logins_forgotten :
    (Clocked 0 crowded ∧ (tokens crowded).Nodup ∧ ¬ Documented [] (history (fun _ _ => true) [] device crowded)) ∧
      Clocked 0 numeric ∧ (tokens numeric).Nodup ∧ ¬ Documented [] (history (fun _ _ => true) [] device numeric) :=
  ⟨⟨by decide +kernel, by decide +kernel, not_documented_of_misanswered (by decide +kernel)⟩, by decide +kernel, by decide +kernel,
    not_documented_of_misanswered (by decide +kernel)⟩

end Spangap.Logins
