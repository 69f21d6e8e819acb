import Spangap.CliSlot
import Spangap.Runs

namespace Spangap.LoginGate

open List CJson CliSlot

variable {log evs : List Event} {buf : List UInt8} {cl : Slot}

/-- What a receive meets outside the session: the answers of `authLogin`, the
commands that ask for the end of the session, the shared history, and the
completion of file names. -/
structure Env where
  auth : Nat → Name → Bool
  exits : Name → Bool
  hist : List Name
  tab : Name → Nat → Name

def editChars (env : Env) : List Name → Slot → List UInt8 → Slot × List Event
  | _, cl, [] => (cl, [])
  | hist, cl, c :: buf =>
    let r := cliEditChar env.tab hist cl.edit c
    let cl := { cl with edit := r.1 }
    match r.2 with
    | .edited => editChars env hist cl buf
    | .eof => editChars env hist { cl with pendingClose := true } buf
    | .blank => editChars env hist { cl with pendingClose := cl.pendingClose || cl.usbSerial } buf
    | .enter line =>
      let hangup := cliLineEndsWithSemicolon line && !cl.usbSerial
      let r := editChars env (histAdd line hist)
        { cl with pendingClose := cl.pendingClose || env.exits line || hangup } buf
      (r.1, .dispatch line :: r.2)

def lineChars (env : Env) : Slot → List UInt8 → Slot × List Event
  | cl, [] => (cl, [])
  | cl, c :: buf =>
    if c = 4 then ({ cl with pendingClose := true }, [])
    else if c = 10 ∨ c = 13 then
      let line := cStr cl.lineBuf
      let ran := if cl.lineBuf = [] then [] else [Event.dispatch line]
      let exits := cl.lineBuf ≠ [] ∧ env.exits line
      if cliLineEndsWithSemicolon line then ({ cl with lineBuf := [], pendingClose := true }, ran)
      else
        let r := lineChars env { cl with lineBuf := [], pendingClose := cl.pendingClose || exits } buf
        (r.1, ran ++ r.2)
    else if cl.lineBuf.length < cliLineMax + 1 then lineChars env { cl with lineBuf := cl.lineBuf ++ [c] } buf
    else lineChars env cl buf

def isAuth : Event → Bool
  | .auth _ _ => true
  | _ => false

structure State where
  slot : Slot
  log : List Event

/-- What happens to a session: its turn in the loop over the slots with the
bytes of one receive, the sweep for deferred closes, with `drained` when the peer
has read everything, and a close by the peer. -/
inductive Action
  | recv (env : Env) (buf : List UInt8)
  | sweep (drained : Bool)
  | disconnect

def receive (env : Env) (calls : Nat) (cl : Slot) (buf : List UInt8) : Slot × List Event :=
  if cl.loginRequired && !cl.authed then cliHandleLoginInput env.auth calls cl buf
  else if cl.mode = .ansi then editChars env env.hist cl buf
  else lineChars env cl buf

def sweep (drained : Bool) (cl : Slot) : Slot :=
  if cl.pendingClose then
    if cl.itsHandle = none then { cl with pendingClose := false } else if drained then .blank else cl
  else cl

def step (s : State) : Action → State
  | .recv env buf =>
    if s.slot.itsHandle = none then s
    else
      let r := receive env (s.log.countP isAuth) s.slot buf
      ⟨r.1, s.log ++ r.2⟩
  | .sweep drained => { s with slot := sweep drained s.slot }
  | .disconnect => { s with slot := .blank }

def opened (handle : Nat) (mode usb color noPrompt login : UInt8) : State :=
  ⟨cliTcpConnect handle [mode, usb, color, noPrompt, login] .blank, []⟩

/-- The gate of one session: no command before a password was accepted, at most
three passwords tried, and none after an abort or the third failure. -/
structure Gated (log : List Event) : Prop where
  authorised : ∀ A line B, log = A ++ .dispatch line :: B → ∃ pw, .auth pw true ∈ A
  tries : log.countP isAuth ≤ cliLoginMaxTries
  final : ∀ A pw ok B, log = A ++ .auth pw ok :: B → .abort ∉ A ∧ A.countP isAuth < cliLoginMaxTries

def Submits : List UInt8 → Prop
  | [] => False
  | c :: buf => c ≠ 3 ∧ c ≠ 4 ∧ (c = 13 ∨ c = 10 ∨ Submits buf)

/-- At the password prompt of a session that is to be closed, no line end comes
in before an abort. -/
def Quiet (s : State) : Action → Prop
  | .recv _ buf =>
    s.slot.itsHandle ≠ none → s.slot.loginRequired = true → s.slot.authed = false → s.slot.pendingClose = true →
      ¬ Submits buf
  | _ => True

def decidableSubmits : ∀ buf, Decidable (Submits buf)
  | [] => .isFalse id
  | c :: buf =>
    have := decidableSubmits buf
    inferInstanceAs (Decidable (c ≠ 3 ∧ c ≠ 4 ∧ (c = 13 ∨ c = 10 ∨ Submits buf)))

instance : DecidablePred Submits := decidableSubmits

instance (s : State) (a : Action) : Decidable (Quiet s a) :=
  match a with
  | .recv _ buf =>
    inferInstanceAs (Decidable (s.slot.itsHandle ≠ none → s.slot.loginRequired = true → s.slot.authed = false →
      s.slot.pendingClose = true → ¬ Submits buf))
  | .sweep _ | .disconnect => .isTrue trivial

section Log

variable {e : Event}

theorem gated_of_append {A B : List Event} (h : Gated (A ++ B)) : Gated A := by
  refine ⟨fun C line D hA => ?_, ?_, fun C pw ok D hA => ?_⟩
  · exact h.authorised C line (D ++ B) (by rw [hA, append_assoc, cons_append])
  · have := h.tries
    rw [countP_append] at this
    omega
  · exact h.final C pw ok (D ++ B) (by rw [hA, append_assoc, cons_append])

theorem gated_concat (h : Gated log) (hdispatch : ∀ line, e = .dispatch line → ∃ pw, .auth pw true ∈ log)
    (hauth : ∀ pw ok, e = .auth pw ok → .abort ∉ log ∧ log.countP isAuth < cliLoginMaxTries) : Gated (log ++ [e]) := by
  have hsplit : ∀ {A x B}, log ++ [e] = A ++ x :: B → (x = e ∧ A = log) ∨ ∃ B', log = A ++ x :: B' := by
    intro A x B heq
    rcases eq_nil_or_concat B with rfl | ⟨B', y, rfl⟩
    · obtain ⟨hA, hx⟩ := append_inj' heq rfl
      exact .inl ⟨(List.cons.inj hx).1.symm, hA.symm⟩
    · rw [concat_eq_append, ← cons_append, ← append_assoc] at heq
      exact .inr ⟨B', (append_inj' heq rfl).1⟩
  refine ⟨fun A line B heq => ?_, ?_, fun A pw ok B heq => ?_⟩
  · rcases hsplit heq with ⟨he, rfl⟩ | ⟨B', hB⟩
    · exact hdispatch line he.symm
    · exact h.authorised A line B' hB
  · rw [countP_append, countP_singleton]
    split
    next hisAuth =>
      cases e with
      | auth pw ok => exact (hauth pw ok rfl).2
      | abort | dispatch _ => exact absurd hisAuth Bool.false_ne_true
    · exact h.tries
  · rcases hsplit heq with ⟨he, rfl⟩ | ⟨B', hB⟩
    · exact hauth pw ok he.symm
    · exact h.final A pw ok B' hB

theorem gated_dispatches (h : Gated log) (hauth : ∃ pw, .auth pw true ∈ log)
    (hevs : ∀ e ∈ evs, ∃ line, e = .dispatch line) : Gated (log ++ evs) := by
  induction evs generalizing log with
  | nil => rwa [append_nil]
  | cons e evs ih =>
    obtain ⟨line, rfl⟩ := hevs e mem_cons_self
    obtain ⟨pw, hpw⟩ := hauth
    rw [append_cons]
    refine ih ?_ ⟨pw, mem_append_left _ hpw⟩ fun e he => hevs e (mem_cons_of_mem _ he)
    exact gated_concat h (fun _ _ => ⟨pw, hpw⟩) (by simp)

end Log

section Session

variable {env : Env} {auth : Nat → Name → Bool}

theorem editChars_spec (hist : List Name) (cl : Slot) (buf : List UInt8) :
    (editChars env hist cl buf).1.authed = cl.authed ∧
      (editChars env hist cl buf).1.loginRequired = cl.loginRequired ∧
      ∀ e ∈ (editChars env hist cl buf).2, ∃ line, e = .dispatch line := by
  induction buf generalizing hist cl with
  | nil => exact ⟨rfl, rfl, fun _ h => absurd h not_mem_nil⟩
  | cons c buf ih =>
    rw [editChars]
    dsimp only
    split
    · exact ih _ _
    · exact ih _ _
    · exact ih _ _
    next line hkey => exact ⟨(ih _ _).1, (ih _ _).2.1, forall_mem_cons.mpr ⟨⟨line, rfl⟩, (ih _ _).2.2⟩⟩

theorem lineChars_spec (cl : Slot) (buf : List UInt8) : (lineChars env cl buf).1.authed = cl.authed ∧
      (lineChars env cl buf).1.loginRequired = cl.loginRequired ∧
      ∀ e ∈ (lineChars env cl buf).2, ∃ line, e = .dispatch line := by
  induction buf generalizing cl with
  | nil => exact ⟨rfl, rfl, fun _ h => absurd h not_mem_nil⟩
  | cons c buf ih =>
    rw [lineChars]
    split
    · exact ⟨rfl, rfl, fun _ h => absurd h not_mem_nil⟩
    split
    · have hran : ∀ e ∈ (if cl.lineBuf = [] then [] else [Event.dispatch (cStr cl.lineBuf)]),
          ∃ line, e = .dispatch line := by
        intro e he
        split at he
        · cases he
        · exact ⟨_, mem_singleton.mp he⟩
      dsimp only
      split
      · exact ⟨rfl, rfl, hran⟩
      · exact ⟨(ih _).1, (ih _).2.1, forall_mem_append.mpr ⟨hran, (ih _).2.2⟩⟩
    split
    · exact ih _
    · exact ih _

/-- A session at the password prompt: each password has been counted, and a
close is pending just when the session was aborted or has used up its tries. -/
structure Waiting (cl : Slot) (log : List Event) : Prop where
  login : cl.loginRequired = true
  waits : cl.authed = false
  counted : cl.pwTries = log.countP isAuth
  closing : cl.pendingClose = true ↔ .abort ∈ log ∨ cliLoginMaxTries ≤ cl.pwTries

/-- The state of the gate, given what the session has done. -/
def Guarded (cl : Slot) (log : List Event) : Prop :=
  Waiting cl log ∨ cl.authed = true ∧ ∃ pw, .auth pw true ∈ log

theorem login_open (hg : Gated log) (hw : Waiting cl log) (hopen : cl.pendingClose = false) :
    Gated (log ++ (cliHandleLoginInput auth (log.countP isAuth) cl buf).2) ∧
      Guarded (cliHandleLoginInput auth (log.countP isAuth) cl buf).1
        (log ++ (cliHandleLoginInput auth (log.countP isAuth) cl buf).2) := by
  induction buf generalizing cl log with
  | nil => exact ⟨by rwa [cliHandleLoginInput, append_nil], .inl (by rwa [cliHandleLoginInput, append_nil])⟩
  | cons c buf ih =>
    have hleft : .abort ∉ log ∧ cl.pwTries < cliLoginMaxTries := by
      have := mt hw.closing.mpr (by simp [hopen])
      rw [not_or, Nat.not_le] at this
      exact this
    have htry : ∀ {pw ok}, Gated (log ++ [.auth pw ok]) := fun {_ _} =>
      gated_concat hg (by simp) fun _ _ _ => ⟨hleft.1, hw.counted ▸ hleft.2⟩
    have hcount : ∀ {pw ok}, (log ++ [Event.auth pw ok]).countP isAuth = cl.pwTries + 1 := fun {_ _} => by
      rw [countP_append, hw.counted]
      rfl
    rw [cliHandleLoginInput]
    split
    · refine ⟨gated_concat hg (by simp) (by simp), .inl ?_⟩
      refine ⟨hw.login, hw.waits, ?_, ⟨fun _ => .inl ?_, fun _ => rfl⟩⟩
      · rw [countP_append, ← hw.counted]
        rfl
      · exact mem_append_right _ mem_cons_self
    split
    · split
      · exact ⟨htry, .inr ⟨rfl, _, mem_append_right _ mem_cons_self⟩⟩
      split
      next hlast => exact ⟨htry, .inl ⟨hw.login, hw.waits, hcount.symm, ⟨fun _ => .inr hlast, fun _ => rfl⟩⟩⟩
      next hmore =>
        have hnext : Waiting { cl with pwBuf := [], pwTries := cl.pwTries + 1 } (log ++ [.auth cl.pwBuf false]) := by
          refine ⟨hw.login, hw.waits, hcount.symm, ⟨by simp [hopen], ?_⟩⟩
          rintro (h | h)
          · exact absurd (mem_append.mp h) (by simp [hleft.1])
          · exact absurd h hmore
        have hrec := ih htry hnext hopen
        rw [show (log ++ [Event.auth cl.pwBuf false]).countP isAuth = log.countP isAuth + 1 from
          hcount.trans (by rw [hw.counted])] at hrec
        rw [append_cons]
        exact hrec
    split
    · exact ih hg { hw with } hopen
    split
    · exact ih hg hw hopen
    split
    · exact ih hg { hw with } hopen
    · exact ih hg hw hopen

/-- While the session is to be closed, bytes that submit nothing change nothing
but the password line. -/
theorem login_quiet (k : Nat) (hw : Waiting cl log) (hclose : cl.pendingClose = true) (hq : ¬ Submits buf) :
    (∀ e ∈ (cliHandleLoginInput auth k cl buf).2, e = .abort) ∧
      Waiting (cliHandleLoginInput auth k cl buf).1 (log ++ (cliHandleLoginInput auth k cl buf).2) := by
  induction buf generalizing cl with
  | nil => exact ⟨fun _ h => absurd h not_mem_nil, by rwa [cliHandleLoginInput, append_nil]⟩
  | cons c buf ih =>
    rw [Submits] at hq
    rw [cliHandleLoginInput]
    split
    · refine ⟨fun e he => mem_singleton.mp he, hw.login, hw.waits, ?_, fun _ => .inl ?_, fun _ => rfl⟩
      · rw [countP_append, ← hw.counted]
        rfl
      · exact mem_append_right _ mem_cons_self
    next hc =>
      rw [not_or] at hc
      have hrest : ¬ (c = 13 ∨ c = 10) ∧ ¬ Submits buf := by
        refine ⟨fun h => hq ⟨hc.1, hc.2, ?_⟩, fun h => hq ⟨hc.1, hc.2, .inr (.inr h)⟩⟩
        exact h.elim .inl fun h => .inr (.inl h)
      rw [if_neg hrest.1]
      split
      · exact ih { hw with } hclose hrest.2
      split
      · exact ih hw hclose hrest.2
      split
      · exact ih { hw with } hclose hrest.2
      · exact ih hw hclose hrest.2

theorem login_submits (auth : Nat → Name → Bool) (k : Nat) (cl : Slot) (hs : Submits buf) :
    ∃ pw ok, .auth pw ok ∈ (cliHandleLoginInput auth k cl buf).2 := by
  induction buf generalizing cl with
  | nil => exact hs.elim
  | cons c buf ih =>
    obtain ⟨h3, h4, hrest⟩ := hs
    rw [cliHandleLoginInput, if_neg (by simp [h3, h4])]
    split
    · split
      · exact ⟨_, _, mem_cons_self⟩
      split
      · exact ⟨_, _, mem_cons_self⟩
      · exact ⟨_, _, mem_cons_self⟩
    next hend =>
      have hs : Submits buf := by
        rcases hrest with h | h | h
        · exact absurd (.inl h) hend
        · exact absurd (.inr h) hend
        · exact h
      split
      · exact ih _ hs
      split
      · exact ih _ hs
      split
      · exact ih _ hs
      · exact ih _ hs

end Session

structure Inv (s : State) : Prop where
  gated : Gated s.log
  guarded : s.slot.itsHandle ≠ none → Guarded s.slot s.log

section Run

variable {s : State} {a : Action}

theorem inv_opened (handle : Nat) (mode usb color noPrompt : UInt8) {login : UInt8} (h : login ≠ 0) :
    Inv (opened handle mode usb color noPrompt login) := by
  refine ⟨⟨fun A _ B heq => ?_, Nat.zero_le _, fun A _ _ B heq => ?_⟩, fun _ => .inl ?_⟩
  · exact absurd heq.symm (by simp [opened])
  · exact absurd heq.symm (by simp [opened])
  · refine ⟨by simpa [opened, cliTcpConnect] using h, by simpa [opened, cliTcpConnect] using h, rfl, ?_⟩
    exact ⟨by simp [opened, cliTcpConnect, Slot.blank],
      (by simp [opened, cliTcpConnect, cliLoginMaxTries])⟩

theorem gated_aborts (h : Gated log) (hevs : ∀ e ∈ evs, e = .abort) : Gated (log ++ evs) := by
  induction evs generalizing log with
  | nil => rwa [append_nil]
  | cons e evs ih =>
    obtain rfl := hevs e mem_cons_self
    rw [append_cons]
    refine ih ?_ fun e he => hevs e (mem_cons_of_mem _ he)
    exact gated_concat h (by simp) (by simp)

theorem inv_receive (hg : Gated s.log) (h : Guarded s.slot s.log) (env : Env)
    (hq : s.slot.loginRequired = true → s.slot.authed = false → s.slot.pendingClose = true → ¬ Submits buf) :
    Gated (s.log ++ (receive env (s.log.countP isAuth) s.slot buf).2) ∧
      Guarded (receive env (s.log.countP isAuth) s.slot buf).1
        (s.log ++ (receive env (s.log.countP isAuth) s.slot buf).2) := by
  rcases h with hw | ⟨hauthed, pw, hpw⟩
  · rw [receive, if_pos (by rw [hw.login, hw.waits]; rfl)]
    cases hclose : s.slot.pendingClose with
    | false => exact login_open hg hw hclose
    | true =>
      obtain ⟨haborts, hwaits⟩ := login_quiet (s.log.countP isAuth) hw hclose (hq hw.login hw.waits hclose)
      exact ⟨gated_aborts hg haborts, .inl hwaits⟩
  · rw [receive, if_neg (by rw [hauthed]; simp)]
    have hkept : ∀ r : Slot × List Event, (r.1.authed = s.slot.authed ∧ r.1.loginRequired = s.slot.loginRequired ∧
        ∀ e ∈ r.2, ∃ line, e = .dispatch line) → Gated (s.log ++ r.2) ∧ Guarded r.1 (s.log ++ r.2) :=
      fun r hr => ⟨gated_dispatches hg ⟨pw, hpw⟩ hr.2.2, .inr ⟨hr.1.trans hauthed, pw, mem_append_left _ hpw⟩⟩
    split
    · exact hkept _ (editChars_spec _ _ _)
    · exact hkept _ (lineChars_spec _ _)

theorem guarded_sweep (drained : Bool) (h : cl.itsHandle ≠ none → Guarded cl log)
    (hopen : (sweep drained cl).itsHandle ≠ none) : Guarded (sweep drained cl) log := by
  unfold sweep at hopen ⊢
  split at hopen
  · split at hopen
    next hnone => exact absurd hnone hopen
    split at hopen
    · exact absurd rfl hopen
    next hc hsome hd =>
      rw [if_pos hc, if_neg hsome, if_neg hd]
      exact h hsome
  next hc =>
    rw [if_neg hc]
    exact h hopen

theorem inv_step (h : Inv s) (hq : Quiet s a) : Inv (step s a) := by
  cases a with
  | recv env buf =>
    rw [step]
    split
    · exact h
    next hopen =>
      obtain ⟨hg, hguard⟩ := inv_receive h.gated (h.guarded hopen) env (hq hopen)
      exact ⟨hg, fun _ => hguard⟩
  | sweep drained => exact ⟨h.gated, guarded_sweep drained h.guarded⟩
  | disconnect => exact ⟨h.gated, fun hopen => absurd rfl hopen⟩

theorem not_gated_step (h : Inv s) (hq : ¬ Quiet s a) : ¬ Gated (step s a).log := by
  cases a with
  | recv env buf =>
    unfold Quiet at hq
    push Not at hq
    obtain ⟨hopen, hlogin, hwaits, hclose, hsub⟩ := hq
    intro hg
    rw [step, if_neg hopen, receive, if_pos (by rw [hlogin, hwaits]; rfl)] at hg
    obtain ⟨pw, ok, hmem⟩ := login_submits env.auth (s.log.countP isAuth) s.slot hsub
    obtain ⟨A, B, hsplit⟩ := append_of_mem hmem
    obtain ⟨habort, htries⟩ := hg.final (s.log ++ A) pw ok B (by
      rw [append_assoc]
      exact congrArg (s.log ++ ·) hsplit)
    rcases h.guarded hopen with hw | ⟨hauthed, -⟩
    · rcases hw.closing.mp hclose with hab | hmax
      · exact habort (mem_append_left _ hab)
      · rw [countP_append, ← hw.counted] at htries
        omega
    · rw [hwaits] at hauthed
      exact Bool.false_ne_true hauthed
  | sweep drained => exact absurd trivial hq
  | disconnect => exact absurd trivial hq

theorem log_step (s : State) (a : Action) : ∃ evs, (step s a).log = s.log ++ evs := by
  cases a with
  | recv env buf =>
    rw [step]
    split
    · exact ⟨[], (append_nil _).symm⟩
    · exact ⟨_, rfl⟩
  | sweep _ | disconnect => exact ⟨[], (append_nil _).symm⟩

theorem log_run (s : State) (as : List Action) : ∃ evs, (as.foldl step s).log = s.log ++ evs := by
  induction as generalizing s with
  | nil => exact ⟨[], (append_nil _).symm⟩
  | cons a as ih =>
    obtain ⟨evs, hevs⟩ := log_step s a
    obtain ⟨more, hmore⟩ := ih (step s a)
    exact ⟨evs ++ more, by rw [foldl_cons, hmore, hevs, append_assoc]⟩

theorem gated_run_iff (h : Inv s) (as : List Action) :
    Gated (as.foldl step s).log ↔ Runs.Meets (fun s a => some (step s a)) Quiet s as := by
  induction as generalizing s with
  | nil => exact ⟨fun _ => trivial, fun _ => h.gated⟩
  | cons a as ih =>
    rw [foldl_cons, Runs.Meets]
    by_cases hq : Quiet s a
    · rw [ih (inv_step h hq)]
      exact ⟨fun hm => ⟨hq, fun t ht => Option.some.inj ht ▸ hm⟩, fun hm => hm.2 _ rfl⟩
    · obtain ⟨evs, hevs⟩ := log_run (step s a) as
      refine ⟨fun hg => ?_, fun hm => absurd hm.1 hq⟩
      rw [hevs] at hg
      exact absurd (gated_of_append hg) (not_gated_step h hq)

end Run

/-- The gate of a session that asks for a login holds in a run just when no
password is submitted while the session waits for its close. -/
theorem login_gate_iff (handle : Nat) (mode usb color noPrompt login : UInt8) (hlogin : login ≠ 0) (as : List Action) :
    Gated (as.foldl step (opened handle mode usb color noPrompt login)).log ↔
      Runs.Meets (fun s a => some (step s a)) Quiet (opened handle mode usb color noPrompt login) as :=
  gated_run_iff (inv_opened handle mode usb color noPrompt hlogin) as

def wrong : Env := ⟨fun _ _ => false, fun _ => false, [], fun _ _ => []⟩

/-- A session that is drained in time. -/
theorem login_gate_iff_drained : (1 : UInt8) ≠ 0 ∧
      Gated ([.recv wrong (lit "a\rb\rc\rd\r"), .sweep true, .recv wrong (lit "e\r")].foldl step
        (opened 0 0 0 0 0 1)).log :=
  ⟨by decide, (login_gate_iff 0 0 0 0 0 1 (by decide) _).mpr (by decide)⟩

/-- The peer reads nothing, so that the session stays open after the third
failure and takes a fourth password. -/
theorem login_fourth_try : ¬ Gated ([.recv wrong (lit "a\rb\rc\r"), .sweep false, .recv wrong (lit "d\r")].foldl step
      (opened 0 0 0 0 0 1)).log :=
  fun h => absurd h.tries (by decide)

end Spangap.LoginGate
