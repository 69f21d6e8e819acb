import Spangap.CJson

namespace Spangap.CliSlot

open CJson

inductive Mode
  | ansi
  | line
  | other
  deriving DecidableEq, Repr

inductive Esc
  | normal
  | escape
  | csi
  | ss3
  | csiTail
  deriving DecidableEq, Repr

structure Edit where
  buf : Name
  saved : Name
  cursor : Nat
  escState : Esc
  escParam : Nat
  histIdx : Option Nat
  savedValid : Bool
  deriving DecidableEq, Repr

def Edit.empty : Edit := ⟨[], [], 0, .normal, 0, none, false⟩

def histSize : Nat := 20

/-- The history is shared by all sessions, newest line first. -/
def histAdd (cmd : Name) (hist : List Name) : List Name :=
  if hist.head? = some cmd then hist else (cmd :: hist).take histSize

def cliEditReplace (e : Edit) (text : Name) : Edit := { e with buf := text, cursor := text.length }

def cliEditEscKey (hist : List Name) (e : Edit) (final : UInt8) (param : Nat) : Edit :=
  if final = 68 then if 0 < e.cursor then { e with cursor := e.cursor - 1 } else e
  else if final = 67 then if e.cursor < e.buf.length then { e with cursor := e.cursor + 1 } else e
  else if final = 65 then
    let next := match e.histIdx with
      | none => 0
      | some i => i + 1
    match hist[next]? with
    | none => e
    | some h =>
      let e := if e.histIdx = none then { e with saved := e.buf, savedValid := true } else e
      cliEditReplace { e with histIdx := some next } h
  else if final = 66 then
    match e.histIdx with
    | none => e
    | some 0 => { cliEditReplace { e with histIdx := none } (if e.savedValid then e.saved else []) with savedValid := false }
    | some (i + 1) =>
      match hist[i]? with
      | none => { e with histIdx := some i }
      | some h => cliEditReplace { e with histIdx := some i } h
  else if final = 72 then { e with cursor := 0 }
  else if final = 70 then { e with cursor := e.buf.length }
  else if final = 126 then
    if param = 3 ∧ e.cursor < e.buf.length then { e with buf := e.buf.eraseIdx e.cursor }
    else if param = 1 ∨ param = 7 then { e with cursor := 0 }
    else if param = 4 ∨ param = 8 then { e with cursor := e.buf.length }
    else e
  else e

/-- What a key asks of the session beyond its line: `enter` hands over a line
to run, `blank` is an empty line, `eof` the end of the session. -/
inductive Key
  | edited
  | enter (line : Name)
  | blank
  | eof
  deriving DecidableEq, Repr

/-- One key, up to the command that it may start. `tab` gives what the
completion of files would insert; a plain `char` is unsigned on the device. -/
def cliEditChar (tab : Name → Nat → Name) (hist : List Name) (e : Edit) (c : UInt8) : Edit × Key :=
  match e.escState with
  | .escape =>
    ({ e with escParam := 0, escState := if c = 91 then .csi else if c = 79 then .ss3 else .normal }, .edited)
  | .csi =>
    if 0x30 ≤ c ∧ c ≤ 0x3f then
      if c ≤ 57 then
        ({ e with escParam := if e.escParam < 10000 then e.escParam * 10 + (c.toNat - 48) else e.escParam }, .edited)
      else ({ e with escState := .csiTail }, .edited)
    else if 0x20 ≤ c ∧ c ≤ 0x2f then (e, .edited)
    else
      let e := { e with escState := .normal }
      (if 0x40 ≤ c ∧ c ≤ 0x7e then cliEditEscKey hist e c e.escParam else e, .edited)
  | .csiTail =>
    if 0x20 ≤ c ∧ c ≤ 0x3f then (e, .edited)
    else
      let e := { e with escState := .normal }
      (if 0x40 ≤ c ∧ c ≤ 0x7e then cliEditEscKey hist e c e.escParam else e, .edited)
  | .ss3 => (cliEditEscKey hist { e with escState := .normal } c 0, .edited)
  | .normal =>
    if c = 27 then ({ e with escState := .escape }, .edited)
    else if c = 4 then (e, .eof)
    else if c = 1 then ({ e with cursor := 0 }, .edited)
    else if c = 5 then ({ e with cursor := e.buf.length }, .edited)
    else if c = 9 then
      let suffix := tab e.buf e.cursor
      ({ e with
        buf := e.buf.take e.cursor ++ suffix ++ e.buf.drop e.cursor, cursor := e.cursor + suffix.length }, .edited)
    else if c = 10 ∨ c = 13 then
      if e.buf = [] then (e, .blank)
      else ({ e with buf := [], cursor := 0, histIdx := none, savedValid := false }, .enter e.buf)
    else if c = 127 ∨ c = 8 then
      if 0 < e.cursor then ({ e with buf := e.buf.eraseIdx (e.cursor - 1), cursor := e.cursor - 1 }, .edited)
      else (e, .edited)
    else if 0x20 ≤ c ∧ e.buf.length < 4096 then
      ({ e with buf := e.buf.take e.cursor ++ c :: e.buf.drop e.cursor, cursor := e.cursor + 1 }, .edited)
    else (e, .edited)

def cStr (s : Name) : Name := s.takeWhile (· ≠ 0)

def cliLineEndsWithSemicolon (line : Name) : Bool :=
  (line.reverse.dropWhile fun c => c = 32 ∨ c = 9).head? = some 59

def cliLineMax : Nat := 4096

def cliMaxClients : Nat := 10

/-- One entry of the session table. A free entry has no handle. -/
structure Slot where
  itsHandle : Option Nat
  edit : Edit
  mode : Mode
  usbSerial : Bool
  noPrompt : Bool
  lineBuf : Name
  pendingClose : Bool
  loginRequired : Bool
  authed : Bool
  pwTries : Nat
  pwBuf : Name
  deriving DecidableEq, Repr

def Slot.blank : Slot := ⟨none, .empty, .ansi, false, false, [], false, false, false, 0, []⟩

def Mode.ofByte (b : UInt8) : Mode := if b = 0 then .ansi else if b = 1 then .line else .other

/-- The session of a TCP or serial client. A close that is pending in the entry
stays pending. -/
def cliTcpConnect (handle : Nat) (data : List UInt8) (cl : Slot) : Slot :=
  let cl := { cl with
    itsHandle := some handle, edit := .empty, lineBuf := [], usbSerial := false, noPrompt := false,
    loginRequired := false, pwTries := 0, pwBuf := [] }
  let cl := match data with
    | [mode, usb, _color, noPrompt, login] =>
      { cl with mode := .ofByte mode, usbSerial := usb ≠ 0, noPrompt := noPrompt ≠ 0, loginRequired := login ≠ 0 }
    | [mode] | [mode, _] | [mode, _, _] | [mode, _, _, _] => { cl with mode := .ofByte mode }
    | _ => { cl with mode := .line }
  { cl with authed := !cl.loginRequired }

/-- The session of a browser or of the terminal on the device. -/
def cliDcConnect (handle : Nat) (cl : Slot) : Slot :=
  { cl with
    itsHandle := some handle, edit := .empty, lineBuf := [], usbSerial := false, noPrompt := false, mode := .ansi,
    loginRequired := false, authed := true, pwTries := 0, pwBuf := [] }

inductive Event
  | auth (pw : Name) (ok : Bool)
  | abort
  | dispatch (line : Name)
  deriving DecidableEq, Repr

def cliLoginMaxTries : Nat := 3

/-- Bytes at the password prompt. `auth k` answers the call number `k` of
`authLogin` that the session makes. -/
def cliHandleLoginInput (auth : Nat → Name → Bool) : Nat → Slot → List UInt8 → Slot × List Event
  | _, cl, [] => (cl, [])
  | k, cl, c :: buf =>
    if c = 3 ∨ c = 4 then ({ cl with pendingClose := true, pwBuf := [] }, [.abort])
    else if c = 13 ∨ c = 10 then
      if auth k cl.pwBuf then ({ cl with pwBuf := [], authed := true }, [.auth cl.pwBuf true])
      else if cliLoginMaxTries ≤ cl.pwTries + 1 then
        ({ cl with pwBuf := [], pwTries := cl.pwTries + 1, pendingClose := true }, [.auth cl.pwBuf false])
      else
        let r := cliHandleLoginInput auth (k + 1) { cl with pwBuf := [], pwTries := cl.pwTries + 1 } buf
        (r.1, .auth cl.pwBuf false :: r.2)
    else if c = 8 ∨ c = 127 then cliHandleLoginInput auth k { cl with pwBuf := cl.pwBuf.dropLast } buf
    else if c < 0x20 then cliHandleLoginInput auth k cl buf
    else if cl.pwBuf.length < 128 then cliHandleLoginInput auth k { cl with pwBuf := cl.pwBuf ++ [c] } buf
    else cliHandleLoginInput auth k cl buf

end Spangap.CliSlot
