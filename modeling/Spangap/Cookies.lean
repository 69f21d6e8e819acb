import Spangap.Browser
import Spangap.FieldValues
import Spangap.Persist
import Spangap.Subtree

namespace Spangap.Cookies

open CJson FirstMatch DotPath Merge Commit Subtree View Browser
open FieldValues (decimal signed leafText intText hexEncodeBytes)

inductive Field
  | cookie
  | expires
  | realm
  deriving DecidableEq, Repr

def Field.name : Field → Name
  | cookie => lit "cookie"
  | expires => lit "expires"
  | realm => lit "realm"

def maxCookies : Nat := 16

def cookieExpiry : Nat := 60 * 24 * 3600

def cookieKey (i : Nat) (f : Field) : Name := lit "secrets.auth.cookies." ++ (decimal i ++ 46 :: f.name)

def realmKey (i : Nat) (field : Name) : Name := lit "secrets.auth.realms." ++ (decimal i ++ 46 :: field)

def strtoll (s : Name) : Int :=
  if (signed s).1 then max (-9223372036854775808) (-((signed s).2 : Int)) else min 9223372036854775807 ((signed s).2 : Int)

/-- The text of a leaf, or the empty text, as far as the caller's buffer takes it. -/
def storageGetStr (root : List Child) (key : Name) (outLen : Nat) : Name :=
  (((navigatePath (.obj root) key).bind leafText).getD []).take (outLen - 1)

def countMembers (cs : List Child) : Nat → Nat → Nat
  | 0, n => n
  | k + 1, n => if (getObjectItem cs (decimal n)).isSome then countMembers cs k (n + 1) else n

def storageArrayCount (root : List Child) (key : Name) : Nat :=
  match navigatePath (.obj root) (Persist.stripDots key) with
  | none => 0
  | some (.arr cs) => cs.length
  | some v => countMembers v.children v.children.length 0

def cookieCount (root : List Child) : Nat := storageArrayCount root (lit "secrets.auth.cookies.")

def setOp (i : Nat) (f : Field) (val : Name) : Op := ⟨.set, cookieKey i f, some (textValue val)⟩

def unsetOp (i : Nat) (f : Field) : Op := ⟨.delete, cookieKey i f, none⟩

def removeOps (root : List Child) (idx count : Nat) : List Op :=
  ((List.range' idx (count - 1 - idx)).flatMap fun i =>
    [Field.cookie, .expires, .realm].map fun f => setOp i f (storageGetStr root (cookieKey (i + 1) f) 128)) ++
    [Field.cookie, .expires, .realm].map fun f => unsetOp (count - 1) f

def cookieRemove (pats : List (List Name)) (root : List Child) (idx : Nat) : List Child :=
  commit pats root (removeOps root idx (cookieCount root))

def oldest (exp : Nat → Int) (count : Nat) : Int × Nat :=
  (List.range count).foldl (fun acc i => if acc.1 = 0 ∨ exp i < acc.1 then (exp i, i) else acc) (0, 0)

def addOps (i : Nat) (token realm : Name) (expires : Nat) : List Op :=
  [setOp i .cookie token, setOp i .realm realm, setOp i .expires (decimal expires)]

def cookieAdd (pats : List (List Name)) (root : List Child) (token realm : Name) (expires : Nat) : List Child :=
  let count := cookieCount root
  if maxCookies ≤ count then
    let idx := (oldest (fun i => strtoll (storageGetStr root (cookieKey i .expires) 32)) count).2
    let root := cookieRemove pats root idx
    commit pats root (addOps (count - 1) token realm expires)
  else commit pats root (addOps count token realm expires)

/-- What the calls read and write: the committed tree and the counter of failures. -/
structure Auth where
  root : List Child
  failCount : Nat
  lastFailMs : Nat

def maxBackoff : Nat := 300

def doubled : Nat → Nat → Nat
  | 0, delay => delay
  | n + 1, delay => if delay < maxBackoff then doubled n (delay * 2) else delay

def isRateLimited (s : Auth) (millis : Nat) : Bool :=
  s.failCount ≠ 0 && (millis + 2 ^ 32 - s.lastFailMs) % 2 ^ 32 < min (doubled (s.failCount - 1) 1) maxBackoff * 1000

def realmCount (root : List Child) : Nat := storageArrayCount root (lit "secrets.auth.realms.")

def realmGet (root : List Child) (i : Nat) : Option (Name × Name) :=
  let name := storageGetStr root (realmKey i (lit "name")) 32
  if name = [] then none else some (name, storageGetStr root (realmKey i (lit "hash")) 128)

def openedRealm (verify : Name → Name → Bool) (root : List Child) (password tryRealm : Name) : Option Name :=
  ((List.range (realmCount root)).filterMap (realmGet root)).findSome? fun r =>
    if (tryRealm = [] ∨ r.1 = tryRealm) ∧ r.2 ≠ [] ∧ r.2 ≠ lit "--" ∧ verify password r.2 = true then some r.1 else none

/-- The realm and the token of a login that succeeds. -/
def authLogin (verify : Name → Name → Bool) (pats : List (List Name)) (s : Auth) (password tryRealm : Name) (rnd : List UInt8)
    (now millis : Nat) : Auth × Option (Name × Name) :=
  if isRateLimited s millis then (s, none)
  else
    match openedRealm verify s.root password tryRealm with
    | some name =>
      let token := hexEncodeBytes rnd
      ({ s with root := cookieAdd pats s.root token name (now + cookieExpiry), failCount := 0 }, some (name, token))
    | none => ({ s with failCount := s.failCount + 1, lastFailMs := millis }, none)

def findCookie (root : List Child) (cookie : Name) : Option Nat :=
  (List.range (cookieCount root)).find? fun i => storageGetStr root (cookieKey i .cookie) 64 = cookie

def authLogout (pats : List (List Name)) (root : List Child) (cookie : Name) : List Child × Bool :=
  if cookie = [] then (root, false)
  else
    match findCookie root cookie with
    | some i => (cookieRemove pats root i, true)
    | none => (root, false)

def clockValid : Int := 1700000000

def authCheck (pats : List (List Name)) (root : List Child) (cookie : Name) (now : Nat) : List Child × Name :=
  if cookie = [] then (root, [])
  else
    match findCookie root cookie with
    | some i =>
      let exp := strtoll (storageGetStr root (cookieKey i .expires) 24)
      if clockValid < now ∧ clockValid < exp ∧ exp < now then (cookieRemove pats root i, [])
      else (root, storageGetStr root (cookieKey i .realm) 32)
    | none => (root, [])

end Spangap.Cookies
