import Mathlib.Data.Int.Notation
import ConfdDemos.Foundation.Machine

/-!
# The session and the transaction of the web UI

The web UI talks to ConfD by JSON-RPC. Every button sends a request and goes on with its handler
when the reply is there; until then all other buttons can be pressed. ConfD serves the requests in
any order and their replies arrive in any order.

The stores of the UI hold one transaction: its handle, or `-1`, and whether it is a write
transaction. The button of a commit is in the dialog of changes: it validates, commits and says that
the commit was successful. Whether it was is not looked at, and when the dialog has been closed in
the meantime nothing is said and the stores are left alone.

## What ConfD decides

Whether a request is accepted, what the handle of a new transaction is and whether a transaction has
changes is decided by ConfD. A handle is not `-1` and not the one of another open transaction of the
session. A commit that is accepted closes the transaction.
-/

namespace ConfdDemos.Webui

variable {ε : Type*}

/-! ## Requests -/

inductive TargetDb
  | running
  | candidate
  deriving DecidableEq

/-- A request, and for a commit which dialog of changes it comes from. -/
inductive Request (ε : Type*)
  | login
  | logout
  | newTrans (isWrite : Bool) (targetDb : TargetDb)
  | deleteTrans (th : ℤ)
  | getTransChanges (th : ℤ)
  | validateCommit (th : ℤ) (dialog : ℕ)
  | commit (th : ℤ) (dialog : ℕ)
  /-- `set_value`, `create` or `delete`. -/
  | edit (th : ℤ) (e : ε)
  deriving DecidableEq

namespace Request

def isEdit : Request ε → Bool
  | edit .. => true
  | _ => false

def isLogin : Request ε → Bool
  | login => true
  | _ => false

def isCommit : Request ε → Bool
  | commit .. => true
  | _ => false

end Request

inductive Reply
  | result
  /-- The cookie of a new session. -/
  | session (sid : ℕ)
  | handle (th : ℤ)
  | changes (some : Bool)
  /-- An error, with or without a list of validation errors. -/
  | error (errors : Bool)
  deriving DecidableEq

/-! ## ConfD -/

structure Trans (ε : Type*) where
  session : ℕ
  th : ℤ
  isWrite : Bool
  targetDb : TargetDb
  /-- The edits that were answered, and whether they were accepted. -/
  answers : List (ε × Bool)

def Trans.name (t : Trans ε) : ℕ × ℤ × Bool := (t.session, t.th, t.isWrite)

structure Server (ε : Type*) where
  sessions : List ℕ
  /-- The number of sessions there were. -/
  logins : ℕ
  trans : List (Trans ε)
  committed : List (Trans ε)

/-- What ConfD decides when it serves a request. -/
structure Decision where
  accepts : Bool
  errors : Bool
  th : ℤ
  changes : Bool

namespace Server

variable (v : Server ε)

def opened : List (ℕ × ℤ × Bool) := v.trans.map Trans.name

def find (sid : ℕ) (th : ℤ) : Option (Trans ε) :=
  v.trans.find? fun t ↦ t.session == sid && t.th == th

def close (t : Trans ε) : Server ε :=
  { v with trans := v.trans.filter fun u ↦ !(u.session == t.session && u.th == t.th) }

def commit (t : Trans ε) : Server ε := { v.close t with committed := v.committed ++ [t] }

def answer (t : Trans ε) (e : ε) (accepted : Bool) : Server ε :=
  { v with
    trans := v.trans.map fun u ↦
      if u.session == t.session && u.th == t.th then
        { u with answers := u.answers ++ [(e, accepted)] }
      else u }

/-- A session ends with its transactions. -/
def endSession (sid : ℕ) : Server ε :=
  { v with
    sessions := v.sessions.filter fun x ↦ x != sid
    trans := v.trans.filter fun t ↦ t.session != sid }

/-- Every request but `login` is one of a session. -/
def inSession (cookie : Option ℕ) (f : ℕ → Option (Server ε × Reply)) :
    Option (Server ε × Reply) :=
  match cookie with
  | some sid => if sid ∈ v.sessions then f sid else some (v, .error false)
  | none => some (v, .error false)

def inTrans (cookie : Option ℕ) (th : ℤ) (f : Trans ε → Server ε × Reply) :
    Option (Server ε × Reply) :=
  v.inSession cookie fun sid ↦
    match v.find sid th with
    | some t => some (f t)
    | none => some (v, .error false)

/-- There is no result if the decision is none that ConfD can make. -/
def serve (cookie : Option ℕ) (d : Decision) : Request ε → Option (Server ε × Reply)
  | .login =>
    some (if d.accepts then
      ({ v with sessions := v.logins :: v.sessions, logins := v.logins + 1 }, .session v.logins)
    else (v, .error d.errors))
  | .logout => v.inSession cookie fun sid ↦ some (v.endSession sid, .result)
  | .newTrans isWrite targetDb => v.inSession cookie fun sid ↦
    if !d.accepts then some (v, .error d.errors)
    else if d.th ≠ -1 ∧ (v.find sid d.th).isNone then
      some ({ v with trans := v.trans ++ [⟨sid, d.th, isWrite, targetDb, []⟩] }, .handle d.th)
    else none
  | .deleteTrans th => v.inTrans cookie th fun t ↦ (v.close t, .result)
  | .getTransChanges th => v.inTrans cookie th fun _ ↦ (v, .changes d.changes)
  | .validateCommit th _ => v.inTrans cookie th fun _ ↦
    (v, if d.accepts then .result else .error d.errors)
  | .commit th _ => v.inTrans cookie th fun t ↦
    if d.accepts && t.isWrite then (v.commit t, .result) else (v, .error d.errors)
  | .edit th e => v.inTrans cookie th fun t ↦
    (v.answer t e (d.accepts && t.isWrite),
      if d.accepts && t.isWrite then .result else .error d.errors)

end Server

/-! ## The stores -/

structure Ui (ε : Type*) where
  connected : Bool
  /-- The cookie of the session, which the browser keeps. -/
  cookie : Option ℕ
  transHandle : ℤ
  isWriteTrans : Bool
  changesDialog : Bool
  gotChanges : Bool
  /-- How often the button of the commit was taken off the page. -/
  dialog : ℕ
  /-- The edits that were made since the transaction was opened. -/
  made : List ε
  /-- What was said to be committed: handle and edits made. -/
  reported : List (ℤ × List ε)

inductive Click (ε : Type*)
  | login
  | logout
  | newTransaction (wantWriteTrans : Bool) (targetDb : TargetDb)
  | deleteTransaction
  | showChanges
  | closeChanges
  | commit
  | edit (e : ε)
  deriving DecidableEq

namespace Ui

variable (ui : Ui ε)

def hasTrans : Bool := ui.transHandle != -1

/-- The button of the commit is on the page. -/
def mounted : Bool := ui.isWriteTrans && ui.changesDialog && ui.gotChanges

/-- The page after a change of the stores. -/
def rendered (before after : Ui ε) : Ui ε :=
  if before.mounted && !after.mounted then { after with dialog := after.dialog + 1 } else after

def newPendingTransaction (handle : ℤ) (isWriteTrans : Bool) : Ui ε :=
  { ui with transHandle := handle, isWriteTrans := isWriteTrans, made := [] }

def resetTransaction : Ui ε := { ui with transHandle := -1, isWriteTrans := false }

/-- `doCommit` of the transaction controls. -/
def doCommit : Ui ε :=
  { ui.resetTransaction with
    gotChanges := false
    changesDialog := false
    reported := ui.reported ++ [(ui.transHandle, ui.made)] }

/-- The buttons that are on the page and not disabled. -/
def enabled : Click ε → Bool
  | .login => !ui.connected
  | .logout => ui.connected
  | .newTransaction .. => ui.connected && !ui.hasTrans
  | .deleteTransaction => ui.connected && ui.hasTrans
  | .showChanges => ui.isWriteTrans
  | .closeChanges => ui.isWriteTrans && ui.changesDialog
  | .commit => ui.mounted
  | .edit _ => ui.hasTrans && ui.isWriteTrans

/-- What a click changes at once. -/
def clicked : Click ε → Ui ε
  | .closeChanges => { ui with changesDialog := false }
  | .edit e => { ui with made := ui.made ++ [e] }
  | _ => ui

def request : Click ε → Option (Request ε)
  | .login => some .login
  | .logout => some .logout
  | .newTransaction wantWriteTrans targetDb => some (.newTrans wantWriteTrans targetDb)
  | .deleteTransaction => some (.deleteTrans ui.transHandle)
  | .showChanges => some (.getTransChanges ui.transHandle)
  | .closeChanges => none
  | .commit => some (.validateCommit ui.transHandle ui.dialog)
  | .edit e => some (.edit ui.transHandle e)

/-- How a handler goes on with the reply, and the request it sends next. -/
def receive (q : Request ε) (reply : Reply) : Ui ε × Option (Request ε) :=
  match q with
  | .login =>
    match reply with
    | .session sid => ({ ui with connected := true, cookie := some sid }, none)
    | _ => (ui, none)
  | .logout => ({ ui.resetTransaction with connected := false }, none)
  | .newTrans isWrite _ =>
    match reply with
    | .handle th => (ui.newPendingTransaction th isWrite, none)
    | _ => (ui, none)
  | .deleteTrans _ => (ui.resetTransaction, none)
  | .getTransChanges _ =>
    ({ ui with gotChanges := reply == .changes true, changesDialog := true }, none)
  | .validateCommit _ dialog =>
    -- an error without validation errors is not looked at
    (ui, if reply == .error true || !ui.connected then none
      else some (.commit ui.transHandle dialog))
  | .commit _ dialog => (if ui.dialog = dialog then ui.doCommit else ui, none)
  | .edit .. => (ui, none)

/-- A request that was not sent, or that has failed. -/
def rejected : Request ε → Ui ε
  | .getTransChanges _ => { ui with gotChanges := false }
  | _ => ui

end Ui

/-! ## The machine -/

/-- A request on its way, or its reply. -/
structure Sent (ε : Type*) where
  cookie : Option ℕ
  request : Request ε
  reply : Option Reply

structure Web (ε : Type*) where
  ui : Ui ε
  server : Server ε
  inFlight : List (Sent ε)

inductive WebEvent (ε : Type*)
  | click (c : Click ε)
  | serve (i : ℕ) (d : Decision)
  | receive (i : ℕ)
  /-- The connection fails, before the request is there or with its reply. -/
  | fail (i : ℕ)
  | expire (sid : ℕ)

namespace Web

variable (s : Web ε)

/-- A change of the stores, after which the page is rendered. -/
def setUi (ui : Ui ε) : Web ε := { s with ui := Ui.rendered s.ui ui }

/-- Only `login` can be sent without a session. -/
def send (q : Request ε) : Web ε :=
  if s.ui.connected || q.isLogin then
    { s with inFlight := s.inFlight ++ [⟨s.ui.cookie, q, none⟩] }
  else s.setUi (s.ui.rejected q)

def sendAny : Option (Request ε) → Web ε
  | some q => s.send q
  | none => s

def click (c : Click ε) : Web ε := (s.setUi (s.ui.clicked c)).sendAny (s.ui.request c)

/-- The handler of a request goes on. -/
def receive (r : Sent ε) (reply : Reply) : Web ε :=
  let x := s.ui.receive r.request reply
  (s.setUi x.1).sendAny x.2

end Web

def webMachine : Machine (Web ε) (WebEvent ε) where
  step s
    | .click c => if s.ui.enabled c then some (s.click c) else none
    | .serve i d =>
      s.inFlight[i]?.bind fun r ↦
        if r.reply.isSome then none
        else (s.server.serve r.cookie d r.request).map fun x ↦
          { s with server := x.1, inFlight := s.inFlight.set i { r with reply := some x.2 } }
    | .receive i =>
      s.inFlight[i]?.bind fun r ↦ r.reply.map fun reply ↦
        { s with inFlight := s.inFlight.eraseIdx i }.receive r reply
    | .fail i =>
      s.inFlight[i]?.map fun r ↦
        { s with inFlight := s.inFlight.eraseIdx i }.setUi (s.ui.rejected r.request)
    | .expire sid => some { s with server := s.server.endSession sid }

/-- Nobody has logged in. -/
def webStart : Web ε where
  ui :=
    { connected := false, cookie := none, transHandle := -1, isWriteTrans := false
      changesDialog := false, gotChanges := false, dialog := 0, made := [], reported := [] }
  server := { sessions := [], logins := 0, trans := [], committed := [] }
  inFlight := []

end ConfdDemos.Webui
