import BinaryMachine.Tape.Head

/-!
One tape under any number of heads.  A session is driven by commands, which act
through the current head or change which head is current.
-/

namespace BinaryMachine

/-! ## Commands and replies -/

/-- A cell as seen from outside: its neighbours are given by serial number. -/
structure CellView where
  symbol : Symbol
  serial : Nat
  left : Option Nat
  right : Option Nat
  deriving DecidableEq, Repr

def Tape.view? (tape : Tape) (id : CellId) : Option CellView :=
  (tape.cell? id).map fun cell =>
    ⟨cell.symbol, cell.serial, cell.left.map tape.serialAt, cell.right.map tape.serialAt⟩

inductive Command where
  | move (direction : Direction)
  | goToLeftEnd
  | advanceRight
  | write (c : Char)
  | read
  | cell
  | root
  | isAtRoot
  /-- Looks the place of the current head up in another tape, given by its content. -/
  | cellIn (content : String)
  /-- Puts one more head on the root and makes it current. -/
  | newHead
  /-- Puts one more head where the current one stands and makes it current. -/
  | cloneHead
  | use (head : Nat)
  | sharesCellWith (head : Nat)
  deriving DecidableEq, Repr

inductive Reply where
  | done
  | symbol (symbol : Symbol)
  | answer (holds : Bool)
  | cell (cell : Option CellView)
  | failed (failure : Failure)
  deriving DecidableEq, Repr

/-! ## Sessions -/

structure Session where
  tape : Tape
  heads : List Head
  current : Nat
  deriving DecidableEq, Repr

namespace Session

def on (tape : Tape) : Session :=
  ⟨tape, [Head.atRoot tape], 0⟩

/-- A head that was never put down stands on the root. -/
def headAt (session : Session) (i : Nat) : Head :=
  session.heads.getD i (Head.atRoot session.tape)

def head (session : Session) : Head :=
  session.headAt session.current

def addHead (session : Session) (head : Head) : Session :=
  { session with heads := session.heads ++ [head], current := session.heads.length }

def withHead (session : Session) (head : Head) : Session :=
  { session with heads := session.heads.set session.current head }

def perform (session : Session) : Command → Session × Reply
  | .move direction =>
      let (tape, head) := session.head.move session.tape direction
      (withHead { session with tape } head, .done)
  | .goToLeftEnd => (session.withHead (session.head.goToLeftEnd session.tape), .done)
  | .advanceRight =>
      match session.head.advanceRight? session.tape with
      | some head => (session.withHead head, .answer true)
      | none => (session, .answer false)
  | .write c =>
      match session.head.writeChar session.tape c with
      | .ok tape => ({ session with tape }, .done)
      | .error failure => (session, .failed failure)
  | .read => (session, .symbol (session.head.read session.tape))
  | .cell => (session, .cell (session.tape.view? session.head.cell))
  | .root => (session, .cell (session.tape.view? session.tape.root))
  | .isAtRoot => (session, .answer (session.head.cell == session.tape.root))
  | .cellIn content =>
      match Tape.ofText content with
      | .ok other => (session, .cell (other.view? session.head.cell))
      | .error failure => (session, .failed failure)
  | .newHead => (session.addHead (Head.atRoot session.tape), .done)
  | .cloneHead => (session.addHead session.head, .done)
  | .use head => ({ session with current := head }, .done)
  | .sharesCellWith head => (session, .answer (session.head == session.headAt head))

/-- Performs the commands in order and stops at the first one that fails. -/
def performAll (session : Session) : List Command → Except Failure Session
  | [] => .ok session
  | command :: rest =>
      match session.perform command with
      | (_, .failed failure) => .error failure
      | (session, _) => session.performAll rest

end Session

/-! ## Tapes built by commands -/

/-- A content, or nothing for the blank tape, and what is done to it. -/
structure TapeScript where
  content : Option String
  commands : List Command
  deriving DecidableEq, Repr

namespace TapeScript

def start (script : TapeScript) : Except Failure Tape :=
  match script.content with
  | some content => Tape.ofText content
  | none => .ok Tape.blank

def build (script : TapeScript) : Except Failure Tape := do
  let session ← (Session.on (← script.start)).performAll script.commands
  return session.tape

end TapeScript

end BinaryMachine
