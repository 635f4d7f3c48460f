import DiamondApparatus.Client
import DiamondApparatus.Server

/-!
# The server with its clients

One server, and any number of client processes, each with a connection of its own: the packets on their
way to the server and those on their way back, each in order and whole.

* `Conn`, `System` : the state; `Action`, `System.step` : what can happen next. A client call takes
  effect at its client and sends a packet; the server and the clients handle theirs one at a time;
* `System.start` : the server after its constructor, without connections.

The step takes sends to be complete, so it leaves out names of more than 128 bytes and messages of 2^31
bytes and more.
-/

namespace DiamondApparatus
open Lib

/-- A connection, with the client process at its end. -/
structure Conn (ι : Type) where
  proc : Process ι
  /-- The server's descriptor, from its `accept` until it closes it. -/
  fd : Option Nat := none
  /-- Whether the connection has ended at the server's side. -/
  closed : Bool := false
  /-- The packets on their way to the server, and to the client. -/
  up : List Bytes := []
  down : List Bytes := []

structure System (κ ι : Type) where
  server : MyServer
  conns : κ → Option (Conn ι)

inductive Action (κ ι : Type)
  | connect (k : κ)
  | accept (k : κ) (fd : Nat)
  /-- A step of the client process that neither sends nor receives. -/
  | thread (k : κ) (a : Label ι)
  | subscribe (k : κ) (n : CString) (field : MsgField)
  | publish (k : κ) (n : CString) (t : Topic)
  | clearServer (k : κ)
  /-- The server handles the oldest packet of the connection; `tail` is the memory behind it. -/
  | serve (k : κ) (tail : Bytes) (now : Now)
  /-- The client handles the oldest packet of the connection. -/
  | receive (k : κ) (tail : Bytes) (now : Clock) (who : Option ι)
  /-- The server's side ends. The client may still handle what is on its way. -/
  | close (k : κ)

/-- Whether a step of a client process is one of `Action.thread`. -/
def Label.isLocal {ι : Type} : Label ι → Bool
  | .subscribe _ => false
  | .packet _ _ _ => false
  | _ => true

namespace System
variable {κ ι : Type} [DecidableEq κ] [DecidableEq ι]

def start (listenfd : Nat) (others : FdSet) (now : Now) : System κ ι where
  server := .new listenfd others now
  conns _ := none

def setConn (S : System κ ι) (k : κ) (x : Option (Conn ι)) : System κ ι :=
  { S with conns := Function.update S.conns k x }

def framesTo (fd : Option Nat) (out : List (Nat × Bytes)) : List Bytes :=
  (out.filter fun m => decide (some m.1 = fd)).map Prod.snd

/-- The server has become `s`, and what it sent is on its way. -/
def advance (S : System κ ι) (s : MyServer) : System κ ι where
  server := s
  conns k := (S.conns k).map fun x =>
    { x with down := x.down ++ framesTo x.fd (s.sent.drop S.server.sent.length) }

def request (S : System κ ι) (k : κ) (x : Conn ι) (proc : Process ι) (p : Bytes) : System κ ι :=
  S.setConn k (some { x with proc := proc, up := x.up ++ [p] })

def step (S : System κ ι) : Action κ ι → Option (System κ ι)
  | .connect k =>
    match S.conns k with
    | none => some (S.setConn k (some { proc := .start }))
    | some _ => none
  | .accept k fd => (S.conns k).bind fun x =>
    if x.fd = none ∧ x.closed = false ∧ S.server.Enabled (.accept fd) then
      some ({ S with server := S.server.acceptClient fd }.setConn k (some { x with fd := some fd }))
    else none
  | .thread k a => (S.conns k).bind fun x =>
    if a.isLocal then (x.proc.step a).map fun proc => S.setConn k (some { x with proc := proc })
    else none
  | .subscribe k n field => (S.conns k).bind fun x =>
    if n.length ≤ 128 then
      (x.proc.step (.subscribe n)).map fun proc => S.request k x proc (strMsg csSubscribe n field)
    else none
  | .publish k n t => (S.conns k).bind fun x =>
    if n.length ≤ 128 ∧ IntSized t.d n then
      some (S.request k x x.proc (t.toMessage csPublish n))
    else none
  | .clearServer k => (S.conns k).map fun x => S.request k x x.proc (noDataMsg csClearserver)
  | .serve k tail now => (S.conns k).bind fun x =>
    match x.fd, x.up with
    | some fd, p :: up =>
      match S.server.step (.packet fd p tail now) with
      | (s, none) =>
        if ∀ m ∈ s.sent.drop S.server.sent.length, m.2.length < 2 ^ 31 then
          some ((S.setConn k (some { x with up := up })).advance s)
        else none
      | (_, some _) => none
    | _, _ => none
  | .receive k tail now who => (S.conns k).bind fun x =>
    match x.down with
    | p :: down => (x.proc.step (.packet (p ++ tail) now who)).map fun proc =>
        S.setConn k (some { x with proc := proc, down := down })
    | [] => none
  | .close k => (S.conns k).bind fun x =>
    match x.fd with
    | none => some (S.setConn k (some { x with closed := true }))
    | some fd =>
      match S.server.step (.close fd) with
      | (s, none) => some ({ S with server := s }.setConn k (some { x with fd := none, closed := true }))
      | (_, some _) => none

end System

end DiamondApparatus
