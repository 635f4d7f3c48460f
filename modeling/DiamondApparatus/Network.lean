import DiamondApparatus.Server.Receivers
import DiamondApparatus.System
import DiamondApparatus.Tcp.Line

/-!
# The network: the server and its clients, byte by byte

The system of `System`, with what is below its packets. Every connection is two streams of bytes, which
arrive in pieces of any size. The server is one thread that goes through the descriptors `select` found
ready, and stays in the call of `update` of one of them until it returns; each client's receiver thread
is in a call of its own.

* `Link`, `Place`, `Network` : the state. The server's receivers are those in `clients`;
* `Act`, `Network.step` : what can happen next. A `read` is a step, and so is each send;
* `Network.shadow` : what such a step is among those of `System`.

As there, sends are complete, and `malloc` finds memory; no client asks the server to end.
-/

namespace DiamondApparatus
open Lib

/-- A connection, with the client process at its end. -/
structure Link (ι : Type) where
  proc : Process ι
  /-- The client's receiver, and `rv` in the call of its `update`. -/
  recv : TCPReceiver := {}
  rv : Bool := false
  /-- The server's descriptor, from its `accept` until it closes it. -/
  fd : Option Nat := none
  /-- Whether the server has closed it. -/
  closed : Bool := false
  up : Line := {}
  down : Line := {}

/-- Where the server is: in `select`, or in the loop behind it. `ready` are the descriptors still to
come; the first is being handled, with `rv` in the call of its receiver's `update`. -/
inductive Place
  | selecting
  | looping (rv : Bool) (ready : List Nat)
  deriving DecidableEq

structure Network (κ ι : Type) where
  server : MyServer
  place : Place := .selecting
  links : κ → Option (Link ι)

inductive Act (κ ι : Type)
  | connect (k : κ)
  /-- A step of the client process that neither sends nor receives. -/
  | thread (k : κ) (a : Label ι)
  | subscribe (k : κ) (n : CString) (field : MsgField)
  | publish (k : κ) (n : CString) (t : Topic)
  | clearServer (k : κ)
  /-- The client's end is closed, or its process has ended. -/
  | hang (k : κ)
  /-- `select` returns these descriptors; each comes with a connection that it is ready for. -/
  | select (ready : List (Nat × κ))
  | accept (k : κ) (fd : Nat)
  /-- The server's `read` finds `a` on the connection. If that completes a packet, it is handled; `tail`
  is the memory behind it. -/
  | read (k : κ) (a : Arrival) (tail : Bytes) (now : Now)
  /-- The end of the loop. -/
  | finish
  /-- The client's `read` finds `a`. -/
  | receive (k : κ) (a : Arrival) (tail : Bytes) (now : Clock) (who : Option ι)

def Label.isHangup {ι : Type} : Label ι → Bool
  | .hangup => true
  | _ => false

/-- `delete client` closes the connection. -/
def Label.closes {ι : Type} : Label ι → Bool
  | .finish => true
  | _ => false

namespace Link
variable {ι : Type}

/-- It is waiting for `accept`. -/
def Pending (x : Link ι) : Prop := x.fd = none ∧ x.closed = false

instance (x : Link ι) : Decidable x.Pending := by unfold Pending; infer_instance

/-- There is something to read for the server. -/
def Readable (x : Link ι) : Prop := x.up.bytes ≠ [] ∨ x.up.ended

instance (x : Link ι) : Decidable x.Readable := by unfold Readable; infer_instance

/-- The next `read` of the client, which finds `a`. -/
def nextRead (x : Link ι) (a : Arrival) : Flow :=
  x.recv.readOnce (fun _ => false) { arrivals := [a] } x.rv

end Link

namespace Network
variable {κ ι : Type} [DecidableEq κ] [DecidableEq ι]

def start (listenfd : Nat) (others : FdSet) (now : Now) : Network κ ι where
  server := .new listenfd others now
  links _ := none

def setLink (N : Network κ ι) (k : κ) (x : Link ι) : Network κ ι :=
  { N with links := Function.update N.links k (some x) }

/-- The server has become `s`, and what it sent is on its way. -/
def advance (N : Network κ ι) (s : MyServer) : Network κ ι :=
  { N with server := s
           links := fun k => (N.links k).map fun x =>
             { x with down := x.down.sends (System.framesTo x.fd (s.sent.drop N.server.sent.length)) } }

def request (N : Network κ ι) (k : κ) (x : Link ι) (proc : Process ι) (p : Bytes) : Network κ ι :=
  N.setLink k { x with proc := proc, up := x.up.send p }

/-- `select` finds `fd` ready for the connection `k`. -/
def IsReady (N : Network κ ι) (fd : Nat) (k : κ) : Prop :=
  match N.links k with
  | none => False
  | some x => if fd = N.server.listenfd then x.Pending else x.fd = some fd ∧ x.Readable

instance (N : Network κ ι) (fd : Nat) (k : κ) : Decidable (N.IsReady fd k) := by
  unfold IsReady; split <;> infer_instance

/-- The next `read` of the server, on `fd`; it finds `a`. -/
def nextRead (N : Network κ ι) (fd : Nat) (rv : Bool) (a : Arrival) : Option Flow :=
  (N.server.clientAt fd).2.map fun c => c.r.readOnce (fun _ => false) { arrivals := [a] } rv

/-- What the loop does behind a `read` on `fd` that found `a` on the connection `k`. -/
def afterRead (N : Network κ ι) (k : κ) (x : Link ι) (fd : Nat) (rest : List Nat) (a : Arrival)
    (tail : Bytes) (now : Now) : Flow → Option (Network κ ι)
  | .next r left rv =>
    some ({ N with server := N.server.setReceiver fd r, place := .looping rv (fd :: rest) }.setLink k
      { x with up := x.up.rest a left })
  | .done ⟨r, left, .complete p⟩ =>
    match (N.server.setReceiver fd r).step (.packet fd p tail now) with
    | (s, none) =>
      if ∀ m ∈ s.sent.drop N.server.sent.length, m.2.length < 2 ^ 31 then
        some (({ N with place := .looping false rest }.setLink k { x with up := x.up.rest a left }).advance s)
      else none
    | (_, some _) => none
  | .done ⟨r, left, .returned true⟩ =>
    some ({ N with server := N.server.setReceiver fd r, place := .looping false rest }.setLink k
      { x with up := x.up.rest a left })
  | .done ⟨r, left, .returned false⟩ =>
    match (N.server.setReceiver fd r).step (.close fd) with
    | (s, none) =>
      some ({ N with server := s, place := .looping false rest }.setLink k
        { x with fd := none, closed := true, up := x.up.rest a left, down := x.down.finish })
    | (_, some _) => none
  | .done ⟨_, _, .thrown _⟩ => none
  | .done ⟨_, _, .blocked⟩ => none

/-- What the client of `k` does behind a `read` that found `a`. -/
def afterReceive (N : Network κ ι) (k : κ) (x : Link ι) (a : Arrival) (tail : Bytes) (now : Clock)
    (who : Option ι) : Flow → Option (Network κ ι)
  | .next r left rv => some (N.setLink k { x with recv := r, rv := rv, down := x.down.rest a left })
  | .done ⟨r, left, .complete p⟩ =>
    (x.proc.step (.packet (p ++ tail) now who)).map fun proc =>
      N.setLink k { x with proc := proc, recv := r, rv := false, down := x.down.rest a left }
  | .done ⟨r, left, .returned true⟩ =>
    some (N.setLink k { x with recv := r, rv := false, down := x.down.rest a left })
  | .done ⟨r, left, .returned false⟩ =>
    (x.proc.step .hangup).map fun proc =>
      N.setLink k { x with proc := proc, recv := r, rv := false, down := x.down.rest a left }
  | .done ⟨_, _, .thrown _⟩ => none
  | .done ⟨_, _, .blocked⟩ => none

def step (N : Network κ ι) : Act κ ι → Option (Network κ ι)
  | .connect k =>
    match N.links k with
    | none => some (N.setLink k { proc := .start })
    | some _ => none
  | .thread k a => (N.links k).bind fun x =>
    if a.isLocal && !a.isHangup then
      (x.proc.step a).map fun proc =>
        N.setLink k { x with proc := proc, up := if a.closes then x.up.finish else x.up }
    else none
  | .subscribe k n field => (N.links k).bind fun x =>
    if n.length ≤ 128 then
      (x.proc.step (.subscribe n)).map fun proc => N.request k x proc (strMsg csSubscribe n field)
    else none
  | .publish k n t => (N.links k).bind fun x =>
    if n.length ≤ 128 ∧ IntSized t.d n then
      some (N.request k x x.proc (t.toMessage csPublish n))
    else none
  | .clearServer k => (N.links k).map fun x => N.request k x x.proc (noDataMsg csClearserver)
  | .hang k => (N.links k).map fun x => N.setLink k { x with up := x.up.finish }
  | .select ready =>
    if N.place = .selecting ∧ ready ≠ [] ∧ (ready.map Prod.fst).Pairwise (· < ·) ∧
        ∀ r ∈ ready, r.1 ∈ N.server.activeFdSet ∧ N.IsReady r.1 r.2 then
      some { N with place := .looping false (ready.map Prod.fst) }
    else none
  | .accept k fd => (N.links k).bind fun x =>
    match N.place with
    | .looping false (i :: rest) =>
      if i = N.server.listenfd ∧ x.Pending ∧ N.server.Enabled (.accept fd) then
        some ({ N with server := N.server.acceptClient fd, place := .looping false rest }.setLink k
          { x with fd := some fd })
      else none
    | _ => none
  | .read k a tail now => (N.links k).bind fun x =>
    match N.place with
    | .looping rv (fd :: rest) =>
      if fd ≠ N.server.listenfd ∧ x.fd = some fd ∧ x.up.Offers a then
        (N.nextRead fd rv a).bind (N.afterRead k x fd rest a tail now)
      else none
    | _ => none
  | .finish => if N.place = .looping false [] then some { N with place := .selecting } else none
  | .receive k a tail now who => (N.links k).bind fun x =>
    if x.proc.receiver = .looping ∧ x.proc.c.running ∧ x.down.Offers a then
      N.afterReceive k x a tail now who (x.nextRead a)
    else none

/-! ## Among the steps of the system -/

/-- A `read` that completes a packet is `whole`, and one that ends the connection is `last`. -/
def shadowOf (whole last : Action κ ι) : Flow → List (Action κ ι)
  | .done ⟨_, _, .complete _⟩ => [whole]
  | .done ⟨_, _, .returned false⟩ => [last]
  | _ => []

def shadow (N : Network κ ι) : Act κ ι → List (Action κ ι)
  | .connect k => [.connect k]
  | .thread k a => [.thread k a]
  | .subscribe k n field => [.subscribe k n field]
  | .publish k n t => [.publish k n t]
  | .clearServer k => [.clearServer k]
  | .hang _ => []
  | .select _ => []
  | .accept k fd => [.accept k fd]
  | .read k a tail now =>
    match N.place with
    | .looping rv (fd :: _) => (N.nextRead fd rv a).elim [] (shadowOf (.serve k tail now) (.close k))
    | _ => []
  | .finish => []
  | .receive k a tail now who =>
    (N.links k).elim [] fun x => shadowOf (.receive k tail now who) (.thread k .hangup) (x.nextRead a)

end Network

end DiamondApparatus
