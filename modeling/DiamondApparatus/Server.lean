import DiamondApparatus.Lib.SetMap
import DiamondApparatus.Data
import DiamondApparatus.Messages
import DiamondApparatus.Tcp.Receiver

/-!
# The broker (`server.cpp`, and `TCPServer` in `tcp.h`)

* `MyServer` : the members of `TCPServer` and `MyServer`, the file's counters and `serverKill`; and,
  on the side of the system, the descriptors the process has open and the `basesend` calls so far;
* one definition per member function, under its name. A function that can end in a fault returns it
  beside the state it leaves. Every message is taken to be built and every `basesend` to be complete;
  `DiamondApparatus.Server.Sending` has the same functions with what these two come to;
* `acceptClient`, `receive`, `closeClient` : the body of the loop of `TCPServer::update` for one
  descriptor that is ready; `Event`, `step`, `update`, `serve` : the loop and `server()`.
-/

namespace DiamondApparatus
open Lib Std

def VERSION : String := "1.1.2"
def VERSIONNAME : String := "YELLOW ACKNOWLEDGEMENT"

def FD_SETSIZE : Nat := 1024

abbrev FdSet := ExtTreeSet Nat compare

structure ClientInServer where
  fd : Nat
  r : TCPReceiver := {}
  deriving DecidableEq

structure MyServer where
  listenfd : Nat
  activeFdSet : FdSet
  /-- A null pointer is `none`. -/
  clients : ExtTreeMap Nat (Option ClientInServer) compare := ∅
  curClient : Option ClientInServer := none
  subscribers : SetMap CString Nat CString.cmp compare := ∅
  subtopics : SetMap Nat CString compare CString.cmp := ∅
  topics : ExtTreeMap CString Topic CString.cmp := ∅
  serverKill : Bool := false
  msgssent : Nat := 0
  msgsrecvd : Nat := 0
  /-- The descriptors the process has open. -/
  openFds : FdSet
  /-- The descriptor and the data of every `basesend` so far. -/
  sent : List (Nat × Bytes) := []

/-- `Datum(Time::now())`: the bits of the float. -/
abbrev Now := UInt32

namespace MyServer

def versionName : CString := .ofString "version"
def statsName : CString := .ofString "stats"
def topicsName : CString := .ofString "topics"

/-! ## Sending -/

/-- `basesend(fd,p,..); msgssent++;` -/
def sendTo (s : MyServer) (fd : Nat) (p : Bytes) : MyServer :=
  { s with sent := s.sent ++ [(fd, p)], msgssent := s.msgssent + 1 }

/-- The publish loop over `subscribers[name]`. -/
def sendAll (s : MyServer) (name : CString) (p : Bytes) : MyServer :=
  let s := { s with subscribers := s.subscribers.touch name }
  (s.subscribers.entry name).toList.foldl (fun s i => s.sendTo i p) s

/-! ## Topics -/

def findOrCreateTopic (s : MyServer) (n : CString) : MyServer × Topic :=
  match s.topics[n]? with
  | some t => (s, t)
  | none => ({ s with topics := s.topics.insert n {} }, {})

/-- `*topics[n] = t`. -/
def setTopic (s : MyServer) (n : CString) (t : Topic) : MyServer :=
  { s with topics := s.topics.insert n t }

def publishInternal (s : MyServer) (name : CString) (t : Topic) : MyServer :=
  s.sendAll name (t.toMessage scNotify name)

def rebuildTopicsTopic (s : MyServer) : MyServer :=
  let (s, t) := s.findOrCreateTopic topicsName
  let t := s.topics.keys.foldl (fun t n => t.add (.string n)) t.clear
  (s.setTopic topicsName t).publishInternal topicsName t

def rebuildStatsTopic (s : MyServer) (now : Now) : MyServer :=
  let (s, t) := s.findOrCreateTopic statsName
  let t := t.clear
  let t := t.add (.ofNat s.subscribers.size)
  let t := t.add (.ofNat s.msgssent)
  let t := t.add (.ofNat s.msgsrecvd)
  let t := t.add (.float now)
  (s.setTopic statsName t).publishInternal statsName t

/-! ## Subscriptions -/

def respond (s : MyServer) (data : Bytes) : MyServer × Option Fault :=
  match s.curClient with
  | none => (s, some (.exception "cannot call respond() outside process()"))
  | some c => (s.sendTo c.fd data, none)

def subscribe (s : MyServer) (fd : Nat) (n : CString) : MyServer × Option Fault :=
  let s := { s with subscribers := s.subscribers.add n fd, subtopics := s.subtopics.add fd n }
  match s.topics[n]? with
  | some t => s.respond (t.toMessage scNotify n)
  | none => (s, none)

def unsubscribe (s : MyServer) (fd : Nat) : MyServer :=
  { s with subscribers := s.subscribers.removeAll (s.subtopics.entry fd).toList fd,
           subtopics := s.subtopics.erase fd }

def deletetopic (s : MyServer) (n : CString) : MyServer :=
  { s with subtopics := s.subtopics.removeAll (s.subscribers.entry n).toList n,
           subscribers := s.subscribers.erase n }

/-! ## Handling a packet -/

/-- The packet with `SC_NOTIFY` written over its type, as far as it is sent. -/
def relayed (mem : Bytes) (pktsize : Nat) : Bytes := (be32 scNotify ++ mem.drop 4).take pktsize

/-- `mem` is the readable memory from the packet's address on. -/
def publish (s : MyServer) (mem : Bytes) (pktsize : Nat) : MyServer × Option Fault :=
  match nameOfMsg mem with
  | .error e => (s, some e)
  | .ok name =>
    let isnew := !s.topics.contains name
    let (s, t) := s.findOrCreateTopic name
    let (t, r) := t.fromMessage mem false
    let s := s.setTopic name t
    match r with
    | .error e => (s, some e)
    | .ok _ =>
      let s := s.sendAll name (relayed mem pktsize)
      (if isnew then s.rebuildTopicsTopic else s, none)

def process (s : MyServer) (packetsize : Nat) (mem : Bytes) (now : Now) : MyServer × Option Fault :=
  let s := { s with msgsrecvd := s.msgsrecvd + 1 }
  let s := s.rebuildStatsTopic now
  match takeU32 mem with
  | none => (s, some .outOfBounds)
  | some (type, msg) =>
    if type = csPublish then s.publish mem packetsize
    else if type = csSubscribe then
      match s.curClient with
      | none => (s, some (.exception "cannot call getfd() outside process()"))
      | some c =>
        match CString.ofMem msg with
        | none => (s, some .outOfBounds)
        | some n => s.subscribe c.fd n
    else if type = csKillserver then ({ s with serverKill := true }, none)
    else if type = csClearserver then ({ s with topics := ∅ }, none)
    else (s, none)

/-! ## Construction and shutdown -/

/-- The state after the constructor. `listenfd` is what `socket()` returned; `others` are the
descriptors the process had open before. -/
def new (listenfd : Nat) (others : FdSet) (now : Now) : MyServer :=
  let s : MyServer := { listenfd := listenfd,
                        activeFdSet := (∅ : FdSet).insert listenfd,
                        openFds := others.insert listenfd }
  let (s, t) := s.findOrCreateTopic versionName
  let s := s.setTopic versionName ((t.add (.ofString VERSION)).add (.ofString VERSIONNAME))
  (s.rebuildStatsTopic now).rebuildTopicsTopic

def shutdown (s : MyServer) : MyServer :=
  s.clients.keys.foldl (fun s fd => s.sendTo fd (noDataMsg scKillclient)) s

/-! ## `TCPServer::update` -/

/-- A new connection: `accept` returned `fd`. -/
def acceptClient (s : MyServer) (fd : Nat) : MyServer :=
  { s with clients := s.clients.insert fd (some { fd := fd, r := { fd := fd } }),
           activeFdSet := s.activeFdSet.insert fd,
           openFds := s.openFds.insert fd }

/-- `clients[i]`: a missing entry is created, with the null pointer. -/
def clientAt (s : MyServer) (i : Nat) : MyServer × Option ClientInServer :=
  ({ s with clients := s.clients.insertIfNew i none }, s.clients.getD i none)

/-- The receiver of `i` has completed the packet `pkt`; `tail` is the readable memory behind it. -/
def receive (s : MyServer) (i : Nat) (pkt tail : Bytes) (now : Now) : MyServer × Option Fault :=
  match s.clientAt i with
  | (s, none) => (s, some .nullPointer)
  | (s, some c) =>
    match { s with curClient := some c }.process pkt.length (pkt ++ tail) now with
    | (s, some e) => (s, some e)
    | (s, none) => ({ s with curClient := none }, none)

/-- The receiver of `i` returned false. -/
def closeClient (s : MyServer) (i : Nat) : MyServer × Option Fault :=
  match s.clientAt i with
  | (s, none) => (s, some .nullPointer)
  | (s, some _) =>
    ({ s with openFds := s.openFds.erase i,
              activeFdSet := s.activeFdSet.erase i,
              clients := s.clients.erase i,
              curClient := none }.unsubscribe i, none)

end MyServer

/-- What happens to the server from outside, and a call of `deletetopic`. -/
inductive Event
  | accept (fd : Nat)
  | packet (fd : Nat) (pkt tail : Bytes) (now : Now)
  | close (fd : Nat)
  | deletetopic (n : CString)
  deriving DecidableEq

namespace MyServer

def step (s : MyServer) : Event → MyServer × Option Fault
  | .accept fd => (s.acceptClient fd, none)
  | .packet fd pkt tail now => s.receive fd pkt tail now
  | .close fd => s.closeClient fd
  | .deletetopic n => (s.deletetopic n, none)

/-- When the system lets an event happen: `accept` returns a descriptor that is not open and below
`FD_SETSIZE`, and the loop looks at the members of `active_fd_set`. -/
def Enabled (s : MyServer) : Event → Prop
  | .accept fd => fd ∉ s.openFds ∧ fd < FD_SETSIZE
  | .packet fd _ _ _ => fd ∈ s.activeFdSet ∧ fd ≠ s.listenfd
  | .close fd => fd ∈ s.activeFdSet ∧ fd ≠ s.listenfd
  | .deletetopic _ => True

instance (s : MyServer) (e : Event) : Decidable (s.Enabled e) := by
  cases e <;> unfold Enabled <;> infer_instance

/-- The events of one call of `update`, up to the first fault. -/
def update (s : MyServer) : List Event → MyServer × Option Fault
  | [] => (s, none)
  | e :: es =>
    match s.step e with
    | (s, some f) => (s, some f)
    | (s, none) => s.update es

/-- Where `server()` is after some rounds of `update`: still serving, left through an exception (or
crashed), or returned after a kill. -/
inductive Serving
  | running (s : MyServer)
  | died (s : MyServer) (f : Fault)
  | killed (s : MyServer)

def serve (s : MyServer) : List (List Event) → Serving
  | [] => .running s
  | round :: rounds =>
    match s.update round with
    | (s, some f) => .died s f
    | (s, none) => if s.serverKill then .killed s.shutdown else s.serve rounds

end MyServer

end DiamondApparatus
