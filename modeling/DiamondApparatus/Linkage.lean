import DiamondApparatus.System

/-!
# The C interface (`clinkage.cpp`)

* `DiamondException`, `Linkage` : an exception, and the static variables behind the C functions;
  `wrapped` : the `try` block that each of them is, but for those that only touch the statics;
* `Topic.item`, `Datum.s`, `Datum.f` : what the fetch functions read. `Linkage.fetched` : what the loop of
  `mainc.c` reads through them;
* `CProgram`, `CSystem`, `CSystem.step` : the system whose clients are C programs, each with one thread.

The C programs of the system do not call `destroy`, `killserver` and `server`.
-/

namespace DiamondApparatus
open Lib

/-! ## What is fetched -/

/-- `Datum::t` -/
def Datum.t : Datum → UInt32
  | .float _ => dtFloat.toUInt32
  | .string _ => dtString.toUInt32

/-- `Datum::f()`; 0.0 for a string. -/
def Datum.f : Datum → UInt32
  | .float f => f
  | .string _ => 0

/-- `Datum::s()` -/
def Datum.s : Datum → CString
  | .float _ => .ofString "?notstring?"
  | .string s => s

namespace Topic

def zeroDat : Datum := .float 0

def item (t : Topic) (n : Int) : Datum :=
  if n < 0 ∨ (t.d.length : Int) ≤ n then zeroDat else t.d[n.toNat]?.getD zeroDat

/-- `size()`, an `int`. -/
def size (t : Topic) : Int := (BitVec.ofNat 32 t.d.length).toInt

end Topic

def TopicState.code : TopicState → Int
  | nodata => 0
  | unchanged => 1
  | changed => 2
  | notfound => 3
  | notconnected => 4

/-! ## The static variables -/

structure DiamondException where
  err : Int := -1
  str : CString := .ofString ""

namespace DiamondException

/-- `DiamondException(s)`: `strncpy` into 256 bytes, the last of which is then zero. -/
def make (s : CString) (errno : Int) : DiamondException where
  err := errno
  str := .cut (s.bytes.take 255)

def what (strerror : Int → CString) (e : DiamondException) : Bytes :=
  if e.err ≠ 0 then e.str.bytes ++ (CString.ofString ": ").bytes ++ (strerror e.err).bytes else e.str.bytes

end DiamondException

structure Linkage where
  exception : DiamondException := {}
  inerror : Bool := false
  topicToPublish : Topic := {}
  topicToAccess : Topic := {}

namespace Linkage

/-- A call of the library that came to `r`; behind it the C function goes on with `rest`. -/
def wrapped {α : Type} (L : Linkage) (r : Except DiamondException α) (rest : Linkage → α → Linkage × Option Int) :
    Linkage × Option Int :=
  match r with
  | .ok a => rest { L with inerror := false } a
  | .error e => ({ L with exception := e, inerror := true }, some (-1))

def error (L : Linkage) (strerror : Int → CString) : Option Bytes :=
  if L.inerror then some (L.exception.what strerror) else none

def init (L : Linkage) (r : Except DiamondException Unit) : Linkage × Option Int :=
  L.wrapped r fun L _ => (L, some 0)

def server (L : Linkage) (r : Except DiamondException Unit) : Linkage × Option Int :=
  L.wrapped r fun L _ => (L, some 0)

def destroy (L : Linkage) (r : Except DiamondException Int) : Linkage × Option Int :=
  L.wrapped r fun L count => (L, some count)

def subscribe (L : Linkage) (r : Except DiamondException Unit) : Linkage × Option Int :=
  L.wrapped r fun L _ => (L, some 0)

def publish (L : Linkage) (r : Except DiamondException Unit) : Linkage × Option Int :=
  L.wrapped r fun L _ => (L, some 0)

/-- There is no `return` behind the block, here and in the next two: the value is anything. -/
def killserver (L : Linkage) (r : Except DiamondException Unit) : Linkage × Option Int :=
  L.wrapped r fun L _ => (L, none)

def clearserver (L : Linkage) (r : Except DiamondException Unit) : Linkage × Option Int :=
  L.wrapped r fun L _ => (L, none)

def waitforany (L : Linkage) (r : Except DiamondException Unit) : Linkage × Option Int :=
  L.wrapped r fun L _ => (L, none)

def get (L : Linkage) (r : Except DiamondException Topic) : Linkage × Option Int :=
  L.wrapped r fun L t => ({ L with topicToAccess := t }, some t.state.code)

def newtopic (L : Linkage) : Linkage := { L with topicToPublish := {} }

def addfloat (L : Linkage) (f : UInt32) : Linkage :=
  { L with topicToPublish := L.topicToPublish.add (.float f) }

def addstring (L : Linkage) (s : CString) : Linkage :=
  { L with topicToPublish := L.topicToPublish.add (.string s) }

def fetchstring (L : Linkage) (n : Int) : CString := (L.topicToAccess.item n).s
def fetchfloat (L : Linkage) (n : Int) : UInt32 := (L.topicToAccess.item n).f
def fetchtype (L : Linkage) (n : Int) : UInt32 := (L.topicToAccess.item n).t
def fetchsize (L : Linkage) : Int := L.topicToAccess.size
def isfetchvalid (L : Linkage) : Bool := L.topicToAccess.isValid

/-- What the loop of `mainc.c` reads: `fetchsize()` items, each by its type. -/
def fetched (L : Linkage) : List Datum :=
  (List.range L.fetchsize.toNat).map fun i : Nat =>
    if L.fetchtype i = dtFloat.toUInt32 then .float (L.fetchfloat i) else .string (L.fetchstring i)

end Linkage

/-! ## C programs -/

/-- A call that sends a packet. -/
inductive CRequest
  | subscribe (n : CString)
  | publish (n : CString)
  | clearserver
  deriving DecidableEq

def CRequest.wrapper : CRequest → Linkage → Except DiamondException Unit → Linkage × Option Int
  | subscribe _ => Linkage.subscribe
  | publish _ => Linkage.publish
  | clearserver => Linkage.clearserver

/-- Where a C program is: outside the library, behind the test of `running` of a request, or inside `get()`
or `waitForAny()`. -/
inductive CPc
  | outside
  | passed (c : CRequest)
  | getting (n : CString) (wait : Wait)
  | waiting
  deriving DecidableEq

structure CProgram where
  link : Linkage := {}
  pc : CPc := .outside

structure CSystem (κ : Type) where
  sys : System κ Unit
  progs : κ → CProgram

inductive CStep (κ : Type)
  | newtopic (k : κ)
  | addfloat (k : κ) (f : UInt32)
  | addstring (k : κ) (s : CString)
  /-- `init()`, which connects the first time, or throws. -/
  | init (k : κ) (r : Except DiamondException Unit)
  /-- The test of `running` at the head of a request. -/
  | test (k : κ) (c : CRequest) (errno : Int)
  | send (k : κ) (c : CRequest) (field : MsgField)
  | get (k : κ) (n : CString) (wait : Wait)
  /-- `get()` has returned, and its topic is assigned. -/
  | assign (k : κ) (n : CString) (wait : Wait)
  | waitforany (k : κ)
  | woken (k : κ)
  /-- A step of the server, of a connection, of a receiver, or inside `get()` or `waitForAny()`. -/
  | library (a : Action κ Unit)

/-- Whether a step of the system is none that a program calls for. -/
def Action.ofLibrary {κ : Type} : Action κ Unit → Bool
  | .accept _ _ => true
  | .serve _ _ _ => true
  | .receive _ _ _ _ => true
  | .close _ => true
  | .thread _ (.get _ _ _) => false
  | .thread _ (.waitForAny _) => false
  | .thread _ _ => true
  | _ => false

def Thread.topic : Thread → Option Topic
  | .returned rv => some rv
  | _ => none

namespace CSystem
variable {κ : Type} [DecidableEq κ]

def start (listenfd : Nat) (others : FdSet) (now : Now) : CSystem κ where
  sys := .start listenfd others now
  progs _ := {}

def running (C : CSystem κ) (k : κ) : Bool := (C.sys.conns k).any fun x => x.proc.c.running

def threadOf (C : CSystem κ) (k : κ) : Thread := (C.sys.conns k).elim .idle fun x => x.proc.threads ()

/-- Where the program has to be for a step. -/
def Enabled (C : CSystem κ) : CStep κ → Bool
  | .newtopic k | .addfloat k _ | .addstring k _ | .init k _ | .test k _ _ | .get k _ _ | .waitforany k =>
    (C.progs k).pc = .outside
  | .send k c _ => (C.progs k).pc = .passed c
  | .assign k n wait => (C.progs k).pc = .getting n wait ∧ (C.threadOf k).topic.isSome
  | .woken k => (C.progs k).pc = .waiting ∧ C.threadOf k = .idle
  | .library a => a.ofLibrary

/-- What the client does for a step. A `get()` before the first `init()` does not come to it. -/
def actions (C : CSystem κ) : CStep κ → List (Action κ Unit)
  | .init k r => if r.isOk ∧ (C.sys.conns k).isNone then [.connect k] else []
  | .send k (.subscribe n) field => [.subscribe k n field]
  | .send k (.publish n) _ => [.publish k n (C.progs k).link.topicToPublish]
  | .send k .clearserver _ => [.clearServer k]
  | .get k n wait => if (C.sys.conns k).isSome then [.thread k (.get () n wait)] else []
  | .waitforany k => [.thread k (.waitForAny ())]
  | .library a => [a]
  | _ => []

def after (C : CSystem κ) (x : CProgram) : CStep κ → CProgram
  | .newtopic _ => { x with link := x.link.newtopic }
  | .addfloat _ f => { x with link := x.link.addfloat f }
  | .addstring _ s => { x with link := x.link.addstring s }
  | .init _ r => { x with link := (x.link.init r).1 }
  | .test k c errno =>
    if C.running k then { x with pc := .passed c }
    else { x with link := (c.wrapper x.link (.error (.make (.ofString "not connected") errno))).1 }
  | .send _ c _ => { link := (c.wrapper x.link (.ok ())).1, pc := .outside }
  | .get k n wait =>
    if (C.sys.conns k).isSome then { x with pc := .getting n wait }
    else { x with link := (x.link.get (.ok { state := .notconnected })).1 }
  | .assign k _ _ => { link := (x.link.get (.ok ((C.threadOf k).topic.getD {}))).1, pc := .outside }
  | .waitforany _ => { x with pc := .waiting }
  | .woken _ => { link := (x.link.waitforany (.ok ())).1, pc := .outside }
  | .library _ => x

def who : CStep κ → Option κ
  | .newtopic k | .addfloat k _ | .addstring k _ | .init k _ | .test k _ _ | .send k _ _ | .get k _ _
  | .assign k _ _ | .waitforany k | .woken k => some k
  | .library _ => none

def step (C : CSystem κ) (e : CStep κ) : Option (CSystem κ) :=
  if C.Enabled e then
    (Run.exec System.step C.sys (C.actions e)).map fun S =>
      { sys := S, progs := fun k => if who e = some k then C.after (C.progs k) e else C.progs k }
  else none

end CSystem

end DiamondApparatus
