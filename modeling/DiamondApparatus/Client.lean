import DiamondApparatus.Lib.Run
import DiamondApparatus.Data
import DiamondApparatus.Messages
import Mathlib.Data.Finset.Basic
import Std.Data.ExtTreeMap

/-!
# The client (`client.cpp`)

* `MyClient` : what the mutex guards, the topics behind their pointers, `running` and `waittopic`;
* `MyClient.notify`, `process`, `subscribe` : what the receiver and `subscribe` do under the mutex;
* `MyClient.getLocked`, `getWoken` : `get()` from one wait to the next;
* `Thread`, `Process`, `Label`, `Process.step` : any number of application threads with the receiver
  thread, one step for each stretch under the mutex.
-/

namespace DiamondApparatus
open Lib Std

/-- A `Topic *`. -/
abbrev Ref := Nat

/-- The `wait` argument of `get()`: `GET_WAITNONE`, `GET_WAITANY`, `GET_WAITNEW`. -/
inductive Wait
  | none
  | any
  | new
  deriving DecidableEq, Repr

structure MyClient where
  topics : ExtTreeMap CString Ref CString.cmp := ∅
  heap : Ref → Topic := fun _ => {}
  /-- The next `new Topic()`. -/
  fresh : Ref := 0
  running : Bool := false
  waittopic : Option CString := .none

/-- The two wait loops of `get()`. -/
inductive Loop
  | nodata
  | unchanged
  deriving DecidableEq, Repr

/-- The loop's test: `t->state == TOPIC_NODATA`, or `t->state != TOPIC_CHANGED`. -/
def Loop.test : Loop → TopicState → Bool
  | .nodata, st => st == .nodata
  | .unchanged, st => st != .changed

/-- What a stretch of `get()` under the mutex ends with: a result, or a wait on `getcond` in one of the
loops, with the pointer the thread holds. -/
inductive GetStep
  | returns (rv : Topic)
  | waits (t : Ref) (loop : Loop)
  deriving DecidableEq

namespace MyClient

/-- `*t = x`. -/
def store (c : MyClient) (t : Ref) (x : Topic) : MyClient :=
  { c with heap := fun k => if k = t then x else c.heap k }

/-! ## The receiver's side -/

/-- Whether a notification for `name` is one that `waittopic` asks for. -/
def wanted (c : MyClient) (name : CString) : Bool :=
  match c.waittopic with
  | none => false
  | some w => w == .ofString "" || name == w

/-- `notify`: the client it leaves, whether it signals `getcond`, and the fault it ends in. -/
def notify (c : MyClient) (d : Bytes) (now : Clock) : MyClient × Bool × Option Fault :=
  match nameOfMsg d with
  | .error e => (c, false, some e)
  | .ok name =>
    match c.topics[name]? with
    | none => (c, false, none)
    | some t =>
      match (c.heap t).fromMessage d false with
      | (x, .error e) => (c.store t x, false, some e)
      | (x, .ok _) =>
        let c := c.store t { x with state := .changed, timeLastSet := some now }
        if c.wanted name then ({ c with waittopic := none }, true, none) else (c, false, none)

def process (c : MyClient) (p : Bytes) (now : Clock) : MyClient × Bool × Option Fault :=
  match takeU32 p with
  | none => (c, false, some .outOfBounds)
  | some (type, _) =>
    let signal := type = scKillclient ∧ c.waittopic.isSome
    let c := if signal then { c with waittopic := none } else c
    let c := if type = scKillclient then { c with running := false } else c
    if type = scNotify then c.notify p now else (c, signal, none)

/-! ## The application's side -/

/-- `subscribe`, up to the request it sends. The old `Topic` of the name is leaked. -/
def subscribe (c : MyClient) (name : CString) : MyClient :=
  { c.store c.fresh {} with topics := c.topics.insert name c.fresh, fresh := c.fresh + 1 }

/-- The end of `get()`: `rv = *t; t->state = TOPIC_UNCHANGED;`. -/
def take (c : MyClient) (t : Ref) : MyClient × GetStep :=
  (c.store t { c.heap t with state := .unchanged }, .returns (c.heap t))

/-- The head of a wait loop of `get()`. -/
def getLoop (c : MyClient) (n : CString) (t : Ref) (loop : Loop) : MyClient × GetStep :=
  if loop.test (c.heap t).state then ({ c with waittopic := some n }, .waits t loop) else c.take t

/-- `get()` from the first lock on. -/
def getLocked (c : MyClient) (n : CString) (wait : Wait) : MyClient × GetStep :=
  match c.topics[n]? with
  | none => (c, .returns { state := .notfound })
  | some t =>
    let c := { c with waittopic := none }
    if (c.heap t).state = .nodata then
      if wait = .any ∨ wait = .new then c.getLoop n t .nodata
      else (c, .returns { state := .notfound })
    else if wait = .new then c.getLoop n t .unchanged
    else c.take t

/-- `get()` from behind `pthread_cond_wait` on. -/
def getWoken (c : MyClient) (n : CString) (t : Ref) (loop : Loop) : MyClient × GetStep :=
  let c := { c with waittopic := none }
  if c.running then c.getLoop n t loop else (c, .returns { state := .notconnected })

end MyClient

/-! ## Threads -/

/-- Where an application thread is. In `waiting` and `waitingAny` it is inside `pthread_cond_wait`;
it is asleep there while it is among the waiters of `getcond`, and else about to take the mutex. -/
inductive Thread
  | idle
  | entered (n : CString) (wait : Wait)
  | waiting (n : CString) (wait : Wait) (t : Ref) (loop : Loop)
  | waitingAny
  | returned (rv : Topic)
  deriving DecidableEq

/-- Where the receiver's `threadfunc` is: in its loop, behind it, or at its end. -/
inductive Receiver
  | looping
  | left
  | done
  deriving DecidableEq

/-- A client process with application threads `ι`. -/
structure Process (ι : Type) where
  c : MyClient
  threads : ι → Thread
  /-- The threads blocked in `pthread_cond_wait(&getcond,..)`. -/
  getcond : Finset ι
  receiver : Receiver

inductive Label (ι : Type)
  | get (i : ι) (n : CString) (wait : Wait)
  | lock (i : ι)
  | spurious (i : ι)
  | resume (i : ι)
  | waitForAny (i : ι)
  | subscribe (n : CString)
  /-- A packet handled by the receiver; `who` is the waiter its signal wakes. -/
  | packet (p : Bytes) (now : Clock) (who : Option ι)
  /-- `update()` returned false. -/
  | hangup
  /-- `running` was found false. -/
  | leave
  /-- `delete client; running = false;`. -/
  | finish

namespace Process
variable {ι : Type} [DecidableEq ι]

/-- After `pthread_create`, with nobody in `get()`. -/
def start : Process ι where
  c := { running := true }
  threads := fun _ => .idle
  getcond := ∅
  receiver := .looping

def setThread (s : Process ι) (i : ι) (x : Thread) : Process ι :=
  { s with threads := fun j => if j = i then x else s.threads j }

/-- The end of a stretch of `get()` of the thread `i`. -/
def ends (s : Process ι) (i : ι) (n : CString) (wait : Wait) : MyClient × GetStep → Process ι
  | (c, .returns rv) => { s with c := c }.setThread i (.returned rv)
  | (c, .waits t loop) =>
    { s with c := c, getcond := insert i s.getcond }.setThread i (.waiting n wait t loop)

/-- `pthread_cond_signal` wakes one waiter, if there are any. -/
def Wakes (s : Process ι) (who : Option ι) : Prop :=
  match who with
  | some i => i ∈ s.getcond
  | none => s.getcond = ∅

instance (s : Process ι) (who : Option ι) : Decidable (s.Wakes who) := by
  cases who <;> unfold Wakes <;> infer_instance

def wake (s : Process ι) (who : Option ι) : Process ι :=
  { s with getcond := s.getcond.filter fun j => some j ≠ who }

/-- One step. The test of `running` at the head of `get` reads it outside the mutex, so it is a step of
its own; the one at the head of `subscribe` may have been passed at any time before. A fault in the
receiver thread ends the process. -/
def step (s : Process ι) : Label ι → Option (Process ι)
  | .get i n wait =>
    match s.threads i with
    | .idle | .returned _ =>
      if s.c.running then some (s.setThread i (.entered n wait))
      else some (s.setThread i (.returned { state := .notconnected }))
    | _ => none
  | .lock i =>
    match s.threads i with
    | .entered n wait => some (s.ends i n wait (s.c.getLocked n wait))
    | _ => none
  | .spurious i => if i ∈ s.getcond then some (s.wake (some i)) else none
  | .resume i =>
    if i ∈ s.getcond then none
    else
      match s.threads i with
      | .waiting n wait t loop => some (s.ends i n wait (s.c.getWoken n t loop))
      | .waitingAny => some ({ s with c := { s.c with waittopic := none } }.setThread i .idle)
      | _ => none
  | .waitForAny i =>
    match s.threads i with
    | .idle | .returned _ =>
      some ({ s with c := { s.c with waittopic := some (.ofString "") },
                     getcond := insert i s.getcond }.setThread i .waitingAny)
    | _ => none
  | .subscribe n => some { s with c := s.c.subscribe n }
  | .packet p now who =>
    if s.receiver = .looping ∧ s.c.running then
      match s.c.process p now with
      | (_, _, some _) => none
      | (c, false, none) => some { s with c := c }
      | (c, true, none) => if s.Wakes who then some ({ s with c := c }.wake who) else none
    else none
  | .hangup =>
    if s.receiver = .looping ∧ s.c.running then some { s with receiver := .left } else none
  | .leave =>
    if s.receiver = .looping ∧ s.c.running = false then some { s with receiver := .left } else none
  | .finish =>
    if s.receiver = .left then
      some { s with c := { s.c with running := false }, receiver := .done }
    else none

end Process

end DiamondApparatus
