import DiamondApparatus.Client.Waiting

/-!
# The client, statement by statement

In `Process` a stretch under the mutex is one step. Here it is as many as it has statements, and those
that run without the mutex come between them.

* `GetPc`, `AnyPc`, `RequestPc`, `ProcessPc` : where the holder of the mutex is in `get()`, `waitForAny()`,
  the calls that send, and `process()`;
* `Mutexed`, `Mutexed.step` : the threads, and who holds the mutex. A `request()` that throws leaves
  it locked: nothing unlocks it on the way out;
* `Mutexed.labels` : the steps of `Process` that a statement completes.
-/

namespace DiamondApparatus
open Lib

/-! ## The holder of the mutex -/

/-- In `get()`. `sleeps` is before `pthread_cond_wait`, `woken` and `tests` are behind it. -/
inductive GetPc
  | find
  | resets (t : Ref)
  | first (t : Ref)
  | loop (t : Ref) (l : Loop)
  | asks (t : Ref) (l : Loop)
  | sleeps (t : Ref) (l : Loop)
  | woken (t : Ref) (l : Loop)
  | tests (t : Ref) (l : Loop)
  | copies (t : Ref)
  | marks (t : Ref) (rv : Topic)
  | unlocks (rv : Topic)
  deriving DecidableEq

inductive AnyPc
  | asks
  | sleeps
  | resets
  | unlocks
  deriving DecidableEq

inductive RequestPc
  | inserts (n : CString)
  | sends
  | unlocks
  deriving DecidableEq

/-- In `process()` and `notify()`. `stops` is before `running=false`, and knows who was woken. -/
inductive ProcessPc (ι : Type)
  | head
  | kill
  | killSignals
  | killResets (who : Option ι)
  | stops (woken : Option (Option ι))
  | find
  | decodes (n : CString) (t : Ref)
  | marks (n : CString) (t : Ref)
  | dates (n : CString) (t : Ref)
  | wanted (n : CString)
  | signals
  | resets
  | unlocks
  deriving DecidableEq

inductive Holder (ι : Type)
  | nobody
  | get (i : ι) (n : CString) (wait : Wait) (pc : GetPc)
  | waitForAny (i : ι) (pc : AnyPc)
  | request (i : ι) (pc : RequestPc)
  | process (p : Bytes) (now : Clock) (pc : ProcessPc ι)
  /-- An exception has left it locked. -/
  | leaked
  deriving DecidableEq

/-- A call that is about to take the mutex, `get()` apart. -/
inductive Calling
  | waitForAny
  | subscribe (n : CString)
  /-- `publish`, `killServer`, `clearServer`. -/
  | send
  deriving DecidableEq

structure Mutexed (ι : Type) where
  c : MyClient := { running := true }
  /-- Where the threads are; the holder is where it was when it took the mutex. -/
  threads : ι → Thread := fun _ => .idle
  calls : ι → Option Calling := fun _ => none
  getcond : Finset ι := ∅
  receiver : Receiver := .looping
  /-- The packet that the receiver has read, until it has handled it. -/
  hand : Option (Bytes × Clock) := none
  holder : Holder ι := .nobody

/-- A statement without the mutex, one that takes it, or one of the holder. -/
inductive Statement (ι : Type)
  | get (i : ι) (n : CString) (wait : Wait)
  | call (i : ι) (k : Calling)
  | spurious (i : ι)
  | packet (p : Bytes) (now : Clock)
  | hangup
  | leave
  | finish
  | lock (i : ι)
  | lockReceiver
  | run
  /-- `pthread_cond_signal`, and whom it wakes. -/
  | signal (who : Option ι)
  /-- `request()` throws. -/
  | throws

/-! ## The statements -/

/-- Whether the thread is not in `get()`, nor asleep in `waitForAny()`. -/
def Thread.outside : Thread → Bool
  | .idle => true
  | .returned _ => true
  | _ => false

/-- A statement of `get(n,wait)` that keeps the mutex. -/
def GetPc.next (n : CString) (wait : Wait) (c : MyClient) : GetPc → Option (GetPc × MyClient)
  | find =>
    match c.topics[n]? with
    | none => some (unlocks { state := .notfound }, c)
    | some t => some (resets t, c)
  | resets t => some (first t, { c with waittopic := none })
  | first t =>
    if (c.heap t).state = .nodata then
      if wait = .any ∨ wait = .new then some (loop t .nodata, c) else some (unlocks { state := .notfound }, c)
    else if wait = .new then some (loop t .unchanged, c)
    else some (copies t, c)
  | loop t l => if l.test (c.heap t).state then some (asks t l, c) else some (copies t, c)
  | asks t l => some (sleeps t l, { c with waittopic := some n })
  | woken t l => some (tests t l, { c with waittopic := none })
  | tests t l => if c.running then some (loop t l, c) else some (unlocks { state := .notconnected }, c)
  | copies t => some (marks t (c.heap t), c)
  | marks t rv => some (unlocks rv, c.store t { c.heap t with state := .unchanged })
  | sleeps _ _ => none
  | unlocks _ => none

/-- A statement of `process(p)` that keeps the mutex and signals nobody; none where it throws, or reads
behind the packet. -/
def ProcessPc.next {ι : Type} (p : Bytes) (now : Clock) (c : MyClient) :
    ProcessPc ι → Option (ProcessPc ι × MyClient)
  | head =>
    match takeU32 p with
    | none => none
    | some (type, _) =>
      if type = scKillclient then some (kill, c)
      else if type = scNotify then some (find, c)
      else some (unlocks, c)
  | kill => some (if c.waittopic.isSome then killSignals else stops none, c)
  | killResets who => some (stops (some who), { c with waittopic := none })
  | stops _ => some (unlocks, { c with running := false })
  | find =>
    match nameOfMsg p with
    | .error _ => none
    | .ok name =>
      match c.topics[name]? with
      | none => some (unlocks, c)
      | some t => some (decodes name t, c)
  | decodes name t =>
    match (c.heap t).fromMessage p false with
    | (_, .error _) => none
    | (x, .ok _) => some (marks name t, c.store t x)
  | marks name t => some (dates name t, c.store t { c.heap t with state := .changed })
  | dates name t => some (wanted name, c.store t { c.heap t with timeLastSet := some now })
  | wanted name => some (if c.wanted name then signals else unlocks, c)
  | resets => some (unlocks, { c with waittopic := none })
  | _ => none

namespace Mutexed
variable {ι : Type} [DecidableEq ι]

def setThread (f : Mutexed ι) (i : ι) (x : Thread) : Mutexed ι :=
  { f with threads := fun j => if j = i then x else f.threads j }

def setCall (f : Mutexed ι) (i : ι) (k : Option Calling) : Mutexed ι :=
  { f with calls := fun j => if j = i then k else f.calls j }

/-- The memory as a `Process` has it. -/
def base (f : Mutexed ι) : Process ι where
  c := f.c
  threads := f.threads
  getcond := f.getcond
  receiver := f.receiver

def Free (f : Mutexed ι) (i : ι) : Prop :=
  f.calls i = none ∧ (f.threads i = .idle ∨ ∃ rv, f.threads i = .returned rv)

instance (f : Mutexed ι) (i : ι) : Decidable (f.Free i) :=
  decidable_of_iff (f.calls i = none ∧ (f.threads i).outside = true) (by
    unfold Free
    cases f.threads i <;> simp [Thread.outside])

/-- The first statement behind the lock. -/
def entry (f : Mutexed ι) (i : ι) : Option (Holder ι) :=
  match f.calls i with
  | some .waitForAny => some (.waitForAny i .asks)
  | some (.subscribe n) => some (.request i (.inserts n))
  | some .send => some (.request i .sends)
  | none =>
    match f.threads i with
    | .entered n wait => some (.get i n wait .find)
    | .waiting n wait t l => some (.get i n wait (.woken t l))
    | .waitingAny => some (.waitForAny i .resets)
    | _ => none

/-- `pthread_cond_wait` of the holder. -/
def sleep (f : Mutexed ι) (i : ι) (x : Thread) : Mutexed ι :=
  { f.setThread i x with getcond := insert i f.getcond, holder := .nobody }

/-- A statement of the holder that is no signal. -/
def run (f : Mutexed ι) : Option (Mutexed ι) :=
  match f.holder with
  | .get i n wait (.sleeps t l) => some (f.sleep i (.waiting n wait t l))
  | .get i _ _ (.unlocks rv) => some { f.setThread i (.returned rv) with holder := .nobody }
  | .get i n wait pc => (pc.next n wait f.c).map fun x => { f with c := x.2, holder := .get i n wait x.1 }
  | .waitForAny i .asks =>
    some { f with c := { f.c with waittopic := some (.ofString "") }, holder := .waitForAny i .sleeps }
  | .waitForAny i .sleeps => some ((f.setCall i none).sleep i .waitingAny)
  | .waitForAny i .resets =>
    some { f with c := { f.c with waittopic := none }, holder := .waitForAny i .unlocks }
  | .waitForAny i .unlocks => some { f.setThread i .idle with holder := .nobody }
  | .request i (.inserts n) => some { f with c := f.c.subscribe n, holder := .request i .sends }
  | .request i .sends => some { f with holder := .request i .unlocks }
  | .request i .unlocks => some { f.setCall i none with holder := .nobody }
  | .process _ _ .unlocks => some { f with hand := none, holder := .nobody }
  | .process p now pc => (pc.next p now f.c).map fun x => { f with c := x.2, holder := .process p now x.1 }
  | .nobody => none
  | .leaked => none

/-- Where `process()` is behind its signal. -/
def signalled (who : Option ι) : ProcessPc ι → Option (ProcessPc ι)
  | .killSignals => some (.killResets who)
  | .signals => some .resets
  | _ => none

def wake (f : Mutexed ι) (who : Option ι) : Mutexed ι :=
  { f with getcond := f.getcond.filter fun j => some j ≠ who }

def step (f : Mutexed ι) : Statement ι → Option (Mutexed ι)
  | .get i n wait =>
    if f.Free i then
      some (f.setThread i (if f.c.running then .entered n wait else .returned { state := .notconnected }))
    else none
  | .call i k =>
    if f.Free i then
      -- only `waitForAny` does not test `running`
      if f.c.running ∨ k = .waitForAny then some (f.setCall i (some k)) else some f
    else none
  | .spurious i => if i ∈ f.getcond then some (f.wake (some i)) else none
  | .packet p now =>
    if f.receiver = .looping ∧ f.c.running ∧ f.hand = none then some { f with hand := some (p, now) }
    else none
  | .hangup =>
    if f.receiver = .looping ∧ f.c.running ∧ f.hand = none then some { f with receiver := .left }
    else none
  | .leave =>
    if f.receiver = .looping ∧ f.c.running = false ∧ f.hand = none then some { f with receiver := .left }
    else none
  | .finish =>
    if f.receiver = .left then some { f with c := { f.c with running := false }, receiver := .done }
    else none
  | .lock i =>
    if f.holder = .nobody ∧ i ∉ f.getcond then (f.entry i).map fun h => { f with holder := h } else none
  | .lockReceiver =>
    match f.holder, f.hand with
    | .nobody, some (p, now) => some { f with holder := .process p now .head }
    | _, _ => none
  | .run => f.run
  | .signal who =>
    match f.holder with
    | .process p now pc =>
      if f.base.Wakes who then
        (signalled who pc).map fun pc => { f.wake who with holder := .process p now pc }
      else none
    | _ => none
  | .throws =>
    match f.holder with
    | .request i .sends => some { f.setCall i none with holder := .leaked }
    | _ => none

/-! ## What the statements complete -/

/-- A statement of `process()` that decides that it signals nobody completes it, `running=false` too. -/
def completes (p : Bytes) (now : Clock) (c : MyClient) : ProcessPc ι → List (Label ι)
  | .stops woken => [.packet p now woken.join]
  | .resets => []
  | pc => if (pc.next p now c).map Prod.fst = some .unlocks then [.packet p now none] else []

def labels (f : Mutexed ι) : Statement ι → List (Label ι)
  | .get i n wait => [.get i n wait]
  | .spurious i => [.spurious i]
  | .hangup => [.hangup]
  | .leave => [.leave]
  | .finish => [.finish]
  | .lock i =>
    match f.calls i with
    | some .waitForAny => [.waitForAny i]
    | some (.subscribe n) => [.subscribe n]
    | some .send => []
    | none =>
      match f.threads i with
      | .entered _ _ => [.lock i]
      | .waitingAny => [.resume i]
      | _ => []
  | .run =>
    match f.holder with
    | .get i _ _ (.tests _ _) => [.resume i]
    | .process p now pc => completes p now f.c pc
    | _ => []
  | .signal who =>
    match f.holder with
    | .process p now .signals => [.packet p now who]
    | _ => []
  | _ => []

end Mutexed

end DiamondApparatus
