import DiamondApparatus.Client

/-!
# The command line program (`main.cpp`)

* `Datum.text`, `csv`, `headerFrom` : what it prints of a topic. The text of a float is that of `<<`;
* `Printed`, `Listen` : `diamond listen`, from behind `init()` on, with the client library in its process and
  the handler of its signals;
* `Listen.step` : a step of the program, a signal, or a step of the library inside `get()` or of the receiver.

The subscription, the one request of the program, is sent without a failed write: `basesend` would print a line.
-/

namespace DiamondApparatus
open Lib

/-! ## Printing -/

/-- `appendToStringStream` -/
def Datum.text (num : UInt32 → Bytes) : Datum → Bytes
  | .float f => num f
  | .string s => s.bytes

/-- `appendCSVToStringStream`: a comma behind every item but the last. -/
def csv (num : UInt32 → Bytes) : List Datum → Bytes
  | [] => []
  | [q] => q.text num
  | q :: r :: d => q.text num ++ (',').toUInt8 :: csv num (r :: d)

/-- `%d` -/
def digits (i : Nat) : Bytes := (Nat.toDigits 10 i).map Char.toUInt8

/-- The items of the header from the `i`-th on, of `k` that are left. -/
def headerFrom (printedname : Bytes) : Nat → Nat → Bytes
  | _, 0 => []
  | i, k + 1 => printedname ++ digits i ++ (if k = 0 then '\n' else ',').toUInt8 :: headerFrom printedname (i + 1) k

/-- The name in the header; `-s` replaces the slashes. -/
def printedName (replaceSlash : Bool) (topic : CString) : Bytes :=
  topic.bytes.map fun p => if replaceSlash ∧ p = ('/').toUInt8 then ('.').toUInt8 else p

/-! ## `cmdListen` -/

inductive Signal
  | int
  | quit
  deriving DecidableEq

/-- `SIGINT` and `SIGQUIT` -/
def Signal.sig : Signal → Nat
  | int => 2
  | quit => 3

/-- What is printed: by `cmdListen` the header for a topic of so many items, or a topic; and by `handler` the
signal. -/
inductive Printed
  | header (size : Nat)
  | row (d : List Datum)
  | caught (signal : Signal)
  deriving DecidableEq

def Printed.data : Printed → Option (List Datum)
  | row d => some d
  | _ => none

def Printed.signal : Printed → Option Signal
  | caught signal => some signal
  | _ => none

def Printed.text (num : UInt32 → Bytes) (printedname : Bytes) : Printed → Bytes
  | header size => headerFrom printedname 0 size
  | row d => csv num d ++ [('\n').toUInt8]
  | caught signal =>
    (CString.ofString "sig ").bytes ++ digits signal.sig ++ (CString.ofString " caught\n").bytes

/-- Where `cmdListen` is: before `subscribe`, behind it, at the test of its loop, before `get`, inside it, or
behind the loop. `ended` is the way out of `main`, or out of the handler. -/
inductive ListenPc
  | connected
  | subscribed
  | test
  | body
  | getting
  | left
  | ended
  deriving DecidableEq

structure Listen (ι : Type) where
  p : Process ι := .start
  pc : ListenPc := .connected
  headerDone : Bool := false
  listening : Bool := false
  exitListenLoop : Bool := false
  out : List Printed := []

namespace Listen
variable {ι : Type}

inductive Step (ι : Type)
  | subscribe
  /-- `listening=true` -/
  | enter
  | test
  | call
  | print
  /-- `listening=false` -/
  | leave
  /-- `handler` -/
  | signal (signal : Signal)
  /-- A step inside `get()`, or of the receiver. -/
  | library (a : Label ι)

/-- Whether a step of the process is one of the thread `i` inside `get()`, or of the receiver. -/
def ofLibrary [DecidableEq ι] (i : ι) : Label ι → Bool
  | .lock j => j = i
  | .spurious j => j = i
  | .resume j => j = i
  | .packet _ _ _ => true
  | .hangup => true
  | .leave => true
  | .finish => true
  | _ => false

/-- What the loop prints for the topic `t`, with the option `-h` or not. -/
def printed (listenHeaders : Bool) (s : Listen ι) (t : Topic) : List Printed :=
  (if s.headerDone = false ∧ listenHeaders then [.header t.d.length] else []) ++
    if t.isValid then [.row t.d] else []

/-- The program is in the thread `i`. -/
def step [DecidableEq ι] (i : ι) (topic : CString) (listenHeaders : Bool) (s : Listen ι) :
    Step ι → Option (Listen ι)
  | .subscribe =>
    if s.pc = .connected then
      if s.p.c.running then (s.p.step (.subscribe topic)).map fun p => { s with p := p, pc := .subscribed }
      -- the exception goes to the `catch` of `main`
      else some { s with pc := .ended }
    else none
  | .enter => if s.pc = .subscribed then some { s with pc := .test, listening := true } else none
  | .test =>
    if s.pc = .test then
      some { s with pc := if s.p.c.running ∧ s.exitListenLoop = false then .body else .left }
    else none
  | .call =>
    if s.pc = .body then (s.p.step (.get i topic .new)).map fun p => { s with p := p, pc := .getting }
    else none
  | .print =>
    match s.pc, s.p.threads i with
    | .getting, .returned t =>
      some { s with out := s.out ++ s.printed listenHeaders t, headerDone := true, pc := .test }
    | _, _ => none
  | .leave => if s.pc = .left then some { s with pc := .ended, listening := false } else none
  | .signal signal =>
    if s.listening then some { s with exitListenLoop := true }
    else some { s with pc := .ended, out := s.out ++ [.caught signal] }
  | .library a => if ofLibrary i a then (s.p.step a).map fun p => { s with p := p } else none

def labels (i : ι) (topic : CString) (s : Listen ι) : Step ι → List (Label ι)
  | .subscribe => if s.p.c.running then [.subscribe topic] else []
  | .call => [.get i topic .new]
  | .library a => [a]
  | _ => []

/-- The topics that were printed. -/
def rows (s : Listen ι) : List (List Datum) := s.out.filterMap Printed.data

/-- What `cmdListen` has printed. -/
def table (s : Listen ι) : List Printed := s.out.filter fun q => q.signal.isNone

def signals (s : Listen ι) : List Signal := s.out.filterMap Printed.signal

end Listen

end DiamondApparatus
