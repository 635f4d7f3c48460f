import DiamondApparatus.Lib.Buffer

/-!
# Receiving blocks (`TCPReceiver` in `tcp.h`)

* `Socket` : what the environment gives to the receiver, the bytes and ends of stream still to
  arrive and the outcomes of the coming `malloc` calls; it also records the `read` calls made;
* `TCPReceiver.phase1`, `phase2` : the two `if`s in the body of the receive loop;
* `TCPReceiver.update` : one call, and `calls` : call after call until one blocks for good.

The host is little-endian: the first byte of `recvsize` in memory is its least significant one.
-/

namespace DiamondApparatus
open Lib

/-! ## The environment -/

/-- What the next `read` finds: some bytes (at least one), the end of the stream, or an error. -/
inductive Arrival
  | data (b : UInt8) (bs : Bytes)
  | eof
  | error
  deriving DecidableEq, Repr

def Arrival.bytes : Arrival → Bytes
  | .data b bs => b :: bs
  | _ => []

/-- Where a `read` puts its bytes. -/
inductive Dest
  | recvsize
  | recvdata
  deriving DecidableEq, Repr

/-- A `read` call: its destination, the offset in it, and the number of bytes asked for. -/
structure Request where
  dest : Dest
  off : Nat
  count : Nat
  deriving DecidableEq, Repr

structure Socket where
  arrivals : List Arrival
  /-- The outcomes of the coming `malloc` calls; when there are no more, they succeed. -/
  mallocs : List Bool := []
  requests : List Request := []
  deriving DecidableEq, Repr

/-- The result of a `read` that returns: bytes, or none and whether the result was negative. -/
inductive ReadResult
  | got (bs : Bytes)
  | none (neg : Bool)
  deriving DecidableEq, Repr

/-- The most bytes one `read` transfers, so that its result fits the `int` it is stored in. -/
def MAX_RW_COUNT : Nat := 0x7ffff000

/-- The arrivals after the bytes `rest` of the first one were left unread. -/
def putBack (rest : Bytes) (as : List Arrival) : List Arrival :=
  match rest with
  | [] => as
  | b :: bs => .data b bs :: as

namespace Socket

/-- One `read` call; without a result it blocks. -/
def read (s : Socket) (q : Request) : Socket × Option ReadResult :=
  let s := { s with requests := s.requests ++ [q] }
  if q.count = 0 then (s, some (.none false))
  else
    match s.arrivals with
    | [] => (s, none)
    | .eof :: as => ({ s with arrivals := as }, some (.none false))
    | .error :: as => ({ s with arrivals := as }, some (.none true))
    | .data b bs :: as =>
      let n := min q.count MAX_RW_COUNT
      ({ s with arrivals := putBack ((b :: bs).drop n) as }, some (.got ((b :: bs).take n)))

/-- `malloc(n)`: a buffer, or null. -/
def malloc (s : Socket) (n : Nat) : Socket × Option Bytes :=
  match s.mallocs with
  | [] => (s, some (List.replicate n 0))
  | ok :: rest => ({ s with mallocs := rest }, if ok then some (List.replicate n 0) else none)

/-- A bound for the number of `read` calls that find something. -/
def pending (s : Socket) : Nat := (s.arrivals.map fun a => a.bytes.length + 1).sum

end Socket

/-! ## The receiver -/

structure TCPReceiver where
  fd : Nat := 0
  recvct : UInt32 := 0
  /-- `none` is the null pointer. -/
  recvdata : Option Bytes := none
  recvsize : UInt32 := 0
  portClosed : Bool := false
  isForceExit : Bool := false
  deriving DecidableEq, Repr

/-- `bs` copied into the memory of the word `w` from the byte `off` on. -/
def pokeWord (w : UInt32) (off : Nat) (bs : Bytes) : UInt32 := ofLe32 (overlay (le32 w) off bs)

/-- `ntohl` on a little-endian host. -/
def ntohl (w : UInt32) : UInt32 :=
  let m := le32 w
  ofBe32 (m.getD 0 0) (m.getD 1 0) (m.getD 2 0) (m.getD 3 0)

/-- How a call of `update` ends: it returns, after `process` handled a packet or without one; it is
left by an exception of `process`; or its last `read` blocks. -/
inductive CallEnd
  | returned (rv : Bool)
  | complete (packet : Bytes)
  | thrown (packet : Bytes)
  | blocked
  deriving DecidableEq, Repr

def CallEnd.packet : CallEnd → Option Bytes
  | .complete p => some p
  | .thrown p => some p
  | _ => none

structure Call where
  recv : TCPReceiver
  sock : Socket
  result : CallEnd
  deriving DecidableEq, Repr

/-- A part of the loop body: the call ends in it, or control goes on. -/
inductive Flow
  | done (c : Call)
  | next (r : TCPReceiver) (s : Socket) (rv : Bool)
  deriving DecidableEq, Repr

namespace TCPReceiver

/-- First phase: get the message size. -/
def phase1 (r : TCPReceiver) (s : Socket) (rv : Bool) : Flow :=
  if r.recvdata.isSome then .next r s rv
  else
    match s.read ⟨.recvsize, r.recvct.toNat, (2 ^ 64 + 4 - r.recvct.toNat) % 2 ^ 64⟩ with
    | (s, none) => .done ⟨r, s, .blocked⟩
    | (s, some (.none neg)) => .done ⟨{ r with portClosed := r.portClosed || neg }, s, .returned rv⟩
    | (s, some (.got bs)) =>
      let r : TCPReceiver :=
        { r with recvsize := pokeWord r.recvsize r.recvct.toNat bs,
                 recvct := r.recvct + UInt32.ofNat bs.length }
      if r.recvct = 4 then
        let size := ntohl r.recvsize
        let (s, buf) := s.malloc size.toNat
        .next { r with recvsize := size, recvdata := buf, recvct := 0 } s true
      else .next r s true

def reset (r : TCPReceiver) : TCPReceiver :=
  { r with recvct := 0, recvdata := none, recvsize := 0 }

/-- Second phase: have a buffer to get the actual data into. `throws` tells the packets on which
`process` throws. -/
def phase2 (throws : Bytes → Bool) (r : TCPReceiver) (s : Socket) (rv : Bool) : Flow :=
  match r.recvdata with
  | none => .next r s rv
  | some buf =>
    match s.read ⟨.recvdata, r.recvct.toNat, (r.recvsize - r.recvct).toNat⟩ with
    | (s, none) => .done ⟨r, s, .blocked⟩
    | (s, some (.none neg)) => .done ⟨{ r with portClosed := r.portClosed || neg }, s, .returned rv⟩
    | (s, some (.got bs)) =>
      let buf := overlay buf r.recvct.toNat bs
      let r : TCPReceiver :=
        { r with recvdata := some buf, recvct := r.recvct + UInt32.ofNat bs.length }
      if r.recvct = r.recvsize then
        if throws buf then .done ⟨r, s, .thrown buf⟩ else .done ⟨r.reset, s, .complete buf⟩
      else .next r s true

/-- The receive loop. Every turn that goes on has used up a part of the arrivals, so `pending` turns
and one more are enough. -/
def updateLoop (throws : Bytes → Bool) : Nat → TCPReceiver → Socket → Bool → Call
  | 0, r, s, _ => ⟨r, s, .blocked⟩
  | n + 1, r, s, rv =>
    match r.phase1 s rv with
    | .done c => c
    | .next r s rv =>
      match r.phase2 throws s rv with
      | .done c => c
      | .next r s rv =>
        if r.isForceExit then ⟨r, s, .returned false⟩ else updateLoop throws n r s rv

def update (throws : Bytes → Bool) (r : TCPReceiver) (s : Socket) : Call :=
  updateLoop throws (s.pending + 1) r s false

/-- The receiver and its socket after a call, if it does not block; `throws` is for this call alone. -/
def callStep (x : TCPReceiver × Socket) (throws : Bytes → Bool) : Option (TCPReceiver × Socket) :=
  let c := x.1.update throws x.2
  if c.result = .blocked then none else some (c.recv, c.sock)

/-- The ends of up to `k` calls, one after the other; a call that blocks is the last. -/
def calls (throws : Bytes → Bool) : Nat → TCPReceiver → Socket → List CallEnd
  | 0, _, _ => []
  | k + 1, r, s =>
    let c := r.update throws s
    if c.result = .blocked then [.blocked] else c.result :: calls throws k c.recv c.sock

end TCPReceiver

end DiamondApparatus
