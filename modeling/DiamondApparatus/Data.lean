import DiamondApparatus.Lib.Buffer
import Mathlib.Data.Nat.Log

/-!
# Datums, topics and the topic message (`data.h`, `data.cpp`)

* `Datum` : a float (its 32 bits) or a C string; `Topic` : the items, the state the client keeps for
  `get()` and the time of the last update;
* `Topic.toMessage` : the sizing pass (`messageSize`) and the filling pass (`fill`, a list of writes
  into the allocated buffer). `strcpy` copies the whole name although the sizing pass clamps it to
  128 bytes, so for a longer name some writes leave the buffer or are written over by the items;
* `IntSized`, `Topic.toMessageInt` : the size is an `int`, and where it overflows there is no message;
* `Topic.fromMessage` : the cursor walk over the readable memory from the packet's address on;
* `getNameFromMsg` : the pointer behind the fixed header.
-/

namespace DiamondApparatus
open Lib

/-- What ends a handler early: a read past the readable memory, an access through a null pointer,
or a `DiamondException`. -/
inductive Fault
  | outOfBounds
  | nullPointer
  | exception (what : String)
  deriving DecidableEq, Repr

/-! ## Datums -/

def dtFloat : UInt8 := 0
def dtString : UInt8 := 1

/-- A `Datum`: `DT_FLOAT` with the bits of the float, or `DT_STRING`. -/
inductive Datum
  | float (f : UInt32)
  | string (s : CString)
  deriving DecidableEq

/-- `n / 2 ^ k` rounded to the nearest integer, ties to the even one. -/
def roundEven (n k : Nat) : Nat :=
  let q := n / 2 ^ k
  let r := n % 2 ^ k
  if 2 * r > 2 ^ k ∨ (2 * r = 2 ^ k ∧ q % 2 = 1) then q + 1 else q

/-- The bits of the float that `n` converts to. -/
def floatBits (n : Nat) : UInt32 :=
  if n = 0 then 0
  else
    let e := Nat.log2 n
    let m := if e ≤ 23 then n * 2 ^ (23 - e) else roundEven n (e - 23)
    UInt32.ofNat ((127 + e) * 2 ^ 23 + (m - 2 ^ 23))

/-- `Datum(n)` for an integer `n`: the constructor from `float` is the one that applies. -/
def Datum.ofNat (n : Nat) : Datum := .float (floatBits n)

def Datum.ofString (s : String) : Datum := .string (CString.ofString s)

/-! ## Topics -/

inductive TopicState
  | nodata
  | unchanged
  | changed
  | notfound
  | notconnected
  deriving DecidableEq, Repr

/-- A clock reading of `Time::now()`, in ticks of the monotonic clock. -/
abbrev Clock := Nat

structure Topic where
  d : List Datum := []
  /-- `none` is the code's `-1`: never set. -/
  timeLastSet : Option Clock := none
  state : TopicState := .nodata
  deriving DecidableEq

namespace Topic

def add (t : Topic) (q : Datum) : Topic := { t with d := t.d ++ [q] }

def clear (t : Topic) : Topic := { t with d := [] }

def isValid (t : Topic) : Bool := t.state == .unchanged || t.state == .changed

end Topic

/-! ## `toMessage` -/

/-- `namelen`: the clamped length of the name, with its terminator. -/
def nameLen (name : CString) : Nat := min name.length 128 + 1

/-- The bytes of an item in the message. -/
def Datum.size : Datum → Nat
  | .float _ => 1 + 4
  | .string s => 1 + 4 + s.length

/-- The sizing pass. -/
def messageSize (d : List Datum) (name : CString) : Nat :=
  4 + 4 + (nameLen name + 1) + (d.map Datum.size).sum

/-- The writes for one item at the cursor `p`. -/
def Datum.fill (p : Nat) : Datum → List Write
  | .float f => [⟨p, [dtFloat]⟩, ⟨p + 1, be32 f⟩]
  | .string s => [⟨p, [dtString]⟩, ⟨p + 1, be32 (UInt32.ofNat s.length)⟩, ⟨p + 5, s.bytes⟩]

/-- The writes for the items from the cursor `p` on, and the cursor behind them. -/
def fillItems : List Datum → Nat → List Write × Nat
  | [], p => ([], p)
  | i :: d, p =>
    let rest := fillItems d (p + i.size)
    (i.fill p ++ rest.1, rest.2)

/-- The filling pass: its writes in order, and the cursor at its end. -/
def fill (d : List Datum) (msgtype : UInt32) (name : CString) : List Write × Nat :=
  let items := fillItems d (9 + nameLen name)
  (⟨0, be32 msgtype⟩ :: ⟨4, be32 (UInt32.ofNat d.length)⟩ :: ⟨8, [UInt8.ofNat (nameLen name)]⟩ ::
    ⟨9, name.mem⟩ :: items.1, items.2)

/-- What an `int` holds of `n`. -/
def intOf (n : Nat) : Int := (n : Int).bmod (2 ^ 32)

theorem intOf_fits_iff (n : Nat) : (¬ intOf n < 0 ∧ ¬ intOf n < n) ↔ n < 2 ^ 31 := by
  unfold intOf
  rw [Int.bmod]
  omega

theorem intOf_neg {n : Nat} (hlow : 2 ^ 31 ≤ n) (hhigh : n < 2 ^ 32) : intOf n < 0 := by
  unfold intOf
  rw [Int.bmod]
  omega

/-- `*size` holds the size of the message. -/
abbrev IntSized (d : List Datum) (name : CString) : Prop := messageSize d name < 2 ^ 31

/-- The buffer `toMessage` returns where `*size` holds its length. Fresh memory is taken to be zero:
the filling pass covers all of it. -/
def Topic.toMessage (t : Topic) (msgtype : UInt32) (name : CString) : Bytes :=
  runWrites (List.replicate (messageSize t.d name) 0) (fill t.d msgtype name).1

/-- `toMessage` with its `int *size`: for a negative one `malloc` gives null, and a buffer that has
become too small is left by the filling pass. -/
def Topic.toMessageInt (t : Topic) (msgtype : UInt32) (name : CString) : Except Fault Bytes :=
  let size := intOf (messageSize t.d name)
  if size < 0 then .error .nullPointer
  else if size < messageSize t.d name then .error .outOfBounds
  else .ok (t.toMessage msgtype name)

/-! ## `fromMessage` -/

/-- `getNameFromMsg`: the pointer behind the message type, the item count and the name length. -/
def getNameFromMsg (p : Bytes) : Bytes := p.drop 9

def nameOfMsg (p : Bytes) : Except Fault CString :=
  match CString.ofMem (getNameFromMsg p) with
  | some name => .ok name
  | none => .error .outOfBounds

/-- The message type, item count and name length, and the cursor behind them. -/
def readHeader (p : Bytes) : Except Fault (UInt32 × UInt32 × UInt8 × Bytes) :=
  match takeU32 p with
  | none => .error .outOfBounds
  | some (msg, p) =>
    match takeU32 p with
    | none => .error .outOfBounds
    | some (_, []) => .error .outOfBounds
    | some (count, namelen :: p) => .ok (msg, count, namelen, p)

/-- The string item of `len` bytes at the cursor. `len` is an `int` in the code: a negative one is
copied as a `size_t` beyond any memory, and for the largest one `len+1` overflows and `malloc`
gives null. The pushed copy of the item ends at the first zero byte (`strdup`). -/
def readString (len : UInt32) (p : Bytes) : Except Fault (Datum × Bytes) :=
  if 2 ^ 31 ≤ len.toNat ∨ p.length < len.toNat then .error .outOfBounds
  else if len.toNat = 2 ^ 31 - 1 then .error .nullPointer
  else .ok (.string (CString.cut (p.take len.toNat)), p.drop len.toNat)

/-- One item at the cursor, and the cursor behind it. -/
def readDatum : Bytes → Except Fault (Datum × Bytes)
  | [] => .error .outOfBounds
  | t :: p =>
    if t = dtFloat then
      match takeU32 p with
      | none => .error .outOfBounds
      | some (f, p) => .ok (.float f, p)
    else if t = dtString then
      match takeU32 p with
      | none => .error .outOfBounds
      | some (len, p) => readString len p
    else .error (.exception "bad data in fromMessage")

/-- The item loop: the items pushed onto `d`, also when it ends in a fault, and the cursor. -/
def readItems : Nat → List Datum → Bytes → List Datum × Except Fault Bytes
  | 0, d, p => (d, .ok p)
  | n + 1, d, p =>
    match readDatum p with
    | .error e => (d, .error e)
    | .ok (t, p) => readItems n (d ++ [t]) p

/-- What `fromMessage` leaves beside the items: the name buffer and the cursor at its end. -/
structure Loaded where
  namebuf : Bytes
  cursor : Bytes
  deriving DecidableEq, Repr

/-- `fromMessage`, with or without a name buffer. The topic keeps the items decoded before a fault. -/
def Topic.fromMessage (t : Topic) (p : Bytes) (namebuf : Bool) :
    Topic × Except Fault Loaded :=
  match readHeader p with
  | .error e => (t.clear, .error e)
  | .ok (_, count, namelen, p) =>
    if namebuf ∧ p.length < namelen.toNat then (t.clear, .error .outOfBounds)
    else
      let name := if namebuf then p.take namelen.toNat ++ [0] else []
      let items := readItems count.toNat [] (p.drop namelen.toNat)
      ({ t with d := items.1 }, items.2.map fun q => ⟨name, q⟩)

end DiamondApparatus
