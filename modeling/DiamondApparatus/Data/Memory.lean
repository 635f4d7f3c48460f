import DiamondApparatus.Data
import DiamondApparatus.Lib.Heap
import DiamondApparatus.Lib.Run

/-!
# The memory of topics (`data.h`, `data.cpp`)

A string of a `Datum` lies in a block of its own, which the constructors allocate and the destructor frees.

* `DatumObj` : a `Datum` as an object, with the pointer; `strdup` and the member functions of `Datum`;
* `Vec` : `std::vector<Datum>`, as libstdc++ has it; `TopicObj` : a `Topic` as an object;
* `Store`, `Op`, `Store.step` : any number of topics, and what a program does with them; `Op.plain` : the
  same program on the topics of `Data`.

The storage of the vectors themselves is the library's.
-/

namespace DiamondApparatus
open Lib Assertion

/-- A program on a heap of blocks of bytes. -/
abbrev Mem := Prog Bytes

/-- A `Datum` as an object: the float, or the pointer to the string. -/
inductive DatumObj
  | float (f : UInt32)
  | string (s : Addr)
  deriving DecidableEq

def strdup (s : Addr) : Mem Addr := do
  let m ← Heap.read s
  match CString.ofMem m with
  | some c => Heap.alloc c.mem
  | none => failure

namespace DatumObj

/-- `Datum()` -/
def new : DatumObj := .float 0

/-- `Datum(float f)` and `Datum(const char *s)` -/
def make : Datum → Mem DatumObj
  | .float f => return .float f
  | .string s => return .string (← Heap.alloc s.mem)

/-- `Datum(const Datum& q)` -/
def copy : DatumObj → Mem DatumObj
  | .float f => return .float f
  | .string s => return .string (← strdup s)

/-- `operator=`. What the object held is overwritten. -/
def assign (_ : DatumObj) : DatumObj → Mem DatumObj
  | .float f => return .float f
  | .string s => return .string (← strdup s)

def clr : DatumObj → Mem DatumObj
  | .float _ => return new
  | .string s => do
    Heap.free s
    return new

/-- `~Datum()` -/
def destroy (c : DatumObj) : Mem PUnit := do
  let _ ← c.clr
  return ⟨⟩

end DatumObj

/-! ## `std::vector<Datum>` -/

structure Vec where
  cells : List DatumObj := []
  capacity : Nat := 0
  deriving DecidableEq

namespace Vec

/-- Where the capacity is used up the elements are copied to a new place. -/
def pushBack (v : Vec) (q : DatumObj) : Mem Vec := do
  let c ← q.copy
  if v.cells.length < v.capacity then
    return { v with cells := v.cells ++ [c] }
  else
    let moved ← v.cells.mapM DatumObj.copy
    v.cells.forM DatumObj.destroy
    return { cells := moved ++ [c], capacity := v.cells.length + max v.cells.length 1 }

def clear (v : Vec) : Mem Vec := do
  v.cells.forM DatumObj.destroy
  return { v with cells := [] }

def ofRange (cells : List DatumObj) : Mem Vec := do
  let copies ← cells.mapM DatumObj.copy
  return { cells := copies, capacity := copies.length }

/-- `operator=` from a temporary, since C++11: the elements of the temporary are taken over. -/
def assignMoved (v tmp : Vec) : Mem Vec := do
  v.cells.forM DatumObj.destroy
  return tmp

/-- `operator=` in C++98. Where there is room the elements are assigned one by one. -/
def assignCopied (v tmp : Vec) : Mem Vec := do
  if v.capacity < tmp.cells.length then
    let copies ← tmp.cells.mapM DatumObj.copy
    v.cells.forM DatumObj.destroy
    tmp.cells.forM DatumObj.destroy
    return { cells := copies, capacity := copies.length }
  else
    let firsts ← (v.cells.zip tmp.cells).mapM fun x => x.1.assign x.2
    (v.cells.drop tmp.cells.length).forM DatumObj.destroy
    let rest ← (tmp.cells.drop v.cells.length).mapM DatumObj.copy
    tmp.cells.forM DatumObj.destroy
    return { v with cells := firsts ++ rest }

/-- `operator=` from a temporary; `moves` is whether its elements are taken over. -/
def assignFrom (moves : Bool) (v tmp : Vec) : Mem Vec :=
  if moves then v.assignMoved tmp else v.assignCopied tmp

end Vec

/-! ## `Topic` -/

structure TopicObj where
  d : Vec := {}
  timeLastSet : Option Clock := none
  state : TopicState := .nodata
  deriving DecidableEq

/-- An item of a message: a string is still what the message holds, with any zero bytes. -/
inductive Item
  | float (f : UInt32)
  | bytes (m : Bytes)
  deriving DecidableEq

/-- The head of the item loop of `fromMessage`, up to the `malloc`. -/
def readItem : Bytes → Except Fault (Item × Bytes)
  | [] => .error .outOfBounds
  | t :: p =>
    if t = dtFloat then
      match takeU32 p with
      | none => .error .outOfBounds
      | some (f, p) => .ok (.float f, p)
    else if t = dtString then
      match takeU32 p with
      | none => .error .outOfBounds
      | some (len, p) =>
        if 2 ^ 31 ≤ len.toNat ∨ p.length < len.toNat then .error .outOfBounds
        else if len.toNat = 2 ^ 31 - 1 then .error .nullPointer
        else .ok (.bytes (p.take len.toNat), p.drop len.toNat)
    else .error (.exception "bad data in fromMessage")

/-- The temporary datum of the loop: `malloc(len+1)`, `memcpy` and the terminator. -/
def Item.place : Item → Mem DatumObj
  | .float f => return .float f
  | .bytes m => return .string (← Heap.alloc (m ++ [0]))

/-- The item loop. An exception finds the temporary without a string. -/
def loadItems : Nat → Vec → Bytes → Mem (Vec × Except Fault Bytes)
  | 0, v, p => return (v, .ok p)
  | n + 1, v, p =>
    match readItem p with
    | .error e => return (v, .error e)
    | .ok (i, p) => do
      let t ← i.place
      let v ← v.pushBack t
      t.destroy
      loadItems n v p

namespace TopicObj

/-- `Topic(const Topic& t)` -/
def copy (t : TopicObj) : Mem TopicObj := return { t with d := ← Vec.ofRange t.d.cells }

/-- `operator=` -/
def assign (moves : Bool) (t u : TopicObj) : Mem TopicObj := do
  let tmp ← Vec.ofRange u.d.cells
  let d ← t.d.assignFrom moves tmp
  return { u with d := d }

/-- `add(Datum(..))`: the argument is a temporary. -/
def add (t : TopicObj) (q : Datum) : Mem TopicObj := do
  let tmp ← DatumObj.make q
  let d ← t.d.pushBack tmp
  tmp.destroy
  return { t with d := d }

def clear (t : TopicObj) : Mem TopicObj := return { t with d := ← t.d.clear }

def fromMessage (t : TopicObj) (p : Bytes) : Mem (TopicObj × Except Fault Loaded) := do
  let d ← t.d.clear
  match readHeader p with
  | .error e => return ({ t with d := d }, .error e)
  | .ok (_, count, namelen, p) =>
    let (d, r) ← loadItems count.toNat d (p.drop namelen.toNat)
    return ({ t with d := d }, r.map fun q => ⟨[], q⟩)

/-- `~Topic()` -/
def destroy (t : TopicObj) : Mem PUnit := t.d.cells.forM DatumObj.destroy

end TopicObj

/-! ## Programs -/

inductive Op (κ : Type)
  | make (k : κ)
  /-- `Topic t(u);` -/
  | copy (k j : κ)
  /-- `t = u;` -/
  | assign (k j : κ)
  | add (k : κ) (q : Datum)
  | clear (k : κ)
  | fromMessage (k : κ) (p : Bytes)
  | destroy (k : κ)

/-- A fault that ends the process. An exception can be caught. -/
def Crashes {α : Type} : Except Fault α → Bool
  | .error (.exception _) => false
  | .error _ => true
  | .ok _ => false

/-- The topics that there are, and the heap. -/
structure Store (κ : Type) where
  heap : Heap Bytes := .empty
  objs : κ → Option TopicObj := fun _ => none

namespace Store
variable {κ : Type}

def act (moves : Bool) (objs : κ → Option TopicObj) : Op κ → Option (κ × Mem (Option TopicObj))
  | .make k =>
    match objs k with
    | none => some (k, return some {})
    | some _ => none
  | .copy k j =>
    match objs k, objs j with
    | none, some u => some (k, return some (← u.copy))
    | _, _ => none
  | .assign k j =>
    match objs k, objs j with
    | some t, some u => some (k, return some (← t.assign moves u))
    | _, _ => none
  | .add k q => (objs k).map fun t => (k, return some (← t.add q))
  | .clear k => (objs k).map fun t => (k, return some (← t.clear))
  | .fromMessage k p => (objs k).map fun t => (k, do
      let (t, r) ← t.fromMessage p
      if Crashes r then failure else return some t)
  | .destroy k => (objs k).map fun t => (k, do
      t.destroy
      return none)

variable [DecidableEq κ]

def step (moves : Bool) (S : Store κ) (a : Op κ) : Option (Store κ) :=
  (act moves S.objs a).bind fun x =>
    (x.2 S.heap).map fun o => { heap := o.2, objs := Function.update S.objs x.1 o.1 }

end Store

/-- The same program on the topics of `Data`. -/
def Op.plain {κ : Type} [DecidableEq κ] (T : κ → Option Topic) : Op κ → Option (κ → Option Topic)
  | .make k =>
    match T k with
    | none => some (Function.update T k (some {}))
    | some _ => none
  | .copy k j =>
    match T k, T j with
    | none, some u => some (Function.update T k (some u))
    | _, _ => none
  | .assign k j =>
    match T k, T j with
    | some _, some u => some (Function.update T k (some u))
    | _, _ => none
  | .add k q => (T k).map fun t => Function.update T k (some (t.add q))
  | .clear k => (T k).map fun t => Function.update T k (some t.clear)
  | .fromMessage k p => (T k).bind fun t =>
    let (t, r) := t.fromMessage p false
    if Crashes r then none else some (Function.update T k (some t))
  | .destroy k => (T k).map fun _ => Function.update T k none

end DiamondApparatus
