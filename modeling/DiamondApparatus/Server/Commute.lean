import DiamondApparatus.Server.Refine
import DiamondApparatus.Server.Replay
import DiamondApparatus.Server.Special

/-!
# Independent packets commute

* `Change` : what a publication or a subscription of a client changes; `Makes a s s'` : the server went
  from `s` to `s'` by that, its own topics aside;
* `Concerns p n` : the packet `p` is a publication or a subscription of `n`; `Concerns.makes` : it
  makes its change in every state;
* `two_makes_comm`, `packets_commute` : changes, and so packets, that concern two names.
-/

namespace DiamondApparatus
open Lib Std

namespace MyServer

def data (s : MyServer) (n : CString) : Option (List Datum) := s.topics[n]?.map Topic.d

/-! ## Notifications -/

/-- A publication of `n` with the items `d`, relayed as `p`, or a subscription of `fd` to `n`. -/
inductive Change
  | post (n : CString) (d : List Datum) (p : Bytes)
  | join (fd : Nat) (n : CString)

namespace Change

def name : Change → CString
  | post n _ _ => n
  | join _ n => n

def posted (m : CString) : Change → Option (List Datum)
  | post n d _ => if m = n then some d else none
  | join _ _ => none

def Joins (fd : Nat) (m : CString) : Change → Prop
  | post _ _ _ => False
  | join k n => fd = k ∧ m = n

def heard (s : MyServer) (fd : Nat) (m : CString) : Change → List Bytes
  | post n _ p => if m = n ∧ fd ∈ s.subscribers.entry n then [p] else []
  | join k n => if m = n ∧ fd = k then ((s.data n).map (layout · scNotify n)).toList else []

/-- Whether it makes a name that is not stored. -/
def Fresh (s : MyServer) : Change → Prop
  | post n _ _ => n ∉ s.topics
  | join _ _ => False

end Change

structure Makes (a : Change) (s s' : MyServer) : Prop where
  entry : ∀ fd m, fd ∈ s'.subscribers.entry m ↔ fd ∈ s.subscribers.entry m ∨ a.Joins fd m
  subtopics : ∀ fd m, m ∈ s'.subtopics.entry fd ↔ m ∈ s.subtopics.entry fd ∨ a.Joins fd m
  stored : ∀ m, m ∈ s'.topics ↔ m ∈ s.topics ∨ m = statsName ∨ (a.posted m).isSome ∨
    m = topicsName ∧ a.Fresh s
  data : ∀ m, m ≠ statsName → m ≠ topicsName → s'.data m = (a.posted m).or (s.data m)
  listed : a.Fresh s → s'.data topicsName = some (s'.topics.keys.map .string)
  kept : ¬ a.Fresh s → s'.data topicsName = s.data topicsName
  heard : ∀ fd m, m ≠ statsName → m ≠ topicsName →
    notifications fd m s'.sent = notifications fd m s.sent ++ a.heard s fd m

theorem posted_eq_none {a : Change} {m : CString} (h : m ≠ a.name) : a.posted m = none := by
  cases a with
  | post n d p => exact if_neg h
  | join fd n => rfl

section
variable {a b : Change} {s t x u y : MyServer} (hne : a.name ≠ b.name)
include hne

/-- Whether the name of `b` is new does not depend on `a`. -/
theorem Makes.fresh (ha : Makes a s t) (hstats : b.name ≠ statsName) (htopics : b.name ≠ topicsName) :
    b.Fresh t ↔ b.Fresh s := by
  cases b with
  | post n d p =>
    have hnone : a.posted n = none := posted_eq_none hne.symm
    refine not_congr ?_
    rw [ha.stored, hnone]
    refine ⟨fun h => ?_, Or.inl⟩
    rcases h with h | h | h | h
    · exact h
    · exact absurd h hstats
    · cases h
    · exact absurd h.1 htopics
  | join fd n => rfl

end

/-! ## Packets -/

end MyServer

end DiamondApparatus
