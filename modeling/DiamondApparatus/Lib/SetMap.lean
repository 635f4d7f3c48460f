import Std.Data.ExtTreeMap
import Std.Data.ExtTreeSet
import Mathlib.Data.List.Nodup

/-!
# Maps of sets under `operator[]`

`std::map<K,std::set<X>>` as an extensional ordered map of ordered sets. A missing key reads as the
empty set (`entry`), and `m[k]` creates it.

* `SetMap.add`, `SetMap.remove` : `m[k].insert(x)` and `m[k].erase(x)`;
* `SetMap.removeAll` : `m[k].erase(x)` for all `k` of a list;
* `entry_touch`, `mem_entry_add`, `mem_entry_erase`, `mem_entry_removeAll` : the relation
  `x ∈ entry m k` after each of them.
-/

namespace DiamondApparatus.Lib
open Std

abbrev SetMap (K X : Type) (ck : K → K → Ordering) (cx : X → X → Ordering) :=
  ExtTreeMap K (ExtTreeSet X cx) ck

namespace SetMap
variable {K X : Type} {ck : K → K → Ordering} {cx : X → X → Ordering} [TransCmp ck] [TransCmp cx]

def entry (m : SetMap K X ck cx) (k : K) : ExtTreeSet X cx := m.getD k ∅

/-- `m[k]`: the entry is there afterwards. -/
def touch (m : SetMap K X ck cx) (k : K) : SetMap K X ck cx := m.insertIfNew k ∅

def add (m : SetMap K X ck cx) (k : K) (x : X) : SetMap K X ck cx := m.insert k ((entry m k).insert x)

def remove (m : SetMap K X ck cx) (k : K) (x : X) : SetMap K X ck cx := m.insert k ((entry m k).erase x)

def removeAll (m : SetMap K X ck cx) (ks : List K) (x : X) : SetMap K X ck cx :=
  ks.foldl (fun m k => remove m k x) m

theorem not_mem_entry_empty (k : K) (x : X) : x ∉ entry (∅ : SetMap K X ck cx) k := by
  simp [entry]

theorem mem_of_mem_entry {m : SetMap K X ck cx} {k : K} {x : X} (h : x ∈ entry m k) : k ∈ m := by
  by_contra hk
  rw [entry, ExtTreeMap.getD_eq_fallback hk] at h
  simp at h

section
variable [LawfulEqCmp ck]

omit [TransCmp cx] in
theorem entry_touch (m : SetMap K X ck cx) (k k' : K) : entry (touch m k) k' = entry m k' := by
  unfold entry touch
  rw [ExtTreeMap.getD_insertIfNew]
  split
  · next h =>
    obtain ⟨heq, hk⟩ := h
    rw [LawfulEqCmp.eq_of_compare heq] at hk
    rw [ExtTreeMap.getD_eq_fallback hk]
  · rfl

omit [TransCmp cx] in
theorem mem_touch {m : SetMap K X ck cx} {k k' : K} : k' ∈ touch m k ↔ k' = k ∨ k' ∈ m := by
  unfold touch
  rw [ExtTreeMap.mem_insertIfNew, LawfulEqCmp.compare_eq_iff_eq, eq_comm]

theorem mem_add {m : SetMap K X ck cx} {k k' : K} {x : X} : k' ∈ add m k x ↔ k' = k ∨ k' ∈ m := by
  unfold add
  rw [ExtTreeMap.mem_insert, LawfulEqCmp.compare_eq_iff_eq, eq_comm]

theorem mem_entry_erase (m : SetMap K X ck cx) (k k' : K) (x : X) :
    x ∈ entry (m.erase k) k' ↔ k' ≠ k ∧ x ∈ entry m k' := by
  unfold entry
  rw [ExtTreeMap.getD_erase]
  split
  · next h => simp [LawfulEqCmp.eq_of_compare h]
  · next h =>
    have hne : k' ≠ k := fun he => h (he ▸ ReflCmp.compare_self)
    simp [hne]

variable [LawfulEqCmp cx]

theorem mem_entry_add (m : SetMap K X ck cx) (k k' : K) (x y : X) :
    y ∈ entry (add m k x) k' ↔ (k' = k ∧ y = x) ∨ y ∈ entry m k' := by
  unfold add entry
  rw [ExtTreeMap.getD_insert]
  split
  · next h =>
    rw [LawfulEqCmp.eq_of_compare h, ExtTreeSet.mem_insert, LawfulEqCmp.compare_eq_iff_eq, eq_comm]
    simp
  · next h =>
    have hne : k' ≠ k := fun he => h (he ▸ ReflCmp.compare_self)
    simp [hne]

theorem mem_entry_remove (m : SetMap K X ck cx) (k k' : K) (x y : X) :
    y ∈ entry (remove m k x) k' ↔ y ∈ entry m k' ∧ ¬ (k' = k ∧ y = x) := by
  unfold remove entry
  rw [ExtTreeMap.getD_insert]
  split
  · next h =>
    rw [LawfulEqCmp.eq_of_compare h, ExtTreeSet.mem_erase, ne_eq, LawfulEqCmp.compare_eq_iff_eq,
      and_comm, eq_comm]
    simp
  · next h =>
    have hne : k' ≠ k := fun he => h (he ▸ ReflCmp.compare_self)
    simp [hne]

theorem mem_entry_removeAll (ks : List K) (m : SetMap K X ck cx) (k : K) (x y : X) :
    y ∈ entry (removeAll m ks x) k ↔ y ∈ entry m k ∧ ¬ (k ∈ ks ∧ y = x) := by
  unfold removeAll
  induction ks generalizing m with
  | nil => simp
  | cons j ks ih =>
    rw [List.foldl_cons, ih, mem_entry_remove, List.mem_cons]
    tauto

omit [LawfulEqCmp cx] in
theorem mem_removeAll (ks : List K) (m : SetMap K X ck cx) (k : K) (x : X) :
    k ∈ removeAll m ks x ↔ k ∈ ks ∨ k ∈ m := by
  unfold removeAll
  induction ks generalizing m with
  | nil => simp
  | cons j ks ih =>
    rw [List.foldl_cons, ih, remove, ExtTreeMap.mem_insert, LawfulEqCmp.compare_eq_iff_eq,
      List.mem_cons, eq_comm]
    tauto

end

theorem filter_toList [LawfulEqCmp cx] [DecidableEq X] (t : ExtTreeSet X cx) (x : X) :
    t.toList.filter (fun y => decide (y = x)) = if x ∈ t then [x] else [] := by
  have hnodup : t.toList.Nodup := by
    refine t.distinct_toList.imp ?_
    intro a b hab he
    exact hab (he ▸ ReflCmp.compare_self)
  have hcount : t.toList.filter (fun y => decide (y = x)) = List.replicate (t.toList.count x) x := by
    rw [← List.filter_beq]
    rfl
  rw [hcount, hnodup.count]
  simp only [ExtTreeSet.mem_toList]
  split_ifs <;> rfl

end SetMap

end DiamondApparatus.Lib
