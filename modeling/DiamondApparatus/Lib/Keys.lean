import Mathlib.Data.Finset.Card
import Mathlib.Data.List.Sort
import Std.Data.ExtTreeMap
import Std.Data.ExtTreeSet

/-!
# The keys of an ordered map

Lookup and membership after `insert`, for a comparison that decides equality, and the list of the keys:

* `mem_insert_iff`, `getElem?_insert_eq` : with equations in place of comparisons;
* `keys_congr` : maps with the same keys list them in the same order, whatever they hold;
  `toList_eq_keys` : so does a set of these keys;
* `card_eq_size` : the size of a map is the number of its keys.
-/

namespace DiamondApparatus.Lib.Keys
open Std

variable {K V W : Type} {ck : K → K → Ordering} [TransCmp ck] [LawfulEqCmp ck]

theorem mem_insert_iff {m : ExtTreeMap K V ck} {k k' : K} {v : V} :
    k' ∈ m.insert k v ↔ k' = k ∨ k' ∈ m := by
  rw [ExtTreeMap.mem_insert, LawfulEqCmp.compare_eq_iff_eq, eq_comm]

theorem getElem?_insert_eq [DecidableEq K] (m : ExtTreeMap K V ck) (k k' : K) (v : V) :
    (m.insert k v)[k']? = if k' = k then some v else m[k']? := by
  rw [ExtTreeMap.getElem?_insert]
  by_cases h : k' = k
  · rw [if_pos h, if_pos (h ▸ ReflCmp.compare_self)]
  · rw [if_neg h, if_neg fun he => h (LawfulEqCmp.eq_of_compare he).symm]

omit [TransCmp ck] in
theorem nodup_of_ordered {l : List K} (hl : l.Pairwise fun a b => ck a b = .lt) : l.Nodup := by
  refine hl.imp ?_
  intro a b hab he
  have hself : ck b b = .eq := ReflCmp.compare_self
  rw [he, hself] at hab
  cases hab

theorem nodup_keys (m : ExtTreeMap K V ck) : m.keys.Nodup := nodup_of_ordered m.ordered_keys

theorem eq_of_ordered {l l' : List K} (hl : l.Pairwise fun a b => ck a b = .lt)
    (hl' : l'.Pairwise fun a b => ck a b = .lt) (h : ∀ k, k ∈ l ↔ k ∈ l') : l = l' := by
  have hperm := (List.perm_ext_iff_of_nodup (nodup_of_ordered hl) (nodup_of_ordered hl')).2 h
  refine hperm.eq_of_pairwise ?_ hl hl'
  intro a b _ _ hab hba
  have hswap : ck a b = (ck b a).swap := OrientedCmp.eq_swap
  rw [hswap, hba] at hab
  cases hab

/-- **The keys are listed in order**, so the list depends on nothing but which keys there are. -/
theorem keys_congr {m : ExtTreeMap K V ck} {m' : ExtTreeMap K W ck} (h : ∀ k, k ∈ m ↔ k ∈ m') :
    m.keys = m'.keys := by
  refine eq_of_ordered m.ordered_keys m'.ordered_keys fun k => ?_
  rw [ExtTreeMap.mem_keys, ExtTreeMap.mem_keys, h]

theorem toList_eq_keys {s : ExtTreeSet K ck} {m : ExtTreeMap K V ck} (h : ∀ k, k ∈ s ↔ k ∈ m) :
    s.toList = m.keys := by
  refine eq_of_ordered s.ordered_toList m.ordered_keys fun k => ?_
  rw [ExtTreeSet.mem_toList, ExtTreeMap.mem_keys, h]

theorem card_eq_size [DecidableEq K] {m : ExtTreeMap K V ck} {f : Finset K} (h : ∀ k, k ∈ f ↔ k ∈ m) :
    f.card = m.size := by
  have hf : f = m.keys.toFinset := by
    ext k
    rw [h, List.mem_toFinset, ExtTreeMap.mem_keys]
  rw [hf, List.toFinset_card_of_nodup (nodup_keys m), ExtTreeMap.length_keys]

end DiamondApparatus.Lib.Keys
