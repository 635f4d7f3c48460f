import DiamondApparatus.Client.Waiting
import DiamondApparatus.Data.RoundTrip

/-!
# The data a client holds

* `MyClient.copyOf c n` : the items of the `Topic` that the map has for `n`;
* `subscribe_copyOf`, `message_copyOf` : a subscription empties the copy of its topic, a notification
  replaces that of its own; `copyOf_step` : nothing else touches one.
-/

namespace DiamondApparatus
open Lib Std

namespace MyClient

def copyOf (c : MyClient) (n : CString) : Option (List Datum) :=
  c.topics[n]?.map fun t => (c.heap t).d

theorem mem_topics {c : MyClient} {n : CString} : n ∈ c.topics ↔ (c.copyOf n).isSome := by
  rw [ExtTreeMap.mem_iff_isSome_getElem?, copyOf, Option.isSome_map]

theorem copyOf_of_eq {c c' : MyClient} (ht : c'.topics = c.topics) (hh : c'.heap = c.heap) :
    c'.copyOf = c.copyOf := by
  funext n
  rw [copyOf, copyOf, ht, hh]

theorem copyOf_store (c : MyClient) (t : Ref) {x : Topic} (h : x.d = (c.heap t).d) :
    (c.store t x).copyOf = c.copyOf := by
  funext n
  rw [copyOf, copyOf, store_topics]
  refine congrArg (c.topics[n]?.map ·) ?_
  funext k
  by_cases hk : k = t
  · simp [store, hk, h]
  · simp [store, hk]

theorem took_copyOf {c : MyClient} {n : CString} {wait : Wait} {r : MyClient × GetStep}
    (h : Took c n wait r) : r.1.copyOf = c.copyOf := by
  cases h with
  | returns w rv _ => exact copyOf_of_eq rfl rfl
  | waits t loop _ _ _ _ => exact copyOf_of_eq rfl rfl
  | takes t _ _ => exact copyOf_store { c with waittopic := none } t rfl

theorem woke_copyOf {c : MyClient} {n : CString} {t : Ref} {loop : Loop} {r : MyClient × GetStep}
    (h : Woke c n t loop r) : r.1.copyOf = c.copyOf := by
  cases h with
  | aborts _ => exact copyOf_of_eq rfl rfl
  | waits _ _ => exact copyOf_of_eq rfl rfl
  | takes _ _ => exact copyOf_store { c with waittopic := none } t rfl

theorem subscribe_copyOf {c : MyClient} (h : ∀ (n : CString) (t : Ref), c.topics[n]? = some t → t < c.fresh)
    (n : CString) : (c.subscribe n).copyOf = Function.update c.copyOf n (some []) := by
  funext m
  rw [Function.update_apply, copyOf, getElem?_subscribe]
  by_cases hm : m = n
  · rw [if_pos hm, if_pos hm, Option.map_some, heap_subscribe_fresh]
  · rw [if_neg hm, if_neg hm, copyOf]
    cases hk : c.topics[m]? with
    | none => rfl
    | some k => rw [Option.map_some, Option.map_some, heap_subscribe_of_lt (h m k hk)]

/-- **A notification replaces the copy of its topic.** -/
theorem message_copyOf {c c' : MyClient} {n : CString} {d : List Datum} {tail : Bytes} {signal : Bool}
    (h : Processed c (message d scNotify n ++ tail) (c', signal, none))
    (hsep : ∀ (n m : CString) (t : Ref), c.topics[n]? = some t → c.topics[m]? = some t → n = m)
    (hname : n.length ≤ 128) (hsize : IntSized d n) (hn : n ∈ c.topics) :
    c'.copyOf = Function.update c.copyOf n (some d) := by
  have htype := takeU32_message d scNotify n tail
  have hn' := nameOfMsg_message d scNotify n tail
  cases h with
  | ignores hno _ => exact absurd hn (hno n ⟨_, htype⟩ hn')
  | kills msg hkill =>
    rw [htype] at hkill
    cases hkill
  | notifies msg _ m hm t ht x _ hd w _ =>
    rw [hn', Except.ok.injEq] at hm
    subst hm
    rw [fromMessage_message _ d scNotify hname hsize] at hd
    funext k
    rw [Function.update_apply, copyOf]
    show c.topics[k]?.map _ = _
    by_cases hk : k = n
    · rw [if_pos hk, hk, ht]
      simp [store, hd]
    · rw [if_neg hk, copyOf]
      cases hkt : c.topics[k]? with
      | none => rfl
      | some u =>
        have hne : u ≠ t := fun he => hk (hsep k n t (he ▸ hkt) ht)
        simp [store, hne]

end MyClient

namespace Process
variable {ι : Type} [DecidableEq ι] {s s' : Process ι}

theorem copyOf_step {a : Label ι} (h : s.step a = some s') (hsub : ∀ n, a ≠ .subscribe n)
    (hpkt : ∀ p now who, a ≠ .packet p now who) : s'.c.copyOf = s.c.copyOf := by
  cases step_moves h with
  | locked i n wait r _ hr => rw [ends_c, MyClient.took_copyOf hr]
  | woken i n wait t loop r _ _ hr => rw [ends_c, MyClient.woke_copyOf hr]
  | subscribes n => exact absurd rfl (hsub n)
  | receives p now who _ _ _ _ _ _ => exact absurd rfl (hpkt p now who)
  | _ => exact MyClient.copyOf_of_eq rfl rfl

end Process

end DiamondApparatus
