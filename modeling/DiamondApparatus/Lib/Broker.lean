import Mathlib.Logic.Function.Basic
import Mathlib.Data.List.Basic

/-!
# Topic-based publish and subscribe

A broker between clients `C`, over topic names `N` and data `D`: it keeps the last data posted to a
topic, gives it to whoever joins, and passes on what is posted to all who joined before.

* `Broker`, `Broker.Op` : the stored data and the subscriptions, and what can be asked of them;
* `Broker.heard`, `Broker.heardAll` : what one client hears about one topic;
* `Broker.expect` : the same from the client's own side. It follows the topic's value and whether the
  client has joined, and knows nothing of the other clients and topics;
* `heardAll_eq_expect` : a broker says exactly what each client expects.
-/

namespace DiamondApparatus.Lib

structure Broker (C N D : Type) where
  stored : N → Option D
  subs : N → C → Bool

namespace Broker
variable {C N D : Type}

inductive Op (C N D : Type)
  | join (c : C) (n : N)
  | post (n : N) (d : D)
  | clear
  | leave (c : C)
  deriving DecidableEq

variable [DecidableEq C] [DecidableEq N]

def apply (b : Broker C N D) : Op C N D → Broker C N D
  | .join c n => { b with subs := fun m k => b.subs m k || decide (m = n ∧ k = c) }
  | .post n d => { b with stored := Function.update b.stored n (some d) }
  | .clear => { b with stored := fun _ => none }
  | .leave c => { b with subs := fun m k => b.subs m k && decide (k ≠ c) }

/-- What `c` hears about `n` when the broker handles an operation. -/
def heard (b : Broker C N D) (c : C) (n : N) : Op C N D → List D
  | .join k m => if k = c ∧ m = n then (b.stored n).toList else []
  | .post m d => if m = n ∧ b.subs n c then [d] else []
  | _ => []

def run (b : Broker C N D) (ops : List (Op C N D)) : Broker C N D := ops.foldl apply b

def heardAll (b : Broker C N D) (c : C) (n : N) : List (Op C N D) → List D
  | [] => []
  | o :: ops => b.heard c n o ++ (b.apply o).heardAll c n ops

theorem run_append (b : Broker C N D) (xs ys : List (Op C N D)) :
    b.run (xs ++ ys) = (b.run xs).run ys :=
  List.foldl_append

theorem heardAll_append (b : Broker C N D) (c : C) (n : N) (xs ys : List (Op C N D)) :
    b.heardAll c n (xs ++ ys) = b.heardAll c n xs ++ (b.run xs).heardAll c n ys := by
  induction xs generalizing b with
  | nil => rfl
  | cons o xs ih =>
    rw [List.cons_append, heardAll, heardAll, ih, List.append_assoc]
    rfl

/-! ## A client's view -/

/-- The data of the last post to `n` since the last clear, or `v`, which was stored before. -/
def lastPosted (n : N) (v : Option D) : List (Op C N D) → Option D
  | [] => v
  | .post m d :: ops => lastPosted n (if m = n then some d else v) ops
  | .clear :: ops => lastPosted n none ops
  | _ :: ops => lastPosted n v ops

/-- What `c` is to hear about `n`, of which `v` is stored, having joined it or not: the stored value at
every join of its own, and every post from the first of these on, until it leaves. -/
def expect (c : C) (n : N) : Option D → Bool → List (Op C N D) → List D
  | _, _, [] => []
  | v, joined, .join k m :: ops =>
    if k = c ∧ m = n then v.toList ++ expect c n v true ops else expect c n v joined ops
  | v, joined, .post m d :: ops =>
    if m = n then (if joined then [d] else []) ++ expect c n (some d) joined ops
    else expect c n v joined ops
  | _, joined, .clear :: ops => expect c n none joined ops
  | v, joined, .leave k :: ops => expect c n v (joined && decide (k ≠ c)) ops

theorem stored_run (b : Broker C N D) (n : N) (ops : List (Op C N D)) :
    (b.run ops).stored n = lastPosted n (b.stored n) ops := by
  induction ops generalizing b with
  | nil => rfl
  | cons o ops ih =>
    show ((b.apply o).run ops).stored n = _
    rw [ih]
    cases o with
    | post m d =>
      rw [lastPosted]
      by_cases h : m = n
      · subst h; simp [apply]
      · simp [apply, h, Function.update_of_ne (Ne.symm h)]
    | join | clear | leave => rfl

/-- **A broker says exactly what each client expects.** -/
theorem heardAll_eq_expect (b : Broker C N D) (c : C) (n : N) (ops : List (Op C N D)) :
    b.heardAll c n ops = expect c n (b.stored n) (b.subs n c) ops := by
  induction ops generalizing b with
  | nil => rfl
  | cons o ops ih =>
    rw [heardAll, ih]
    cases o with
    | join k m =>
      by_cases h : k = c ∧ m = n
      · obtain ⟨rfl, rfl⟩ := h
        simp [expect, heard, apply]
      · have h' : ¬ (n = m ∧ c = k) := fun ⟨hn, hc⟩ => h ⟨hc.symm, hn.symm⟩
        simp only [expect, heard, apply, if_neg h, List.nil_append, decide_eq_false h', Bool.or_false]
    | post m d =>
      by_cases h : m = n
      · subst h
        simp [expect, heard, apply]
      · simp [expect, heard, apply, h, Function.update_of_ne (Ne.symm h)]
    | clear => rfl
    | leave k => simp [expect, heard, apply, eq_comm]

/-! ## One operation at a time -/

def joinedAfter (c : C) (n : N) (joined : Bool) : Op C N D → Bool
  | .join k m => joined || decide (k = c ∧ m = n)
  | .leave k => joined && decide (k ≠ c)
  | _ => joined

omit [DecidableEq C] in
theorem lastPosted_cons (n : N) (v : Option D) (o : Op C N D) (ops : List (Op C N D)) :
    lastPosted n v (o :: ops) = lastPosted n (lastPosted n v [o]) ops := by
  cases o <;> rfl

theorem expect_cons (c : C) (n : N) (v : Option D) (joined : Bool) (o : Op C N D)
    (ops : List (Op C N D)) : expect c n v joined (o :: ops) = expect c n v joined [o] ++
      expect c n (lastPosted n v [o]) (joinedAfter c n joined o) ops := by
  cases o with
  | join k m =>
    by_cases h : k = c ∧ m = n
    · simp [expect, joinedAfter, lastPosted, h]
    · simp only [expect, joinedAfter, lastPosted, if_neg h, decide_eq_false h, Bool.or_false,
        List.nil_append]
  | post m d =>
    by_cases h : m = n
    · simp [expect, joinedAfter, lastPosted, h]
    · simp [expect, joinedAfter, lastPosted, h]
  | clear => rfl
  | leave k => rfl

theorem subs_run (b : Broker C N D) (c : C) (n : N) {ops : List (Op C N D)} (hleave : .leave c ∉ ops) :
    (b.run ops).subs n c = true ↔ b.subs n c = true ∨ .join c n ∈ ops := by
  induction ops generalizing b with
  | nil => simp [run]
  | cons o ops ih =>
    rw [List.mem_cons, not_or] at hleave
    show ((b.apply o).run ops).subs n c = true ↔ _
    rw [ih _ hleave.2, List.mem_cons, ← or_assoc]
    refine or_congr_left ?_
    cases o with
    | join k m =>
      have hsame : (n = m ∧ c = k) ↔ Op.join c n = (Op.join k m : Op C N D) := by
        rw [Op.join.injEq, and_comm]
      simp [apply, hsame]
    | post m d => simp [apply]
    | clear => simp [apply]
    | leave k =>
      have hk : c ≠ k := fun he => hleave.1 (he ▸ rfl)
      simp [apply, hk]

/-! ## Other topics -/

/-- Whether an operation has to do with `n`. -/
def about (n : N) : Op C N D → Bool
  | .join _ m => decide (m = n)
  | .post m _ => decide (m = n)
  | _ => true

omit [DecidableEq C] in
/-- An operation that has nothing to do with `n` is a join or a post of another topic. -/
theorem ne_of_not_about {n : N} {o : Op C N D} (h : ¬ about n o = true) :
    ∃ m, m ≠ n ∧ ((∃ k, o = .join k m) ∨ ∃ d, o = .post m d) := by
  cases o with
  | join k m => exact ⟨m, fun he => h (decide_eq_true he), Or.inl ⟨k, rfl⟩⟩
  | post m d => exact ⟨m, fun he => h (decide_eq_true he), Or.inr ⟨d, rfl⟩⟩
  | clear => exact absurd rfl h
  | leave k => exact absurd rfl h

theorem expect_filter (c : C) (n : N) (v : Option D) (joined : Bool) (ops : List (Op C N D)) :
    expect c n v joined (ops.filter (about n)) = expect c n v joined ops := by
  induction ops generalizing v joined with
  | nil => rfl
  | cons o ops ih =>
    by_cases h : about n o = true
    · rw [List.filter_cons_of_pos h, expect_cons, ih, ← expect_cons]
    · rw [List.filter_cons_of_neg h, ih]
      obtain ⟨m, hm, ⟨k, rfl⟩ | ⟨d, rfl⟩⟩ := ne_of_not_about h
      · rw [expect, if_neg fun hand => hm hand.2]
      · rw [expect, if_neg hm]

omit [DecidableEq C] in
theorem lastPosted_filter (n : N) (v : Option D) (ops : List (Op C N D)) :
    lastPosted n v (ops.filter (about n)) = lastPosted n v ops := by
  induction ops generalizing v with
  | nil => rfl
  | cons o ops ih =>
    by_cases h : about n o = true
    · rw [List.filter_cons_of_pos h, lastPosted_cons, ih, ← lastPosted_cons]
    · rw [List.filter_cons_of_neg h, ih]
      obtain ⟨m, hm, ⟨k, rfl⟩ | ⟨d, rfl⟩⟩ := ne_of_not_about h
      · rfl
      · rw [lastPosted, if_neg hm]

/-- What a client hears about a topic does not depend on operations on others. -/
theorem expect_congr {n : N} {xs ys : List (Op C N D)}
    (h : xs.filter (about n) = ys.filter (about n)) (c : C) (v : Option D) (joined : Bool) :
    expect c n v joined xs = expect c n v joined ys := by
  rw [← expect_filter, h, expect_filter]

omit [DecidableEq C] in
theorem lastPosted_congr {n : N} {xs ys : List (Op C N D)}
    (h : xs.filter (about n) = ys.filter (about n)) (v : Option D) :
    lastPosted n v xs = lastPosted n v ys := by
  rw [← lastPosted_filter, h, lastPosted_filter]

/-! ## What can be heard at all -/

def Op.posted (n : N) : Op C N D → Option D
  | .post m d => if m = n then some d else none
  | _ => none

def posts (n : N) (ops : List (Op C N D)) : List D := ops.filterMap (Op.posted n)

def Op.joins (c : C) (n : N) : Op C N D → Bool
  | .join k m => decide (k = c ∧ m = n)
  | _ => false

omit [DecidableEq C] in
theorem posts_cons (n : N) (o : Op C N D) (ops : List (Op C N D)) :
    posts n (o :: ops) = (Op.posted n o).toList ++ posts n ops := by
  unfold posts
  rw [List.filterMap_cons]
  cases Op.posted n o <;> rfl

omit [DecidableEq C] in
theorem posted_post (n m : N) (d : D) :
    Op.posted n (.post m d : Op C N D) = if m = n then some d else none := rfl

theorem countP_joins_eq_zero {c : C} {n : N} {ops : List (Op C N D)} :
    ops.countP (Op.joins c n) = 0 ↔ .join c n ∉ ops := by
  rw [List.countP_eq_zero]
  constructor
  · intro h hmem
    exact h _ hmem (decide_eq_true ⟨rfl, rfl⟩)
  · intro h o ho hjoins
    cases o with
    | join k m =>
      obtain ⟨rfl, rfl⟩ := of_decide_eq_true hjoins
      exact h ho
    | post | clear | leave => cases hjoins

/-- Who has not joined, and does not, hears nothing. -/
theorem expect_apart {c : C} {n : N} {ops : List (Op C N D)} (h : ops.countP (Op.joins c n) = 0)
    (v : Option D) : expect c n v false ops = [] := by
  induction ops generalizing v with
  | nil => rfl
  | cons o ops ih =>
    rw [List.countP_cons, Nat.add_eq_zero_iff] at h
    cases o with
    | join k m =>
      have hkm : ¬ (k = c ∧ m = n) := fun hkm => by simp [Op.joins, hkm] at h
      rw [expect, if_neg hkm]
      exact ih h.1 v
    | post m d =>
      unfold expect
      split
      · exact ih h.1 (some d)
      · exact ih h.1 v
    | clear => exact ih h.1 none
    | leave k => exact ih h.1 v

/-- Who has joined, and does not join again, hears what is posted while it is there. -/
theorem expect_sublist {c : C} {n : N} {ops : List (Op C N D)} (h : ops.countP (Op.joins c n) = 0)
    (v : Option D) (joined : Bool) : (expect c n v joined ops).Sublist (posts n ops) := by
  induction ops generalizing v joined with
  | nil => exact List.Sublist.refl []
  | cons o ops ih =>
    rw [List.countP_cons, Nat.add_eq_zero_iff] at h
    rw [posts_cons]
    cases o with
    | join k m =>
      have hkm : ¬ (k = c ∧ m = n) := fun hkm => by simp [Op.joins, hkm] at h
      rw [expect, if_neg hkm]
      exact ih h.1 v joined
    | post m d =>
      rw [expect, posted_post]
      by_cases hm : m = n
      · rw [if_pos hm, if_pos hm]
        refine List.Sublist.append ?_ (ih h.1 (some d) joined)
        cases joined
        · exact List.nil_sublist _
        · exact List.Sublist.refl _
      · rw [if_neg hm, if_neg hm]
        exact ih h.1 v joined
    | clear => exact ih h.1 none joined
    | leave k => exact ih h.1 v _

/-- **Nothing is made up**: what anyone hears was stored before, or has been posted. -/
theorem mem_expect {c : C} {n : N} {v : Option D} {joined : Bool} {ops : List (Op C N D)} {d : D}
    (h : d ∈ expect c n v joined ops) : v = some d ∨ d ∈ posts n ops := by
  induction ops generalizing v joined with
  | nil => cases h
  | cons o ops ih =>
    rw [posts_cons, List.mem_append]
    cases o with
    | join k m =>
      unfold expect at h
      split at h
      · rcases List.mem_append.1 h with hv | hrest
        · exact Or.inl (Option.mem_toList.1 hv)
        · exact (ih hrest).imp_right Or.inr
      · exact (ih h).imp_right Or.inr
    | post m e =>
      rw [expect] at h
      rw [posted_post]
      by_cases hm : m = n
      · rw [if_pos hm] at h ⊢
        rcases List.mem_append.1 h with hnow | hrest
        · cases joined
          · cases hnow
          · exact Or.inr (Or.inl hnow)
        · rcases ih hrest with he | hposted
          · rw [Option.some_inj] at he
            exact Or.inr (Or.inl (List.mem_singleton.2 he.symm))
          · exact Or.inr (Or.inr hposted)
      · rw [if_neg hm] at h
        exact (ih h).imp_right Or.inr
    | clear => exact Or.inr (Or.inr ((ih h).resolve_left (by simp)))
    | leave k => exact (ih h).imp_right Or.inr

/-- **Who joins once hears nothing twice, and nothing out of turn**: the value it finds, and then some of
what is posted. -/
theorem expect_sublist_once {c : C} {n : N} {ops : List (Op C N D)}
    (h : ops.countP (Op.joins c n) ≤ 1) (v : Option D) :
    (expect c n v false ops).Sublist (v.toList ++ posts n ops) := by
  induction ops generalizing v with
  | nil => exact List.nil_sublist _
  | cons o ops ih =>
    rw [List.countP_cons] at h
    rw [posts_cons]
    cases o with
    | join k m =>
      unfold expect
      split
      · next hkm =>
        have hrest : ops.countP (Op.joins c n) = 0 := by
          have hone : (if Op.joins c n (.join k m : Op C N D) = true then 1 else 0) = 1 :=
            if_pos (decide_eq_true hkm)
          omega
        exact (List.Sublist.refl _).append (expect_sublist hrest v true)
      · exact ih (by omega) v
    | post m d =>
      rw [expect, posted_post]
      by_cases hm : m = n
      · rw [if_pos hm, if_pos hm]
        exact (ih (by omega) (some d)).trans (List.sublist_append_right _ _)
      · rw [if_neg hm, if_neg hm]
        exact ih (by omega) v
    | clear => exact (ih (by omega) none).trans (List.sublist_append_right _ _)
    | leave k => exact ih (by omega) v

end Broker

end DiamondApparatus.Lib
