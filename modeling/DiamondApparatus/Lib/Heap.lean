import Mathlib.Algebra.BigOperators.Group.Finset.Piecewise

/-!
# Blocks of memory, and who owns them

A heap of blocks with contents `β`. A program that frees or reads a block that is not allocated fails.

* `Blocks`, `Heap`, `Prog` : some blocks, a heap, and the programs on it: `alloc`, `free`, `read`;
* `Assertion` : what is owned. They are a commutative monoid: `P * Q` splits the blocks between `P` and
  `Q`, and `1` owns none;
* `Triple P c Q` : in any heap that has what `P` owns, `c` does not fail, ends with `Q`, and changes
  nothing else (`Triple.frame`). One rule for each way to make a program;
* `Each A xs ys` : `A` of every two elements that correspond; `Triple.mapM`, `Triple.forM`;
* `Footprint P M` : `P` owns the blocks in `M`, each once.
-/

namespace DiamondApparatus.Lib

abbrev Addr := Nat

/-- Some blocks, at their addresses. -/
abbrev Blocks (β : Type) := Addr → Option β

namespace Blocks
variable {β : Type} {p q r : Blocks β}

def nothing : Blocks β := fun _ => none

def single (a : Addr) (b : β) : Blocks β := fun x => if x = a then some b else none

def Apart (p q : Blocks β) : Prop := ∀ a, p a = none ∨ q a = none

def join (p q : Blocks β) : Blocks β := fun a => (p a).or (q a)

theorem Apart.symm (h : Apart p q) : Apart q p := fun a => (h a).symm

theorem apart_nothing (p : Blocks β) : Apart p nothing := fun _ => Or.inr rfl

theorem join_nothing (p : Blocks β) : join p nothing = p := by
  funext a
  exact Option.or_none

theorem join_eq_none {a : Addr} : join p q a = none ↔ p a = none ∧ q a = none :=
  Option.or_eq_none_iff

theorem join_comm (h : Apart p q) : join p q = join q p := by
  funext a
  rcases h a with ha | ha <;> simp [join, ha]

theorem join_assoc (p q r : Blocks β) : join (join p q) r = join p (join q r) := by
  funext a
  exact Option.or_assoc

theorem apart_join : Apart (join p q) r ↔ Apart p r ∧ Apart q r := by
  simp only [Apart, join_eq_none, ← forall_and]
  refine forall_congr' fun a => ?_
  rw [or_comm (b := r a = none), or_comm (b := r a = none), or_comm (b := r a = none), ← or_and_left]

theorem apart_join' : Apart p (join q r) ↔ Apart p q ∧ Apart p r := by
  simp only [Apart, join_eq_none, ← forall_and, ← or_and_left]

end Blocks

open Blocks

/-! ## Programs -/

structure Heap (β : Type) where
  blocks : Blocks β
  /-- The address of the next block. -/
  next : Addr
  fresh : ∀ a, next ≤ a → blocks a = none

/-- A program on a heap of blocks; `none` is a failure. -/
abbrev Prog (β α : Type) := StateT (Heap β) Option α

namespace Heap
variable {β : Type}

def empty : Heap β where
  blocks := .nothing
  next := 0
  fresh _ _ := rfl

def put (h : Heap β) (b : β) : Heap β where
  blocks := fun x => if x = h.next then some b else h.blocks x
  next := h.next + 1
  fresh a ha := by
    rw [if_neg (Nat.ne_of_gt ha)]
    exact h.fresh a (Nat.le_of_succ_le ha)

def drop (h : Heap β) (a : Addr) : Heap β where
  blocks := fun x => if x = a then none else h.blocks x
  next := h.next
  fresh x hx := by
    split
    · rfl
    · exact h.fresh x hx

def alloc (b : β) : Prog β Addr := fun h => some (h.next, h.put b)

def free (a : Addr) : Prog β Unit := fun h =>
  match h.blocks a with
  | some _ => some ((), h.drop a)
  | none => none

def read (a : Addr) : Prog β β := fun h => (h.blocks a).map (·, h)

end Heap

/-! ## Assertions -/

/-- What some blocks are. -/
def Assertion (β : Type) := Blocks β → Prop

namespace Assertion
variable {β : Type}

@[ext] theorem ext {P Q : Assertion β} (h : ∀ r, P r ↔ Q r) : P = Q := funext fun r => propext (h r)

instance : Mul (Assertion β) where
  mul P Q := fun r => ∃ p q, Apart p q ∧ r = join p q ∧ P p ∧ Q q

instance : One (Assertion β) where
  one := fun r => r = Blocks.nothing

protected theorem mul_comm (P Q : Assertion β) : P * Q = Q * P := by
  have hone : ∀ (P Q : Assertion β) (r : Blocks β), (P * Q) r → (Q * P) r := by
    rintro P Q r ⟨p, q, hpq, rfl, hp, hq⟩
    exact ⟨q, p, hpq.symm, join_comm hpq, hq, hp⟩
  ext r
  exact ⟨hone P Q r, hone Q P r⟩

protected theorem mul_assoc (P Q R : Assertion β) : P * Q * R = P * (Q * R) := by
  ext s
  constructor
  · rintro ⟨_, r, hr, rfl, ⟨p, q, hpq, rfl, hp, hq⟩, hR⟩
    obtain ⟨hpr, hqr⟩ := apart_join.1 hr
    exact ⟨p, join q r, apart_join'.2 ⟨hpq, hpr⟩, join_assoc p q r, hp, q, r, hqr, rfl, hq, hR⟩
  · rintro ⟨p, _, hp', rfl, hp, q, r, hqr, rfl, hq, hR⟩
    obtain ⟨hpq, hpr⟩ := apart_join'.1 hp'
    exact ⟨join p q, r, apart_join.2 ⟨hpr, hqr⟩, (join_assoc p q r).symm, ⟨p, q, hpq, rfl, hp, hq⟩, hR⟩

protected theorem mul_one (P : Assertion β) : P * 1 = P := by
  ext r
  constructor
  · rintro ⟨p, q, -, rfl, hp, rfl⟩
    rwa [join_nothing]
  · intro hp
    exact ⟨r, Blocks.nothing, apart_nothing r, (join_nothing r).symm, hp, rfl⟩

instance : CommMonoid (Assertion β) where
  mul_assoc := Assertion.mul_assoc
  one_mul P := (Assertion.mul_comm 1 P).trans (Assertion.mul_one P)
  mul_one := Assertion.mul_one
  mul_comm := Assertion.mul_comm

def fact (φ : Prop) : Assertion β := fun r => φ ∧ r = Blocks.nothing

def points (a : Addr) (b : β) : Assertion β := fun r => r = single a b

theorem fact_mul {φ : Prop} {P : Assertion β} {r : Blocks β} : (fact φ * P : Assertion β) r ↔ φ ∧ P r := by
  constructor
  · rintro ⟨p, q, -, rfl, ⟨hφ, rfl⟩, hq⟩
    exact ⟨hφ, hq⟩
  · rintro ⟨hφ, hp⟩
    exact ⟨Blocks.nothing, r, (apart_nothing r).symm, rfl, ⟨hφ, rfl⟩, hp⟩

theorem mul_mono {P P' Q Q' : Assertion β} (hP : ∀ r, P r → P' r) (hQ : ∀ r, Q r → Q' r) (r : Blocks β)
    (h : (P * Q) r) : (P' * Q') r := by
  obtain ⟨p, q, hpq, rfl, hp, hq⟩ := h
  exact ⟨p, q, hpq, rfl, hP p hp, hQ q hq⟩

end Assertion

open Assertion

/-! ## Triples -/

def Triple {β α : Type} (P : Assertion β) (c : Prog β α) (Q : α → Assertion β) : Prop :=
  ∀ (h : Heap β) (p f : Blocks β), Apart p f → h.blocks = join p f → P p →
    ∃ x h' q, c h = some (x, h') ∧ Apart q f ∧ h'.blocks = join q f ∧ Q x q

namespace Triple
variable {β α γ : Type} {P F : Assertion β} {c : Prog β α} {Q : α → Assertion β}

/-- What is owned beside stays as it is. -/
theorem frame (h : Triple P c Q) (F : Assertion β) : Triple (P * F) c fun x => Q x * F := by
  rintro s _ f hr hs ⟨p, g, hpg, rfl, hp, hg⟩
  obtain ⟨hpf, hgf⟩ := apart_join.1 hr
  obtain ⟨x, s', q, hc, hq, hs', hQ⟩ :=
    h s p (join g f) (apart_join'.2 ⟨hpg, hpf⟩) (hs.trans (join_assoc p g f)) hp
  obtain ⟨hqg, hqf⟩ := apart_join'.1 hq
  exact ⟨x, s', join q g, hc, apart_join.2 ⟨hqf, hgf⟩, hs'.trans (join_assoc q g f).symm, q, g, hqg, rfl, hQ, hg⟩

theorem weaken (h : Triple P c Q) {R : α → Assertion β} (hR : ∀ x r, Q x r → R x r) : Triple P c R := by
  intro s p f hpf hs hp
  obtain ⟨x, s', q, hc, hq, hs', hQ⟩ := h s p f hpf hs hp
  exact ⟨x, s', q, hc, hq, hs', hR x q hQ⟩

theorem pure {x : α} (h : ∀ r, P r → Q x r) : Triple P (Pure.pure x) Q :=
  fun s p _ hpf hs hp => ⟨x, s, p, rfl, hpf, hs, h p hp⟩

theorem bind (h : Triple P c Q) {k : α → Prog β γ} {R : γ → Assertion β}
    (hk : ∀ x, Triple (Q x) (k x) R) : Triple P (c >>= k) R := by
  intro s p f hpf hs hp
  obtain ⟨x, s', q, hc, hq, hs', hQ⟩ := h s p f hpf hs hp
  obtain ⟨y, s'', q', hk', hq', hs'', hR⟩ := hk x s' q f hq hs' hQ
  refine ⟨y, s'', q', ?_, hq', hs'', hR⟩
  show (c s).bind (fun o => k o.1 o.2) = _
  rw [hc, Option.bind_some, hk']

/-- One program after the other, with `F` that the first does not look at. -/
theorem seq (h : Triple P c Q) (F : Assertion β) {k : α → Prog β γ} {R : γ → Assertion β}
    (hk : ∀ x, Triple (Q x * F) (k x) R) {S : Assertion β} (hS : S = P * F) : Triple S (c >>= k) R :=
  hS ▸ (h.frame F).bind hk

theorem ret {x : α} (h : P = Q x) : Triple P (Pure.pure x) Q :=
  fun s p _ hpf hs hp => ⟨x, s, p, rfl, hpf, hs, h ▸ hp⟩

theorem of_fact {φ : Prop} (h : φ → Triple P c Q) : Triple (fact φ * P) c Q := by
  intro s p f hpf hs hp
  obtain ⟨hφ, hp⟩ := fact_mul.1 hp
  exact h hφ s p f hpf hs hp

theorem of_exists {ι : Sort*} {P : ι → Assertion β} (h : ∀ i, Triple (P i) c Q) :
    Triple (fun r => ∃ i, P i r : Assertion β) c Q := by
  rintro s p f hpf hs ⟨i, hp⟩
  exact h i s p f hpf hs hp

theorem alloc (b : β) : Triple 1 (Heap.alloc b) fun a => points a b := by
  rintro s _ f - hs rfl
  have hnext : f s.next = none := by
    have hfresh := s.fresh s.next (Nat.le_refl _)
    rw [hs] at hfresh
    exact hfresh
  refine ⟨s.next, s.put b, single s.next b, rfl, fun a => ?_, ?_, rfl⟩
  · by_cases ha : a = s.next
    · exact Or.inr (ha ▸ hnext)
    · exact Or.inl (if_neg ha)
  · funext a
    show (if a = s.next then some b else s.blocks a) = (if a = s.next then some b else none).or (f a)
    rw [hs]
    split <;> rfl

theorem free (a : Addr) (b : β) : Triple (points a b) (Heap.free a) fun _ => 1 := by
  rintro s _ f hpf hs rfl
  have hself : single a b a = some b := if_pos rfl
  have hf : f a = none := by
    rcases hpf a with ha | ha
    · rw [hself] at ha
      cases ha
    · exact ha
  have hb : s.blocks a = some b := by rw [hs, join, hself]; rfl
  refine ⟨(), s.drop a, Blocks.nothing, ?_, (apart_nothing f).symm, ?_, rfl⟩
  · simp only [Heap.free, hb]
  · funext x
    show (if x = a then none else s.blocks x) = f x
    rw [hs]
    split
    · next hx => rw [hx, hf]
    · next hx =>
      have hx' : single a b x = none := if_neg hx
      rw [join, hx']
      rfl

theorem read (a : Addr) (b : β) : Triple (points a b) (Heap.read a) fun x => fact (x = b) * points a b := by
  rintro s _ f hpf hs rfl
  have hself : single a b a = some b := if_pos rfl
  have hb : s.blocks a = some b := by rw [hs, join, hself]; rfl
  refine ⟨b, s, single a b, ?_, hpf, hs, fact_mul.2 ⟨rfl, rfl⟩⟩
  rw [Heap.read, hb, Option.map_some]

end Triple

theorem Triple.at {β α κ : Type} [Fintype κ] [DecidableEq κ] {A : κ → Assertion β} {k : κ} {G : Assertion β}
    {c : Prog β α} {B F : α → Assertion β} (h : Triple (A k * G) c fun x => B x * F x) :
    Triple ((∏ j, A j) * G) c fun x => (∏ j, Function.update A k (B x) j) * F x := by
  rw [← Finset.mul_prod_erase Finset.univ A (Finset.mem_univ k), mul_right_comm]
  refine (h.frame _).weaken fun x r hr => ?_
  rw [Finset.prod_update_of_mem (Finset.mem_univ k), Finset.sdiff_singleton_eq_erase, mul_right_comm]
  exact hr

/-! ## One after the other -/

/-- `A` of every element with the one in the same place. -/
def Each {β α δ : Type} (A : α → δ → Assertion β) : List α → List δ → Assertion β
  | [], [] => 1
  | x :: xs, d :: ds => A x d * Each A xs ds
  | _, _ => fact False

section
variable {β α γ δ : Type} {A : α → δ → Assertion β}

theorem Each.length {xs : List α} {ds : List δ} {r : Blocks β} (h : Each A xs ds r) :
    xs.length = ds.length := by
  induction xs generalizing ds r with
  | nil =>
    cases ds with
    | nil => rfl
    | cons d ds => exact absurd h.1 not_false
  | cons x xs ih =>
    cases ds with
    | nil => exact absurd h.1 not_false
    | cons d ds =>
      obtain ⟨p, q, -, -, -, hq⟩ := h
      exact congrArg Nat.succ (ih hq)

theorem each_append {xs : List α} {ds : List δ} (hlen : xs.length = ds.length) (ys : List α)
    (es : List δ) : Each A (xs ++ ys) (ds ++ es) = Each A xs ds * Each A ys es := by
  induction xs generalizing ds with
  | nil =>
    cases ds with
    | nil => exact (one_mul _).symm
    | cons d ds => cases hlen
  | cons x xs ih =>
    cases ds with
    | nil => cases hlen
    | cons d ds =>
      show A x d * Each A (xs ++ ys) (ds ++ es) = A x d * Each A xs ds * Each A ys es
      rw [ih (Nat.succ.inj hlen), mul_assoc]

/-- A program for each element, which leaves it as it is and makes something new. -/
theorem Triple.mapM {B : γ → δ → Assertion β} {f : α → Prog β γ}
    (h : ∀ x d, Triple (A x d) (f x) fun y => A x d * B y d) (xs : List α) (ds : List δ) :
    Triple (Each A xs ds) (xs.mapM f) fun ys => Each A xs ds * Each B ys ds := by
  induction xs generalizing ds with
  | nil =>
    rw [List.mapM_nil]
    cases ds with
    | nil => exact Triple.ret (mul_one _).symm
    | cons d ds =>
      intro s p f _ _ hp
      exact absurd hp.1 not_false
  | cons x xs ih =>
    cases ds with
    | nil =>
      intro s p f _ _ hp
      exact absurd hp.1 not_false
    | cons d ds =>
      rw [List.mapM_cons]
      refine (h x d).seq (Each A xs ds) (fun y => ?_) rfl
      refine (ih ds).seq (A x d * B y d) (fun ys => Triple.ret ?_) (mul_comm _ _)
      show _ = A x d * Each A xs ds * (B y d * Each B ys ds)
      ac_rfl

/-- A program for each element, which uses it up. -/
theorem Triple.forM {f : α → Prog β PUnit} (h : ∀ x d, Triple (A x d) (f x) fun _ => 1) (xs : List α)
    (ds : List δ) : Triple (Each A xs ds) (xs.forM f) fun _ => 1 := by
  induction xs generalizing ds with
  | nil =>
    cases ds with
    | nil => exact Triple.ret rfl
    | cons d ds =>
      intro s p f _ _ hp
      exact absurd hp.1 not_false
  | cons x xs ih =>
    cases ds with
    | nil =>
      intro s p f _ _ hp
      exact absurd hp.1 not_false
    | cons d ds =>
      refine (h x d).seq (Each A xs ds) (fun _ => ?_) rfl
      rw [one_mul]
      exact ih ds

end

/-! ## Footprints -/

/-- `P` owns the blocks at the addresses in `M`, each once. -/
def Footprint {β : Type} (P : Assertion β) (M : Multiset Addr) : Prop :=
  ∀ r, P r → M.Nodup ∧ ∀ a, (r a).isSome ↔ a ∈ M

namespace Footprint
variable {β : Type} {P Q : Assertion β} {M N : Multiset Addr}

theorem one : Footprint (1 : Assertion β) 0 := by
  rintro _ rfl
  exact ⟨Multiset.nodup_zero, fun a => by simp [Blocks.nothing]⟩

theorem fact (φ : Prop) : Footprint (fact φ : Assertion β) 0 := by
  rintro r ⟨-, rfl⟩
  exact one _ rfl

theorem points (a : Addr) (b : β) : Footprint (points a b) {a} := by
  rintro _ rfl
  refine ⟨Multiset.nodup_singleton a, fun x => ?_⟩
  rw [Multiset.mem_singleton, single]
  split <;> simp [*]

theorem mul (hP : Footprint P M) (hQ : Footprint Q N) : Footprint (P * Q) (M + N) := by
  rintro _ ⟨p, q, hpq, rfl, hp, hq⟩
  obtain ⟨hM, hp⟩ := hP p hp
  obtain ⟨hN, hq⟩ := hQ q hq
  refine ⟨Multiset.nodup_add.2 ⟨hM, hN, ?_⟩, fun a => ?_⟩
  · rw [Multiset.disjoint_left]
    intro a haM haN
    have hpa := (hp a).2 haM
    have hqa := (hq a).2 haN
    rcases hpq a with ha | ha
    · rw [ha] at hpa
      cases hpa
    · rw [ha] at hqa
      cases hqa
  · rw [Multiset.mem_add, ← hp, ← hq, join]
    cases p a <;> simp

theorem prod {κ : Type} {P : κ → Assertion β} {M : κ → Multiset Addr} (h : ∀ k, Footprint (P k) (M k))
    (s : Finset κ) : Footprint (∏ k ∈ s, P k) (∑ k ∈ s, M k) := by
  classical
  induction s using Finset.induction_on with
  | empty => exact one
  | insert k s hk ih =>
    rw [Finset.prod_insert hk, Finset.sum_insert hk]
    exact (h k).mul ih

theorem each {α δ : Type} {A : α → δ → Assertion β} {M : α → Multiset Addr}
    (h : ∀ x d, Footprint (A x d) (M x)) (xs : List α) (ds : List δ) :
    Footprint (Each A xs ds) (xs.map M).sum := by
  induction xs generalizing ds with
  | nil =>
    cases ds with
    | nil => exact one
    | cons d ds => exact fun r hr => absurd hr.1 not_false
  | cons x xs ih =>
    cases ds with
    | nil => exact fun r hr => absurd hr.1 not_false
    | cons d ds =>
      rw [List.map_cons, List.sum_cons]
      exact (h x d).mul (ih ds)

end Footprint

end DiamondApparatus.Lib
