import DiamondApparatus.Data.Memory.Specs

/-!
# Who owns the memory of topics

* `Slot`, `Represents S T lost` : the store `S` stands for the topics `T`; beside what they own there are
  the blocks of the objects `lost`;
* `represents_step`, `represents_run` : each operation, and each run, goes through, and `lost` grows by
  what it `leaks`;
* `memory_refines` : what is allocated is what the topics own, and what was leaked.
-/

namespace DiamondApparatus
open Lib Assertion

/-! ## Runs -/

/-- What the place of a topic owns. -/
def Slot : Option TopicObj → Option Topic → Assertion Bytes
  | none, none => 1
  | some o, some t => Cells o.d.cells t.d
  | _, _ => fact False

namespace Store
variable {κ : Type}

/-- The objects whose blocks an operation leaks: an assignment in C++98 overwrites their pointers. -/
def leaks (moves : Bool) (S : Store κ) : Op κ → List DatumObj
  | .assign k j =>
    match S.objs k, S.objs j with
    | some t, some u => if moves then [] else t.d.overwritten u.d.cells.length
    | _, _ => []
  | _ => []

structure Represents [Fintype κ] (S : Store κ) (T : κ → Option Topic) (lost : List DatumObj) : Prop where
  shell : ∀ k, (S.objs k).map TopicObj.shell = (T k).map Topic.shell
  owned : ((∏ k, Slot (S.objs k) (T k)) * Lost lost) S.heap.blocks

section
variable [Fintype κ] {S : Store κ} {T : κ → Option Topic} {lost : List DatumObj}

theorem Represents.obj (h : Represents S T lost) {k : κ} {t : Topic} (ht : T k = some t) :
    ∃ o, S.objs k = some o ∧ o.shell = t.shell := by
  have hk := h.shell k
  rw [ht, Option.map_some] at hk
  exact Option.map_eq_some_iff.1 hk

theorem Represents.free (h : Represents S T lost) {k : κ} (ht : T k = none) : S.objs k = none := by
  have hk := h.shell k
  rwa [ht, Option.map_none, Option.map_eq_none_iff] at hk

theorem represents_empty : Represents ({} : Store κ) (fun _ => none) [] where
  shell _ := rfl
  owned := by
    have hone : (∏ k : κ, Slot (({} : Store κ).objs k) none) = 1 := Finset.prod_eq_one fun _ _ => rfl
    rw [hone, lost_nil, mul_one]
    rfl

variable [DecidableEq κ]

theorem slots_at {objs : κ → Option TopicObj} {k : κ} {t : Option Topic} {G : Assertion Bytes} {α : Type}
    {c : Mem α} {o : α → Option TopicObj} {F : α → Assertion Bytes}
    (h : Triple (Slot (objs k) (T k) * G) c fun x => Slot (o x) t * F x) :
    Triple ((∏ j, Slot (objs j) (T j)) * G) c fun x =>
      (∏ j, Slot (Function.update objs k (o x) j) (Function.update T k t j)) * F x := by
  have hat := Triple.at (A := fun j => Slot (objs j) (T j)) (k := k) h
  refine hat.weaken fun x r hr => ?_
  have hsame : (fun j => Slot (Function.update objs k (o x) j) (Function.update T k t j)) =
      Function.update (fun j => Slot (objs j) (T j)) k (Slot (o x) t) := by
    funext j
    simp only [Function.update_apply]
    split <;> rfl
  rwa [hsame]

theorem slots_ofRange {objs : κ → Option TopicObj} {j : κ} {o : TopicObj} {t : Topic} (ho : objs j = some o)
    (ht : T j = some t) : Triple (∏ i, Slot (objs i) (T i)) (Vec.ofRange o.d.cells) fun v =>
      fact (v.cells.length = o.d.cells.length) * ((∏ i, Slot (objs i) (T i)) * Cells v.cells t.d) := by
  have hslot : Slot (objs j) (T j) = Cells o.d.cells t.d := by rw [ho, ht]; rfl
  have hone : Triple (Slot (objs j) (T j) * 1) (Vec.ofRange o.d.cells) fun v => Slot (objs j) (T j) *
      (fact (v.cells.length = o.d.cells.length) * Cells v.cells t.d) := by
    rw [hslot, mul_one]
    exact (Vec.ofRange_spec o.d.cells t.d).weaken fun v r hr => by rwa [mul_left_comm]
  have hat := slots_at (o := fun _ => objs j) hone
  rw [mul_one, Function.update_eq_self, Function.update_eq_self] at hat
  exact hat.weaken fun v r hr => by rwa [mul_left_comm]

def Leaves (o : Option TopicObj) (t : Option Topic) (more : List DatumObj) : Assertion Bytes :=
  Slot o t * (fact (o.map TopicObj.shell = t.map Topic.shell) * Lost more)

theorem leaves_none {r : Blocks Bytes} (h : r = Blocks.nothing) : Leaves none none [] r := by
  rw [Leaves, lost_nil, mul_one, mul_comm]
  exact fact_mul.2 ⟨rfl, h⟩

theorem leaves_some {o : TopicObj} {t : Topic} {more : List DatumObj} (hshell : o.shell = t.shell)
    {r : Blocks Bytes} (h : (Cells o.d.cells t.d * Lost more) r) : Leaves (some o) (some t) more r := by
  rw [Leaves, mul_left_comm]
  exact fact_mul.2 ⟨congrArg some hshell, h⟩

/-- What the program of an operation does to the places, and to the shells, is what the store becomes. -/
theorem Represents.step (h : Represents S T lost) {moves : Bool} {a : Op κ} {k : κ}
    {c : Mem (Option TopicObj)} (hact : act moves S.objs a = some (k, c)) {t : Option Topic} {more : List DatumObj}
    (hc : Triple (∏ j, Slot (S.objs j) (T j)) c fun o =>
      (∏ j, Slot (Function.update S.objs k o j) (Function.update T k t j)) *
        (fact (o.map TopicObj.shell = t.map Topic.shell) * Lost more)) :
    ∃ S', S.step moves a = some S' ∧ Represents S' (Function.update T k t) (lost ++ more) := by
  obtain ⟨o, heap, q, hrun, -, hheap, hq⟩ := hc.frame (Lost lost) S.heap S.heap.blocks Blocks.nothing
    (Blocks.apart_nothing _) (Blocks.join_nothing _).symm h.owned
  rw [Blocks.join_nothing] at hheap
  have hmove : (∏ j, Slot (Function.update S.objs k o j) (Function.update T k t j)) *
      (fact (o.map TopicObj.shell = t.map Topic.shell) * Lost more) * Lost lost =
      fact (o.map TopicObj.shell = t.map Topic.shell) *
        ((∏ j, Slot (Function.update S.objs k o j) (Function.update T k t j)) * (Lost lost * Lost more)) := by
    ac_rfl
  rw [hmove] at hq
  obtain ⟨hshell, hq⟩ := fact_mul.1 hq
  refine ⟨{ heap := heap, objs := Function.update S.objs k o }, ?_, fun j => ?_, ?_⟩
  · rw [Store.step, hact, Option.bind_some]
    exact congrArg (Option.map _) hrun
  · show (Function.update S.objs k o j).map _ = (Function.update T k t j).map _
    rw [Function.update_apply, Function.update_apply]
    split
    · exact hshell
    · exact h.shell j
  · show (_ * _ : Assertion Bytes) heap.blocks
    rw [hheap]
    exact mul_mono (fun _ => id) (lost_append lost more) q hq

theorem Represents.step_one (h : Represents S T lost) {moves : Bool} {a : Op κ} {k : κ}
    {c : Mem (Option TopicObj)} (hact : act moves S.objs a = some (k, c)) {t : Option Topic}
    (hc : Triple (Slot (S.objs k) (T k)) c fun o => Leaves o t []) :
    ∃ S', S.step moves a = some S' ∧ Represents S' (Function.update T k t) (lost ++ []) := by
  refine h.step hact ?_
  have hone : Triple (Slot (S.objs k) (T k) * 1) c fun o => Leaves o t [] := by rwa [mul_one]
  have hat := slots_at (o := id) hone
  rwa [mul_one] at hat

theorem represents_step (h : Represents S T lost) (moves : Bool) {a : Op κ} {T' : κ → Option Topic}
    (hstep : a.plain T = some T') :
    ∃ S', S.step moves a = some S' ∧ Represents S' T' (lost ++ S.leaks moves a) := by
  cases a with
  | make k =>
    simp only [Op.plain] at hstep
    split at hstep
    · next hk =>
      cases hstep
      have hobj := h.free hk
      refine h.step_one (c := pure (some {})) (by simp only [act, hobj]) ?_
      rw [hobj, hk]
      refine Triple.pure fun r hr => leaves_some rfl ?_
      rw [lost_nil]
      exact (mul_one (1 : Assertion Bytes)).symm ▸ hr
    · cases hstep
  | copy k j =>
    simp only [Op.plain] at hstep
    split at hstep
    · next u hk hj =>
      cases hstep
      have hobj := h.free hk
      obtain ⟨o, ho, hshell⟩ := h.obj hj
      refine h.step (c := do return some (← o.copy)) (by simp only [act, hobj, ho]) ?_
      have hcopy : Triple (∏ i, Slot (S.objs i) (T i)) o.copy fun x =>
          fact (x.shell = o.shell) * ((∏ i, Slot (S.objs i) (T i)) * Cells x.d.cells u.d) :=
        (slots_ofRange ho hj).bind fun v => Triple.of_fact fun _ => Triple.pure fun r hr => fact_mul.2 ⟨rfl, hr⟩
      refine hcopy.bind fun x => Triple.of_fact fun hx => ?_
      refine slots_at (o := id) (c := pure (some x)) ?_
      rw [hobj, hk]
      refine Triple.pure fun r hr => ?_
      have hleaves : Leaves (some x) (some u) [] r := by
        refine leaves_some (hx.trans hshell) ?_
        rw [lost_nil, mul_comm]
        exact hr
      exact hleaves
    · cases hstep
  | assign k j =>
    simp only [Op.plain] at hstep
    split at hstep
    · next t u hk hj =>
      cases hstep
      obtain ⟨o, ho, -⟩ := h.obj hk
      obtain ⟨x, hx, hshell⟩ := h.obj hj
      refine h.step (c := do return some (← o.assign moves x)) (by simp only [act, ho, hx]) ?_
      have hleaks : S.leaks moves (.assign k j) = if moves then [] else o.d.overwritten x.d.cells.length := by
        simp only [leaks, ho, hx]
      rw [hleaks]
      have hslot : Slot (S.objs k) (T k) = Cells o.d.cells t.d := by rw [ho, hk]; rfl
      have hassign : Triple (∏ i, Slot (S.objs i) (T i)) (o.assign moves x) fun y =>
          (∏ i, Slot (Function.update S.objs k (some y) i) (Function.update T k (some u) i)) *
            (fact (y.shell = x.shell) * Lost (if moves then [] else o.d.overwritten x.d.cells.length)) := by
        refine (slots_ofRange hx hj).bind fun tmp => Triple.of_fact fun hlen => ?_
        rw [← hlen]
        refine (slots_at (T := T) (k := k) (t := some u) (o := fun d => some { x with d := d }) (hslot ▸
          Vec.assignFrom_spec moves o.d tmp t.d u.d)).bind fun d => Triple.pure fun r hr => ?_
        rw [mul_left_comm]
        exact fact_mul.2 ⟨rfl, hr⟩
      refine hassign.bind fun y => Triple.pure fun r hr => ?_
      refine mul_mono (fun _ => id) (mul_mono (fun r hy => ⟨?_, hy.2⟩) fun _ => id) r hr
      exact congrArg some (hy.1.trans hshell)
    · cases hstep
  | add k q =>
    obtain ⟨t, ht, rfl⟩ := Option.map_eq_some_iff.1 hstep
    obtain ⟨o, ho, hshell⟩ := h.obj ht
    refine h.step_one (c := do return some (← o.add q)) (by simp only [act, ho]; rfl) ?_
    rw [ho, ht]
    refine (TopicObj.add_spec o t q).bind fun x => Triple.of_fact fun hx => Triple.pure fun r hr => ?_
    exact leaves_some (t := t.add q) (hx.trans hshell) (by rwa [lost_nil, mul_one])
  | clear k =>
    obtain ⟨t, ht, rfl⟩ := Option.map_eq_some_iff.1 hstep
    obtain ⟨o, ho, hshell⟩ := h.obj ht
    refine h.step_one (c := do return some (← o.clear)) (by simp only [act, ho]; rfl) ?_
    rw [ho, ht]
    refine (TopicObj.clear_spec o t).bind fun x => Triple.of_fact fun hx => Triple.pure fun r hr => ?_
    exact leaves_some (t := t.clear) (hx.trans hshell) (by rwa [lost_nil, mul_one])
  | fromMessage k p =>
    obtain ⟨t, ht, hstep⟩ := Option.bind_eq_some_iff.1 hstep
    obtain ⟨o, ho, hshell⟩ := h.obj ht
    dsimp only at hstep
    split at hstep
    · cases hstep
    · next hok =>
      cases hstep
      refine h.step_one (c := do
        let x ← o.fromMessage p
        if Crashes x.2 then failure else return some x.1) (by simp only [act, ho]; rfl) ?_
      rw [ho, ht]
      refine (TopicObj.fromMessage_spec o t p).bind fun x => Triple.of_fact fun hx => ?_
      rw [hx.1, if_neg hok]
      refine Triple.pure fun r hr => leaves_some ?_ (by rwa [lost_nil, mul_one])
      exact hx.2.trans (hshell.trans (TopicObj.fromMessage_shell t p).symm)
  | destroy k =>
    obtain ⟨t, ht, rfl⟩ := Option.map_eq_some_iff.1 hstep
    obtain ⟨o, ho, -⟩ := h.obj ht
    refine h.step_one (c := do
      o.destroy
      return none) (by simp only [act, ho]; rfl) ?_
    rw [ho, ht]
    exact (Vec.destroyAll_spec o.d.cells t.d).bind fun _ => Triple.pure fun r hr => leaves_none hr

/-- **Every run is matched**, by one that does not fail. -/
theorem represents_run (h : Represents S T lost) (moves : Bool) {as : List (Op κ)} {T' : κ → Option Topic}
    (hrun : Run.exec Op.plain T as = some T') :
    ∃ S', Run.exec (step moves) S as = some S' ∧
      Represents S' T' (lost ++ Run.trace (step moves) (leaks moves) S as) := by
  induction as generalizing S T lost with
  | nil =>
    rw [Run.exec, Option.some_inj] at hrun
    refine ⟨S, rfl, ?_⟩
    rw [Run.trace, List.append_nil]
    exact hrun ▸ h
  | cons a as ih =>
    obtain ⟨U, hU, hrun⟩ := Run.exec_cons_eq_some.1 hrun
    obtain ⟨S₁, hS₁, h₁⟩ := represents_step h moves hU
    obtain ⟨S', hS', h'⟩ := ih h₁ hrun
    refine ⟨S', Run.exec_cons_eq_some.2 ⟨S₁, hS₁, hS'⟩, ?_⟩
    rw [Run.trace_cons hS₁, ← List.append_assoc]
    exact h'

end

end Store

/-! ## What is allocated, and what it holds -/

def DatumObj.blocks : DatumObj → Multiset Addr
  | .float _ => 0
  | .string a => {a}

def blocksOf (cells : List DatumObj) : Multiset Addr := (cells.map DatumObj.blocks).sum

theorem footprint_cell (c : DatumObj) (q : Datum) : Footprint (DatumObj.Is c q) c.blocks := by
  cases c with
  | float f =>
    cases q with
    | float g => exact Footprint.fact _
    | string s => exact fun r hr => absurd hr.1 not_false
  | string a =>
    cases q with
    | float g => exact fun r hr => absurd hr.1 not_false
    | string s =>
      rintro r ⟨m, hr⟩
      exact Footprint.points a m r (fact_mul.1 hr).2

theorem footprint_lost (cells : List DatumObj) : Footprint (Lost cells) (blocksOf cells) :=
  fun r ⟨ds, hr⟩ => Footprint.each footprint_cell cells ds r hr

def blocksAt (o : Option TopicObj) : Multiset Addr := o.elim 0 fun t => blocksOf t.d.cells

theorem footprint_slot (o : Option TopicObj) (t : Option Topic) : Footprint (Slot o t) (blocksAt o) := by
  cases o with
  | none =>
    cases t with
    | none => exact Footprint.one
    | some t => exact fun r hr => absurd hr.1 not_false
  | some o =>
    cases t with
    | none => exact fun r hr => absurd hr.1 not_false
    | some t => exact Footprint.each footprint_cell o.d.cells t.d

def DatumObj.value (h : Blocks Bytes) : DatumObj → Option Datum
  | .float f => some (.float f)
  | .string a => (h a).bind fun m => (CString.ofMem m).map .string

def TopicObj.value (h : Blocks Bytes) (o : TopicObj) : Option Topic :=
  (o.d.cells.mapM (DatumObj.value h)).map fun d => { d := d, timeLastSet := o.timeLastSet, state := o.state }

/-- Where a heap has what an assertion owns. -/
def Within (p h : Blocks Bytes) : Prop := ∀ a m, p a = some m → h a = some m

theorem within_left (p q : Blocks Bytes) : Within p (p.join q) := by
  intro a m ha
  rw [Blocks.join, ha]
  rfl

theorem within_right {p q : Blocks Bytes} (hpq : p.Apart q) : Within q (p.join q) := by
  rw [Blocks.join_comm hpq]
  exact within_left q p

theorem cell_value {c : DatumObj} {q : Datum} {p h : Blocks Bytes} (hp : DatumObj.Is c q p) (hin : Within p h) :
    c.value h = some q := by
  cases c with
  | float f =>
    cases q with
    | float g => exact congrArg (fun x => some (Datum.float x)) hp.1
    | string s => exact absurd hp.1 not_false
  | string a =>
    cases q with
    | float g => exact absurd hp.1 not_false
    | string s =>
      obtain ⟨m, hp⟩ := hp
      obtain ⟨hm, rfl⟩ := fact_mul.1 hp
      have ha : h a = some m := hin a m (if_pos rfl)
      rw [DatumObj.value, ha, Option.bind_some, hm, Option.map_some]

theorem cells_value {cells : List DatumObj} {ds : List Datum} {p h : Blocks Bytes} (hp : Cells cells ds p)
    (hin : Within p h) : cells.mapM (DatumObj.value h) = some ds := by
  induction cells generalizing ds p with
  | nil =>
    cases ds with
    | nil => rfl
    | cons d ds => exact absurd hp.1 not_false
  | cons c cells ih =>
    cases ds with
    | nil => exact absurd hp.1 not_false
    | cons d ds =>
      obtain ⟨p, q, hpq, rfl, hp, hq⟩ := hp
      have hc := cell_value hp fun a m ha => hin a m (within_left p q a m ha)
      have hcells := ih hq fun a m ha => hin a m (within_right hpq a m ha)
      rw [List.mapM_cons, hc, hcells]
      rfl

namespace Store
variable {κ : Type}

/-- Since C++11 nothing is leaked. -/
theorem leaks_moved [DecidableEq κ] (S : Store κ) (as : List (Op κ)) : Run.trace (step true) (leaks true) S as = [] := by
  induction as generalizing S with
  | nil => rfl
  | cons a as ih =>
    have hnone : S.leaks true a = [] := by
      cases a with
      | assign k j =>
        simp only [leaks]
        split <;> rfl
      | _ => rfl
    rw [Run.trace, hnone, List.nil_append]
    cases S.step true a with
    | none => rfl
    | some S' => exact ih S'

variable [Fintype κ]

def blocks (S : Store κ) : Multiset Addr := ∑ k, blocksAt (S.objs k)

theorem Represents.blocks {S : Store κ} {T : κ → Option Topic} {lost : List DatumObj} (h : Represents S T lost) :
    (S.blocks + blocksOf lost).Nodup ∧
      ∀ a, (S.heap.blocks a).isSome ↔ a ∈ S.blocks + blocksOf lost :=
  ((Footprint.prod (fun k => footprint_slot (S.objs k) (T k)) Finset.univ).mul (footprint_lost lost)) _ h.owned

variable [DecidableEq κ]

theorem Represents.value {S : Store κ} {T : κ → Option Topic} {lost : List DatumObj} (h : Represents S T lost)
    (k : κ) : (S.objs k).map (TopicObj.value S.heap.blocks) = (T k).map some := by
  cases hk : T k with
  | none => rw [h.free hk]; rfl
  | some t =>
    obtain ⟨o, ho, hshell⟩ := h.obj hk
    have howned := h.owned
    rw [← Finset.mul_prod_erase Finset.univ _ (Finset.mem_univ k), mul_assoc] at howned
    obtain ⟨p, q, -, hheap, hp, -⟩ := howned
    rw [ho, hk] at hp
    have hvalue := cells_value (h := S.heap.blocks) hp (hheap ▸ within_left p q)
    obtain ⟨htime, hstate⟩ := Prod.mk.inj hshell
    rw [ho, Option.map_some, Option.map_some, TopicObj.value, hvalue, Option.map_some, htime, hstate]

/-- **The memory of topics.** Whatever a program does with any number of topics, as long as it does not
crash on a message: no block is read, or freed, that is not allocated, and no string is read beyond its
block; every topic holds what the same program on the topics of `Data` gives; and the blocks that are
allocated are, each once, those that the topics hold and those that assignments have leaked, which are
none since C++11. -/
theorem memory_refines (moves : Bool) (as : List (Op κ)) (T : κ → Option Topic)
    (hrun : Run.exec Op.plain (fun _ => none) as = some T) :
    ∃ (S : Store κ) (leaked : List DatumObj), Run.exec (step moves) {} as = some S ∧
      leaked = Run.trace (step moves) (leaks moves) {} as ∧ (moves = true → leaked = []) ∧
      (∀ k, (S.objs k).map (TopicObj.value S.heap.blocks) = (T k).map some) ∧
      (S.blocks + blocksOf leaked).Nodup ∧
      ∀ a, (S.heap.blocks a).isSome ↔ a ∈ S.blocks + blocksOf leaked := by
  obtain ⟨S, hS, h⟩ := represents_run represents_empty moves hrun
  refine ⟨S, _, hS, rfl, ?_, h.value, h.blocks⟩
  rintro rfl
  exact leaks_moved {} as

/-- Two topics; the second is copied from the first, loads a message, and is assigned to the first. -/
def handedOver : List (Op Bool) :=
  [.make false, .add false (.ofString "ab"), .add false (.float 7), .copy true false,
    .fromMessage true (Topic.toMessage { d := [.ofString "c", .ofString "d"] } 20 (.ofString "n")),
    .assign false true, .destroy true]

/-- In C++98 the assignment leaks the string that the first held. -/
theorem memory_refines_handedOver :
    ∃ (S : Store Bool) (a : Addr), Run.exec (step false) {} handedOver = some S ∧
      (S.heap.blocks a).isSome ∧ a ∉ S.blocks := by
  have hplain : (Run.exec Op.plain (fun _ => none) handedOver).isSome = true := by decide +kernel
  obtain ⟨T, hT⟩ := Option.isSome_iff_exists.1 hplain
  obtain ⟨S, leaked, hS, hleaked, -, -, hnodup, hall⟩ := memory_refines false handedOver T hT
  have htrace : Run.trace (step false) (leaks false) {} handedOver = [.string 2, .float 7] := by decide +kernel
  have hmem : 2 ∈ blocksOf leaked := by
    rw [hleaked, htrace]
    decide
  refine ⟨S, 2, hS, (hall 2).2 (Multiset.mem_add.2 (Or.inr hmem)), fun hin => ?_⟩
  exact Multiset.disjoint_left.1 (Multiset.nodup_add.1 hnodup).2.2 hin hmem

end Store

end DiamondApparatus
