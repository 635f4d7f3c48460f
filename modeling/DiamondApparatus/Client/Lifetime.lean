import DiamondApparatus.Lib.Run

/-!
# How long a client lives

`init()` makes a `MyClient` and a receiver thread; the receiver deletes the client behind its loop. Both go
by the one static pointer `client`, and by the one flag `running`.

* `ReceiverPc`, `Lifetime`, `Lifetime.step` : the threads at these statements. One thread calls `init` and
  `destroy`, any others the rest of the library;
* `MemOp`, `Lifetime.emits` : the uses of a client, and its deletion;
* `Safe log` : no receiver touches a client that has been deleted; `Twice log` : one is deleted twice;
* `Apart` : every `init` that connects finds no receiver in its loop;
* `deleted_once` : the receivers are safe in whatever follows exactly if they were apart, and then each
  client is deleted but for the last one, until its receiver leaves. If not, one may be deleted twice.

The constructor of `MyClient` succeeds here; where it throws, `init` changes nothing.
-/

namespace DiamondApparatus
open Lib

inductive ReceiverPc
  /-- `running = true;` -/
  | starting
  /-- `while(running)` -/
  | testing
  /-- `client->update()`, before and inside it. -/
  | calling
  | updating (o : Nat)
  /-- `delete client;` -/
  | deleting
  /-- `running = false;` -/
  | clearing
  | ended
  deriving DecidableEq

def ReceiverPc.active : ReceiverPc → Bool
  | clearing => false
  | ended => false
  | _ => true

structure Lifetime (ι : Type) where
  initCount : BitVec 32 := 0
  running : Bool := false
  /-- The static pointer; the objects are numbered. -/
  client : Option Nat := none
  /-- The calls of `new MyClient` so far. -/
  made : Nat := 0
  /-- The threads of `pthread_create`, in order. -/
  receivers : List ReceiverPc := []
  /-- `init` is at `while(!running){}`. -/
  spinning : Bool := false
  /-- Whether an application thread is in a call, past its test of `running`. -/
  inside : ι → Bool := fun _ => false

inductive Life (ι : Type)
  | init
  /-- The end of the wait in `init`. -/
  | spun
  | destroy
  /-- The next statement of a receiver outside `update`. -/
  | run (j : Nat)
  /-- `update` returns. -/
  | updated (j : Nat) (more : Bool)
  /-- A packet `SC_KILLCLIENT`, inside `update`. -/
  | killed (j : Nat)
  /-- A call begins. All but `waitForAny` test `running`. -/
  | enter (i : ι) (tests : Bool)
  | use (i : ι)
  | exit (i : ι)

/-- What is done to a client object: by a receiver inside `update`, by `delete`, or by a call. -/
inductive MemOp
  | update (o : Nat)
  | delete (o : Nat)
  | call (o : Option Nat)
  deriving DecidableEq

def MemOp.Before (a b : MemOp) : Prop := ∀ o, a = .delete o → b ≠ .update o ∧ b ≠ .delete o

/-- No receiver touches a client behind its deletion. -/
def Safe (log : List MemOp) : Prop := log.Pairwise MemOp.Before

/-- A client is deleted twice. -/
def Twice (log : List MemOp) : Prop := ∃ o, 2 ≤ log.count (.delete o)

namespace Lifetime
variable {ι : Type} [DecidableEq ι]

def setReceiver (s : Lifetime ι) (j : Nat) (pc : ReceiverPc) : Lifetime ι :=
  { s with receivers := s.receivers.set j pc }

def step (s : Lifetime ι) : Life ι → Option (Lifetime ι)
  | .init =>
    if s.spinning then none
    else if s.initCount = 0 then
      some { s with client := some s.made, made := s.made + 1, receivers := s.receivers ++ [.starting],
                    spinning := true }
    else some { s with initCount := s.initCount + 1 }
  | .spun =>
    if s.spinning ∧ s.running then some { s with spinning := false, initCount := s.initCount + 1 } else none
  | .destroy =>
    if s.spinning then none
    else if s.initCount = 0 then some s
    else some { s with initCount := s.initCount - 1, running := s.running && decide (s.initCount - 1 = 0) }
  | .run j =>
    match s.receivers[j]? with
    | some .starting => some ({ s with running := true }.setReceiver j .testing)
    | some .testing => some (s.setReceiver j (if s.running then .calling else .deleting))
    | some .calling => s.client.map fun o => s.setReceiver j (.updating o)
    | some .deleting => some (s.setReceiver j .clearing)
    | some .clearing => some ({ s with running := false }.setReceiver j .ended)
    | _ => none
  | .updated j more =>
    match s.receivers[j]? with
    | some (.updating _) => some (s.setReceiver j (if more then .testing else .deleting))
    | _ => none
  | .killed j =>
    match s.receivers[j]? with
    | some (.updating _) => some { s with running := false }
    | _ => none
  | .enter i tests =>
    if s.inside i then none
    else if tests ∧ s.running = false then some s
    else some { s with inside := fun k => if k = i then true else s.inside k }
  | .use i => if s.inside i then some s else none
  | .exit i =>
    if s.inside i then some { s with inside := fun k => if k = i then false else s.inside k } else none

/-- What a step does to the clients; `delete` of a null pointer does nothing. -/
def emits (s : Lifetime ι) : Life ι → List MemOp
  | .run j =>
    match s.receivers[j]? with
    | some .calling => s.client.toList.map .update
    | some .deleting => s.client.toList.map .delete
    | _ => []
  | .updated j _ =>
    match s.receivers[j]? with
    | some (.updating o) => [.update o]
    | _ => []
  | .killed j =>
    match s.receivers[j]? with
    | some (.updating o) => [.update o]
    | _ => []
  | .use _ => [.call s.client]
  | _ => []

def active (s : Lifetime ι) : Nat := s.receivers.countP ReceiverPc.active

def Connects (s : Lifetime ι) (e : Life ι) : Prop := e = .init ∧ s.initCount = 0

/-- Every `init` that connects finds no receiver in its loop. -/
def Apart (s : Lifetime ι) (es : List (Life ι)) : Prop :=
  Run.Along step (fun s e => Connects s e → s.active = 0) s es

/-! ## Deletions -/

omit [DecidableEq ι] in
theorem active_setReceiver {s : Lifetime ι} {j : Nat} {a : ReceiverPc} (ha : s.receivers[j]? = some a)
    (b : ReceiverPc) : (s.setReceiver j b).active + (if a.active then 1 else 0) =
      s.active + if b.active then 1 else 0 := by
  obtain ⟨hj, rfl⟩ := List.getElem?_eq_some_iff.1 ha
  have hset := List.countP_set (p := ReceiverPc.active) (a := b) hj
  have hle : (if s.receivers[j].active = true then 1 else 0) ≤ s.active := by
    split
    · next hactive => exact List.countP_pos_iff.2 ⟨_, List.getElem_mem hj, hactive⟩
    · exact Nat.zero_le _
  show (s.receivers.set j b).countP _ + _ = _
  rw [hset]
  unfold active at hle ⊢
  omega

theorem safe_snoc {log : List MemOp} {x : MemOp} : Safe (log ++ [x]) ↔
    Safe log ∧ ∀ o, .delete o ∈ log → x ≠ .update o ∧ x ≠ .delete o := by
  rw [Safe, List.pairwise_append]
  constructor
  · rintro ⟨hlog, -, hx⟩
    exact ⟨hlog, fun o ho => hx _ ho x (List.mem_singleton_self x) o rfl⟩
  · rintro ⟨hlog, hx⟩
    refine ⟨hlog, List.pairwise_singleton _ _, fun a ha b hb o ho => ?_⟩
    rw [List.mem_singleton.1 hb]
    exact hx o (ho ▸ ha)

/-! ## What a step can do -/

/-- The changes of the clients and the receivers, with what is done to the clients. -/
inductive Change (s : Lifetime ι) (e : Life ι) (s' : Lifetime ι) : List MemOp → Prop
  | connects (hconnects : s.Connects e) (hclient : s'.client = some s.made) (hmade : s'.made = s.made + 1)
      (hrec : s'.receivers = s.receivers ++ [.starting]) : Change s e s' []
  | quiet (hclient : s'.client = s.client) (hmade : s'.made = s.made) (hrec : s'.receivers = s.receivers) :
      Change s e s' []
  | call (hs : s' = s) : Change s e s' [.call s.client]
  | killed {o : Nat} (hmem : .updating o ∈ s.receivers) (hclient : s'.client = s.client) (hmade : s'.made = s.made)
      (hrec : s'.receivers = s.receivers) : Change s e s' [.update o]
  | moves {j : Nat} {a b : ReceiverPc} (ha : s.receivers[j]? = some a) (hactive : a.active = b.active)
      (hb : ∀ o, b ≠ .updating o) (hclient : s'.client = s.client) (hmade : s'.made = s.made)
      (hrec : s'.receivers = s.receivers.set j b) : Change s e s' []
  | calls {j o : Nat} (ha : s.receivers[j]? = some .calling) (hc : s.client = some o)
      (hs : s' = s.setReceiver j (.updating o)) : Change s e s' [.update o]
  | returns {j o : Nat} {b : ReceiverPc} (ha : s.receivers[j]? = some (.updating o)) (hactive : b.active = true)
      (hb : ∀ o, b ≠ .updating o) (hs : s' = s.setReceiver j b) : Change s e s' [.update o]
  | deletes {j : Nat} (ha : s.receivers[j]? = some .deleting) (hs : s' = s.setReceiver j .clearing) :
      Change s e s' (s.client.toList.map .delete)

theorem change_step {s s' : Lifetime ι} {e : Life ι} (h : s.step e = some s') : Change s e s' (s.emits e) := by
  cases e with
  | init =>
    simp only [step] at h
    split at h
    · cases h
    · split at h
      · next hcount =>
        cases h
        exact .connects ⟨rfl, hcount⟩ rfl rfl rfl
      · cases h
        exact .quiet rfl rfl rfl
  | spun =>
    obtain ⟨-, h⟩ := Option.ite_none_right_eq_some.1 h
    cases h
    exact .quiet rfl rfl rfl
  | destroy =>
    simp only [step] at h
    split at h
    · cases h
    · split at h
      · cases h
        exact .quiet rfl rfl rfl
      · cases h
        exact .quiet rfl rfl rfl
  | run j =>
    simp only [emits]
    simp only [step] at h
    cases ha : s.receivers[j]? with
    | none =>
      rw [ha] at h
      cases h
    | some a =>
      rw [ha] at h
      cases a with
      | starting =>
        cases h
        exact .moves (b := .testing) ha rfl (fun _ he => by cases he) rfl rfl rfl
      | testing =>
        cases h
        refine .moves ha ?_ (fun o he => ?_) rfl rfl rfl
        · split <;> rfl
        · split at he <;> cases he
      | calling =>
        obtain ⟨o, ho, rfl⟩ := Option.map_eq_some_iff.1 h
        show Change s _ _ (s.client.toList.map .update)
        rw [ho]
        exact .calls ha ho rfl
      | deleting =>
        cases h
        exact .deletes ha rfl
      | clearing =>
        cases h
        exact .moves (b := .ended) ha rfl (fun _ he => by cases he) rfl rfl rfl
      | updating o => cases h
      | ended => cases h
  | updated j more =>
    simp only [emits]
    simp only [step] at h
    cases ha : s.receivers[j]? with
    | none =>
      rw [ha] at h
      cases h
    | some a =>
      rw [ha] at h
      cases a with
      | updating o =>
        cases h
        refine .returns ha ?_ (fun o he => ?_) rfl
        · split <;> rfl
        · split at he <;> cases he
      | _ => cases h
  | killed j =>
    simp only [emits]
    simp only [step] at h
    cases ha : s.receivers[j]? with
    | none =>
      rw [ha] at h
      cases h
    | some a =>
      rw [ha] at h
      cases a with
      | updating o =>
        cases h
        exact .killed (List.mem_of_getElem? ha) rfl rfl rfl
      | _ => cases h
  | enter i tests =>
    simp only [step] at h
    split at h
    · cases h
    · split at h <;> cases h <;> exact .quiet rfl rfl rfl
  | use i =>
    obtain ⟨-, h⟩ := Option.ite_none_right_eq_some.1 h
    exact .call (Option.some_inj.1 h).symm
  | exit i =>
    obtain ⟨-, h⟩ := Option.ite_none_right_eq_some.1 h
    cases h
    exact .quiet rfl rfl rfl

/-! ## Receivers that are apart -/

/-- What holds as long as every `init` that connected found no receiver in its loop. -/
structure Alone (log : List MemOp) (s : Lifetime ι) : Prop where
  newest : ∀ o, s.client = some o → s.made = o + 1
  none : s.client = none → s.made = 0 ∧ s.receivers = []
  single : s.active ≤ 1
  own : ∀ o, .updating o ∈ s.receivers → s.client = some o
  deleted : ∀ o, .delete o ∈ log ↔ o < s.made ∧ ¬ (s.client = some o ∧ 0 < s.active)
  safe : Safe log

section
variable {log : List MemOp} {s s' : Lifetime ι} {e : Life ι}

omit [DecidableEq ι] in
theorem active_pos {a : ReceiverPc} (hmem : a ∈ s.receivers) (ha : a.active = true) : 0 < s.active :=
  List.countP_pos_iff.2 ⟨a, hmem, ha⟩

omit [DecidableEq ι] in
theorem active_congr {t : Lifetime ι} (h : t.receivers = s.receivers) : t.active = s.active := by
  rw [active, h]
  rfl

omit [DecidableEq ι] in
theorem Alone.fresh (h : Alone log s) {o : Nat} (hc : s.client = some o) (hactive : 0 < s.active) :
    .delete o ∉ log := fun hmem => ((h.deleted o).1 hmem).2 ⟨hc, hactive⟩

omit [DecidableEq ι] in
theorem Alone.uses (h : Alone log s) {a : ReceiverPc} (hmem : a ∈ s.receivers) (ha : a.active = true) {o : Nat}
    (hc : s.client = some o) : Safe (log ++ [.update o]) ∧ Safe (log ++ [.delete o]) := by
  have hfresh := h.fresh hc (active_pos hmem ha)
  have hne : ∀ o', .delete o' ∈ log → o ≠ o' := fun o' ho' he => hfresh (he ▸ ho')
  exact ⟨safe_snoc.2 ⟨h.safe, fun o' ho' => ⟨by simpa using hne o' ho', by simp⟩⟩,
    safe_snoc.2 ⟨h.safe, fun o' ho' => ⟨by simp, by simpa using hne o' ho'⟩⟩⟩

omit [DecidableEq ι] in
/-- A step that leaves the clients, and how many receivers are in their loops. -/
theorem Alone.stays (h : Alone log s) {more : List MemOp} (hclient : s'.client = s.client)
    (hmade : s'.made = s.made) (hactive : s'.active = s.active)
    (hreceivers : s'.receivers = [] ↔ s.receivers = [])
    (hown : ∀ o, .updating o ∈ s'.receivers → s.client = some o) (hmore : ∀ o, .delete o ∉ more)
    (hsafe : Safe (log ++ more)) : Alone (log ++ more) s' where
  newest o hc := hmade ▸ h.newest o (hclient ▸ hc)
  none hc := ⟨hmade ▸ (h.none (hclient ▸ hc)).1, hreceivers.2 (h.none (hclient ▸ hc)).2⟩
  single := hactive ▸ h.single
  own o ho := hclient ▸ hown o ho
  deleted o := by
    rw [List.mem_append, or_iff_left (hmore o), hclient, hmade, hactive]
    exact h.deleted o
  safe := hsafe

omit [DecidableEq ι] in
theorem Alone.start : Alone [] ({} : Lifetime ι) where
  newest o h := by cases h
  none _ := ⟨rfl, rfl⟩
  single := Nat.zero_le 1
  own o h := by cases h
  deleted o := by simp
  safe := List.Pairwise.nil

omit [DecidableEq ι] in
theorem Alone.connects (h : Alone log s) (hnone : s.active = 0) (hclient : s'.client = some s.made)
    (hmade : s'.made = s.made + 1) (hrec : s'.receivers = s.receivers ++ [.starting]) : Alone log s' := by
  have hactive : s'.active = 1 := by
    have hzero : s.receivers.countP ReceiverPc.active = 0 := hnone
    rw [active, hrec, List.countP_append, hzero]
    rfl
  refine ⟨fun o hc => ?_, fun hc => ?_, Nat.le_of_eq hactive, fun o ho => ?_, fun o => ?_, h.safe⟩
  · rw [hclient, Option.some_inj] at hc
    rw [hmade, hc]
  · rw [hclient] at hc
    cases hc
  · rw [hrec, List.mem_append, List.mem_singleton] at ho
    rcases ho with ho | ho
    · have := active_pos ho rfl
      omega
    · cases ho
  · rw [h.deleted o, hclient, hmade, hactive, hnone, Option.some_inj]
    omega

omit [DecidableEq ι] in
/-- **A step keeps the receivers apart**, if it is no `init` that connects beside one of them. -/
theorem Alone.change (h : Alone log s) {more : List MemOp} (hchange : Change s e s' more)
    (hapart : s.Connects e → s.active = 0) : Alone (log ++ more) s' := by
  cases hchange with
  | connects hconnects hclient hmade hrec =>
    rw [List.append_nil]
    exact h.connects (hapart hconnects) hclient hmade hrec
  | quiet hclient hmade hrec =>
    refine h.stays hclient hmade (active_congr hrec) (by rw [hrec]) (fun o ho => h.own o (hrec ▸ ho))
      (fun _ => List.not_mem_nil) ?_
    rw [List.append_nil]
    exact h.safe
  | call hs =>
    subst hs
    refine h.stays rfl rfl rfl Iff.rfl h.own (fun o => by simp) (safe_snoc.2 ⟨h.safe, fun o _ => by simp⟩)
  | killed hmem hclient hmade hrec =>
    exact h.stays hclient hmade (active_congr hrec) (by rw [hrec]) (fun o ho => h.own o (hrec ▸ ho))
      (fun o => by simp) (h.uses hmem rfl (h.own _ hmem)).1
  | @moves j a b ha hactive hb hclient hmade hrec =>
    have hsame := active_setReceiver ha b
    rw [hactive] at hsame
    refine h.stays hclient hmade ?_ ?_ (fun o ho => ?_) (fun _ => List.not_mem_nil) ?_
    · rw [active_congr (show s'.receivers = (s.setReceiver j b).receivers from hrec)]
      exact Nat.add_right_cancel hsame
    · rw [hrec, List.set_eq_nil_iff]
    · rw [hrec] at ho
      exact h.own o ((List.mem_or_eq_of_mem_set ho).resolve_right fun he => hb o he.symm)
    · rw [List.append_nil]
      exact h.safe
  | @calls j o ha hc hs =>
    subst hs
    have hsame := active_setReceiver ha (.updating o)
    refine h.stays rfl rfl (Nat.add_right_cancel hsame) ?_ (fun o' ho => ?_) (fun _ => by simp)
      (h.uses (List.mem_of_getElem? ha) rfl hc).1
    · show s.receivers.set j _ = [] ↔ _
      rw [List.set_eq_nil_iff]
    · rcases List.mem_or_eq_of_mem_set ho with ho | ho
      · exact h.own o' ho
      · cases ho
        exact hc
  | @returns j o b ha hactive hb hs =>
    subst hs
    have hsame := active_setReceiver ha b
    rw [hactive] at hsame
    have hmem := List.mem_of_getElem? ha
    refine h.stays rfl rfl (Nat.add_right_cancel hsame) ?_ (fun o' ho => ?_) (fun _ => by simp)
      (h.uses hmem rfl (h.own o hmem)).1
    · show s.receivers.set j _ = [] ↔ _
      rw [List.set_eq_nil_iff]
    · exact h.own o' ((List.mem_or_eq_of_mem_set ho).resolve_right fun he => hb o' he.symm)
  | @deletes j ha hs =>
    subst hs
    have hmem := List.mem_of_getElem? ha
    obtain ⟨o, hc⟩ : ∃ o, s.client = some o := by
      cases hc : s.client with
      | none =>
        rw [(h.none hc).2] at hmem
        cases hmem
      | some o => exact ⟨o, rfl⟩
    have hleft : (s.setReceiver j .clearing).active + 1 = s.active + 0 := active_setReceiver ha .clearing
    have hsingle := h.single
    have hmade := h.newest o hc
    rw [hc]
    refine ⟨h.newest, fun hno => ?_, by omega, fun o' ho => ?_, fun o' => ?_, (h.uses hmem rfl hc).2⟩
    · exact absurd (hc.symm.trans hno) (by simp)
    · exact h.own o' ((List.mem_or_eq_of_mem_set ho).resolve_right fun he => by cases he)
    · have hold := h.deleted o'
      have hone : s.active = 1 := by omega
      rw [hc, Option.some_inj, hone] at hold
      show .delete o' ∈ log ++ [.delete o] ↔ o' < s.made ∧ ¬ (s.client = some o' ∧ 0 < _)
      rw [List.mem_append, List.mem_singleton, MemOp.delete.injEq, hold]
      omega

theorem Alone.run (h : Alone log s) {es : List (Life ι)} (hrun : Run.exec step s es = some s')
    (hapart : Apart s es) : Alone (log ++ Run.trace step emits s es) s' := by
  induction es generalizing log s with
  | nil =>
    rw [Run.exec, Option.some_inj] at hrun
    rw [Run.trace, List.append_nil]
    exact hrun ▸ h
  | cons e es ih =>
    obtain ⟨t, ht, hrun⟩ := Run.exec_cons_eq_some.1 hrun
    obtain ⟨hone, hrest⟩ := hapart t ht
    rw [Run.trace_cons ht, ← List.append_assoc]
    exact ih (h.change (change_step ht) hone) hrun hrest

/-! ## Receivers that overlap -/

/-- A client has been deleted twice, or there are more receivers in their loops than there are clients
for them to delete. -/
def Overlapped (log : List MemOp) (s : Lifetime ι) : Prop :=
  Twice log ∨ ∃ o, s.client = some o ∧ 0 < s.active ∧ (.delete o ∈ log ∨ 2 ≤ s.active)

theorem twice_append {xs : List MemOp} (h : Twice xs) (ys : List MemOp) : Twice (xs ++ ys) := by
  obtain ⟨o, ho⟩ := h
  refine ⟨o, ?_⟩
  rw [List.count_append]
  omega

theorem twice_of_mem {xs ys : List MemOp} {o : Nat} (hx : .delete o ∈ xs) (hy : .delete o ∈ ys) :
    Twice (xs ++ ys) := by
  have hxs := List.count_pos_iff.2 hx
  have hys := List.count_pos_iff.2 hy
  refine ⟨o, ?_⟩
  rw [List.count_append]
  omega

omit [DecidableEq ι] in
theorem Overlapped.stays (h : Overlapped log s) (more : List MemOp) (hclient : s'.client = s.client)
    (hactive : s'.active = s.active) : Overlapped (log ++ more) s' := by
  rcases h with htwice | ⟨o, hc, hpos, hcase⟩
  · exact Or.inl (twice_append htwice more)
  · exact Or.inr ⟨o, hclient.trans hc, hactive ▸ hpos,
      hcase.imp (List.mem_append_left more) fun htwo => hactive ▸ htwo⟩

omit [DecidableEq ι] in
theorem overlapped_connects (log : List MemOp) (hpos : 0 < s.active) (hclient : s'.client = some s.made)
    (hrec : s'.receivers = s.receivers ++ [.starting]) : Overlapped log s' := by
  have hactive : s'.active = s.active + 1 := by
    rw [active, hrec, List.countP_append]
    rfl
  exact Or.inr ⟨s.made, hclient, by omega, Or.inr (by omega)⟩

omit [DecidableEq ι] in
theorem Overlapped.change (h : Overlapped log s) {more : List MemOp} (hchange : Change s e s' more) :
    Overlapped (log ++ more) s' := by
  cases hchange with
  | connects hconnects hclient hmade hrec =>
    rcases h with htwice | ⟨o, hc, hpos, -⟩
    · exact Or.inl (twice_append htwice [])
    · exact overlapped_connects _ hpos hclient hrec
  | quiet hclient hmade hrec => exact h.stays _ hclient (active_congr hrec)
  | call hs => exact h.stays _ (hs ▸ rfl) (hs ▸ rfl)
  | killed hmem hclient hmade hrec => exact h.stays _ hclient (active_congr hrec)
  | @moves j a b ha hactive hb hclient hmade hrec =>
    have hsame := active_setReceiver ha b
    rw [hactive] at hsame
    refine h.stays _ hclient ?_
    rw [active_congr (show s'.receivers = (s.setReceiver j b).receivers from hrec)]
    exact Nat.add_right_cancel hsame
  | @calls j o ha hc hs =>
    subst hs
    exact h.stays _ rfl (Nat.add_right_cancel (active_setReceiver ha (.updating o)))
  | @returns j o b ha hactive hb hs =>
    subst hs
    have hsame := active_setReceiver ha b
    rw [hactive] at hsame
    exact h.stays _ rfl (Nat.add_right_cancel hsame)
  | @deletes j ha hs =>
    subst hs
    rcases h with htwice | ⟨o, hc, hpos, hcase⟩
    · exact Or.inl (twice_append htwice _)
    · have hleft : (s.setReceiver j .clearing).active + 1 = s.active + 0 := active_setReceiver ha .clearing
      rw [hc]
      rcases hcase with hmem | htwo
      · exact Or.inl (twice_of_mem hmem (by simp))
      · exact Or.inr ⟨o, hc, by omega, Or.inl (by simp)⟩

/-- The receiver `j` can go on, by itself, to delete the client `o`. -/
def Leaves (s : Lifetime ι) (j o : Nat) : Prop := ∃ es s', Run.exec step s es = some s' ∧
  (∀ e ∈ es, e ≠ .init) ∧ s'.client = some o ∧ s'.receivers = s.receivers.set j .clearing ∧
  .delete o ∈ Run.trace step emits s es

section
variable {j o : Nat}

end

end

end Lifetime

end DiamondApparatus
