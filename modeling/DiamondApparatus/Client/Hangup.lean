import DiamondApparatus.Client.Waiting

/-!
# Sleepers when the connection goes

A kill wakes one waiter, and only if `waittopic` is set; the end of the stream wakes nobody. And a
thread that passed the test of `running` before can still go to sleep after.

* `Lost s` : the connection is gone, or its loss is decided; `NoneLeft s` : then nobody is asleep;
* `WakesAll s a` : the step `a` leaves nobody asleep on a lost connection;
* `noneLeft_step`, `hangup_wakes_all` : a step, and a run, keeps the one exactly if the other holds;
* `resume_aborts` : and whoever is woken then gets `TOPIC_NOTCONNECTED`.
-/

namespace DiamondApparatus
open Lib Std

namespace Process
variable {ι : Type}

/-- The receiver has left its loop, or will at the next test of `running`. -/
def Lost (s : Process ι) : Prop := s.receiver ≠ .looping ∨ s.c.running = false

def NoneLeft (s : Process ι) : Prop := s.Lost → s.getcond = ∅

/-- The steps that can leave a sleeper on a lost connection, and when they do not: a kill finds at most
one waiter, and wakes it; the end of the stream finds nobody asleep; and no thread goes to sleep once
the connection is lost, neither in a `get` that was entered before, nor in one that wakes before
`running` is false, nor in `waitForAny`. -/
def WakesAll (s : Process ι) : Label ι → Prop
  | .packet p _ who => (∃ msg, takeU32 p = some (scKillclient, msg)) →
      ∀ i ∈ s.getcond, s.c.waittopic ≠ none ∧ who = some i
  | .hangup => s.getcond = ∅
  | .lock i => s.Lost → ∀ n wait, s.threads i = .entered n wait → ¬ s.c.MustWait n wait
  | .resume i => s.Lost → ∀ n wait t loop, s.threads i = .waiting n wait t loop →
      s.c.running = true → loop.test (s.c.heap t).state = false
  | .waitForAny _ => ¬ s.Lost
  | _ => True

theorem noneLeft_of_eq {s s' : Process ι} (h : NoneLeft s) (hlost : s'.Lost → s.Lost)
    (hcond : s'.getcond ⊆ s.getcond) : NoneLeft s' := by
  intro hl
  rw [← Finset.subset_empty, ← h (hlost hl)]
  exact hcond

/-- Where a thread goes to sleep, the connection must not be lost. -/
theorem noneLeft_of_mem {s' : Process ι} {i : ι} (hi : i ∈ s'.getcond) : NoneLeft s' ↔ ¬ s'.Lost := by
  refine ⟨fun h hl => ?_, fun h hl => absurd hl h⟩
  rw [h hl] at hi
  exact absurd hi (Finset.notMem_empty i)

theorem noneLeft_start : NoneLeft (start : Process ι) := fun _ => rfl

/-- Where the connection is as before and nobody goes to sleep, nobody is left asleep. -/
theorem noneLeft_same {s t : Process ι} (h : NoneLeft s) (hr : t.receiver = s.receiver)
    (hrun : t.c.running = s.c.running) (hcond : t.getcond ⊆ s.getcond) : NoneLeft t := by
  refine noneLeft_of_eq h ?_ hcond
  unfold Lost
  rw [hr, hrun]
  exact id

/-- Where the connection is as before and `i` goes to sleep, it must not have been lost. -/
theorem noneLeft_block {s t : Process ι} {i : ι} (hr : t.receiver = s.receiver)
    (hrun : t.c.running = s.c.running) (hi : i ∈ t.getcond) : NoneLeft t ↔ ¬ s.Lost := by
  rw [noneLeft_of_mem hi]
  unfold Lost
  rw [hr, hrun]

variable [DecidableEq ι]

theorem noneLeft_locked {s : Process ι} (h : NoneLeft s) {i : ι} {n : CString} {wait : Wait}
    {r : MyClient × GetStep} (hi : s.threads i = .entered n wait) (hr : MyClient.Took s.c n wait r) :
    WakesAll s (.lock i) ↔ NoneLeft (s.ends i n wait r) := by
  have hwakes : WakesAll s (.lock i) ↔ (s.Lost → ¬ s.c.MustWait n wait) := by
    refine forall_congr' fun hl => ⟨fun hall => hall n wait hi, fun hno n' wait' hi' => ?_⟩
    rw [hi] at hi'
    cases hi'
    exact hno
  rw [hwakes]
  cases hr with
  | returns w rv hno => exact iff_of_true (fun _ => hno) (noneLeft_same h rfl rfl subset_rfl)
  | waits t loop hwait hloop htest ht =>
    have hmust : s.c.MustWait n wait := ⟨hwait, t, ht, not_ready_of_test hloop htest⟩
    have hsleeps : NoneLeft (s.ends i n wait ({ s.c with waittopic := some n }, .waits t loop)) ↔
        ¬ s.Lost := noneLeft_block rfl rfl (Finset.mem_insert_self i s.getcond)
    rw [hsleeps]
    exact ⟨fun hall hl => hall hl hmust, fun hl hlost => absurd hlost hl⟩
  | takes t _ hno => exact iff_of_true (fun _ => hno) (noneLeft_same h rfl rfl subset_rfl)

theorem noneLeft_woken {s : Process ι} (h : NoneLeft s) {i : ι} {n : CString} {wait : Wait} {t : Ref}
    {loop : Loop} {r : MyClient × GetStep} (hi : s.threads i = .waiting n wait t loop)
    (hr : MyClient.Woke s.c n t loop r) : WakesAll s (.resume i) ↔ NoneLeft (s.ends i n wait r) := by
  have hwakes : WakesAll s (.resume i) ↔
      (s.Lost → s.c.running = true → loop.test (s.c.heap t).state = false) := by
    refine forall_congr' fun hl => ⟨fun hall => hall n wait t loop hi, fun hno n' wait' t' loop' hi' => ?_⟩
    rw [hi] at hi'
    cases hi'
    exact hno
  rw [hwakes]
  cases hr with
  | aborts hrun =>
    refine iff_of_true (fun _ htrue => ?_) (noneLeft_same h rfl rfl subset_rfl)
    rw [hrun] at htrue
    cases htrue
  | waits hrun htest =>
    have hsleeps : NoneLeft (s.ends i n wait ({ s.c with waittopic := some n }, .waits t loop)) ↔
        ¬ s.Lost := noneLeft_block rfl rfl (Finset.mem_insert_self i s.getcond)
    rw [hsleeps, htest]
    exact ⟨fun hall hl => Bool.noConfusion (hall hl hrun), fun hl hlost => absurd hlost hl⟩
  | takes _ htest => exact iff_of_true (fun _ _ => htest) (noneLeft_same h rfl rfl subset_rfl)

/-- A kill leaves nobody asleep exactly if it finds at most one waiter, and wakes it. -/
theorem noneLeft_kill {s : Process ι} {msg : Bytes} {p : Bytes} (htype : takeU32 p = some (scKillclient, msg))
    (now : Clock) (who : Option ι) : WakesAll s (.packet p now who) ↔
      NoneLeft (s.received { s.c with running := false, waittopic := none } s.c.waittopic.isSome who) := by
  have hlost : (s.received { s.c with running := false, waittopic := none }
      s.c.waittopic.isSome who).Lost := Or.inr (by rw [(received_c _ _ _ _).1])
  constructor
  · intro hwakes _
    rw [Finset.eq_empty_iff_forall_notMem]
    intro i hi
    obtain ⟨hi, hnot⟩ := mem_received.1 hi
    obtain ⟨hw, hwho⟩ := hwakes ⟨msg, htype⟩ i hi
    exact hnot ⟨Option.isSome_iff_ne_none.2 hw, hwho⟩
  · intro hnone _ i hi
    by_contra hnot
    have hin : i ∈ (s.received { s.c with running := false, waittopic := none }
        s.c.waittopic.isSome who).getcond :=
      mem_received.2 ⟨hi, fun hand => hnot ⟨Option.isSome_iff_ne_none.1 hand.1, hand.2⟩⟩
    rw [hnone hlost] at hin
    exact absurd hin (Finset.notMem_empty i)

/-- **A step leaves nobody behind exactly if it wakes all it must.** -/
theorem noneLeft_step {s s' : Process ι} {a : Label ι} (h : NoneLeft s) (hstep : s.step a = some s') :
    WakesAll s a ↔ NoneLeft s' := by
  cases step_moves hstep with
  | enters i n wait _ _ => exact iff_of_true trivial (noneLeft_same h rfl rfl subset_rfl)
  | refused i n wait _ _ => exact iff_of_true trivial (noneLeft_same h rfl rfl subset_rfl)
  | locked i n wait r hi hr => exact noneLeft_locked h hi hr
  | spurious i _ =>
    exact iff_of_true trivial (noneLeft_same h rfl rfl fun j hj => (mem_wake.1 hj).1)
  | woken i n wait t loop r _ hi hr => exact noneLeft_woken h hi hr
  | wokenAny i _ hi =>
    refine iff_of_true ?_ (noneLeft_same h rfl rfl subset_rfl)
    intro _ n wait t loop hi'
    rw [hi] at hi'
    cases hi'
  | waitsAny i _ =>
    refine Iff.symm (noneLeft_block (i := i) ?_ ?_ ?_)
    · rfl
    · rfl
    · exact Finset.mem_insert_self i s.getcond
  | subscribes n => exact iff_of_true trivial (noneLeft_same h rfl rfl subset_rfl)
  | receives p now who c signal _ _ hc _ =>
    obtain ⟨hcc, hrec⟩ := received_c s c signal who
    have hshrinks : (s.received c signal who).getcond ⊆ s.getcond :=
      fun i hi => (mem_received.1 hi).1
    cases hc with
    | ignores _ hkill =>
      refine iff_of_true ?_ (noneLeft_same h hrec (by rw [hcc]) hshrinks)
      rintro ⟨msg, hm⟩
      exact absurd hm (hkill msg)
    | kills msg htype => exact noneLeft_kill htype now who
    | notifies msg htype n _ t _ x _ _ w _ =>
      refine iff_of_true ?_ (noneLeft_same h hrec (by rw [hcc]; rfl) hshrinks)
      rintro ⟨msg', hm⟩
      rw [htype] at hm
      cases hm
  | hangup _ =>
    constructor
    · exact fun hempty _ => hempty
    · exact fun hnone => hnone (Or.inl (fun he => nomatch he))
  | leave _ hrun =>
    exact iff_of_true trivial (noneLeft_of_eq h (fun _ => Or.inr hrun) subset_rfl)
  | finish hleft =>
    exact iff_of_true trivial (noneLeft_of_eq h
      (fun _ => Or.inl (by rw [hleft]; exact fun he => nomatch he)) subset_rfl)

theorem done_step {s s' : Process ι} {a : Label ι} (h : s.receiver = .done → s.c.running = false)
    (hstep : s.step a = some s') : s'.receiver = .done → s'.c.running = false := by
  cases step_moves hstep with
  | enters | refused | spurious | wokenAny | waitsAny | subscribes => exact h
  | locked i n wait r _ hr => cases hr <;> exact h
  | woken i n wait t loop r _ _ hr => cases hr <;> exact h
  | receives p now who c signal hloop _ _ _ =>
    rw [(received_c s c signal who).2, hloop]
    exact fun he => nomatch he
  | hangup _ => exact fun he => nomatch he
  | leave _ _ => exact fun he => nomatch he
  | finish _ => exact fun _ => rfl

theorem resume_aborts {s : Process ι} {i : ι} {n : CString} {wait : Wait} {t : Ref} {loop : Loop}
    (hi : s.threads i = .waiting n wait t loop) (hc : i ∉ s.getcond) (hrun : s.c.running = false) :
    ∃ s', s.step (.resume i) = some s' ∧ s'.threads i = .returned { state := .notconnected } := by
  refine ⟨_, ?_, setThread_self { s with c := { s.c with waittopic := none } } i _⟩
  simp only [step, if_neg hc, hi, MyClient.getWoken, hrun, Bool.false_eq_true, if_false]
  rfl

/-- **Nobody is left asleep exactly if every loss wakes all.** In every state of a run nobody is asleep
on a lost connection, if and only if every step of the run wakes all it must. When it does, and
`threadfunc` is done, every waiting `get` returns `TOPIC_NOTCONNECTED`. -/
theorem hangup_wakes_all (as : List (Label ι)) :
    (Run.Throughout step NoneLeft (start : Process ι) as ↔ Run.Along step WakesAll start as) ∧
    (Run.Along step WakesAll (start : Process ι) as → ∀ s, Run.exec step start as = some s →
      s.receiver = .done → s.getcond = ∅ ∧ ∀ i n wait t loop, s.threads i = .waiting n wait t loop →
        ∃ s', s.step (.resume i) = some s' ∧ s'.threads i = .returned { state := .notconnected }) := by
  have hiff : Run.Throughout step NoneLeft (start : Process ι) as ↔ Run.Along step WakesAll start as :=
    Run.throughout_iff_along (I := fun _ => True) (fun _ _ _ _ _ => trivial)
      (fun _ _ _ _ h hstep => noneLeft_step h hstep) trivial noneLeft_start
  refine ⟨hiff, fun hall s hs hdone => ?_⟩
  have hempty : s.getcond = ∅ :=
    (hiff.2 hall).exec hs (Or.inl (by rw [hdone]; exact fun he => nomatch he))
  have hrun : s.c.running = false :=
    Run.invariant (I := fun s : Process ι => s.receiver = .done → s.c.running = false)
      (fun _ _ _ h hstep => done_step h hstep) (fun he : Receiver.looping = .done => nomatch he) hs hdone
  refine ⟨hempty, fun i n wait t loop hi => resume_aborts hi ?_ hrun⟩
  rw [hempty]
  exact Finset.notMem_empty i

/-- Thread 0 waits for 'a', and the server goes away. -/
def abandoned : List (Label (Fin 1)) :=
  [.subscribe (.ofString "a"), .get 0 (.ofString "a") .any, .lock 0, .hangup, .finish]

theorem abandoned_sleeps :
    ∃ s, Run.exec step start abandoned = some s ∧ s.receiver = .done ∧ s.c.running = false ∧
      0 ∈ s.getcond := by
  have hrun : (Run.exec step start abandoned).map
      (fun s => (s.receiver, s.c.running, decide (0 ∈ s.getcond))) = some (.done, false, true) := by
    decide +kernel
  obtain ⟨s, hs, he⟩ := Option.map_eq_some_iff.1 hrun
  simp only [Prod.mk.injEq, decide_eq_true_eq] at he
  exact ⟨s, hs, he⟩

end Process

end DiamondApparatus
