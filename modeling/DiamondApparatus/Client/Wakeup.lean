import DiamondApparatus.Client.Waiting
import DiamondApparatus.Data.RoundTrip

/-!
# Wake-ups lost in `get()`

All waiters share `waittopic`, which every `get()` resets, and a signal wakes one of them. A sleeper
also keeps the `Topic` it looked up, which a later `subscribe` of its name replaces.

* `NoLostWakeup s` : nobody is asleep in `get()` on a topic that is ready for it;
* `Heeded s a` : the step `a` does not take one of the two ways to lose a wake-up;
* `noLostWakeup_step` : a step keeps the one exactly if the other holds of it;
* `no_lost_wakeup` : so a run loses none exactly if all its steps are heeded.
-/

namespace DiamondApparatus
open Lib Std

theorem ready_changed {wait : Wait} (h : wait ≠ .none) : Ready wait .changed := by
  cases wait with
  | none => exact absurd rfl h
  | any => exact Or.inl ⟨rfl, by decide⟩
  | new => exact Or.inr ⟨rfl, rfl⟩

namespace MyClient

/-- From `c` to `c'` no topic becomes ready for anybody. -/
def Calms (c c' : MyClient) : Prop :=
  ∀ n wait, ¬ Ready wait (c.stateOf n) → ¬ Ready wait (c'.stateOf n)

theorem calms_of_eq {c c' : MyClient} (ht : c'.topics = c.topics) (hh : c'.heap = c.heap) :
    Calms c c' := by
  intro n wait h
  have : c'.stateOf n = c.stateOf n := by rw [stateOf, stateOf, ht, hh]
  rwa [this]

theorem take_calms {c : MyClient} {t : Ref} (h : (c.heap t).state ≠ .nodata) (w : Option CString) :
    Calms c ({ c with waittopic := w }.take t).1 := by
  intro n wait hnot hready
  have hst : ({ c with waittopic := w }.take t).1.stateOf n =
      if c.topics[n]? = some t then .unchanged else c.stateOf n :=
    stateOf_store { c with waittopic := w } n t { c.heap t with state := .unchanged }
  rw [hst] at hready
  by_cases hn : c.topics[n]? = some t
  · rw [if_pos hn] at hready
    rcases hready with ⟨rfl, -⟩ | ⟨-, he⟩
    · exact hnot (Or.inl ⟨rfl, by rw [stateOf_of hn]; exact h⟩)
    · cases he
  · rw [if_neg hn] at hready
    exact hnot hready

/-- A new subscription starts without data. -/
theorem subscribe_calms {c : MyClient} (h : ∀ (n : CString) (t : Ref), c.topics[n]? = some t → t < c.fresh)
    (n : CString) : Calms c (c.subscribe n) := by
  intro m wait hnot
  have hst : (c.subscribe n).stateOf m = if m = n then .nodata else c.stateOf m := by
    unfold stateOf
    rw [getElem?_subscribe]
    by_cases hm : m = n
    · rw [if_pos hm, if_pos hm]
      exact congrArg Topic.state (heap_subscribe_fresh c n)
    · rw [if_neg hm, if_neg hm]
      cases hk : c.topics[m]? with
      | none => rfl
      | some k => exact congrArg Topic.state (heap_subscribe_of_lt (h m k hk) n)
  rw [hst]
  by_cases hm : m = n
  · rw [if_pos hm]
    rintro (⟨-, hne⟩ | ⟨-, he⟩)
    · exact hne rfl
    · cases he
  · rwa [if_neg hm]

end MyClient

namespace Process
variable {ι : Type} [DecidableEq ι]

/-- The thread `i` is asleep inside `get(n,wait)`, and no wake-up of it is pending. -/
def Asleep (s : Process ι) (i : ι) (n : CString) (wait : Wait) : Prop :=
  i ∈ s.getcond ∧ ∃ t loop, s.threads i = .waiting n wait t loop

def NoLostWakeup (s : Process ι) : Prop :=
  ∀ i n wait, s.Asleep i n wait → ¬ Ready wait (s.c.stateOf n)

/-- The two places where a wake-up can be lost. At a notification for `n`, every thread asleep in a
`get` of `n` must be the one the signal wakes, and `waittopic` must ask for the signal. And a thread
that wakes must not go back to sleep on a `Topic` that a `subscribe` has replaced, while the new one is
ready. -/
def Heeded (s : Process ι) : Label ι → Prop
  | .packet p _ who => ∀ n i wait, (∃ msg, takeU32 p = some (scNotify, msg)) → nameOfMsg p = .ok n →
      n ∈ s.c.topics → s.Asleep i n wait → s.c.wanted n = true ∧ who = some i
  | .resume i => ∀ n wait t loop, s.threads i = .waiting n wait t loop → s.c.running = true →
      loop.test (s.c.heap t).state = true → s.c.topics[n]? = some t ∨ ¬ Ready wait (s.c.stateOf n)
  | _ => True

/-! ## Who is asleep after a step -/

theorem asleep_setThread {s : Process ι} {i : ι} (hi : i ∉ s.getcond) (x : Thread) {j : ι}
    {n : CString} {wait : Wait} : (s.setThread i x).Asleep j n wait ↔ s.Asleep j n wait := by
  unfold Asleep
  rw [setThread_getcond]
  refine and_congr_right fun hj => ?_
  have hne : j ≠ i := fun he => hi (he ▸ hj)
  rw [setThread_ne s x hne]

theorem asleep_received {s : Process ι} {c : MyClient} {signal : Bool} {who : Option ι} {j : ι}
    {n : CString} {wait : Wait} : (s.received c signal who).Asleep j n wait ↔
      s.Asleep j n wait ∧ ¬ (signal = true ∧ who = some j) := by
  have hthreads : (s.received c signal who).threads = s.threads := by
    unfold received
    split <;> rfl
  unfold Asleep
  rw [mem_received, hthreads, and_right_comm]

theorem asleep_block {s : Process ι} (i : ι) (x : Thread) {j : ι} {n : CString} {wait : Wait} :
    ({ s with getcond := insert i s.getcond }.setThread i x).Asleep j n wait ↔
      (j = i ∧ ∃ t loop, x = .waiting n wait t loop) ∨ (j ≠ i ∧ s.Asleep j n wait) := by
  unfold Asleep
  rw [setThread_getcond, Finset.mem_insert]
  by_cases hji : j = i
  · subst hji
    simp
  · rw [setThread_ne _ x hji]
    simp [hji]

/-! ## Steps that lose nothing -/

omit [DecidableEq ι] in
theorem NoLostWakeup.calms {s : Process ι} (h : NoLostWakeup s) (s' : Process ι)
    (hc : MyClient.Calms s.c s'.c) (ha : ∀ i n wait, s'.Asleep i n wait → s.Asleep i n wait) :
    NoLostWakeup s' :=
  fun i n wait hi => hc n wait (h i n wait (ha i n wait hi))

theorem noLostWakeup_block {s : Process ι} (h : NoLostWakeup s) (i : ι)
    {c : MyClient} (hc : MyClient.Calms s.c c) {n : CString} {wait : Wait} {t : Ref} {loop : Loop} :
    NoLostWakeup (s.ends i n wait (c, .waits t loop)) ↔ ¬ Ready wait (c.stateOf n) := by
  have hasleep : ∀ j m w, (s.ends i n wait (c, .waits t loop)).Asleep j m w ↔
      (j = i ∧ ∃ t' loop', Thread.waiting n wait t loop = .waiting m w t' loop') ∨
        (j ≠ i ∧ s.Asleep j m w) := by
    intro j m w
    exact asleep_block (s := { s with c := c }) i (.waiting n wait t loop)
  constructor
  · intro hall
    exact hall i n wait ((hasleep i n wait).2 (Or.inl ⟨rfl, t, loop, rfl⟩))
  · intro hown j m w hj
    rcases (hasleep j m w).1 hj with ⟨-, t', loop', he⟩ | ⟨-, hj⟩
    · cases he
      exact hown
    · exact hc m w (h j m w hj)

theorem noLostWakeup_return {s : Process ι} (h : NoLostWakeup s) {i : ι} (hi : i ∉ s.getcond)
    {c : MyClient} (hc : MyClient.Calms s.c c) (n : CString) (wait : Wait) (rv : Topic) :
    NoLostWakeup (s.ends i n wait (c, .returns rv)) :=
  h.calms (s.ends i n wait (c, .returns rv)) hc fun _ _ _ hj =>
    (asleep_setThread (s := { s with c := c }) hi (.returned rv)).1 hj

theorem noLostWakeup_received {s : Process ι} (h : NoLostWakeup s) {c : MyClient}
    (hc : MyClient.Calms s.c c) (signal : Bool) (who : Option ι) :
    NoLostWakeup (s.received c signal who) := by
  refine h.calms _ ?_ fun i n wait hi => (asleep_received.1 hi).1
  unfold received
  split
  · exact hc
  · exact hc

/-- At a notification for `n`, exactly the sleepers on `n` have to be woken. -/
theorem noLostWakeup_notified {s : Process ι} (hs : Sound s) (h : NoLostWakeup s) {n : CString} {t : Ref}
    (ht : s.c.topics[n]? = some t) {x : Topic} (hx : x.state = .changed) (w : Option CString)
    (signal : Bool) (who : Option ι) :
    NoLostWakeup (s.received { s.c.store t x with waittopic := w } signal who) ↔
      ∀ i wait, s.Asleep i n wait → signal = true ∧ who = some i := by
  have hst : ∀ m, (s.received { s.c.store t x with waittopic := w } signal who).c.stateOf m =
      if m = n then .changed else s.c.stateOf m := by
    intro m
    have hc : (s.received { s.c.store t x with waittopic := w } signal who).c =
        { s.c.store t x with waittopic := w } := by
      unfold received
      split <;> rfl
    rw [hc]
    show (s.c.store t x).stateOf m = _
    rw [MyClient.stateOf_store, hx]
    by_cases hm : m = n
    · rw [if_pos hm, if_pos (hm ▸ ht)]
    · rw [if_neg hm, if_neg fun hmt => hm (hs.separate m n t hmt ht)]
  constructor
  · intro hall i wait hi
    by_contra hnot
    have hready := hall i n wait (asleep_received.2 ⟨hi, hnot⟩)
    rw [hst, if_pos rfl] at hready
    obtain ⟨-, t', loop, hw⟩ := hi
    exact hready (ready_changed (hs.waits i n wait t' loop hw).1)
  · intro hall i m wait hi
    obtain ⟨hi, hnot⟩ := asleep_received.1 hi
    rw [hst]
    by_cases hm : m = n
    · subst hm
      exact absurd (hall i wait hi) hnot
    · rw [if_neg hm]
      exact h i m wait hi

omit [DecidableEq ι] in
theorem calms_waittopic (s : Process ι) (w : Option CString) :
    MyClient.Calms s.c { s.c with waittopic := w } := MyClient.calms_of_eq rfl rfl

/-- A `get` that has got the lock: it tests before it sleeps. -/
theorem noLostWakeup_locked {s : Process ι} (hs : Sound s) (h : NoLostWakeup s) {i : ι} {n : CString}
    {wait : Wait} {r : MyClient × GetStep} (hi : s.threads i = .entered n wait)
    (hr : MyClient.Took s.c n wait r) : NoLostWakeup (s.ends i n wait r) := by
  cases hr with
  | returns w rv _ => exact noLostWakeup_return h (hs.entered hi) (calms_waittopic s w) n wait rv
  | waits t loop _ hloop htest ht =>
    rw [noLostWakeup_block h i (calms_waittopic s (some n))]
    show ¬ Ready wait (s.c.stateOf n)
    rw [MyClient.stateOf_of ht]
    exact not_ready_of_test hloop htest
  | takes t hdata _ =>
    exact noLostWakeup_return h (hs.entered hi) (MyClient.take_calms hdata none) n wait _

/-- A `get` that has been woken: it tests the `Topic` that it looked up before. -/
theorem noLostWakeup_woken {s : Process ι} (hs : Sound s) (h : NoLostWakeup s) {i : ι} {n : CString}
    {wait : Wait} {t : Ref} {loop : Loop} {r : MyClient × GetStep} (hc : i ∉ s.getcond)
    (hi : s.threads i = .waiting n wait t loop) (hr : MyClient.Woke s.c n t loop r) :
    Heeded s (.resume i) ↔ NoLostWakeup (s.ends i n wait r) := by
  have hheeded : Heeded s (.resume i) ↔ (s.c.running = true → loop.test (s.c.heap t).state = true →
      s.c.topics[n]? = some t ∨ ¬ Ready wait (s.c.stateOf n)) := by
    refine ⟨fun hall => hall n wait t loop hi, fun hheed n' wait' t' loop' hi' => ?_⟩
    rw [hi] at hi'
    cases hi'
    exact hheed
  rw [hheeded]
  cases hr with
  | aborts hrun =>
    refine iff_of_true (fun htrue => ?_) (noLostWakeup_return h hc (calms_waittopic s none) n wait _)
    rw [hrun] at htrue
    cases htrue
  | waits hrun htest =>
    rw [noLostWakeup_block h i (calms_waittopic s (some n))]
    show _ ↔ ¬ Ready wait (s.c.stateOf n)
    constructor
    · intro hheed
      rcases hheed hrun htest with ht | hnot
      · rw [MyClient.stateOf_of ht]
        exact not_ready_of_test (hs.waits i n wait t loop hi).2 htest
      · exact hnot
    · exact fun hnot _ _ => Or.inr hnot
  | takes _ htest =>
    refine iff_of_true (fun _ htrue => ?_) (noLostWakeup_return h hc
      (MyClient.take_calms (MyClient.test_false_data htest) none) n wait _)
    rw [htest] at htrue
    cases htrue

theorem noLostWakeup_processed {s : Process ι} (hs : Sound s) (h : NoLostWakeup s) {p : Bytes} {c : MyClient}
    {signal : Bool} (hc : MyClient.Processed s.c p (c, signal, none)) (now : Clock) (who : Option ι) :
    Heeded s (.packet p now who) ↔ NoLostWakeup (s.received c signal who) := by
  cases hc with
  | ignores hno _ =>
    refine iff_of_true ?_ (noLostWakeup_received h (calms_waittopic s s.c.waittopic) false who)
    intro n i wait htype hname hmem
    exact absurd hmem (hno n htype hname)
  | kills msg htype =>
    have hkill : MyClient.Calms s.c { s.c with running := false, waittopic := none } :=
      MyClient.calms_of_eq rfl rfl
    refine iff_of_true ?_ (noLostWakeup_received h hkill _ who)
    rintro n i wait ⟨msg', hnotify⟩
    rw [htype] at hnotify
    cases hnotify
  | notifies msg htype n hname t ht x hx _ w _ =>
    rw [noLostWakeup_notified hs h ht hx w _ who]
    have hmem : n ∈ s.c.topics := ExtTreeMap.mem_iff_isSome_getElem?.2 (by rw [ht]; rfl)
    constructor
    · intro hheed i wait hi
      exact hheed n i wait ⟨msg, htype⟩ hname hmem hi
    · intro hall n' i wait _ hname' _ hi
      rw [hname] at hname'
      cases hname'
      exact hall i wait hi

/-- **A step loses no wake-up exactly if it is heeded.** -/
theorem noLostWakeup_step {s s' : Process ι} {a : Label ι} (hs : Sound s) (h : NoLostWakeup s)
    (hstep : s.step a = some s') : Heeded s a ↔ NoLostWakeup s' := by
  have hcalm := calms_waittopic s
  cases step_moves hstep with
  | enters i n wait hi _ =>
    exact iff_of_true trivial (h.calms _ (hcalm s.c.waittopic) fun _ _ _ hj =>
      (asleep_setThread (hs.free hi) _).1 hj)
  | refused i n wait hi _ =>
    exact iff_of_true trivial (h.calms _ (hcalm s.c.waittopic) fun _ _ _ hj =>
      (asleep_setThread (hs.free hi) _).1 hj)
  | locked i n wait r hi hr => exact iff_of_true trivial (noLostWakeup_locked hs h hi hr)
  | spurious i _ =>
    exact iff_of_true trivial (h.calms _ (hcalm s.c.waittopic) fun _ _ _ hj =>
      ⟨(mem_wake.1 hj.1).1, hj.2⟩)
  | woken i n wait t loop r hc hi hr => exact noLostWakeup_woken hs h hc hi hr
  | wokenAny i hc hi =>
    refine iff_of_true ?_ (h.calms _ (hcalm none) fun _ _ _ hj => (asleep_setThread hc _).1 hj)
    intro n wait t loop hi'
    rw [hi] at hi'
    cases hi'
  | waitsAny i _ =>
    refine iff_of_true trivial (h.calms _ (hcalm (some (.ofString ""))) fun j n wait hj => ?_)
    rcases (asleep_block (s := { s with c := { s.c with waittopic := some (.ofString "") } })
      i .waitingAny).1 hj with ⟨-, t, loop, he⟩ | ⟨-, hj⟩
    · cases he
    · exact hj
  | subscribes n =>
    exact iff_of_true trivial (h.calms _ (MyClient.subscribe_calms hs.allocated n) fun _ _ _ hj => hj)
  | receives p now who c signal _ _ hc _ => exact noLostWakeup_processed hs h hc now who
  | hangup _ => exact iff_of_true trivial (h.calms _ (hcalm s.c.waittopic) fun _ _ _ hj => hj)
  | leave _ _ => exact iff_of_true trivial (h.calms _ (hcalm s.c.waittopic) fun _ _ _ hj => hj)
  | finish _ => exact iff_of_true trivial (h.calms _ (hcalm s.c.waittopic) fun _ _ _ hj => hj)

omit [DecidableEq ι] in
theorem noLostWakeup_start : NoLostWakeup (start : Process ι) := by
  rintro i n wait ⟨hi, -⟩
  simp [start] at hi

/-- **Wake-ups are lost exactly at the two places.** For any number of threads and any interleaving:
in every state of a run nobody is asleep in `get()` on a topic that is ready for it, if and only if
every step of the run is heeded. -/
theorem no_lost_wakeup (as : List (Label ι)) :
    Run.Throughout step NoLostWakeup (start : Process ι) as ↔ Run.Along step Heeded start as :=
  Run.throughout_iff_along (I := Sound) (fun _ _ _ hs hstep => sound_step hs hstep)
    (fun _ _ _ hs h hstep => noLostWakeup_step hs h hstep) sound_start noLostWakeup_start

/-- Thread 0 waits for 'a'. Then thread 1 polls 'b', which resets `waittopic`, and 'a' arrives. -/
def polled : List (Label (Fin 2)) :=
  let a := CString.ofString "a"
  let b := CString.ofString "b"
  [.subscribe a, .subscribe b, .get 0 a .any, .lock 0, .get 1 b .none, .lock 1,
    .packet (message [.float 7] scNotify a) 1 none]

/-- The wake-up of thread 0 is lost: it sleeps on, and 'a' has changed. -/
theorem polled_loses_wakeup :
    ∃ s, Run.exec step start polled = some s ∧ s.Asleep 0 (.ofString "a") .any ∧
      s.c.stateOf (.ofString "a") = .changed ∧ ¬ NoLostWakeup s := by
  have hrun : (Run.exec step start polled).map
      (fun s => (decide (0 ∈ s.getcond), s.threads 0, s.c.stateOf (.ofString "a"))) =
      some (true, .waiting (.ofString "a") .any 0 .nodata, .changed) := by
    decide +kernel
  obtain ⟨s, hs, he⟩ := Option.map_eq_some_iff.1 hrun
  simp only [Prod.mk.injEq, decide_eq_true_eq] at he
  obtain ⟨hblocked, hthread, hstate⟩ := he
  have hasleep : s.Asleep 0 (.ofString "a") .any := ⟨hblocked, 0, .nodata, hthread⟩
  refine ⟨s, hs, hasleep, hstate, fun hall => ?_⟩
  have hready := hall 0 _ _ hasleep
  rw [hstate] at hready
  exact hready (Or.inl ⟨rfl, by decide⟩)

end Process

end DiamondApparatus
