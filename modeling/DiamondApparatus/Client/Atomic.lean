import DiamondApparatus.Client.Statements
import DiamondApparatus.Data.RoundTrip

/-!
# A stretch under the mutex is one step

* `Overlay` : how the state of a `Process` differs from the memory while the holder is on its way;
* `Differs c h o` : it differs by `o` when the holder is at `h`. A `get()` takes effect when it has the mutex,
  or behind its wait when it has read `running`; a packet when it is known whom it wakes, or that it wakes
  nobody, and a kill when it sets `running`;
* `refines_step`, `statements_refine` : the statements of the threads, in any order, are steps of `Process`.
-/

namespace DiamondApparatus
open Lib Std

/-- The memory in the eyes of a `Process`: its client is `c`, one thread has gone on, and one more thread
is asleep. -/
structure Overlay (ι : Type) where
  c : MyClient
  thread : Option (ι × Thread) := none
  extra : Option ι := none

namespace Overlay
variable {ι : Type} [DecidableEq ι]

def on (o : Overlay ι) (f : Mutexed ι) : Process ι where
  c := o.c
  threads := fun j => o.thread.elim (f.threads j) fun x => if j = x.1 then x.2 else f.threads j
  getcond := o.extra.elim f.getcond fun i => insert i f.getcond
  receiver := f.receiver

def ends (i : ι) (n : CString) (wait : Wait) (r : MyClient × GetStep) : Overlay ι :=
  match r.2 with
  | .returns rv => { c := r.1, thread := some (i, .returned rv) }
  | .waits t loop => { c := r.1, thread := some (i, .waiting n wait t loop), extra := some i }

theorem ends_on (i : ι) (n : CString) (wait : Wait) (r : MyClient × GetStep) (f : Mutexed ι) :
    (ends i n wait r).on f = f.base.ends i n wait r := by
  obtain ⟨c, g⟩ := r
  cases g <;> rfl

end Overlay

/-- Whether it is known what the holder's stretch comes to. -/
def Holder.decided {ι : Type} : Holder ι → Bool
  | .get _ _ _ (.tests _ _) => false
  | .process _ _ .resets => true
  | .process _ _ .unlocks => true
  | .process _ _ _ => false
  | _ => true

/-- What a decided stretch comes to, from the memory `c`. -/
def Holder.overlay {ι : Type} (c : MyClient) : Holder ι → Overlay ι
  | .get i n wait pc => if pc.committed then .ends i n wait (pc.rest n wait c) else { c := c }
  | .waitForAny i .asks =>
    { c := { c with waittopic := some (.ofString "") }, thread := some (i, .waitingAny), extra := some i }
  | .waitForAny i .sleeps => { c := c, thread := some (i, .waitingAny), extra := some i }
  | .waitForAny i .resets => { c := { c with waittopic := none }, thread := some (i, .idle) }
  | .waitForAny i .unlocks => { c := c, thread := some (i, .idle) }
  | .request _ (.inserts n) => { c := c.subscribe n }
  | .process _ _ .resets => { c := { c with waittopic := none } }
  | _ => { c := c }

/-- How the memory differs when its client is `c` and the holder is at `h`. -/
inductive Differs {ι : Type} : MyClient → Holder ι → Overlay ι → Prop
  | decided (c : MyClient) (h : Holder ι) (hh : h.decided = true) : Differs c h (h.overlay c)
  | tests (c : MyClient) (i : ι) (n : CString) (wait : Wait) (t : Ref) (l : Loop) :
      Differs { c with waittopic := none } (.get i n wait (.tests t l)) { c := c }
  | process (c c' : MyClient) (p : Bytes) (now : Clock) (pc : ProcessPc ι)
      (hrest : pc.rest p now c = c'.process p now) (hrun : c'.running = c.running) (hpc : pc ≠ .unlocks)
      (hpc' : pc ≠ .resets) : Differs c (.process p now pc) { c := c', extra := pc.pending.join }

theorem GetPc.committed_next {n : CString} {wait : Wait} {c c' : MyClient} {pc pc' : GetPc}
    (h : pc.next n wait c = some (pc', c')) (hpc : ∀ t l, pc ≠ .woken t l) : pc'.committed = true := by
  cases pc with
  | find =>
    simp only [next] at h
    split at h <;> cases h <;> rfl
  | first t =>
    simp only [next] at h
    split at h <;> split at h <;> cases h <;> rfl
  | loop t l =>
    simp only [next] at h
    split at h <;> cases h <;> rfl
  | tests t l =>
    simp only [next] at h
    split at h <;> cases h <;> rfl
  | woken t l => exact absurd rfl (hpc t l)
  | sleeps t l => cases h
  | unlocks rv => cases h
  | _ => cases h; rfl

namespace Differs
variable {ι : Type} {c : MyClient} {h : Holder ι} {o : Overlay ι}

theorem getLoop_running (c : MyClient) (n : CString) (t : Ref) (l : Loop) :
    (c.getLoop n t l).1.running = c.running := by
  unfold MyClient.getLoop MyClient.take
  split <;> rfl

theorem firstRest_running (n : CString) (wait : Wait) (t : Ref) (c : MyClient) :
    (GetPc.firstRest n wait t c).1.running = c.running := by
  unfold GetPc.firstRest
  repeat' split
  all_goals first | exact getLoop_running _ _ _ _ | rfl

theorem rest_running {n : CString} {wait : Wait} {pc : GetPc} (hpc : pc.committed = true) (c : MyClient) :
    (pc.rest n wait c).1.running = c.running := by
  cases pc with
  | find =>
    simp only [GetPc.rest, MyClient.getLocked]
    cases c.topics[n]? with
    | none => rfl
    | some t => exact firstRest_running n wait t { c with waittopic := none }
  | resets t => exact firstRest_running _ _ _ _
  | first t => exact firstRest_running _ _ _ _
  | loop t l => exact getLoop_running _ _ _ _
  | woken t l => cases hpc
  | tests t l => cases hpc
  | _ => rfl

/-- `get()` reads `running` behind its waits only. -/
theorem rest_stop {n : CString} {wait : Wait} {pc : GetPc} (hpc : pc.committed = true) (c : MyClient) :
    pc.rest n wait { c with running := false } =
      ({ (pc.rest n wait c).1 with running := false }, (pc.rest n wait c).2) := by
  have hloop : ∀ (c : MyClient) (t : Ref) (l : Loop), MyClient.getLoop { c with running := false } n t l =
      ({ (c.getLoop n t l).1 with running := false }, (c.getLoop n t l).2) := by
    intro c t l
    unfold MyClient.getLoop
    dsimp only
    split <;> rfl
  have hfirst : ∀ (c : MyClient) (t : Ref), GetPc.firstRest n wait t { c with running := false } =
      ({ (GetPc.firstRest n wait t c).1 with running := false }, (GetPc.firstRest n wait t c).2) := by
    intro c t
    unfold GetPc.firstRest
    dsimp only
    split
    · split
      · exact hloop c t _
      · rfl
    · split
      · exact hloop c t _
      · rfl
  cases pc with
  | find =>
    simp only [GetPc.rest, MyClient.getLocked]
    cases c.topics[n]? with
    | none => rfl
    | some t => exact hfirst { c with waittopic := none } t
  | resets t => exact hfirst { c with waittopic := none } t
  | first t => exact hfirst c t
  | loop t l => exact hloop c t l
  | woken t l => cases hpc
  | tests t l => cases hpc
  | _ => rfl

theorem overlay_get {i : ι} {n : CString} {wait : Wait} {pc : GetPc} (hpc : pc.committed = true)
    (c : MyClient) : (Holder.get i n wait pc).overlay c = .ends i n wait (pc.rest n wait c) := if_pos hpc

/-- `running=false` of the receiver thread at its end. -/
theorem stop (hs : Differs c h o) (hh : ∀ p now pc, h ≠ .process p now pc) :
    Differs { c with running := false } h { o with c := { o.c with running := false } } := by
  cases hs with
  | tests c i n wait t l => exact .tests { c with running := false } i n wait t l
  | process _ c' p now pc => exact absurd rfl (hh p now pc)
  | decided _ _ hd =>
    have hsame : { h.overlay c with c := { (h.overlay c).c with running := false } } =
        h.overlay { c with running := false } := by
      cases h with
      | get i n wait pc =>
        cases hpc : pc.committed with
        | true =>
          rw [overlay_get hpc, overlay_get hpc, rest_stop hpc]
          unfold Overlay.ends
          dsimp only
          split <;> rfl
        | false => cases pc <;> first | rfl | cases hpc
      | waitForAny i pc => cases pc <;> rfl
      | request i pc => cases pc <;> rfl
      | process p now pc => exact absurd rfl (hh p now pc)
      | nobody => rfl
      | leaked => rfl
    exact hsame ▸ .decided { c with running := false } h hd

/-- `running` is read and written without the mutex. -/
theorem running (hs : Differs c h o) : o.c.running = c.running := by
  cases hs with
  | tests => rfl
  | process _ c' p now pc hrest hrun => exact hrun
  | decided _ _ hd =>
    cases h with
    | get i n wait pc =>
      cases hpc : pc.committed with
      | true =>
        rw [overlay_get hpc]
        have hends : (Overlay.ends i n wait (pc.rest n wait c)).c = (pc.rest n wait c).1 := by
          unfold Overlay.ends
          split <;> rfl
        rw [hends, rest_running hpc]
      | false => cases pc <;> first | rfl | cases hpc
    | waitForAny i pc => cases pc <;> rfl
    | request i pc => cases pc <;> rfl
    | process p now pc => cases pc <;> rfl
    | nobody => rfl
    | leaked => rfl

theorem of_decided (hs : Differs c h o) (hh : h.decided = true) : o = h.overlay c := by
  cases hs with
  | decided => rfl
  | tests => cases hh
  | process _ _ _ _ pc _ _ hpc hpc' =>
    cases pc with
    | unlocks => exact absurd rfl hpc
    | resets => exact absurd rfl hpc'
    | _ => cases hh

theorem of_tests {i : ι} {n : CString} {wait : Wait} {t : Ref} {l : Loop}
    (hs : Differs c (.get i n wait (.tests t l)) o) :
    ∃ c', c = { c' with waittopic := none } ∧ o = { c := c' } := by
  cases hs with
  | decided _ _ hh => cases hh
  | tests c' => exact ⟨c', rfl, rfl⟩

theorem of_process {p : Bytes} {now : Clock} {pc : ProcessPc ι} (hs : Differs c (.process p now pc) o)
    (hpc : pc ≠ .unlocks) (hpc' : pc ≠ .resets) : ∃ c', pc.rest p now c = c'.process p now ∧
      c'.running = c.running ∧ o = { c := c', extra := pc.pending.join } := by
  cases hs with
  | process _ c' _ _ _ hrest hrun => exact ⟨c', hrest, hrun, rfl⟩
  | decided _ _ hh =>
    cases pc with
    | unlocks => exact absurd rfl hpc
    | resets => exact absurd rfl hpc'
    | _ => cases hh

/-- Who has gone on, or is asleep, holds the mutex. -/
theorem thread (hs : Differs c h o) : ∀ x, o.thread = some x → h.thread = some x.1 := by
  intro x hx
  cases hs with
  | tests => cases hx
  | process => cases hx
  | decided _ _ hd =>
    cases h with
    | get i n wait pc =>
      cases hpc : pc.committed with
      | true =>
        rw [overlay_get hpc] at hx
        unfold Overlay.ends at hx
        split at hx <;> cases hx <;> rfl
      | false =>
        rw [Holder.overlay, hpc] at hx
        cases hx
    | waitForAny i pc => cases pc <;> cases hx <;> rfl
    | request i pc => cases pc <;> cases hx
    | process p now pc => cases pc <;> cases hx
    | nobody => cases hx
    | leaked => cases hx

end Differs

/-! ## What is done without the mutex -/

namespace Overlay
variable {ι : Type} [DecidableEq ι] {o : Overlay ι} {f : Mutexed ι} {i : ι}

theorem on_threads (hi : ∀ x, o.thread = some x → x.1 ≠ i) : (o.on f).threads i = f.threads i := by
  show o.thread.elim _ _ = _
  cases hx : o.thread with
  | none => rfl
  | some x => exact if_neg (hi x hx).symm

theorem on_setThread (hi : ∀ x, o.thread = some x → x.1 ≠ i) (x : Thread) :
    (o.on f).setThread i x = o.on (f.setThread i x) := by
  unfold on Process.setThread Mutexed.setThread
  congr 1
  funext j
  cases hy : o.thread with
  | none => rfl
  | some y =>
    have hne := hi y hy
    by_cases hj : j = i
    · simp only [Option.elim_some, if_pos hj, if_neg (hj ▸ hne.symm : j ≠ y.1)]
    · simp only [Option.elim_some, if_neg hj]

theorem on_wake {who : Option ι} (hi : ∀ i, o.extra = some i → some i ≠ who) :
    (o.on f).wake who = o.on (f.wake who) := by
  unfold on Process.wake Mutexed.wake
  congr 1
  cases hx : o.extra with
  | none => rfl
  | some i => exact Finset.filter_insert _ _ _ |>.trans (if_pos (hi i hx))

theorem mem_on {j : ι} (hj : j ∈ f.getcond) : j ∈ (o.on f).getcond := by
  show j ∈ o.extra.elim _ _
  cases o.extra with
  | none => exact hj
  | some i => exact Finset.mem_insert_of_mem hj

end Overlay

namespace Mutexed
variable {ι : Type} [DecidableEq ι] {f f' : Mutexed ι} {o : Overlay ι}

omit [DecidableEq ι] in
/-- Who is asleep in the eyes of a `Process` only, has not gone to sleep yet, or has just been woken. -/
theorem Sound.extra (hs : f.Sound) (hd : Differs f.c f.holder o) {i : ι} (hi : o.extra = some i) :
    i ∉ f.getcond := by
  have hfits := hs.fits
  generalize f.holder = h at hd hfits
  generalize f.c = c at hd
  cases hd with
  | tests => cases hi
  | process _ c' p now pc => exact hfits.2.2.2.1 i (Option.join_eq_some_iff.1 hi)
  | decided _ _ hh =>
    cases h with
    | get j n wait pc =>
      cases hpc : pc.committed with
      | true =>
        rw [Differs.overlay_get hpc] at hi
        have hj : i = j := by
          unfold Overlay.ends at hi
          split at hi <;> cases hi
          rfl
        rw [hj]
        cases pc <;> exact hfits.2.1
      | false =>
        rw [Holder.overlay, hpc] at hi
        cases hi
    | waitForAny j pc => cases pc <;> cases hi <;> exact hfits.2
    | request j pc => cases pc <;> cases hi
    | process p now pc => cases pc <;> cases hi
    | nobody => cases hi
    | leaked => cases hi

omit [DecidableEq ι] in
theorem Sound.apart (hs : f.Sound) (hd : Differs f.c f.holder o) {i : ι} (hi : f.Free i) :
    ∀ x, o.thread = some x → x.1 ≠ i := fun x hx => hs.holder_ne hi (hd.thread x hx)

theorem step_get {s : Process ι} {i : ι} (hi : s.threads i = .idle ∨ ∃ rv, s.threads i = .returned rv)
    (n : CString) (wait : Wait) : s.step (.get i n wait) =
      some (s.setThread i (if s.c.running then .entered n wait else .returned { state := .notconnected })) := by
  rcases hi with hi | ⟨rv, hi⟩
  · simp only [Process.step, hi]
    split <;> rfl
  · simp only [Process.step, hi]
    split <;> rfl

theorem exec_one {s s' : Process ι} {b : Label ι} (h : s.step b = some s') :
    Run.exec Process.step s [b] = some s' := Run.exec_cons_eq_some.2 ⟨_, h, rfl⟩

/-- **A statement without the mutex.** -/
theorem refines_outside (hs : f.Sound) (hd : Differs f.c f.holder o) {a : Statement ι}
    (ha : ∀ i, a ≠ .lock i) (ha' : a ≠ .lockReceiver) (hrun : a ≠ .run) (hsignal : ∀ who, a ≠ .signal who)
    (hthrows : a ≠ .throws) (hstep : f.step a = some f') :
    ∃ o', Differs f'.c f'.holder o' ∧ Run.exec Process.step (o.on f) (f.labels a) = some (o'.on f') := by
  cases a with
  | get i n wait =>
    obtain ⟨hfree, hstep⟩ := Option.ite_none_right_eq_some.1 hstep
    cases hstep
    refine ⟨o, hd, exec_one ?_⟩
    have hapart := hs.apart hd hfree
    rw [step_get (by rw [Overlay.on_threads hapart]; exact hfree.2) n wait, Overlay.on_setThread hapart]
    show some _ = some _
    rw [show (o.on f).c.running = f.c.running from hd.running]
  | call i k =>
    obtain ⟨-, hstep⟩ := Option.ite_none_right_eq_some.1 hstep
    split at hstep <;> cases hstep <;> exact ⟨o, hd, rfl⟩
  | spurious i =>
    obtain ⟨hi, hstep⟩ := Option.ite_none_right_eq_some.1 hstep
    cases hstep
    refine ⟨o, hd, exec_one ?_⟩
    have hextra : ∀ j, o.extra = some j → some j ≠ some i := by
      rintro j hj he
      exact hs.extra hd hj (Option.some_inj.1 he ▸ hi)
    rw [← Overlay.on_wake hextra]
    exact if_pos (Overlay.mem_on hi)
  | packet p now =>
    obtain ⟨-, hstep⟩ := Option.ite_none_right_eq_some.1 hstep
    cases hstep
    exact ⟨o, hd, rfl⟩
  | hangup =>
    obtain ⟨⟨hrec, hrun, -⟩, hstep⟩ := Option.ite_none_right_eq_some.1 hstep
    cases hstep
    exact ⟨o, hd, exec_one (if_pos ⟨hrec, hd.running.trans hrun⟩)⟩
  | leave =>
    obtain ⟨⟨hrec, hrun, -⟩, hstep⟩ := Option.ite_none_right_eq_some.1 hstep
    cases hstep
    exact ⟨o, hd, exec_one (if_pos ⟨hrec, hd.running.trans hrun⟩)⟩
  | finish =>
    obtain ⟨hrec, hstep⟩ := Option.ite_none_right_eq_some.1 hstep
    cases hstep
    have hh : ∀ p now pc, f.holder ≠ .process p now pc := by
      intro p now pc he
      have hfits := hs.fits
      rw [he] at hfits
      cases hfits.1.symm.trans (hs.hand_none hrec)
    exact ⟨_, hd.stop hh, exec_one (if_pos hrec)⟩
  | lock i => exact absurd rfl (ha i)
  | lockReceiver => exact absurd rfl ha'
  | run => exact absurd rfl hrun
  | signal who => exact absurd rfl (hsignal who)
  | throws => exact absurd rfl hthrows

/-! ## What the holder does -/

/-- **The mutex is taken.** -/
theorem refines_lock (hs : f.Sound) (hd : Differs f.c f.holder o) {i : ι} (hstep : f.step (.lock i) = some f') :
    ∃ o', Differs f'.c f'.holder o' ∧ Run.exec Process.step (o.on f) (f.labels (.lock i)) = some (o'.on f') := by
  obtain ⟨⟨hnobody, hi⟩, hstep⟩ := Option.ite_none_right_eq_some.1 hstep
  obtain ⟨h, he, rfl⟩ := Option.map_eq_some_iff.1 hstep
  rw [hnobody] at hd
  obtain rfl : o = { c := f.c } := hd.of_decided rfl
  unfold entry at he
  simp only [labels]
  split at he
  · next hcall =>
    cases he
    have hfree := hs.calling i (by rw [hcall]; simp)
    refine ⟨_, .decided f.c _ rfl, exec_one ?_⟩
    rcases hfree with hi | ⟨rv, hi⟩ <;> simp only [Process.step, Overlay.on, Option.elim_none, hi] <;> rfl
  · next n hcall =>
    cases he
    exact ⟨_, .decided f.c _ rfl, rfl⟩
  · next hcall =>
    cases he
    exact ⟨_, .decided f.c _ rfl, rfl⟩
  · next hcall =>
    split at he
    · next n wait ht =>
      cases he
      simp only [ht]
      refine ⟨_, .decided f.c _ rfl, exec_one ?_⟩
      rw [Differs.overlay_get rfl, Overlay.ends_on]
      simp only [Process.step, Overlay.on, Option.elim_none, ht]
      rfl
    · next n wait t l ht =>
      cases he
      simp only [ht]
      exact ⟨_, .decided f.c _ rfl, rfl⟩
    · next ht =>
      cases he
      simp only [ht]
      refine ⟨_, .decided f.c _ rfl, exec_one ?_⟩
      simp only [Process.step, Overlay.on, Option.elim_none, ht, if_neg hi]
      rfl
    · cases he

theorem refines_lockReceiver (hd : Differs f.c f.holder o) (hstep : f.step .lockReceiver = some f') :
    ∃ o', Differs f'.c f'.holder o' ∧ Run.exec Process.step (o.on f) (f.labels .lockReceiver) = some (o'.on f') := by
  simp only [step] at hstep
  split at hstep
  · next p now hnobody hhand =>
    cases hstep
    rw [hnobody] at hd
    obtain rfl := hd.of_decided rfl
    exact ⟨_, .process f.c f.c p now .head rfl rfl (by simp) (by simp), rfl⟩
  · cases hstep

/-- **A statement of `get()`.** -/
theorem refines_get (hs : f.Sound) (hd : Differs f.c f.holder o) {i : ι} {n : CString} {wait : Wait}
    {pc pc' : GetPc} {c : MyClient} (hh : f.holder = .get i n wait pc) (hnext : pc.next n wait f.c = some (pc', c)) :
    ∃ o', Differs c (.get i n wait pc') o' ∧ Run.exec Process.step (o.on f) (f.labels .run) =
      some (o'.on { f with c := c, holder := .get i n wait pc' }) := by
  have hrest := GetPc.rest_next hnext
  have hfits := hs.fits
  rw [hh] at hd hfits
  cases hpc : pc.committed with
  | true =>
    have hpc' : pc'.committed = true := GetPc.committed_next hnext fun t l he => by rw [he] at hpc; cases hpc
    have hlabels : f.labels .run = [] := by
      simp only [labels, hh]
      cases pc <;> first | rfl | cases hpc
    obtain rfl := hd.of_decided (by cases pc <;> first | rfl | cases hpc)
    refine ⟨_, .decided c _ (by cases pc' <;> first | rfl | cases hpc'), ?_⟩
    rw [hlabels, Differs.overlay_get hpc, Differs.overlay_get hpc', hrest]
    rfl
  | false =>
    cases pc with
    | woken t l =>
      cases hnext
      obtain rfl := hd.of_decided rfl
      have hlabels : f.labels .run = [] := by simp only [labels, hh]
      rw [hlabels]
      exact ⟨_, .tests f.c i n wait t l, rfl⟩
    | tests t l =>
      obtain ⟨c₀, hc₀, rfl⟩ := hd.of_tests
      have hlabels : f.labels .run = [.resume i] := by simp only [labels, hh]
      have hwoken : c₀.getWoken n t l = pc'.rest n wait c := by
        rw [hrest, hc₀]
        rfl
      have hpc' := GetPc.committed_next hnext (by simp)
      refine ⟨_, .decided c _ (by cases pc' <;> first | rfl | cases hpc'), ?_⟩
      rw [hlabels, Differs.overlay_get hpc', Overlay.ends_on]
      apply exec_one
      simp only [Process.step, Overlay.on, Option.elim_none, if_neg hfits.2.1, hfits.2.2, hwoken]
      cases pc'.rest n wait c with
      | mk c₁ g => cases g <;> rfl
    | _ => cases hpc

theorem completes_eq {p : Bytes} {now : Clock} {c c' : MyClient} {pc pc' : ProcessPc ι}
    (hstops : ∀ woken, pc ≠ .stops woken) (hresets : pc ≠ .resets)
    (hnext : pc.next p now c = some (pc', c')) :
    completes p now c pc = if pc' = .unlocks then [.packet p now none] else [] := by
  have hsome : completes p now c pc =
      if (pc.next p now c).map Prod.fst = some .unlocks then [.packet p now none] else [] := by
    cases pc with
    | stops woken => exact absurd rfl (hstops woken)
    | resets => exact absurd rfl hresets
    | _ => rfl
  rw [hsome, hnext]
  simp

omit [DecidableEq ι] in
theorem next_undecided {p : Bytes} {now : Clock} {c c' : MyClient} {pc pc' : ProcessPc ι}
    (hnext : pc.next p now c = some (pc', c')) (hpc' : pc' ≠ .unlocks) :
    pc' ≠ .resets ∧ pc'.pending = pc.pending := by
  cases pc with
  | head =>
    simp only [ProcessPc.next] at hnext
    split at hnext
    · cases hnext
    · split at hnext
      · cases hnext
        exact ⟨by simp, rfl⟩
      · split at hnext <;> cases hnext <;> exact ⟨by simp, rfl⟩
  | kill =>
    cases hnext
    cases c.waittopic <;> exact ⟨by simp, rfl⟩
  | find =>
    simp only [ProcessPc.next] at hnext
    split at hnext
    · cases hnext
    · split at hnext <;> cases hnext <;> exact ⟨by simp, rfl⟩
  | decodes name t =>
    simp only [ProcessPc.next] at hnext
    split at hnext <;> cases hnext
    exact ⟨by simp, rfl⟩
  | wanted name =>
    cases hnext
    cases c.wanted name <;> exact ⟨by simp, rfl⟩
  | stops woken => cases hnext; exact absurd rfl hpc'
  | killResets who => cases hnext; exact ⟨by simp, rfl⟩
  | marks name t => cases hnext; exact ⟨by simp, rfl⟩
  | dates name t => cases hnext; exact ⟨by simp, rfl⟩
  | resets => cases hnext; exact absurd rfl hpc'
  | killSignals => cases hnext
  | signals => cases hnext
  | unlocks => cases hnext

omit [DecidableEq ι] in
theorem pending_none {p : Bytes} {now : Clock} {c c' : MyClient} {pc : ProcessPc ι}
    (hstops : ∀ woken, pc ≠ .stops woken) (hnext : pc.next p now c = some (.unlocks, c')) : pc.pending = none := by
  cases pc with
  | stops woken => exact absurd rfl (hstops woken)
  | killResets who => cases hnext
  | _ => rfl

theorem step_signals {s : Process ι} {p : Bytes} {now : Clock} {who : Option ι} {c : MyClient}
    (hrec : s.receiver = .looping) (hrun : s.c.running = true) (hprocess : s.c.process p now = (c, true, none))
    (hwho : s.Wakes who) : s.step (.packet p now who) = some ({ s with c := c }.wake who) := by
  simp only [Process.step, hrec, hrun, hprocess]
  exact if_pos hwho

theorem step_silent {s : Process ι} {p : Bytes} {now : Clock} (who : Option ι) {c : MyClient}
    (hrec : s.receiver = .looping) (hrun : s.c.running = true)
    (hprocess : s.c.process p now = (c, false, none)) :
    s.step (.packet p now who) = some { s with c := c } := by
  simp only [Process.step, hrec, hrun, hprocess]
  rfl

/-- What the memory has woken already, a `Process` wakes. -/
theorem wakes_pending (who : Option ι) (c : MyClient) (hsome : ∀ i, who = some i → i ∉ f.getcond)
    (hnone : who = none → f.getcond = ∅) :
    (({ c := c, extra := who } : Overlay ι).on f).Wakes who ∧
      (({ c := c, extra := who } : Overlay ι).on f).wake who = ({ c := c } : Overlay ι).on f := by
  cases who with
  | none => exact ⟨hnone rfl, by simp [Overlay.on, Process.wake]⟩
  | some i =>
    have hi := hsome i rfl
    refine ⟨Finset.mem_insert_self i _, ?_⟩
    have hfilter : (insert i f.getcond).filter (fun j => some j ≠ some i) = f.getcond := by
      rw [Finset.filter_insert, if_neg (by simp), Finset.filter_eq_self]
      intro j hj he
      exact hi (Option.some_inj.1 he ▸ hj)
    unfold Overlay.on Process.wake
    exact congrArg (fun g => Process.mk _ _ g _) hfilter

/-- **A kill takes effect.** -/
theorem refines_stop (hs : f.Sound) {p : Bytes} {now : Clock} {woken : Option (Option ι)}
    (hh : f.holder = .process p now (.stops woken)) (hd : Differs f.c f.holder o) :
    (o.on f).step (.packet p now woken.join) =
      some (({ c := { f.c with running := false } } : Overlay ι).on f) := by
  have hfits := hs.fits
  rw [hh] at hd hfits
  obtain ⟨-, hrec, hrun, hsome, hnone⟩ := hfits
  obtain ⟨c', hrest, hrun', rfl⟩ := hd.of_process (by simp) (by simp)
  have hrunning : c'.running = true := hrun'.trans (hrun (by simp))
  cases woken with
  | none => exact step_silent none hrec hrunning hrest.symm
  | some who =>
    obtain ⟨hwakes, hwake⟩ := wakes_pending (f := f) who { f.c with running := false }
      (fun i hi => hsome i (congrArg some hi)) fun hi => hnone (congrArg some hi)
    have hwakes' : (({ c := c', extra := who } : Overlay ι).on f).Wakes who := by
      cases who <;> exact hwakes
    exact (step_signals hrec hrunning hrest.symm hwakes').trans (congrArg some hwake)

/-- **A statement of `process()`.** -/
theorem refines_process (hs : f.Sound) (hd : Differs f.c f.holder o) {p : Bytes} {now : Clock}
    {pc pc' : ProcessPc ι} {c : MyClient} (hh : f.holder = .process p now pc)
    (hnext : pc.next p now f.c = some (pc', c)) :
    ∃ o', Differs c (.process p now pc') o' ∧ Run.exec Process.step (o.on f) (f.labels .run) =
      some (o'.on { f with c := c, holder := .process p now pc' }) := by
  have hlabels : f.labels .run = completes p now f.c pc := by simp only [labels, hh]
  rw [hlabels]
  by_cases hresets : pc = .resets
  · subst hresets
    rw [hh] at hd
    obtain rfl := hd.of_decided rfl
    cases hnext
    exact ⟨_, .decided _ _ rfl, rfl⟩
  · by_cases hstops : ∃ woken, pc = .stops woken
    · obtain ⟨woken, rfl⟩ := hstops
      cases hnext
      exact ⟨_, .decided _ _ rfl, exec_one (refines_stop hs hh hd)⟩
    · have hstops' : ∀ woken, pc ≠ .stops woken := fun woken he => hstops ⟨woken, he⟩
      rw [completes_eq hstops' hresets hnext]
      have hfits := hs.fits
      rw [hh] at hd hfits
      obtain ⟨-, hrec, hrun, -, -⟩ := hfits
      obtain ⟨hpc, -, hrunning⟩ := next_process hnext
      obtain ⟨c', hrest, hrun', rfl⟩ := hd.of_process hpc hresets
      have hrest' := (ProcessPc.rest_next hnext hstops').trans hrest
      by_cases hpc' : pc' = .unlocks
      · -- nobody is signalled
        subst hpc'
        rw [if_pos rfl]
        refine ⟨_, .decided _ _ rfl, exec_one ?_⟩
        rw [pending_none hstops' hnext]
        exact step_silent none hrec (hrun'.trans (hrun hpc)) hrest'.symm
      · obtain ⟨hresets', hpending⟩ := next_undecided hnext hpc'
        rw [if_neg hpc', ← hpending]
        exact ⟨_, .process c c' p now pc' hrest' (hrun'.trans (hrunning hpc').symm) hpc' hresets', rfl⟩

theorem refines_run (hs : f.Sound) (hd : Differs f.c f.holder o) (hrun : f.step .run = some f') :
    ∃ o', Differs f'.c f'.holder o' ∧ Run.exec Process.step (o.on f) (f.labels .run) = some (o'.on f') := by
  cases ran hrun with
  | get i n wait pc pc' c hh hnext => exact refines_get hs hd hh hnext
  | process p now pc pc' c hh hnext => exact refines_process hs hd hh hnext
  | _ =>
    next hh =>
    rw [hh] at hd
    obtain rfl := hd.of_decided rfl
    refine ⟨_, .decided _ _ rfl, ?_⟩
    simp only [labels, hh]
    rfl

/-- Whom the memory has woken is asleep in the eyes of a `Process`. -/
theorem on_pending {who : Option ι} (hwakes : f.base.Wakes who) (c : MyClient) (h : Holder ι) :
    ({ c := c, extra := who } : Overlay ι).on { f.wake who with holder := h } = ({ c := c } : Overlay ι).on f := by
  cases who with
  | none => simp [Overlay.on, wake]
  | some i =>
    have hmem : i ∈ f.getcond := hwakes
    have hinsert : insert i (f.getcond.filter fun j => some j ≠ some i) = f.getcond := by
      ext j
      rw [Finset.mem_insert, Finset.mem_filter]
      constructor
      · rintro (rfl | ⟨hj, -⟩)
        · exact hmem
        · exact hj
      · intro hj
        by_cases hi : j = i
        · exact Or.inl hi
        · exact Or.inr ⟨hj, fun he => hi (Option.some_inj.1 he)⟩
    unfold Overlay.on
    exact congrArg (fun g => Process.mk _ _ g _) hinsert

theorem refines_signal (hs : f.Sound) (hd : Differs f.c f.holder o) {who : Option ι}
    (hstep : f.step (.signal who) = some f') :
    ∃ o', Differs f'.c f'.holder o' ∧
      Run.exec Process.step (o.on f) (f.labels (.signal who)) = some (o'.on f') := by
  simp only [step] at hstep
  split at hstep
  · next p now pc hh =>
    obtain ⟨hwakes, hstep⟩ := Option.ite_none_right_eq_some.1 hstep
    obtain ⟨pc', hpc, rfl⟩ := Option.map_eq_some_iff.1 hstep
    have hfits := hs.fits
    rw [hh] at hd hfits
    obtain ⟨-, hrec, hrun, -, -⟩ := hfits
    simp only [labels, hh]
    cases pc with
    | killSignals =>
      cases hpc
      obtain ⟨c', hrest, hrun', rfl⟩ := hd.of_process (by simp) (by simp)
      refine ⟨_, .process f.c c' p now (.killResets who) hrest hrun' (by simp) (by simp), ?_⟩
      exact congrArg some (on_pending hwakes c' _).symm
    | signals =>
      cases hpc
      obtain ⟨c', hrest, hrun', rfl⟩ := hd.of_process (by simp) (by simp)
      refine ⟨_, .decided f.c _ rfl, exec_one ?_⟩
      have hwakes' : (({ c := c', extra := none } : Overlay ι).on f).Wakes who := by
        cases who <;> exact hwakes
      exact step_signals hrec (hrun'.trans (hrun (by simp))) hrest.symm hwakes'
    | _ => cases hpc
  · cases hstep

theorem refines_throws (hd : Differs f.c f.holder o) (hstep : f.step .throws = some f') :
    ∃ o', Differs f'.c f'.holder o' ∧ Run.exec Process.step (o.on f) (f.labels .throws) = some (o'.on f') := by
  simp only [step] at hstep
  split at hstep
  · next i hh =>
    cases hstep
    rw [hh] at hd
    obtain rfl := hd.of_decided rfl
    exact ⟨_, .decided f.c _ rfl, rfl⟩
  · cases hstep

/-- **Every statement completes a step of `Process`, or none.** -/
theorem refines_step (hs : f.Sound) (hd : Differs f.c f.holder o) {a : Statement ι} (hstep : f.step a = some f') :
    ∃ o', Differs f'.c f'.holder o' ∧ Run.exec Process.step (o.on f) (f.labels a) = some (o'.on f') := by
  cases a with
  | lock i => exact refines_lock hs hd hstep
  | lockReceiver => exact refines_lockReceiver hd hstep
  | run => exact refines_run hs hd hstep
  | signal who => exact refines_signal hs hd hstep
  | throws => exact refines_throws hd hstep
  | _ => exact refines_outside hs hd (by simp) (by simp) (by simp) (by simp) (by simp) hstep

/-- **The client's critical sections are atomic.** Whatever statements of the threads come between those of
the one that holds the mutex, they are a run of `Process`, which takes each stretch in one step. Its state
is the memory when nobody is on the way; and at any time, for every thread without the mutex, and `running`. -/
theorem statements_refine (as : List (Statement ι)) (f : Mutexed ι)
    (hrun : Run.exec step ({} : Mutexed ι) as = some f) :
    ∃ s, Run.exec Process.step .start (Run.trace step labels {} as) = some s ∧
      (f.holder = .nobody ∨ f.holder = .leaked → s = f.base) ∧
      (∀ i, f.holder.thread ≠ some i → s.threads i = f.threads i) ∧
      s.c.running = f.c.running ∧ s.receiver = f.receiver := by
  have hstart : Differs ({} : Mutexed ι).c ({} : Mutexed ι).holder { c := ({} : Mutexed ι).c } :=
    .decided _ .nobody rfl
  obtain ⟨s, hs, -, o, hd, rfl⟩ := Run.exec_trace
    (R := fun f s => f.Sound ∧ ∃ o : Overlay ι, Differs f.c f.holder o ∧ s = o.on f)
    (fun f s a f' hR hstep => by
      obtain ⟨hsound, o, hd, rfl⟩ := hR
      obtain ⟨o', hd', hexec⟩ := refines_step hsound hd hstep
      exact ⟨_, hexec, hsound.step hstep, o', hd', rfl⟩)
    (⟨sound_start, _, hstart, rfl⟩ : ({} : Mutexed ι).Sound ∧ ∃ o : Overlay ι, _ ∧ Process.start = o.on {}) hrun
  refine ⟨_, hs, fun hh => ?_, fun i hi => ?_, hd.running, rfl⟩
  · have hdecided : f.holder.decided = true := by rcases hh with hh | hh <;> rw [hh] <;> rfl
    have hoverlay : f.holder.overlay f.c = { c := f.c } := by rcases hh with hh | hh <;> rw [hh] <;> rfl
    rw [hd.of_decided hdecided, hoverlay]
    rfl
  · exact Overlay.on_threads fun x hx he => hi (he ▸ hd.thread x hx)

/-- A `get()` finds no data, and waits; while it holds the mutex the receiver reads a notification, and another
thread calls `get()`. -/
def crossed : List (Statement Bool) :=
  let a := CString.ofString "a"
  [.call false (.subscribe a), .lock false, .run, .run, .run, .get false a .any, .lock false, .run, .run,
    .packet (message [.float 7] scNotify a) 1, .run, .run, .get true a .none, .run, .run, .lockReceiver, .run, .run,
    .run, .run, .run, .run, .spurious false, .signal none, .run, .run, .lock false, .run, .run, .run, .run, .run,
    .run]

theorem statements_refine_crossed : ∃ (f : Mutexed Bool) (s : Process Bool),
    Run.exec step ({} : Mutexed Bool) crossed = some f ∧
      Run.exec Process.step .start (Run.trace step labels {} crossed) = some s ∧ s = f.base ∧
      s.threads false = .returned { d := [.float 7], state := .changed, timeLastSet := some 1 } := by
  have hrun : (Run.exec step ({} : Mutexed Bool) crossed).any (fun f => decide (f.holder = .nobody) &&
      decide (f.threads false = .returned { d := [.float 7], state := .changed, timeLastSet := some 1 })) = true := by
    decide +kernel
  obtain ⟨f, hf, hrun⟩ := (Option.any_eq_true _ _).1 hrun
  simp only [Bool.and_eq_true, decide_eq_true_eq] at hrun
  obtain ⟨hnobody, hthread⟩ := hrun
  obtain ⟨s, hs, hbase, hthreads, -⟩ := statements_refine crossed f hf
  refine ⟨f, s, hf, hs, hbase (Or.inl hnobody), ?_⟩
  rw [hthreads false (by rw [hnobody]; simp [Holder.thread]), hthread]

end Mutexed

end DiamondApparatus
