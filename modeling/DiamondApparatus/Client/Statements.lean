import DiamondApparatus.Client.Mutex

/-!
# What is left to do under the mutex

* `GetPc.rest`, `ProcessPc.rest` : what is left to do of a `get()`, or of a packet; `rest_next` : a
  statement takes one part of it away;
* `Mutexed.Fits` : what the place of the holder says of its thread, or of the receiver;
* `Mutexed.Sound`, `Sound.step` : who holds the mutex is awake and in no other call, through any statement.
-/

namespace DiamondApparatus
open Lib Std

/-! ## What is left to do -/

namespace GetPc

/-- `get()` behind the reset of `waittopic`. -/
def firstRest (n : CString) (wait : Wait) (t : Ref) (c : MyClient) : MyClient × GetStep :=
  if (c.heap t).state = .nodata then
    if wait = .any ∨ wait = .new then c.getLoop n t .nodata else (c, .returns { state := .notfound })
  else if wait = .new then c.getLoop n t .unchanged
  else c.take t

def rest (n : CString) (wait : Wait) (c : MyClient) : GetPc → MyClient × GetStep
  | find => c.getLocked n wait
  | resets t => firstRest n wait t { c with waittopic := none }
  | first t => firstRest n wait t c
  | loop t l => c.getLoop n t l
  | asks t l => ({ c with waittopic := some n }, .waits t l)
  | sleeps t l => (c, .waits t l)
  | woken t l => c.getWoken n t l
  | tests t l => if c.running then c.getLoop n t l else (c, .returns { state := .notconnected })
  | copies t => c.take t
  | marks t rv => (c.store t { c.heap t with state := .unchanged }, .returns rv)
  | unlocks rv => (c, .returns rv)

/-- **A statement of `get()` takes away what it does.** -/
theorem rest_next {n : CString} {wait : Wait} {c c' : MyClient} {pc pc' : GetPc}
    (h : pc.next n wait c = some (pc', c')) : pc'.rest n wait c' = pc.rest n wait c := by
  cases pc with
  | find =>
    show _ = c.getLocked n wait
    cases ht : c.topics[n]? with
    | none =>
      simp only [next, ht, Option.some_inj, Prod.mk.injEq] at h
      obtain ⟨rfl, rfl⟩ := h
      simp only [rest, MyClient.getLocked, ht]
    | some t =>
      simp only [next, ht, Option.some_inj, Prod.mk.injEq] at h
      obtain ⟨rfl, rfl⟩ := h
      simp only [rest, MyClient.getLocked, ht]
      rfl
  | first t =>
    simp only [next] at h
    simp only [rest, firstRest]
    split at h
    · next hdata =>
      rw [if_pos hdata]
      split at h
      · next hwait =>
        cases h
        exact (if_pos hwait).symm
      · next hwait =>
        cases h
        exact (if_neg hwait).symm
    · next hdata =>
      rw [if_neg hdata]
      split at h
      · next hwait =>
        cases h
        exact (if_pos hwait).symm
      · next hwait =>
        cases h
        exact (if_neg hwait).symm
  | loop t l =>
    simp only [next] at h
    simp only [rest, MyClient.getLoop]
    split at h
    · next htest =>
      cases h
      exact (if_pos htest).symm
    · next htest =>
      cases h
      exact (if_neg htest).symm
  | tests t l =>
    simp only [next] at h
    simp only [rest]
    split at h
    · next hrun =>
      cases h
      exact (if_pos hrun).symm
    · next hrun =>
      cases h
      exact (if_neg hrun).symm
  | resets t => cases h; rfl
  | asks t l => cases h; rfl
  | woken t l => cases h; rfl
  | copies t => cases h; rfl
  | marks t rv => cases h; rfl
  | sleeps t l => cases h
  | unlocks rv => cases h

/-- Whether what is left does not depend on `running` any more. -/
def committed : GetPc → Bool
  | woken _ _ => false
  | tests _ _ => false
  | _ => true

end GetPc

namespace MyClient

theorem store_store (c : MyClient) (t : Ref) (x y : Topic) : (c.store t x).store t y = c.store t y := by
  unfold store
  congr 1
  funext k
  by_cases hk : k = t
  · simp only [if_pos hk]
  · simp only [if_neg hk]

theorem heap_store (c : MyClient) (t : Ref) (x : Topic) : (c.store t x).heap t = x := if_pos rfl

end MyClient

namespace ProcessPc
variable {ι : Type}

def notifyRest (name : CString) (c : MyClient) : MyClient × Bool × Option Fault :=
  if c.wanted name then ({ c with waittopic := none }, true, none) else (c, false, none)

def rest (p : Bytes) (now : Clock) (c : MyClient) : ProcessPc ι → MyClient × Bool × Option Fault
  | head => c.process p now
  | kill => ({ c with waittopic := none, running := false }, c.waittopic.isSome, none)
  | killSignals => ({ c with waittopic := none, running := false }, true, none)
  | killResets _ => ({ c with waittopic := none, running := false }, true, none)
  | stops woken => ({ c with running := false }, woken.isSome, none)
  | find => c.notify p now
  | decodes name t =>
    match (c.heap t).fromMessage p false with
    | (x, .error e) => (c.store t x, false, some e)
    | (x, .ok _) => notifyRest name (c.store t { x with state := .changed, timeLastSet := some now })
  | marks name t => notifyRest name (c.store t { c.heap t with state := .changed, timeLastSet := some now })
  | dates name t => notifyRest name (c.store t { c.heap t with timeLastSet := some now })
  | wanted name => notifyRest name c
  | signals => ({ c with waittopic := none }, true, none)
  | resets => ({ c with waittopic := none }, false, none)
  | unlocks => (c, false, none)

/-- **A statement of `process()` takes away what it does.** -/
theorem rest_next {p : Bytes} {now : Clock} {c c' : MyClient} {pc pc' : ProcessPc ι}
    (h : pc.next p now c = some (pc', c')) (hpc : ∀ woken, pc ≠ .stops woken) :
    pc'.rest p now c' = pc.rest p now c := by
  cases pc with
  | head =>
    show _ = c.process p now
    cases htype : takeU32 p with
    | none =>
      simp only [next, htype] at h
      cases h
    | some x =>
      simp only [next, htype] at h
      unfold MyClient.process
      rw [htype]
      dsimp only
      by_cases hkill : x.1 = scKillclient
      · rw [if_pos hkill, Option.some_inj, Prod.mk.injEq] at h
        obtain ⟨rfl, rfl⟩ := h
        rw [hkill]
        cases hw : c.waittopic <;> simp [rest, hw, scKillclient, scNotify]
      · rw [if_neg hkill] at h
        by_cases hnotify : x.1 = scNotify
        · rw [if_pos hnotify, Option.some_inj, Prod.mk.injEq] at h
          obtain ⟨rfl, rfl⟩ := h
          rw [hnotify]
          simp [rest, scKillclient, scNotify]
        · rw [if_neg hnotify, Option.some_inj, Prod.mk.injEq] at h
          obtain ⟨rfl, rfl⟩ := h
          simp [rest, hkill, hnotify]
  | kill =>
    cases h
    cases hw : c.waittopic <;> simp [rest, hw]
  | killResets who => cases h; rfl
  | stops woken => exact absurd rfl (hpc woken)
  | find =>
    show _ = c.notify p now
    unfold MyClient.notify
    cases hname : nameOfMsg p with
    | error e =>
      simp only [next, hname] at h
      cases h
    | ok name =>
      cases ht : c.topics[name]? with
      | none =>
        simp only [next, hname, ht, Option.some_inj, Prod.mk.injEq] at h
        obtain ⟨rfl, rfl⟩ := h
        simp only [ht]
        rfl
      | some t =>
        simp only [next, hname, ht, Option.some_inj, Prod.mk.injEq] at h
        obtain ⟨rfl, rfl⟩ := h
        simp only [ht]
        rfl
  | decodes name t =>
    simp only [next] at h
    simp only [rest]
    cases hx : (c.heap t).fromMessage p false with
    | mk x r =>
      cases r with
      | error e =>
        simp only [hx] at h
        cases h
      | ok type =>
        simp only [hx, Option.some_inj, Prod.mk.injEq] at h
        obtain ⟨rfl, rfl⟩ := h
        simp only [MyClient.heap_store, MyClient.store_store]
  | marks name t =>
    cases h
    simp only [rest, MyClient.heap_store, MyClient.store_store]
  | dates name t => cases h; rfl
  | wanted name =>
    cases h
    simp only [rest, notifyRest]
    cases c.wanted name <;> rfl
  | resets => cases h; rfl
  | killSignals => cases h
  | signals => cases h
  | unlocks => cases h

/-- Whom the signal has woken, while the packet is not handled. -/
def pending : ProcessPc ι → Option (Option ι)
  | killResets who => some who
  | stops woken => woken
  | _ => none

end ProcessPc

/-! ## Who holds the mutex -/

variable {ι : Type}

def Holder.thread : Holder ι → Option ι
  | get i _ _ _ => some i
  | waitForAny i _ => some i
  | request i _ => some i
  | _ => none

namespace Mutexed
variable {f f' : Mutexed ι}

/-- What the place of the holder says of its thread, or of the receiver. -/
def Fits (f : Mutexed ι) : Holder ι → Prop
  | .get i n wait (.woken t l) => f.calls i = none ∧ i ∉ f.getcond ∧ f.threads i = .waiting n wait t l
  | .get i n wait (.tests t l) => f.calls i = none ∧ i ∉ f.getcond ∧ f.threads i = .waiting n wait t l
  | .get i n wait _ => f.calls i = none ∧ i ∉ f.getcond ∧
      (f.threads i = .entered n wait ∨ ∃ t l, f.threads i = .waiting n wait t l)
  | .waitForAny i .asks => f.calls i = some .waitForAny ∧ i ∉ f.getcond
  | .waitForAny i .sleeps => f.calls i = some .waitForAny ∧ i ∉ f.getcond
  | .waitForAny i _ => f.calls i = none ∧ i ∉ f.getcond ∧ f.threads i = .waitingAny
  | .request i _ => f.calls i ≠ none
  | .process p now pc => f.hand = some (p, now) ∧ f.receiver = .looping ∧ (pc ≠ .unlocks → f.c.running = true) ∧
      (∀ i, pc.pending = some (some i) → i ∉ f.getcond) ∧ (pc.pending = some none → f.getcond = ∅)
  | .nobody => True
  | .leaked => True

structure Sound (f : Mutexed ι) : Prop where
  /-- A call other than `get()` is not made inside `get()`. -/
  calling : ∀ i, f.calls i ≠ none → f.threads i = .idle ∨ ∃ rv, f.threads i = .returned rv
  asleep : ∀ i ∈ f.getcond, f.threads i = .waitingAny ∨ ∃ n wait t l, f.threads i = .waiting n wait t l
  reads : f.hand ≠ none → f.receiver = .looping
  running : f.hand ≠ none → (∀ p now, f.holder ≠ .process p now .unlocks) → f.c.running = true
  fits : f.Fits f.holder

theorem sound_start : (({} : Mutexed ι)).Sound where
  calling _ h := absurd rfl h
  asleep _ h := absurd h (Finset.notMem_empty _)
  reads h := absurd rfl h
  running h := absurd rfl h
  fits := trivial

theorem Fits.not_free {h : Holder ι} (hfits : f.Fits h) {i : ι} (hi : h.thread = some i) : ¬ f.Free i := by
  rintro ⟨hcalls, hfree⟩
  cases h with
  | get j n wait pc =>
    cases hi
    have hthread : f.threads i = .entered n wait ∨ ∃ t l, f.threads i = .waiting n wait t l := by
      cases pc with
      | woken t l => exact Or.inr ⟨t, l, hfits.2.2⟩
      | tests t l => exact Or.inr ⟨t, l, hfits.2.2⟩
      | _ => exact hfits.2.2
    rcases hthread with hthread | ⟨t, l, hthread⟩ <;> rw [hthread] at hfree <;> simp at hfree
  | waitForAny j pc =>
    cases hi
    cases pc with
    | asks => rw [hfits.1] at hcalls; cases hcalls
    | sleeps => rw [hfits.1] at hcalls; cases hcalls
    | resets => rw [hfits.2.2] at hfree; simp at hfree
    | unlocks => rw [hfits.2.2] at hfree; simp at hfree
  | request j pc =>
    cases hi
    exact hfits hcalls
  | nobody => cases hi
  | process p now pc => cases hi
  | leaked => cases hi

/-- What is done elsewhere does not matter to the holder. -/
theorem Fits.mono {h : Holder ι} (hfits : f.Fits h)
    (hthread : ∀ i, h.thread = some i → f'.threads i = f.threads i ∧ f'.calls i = f.calls i)
    (hgetcond : f'.getcond ⊆ f.getcond)
    (hreceiver : ∀ p now pc, h = .process p now pc →
      f'.hand = f.hand ∧ f'.receiver = f.receiver ∧ f'.c.running = f.c.running) : f'.Fits h := by
  cases h with
  | get i n wait pc =>
    obtain ⟨ht, hc⟩ := hthread i rfl
    cases pc with
    | _ => exact ⟨hc.trans hfits.1, fun hi => hfits.2.1 (hgetcond hi), by rw [ht]; exact hfits.2.2⟩
  | waitForAny i pc =>
    obtain ⟨ht, hc⟩ := hthread i rfl
    cases pc with
    | asks => exact ⟨hc.trans hfits.1, fun hi => hfits.2 (hgetcond hi)⟩
    | sleeps => exact ⟨hc.trans hfits.1, fun hi => hfits.2 (hgetcond hi)⟩
    | resets => exact ⟨hc.trans hfits.1, fun hi => hfits.2.1 (hgetcond hi), ht.trans hfits.2.2⟩
    | unlocks => exact ⟨hc.trans hfits.1, fun hi => hfits.2.1 (hgetcond hi), ht.trans hfits.2.2⟩
  | request i pc =>
    obtain ⟨-, hc⟩ := hthread i rfl
    exact fun hnone => hfits (hc.symm.trans hnone)
  | process p now pc =>
    obtain ⟨hhand, hrec, hrun⟩ := hreceiver p now pc rfl
    obtain ⟨hhand', hrec', hrun', hsome, hnone⟩ := hfits
    refine ⟨hhand.trans hhand', hrec.trans hrec', fun hpc => hrun.trans (hrun' hpc),
      fun i hi hmem => hsome i hi (hgetcond hmem), fun hpc => ?_⟩
    exact Finset.subset_empty.1 (hnone hpc ▸ hgetcond)
  | nobody => trivial
  | leaked => trivial

variable [DecidableEq ι]

/-! ## Every statement -/

theorem setThread_other (f : Mutexed ι) {i j : ι} (x : Thread) (h : j ≠ i) :
    (f.setThread i x).threads j = f.threads j := if_neg h

theorem setCall_other (f : Mutexed ι) {i j : ι} (k : Option Calling) (h : j ≠ i) :
    (f.setCall i k).calls j = f.calls j := if_neg h

omit [DecidableEq ι] in
/-- A free thread is neither asleep, nor the holder. -/
theorem Sound.awake (hs : f.Sound) {i : ι} (hi : f.Free i) : i ∉ f.getcond := by
  intro hmem
  rcases hs.asleep i hmem with h | ⟨n, wait, t, l, h⟩ <;> rw [Free, h] at hi <;> simp at hi

omit [DecidableEq ι] in
theorem Sound.holder_ne (hs : f.Sound) {i j : ι} (hi : f.Free i) (hj : f.holder.thread = some j) : j ≠ i := by
  rintro rfl
  exact hs.fits.not_free hj hi

theorem Sound.setThread (hs : f.Sound) {i : ι} (hi : f.Free i) (x : Thread) : (f.setThread i x).Sound where
  calling j hj := by
    have hne : j ≠ i := by
      rintro rfl
      exact hj hi.1
    rw [setThread_other f x hne]
    exact hs.calling j hj
  asleep j hj := by
    have hne : j ≠ i := by
      rintro rfl
      exact hs.awake hi hj
    rw [setThread_other f x hne]
    exact hs.asleep j hj
  reads := hs.reads
  running := hs.running
  fits := hs.fits.mono (fun j hj => ⟨setThread_other f x (hs.holder_ne hi hj), rfl⟩) (Finset.Subset.refl _)
    fun _ _ _ _ => ⟨rfl, rfl, rfl⟩

theorem Sound.setCall (hs : f.Sound) {i : ι} (hi : f.Free i) (k : Option Calling) : (f.setCall i k).Sound where
  calling j hj := by
    by_cases hne : j = i
    · rw [hne]
      exact hi.2
    · rw [setCall_other f k hne] at hj
      exact hs.calling j hj
  asleep := hs.asleep
  reads := hs.reads
  running := hs.running
  fits := hs.fits.mono (fun j hj => ⟨rfl, setCall_other f k (hs.holder_ne hi hj)⟩) (Finset.Subset.refl _)
    fun _ _ _ _ => ⟨rfl, rfl, rfl⟩

theorem setCall_self {i : ι} {k : Option Calling} (h : f.calls i = k) : f.setCall i k = f := by
  unfold setCall
  congr 1
  funext j
  by_cases hj : j = i
  · rw [if_pos hj, hj, h]
  · rw [if_neg hj]

theorem setThread_self (f : Mutexed ι) (i : ι) : f.setThread i (f.threads i) = f := by
  unfold setThread
  congr 1
  funext j
  by_cases hj : j = i
  · rw [if_pos hj, hj]
  · rw [if_neg hj]

theorem Sound.ends (hs : f.Sound) {i : ι} {x : Thread} {g : Finset ι} {h : Holder ι}
    (hi : f.holder.thread = some i) (hh : h = .nobody ∨ h = .leaked) (hg : ∀ j ∈ g, j ≠ i → j ∈ f.getcond)
    (hx : i ∈ g → x = .waitingAny ∨ ∃ n wait t l, x = .waiting n wait t l) :
    { (f.setCall i none).setThread i x with getcond := g, holder := h }.Sound where
  calling j hj := by
    have hne : j ≠ i := fun he => hj (if_pos he)
    have hcalls : f.calls j ≠ none := fun hnone => hj ((setCall_other f none hne).trans hnone)
    exact (setThread_other (f.setCall i none) x hne).symm ▸ hs.calling j hcalls
  asleep j hj := by
    by_cases hne : j = i
    · have hthread : ((f.setCall i none).setThread i x).threads j = x := if_pos hne
      exact hthread.symm ▸ hx (hne ▸ hj)
    · exact (setThread_other (f.setCall i none) x hne).symm ▸ hs.asleep j (hg j hj hne)
  reads := hs.reads
  running hhand _ := hs.running hhand fun p now hp => by rw [hp] at hi; cases hi
  fits := by rcases hh with rfl | rfl <;> trivial

omit [DecidableEq ι] in
theorem Sound.keeps (hs : f.Sound) {c : MyClient} {h : Holder ι}
    (hrun : (∀ p now, h ≠ .process p now .unlocks) →
      c.running = f.c.running ∧ ∀ p now, f.holder ≠ .process p now .unlocks)
    (hfits : { f with c := c, holder := h }.Fits h) : { f with c := c, holder := h }.Sound where
  calling := hs.calling
  asleep := hs.asleep
  reads := hs.reads
  running hhand hh := (hrun hh).1.trans (hs.running hhand (hrun hh).2)
  fits := hfits

theorem next_running {n : CString} {wait : Wait} {pc pc' : GetPc} {c c' : MyClient}
    (hnext : pc.next n wait c = some (pc', c')) : c'.running = c.running := by
  cases pc with
  | find =>
    simp only [GetPc.next] at hnext
    split at hnext <;> cases hnext <;> rfl
  | first t =>
    simp only [GetPc.next] at hnext
    split at hnext <;> split at hnext <;> cases hnext <;> rfl
  | loop t l =>
    simp only [GetPc.next] at hnext
    split at hnext <;> cases hnext <;> rfl
  | tests t l =>
    simp only [GetPc.next] at hnext
    split at hnext <;> cases hnext <;> rfl
  | sleeps t l => cases hnext
  | unlocks rv => cases hnext
  | _ => cases hnext; rfl

omit [DecidableEq ι] in
theorem Fits.get_next {i : ι} {n : CString} {wait : Wait} {pc pc' : GetPc} {c c' : MyClient}
    (hfits : f.Fits (.get i n wait pc)) (hnext : pc.next n wait c = some (pc', c')) :
    f.Fits (.get i n wait pc') := by
  cases pc with
  | find =>
    simp only [GetPc.next] at hnext
    split at hnext <;> cases hnext <;> exact hfits
  | first t =>
    simp only [GetPc.next] at hnext
    split at hnext <;> split at hnext <;> cases hnext <;> exact hfits
  | loop t l =>
    simp only [GetPc.next] at hnext
    split at hnext <;> cases hnext <;> exact hfits
  | tests t l =>
    simp only [GetPc.next] at hnext
    split at hnext <;> cases hnext <;> exact ⟨hfits.1, hfits.2.1, Or.inr ⟨t, l, hfits.2.2⟩⟩
  | resets t => cases hnext; exact hfits
  | asks t l => cases hnext; exact hfits
  | woken t l => cases hnext; exact hfits
  | copies t => cases hnext; exact hfits
  | marks t rv => cases hnext; exact hfits
  | sleeps t l => cases hnext
  | unlocks rv => cases hnext

omit [DecidableEq ι] in
/-- Where `process()` goes from `pc`: nobody more is woken, and only `running=false` changes `running`. -/
theorem next_process {p : Bytes} {now : Clock} {pc pc' : ProcessPc ι} {c c' : MyClient}
    (hnext : pc.next p now c = some (pc', c')) : pc ≠ .unlocks ∧
      (pc'.pending = pc.pending ∨ pc'.pending = none) ∧ (pc' ≠ .unlocks → c'.running = c.running) := by
  cases pc with
  | head =>
    simp only [ProcessPc.next] at hnext
    split at hnext
    · cases hnext
    · split at hnext
      · cases hnext
        exact ⟨by simp, Or.inl rfl, fun _ => rfl⟩
      · split at hnext <;> cases hnext <;> exact ⟨by simp, Or.inl rfl, fun _ => rfl⟩
  | kill =>
    cases hnext
    cases c.waittopic <;> exact ⟨by simp, Or.inl rfl, fun _ => rfl⟩
  | stops woken =>
    cases hnext
    exact ⟨by simp, Or.inr rfl, fun h => absurd rfl h⟩
  | find =>
    simp only [ProcessPc.next] at hnext
    split at hnext
    · cases hnext
    · split at hnext <;> cases hnext <;> exact ⟨by simp, Or.inl rfl, fun _ => rfl⟩
  | decodes name t =>
    simp only [ProcessPc.next] at hnext
    split at hnext
    · cases hnext
    · cases hnext
      exact ⟨by simp, Or.inl rfl, fun _ => rfl⟩
  | wanted name =>
    cases hnext
    cases c.wanted name <;> exact ⟨by simp, Or.inl rfl, fun _ => rfl⟩
  | killResets who => cases hnext; exact ⟨by simp, Or.inl rfl, fun _ => rfl⟩
  | marks name t => cases hnext; exact ⟨by simp, Or.inl rfl, fun _ => rfl⟩
  | dates name t => cases hnext; exact ⟨by simp, Or.inl rfl, fun _ => rfl⟩
  | resets => cases hnext; exact ⟨by simp, Or.inl rfl, fun _ => rfl⟩
  | killSignals => cases hnext
  | signals => cases hnext
  | unlocks => cases hnext

inductive Ran (f : Mutexed ι) : Mutexed ι → Prop
  | get (i : ι) (n : CString) (wait : Wait) (pc pc' : GetPc) (c : MyClient) (h : f.holder = .get i n wait pc)
      (hnext : pc.next n wait f.c = some (pc', c)) : Ran f { f with c := c, holder := .get i n wait pc' }
  | getSleeps (i : ι) (n : CString) (wait : Wait) (t : Ref) (l : Loop)
      (h : f.holder = .get i n wait (.sleeps t l)) : Ran f (f.sleep i (.waiting n wait t l))
  | getUnlocks (i : ι) (n : CString) (wait : Wait) (rv : Topic) (h : f.holder = .get i n wait (.unlocks rv)) :
      Ran f { f.setThread i (.returned rv) with holder := .nobody }
  | anyAsks (i : ι) (h : f.holder = .waitForAny i .asks) :
      Ran f { f with c := { f.c with waittopic := some (.ofString "") }, holder := .waitForAny i .sleeps }
  | anySleeps (i : ι) (h : f.holder = .waitForAny i .sleeps) : Ran f ((f.setCall i none).sleep i .waitingAny)
  | anyResets (i : ι) (h : f.holder = .waitForAny i .resets) :
      Ran f { f with c := { f.c with waittopic := none }, holder := .waitForAny i .unlocks }
  | anyUnlocks (i : ι) (h : f.holder = .waitForAny i .unlocks) :
      Ran f { f.setThread i .idle with holder := .nobody }
  | inserts (i : ι) (n : CString) (h : f.holder = .request i (.inserts n)) :
      Ran f { f with c := f.c.subscribe n, holder := .request i .sends }
  | sends (i : ι) (h : f.holder = .request i .sends) : Ran f { f with holder := .request i .unlocks }
  | requestUnlocks (i : ι) (h : f.holder = .request i .unlocks) :
      Ran f { f.setCall i none with holder := .nobody }
  | process (p : Bytes) (now : Clock) (pc pc' : ProcessPc ι) (c : MyClient) (h : f.holder = .process p now pc)
      (hnext : pc.next p now f.c = some (pc', c)) : Ran f { f with c := c, holder := .process p now pc' }
  | processUnlocks (p : Bytes) (now : Clock) (h : f.holder = .process p now .unlocks) :
      Ran f { f with hand := none, holder := .nobody }

theorem ran (h : f.run = some f') : Ran f f' := by
  unfold run at h
  split at h
  · next i n wait t l hh => cases h; exact .getSleeps i n wait t l hh
  · next i n wait rv hh => cases h; exact .getUnlocks i n wait rv hh
  · next i n wait pc _ _ hh =>
    obtain ⟨⟨pc', c⟩, hnext, rfl⟩ := Option.map_eq_some_iff.1 h
    exact .get i n wait pc pc' c hh hnext
  · next i hh => cases h; exact .anyAsks i hh
  · next i hh => cases h; exact .anySleeps i hh
  · next i hh => cases h; exact .anyResets i hh
  · next i hh => cases h; exact .anyUnlocks i hh
  · next i n hh => cases h; exact .inserts i n hh
  · next i hh => cases h; exact .sends i hh
  · next i hh => cases h; exact .requestUnlocks i hh
  · next p now hh => cases h; exact .processUnlocks p now hh
  · next p now pc _ hh =>
    obtain ⟨⟨pc', c⟩, hnext, rfl⟩ := Option.map_eq_some_iff.1 h
    exact .process p now pc pc' c hh hnext
  · cases h
  · cases h

theorem Sound.run (hs : f.Sound) (h : f.run = some f') : f'.Sound := by
  have hfits := hs.fits
  have hself : ∀ {i : ι} {x : Thread} {g : Finset ι}, f.calls i = none →
      { (f.setCall i none).setThread i x with getcond := g, holder := Holder.nobody } =
        { f.setThread i x with getcond := g, holder := .nobody } := fun hcalls => by rw [setCall_self hcalls]
  cases ran h with
  | get i n wait pc pc' c hh hnext =>
    rw [hh] at hfits
    exact hs.keeps (fun _ => ⟨next_running hnext, by rw [hh]; simp⟩)
      ((hfits.get_next hnext).mono (fun _ _ => ⟨rfl, rfl⟩) (Finset.Subset.refl _) (by simp))
  | getSleeps i n wait t l hh =>
    rw [hh] at hfits
    have hends := hs.ends (i := i) (x := .waiting n wait t l) (by rw [hh]; rfl) (Or.inl rfl)
      (fun j hj hne => (Finset.mem_insert.1 hj).resolve_left hne) fun _ => Or.inr ⟨n, wait, t, l, rfl⟩
    rwa [hself hfits.1] at hends
  | getUnlocks i n wait rv hh =>
    rw [hh] at hfits
    have hends := hs.ends (x := .returned rv) (by rw [hh]; rfl) (Or.inl rfl) (fun _ hj _ => hj) fun hi => absurd hi hfits.2.1
    rwa [hself hfits.1] at hends
  | anyAsks i hh =>
    rw [hh] at hfits
    exact hs.keeps (fun _ => ⟨rfl, by rw [hh]; simp⟩) hfits
  | anySleeps i hh =>
    exact hs.ends (by rw [hh]; rfl) (Or.inl rfl) (fun j hj hne => (Finset.mem_insert.1 hj).resolve_left hne) fun _ => Or.inl rfl
  | anyResets i hh =>
    rw [hh] at hfits
    exact hs.keeps (fun _ => ⟨rfl, by rw [hh]; simp⟩) hfits
  | anyUnlocks i hh =>
    rw [hh] at hfits
    have hends := hs.ends (x := .idle) (by rw [hh]; rfl) (Or.inl rfl) (fun _ hj _ => hj) fun hi => absurd hi hfits.2.1
    rwa [hself hfits.1] at hends
  | inserts i n hh =>
    rw [hh] at hfits
    exact hs.keeps (fun _ => ⟨rfl, by rw [hh]; simp⟩) hfits
  | sends i hh =>
    rw [hh] at hfits
    exact hs.keeps (fun _ => ⟨rfl, by rw [hh]; simp⟩) hfits
  | requestUnlocks i hh =>
    have hends := hs.ends (x := f.threads i) (by rw [hh]; rfl) (Or.inl rfl) (fun _ hj _ => hj) (hs.asleep i)
    have hsame : (f.setCall i none).setThread i (f.threads i) = f.setCall i none :=
      setThread_self (f.setCall i none) i
    rwa [hsame] at hends
  | process p now pc pc' c hh hnext =>
    rw [hh] at hfits
    obtain ⟨hhand, hrec, hrun, hsome, hnone⟩ := hfits
    obtain ⟨hpc, hpending, hrunning⟩ := next_process hnext
    have hunlocked : ∀ p' now', f.holder ≠ .process p' now' .unlocks := by
      intro p' now' he
      rw [hh, Holder.process.injEq] at he
      exact hpc he.2.2
    refine hs.keeps (fun hp => ⟨hrunning fun he => hp p now (he ▸ rfl), hunlocked⟩) ⟨hhand, hrec, fun hpc' => (hrunning hpc').trans (hrun hpc), fun i hi => ?_, fun hi => ?_⟩
    · rcases hpending with he | he
      · exact hsome i (he ▸ hi)
      · rw [he] at hi
        cases hi
    · rcases hpending with he | he
      · exact hnone (he ▸ hi)
      · rw [he] at hi
        cases hi
  | processUnlocks p now hh =>
    exact ⟨hs.calling, hs.asleep, fun h => absurd rfl h, fun h => absurd rfl h, trivial⟩

omit [DecidableEq ι] in
theorem fits_entry {i : ι} (hi : i ∉ f.getcond) {h : Holder ι} (he : f.entry i = some h) :
    h.thread = some i ∧ f.Fits h := by
  unfold Mutexed.entry at he
  split at he
  · next hcall => cases he; exact ⟨rfl, hcall, hi⟩
  · next n hcall => cases he; exact ⟨rfl, fun hnone => by rw [hcall] at hnone; cases hnone⟩
  · next hcall => cases he; exact ⟨rfl, fun hnone => by rw [hcall] at hnone; cases hnone⟩
  · next hcall =>
    split at he
    · next n wait ht => cases he; exact ⟨rfl, hcall, hi, Or.inl ht⟩
    · next n wait t l ht => cases he; exact ⟨rfl, hcall, hi, ht⟩
    · next ht => cases he; exact ⟨rfl, hcall, hi, ht⟩
    · cases he

theorem mem_wake {who : Option ι} {i : ι} : i ∈ (f.wake who).getcond ↔ i ∈ f.getcond ∧ some i ≠ who :=
  Finset.mem_filter

theorem Sound.wake (hs : f.Sound) (who : Option ι) : (f.wake who).Sound where
  calling := hs.calling
  asleep i hi := hs.asleep i (mem_wake.1 hi).1
  reads := hs.reads
  running := hs.running
  fits := hs.fits.mono (fun _ _ => ⟨rfl, rfl⟩) (Finset.filter_subset _ _) fun _ _ _ _ => ⟨rfl, rfl, rfl⟩

omit [DecidableEq ι] in
theorem Sound.receives (hs : f.Sound) (hhand : f.hand = none) {c : MyClient} {receiver : Receiver}
    {hand : Option (Bytes × Clock)} (hreads : hand ≠ none → receiver = .looping ∧ c.running = true) :
    { f with c := c, receiver := receiver, hand := hand }.Sound where
  calling := hs.calling
  asleep := hs.asleep
  reads hne := (hreads hne).1
  running hne _ := (hreads hne).2
  fits := hs.fits.mono (fun _ _ => ⟨rfl, rfl⟩) (Finset.Subset.refl _) fun p now pc hh => by
    have hfits := hs.fits
    rw [hh] at hfits
    rw [hfits.1] at hhand
    cases hhand

omit [DecidableEq ι] in
theorem Sound.hand_none (hs : f.Sound) (h : f.receiver = .left) : f.hand = none := by
  by_contra hne
  rw [hs.reads hne] at h
  cases h

/-- **Every statement keeps it.** -/
theorem Sound.step (hs : f.Sound) {a : Statement ι} (hstep : f.step a = some f') : f'.Sound := by
  cases a with
  | get i n wait =>
    obtain ⟨hfree, hstep⟩ := Option.ite_none_right_eq_some.1 hstep
    cases hstep
    exact hs.setThread hfree _
  | call i k =>
    obtain ⟨hfree, hstep⟩ := Option.ite_none_right_eq_some.1 hstep
    split at hstep
    · cases hstep
      exact hs.setCall hfree _
    · cases hstep
      exact hs
  | spurious i =>
    obtain ⟨-, hstep⟩ := Option.ite_none_right_eq_some.1 hstep
    cases hstep
    exact hs.wake _
  | packet p now =>
    obtain ⟨⟨hrec, hrun, hhand⟩, hstep⟩ := Option.ite_none_right_eq_some.1 hstep
    cases hstep
    exact hs.receives hhand fun _ => ⟨hrec, hrun⟩
  | hangup =>
    obtain ⟨⟨-, -, hhand⟩, hstep⟩ := Option.ite_none_right_eq_some.1 hstep
    cases hstep
    exact hs.receives hhand fun hne => absurd hhand hne
  | leave =>
    obtain ⟨⟨-, -, hhand⟩, hstep⟩ := Option.ite_none_right_eq_some.1 hstep
    cases hstep
    exact hs.receives hhand fun hne => absurd hhand hne
  | finish =>
    obtain ⟨hrec, hstep⟩ := Option.ite_none_right_eq_some.1 hstep
    cases hstep
    have hhand := hs.hand_none hrec
    exact hs.receives hhand fun hne => absurd hhand hne
  | lock i =>
    obtain ⟨⟨hnobody, hi⟩, hstep⟩ := Option.ite_none_right_eq_some.1 hstep
    obtain ⟨h, he, rfl⟩ := Option.map_eq_some_iff.1 hstep
    obtain ⟨hthread, hfits⟩ := fits_entry hi he
    refine hs.keeps (fun _ => ⟨rfl, by rw [hnobody]; simp⟩) (hfits.mono (fun _ _ => ⟨rfl, rfl⟩)
      (Finset.Subset.refl _) fun _ _ _ _ => ⟨rfl, rfl, rfl⟩)
  | lockReceiver =>
    simp only [Mutexed.step] at hstep
    split at hstep
    · next p now hnobody hhand =>
      cases hstep
      have hne : f.hand ≠ none := by rw [hhand]; simp
      have hrun := hs.running hne (by rw [hnobody]; simp)
      exact hs.keeps (fun _ => ⟨rfl, by rw [hnobody]; simp⟩) ⟨hhand, hs.reads hne, fun _ => hrun, by simp [ProcessPc.pending],
        by simp [ProcessPc.pending]⟩
    · cases hstep
  | run => exact hs.run hstep
  | signal who =>
    simp only [Mutexed.step] at hstep
    split at hstep
    · next p now pc hh =>
      obtain ⟨hwakes, hstep⟩ := Option.ite_none_right_eq_some.1 hstep
      obtain ⟨pc', hpc, rfl⟩ := Option.map_eq_some_iff.1 hstep
      have hfits := (hs.wake who).fits
      change (f.wake who).Fits f.holder at hfits
      rw [hh] at hfits
      obtain ⟨hhand, hrec, hrun, -, -⟩ := hfits
      have hkept : pc' ≠ .unlocks ∧ (pc'.pending = some who ∨ pc'.pending = none) ∧ pc ≠ .unlocks := by
        cases pc with
        | killSignals => cases hpc; exact ⟨by simp, Or.inl rfl, by simp⟩
        | signals => cases hpc; exact ⟨by simp, Or.inr rfl, by simp⟩
        | _ => cases hpc
      obtain ⟨hpc', hpending, hpc⟩ := hkept
      have hlocked : ∀ p' now', f.holder ≠ .process p' now' .unlocks := by
        intro p' now' he
        rw [hh, Holder.process.injEq] at he
        exact hpc he.2.2
      refine (hs.wake who).keeps (fun _ => ⟨rfl, hlocked⟩) ⟨hhand, hrec, fun _ => hrun hpc, fun i hi hmem => ?_,
        fun hi => ?_⟩
      · rcases hpending with he | he <;> rw [he] at hi <;> cases hi
        exact (mem_wake.1 hmem).2 rfl
      · rcases hpending with he | he <;> rw [he] at hi <;> cases hi
        exact Finset.subset_empty.1 (hwakes ▸ Finset.filter_subset _ _)
    · cases hstep
  | throws =>
    simp only [Mutexed.step] at hstep
    split at hstep
    · next i hh =>
      cases hstep
      have hends := hs.ends (x := f.threads i) (by rw [hh]; rfl) (Or.inr rfl) (fun _ hj _ => hj) (hs.asleep i)
      have hsame : (f.setCall i none).setThread i (f.threads i) = f.setCall i none :=
        setThread_self (f.setCall i none) i
      rwa [hsame] at hends
    · cases hstep

end Mutexed

end DiamondApparatus
