import DiamondApparatus.Client.Atomic

/-!
# The mutex is released, unless a send throws

* `Holder.left` : how many statements the holder has before it at most; `left_step` : each of them is one
  less; `left_since` : so between one taking of the mutex and the next;
* `enabled` : the holder can always go on, unless the packet that it handles throws;
* `leaked_iff` : the mutex is leaked when a send has thrown;
* `leaked_run` : from there on, nothing is done under the mutex, and who is in a call does not return;
* `mutex_released` : all of it, for any statements in any order.
-/

namespace DiamondApparatus
open Lib Std

def GetPc.left : GetPc → Nat
  | find => 7
  | resets _ => 6
  | first _ => 5
  | loop _ _ => 4
  | asks _ _ => 2
  | sleeps _ _ => 1
  | woken _ _ => 6
  | tests _ _ => 5
  | copies _ => 3
  | marks _ _ => 2
  | unlocks _ => 1

def ProcessPc.left {ι : Type} : ProcessPc ι → Nat
  | head => 9
  | kill => 5
  | killSignals => 4
  | killResets _ => 3
  | stops _ => 2
  | find => 8
  | decodes _ _ => 7
  | marks _ _ => 6
  | dates _ _ => 5
  | wanted _ => 4
  | signals => 3
  | resets => 2
  | unlocks => 1

namespace Holder
variable {ι : Type}

/-- The statements that the holder has before it, at most, the one that releases the mutex included. -/
def left : Holder ι → Nat
  | get _ _ _ pc => pc.left
  | waitForAny _ .asks => 2
  | waitForAny _ .resets => 2
  | waitForAny _ _ => 1
  | request _ (.inserts _) => 3
  | request _ .sends => 2
  | request _ .unlocks => 1
  | process _ _ pc => pc.left
  | nobody => 0
  | leaked => 0

end Holder

namespace Statement
variable {ι : Type}

def byHolder : Statement ι → Bool
  | run => true
  | signal _ => true
  | throws => true
  | _ => false

def takes : Statement ι → Bool
  | lock _ => true
  | lockReceiver => true
  | _ => false

end Statement

/-! ## How long it takes -/

theorem GetPc.left_next {n : CString} {wait : Wait} {c c' : MyClient} {pc pc' : GetPc}
    (h : pc.next n wait c = some (pc', c')) : pc'.left < pc.left := by
  cases pc with
  | find =>
    simp only [next] at h
    split at h <;> cases h <;> simp [left]
  | first t =>
    simp only [next] at h
    split at h <;> split at h <;> cases h <;> simp [left]
  | loop t l =>
    simp only [next] at h
    split at h <;> cases h <;> simp [left]
  | tests t l =>
    simp only [next] at h
    split at h <;> cases h <;> simp [left]
  | sleeps t l => cases h
  | unlocks rv => cases h
  | _ => cases h; simp [left]

theorem ProcessPc.left_next {ι : Type} {p : Bytes} {now : Clock} {c c' : MyClient} {pc pc' : ProcessPc ι}
    (h : pc.next p now c = some (pc', c')) : pc'.left < pc.left := by
  cases pc with
  | head =>
    simp only [next] at h
    split at h
    · cases h
    · split at h
      · cases h
        simp [left]
      · split at h <;> cases h <;> simp [left]
  | kill =>
    cases h
    cases c.waittopic <;> simp [left]
  | find =>
    simp only [next] at h
    split at h
    · cases h
    · split at h <;> cases h <;> simp [left]
  | decodes name t =>
    simp only [next] at h
    split at h <;> cases h
    simp [left]
  | wanted name =>
    cases h
    cases c.wanted name <;> simp [left]
  | killSignals => cases h
  | signals => cases h
  | unlocks => cases h
  | _ => cases h; simp [left]

namespace Mutexed
variable {ι : Type} [DecidableEq ι] {f f' : Mutexed ι}

theorem left_run (h : f.run = some f') : f'.holder.left < f.holder.left := by
  cases ran h with
  | get i n wait pc pc' c hh hnext =>
    rw [hh]
    exact GetPc.left_next hnext
  | process p now pc pc' c hh hnext =>
    rw [hh]
    exact ProcessPc.left_next hnext
  | _ =>
    next hh =>
    rw [hh]
    simp [Holder.left, GetPc.left, ProcessPc.left, sleep]

omit [DecidableEq ι] in
theorem left_entry {i : ι} {h : Holder ι} (he : f.entry i = some h) : h.left ≤ 9 := by
  unfold entry at he
  split at he
  · cases he; simp [Holder.left]
  · cases he; simp [Holder.left]
  · cases he; simp [Holder.left]
  · split at he <;> cases he <;> simp [Holder.left, GetPc.left]

/-- **A statement of the holder brings the release nearer.** -/
theorem left_step {a : Statement ι} (hstep : f.step a = some f') :
    (if a.byHolder then 1 else 0) + f'.holder.left ≤ f.holder.left + if a.takes then 9 else 0 := by
  cases a with
  | run =>
    have hlt := left_run hstep
    show 1 + f'.holder.left ≤ f.holder.left + 0
    omega
  | signal who =>
    simp only [step] at hstep
    split at hstep
    · next p now pc hh =>
      obtain ⟨-, hstep⟩ := Option.ite_none_right_eq_some.1 hstep
      obtain ⟨pc', hpc, rfl⟩ := Option.map_eq_some_iff.1 hstep
      rw [hh]
      cases pc with
      | killSignals => cases hpc; exact Nat.le_refl 4
      | signals => cases hpc; exact Nat.le_refl 3
      | _ => cases hpc
    · cases hstep
  | throws =>
    simp only [step] at hstep
    split at hstep
    · next i hh =>
      cases hstep
      rw [hh]
      exact Nat.le_succ 1
    · cases hstep
  | lock i =>
    obtain ⟨⟨hnobody, hi⟩, hstep⟩ := Option.ite_none_right_eq_some.1 hstep
    obtain ⟨h, he, rfl⟩ := Option.map_eq_some_iff.1 hstep
    have hle := left_entry he
    rw [hnobody]
    show 0 + h.left ≤ 0 + 9
    omega
  | lockReceiver =>
    simp only [step] at hstep
    split at hstep
    · next p now hnobody hhand =>
      cases hstep
      rw [hnobody]
      exact Nat.le_refl 9
    · cases hstep
  | get i n wait =>
    obtain ⟨-, hstep⟩ := Option.ite_none_right_eq_some.1 hstep
    cases hstep
    exact Nat.le_of_eq (Nat.zero_add _)
  | call i k =>
    obtain ⟨-, hstep⟩ := Option.ite_none_right_eq_some.1 hstep
    split at hstep <;> cases hstep <;> exact Nat.le_of_eq (Nat.zero_add _)
  | _ =>
    obtain ⟨-, hstep⟩ := Option.ite_none_right_eq_some.1 hstep
    cases hstep
    exact Nat.le_of_eq (Nat.zero_add _)

theorem left_exec {as : List (Statement ι)} (hrun : Run.exec step f as = some f') :
    as.countP Statement.byHolder + f'.holder.left ≤ f.holder.left + 9 * as.countP Statement.takes := by
  induction as generalizing f with
  | nil =>
    rw [Run.exec, Option.some_inj] at hrun
    rw [hrun]
    simp
  | cons a as ih =>
    obtain ⟨g, hg, hrun⟩ := Run.exec_cons_eq_some.1 hrun
    have hone := left_step hg
    have hrest := ih hrun
    rw [List.countP_cons, List.countP_cons]
    split_ifs at hone ⊢ <;> omega

omit [DecidableEq ι] in
theorem left_pos {h : Holder ι} (hnobody : h ≠ .nobody) (hleaked : h ≠ .leaked) : 0 < h.left := by
  cases h with
  | nobody => exact absurd rfl hnobody
  | leaked => exact absurd rfl hleaked
  | get i n wait pc => cases pc <;> simp [Holder.left, GetPc.left]
  | waitForAny i pc => cases pc <;> simp [Holder.left]
  | request i pc => cases pc <;> simp [Holder.left]
  | process p now pc => cases pc <;> simp [Holder.left, ProcessPc.left]

theorem nobody_of_takes {a : Statement ι} (ha : a.takes = true) (hstep : f.step a = some f') :
    f.holder = .nobody := by
  cases a with
  | lock i => exact (Option.ite_none_right_eq_some.1 hstep).1.1
  | lockReceiver =>
    simp only [step] at hstep
    split at hstep
    · next hnobody _ => exact hnobody
    · cases hstep
  | _ => cases ha

/-- **Since the mutex was taken last**, its holder has made nine statements at most. -/
theorem left_since {as pre mid : List (Statement ι)} {a : Statement ι}
    (hrun : Run.exec step f as = some f') (has : as = pre ++ a :: mid) (ha : a.takes = true)
    (hmid : ∀ b ∈ mid, b.takes = false) : mid.countP Statement.byHolder + f'.holder.left ≤ 9 := by
  rw [has, Run.exec_append, Option.bind_eq_some_iff] at hrun
  obtain ⟨g, -, hrun⟩ := hrun
  obtain ⟨g', hg', hrun⟩ := Run.exec_cons_eq_some.1 hrun
  have hnone : mid.countP Statement.takes = 0 := by
    rw [List.countP_eq_zero]
    intro b hb
    rw [hmid b hb]
    decide
  have hentered := left_step hg'
  rw [nobody_of_takes ha hg', if_pos ha] at hentered
  have hrest := left_exec hrun
  have hstart : (Holder.nobody : Holder ι).left = 0 := rfl
  omega

/-! ## Whether it can go on -/

theorem exists_wakes (s : Process ι) : ∃ who, s.Wakes who := by
  by_cases hempty : s.getcond = ∅
  · exact ⟨none, hempty⟩
  · obtain ⟨i, hi⟩ := Finset.nonempty_iff_ne_empty.2 hempty
    exact ⟨some i, hi⟩

omit [DecidableEq ι] in
theorem next_cases (p : Bytes) (now : Clock) (c : MyClient) (pc : ProcessPc ι) :
    (pc.next p now c).isSome ∨ pc = .killSignals ∨ pc = .signals ∨ pc = .unlocks ∨
      (pc.rest p now c).2.2.isSome := by
  cases pc with
  | head =>
    simp only [ProcessPc.next, ProcessPc.rest, MyClient.process]
    cases takeU32 p with
    | none => simp
    | some x =>
      left
      dsimp only
      split
      · rfl
      · split <;> rfl
  | find =>
    simp only [ProcessPc.next, ProcessPc.rest, MyClient.notify]
    cases nameOfMsg p with
    | error e => simp
    | ok name =>
      left
      dsimp only
      split <;> rfl
  | decodes name t =>
    simp only [ProcessPc.next, ProcessPc.rest]
    cases (c.heap t).fromMessage p false with
    | mk x r =>
      cases r with
      | error e => simp
      | ok type => exact Or.inl rfl
  | killSignals => simp
  | signals => simp
  | unlocks => simp
  | _ => exact Or.inl rfl

/-- **The holder can always go on**, unless the packet that it handles throws. -/
theorem enabled (hholder : f.holder ≠ .nobody) (hleaked : f.holder ≠ .leaked) :
    (∃ a, a.byHolder = true ∧ (f.step a).isSome) ∨
      ∃ p now pc, f.holder = .process p now pc ∧ (pc.rest p now f.c).2.2.isSome := by
  have hrun : f.run.isSome → ∃ a, Statement.byHolder a = true ∧ (f.step a).isSome := fun h => ⟨.run, rfl, h⟩
  cases hh : f.holder with
  | nobody => exact absurd hh hholder
  | leaked => exact absurd hh hleaked
  | get i n wait pc =>
    refine Or.inl (hrun ?_)
    simp only [run, hh]
    cases pc with
    | find =>
      simp only [GetPc.next]
      cases f.c.topics[n]? <;> rfl
    | first t =>
      simp only [GetPc.next]
      split <;> split <;> rfl
    | loop t l =>
      simp only [GetPc.next]
      split <;> rfl
    | tests t l =>
      simp only [GetPc.next]
      split <;> rfl
    | _ => rfl
  | waitForAny i pc =>
    refine Or.inl (hrun ?_)
    simp only [run, hh]
    cases pc <;> rfl
  | request i pc =>
    refine Or.inl (hrun ?_)
    simp only [run, hh]
    cases pc <;> rfl
  | process p now pc =>
    obtain ⟨who, hwho⟩ := exists_wakes f.base
    rcases next_cases p now f.c pc with hnext | rfl | rfl | rfl | hthrows
    · refine Or.inl (hrun ?_)
      obtain ⟨x, hx⟩ := Option.isSome_iff_exists.1 hnext
      have hpc : pc ≠ .unlocks := by
        rintro rfl
        cases hx
      simp only [run, hh]
      cases pc <;> first | exact absurd rfl hpc | (rw [hx]; rfl)
    · refine Or.inl ⟨.signal who, rfl, ?_⟩
      simp only [step, hh, if_pos hwho]
      rfl
    · refine Or.inl ⟨.signal who, rfl, ?_⟩
      simp only [step, hh, if_pos hwho]
      rfl
    · refine Or.inl (hrun ?_)
      simp only [run, hh]
      rfl
    · exact Or.inr ⟨p, now, pc, rfl, hthrows⟩

/-! ## A send that throws -/

omit [DecidableEq ι] in
theorem entry_ne_leaked {i : ι} {h : Holder ι} (he : f.entry i = some h) : h ≠ .leaked := by
  unfold entry at he
  split at he
  · cases he; simp
  · cases he; simp
  · cases he; simp
  · split at he <;> cases he <;> simp

theorem leaks {a : Statement ι} (ha : a ≠ .throws) (hstep : f.step a = some f') (hleaked : f'.holder = .leaked) :
    f.holder = .leaked := by
  cases a with
  | get i n wait =>
    obtain ⟨-, hstep⟩ := Option.ite_none_right_eq_some.1 hstep
    cases hstep
    exact hleaked
  | call i k =>
    obtain ⟨-, hstep⟩ := Option.ite_none_right_eq_some.1 hstep
    split at hstep <;> cases hstep <;> exact hleaked
  | lock i =>
    obtain ⟨-, hstep⟩ := Option.ite_none_right_eq_some.1 hstep
    obtain ⟨h, he, rfl⟩ := Option.map_eq_some_iff.1 hstep
    exact absurd hleaked (entry_ne_leaked he)
  | lockReceiver =>
    simp only [step] at hstep
    split at hstep <;> cases hstep
    cases hleaked
  | run => cases ran hstep <;> cases hleaked
  | signal who =>
    simp only [step] at hstep
    split at hstep
    · obtain ⟨-, hstep⟩ := Option.ite_none_right_eq_some.1 hstep
      obtain ⟨pc', hpc, rfl⟩ := Option.map_eq_some_iff.1 hstep
      cases hleaked
    · cases hstep
  | throws => exact absurd rfl ha
  | _ =>
    obtain ⟨-, hstep⟩ := Option.ite_none_right_eq_some.1 hstep
    cases hstep
    exact hleaked

end Mutexed

def Label.unlocked : Label ι → Bool
  | .get _ _ _ => true
  | .spurious _ => true
  | .hangup => true
  | .leave => true
  | .finish => true
  | _ => false

namespace Mutexed
variable [DecidableEq ι] {f f' : Mutexed ι}

/-- What nothing done without the mutex changes, with `f` as it was before. -/
structure Stuck (f f' : Mutexed ι) : Prop where
  holder : f'.holder = .leaked
  memory : f'.c = { f.c with running := f'.c.running }
  threads : ∀ i, ¬ f.Free i → f'.threads i = f.threads i ∧ f'.calls i = f.calls i

theorem leaked_step (hleaked : f.holder = .leaked) {a : Statement ι} (hstep : f.step a = some f') :
    Stuck f f' ∧ ∀ b ∈ f.labels a, b.unlocked = true := by
  have hone : ∀ {b : Label ι}, b.unlocked = true → ∀ b' ∈ [b], b'.unlocked = true := by
    intro b hb b' hb'
    rw [List.mem_singleton.1 hb']
    exact hb
  cases a with
  | get i n wait =>
    obtain ⟨hfree, hstep⟩ := Option.ite_none_right_eq_some.1 hstep
    cases hstep
    refine ⟨⟨hleaked, rfl, fun j hj => ⟨setThread_other f _ ?_, rfl⟩⟩, hone rfl⟩
    rintro rfl
    exact hj hfree
  | call i k =>
    obtain ⟨hfree, hstep⟩ := Option.ite_none_right_eq_some.1 hstep
    split at hstep
    · cases hstep
      refine ⟨⟨hleaked, rfl, fun j hj => ⟨rfl, setCall_other f _ ?_⟩⟩, by simp [labels]⟩
      rintro rfl
      exact hj hfree
    · cases hstep
      exact ⟨⟨hleaked, rfl, fun _ _ => ⟨rfl, rfl⟩⟩, by simp [labels]⟩
  | packet p now =>
    obtain ⟨-, hstep⟩ := Option.ite_none_right_eq_some.1 hstep
    cases hstep
    exact ⟨⟨hleaked, rfl, fun _ _ => ⟨rfl, rfl⟩⟩, by simp [labels]⟩
  | lock i =>
    obtain ⟨⟨hnobody, -⟩, -⟩ := Option.ite_none_right_eq_some.1 hstep
    rw [hleaked] at hnobody
    cases hnobody
  | lockReceiver =>
    simp only [step, hleaked] at hstep
    cases hstep
  | run =>
    simp only [step, run, hleaked] at hstep
    cases hstep
  | signal who =>
    simp only [step, hleaked] at hstep
    cases hstep
  | throws =>
    simp only [step, hleaked] at hstep
    cases hstep
  | _ =>
    obtain ⟨-, hstep⟩ := Option.ite_none_right_eq_some.1 hstep
    cases hstep
    exact ⟨⟨hleaked, rfl, fun _ _ => ⟨rfl, rfl⟩⟩, hone rfl⟩

omit [DecidableEq ι] in
theorem Stuck.trans {f₁ f₂ f₃ : Mutexed ι} (h : Stuck f₁ f₂) (h' : Stuck f₂ f₃) : Stuck f₁ f₃ where
  holder := h'.holder
  memory := by rw [h'.memory, h.memory]
  threads i hi := by
    obtain ⟨ht, hc⟩ := h.threads i hi
    have hi' : ¬ f₂.Free i := by
      unfold Free
      rwa [ht, hc]
    obtain ⟨ht', hc'⟩ := h'.threads i hi'
    exact ⟨ht'.trans ht, hc'.trans hc⟩

theorem leaked_run {as : List (Statement ι)} (hleaked : f.holder = .leaked) (hrun : Run.exec step f as = some f') :
    Stuck f f' ∧ ∀ b ∈ Run.trace step labels f as, b.unlocked = true := by
  induction as generalizing f with
  | nil =>
    rw [Run.exec, Option.some_inj] at hrun
    subst hrun
    exact ⟨⟨hleaked, rfl, fun _ _ => ⟨rfl, rfl⟩⟩, by simp [Run.trace]⟩
  | cons a as ih =>
    obtain ⟨g, hg, hrun⟩ := Run.exec_cons_eq_some.1 hrun
    obtain ⟨hstuck, hone⟩ := leaked_step hleaked hg
    obtain ⟨hstuck', hrest⟩ := ih hstuck.holder hrun
    refine ⟨hstuck.trans hstuck', fun b hb => ?_⟩
    rw [Run.trace_cons hg] at hb
    rcases List.mem_append.1 hb with hb | hb
    · exact hone b hb
    · exact hrest b hb

theorem leaked_iff {as : List (Statement ι)} (hrun : Run.exec step {} as = some f) :
    f.holder = .leaked ↔ .throws ∈ as := by
  refine Run.invariant_history (h := []) (I := fun as f => f.holder = .leaked ↔ .throws ∈ as)
    (fun as f a f' hI hstep => ?_) (by simp) hrun
  rw [List.mem_append, ← hI, List.mem_singleton]
  by_cases ha : a = .throws
  · subst ha
    simp only [step] at hstep
    split at hstep <;> cases hstep
    simp
  · constructor
    · exact fun h => Or.inl (leaks ha hstep h)
    · rintro (h | h)
      · exact (leaked_step h hstep).1.holder
      · exact absurd h.symm ha

/-- **The mutex is released, unless a send throws.** In any run, who took the mutex last has made nine
statements under it at most, and with the ninth it is released (or leaked); as long as it is held its
holder can make the next one, unless the packet in hand throws. It is leaked exactly when a `request()`
has thrown under it. From there on, in every continuation, nothing is done under the mutex any more: no
notification is stored, no `get()` sees data, and no call in progress returns. -/
theorem mutex_released (as : List (Statement ι)) (f : Mutexed ι)
    (hrun : Run.exec step ({} : Mutexed ι) as = some f) :
    (∀ pre a mid, as = pre ++ a :: mid → a.takes = true → (∀ b ∈ mid, b.takes = false) →
      mid.countP Statement.byHolder ≤ 9 ∧
        (mid.countP Statement.byHolder = 9 → f.holder = .nobody ∨ f.holder = .leaked)) ∧
      (f.holder = .leaked ↔ .throws ∈ as) ∧
      (.throws ∉ as → f.holder ≠ .nobody → (∃ a, a.byHolder = true ∧ (f.step a).isSome) ∨
        ∃ p now pc, f.holder = .process p now pc ∧ (pc.rest p now f.c).2.2.isSome) ∧
      (.throws ∈ as → ∀ bs f', Run.exec step f bs = some f' →
        Stuck f f' ∧ ∀ b ∈ Run.trace step labels f bs, b.unlocked = true) := by
  have hleaked := leaked_iff hrun
  refine ⟨fun pre a mid has ha hmid => ?_, hleaked, fun hno hholder => enabled hholder (mt hleaked.1 hno),
    fun hthrows bs f' hrun' => leaked_run (hleaked.2 hthrows) hrun'⟩
  have hleft := left_since hrun has ha hmid
  refine ⟨by omega, fun hnine => ?_⟩
  by_contra hheld
  rw [not_or] at hheld
  have := left_pos hheld.1 hheld.2
  omega

/-- A `publish` throws while another thread calls `get()`. -/
def thrown : List (Statement Bool) :=
  [.get true (.ofString "a") .any, .call false .send, .lock false, .throws]

theorem mutex_released_thrown : ∃ f : Mutexed Bool, Run.exec step {} thrown = some f ∧
    ∀ bs f', Run.exec step f bs = some f' → f'.threads true = .entered (.ofString "a") .any := by
  have hrun : (Run.exec step ({} : Mutexed Bool) thrown).any
      (fun f => decide (f.threads true = .entered (.ofString "a") .any)) = true := by
    decide +kernel
  obtain ⟨f, hf, hthread⟩ := (Option.any_eq_true _ _).1 hrun
  have hthread := of_decide_eq_true hthread
  refine ⟨f, hf, fun bs f' hrun' => ?_⟩
  obtain ⟨hstuck, -⟩ := (mutex_released thrown f hf).2.2.2 (by simp [thrown]) bs f' hrun'
  have hbusy : ¬ f.Free true := by
    rintro ⟨-, hfree⟩
    rw [hthread] at hfree
    simp at hfree
  exact (hstuck.threads true hbusy).1.trans hthread

end Mutexed

end DiamondApparatus
