import Mathlib.Data.List.Induction

/-!
# `init()` and `destroy()`

The counter is an `int`; its wrap-around is the host's. `init` connects when the counter is zero.
`destroy` tests `initCount && --initCount`, so it shuts the client down when inits are left, and does
not at the last one.

* `Lifecycle`, `init`, `destroy`, `run` : the calls;
* `outstanding calls` : the inits without a destroy; `Contract calls` : every destroy of the sequence
  does what the counter is for;
* `contract_iff` : it does so only where no init is outstanding.
-/

namespace DiamondApparatus

structure Lifecycle where
  initCount : BitVec 32 := 0
  running : Bool := false
  /-- The calls of `new MyClient`, `pthread_cond_destroy` and `pthread_mutex_destroy`. -/
  connects : Nat := 0
  condDestroys : Nat := 0
  mutexDestroys : Nat := 0
  deriving DecidableEq

inductive ApiCall
  | init
  | destroy
  deriving DecidableEq

namespace Lifecycle

/-- A successful `init`; the thread it starts has set `running` when it returns. -/
def init (s : Lifecycle) : Lifecycle :=
  let s := if s.initCount = 0 then { s with connects := s.connects + 1, running := true } else s
  { s with initCount := s.initCount + 1 }

/-- `destroy`, and the `int` it returns. -/
def destroy (s : Lifecycle) : Lifecycle × Int :=
  if s.initCount = 0 then (s, s.initCount.toInt)
  else
    let s := { s with initCount := s.initCount - 1 }
    let s := if s.initCount ≠ 0 then
        { s with running := false, condDestroys := s.condDestroys + 1,
                 mutexDestroys := s.mutexDestroys + 1 }
      else s
    (s, s.initCount.toInt)

def call (s : Lifecycle) : ApiCall → Lifecycle
  | .init => s.init
  | .destroy => s.destroy.1

def run (calls : List ApiCall) : Lifecycle := calls.foldl call {}

/-! ## The contract -/

/-- The inits that have not been destroyed; a surplus destroy does not count. -/
def outstanding (calls : List ApiCall) : Nat :=
  calls.foldl (fun k a => match a with | .init => k + 1 | .destroy => k - 1) 0

def ShutsDown (s s' : Lifecycle) : Prop :=
  s'.running = false ∧ s'.condDestroys = s.condDestroys + 1 ∧ s'.mutexDestroys = s.mutexDestroys + 1

/-- Each destroy shuts the client down if it is the last, has no effect if it is surplus, and returns the
number of inits left. -/
def Contract (calls : List ApiCall) : Prop :=
  ∀ pre post, calls = pre ++ .destroy :: post →
    (ShutsDown (run pre) (run pre).destroy.1 ↔ outstanding pre = 1) ∧
    (outstanding pre = 0 → (run pre).destroy.1 = run pre) ∧
    (run pre).destroy.2 = (outstanding pre - 1 : Nat)

theorem run_append (xs : List ApiCall) (a : ApiCall) : run (xs ++ [a]) = (run xs).call a := by
  rw [run, List.foldl_append]
  rfl

theorem outstanding_init (xs : List ApiCall) : outstanding (xs ++ [.init]) = outstanding xs + 1 := by
  rw [outstanding, List.foldl_append]
  rfl

theorem outstanding_destroy (xs : List ApiCall) :
    outstanding (xs ++ [.destroy]) = outstanding xs - 1 := by
  rw [outstanding, List.foldl_append]
  rfl

theorem init_initCount (s : Lifecycle) : s.init.initCount = s.initCount + 1 := by
  unfold init
  split <;> rfl

theorem destroy_zero {s : Lifecycle} (h : s.initCount = 0) : s.destroy = (s, 0) := by
  rw [destroy, if_pos h, h]
  rfl

theorem destroy_last {s : Lifecycle} (h : s.initCount ≠ 0) (h' : s.initCount - 1 = 0) :
    s.destroy = ({ s with initCount := s.initCount - 1 }, 0) := by
  unfold destroy
  rw [if_neg h]
  dsimp only
  rw [if_neg (not_not.2 h')]
  exact Prod.ext rfl (congrArg BitVec.toInt h')

theorem destroy_more {s : Lifecycle} (h : s.initCount ≠ 0) (h' : s.initCount - 1 ≠ 0) :
    ShutsDown s s.destroy.1 := by
  unfold destroy
  rw [if_neg h]
  dsimp only
  rw [if_pos h']
  exact ⟨rfl, rfl, rfl⟩

theorem not_shutsDown_of_eq {s s' : Lifecycle} (h : s'.condDestroys = s.condDestroys) :
    ¬ ShutsDown s s' := by
  rintro ⟨-, hc, -⟩
  omega

/-! ## The counter -/

/-- While every destroy was a surplus one, the counter is the number of inits. -/
theorem initCount_run (calls : List ApiCall)
    (h : ∀ pre post, calls = pre ++ .destroy :: post → outstanding pre = 0) :
    (run calls).initCount = BitVec.ofNat 32 (outstanding calls) := by
  induction calls using List.reverseRecOn with
  | nil => rfl
  | append_singleton xs a ih =>
    have hxs := ih fun pre post he => h pre (post ++ [a]) (by rw [he]; simp)
    rw [run_append]
    cases a with
    | init =>
      rw [call, init_initCount, hxs, outstanding_init, BitVec.ofNat_add]
      rfl
    | destroy =>
      have hzero : outstanding xs = 0 := h xs [] rfl
      have hcount : (run xs).initCount = 0 := by rw [hxs, hzero]; rfl
      rw [call, destroy_zero hcount, outstanding_destroy, hxs, hzero]

/-- Where an init is outstanding, `destroy` breaks the contract: at the last one it does not shut down,
and before that it does. -/
theorem destroy_breaks {s : Lifecycle} {k : Nat} (hs : s.initCount = BitVec.ofNat 32 k) (hk : k ≠ 0) :
    ¬ ((ShutsDown s s.destroy.1 ↔ k = 1) ∧ s.destroy.2 = (k - 1 : Nat)) := by
  rintro ⟨hshut, hret⟩
  by_cases hzero : s.initCount = 0
  · rw [destroy_zero hzero] at hret
    have hone : k = 1 := by
      simp only at hret
      omega
    rw [hs, hone] at hzero
    exact absurd hzero (by decide)
  by_cases hlast : s.initCount - 1 = 0
  · rw [destroy_last hzero hlast] at hshut hret
    have hone : k = 1 := by
      simp only at hret
      omega
    exact not_shutsDown_of_eq rfl (hshut.2 hone)
  · have hone : k = 1 := hshut.1 (destroy_more hzero hlast)
    rw [hs, hone] at hlast
    exact hlast (by decide)

/-- **The contract holds exactly of the sequences without a destroy that has an init to undo.** -/
theorem contract_iff (calls : List ApiCall) :
    Contract calls ↔ ∀ pre post, calls = pre ++ .destroy :: post → outstanding pre = 0 := by
  constructor
  · intro hall pre
    -- on the length of what comes before: all destroys up to here were surplus ones
    induction hn : pre.length using Nat.strongRecOn generalizing pre with
    | ind n ih =>
      intro post he
      by_contra hk
      have hcount : (run pre).initCount = BitVec.ofNat 32 (outstanding pre) := by
        refine initCount_run pre fun pre' post' he' => ?_
        refine ih pre'.length ?_ pre' rfl (post' ++ .destroy :: post) ?_
        · rw [← hn, he', List.length_append, List.length_cons]
          omega
        · rw [he, he']
          simp
      obtain ⟨hshut, -, hret⟩ := hall pre post he
      exact destroy_breaks hcount hk ⟨hshut, hret⟩
  · intro hall pre post he
    have hk := hall pre post he
    have hcount : (run pre).initCount = 0 := by
      rw [initCount_run pre fun pre' post' he' => hall pre' (post' ++ .destroy :: post) (by rw [he, he']; simp),
        hk]
      rfl
    rw [destroy_zero hcount, hk]
    refine ⟨?_, fun _ => rfl, rfl⟩
    exact iff_of_false (not_shutsDown_of_eq rfl) (by decide)

/-- One init and its destroy: the client is not shut down. Two inits and one destroy: it is. -/
theorem contract_broken :
    ¬ Contract [.init, .destroy] ∧
      (run [.init]).destroy = ({ running := true, connects := 1 }, 0) ∧
      ShutsDown (run [.init, .init]) (run [.init, .init]).destroy.1 := by
  refine ⟨fun hall => ?_, by decide, by decide, by decide, by decide⟩
  have hlast := (hall [.init] [] rfl).1.2 rfl
  exact absurd hlast.1 (by decide)

end Lifecycle

end DiamondApparatus
