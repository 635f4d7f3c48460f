import DiamondApparatus.Client

/-!
# Waiting in `get()`

* `MyClient.stateOf c n` : the state of the topic `n`, as the map has it now;
* `MyClient.Took`, `Woke`, `Processed` : what a stretch of `get()`, or handling a packet, can do;
* `Process.Moves` : what a step can do, guards included; the invariants below case on it;
* `Process.Sound` : the blocked threads are inside `pthread_cond_wait`, a waiting `get` is in the loop
  of its mode, and no two names share a `Topic`; `sound_start`, `sound_step`.
-/

namespace DiamondApparatus
open Lib Std

def Ready (wait : Wait) (st : TopicState) : Prop :=
  (wait = .any ∧ st ≠ .nodata) ∨ (wait = .new ∧ st = .changed)

/-- A loop that goes on does so on a topic that is not ready. -/
theorem not_ready_of_test {wait : Wait} {loop : Loop} {st : TopicState}
    (hloop : loop = .unchanged → wait = .new) (h : loop.test st = true) : ¬ Ready wait st := by
  rintro (⟨rfl, hst⟩ | ⟨rfl, rfl⟩)
  · cases loop with
    | nodata => exact hst (beq_iff_eq.1 h)
    | unchanged => exact absurd (hloop rfl) (by decide)
  · cases loop <;> exact absurd h (by decide)

namespace MyClient

def stateOf (c : MyClient) (n : CString) : TopicState :=
  match c.topics[n]? with
  | some t => (c.heap t).state
  | none => .nodata

theorem stateOf_of {c : MyClient} {n : CString} {t : Ref} (h : c.topics[n]? = some t) :
    c.stateOf n = (c.heap t).state := by
  rw [stateOf, h]

@[simp] theorem store_topics (c : MyClient) (t : Ref) (x : Topic) : (c.store t x).topics = c.topics := rfl

theorem stateOf_store (c : MyClient) (n : CString) (t : Ref) (x : Topic) :
    (c.store t x).stateOf n = if c.topics[n]? = some t then x.state else c.stateOf n := by
  unfold stateOf store
  cases h : c.topics[n]? with
  | none => simp
  | some k =>
    by_cases hk : k = t
    · simp [hk]
    · simp [hk]

/-! ## `subscribe` -/

theorem getElem?_subscribe (c : MyClient) (n m : CString) :
    (c.subscribe n).topics[m]? = if m = n then some c.fresh else c.topics[m]? := by
  show (c.topics.insert n c.fresh)[m]? = _
  rw [ExtTreeMap.getElem?_insert]
  by_cases hm : m = n
  · rw [if_pos hm, if_pos (hm ▸ ReflCmp.compare_self)]
  · rw [if_neg hm, if_neg fun he => hm (LawfulEqCmp.eq_of_compare he).symm]

theorem heap_subscribe_fresh (c : MyClient) (n : CString) : (c.subscribe n).heap c.fresh = {} :=
  if_pos rfl

theorem heap_subscribe_of_lt {c : MyClient} {t : Ref} (h : t < c.fresh) (n : CString) :
    (c.subscribe n).heap t = c.heap t :=
  if_neg (Nat.ne_of_lt h)

/-! ## `get()` from one wait to the next -/

/-- Either the thread goes to sleep, which changes `waittopic` only, or it takes the topic. -/
theorem getLoop_cases (c : MyClient) (n : CString) (t : Ref) (loop : Loop) :
    (loop.test (c.heap t).state = true ∧
      c.getLoop n t loop = ({ c with waittopic := some n }, .waits t loop)) ∨
    (loop.test (c.heap t).state = false ∧ c.getLoop n t loop = c.take t) := by
  unfold getLoop
  cases h : loop.test (c.heap t).state with
  | true => exact Or.inl ⟨rfl, rfl⟩
  | false => exact Or.inr ⟨rfl, rfl⟩

/-- `get(n,wait)` has to wait: it is subscribed to, and not ready. -/
def MustWait (c : MyClient) (n : CString) (wait : Wait) : Prop :=
  wait ≠ .none ∧ ∃ t, c.topics[n]? = some t ∧ ¬ Ready wait (c.heap t).state

/-- What `get()` of a thread that has taken the mutex does next. -/
inductive Took (c : MyClient) (n : CString) (wait : Wait) : MyClient × GetStep → Prop
  | returns (w : Option CString) (rv : Topic) (hno : ¬ c.MustWait n wait) :
      Took c n wait ({ c with waittopic := w }, .returns rv)
  | waits (t : Ref) (loop : Loop) (hwait : wait ≠ .none) (hloop : loop = .unchanged → wait = .new)
      (htest : loop.test (c.heap t).state = true) (ht : c.topics[n]? = some t) :
      Took c n wait ({ c with waittopic := some n }, .waits t loop)
  | takes (t : Ref) (hdata : (c.heap t).state ≠ .nodata) (hno : ¬ c.MustWait n wait) :
      Took c n wait ({ c with waittopic := none }.take t)

theorem not_mustWait {c : MyClient} {n : CString} {wait : Wait} {t : Ref} (ht : c.topics[n]? = some t)
    (h : wait ≠ .none → Ready wait (c.heap t).state) : ¬ c.MustWait n wait := by
  rintro ⟨hwait, t', ht', hnot⟩
  rw [ht, Option.some_inj] at ht'
  subst ht'
  exact hnot (h hwait)

theorem getLocked_took (c : MyClient) (n : CString) (wait : Wait) :
    Took c n wait (c.getLocked n wait) := by
  unfold getLocked
  split
  · next ht =>
    refine .returns c.waittopic _ ?_
    rintro ⟨-, t, ht', -⟩
    rw [ht] at ht'
    cases ht'
  · next t ht =>
    dsimp only
    by_cases hnodata : (c.heap t).state = .nodata
    · rw [if_pos hnodata]
      by_cases hwait : wait = .any ∨ wait = .new
      · rw [if_pos hwait]
        rcases getLoop_cases { c with waittopic := none } n t .nodata with ⟨htest, h⟩ | ⟨htest, h⟩
        · rw [h]
          refine .waits t .nodata ?_ (fun h => nomatch h) htest ht
          rintro rfl
          simp at hwait
        · simp [Loop.test, hnodata] at htest
      · rw [if_neg hwait]
        refine .returns none _ (not_mustWait ht fun hne => ?_)
        cases wait <;> simp at hne hwait
    · rw [if_neg hnodata]
      by_cases hnew : wait = .new
      · rw [if_pos hnew]
        rcases getLoop_cases { c with waittopic := none } n t .unchanged with ⟨htest, h⟩ | ⟨htest, h⟩
        · rw [h]
          exact .waits t .unchanged (by rw [hnew]; decide) (fun _ => hnew) htest ht
        · rw [h]
          refine .takes t hnodata (not_mustWait ht fun _ => Or.inr ⟨hnew, ?_⟩)
          simpa [Loop.test] using htest
      · rw [if_neg hnew]
        refine .takes t hnodata (not_mustWait ht fun hne => ?_)
        cases wait with
        | none => exact absurd rfl hne
        | any => exact Or.inl ⟨rfl, hnodata⟩
        | new => exact absurd rfl hnew

/-- What `get()` of a thread that was woken does next. -/
inductive Woke (c : MyClient) (n : CString) (t : Ref) (loop : Loop) : MyClient × GetStep → Prop
  | aborts (hrun : c.running = false) :
      Woke c n t loop ({ c with waittopic := none }, .returns { state := .notconnected })
  | waits (hrun : c.running = true) (htest : loop.test (c.heap t).state = true) :
      Woke c n t loop ({ c with waittopic := some n }, .waits t loop)
  | takes (hrun : c.running = true) (htest : loop.test (c.heap t).state = false) :
      Woke c n t loop ({ c with waittopic := none }.take t)

theorem getWoken_woke (c : MyClient) (n : CString) (t : Ref) (loop : Loop) :
    Woke c n t loop (c.getWoken n t loop) := by
  unfold getWoken
  dsimp only
  split
  · next hrun =>
    rcases getLoop_cases { c with waittopic := none } n t loop with ⟨htest, h⟩ | ⟨htest, h⟩
    · rw [h]
      exact .waits hrun htest
    · rw [h]
      exact .takes hrun htest
  · next hrun => exact .aborts (Bool.eq_false_iff.2 hrun)

theorem test_false_data {loop : Loop} {st : TopicState} (h : loop.test st = false) :
    st ≠ .nodata := by
  rintro rfl
  cases loop <;> cases h

/-! ## The receiver -/

/-- What `process` does with a packet that it handles without a fault: nothing that matters here, a
kill, or a notification. -/
inductive Processed (c : MyClient) (p : Bytes) : MyClient × Bool × Option Fault → Prop
  | ignores (hno : ∀ n, (∃ msg, takeU32 p = some (scNotify, msg)) → nameOfMsg p = .ok n → n ∉ c.topics)
      (hkill : ∀ msg, takeU32 p ≠ some (scKillclient, msg)) : Processed c p (c, false, none)
  | kills (msg : Bytes) (htype : takeU32 p = some (scKillclient, msg)) :
      Processed c p ({ c with running := false, waittopic := none }, c.waittopic.isSome, none)
  | notifies (msg : Bytes) (htype : takeU32 p = some (scNotify, msg)) (n : CString)
      (hname : nameOfMsg p = .ok n) (t : Ref) (ht : c.topics[n]? = some t) (x : Topic)
      (hx : x.state = .changed) (hd : x.d = ((c.heap t).fromMessage p false).1.d)
      (w : Option CString)
      (hw : w = if c.wanted n then none else c.waittopic) :
      Processed c p ({ c.store t x with waittopic := w }, c.wanted n, none)

theorem notify_processed {c c' : MyClient} {p msg : Bytes} {now : Clock} {signal : Bool}
    (htype : takeU32 p = some (scNotify, msg)) (h : c.notify p now = (c', signal, none)) :
    Processed c p (c', signal, none) := by
  unfold notify at h
  split at h
  · cases h
  · next n hname =>
    split at h
    · next hnone =>
      cases h
      refine .ignores (fun m _ hm hmem => ?_) (fun msg' hm => ?_)
      · rw [hname] at hm
        cases hm
        rw [ExtTreeMap.mem_iff_isSome_getElem?, hnone] at hmem
        cases hmem
      · rw [htype] at hm
        cases hm
    · next t ht =>
      split at h
      · cases h
      · next x l hx =>
        have hp := Processed.notifies (c := c) msg htype n hname t ht
          { x with state := .changed, timeLastSet := some now } rfl (by rw [hx]) _ rfl
        have hwanted : (c.store t { x with state := .changed, timeLastSet := some now }).wanted n =
          c.wanted n := rfl
        dsimp only at h
        rw [hwanted] at h
        cases hw : c.wanted n <;> rw [hw] at h hp <;> cases h <;> exact hp

theorem process_processed {c c' : MyClient} {p : Bytes} {now : Clock} {signal : Bool}
    (h : c.process p now = (c', signal, none)) : Processed c p (c', signal, none) := by
  have hne : scKillclient ≠ scNotify := by decide
  unfold process at h
  split at h
  · cases h
  · next type msg htype =>
    by_cases hkill : type = scKillclient
    · subst hkill
      have hp := Processed.kills (c := c) msg htype
      rw [← h]
      obtain ⟨topics, heap, fresh, running, waittopic⟩ := c
      cases waittopic with
      | none => simpa [hne] using hp
      | some w => simpa [hne] using hp
    · simp only [hkill, false_and, if_false] at h
      by_cases hnotify : type = scNotify
      · rw [if_pos hnotify] at h
        exact notify_processed (hnotify ▸ htype) h
      · rw [if_neg hnotify] at h
        cases h
        refine .ignores (fun n hm => ?_) (fun msg' hm => ?_)
        · obtain ⟨msg', hm⟩ := hm
          rw [htype] at hm
          cases hm
          exact absurd rfl hnotify
        · rw [htype] at hm
          cases hm
          exact absurd rfl hkill

end MyClient

/-! ## Threads -/

namespace Process
variable {ι : Type}

def Free (s : Process ι) (i : ι) : Prop := s.threads i = .idle ∨ ∃ rv, s.threads i = .returned rv

structure Sound (s : Process ι) : Prop where
  blocked : ∀ i ∈ s.getcond,
    (∃ n wait t loop, s.threads i = .waiting n wait t loop) ∨ s.threads i = .waitingAny
  waits : ∀ i n wait t loop, s.threads i = .waiting n wait t loop →
    wait ≠ .none ∧ (loop = .unchanged → wait = .new)
  allocated : ∀ (n : CString) (t : Ref), s.c.topics[n]? = some t → t < s.c.fresh
  separate : ∀ (n m : CString) (t : Ref), s.c.topics[n]? = some t → s.c.topics[m]? = some t → n = m

theorem sound_start : Sound (start : Process ι) := by
  refine ⟨fun i hi => ?_, fun i n wait t loop h => ?_, fun n t h => ?_, fun n m t h => ?_⟩
  · simp [start] at hi
  · cases h
  · simp [start] at h
  · simp [start] at h

/-- A thread that has just been outside `pthread_cond_wait` is not blocked there. -/
theorem Sound.not_mem {s : Process ι} (h : Sound s) {i : ι}
    (hwait : ∀ n wait t loop, s.threads i ≠ .waiting n wait t loop) (hany : s.threads i ≠ .waitingAny) :
    i ∉ s.getcond := by
  intro hi
  rcases h.blocked i hi with ⟨n, wait, t, loop, hw⟩ | ha
  · exact hwait n wait t loop hw
  · exact hany ha

theorem Sound.client {s : Process ι} (h : Sound s) {c : MyClient} (ht : c.topics = s.c.topics)
    (hf : c.fresh = s.c.fresh) : Sound { s with c := c } := by
  refine ⟨h.blocked, h.waits, fun n t hn => ?_, fun n m t hn hm => ?_⟩
  · rw [ht] at hn
    rw [hf]
    exact h.allocated n t hn
  · rw [ht] at hn hm
    exact h.separate n m t hn hm

theorem Sound.subscribe {s : Process ι} (h : Sound s) (n : CString) :
    Sound { s with c := s.c.subscribe n } := by
  have hget : ∀ (m : CString) (t : Ref), (s.c.subscribe n).topics[m]? = some t →
      (m = n ∧ t = s.c.fresh) ∨ (m ≠ n ∧ s.c.topics[m]? = some t) := by
    intro m t hm
    rw [MyClient.getElem?_subscribe] at hm
    split at hm
    · next he => exact Or.inl ⟨he, (Option.some_inj.1 hm).symm⟩
    · next hne => exact Or.inr ⟨hne, hm⟩
  refine ⟨h.blocked, h.waits, fun m t hm => ?_, fun m k t hm hk => ?_⟩
  · show t < s.c.fresh + 1
    rcases hget m t hm with ⟨-, rfl⟩ | ⟨-, hm⟩
    · exact Nat.lt_succ_self _
    · exact Nat.lt_succ_of_lt (h.allocated m t hm)
  · rcases hget m t hm with ⟨rfl, rfl⟩ | ⟨-, hm'⟩ <;> rcases hget k _ hk with ⟨rfl, hf⟩ | ⟨-, hk'⟩
    · rfl
    · exact absurd (h.allocated k _ hk') (Nat.lt_irrefl _)
    · subst hf
      exact absurd (h.allocated m _ hm') (Nat.lt_irrefl _)
    · exact h.separate m k t hm' hk'

theorem Sound.free {s : Process ι} (h : Sound s) {i : ι} (hi : s.Free i) : i ∉ s.getcond := by
  refine h.not_mem (fun n wait t loop hw => ?_) (fun hw => ?_) <;>
    rcases hi with hi | ⟨rv, hi⟩ <;> rw [hi] at hw <;> cases hw

theorem Sound.entered {s : Process ι} (h : Sound s) {i : ι} {n : CString} {wait : Wait}
    (hi : s.threads i = .entered n wait) : i ∉ s.getcond := by
  refine h.not_mem (fun n wait t loop hw => ?_) (fun hw => ?_) <;> rw [hi] at hw <;> cases hw

theorem Sound.receiver {s : Process ι} (h : Sound s) (r : Receiver) : Sound { s with receiver := r } :=
  ⟨h.blocked, h.waits, h.allocated, h.separate⟩

/-! ## Changes of one thread -/

variable [DecidableEq ι]

@[simp] theorem setThread_getcond (s : Process ι) (i : ι) (x : Thread) :
    (s.setThread i x).getcond = s.getcond := rfl

@[simp] theorem setThread_self (s : Process ι) (i : ι) (x : Thread) :
    (s.setThread i x).threads i = x := if_pos rfl

theorem setThread_ne (s : Process ι) {i j : ι} (x : Thread) (h : j ≠ i) :
    (s.setThread i x).threads j = s.threads j := if_neg h

theorem ends_c (s : Process ι) (i : ι) (n : CString) (wait : Wait) (r : MyClient × GetStep) :
    (s.ends i n wait r).c = r.1 := by
  obtain ⟨c, g⟩ := r
  cases g <;> rfl

theorem mem_wake {s : Process ι} {who : Option ι} {i : ι} :
    i ∈ (s.wake who).getcond ↔ i ∈ s.getcond ∧ some i ≠ who := by
  simp [wake]

theorem Sound.setThread {s : Process ι} (h : Sound s) {i : ι} (hi : i ∉ s.getcond) {x : Thread}
    (hx : ∀ n wait t loop, x ≠ .waiting n wait t loop) : Sound (s.setThread i x) := by
  refine ⟨fun j hj => ?_, fun j n wait t loop hj => ?_, h.allocated, h.separate⟩
  · have hne : j ≠ i := by
      rintro rfl
      exact hi hj
    rw [setThread_ne s x hne]
    exact h.blocked j hj
  · by_cases hji : j = i
    · subst hji
      rw [setThread_self] at hj
      exact absurd hj (hx n wait t loop)
    · rw [setThread_ne s x hji] at hj
      exact h.waits j n wait t loop hj

theorem Sound.block {s : Process ι} (h : Sound s) (i : ι) {x : Thread}
    (hx : (∃ n wait t loop, x = .waiting n wait t loop ∧ wait ≠ .none ∧
      (loop = .unchanged → wait = .new)) ∨ x = .waitingAny) :
    Sound ({ s with getcond := insert i s.getcond }.setThread i x) := by
  refine ⟨fun j hj => ?_, fun j n wait t loop hj => ?_, h.allocated, h.separate⟩
  · by_cases hji : j = i
    · subst hji
      rw [setThread_self]
      exact hx.imp_left fun ⟨n, wait, t, loop, hw, _⟩ => ⟨n, wait, t, loop, hw⟩
    · rw [setThread_ne _ x hji]
      exact h.blocked j ((Finset.mem_insert.1 hj).resolve_left hji)
  · by_cases hji : j = i
    · subst hji
      rw [setThread_self] at hj
      rcases hx with ⟨n', wait', t', loop', rfl, hw⟩ | rfl
      · cases hj
        exact hw
      · cases hj
    · rw [setThread_ne _ x hji] at hj
      exact h.waits j n wait t loop hj

theorem Sound.wake {s : Process ι} (h : Sound s) (who : Option ι) : Sound (s.wake who) :=
  ⟨fun i hi => h.blocked i (mem_wake.1 hi).1, h.waits, h.allocated, h.separate⟩

theorem Sound.ends {s : Process ι} (h : Sound s) {i : ι} (hi : i ∉ s.getcond) {n : CString}
    {wait : Wait} {r : MyClient × GetStep} (ht : r.1.topics = s.c.topics) (hf : r.1.fresh = s.c.fresh)
    (hw : ∀ t loop, r.2 = .waits t loop → wait ≠ .none ∧ (loop = .unchanged → wait = .new)) :
    Sound (s.ends i n wait r) := by
  obtain ⟨c, g⟩ := r
  have hc := h.client ht hf
  cases g with
  | returns rv => exact hc.setThread hi fun _ _ _ _ he => nomatch he
  | waits t loop => exact hc.block i (Or.inl ⟨n, wait, t, loop, rfl, hw t loop rfl⟩)

/-! ## What a step can do -/

/-- The process after a packet that left the client `c`, with or without a signal. -/
def received (s : Process ι) (c : MyClient) (signal : Bool) (who : Option ι) : Process ι :=
  if signal then { s with c := c }.wake who else { s with c := c }

theorem mem_received {s : Process ι} {c : MyClient} {signal : Bool} {who : Option ι} {i : ι} :
    i ∈ (s.received c signal who).getcond ↔ i ∈ s.getcond ∧ ¬ (signal = true ∧ who = some i) := by
  unfold received
  cases signal with
  | false => simp
  | true =>
    rw [if_pos rfl, mem_wake]
    refine and_congr_right fun _ => ?_
    rw [ne_comm]
    simp

theorem received_c (s : Process ι) (c : MyClient) (signal : Bool) (who : Option ι) :
    (s.received c signal who).c = c ∧ (s.received c signal who).receiver = s.receiver := by
  unfold received
  split <;> exact ⟨rfl, rfl⟩

inductive Moves (s : Process ι) : Label ι → Process ι → Prop
  | enters (i : ι) (n : CString) (wait : Wait) (hi : s.Free i) (hrun : s.c.running = true) :
      Moves s (.get i n wait) (s.setThread i (.entered n wait))
  | refused (i : ι) (n : CString) (wait : Wait) (hi : s.Free i) (hrun : s.c.running = false) :
      Moves s (.get i n wait) (s.setThread i (.returned { state := .notconnected }))
  | locked (i : ι) (n : CString) (wait : Wait) (r : MyClient × GetStep)
      (hi : s.threads i = .entered n wait) (hr : MyClient.Took s.c n wait r) :
      Moves s (.lock i) (s.ends i n wait r)
  | spurious (i : ι) (hi : i ∈ s.getcond) : Moves s (.spurious i) (s.wake (some i))
  | woken (i : ι) (n : CString) (wait : Wait) (t : Ref) (loop : Loop) (r : MyClient × GetStep)
      (hc : i ∉ s.getcond) (hi : s.threads i = .waiting n wait t loop)
      (hr : MyClient.Woke s.c n t loop r) : Moves s (.resume i) (s.ends i n wait r)
  | wokenAny (i : ι) (hc : i ∉ s.getcond) (hi : s.threads i = .waitingAny) :
      Moves s (.resume i) ({ s with c := { s.c with waittopic := none } }.setThread i .idle)
  | waitsAny (i : ι) (hi : s.Free i) :
      Moves s (.waitForAny i) ({ s with c := { s.c with waittopic := some (.ofString "") },
                                        getcond := insert i s.getcond }.setThread i .waitingAny)
  | subscribes (n : CString) : Moves s (.subscribe n) { s with c := s.c.subscribe n }
  | receives (p : Bytes) (now : Clock) (who : Option ι) (c : MyClient) (signal : Bool)
      (hloop : s.receiver = .looping) (hrun : s.c.running = true)
      (hc : MyClient.Processed s.c p (c, signal, none)) (hwho : signal = true → s.Wakes who) :
      Moves s (.packet p now who) (s.received c signal who)
  | hangup (hloop : s.receiver = .looping) : Moves s .hangup { s with receiver := .left }
  | leave (hloop : s.receiver = .looping) (hrun : s.c.running = false) :
      Moves s .leave { s with receiver := .left }
  | finish (hleft : s.receiver = .left) :
      Moves s .finish { s with c := { s.c with running := false }, receiver := .done }

theorem step_moves {s s' : Process ι} {a : Label ι} (h : s.step a = some s') : Moves s a s' := by
  cases a with
  | get i n wait =>
    have hget : s.Free i → (if s.c.running then some (s.setThread i (.entered n wait))
        else some (s.setThread i (.returned { state := .notconnected }))) = some s' →
        Moves s (.get i n wait) s' := by
      intro hi he
      split at he
      · next hrun => exact Option.some_inj.1 he ▸ .enters i n wait hi hrun
      · next hrun => exact Option.some_inj.1 he ▸ .refused i n wait hi (Bool.eq_false_iff.2 hrun)
    simp only [step] at h
    split at h
    · next hi => exact hget (Or.inl hi) h
    · next rv hi => exact hget (Or.inr ⟨rv, hi⟩) h
    · cases h
  | lock i =>
    simp only [step] at h
    split at h
    · next n wait hi =>
      exact Option.some_inj.1 h ▸ .locked i n wait _ hi (MyClient.getLocked_took s.c n wait)
    · cases h
  | spurious i =>
    obtain ⟨hi, h⟩ := Option.ite_none_right_eq_some.1 h
    exact Option.some_inj.1 h ▸ .spurious i hi
  | resume i =>
    simp only [step] at h
    split at h
    · cases h
    · next hc =>
      split at h
      · next n wait t loop hi =>
        exact Option.some_inj.1 h ▸
          .woken i n wait t loop _ hc hi (MyClient.getWoken_woke s.c n t loop)
      · next hi => exact Option.some_inj.1 h ▸ .wokenAny i hc hi
      · cases h
  | waitForAny i =>
    simp only [step] at h
    split at h
    · next hi => exact Option.some_inj.1 h ▸ .waitsAny i (Or.inl hi)
    · next rv hi => exact Option.some_inj.1 h ▸ .waitsAny i (Or.inr ⟨rv, hi⟩)
    · cases h
  | subscribe n => exact Option.some_inj.1 h ▸ .subscribes n
  | packet p now who =>
    obtain ⟨⟨hloop, hrun⟩, h⟩ := Option.ite_none_right_eq_some.1 h
    split at h
    · cases h
    · next c hc =>
      exact Option.some_inj.1 h ▸
        .receives p now who c false hloop hrun (MyClient.process_processed hc) (fun he => nomatch he)
    · next c hc =>
      obtain ⟨hwho, h⟩ := Option.ite_none_right_eq_some.1 h
      exact Option.some_inj.1 h ▸
        .receives p now who c true hloop hrun (MyClient.process_processed hc) (fun _ => hwho)
  | hangup =>
    obtain ⟨⟨hloop, -⟩, h⟩ := Option.ite_none_right_eq_some.1 h
    exact Option.some_inj.1 h ▸ .hangup hloop
  | leave =>
    obtain ⟨⟨hloop, hrun⟩, h⟩ := Option.ite_none_right_eq_some.1 h
    exact Option.some_inj.1 h ▸ .leave hloop hrun
  | finish =>
    obtain ⟨hleft, h⟩ := Option.ite_none_right_eq_some.1 h
    exact Option.some_inj.1 h ▸ .finish hleft

theorem Sound.received {s : Process ι} (h : Sound s) {c : MyClient} {signal : Bool}
    (ht : c.topics = s.c.topics) (hf : c.fresh = s.c.fresh) (who : Option ι) :
    Sound (s.received c signal who) := by
  unfold Process.received
  split
  · exact (h.client ht hf).wake who
  · exact h.client ht hf

/-- **Every step keeps the process sound.** -/
theorem sound_step {s s' : Process ι} {a : Label ι} (h : Sound s) (hstep : s.step a = some s') :
    Sound s' := by
  cases step_moves hstep with
  | enters i n wait hi _ => exact h.setThread (h.free hi) fun _ _ _ _ he => nomatch he
  | refused i n wait hi _ => exact h.setThread (h.free hi) fun _ _ _ _ he => nomatch he
  | locked i n wait r hi hr =>
    cases hr with
    | returns w rv _ => exact h.ends (h.entered hi) rfl rfl fun _ _ he => nomatch he
    | waits t loop hwait hloop _ _ =>
      refine h.ends (h.entered hi) rfl rfl fun t' loop' he => ?_
      cases he
      exact ⟨hwait, hloop⟩
    | takes t _ _ => exact h.ends (h.entered hi) rfl rfl fun _ _ he => nomatch he
  | spurious i _ => exact h.wake (some i)
  | woken i n wait t loop r hc hi hr =>
    cases hr with
    | aborts => exact h.ends hc rfl rfl fun _ _ he => nomatch he
    | waits _ _ =>
      refine h.ends hc rfl rfl fun t' loop' he => ?_
      cases he
      exact h.waits i n wait t loop hi
    | takes _ _ => exact h.ends hc rfl rfl fun _ _ he => nomatch he
  | wokenAny i hc _ =>
    exact (h.client (c := { s.c with waittopic := none }) rfl rfl).setThread hc
      fun _ _ _ _ he => nomatch he
  | waitsAny i _ =>
    exact (h.client (c := { s.c with waittopic := some (.ofString "") }) rfl rfl).block i (Or.inr rfl)
  | subscribes n => exact h.subscribe n
  | receives p now who c signal _ _ hc _ =>
    cases hc with
    | ignores _ _ => exact h.received rfl rfl who
    | kills msg _ =>
      exact h.received (c := { s.c with running := false, waittopic := none }) rfl rfl who
    | notifies msg _ n _ t _ x _ _ w _ =>
      exact h.received (c := { s.c.store t x with waittopic := w }) rfl rfl who
  | hangup _ => exact h.receiver .left
  | leave _ _ => exact h.receiver .left
  | finish _ => exact (h.client (c := { s.c with running := false }) rfl rfl).receiver .done

end Process

end DiamondApparatus
