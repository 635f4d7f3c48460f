import DiamondApparatus.Client.Cache

/-!
# One application thread

* `Session`, `Session.Call`, `Session.step` : a program that connects, subscribes and calls `get()` in one
  thread, and the receiver. `destroy` is not among its calls, so `init` connects the first time only;
* `documented n running h` : the state that the README gives the topic `n` after the history `h`;
* `Tracked h s` : the cache is recorded, and a waiting `get` is on the entry of the map;
* `poll_documented` : `get(n,GET_WAITNONE)` returns the documented state, unless the topic is subscribed
  to and silent.
-/

namespace DiamondApparatus
open Lib Std

structure Session where
  p : Process Unit
  /-- The calls of `init()` so far. -/
  initCount : Nat := 0

/-- A call of the program, or a step of the receiver or of `get()`. -/
inductive Session.Call
  | init
  | subscribe (n : CString)
  | step (a : Label Unit)

def Thread.free : Thread → Bool
  | .idle | .returned _ => true
  | _ => false

namespace Session

def offline : Session where
  p := { c := {}, threads := fun _ => .idle, getcond := ∅, receiver := .done }

/-- `init()`: the first one connects, and waits until the receiver thread has set `running`. -/
def init (s : Session) : Session where
  p := if s.initCount = 0 then
      { s.p with c := { s.p.c with running := true, waittopic := none }, receiver := .looping }
    else s.p
  initCount := s.initCount + 1

/-- `subscribe(n)`; it throws, and changes nothing, when the client is not running. -/
def subscribe (s : Session) (n : CString) : Session :=
  if s.p.c.running then { s with p := { s.p with c := s.p.c.subscribe n } } else s

def step (s : Session) : Call → Option Session
  | .init => if (s.p.threads ()).free then some s.init else none
  | .subscribe n => if (s.p.threads ()).free then some (s.subscribe n) else none
  | .step (.subscribe _) => none
  | .step a => (s.p.step a).map fun p => { s with p := p }

def emits (s : Session) : Call → List CacheEvent
  | .init => []
  | .subscribe n => if s.p.c.running then [.subscribed n s.p.c.fresh] else []
  | .step a => s.p.emits a

/-- The steps of `get(n,GET_WAITNONE)`, with nothing between them. -/
def poll (s : Session) (n : CString) : List Call :=
  .step (.get () n .none) :: if s.p.c.running then [.step (.lock ())] else []

end Session

/-! ## The documented states -/

def CacheEvent.isCopyOf (n : CString) : CacheEvent → Bool
  | copied m _ _ _ => m == n
  | _ => false

/-- The events behind the last `get(n)` that returned data. -/
def sinceCopy (n : CString) (h : List CacheEvent) : List CacheEvent := h.rtakeWhile fun e => !e.isCopyOf n

def documented (n : CString) (running : Bool) (h : List CacheEvent) : TopicState :=
  if running = false then .notconnected
  else if h.any (·.subscribes n) = false then .notfound
  else if notifies n (since n h) = [] then .nodata
  else if notifies n (sinceCopy n h) = [] then .unchanged
  else .changed

theorem any_subscribes {n : CString} {h : List CacheEvent} :
    h.any (·.subscribes n) = true ↔ ∃ t, .subscribed n t ∈ h := by
  rw [List.any_eq_true]
  constructor
  · rintro ⟨e, he, hs⟩
    cases e with
    | subscribed m t => exact ⟨t, by rwa [← beq_iff_eq.1 (show (m == n) = true from hs)]⟩
    | notified | copied => cases hs
  · rintro ⟨t, ht⟩
    exact ⟨_, ht, by simp [CacheEvent.subscribes]⟩

theorem notifies_ne_nil {n : CString} {h : List CacheEvent} :
    notifies n h ≠ [] ↔ ∃ t d, .notified n t d ∈ h := by
  rw [notifies, ne_eq, List.filterMap_eq_nil_iff]
  constructor
  · intro hne
    push Not at hne
    obtain ⟨e, he, hnews⟩ := hne
    cases e with
    | notified m t d =>
      by_cases hm : m = n
      · exact ⟨t, d, hm ▸ he⟩
      · exact absurd (if_neg hm) hnews
    | subscribed | copied => exact absurd rfl hnews
  · rintro ⟨t, d, hmem⟩ hall
    have := hall _ hmem
    simp [CacheEvent.news] at this

/-- What a suffix without an exception adds to the longest such suffix. -/
theorem rtakeWhile_append {α : Type} {p : α → Bool} {ys : List α} (hys : ∀ y ∈ ys, p y = true)
    (xs : List α) : (xs ++ ys).rtakeWhile p = xs.rtakeWhile p ++ ys := by
  induction ys using List.reverseRecOn with
  | nil => rw [List.append_nil, List.append_nil]
  | append_singleton ys y ih =>
    rw [← List.append_assoc, List.rtakeWhile_concat_pos _ _ _ (hys y (by simp)),
      ih fun z hz => hys z (by simp [hz]), List.append_assoc]

/-! ## Every step of a session -/

namespace Process
variable {s s' : Process Unit} {a : Label Unit}

theorem topics_step (h : s.step a = some s') (hsub : ∀ n, a ≠ .subscribe n) :
    s'.c.topics = s.c.topics := by
  cases step_moves h with
  | locked i n wait r _ hr =>
    rw [ends_c]
    cases hr <;> rfl
  | woken i n wait t loop r _ _ hr =>
    rw [ends_c]
    cases hr <;> rfl
  | subscribes n => exact absurd rfl (hsub n)
  | receives p now who c signal _ _ hc _ =>
    rw [(received_c s c signal who).1]
    cases hc <;> rfl
  | _ => rfl

theorem waiting_step (h : s.step a = some s') {n : CString} {wait : Wait} {t : Ref} {loop : Loop}
    (hi : s'.threads () = .waiting n wait t loop) :
    (∃ loop', s.threads () = .waiting n wait t loop') ∨ s.c.topics[n]? = some t := by
  have hset : ∀ {u : Process Unit} {x : Thread}, (u.setThread () x).threads () = .waiting n wait t loop →
      x = .waiting n wait t loop := by
    intro u x hx
    rwa [setThread_self] at hx
  cases step_moves h with
  | enters | refused | wokenAny | waitsAny => cases hset hi
  | locked i m w r _ hr =>
    cases hr with
    | returns | takes => cases hset hi
    | waits k loop' _ _ _ hk =>
      cases hset hi
      exact Or.inr hk
  | woken i m w k loop' r _ hi' hr =>
    cases hr with
    | aborts | takes => cases hset hi
    | waits _ _ =>
      cases hset hi
      exact Or.inl ⟨_, hi'⟩
  | receives p now who c signal _ _ _ _ =>
    rw [Recorded.received_threads] at hi
    exact Or.inl ⟨loop, hi⟩
  | spurious | subscribes | hangup | leave | finish => exact Or.inl ⟨loop, hi⟩

theorem emits_subscribes (hsub : ∀ n, a ≠ .subscribe n) (n : CString) :
    ∀ e ∈ s.emits a, e.subscribes n = false := by
  have hcopies : ∀ (m : CString) (w : Wait) (k : Option Ref) (g : GetStep),
      ∀ e ∈ copies m w k g, e.subscribes n = false := by
    intro m w k g e he
    unfold copies at he
    split at he
    · split at he
      · rw [List.mem_singleton.1 he]
        rfl
      · exact absurd he List.not_mem_nil
    · exact absurd he List.not_mem_nil
  intro e he
  unfold emits at he
  split at he
  · exact absurd rfl (hsub _)
  · unfold MyClient.notifications at he
    repeat' split at he
    all_goals first | exact absurd he List.not_mem_nil | (rw [List.mem_singleton.1 he]; rfl)
  · split at he
    · exact hcopies _ _ _ _ e he
    · exact absurd he List.not_mem_nil
  · split at he
    · exact hcopies _ _ _ _ e he
    · exact absurd he List.not_mem_nil
  · exact absurd he List.not_mem_nil

end Process

/-- The cache is recorded; a waiting `get` is on the entry of the map, and so was every copy since the
last subscription. -/
structure Tracked (h : List CacheEvent) (s : Session) : Prop where
  recorded : Recorded h s.p
  held : ∀ n wait t loop, s.p.threads () = .waiting n wait t loop → s.p.c.topics[n]? = some t
  read : ∀ (n : CString) (t : Ref), s.p.c.topics[n]? = some t →
    ∀ wait k rv, .copied n wait k rv ∈ since n h → k = t

namespace Tracked
variable {h : List CacheEvent} {s : Session}

theorem offline : Tracked [] Session.offline where
  recorded := Recorded.start.quiet rfl rfl rfl fun _ _ _ _ _ hi => nomatch hi
  held _ _ _ _ hi := nomatch hi
  read n t ht := by simp [Session.offline] at ht

theorem free {s : Session} (hf : (s.p.threads ()).free = true) (n : CString) (wait : Wait) (t : Ref)
    (loop : Loop) : s.p.threads () ≠ .waiting n wait t loop := by
  intro hi
  rw [hi] at hf
  cases hf

theorem init (hr : Tracked h s) : Tracked h s.init := by
  by_cases hcount : s.initCount = 0
  · have hp : s.init.p =
        { s.p with c := { s.p.c with running := true, waittopic := none }, receiver := .looping } :=
      if_pos hcount
    exact ⟨hp ▸ hr.recorded.quiet rfl rfl rfl hr.recorded.held, hp ▸ hr.held, hp ▸ hr.read⟩
  · have hp : s.init.p = s.p := if_neg hcount
    exact ⟨hp ▸ hr.recorded, hp ▸ hr.held, hp ▸ hr.read⟩

theorem subscribe (hr : Tracked h s) (hf : (s.p.threads ()).free = true) (n : CString) :
    Tracked (h ++ [.subscribed n s.p.c.fresh]) { s with p := { s.p with c := s.p.c.subscribe n } } where
  recorded := hr.recorded.subscribe n
  held m wait t loop hi := absurd hi (free hf m wait t loop)
  read m t ht wait k rv hmem := by
    have ht' : (s.p.c.subscribe n).topics[m]? = some t := ht
    rw [MyClient.getElem?_subscribe] at ht'
    by_cases hmn : m = n
    · rw [hmn, since_subscribed] at hmem
      exact absurd hmem List.not_mem_nil
    · rw [if_neg hmn] at ht'
      have hsub : CacheEvent.subscribes m (.subscribed n s.p.c.fresh) = false := by
        simpa [CacheEvent.subscribes] using Ne.symm hmn
      rw [since_snoc hsub, List.mem_append, List.mem_singleton] at hmem
      rcases hmem with hmem | hmem
      · exact hr.read m t ht' wait k rv hmem
      · cases hmem

theorem process (hr : Tracked h s) {a : Label Unit} {p : Process Unit} (hsub : ∀ n, a ≠ .subscribe n)
    (hstep : s.p.step a = some p) : Tracked (h ++ s.p.emits a) { s with p := p } where
  recorded := hr.recorded.step hstep
  held n wait t loop hi := by
    show p.c.topics[n]? = some t
    rw [Process.topics_step hstep hsub]
    rcases Process.waiting_step hstep hi with ⟨loop', hi'⟩ | ht
    · exact hr.held n wait t loop' hi'
    · exact ht
  read n t ht wait k rv hmem := by
    have ht' : p.c.topics[n]? = some t := ht
    rw [Process.topics_step hstep hsub] at ht'
    rw [since, rtakeWhile_append fun e he => by simp [Process.emits_subscribes hsub n e he],
      List.mem_append] at hmem
    rcases hmem with hmem | hmem
    · exact hr.read n t ht' wait k rv hmem
    · have hk := (Process.copied_entry (P := fun n t => s.p.c.topics[n]? = some t) (fun _ _ ht => ht)
        (fun _ => hr.held) hstep hmem).1
      rw [ht', Option.some_inj] at hk
      exact hk.symm

theorem step (hr : Tracked h s) {a : Session.Call} {s' : Session} (hstep : s.step a = some s') :
    Tracked (h ++ s.emits a) s' := by
  cases a with
  | init =>
    obtain ⟨-, hs'⟩ := Option.ite_none_right_eq_some.1 hstep
    rw [← Option.some_inj.1 hs']
    show Tracked (h ++ []) _
    rw [List.append_nil]
    exact hr.init
  | subscribe n =>
    obtain ⟨hf, hs'⟩ := Option.ite_none_right_eq_some.1 hstep
    rw [← Option.some_inj.1 hs', Session.subscribe, Session.emits]
    split
    · exact hr.subscribe hf n
    · rw [List.append_nil]
      exact hr
  | step a =>
    unfold Session.step at hstep
    split at hstep
    · next heq => cases heq
    · next heq => cases heq
    · cases hstep
    · next b hsub heq =>
      cases heq
      obtain ⟨p, hp, rfl⟩ := Option.map_eq_some_iff.1 hstep
      exact hr.process (fun n hn => hsub n hn) hp

theorem run {es : List Session.Call} (h : Run.exec Session.step Session.offline es = some s) :
    Tracked (Run.trace Session.step Session.emits Session.offline es) s :=
  Run.invariant_trace (h := []) (fun _ _ _ _ hr hstep => hr.step hstep) offline h

end Tracked

/-! ## The documented state -/

namespace Tracked
variable {h : List CacheEvent} {s : Session} {n : CString} {t : Ref}

theorem subscribed_iff (hr : Tracked h s) (n : CString) :
    h.any (·.subscribes n) = false ↔ s.p.c.topics[n]? = none := by
  rw [← Bool.not_eq_true, any_subscribes]
  constructor
  · intro hno
    by_contra hne
    obtain ⟨t, ht⟩ := Option.ne_none_iff_exists'.1 hne
    exact hno ⟨t, hr.recorded.mem_of_mapped ht⟩
  · rintro hnone ⟨t, ht⟩
    exact hr.recorded.unmapped n hnone _ ht rfl

theorem sinceCopy_suffix (n : CString) (h : List CacheEvent) : sinceCopy n h <:+ h :=
  List.rtakeWhile_suffix _ _

theorem since_suffix (n : CString) (h : List CacheEvent) : since n h <:+ h :=
  List.rtakeWhile_suffix _ _

/-- No copy of the entry of `n` lies behind the last copy of `n`. -/
theorem not_mem_sinceCopy (hr : Tracked h s) (ht : s.p.c.topics[n]? = some t) (m : CString) (wait : Wait)
    (rv : Topic) : .copied m wait t rv ∉ sinceCopy n h := by
  intro hmem
  have hname := hr.recorded.named _ ((sinceCopy_suffix n h).subset hmem)
  have hm : m = n := hr.recorded.owned m n t hname (hr.recorded.mem_of_mapped ht)
  have hp := List.mem_rtakeWhile_imp hmem
  simp [CacheEvent.isCopyOf, hm] at hp

/-- Since the last subscription, a copy of `n` is a copy of its entry. -/
theorem isCopyOf_iff (hr : Tracked h s) (ht : s.p.c.topics[n]? = some t) {e : CacheEvent}
    (he : e ∈ since n h) : e.isCopyOf n = true ↔ ∃ wait rv, e = .copied n wait t rv := by
  constructor
  · intro hm
    cases e with
    | copied m wait k rv =>
      have hm : m = n := beq_iff_eq.1 hm
      rw [hm] at he ⊢
      exact ⟨wait, rv, by rw [hr.read n t ht wait k rv he]⟩
    | subscribed | notified => cases hm
  · rintro ⟨wait, rv, rfl⟩
    simp [CacheEvent.isCopyOf]

theorem unread_iff (hr : Tracked h s) (ht : s.p.c.topics[n]? = some t)
    (hdata : notifies n (since n h) ≠ []) :
    (∃ xs d ys, since n h = xs ++ .notified n t d :: ys ∧ ∀ m wait rv, .copied m wait t rv ∉ ys) ↔
      notifies n (sinceCopy n h) ≠ [] := by
  constructor
  · rintro ⟨xs, d, ys, he, hno⟩
    -- the events from this notification on are behind the last copy
    have hquiet : ∀ e ∈ .notified n t d :: ys, (!e.isCopyOf n) = true := by
      intro e hmem
      have hin : e ∈ since n h := he ▸ List.mem_append_right _ hmem
      rw [Bool.not_eq_true', ← Bool.not_eq_true, hr.isCopyOf_iff ht hin]
      rintro ⟨wait, rv, rfl⟩
      rcases List.mem_cons.1 hmem with heq | hmem
      · cases heq
      · exact hno n wait rv hmem
    obtain ⟨pre, hpre, -⟩ := hr.recorded.mapped n t ht
    have hsplit : h = (pre ++ .subscribed n t :: xs) ++ .notified n t d :: ys := by
      rw [List.append_assoc, List.cons_append, ← he]
      exact hpre
    refine notifies_ne_nil.2 ⟨t, d, ?_⟩
    rw [sinceCopy, hsplit, rtakeWhile_append hquiet]
    simp
  · intro hne
    have hcurrent : ∀ {k : Ref} {d : List Datum}, .notified n k d ∈ since n h → k = t :=
      fun hmem => hr.recorded.current n t ht _ _ hmem
    -- of two suffixes of the history one is a suffix of the other
    rcases List.suffix_or_suffix_of_suffix (sinceCopy_suffix n h) (since_suffix n h) with
      ⟨zs, hzs⟩ | ⟨zs, hzs⟩
    · obtain ⟨k, d, hmem⟩ := notifies_ne_nil.1 hne
      obtain rfl := hcurrent (hzs ▸ List.mem_append_right zs hmem)
      obtain ⟨xs, ys, he⟩ := List.append_of_mem hmem
      refine ⟨zs ++ xs, d, ys, by rw [← hzs, he, List.append_assoc], fun m wait rv hno => ?_⟩
      exact hr.not_mem_sinceCopy ht m wait rv (he ▸ by simp [hno])
    · obtain ⟨k, d, hmem⟩ := notifies_ne_nil.1 hdata
      obtain rfl := hcurrent hmem
      obtain ⟨xs, ys, he⟩ := List.append_of_mem hmem
      refine ⟨xs, d, ys, he, fun m wait rv hno => ?_⟩
      have hin : .copied m wait k rv ∈ since n h := he ▸ by simp [hno]
      exact hr.not_mem_sinceCopy ht m wait rv (hzs ▸ List.mem_append_right zs hin)

theorem documented_eq (hr : Tracked h s) (ht : s.p.c.topics[n]? = some t) :
    documented n true h = (s.p.c.heap t).state := by
  have hsub : h.any (·.subscribes n) ≠ false := by
    rw [ne_eq, hr.subscribed_iff, ht]
    exact fun he => nomatch he
  have hnodata := hr.recorded.nodata_iff ht
  have hchanged := hr.recorded.changed_iff ht
  unfold documented
  rw [if_neg (by decide), if_neg hsub]
  by_cases hdata : notifies n (since n h) = []
  · rw [if_pos hdata, hnodata.2 hdata]
  · rw [hr.unread_iff ht hdata] at hchanged
    rw [if_neg hdata]
    by_cases hread : notifies n (sinceCopy n h) = []
    · rw [if_pos hread]
      refine ((hr.recorded.unchanged_iff t).2 ⟨fun he => hdata (hnodata.1 he), fun he => ?_⟩).symm
      exact hchanged.1 he hread
    · rw [if_neg hread]
      exact (hchanged.2 hread).symm

end Tracked

/-! ## `get(n,GET_WAITNONE)` -/

namespace MyClient

theorem getLocked_none (c : MyClient) (n : CString) :
    (c.topics[n]? = none ∧ (c.getLocked n .none).2 = .returns { state := .notfound }) ∨
    ∃ t, c.topics[n]? = some t ∧
      (((c.heap t).state = .nodata ∧ (c.getLocked n .none).2 = .returns { state := .notfound }) ∨
        ((c.heap t).state ≠ .nodata ∧ (c.getLocked n .none).2 = .returns (c.heap t))) := by
  unfold getLocked
  cases ht : c.topics[n]? with
  | none => exact Or.inl ⟨rfl, rfl⟩
  | some t =>
    refine Or.inr ⟨t, rfl, ?_⟩
    dsimp only
    by_cases hnodata : (c.heap t).state = .nodata
    · rw [if_pos hnodata, if_neg (by decide)]
      exact Or.inl ⟨hnodata, rfl⟩
    · rw [if_neg hnodata, if_neg (by decide)]
      exact Or.inr ⟨hnodata, rfl⟩

end MyClient

namespace Session

theorem step_process (s : Session) {a : Label Unit} {p : Process Unit} (hsub : ∀ n, a ≠ .subscribe n)
    (h : s.p.step a = some p) : s.step (.step a) = some { s with p := p } := by
  cases a with
  | subscribe n => exact absurd rfl (hsub n)
  | _ => rw [step, h, Option.map_some]; simp

theorem step_get {s : Session} (hf : (s.p.threads ()).free = true) (n : CString) (wait : Wait)
    {x : Thread}
    (hx : x = if s.p.c.running then .entered n wait else .returned { state := .notconnected }) :
    s.step (.step (.get () n wait)) = some { s with p := s.p.setThread () x } := by
  have hstep : s.p.step (.get () n wait) = some (s.p.setThread () x) := by
    rw [hx]
    simp only [Process.step]
    cases hi : s.p.threads () with
    | idle | returned rv => cases s.p.c.running <;> rfl
    | entered | waiting | waitingAny =>
      rw [hi] at hf
      cases hf
  exact step_process s (fun _ he => by cases he) hstep

theorem exec_poll {s : Session} (hf : (s.p.threads ()).free = true) (n : CString) {rv : Topic}
    (hoff : s.p.c.running = false → rv = { state := .notconnected })
    (hon : s.p.c.running = true → (s.p.c.getLocked n .none).2 = .returns rv) :
    ∃ s', Run.exec step s (s.poll n) = some s' ∧ s'.p.threads () = .returned rv := by
  cases hrun : s.p.c.running with
  | false =>
    have hx : Thread.returned rv =
        if s.p.c.running then .entered n .none else .returned { state := .notconnected } := by
      rw [hrun, hoff hrun]
      rfl
    refine ⟨{ s with p := s.p.setThread () (.returned rv) }, ?_, Process.setThread_self s.p () _⟩
    rw [poll, hrun, Run.exec, step_get hf n .none hx]
    rfl
  | true =>
    have hx : Thread.entered n .none =
        if s.p.c.running then .entered n .none else .returned { state := .notconnected } := by
      rw [hrun]
      rfl
    let p := s.p.setThread () (.entered n .none)
    have hlock : p.step (.lock ()) = some (p.ends () n .none (s.p.c.getLocked n .none)) := by
      simp only [Process.step, p, Process.setThread_self]
      rfl
    refine ⟨{ s with p := p.ends () n .none (s.p.c.getLocked n .none) }, ?_,
      Process.ends_returned.2 (hon hrun)⟩
    have hstep : step { s with p := p } (.step (.lock ())) =
        some { s with p := p.ends () n .none (s.p.c.getLocked n .none) } :=
      step_process { s with p := p } (fun _ he => by cases he) hlock
    rw [poll, hrun, Run.exec, step_get hf n .none hx, Option.bind_some, if_pos rfl, Run.exec, hstep]
    rfl

/-- **`get(n,GET_WAITNONE)` returns the documented state**, except for a topic that is subscribed to, and
of which no notification came since: that is reported as if it were not subscribed to. -/
theorem poll_documented (es : List Call) (s : Session) (hrun : Run.exec step offline es = some s)
    (hf : (s.p.threads ()).free = true) (n : CString) :
    let h := Run.trace step emits offline es
    ∃ s' rv, Run.exec step s (s.poll n) = some s' ∧ s'.p.threads () = .returned rv ∧
      (rv.state = documented n s.p.c.running h ↔ s.p.c.running = false ∨
        (∀ t, .subscribed n t ∉ h) ∨ ∃ t d, .notified n t d ∈ since n h) := by
  intro h
  have hr : Tracked h s := Tracked.run hrun
  have hnever : (∀ t, .subscribed n t ∉ h) ↔ h.any (·.subscribes n) = false := by
    rw [← Bool.not_eq_true, any_subscribes, not_exists]
  rw [hnever, ← notifies_ne_nil]
  cases hon : s.p.c.running with
  | false =>
    obtain ⟨s', hs', hret⟩ := exec_poll hf n (fun _ => rfl)
      (fun he => absurd he (by rw [hon]; decide))
    exact ⟨s', _, hs', hret, iff_of_true rfl (Or.inl rfl)⟩
  | true =>
    rcases MyClient.getLocked_none s.p.c n with ⟨ht, hg⟩ | ⟨t, ht, ⟨hnodata, hg⟩ | ⟨hdata, hg⟩⟩ <;>
      obtain ⟨s', hs', hret⟩ := exec_poll hf n (fun he => absurd he (by rw [hon]; decide)) fun _ => hg
    · have hno := (hr.subscribed_iff n).2 ht
      refine ⟨s', _, hs', hret, iff_of_true ?_ (Or.inr (Or.inl hno))⟩
      rw [documented, if_neg (by decide), if_pos hno]
    · refine ⟨s', _, hs', hret, iff_of_false ?_ ?_⟩
      · rw [hr.documented_eq ht, hnodata]
        exact fun he => nomatch he
      · rw [hr.subscribed_iff, ht]
        rintro (he | he | he)
        · cases he
        · cases he
        · exact he ((hr.recorded.nodata_iff ht).1 hnodata)
    · refine ⟨s', _, hs', hret, iff_of_true ?_ (Or.inr (Or.inr fun he => hdata ?_))⟩
      · rw [hr.documented_eq ht]
      · exact (hr.recorded.nodata_iff ht).2 he

def silent : List Call := [.init, .subscribe (.ofString "a")]

theorem poll_documented_silent :
    ∃ s, Run.exec step offline silent = some s ∧ ∃ s' rv, Run.exec step s (s.poll (.ofString "b")) = some s' ∧
      s'.p.threads () = .returned rv ∧ rv.state = .notfound := by
  have hsome : (Run.exec step offline silent).isSome = true := by decide +kernel
  obtain ⟨s, hs⟩ := Option.isSome_iff_exists.1 hsome
  have hstate : (Run.exec step offline silent).map
      (fun s => ((s.p.threads ()).free, s.p.c.running)) = some (true, true) := by
    decide +kernel
  rw [hs, Option.map_some, Option.some_inj, Prod.mk.injEq] at hstate
  have htrace : Run.trace step emits offline silent = [.subscribed (.ofString "a") 0] := by decide +kernel
  obtain ⟨s', rv, hpoll, hret, hiff⟩ := poll_documented silent s hs hstate.1 (.ofString "b")
  refine ⟨s, hs, s', rv, hpoll, hret, ?_⟩
  rw [htrace, hstate.2] at hiff
  rw [hiff.2 (Or.inr (Or.inl (by simp; decide)))]
  decide

/-- The subscribed topic 'a' is reported as not found. -/
theorem silent_notfound :
    ∃ s s', Run.exec step offline silent = some s ∧
      Run.exec step s (s.poll (.ofString "a")) = some s' ∧
      s'.p.threads () = .returned { state := .notfound } ∧
      documented (.ofString "a") s.p.c.running (Run.trace step emits offline silent) = .nodata := by
  have hrun : (Run.exec step offline silent).map (fun s => (s.p.c.running,
      (Run.exec step s (s.poll (.ofString "a"))).map fun s' => s'.p.threads ())) =
      some (true, some (.returned { state := .notfound })) := by
    decide +kernel
  obtain ⟨s, hs, he⟩ := Option.map_eq_some_iff.1 hrun
  rw [Prod.mk.injEq] at he
  obtain ⟨s', hs', hret⟩ := Option.map_eq_some_iff.1 he.2
  refine ⟨s, s', hs, hs', hret, ?_⟩
  rw [he.1]
  decide +kernel

end Session

end DiamondApparatus
