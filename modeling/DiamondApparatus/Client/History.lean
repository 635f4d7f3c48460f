import DiamondApparatus.Client.Waiting
import DiamondApparatus.Data.RoundTrip
import DiamondApparatus.Lib.Cell
import Mathlib.Data.List.DropRight

/-!
# The client's cache and its history

* `CacheEvent` : what happens to an entry of the topic map: it is made, a notification is stored in it,
  a `get()` copies it. `Process.emits` : the events of a step;
* `since n h` : the events behind the last subscription of `n`; `notifies n h` : the items of the
  notifications of `n`;
* `Shows x c` : the topic `x` is the cell `c`; `Recorded h s` : every `Topic` of the state `s` shows the
  cell that its events in `h` make, and the map has the entry of the last subscription;
* `Recorded.step`, `Recorded.run` : whatever the threads and the receiver do.
-/

namespace DiamondApparatus
open Lib Std

inductive CacheEvent
  | subscribed (n : CString) (t : Ref)
  | notified (n : CString) (t : Ref) (d : List Datum)
  /-- A `get(n,wait)` that held the pointer `t` returned the data `rv`. -/
  | copied (n : CString) (wait : Wait) (t : Ref) (rv : Topic)
  deriving DecidableEq

namespace CacheEvent

def name : CacheEvent → CString
  | subscribed n _ | notified n _ _ | copied n _ _ _ => n

def ref : CacheEvent → Ref
  | subscribed _ t | notified _ t _ | copied _ _ t _ => t

def subscribes (n : CString) : CacheEvent → Bool
  | subscribed m _ => m == n
  | _ => false

def op (t : Ref) : CacheEvent → Option (Cell.Op (List Datum))
  | subscribed _ _ => none
  | notified _ k d => if k = t then some (.write d) else none
  | copied _ _ k _ => if k = t then some .read else none

def news (n : CString) : CacheEvent → Option (List Datum)
  | notified m _ d => if m = n then some d else none
  | _ => none

end CacheEvent

/-! ## The events of a step -/

/-- The event of a packet: a notification of a topic that is subscribed to. -/
def MyClient.notifications (c : MyClient) (p : Bytes) : List CacheEvent :=
  match takeU32 p with
  | none => []
  | some (type, _) =>
    if type = scNotify then
      match nameOfMsg p with
      | .error _ => []
      | .ok n =>
        match c.topics[n]? with
        | none => []
        | some t => [.notified n t (Topic.fromMessage {} p false).1.d]
    else []

/-- The event of a stretch of `get(n,wait)` that holds the pointer `t`: it returned data, or none. -/
def copies (n : CString) (wait : Wait) : Option Ref → GetStep → List CacheEvent
  | some t, .returns rv => if rv.isValid then [.copied n wait t rv] else []
  | _, _ => []

def Process.emits {ι : Type} (s : Process ι) : Label ι → List CacheEvent
  | .subscribe n => [.subscribed n s.c.fresh]
  | .packet p _ _ => s.c.notifications p
  | .lock i =>
    match s.threads i with
    | .entered n wait => copies n wait s.c.topics[n]? (s.c.getLocked n wait).2
    | _ => []
  | .resume i =>
    match s.threads i with
    | .waiting n wait t loop => copies n wait (some t) (s.c.getWoken n t loop).2
    | _ => []
  | _ => []

/-! ## Histories -/

/-- What was done to the `Topic` at `t`. -/
def opsOn (t : Ref) (h : List CacheEvent) : List (Cell.Op (List Datum)) := h.filterMap (CacheEvent.op t)

/-- The events behind the last subscription of `n`. -/
def since (n : CString) (h : List CacheEvent) : List CacheEvent :=
  h.rtakeWhile fun e => !e.subscribes n

def notifies (n : CString) (h : List CacheEvent) : List (List Datum) := h.filterMap (CacheEvent.news n)

theorem since_snoc {n : CString} {e : CacheEvent} (he : e.subscribes n = false) (h : List CacheEvent) :
    since n (h ++ [e]) = since n h ++ [e] :=
  List.rtakeWhile_concat_pos _ _ _ (by simp [he])

theorem since_subscribed (n : CString) (t : Ref) (h : List CacheEvent) :
    since n (h ++ [.subscribed n t]) = [] :=
  List.rtakeWhile_concat_neg _ _ _ (by simp [CacheEvent.subscribes])

theorem opsOn_snoc (t : Ref) (h : List CacheEvent) (e : CacheEvent) :
    opsOn t (h ++ [e]) = opsOn t h ++ (e.op t).toList := by
  rw [opsOn, List.filterMap_append]
  cases he : e.op t <;> simp [opsOn, he]

theorem op_of_ne {e : CacheEvent} {t : Ref} (h : e.ref ≠ t) : e.op t = none := by
  cases e with
  | subscribed n k => rfl
  | notified n k d => exact if_neg h
  | copied n wait k rv => exact if_neg h

theorem opsOn_eq_nil {t : Ref} {h : List CacheEvent} (hne : ∀ e ∈ h, e.ref ≠ t) : opsOn t h = [] := by
  rw [opsOn, List.filterMap_eq_nil_iff]
  intro e he
  exact op_of_ne (hne e he)

/-! ## A topic as a cell -/

/-- The state that a topic with the contents of `c` is in. -/
def stateFor (c : Cell (List Datum)) : TopicState :=
  match c.value with
  | none => .nodata
  | some _ => if c.fresh then .changed else .unchanged

structure Shows (x : Topic) (c : Cell (List Datum)) : Prop where
  d : x.d = c.value.getD []
  state : x.state = stateFor c

theorem shows_empty : Shows {} {} := ⟨rfl, rfl⟩

theorem Shows.write {x : Topic} {d : List Datum} (hd : x.d = d) (hs : x.state = .changed)
    (c : Cell (List Datum)) : Shows x (c.apply (.write d)) :=
  ⟨hd, hs⟩

theorem Shows.nodata_iff {x : Topic} {c : Cell (List Datum)} (h : Shows x c) :
    x.state = .nodata ↔ c.value = none := by
  rw [h.state, stateFor]
  cases c.value with
  | none => simp
  | some d => cases c.fresh <;> simp

theorem Shows.changed_iff {x : Topic} {c : Cell (List Datum)} (h : Shows x c) :
    x.state = .changed ↔ c.value ≠ none ∧ c.fresh = true := by
  rw [h.state, stateFor]
  cases c.value with
  | none => simp
  | some d => cases c.fresh <;> simp

theorem Shows.read {x : Topic} {c : Cell (List Datum)} (h : Shows x c) (hdata : x.state ≠ .nodata) :
    Shows { x with state := .unchanged } (c.apply .read) where
  d := h.d
  state := by
    have hvalue : c.value ≠ none := fun he => hdata (h.nodata_iff.2 he)
    unfold stateFor Cell.apply
    cases hc : c.value with
    | none => exact absurd hc hvalue
    | some d => simp

theorem Shows.isValid {x : Topic} {c : Cell (List Datum)} (h : Shows x c) (hdata : x.state ≠ .nodata) :
    x.isValid = true := by
  rw [h.state] at hdata
  rw [Topic.isValid, h.state]
  unfold stateFor at hdata ⊢
  cases hc : c.value with
  | none => simp [hc] at hdata
  | some d => cases c.fresh <;> simp

/-! ## Stretches of `get()` -/

namespace MyClient

/-- What a stretch of `get()` on the entry at `t` does to the topics: nothing, or it copies that entry. -/
inductive Stretch (c : MyClient) : Option Ref → MyClient × GetStep → Prop
  | returns (t : Option Ref) (w : Option CString) (rv : Topic) (hrv : rv.isValid = false) :
      Stretch c t ({ c with waittopic := w }, .returns rv)
  | waits (t : Ref) (w : Option CString) (loop : Loop) :
      Stretch c (some t) ({ c with waittopic := w }, .waits t loop)
  | takes (t : Ref) (hdata : (c.heap t).state ≠ .nodata) :
      Stretch c (some t) ({ c with waittopic := none }.take t)

theorem getLoop_stretch (c : MyClient) (n : CString) (t : Ref) (loop : Loop) :
    Stretch c (some t) ({ c with waittopic := none }.getLoop n t loop) := by
  rcases getLoop_cases { c with waittopic := none } n t loop with ⟨htest, h⟩ | ⟨htest, h⟩ <;> rw [h]
  · exact .waits t (some n) loop
  · exact .takes t (test_false_data htest)

theorem getLocked_stretch (c : MyClient) (n : CString) (wait : Wait) :
    Stretch c c.topics[n]? (c.getLocked n wait) := by
  unfold getLocked
  split
  · exact .returns _ c.waittopic _ (by decide)
  · next t ht =>
    rw [ht]
    dsimp only
    split
    · split
      · exact getLoop_stretch c n t .nodata
      · exact .returns (some t) none _ (by decide)
    · next hdata =>
      split
      · exact getLoop_stretch c n t .unchanged
      · exact .takes t hdata

theorem getWoken_stretch (c : MyClient) (n : CString) (t : Ref) (loop : Loop) :
    Stretch c (some t) (c.getWoken n t loop) := by
  unfold getWoken
  dsimp only
  split
  · exact getLoop_stretch c n t loop
  · exact .returns (some t) none _ (by decide)

end MyClient

/-- A copy in the events of a stretch is what it returned, and it took the mark off. -/
theorem MyClient.Stretch.copied {c : MyClient} {k : Option Ref} {r : MyClient × GetStep}
    (hst : Stretch c k r) {m n : CString} {w wait : Wait} {t : Ref} {rv : Topic}
    (hmem : .copied n wait t rv ∈ copies m w k r.2) :
    m = n ∧ w = wait ∧ k = some t ∧ (c.heap t).state ≠ .nodata ∧ rv = c.heap t ∧ r.2 = .returns rv ∧
      r.1.heap = (c.store t { c.heap t with state := .unchanged }).heap := by
  cases hst with
  | returns _ _ x hx =>
    cases k with
    | none => exact absurd hmem List.not_mem_nil
    | some k =>
      rw [copies, hx, if_neg (by decide)] at hmem
      exact absurd hmem List.not_mem_nil
  | waits _ _ _ => exact absurd hmem List.not_mem_nil
  | takes k hdata =>
    rw [MyClient.take, copies] at hmem
    dsimp only at hmem
    split at hmem
    · cases List.mem_singleton.1 hmem
      exact ⟨rfl, rfl, rfl, hdata, rfl, rfl, rfl⟩
    · exact absurd hmem List.not_mem_nil

theorem MyClient.Stretch.returned {c : MyClient} {k : Option Ref} {r : MyClient × GetStep}
    (hst : Stretch c k r) {rv : Topic} (hr : r.2 = .returns rv) (hvalid : rv.isValid = true)
    (n : CString) (wait : Wait) : ∃ t, .copied n wait t rv ∈ copies n wait k r.2 := by
  cases hst with
  | returns _ _ x hx =>
    cases hr
    rw [hx] at hvalid
    cases hvalid
  | waits _ _ _ => cases hr
  | takes k hdata =>
    cases hr
    refine ⟨k, ?_⟩
    rw [MyClient.take, copies, if_pos hvalid]
    exact List.mem_singleton_self _

/-! ## The cache -/

/-- Every topic shows what was done to it, and the map has the entry of the last subscription. -/
structure Recorded {ι : Type} (h : List CacheEvent) (s : Process ι) : Prop where
  shows : ∀ t, Shows (s.c.heap t) (Cell.run (opsOn t h))
  allocated : ∀ e ∈ h, e.ref < s.c.fresh
  mapped : ∀ (n : CString) (t : Ref), s.c.topics[n]? = some t →
    ∃ pre, h = pre ++ .subscribed n t :: since n h ∧ ∀ e ∈ pre, e.ref ≠ t
  current : ∀ (n : CString) (t : Ref), s.c.topics[n]? = some t →
    ∀ k d, .notified n k d ∈ since n h → k = t
  unmapped : ∀ n : CString, s.c.topics[n]? = none → ∀ e ∈ h, e.name ≠ n
  named : ∀ e ∈ h, .subscribed e.name e.ref ∈ h
  owned : ∀ n m t, .subscribed n t ∈ h → .subscribed m t ∈ h → n = m
  held : ∀ i n wait t loop, s.threads i = .waiting n wait t loop → .subscribed n t ∈ h

namespace Recorded
variable {ι : Type} {h : List CacheEvent} {s : Process ι}

theorem mem_of_mapped (hr : Recorded h s) {n : CString} {t : Ref} (ht : s.c.topics[n]? = some t) :
    .subscribed n t ∈ h := by
  obtain ⟨pre, hpre, -⟩ := hr.mapped n t ht
  rw [hpre]
  simp

theorem start : Recorded [] (Process.start : Process ι) where
  shows _ := shows_empty
  allocated := by simp
  mapped n t ht := by simp [Process.start] at ht
  current n t ht := by simp [Process.start] at ht
  unmapped := by simp
  named := by simp
  owned := by simp
  held i n wait t loop hi := by cases hi

/-- A step without an event: the topics stay, and nobody starts to wait. -/
theorem quiet (hr : Recorded h s) {s' : Process ι} (hheap : s'.c.heap = s.c.heap)
    (htopics : s'.c.topics = s.c.topics) (hfresh : s'.c.fresh = s.c.fresh)
    (hheld : ∀ i n wait t loop, s'.threads i = .waiting n wait t loop → .subscribed n t ∈ h) :
    Recorded h s' where
  shows := hheap ▸ hr.shows
  allocated := hfresh ▸ hr.allocated
  mapped := htopics ▸ hr.mapped
  current := htopics ▸ hr.current
  unmapped := htopics ▸ hr.unmapped
  named := hr.named
  owned := hr.owned
  held := hheld

/-- An event on an entry that was there before: only that `Topic` changes. -/
theorem event (hr : Recorded h s) {s' : Process ι} {e : CacheEvent} {x : Topic}
    (hheap : s'.c.heap = (s.c.store e.ref x).heap) (htopics : s'.c.topics = s.c.topics)
    (hfresh : s'.c.fresh = s.c.fresh)
    (hheld : ∀ i n wait t loop, s'.threads i = .waiting n wait t loop → .subscribed n t ∈ h)
    (hsub : ∀ n, e.subscribes n = false) (hname : .subscribed e.name e.ref ∈ h)
    (hcur : ∀ n k d, e = .notified n k d → s.c.topics[n]? = some k)
    (hshows : Shows x (Cell.run (opsOn e.ref (h ++ [e])))) : Recorded (h ++ [e]) s' where
  shows t := by
    rw [hheap]
    show Shows (if t = e.ref then x else s.c.heap t) _
    by_cases ht : t = e.ref
    · rw [if_pos ht, ht]
      exact hshows
    · rw [if_neg ht, opsOn_snoc, op_of_ne (Ne.symm ht), Option.toList_none, List.append_nil]
      exact hr.shows t
  allocated f hf := by
    rw [hfresh]
    rcases List.mem_append.1 hf with hf | hf
    · exact hr.allocated f hf
    · rw [List.mem_singleton.1 hf]
      exact hr.allocated (.subscribed e.name e.ref) hname
  mapped n t ht := by
    rw [htopics] at ht
    obtain ⟨pre, hpre, hne⟩ := hr.mapped n t ht
    refine ⟨pre, ?_, hne⟩
    rw [since_snoc (hsub n), ← List.cons_append, ← List.append_assoc, ← hpre]
  current n t ht k d hmem := by
    rw [htopics] at ht
    rw [since_snoc (hsub n), List.mem_append, List.mem_singleton] at hmem
    rcases hmem with hmem | hmem
    · exact hr.current n t ht k d hmem
    · have hk := hcur n k d hmem.symm
      rw [ht, Option.some_inj] at hk
      exact hk.symm
  unmapped n hn f hf := by
    rw [htopics] at hn
    rcases List.mem_append.1 hf with hf | hf
    · exact hr.unmapped n hn f hf
    · rw [List.mem_singleton.1 hf]
      exact hr.unmapped n hn (.subscribed e.name e.ref) hname
  named f hf := by
    rcases List.mem_append.1 hf with hf | hf
    · exact List.mem_append_left _ (hr.named f hf)
    · rw [List.mem_singleton.1 hf]
      exact List.mem_append_left _ hname
  owned n m t hn hm := by
    have hold : ∀ k, .subscribed k t ∈ h ++ [e] → .subscribed k t ∈ h := by
      intro k hk
      rcases List.mem_append.1 hk with hk | hk
      · exact hk
      · have := hsub k
        rw [← List.mem_singleton.1 hk] at this
        simp [CacheEvent.subscribes] at this
    exact hr.owned n m t (hold n hn) (hold m hm)
  held i n wait t loop hi := List.mem_append_left _ (hheld i n wait t loop hi)

/-- A subscription makes a new entry; the old one of that name is left to whoever waits for it. -/
theorem subscribe (hr : Recorded h s) (n : CString) :
    Recorded (h ++ [.subscribed n s.c.fresh]) { s with c := s.c.subscribe n } where
  shows t := by
    have hop : opsOn t (h ++ [.subscribed n s.c.fresh]) = opsOn t h := by
      rw [opsOn_snoc]
      exact List.append_nil _
    rw [hop]
    by_cases ht : t = s.c.fresh
    · have hnil : opsOn t h = [] :=
        opsOn_eq_nil fun e he => Nat.ne_of_lt (ht ▸ hr.allocated e he)
      rw [hnil, ht]
      show Shows ((s.c.subscribe n).heap s.c.fresh) _
      rw [MyClient.heap_subscribe_fresh]
      exact shows_empty
    · have hheap : (s.c.subscribe n).heap t = s.c.heap t := if_neg ht
      rw [hheap]
      exact hr.shows t
  allocated e he := by
    show e.ref < s.c.fresh + 1
    rcases List.mem_append.1 he with he | he
    · exact Nat.lt_succ_of_lt (hr.allocated e he)
    · rw [List.mem_singleton.1 he]
      exact Nat.lt_succ_self _
  mapped m t hm := by
    rw [MyClient.getElem?_subscribe] at hm
    by_cases hmn : m = n
    · rw [if_pos hmn, Option.some_inj] at hm
      subst hm
      rw [hmn, since_subscribed]
      exact ⟨h, rfl, fun e he => Nat.ne_of_lt (hr.allocated e he)⟩
    · rw [if_neg hmn] at hm
      obtain ⟨pre, hpre, hne⟩ := hr.mapped m t hm
      refine ⟨pre, ?_, hne⟩
      have hsub : CacheEvent.subscribes m (.subscribed n s.c.fresh) = false := by
        simpa [CacheEvent.subscribes] using Ne.symm hmn
      rw [since_snoc hsub, ← List.cons_append, ← List.append_assoc, ← hpre]
  current m t hm k d hmem := by
    rw [MyClient.getElem?_subscribe] at hm
    by_cases hmn : m = n
    · rw [hmn, since_subscribed] at hmem
      exact absurd hmem List.not_mem_nil
    · rw [if_neg hmn] at hm
      have hsub : CacheEvent.subscribes m (.subscribed n s.c.fresh) = false := by
        simpa [CacheEvent.subscribes] using Ne.symm hmn
      rw [since_snoc hsub, List.mem_append, List.mem_singleton] at hmem
      rcases hmem with hmem | hmem
      · exact hr.current m t hm k d hmem
      · cases hmem
  unmapped m hm e he := by
    rw [MyClient.getElem?_subscribe] at hm
    by_cases hmn : m = n
    · rw [if_pos hmn] at hm
      cases hm
    · rw [if_neg hmn] at hm
      rcases List.mem_append.1 he with he | he
      · exact hr.unmapped m hm e he
      · rw [List.mem_singleton.1 he]
        exact Ne.symm hmn
  named e he := by
    rcases List.mem_append.1 he with he | he
    · exact List.mem_append_left _ (hr.named e he)
    · rw [List.mem_singleton.1 he]
      exact List.mem_append_right _ (List.mem_singleton_self _)
  owned m k t hm hk := by
    rcases List.mem_append.1 hm with hm | hm <;> rcases List.mem_append.1 hk with hk | hk
    · exact hr.owned m k t hm hk
    · cases List.mem_singleton.1 hk
      exact absurd (hr.allocated _ hm) (Nat.lt_irrefl _)
    · cases List.mem_singleton.1 hm
      exact absurd (hr.allocated _ hk) (Nat.lt_irrefl _)
    · cases List.mem_singleton.1 hm
      cases List.mem_singleton.1 hk
      rfl
  held i m wait t loop hi := List.mem_append_left _ (hr.held i m wait t loop hi)

end Recorded

/-! ## Every step -/

namespace MyClient

theorem notifications_notify {c : MyClient} {p msg : Bytes} {n : CString} {t : Ref}
    (htype : takeU32 p = some (scNotify, msg)) (hname : nameOfMsg p = .ok n)
    (ht : c.topics[n]? = some t) :
    c.notifications p = [.notified n t (Topic.fromMessage {} p false).1.d] := by
  simp only [notifications, htype, if_true, hname, ht]

theorem notifications_other {c : MyClient} {p : Bytes}
    (h : ∀ n, (∃ msg, takeU32 p = some (scNotify, msg)) → nameOfMsg p = .ok n → n ∉ c.topics) :
    c.notifications p = [] := by
  unfold notifications
  split
  · rfl
  · next type msg htype =>
    split
    · next hnotify =>
      split
      · rfl
      · next n hname =>
        have hn : c.topics[n]? = none :=
          ExtTreeMap.getElem?_eq_none (h n ⟨msg, hnotify ▸ htype⟩ hname)
        rw [hn]
    · rfl

end MyClient

namespace Recorded
variable {ι : Type} [DecidableEq ι] {h : List CacheEvent} {s s' : Process ι}

theorem held_setThread (hr : Recorded h s) (i : ι) {x : Thread}
    (hx : ∀ n wait t loop, x = .waiting n wait t loop → .subscribed n t ∈ h) (j : ι) (n : CString)
    (wait : Wait) (t : Ref) (loop : Loop)
    (hj : (s.setThread i x).threads j = .waiting n wait t loop) : .subscribed n t ∈ h := by
  by_cases hji : j = i
  · rw [hji, Process.setThread_self] at hj
    exact hx n wait t loop hj
  · rw [Process.setThread_ne s x hji] at hj
    exact hr.held j n wait t loop hj

theorem ends (hr : Recorded h s) (i : ι) {n : CString} {wait : Wait} {t : Option Ref}
    {r : MyClient × GetStep} (hst : MyClient.Stretch s.c t r)
    (ht : ∀ k, t = some k → .subscribed n k ∈ h) :
    Recorded (h ++ copies n wait t r.2) (s.ends i n wait r) := by
  cases hst with
  | returns t w rv hrv =>
    have hnil : copies n wait t (.returns rv) = [] := by
      cases t with
      | none => rfl
      | some k => rw [copies, hrv, if_neg (by decide)]
    rw [hnil, List.append_nil]
    exact hr.quiet rfl rfl rfl (hr.held_setThread i fun _ _ _ _ he => by cases he)
  | waits k w loop =>
    show Recorded (h ++ []) _
    rw [List.append_nil]
    refine hr.quiet rfl rfl rfl (hr.held_setThread i fun m wait' k' loop' he => ?_)
    cases he
    exact ht k rfl
  | takes k hdata =>
    have hshows := hr.shows k
    rw [MyClient.take, copies]
    dsimp only
    rw [if_pos (hshows.isValid hdata)]
    refine hr.event (x := { s.c.heap k with state := .unchanged }) rfl rfl rfl
      (fun j m wait' k' loop' hj => ?_) (fun m => rfl) (ht k rfl) (fun m k' d he => ?_) ?_
    · have hx : ∀ n wait t loop, Thread.returned (s.c.heap k) = .waiting n wait t loop →
          .subscribed n t ∈ h := fun _ _ _ _ he => by cases he
      exact hr.held_setThread i hx j m wait' k' loop' hj
    · cases he
    · have hop : (CacheEvent.copied n wait k (s.c.heap k)).op k = some .read := if_pos rfl
      show Shows _ (Cell.run (opsOn k (h ++ [.copied n wait k (s.c.heap k)])))
      rw [opsOn_snoc, hop, Option.toList_some, Cell.run_snoc]
      exact hshows.read hdata

theorem received_threads (s : Process ι) (c : MyClient) (signal : Bool) (who : Option ι) :
    (s.received c signal who).threads = s.threads := by
  unfold Process.received
  split <;> rfl

theorem packet (hr : Recorded h s) {p : Bytes} {c : MyClient} {signal : Bool} {who : Option ι}
    (hp : MyClient.Processed s.c p (c, signal, none)) :
    Recorded (h ++ s.c.notifications p) (s.received c signal who) := by
  have hc : (s.received c signal who).c = c := (Process.received_c s c signal who).1
  have hheld : ∀ i n wait t loop, (s.received c signal who).threads i = .waiting n wait t loop →
      .subscribed n t ∈ h := by
    rw [received_threads]
    exact hr.held
  cases hp with
  | ignores hno _ =>
    rw [MyClient.notifications_other hno, List.append_nil]
    exact hr.quiet (by rw [hc]) (by rw [hc]) (by rw [hc]) hheld
  | kills msg htype =>
    have hno : s.c.notifications p = [] := by
      refine MyClient.notifications_other fun n hn _ => ?_
      obtain ⟨msg', hmsg⟩ := hn
      rw [htype] at hmsg
      cases hmsg
    rw [hno, List.append_nil]
    exact hr.quiet (by rw [hc]) (by rw [hc]) (by rw [hc]) hheld
  | notifies msg htype n hname t ht x hx hd w _ =>
    have hop : (CacheEvent.notified n t (Topic.fromMessage {} p false).1.d).op t =
        some (.write (Topic.fromMessage {} p false).1.d) := if_pos rfl
    rw [MyClient.notifications_notify htype hname ht]
    refine hr.event (x := x) (by rw [hc]; rfl) (by rw [hc]; rfl) (by rw [hc]; rfl) hheld (fun _ => rfl)
      (hr.mem_of_mapped ht) (fun m k d he => ?_) ?_
    · cases he
      exact ht
    · show Shows x (Cell.run (opsOn t (h ++ [.notified n t _])))
      rw [opsOn_snoc, hop, Option.toList_some, Cell.run_snoc]
      rw [fromMessage_eq] at hd
      exact Shows.write hd hx _

/-- **Every step keeps the record.** -/
theorem step (hr : Recorded h s) {a : Label ι} (hstep : s.step a = some s') :
    Recorded (h ++ s.emits a) s' := by
  have hmove := Process.step_moves hstep
  cases a with
  | lock i =>
    simp only [Process.step] at hstep
    split at hstep
    · next n wait hi =>
      rw [← Option.some_inj.1 hstep]
      simp only [Process.emits, hi]
      exact hr.ends i (MyClient.getLocked_stretch s.c n wait) fun k hk => hr.mem_of_mapped hk
    · cases hstep
  | resume i =>
    simp only [Process.step] at hstep
    split at hstep
    · cases hstep
    · split at hstep
      · next n wait t loop hi =>
        rw [← Option.some_inj.1 hstep]
        simp only [Process.emits, hi]
        refine hr.ends i (MyClient.getWoken_stretch s.c n t loop) fun k hk => ?_
        rw [← Option.some_inj.1 hk]
        exact hr.held i n wait t loop hi
      · next hi =>
        rw [← Option.some_inj.1 hstep]
        simp only [Process.emits, hi, List.append_nil]
        exact hr.quiet rfl rfl rfl (hr.held_setThread i fun _ _ _ _ he => by cases he)
      · cases hstep
  | subscribe n =>
    cases hmove
    exact hr.subscribe n
  | packet p now who =>
    cases hmove with
    | receives _ _ _ c signal _ _ hc _ => exact hr.packet hc
  | get i n wait =>
    show Recorded (h ++ []) s'
    rw [List.append_nil]
    cases hmove <;> exact hr.quiet rfl rfl rfl (hr.held_setThread i fun _ _ _ _ he => by cases he)
  | waitForAny i =>
    show Recorded (h ++ []) s'
    rw [List.append_nil]
    cases hmove
    exact hr.quiet rfl rfl rfl (hr.held_setThread i fun _ _ _ _ he => by cases he)
  | spurious | hangup | leave | finish =>
    show Recorded (h ++ []) s'
    rw [List.append_nil]
    cases hmove
    exact hr.quiet rfl rfl rfl hr.held

theorem run {es : List (Label ι)} (h : Run.exec Process.step Process.start es = some s) :
    Recorded (Run.trace Process.step Process.emits Process.start es) s :=
  Run.invariant_trace (h := []) (fun _ _ _ _ hr hstep => hr.step hstep) Recorded.start h

end Recorded

end DiamondApparatus
