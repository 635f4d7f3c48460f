import DiamondApparatus.Client.History

/-!
# The state of a cached topic

* `opsOn_since`, `written_opsOn` : what was done to an entry of the map lies behind its subscription,
  and was written by the notifications of its name;
* `fresh_iff` : a topic is fresh when a notification comes behind all copies of it;
* `cache_reachable` : the data and the state of every entry, read off the history.
-/

namespace DiamondApparatus
open Lib Std

/-! ## Reading an entry's history -/

theorem read_mem_opsOn {t : Ref} {h : List CacheEvent} :
    .read ∈ opsOn t h ↔ ∃ n wait rv, .copied n wait t rv ∈ h := by
  rw [opsOn, List.mem_filterMap]
  constructor
  · rintro ⟨e, he, hop⟩
    cases e with
    | subscribed n k => cases hop
    | notified n k d =>
      obtain ⟨-, hop⟩ := Option.ite_none_right_eq_some.1 hop
      cases hop
    | copied n wait k rv =>
      obtain ⟨hk, -⟩ := Option.ite_none_right_eq_some.1 hop
      exact ⟨n, wait, rv, hk ▸ he⟩
  · rintro ⟨n, wait, rv, he⟩
    exact ⟨_, he, if_pos rfl⟩

/-- The event behind a write, and what was done to the topic around it. -/
theorem opsOn_eq_append_write {t : Ref} {h : List CacheEvent} {d : List Datum}
    {xs ys : List (Cell.Op (List Datum))} (he : opsOn t h = xs ++ .write d :: ys) :
    ∃ pre n post, h = pre ++ .notified n t d :: post ∧ opsOn t pre = xs ∧ opsOn t post = ys := by
  obtain ⟨pre, rest, rfl, hpre, hrest⟩ := List.filterMap_eq_append_iff.1 he
  obtain ⟨quiet, e, post, rfl, hquiet, hop, hpost⟩ := List.filterMap_eq_cons_iff.1 hrest
  cases e with
  | subscribed n k => cases hop
  | copied n wait k rv =>
    obtain ⟨-, hop⟩ := Option.ite_none_right_eq_some.1 hop
    cases hop
  | notified n k d' =>
    obtain ⟨hk, hop⟩ := Option.ite_none_right_eq_some.1 hop
    cases hop
    refine ⟨pre ++ quiet, n, post, by rw [hk, List.append_assoc], ?_, hpost⟩
    rw [opsOn, List.filterMap_append, hpre, List.filterMap_eq_nil_iff.2 hquiet, List.append_nil]

theorem fresh_iff {t : Ref} {h : List CacheEvent} : (Cell.run (opsOn t h)).fresh = true ↔
    ∃ xs n d ys, h = xs ++ .notified n t d :: ys ∧ ∀ m wait rv, .copied m wait t rv ∉ ys := by
  rw [Cell.run_fresh]
  constructor
  · rintro ⟨xs, d, ys, he, hread⟩
    obtain ⟨pre, n, post, rfl, -, rfl⟩ := opsOn_eq_append_write he
    exact ⟨pre, n, d, post, rfl, fun m wait rv hm => hread (read_mem_opsOn.2 ⟨m, wait, rv, hm⟩)⟩
  · rintro ⟨xs, n, d, ys, rfl, hread⟩
    have hop : (CacheEvent.notified n t d).op t = some (.write d) := if_pos rfl
    refine ⟨opsOn t xs, d, opsOn t ys, ?_, fun hmem => ?_⟩
    · rw [opsOn, List.filterMap_append, List.filterMap_cons, hop]
      rfl
    · obtain ⟨m, wait, rv, hm⟩ := read_mem_opsOn.1 hmem
      exact hread m wait rv hm

namespace Recorded
variable {ι : Type} {h : List CacheEvent} {s : Process ι} {n : CString} {t : Ref}

theorem opsOn_since (hr : Recorded h s) (ht : s.c.topics[n]? = some t) :
    opsOn t h = opsOn t (since n h) := by
  obtain ⟨pre, hpre, hne⟩ := hr.mapped n t ht
  have hnil : opsOn t pre = [] := opsOn_eq_nil hne
  conv_lhs => rw [hpre]
  rw [opsOn, List.filterMap_append, List.filterMap_cons]
  show opsOn t pre ++ opsOn t (since n h) = _
  rw [hnil, List.nil_append]

/-- The last subscription of a name that is in the map made its entry. -/
theorem mem_since (ht : s.c.topics[n]? = some t) (hr : Recorded h s) {m : CString} {k : Ref}
    {d : List Datum} (hmem : .notified m k d ∈ since n h) : m = n ↔ k = t := by
  constructor
  · rintro rfl
    exact hr.current m t ht k d hmem
  · rintro rfl
    have hh : .notified m k d ∈ h := List.rtakeWhile_suffix _ _ |>.subset hmem
    exact hr.owned m n k (hr.named _ hh) (hr.mem_of_mapped ht)

theorem written_opsOn (hr : Recorded h s) (ht : s.c.topics[n]? = some t) :
    (opsOn t h).filterMap Cell.Op.written = notifies n (since n h) := by
  rw [hr.opsOn_since ht, opsOn, notifies, List.filterMap_filterMap]
  refine List.filterMap_congr fun e he => ?_
  cases e with
  | subscribed m k => rfl
  | copied m wait k rv =>
    by_cases hk : k = t <;> simp [CacheEvent.op, CacheEvent.news, Cell.Op.written, hk]
  | notified m k d =>
    have hmk := mem_since ht hr he
    by_cases hk : k = t <;> simp [CacheEvent.op, CacheEvent.news, Cell.Op.written, hk, hmk]

theorem value_eq (hr : Recorded h s) (ht : s.c.topics[n]? = some t) :
    (Cell.run (opsOn t h)).value = (notifies n (since n h)).getLast? := by
  rw [Cell.run_value, hr.written_opsOn ht]

theorem nodata_iff (hr : Recorded h s) (ht : s.c.topics[n]? = some t) :
    (s.c.heap t).state = .nodata ↔ notifies n (since n h) = [] := by
  rw [(hr.shows t).nodata_iff, hr.value_eq ht, List.getLast?_eq_none_iff]

theorem changed_iff (hr : Recorded h s) (ht : s.c.topics[n]? = some t) :
    (s.c.heap t).state = .changed ↔ ∃ xs d ys, since n h = xs ++ .notified n t d :: ys ∧
      ∀ m wait rv, .copied m wait t rv ∉ ys := by
  rw [(hr.shows t).changed_iff]
  constructor
  · rintro ⟨-, hfresh⟩
    rw [hr.opsOn_since ht] at hfresh
    obtain ⟨xs, m, d, ys, he, hread⟩ := fresh_iff.1 hfresh
    have hmem : .notified m t d ∈ since n h := by
      rw [he]
      simp
    exact ⟨xs, d, ys, (mem_since ht hr hmem).2 rfl ▸ he, hread⟩
  · rintro ⟨xs, d, ys, he, hread⟩
    refine ⟨?_, ?_⟩
    · rw [hr.value_eq ht, ne_eq, List.getLast?_eq_none_iff, he]
      simp [notifies, CacheEvent.news]
    · rw [hr.opsOn_since ht]
      exact fresh_iff.2 ⟨xs, n, d, ys, he, hread⟩

theorem unchanged_iff (hr : Recorded h s) (t : Ref) :
    (s.c.heap t).state = .unchanged ↔ (s.c.heap t).state ≠ .nodata ∧ (s.c.heap t).state ≠ .changed := by
  rw [(hr.shows t).state, stateFor]
  cases (Cell.run (opsOn t h)).value with
  | none => simp
  | some d => cases (Cell.run (opsOn t h)).fresh <;> simp

end Recorded

/-! ## Copies and notifications -/

namespace Process
variable {ι : Type} [DecidableEq ι] {s s' : Process ι} {a : Label ι}

def InGet (s : Process ι) (i : ι) (n : CString) (wait : Wait) : Prop :=
  s.threads i = .entered n wait ∨ ∃ t loop, s.threads i = .waiting n wait t loop

theorem ends_returned {i : ι} {n : CString} {wait : Wait} {r : MyClient × GetStep} {rv : Topic} :
    (s.ends i n wait r).threads i = .returned rv ↔ r.2 = .returns rv := by
  obtain ⟨c, g⟩ := r
  cases g with
  | returns x => simp [ends]
  | waits t loop => simp [ends]

theorem step_stretch {i : ι} (ha : a = .lock i ∨ a = .resume i) (h : s.step a = some s')
    (hany : s.threads i ≠ .waitingAny) :
    ∃ n wait k r, s.InGet i n wait ∧ MyClient.Stretch s.c k r ∧ s.emits a = copies n wait k r.2 ∧
      s' = s.ends i n wait r := by
  rcases ha with rfl | rfl
  · simp only [step] at h
    split at h
    · next n wait hi =>
      refine ⟨n, wait, _, _, Or.inl hi, MyClient.getLocked_stretch s.c n wait, ?_,
        (Option.some_inj.1 h).symm⟩
      simp only [emits, hi]
    · cases h
  · simp only [step] at h
    split at h
    · cases h
    · split at h
      · next n wait t loop hi =>
        refine ⟨n, wait, _, _, Or.inr ⟨t, loop, hi⟩, MyClient.getWoken_stretch s.c n t loop, ?_,
          (Option.some_inj.1 h).symm⟩
        simp only [emits, hi]
      · next hi => exact absurd hi hany
      · cases h

theorem copied_step (h : s.step a = some s') {n : CString} {wait : Wait} {t : Ref} {rv : Topic}
    (hmem : .copied n wait t rv ∈ s.emits a) : rv = s.c.heap t ∧
      s'.c.heap = (s.c.store t { s.c.heap t with state := .unchanged }).heap ∧
      ∃ i, (a = .lock i ∨ a = .resume i) ∧ s'.threads i = .returned rv := by
  have hstretch : ∀ i, (a = .lock i ∨ a = .resume i) → s.threads i ≠ .waitingAny →
      rv = s.c.heap t ∧ s'.c.heap = (s.c.store t { s.c.heap t with state := .unchanged }).heap ∧
      ∃ i, (a = .lock i ∨ a = .resume i) ∧ s'.threads i = .returned rv := by
    intro i ha hany
    obtain ⟨m, w, k, r, -, hst, hemits, rfl⟩ := step_stretch ha h hany
    rw [hemits] at hmem
    obtain ⟨-, -, -, -, hrv, hret, hheap⟩ := hst.copied hmem
    refine ⟨hrv, ?_, i, ha, ends_returned.2 hret⟩
    rw [ends_c]
    exact hheap
  cases a with
  | lock i =>
    refine hstretch i (Or.inl rfl) fun hi => ?_
    simp [emits, hi] at hmem
  | resume i =>
    refine hstretch i (Or.inr rfl) fun hi => ?_
    simp [emits, hi] at hmem
  | subscribe m => exact absurd (List.mem_singleton.1 hmem) (by simp)
  | packet p now who =>
    exfalso
    simp only [emits, MyClient.notifications] at hmem
    repeat' split at hmem
    all_goals simp at hmem
  | get | spurious | waitForAny | hangup | leave | finish => exact absurd hmem List.not_mem_nil

/-- A copy is of an entry that the map has, or that a thread waited on; and it has data. -/
theorem copied_entry {P : CString → Ref → Prop}
    (hmap : ∀ (n : CString) (t : Ref), s.c.topics[n]? = some t → P n t)
    (hwait : ∀ i n wait t loop, s.threads i = .waiting n wait t loop → P n t)
    (hstep : s.step a = some s') {n : CString} {wait : Wait} {t : Ref} {rv : Topic}
    (hmem : .copied n wait t rv ∈ s.emits a) : P n t ∧ (s.c.heap t).state ≠ .nodata := by
  obtain ⟨-, -, i, ha, -⟩ := copied_step hstep hmem
  rcases ha with rfl | rfl <;> simp only [emits] at hmem <;> split at hmem
  · next m w hi =>
    obtain ⟨rfl, -, ht, hdata, -⟩ := (MyClient.getLocked_stretch s.c m w).copied hmem
    exact ⟨hmap m t ht, hdata⟩
  · exact absurd hmem List.not_mem_nil
  · next m w k loop hi =>
    obtain ⟨rfl, -, hk, hdata, -⟩ := (MyClient.getWoken_stretch s.c m k loop).copied hmem
    rw [Option.some_inj] at hk
    exact ⟨hwait i m w t loop (hk ▸ hi), hdata⟩
  · exact absurd hmem List.not_mem_nil

theorem copied_held {h : List CacheEvent} (hr : Recorded h s) (hstep : s.step a = some s') {n : CString}
    {wait : Wait} {t : Ref} {rv : Topic} (hmem : .copied n wait t rv ∈ s.emits a) :
    .subscribed n t ∈ h ∧ (s.c.heap t).state ≠ .nodata :=
  copied_entry (P := fun n t => .subscribed n t ∈ h) (fun _ _ => hr.mem_of_mapped) hr.held hstep hmem

theorem returned_step {i : ι} (ha : a = .lock i ∨ a = .resume i) (h : s.step a = some s') {rv : Topic}
    (hret : s'.threads i = .returned rv) (hvalid : rv.isValid = true) :
    ∃ n wait t, s.InGet i n wait ∧ .copied n wait t rv ∈ s.emits a := by
  have hany : s.threads i ≠ .waitingAny := by
    intro hi
    rcases ha with rfl | rfl
    · simp [step, hi] at h
    · simp only [step, hi] at h
      split at h
      · cases h
      · rw [← Option.some_inj.1 h, setThread_self] at hret
        cases hret
  obtain ⟨n, wait, k, r, hin, hst, hemits, rfl⟩ := step_stretch ha h hany
  obtain ⟨t, ht⟩ := hst.returned (ends_returned.1 hret) hvalid n wait
  exact ⟨n, wait, t, hin, hemits ▸ ht⟩

omit [DecidableEq ι] in
theorem emits_cases (s : Process ι) (a : Label ι) : s.emits a = [] ∨ ∃ e, s.emits a = [e] := by
  have hcopies : ∀ (n : CString) (wait : Wait) (k : Option Ref) (g : GetStep),
      copies n wait k g = [] ∨ ∃ e, copies n wait k g = [e] := by
    intro n wait k g
    unfold copies
    split
    · split
      · exact Or.inr ⟨_, rfl⟩
      · exact Or.inl rfl
    · exact Or.inl rfl
  unfold emits
  split
  · exact Or.inr ⟨_, rfl⟩
  · unfold MyClient.notifications
    repeat' split
    all_goals first | exact Or.inl rfl | exact Or.inr ⟨_, rfl⟩
  · split
    · exact hcopies _ _ _ _
    · exact Or.inl rfl
  · split
    · exact hcopies _ _ _ _
    · exact Or.inl rfl
  · exact Or.inl rfl

/-- A notification touches the entry of its own name only. -/
theorem packet_frame {p msg : Bytes} {now : Clock} {who : Option ι} (hstep : s.step (.packet p now who) = some s')
    (htype : takeU32 p = some (scNotify, msg)) {m : CString} (hm : nameOfMsg p = .ok m) :
    s'.c.topics = s.c.topics ∧ ∀ t, s.c.topics[m]? ≠ some t → s'.c.heap t = s.c.heap t := by
  cases step_moves hstep with
  | receives _ _ _ c signal _ _ hc _ =>
    rw [(received_c s c signal who).1]
    cases hc with
    | ignores _ _ => exact ⟨rfl, fun _ _ => rfl⟩
    | kills _ hkill =>
      rw [htype] at hkill
      cases hkill
    | notifies _ _ n hn k hk x _ _ _ _ =>
      rw [hm, Except.ok.injEq] at hn
      subst hn
      refine ⟨rfl, fun t ht => if_neg ?_⟩
      rintro rfl
      exact ht hk

/-- **The client's cache is the history since the last subscription**, whatever the threads do. -/
theorem cache_reachable (es : List (Label ι)) (s : Process ι) (hrun : Run.exec step start es = some s) :
    let h := Run.trace step emits start es
    (∀ (n : CString) (t : Ref), s.c.topics[n]? = some t →
      (∃ pre, h = pre ++ .subscribed n t :: since n h) ∧
      (s.c.heap t).d = (notifies n (since n h)).getLast?.getD [] ∧
      ((s.c.heap t).state = .nodata ↔ notifies n (since n h) = []) ∧
      ((s.c.heap t).state = .changed ↔ ∃ xs d ys, since n h = xs ++ .notified n t d :: ys ∧
        ∀ m wait rv, .copied m wait t rv ∉ ys) ∧
      ((s.c.heap t).state = .unchanged ↔ (s.c.heap t).state ≠ .nodata ∧
        (s.c.heap t).state ≠ .changed)) ∧
    (∀ a s', s.step a = some s' →
      (∀ n wait t rv, .copied n wait t rv ∈ s.emits a → rv = s.c.heap t ∧
        s'.c.heap = (s.c.store t { s.c.heap t with state := .unchanged }).heap ∧
        ∃ i, (a = .lock i ∨ a = .resume i) ∧ s'.threads i = .returned rv) ∧
      ∀ i rv, a = .lock i ∨ a = .resume i → s'.threads i = .returned rv → rv.isValid = true →
        ∃ n wait t, s.InGet i n wait ∧ .copied n wait t rv ∈ s.emits a) ∧
    ∀ p now who s' msg m, s.step (.packet p now who) = some s' →
      takeU32 p = some (scNotify, msg) → nameOfMsg p = .ok m →
      s'.c.topics = s.c.topics ∧
      (∀ (n : CString) (t : Ref), s.c.topics[n]? = some t → m ≠ n → s'.c.heap t = s.c.heap t) ∧
      (m ∉ s.c.topics → s'.c.heap = s.c.heap) ∧
      ∀ t, s.c.topics[m]? = some t →
        s.emits (.packet p now who) = [.notified m t (Topic.fromMessage {} p false).1.d] := by
  intro h
  have hr : Recorded h s := Recorded.run hrun
  refine ⟨fun n t ht => ?_, fun a s' hstep => ⟨fun n wait t rv hmem => copied_step hstep hmem,
    fun i rv ha hret hvalid => returned_step ha hstep hret hvalid⟩,
    fun p now who s' msg m hstep htype hm => ?_⟩
  · obtain ⟨pre, hpre, -⟩ := hr.mapped n t ht
    refine ⟨⟨pre, hpre⟩, ?_, hr.nodata_iff ht, hr.changed_iff ht, hr.unchanged_iff t⟩
    rw [(hr.shows t).d, hr.value_eq ht]
  · obtain ⟨htopics, hheap⟩ := packet_frame hstep htype hm
    refine ⟨htopics, fun n t ht hne => hheap t fun hmt => ?_, fun hno => funext fun t => hheap t ?_,
      fun t ht => MyClient.notifications_notify htype hm ht⟩
    · exact hne (hr.owned m n t (hr.mem_of_mapped hmt) (hr.mem_of_mapped ht))
    · rw [ExtTreeMap.getElem?_eq_none hno]
      exact fun he => nomatch he

/-- A subscription of 'a', two notifications, and a `get` between them. -/
def readOnce : List (Label Unit) :=
  let a := CString.ofString "a"
  [.subscribe a, .packet (message [.float 7] scNotify a) 1 none, .get () a .none, .lock (),
    .packet (message [.float 8] scNotify a) 2 none]

theorem cache_reachable_readOnce :
    ∃ s, Run.exec step start readOnce = some s ∧
      let h := Run.trace step emits start readOnce
      (s.c.heap 0).d = (notifies (.ofString "a") (since (.ofString "a") h)).getLast?.getD [] ∧
        (s.c.heap 0).d = [.float 8] ∧ (s.c.heap 0).state = .changed := by
  have hrun : (Run.exec step start readOnce).map
      (fun s => (s.c.topics[CString.ofString "a"]?, (s.c.heap 0).d, (s.c.heap 0).state)) =
      some (some 0, [.float 8], .changed) := by
    decide +kernel
  obtain ⟨s, hs, he⟩ := Option.map_eq_some_iff.1 hrun
  simp only [Prod.mk.injEq] at he
  obtain ⟨ht, hd, hstate⟩ := he
  exact ⟨s, hs, ((cache_reachable readOnce s hs).1 _ 0 ht).2.1, hd, hstate⟩

end Process

end DiamondApparatus
