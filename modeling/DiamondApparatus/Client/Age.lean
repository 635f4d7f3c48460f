import DiamondApparatus.System.Provenance

/-!
# The age of a topic

* `Topic.age` : `age()`, in ticks;
* `Process.stamps` : the notifications that are stored, each with its entry and the clock;
* `Dated log s` : the items and the time of every entry are those of its last stamp. `dated_run` : so it is in
  every run;
* `age_exact` : the age of what `get()` returned counts from the last notification before the copy.
-/

namespace DiamondApparatus
open Lib Std

/-- `age()`, and `-1` for a topic that was never set. -/
def Topic.age (t : Topic) (now : Clock) : Int :=
  match t.timeLastSet with
  | none => -1
  | some last => now - last

/-- The items of a topic that was set, and when. -/
def Topic.stamp (t : Topic) : Option (List Datum × Clock) := t.timeLastSet.map fun now => (t.d, now)

def CacheEvent.stamp (now : Clock) : CacheEvent → Option (Ref × List Datum × Clock)
  | notified _ k d => some (k, d, now)
  | _ => none

def lastStamp (t : Ref) (log : List (Ref × List Datum × Clock)) : Option (List Datum × Clock) :=
  (log.filterMap fun x => if x.1 = t then some x.2 else none).getLast?

theorem lastStamp_append (t : Ref) (log more : List (Ref × List Datum × Clock)) :
    lastStamp t (log ++ more) = (lastStamp t more).or (lastStamp t log) := by
  rw [lastStamp, List.filterMap_append, List.getLast?_append]
  rfl

namespace MyClient
variable {c c' : MyClient} {p : Bytes} {now : Clock} {signal : Bool}

/-- What a packet does to the entries: a notification sets the one of its name. -/
inductive Sets (c : MyClient) (p : Bytes) (now : Clock) (c' : MyClient) : Prop
  | leaves (hheap : c'.heap = c.heap) (hnews : c.notifications p = [])
  | sets (n : CString) (k : Ref) (x : Topic) (hk : c.topics[n]? = some k)
      (hheap : c'.heap = (c.store k { x with state := .changed, timeLastSet := some now }).heap)
      (hnews : c.notifications p = [.notified n k x.d])

theorem process_sets (h : c.process p now = (c', signal, none)) : c'.fresh = c.fresh ∧ Sets c p now c' := by
  cases htype : takeU32 p with
  | none =>
    simp only [process, htype] at h
    cases h
  | some tm =>
    obtain ⟨type, msg⟩ := tm
    by_cases hnotify : type = scNotify
    · subst hnotify
      have hno : scNotify ≠ scKillclient := by decide
      simp only [process, htype, hno, false_and, if_false, if_true] at h
      cases hname : nameOfMsg p with
      | error e =>
        simp only [notify, hname] at h
        cases h
      | ok n =>
        cases ht : c.topics[n]? with
        | none =>
          simp only [notify, hname, ht] at h
          cases h
          exact ⟨rfl, .leaves rfl (by simp only [notifications, htype, if_true, hname, ht])⟩
        | some k =>
          simp only [notify, hname, ht] at h
          cases hx : (c.heap k).fromMessage p false with
          | mk x r =>
            rw [hx] at h
            cases r with
            | error e => cases h
            | ok l =>
              have hd : x.d = (Topic.fromMessage {} p false).1.d := by
                have hfrom := congrArg (fun o => Topic.d (Prod.fst o)) hx
                rw [← hfrom, fromMessage_eq]
              have hnews := notifications_notify htype hname ht
              rw [← hd] at hnews
              dsimp only at h
              split at h <;> cases h <;> exact ⟨rfl, .sets n k x ht rfl hnews⟩
    · have hno : c.notifications p = [] := by simp only [notifications, htype, if_neg hnotify]
      simp only [process, htype, if_neg hnotify] at h
      have hc := congrArg Prod.fst h
      dsimp only at hc
      rw [← hc]
      refine ⟨?_, .leaves ?_ hno⟩ <;> by_cases hkill : type = scKillclient <;>
        cases c.waittopic.isSome <;> simp [hkill]

theorem Stretch.entries {k : Option Ref} {r : MyClient × GetStep} (h : Stretch c k r) :
    r.1.fresh = c.fresh ∧ ∀ t, (r.1.heap t).stamp = (c.heap t).stamp ∧
      ((r.1.heap t).state ≠ .nodata → (c.heap t).state ≠ .nodata) := by
  cases h with
  | returns t w rv hrv => exact ⟨rfl, fun _ => ⟨rfl, id⟩⟩
  | waits t w loop => exact ⟨rfl, fun _ => ⟨rfl, id⟩⟩
  | takes k hdata =>
    refine ⟨rfl, fun t => ?_⟩
    show ((if t = k then { c.heap k with state := .unchanged } else c.heap t : Topic).stamp = _) ∧
      ((if t = k then { c.heap k with state := .unchanged } else c.heap t : Topic).state ≠ _ → _)
    by_cases ht : t = k
    · rw [if_pos ht, ht]
      exact ⟨rfl, fun _ => hdata⟩
    · rw [if_neg ht]
      exact ⟨rfl, id⟩

end MyClient

namespace Process
variable {ι : Type} {s s' : Process ι} {a : Label ι} {log : List (Ref × List Datum × Clock)}

/-- The notifications that a step stores. -/
def stamps (s : Process ι) : Label ι → List (Ref × List Datum × Clock)
  | .packet p now _ => (s.c.notifications p).filterMap (CacheEvent.stamp now)
  | _ => []

/-- The items and the time of every entry are those of its last stamp. -/
structure Dated (log : List (Ref × List Datum × Clock)) (s : Process ι) : Prop where
  last : ∀ t, (s.c.heap t).stamp = lastStamp t log
  set : ∀ t, (s.c.heap t).state ≠ .nodata → (s.c.heap t).stamp ≠ none
  unused : ∀ t, s.c.fresh ≤ t → (s.c.heap t).stamp = none
  allocated : ∀ (n : CString) (t : Ref), s.c.topics[n]? = some t → t < s.c.fresh

theorem Dated.start : Dated [] (Process.start : Process ι) where
  last _ := rfl
  set _ h := absurd rfl h
  unused _ _ := rfl
  allocated n t h := by simp [Process.start] at h

theorem Dated.stays (h : Dated log s) (htopics : s'.c.topics = s.c.topics) (hfresh : s'.c.fresh = s.c.fresh)
    (hheap : ∀ t, (s'.c.heap t).stamp = (s.c.heap t).stamp ∧
      ((s'.c.heap t).state ≠ .nodata → (s.c.heap t).state ≠ .nodata)) : Dated log s' where
  last t := (hheap t).1.trans (h.last t)
  set t ht := (hheap t).1.symm ▸ h.set t ((hheap t).2 ht)
  unused t ht := (hheap t).1.trans (h.unused t (hfresh ▸ ht))
  allocated n t ht := hfresh.symm ▸ h.allocated n t (htopics ▸ ht)

theorem Dated.subscribe (h : Dated log s) (n : CString) : Dated log { s with c := s.c.subscribe n } where
  last t := by
    show (if t = s.c.fresh then ({} : Topic) else s.c.heap t).stamp = _
    by_cases ht : t = s.c.fresh
    · rw [if_pos ht, ← h.last t, h.unused t (Nat.le_of_eq ht.symm)]
      rfl
    · rw [if_neg ht]
      exact h.last t
  set t := by
    show (if t = s.c.fresh then ({} : Topic) else s.c.heap t).state ≠ .nodata →
      (if t = s.c.fresh then ({} : Topic) else s.c.heap t).stamp ≠ none
    by_cases ht : t = s.c.fresh
    · rw [if_pos ht]
      exact absurd rfl
    · rw [if_neg ht]
      exact h.set t
  unused t ht := by
    have hlt : s.c.fresh < t := ht
    show (if t = s.c.fresh then ({} : Topic) else s.c.heap t).stamp = none
    rw [if_neg (Nat.ne_of_gt hlt)]
    exact h.unused t (Nat.le_of_lt hlt)
  allocated m t ht := by
    show t < s.c.fresh + 1
    have hinsert : (s.c.topics.insert n s.c.fresh)[m]? = some t := ht
    rw [ExtTreeMap.getElem?_insert] at hinsert
    split at hinsert
    · exact Option.some_inj.1 hinsert ▸ Nat.lt_succ_self _
    · exact Nat.lt_succ_of_lt (h.allocated m t hinsert)

theorem Dated.packet (h : Dated log s) {p : Bytes} {now : Clock} {c : MyClient} {signal : Bool}
    (hp : s.c.process p now = (c, signal, none)) (htopics : c.topics = s.c.topics) (hc : s'.c = c) :
    Dated (log ++ (s.c.notifications p).filterMap (CacheEvent.stamp now)) s' := by
  obtain ⟨hfresh, hsets⟩ := MyClient.process_sets hp
  cases hsets with
  | leaves hheap hnews =>
    rw [hnews, List.filterMap_nil, List.append_nil]
    exact h.stays (hc ▸ htopics) (hc ▸ hfresh) fun t => by rw [hc, hheap]; exact ⟨rfl, id⟩
  | sets n k x hk hheap hnews =>
    have hentry : ∀ t, s'.c.heap t =
        if t = k then { x with state := .changed, timeLastSet := some now } else s.c.heap t := by
      intro t
      rw [hc, hheap]
      rfl
    have hone : ∀ t, lastStamp t ([CacheEvent.notified n k x.d].filterMap (CacheEvent.stamp now)) =
        if k = t then some (x.d, now) else none := by
      intro t
      show ([(k, x.d, now)].filterMap fun x => if x.1 = t then some x.2 else none).getLast? = _
      by_cases ht : k = t <;> simp [ht]
    rw [hnews]
    refine ⟨fun t => ?_, fun t => ?_, fun t ht => ?_, fun m t ht => ?_⟩
    · rw [lastStamp_append, hone, hentry]
      by_cases ht : t = k
      · rw [if_pos ht, if_pos ht.symm]
        rfl
      · rw [if_neg ht, if_neg (Ne.symm ht), Option.none_or]
        exact h.last t
    · rw [hentry]
      by_cases ht : t = k
      · rw [if_pos ht]
        intro _ hnone
        cases hnone
      · rw [if_neg ht]
        exact h.set t
    · have hlt := h.allocated n k hk
      rw [hc, hfresh] at ht
      rw [hentry, if_neg (Nat.ne_of_gt (Nat.lt_of_lt_of_le hlt ht))]
      exact h.unused t ht
    · rw [hc, htopics] at ht
      rw [hc, hfresh]
      exact h.allocated m t ht

variable [DecidableEq ι]

/-- **Every step keeps the dates.** -/
theorem Dated.step (h : Dated log s) (hstep : s.step a = some s') : Dated (log ++ s.stamps a) s' := by
  have hquiet : ∀ {u : Process ι}, u.c.topics = s.c.topics → u.c.fresh = s.c.fresh → u.c.heap = s.c.heap →
      Dated (log ++ []) u := by
    intro u ht hf hh
    rw [List.append_nil]
    exact h.stays ht hf fun t => by rw [hh]; exact ⟨rfl, id⟩
  have hstretch : ∀ {i : ι} {n : CString} {wait : Wait} {k : Option Ref} {r : MyClient × GetStep},
      MyClient.Stretch s.c k r → Dated (log ++ []) (s.ends i n wait r) := by
    intro i n wait k r hst
    obtain ⟨hfresh, hentries⟩ := hst.entries
    rw [List.append_nil]
    refine h.stays ?_ ?_ ?_ <;> rw [ends_c]
    · cases hst <;> rfl
    · exact hfresh
    · exact hentries
  cases a with
  | subscribe n =>
    cases hstep
    show Dated (log ++ []) _
    rw [List.append_nil]
    exact h.subscribe n
  | packet p now who =>
    obtain ⟨-, hstep⟩ := Option.ite_none_right_eq_some.1 hstep
    cases hp : s.c.process p now with
    | mk c r =>
      obtain ⟨signal, fault⟩ := r
      rw [hp] at hstep
      cases fault with
      | some e => cases signal <;> cases hstep
      | none =>
        have htopics : c.topics = s.c.topics := by
          cases MyClient.process_processed hp <;> rfl
        cases signal with
        | false =>
          cases hstep
          exact h.packet hp htopics rfl
        | true =>
          obtain ⟨-, hstep⟩ := Option.ite_none_right_eq_some.1 hstep
          cases hstep
          exact h.packet hp htopics rfl
  | lock i =>
    simp only [step] at hstep
    split at hstep
    · cases hstep
      exact hstretch (MyClient.getLocked_stretch _ _ _)
    · cases hstep
  | resume i =>
    simp only [step] at hstep
    split at hstep
    · cases hstep
    · split at hstep
      · cases hstep
        exact hstretch (MyClient.getWoken_stretch _ _ _ _)
      · cases hstep
        exact hquiet rfl rfl rfl
      · cases hstep
  | get i n wait =>
    simp only [step] at hstep
    repeat' split at hstep
    all_goals cases hstep
    all_goals exact hquiet rfl rfl rfl
  | waitForAny i =>
    simp only [step] at hstep
    repeat' split at hstep
    all_goals cases hstep
    all_goals exact hquiet rfl rfl rfl
  | spurious i | hangup | leave | finish =>
    obtain ⟨-, hstep⟩ := Option.ite_none_right_eq_some.1 hstep
    cases hstep
    exact hquiet rfl rfl rfl

theorem dated_run {es : List (Label ι)} (hrun : Run.exec Process.step .start es = some s) :
    Dated (Run.trace Process.step stamps .start es) s :=
  Run.invariant_trace (h := []) (fun _ _ _ _ h hstep => h.step hstep) Dated.start hrun

theorem packet_of_stamp {es : List (Label ι)} (hrun : Run.exec Process.step .start es = some s) {t : Ref}
    {d : List Datum} {now : Clock}
    (h : lastStamp t (Run.trace Process.step stamps .start es) = some (d, now)) :
    ∃ pre p who post u, es = pre ++ .packet p now who :: post ∧ Run.exec Process.step .start pre = some u ∧
      ∃ n, .notified n t d ∈ u.c.notifications p := by
  obtain ⟨x, hx, hxt⟩ := List.mem_filterMap.1 (List.mem_of_getLast? h)
  obtain ⟨ht, hxd⟩ := Option.ite_none_right_eq_some.1 hxt
  obtain ⟨pre, a, post, u, u', rfl, hu, -, hmem⟩ := Run.mem_trace hrun hx
  cases a with
  | packet p now' who =>
    obtain ⟨e, he, hstamp⟩ := List.mem_filterMap.1 hmem
    cases e with
    | notified n k d' =>
      cases hstamp
      cases ht
      cases hxd
      exact ⟨pre, p, who, post, u, rfl, hu, n, he⟩
    | subscribed | copied => cases hstamp
  | _ => cases hmem

/-- The step in which a thread has copied what it holds, and has called no `get()` since. -/
theorem copied_by {es : List (Label ι)} (hrun : Run.exec Process.step .start es = some s) {i : ι} {rv : Topic}
    (hret : s.threads i = .returned rv) (hvalid : rv.isValid = true) :
    ∃ n wait t pre a post u, es = pre ++ a :: post ∧ Run.exec Process.step .start pre = some u ∧
      (a = .lock i ∨ a = .resume i) ∧ (∀ b ∈ post, b.calls i = none) ∧
      (pre.filterMap (Label.calls i)).getLast? = some (n, wait) ∧ .copied n wait t rv ∈ u.emits a := by
  have hall := Run.invariant_history (s := Process.start) (h := [])
    (I := fun es s => Run.exec Process.step .start es = some s ∧
      (s.threads i = .returned rv → ∃ n wait t pre a post u, es = pre ++ a :: post ∧
        Run.exec Process.step .start pre = some u ∧ (a = .lock i ∨ a = .resume i) ∧
        (∀ b ∈ post, b.calls i = none) ∧ (pre.filterMap (Label.calls i)).getLast? = some (n, wait) ∧
        .copied n wait t rv ∈ u.emits a)) (fun es s e s' ⟨hes, hcopied⟩ hstep => ⟨?_, fun hrv => ?_⟩)
    ⟨rfl, fun h => by cases h⟩ hrun
  · rw [List.nil_append] at hall
    exact hall.2 hret
  · rw [Run.exec_append, hes]
    exact Run.exec_cons_eq_some.2 ⟨s', hstep, rfl⟩
  · rcases thread_step hstep i with ⟨he, hsame | hidle | hany⟩ | ⟨m, w, -, hentered | hlost⟩ |
      ⟨m, w, hwho, -, -⟩
    · obtain ⟨n, wait, t, pre, a, post, u, rfl, hu, ha, hpost, hlast, hmem⟩ := hcopied (hsame ▸ hrv)
      refine ⟨n, wait, t, pre, a, post ++ [e], u, by simp, hu, ha, fun b hb => ?_, hlast, hmem⟩
      rcases List.mem_append.1 hb with hb | hb
      · exact hpost b hb
      · exact List.mem_singleton.1 hb ▸ he
    · rw [hidle] at hrv
      cases hrv
    · rw [hany] at hrv
      cases hrv
    · rw [hentered] at hrv
      cases hrv
    · rw [hlost] at hrv
      cases hrv
      cases hvalid
    · obtain ⟨n, wait, t, hin, hmem⟩ := returned_step hwho hstep hrv hvalid
      have hanswered := answered_run Answered.start hes
      exact ⟨n, wait, t, es, e, [], s, rfl, hes, hwho, by simp, hanswered.during i n wait hin, hmem⟩

/-- **The age of a topic.** Through any run: data that a thread holds, it has copied from an entry in its last
`get()`, and the age of it counts from the last notification of that entry before the copy, the one that
brought the items. With a clock that does not go back, it is not negative. -/
theorem age_exact (es : List (Label ι)) (s : Process ι) (hrun : Run.exec Process.step .start es = some s) (i : ι)
    (rv : Topic) (hret : s.threads i = .returned rv) (hvalid : rv.isValid = true) (later : Clock) :
    ∃ n wait t last pre a post u, es = pre ++ a :: post ∧ Run.exec Process.step .start pre = some u ∧
      (a = .lock i ∨ a = .resume i) ∧ (∀ b ∈ post, b.calls i = none) ∧
      (pre.filterMap (Label.calls i)).getLast? = some (n, wait) ∧ .copied n wait t rv ∈ u.emits a ∧
      lastStamp t (Run.trace Process.step stamps .start pre) = some (rv.d, last) ∧
      rv.age later = (later : Int) - last ∧
      ((∀ p now who, .packet p now who ∈ es → now ≤ later) → 0 ≤ rv.age later) := by
  obtain ⟨n, wait, t, pre, a, post, u, hes, hu, ha, hpost, hcalled, hmem⟩ := copied_by hrun hret hvalid
  rw [hes, Run.exec_append, hu] at hrun
  obtain ⟨u', hstep, -⟩ := Run.exec_cons_eq_some.1 hrun
  obtain ⟨hrv, -⟩ := copied_step hstep hmem
  have hdata := (copied_held (Recorded.run hu) hstep hmem).2
  have hdated := dated_run hu
  obtain ⟨⟨d, last⟩, hstamp⟩ := Option.ne_none_iff_exists'.1 (hdated.set t hdata)
  have hlast := (hdated.last t).symm.trans hstamp
  rw [← hrv] at hstamp
  obtain ⟨last', htime, hpair⟩ := Option.map_eq_some_iff.1 hstamp
  cases hpair
  have hage : rv.age later = (later : Int) - last := by rw [Topic.age, htime]
  refine ⟨n, wait, t, last, pre, a, post, u, hes, hu, ha, hpost, hcalled, hmem, hlast, hage, fun hclock => ?_⟩
  obtain ⟨pre', p, who, post', -, hpre, -⟩ := packet_of_stamp hu hlast
  have hle := hclock p last who (by rw [hes, hpre]; simp)
  rw [hage]
  exact Int.sub_nonneg.2 (Int.ofNat_le.2 hle)

theorem age_exact_readOnce : ∃ (s : Process Unit) (rv : Topic), Run.exec Process.step .start readOnce = some s ∧
    s.threads () = .returned rv ∧ rv.age 5 = 4 := by
  have hrun : (Run.exec Process.step .start readOnce).any (fun s => s.threads () =
      .returned { d := [.float 7], timeLastSet := some 1, state := .changed }) = true := by
    decide +kernel
  obtain ⟨s, hs, hret⟩ := (Option.any_eq_true _ _).1 hrun
  have hret := of_decide_eq_true hret
  obtain ⟨n, wait, t, last, pre, a, post, u, -, -, -, -, -, -, -, hage, -⟩ :=
    age_exact readOnce s hs () _ hret rfl 5
  have hone : ((5 : Nat) : Int) - (1 : Nat) = (5 : Nat) - (last : Int) := hage
  exact ⟨s, _, hs, hret, by rw [hage]; exact hone.symm⟩

end Process

end DiamondApparatus
