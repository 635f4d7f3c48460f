import DiamondApparatus.Client.Session
import DiamondApparatus.Main

/-!
# What `diamond listen` prints

* `taken n h` : the data that `get(n)` returned in the history `h`;
* `Progress x news taken` : how far a reader that takes only new data has come with the topic `x`;
* `Following n h s` : one thread calls `get(n,GET_WAITNEW)` and nothing else. `Following.step` : whatever
  the receiver does between;
* `Listening i topic h s` : the program has printed what it was given. `Listening.run` : in every run.
-/

namespace DiamondApparatus
open Lib Std

/-! ## A reader of new data -/

/-- The data of a copy of `n`. -/
def CacheEvent.given (n : CString) : CacheEvent → Option (List Datum)
  | copied m _ _ rv => if m = n then some rv.d else none
  | _ => none

def taken (n : CString) (h : List CacheEvent) : List (List Datum) := h.filterMap (CacheEvent.given n)

theorem taken_append (n : CString) (h h' : List CacheEvent) : taken n (h ++ h') = taken n h ++ taken n h' :=
  List.filterMap_append

theorem notifies_append (n : CString) (h h' : List CacheEvent) :
    notifies n (h ++ h') = notifies n h ++ notifies n h' :=
  List.filterMap_append

/-- Of the topic `x` the notifications `news` have come, and `taken` was taken: nothing twice, nothing out of
turn, and what is not new any more has been taken. -/
inductive Progress (x : Topic) (news taken : List (List Datum)) : Prop
  | nodata (hs : x.state = .nodata) (hnews : news = []) (htaken : taken = [])
  | unread (hs : x.state = .changed) (before : List (List Datum)) (hnews : news = before ++ [x.d])
      (hsub : taken.Sublist before)
  | read (hs : x.state = .unchanged) (hnews : news.getLast? = some x.d) (htaken : taken.getLast? = some x.d)
      (hsub : taken.Sublist news)

namespace Progress
variable {x : Topic} {news taken : List (List Datum)}

theorem sublist (h : Progress x news taken) : taken.Sublist news := by
  cases h with
  | nodata hs hnews htaken => rw [htaken]; exact List.nil_sublist _
  | unread hs before hnews hsub => rw [hnews]; exact hsub.trans (List.sublist_append_left _ _)
  | read hs hnews htaken hsub => exact hsub

/-- Without new data, the last that was taken is the last that came. -/
theorem caughtUp (h : Progress x news taken) (hs : x.state ≠ .changed) : taken.getLast? = news.getLast? := by
  cases h with
  | nodata _ hnews htaken => rw [hnews, htaken]
  | unread hchanged => exact absurd hchanged hs
  | read _ hnews htaken _ => rw [hnews, htaken]

theorem notified (h : Progress x news taken) {y : Topic} (hs : y.state = .changed) :
    Progress y (news ++ [y.d]) taken :=
  .unread hs news rfl h.sublist

theorem take (h : Progress x news taken) (hs : x.state = .changed) :
    Progress { x with state := .unchanged } news (taken ++ [x.d]) := by
  cases h with
  | unread _ before hnews hsub =>
    rw [hnews]
    exact .read rfl List.getLast?_concat List.getLast?_concat (hsub.append (List.Sublist.refl _))
  | nodata hnodata => rw [hs] at hnodata; cases hnodata
  | read hread => rw [hs] at hread; cases hread

theorem changed_of (h : Progress x news taken) (hdata : x.state ≠ .nodata) (hnew : x.state ≠ .unchanged) :
    x.state = .changed := by
  cases h with
  | nodata hs => exact absurd hs hdata
  | unread hs => exact hs
  | read hs => exact absurd hs hnew

end Progress

/-! ## `get(n,GET_WAITNEW)` in one thread -/

/-- How a stretch of `get(n,GET_WAITNEW)` ends that holds the pointer `t`, where it takes new data only. -/
inductive Round (c : MyClient) (n : CString) : Option Ref → MyClient × GetStep → Prop
  | returns (t : Option Ref) (w : Option CString) (rv : Topic) (hrv : rv.isValid = false) :
      Round c n t ({ c with waittopic := w }, .returns rv)
  | waits (t : Ref) (loop : Loop) (ht : c.topics[n]? = some t) (htest : loop.test (c.heap t).state = true) :
      Round c n (some t) ({ c with waittopic := some n }, .waits t loop)
  | takes (t : Ref) (ht : c.topics[n]? = some t) (hs : (c.heap t).state = .changed) :
      Round c n (some t) ({ c with waittopic := none }.take t)

theorem MyClient.getLocked_round (c : MyClient) (n : CString) : Round c n c.topics[n]? (c.getLocked n .new) := by
  unfold getLocked
  cases ht : c.topics[n]? with
  | none => exact .returns none c.waittopic _ rfl
  | some t =>
    dsimp only
    by_cases hnodata : (c.heap t).state = .nodata
    · rw [if_pos hnodata, if_pos (Or.inr rfl)]
      rcases getLoop_cases { c with waittopic := none } n t .nodata with ⟨htest, h⟩ | ⟨htest, -⟩
      · rw [h]
        exact .waits t .nodata ht htest
      · simp [Loop.test, hnodata] at htest
    · rw [if_neg hnodata, if_pos rfl]
      rcases getLoop_cases { c with waittopic := none } n t .unchanged with ⟨htest, h⟩ | ⟨htest, h⟩ <;> rw [h]
      · exact .waits t .unchanged ht htest
      · exact .takes t ht (by simpa [Loop.test] using htest)

/-- One thread has only called `get(n,GET_WAITNEW)`, and nothing but `n` was subscribed to. -/
structure Following {ι : Type} (i : ι) (n : CString) (h : List CacheEvent) (s : Process ι) : Prop where
  only : ∀ m, m ∈ s.c.topics → m = n
  blank : s.c.topics[n]? = none → notifies n h = [] ∧ taken n h = []
  entry : ∀ t, s.c.topics[n]? = some t → Progress (s.c.heap t) (notifies n h) (taken n h)
  never : s.threads i ≠ .waitingAny
  calls : ∀ m wait, s.threads i = .entered m wait → m = n ∧ wait = .new
  waits : ∀ m wait t loop, s.threads i = .waiting m wait t loop → m = n ∧ wait = .new ∧
    s.c.topics[n]? = some t ∧ (loop = .nodata → (s.c.heap t).state ≠ .unchanged)
  asleep : i ∈ s.getcond → s.c.waittopic = some n ∧
    ∃ wait t loop, s.threads i = .waiting n wait t loop ∧ loop.test (s.c.heap t).state = true
  others : ∀ j, j ∈ s.getcond → j = i

def Thread.result : Thread → List (List Datum)
  | .returned rv => if rv.isValid then [rv.d] else []
  | _ => []

namespace Following
variable {ι : Type} {i : ι} {n : CString} {h : List CacheEvent} {s s' : Process ι}

theorem start (i : ι) (n : CString) : Following i n [] Process.start where
  only m hm := absurd hm (by simp [Process.start])
  blank _ := ⟨rfl, rfl⟩
  entry t ht := by simp [Process.start] at ht
  never hi := nomatch hi
  calls _ _ hi := nomatch hi
  waits _ _ _ _ hi := nomatch hi
  asleep hi := absurd hi (Finset.notMem_empty i)
  others j hj := absurd hj (Finset.notMem_empty j)

theorem mem_topics {c : MyClient} {t : Ref} (ht : c.topics[n]? = some t) : n ∈ c.topics :=
  ExtTreeMap.mem_iff_isSome_getElem?.2 (by rw [ht]; rfl)

theorem subscribe (hf : Following i n h s) (hidle : s.threads i = .idle) (ht : s.c.topics[n]? = none) :
    Following i n (h ++ [.subscribed n s.c.fresh]) { s with c := s.c.subscribe n } := by
  obtain ⟨hnews, htaken⟩ := hf.blank ht
  have hget := MyClient.getElem?_subscribe s.c n n
  rw [if_pos rfl] at hget
  have hasleep : i ∉ s.getcond := fun hi => by
    obtain ⟨-, wait, t, loop, hwait, -⟩ := hf.asleep hi
    rw [hidle] at hwait
    cases hwait
  refine ⟨fun m hm => ?_, fun hno => ?_, fun t ht => ?_, fun hi => ?_, fun m wait hi => ?_,
    fun m wait t loop hi => ?_, fun hi => absurd hi hasleep, hf.others⟩
  · by_contra hmn
    have hmem : m ∈ (s.c.subscribe n).topics := hm
    rw [ExtTreeMap.mem_iff_isSome_getElem?, MyClient.getElem?_subscribe, if_neg hmn] at hmem
    exact hmn (hf.only m (ExtTreeMap.mem_iff_isSome_getElem?.2 hmem))
  · rw [hget] at hno
    cases hno
  · rw [hget, Option.some_inj] at ht
    subst ht
    rw [notifies_append, taken_append, hnews, htaken]
    exact .nodata (by rw [MyClient.heap_subscribe_fresh]) rfl rfl
  · exact hf.never hi
  · exact hf.calls m wait hi
  · have hi : s.threads i = .waiting m wait t loop := hi
    rw [hidle] at hi
    cases hi

variable [DecidableEq ι]

theorem ends (hf : Following i n h s) (hi : i ∉ s.getcond) {t : Option Ref} {r : MyClient × GetStep}
    (hr : Round s.c n t r) : Following i n (h ++ copies n .new t r.2) (s.ends i n .new r) ∧
      ((s.ends i n .new r).threads i).result = taken n (copies n .new t r.2) := by
  cases hr with
  | returns t w rv hrv =>
    have hnil : copies n .new t (.returns rv) = [] := by
      cases t with
      | none => rfl
      | some t => rw [copies, hrv, if_neg (by decide)]
    rw [hnil, List.append_nil]
    refine ⟨⟨hf.only, hf.blank, hf.entry, fun he => ?_, fun m wait he => ?_, fun m wait t loop he => ?_,
      fun he => absurd he hi, hf.others⟩, ?_⟩
    · simp [Process.ends] at he
    · simp [Process.ends] at he
    · simp [Process.ends] at he
    · simp [Process.ends, Thread.result, hrv, taken]
  | waits t loop ht htest =>
    have hnil : copies n .new (some t) (.waits t loop) = [] := rfl
    rw [hnil, List.append_nil]
    refine ⟨⟨hf.only, hf.blank, hf.entry, fun he => ?_, fun m wait he => ?_, fun m wait k loop' he => ?_,
      fun _ => ⟨rfl, .new, t, loop, ?_, htest⟩, fun j hj => ?_⟩, ?_⟩
    · simp [Process.ends] at he
    · simp [Process.ends] at he
    · have he : Thread.waiting n .new t loop = .waiting m wait k loop' := by
        simpa [Process.ends] using he
      cases he
      refine ⟨rfl, rfl, ht, fun hloop hs => ?_⟩
      rw [hloop] at htest
      have hs : (s.c.heap t).state = .unchanged := hs
      rw [hs] at htest
      cases htest
    · simp [Process.ends]
    · rcases Finset.mem_insert.1 hj with hj | hj
      · exact hj
      · exact hf.others j hj
    · simp [Process.ends, Thread.result, taken]
  | takes t ht hs =>
    have hvalid : (s.c.heap t).isValid = true := by rw [Topic.isValid, hs]; rfl
    have hcopies : copies n .new (some t) ({ s.c with waittopic := none }.take t).2 =
        [.copied n .new t (s.c.heap t)] := if_pos hvalid
    have htaken : taken n [.copied n .new t (s.c.heap t)] = [(s.c.heap t).d] := by
      simp [taken, CacheEvent.given]
    rw [hcopies]
    refine ⟨⟨hf.only, fun hno => ?_, fun k hk => ?_, fun he => ?_, fun m wait he => ?_,
      fun m wait k loop he => ?_, fun he => absurd he hi, hf.others⟩, ?_⟩
    · have hno : s.c.topics[n]? = none := hno
      rw [ht] at hno
      cases hno
    · have hk : s.c.topics[n]? = some k := hk
      rw [ht, Option.some_inj] at hk
      subst hk
      have hheap : (({ s.c with waittopic := none }.take t).1.heap t) = { s.c.heap t with state := .unchanged } :=
        if_pos rfl
      rw [notifies_append, taken_append, htaken]
      show Progress (({ s.c with waittopic := none }.take t).1.heap t) _ _
      rw [hheap]
      show Progress _ (notifies n h ++ []) _
      rw [List.append_nil]
      exact (hf.entry t ht).take hs
    · simp [Process.ends, MyClient.take] at he
    · simp [Process.ends, MyClient.take] at he
    · simp [Process.ends, MyClient.take] at he
    · rw [htaken]
      simp [Process.ends, MyClient.take, Thread.result, hvalid]

omit [DecidableEq ι] in
/-- A step without an event, of which the thread and the topics see nothing. -/
theorem quiet (hf : Following i n h s) (htopics : s'.c.topics = s.c.topics) (hheap : s'.c.heap = s.c.heap)
    (hthreads : s'.threads i = s.threads i)
    (hasleep : ∀ j, j ∈ s'.getcond → j ∈ s.getcond ∧ (j = i → s'.c.waittopic = s.c.waittopic)) :
    Following i n h s' where
  only := htopics ▸ hf.only
  blank := htopics ▸ hf.blank
  entry := by rw [htopics, hheap]; exact hf.entry
  never := hthreads ▸ hf.never
  calls := hthreads ▸ hf.calls
  waits := by rw [htopics, hheap, hthreads]; exact hf.waits
  asleep hi := by
    obtain ⟨hi, hwait⟩ := hasleep i hi
    rw [hwait rfl, hheap, hthreads]
    exact hf.asleep hi
  others j hj := hf.others j (hasleep j hj).1

theorem not_asleep (hf : Following i n h s) {c : MyClient} {signal : Bool} {who : Option ι}
    (hwho : signal = true → s.Wakes who) (hsignal : i ∈ s.getcond → signal = true) (j : ι) :
    j ∉ (s.received c signal who).getcond := by
  intro hreceived
  obtain ⟨hj, hnot⟩ := Process.mem_received.1 hreceived
  obtain rfl := hf.others j hj
  have hsig := hsignal hj
  refine hnot ⟨hsig, ?_⟩
  have hwakes := hwho hsig
  cases who with
  | none =>
    have hempty : s.getcond = ∅ := hwakes
    rw [hempty] at hj
    exact absurd hj (Finset.notMem_empty j)
  | some k => rw [hf.others k hwakes]

theorem packet (hf : Following i n h s) {p : Bytes} {c : MyClient} {signal : Bool} {who : Option ι}
    (hc : MyClient.Processed s.c p (c, signal, none)) (hwho : signal = true → s.Wakes who) :
    Following i n (h ++ s.c.notifications p) (s.received c signal who) := by
  have hclient : (s.received c signal who).c = c := (Process.received_c s c signal who).1
  have hthreads : (s.received c signal who).threads = s.threads := Recorded.received_threads s c signal who
  cases hc with
  | ignores hno _ =>
    rw [MyClient.notifications_other hno, List.append_nil]
    exact hf.quiet rfl rfl rfl fun j hj => ⟨hj, fun _ => rfl⟩
  | kills msg htype =>
    have hno : s.c.notifications p = [] := by
      refine MyClient.notifications_other fun m hm _ => ?_
      obtain ⟨msg', hmsg⟩ := hm
      rw [htype] at hmsg
      cases hmsg
    rw [hno, List.append_nil]
    refine hf.quiet (by rw [hclient]) (by rw [hclient]) (by rw [hthreads]) fun j hj => absurd hj ?_
    exact hf.not_asleep hwho (fun hi => by rw [(hf.asleep hi).1]; rfl) j
  | notifies msg htype m hname t ht x hx hd w hw =>
    obtain rfl : m = n := hf.only m (mem_topics ht)
    have hnews : notifies m (s.c.notifications p) = [x.d] := by
      rw [fromMessage_eq] at hd
      rw [MyClient.notifications_notify htype hname ht, hd]
      simp [notifies, CacheEvent.news]
    have htaken : taken m (s.c.notifications p) = [] := by
      rw [MyClient.notifications_notify htype hname ht]
      rfl
    have hheap : (s.c.store t x).heap t = x := if_pos rfl
    have hasleep := hf.not_asleep (c := { s.c.store t x with waittopic := w }) hwho fun hi => by
      rw [MyClient.wanted, (hf.asleep hi).1]
      simp
    refine ⟨?_, fun hno => ?_, fun k hk => ?_, ?_, ?_, fun m' wait k loop hi => ?_, fun hi => absurd hi (hasleep i),
      fun j hj => absurd hj (hasleep j)⟩
    · rw [hclient]
      exact hf.only
    · rw [hclient] at hno
      have hno : s.c.topics[m]? = none := hno
      rw [ht] at hno
      cases hno
    · rw [hclient] at hk ⊢
      have hk : s.c.topics[m]? = some k := hk
      rw [ht, Option.some_inj] at hk
      subst hk
      rw [notifies_append, taken_append, hnews, htaken, List.append_nil]
      show Progress ((s.c.store t x).heap t) _ _
      rw [hheap]
      exact (hf.entry t ht).notified hx
    · rw [hthreads]
      exact hf.never
    · rw [hthreads]
      exact hf.calls
    · rw [hthreads] at hi
      obtain ⟨rfl, rfl, hk, -⟩ := hf.waits m' wait k loop hi
      rw [hclient]
      rw [ht, Option.some_inj] at hk
      subst hk
      refine ⟨rfl, rfl, ht, fun _ hs => ?_⟩
      have hs : ((s.c.store t x).heap t).state = .unchanged := hs
      rw [hheap, hx] at hs
      cases hs

theorem call (hf : Following i n h s) (hstep : s.step (.get i n .new) = some s') :
    Following i n h s' ∧ (s'.threads i).result = [] := by
  cases Process.step_moves hstep with
  | enters _ _ _ hi hrun =>
    have hasleep : i ∉ s.getcond := fun hc => by
      obtain ⟨-, wait, t, loop, hwait, -⟩ := hf.asleep hc
      rcases hi with hi | ⟨rv, hi⟩ <;> rw [hi] at hwait <;> cases hwait
    refine ⟨⟨hf.only, hf.blank, hf.entry, fun he => ?_, fun m wait he => ?_, fun m wait t loop he => ?_,
      fun he => absurd he hasleep, hf.others⟩, by simp [Thread.result]⟩
    · simp at he
    · have he : Thread.entered n .new = .entered m wait := by simpa using he
      cases he
      exact ⟨rfl, rfl⟩
    · simp at he
  | refused _ _ _ hi hrun =>
    have hasleep : i ∉ s.getcond := fun hc => by
      obtain ⟨-, wait, t, loop, hwait, -⟩ := hf.asleep hc
      rcases hi with hi | ⟨rv, hi⟩ <;> rw [hi] at hwait <;> cases hwait
    refine ⟨⟨hf.only, hf.blank, hf.entry, fun he => ?_, fun m wait he => ?_, fun m wait t loop he => ?_,
      fun he => absurd he hasleep, hf.others⟩, by simp [Thread.result, Topic.isValid]⟩
    · simp at he
    · simp at he
    · simp at he

/-- **A step inside `get()`, or of the receiver**, and what the call returns if it ends. -/
theorem step (hf : Following i n h s) {a : Label ι} (ha : Listen.ofLibrary i a = true)
    (hstep : s.step a = some s') : Following i n (h ++ s.emits a) s' ∧
      (s'.threads i).result = (s.threads i).result ++ taken n (s.emits a) := by
  have hmove := Process.step_moves hstep
  cases a with
  | get j m wait => cases ha
  | waitForAny j => cases ha
  | subscribe m => cases ha
  | lock j =>
    obtain rfl : j = i := of_decide_eq_true ha
    simp only [Process.step] at hstep
    split at hstep
    · next m wait hi =>
      obtain ⟨rfl, rfl⟩ := hf.calls m wait hi
      have hasleep : j ∉ s.getcond := fun hc => by
        obtain ⟨-, wait, t, loop, hwait, -⟩ := hf.asleep hc
        rw [hi] at hwait
        cases hwait
      rw [← Option.some_inj.1 hstep]
      simp only [Process.emits, hi]
      obtain ⟨hnext, hresult⟩ := hf.ends hasleep (MyClient.getLocked_round s.c m)
      exact ⟨hnext, hresult⟩
    · cases hstep
  | resume j =>
    obtain rfl : j = i := of_decide_eq_true ha
    cases hmove with
    | wokenAny _ hc hi => exact absurd hi hf.never
    | woken _ m wait t loop r hc hi hr =>
      obtain ⟨rfl, rfl, ht, hloop⟩ := hf.waits m wait t loop hi
      have hr' := MyClient.getWoken_woke s.c m t loop
      have hround : Round s.c m (some t) (s.c.getWoken m t loop) := by
        generalize s.c.getWoken m t loop = r at hr'
        cases hr' with
        | aborts hrun => exact .returns (some t) none _ rfl
        | waits hrun htest => exact .waits t loop ht htest
        | takes hrun htest =>
          refine .takes t ht ?_
          cases loop with
          | nodata => exact (hf.entry t ht).changed_of (MyClient.test_false_data htest) (hloop rfl)
          | unchanged => simpa [Loop.test] using htest
      simp only [Process.step, if_neg hc, hi, Option.some_inj] at hstep
      rw [← hstep]
      simp only [Process.emits, hi]
      obtain ⟨hnext, hresult⟩ := hf.ends hc hround
      exact ⟨hnext, hresult⟩
  | packet p now who =>
    cases hmove with
    | receives _ _ _ c signal _ _ hc hwho =>
      refine ⟨hf.packet hc hwho, ?_⟩
      rw [Recorded.received_threads]
      show _ = _ ++ taken n (s.c.notifications p)
      have hnil : taken n (s.c.notifications p) = [] := by
        unfold MyClient.notifications
        repeat' split
        all_goals rfl
      rw [hnil, List.append_nil]
  | spurious j =>
    cases hmove with
    | spurious _ hi =>
      show Following i n (h ++ []) _ ∧ _ = _ ++ []
      rw [List.append_nil, List.append_nil]
      exact ⟨hf.quiet rfl rfl rfl fun k hk => ⟨(Process.mem_wake.1 hk).1, fun _ => rfl⟩, rfl⟩
  | hangup | leave | finish =>
    show Following i n (h ++ []) _ ∧ _ = _ ++ []
    rw [List.append_nil, List.append_nil]
    cases hmove
    exact ⟨hf.quiet rfl rfl rfl fun j hj => ⟨hj, fun _ => rfl⟩, rfl⟩

end Following

/-! ## The program -/

theorem Process.free_step {ι : Type} [DecidableEq ι] {i : ι} {s s' : Process ι} {a : Label ι} (hfree : (s.threads i).free = true)
    (ha : Listen.ofLibrary i a = true) (hstep : s.step a = some s') : s'.threads i = s.threads i := by
  cases Process.step_moves hstep with
  | enters | refused | waitsAny | subscribes => cases ha
  | locked j n wait r hi hr =>
    obtain rfl : j = i := of_decide_eq_true ha
    rw [hi] at hfree
    cases hfree
  | woken j n wait t loop r hc hi hr =>
    obtain rfl : j = i := of_decide_eq_true ha
    rw [hi] at hfree
    cases hfree
  | wokenAny j hc hi =>
    obtain rfl : j = i := of_decide_eq_true ha
    rw [hi] at hfree
    cases hfree
  | receives p now who c signal hloop hrun hc hwho => rw [Recorded.received_threads]
  | spurious | hangup | leave | finish => rfl

/-- Only a subscription changes the map. -/
theorem Process.topics_kept {ι : Type} [DecidableEq ι] {s s' : Process ι} {a : Label ι} (h : s.step a = some s')
    (hsub : ∀ n, a ≠ .subscribe n) : s'.c.topics = s.c.topics := by
  cases step_moves h with
  | locked i n wait r _ hr =>
    rw [ends_c]
    cases hr <;> rfl
  | woken i n wait t loop r _ _ hr =>
    rw [ends_c]
    cases hr <;> rfl
  | subscribes n => exact absurd rfl (hsub n)
  | receives p now who c signal _ _ hc _ =>
    rw [(received_c s c signal who).1]
    cases hc <;> rfl
  | _ => rfl

/-- From `listening=true` to `listening=false`. -/
def ListenPc.inLoop : ListenPc → Bool
  | test => true
  | body => true
  | getting => true
  | left => true
  | _ => false

namespace Listen
variable {ι : Type} {i : ι} {topic : CString} {listenHeaders : Bool} {h : List CacheEvent} {s s' : Listen ι}
  {a : Step ι}

def emits (i : ι) (topic : CString) (s : Listen ι) (a : Step ι) : List CacheEvent :=
  (s.labels i topic a).flatMap s.p.emits

/-- What `get` has returned and was not printed yet. -/
def pending (i : ι) (s : Listen ι) : List (List Datum) := if s.pc = .getting then (s.p.threads i).result else []

theorem rows_printed (s : Listen ι) (t : Topic) (p : Process ι) (pc : ListenPc) (done listens exits : Bool) :
    rows ⟨p, pc, done, listens, exits, s.out ++ s.printed listenHeaders t⟩ =
      s.rows ++ (Thread.returned t).result := by
  have hheader : (if s.headerDone = false ∧ listenHeaders = true then [Printed.header t.d.length]
      else []).filterMap Printed.data = [] := by
    split <;> rfl
  have hrow : (if t.isValid then [Printed.row t.d] else []).filterMap Printed.data =
      (Thread.returned t).result := by
    show _ = if t.isValid then [t.d] else []
    split <;> rfl
  unfold rows printed
  rw [List.filterMap_append, List.filterMap_append, hheader, List.nil_append, hrow]

theorem rows_caught (out : List Printed) (signal : Signal) :
    (out ++ [Printed.caught signal]).filterMap Printed.data = out.filterMap Printed.data := by
  rw [List.filterMap_append]
  exact List.append_nil _

end Listen

open Listen in
/-- The program has printed what it was given, but for what it is about to print. -/
structure Listening {ι : Type} (i : ι) (topic : CString) (h : List CacheEvent) (s : Listen ι) : Prop where
  following : Following i topic h s.p
  inLoop : s.pc.inLoop = true → s.listening = true
  connected : s.pc = .connected → s.p.threads i = .idle ∧ s.p.c.topics[topic]? = none
  free : s.pc ≠ .getting → (s.p.threads i).free = true
  given : s.rows ++ s.pending i = taken topic h

namespace Listening
open Listen
variable {ι : Type} {i : ι} {topic : CString} {listenHeaders : Bool} {h : List CacheEvent} {s s' : Listen ι}

theorem start (i : ι) (topic : CString) : Listening i topic [] {} where
  following := Following.start i topic
  inLoop hpc := by cases hpc
  connected _ := ⟨rfl, by simp [Process.start]⟩
  free _ := rfl
  given := rfl

/-- A step of the program itself, that calls nothing and prints no row. -/
theorem moves (hl : Listening i topic h s) (hp : s'.p = s.p) (hrows : s'.rows = s.rows) (hpc : s.pc ≠ .getting)
    (hnext : s'.pc ≠ .getting) (hconn : s'.pc = .connected → s.pc = .connected)
    (hloop : s'.pc.inLoop = true → s'.listening = true) : Listening i topic h s' where
  following := hp ▸ hl.following
  inLoop := hloop
  connected he := by
    rw [hp]
    exact hl.connected (hconn he)
  free _ := by
    rw [hp]
    exact hl.free hpc
  given := by
    have hgiven := hl.given
    rw [pending, if_neg hpc] at hgiven
    rw [pending, if_neg hnext, hrows]
    exact hgiven

theorem ended (hl : Listening i topic h s) (hp : s'.p = s.p) (hrows : s'.rows = s.rows) (hpc : s.pc ≠ .getting)
    (hnext : s'.pc = .ended) : Listening i topic h s' := by
  refine hl.moves hp hrows hpc (by rw [hnext]; decide) (fun he => ?_) (fun he => ?_)
  · rw [hnext] at he
    cases he
  · rw [hnext] at he
    cases he

variable [DecidableEq ι]

theorem library (hl : Listening i topic h s) {a : Label ι} (ha : ofLibrary i a = true) {p : Process ι}
    (hstep : s.p.step a = some p) : Listening i topic (h ++ s.p.emits a) { s with p := p } := by
  obtain ⟨hnext, hresult⟩ := hl.following.step ha hstep
  have hsub : ∀ n, a ≠ .subscribe n := by
    rintro n rfl
    cases ha
  refine ⟨hnext, hl.inLoop, fun hpc => ?_, fun hpc => ?_, ?_⟩
  · obtain ⟨hidle, htopic⟩ := hl.connected hpc
    refine ⟨(Process.free_step (by rw [hidle]; rfl) ha hstep).trans hidle, ?_⟩
    show p.c.topics[topic]? = none
    rw [Process.topics_kept hstep hsub]
    exact htopic
  · show (p.threads i).free = true
    rw [Process.free_step (hl.free hpc) ha hstep]
    exact hl.free hpc
  · have hgiven := hl.given
    unfold pending at hgiven ⊢
    rw [taken_append, ← hgiven, List.append_assoc]
    by_cases hpc : s.pc = .getting
    · rw [if_pos hpc, if_pos hpc, hresult]
      rfl
    · rw [Process.free_step (hl.free hpc) ha hstep, List.self_eq_append_right] at hresult
      rw [if_neg hpc, if_neg hpc, hresult]
      rfl

theorem step (hl : Listening i topic h s) {a : Listen.Step ι} (hstep : s.step i topic listenHeaders a = some s') :
    Listening i topic (h ++ s.emits i topic a) s' := by
  cases a with
  | subscribe =>
    obtain ⟨hpc, hstep⟩ := Option.ite_none_right_eq_some.1 hstep
    obtain ⟨hidle, htopic⟩ := hl.connected hpc
    have hgiven := hl.given
    rw [pending, if_neg (by rw [hpc]; decide), List.append_nil] at hgiven
    unfold emits labels
    split at hstep
    · next hrun =>
      obtain ⟨p, hp, rfl⟩ := Option.map_eq_some_iff.1 hstep
      cases Process.step_moves hp
      rw [if_pos hrun]
      refine ⟨hl.following.subscribe hidle htopic, (fun he => nomatch he), (fun he => nomatch he),
        fun _ => hl.free (by rw [hpc]; decide), ?_⟩
      rw [taken_append, ← hgiven]
      rfl
    · next hrun =>
      cases hstep
      rw [if_neg hrun]
      show Listening i topic (h ++ []) _
      rw [List.append_nil]
      exact hl.ended rfl rfl (by rw [hpc]; decide) rfl
  | enter =>
    obtain ⟨hpc, hstep⟩ := Option.ite_none_right_eq_some.1 hstep
    cases hstep
    show Listening i topic (h ++ []) _
    rw [List.append_nil]
    exact hl.moves rfl rfl (by rw [hpc]; decide) (fun he => by cases he) (fun he => by cases he) fun _ => rfl
  | test =>
    obtain ⟨hpc, hstep⟩ := Option.ite_none_right_eq_some.1 hstep
    cases hstep
    show Listening i topic (h ++ []) _
    rw [List.append_nil]
    refine hl.moves rfl rfl (by rw [hpc]; decide) ?_ ?_ fun _ => hl.inLoop (by rw [hpc]; rfl)
    · show (if _ then _ else _) ≠ _
      split <;> decide
    · show (if _ then _ else _) = _ → _
      split <;> intro he <;> cases he
  | call =>
    obtain ⟨hpc, hstep⟩ := Option.ite_none_right_eq_some.1 hstep
    obtain ⟨p, hp, rfl⟩ := Option.map_eq_some_iff.1 hstep
    obtain ⟨hnext, hresult⟩ := hl.following.call hp
    have hgiven := hl.given
    rw [pending, if_neg (by rw [hpc]; decide)] at hgiven
    show Listening i topic (h ++ []) _
    rw [List.append_nil]
    refine ⟨hnext, fun _ => hl.inLoop (by rw [hpc]; rfl), (fun he => nomatch he), fun hne => absurd rfl hne, ?_⟩
    rw [pending, if_pos rfl, hresult]
    exact hgiven
  | print =>
    simp only [Listen.step] at hstep
    split at hstep
    · next t hpc hi =>
      cases hstep
      show Listening i topic (h ++ []) _
      rw [List.append_nil]
      refine ⟨hl.following, fun _ => hl.inLoop (by rw [hpc]; rfl), (fun he => nomatch he), fun _ => by rw [hi]; rfl, ?_⟩
      have hgiven := hl.given
      rw [pending, if_pos hpc, hi] at hgiven
      have hpending : pending i (⟨s.p, .test, true, s.listening, s.exitListenLoop,
          s.out ++ s.printed listenHeaders t⟩ : Listen ι) = [] := rfl
      rw [hpending, List.append_nil, rows_printed]
      exact hgiven
    · cases hstep
  | leave =>
    obtain ⟨hpc, hstep⟩ := Option.ite_none_right_eq_some.1 hstep
    cases hstep
    show Listening i topic (h ++ []) _
    rw [List.append_nil]
    exact hl.ended rfl rfl (by rw [hpc]; decide) rfl
  | signal signal =>
    show Listening i topic (h ++ []) _
    rw [List.append_nil]
    simp only [Listen.step] at hstep
    split at hstep
    · cases hstep
      exact ⟨hl.following, hl.inLoop, hl.connected, hl.free, hl.given⟩
    · next hlistening =>
      cases hstep
      -- outside the loop, so not in `get()`
      have hpc : s.pc ≠ .getting := fun hpc => hlistening (hl.inLoop (by rw [hpc]; rfl))
      exact hl.ended rfl (rows_caught s.out signal) hpc rfl
  | library a =>
    obtain ⟨ha, hstep⟩ := Option.ite_none_right_eq_some.1 hstep
    obtain ⟨p, hp, rfl⟩ := Option.map_eq_some_iff.1 hstep
    show Listening i topic (h ++ (s.p.emits a ++ [])) _
    rw [List.append_nil]
    exact hl.library ha hp

theorem run {es : List (Listen.Step ι)}
    (hrun : Run.exec (Listen.step i topic listenHeaders) {} es = some s) :
    Listening i topic (Run.trace (Listen.step i topic listenHeaders) (Listen.emits i topic) {} es) s :=
  Run.invariant_trace (h := []) (fun _ _ _ _ hl hstep => hl.step hstep) (start i topic) hrun

end Listening

end DiamondApparatus
