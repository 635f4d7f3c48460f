import DiamondApparatus.Client.Cache
import DiamondApparatus.System.History

/-!
# Nothing is made up

* `Process.copied_news` : what a `get(n)` copies was notified of `n`;
* `Process.Answered`, `answered_run` : what a thread holds, its last `get()` has copied;
* `System.posts_published` : what the server takes for a publication of `n`, some client has published on `n`;
* `got_published` : what a client's `get(n)` returns, some client has published on `n`, item for item.
-/

namespace DiamondApparatus
open Lib Std MyServer

def Label.calls {ι : Type} [DecidableEq ι] (i : ι) : Label ι → Option (CString × Wait)
  | .get j n wait => if j = i then some (n, wait) else none
  | _ => none

/-! ## What a client returns -/

theorem notified_of_nodata {ι : Type} {h : List CacheEvent} {s : Process ι} (hr : Recorded h s) {n : CString}
    {t : Ref} (hsub : .subscribed n t ∈ h) (hdata : (s.c.heap t).state ≠ .nodata) :
    .notified n t (s.c.heap t).d ∈ h := by
  have hshows := hr.shows t
  have hvalue : (Cell.run (opsOn t h)).value ≠ none := fun hnone => hdata (hshows.nodata_iff.2 hnone)
  obtain ⟨d, hd⟩ := Option.ne_none_iff_exists'.1 hvalue
  have hwritten : d ∈ (opsOn t h).filterMap Cell.Op.written := by
    rw [Cell.run_value] at hd
    exact List.mem_of_getLast? hd
  obtain ⟨o, ho, hop⟩ := List.mem_filterMap.1 hwritten
  cases o with
  | read => cases hop
  | write d' =>
    cases hop
    obtain ⟨xs, ys, hsplit⟩ := List.append_of_mem ho
    obtain ⟨pre, m, post, he, -, -⟩ := opsOn_eq_append_write hsplit
    have hmem : .notified m t d ∈ h := by
      rw [he]
      simp
    rw [hshows.d, hd, hr.owned n m t hsub (hr.named _ hmem)]
    exact hmem

namespace Process
variable {ι : Type} [DecidableEq ι] {s s' : Process ι}

/-- **What `get(n)` returns was notified of `n`.** -/
theorem copied_news {ls : List (Label ι)} (hrun : Run.exec Process.step .start ls = some s) {n : CString}
    {wait : Wait} {t : Ref} {rv : Topic} (hmem : .copied n wait t rv ∈ Run.trace step emits start ls) :
    rv.d ∈ notifies n (Run.trace step emits start ls) := by
  have hkeeps : ∀ (h : List CacheEvent) (s : Process ι) (a : Label ι) (s' : Process ι),
      (Recorded h s ∧ ∀ n wait t rv, .copied n wait t rv ∈ h → rv.d ∈ notifies n h) →
      s.step a = some s' → Recorded (h ++ s.emits a) s' ∧
        ∀ n wait t rv, .copied n wait t rv ∈ h ++ s.emits a → rv.d ∈ notifies n (h ++ s.emits a) := by
    rintro h s a s' ⟨hr, hcopied⟩ hstep
    refine ⟨hr.step hstep, fun n wait t rv hmem => ?_⟩
    rw [notifies, List.filterMap_append]
    refine List.mem_append_left _ ?_
    rcases List.mem_append.1 hmem with hold | hnew
    · exact hcopied n wait t rv hold
    · obtain ⟨hrv, -⟩ := copied_step hstep hnew
      obtain ⟨hsub, hdata⟩ := copied_held hr hstep hnew
      rw [hrv]
      exact List.mem_filterMap.2 ⟨_, notified_of_nodata hr hsub hdata, if_pos rfl⟩
  have hall := Run.invariant_trace (h := []) hkeeps ⟨Recorded.start, by simp⟩ hrun
  rw [List.nil_append] at hall
  exact hall.2 n wait t rv hmem

/-- The call the thread `i` is in, or has data from, is its last. -/
structure Answered (ls : List (Label ι)) (h : List CacheEvent) (s : Process ι) : Prop where
  during : ∀ i n wait, s.InGet i n wait → (ls.filterMap (Label.calls i)).getLast? = some (n, wait)
  after : ∀ i rv, s.threads i = .returned rv → rv.isValid = true → ∃ n wait t,
    (ls.filterMap (Label.calls i)).getLast? = some (n, wait) ∧ .copied n wait t rv ∈ h

theorem thread_step {a : Label ι} (h : s.step a = some s') (i : ι) :
    (a.calls i = none ∧ (s'.threads i = s.threads i ∨ s'.threads i = .idle ∨ s'.threads i = .waitingAny)) ∨
    (∃ n wait, a = .get i n wait ∧ (s'.threads i = .entered n wait ∨
      s'.threads i = .returned { state := .notconnected })) ∨
    ∃ n wait, (a = .lock i ∨ a = .resume i) ∧ s.InGet i n wait ∧
      ((∃ t loop, s'.threads i = .waiting n wait t loop) ∨ ∃ rv, s'.threads i = .returned rv) := by
  have hends : ∀ (j : ι) (n : CString) (wait : Wait) (r : MyClient × GetStep), i ≠ j →
      (s.ends j n wait r).threads i = s.threads i := by
    rintro j n wait ⟨c, g⟩ hne
    cases g <;> exact if_neg hne
  have hself : ∀ (n : CString) (wait : Wait) (r : MyClient × GetStep),
      (∃ t loop, (s.ends i n wait r).threads i = .waiting n wait t loop) ∨
        ∃ rv, (s.ends i n wait r).threads i = .returned rv := by
    rintro n wait ⟨c, g⟩
    cases g with
    | returns rv => exact Or.inr ⟨rv, if_pos rfl⟩
    | waits t loop => exact Or.inl ⟨t, loop, if_pos rfl⟩
  cases a with
  | get j n wait =>
    by_cases hj : j = i
    · subst hj
      refine Or.inr (Or.inl ⟨n, wait, rfl, ?_⟩)
      simp only [step] at h
      split at h
      · split at h
        · cases h
          exact Or.inl (setThread_self _ _ _)
        · cases h
          exact Or.inr (setThread_self _ _ _)
      · split at h
        · cases h
          exact Or.inl (setThread_self _ _ _)
        · cases h
          exact Or.inr (setThread_self _ _ _)
      · cases h
    · refine Or.inl ⟨if_neg hj, Or.inl ?_⟩
      simp only [step] at h
      repeat' split at h
      all_goals cases h
      all_goals exact setThread_ne _ _ (Ne.symm hj)
  | lock j =>
    simp only [step] at h
    split at h
    · next n wait hthread =>
      cases h
      by_cases hj : j = i
      · subst hj
        exact Or.inr (Or.inr ⟨n, wait, Or.inl rfl, Or.inl hthread, hself n wait _⟩)
      · exact Or.inl ⟨rfl, Or.inl (hends j n wait _ (Ne.symm hj))⟩
    · cases h
  | resume j =>
    simp only [step] at h
    split at h
    · cases h
    · split at h
      · next n wait t loop hthread =>
        cases h
        by_cases hj : j = i
        · subst hj
          exact Or.inr (Or.inr ⟨n, wait, Or.inr rfl, Or.inr ⟨t, loop, hthread⟩, hself n wait _⟩)
        · exact Or.inl ⟨rfl, Or.inl (hends j n wait _ (Ne.symm hj))⟩
      · cases h
        by_cases hj : j = i
        · subst hj
          exact Or.inl ⟨rfl, Or.inr (Or.inl (setThread_self _ _ _))⟩
        · exact Or.inl ⟨rfl, Or.inl (setThread_ne _ _ (Ne.symm hj))⟩
      · cases h
  | waitForAny j =>
    refine Or.inl ⟨rfl, ?_⟩
    by_cases hj : j = i
    · subst hj
      simp only [step] at h
      repeat' split at h
      all_goals cases h
      all_goals exact Or.inr (Or.inr (setThread_self _ _ _))
    · simp only [step] at h
      repeat' split at h
      all_goals cases h
      all_goals exact Or.inl (setThread_ne _ _ (Ne.symm hj))
  | packet p now who =>
    refine Or.inl ⟨rfl, Or.inl ?_⟩
    simp only [step] at h
    repeat' split at h
    all_goals cases h
    all_goals rfl
  | subscribe n =>
    cases h
    exact Or.inl ⟨rfl, Or.inl rfl⟩
  | spurious j | hangup | leave | finish =>
    obtain ⟨-, h⟩ := Option.ite_none_right_eq_some.1 h
    cases h
    exact Or.inl ⟨rfl, Or.inl rfl⟩

theorem Answered.step {ls : List (Label ι)} {h : List CacheEvent} {a : Label ι} (ha : Answered ls h s)
    (hstep : s.step a = some s') : Answered (ls ++ [a]) (h ++ s.emits a) s' := by
  have hlast : ∀ i, a.calls i = none →
      (ls ++ [a]).filterMap (Label.calls i) = ls.filterMap (Label.calls i) := by
    intro i hi
    rw [List.filterMap_append, List.filterMap_cons_none hi, List.filterMap_nil, List.append_nil]
  have hcall : ∀ i n wait, a = .get i n wait →
      ((ls ++ [a]).filterMap (Label.calls i)).getLast? = some (n, wait) := by
    rintro i n wait rfl
    simp [List.filterMap_append, Label.calls]
  constructor
  · intro i n wait hin
    rcases thread_step hstep i with ⟨hi, hsame | hidle | hany⟩ |
      ⟨m, w, rfl, hentered | hret⟩ | ⟨m, w, hwho, hget, ⟨t, loop, hwait⟩ | ⟨rv, hret⟩⟩
    · rw [hlast i hi]
      refine ha.during i n wait ?_
      rwa [InGet, hsame] at hin
    · simp [InGet, hidle] at hin
    · simp [InGet, hany] at hin
    · obtain ⟨rfl, rfl⟩ : m = n ∧ w = wait := by simpa [InGet, hentered] using hin
      exact hcall i m w rfl
    · simp [InGet, hret] at hin
    · obtain ⟨rfl, rfl⟩ : m = n ∧ w = wait := by simpa [InGet, hwait] using hin
      rw [hlast i (by rcases hwho with rfl | rfl <;> rfl)]
      exact ha.during i m w hget
    · simp [InGet, hret] at hin
  · intro i rv hrv hvalid
    rcases thread_step hstep i with ⟨hi, hsame | hidle | hany⟩ |
      ⟨m, w, rfl, hentered | hret⟩ | ⟨m, w, hwho, hget, -⟩
    · obtain ⟨n, wait, t, hcalled, hmem⟩ := ha.after i rv (hsame ▸ hrv) hvalid
      rw [hlast i hi]
      exact ⟨n, wait, t, hcalled, List.mem_append_left _ hmem⟩
    · rw [hidle] at hrv
      cases hrv
    · rw [hany] at hrv
      cases hrv
    · rw [hentered] at hrv
      cases hrv
    · rw [hret] at hrv
      cases hrv
      cases hvalid
    · obtain ⟨n, wait, t, hin, hmem⟩ := returned_step hwho hstep hrv hvalid
      rw [hlast i (by rcases hwho with rfl | rfl <;> rfl)]
      exact ⟨n, wait, t, ha.during i n wait hin, List.mem_append_right _ hmem⟩

theorem Answered.start : Answered [] [] (Process.start : Process ι) where
  during i n wait hin := by simp [InGet, Process.start] at hin
  after i rv h := by cases h

/-- **What a thread holds, its last `get()` has copied.** -/
theorem answered_run {ls ls' : List (Label ι)} {h : List CacheEvent} (ha : Answered ls h s)
    (hrun : Run.exec Process.step s ls' = some s') :
    Answered (ls ++ ls') (h ++ Run.trace Process.step emits s ls') s' := by
  induction ls' generalizing ls h s with
  | nil =>
    rw [Run.exec, Option.some_inj] at hrun
    rw [Run.trace, List.append_nil, List.append_nil]
    exact hrun ▸ ha
  | cons a ls' ih =>
    obtain ⟨u, hu, hrun⟩ := Run.exec_cons_eq_some.1 hrun
    rw [Run.trace_cons hu, List.append_cons, ← List.append_assoc]
    exact ih (ha.step hu) hrun

end Process

/-! ## What the server has it from -/

namespace System
variable {κ ι : Type} [DecidableEq κ] [DecidableEq ι] {S S' : System κ ι} {a : Action κ ι}

/-- What a client publishes on `n`. -/
def publishes (n : CString) (_ : System κ ι) : Action κ ι → List (List Datum)
  | .publish _ m t => if m = n then [t.d] else []
  | _ => []

def postsIn (n : CString) (ps : List Bytes) : List (List Datum) :=
  Broker.posts n (ps.flatMap (asksOf ()))

theorem postsIn_append (n : CString) (ps qs : List Bytes) :
    postsIn n (ps ++ qs) = postsIn n ps ++ postsIn n qs := by
  rw [postsIn, List.flatMap_append, Broker.posts, List.filterMap_append]
  rfl

omit [DecidableEq κ] in
/-- What is posted does not depend on who posts it. -/
theorem posts_asksOf (k : κ) (n : CString) (p : Bytes) :
    Broker.posts n (asksOf k p) = postsIn n [p] := by
  rw [postsIn, List.flatMap_singleton]
  unfold asksOf
  repeat' split
  all_goals rfl

omit [DecidableEq ι] in
theorem mem_posts_orders {n : CString} {d : List Datum} (h : d ∈ Broker.posts n (orders S a)) :
    ∃ k, d ∈ postsIn n (serves k S a) := by
  cases a with
  | serve k tail now =>
    refine ⟨k, ?_⟩
    rw [serves, if_pos rfl]
    rw [orders] at h
    cases hup : S.upOf k with
    | nil =>
      rw [hup] at h
      cases h
    | cons p up =>
      rw [hup] at h
      exact posts_asksOf k n p ▸ h
  | _ => cases h

theorem postsIn_asks (hstep : S.step a = some S') (k : κ) (n : CString) :
    (postsIn n (asks k S a)).Sublist (publishes n S a) := by
  have hpacket : ∀ p : ClientPacket, postsIn n [p.bytes] = Broker.posts n (p.opsBy ()) := by
    intro p
    rw [postsIn, List.flatMap_singleton, p.asksOf_bytes]
  cases a with
  | subscribe j m field =>
    obtain ⟨x, hx, hstep⟩ := Option.bind_eq_some_iff.1 hstep
    obtain ⟨hname, -⟩ := Option.ite_none_right_eq_some.1 hstep
    have hnone : postsIn n [strMsg csSubscribe m field] = [] := hpacket (.subscribe m field hname)
    rw [asks]
    split
    · exact hnone ▸ List.nil_sublist _
    · exact List.nil_sublist _
  | publish j m t =>
    obtain ⟨x, hx, hstep⟩ := Option.bind_eq_some_iff.1 hstep
    obtain ⟨⟨hname, hsize⟩, -⟩ := Option.ite_none_right_eq_some.1 hstep
    have hone : postsIn n [t.toMessage csPublish m] = publishes n S (.publish j m t) := by
      refine (hpacket (.publish m t.d hname hsize)).trans ?_
      show Broker.posts n [.post m t.d] = _
      rw [Broker.posts_cons, Broker.posted_post, publishes]
      split <;> rfl
    rw [asks]
    split
    · exact hone ▸ List.Sublist.refl _
    · exact List.nil_sublist _
  | clearServer j =>
    have hnone : postsIn n [noDataMsg csClearserver] = [] := hpacket .clearserver
    rw [asks]
    split
    · exact hnone ▸ List.nil_sublist _
    · exact List.nil_sublist _
  | _ => exact List.nil_sublist _

theorem published_run {as : List (Action κ ι)} (hrun : Run.exec step S as = some S') (n : CString) :
    (∀ k, (postsIn n (Run.trace step (asks k) S as)).Sublist (Run.trace step (publishes n) S as)) ∧
      ∀ d ∈ Broker.posts n (Run.trace step orders S as), ∃ k, d ∈ postsIn n (Run.trace step (serves k) S as) := by
  induction as generalizing S with
  | nil => exact ⟨fun _ => List.Sublist.refl _, fun d hd => absurd hd List.not_mem_nil⟩
  | cons a as ih =>
    obtain ⟨T, hT, hrun⟩ := Run.exec_cons_eq_some.1 hrun
    obtain ⟨hasked, hposted⟩ := ih hrun
    refine ⟨fun k => ?_, fun d hd => ?_⟩
    · rw [Run.trace_cons hT, Run.trace_cons hT, postsIn_append]
      exact (postsIn_asks hT k n).append (hasked k)
    · rw [Run.trace_cons hT, Broker.posts, List.filterMap_append, List.mem_append] at hd
      rcases hd with hd | hd
      · obtain ⟨k, hk⟩ := mem_posts_orders hd
        refine ⟨k, ?_⟩
        rw [Run.trace_cons hT, postsIn_append]
        exact List.mem_append_left _ hk
      · obtain ⟨k, hk⟩ := hposted d hd
        refine ⟨k, ?_⟩
        rw [Run.trace_cons hT, postsIn_append]
        exact List.mem_append_right _ hk

section
variable {listenfd : Nat} {others : FdSet} {now : Now} {as : List (Action κ ι)}

/-- **What the server takes for a publication, some client has published.** -/
theorem posts_published (hrun : Run.exec step (start listenfd others now) as = some S) {n : CString}
    {d : List Datum} (hd : d ∈ Broker.posts n (Run.trace step orders (start listenfd others now) as)) :
    d ∈ Run.trace step (publishes n) (start listenfd others now) as := by
  obtain ⟨hasked, hposted⟩ := published_run hrun n
  obtain ⟨k, hk⟩ := hposted d hd
  have hserved := asked_run hrun k
  have hnothing : (start listenfd others now : System κ ι).upOf k = [] := rfl
  rw [hnothing, List.nil_append] at hserved
  refine (hasked k).subset ?_
  rw [hserved, postsIn_append]
  exact List.mem_append_left _ hk

/-- What a `get(n)` of the client `k` copied, some client has published on `n`. -/
theorem copied_published (hrun : Run.exec step (start listenfd others now) as = some S) {k : κ} {n : CString}
    (hs : n ≠ statsName) (ht : n ≠ topicsName) {wait : Wait} {t : Ref} {rv : Topic}
    (hcopied : .copied n wait t rv ∈ Run.trace step (events k) (start listenfd others now) as) :
    initially n = some rv.d ∨ rv.d ∈ Run.trace step (publishes n) (start listenfd others now) as := by
  obtain ⟨hclient, htrace⟩ := client_exact hrun k
  rw [← htrace] at hcopied
  have hnews := Process.copied_news hclient hcopied
  rw [htrace] at hnews
  have hheard : rv.d ∈ Broker.expect k n (initially n) false
      (Run.trace step orders (start listenfd others now) as) := by
    rw [← heard_exact hrun hs ht k]
    exact List.mem_append_left _ hnews
  exact (Broker.mem_expect hheard).imp_right (posts_published hrun)

theorem answered_exact (hrun : Run.exec step (start listenfd others now) as = some S) (k : κ) :
    Process.Answered (Run.trace step (labels k) (start listenfd others now) as)
      (Run.trace step (events k) (start listenfd others now) as) (S.procAt k) := by
  obtain ⟨hclient, htrace⟩ := client_exact hrun k
  have hanswered := Process.answered_run Process.Answered.start hclient
  rwa [List.nil_append, List.nil_append, htrace] at hanswered

end

/-- **Nothing is made up.** Through any run, however the steps interleave: data that a thread holds, it has
copied in its last `get()`, and what was copied as the topic `n`, some client has published on `n` before,
item for item, or the server has stored from the start. The two topics that the server builds itself are
left out. -/
theorem got_published (listenfd : Nat) (others : FdSet) (now : Now) (as : List (Action κ ι)) (S : System κ ι)
    (hrun : Run.exec step (start listenfd others now) as = some S) (k : κ) (i : ι) (rv : Topic)
    (hret : (S.procAt k).threads i = .returned rv) (hvalid : rv.isValid = true) :
    ∃ n wait, ((Run.trace step (labels k) (start listenfd others now) as).filterMap
        (Label.calls i)).getLast? = some (n, wait) ∧
      (n ≠ statsName → n ≠ topicsName → initially n = some rv.d ∨
        rv.d ∈ Run.trace step (publishes n) (start listenfd others now) as) := by
  obtain ⟨n, wait, t, hcalled, hcopied⟩ := (answered_exact hrun k).after i rv hret hvalid
  exact ⟨n, wait, hcalled, fun hs ht => copied_published hrun hs ht hcopied⟩

def relayed : List (Action Bool Unit) :=
  relay ++ [.thread false (.get () (.ofString "a") .none), .thread false (.lock ())]

theorem got_published_relayed : ∃ S : System Bool Unit, ∃ rv, Run.exec step (start 3 ∅ 0) relayed = some S ∧
    (S.procAt false).threads () = .returned rv ∧ rv.isValid = true ∧
      rv.d ∈ Run.trace step (publishes (.ofString "a")) (start 3 ∅ 0) relayed := by
  have hrun : (Run.exec step (start 3 ∅ 0) relayed).any (fun S => (S.procAt false).threads () =
      .returned { d := [.float 7], timeLastSet := some 0, state := .changed }) = true := by
    decide +kernel
  obtain ⟨S, hS, hret⟩ := (Option.any_eq_true _ _).1 hrun
  have hret := of_decide_eq_true hret
  obtain ⟨n, wait, hcalled, hfrom⟩ := got_published 3 ∅ 0 relayed S hS false () _ hret rfl
  have hlast : ((Run.trace step (labels false) (start 3 ∅ 0) relayed).filterMap (Label.calls ())).getLast? =
      some (.ofString "a", .none) := by
    decide +kernel
  obtain ⟨rfl, rfl⟩ : n = .ofString "a" ∧ wait = .none := by simpa using hcalled.symm.trans hlast
  have hnone : initially (.ofString "a") = none := by decide +kernel
  rcases hfrom (by decide +kernel) (by decide +kernel) with hinit | hpublished
  · rw [hnone] at hinit
    cases hinit
  · exact ⟨S, _, hS, hret, rfl, hpublished⟩

end System

end DiamondApparatus
