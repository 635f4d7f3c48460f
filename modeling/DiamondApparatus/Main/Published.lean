import DiamondApparatus.Main.Listen
import DiamondApparatus.System.History

/-!
# `diamond listen` and what is published

* `Listen.Runs` : the program has run, and its process took these steps;
* `Runs.process`, `Runs.once` : what its process did, and that it subscribes once;
* `rows_sublist` : what the program has printed was published, each once and in the order of its publication;
* `rows_published` : the same; and once nothing is on its way, the last row is what the server stores.
-/

namespace DiamondApparatus
open Lib Std MyServer

deriving instance DecidableEq for Label

namespace Listen
variable {ι : Type} [DecidableEq ι] {i : ι} {topic : CString} {listenHeaders : Bool} {s s' : Listen ι}

/-- A run of the program in which its process took the steps `ls`. -/
structure Runs (i : ι) (topic : CString) (listenHeaders : Bool) (es : List (Step ι)) (s : Listen ι)
    (ls : List (Label ι)) : Prop where
  exec : Run.exec (step i topic listenHeaders) {} es = some s
  labels : Run.trace (step i topic listenHeaders) (labels i topic) {} es = ls

theorem process_step {a : Step ι} (hstep : s.step i topic listenHeaders a = some s') :
    Run.exec Process.step s.p (s.labels i topic a) = some s'.p := by
  have hone : ∀ {p p' : Process ι} {b : Label ι}, p.step b = some p' →
      Run.exec Process.step p [b] = some p' := fun h => Run.exec_cons_eq_some.2 ⟨_, h, rfl⟩
  cases a with
  | subscribe =>
    obtain ⟨-, hstep⟩ := Option.ite_none_right_eq_some.1 hstep
    unfold labels
    split at hstep
    · next hrun =>
      obtain ⟨p, hp, rfl⟩ := Option.map_eq_some_iff.1 hstep
      rw [if_pos hrun]
      exact hone hp
    · next hrun =>
      cases hstep
      rw [if_neg hrun]
      rfl
  | test =>
    obtain ⟨-, hstep⟩ := Option.ite_none_right_eq_some.1 hstep
    cases hstep
    rfl
  | call =>
    obtain ⟨-, hstep⟩ := Option.ite_none_right_eq_some.1 hstep
    obtain ⟨p, hp, rfl⟩ := Option.map_eq_some_iff.1 hstep
    exact hone hp
  | print =>
    simp only [step] at hstep
    split at hstep
    · cases hstep
      rfl
    · cases hstep
  | enter | leave =>
    obtain ⟨-, hstep⟩ := Option.ite_none_right_eq_some.1 hstep
    cases hstep
    rfl
  | signal signal =>
    simp only [step] at hstep
    split at hstep <;> cases hstep <;> rfl
  | library a =>
    obtain ⟨-, hstep⟩ := Option.ite_none_right_eq_some.1 hstep
    obtain ⟨p, hp, rfl⟩ := Option.map_eq_some_iff.1 hstep
    exact hone hp

omit [DecidableEq ι] in
theorem labels_short (s : Listen ι) (a : Step ι) : (s.labels i topic a).length ≤ 1 := by
  cases a with
  | subscribe =>
    simp only [labels]
    split <;> simp
  | _ => simp [labels]

theorem Runs.process {es : List (Step ι)} {ls : List (Label ι)} (h : Runs i topic listenHeaders es s ls) :
    Run.exec Process.step .start ls = some s.p ∧
      Listening i topic (Run.trace Process.step Process.emits .start ls) s := by
  obtain ⟨hexec, htrace⟩ := Run.trace_trace (g := Process.emits) (f := Listen.p)
    (fun _ _ _ hstep => process_step hstep) h.exec
  rw [h.labels] at hexec htrace
  have hemits : (fun (s : Listen ι) a => Run.trace Process.step Process.emits s.p (s.labels i topic a)) =
      Listen.emits i topic := by
    funext s a
    exact Run.trace_short s.p (labels_short s a)
  rw [hemits] at htrace
  exact ⟨hexec, htrace ▸ Listening.run h.exec⟩

/-- The subscriptions of one step, and whether the program is behind its own. -/
theorem subscribes_step {a : Step ι} (hstep : s.step i topic listenHeaders a = some s') :
    (s.labels i topic a).countP (Label.subscribes topic) + (if s.pc = .connected then 0 else 1) ≤
      if s'.pc = .connected then 0 else 1 := by
  cases a with
  | subscribe =>
    obtain ⟨hpc, hstep⟩ := Option.ite_none_right_eq_some.1 hstep
    have hone : (s.labels i topic .subscribe).countP (Label.subscribes topic) ≤ 1 :=
      List.countP_le_length.trans (labels_short s _)
    split at hstep
    · obtain ⟨p, hp, rfl⟩ := Option.map_eq_some_iff.1 hstep
      rw [if_pos hpc]
      exact hone
    · cases hstep
      rw [if_pos hpc]
      exact hone
  | test =>
    obtain ⟨hpc, hstep⟩ := Option.ite_none_right_eq_some.1 hstep
    cases hstep
    rw [if_neg (by rw [hpc]; decide), if_neg (by split <;> simp)]
    exact Nat.le_refl 1
  | call =>
    obtain ⟨hpc, hstep⟩ := Option.ite_none_right_eq_some.1 hstep
    obtain ⟨p, hp, rfl⟩ := Option.map_eq_some_iff.1 hstep
    rw [if_neg (by rw [hpc]; decide)]
    exact Nat.le_refl 1
  | print =>
    simp only [step] at hstep
    split at hstep
    · next t hpc hi =>
      cases hstep
      rw [if_neg (by rw [hpc]; decide)]
      exact Nat.le_refl 1
    · cases hstep
  | enter | leave =>
    obtain ⟨hpc, hstep⟩ := Option.ite_none_right_eq_some.1 hstep
    cases hstep
    rw [if_neg (by rw [hpc]; decide)]
    exact Nat.le_refl 1
  | signal signal =>
    have hnext : (if s.pc = .connected then 0 else 1) ≤ 1 := by split <;> decide
    simp only [step] at hstep
    split at hstep
    · cases hstep
      exact Nat.le_of_eq (Nat.zero_add _)
    · cases hstep
      exact (Nat.le_of_eq (Nat.zero_add _)).trans hnext
  | library b =>
    obtain ⟨hb, hstep⟩ := Option.ite_none_right_eq_some.1 hstep
    obtain ⟨p, hp, rfl⟩ := Option.map_eq_some_iff.1 hstep
    have hnone : [b].countP (Label.subscribes topic) = 0 := by
      cases b with
      | subscribe m => cases hb
      | _ => rfl
    exact Nat.le_of_eq ((congrArg (· + _) hnone).trans (Nat.zero_add _))

theorem Runs.once {es : List (Step ι)} {ls : List (Label ι)} (h : Runs i topic listenHeaders es s ls) :
    ls.countP (Label.subscribes topic) ≤ 1 := by
  have hstep : ∀ (ls : List (Label ι)) (s : Listen ι) (a : Step ι) (s' : Listen ι),
      ls.countP (Label.subscribes topic) ≤ (if s.pc = .connected then 0 else 1) →
      s.step i topic listenHeaders a = some s' →
      (ls ++ s.labels i topic a).countP (Label.subscribes topic) ≤ if s'.pc = .connected then 0 else 1 := by
    intro ls s a s' hls hstep
    have hone := subscribes_step hstep
    rw [List.countP_append]
    omega
  have hall := Run.invariant_trace (h := []) hstep (Nat.zero_le _) h.exec
  rw [List.nil_append, h.labels] at hall
  exact hall.trans (by split <;> decide)

end Listen

theorem Process.subscribed {ι : Type} [DecidableEq ι] {ls : List (Label ι)} {s : Process ι}
    (hrun : Run.exec Process.step .start ls = some s) {n : CString} (hn : n ∈ s.c.topics) :
    0 < ls.countP (Label.subscribes n) := by
  refine Run.invariant_history (h := []) (I := fun ls s => n ∈ s.c.topics → 0 < ls.countP (Label.subscribes n))
    (fun ls s a s' hI hstep hn => ?_) (fun hn => absurd hn (by simp [Process.start])) hrun hn
  rw [List.countP_append]
  by_cases ha : ∃ m, a = .subscribe m
  · obtain ⟨m, rfl⟩ := ha
    cases Process.step_moves hstep
    by_cases hm : m = n
    · rw [hm]
      exact Nat.lt_add_left _ (by simp [Label.subscribes])
    · refine Nat.lt_add_right _ (hI ?_)
      have hmem : n ∈ (s.c.subscribe m).topics := hn
      rw [ExtTreeMap.mem_iff_isSome_getElem?, MyClient.getElem?_subscribe, if_neg (Ne.symm hm)] at hmem
      exact ExtTreeMap.mem_iff_isSome_getElem?.2 hmem
  · rw [topics_kept hstep fun m hm => ha ⟨m, hm⟩] at hn
    exact Nat.lt_add_right _ (hI hn)

namespace System
variable {κ ι : Type} [DecidableEq κ] [DecidableEq ι]

/-- What `diamond listen` has printed was published. -/
theorem rows_sublist {listenfd : Nat} {others : FdSet} {now : Now} {as : List (Action κ ι)} {S : System κ ι}
    (hrun : Run.exec step (start listenfd others now) as = some S) {k : κ} {i : ι} {topic : CString}
    (hs : topic ≠ statsName) (ht : topic ≠ topicsName) {listenHeaders : Bool} {es : List (Listen.Step ι)}
    {L : Listen ι} (hlisten : Listen.Runs i topic listenHeaders es L
      (Run.trace step (labels k) (start listenfd others now) as)) :
    L.rows.Sublist ((initially topic).toList ++
      Broker.posts topic (Run.trace step orders (start listenfd others now) as)) := by
  obtain ⟨-, hlistening⟩ := hlisten.process
  obtain ⟨-, hevents⟩ := client_exact hrun k
  rw [hevents] at hlistening
  have hheard := heard_exact hrun hs ht k
  have hjoins := joins_exact hrun k topic
  have honce := hlisten.once
  generalize Run.trace step (events k) (start listenfd others now) as = h at hlistening hheard
  have hrows : L.rows.Sublist (taken topic h) := by
    rw [← hlistening.given]
    exact List.sublist_append_left _ _
  have hnews : (taken topic h).Sublist (notifies topic h) := by
    cases htopic : L.p.c.topics[topic]? with
    | none => rw [(hlistening.following.blank htopic).2]; exact List.nil_sublist _
    | some t => exact (hlistening.following.entry t htopic).sublist
  have hexpect : (notifies topic h).Sublist (Broker.expect k topic (initially topic) false
      (Run.trace step orders (start listenfd others now) as)) := by
    rw [← hheard]
    exact List.sublist_append_left _ _
  exact hrows.trans (hnews.trans (hexpect.trans (Broker.expect_sublist_once (by omega) _)))

/-- **`diamond listen` prints what is published.** However the steps of the server and of the other clients
interleave with those of the program: its rows are some of the values published on the topic, each printed
once, and in the order of their publication. When it sleeps in `get()`, and nothing is on its way on its
connection, the last row is what the server stores. -/
theorem rows_published (listenfd : Nat) (others : FdSet) (now : Now) (as : List (Action κ ι)) (S : System κ ι)
    (hrun : Run.exec step (start listenfd others now) as = some S) (k : κ) (i : ι) (topic : CString)
    (hs : topic ≠ statsName) (ht : topic ≠ topicsName) (listenHeaders : Bool) (es : List (Listen.Step ι))
    (L : Listen ι) (hlisten : Listen.Runs i topic listenHeaders es L
      (Run.trace step (labels k) (start listenfd others now) as)) :
    L.rows.Sublist ((initially topic).toList ++
        Broker.posts topic (Run.trace step orders (start listenfd others now) as)) ∧
      ∀ x u, S.conns k = some x → x.closed = false → x.up = [] → x.down = [] → i ∈ x.proc.getcond →
        S.server.topics[topic]? = some u → L.rows.getLast? = some u.d := by
  refine ⟨rows_sublist hrun hs ht hlisten, fun x u hx hopen hxup hxdown hasleep hu => ?_⟩
  obtain ⟨hprocess, hlistening⟩ := hlisten.process
  obtain ⟨hclient, hevents⟩ := client_exact hrun k
  have hproc : L.p = S.procAt k := Option.some_inj.1 (hprocess.symm.trans hclient)
  rw [hevents] at hlistening
  have hheard := heard_exact hrun hs ht k
  have hjoins := joins_exact hrun k topic
  have hstored := stored_exact hrun hs ht
  have hsubscribed := fun t (ht : L.p.c.topics[topic]? = some t) =>
    Process.subscribed hprocess (Following.mem_topics ht)
  generalize Run.trace step (labels k) (start listenfd others now) as = ls at hjoins hsubscribed
  generalize Run.trace step (events k) (start listenfd others now) as = h at hlistening hheard
  have hopened := closed_run hrun (k := k)
  generalize Run.trace step orders (start listenfd others now) as = ops at hheard hjoins hstored hopened
  rw [procAt_of hx] at hproc
  obtain ⟨-, wait, t, loop, hwaits, htest⟩ := hlistening.following.asleep (hproc ▸ hasleep)
  obtain ⟨-, -, htopic, -⟩ := hlistening.following.waits _ _ _ _ hwaits
  -- nothing is left to print, and nothing new is left to take
  have hpending : L.pending i = [] := by
    unfold Listen.pending
    rw [hwaits]
    split <;> rfl
  have hgiven := hlistening.given
  rw [hpending, List.append_nil] at hgiven
  have hstate : (L.p.c.heap t).state ≠ .changed := by
    intro hchanged
    rw [hchanged] at htest
    cases loop <;> cases htest
  rw [hgiven, (hlistening.following.entry t htopic).caughtUp hstate]
  -- the server has handled the subscription, and the connection has not left
  have hmem := hsubscribed t htopic
  have hjoin : .join k topic ∈ ops := by
    by_contra hno
    have hzero := Broker.countP_joins_eq_zero.2 hno
    have hnil : joinsIn k topic [] = 0 := rfl
    rw [upOf_of hx, hxup] at hjoins
    omega
  have hleave := (hopened ((closedAt_of hx).trans hopen)).2
  rw [downOf_of hx, hxdown, List.filterMap_nil, List.append_nil] at hheard
  rw [hu] at hstored
  have hlast : Mirror.overtake none (Broker.expect k topic (initially topic) false ops) = some u.d :=
    Mirror.overtake_expect_of_join hleave hjoin u.d hstored.symm
  rw [hheard, ← hlast, Mirror.overtake, Option.or_none]

def listenRelay : List (Action Bool Unit) :=
  [.connect false, .accept false 4, .subscribe false (.ofString "a") .zero, .serve false [] 0,
    .thread false (.get () (.ofString "a") .new), .thread false (.lock ()),
    .connect true, .accept true 5, .publish true (.ofString "a") { d := [.float 7] }, .serve true [] 0,
    .receive false [] 0 (some ()), .thread false (.resume ()),
    .thread false (.get () (.ofString "a") .new), .thread false (.lock ())]

def listenSteps : List (Listen.Step Unit) :=
  [.subscribe, .enter, .test, .call, .library (.lock ()),
    .library (.packet (Topic.toMessage { d := [.float 7] } scNotify (.ofString "a")) 0 (some ())),
    .library (.resume ()), .print, .test, .call, .library (.lock ())]

theorem rows_published_relay : ∃ (S : System Bool Unit) (L : Listen Unit),
    Run.exec step (start 3 ∅ 0) listenRelay = some S ∧ L.rows.getLast? = some [.float 7] ∧
    L.rows.Sublist (Broker.posts (.ofString "a") (Run.trace step orders (start 3 ∅ 0) listenRelay)) := by
  have hrun : (Run.exec step (start 3 ∅ 0) listenRelay).any (fun S => (S.conns false).any fun x =>
      !x.closed && decide (x.up = []) && decide (x.down = []) && decide (() ∈ x.proc.getcond) &&
        decide (S.server.topics[CString.ofString "a"]?.map Topic.d = some [.float 7])) = true := by
    decide +kernel
  have hlisten : (Run.exec (Listen.step () (.ofString "a") false) {} listenSteps).isSome = true := by
    decide +kernel
  have hlabels : Run.trace (Listen.step () (.ofString "a") false) (Listen.labels () (.ofString "a")) {} listenSteps =
      Run.trace step (labels false) (start 3 ∅ 0) listenRelay := by
    decide +kernel
  obtain ⟨S, hS, hrun⟩ := (Option.any_eq_true _ _).1 hrun
  obtain ⟨x, hx, hrun⟩ := (Option.any_eq_true _ _).1 hrun
  obtain ⟨L, hL⟩ := Option.isSome_iff_exists.1 hlisten
  simp only [Bool.and_eq_true, decide_eq_true_eq, Bool.not_eq_true', Option.map_eq_some_iff] at hrun
  obtain ⟨⟨⟨⟨hopen, hup⟩, hdown⟩, hasleep⟩, u, hu, hdata⟩ := hrun
  obtain ⟨hrows, hlast⟩ := rows_published 3 ∅ 0 listenRelay S hS false () (.ofString "a") (by decide +kernel)
    (by decide +kernel) false listenSteps L ⟨hL, hlabels⟩
  have hnone : initially (.ofString "a") = none := by decide +kernel
  rw [hnone, Option.toList_none, List.nil_append] at hrows
  exact ⟨S, L, hS, (hlast x u hx hopen hup hdown hasleep hu).trans (congrArg some hdata), hrows⟩

end System

end DiamondApparatus
