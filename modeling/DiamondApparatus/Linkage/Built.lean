import DiamondApparatus.Linkage
import DiamondApparatus.System.Provenance

/-!
# What one C program fetches, another has built

* `Linkage.fetched_eq` : the loop over a fetched topic reads its items;
* `Process.returned_empty` : what `get()` returns without data is empty;
* `CSystem.built j es` : the items that the program `j` has added since its last `newtopic`;
* `Kept` : what holds of the programs and their steps, step by step;
* `fetched_built` : what the loop reads is nothing, or what a program had built when it published it.
-/

namespace DiamondApparatus
open Lib Std MyServer

/-! ## Reading a topic -/

theorem Topic.size_eq {t : Topic} (h : t.d.length < 2 ^ 31) : t.size = t.d.length := by
  rw [Topic.size, BitVec.toInt_eq_toNat_of_lt] <;> rw [BitVec.toNat_ofNat, Nat.mod_eq_of_lt (by omega)]
  omega

theorem Topic.item_natCast {t : Topic} {i : Nat} (h : i < t.d.length) : t.item i = t.d[i] := by
  rw [Topic.item, if_neg (by omega), Int.toNat_natCast, List.getElem?_eq_getElem h, Option.getD_some]

theorem Datum.read_eq (q : Datum) :
    (if q.t = dtFloat.toUInt32 then Datum.float q.f else Datum.string q.s) = q := by
  cases q with
  | float f => exact if_pos rfl
  | string s => exact if_neg (show dtString.toUInt32 ≠ dtFloat.toUInt32 by decide)

/-- **The loop over a fetched topic reads its items.** -/
theorem Linkage.fetched_eq {L : Linkage} (h : L.topicToAccess.d.length < 2 ^ 31) :
    L.fetched = L.topicToAccess.d := by
  rw [fetched, fetchsize, Topic.size_eq h, Int.toNat_natCast]
  refine List.ext_getElem (by simp) fun i hi hi' => ?_
  rw [List.getElem_map, List.getElem_range, fetchtype, fetchfloat, fetchstring, Topic.item_natCast hi']
  exact Datum.read_eq _

/-! ## Without data -/

namespace MyClient
variable {c : MyClient} {n : CString} {t : Ref} {loop : Loop} {rv : Topic}

theorem getLoop_returns (h : (c.getLoop n t loop).2 = .returns rv) :
    rv = c.heap t ∧ (c.heap t).state ≠ .nodata := by
  rcases getLoop_cases c n t loop with ⟨-, he⟩ | ⟨htest, he⟩
  · rw [he] at h
    cases h
  · rw [he] at h
    cases h
    exact ⟨rfl, test_false_data htest⟩

theorem getLocked_returns {wait : Wait} (h : (c.getLocked n wait).2 = .returns rv) :
    rv.d = [] ∨ ∃ t, rv = c.heap t ∧ (c.heap t).state ≠ .nodata := by
  cases ht : c.topics[n]? with
  | none =>
    simp only [getLocked, ht] at h
    cases h
    exact Or.inl rfl
  | some t =>
    simp only [getLocked, ht] at h
    by_cases hnodata : (c.heap t).state = .nodata
    · rw [if_pos hnodata] at h
      by_cases hwait : wait = .any ∨ wait = .new
      · rw [if_pos hwait] at h
        exact Or.inr ⟨t, getLoop_returns (c := { c with waittopic := none }) h⟩
      · rw [if_neg hwait] at h
        cases h
        exact Or.inl rfl
    · rw [if_neg hnodata] at h
      by_cases hwait : wait = .new
      · rw [if_pos hwait] at h
        exact Or.inr ⟨t, getLoop_returns (c := { c with waittopic := none }) h⟩
      · rw [if_neg hwait] at h
        cases h
        exact Or.inr ⟨t, rfl, hnodata⟩

theorem getWoken_returns (h : (c.getWoken n t loop).2 = .returns rv) :
    rv.d = [] ∨ ∃ t, rv = c.heap t ∧ (c.heap t).state ≠ .nodata := by
  unfold getWoken at h
  dsimp only at h
  by_cases hrun : c.running = true
  · rw [if_pos hrun] at h
    exact Or.inr ⟨t, getLoop_returns (c := { c with waittopic := none }) h⟩
  · rw [if_neg hrun] at h
    cases h
    exact Or.inl rfl

end MyClient

namespace Process
variable {ι : Type} [DecidableEq ι] {s s' : Process ι} {a : Label ι}

/-- What the threads have returned is empty, or data. -/
def Plain (s : Process ι) : Prop := ∀ i rv, s.threads i = .returned rv → rv.isValid = false → rv.d = []

theorem Plain.step (h : s.Plain) {es : List CacheEvent} (hr : Recorded es s) (hstep : s.step a = some s') :
    s'.Plain := by
  intro i rv hret hinvalid
  have hempty : (rv.d = [] ∨ ∃ t, rv = s.c.heap t ∧ (s.c.heap t).state ≠ .nodata) → rv.d = [] := by
    rintro (hd | ⟨t, rfl, hdata⟩)
    · exact hd
    · rw [(hr.shows t).isValid hdata] at hinvalid
      cases hinvalid
  rcases thread_step hstep i with ⟨-, hsame | hidle | hany⟩ | ⟨m, w, -, hentered | hno⟩ |
    ⟨m, w, rfl | rfl, -, -⟩
  · exact h i rv (hsame ▸ hret) hinvalid
  · rw [hidle] at hret
    cases hret
  · rw [hany] at hret
    cases hret
  · rw [hentered] at hret
    cases hret
  · rw [hno] at hret
    cases hret
    rfl
  · simp only [step] at hstep
    split at hstep
    · cases hstep
      exact hempty (MyClient.getLocked_returns (ends_returned.1 hret))
    · cases hstep
  · simp only [step] at hstep
    split at hstep
    · cases hstep
    · split at hstep
      · cases hstep
        exact hempty (MyClient.getWoken_returns (ends_returned.1 hret))
      · cases hstep
        rw [setThread_self] at hret
        cases hret
      · cases hstep

/-- **What `get()` returns without data is empty.** -/
theorem returned_empty {ls : List (Label ι)} (hrun : Run.exec Process.step .start ls = some s) : s.Plain := by
  have hkeeps : ∀ (h : List CacheEvent) (s : Process ι) (a : Label ι) (s' : Process ι),
      (Recorded h s ∧ s.Plain) → s.step a = some s' → Recorded (h ++ s.emits a) s' ∧ s'.Plain :=
    fun h s a s' hI hstep => ⟨hI.1.step hstep, hI.2.step hI.1 hstep⟩
  have hplain : (start : Process ι).Plain := fun i rv hret _ => by cases hret
  exact (Run.invariant_trace (h := []) hkeeps ⟨Recorded.start, hplain⟩ hrun).2

end Process

/-! ## Steps of the programs -/

theorem Linkage.wrapped_topics {L : Linkage} {k : Option Int} (r : Except DiamondException Unit) :
    (L.wrapped r fun L _ => (L, k)).1.topicToPublish = L.topicToPublish ∧
      (L.wrapped r fun L _ => (L, k)).1.topicToAccess = L.topicToAccess := by
  cases r <;> exact ⟨rfl, rfl⟩

theorem CRequest.wrapper_topics (c : CRequest) (L : Linkage) (r : Except DiamondException Unit) :
    (c.wrapper L r).1.topicToPublish = L.topicToPublish ∧ (c.wrapper L r).1.topicToAccess = L.topicToAccess := by
  cases c <;> exact Linkage.wrapped_topics r

namespace CSystem
variable {κ : Type} [DecidableEq κ] {C C' : CSystem κ} {e : CStep κ}

/-- What the program `j` has in its topic after a step, if it had `d`. -/
def builds (j : κ) (d : List Datum) : CStep κ → List Datum
  | .newtopic k => if k = j then [] else d
  | .addfloat k f => if k = j then d ++ [.float f] else d
  | .addstring k s => if k = j then d ++ [.string s] else d
  | _ => d

/-- The items that the program `j` has added since its last `newtopic`. -/
def built (j : κ) (es : List (CStep κ)) : List Datum := es.foldl (builds j) []

def assigned (k : κ) : CStep κ → Option (CString × Wait)
  | .assign j n wait => if j = k then some (n, wait) else none
  | _ => none

def shadow (C : CSystem κ) (es : List (CStep κ)) : List (Action κ Unit) := Run.trace step actions C es

theorem step_eq_some : C.step e = some C' ↔ C.Enabled e = true ∧
    Run.exec System.step C.sys (C.actions e) = some C'.sys ∧
    C'.progs = fun k => if who e = some k then C.after (C.progs k) e else C.progs k := by
  rw [step, Option.ite_none_right_eq_some, Option.map_eq_some_iff]
  refine and_congr_right fun _ => ⟨?_, ?_⟩
  · rintro ⟨S, hS, rfl⟩
    exact ⟨hS, rfl⟩
  · rintro ⟨hS, hprogs⟩
    exact ⟨C'.sys, hS, by rw [← hprogs]⟩

theorem progs_step (hstep : C.step e = some C') (k : κ) :
    C'.progs k = if who e = some k then C.after (C.progs k) e else C.progs k :=
  congrFun (step_eq_some.1 hstep).2.2 k

theorem exec_shadow {es : List (CStep κ)} (hrun : Run.exec step C es = some C') :
    Run.exec System.step C.sys (shadow C es) = some C'.sys := by
  obtain ⟨S, hS, hsame⟩ := Run.exec_trace (R := fun (C : CSystem κ) S => C.sys = S)
    (fun C S e C' hR hstep => ⟨C'.sys, hR ▸ (step_eq_some.1 hstep).2.1, rfl⟩) rfl hrun
  exact hsame ▸ hS

omit [DecidableEq κ] in
theorem actions_short (C : CSystem κ) (e : CStep κ) : (C.actions e).length ≤ 1 := by
  cases e with
  | init k r =>
    rw [actions]
    split <;> simp
  | send k c field => cases c <;> simp [actions]
  | get k n wait =>
    rw [actions]
    split <;> simp
  | _ => simp [actions]

theorem trace_shadow {τ : Type} {f : System κ Unit → Action κ Unit → List τ} {C₀ : CSystem κ}
    {es : List (CStep κ)} (hrun : Run.exec step C₀ es = some C) (hstep : C.step e = some C') :
    Run.trace System.step f C₀.sys (shadow C₀ (es ++ [e])) =
      Run.trace System.step f C₀.sys (shadow C₀ es) ++ (C.actions e).flatMap (f C.sys) := by
  have hone : Run.trace step actions C [e] = C.actions e := by
    rw [Run.trace_cons hstep]
    exact List.append_nil _
  have hshadow : shadow C₀ (es ++ [e]) = shadow C₀ es ++ C.actions e := by
    rw [shadow, Run.trace_append hrun, hone]
    rfl
  rw [hshadow, Run.trace_append (exec_shadow hrun), Run.trace_short _ (actions_short C e)]

/-! ### What a step does to the topics of a program -/

theorem built_step (hstep : C.step e = some C') (j : κ) : (C'.progs j).link.topicToPublish.d =
    builds j (C.progs j).link.topicToPublish.d e := by
  rw [progs_step hstep]
  cases e with
  | newtopic k | addfloat k f | addstring k s =>
    simp only [builds, who, Option.some_inj]
    split <;> rfl
  | init k r =>
    show _ = (C.progs j).link.topicToPublish.d
    split
    · exact congrArg Topic.d (Linkage.wrapped_topics r).1
    · rfl
  | test k c errno =>
    show _ = (C.progs j).link.topicToPublish.d
    split
    · rw [after]
      split
      · rfl
      · exact congrArg Topic.d (c.wrapper_topics _ _).1
    · rfl
  | send k c field =>
    show _ = (C.progs j).link.topicToPublish.d
    split
    · exact congrArg Topic.d (c.wrapper_topics _ _).1
    · rfl
  | get k n wait =>
    show _ = (C.progs j).link.topicToPublish.d
    split
    · rw [after]
      split <;> rfl
    · rfl
  | assign k n wait | waitforany k | woken k | library a =>
    show _ = (C.progs j).link.topicToPublish.d
    split <;> rfl

/-- A step leaves the topic that was fetched alone, unless it is the end of a `get()`. -/
theorem accessed_step (hstep : C.step e = some C') (k : κ) (he : assigned k e = none) :
    (C'.progs k).link.topicToAccess = (C.progs k).link.topicToAccess ∨
      (C'.progs k).link.topicToAccess.d = [] := by
  rw [progs_step hstep]
  cases e with
  | init j r =>
    refine Or.inl ?_
    split
    · exact (Linkage.wrapped_topics r).2
    · rfl
  | test j c errno =>
    refine Or.inl ?_
    split
    · rw [after]
      split
      · rfl
      · exact (c.wrapper_topics _ _).2
    · rfl
  | send j c field =>
    refine Or.inl ?_
    split
    · exact (c.wrapper_topics _ _).2
    · rfl
  | get j n wait =>
    split
    · rw [after]
      split
      · exact Or.inl rfl
      · exact Or.inr rfl
    · exact Or.inl rfl
  | assign j n wait =>
    refine Or.inl (if_neg ?_ ▸ rfl)
    intro hj
    rw [assigned, if_pos (Option.some_inj.1 hj)] at he
    cases he
  | newtopic j | addfloat j f | addstring j s | waitforany j | woken j | library a =>
    refine Or.inl ?_
    split <;> rfl

/-- Another step than one of its own is no call of `get()` by the program `k`. -/
theorem calls_other (hstep : C.step e = some C') {k : κ} (hwho : who e ≠ some k) (S : System κ Unit) :
    ((C.actions e).flatMap (System.labels k S)).filterMap (Label.calls ()) = [] := by
  have hen := (step_eq_some.1 hstep).1
  cases e with
  | init j r =>
    rw [actions]
    split <;> rfl
  | send j c field =>
    have hj : k ≠ j := fun he => hwho (congrArg some he.symm)
    cases c <;> simp [actions, System.labels, hj]
  | get j n wait =>
    have hj : k ≠ j := fun he => hwho (congrArg some he.symm)
    rw [actions]
    split
    · simp [System.labels, hj]
    · rfl
  | waitforany j =>
    have hj : k ≠ j := fun he => hwho (congrArg some he.symm)
    simp [actions, System.labels, hj]
  | library a =>
    rw [actions, List.flatMap_singleton]
    cases a with
    | thread j b =>
      rw [System.labels]
      split
      · cases b with
        | get i n wait => cases hen
        | _ => rfl
      · rfl
    | subscribe j n field => cases hen
    | receive j tail now who =>
      rw [System.labels]
      split
      · cases (S.downOf k).head? <;> rfl
      · rfl
    | _ => rfl
  | _ => rfl

/-- Inside a `get()`, a program has called it, and makes no other step before it is assigned. -/
theorem getting_step (hstep : C.step e = some C') {k : κ} {n : CString} {wait : Wait}
    (hpc : (C'.progs k).pc = .getting n wait) :
    ((C.actions e).flatMap (System.labels k C.sys)).filterMap (Label.calls ()) = [(n, wait)] ∨
      (C.progs k).pc = .getting n wait ∧ who e ≠ some k := by
  by_cases hwho : who e = some k
  · have hen := (step_eq_some.1 hstep).1
    rw [progs_step hstep, if_pos hwho] at hpc
    refine Or.inl ?_
    cases e with
    | get j m w =>
      cases hwho
      rw [after] at hpc
      rw [actions]
      by_cases hsome : (C.sys.conns k).isSome = true
      · rw [if_pos hsome] at hpc ⊢
        cases hpc
        simp [System.labels, Label.calls]
      · rw [if_neg hsome] at hpc
        rw [of_decide_eq_true hen] at hpc
        cases hpc
    | test j c errno =>
      cases hwho
      rw [after] at hpc
      split at hpc
      · cases hpc
      · rw [of_decide_eq_true hen] at hpc
        cases hpc
    | newtopic j | addfloat j f | addstring j s | init j r =>
      cases hwho
      have hpc' : (C.progs k).pc = .getting n wait := hpc
      rw [of_decide_eq_true hen] at hpc'
      cases hpc'
    | send j c field => cases hpc
    | assign j m w => cases hpc
    | waitforany j => cases hpc
    | woken j => cases hpc
    | library a => cases hwho
  · rw [progs_step hstep, if_neg hwho] at hpc
    exact Or.inr ⟨hpc, hwho⟩

/-- What a step publishes, a program had built. -/
theorem published_step (hstep : C.step e = some C') {n : CString} {d : List Datum}
    (hd : d ∈ (C.actions e).flatMap (System.publishes n C.sys)) : d.length < 2 ^ 31 ∧
      ∃ j field, e = .send j (.publish n) field ∧ d = (C.progs j).link.topicToPublish.d := by
  obtain ⟨hen, hexec, -⟩ := step_eq_some.1 hstep
  cases e with
  | send j c field =>
    cases c with
    | publish m =>
      rw [actions, List.flatMap_singleton, System.publishes] at hd
      by_cases hm : m = n
      · rw [if_pos hm, List.mem_singleton] at hd
        rw [actions] at hexec
        obtain ⟨S, hS, -⟩ := Run.exec_cons_eq_some.1 hexec
        obtain ⟨x, -, hS⟩ := Option.bind_eq_some_iff.1 hS
        obtain ⟨⟨-, hsize⟩, -⟩ := Option.ite_none_right_eq_some.1 hS
        have hshort := length_le_messageSize (C.progs j).link.topicToPublish.d m
        subst hd
        exact ⟨by omega, j, field, by rw [hm], rfl⟩
      · rw [if_neg hm] at hd
        cases hd
    | subscribe m => simp [actions, System.publishes] at hd
    | clearserver => simp [actions, System.publishes] at hd
  | init j r =>
    rw [actions] at hd
    split at hd <;> simp [System.publishes] at hd
  | get j m wait =>
    rw [actions] at hd
    split at hd <;> simp [System.publishes] at hd
  | library a =>
    rw [actions, List.flatMap_singleton] at hd
    cases a with
    | publish j m t => cases hen
    | _ => cases hd
  | waitforany j => simp [actions, System.publishes] at hd
  | _ => cases hd

/-! ### Runs -/

section
variable {listenfd : Nat} {others : FdSet} {now : Now} {es : List (CStep κ)}

/-- What the steps `es` from the start leave. -/
structure Kept (listenfd : Nat) (others : FdSet) (now : Now) (es : List (CStep κ)) (C : CSystem κ) : Prop where
  run : Run.exec step (start listenfd others now) es = some C
  built : ∀ j, (C.progs j).link.topicToPublish.d = built j es
  getting : ∀ k n wait, (C.progs k).pc = .getting n wait →
    ((Run.trace System.step (System.labels k) (.start listenfd others now)
      (shadow (start listenfd others now) es)).filterMap (Label.calls ())).getLast? = some (n, wait)
  published : ∀ n d, d ∈ Run.trace System.step (System.publishes n) (.start listenfd others now)
      (shadow (start listenfd others now) es) → d.length < 2 ^ 31 ∧
    ∃ j pre post field, es = pre ++ .send j (.publish n) field :: post ∧ d = CSystem.built j pre
  accessed : ∀ k n wait, (es.filterMap (assigned k)).getLast? = some (n, wait) →
    (C.progs k).link.topicToAccess.d = [] ∨ ∃ t, .copied n wait t (C.progs k).link.topicToAccess ∈
      Run.trace System.step (System.events k) (.start listenfd others now)
        (shadow (start listenfd others now) es)

theorem kept_start : Kept listenfd others now [] (start listenfd others now : CSystem κ) where
  run := rfl
  built _ := rfl
  getting k n wait h := by cases h
  published n d h := by cases h
  accessed k n wait h := by cases h

/-- The topic that a program assigns has no items, or is a copy made by the `get()` it was in. -/
theorem Kept.assigns (h : Kept listenfd others now es C) {k : κ} {n : CString} {wait : Wait} {rv : Topic}
    (hpc : (C.progs k).pc = .getting n wait) (hret : (C.threadOf k).topic = some rv) :
    rv.d = [] ∨ ∃ t, .copied n wait t rv ∈ Run.trace System.step (System.events k)
      (.start listenfd others now) (shadow (start listenfd others now) es) := by
  have hsys := exec_shadow h.run
  have hthread : (C.sys.procAt k).threads () = .returned rv := by
    rw [threadOf] at hret
    rw [System.procAt]
    cases hx : C.sys.conns k with
    | none =>
      rw [hx] at hret
      cases hret
    | some x =>
      rw [hx, Option.elim_some] at hret
      rw [Option.elim_some]
      cases hi : x.proc.threads () with
      | returned u =>
        rw [hi] at hret
        cases hret
        rfl
      | idle | waitingAny | entered m w | waiting m w t loop =>
        rw [hi] at hret
        cases hret
  cases hvalid : rv.isValid with
  | true =>
    obtain ⟨m, w, t, hcalled, hcopied⟩ := (System.answered_exact hsys k).after () rv hthread hvalid
    cases hcalled.symm.trans (h.getting k n wait hpc)
    exact Or.inr ⟨t, hcopied⟩
  | false =>
    exact Or.inl (Process.returned_empty (System.client_exact hsys k).1 () rv hthread hvalid)

theorem Kept.step (h : Kept listenfd others now es C) (hstep : C.step e = some C') :
    Kept listenfd others now (es ++ [e]) C' where
  run := by
    rw [Run.exec_append, h.run, Option.bind_some]
    exact Run.exec_cons_eq_some.2 ⟨C', hstep, rfl⟩
  built j := by
    rw [built_step hstep, h.built j, CSystem.built, CSystem.built, List.foldl_append]
    rfl
  getting k n wait hpc := by
    have htrace := trace_shadow (f := System.labels k) h.run hstep
    rw [show System.start listenfd others now = (start listenfd others now : CSystem κ).sys from rfl, htrace,
      List.filterMap_append]
    rcases getting_step hstep hpc with hcall | ⟨hpc, hwho⟩
    · rw [hcall, List.getLast?_append]
      rfl
    · rw [calls_other hstep hwho, List.append_nil]
      exact h.getting k n wait hpc
  published n d hd := by
    have htrace := trace_shadow (f := System.publishes n) h.run hstep
    rw [show System.start listenfd others now = (start listenfd others now : CSystem κ).sys from rfl, htrace,
      List.mem_append] at hd
    rcases hd with hd | hd
    · obtain ⟨hshort, j, pre, post, field, rfl, hbuilt⟩ := h.published n d hd
      exact ⟨hshort, j, pre, post ++ [e], field, by simp, hbuilt⟩
    · obtain ⟨hshort, j, field, rfl, rfl⟩ := published_step hstep hd
      exact ⟨hshort, j, es, [], field, rfl, h.built j⟩
  accessed k n wait hlast := by
    have htrace := trace_shadow (f := System.events k) h.run hstep
    have hgrow : ∀ {x}, x ∈ Run.trace System.step (System.events k) (.start listenfd others now)
        (shadow (start listenfd others now) es) → x ∈ Run.trace System.step (System.events k)
          (.start listenfd others now) (shadow (start listenfd others now) (es ++ [e])) := by
      intro x hx
      have hx' := List.mem_append_left ((C.actions e).flatMap (System.events k C.sys)) hx
      exact htrace ▸ hx'
    rw [List.filterMap_append] at hlast
    cases he : assigned k e with
    | none =>
      rw [List.filterMap_cons_none he, List.filterMap_nil, List.append_nil] at hlast
      rcases accessed_step hstep k he with hsame | hempty
      · rw [hsame]
        exact (h.accessed k n wait hlast).imp_right fun ⟨t, ht⟩ => ⟨t, hgrow ht⟩
      · exact Or.inl hempty
    | some x =>
      rw [List.filterMap_cons_some he, List.filterMap_nil, List.getLast?_append, List.getLast?_singleton,
        Option.some_or, Option.some_inj] at hlast
      subst hlast
      cases e with
      | assign j m w =>
        obtain ⟨hj, hmw⟩ := Option.ite_none_right_eq_some.1 he
        subst hj
        cases hmw
        obtain ⟨hpc, hsome⟩ := of_decide_eq_true (step_eq_some.1 hstep).1
        obtain ⟨rv, hret⟩ := Option.isSome_iff_exists.1 hsome
        have haccess : (C'.progs j).link.topicToAccess = rv := by
          rw [progs_step hstep, who, if_pos rfl, after, hret]
          rfl
        rw [haccess]
        exact (h.assigns hpc hret).imp_right fun ⟨t, ht⟩ => ⟨t, hgrow ht⟩
      | _ => cases he

theorem kept_run (hrun : Run.exec step (start listenfd others now) es = some C) :
    Kept listenfd others now es C := by
  have hall := Run.invariant_history (h := []) (fun _ _ _ _ hk hstep => Kept.step hk hstep) kept_start hrun
  rwa [List.nil_append] at hall

end

/-- **What one C program fetches, another has built.** Through any run of C programs with the server, however
their steps interleave: behind a `get(n)`, the loop of `mainc.c` reads nothing, or what the server has
stored in `n` from the start, or exactly the items that some program had added since its last `newtopic`
when it published them on `n`. -/
theorem fetched_built (listenfd : Nat) (others : FdSet) (now : Now) (es : List (CStep κ)) (C : CSystem κ)
    (hrun : Run.exec step (start listenfd others now) es = some C) (k : κ) (n : CString) (wait : Wait)
    (hlast : (es.filterMap (assigned k)).getLast? = some (n, wait)) (hs : n ≠ statsName) (ht : n ≠ topicsName) :
    (C.progs k).link.fetched = [] ∨ initially n = some (C.progs k).link.fetched ∨
      ∃ j pre post field, es = pre ++ .send j (.publish n) field :: post ∧
        (C.progs k).link.fetched = built j pre := by
  have hkept := kept_run hrun
  have hread : ∀ {d}, (C.progs k).link.topicToAccess.d = d → d.length < 2 ^ 31 →
      (C.progs k).link.fetched = d := by
    rintro d rfl hshort
    exact Linkage.fetched_eq hshort
  rcases hkept.accessed k n wait hlast with hempty | ⟨t, hcopied⟩
  · exact Or.inl (hread hempty (by decide))
  · refine Or.inr ?_
    rcases System.copied_published (exec_shadow hrun) hs ht hcopied with hinit | hpublished
    · refine Or.inl ?_
      rw [hread rfl ?_]
      · exact hinit
      · rw [initially] at hinit
        split at hinit
        · rw [← Option.some_inj.1 hinit]
          decide
        · cases hinit
    · obtain ⟨hshort, j, pre, post, field, hes, hbuilt⟩ := hkept.published n _ hpublished
      exact Or.inr ⟨j, pre, post, field, hes, (hread rfl hshort).trans hbuilt⟩

def handover : List (CStep Bool) :=
  [.init false (.ok ()), .library (.accept false 4), .test false (.subscribe (.ofString "a")) 0,
    .send false (.subscribe (.ofString "a")) .zero, .library (.serve false [] 0),
    .init true (.ok ()), .library (.accept true 5), .newtopic true, .addfloat true 7,
    .addstring true (.ofString "b"), .test true (.publish (.ofString "a")) 0,
    .send true (.publish (.ofString "a")) .zero, .library (.serve true [] 0), .newtopic true,
    .library (.receive false [] 0 none), .get false (.ofString "a") .any,
    .library (.thread false (.lock ())), .assign false (.ofString "a") .any]

theorem fetched_built_handover : ∃ C : CSystem Bool, Run.exec step (start 3 ∅ 0) handover = some C ∧
    (C.progs false).link.fetched = [.float 7, .string (.ofString "b")] ∧
    ∃ j pre post field, handover = pre ++ .send j (.publish (.ofString "a")) field :: post ∧
      (C.progs false).link.fetched = built j pre := by
  have hrun : (Run.exec step (start 3 ∅ 0) handover).any (fun C =>
      (C.progs false).link.fetched = [.float 7, .string (.ofString "b")]) = true := by
    decide +kernel
  obtain ⟨C, hC, hfetched⟩ := (Option.any_eq_true _ _).1 hrun
  have hfetched := of_decide_eq_true hfetched
  have hlast : (handover.filterMap (assigned false)).getLast? = some (.ofString "a", .any) := by decide +kernel
  have hnone : initially (.ofString "a") = none := by decide +kernel
  rcases fetched_built 3 ∅ 0 handover C hC false (.ofString "a") .any hlast (by decide +kernel)
    (by decide +kernel) with hempty | hinit | hbuilt
  · rw [hempty] at hfetched
    cases hfetched
  · rw [hnone] at hinit
    cases hinit
  · exact ⟨C, hC, hfetched, hbuilt⟩

end CSystem

end DiamondApparatus
