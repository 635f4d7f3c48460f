import DiamondApparatus.Client.Cache

/-!
# New data in `get(n,GET_WAITNEW)`

A `get` that finds old data waits until the topic is `TOPIC_CHANGED`. One that finds none waits until it
is not `TOPIC_NODATA`: another thread may have read the data before the waiter resumes, and then it is
returned as old.

* `NewData h` : every copy of a `GET_WAITNEW` in `h` is of a notification that nothing copied before;
* `Unbeaten s a` : the step `a` does not resume a waiter of the first kind on data that was read;
* `waitnew_iff` : a run returns new data only, exactly if none of its steps does that.
-/

namespace DiamondApparatus
open Lib Std

/-- The data `rv` of the entry `t` of `n`, at the end of `h`: the last notification's, and not copied. -/
def NewAt (h : List CacheEvent) (n : CString) (t : Ref) (rv : Topic) : Prop :=
  rv.state = .changed ∧ ∃ xs d ys, h = xs ++ .notified n t d :: ys ∧ rv.d = d ∧
    (∀ m d', .notified m t d' ∉ ys) ∧ ∀ m wait x, .copied m wait t x ∉ ys

def NewData (h : List CacheEvent) : Prop :=
  ∀ pre n t rv post, h = pre ++ .copied n .new t rv :: post → NewAt pre n t rv

theorem newData_snoc (h : List CacheEvent) (e : CacheEvent) :
    NewData (h ++ [e]) ↔ NewData h ∧ ∀ n t rv, e = .copied n .new t rv → NewAt h n t rv := by
  constructor
  · intro hall
    refine ⟨fun pre n t rv post he => ?_, fun n t rv he => hall h n t rv [] (by rw [he])⟩
    exact hall pre n t rv (post ++ [e]) (by rw [he, List.append_assoc, List.cons_append])
  · rintro ⟨hall, hlast⟩ pre n t rv post he
    rcases List.eq_nil_or_concat post with rfl | ⟨post, f, rfl⟩
    · obtain ⟨hpre, hlast'⟩ := List.append_inj' he rfl
      exact hpre ▸ hlast n t rv (List.singleton_inj.1 hlast')
    · rw [List.concat_eq_append, ← List.cons_append, ← List.append_assoc] at he
      exact hall pre n t rv post (List.append_inj' he rfl).1

/-- No notification is returned as new data twice: another one comes between. -/
theorem NewData.between {pre mid post : List CacheEvent} {n m : CString} {wait : Wait} {t : Ref}
    {x rv : Topic} (hall : NewData (pre ++ .copied m wait t x :: (mid ++ .copied n .new t rv :: post))) :
    ∃ d, .notified n t d ∈ mid := by
  obtain ⟨-, xs, d, ys, he, -, -, hno⟩ := hall (pre ++ .copied m wait t x :: mid) n t rv post (by simp)
  refine ⟨d, ?_⟩
  obtain ⟨as, hpre, hcons⟩ | ⟨as, hxs, hcons⟩ := List.append_eq_append_iff.1 he
  · cases as with
    | nil => cases hcons
    | cons a as =>
      rw [List.cons_append, List.cons.injEq] at hcons
      rw [hcons.2]
      simp
  · cases as with
    | nil => cases hcons
    | cons a as =>
      rw [List.cons_append, List.cons.injEq] at hcons
      exact absurd (hcons.2 ▸ List.mem_append_right _ (List.mem_cons_self)) (hno m wait x)

/-- A topic that is `TOPIC_CHANGED` has the data of a notification that was not copied. -/
theorem Recorded.newAt {ι : Type} {h : List CacheEvent} {s : Process ι} (hr : Recorded h s)
    {n : CString} {t : Ref} (hn : .subscribed n t ∈ h) (hs : (s.c.heap t).state = .changed) :
    NewAt h n t (s.c.heap t) := by
  obtain ⟨-, hfresh⟩ := (hr.shows t).changed_iff.1 hs
  obtain ⟨xs, d, hops, hvalue⟩ := Cell.run_fresh_last hfresh
  obtain ⟨pre, m, post, he, -, hpost⟩ := opsOn_eq_append_write hops
  have hm : m = n := by
    refine hr.owned m n t (hr.named (.notified m t d) ?_) hn
    rw [he]
    simp
  have hquiet : ∀ e ∈ post, e.op t = none := by
    rw [opsOn, List.filterMap_eq_nil_iff] at hpost
    exact hpost
  refine ⟨hs, pre, d, post, hm ▸ he, ?_, fun k d' hk => ?_, fun k wait x hk => ?_⟩
  · rw [(hr.shows t).d, hvalue, Option.getD_some]
  · have := hquiet _ hk
    simp [CacheEvent.op] at this
  · have := hquiet _ hk
    simp [CacheEvent.op] at this

/-! ## Steps -/

namespace MyClient

theorem getLocked_new {c : MyClient} {n : CString} {t : Ref} {rv : Topic} (ht : c.topics[n]? = some t)
    (h : (c.getLocked n .new).2 = .returns rv) : (c.heap t).state = .changed := by
  unfold getLocked at h
  rw [ht] at h
  dsimp only at h
  split at h
  · next hnodata =>
    rw [if_pos (Or.inr rfl)] at h
    rcases getLoop_cases { c with waittopic := none } n t .nodata with ⟨-, he⟩ | ⟨htest, -⟩
    · rw [he] at h
      cases h
    · simp [Loop.test, hnodata] at htest
  · rw [if_pos rfl] at h
    rcases getLoop_cases { c with waittopic := none } n t .unchanged with ⟨-, he⟩ | ⟨htest, -⟩
    · rw [he] at h
      cases h
    · simpa [Loop.test] using htest

end MyClient

namespace Process
variable {ι : Type} [DecidableEq ι] {s s' : Process ι} {a : Label ι}

/-- The step does not resume a `GET_WAITNEW`, which found no data when it began, on data that was read. -/
def Unbeaten (s : Process ι) (a : Label ι) : Prop :=
  ∀ i n t, a = .resume i → s.threads i = .waiting n .new t .nodata → s.c.running = true →
    (s.c.heap t).state ≠ .unchanged

theorem new_copy (h : s.step a = some s') {n : CString} {t : Ref} {rv : Topic}
    (hmem : .copied n .new t rv ∈ s.emits a) : (s.c.heap t).state = .changed ∨
      ∃ i, a = .resume i ∧ s.threads i = .waiting n .new t .nodata ∧ s.c.running = true := by
  obtain ⟨-, -, i, ha, -⟩ := copied_step h hmem
  rcases ha with rfl | rfl
  · left
    simp only [emits] at hmem
    split at hmem
    · next m wait hi =>
      obtain ⟨rfl, rfl, ht, -, -, hret, -⟩ := (MyClient.getLocked_stretch s.c m wait).copied hmem
      exact MyClient.getLocked_new ht hret
    · exact absurd hmem List.not_mem_nil
  · simp only [emits] at hmem
    split at hmem
    · next m wait k loop hi =>
      obtain ⟨rfl, rfl, hk, -⟩ := (MyClient.getWoken_stretch s.c m k loop).copied hmem
      rw [Option.some_inj] at hk
      subst hk
      have hwoke := MyClient.getWoken_woke s.c m k loop
      generalize s.c.getWoken m k loop = r at hwoke hmem
      cases hwoke with
      | aborts _ => exact absurd hmem List.not_mem_nil
      | waits _ _ => exact absurd hmem List.not_mem_nil
      | takes hrun htest =>
        cases loop with
        | nodata => exact Or.inr ⟨i, rfl, hi, hrun⟩
        | unchanged => exact Or.inl (by simpa [Loop.test] using htest)
    · exact absurd hmem List.not_mem_nil

omit [DecidableEq ι] in
/-- A waiter that resumes on data that was read returns it. -/
theorem beaten_copy {i : ι} {n : CString} {t : Ref} (hi : s.threads i = .waiting n .new t .nodata)
    (hrun : s.c.running = true) (hs : (s.c.heap t).state = .unchanged) :
    s.emits (.resume i) = [.copied n .new t (s.c.heap t)] := by
  have hvalid : (s.c.heap t).isValid = true := by rw [Topic.isValid, hs]; rfl
  have htest : Loop.test .nodata (s.c.heap t).state = false := by rw [hs]; rfl
  have hwoken : (s.c.getWoken n t .nodata).2 = .returns (s.c.heap t) := by
    rw [MyClient.getWoken]
    dsimp only
    rw [if_pos hrun, MyClient.getLoop, if_neg (by rw [htest]; decide)]
    rfl
  simp only [emits, hi, hwoken, copies, hvalid, if_true]

/-- **A step returns new data only**, exactly if the thread it resumes was not beaten to it. -/
theorem newData_step {h : List CacheEvent} (hr : Recorded h s) (hstep : s.step a = some s') :
    NewData (h ++ s.emits a) ↔ NewData h ∧ s.Unbeaten a := by
  have hnew : (∀ n t rv, .copied n .new t rv ∈ s.emits a → NewAt h n t rv) ↔ s.Unbeaten a := by
    constructor
    · rintro hall i n t rfl hi hrun hs
      have hcopy := hall n t (s.c.heap t) (by rw [beaten_copy hi hrun hs]; exact List.mem_singleton_self _)
      rw [hcopy.1] at hs
      cases hs
    · intro hun n t rv hmem
      obtain ⟨rfl, -, -⟩ := copied_step hstep hmem
      obtain ⟨hn, hdata⟩ := copied_held hr hstep hmem
      refine hr.newAt hn ?_
      rcases new_copy hstep hmem with hs | ⟨i, ha, hi, hrun⟩
      · exact hs
      · by_contra hs
        exact hun i n t ha hi hrun ((hr.unchanged_iff t).2 ⟨hdata, hs⟩)
  rw [← hnew]
  rcases emits_cases s a with he | ⟨e, he⟩
  · simp [he]
  · rw [he, newData_snoc]
    refine and_congr_right fun _ => ⟨fun hall n t rv hmem => ?_, fun hall n t rv hmem => ?_⟩
    · exact hall n t rv (List.mem_singleton.1 hmem).symm
    · exact hall n t rv (hmem ▸ List.mem_singleton_self _)

/-- **`GET_WAITNEW` returns new data only**, exactly in the runs in which no waiter is beaten. -/
theorem waitnew_iff (es : List (Label ι)) (s : Process ι) (hrun : Run.exec step start es = some s) :
    (NewData (Run.trace step emits start es) ↔ Run.Along step Unbeaten start es) ∧
    ∀ a s' i rv, s.step a = some s' → a = .lock i ∨ a = .resume i → s'.threads i = .returned rv →
      rv.isValid = true → ∃ n wait t, s.InGet i n wait ∧ .copied n wait t rv ∈ s.emits a := by
  have hiff := Run.trace_iff_along (I := Recorded) (P := NewData) (h := [])
    (fun _ _ _ _ hr hstep => Recorded.step hr hstep) (fun _ _ _ _ hr hstep => newData_step hr hstep)
    Recorded.start hrun
  rw [List.nil_append] at hiff
  have hnil : NewData [] := fun pre n t rv post he => by simp at he
  exact ⟨hiff.trans (and_iff_right hnil), fun a s' i rv hstep ha hret hvalid =>
    returned_step ha hstep hret hvalid⟩

/-- One of two threads waits for new data on 'a', and is woken; the other reads the data before it goes
on. -/
def beaten : List (Label Bool) :=
  let a := CString.ofString "a"
  [.subscribe a, .get false a .new, .lock false, .packet (message [.float 7] scNotify a) 1 (some false),
    .get true a .none, .lock true, .resume false]

theorem trace_beaten :
    ∃ pre t rv, Run.trace step emits start beaten = pre ++ [.copied (.ofString "a") .new t rv] ∧
      rv.state = .unchanged :=
  ⟨[.subscribed (.ofString "a") 0, .notified (.ofString "a") 0 [.float 7],
    .copied (.ofString "a") .none 0 ⟨[.float 7], some 1, .changed⟩], 0,
    ⟨[.float 7], some 1, .unchanged⟩, by decide +kernel, rfl⟩

theorem not_newData_beaten : ¬ NewData (Run.trace step emits start beaten) := by
  obtain ⟨pre, t, rv, he, hs⟩ := trace_beaten
  intro hall
  have hnew := (hall pre _ t rv [] he).1
  rw [hs] at hnew
  cases hnew

theorem waitnew_iff_beaten :
    ∃ s, Run.exec step start beaten = some s ∧ ¬ Run.Along step Unbeaten start beaten := by
  have hsome : (Run.exec step start beaten).isSome = true := by decide +kernel
  obtain ⟨s, hs⟩ := Option.isSome_iff_exists.1 hsome
  exact ⟨s, hs, fun ha => not_newData_beaten ((waitnew_iff beaten s hs).1.2 ha)⟩

/-- Both threads are given the same data, and the one that waited is given it as old. -/
theorem beaten_returns_old :
    ∃ s, Run.exec step start beaten = some s ∧
      s.threads true = .returned ⟨[.float 7], some 1, .changed⟩ ∧
      s.threads false = .returned ⟨[.float 7], some 1, .unchanged⟩ ∧
      ¬ NewData (Run.trace step emits start beaten) := by
  have hrun : (Run.exec step start beaten).map (fun s => (s.threads true, s.threads false)) =
      some (.returned ⟨[.float 7], some 1, .changed⟩, .returned ⟨[.float 7], some 1, .unchanged⟩) := by
    decide +kernel
  obtain ⟨s, hs, he⟩ := Option.map_eq_some_iff.1 hrun
  rw [Prod.mk.injEq] at he
  exact ⟨s, hs, he.1, he.2, not_newData_beaten⟩

end Process

end DiamondApparatus
