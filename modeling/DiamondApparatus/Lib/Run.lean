import Mathlib.Data.Option.Basic

/-!
# Runs of a step function

`step s e` is the state after the event `e`, and `none` when `s` does not let `e` happen.

* `exec` : the state after a list of events;
* `invariant` : what the first state has and every step keeps, the last state has;
  `invariant_history` : the same for what holds of a state together with the events before it;
* `Throughout P` : `P` holds of every state a run passes; `Along C` : `C` holds of each of its steps;
* `throughout_iff_along` : where a step keeps `P` exactly when it meets `C`, the two are the same;
* `trace emits s es` : what the steps of the run emitted. `take_trace` : where a part of it ends; `mem_trace` :
  which step emitted it;
  `invariant_trace`, `trace_iff_along` : the same for what holds of a state together with all that was
  emitted before it;
* `exec_trace` : forward simulation, of a run by the run of what its steps emit; `trace_trace` : what that
  run emits in its turn;
* `trace_queue` : what goes into a queue comes out of it in the same order.
-/

namespace DiamondApparatus.Lib.Run
variable {σ ε : Type} {step : σ → ε → Option σ}

/-- The state after the events `es`, if each of them can happen where it comes. -/
def exec (step : σ → ε → Option σ) : σ → List ε → Option σ
  | s, [] => some s
  | s, e :: es => (step s e).bind (exec step · es)

theorem exec_cons_eq_some {s s' : σ} {e : ε} {es : List ε} :
    exec step s (e :: es) = some s' ↔ ∃ t, step s e = some t ∧ exec step t es = some s' := by
  rw [exec, Option.bind_eq_some_iff]

theorem exec_append (s : σ) (es fs : List ε) :
    exec step s (es ++ fs) = (exec step s es).bind (exec step · fs) := by
  induction es generalizing s with
  | nil => rfl
  | cons e es ih =>
    rw [List.cons_append, exec, exec, Option.bind_assoc]
    exact congrArg _ (funext ih)

theorem invariant {I : σ → Prop} (hstep : ∀ s e s', I s → step s e = some s' → I s')
    {es : List ε} {s s' : σ} (hs : I s) (h : exec step s es = some s') : I s' := by
  induction es generalizing s with
  | nil =>
    rw [exec, Option.some_inj] at h
    exact h ▸ hs
  | cons e es ih =>
    obtain ⟨t, ht, h⟩ := exec_cons_eq_some.1 h
    exact ih (hstep s e t hs ht) h

theorem invariant_history {I : List ε → σ → Prop}
    (hstep : ∀ h s e s', I h s → step s e = some s' → I (h ++ [e]) s') {h es : List ε} {s s' : σ}
    (hs : I h s) (hrun : exec step s es = some s') : I (h ++ es) s' := by
  induction es generalizing h s with
  | nil =>
    rw [exec, Option.some_inj] at hrun
    rw [List.append_nil]
    exact hrun ▸ hs
  | cons e es ih =>
    obtain ⟨t, ht, hrun⟩ := exec_cons_eq_some.1 hrun
    rw [List.append_cons]
    exact ih (hstep h s e t hs ht) hrun

/-- `P` holds of every state of the run of `es` from `s`. -/
def Throughout (step : σ → ε → Option σ) (P : σ → Prop) : σ → List ε → Prop
  | s, [] => P s
  | s, e :: es => P s ∧ ∀ s', step s e = some s' → Throughout step P s' es

/-- `C` holds of every step of the run of `es` from `s`. -/
def Along (step : σ → ε → Option σ) (C : σ → ε → Prop) : σ → List ε → Prop
  | _, [] => True
  | s, e :: es => ∀ s', step s e = some s' → C s e ∧ Along step C s' es

theorem Throughout.head {P : σ → Prop} {s : σ} {es : List ε} (h : Throughout step P s es) : P s := by
  cases es with
  | nil => exact h
  | cons e es => exact h.1

theorem Throughout.exec {P : σ → Prop} {s s' : σ} {es : List ε} (h : Throughout step P s es)
    (hs : exec step s es = some s') : P s' := by
  induction es generalizing s with
  | nil =>
    rw [Run.exec, Option.some_inj] at hs
    exact hs ▸ h
  | cons e es ih =>
    obtain ⟨t, ht, hs⟩ := exec_cons_eq_some.1 hs
    exact ih (h.2 t ht) hs

section
variable {I P : σ → Prop} {C : σ → ε → Prop}

/-- A run whose steps all meet `C` keeps `P`, where a step that meets `C` does. -/
theorem throughout_of_along (hI : ∀ s e s', I s → step s e = some s' → I s')
    (hP : ∀ s e s', I s → P s → step s e = some s' → C s e → P s') {es : List ε} {s : σ}
    (hs : I s) (h : P s) (ha : Along step C s es) : Throughout step P s es := by
  induction es generalizing s with
  | nil => exact h
  | cons e es ih =>
    refine ⟨h, fun s' hs' => ?_⟩
    obtain ⟨hc, ha⟩ := ha s' hs'
    exact ih (hI s e s' hs hs') (hP s e s' hs h hs' hc) ha

theorem throughout_iff_along (hI : ∀ s e s', I s → step s e = some s' → I s')
    (hP : ∀ s e s', I s → P s → step s e = some s' → (C s e ↔ P s')) {es : List ε} {s : σ}
    (hs : I s) (h : P s) : Throughout step P s es ↔ Along step C s es := by
  refine ⟨fun ht => ?_, throughout_of_along hI (fun s e s' hi hp hs' => (hP s e s' hi hp hs').1) hs h⟩
  induction es generalizing s with
  | nil => trivial
  | cons e es ih =>
    intro s' hs'
    have hrest := ht.2 s' hs'
    exact ⟨(hP s e s' hs h hs').2 hrest.head, ih (hI s e s' hs hs') hrest.head hrest⟩

end

/-! ## What a run emits -/

/-- What the steps of the run of `es` from `s` emit, in order. -/
def trace {τ : Type} (step : σ → ε → Option σ) (emits : σ → ε → List τ) : σ → List ε → List τ
  | _, [] => []
  | s, e :: es => emits s e ++ ((step s e).elim [] (trace step emits · es))

section
variable {τ : Type} {emits : σ → ε → List τ}

theorem trace_cons {s t : σ} {e : ε} (h : step s e = some t) (es : List ε) :
    trace step emits s (e :: es) = emits s e ++ trace step emits t es := by
  rw [trace, h, Option.elim_some]

theorem trace_append {es : List ε} {s t : σ} (h : exec step s es = some t) (fs : List ε) :
    trace step emits s (es ++ fs) = trace step emits s es ++ trace step emits t fs := by
  induction es generalizing s with
  | nil =>
    rw [exec, Option.some_inj] at h
    rw [h]
    rfl
  | cons e es ih =>
    obtain ⟨u, hu, h⟩ := exec_cons_eq_some.1 h
    rw [List.cons_append, trace_cons hu, trace_cons hu, ih h, List.append_assoc]

/-- What a run of one step at most emits. -/
theorem trace_short (s : σ) {es : List ε} (h : es.length ≤ 1) : trace step emits s es = es.flatMap (emits s) := by
  match es, h with
  | [], _ => rfl
  | [e], _ =>
    unfold trace
    cases step s e <;> rfl

/-- The first `k` things a run emits end within one of its steps. -/
theorem take_trace {es : List ε} {s s' : σ} (hrun : exec step s es = some s') {k : Nat}
    (hk : k < (trace step emits s es).length) : ∃ es₁ e t t' rest j,
      exec step s es₁ = some t ∧ step t e = some t' ∧
      trace step emits s es = trace step emits s es₁ ++ (emits t e ++ rest) ∧
      (trace step emits s es).take k = trace step emits s es₁ ++ (emits t e).take j := by
  induction es generalizing s k with
  | nil => exact absurd hk (Nat.not_lt_zero k)
  | cons e es ih =>
    obtain ⟨t, ht, hrun⟩ := exec_cons_eq_some.1 hrun
    rw [trace_cons ht] at hk ⊢
    by_cases hle : k ≤ (emits s e).length
    · exact ⟨[], e, s, t, trace step emits t es, k, rfl, ht, rfl, List.take_append_of_le_length hle⟩
    · obtain ⟨m, rfl⟩ := Nat.exists_eq_add_of_le (Nat.le_of_not_le hle)
      rw [List.length_append] at hk
      obtain ⟨es₁, e', u, u', rest, j, hu, hu', hall, htake⟩ := ih hrun (Nat.lt_of_add_lt_add_left hk)
      refine ⟨e :: es₁, e', u, u', rest, j, exec_cons_eq_some.2 ⟨t, ht, hu⟩, hu', ?_, ?_⟩
      · rw [hall, trace_cons ht, List.append_assoc]
      · rw [List.take_length_add_append, htake, trace_cons ht, List.append_assoc]

/-- The step that emits it. -/
theorem mem_trace {es : List ε} {s s' : σ} (hrun : exec step s es = some s') {x : τ}
    (hx : x ∈ trace step emits s es) : ∃ pre e post t t', es = pre ++ e :: post ∧
      exec step s pre = some t ∧ step t e = some t' ∧ x ∈ emits t e := by
  induction es generalizing s with
  | nil => cases hx
  | cons e es ih =>
    obtain ⟨u, hu, hrun⟩ := exec_cons_eq_some.1 hrun
    rw [trace_cons hu, List.mem_append] at hx
    rcases hx with hx | hx
    · exact ⟨[], e, es, s, u, rfl, rfl, hu, hx⟩
    · obtain ⟨pre, e', post, t, t', rfl, ht, hstep, hmem⟩ := ih hrun hx
      exact ⟨e :: pre, e', post, t, t', rfl, exec_cons_eq_some.2 ⟨u, hu, ht⟩, hstep, hmem⟩

/-- What holds at first, and is kept by every step with what it emits, holds at the end of a run. -/
theorem invariant_trace {I : List τ → σ → Prop}
    (hstep : ∀ h s e s', I h s → step s e = some s' → I (h ++ emits s e) s') {es : List ε}
    {h : List τ} {s s' : σ} (hs : I h s) (hrun : exec step s es = some s') :
    I (h ++ trace step emits s es) s' := by
  induction es generalizing h s with
  | nil =>
    rw [exec, Option.some_inj] at hrun
    rw [trace, List.append_nil]
    exact hrun ▸ hs
  | cons e es ih =>
    obtain ⟨t, ht, hrun⟩ := exec_cons_eq_some.1 hrun
    rw [trace_cons ht, ← List.append_assoc]
    exact ih (hstep h s e t hs ht) hrun

/-- **All that was emitted is right exactly when every step was**, where that holds of one step. -/
theorem trace_iff_along {I : List τ → σ → Prop} {P : List τ → Prop} {C : σ → ε → Prop}
    (hI : ∀ h s e s', I h s → step s e = some s' → I (h ++ emits s e) s')
    (hP : ∀ h s e s', I h s → step s e = some s' → (P (h ++ emits s e) ↔ P h ∧ C s e)) {es : List ε}
    {h : List τ} {s s' : σ} (hs : I h s) (hrun : exec step s es = some s') :
    P (h ++ trace step emits s es) ↔ P h ∧ Along step C s es := by
  induction es generalizing h s with
  | nil => simp [trace, Along]
  | cons e es ih =>
    obtain ⟨t, ht, hrun⟩ := exec_cons_eq_some.1 hrun
    have hrest := ih (hI h s e t hs ht) hrun
    rw [trace_cons ht, ← List.append_assoc, hrest, hP h s e t hs ht, and_assoc, Along]
    refine and_congr_right fun _ => ⟨fun hc s' hs' => ?_, fun ha => ha t ht⟩
    rw [ht, Option.some_inj] at hs'
    exact hs' ▸ hc

/-- **Forward simulation.** When every step is matched by a run of what it emits, every run is. -/
theorem exec_trace {ρ : Type} {step' : ρ → τ → Option ρ} {R : σ → ρ → Prop}
    (hstep : ∀ s t e s', R s t → step s e = some s' →
      ∃ t', exec step' t (emits s e) = some t' ∧ R s' t') {es : List ε} {s s' : σ} {t : ρ}
    (hR : R s t) (hrun : exec step s es = some s') :
    ∃ t', exec step' t (trace step emits s es) = some t' ∧ R s' t' := by
  induction es generalizing s t with
  | nil =>
    rw [exec, Option.some_inj] at hrun
    exact ⟨t, rfl, hrun ▸ hR⟩
  | cons e es ih =>
    obtain ⟨u, hu, hrun⟩ := exec_cons_eq_some.1 hrun
    obtain ⟨t', ht', hR'⟩ := hstep s t e u hR hu
    obtain ⟨t'', ht'', hR''⟩ := ih hR' hrun
    refine ⟨t'', ?_, hR''⟩
    rw [trace_cons hu, exec_append, ht', Option.bind_some, ht'']

/-- What the steps emit of which each stands for a run of another machine, that machine emits. -/
theorem trace_trace {ρ ω : Type} {step' : ρ → τ → Option ρ} {g : ρ → τ → List ω} {f : σ → ρ}
    (hstep : ∀ s e s', step s e = some s' → exec step' (f s) (emits s e) = some (f s')) {es : List ε}
    {s s' : σ} (hrun : exec step s es = some s') :
    exec step' (f s) (trace step emits s es) = some (f s') ∧
      trace step' g (f s) (trace step emits s es) =
        trace step (fun s e => trace step' g (f s) (emits s e)) s es := by
  induction es generalizing s with
  | nil =>
    rw [exec, Option.some_inj] at hrun
    exact ⟨by rw [hrun]; rfl, rfl⟩
  | cons e es ih =>
    obtain ⟨u, hu, hrun⟩ := exec_cons_eq_some.1 hrun
    have hone := hstep s e u hu
    obtain ⟨hexec, htrace⟩ := ih hrun
    rw [trace_cons hu, trace_cons hu, exec_append, hone, Option.bind_some, trace_append hone, htrace]
    exact ⟨hexec, rfl⟩

/-- **First in, first out.** `Q s q` says that `q` is in the queue; a step puts its `ins` at the end, and
takes its `outs` from the front. -/
theorem trace_queue {Q : σ → List τ → Prop} {ins outs : σ → ε → List τ}
    (hstep : ∀ s e s' q, Q s q → step s e = some s' → ∃ q', Q s' q' ∧ q ++ ins s e = outs s e ++ q')
    {es : List ε} {s s' : σ} {q : List τ} (hQ : Q s q) (hrun : exec step s es = some s') :
    ∃ q', Q s' q' ∧ q ++ trace step ins s es = trace step outs s es ++ q' := by
  induction es generalizing s q with
  | nil =>
    rw [exec, Option.some_inj] at hrun
    exact ⟨q, hrun ▸ hQ, List.append_nil q⟩
  | cons e es ih =>
    obtain ⟨t, ht, hrun⟩ := exec_cons_eq_some.1 hrun
    obtain ⟨m, hm, hone⟩ := hstep s e t q hQ ht
    obtain ⟨q', hq', hrest⟩ := ih hm hrun
    refine ⟨q', hq', ?_⟩
    rw [trace_cons ht, trace_cons ht, ← List.append_assoc, hone, List.append_assoc, hrest,
      List.append_assoc]

end

end DiamondApparatus.Lib.Run
