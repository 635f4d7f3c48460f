import DiamondApparatus.Lib.Broker

/-!
# Copies of a broker's topics

A client keeps a copy of each topic it has asked for. What it asks reaches the broker late, and so does
the broker's news reach the client, both in order.

* `Mirror` : the copies, the topics asked for of which the broker has not heard, the news on its way;
* `Mirror.latest m n` : the copy of `n` once all news is in;
* `Agrees v joined m` : the invariant, over the stored data `v` and the topics the broker knows the client
  to have joined. `Agrees.ask`, `Agrees.learn`, `Agrees.run` : what the client asks, what it learns, and
  any operations of the broker keep it;
* `Agrees.settled` : with nothing under way, every copy of a stored topic is the stored data.
-/

namespace DiamondApparatus.Lib

/-- What a client holds and is to hold. -/
structure Mirror (N D : Type) where
  copy : N → Option D
  asked : List N
  /-- Oldest first. -/
  news : List (N × D)

namespace Mirror
variable {N D : Type} [DecidableEq N]

def newsOf (n : N) (news : List (N × D)) : List D :=
  (news.filter fun x => decide (x.1 = n)).map Prod.snd

theorem newsOf_append (n : N) (xs ys : List (N × D)) : newsOf n (xs ++ ys) = newsOf n xs ++ newsOf n ys := by
  rw [newsOf, List.filter_append, List.map_append]
  rfl

theorem newsOf_cons (x : N × D) (n : N) (news : List (N × D)) :
    newsOf n (x :: news) = if x.1 = n then x.2 :: newsOf n news else newsOf n news := by
  unfold newsOf
  by_cases h : x.1 = n
  · rw [List.filter_cons_of_pos (by simpa using h), if_pos h, List.map_cons]
  · rw [List.filter_cons_of_neg (by simpa using h), if_neg h]

/-- The value `x`, overtaken by `ds`. -/
def overtake (x : Option D) (ds : List D) : Option D := ds.getLast?.or x

theorem overtake_append (x : Option D) (ds es : List D) :
    overtake x (ds ++ es) = overtake (overtake x ds) es := by
  rw [overtake, overtake, overtake, List.getLast?_append, Option.or_assoc]

theorem overtake_cons (x : Option D) (d : D) (ds : List D) : overtake x (d :: ds) = overtake (some d) ds :=
  overtake_append x [d] ds

def latest (m : Mirror N D) (n : N) : Option D := overtake (m.copy n) (newsOf n m.news)

def ask (m : Mirror N D) (n : N) (d : D) : Mirror N D :=
  { m with copy := Function.update m.copy n (some d), asked := m.asked ++ [n] }

/-- The client learns the news `x`, and `rest` stays on its way. -/
def learn (m : Mirror N D) (x : N × D) (rest : List (N × D)) : Mirror N D :=
  { m with copy := Function.update m.copy x.1 (some x.2), news := rest }

theorem ask_copy (m : Mirror N D) (n k : N) (d : D) :
    (m.ask n d).copy k = if k = n then some d else m.copy k :=
  Function.update_apply m.copy n (some d) k

theorem learn_copy (m : Mirror N D) (x : N × D) (rest : List (N × D)) (k : N) :
    (m.learn x rest).copy k = if k = x.1 then some x.2 else m.copy k :=
  Function.update_apply m.copy x.1 (some x.2) k

theorem latest_ask (m : Mirror N D) {n k : N} (h : k ≠ n) (d : D) : (m.ask n d).latest k = m.latest k := by
  rw [latest, latest, ask_copy, if_neg h]
  rfl

/-- Learning does not change what the copies come to. -/
theorem latest_learn {m : Mirror N D} {x : N × D} {rest : List (N × D)} (h : m.news = x :: rest) (k : N) :
    (m.learn x rest).latest k = m.latest k := by
  rw [latest, latest, learn_copy, h, newsOf_cons]
  by_cases hk : k = x.1
  · rw [if_pos hk, if_pos hk.symm, overtake_cons]
    rfl
  · rw [if_neg hk, if_neg (Ne.symm hk)]
    rfl

/-! ## What the broker says of a topic -/

section
variable {C : Type} [DecidableEq C] {c : C} {n : N}

open Broker

theorem joinedAfter_true {o : Op C N D} (ho : .leave c ≠ o) : joinedAfter c n true o = true := by
  cases o with
  | join k m => rfl
  | post m d => rfl
  | clear => rfl
  | leave k =>
    have hk : k ≠ c := fun he => ho (he ▸ rfl)
    simp [joinedAfter, hk]

/-- What a client that has joined holds stays what is stored, whatever the broker does next. -/
theorem overtake_expect {ops : List (Op C N D)} (hleave : .leave c ∉ ops) {v x : Option D}
    (h : ∀ d, v = some d → x = some d) :
    ∀ d, lastPosted n v ops = some d → overtake x (expect c n v true ops) = some d := by
  induction ops generalizing v x with
  | nil => exact h
  | cons o ops ih =>
    rw [List.mem_cons, not_or] at hleave
    rw [lastPosted_cons, expect_cons, overtake_append, joinedAfter_true hleave.1]
    refine ih hleave.2 fun d hd => ?_
    cases o with
    | join k m =>
      by_cases hkm : k = c ∧ m = n
      · have hv : v = some d := hd
        simp [expect, hkm, hv, overtake]
      · simpa [expect, hkm, overtake] using h d hd
    | post m d' =>
      by_cases hm : m = n
      · simpa [expect, hm, overtake, lastPosted] using hd
      · have hv : v = some d := by simpa [lastPosted, hm] using hd
        simpa [expect, hm, overtake] using h d hv
    | clear => cases hd
    | leave k => exact h d hd

/-- A client that joins on the way holds it afterwards, whatever it held before. -/
theorem overtake_expect_of_join {ops : List (Op C N D)} (hleave : .leave c ∉ ops)
    (hjoin : .join c n ∈ ops) {v x : Option D} {joined : Bool} :
    ∀ d, lastPosted n v ops = some d → overtake x (expect c n v joined ops) = some d := by
  induction ops generalizing v x joined with
  | nil => cases hjoin
  | cons o ops ih =>
    rw [List.mem_cons, not_or] at hleave
    rw [lastPosted_cons, expect_cons, overtake_append]
    rcases List.mem_cons.1 hjoin with rfl | hjoin
    · have hjoined : joinedAfter c n joined (.join c n : Op C N D) = true := by simp [joinedAfter]
      rw [hjoined]
      refine overtake_expect hleave.2 fun d hd => ?_
      have hv : v = some d := hd
      simp [expect, hv, overtake]
    · exact ih hleave.2 hjoin

/-- A client that has not joined is told nothing, and stays so, as long as it does not join. -/
theorem expect_of_ne_join {o : Op C N D} (ho : .join c n ≠ o) (v : Option D) :
    expect c n v false [o] = [] ∧ joinedAfter c n false o = false := by
  cases o with
  | join k m =>
    have hkm : ¬ (k = c ∧ m = n) := fun h => ho (h.1 ▸ h.2 ▸ rfl)
    exact ⟨by simp [expect, hkm], by simp [joinedAfter, hkm]⟩
  | post m d => exact ⟨by simp [expect], rfl⟩
  | clear => exact ⟨rfl, rfl⟩
  | leave k => exact ⟨rfl, rfl⟩

/-- Only a client that has joined, or does, is told anything. -/
theorem joins_of_expect {ops : List (Op C N D)} {v : Option D} {joined : Bool}
    (h : expect c n v joined ops ≠ []) : joined = true ∨ .join c n ∈ ops := by
  induction ops generalizing v joined with
  | nil => exact absurd rfl h
  | cons o ops ih =>
    by_contra hno
    rw [not_or, List.mem_cons, not_or] at hno
    obtain ⟨hjoined, ho, hops⟩ := hno
    rw [Bool.not_eq_true] at hjoined
    subst hjoined
    obtain ⟨hone, hafter⟩ := expect_of_ne_join ho v
    rw [expect_cons, hone, hafter, List.nil_append] at h
    exact (ih h).elim Bool.false_ne_true hops

end

/-! ## The invariant -/

structure Agrees (v : N → Option D) (joined : N → Bool) (m : Mirror N D) : Prop where
  newsHeld : ∀ x ∈ m.news, (m.copy x.1).isSome
  askedHeld : ∀ n ∈ m.asked, (m.copy n).isSome
  joinedHeld : ∀ n, joined n = true → (m.copy n).isSome
  covered : ∀ n, (m.copy n).isSome → n ∉ m.asked → joined n = true
  fresh : ∀ n, joined n = true → n ∉ m.asked → ∀ d, v n = some d → m.latest n = some d

variable {v : N → Option D} {joined : N → Bool} {m : Mirror N D}

theorem agrees_nothing (v : N → Option D) : Agrees v (fun _ => false) ⟨fun _ => none, [], []⟩ where
  newsHeld _ hx := absurd hx List.not_mem_nil
  askedHeld _ hn := absurd hn List.not_mem_nil
  joinedHeld _ hn := nomatch hn
  covered _ hn := nomatch hn
  fresh _ hn := nomatch hn

/-- A client that has joined nothing does not depend on what is stored. -/
theorem Agrees.absent (h : Agrees v (fun _ => false) m) (v' : N → Option D) {asked' : List N}
    (hasked : ∀ n, n ∈ m.asked ↔ n ∈ asked') :
    Agrees v' (fun _ => false) { m with asked := asked' } where
  newsHeld := h.newsHeld
  askedHeld n hn := h.askedHeld n ((hasked n).2 hn)
  joinedHeld _ hn := nomatch hn
  covered n hn hnot := h.covered n hn fun ha => hnot ((hasked n).1 ha)
  fresh _ hn := nomatch hn

/-- **Nothing under way**: every copy of a stored topic is the stored data. -/
theorem Agrees.settled (h : Agrees v joined m) (hasked : m.asked = []) (hnews : m.news = []) {n : N}
    (hn : (m.copy n).isSome) {d : D} (hd : v n = some d) : m.copy n = some d := by
  have hnot : n ∉ m.asked := by
    rw [hasked]
    exact List.not_mem_nil
  have hlatest := h.fresh n (h.covered n hn hnot) hnot d hd
  rwa [latest, hnews] at hlatest

theorem isSome_ask {n k : N} (h : (m.copy k).isSome) (d : D) : ((m.ask n d).copy k).isSome := by
  rw [ask_copy]
  split
  · rfl
  · exact h

theorem isSome_learn {x : N × D} {k : N} (h : (m.copy k).isSome) (rest : List (N × D)) :
    ((m.learn x rest).copy k).isSome := by
  rw [learn_copy]
  split
  · rfl
  · exact h

theorem Agrees.ask (h : Agrees v joined m) (n : N) (d : D) : Agrees v joined (m.ask n d) where
  newsHeld x hx := isSome_ask (h.newsHeld x hx) d
  askedHeld k hk := by
    rcases List.mem_append.1 hk with hk | hk
    · exact isSome_ask (h.askedHeld k hk) d
    · rw [List.mem_singleton] at hk
      rw [ask_copy, if_pos hk]
      rfl
  joinedHeld k hk := isSome_ask (h.joinedHeld k hk) d
  covered k hk hnot := by
    obtain ⟨hold, hne⟩ := not_or.1 (List.mem_append.not.1 hnot)
    rw [List.mem_singleton] at hne
    rw [ask_copy, if_neg hne] at hk
    exact h.covered k hk hold
  fresh k hk hnot := by
    obtain ⟨hold, hne⟩ := not_or.1 (List.mem_append.not.1 hnot)
    rw [List.mem_singleton] at hne
    rw [latest_ask m hne]
    exact h.fresh k hk hold

theorem Agrees.learn (h : Agrees v joined m) {x : N × D} {rest : List (N × D)}
    (hnews : m.news = x :: rest) : Agrees v joined (m.learn x rest) where
  newsHeld y hy := isSome_learn (h.newsHeld y (by rw [hnews]; exact List.mem_cons_of_mem x hy)) rest
  askedHeld k hk := isSome_learn (h.askedHeld k hk) rest
  joinedHeld k hk := isSome_learn (h.joinedHeld k hk) rest
  covered k hk hnot := by
    refine h.covered k ?_ hnot
    rw [learn_copy] at hk
    split at hk
    · next he =>
      rw [he]
      exact h.newsHeld x (by rw [hnews]; exact List.mem_cons_self)
    · exact hk
  fresh k hk hnot := by
    rw [latest_learn hnews]
    exact h.fresh k hk hnot

/-- **Operations of the broker.** It may hear of something the client asked for, and tells the client what
it is to hear. -/
theorem Agrees.run {C : Type} [DecidableEq C] {c : C} (h : Agrees v joined m)
    {ops : List (Broker.Op C N D)} (hleave : .leave c ∉ ops)
    {v' : N → Option D} (hv : ∀ n, v' n = Broker.lastPosted n (v n) ops)
    {joined' : N → Bool} (hjoined : ∀ n, joined' n = true ↔ joined n = true ∨ .join c n ∈ ops)
    {asked' : List N} (hasked : ∀ n, n ∈ m.asked ↔ n ∈ asked' ∨ .join c n ∈ ops)
    {news : List (N × D)}
    (hnews : ∀ n, newsOf n news = Broker.expect c n (v n) (joined n) ops) :
    Agrees v' joined' { m with asked := asked', news := m.news ++ news } where
  newsHeld x hx := by
    rcases List.mem_append.1 hx with hx | hx
    · exact h.newsHeld x hx
    · have hne : Broker.expect c x.1 (v x.1) (joined x.1) ops ≠ [] := by
        rw [← hnews]
        have hmem : x.2 ∈ newsOf x.1 news :=
          List.mem_map_of_mem (List.mem_filter.2 ⟨hx, decide_eq_true rfl⟩)
        exact List.ne_nil_of_mem hmem
      rcases joins_of_expect hne with hj | hj
      · exact h.joinedHeld x.1 hj
      · exact h.askedHeld x.1 ((hasked x.1).2 (Or.inr hj))
  askedHeld n hn := h.askedHeld n ((hasked n).2 (Or.inl hn))
  joinedHeld n hn := by
    rcases (hjoined n).1 hn with hj | hj
    · exact h.joinedHeld n hj
    · exact h.askedHeld n ((hasked n).2 (Or.inr hj))
  covered n hn hnot := by
    rw [hjoined]
    by_contra hno
    obtain ⟨hj, hops⟩ := not_or.1 hno
    exact hj (h.covered n hn fun ha => ((hasked n).1 ha).elim hnot hops)
  fresh n hn hnot d hd := by
    rw [hv] at hd
    rw [latest, newsOf_append, overtake_append, hnews]
    by_cases hops : .join c n ∈ ops
    · exact overtake_expect_of_join hleave hops d hd
    · have hj : joined n = true := ((hjoined n).1 hn).resolve_right hops
      have hold : n ∉ m.asked := fun ha => ((hasked n).1 ha).elim hnot hops
      rw [hj]
      exact overtake_expect hleave (h.fresh n hj hold) d hd

end Mirror

end DiamondApparatus.Lib
