import DiamondApparatus.Network.Progress

/-!
# The loop of `TCPServer::update`

`Network` has a list of the descriptors that are still to come. The loop itself has the set that `select` has
left in `read_fd_set`, and goes through all numbers below `FD_SETSIZE`.

* `Scan`, `Scan.step` : the loop, between the steps of the clients;
* `ahead` : the members of the set from `i` on; `Scan.seen` : the network with this list;
* `Scan.seen_step`, `Scan.due_step` : what one step of the loop is for the network, and what it handles;
* `scan_exact` : so every run of the loop is one of the network, and handles what `select` has reported.
-/

namespace DiamondApparatus
open Lib Std MyServer

/-- Where `TCPServer::update` is: in `select`, at the test of its loop, or in the `update` of a receiver. -/
inductive ScanPc
  | selecting
  | test
  | updating (rv : Bool)
  deriving DecidableEq

structure Scan (κ ι : Type) where
  /-- The server, the connections and their clients. The `place` plays no part. -/
  net : Network κ ι
  pc : ScanPc := .selecting
  readFdSet : FdSet := ∅
  i : Nat := 0

inductive ScanAct (κ ι : Type)
  | client (a : Act κ ι)
  /-- `select` leaves these descriptors in the set; each comes with a connection that it is ready for. -/
  | select (ready : List (Nat × κ))
  /-- The descriptor `i` is not in the set. -/
  | skip
  | accept (k : κ) (fd : Nat)
  /-- `r.update` of `clients[i]` is called. -/
  | enter
  | read (k : κ) (a : Arrival) (tail : Bytes) (now : Now)
  /-- The end of the loop. -/
  | finish

/-- Whether it is a step of a client, and not of the server. -/
def Act.ofClient {κ ι : Type} : Act κ ι → Bool
  | .select _ => false
  | .accept _ _ => false
  | .read _ _ _ _ => false
  | .finish => false
  | _ => true

namespace Scan
variable {κ ι : Type} [DecidableEq κ] [DecidableEq ι]

def start (listenfd : Nat) (others : FdSet) (now : Now) : Scan κ ι where
  net := .start listenfd others now

/-- The set that `select` leaves. -/
def readySet (ready : List (Nat × κ)) : FdSet := .ofList (ready.map Prod.fst) compare

/-- Behind a part of the receiver's `update` the call goes on, or the loop does. -/
def behind (S : Scan κ ι) (N : Network κ ι) : Flow → Scan κ ι
  | .next _ _ rv => { S with net := N, pc := .updating rv }
  | .done _ => { S with net := N, pc := .test, i := S.i + 1 }

def step (S : Scan κ ι) : ScanAct κ ι → Option (Scan κ ι)
  | .client a => if a.ofClient then (S.net.step a).map fun N => { S with net := N } else none
  | .select ready =>
    if S.pc = .selecting ∧ ready ≠ [] ∧
        ∀ r ∈ ready, r.1 < FD_SETSIZE ∧ r.1 ∈ S.net.server.activeFdSet ∧ S.net.IsReady r.1 r.2 then
      some { S with pc := .test, readFdSet := readySet ready, i := 0 }
    else none
  | .skip =>
    if S.pc = .test ∧ S.i < FD_SETSIZE ∧ S.i ∉ S.readFdSet then some { S with i := S.i + 1 } else none
  | .accept k fd => (S.net.links k).bind fun x =>
    if S.pc = .test ∧ (S.i < FD_SETSIZE ∧ S.i ∈ S.readFdSet) ∧ S.i = S.net.server.listenfd ∧ x.Pending ∧
        S.net.server.Enabled (.accept fd) then
      some { S with net := { S.net with server := S.net.server.acceptClient fd }.setLink k { x with fd := some fd }
                    i := S.i + 1 }
    else none
  | .enter =>
    if S.pc = .test ∧ (S.i < FD_SETSIZE ∧ S.i ∈ S.readFdSet) ∧ S.i ≠ S.net.server.listenfd then
      some { S with pc := .updating false }
    else none
  | .read k a tail now => (S.net.links k).bind fun x =>
    match S.pc with
    | .updating rv =>
      if x.fd = some S.i ∧ x.up.Offers a then
        (S.net.nextRead S.i rv a).bind fun flow =>
          (S.net.afterRead k x S.i [] a tail now flow).map fun N => S.behind N flow
      else none
    | _ => none
  | .finish => if S.pc = .test ∧ ¬ S.i < FD_SETSIZE then some { S with pc := .selecting } else none

end Scan

/-! ## What is still to come -/

/-- The descriptors that the loop finds in the set from `i` on. -/
def ahead (readFdSet : FdSet) (i : Nat) : List Nat :=
  (List.range' i (FD_SETSIZE - i)).filter fun fd => fd ∈ readFdSet

section
variable {readFdSet : FdSet} {i : Nat}

theorem ahead_of_mem (hi : i < FD_SETSIZE) (hmem : i ∈ readFdSet) :
    ahead readFdSet i = i :: ahead readFdSet (i + 1) := by
  obtain ⟨m, hm⟩ := Nat.exists_eq_succ_of_ne_zero (Nat.sub_ne_zero_of_lt hi)
  have hrest : FD_SETSIZE - (i + 1) = m := by omega
  rw [ahead, ahead, hm, hrest, List.range'_succ, List.filter_cons_of_pos (by simpa using hmem)]

theorem ahead_of_notMem (hi : i < FD_SETSIZE) (hmem : i ∉ readFdSet) :
    ahead readFdSet i = ahead readFdSet (i + 1) := by
  obtain ⟨m, hm⟩ := Nat.exists_eq_succ_of_ne_zero (Nat.sub_ne_zero_of_lt hi)
  have hrest : FD_SETSIZE - (i + 1) = m := by omega
  rw [ahead, ahead, hm, hrest, List.range'_succ, List.filter_cons_of_neg (by simpa using hmem)]

theorem ahead_end (hi : ¬ i < FD_SETSIZE) : ahead readFdSet i = [] := by
  rw [ahead, Nat.sub_eq_zero_of_le (Nat.le_of_not_lt hi)]
  rfl

theorem ahead_sorted (readFdSet : FdSet) (i : Nat) : (ahead readFdSet i).Pairwise (· < ·) :=
  List.Pairwise.filter _ List.pairwise_lt_range'

theorem mem_ahead {fd : Nat} : fd ∈ ahead readFdSet i ↔ i ≤ fd ∧ fd < FD_SETSIZE ∧ fd ∈ readFdSet := by
  rw [ahead, List.mem_filter, List.mem_range'_1, decide_eq_true_eq, ← and_assoc]
  refine and_congr_left fun _ => ?_
  omega

/-- **From the beginning the loop finds the whole set, in ascending order.** -/
theorem ahead_zero (h : ∀ fd ∈ readFdSet, fd < FD_SETSIZE) : ahead readFdSet 0 = readFdSet.toList := by
  refine Keys.eq_of_ordered ((ahead_sorted readFdSet 0).imp fun hlt => ?_) readFdSet.ordered_toList fun fd => ?_
  · exact Nat.compare_eq_lt.2 hlt
  · rw [mem_ahead, ExtTreeSet.mem_toList]
    exact ⟨fun hfd => hfd.2.2, fun hmem => ⟨Nat.zero_le fd, h fd hmem, hmem⟩⟩

/-- The loop passes over everything in front of the next descriptor. -/
theorem not_mem_of_ahead {fd : Nat} {rest : List Nat} (h : ahead readFdSet i = fd :: rest) {j : Nat} (hi : i ≤ j)
    (hj : j < fd) : j < FD_SETSIZE ∧ j ∉ readFdSet := by
  have hfd := mem_ahead.1 (h ▸ List.mem_cons_self : fd ∈ ahead readFdSet i)
  refine ⟨by omega, fun hmem => ?_⟩
  have hsorted := ahead_sorted readFdSet i
  have hahead : j ∈ ahead readFdSet i := mem_ahead.2 ⟨hi, by omega, hmem⟩
  rw [h] at hahead hsorted
  rcases List.mem_cons.1 hahead with heq | hrest
  · exact absurd heq (Nat.ne_of_lt hj)
  · exact absurd (List.rel_of_pairwise_cons hsorted hrest) (Nat.not_lt_of_lt hj)

theorem mem_readySet {κ : Type} {ready : List (Nat × κ)} {fd : Nat} :
    fd ∈ Scan.readySet ready ↔ fd ∈ ready.map Prod.fst := by
  rw [Scan.readySet, ExtTreeSet.mem_ofList, List.contains_iff_mem]

end

/-! ## The network that the loop shows -/

namespace Network
variable {κ ι : Type} {N N' : Network κ ι} {k : κ} {x : Link ι}

/-- Where the network is behind a part of the receiver's `update`. -/
def placeBehind (fd : Nat) (rest : List Nat) : Flow → Place
  | .next _ _ rv => .looping rv (fd :: rest)
  | .done _ => .looping false rest

variable [DecidableEq κ]

theorem afterRead_place {fd : Nat} {a : Arrival} {tail : Bytes} {now : Now} {flow : Flow}
    (h : N.afterRead k x fd [] a tail now flow = some N') (place : Place) (rest : List Nat) :
    ({ N with place := place }).afterRead k x fd rest a tail now flow =
      some { N' with place := placeBehind fd rest flow } := by
  unfold afterRead at h ⊢
  split at h
  · cases h
    rfl
  · split at h
    · next s hs =>
      obtain ⟨hsize, h⟩ := Option.ite_none_right_eq_some.1 h
      cases h
      simp only [hs]
      exact if_pos hsize
    · cases h
  · cases h
    rfl
  · split at h
    · next s hs =>
      cases h
      simp only [hs]
      rfl
    · cases h
  · cases h
  · cases h

theorem afterReceive_place {a : Arrival} {tail : Bytes} {now : Clock} {flow : Flow} [DecidableEq ι] {who : Option ι}
    (h : N.afterReceive k x a tail now who flow = some N') (place : Place) :
    ({ N with place := place }).afterReceive k x a tail now who flow = some { N' with place := place } := by
  unfold afterReceive at h ⊢
  split at h
  · cases h
    rfl
  · obtain ⟨proc, hproc, rfl⟩ := Option.map_eq_some_iff.1 h
    exact Option.map_eq_some_iff.2 ⟨proc, hproc, rfl⟩
  · cases h
    rfl
  · obtain ⟨proc, hproc, rfl⟩ := Option.map_eq_some_iff.1 h
    exact Option.map_eq_some_iff.2 ⟨proc, hproc, rfl⟩
  · cases h
  · cases h

/-- A step of a client does not look at where the server is. -/
theorem step_place [DecidableEq ι] {a : Act κ ι} (ha : a.ofClient = true) (h : N.step a = some N') (place : Place) :
    ({ N with place := place }).step a = some { N' with place := place } ∧ N'.server = N.server := by
  cases a with
  | connect k =>
    cases hk : N.links k with
    | none =>
      simp only [step, hk] at h ⊢
      cases h
      exact ⟨rfl, rfl⟩
    | some x => simp [step, hk] at h
  | thread k a =>
    obtain ⟨x, hx, h⟩ := Option.bind_eq_some_iff.1 h
    obtain ⟨hlocal, h⟩ := Option.ite_none_right_eq_some.1 h
    obtain ⟨proc, hproc, rfl⟩ := Option.map_eq_some_iff.1 h
    refine ⟨Option.bind_eq_some_iff.2 ⟨x, hx, ?_⟩, rfl⟩
    rw [if_pos hlocal, hproc]
    rfl
  | subscribe k n field =>
    obtain ⟨x, hx, h⟩ := Option.bind_eq_some_iff.1 h
    obtain ⟨hname, h⟩ := Option.ite_none_right_eq_some.1 h
    obtain ⟨proc, hproc, rfl⟩ := Option.map_eq_some_iff.1 h
    refine ⟨Option.bind_eq_some_iff.2 ⟨x, hx, ?_⟩, rfl⟩
    rw [if_pos hname, hproc]
    rfl
  | publish k n t =>
    obtain ⟨x, hx, h⟩ := Option.bind_eq_some_iff.1 h
    obtain ⟨hname, h⟩ := Option.ite_none_right_eq_some.1 h
    cases h
    refine ⟨Option.bind_eq_some_iff.2 ⟨x, hx, ?_⟩, rfl⟩
    rw [if_pos hname]
    rfl
  | clearServer k =>
    obtain ⟨x, hx, rfl⟩ := Option.map_eq_some_iff.1 h
    exact ⟨Option.map_eq_some_iff.2 ⟨x, hx, rfl⟩, rfl⟩
  | hang k =>
    obtain ⟨x, hx, rfl⟩ := Option.map_eq_some_iff.1 h
    exact ⟨Option.map_eq_some_iff.2 ⟨x, hx, rfl⟩, rfl⟩
  | select | accept | read | finish => cases ha
  | receive k a tail now who =>
    obtain ⟨x, hx, h⟩ := Option.bind_eq_some_iff.1 h
    obtain ⟨hreads, h⟩ := Option.ite_none_right_eq_some.1 h
    obtain ⟨x', rfl, -⟩ := afterReceive_setLink h
    refine ⟨Option.bind_eq_some_iff.2 ⟨x, hx, ?_⟩, rfl⟩
    rw [if_pos hreads]
    exact afterReceive_place h place

end Network

namespace Scan
variable {κ ι : Type} {S S' : Scan κ ι}

/-- The members of the set in order, each with a connection that it is ready for. -/
def reports (ready : List (Nat × κ)) : List (Nat × κ) :=
  (readySet ready).toList.filterMap fun fd => ready.find? fun r => r.1 = fd

theorem mem_of_mem_reports {ready : List (Nat × κ)} {r : Nat × κ} (h : r ∈ reports ready) : r ∈ ready := by
  obtain ⟨fd, -, hfind⟩ := List.mem_filterMap.1 h
  exact List.mem_of_find?_eq_some hfind

theorem reports_fst (ready : List (Nat × κ)) : (reports ready).map Prod.fst = (readySet ready).toList := by
  have hall : ∀ l : List Nat, (∀ fd ∈ l, fd ∈ ready.map Prod.fst) →
      (l.filterMap fun fd => ready.find? fun r => r.1 = fd).map Prod.fst = l := by
    intro l hl
    induction l with
    | nil => rfl
    | cons fd l ih =>
      obtain ⟨r, hr, hfd⟩ := List.mem_map.1 (hl fd List.mem_cons_self)
      cases hfind : ready.find? fun r => r.1 = fd with
      | none => exact absurd (List.find?_eq_none.1 hfind r hr) (by simp [hfd])
      | some q =>
        have hq : q.1 = fd := by simpa using List.find?_some hfind
        simp only [List.filterMap_cons, hfind, List.map_cons, hq]
        rw [ih fun fd hfd => hl fd (List.mem_cons_of_mem _ hfd)]
  exact hall _ fun fd hfd => mem_readySet.1 (ExtTreeSet.mem_toList.1 hfd)

def place (S : Scan κ ι) : Place :=
  match S.pc with
  | .selecting => .selecting
  | .test => .looping false (ahead S.readFdSet S.i)
  | .updating rv => .looping rv (ahead S.readFdSet S.i)

/-- The network with what is still to come in its list. -/
def seen (S : Scan κ ι) : Network κ ι := { S.net with place := S.place }

/-- What a step of the loop is in the network. -/
def shadow (_ : Scan κ ι) : ScanAct κ ι → List (Act κ ι)
  | .client a => [a]
  | .select ready => [.select (reports ready)]
  | .skip => []
  | .accept k fd => [.accept k fd]
  | .enter => []
  | .read k a tail now => [.read k a tail now]
  | .finish => [.finish]

/-- The members of the set that `select` leaves, in order. -/
def reported (_ : Scan κ ι) : ScanAct κ ι → List Nat
  | .select ready => (readySet ready).toList
  | _ => []

/-- After a call of its own the receiver's `update` goes on to the next `read`, or returns. -/
def returned (fd : Nat) : Flow → List Nat
  | .next _ _ _ => []
  | .done _ => [fd]

/-- The descriptor that a step is done with: its connection is accepted, or `update` has returned. -/
def handled (S : Scan κ ι) : ScanAct κ ι → List Nat
  | .accept _ _ => [S.i]
  | .read _ a _ _ =>
    match S.pc with
    | .updating rv => (S.net.nextRead S.i rv a).elim [] (returned S.i)
    | _ => []
  | _ => []

def due (S : Scan κ ι) : List Nat := if S.pc = .selecting then [] else ahead S.readFdSet S.i

theorem due_of_ne (hpc : S.pc ≠ .selecting) : S.due = ahead S.readFdSet S.i := if_neg hpc

/-- A receiver's `update` is called for a member of the set. -/
def Sound (S : Scan κ ι) : Prop :=
  ∀ rv, S.pc = .updating rv → (S.i < FD_SETSIZE ∧ S.i ∈ S.readFdSet) ∧ S.i ≠ S.net.server.listenfd

theorem seen_of_place {place : Place} (h : S.place = place) : S.seen = { S.net with place := place } := by
  rw [seen, h]

theorem place_test (hpc : S.pc = .test) : S.place = .looping false (ahead S.readFdSet S.i) := by
  rw [place, hpc]

theorem place_updating {rv : Bool} (hpc : S.pc = .updating rv) :
    S.place = .looping rv (ahead S.readFdSet S.i) := by
  rw [place, hpc]

theorem sound_of_ne (h : ∀ rv, S.pc ≠ .updating rv) : S.Sound := fun rv hpc => absurd hpc (h rv)

variable [DecidableEq κ] [DecidableEq ι]

/-- What each step does, and when. -/
inductive Moves (S : Scan κ ι) : ScanAct κ ι → Scan κ ι → Prop
  | client (a : Act κ ι) (N : Network κ ι) (ha : a.ofClient = true) (hN : S.net.step a = some N) :
      Moves S (.client a) { S with net := N }
  | select (ready : List (Nat × κ)) (hpc : S.pc = .selecting) (hne : ready ≠ [])
      (hready : ∀ r ∈ ready, r.1 < FD_SETSIZE ∧ r.1 ∈ S.net.server.activeFdSet ∧ S.net.IsReady r.1 r.2) :
      Moves S (.select ready) { S with pc := .test, readFdSet := readySet ready, i := 0 }
  | skips (hpc : S.pc = .test) (hi : S.i < FD_SETSIZE) (hmem : S.i ∉ S.readFdSet) :
      Moves S .skip { S with i := S.i + 1 }
  | accepts (k : κ) (fd : Nat) (x : Link ι) (hx : S.net.links k = some x) (hpc : S.pc = .test)
      (hi : S.i < FD_SETSIZE) (hmem : S.i ∈ S.readFdSet)
      (hfd : S.i = S.net.server.listenfd ∧ x.Pending ∧ S.net.server.Enabled (.accept fd)) :
      Moves S (.accept k fd)
        { S with net := { S.net with server := S.net.server.acceptClient fd }.setLink k { x with fd := some fd }
                 i := S.i + 1 }
  | enters (hpc : S.pc = .test) (hi : S.i < FD_SETSIZE) (hmem : S.i ∈ S.readFdSet)
      (hne : S.i ≠ S.net.server.listenfd) : Moves S .enter { S with pc := .updating false }
  | reads (k : κ) (a : Arrival) (tail : Bytes) (now : Now) (x : Link ι) (hx : S.net.links k = some x) (rv : Bool)
      (hpc : S.pc = .updating rv) (ha : x.fd = some S.i ∧ x.up.Offers a) (flow : Flow)
      (hflow : S.net.nextRead S.i rv a = some flow) (N : Network κ ι)
      (hN : S.net.afterRead k x S.i [] a tail now flow = some N) :
      Moves S (.read k a tail now) (S.behind N flow)
  | finishes (hpc : S.pc = .test) (hi : ¬ S.i < FD_SETSIZE) : Moves S .finish { S with pc := .selecting }

theorem step_moves {a : ScanAct κ ι} (hstep : S.step a = some S') : Moves S a S' := by
  cases a with
  | client a =>
    obtain ⟨ha, hstep⟩ := Option.ite_none_right_eq_some.1 hstep
    obtain ⟨N, hN, rfl⟩ := Option.map_eq_some_iff.1 hstep
    exact .client a N ha hN
  | select ready =>
    obtain ⟨⟨hpc, hne, hready⟩, hstep⟩ := Option.ite_none_right_eq_some.1 hstep
    cases hstep
    exact .select ready hpc hne hready
  | skip =>
    obtain ⟨⟨hpc, hi, hmem⟩, hstep⟩ := Option.ite_none_right_eq_some.1 hstep
    cases hstep
    exact .skips hpc hi hmem
  | accept k fd =>
    obtain ⟨x, hx, hstep⟩ := Option.bind_eq_some_iff.1 hstep
    obtain ⟨⟨hpc, ⟨hi, hmem⟩, hfd⟩, hstep⟩ := Option.ite_none_right_eq_some.1 hstep
    cases hstep
    exact .accepts k fd x hx hpc hi hmem hfd
  | enter =>
    obtain ⟨⟨hpc, ⟨hi, hmem⟩, hne⟩, hstep⟩ := Option.ite_none_right_eq_some.1 hstep
    cases hstep
    exact .enters hpc hi hmem hne
  | read k a tail now =>
    obtain ⟨x, hx, hstep⟩ := Option.bind_eq_some_iff.1 hstep
    split at hstep
    · next rv hpc =>
      obtain ⟨ha, hstep⟩ := Option.ite_none_right_eq_some.1 hstep
      obtain ⟨flow, hflow, hstep⟩ := Option.bind_eq_some_iff.1 hstep
      obtain ⟨N, hN, rfl⟩ := Option.map_eq_some_iff.1 hstep
      exact .reads k a tail now x hx rv hpc ha flow hflow N hN
    · cases hstep
  | finish =>
    obtain ⟨⟨hpc, hi⟩, hstep⟩ := Option.ite_none_right_eq_some.1 hstep
    cases hstep
    exact .finishes hpc hi

omit [DecidableEq ι] in
theorem afterRead_listenfd {N N' : Network κ ι} {k : κ} {x : Link ι} {fd : Nat} {rest : List Nat} {a : Arrival}
    {tail : Bytes} {now : Now} {r : TCPReceiver} {s : Socket} {rv : Bool}
    (h : N.afterRead k x fd rest a tail now (.next r s rv) = some N') : N'.server.listenfd = N.server.listenfd := by
  cases h
  rfl

theorem Sound.step (hs : S.Sound) {a : ScanAct κ ι} (hstep : S.step a = some S') : S'.Sound := by
  cases step_moves hstep with
  | client a N ha hN =>
    intro rv hpc
    show _ ∧ S.i ≠ N.server.listenfd
    rw [(Network.step_place ha hN .selecting).2]
    exact hs rv hpc
  | select ready => exact sound_of_ne fun rv hrv => by cases hrv
  | skips hpc => exact sound_of_ne fun rv hrv => by cases hpc.symm.trans hrv
  | accepts k fd x hx hpc => exact sound_of_ne fun rv hrv => by cases hpc.symm.trans hrv
  | enters hpc hi hmem hne => exact fun _ _ => ⟨⟨hi, hmem⟩, hne⟩
  | reads k a tail now x hx rv hpc ha flow hflow N hN =>
    cases flow with
    | next r s rv' =>
      intro _ _
      show _ ∧ S.i ≠ N.server.listenfd
      rw [afterRead_listenfd hN]
      exact hs rv hpc
    | done d => exact sound_of_ne fun rv hrv => by cases hrv
  | finishes => exact sound_of_ne fun rv hrv => by cases hrv

theorem seen_select {ready : List (Nat × κ)} (hstep : S.step (.select ready) = some S') :
    S.seen.step (.select (reports ready)) = some S'.seen ∧
      ahead S'.readFdSet S'.i = (readySet ready).toList := by
  cases step_moves hstep with
  | select _ hpc hne hready =>
    have hahead : ahead (readySet ready) 0 = (readySet ready).toList := ahead_zero fun fd hfd => by
      obtain ⟨r, hr, rfl⟩ := List.mem_map.1 (mem_readySet.1 hfd)
      exact (hready r hr).1
    have hplace : S.seen.place = .selecting := by
      show S.place = _
      rw [place, hpc]
    have hnonempty : reports ready ≠ [] := by
      obtain ⟨r, ready', hcons⟩ := List.exists_cons_of_ne_nil hne
      have hmem : r.1 ∈ (reports ready).map Prod.fst := by
        rw [reports_fst, ExtTreeSet.mem_toList, mem_readySet]
        exact List.mem_map_of_mem (by rw [hcons]; exact List.mem_cons_self)
      exact fun hnil => by rw [hnil] at hmem; cases hmem
    have hsorted : ((reports ready).map Prod.fst).Pairwise (· < ·) := by
      rw [reports_fst, ← hahead]
      exact ahead_sorted _ _
    refine ⟨?_, hahead⟩
    rw [Network.step, if_pos ⟨hplace, hnonempty, hsorted, fun r hr => (hready r (mem_of_mem_reports hr)).2⟩,
      reports_fst, ← hahead]
    rfl

/-- **A step of the loop, for the network.** -/
theorem seen_step (hs : S.Sound) {a : ScanAct κ ι} (hstep : S.step a = some S') :
    Run.exec Network.step S.seen (S.shadow a) = some S'.seen := by
  have hone : ∀ {a : Act κ ι}, S.seen.step a = some S'.seen → Run.exec Network.step S.seen [a] = some S'.seen :=
    fun h => Run.exec_cons_eq_some.2 ⟨_, h, rfl⟩
  cases step_moves hstep with
  | client a N ha hN => exact hone (Network.step_place ha hN S.place).1
  | select ready => exact hone (seen_select hstep).1
  | skips hpc hi hmem =>
    show some S.seen = _
    rw [seen_of_place (place_test hpc), ahead_of_notMem hi hmem]
    exact congrArg some (seen_of_place (S := { S with i := S.i + 1 }) (place_test hpc)).symm
  | accepts k fd x hx hpc hi hmem hfd =>
    refine hone (Option.bind_eq_some_iff.2 ⟨x, hx, ?_⟩)
    have hplace : S.seen.place = .looping false (S.i :: ahead S.readFdSet (S.i + 1)) :=
      (place_test hpc).trans (by rw [ahead_of_mem hi hmem])
    simp only [hplace]
    refine (if_pos hfd).trans ?_
    simp only [seen, place, hpc]
    rfl
  | enters hpc =>
    show some S.seen = _
    rw [seen_of_place (place_test hpc)]
    rfl
  | reads k a tail now x hx rv hpc ha flow hflow N hN =>
    obtain ⟨⟨hi, hmem⟩, hlisten⟩ := hs rv hpc
    refine hone (Option.bind_eq_some_iff.2 ⟨x, hx, ?_⟩)
    have hplace : S.seen.place = .looping rv (S.i :: ahead S.readFdSet (S.i + 1)) :=
      (place_updating hpc).trans (by rw [ahead_of_mem hi hmem])
    simp only [hplace]
    rw [if_pos ⟨hlisten, ha⟩]
    refine Option.bind_eq_some_iff.2 ⟨flow, hflow, ?_⟩
    refine (Network.afterRead_place hN S.place (ahead S.readFdSet (S.i + 1))).trans ?_
    cases flow with
    | next r s rv' =>
      refine congrArg some (congrArg (fun place => ({ N with place := place } : Network κ ι)) ?_)
      show Place.looping rv' (S.i :: ahead S.readFdSet (S.i + 1)) = Place.looping rv' (ahead S.readFdSet S.i)
      rw [ahead_of_mem hi hmem]
    | done d => rfl
  | finishes hpc hi =>
    have hplace : S.seen.place = .looping false [] := (place_test hpc).trans (by rw [ahead_end hi])
    exact hone (if_pos hplace)

/-! ## What the loop handles -/

/-- **What a step handles is the next that is due.** -/
theorem due_step (hs : S.Sound) {a : ScanAct κ ι} (hstep : S.step a = some S') :
    S.due ++ S.reported a = S.handled a ++ S'.due := by
  have htest : ∀ {S : Scan κ ι}, S.pc = .test → S.due = ahead S.readFdSet S.i := fun hpc =>
    due_of_ne (by rw [hpc]; decide)
  cases step_moves hstep with
  | client a N => exact List.append_nil _
  | select ready hpc =>
    rw [due, if_pos hpc]
    exact (seen_select hstep).2.symm
  | skips hpc hi hmem =>
    refine (List.append_nil _).trans ?_
    rw [htest hpc, ahead_of_notMem hi hmem]
    exact (htest (S := { S with i := S.i + 1 }) hpc).symm
  | accepts k fd x hx hpc hi hmem =>
    refine (List.append_nil _).trans ?_
    rw [htest hpc, ahead_of_mem hi hmem]
    exact congrArg (S.i :: ·) (htest (S := { S with i := S.i + 1 }) hpc).symm
  | enters hpc =>
    refine (List.append_nil _).trans ?_
    rw [htest hpc]
    rfl
  | reads k a tail now x hx rv hpc ha flow hflow N hN =>
    obtain ⟨⟨hi, hmem⟩, -⟩ := hs rv hpc
    refine (List.append_nil _).trans ?_
    simp only [handled, hpc, hflow, Option.elim_some]
    rw [due_of_ne (by rw [hpc]; exact fun h => by cases h)]
    cases flow with
    | next r s rv' => rfl
    | done d => exact ahead_of_mem hi hmem
  | finishes hpc hi =>
    refine (List.append_nil _).trans ?_
    rw [htest hpc, ahead_end hi]
    rfl

/-! ## Runs -/

omit [DecidableEq κ] [DecidableEq ι] in
theorem sound_start (listenfd : Nat) (others : FdSet) (now : Now) : (start listenfd others now : Scan κ ι).Sound :=
  sound_of_ne fun rv hpc => by cases hpc

theorem sound_run {listenfd : Nat} {others : FdSet} {now : Now} {as : List (ScanAct κ ι)}
    (hrun : Run.exec step (start listenfd others now) as = some S) : S.Sound :=
  Run.invariant (fun _ _ _ hs hstep => hs.step hstep) (sound_start listenfd others now) hrun

theorem seen_run {listenfd : Nat} {others : FdSet} {now : Now} {as : List (ScanAct κ ι)}
    (hrun : Run.exec step (start listenfd others now) as = some S) :
    Run.exec Network.step (.start listenfd others now) (Run.trace step shadow (start listenfd others now) as) =
      some S.seen := by
  obtain ⟨N, hN, -, rfl⟩ := Run.exec_trace (R := fun (S : Scan κ ι) N => S.Sound ∧ N = S.seen)
    (fun S N a S' ⟨hs, hN⟩ hstep => ⟨S'.seen, hN ▸ seen_step hs hstep, hs.step hstep, rfl⟩)
    ⟨sound_start listenfd others now, rfl⟩ hrun
  exact hN

/-- In the loop, the next member of the set is ready. -/
theorem ready_of_mem {listenfd : Nat} {others : FdSet} {now : Now} {as : List (ScanAct κ ι)}
    (hrun : Run.exec step (start listenfd others now) as = some S) (hpc : S.pc ≠ .selecting)
    (hi : S.i < FD_SETSIZE) (hmem : S.i ∈ S.readFdSet) :
    ∃ T k x, T.Consistent ∧ Network.Shows S.net T ∧ S.net.links k = some x ∧
      if S.i = S.net.server.listenfd then x.Pending else x.fd = some S.i ∧ x.Readable := by
  obtain ⟨T, hcons, hshows, hattentive⟩ := Network.attentive_reachable (seen_run hrun)
  have hplace : ∃ rv, S.seen.place = .looping rv (ahead S.readFdSet S.i) := by
    show ∃ rv, S.place = _
    unfold place
    cases hcase : S.pc with
    | selecting => exact absurd hcase hpc
    | test => exact ⟨false, rfl⟩
    | updating rv => exact ⟨rv, rfl⟩
  obtain ⟨rv, hplace⟩ := hplace
  obtain ⟨k, hk⟩ := hattentive.ready rv _ hplace S.i (by rw [ahead_of_mem hi hmem]; exact List.mem_cons_self)
  obtain ⟨x, hx, hif⟩ := Network.isReady_iff.1 hk
  exact ⟨T, k, x, hcons, hshows.place S.net.place, hx, hif⟩

theorem exec_skips (hpc : S.pc = .test) (m : Nat)
    (h : ∀ j, S.i ≤ j → j < S.i + m → j < FD_SETSIZE ∧ j ∉ S.readFdSet) :
    Run.exec step S (List.replicate m .skip) = some { S with i := S.i + m } := by
  induction m generalizing S with
  | zero => rfl
  | succ m ih =>
    have hskip : S.step .skip = some { S with i := S.i + 1 } :=
      if_pos ⟨hpc, h S.i (Nat.le_refl _) (Nat.lt_add_of_pos_right (Nat.succ_pos m))⟩
    have hrest := ih (S := { S with i := S.i + 1 }) hpc fun j hj hlt =>
      h j (Nat.le_of_succ_le hj) (by simp only at hlt; omega)
    rw [List.replicate_succ, Run.exec_cons_eq_some.2 ⟨_, hskip, hrest⟩, Nat.add_assoc, Nat.add_comm 1 m]

/-- The loop goes on: it comes to the next descriptor that is due, a connection is pending there, or there is
something to read, and whatever the `read` finds the step goes through, unless a message that the server is to
send would have 2^31 bytes or more; and with nothing due, the loop comes to its end. -/
structure GoesOn (S : Scan κ ι) : Prop where
  skips : S.pc = .test → ∀ fd rest, S.due = fd :: rest →
    Run.exec step S (List.replicate (fd - S.i) .skip) = some { S with i := fd }
  accepts : S.pc = .test → S.i < FD_SETSIZE → S.i ∈ S.readFdSet → S.i = S.net.server.listenfd →
    ∃ k, ∀ fd, S.net.server.Enabled (.accept fd) → (S.step (.accept k fd)).isSome
  enters : S.pc = .test → S.i < FD_SETSIZE → S.i ∈ S.readFdSet → S.i ≠ S.net.server.listenfd →
    (S.step .enter).isSome
  reads : ∀ rv, S.pc = .updating rv → ∃ k x, S.net.links k = some x ∧ x.fd = some S.i ∧ x.Readable ∧
    ∀ a, x.up.Offers a → ∀ tail now, (S.step (.read k a tail now)).isSome ∨
      ∃ flow p, S.net.nextRead S.i rv a = some flow ∧ packetOf flow = [p] ∧
        ∃ m ∈ (S.net.server.step (.packet S.i p tail now)).1.sent.drop S.net.server.sent.length, 2 ^ 31 ≤ m.2.length
  ends : S.pc = .test → S.due = [] → ∃ i,
    Run.exec step S (List.replicate (FD_SETSIZE - S.i) .skip ++ [.finish]) = some { S with pc := .selecting, i := i }

theorem goesOn {listenfd : Nat} {others : FdSet} {now : Now} {as : List (ScanAct κ ι)}
    (hrun : Run.exec step (start listenfd others now) as = some S) : S.GoesOn where
  skips hpc fd rest hdue := by
    rw [due_of_ne (by rw [hpc]; decide)] at hdue
    have hfd := (mem_ahead.1 (hdue ▸ List.mem_cons_self : fd ∈ ahead S.readFdSet S.i)).1
    rw [exec_skips hpc (fd - S.i) fun j hj hlt => not_mem_of_ahead hdue hj (by omega), Nat.add_sub_cancel' hfd]
  accepts hpc hi hmem hlisten := by
    obtain ⟨T, k, x, -, -, hx, hif⟩ := ready_of_mem hrun (by rw [hpc]; decide) hi hmem
    rw [if_pos hlisten] at hif
    refine ⟨k, fun fd hfd => ?_⟩
    simp only [step, hx, Option.bind_some]
    rw [if_pos ⟨hpc, ⟨hi, hmem⟩, hlisten, hif, hfd⟩]
    rfl
  enters hpc hi hmem hlisten := by
    rw [step, if_pos ⟨hpc, ⟨hi, hmem⟩, hlisten⟩]
    rfl
  reads rv hpc := by
    obtain ⟨⟨hi, hmem⟩, hlisten⟩ := sound_run hrun rv hpc
    obtain ⟨T, k, x, hcons, hshows, hx, hif⟩ :=
      ready_of_mem hrun (by rw [hpc]; exact fun h => by cases h) hi hmem
    rw [if_neg hlisten] at hif
    refine ⟨k, x, hx, hif.1, hif.2, fun a hoffers tail now' => ?_⟩
    obtain ⟨flow, hflow, hor⟩ := hshows.goesOn hcons hx hif.1 rv [] hoffers tail now'
    refine hor.imp (fun hsome => ?_) fun ⟨p, hp, hlong⟩ => ⟨flow, p, hflow, hp, hlong⟩
    obtain ⟨N, hN⟩ := Option.isSome_iff_exists.1 hsome
    simp only [step, hx, Option.bind_some, hpc]
    rw [if_pos ⟨hif.1, hoffers⟩, hflow, Option.bind_some, hN]
    rfl
  ends hpc hdue := by
    rw [due_of_ne (by rw [hpc]; decide)] at hdue
    have hskips := exec_skips hpc (FD_SETSIZE - S.i) fun j hj hlt => by
      have hfd : j < FD_SETSIZE := by omega
      refine ⟨hfd, fun hmem => ?_⟩
      have hahead := mem_ahead.2 ⟨hj, hfd, hmem⟩
      rw [hdue] at hahead
      cases hahead
    refine ⟨S.i + (FD_SETSIZE - S.i), ?_⟩
    rw [Run.exec_append, hskips, Option.bind_some]
    exact Run.exec_cons_eq_some.2 ⟨_, if_pos ⟨hpc, by simp only; omega⟩, rfl⟩

/-- **The loop of `TCPServer::update` is that of the network, and handles what `select` has reported.** In every
run, the steps of the loop are those of a run of the network; the descriptors that it is done with are those that
`select` has reported so far, each once and in ascending order, up to those that are still due; and it goes on
until nothing is due. -/
theorem scan_exact (listenfd : Nat) (others : FdSet) (now : Now) (as : List (ScanAct κ ι)) (S : Scan κ ι)
    (hrun : Run.exec step (start listenfd others now) as = some S) :
    Run.exec Network.step (.start listenfd others now) (Run.trace step shadow (start listenfd others now) as) =
        some S.seen ∧
      Run.trace step reported (start listenfd others now) as =
        Run.trace step handled (start listenfd others now) as ++ S.due ∧
      S.GoesOn := by
  refine ⟨seen_run hrun, ?_, goesOn hrun⟩
  obtain ⟨q, ⟨-, rfl⟩, hq⟩ := Run.trace_queue (Q := fun (S : Scan κ ι) q => S.Sound ∧ S.due = q)
    (fun S a S' q hQ hstep => ⟨S'.due, ⟨hQ.1.step hstep, rfl⟩, hQ.2 ▸ due_step hQ.1 hstep⟩)
    ⟨sound_start listenfd others now, rfl⟩ hrun
  exact hq

/-- The run `Network.piecemeal` up to the middle of a packet, with the loop around it. -/
def scanned : List (ScanAct Bool Unit) :=
  let asked := frame (strMsg csSubscribe (.ofString "a") .zero)
  [.client (.connect false), .client (.connect true), .select [(3, true), (3, false)], .skip, .skip, .skip,
    .accept false 4] ++ List.replicate 1020 .skip ++ [.finish, .select [(3, true)], .skip, .skip, .skip,
    .accept true 5] ++ List.replicate 1020 .skip ++ [.finish, .client (.subscribe false (.ofString "a") .zero),
    .client (.publish true (.ofString "a") { d := [.float 7] }), .select [(5, true), (4, false)],
    .skip, .skip, .skip, .skip, .enter, .read false (Network.found (asked.take 3)) [] 0,
    .read false (Network.found (asked.drop 3)) [] 0]

theorem scan_exact_scanned : ∃ S : Scan Bool Unit, Run.exec step (start 3 ∅ 0) scanned = some S ∧
    S.due = [4, 5] ∧ Run.trace step reported (start 3 ∅ 0) scanned =
      Run.trace step handled (start 3 ∅ 0) scanned ++ [4, 5] ∧ S.GoesOn := by
  have hrun : (Run.exec step (start 3 ∅ 0) scanned).any (fun S : Scan Bool Unit => decide (S.due = [4, 5])) = true := by
    decide +kernel
  obtain ⟨S, hS, hdue⟩ := (Option.any_eq_true _ _).1 hrun
  have hdue := of_decide_eq_true hdue
  obtain ⟨-, hall, hgoes⟩ := scan_exact 3 ∅ 0 scanned S hS
  exact ⟨S, hS, hdue, hdue ▸ hall, hgoes⟩

end Scan

end DiamondApparatus
