import DiamondApparatus.Client.History
import DiamondApparatus.System.Relay

/-!
# What a client hears

* `System.procAt`, `labels`, `events` : the client process of a connection, the steps it takes in a step of
  the system, and what they do to its cache;
* `System.client_run` : the client of a connection has run by itself, through these steps;
* `heard_run` : its history has the notifications it was handed, all of them and nothing else;
* `sent_run` : those, and then those that are on their way, are what it was told;
* `joins_eq` : what the server has handled of its subscriptions, and what it has asked for;
* `closed_run` : a connection that is open has not left.
-/

namespace DiamondApparatus
open Lib Std MyServer

def Label.subscribes {ι : Type} (n : CString) : Label ι → Bool
  | .subscribe m => m == n
  | _ => false

namespace System
variable {κ ι : Type}

/-- The client process of the connection `k`, or one that has not connected yet. -/
def procAt (S : System κ ι) (k : κ) : Process ι := (S.conns k).elim .start Conn.proc

theorem procAt_of {S : System κ ι} {k : κ} {x : Conn ι} (hx : S.conns k = some x) : S.procAt k = x.proc := by
  rw [procAt, hx]
  rfl

theorem procAt_advance (S : System κ ι) (s : MyServer) (k : κ) : (S.advance s).procAt k = S.procAt k := by
  show ((S.conns k).map _).elim .start Conn.proc = (S.conns k).elim .start Conn.proc
  cases S.conns k <;> rfl

variable [DecidableEq κ]

theorem procAt_setConn (S : System κ ι) (k j : κ) (x : Conn ι) :
    (S.setConn k (some x)).procAt j = if j = k then x.proc else S.procAt j := by
  rw [procAt, conns_setConn]
  split <;> rfl

def labels (k : κ) (S : System κ ι) : Action κ ι → List (Label ι)
  | .thread j a => if k = j then [a] else []
  | .subscribe j n _ => if k = j then [.subscribe n] else []
  | .receive j tail now who =>
    if k = j then (S.downOf k).head?.elim [] fun p => [.packet (p ++ tail) now who] else []
  | _ => []

variable [DecidableEq ι] {S S' : System κ ι} {a : Action κ ι}

/-- What they do to its cache. -/
def events (k : κ) (S : System κ ι) (a : Action κ ι) : List CacheEvent :=
  Run.trace Process.step Process.emits (S.procAt k) (labels k S a)

theorem client_setConn (as : List (Label ι)) {j : κ} {x : Conn ι} {k : κ}
    (hother : k ≠ j → labels k S a = []) (hself : labels j S a = as)
    (hstep : Run.exec Process.step (S.procAt j) as = some x.proc) :
    Run.exec Process.step (S.procAt k) (labels k S a) = some ((S.setConn j (some x)).procAt k) := by
  rw [procAt_setConn]
  by_cases hk : k = j
  · rw [if_pos hk, hk, hself]
    exact hstep
  · rw [if_neg hk, hother hk]
    rfl

/-- **The client's part of a step.** -/
theorem client_step (hstep : S.step a = some S') (k : κ) :
    Run.exec Process.step (S.procAt k) (labels k S a) = some (S'.procAt k) := by
  have hone : ∀ {s s' : Process ι} {b : Label ι}, s.step b = some s' →
      Run.exec Process.step s [b] = some s' := fun h => Run.exec_cons_eq_some.2 ⟨_, h, rfl⟩
  cases a with
  | connect j =>
    simp only [step] at hstep
    split at hstep
    · next hj =>
      cases hstep
      refine client_setConn [] (fun _ => rfl) rfl ?_
      rw [procAt, hj]
      rfl
    · cases hstep
  | accept j fd =>
    obtain ⟨x, hx, hstep⟩ := Option.bind_eq_some_iff.1 hstep
    obtain ⟨-, hstep⟩ := Option.ite_none_right_eq_some.1 hstep
    cases hstep
    exact client_setConn (S := S) [] (fun _ => rfl) rfl (by rw [procAt_of hx]; rfl)
  | thread j a =>
    obtain ⟨x, hx, hstep⟩ := Option.bind_eq_some_iff.1 hstep
    obtain ⟨-, hstep⟩ := Option.ite_none_right_eq_some.1 hstep
    obtain ⟨proc, hproc, rfl⟩ := Option.map_eq_some_iff.1 hstep
    exact client_setConn _ (fun hk => if_neg hk) (if_pos rfl) (by rw [procAt_of hx]; exact hone hproc)
  | subscribe j n field =>
    obtain ⟨x, hx, hstep⟩ := Option.bind_eq_some_iff.1 hstep
    obtain ⟨-, hstep⟩ := Option.ite_none_right_eq_some.1 hstep
    obtain ⟨proc, hproc, rfl⟩ := Option.map_eq_some_iff.1 hstep
    exact client_setConn _ (fun hk => if_neg hk) (if_pos rfl) (by rw [procAt_of hx]; exact hone hproc)
  | publish j n t =>
    obtain ⟨x, hx, hstep⟩ := Option.bind_eq_some_iff.1 hstep
    obtain ⟨-, hstep⟩ := Option.ite_none_right_eq_some.1 hstep
    cases hstep
    exact client_setConn [] (fun _ => rfl) rfl (by rw [procAt_of hx]; rfl)
  | clearServer j =>
    obtain ⟨x, hx, rfl⟩ := Option.map_eq_some_iff.1 hstep
    exact client_setConn [] (fun _ => rfl) rfl (by rw [procAt_of hx]; rfl)
  | serve j tail now =>
    obtain ⟨x, hx, hstep⟩ := Option.bind_eq_some_iff.1 hstep
    split at hstep
    · next fd p up hfd hup =>
      split at hstep
      · next s hs =>
        obtain ⟨-, hstep⟩ := Option.ite_none_right_eq_some.1 hstep
        cases hstep
        rw [procAt_advance]
        exact client_setConn [] (fun _ => rfl) rfl (by rw [procAt_of hx]; rfl)
      · cases hstep
    · cases hstep
  | receive j tail now who =>
    obtain ⟨x, hx, hstep⟩ := Option.bind_eq_some_iff.1 hstep
    split at hstep
    · next p down hdown =>
      obtain ⟨proc, hproc, rfl⟩ := Option.map_eq_some_iff.1 hstep
      refine client_setConn [.packet (p ++ tail) now who] (fun hk => if_neg hk) ?_
        (by rw [procAt_of hx]; exact hone hproc)
      rw [labels, if_pos rfl, downOf_of hx, hdown]
      rfl
    · cases hstep
  | close j =>
    obtain ⟨x, hx, hstep⟩ := Option.bind_eq_some_iff.1 hstep
    split at hstep
    · cases hstep
      exact client_setConn [] (fun _ => rfl) rfl (by rw [procAt_of hx]; rfl)
    · split at hstep
      · cases hstep
        exact client_setConn (S := S) [] (fun _ => rfl) rfl (by rw [procAt_of hx]; rfl)
      · cases hstep

/-- **Each client runs by itself**, through its own steps. -/
theorem client_run {as : List (Action κ ι)} (hrun : Run.exec step S as = some S') (k : κ) :
    Run.exec Process.step (S.procAt k) (Run.trace step (labels k) S as) = some (S'.procAt k) ∧
      Run.trace Process.step Process.emits (S.procAt k) (Run.trace step (labels k) S as) =
        Run.trace step (events k) S as :=
  Run.trace_trace (f := fun S => S.procAt k) (fun _ _ _ hstep => client_step hstep k) hrun

/-! ## What it was told -/

theorem trace_label (s : Process ι) (b : Label ι) : Run.trace Process.step Process.emits s [b] = s.emits b := by
  have hshort : [b].length ≤ 1 := Nat.le_refl 1
  rw [Run.trace_short s hshort, List.flatMap_singleton]

omit [DecidableEq ι] in
theorem notifies_emits (s : Process ι) {b : Label ι} (h : ∀ p now who, b ≠ .packet p now who) (n : CString) :
    notifies n (s.emits b) = [] := by
  have hcopies : ∀ (m : CString) (wait : Wait) (t : Option Ref) (g : GetStep),
      notifies n (copies m wait t g) = [] := by
    intro m wait t g
    unfold copies
    split
    · split <;> rfl
    · rfl
  unfold Process.emits
  split
  · rfl
  · next p now who => exact absurd rfl (h p now who)
  · split
    · exact hcopies _ _ _ _
    · rfl
  · split
    · exact hcopies _ _ _ _
    · rfl
  · rfl

theorem notifies_newsFrame {c : MyClient} {m : CString × List Datum} (hm : Sendable m) (hmem : m.1 ∈ c.topics)
    (n : CString) (tail : Bytes) :
    notifies n (c.notifications (newsFrame m ++ tail)) = (newsIn n (newsFrame m)).toList := by
  obtain ⟨t, ht⟩ := Option.isSome_iff_exists.1 (ExtTreeMap.mem_iff_isSome_getElem?.1 hmem)
  have hnews := newsIn_newsFrame hm n []
  have hcache : c.notifications (newsFrame m ++ tail) =
      [.notified m.1 t (Topic.fromMessage {} (newsFrame m ++ tail) false).1.d] :=
    MyClient.notifications_notify (takeU32_message m.2 scNotify m.1 tail)
      (nameOfMsg_message m.2 scNotify m.1 tail) ht
  rw [List.append_nil] at hnews
  rw [hcache, hnews, newsFrame, fromMessage_message _ _ _ hm.1 hm.2]
  by_cases he : m.1 = n <;> simp [notifies, CacheEvent.news, he]

/-- **Of each packet handed over, the client's history has what it says.** -/
theorem heard_step (hcons : S.Consistent) (hstep : S.step a = some S') (k : κ) (n : CString) :
    notifies n (events k S a) = (hears k S a).filterMap (newsIn n) := by
  have hthread : ∀ (b : Label ι), (∀ p now who, b ≠ .packet p now who) →
      notifies n (Run.trace Process.step Process.emits (S.procAt k) [b]) = [] := by
    intro b hb
    rw [trace_label]
    exact notifies_emits _ hb n
  unfold events
  cases a with
  | thread j b =>
    obtain ⟨x, hx, hstep⟩ := Option.bind_eq_some_iff.1 hstep
    obtain ⟨hlocal, -⟩ := Option.ite_none_right_eq_some.1 hstep
    simp only [labels, hears]
    split
    · refine hthread b ?_
      rintro p now who rfl
      cases hlocal
    · rfl
  | subscribe j m field =>
    simp only [labels, hears]
    split
    · refine hthread _ fun p now who he => ?_
      cases he
    · rfl
  | receive j tail now who =>
    obtain ⟨x, hx, hstep⟩ := Option.bind_eq_some_iff.1 hstep
    split at hstep
    · next p down hdown =>
      simp only [labels, hears]
      split
      · next hk =>
        subst hk
        obtain ⟨asked, news, hlinked⟩ := hcons.linked k x hx
        obtain ⟨m, news', rfl, rfl, rfl⟩ := List.map_eq_cons_iff.1 (hlinked.down.symm.trans hdown)
        have hmem : m.1 ∈ x.proc.c.topics :=
          MyClient.mem_topics.2 (hlinked.agrees.newsHeld m List.mem_cons_self)
        rw [downOf_of hx, hdown, procAt_of hx]
        show notifies n (Run.trace Process.step Process.emits x.proc [.packet (newsFrame m ++ tail) now who]) =
          [newsFrame m].filterMap (newsIn n)
        rw [trace_label]
        refine (notifies_newsFrame (hlinked.sendable m List.mem_cons_self) hmem n tail).trans ?_
        rw [List.filterMap_cons]
        cases newsIn n (newsFrame m) <;> rfl
      · rfl
    · cases hstep
  | _ => rfl

theorem heard_run {as : List (Action κ ι)} (hcons : S.Consistent) (hrun : Run.exec step S as = some S') (k : κ)
    (n : CString) : notifies n (Run.trace step (events k) S as) =
      (Run.trace step (hears k) S as).filterMap (newsIn n) := by
  induction as generalizing S with
  | nil => rfl
  | cons a as ih =>
    obtain ⟨T, hT, hrun⟩ := Run.exec_cons_eq_some.1 hrun
    rw [Run.trace_cons hT, Run.trace_cons hT, List.filterMap_append, notifies, List.filterMap_append]
    exact congrArg₂ (· ++ ·) (heard_step hcons hT k n) (ih (consistent_step hcons hT) hrun)

theorem sent_run {as : List (Action κ ι)} (hrun : Run.exec step S as = some S') (k : κ) :
    S.downOf k ++ Run.trace step (tells k) S as = Run.trace step (hears k) S as ++ S'.downOf k := by
  obtain ⟨q, hq, htrace⟩ := Run.trace_queue (Q := fun S q => downOf S k = q)
    (fun S b S' q hq hb => ⟨_, rfl, hq ▸ down_step hb k⟩) rfl hrun
  rw [htrace, hq]

/-! ## What it has asked for -/

theorem asked_run {as : List (Action κ ι)} (hrun : Run.exec step S as = some S') (k : κ) :
    S.upOf k ++ Run.trace step (asks k) S as = Run.trace step (serves k) S as ++ S'.upOf k := by
  obtain ⟨q, hq, htrace⟩ := Run.trace_queue (Q := fun S q => upOf S k = q)
    (fun S b S' q hq hb => ⟨_, rfl, hq ▸ up_step hb k⟩) rfl hrun
  rw [htrace, hq]

/-- How often the connection `k` joins `n` through its packets `ps`. -/
def joinsIn (k : κ) (n : CString) (ps : List Bytes) : Nat :=
  (ps.flatMap (asksOf k)).countP (Broker.Op.joins k n)

theorem joinsIn_append (k : κ) (n : CString) (ps qs : List Bytes) :
    joinsIn k n (ps ++ qs) = joinsIn k n ps + joinsIn k n qs := by
  rw [joinsIn, List.flatMap_append, List.countP_append]
  rfl

theorem joins_asksOf {k j : κ} (hk : k ≠ j) (n : CString) (p : Bytes) :
    (asksOf j p).countP (Broker.Op.joins k n) = 0 := by
  unfold asksOf
  repeat' split
  all_goals simp [Broker.Op.joins, Ne.symm hk]

omit [DecidableEq ι] in
theorem joins_orders (k : κ) (n : CString) (S : System κ ι) (a : Action κ ι) :
    (orders S a).countP (Broker.Op.joins k n) = joinsIn k n (serves k S a) := by
  cases a with
  | serve j tail now =>
    simp only [orders, serves]
    by_cases hk : k = j
    · subst hk
      rw [if_pos rfl]
      cases S.upOf k with
      | nil => rfl
      | cons p up => simp [joinsIn]
    · rw [if_neg hk]
      cases S.upOf j with
      | nil => rfl
      | cons p up => exact joins_asksOf hk n p
  | close j => rfl
  | _ => rfl

/-- A packet that the client sends joins `n` exactly if it comes from `subscribe(n)`. -/
theorem joins_asks (hstep : S.step a = some S') (k : κ) (n : CString) :
    joinsIn k n (asks k S a) = (labels k S a).countP (Label.subscribes n) := by
  have hpacket : ∀ p : ClientPacket, joinsIn k n [p.bytes] = (p.opsBy k).countP (Broker.Op.joins k n) := by
    intro p
    rw [joinsIn, List.flatMap_singleton, p.asksOf_bytes]
  cases a with
  | thread j b =>
    obtain ⟨x, hx, hstep⟩ := Option.bind_eq_some_iff.1 hstep
    obtain ⟨hlocal, -⟩ := Option.ite_none_right_eq_some.1 hstep
    simp only [asks, labels]
    split
    · cases b with
      | subscribe m => cases hlocal
      | _ => rfl
    · rfl
  | subscribe j m field =>
    obtain ⟨x, hx, hstep⟩ := Option.bind_eq_some_iff.1 hstep
    obtain ⟨hname, -⟩ := Option.ite_none_right_eq_some.1 hstep
    simp only [asks, labels]
    split
    · refine (hpacket (.subscribe m field hname)).trans ?_
      by_cases hm : m = n <;> simp [ClientPacket.opsBy, Broker.Op.joins, Label.subscribes, hm]
    · rfl
  | publish j m t =>
    obtain ⟨x, hx, hstep⟩ := Option.bind_eq_some_iff.1 hstep
    obtain ⟨⟨hname, hsize⟩, -⟩ := Option.ite_none_right_eq_some.1 hstep
    simp only [asks, labels]
    split
    · exact hpacket (.publish m t.d hname hsize)
    · rfl
  | clearServer j =>
    simp only [asks, labels]
    split
    · exact hpacket .clearserver
    · rfl
  | receive j tail now who =>
    simp only [asks, labels]
    split
    · cases (S.downOf k).head? <;> rfl
    · rfl
  | _ => rfl

/-- **The server has handled of the subscriptions of `k` to `n` all but those on their way.** -/
theorem joins_eq {as : List (Action κ ι)} (hrun : Run.exec step S as = some S') (k : κ) (n : CString) :
    joinsIn k n (S.upOf k) + (Run.trace step (labels k) S as).countP (Label.subscribes n) =
      (Run.trace step orders S as).countP (Broker.Op.joins k n) + joinsIn k n (S'.upOf k) := by
  have hasks : joinsIn k n (Run.trace step (asks k) S as) =
      (Run.trace step (labels k) S as).countP (Label.subscribes n) := by
    induction as generalizing S with
    | nil => rfl
    | cons a as ih =>
      obtain ⟨T, hT, hrun⟩ := Run.exec_cons_eq_some.1 hrun
      rw [Run.trace_cons hT, Run.trace_cons hT, joinsIn_append, List.countP_append, joins_asks hT, ih hrun]
  have horders : joinsIn k n (Run.trace step (serves k) S as) =
      (Run.trace step orders S as).countP (Broker.Op.joins k n) := by
    clear hasks
    induction as generalizing S with
    | nil => rfl
    | cons a as ih =>
      obtain ⟨T, hT, hrun⟩ := Run.exec_cons_eq_some.1 hrun
      rw [Run.trace_cons hT, Run.trace_cons hT, joinsIn_append, List.countP_append, joins_orders, ih hrun]
  rw [← hasks, ← horders, ← joinsIn_append, ← joinsIn_append, asked_run hrun k]

/-! ## Connections that stay -/

def closedAt (S : System κ ι) (k : κ) : Bool := (S.conns k).elim false Conn.closed

omit [DecidableEq κ] [DecidableEq ι] in
theorem closedAt_of {k : κ} {x : Conn ι} (hx : S.conns k = some x) : S.closedAt k = x.closed := by
  rw [closedAt, hx]
  rfl

omit [DecidableEq κ] [DecidableEq ι] in
theorem closedAt_advance (S : System κ ι) (s : MyServer) : (S.advance s).closedAt = S.closedAt := by
  funext k
  show ((S.conns k).map _).elim false Conn.closed = (S.conns k).elim false Conn.closed
  cases S.conns k <;> rfl

omit [DecidableEq ι] in
theorem closedAt_setConn (S : System κ ι) (k j : κ) (x : Conn ι) :
    (S.setConn k (some x)).closedAt j = if j = k then x.closed else S.closedAt j := by
  rw [closedAt, conns_setConn]
  split <;> rfl

omit [DecidableEq ι] in
theorem open_of_setConn {s : MyServer} {j k : κ} {x : Conn ι}
    (hopen : ({ S with server := s }.setConn j (some x)).closedAt k = false)
    (hx : x.closed = S.closedAt j) : S.closedAt k = false := by
  rw [closedAt_setConn] at hopen
  split at hopen
  · next hk => rw [hk, ← hx, hopen]
  · exact hopen

omit [DecidableEq κ] in
theorem leave_not_mem_asksOf (k j : κ) (p : Bytes) : .leave k ∉ asksOf j p := by
  unfold asksOf
  repeat' split
  all_goals simp

/-- **Who leaves stays closed.** -/
theorem closed_step (hstep : S.step a = some S') {k : κ} (hopen : S'.closedAt k = false) :
    S.closedAt k = false ∧ .leave k ∉ orders S a := by
  cases a with
  | connect j =>
    simp only [step] at hstep
    split at hstep
    · next hj =>
      cases hstep
      exact ⟨open_of_setConn (s := S.server) hopen (by rw [closedAt, hj]; rfl), List.not_mem_nil⟩
    · cases hstep
  | accept j fd =>
    obtain ⟨x, hx, hstep⟩ := Option.bind_eq_some_iff.1 hstep
    obtain ⟨-, hstep⟩ := Option.ite_none_right_eq_some.1 hstep
    cases hstep
    exact ⟨open_of_setConn hopen (closedAt_of hx).symm, List.not_mem_nil⟩
  | thread j b =>
    obtain ⟨x, hx, hstep⟩ := Option.bind_eq_some_iff.1 hstep
    obtain ⟨-, hstep⟩ := Option.ite_none_right_eq_some.1 hstep
    obtain ⟨proc, -, rfl⟩ := Option.map_eq_some_iff.1 hstep
    exact ⟨open_of_setConn (s := S.server) hopen (closedAt_of hx).symm, List.not_mem_nil⟩
  | subscribe j n field =>
    obtain ⟨x, hx, hstep⟩ := Option.bind_eq_some_iff.1 hstep
    obtain ⟨-, hstep⟩ := Option.ite_none_right_eq_some.1 hstep
    obtain ⟨proc, -, rfl⟩ := Option.map_eq_some_iff.1 hstep
    exact ⟨open_of_setConn (s := S.server) hopen (closedAt_of hx).symm, List.not_mem_nil⟩
  | publish j n t =>
    obtain ⟨x, hx, hstep⟩ := Option.bind_eq_some_iff.1 hstep
    obtain ⟨-, hstep⟩ := Option.ite_none_right_eq_some.1 hstep
    cases hstep
    exact ⟨open_of_setConn (s := S.server) hopen (closedAt_of hx).symm, List.not_mem_nil⟩
  | clearServer j =>
    obtain ⟨x, hx, rfl⟩ := Option.map_eq_some_iff.1 hstep
    exact ⟨open_of_setConn (s := S.server) hopen (closedAt_of hx).symm, List.not_mem_nil⟩
  | serve j tail now =>
    obtain ⟨x, hx, hstep⟩ := Option.bind_eq_some_iff.1 hstep
    split at hstep
    · next fd p up hfd hup =>
      split at hstep
      · next s hs =>
        obtain ⟨-, hstep⟩ := Option.ite_none_right_eq_some.1 hstep
        cases hstep
        rw [closedAt_advance] at hopen
        refine ⟨open_of_setConn (s := S.server) hopen (closedAt_of hx).symm, ?_⟩
        rw [orders, upOf_of hx, hup]
        exact leave_not_mem_asksOf k j p
      · cases hstep
    · cases hstep
  | receive j tail now who =>
    obtain ⟨x, hx, hstep⟩ := Option.bind_eq_some_iff.1 hstep
    split at hstep
    · next p down hdown =>
      obtain ⟨proc, -, rfl⟩ := Option.map_eq_some_iff.1 hstep
      exact ⟨open_of_setConn (s := S.server) hopen (closedAt_of hx).symm, List.not_mem_nil⟩
    · cases hstep
  | close j =>
    have hends : ∀ (s : MyServer) (x : Conn ι), x.closed = true →
        ({ S with server := s }.setConn j (some x)).closedAt k = false →
        S.closedAt k = false ∧ .leave k ∉ orders S (.close j) := by
      intro s x hclosed hopen
      rw [closedAt_setConn] at hopen
      split at hopen
      · rw [hclosed] at hopen
        cases hopen
      · next hk => exact ⟨hopen, by simp [orders, hk]⟩
    obtain ⟨x, hx, hstep⟩ := Option.bind_eq_some_iff.1 hstep
    split at hstep
    · cases hstep
      exact hends S.server _ rfl hopen
    · split at hstep
      · next s hs =>
        cases hstep
        exact hends s _ rfl hopen
      · cases hstep

theorem closed_run {as : List (Action κ ι)} (hrun : Run.exec step S as = some S') {k : κ}
    (hopen : S'.closedAt k = false) : S.closedAt k = false ∧ .leave k ∉ Run.trace step orders S as := by
  induction as generalizing S with
  | nil =>
    rw [Run.exec, Option.some_inj] at hrun
    exact ⟨hrun ▸ hopen, List.not_mem_nil⟩
  | cons a as ih =>
    obtain ⟨T, hT, hrun⟩ := Run.exec_cons_eq_some.1 hrun
    obtain ⟨hT', hrest⟩ := ih hrun
    obtain ⟨hS, hone⟩ := closed_step hT hT'
    rw [Run.trace_cons hT, List.mem_append]
    exact ⟨hS, fun hor => hor.elim hone hrest⟩

/-! ## From the start -/

section
variable {listenfd : Nat} {others : FdSet} {now : Now} {as : List (Action κ ι)}

/-- **What a client has heard, and what is on its way to it, is what it is to hear.** -/
theorem heard_exact (hrun : Run.exec step (start listenfd others now) as = some S) {n : CString}
    (hs : n ≠ statsName) (ht : n ≠ topicsName) (k : κ) :
    notifies n (Run.trace step (events k) (start listenfd others now) as) ++
        (S.downOf k).filterMap (newsIn n) =
      Broker.expect k n (initially n) false (Run.trace step orders (start listenfd others now) as) := by
  have hcons := consistent_start (κ := κ) (ι := ι) listenfd others now
  have hsent := sent_run hrun k
  have hnothing : (start listenfd others now : System κ ι).downOf k = [] := rfl
  rw [hnothing, List.nil_append] at hsent
  rw [heard_run hcons hrun k n, ← List.filterMap_append, ← hsent,
    (brokers_run (brokers_start listenfd others now) hcons hrun hs ht).2 k, Broker.heardAll_eq_expect]
  rfl

/-- What it has asked for, the server has handled, or will. -/
theorem joins_exact (hrun : Run.exec step (start listenfd others now) as = some S) (k : κ) (n : CString) :
    (Run.trace step (labels k) (start listenfd others now) as).countP (Label.subscribes n) =
      (Run.trace step orders (start listenfd others now) as).countP (Broker.Op.joins k n) +
        joinsIn k n (S.upOf k) := by
  have hjoins := joins_eq hrun k n
  have hup : joinsIn k n ((start listenfd others now : System κ ι).upOf k) = 0 := rfl
  rwa [hup, Nat.zero_add] at hjoins

/-- What is stored is what was posted last. -/
theorem stored_exact (hrun : Run.exec step (start listenfd others now) as = some S) {n : CString}
    (hs : n ≠ statsName) (ht : n ≠ topicsName) : S.server.topics[n]?.map Topic.d =
      Broker.lastPosted n (initially n) (Run.trace step orders (start listenfd others now) as) := by
  have hbrokers := (brokers_run (brokers_start listenfd others now)
    (consistent_start listenfd others now) hrun hs ht).1.stored n hs ht
  rw [Broker.stored_run] at hbrokers
  exact hbrokers.symm

/-- The client of a connection, and its history. -/
theorem client_exact (hrun : Run.exec step (start listenfd others now) as = some S) (k : κ) :
    Run.exec Process.step .start (Run.trace step (labels k) (start listenfd others now) as) =
        some (S.procAt k) ∧
      Run.trace Process.step Process.emits .start (Run.trace step (labels k) (start listenfd others now) as) =
        Run.trace step (events k) (start listenfd others now) as :=
  client_run hrun k

end

end System

end DiamondApparatus
