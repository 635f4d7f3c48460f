import DiamondApparatus.Network.Transport

/-!
# The system is a broker between its connections

* `asksOf c p` : what the packet `p` of `c` asks of a broker, read off its bytes; `newsIn n p` : what a
  packet to a client says of `n`;
* `System.orders` : what a step of the system asks;
* `Brokers S b` : the broker `b` between connections is what the server of `S` is between descriptors, for
  the topics that it does not build itself;
* `brokers_step`, `brokers_run` : it stays so, and each connection is told what `b` says;
* `told_exact` : from the start, all that each connection is told.
-/

namespace DiamondApparatus
open Lib Std MyServer

/-! ## Packets, by their bytes -/

def asksOf {C : Type} (c : C) (p : Bytes) : List (Broker.Op C CString (List Datum)) :=
  match takeU32 p with
  | none => []
  | some (type, msg) =>
    if type = csPublish then
      match nameOfMsg p with
      | .error _ => []
      | .ok n => [.post n (Topic.fromMessage {} p false).1.d]
    else if type = csSubscribe then
      match CString.ofMem msg with
      | none => []
      | some n => [.join c n]
    else if type = csClearserver then [.clear]
    else []

/-- What a packet to a client says of `n`, if it is a notification of `n`. -/
def newsIn (n : CString) (p : Bytes) : Option (List Datum) :=
  if tells n p then some (Topic.fromMessage {} p false).1.d else none

namespace ClientPacket
variable {C C' : Type}

def opsBy (c : C) : ClientPacket → List (Broker.Op C CString (List Datum))
  | publish n d _ _ => [.post n d]
  | subscribe n _ _ => [.join c n]
  | clearserver => [.clear]
  | unknown _ _ _ => []

theorem opsBy_fd (fd : Nat) (p : ClientPacket) : p.opsBy fd = p.ops fd := by
  cases p <;> rfl

theorem asksOf_bytes (c : C) (p : ClientPacket) : asksOf c p.bytes = p.opsBy c := by
  unfold asksOf
  cases p with
  | publish n d hname hsize =>
    have htype := takeU32_message d csPublish n []
    have hmsg := nameOfMsg_message d csPublish n []
    have hdec := fromMessage_message {} d csPublish hname hsize false []
    rw [List.append_nil] at htype hmsg hdec
    rw [bytes, toMessage_eq _ _ hname, htype]
    dsimp only
    rw [if_pos rfl, hmsg]
    dsimp only
    rw [hdec]
    rfl
  | subscribe n field hname =>
    rw [bytes, strMsg_eq _ (by omega) field, takeU32_be32]
    dsimp only
    rw [if_neg (by decide), if_pos rfl, CString.ofMem_mem_append]
    rfl
  | clearserver => rfl
  | unknown type rest htype =>
    simp only [List.mem_cons, List.not_mem_nil, or_false, not_or] at htype
    rw [bytes, takeU32_be32]
    dsimp only
    rw [if_neg htype.1, if_neg htype.2.1, if_neg htype.2.2.2]
    rfl

theorem leave_not_mem_opsBy (p : ClientPacket) (c k : C) : .leave k ∉ p.opsBy c := by
  cases p <;> simp [opsBy]

theorem join_mem_opsBy {p : ClientPacket} {c k : C} {n : CString} :
    .join k n ∈ p.opsBy c ↔ k = c ∧ p.wants = some n := by
  cases p with
  | publish m d _ _ => simp [opsBy, wants]
  | subscribe m field _ =>
    simp only [opsBy, wants, List.mem_singleton, Broker.Op.join.injEq, Option.some.injEq]
    rw [eq_comm (a := n)]
  | clearserver => simp [opsBy, wants]
  | unknown _ _ _ => simp [opsBy, wants]

theorem lastPosted_opsBy (p : ClientPacket) (c : C) (c' : C') (n : CString) (v : Option (List Datum)) :
    Broker.lastPosted n v (p.opsBy c) = Broker.lastPosted n v (p.opsBy c') := by
  cases p <;> rfl

/-- What is heard depends on whether one asks oneself. -/
theorem expect_opsBy [DecidableEq C] [DecidableEq C'] (p : ClientPacket) {c k : C} {c' k' : C'}
    (h : c = k ↔ c' = k') (n : CString) (v : Option (List Datum)) (joined : Bool) :
    Broker.expect k n v joined (p.opsBy c) = Broker.expect k' n v joined (p.opsBy c') := by
  cases p with
  | subscribe m field _ => simp only [opsBy, Broker.expect, h]
  | publish m d _ _ => rfl
  | clearserver => rfl
  | unknown _ _ _ => rfl

end ClientPacket

theorem newsIn_newsFrame {m : CString × List Datum} (h : Sendable m) (n : CString) (tail : Bytes) :
    newsIn n (newsFrame m ++ tail) = if m.1 = n then some m.2 else none := by
  have htells : tells n (newsFrame m ++ tail) = decide (m.1 = n) := by
    simp [tells, newsFrame, takeU32_message, nameOfMsg_message]
  rw [newsIn, htells, newsFrame, fromMessage_message _ _ _ h.1 h.2]
  by_cases hm : m.1 = n
  · rw [decide_eq_true hm, if_pos rfl, if_pos hm]
  · rw [decide_eq_false hm, if_neg (by decide), if_neg hm]

theorem newsIn_news {news : List (CString × List Datum)} (h : ∀ m ∈ news, Sendable m) (n : CString) :
    (news.map newsFrame).filterMap (newsIn n) = Mirror.newsOf n news := by
  induction news with
  | nil => rfl
  | cons m news ih =>
    have hm := newsIn_newsFrame (h m List.mem_cons_self) n []
    rw [List.append_nil] at hm
    rw [List.map_cons, List.filterMap_cons, hm, Mirror.newsOf_cons,
      ih fun m' hm' => h m' (List.mem_cons_of_mem m hm')]
    by_cases he : m.1 = n
    · rw [if_pos he, if_pos he]
    · rw [if_neg he, if_neg he]

/-! ## The system as a broker -/

namespace System
variable {κ ι : Type} {S S' : System κ ι} {b : Broker κ CString (List Datum)}

/-- What a step asks of the broker. -/
def orders (S : System κ ι) : Action κ ι → List (Broker.Op κ CString (List Datum))
  | .serve k _ _ => (S.upOf k).head?.elim [] (asksOf k)
  | .close k => [.leave k]
  | _ => []

structure Brokers (S : System κ ι) (b : Broker κ CString (List Datum)) : Prop where
  stored : ∀ n, n ≠ statsName → n ≠ topicsName → b.stored n = S.server.broker.stored n
  subs : ∀ k n, b.subs n k = joinedAs S.server (S.fdOf k) n

theorem Brokers.same (h : Brokers S b) (hserver : S'.server.broker = S.server.broker)
    (hfd : ∀ k n, joinedAs S'.server (S'.fdOf k) n = joinedAs S.server (S.fdOf k) n) : Brokers S' b where
  stored n hs ht := by rw [hserver]; exact h.stored n hs ht
  subs k n := by rw [hfd]; exact h.subs k n

def opening : Broker κ CString (List Datum) where
  stored := initially
  subs _ _ := false

theorem brokers_start (listenfd : Nat) (others : FdSet) (now : Now) :
    Brokers (start listenfd others now : System κ ι) opening where
  stored _ hs ht := (stored_new hs ht now).symm
  subs _ _ := rfl

variable [DecidableEq κ]

theorem Brokers.serve (h : Brokers S b) (hcons : S.Consistent) {k : κ} {x : Conn ι}
    (hx : S.conns k = some x) {fd : Nat} (hfd : x.fd = some fd) {p : Bytes} {up : List Bytes}
    (hup : x.up = p :: up) {tail : Bytes} {now : Now} {s : MyServer}
    (hstep : S.server.step (.packet fd p tail now) = (s, none))
    (hsends : ∀ m ∈ s.sent.drop S.server.sent.length, m.2.length < 2 ^ 31) :
    Brokers ((S.setConn k (some { x with up := up })).advance s) (b.run (asksOf k p)) ∧
      ∀ j n, n ≠ statsName → n ≠ topicsName →
        (framesTo (S.fdOf j) (s.sent.drop S.server.sent.length)).filterMap (newsIn n) =
          b.heardAll j n (asksOf k p) := by
  have hk : S.fdOf k = some fd := (fdOf_of hx).trans hfd
  have hmem : fd ∈ S.server.clients := (hcons.accepted fd).2 ⟨k, hk⟩
  obtain ⟨asked, news, hlinked⟩ := hcons.linked k x hx
  have hopen : x.closed = false := by
    refine Bool.eq_false_iff.2 fun hclosed => ?_
    rw [hlinked.shut hclosed] at hfd
    cases hfd
  obtain ⟨q, rest, rfl, -, -⟩ := (hup ▸ hlinked.up hopen).oldest
  obtain ⟨s', ops, hs', href, haround, -⟩ := receive_refines hcons.books hmem q tail now
  obtain rfl : s' = s := congrArg Prod.fst (hs'.symm.trans hstep)
  obtain ⟨hleave, hjoin⟩ := around_ops haround
  have hsame := haround.same
  rw [ClientPacket.asksOf_bytes]
  -- who asks, asks on its descriptor
  have hwho : ∀ {j fd'}, S.fdOf j = some fd' → (k = j ↔ fd = fd') := by
    intro j fd' hj
    constructor
    · rintro rfl
      exact Option.some_inj.1 (hk.symm.trans hj)
    · rintro rfl
      exact hcons.apart k j fd hk hj
  have hfds : ((S.setConn k (some { x with up := up })).advance s').fdOf = S.fdOf := by
    rw [fdOf_advance]
    exact fdOf_setConn_same (fdOf_of hx).symm
  constructor
  · refine ⟨fun n hs ht => ?_, fun j n => ?_⟩
    · show _ = s'.broker.stored n
      rw [Broker.stored_run, h.stored n hs ht, href.broker, Broker.stored_run,
        Broker.lastPosted_congr (hsame n hs ht), ← q.opsBy_fd, q.lastPosted_opsBy fd k]
    · show _ = joinedAs s' _ n
      rw [hfds, Bool.eq_iff_iff, Broker.subs_run b j n (q.leave_not_mem_opsBy k j), h.subs,
        ClientPacket.join_mem_opsBy]
      cases hj : S.fdOf j with
      | none =>
        have hjk : j ≠ k := by
          rintro rfl
          rw [hk] at hj
          cases hj
        simp [joinedAs, hjk]
      | some fd' =>
        show _ ↔ s'.broker.subs n fd' = true
        rw [href.broker, Broker.subs_run _ fd' n (hleave fd'), hjoin, eq_comm (a := j), hwho hj,
          eq_comm (a := fd)]
        rfl
  · intro j n hs ht
    obtain ⟨notes, hsent, hshort, htold⟩ := href.sent
    obtain ⟨hout, hnotes⟩ := sendable_notes hsent hshort hsends
    rw [hout, Broker.heardAll_eq_expect, h.subs, h.stored n hs ht]
    cases hj : S.fdOf j with
    | none =>
      have hno : .join j n ∉ q.opsBy k := by
        rw [ClientPacket.join_mem_opsBy]
        rintro ⟨rfl, -⟩
        rw [hk] at hj
        cases hj
      rw [framesTo_none]
      exact (Broker.expect_apart (Broker.countP_joins_eq_zero.2 hno) _).symm
    | some fd' =>
      have hall : ∀ m ∈ newsTo (some fd') notes, Sendable m := by
        intro m hm
        obtain ⟨m', hm', rfl⟩ := List.mem_map.1 hm
        exact hnotes m' (List.mem_of_mem_filter hm')
      rw [framesTo_frames, newsIn_news hall, newsOf_newsTo, htold, Broker.heardAll_eq_expect,
        Broker.expect_congr (hsame n hs ht), ← q.opsBy_fd, q.expect_opsBy (hwho hj).symm]
      rfl

theorem Brokers.accept (h : Brokers S b) (hcons : S.Consistent) {k : κ} {x : Conn ι} (hx : S.conns k = some x)
    (hnone : x.fd = none) {fd : Nat} (hfd : fd ∉ S.server.openFds) :
    Brokers ({ S with server := S.server.acceptClient fd }.setConn k (some { x with fd := some fd })) b := by
  refine h.same rfl fun j n => ?_
  rw [fdOf_setConn]
  split
  · next hj =>
    have hnot := (hcons.books.unsubscribed (hcons.books.fresh hfd).1 n).1
    rw [hj, fdOf_of hx, hnone]
    exact Bool.eq_false_iff.2 fun hc => hnot (ExtTreeSet.contains_iff_mem.1 hc)
  · rfl

theorem Brokers.close (h : Brokers S b) (hcons : S.Consistent) {k : κ} {x : Conn ι} (hx : S.conns k = some x)
    {fd : Nat} (hfd : x.fd = some fd) :
    Brokers ({ S with server := S.server.closed fd }.setConn k (some { x with fd := none, closed := true }))
      (b.run [.leave k]) := by
  have hk : S.fdOf k = some fd := (fdOf_of hx).trans hfd
  have hbroker := (closed_refines hcons.books fd).broker
  refine ⟨fun n hs ht => ?_, fun j n => ?_⟩
  · show b.stored n = (S.server.closed fd).broker.stored n
    rw [hbroker]
    exact h.stored n hs ht
  · show (b.subs n j && decide (j ≠ k)) = joinedAs (S.server.closed fd) _ n
    rw [fdOf_setConn]
    split
    · next hj =>
      rw [decide_eq_false fun hne => hne hj, Bool.and_false]
      rfl
    · next hj =>
      rw [decide_eq_true hj, Bool.and_true, h.subs]
      show _ = joinedAs (S.server.closed fd) (S.fdOf j) n
      cases hfd' : S.fdOf j with
      | none => rfl
      | some fd' =>
        have hne : fd' ≠ fd := fun he => hj (hcons.apart j k fd (he ▸ hfd') hk)
        show _ = (S.server.closed fd).broker.subs n fd'
        rw [hbroker]
        show _ = (S.server.broker.subs n fd' && decide (fd' ≠ fd))
        rw [decide_eq_true hne, Bool.and_true]
        rfl

variable [DecidableEq ι] {a : Action κ ι}

theorem tells_silent (hstep : S.step a = some S') (hsent : S'.server.sent = S.server.sent) (k : κ) :
    tells k S a = [] := by
  rw [tells, hstep, Option.elim_some, hsent, List.drop_length, framesTo_nil]

/-- A step that asks nothing, and changes neither the server nor the descriptors. -/
theorem Brokers.quiet (h : Brokers S b) (hstep : S.step a = some S') (hserver : S'.server = S.server)
    (hfds : S'.fdOf = S.fdOf) (horders : S.orders a = []) :
    Brokers S' (b.run (S.orders a)) ∧ ∀ k n, n ≠ statsName → n ≠ topicsName →
      (tells k S a).filterMap (newsIn n) = b.heardAll k n (S.orders a) := by
  rw [horders]
  refine ⟨h.same (by rw [hserver]) fun k n => by rw [hserver, hfds], fun k n _ _ => ?_⟩
  rw [tells_silent hstep (by rw [hserver])]
  rfl

/-- **Every step does what it asks of the broker**, and each connection is told what the broker says. -/
theorem brokers_step (h : Brokers S b) (hcons : S.Consistent) (hstep : S.step a = some S') :
    Brokers S' (b.run (S.orders a)) ∧ ∀ k n, n ≠ statsName → n ≠ topicsName →
      (tells k S a).filterMap (newsIn n) = b.heardAll k n (S.orders a) := by
  have hall := hstep
  cases a with
  | connect k =>
    simp only [step] at hstep
    split at hstep
    · next hk =>
      cases hstep
      exact h.quiet hall rfl (fdOf_setConn_same (by rw [fdOf, hk]; rfl)) rfl
    · cases hstep
  | accept k fd =>
    obtain ⟨x, hx, hstep⟩ := Option.bind_eq_some_iff.1 hstep
    obtain ⟨⟨hnone, -, henabled⟩, hstep⟩ := Option.ite_none_right_eq_some.1 hstep
    cases hstep
    refine ⟨h.accept hcons hx hnone henabled.1, fun j n _ _ => ?_⟩
    rw [tells_silent hall rfl]
    rfl
  | thread k a =>
    obtain ⟨x, hx, hstep⟩ := Option.bind_eq_some_iff.1 hstep
    obtain ⟨-, hstep⟩ := Option.ite_none_right_eq_some.1 hstep
    obtain ⟨proc, -, rfl⟩ := Option.map_eq_some_iff.1 hstep
    exact h.quiet hall rfl (fdOf_setConn_same (fdOf_of hx).symm) rfl
  | subscribe k n field =>
    obtain ⟨x, hx, hstep⟩ := Option.bind_eq_some_iff.1 hstep
    obtain ⟨-, hstep⟩ := Option.ite_none_right_eq_some.1 hstep
    obtain ⟨proc, -, rfl⟩ := Option.map_eq_some_iff.1 hstep
    exact h.quiet hall rfl (fdOf_setConn_same (fdOf_of hx).symm) rfl
  | publish k n t =>
    obtain ⟨x, hx, hstep⟩ := Option.bind_eq_some_iff.1 hstep
    obtain ⟨-, hstep⟩ := Option.ite_none_right_eq_some.1 hstep
    cases hstep
    exact h.quiet hall rfl (fdOf_setConn_same (fdOf_of hx).symm) rfl
  | clearServer k =>
    obtain ⟨x, hx, rfl⟩ := Option.map_eq_some_iff.1 hstep
    exact h.quiet hall rfl (fdOf_setConn_same (fdOf_of hx).symm) rfl
  | serve k tail now =>
    obtain ⟨x, hx, hstep⟩ := Option.bind_eq_some_iff.1 hstep
    split at hstep
    · next fd p up hfd hup =>
      split at hstep
      · next s hs =>
        obtain ⟨hsends, hstep⟩ := Option.ite_none_right_eq_some.1 hstep
        cases hstep
        have horders : S.orders (.serve k tail now) = asksOf k p := by
          rw [orders, upOf_of hx, hup]
          rfl
        obtain ⟨hbrokers, hheard⟩ := h.serve hcons hx hfd hup hs hsends
        rw [horders]
        refine ⟨hbrokers, fun j n hstats htopics => ?_⟩
        rw [tells, hall, Option.elim_some]
        exact hheard j n hstats htopics
      · cases hstep
    · cases hstep
  | receive k tail now who =>
    obtain ⟨x, hx, hstep⟩ := Option.bind_eq_some_iff.1 hstep
    split at hstep
    · next p down hdown =>
      obtain ⟨proc, -, rfl⟩ := Option.map_eq_some_iff.1 hstep
      exact h.quiet hall rfl (fdOf_setConn_same (fdOf_of hx).symm) rfl
    · cases hstep
  | close k =>
    obtain ⟨x, hx, hstep⟩ := Option.bind_eq_some_iff.1 hstep
    split at hstep
    · next hfd =>
      cases hstep
      have hleft : b.run (S.orders (.close k)) = b := by
        show Broker.mk _ _ = Broker.mk _ _
        congr 1
        funext n j
        by_cases hj : j = k
        · rw [hj, h.subs, fdOf_of hx, hfd]
          rfl
        · rw [decide_eq_true hj, Bool.and_true]
      rw [hleft]
      refine ⟨h.same rfl fun j n => ?_, fun j n _ _ => ?_⟩
      · rw [fdOf_setConn_same (x := { x with closed := true }) (fdOf_of hx).symm]
        rfl
      · rw [tells_silent hall rfl]
        rfl
    · next fd hfd =>
      have hmem : fd ∈ S.server.clients := (hcons.accepted fd).2 ⟨k, (fdOf_of hx).trans hfd⟩
      rw [step_close hcons.books hmem] at hstep
      cases hstep
      refine ⟨h.close hcons hx hfd, fun j n _ _ => ?_⟩
      rw [tells_silent hall rfl]
      rfl

theorem brokers_run {as : List (Action κ ι)} (h : Brokers S b) (hcons : S.Consistent)
    (hrun : Run.exec step S as = some S') {n : CString} (hs : n ≠ statsName) (ht : n ≠ topicsName) :
    Brokers S' (b.run (Run.trace step orders S as)) ∧ ∀ k,
      (Run.trace step (tells k) S as).filterMap (newsIn n) = b.heardAll k n (Run.trace step orders S as) := by
  induction as generalizing S b with
  | nil =>
    rw [Run.exec, Option.some_inj] at hrun
    exact ⟨hrun ▸ h, fun _ => rfl⟩
  | cons a as ih =>
    obtain ⟨T, hT, hrun⟩ := Run.exec_cons_eq_some.1 hrun
    obtain ⟨hbrokers, hone⟩ := brokers_step h hcons hT
    obtain ⟨hlast, hrest⟩ := ih hbrokers (consistent_step hcons hT) hrun
    rw [Run.trace_cons hT, Broker.run_append]
    refine ⟨hlast, fun k => ?_⟩
    rw [Run.trace_cons hT, List.filterMap_append, hone k n hs ht, hrest k, Broker.heardAll_append]

/-- **The system is a broker between its connections.** Through any run, however the steps interleave, what
each connection has been told of a topic is what a client of that broker expects of the orders handled. -/
theorem told_exact (listenfd : Nat) (others : FdSet) (now : Now) (as : List (Action κ ι)) (S : System κ ι)
    (hrun : Run.exec step (start listenfd others now) as = some S) (n : CString) (hs : n ≠ statsName)
    (ht : n ≠ topicsName) :
    S.server.broker.stored n =
        Broker.lastPosted n (initially n) (Run.trace step orders (start listenfd others now) as) ∧
      ∀ k, (Run.trace step (tells k) (start listenfd others now) as).filterMap (newsIn n) =
        Broker.expect k n (initially n) false (Run.trace step orders (start listenfd others now) as) := by
  obtain ⟨hbrokers, htold⟩ := brokers_run (brokers_start listenfd others now)
    (consistent_start listenfd others now) hrun hs ht
  refine ⟨?_, fun k => ?_⟩
  · rw [← hbrokers.stored n hs ht, Broker.stored_run]
    rfl
  · rw [htold k, Broker.heardAll_eq_expect]
    rfl

theorem told_exact_relay : ∃ S : System Bool Unit, Run.exec step (start 3 ∅ 0) relay = some S ∧
    (Run.trace step (tells false) (start 3 ∅ 0) relay).filterMap (newsIn (.ofString "a")) = [[.float 7]] := by
  obtain ⟨S, hS⟩ : ∃ S : System Bool Unit, Run.exec step (start 3 ∅ 0) relay = some S :=
    Option.isSome_iff_exists.1 (by decide +kernel)
  refine ⟨S, hS, ?_⟩
  rw [(told_exact 3 ∅ 0 relay S hS (.ofString "a") (by decide +kernel) (by decide +kernel)).2 false]
  decide +kernel

end System

end DiamondApparatus
