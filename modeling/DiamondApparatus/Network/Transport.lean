import DiamondApparatus.Network.Refine

/-!
# What is sent arrives

* `System.up_step`, `down_step` : a step of the system takes packets from the front of a connection's
  queues and puts new ones at their ends;
* `sentUp`, `servedUp`, `sentDown`, `handledDown` : the packets that a step of the network sends on a
  connection, and hands to `process` at its ends;
* `packets_in_order` : what was handled is what was sent first, and the rest is on its way;
* `network_agreement` : with no bytes on their way, a client's topics are the server's.
-/

namespace DiamondApparatus
open Lib Std

/-! ## The queues of the system -/

namespace System
variable {κ ι : Type}

def upOf (S : System κ ι) (k : κ) : List Bytes := (S.conns k).elim [] Conn.up

def downOf (S : System κ ι) (k : κ) : List Bytes := (S.conns k).elim [] Conn.down

section
variable {S : System κ ι} {k : κ} {x : Conn ι}

theorem upOf_of (hx : S.conns k = some x) : S.upOf k = x.up := by rw [upOf, hx]; rfl

theorem downOf_of (hx : S.conns k = some x) : S.downOf k = x.down := by rw [downOf, hx]; rfl

theorem framesTo_none (out : List (Nat × Bytes)) : framesTo none out = [] := by
  simp [framesTo]

theorem upOf_advance (S : System κ ι) (s : MyServer) (k : κ) : (S.advance s).upOf k = S.upOf k := by
  show ((S.conns k).map _).elim [] Conn.up = (S.conns k).elim [] Conn.up
  cases S.conns k <;> rfl

theorem downOf_advance (S : System κ ι) (s : MyServer) (k : κ) :
    (S.advance s).downOf k = S.downOf k ++ framesTo (S.fdOf k) (s.sent.drop S.server.sent.length) := by
  unfold downOf fdOf
  show ((S.conns k).map _).elim [] Conn.down = _
  cases S.conns k with
  | none => exact (framesTo_none _).symm
  | some x => rfl

theorem framesTo_nil (fd : Option Nat) : framesTo fd [] = [] := rfl

theorem advance_silent {s : MyServer} (hsent : s.sent = S.server.sent) :
    S.advance s = { S with server := s } := by
  have hconns : (S.advance s).conns = S.conns := by
    funext k
    show (S.conns k).map (fun x : Conn ι =>
      { x with down := x.down ++ framesTo x.fd (s.sent.drop S.server.sent.length) }) = S.conns k
    rw [hsent, List.drop_length]
    simp only [framesTo_nil, List.append_nil]
    exact Option.map_id'
  exact congrArg (fun c => ({ server := s, conns := c } : System κ ι)) hconns

end

variable [DecidableEq κ]

theorem upOf_setConn (S : System κ ι) (k j : κ) (x : Conn ι) :
    (S.setConn k (some x)).upOf j = if j = k then x.up else S.upOf j := by
  rw [upOf, conns_setConn]
  split <;> rfl

theorem downOf_setConn (S : System κ ι) (k j : κ) (x : Conn ι) :
    (S.setConn k (some x)).downOf j = if j = k then x.down else S.downOf j := by
  rw [downOf, conns_setConn]
  split <;> rfl

def asks (k : κ) (_ : System κ ι) : Action κ ι → List Bytes
  | .subscribe j n field => if k = j then [strMsg csSubscribe n field] else []
  | .publish j n t => if k = j then [t.toMessage csPublish n] else []
  | .clearServer j => if k = j then [noDataMsg csClearserver] else []
  | _ => []

def serves (k : κ) (S : System κ ι) : Action κ ι → List Bytes
  | .serve j _ _ => if k = j then (S.upOf k).take 1 else []
  | _ => []

def hears (k : κ) (S : System κ ι) : Action κ ι → List Bytes
  | .receive j _ _ _ => if k = j then (S.downOf k).take 1 else []
  | _ => []

section
variable {S S' : System κ ι} {a : Action κ ι}

/-- What one step does to the queues: those of one connection move, and then the server's messages go
out. -/
structure Moves (S : System κ ι) (a : Action κ ι) (j : κ) (x : Conn ι) (S' : System κ ι) : Prop where
  state : S' = (S.setConn j (some x)).advance S'.server
  up : S.upOf j ++ asks j S a = serves j S a ++ x.up
  down : S.downOf j = hears j S a ++ x.down
  fd : x.fd = S.fdOf j ∨ S'.server.sent = S.server.sent
  others : ∀ k, k ≠ j → asks k S a = [] ∧ serves k S a = [] ∧ hears k S a = []

theorem closeClient_sent (s : MyServer) (i : Nat) : (s.closeClient i).1.sent = s.sent := by
  unfold MyServer.closeClient
  split <;> next heq => rw [← congrArg (fun o => MyServer.sent (Prod.fst o)) heq]; rfl

theorem moves_silent {j : κ} {x : Conn ι} {s : MyServer} (hsent : s.sent = S.server.sent)
    (hup : S.upOf j ++ asks j S a = serves j S a ++ x.up) (hdown : S.downOf j = hears j S a ++ x.down)
    (hothers : ∀ k, k ≠ j → asks k S a = [] ∧ serves k S a = [] ∧ hears k S a = []) :
    Moves S a j x ({ S with server := s }.setConn j (some x)) :=
  ⟨(advance_silent (S := S.setConn j (some x)) hsent).symm, hup, hdown, Or.inr hsent, hothers⟩

variable [DecidableEq ι]

def tells (k : κ) (S : System κ ι) (a : Action κ ι) : List Bytes :=
  (S.step a).elim [] fun S' => framesTo (S.fdOf k) (S'.server.sent.drop S.server.sent.length)

theorem step_moves (hstep : S.step a = some S') : ∃ j x, Moves S a j x S' := by
  cases a with
  | connect j =>
    simp only [step] at hstep
    split at hstep
    · next hj =>
      cases hstep
      exact ⟨j, _, moves_silent (s := S.server) rfl (by simp [asks, serves, upOf, hj])
        (by simp [hears, downOf, hj]) fun k hk => ⟨rfl, rfl, rfl⟩⟩
    · cases hstep
  | accept j fd =>
    obtain ⟨x, hx, hstep⟩ := Option.bind_eq_some_iff.1 hstep
    obtain ⟨-, hstep⟩ := Option.ite_none_right_eq_some.1 hstep
    cases hstep
    exact ⟨j, _, moves_silent rfl (by simp [asks, serves, upOf_of hx]) (by simp [hears, downOf_of hx])
      fun k hk => ⟨rfl, rfl, rfl⟩⟩
  | thread j a =>
    obtain ⟨x, hx, hstep⟩ := Option.bind_eq_some_iff.1 hstep
    obtain ⟨-, hstep⟩ := Option.ite_none_right_eq_some.1 hstep
    obtain ⟨proc, -, rfl⟩ := Option.map_eq_some_iff.1 hstep
    exact ⟨j, _, moves_silent (s := S.server) rfl (by simp [asks, serves, upOf_of hx])
      (by simp [hears, downOf_of hx]) fun k hk => ⟨rfl, rfl, rfl⟩⟩
  | subscribe j n field =>
    obtain ⟨x, hx, hstep⟩ := Option.bind_eq_some_iff.1 hstep
    obtain ⟨-, hstep⟩ := Option.ite_none_right_eq_some.1 hstep
    obtain ⟨proc, -, rfl⟩ := Option.map_eq_some_iff.1 hstep
    exact ⟨j, _, moves_silent (s := S.server) rfl (by simp [asks, serves, upOf_of hx])
      (by simp [hears, downOf_of hx]) fun k hk => ⟨if_neg hk, rfl, rfl⟩⟩
  | publish j n t =>
    obtain ⟨x, hx, hstep⟩ := Option.bind_eq_some_iff.1 hstep
    obtain ⟨-, hstep⟩ := Option.ite_none_right_eq_some.1 hstep
    cases hstep
    exact ⟨j, _, moves_silent (s := S.server) rfl (by simp [asks, serves, upOf_of hx])
      (by simp [hears, downOf_of hx]) fun k hk => ⟨if_neg hk, rfl, rfl⟩⟩
  | clearServer j =>
    obtain ⟨x, hx, rfl⟩ := Option.map_eq_some_iff.1 hstep
    exact ⟨j, _, moves_silent (s := S.server) rfl (by simp [asks, serves, upOf_of hx])
      (by simp [hears, downOf_of hx]) fun k hk => ⟨if_neg hk, rfl, rfl⟩⟩
  | serve j tail now =>
    obtain ⟨x, hx, hstep⟩ := Option.bind_eq_some_iff.1 hstep
    split at hstep
    · next fd p up hfd hup =>
      split at hstep
      · next s hs =>
        obtain ⟨-, hstep⟩ := Option.ite_none_right_eq_some.1 hstep
        cases hstep
        exact ⟨j, { x with up := up }, rfl, by simp [asks, serves, upOf_of hx, hup],
          by simp [hears, downOf_of hx], Or.inl (fdOf_of hx).symm, fun k hk => ⟨rfl, if_neg hk, rfl⟩⟩
      · cases hstep
    · cases hstep
  | receive j tail now who =>
    obtain ⟨x, hx, hstep⟩ := Option.bind_eq_some_iff.1 hstep
    split at hstep
    · next p down hdown =>
      obtain ⟨proc, -, rfl⟩ := Option.map_eq_some_iff.1 hstep
      exact ⟨j, _, moves_silent (s := S.server) rfl (by simp [asks, serves, upOf_of hx])
        (by simp [hears, downOf_of hx, hdown]) fun k hk => ⟨rfl, rfl, if_neg hk⟩⟩
    · cases hstep
  | close j =>
    obtain ⟨x, hx, hstep⟩ := Option.bind_eq_some_iff.1 hstep
    split at hstep
    · cases hstep
      exact ⟨j, _, moves_silent (s := S.server) rfl (by simp [asks, serves, upOf_of hx])
        (by simp [hears, downOf_of hx]) fun k hk => ⟨rfl, rfl, rfl⟩⟩
    · next fd hfd =>
      split at hstep
      · next s hs =>
        cases hstep
        have hsent : s.sent = S.server.sent := by
          rw [← closeClient_sent S.server fd]
          exact congrArg (fun o => MyServer.sent (Prod.fst o)) hs.symm
        exact ⟨j, _, moves_silent hsent (by simp [asks, serves, upOf_of hx])
          (by simp [hears, downOf_of hx]) fun k hk => ⟨rfl, rfl, rfl⟩⟩
      · cases hstep

/-- **The way up**: new packets come in at the end, and leave at the front. -/
theorem up_step (hstep : S.step a = some S') (k : κ) : S.upOf k ++ asks k S a = serves k S a ++ S'.upOf k := by
  obtain ⟨j, x, h⟩ := step_moves hstep
  rw [h.state, upOf_advance, upOf_setConn]
  split
  · next hk => exact hk ▸ h.up
  · next hk => rw [(h.others k hk).1, (h.others k hk).2.1, List.append_nil, List.nil_append]

/-- **The way down.** -/
theorem down_step (hstep : S.step a = some S') (k : κ) :
    S.downOf k ++ tells k S a = hears k S a ++ S'.downOf k := by
  obtain ⟨j, x, h⟩ := step_moves hstep
  have htells : tells k S a = framesTo ((S.setConn j (some x)).fdOf k)
      (S'.server.sent.drop S.server.sent.length) := by
    rw [tells, hstep, Option.elim_some, fdOf_setConn]
    split
    · next hk =>
      rcases h.fd with hfd | hsent
      · rw [hk, Option.bind_some, hfd]
      · rw [hsent, List.drop_length, framesTo_nil, framesTo_nil]
    · rfl
  rw [htells, h.state, downOf_advance, downOf_setConn, ← List.append_assoc]
  split
  · next hk => rw [hk, h.down]; rfl
  · next hk => rw [(h.others k hk).2.2]; rfl

end

end System

/-- With nothing on its way in either direction, the client's copy of a topic is the server's. -/
theorem Linked.settled {ι : Type} {s : MyServer} {y : Conn ι} {asked : List CString}
    {news : List (CString × List Datum)} (h : Linked s y asked news) (hopen : y.closed = false)
    (hup : y.up = []) (hdown : y.down = []) {n : CString} {t : Ref} {u : Topic}
    (ht : y.proc.c.topics[n]? = some t) (hu : s.topics[n]? = some u) : (y.proc.c.heap t).d = u.d := by
  obtain ⟨ps, hps, rfl⟩ := h.up hopen
  obtain rfl : ps = [] := List.map_eq_nil_iff.1 (hps.symm.trans hup)
  obtain rfl : news = [] := List.map_eq_nil_iff.1 (h.down.symm.trans hdown)
  have hcopy : y.proc.c.copyOf n = some (y.proc.c.heap t).d := by rw [MyClient.copyOf, ht]; rfl
  have hstored : s.broker.stored n = some u.d := by
    show s.topics[n]?.map Topic.d = _
    rw [hu]
    rfl
  have hsome : (y.proc.c.copyOf n).isSome := by rw [hcopy]; rfl
  have hsame := h.agrees.settled rfl rfl hsome hstored
  exact Option.some_inj.1 (hcopy.symm.trans hsame)

/-! ## The packets of the network -/

def packetOf : Flow → List Bytes
  | .done ⟨_, _, .complete p⟩ => [p]
  | _ => []

namespace Network
variable {κ ι : Type}

section
variable {N : Network κ ι} {S : System κ ι}

theorem shadowOf_cases (whole last : Action κ ι) (flow : Flow) :
    (∃ p, packetOf flow = [p] ∧ shadowOf whole last flow = [whole]) ∨
      packetOf flow = [] ∧ (shadowOf whole last flow = [last] ∨ shadowOf whole last flow = []) := by
  cases flow with
  | next r s rv => exact Or.inr ⟨rfl, Or.inr rfl⟩
  | done c =>
    obtain ⟨r, s, result⟩ := c
    cases result with
    | returned rv =>
      cases rv with
      | true => exact Or.inr ⟨rfl, Or.inr rfl⟩
      | false => exact Or.inr ⟨rfl, Or.inl rfl⟩
    | complete p => exact Or.inl ⟨p, rfl, rfl⟩
    | thrown p => exact Or.inr ⟨rfl, Or.inr rfl⟩
    | blocked => exact Or.inr ⟨rfl, Or.inr rfl⟩

theorem Shows.sent (h : Shows N S) : S.server.sent = N.server.sent := by
  rw [h.server]
  rfl

theorem Shows.fdOf (h : Shows N S) (k : κ) : S.fdOf k = (N.links k).bind Link.fd := by
  cases hx : N.links k with
  | none => rw [System.fdOf, h.unlinked k hx]; rfl
  | some x =>
    obtain ⟨y, hy, hxy⟩ := h.linked k x hx
    rw [System.fdOf_of hy, hxy.fd]
    rfl

theorem Shows.upPacket (h : Shows N S) (hcons : S.Consistent) {k : κ} {x : Link ι}
    (hx : N.links k = some x) {fd : Nat} (hfd : x.fd = some fd) {b : Arrival} (hb : x.up.Offers b)
    {rv : Bool} {flow : Flow} (hflow : N.nextRead fd rv b = some flow) {p : Bytes}
    (hp : packetOf flow = [p]) : ∃ qs, S.upOf k = p :: qs := by
  obtain ⟨y, c, hy, hxy, -, hc⟩ := h.entry hcons hx hfd
  have hread := (hxy.up fd c hfd hc).readOnce hxy.payloads hb rv
  rw [nextRead, MyServer.clientAt_of_mem hc, Option.map_some, Option.some_inj] at hflow
  rw [hflow] at hread
  cases hread with
  | going => cases hp
  | ended => cases hp
  | complete ha hps hr =>
    obtain rfl := (List.cons.inj hp).1
    exact ⟨_, (System.upOf_of hy).trans hps⟩

theorem Shows.downPacket (h : Shows N S) (hcons : S.Consistent) {k : κ} {x : Link ι}
    (hx : N.links k = some x) {b : Arrival} (hb : x.down.Offers b) {p : Bytes}
    (hp : packetOf (x.nextRead b) = [p]) : ∃ qs, S.downOf k = p :: qs := by
  obtain ⟨y, hy, hxy⟩ := h.linked k x hx
  obtain ⟨asked, news, hlinked⟩ := hcons.linked k y hy
  have hread := hxy.down.readOnce hlinked.payloads hb x.rv
  rw [Link.nextRead] at hp
  generalize x.recv.readOnce (fun _ => false) { arrivals := [b] } x.rv = flow at hread hp
  cases hread with
  | going => cases hp
  | ended => cases hp
  | complete ha hps hr =>
    obtain rfl := (List.cons.inj hp).1
    exact ⟨_, (System.downOf_of hy).trans hps⟩

end

theorem shadow_short (N : Network κ ι) (a : Act κ ι) : N.shadow a = [] ∨ ∃ b, N.shadow a = [b] := by
  have hflow : ∀ (whole last : Action κ ι) (flow : Flow),
      shadowOf whole last flow = [] ∨ ∃ b, shadowOf whole last flow = [b] := by
    intro whole last flow
    rcases shadowOf_cases whole last flow with ⟨p, -, h⟩ | ⟨-, h | h⟩
    · exact Or.inr ⟨whole, h⟩
    · exact Or.inr ⟨last, h⟩
    · exact Or.inl h
  cases a with
  | hang _ => exact Or.inl rfl
  | select _ => exact Or.inl rfl
  | finish => exact Or.inl rfl
  | read k a tail now =>
    unfold shadow
    dsimp only
    split
    · cases N.nextRead _ _ a with
      | none => exact Or.inl rfl
      | some flow => exact hflow _ _ flow
    · exact Or.inl rfl
  | receive k a tail now who =>
    unfold shadow
    dsimp only
    cases N.links k with
    | none => exact Or.inl rfl
    | some x => exact hflow _ _ _
  | _ => exact Or.inr ⟨_, rfl⟩

variable [DecidableEq κ] [DecidableEq ι]

/-- The packets that the client of `k` sends. -/
def sentUp (k : κ) (_ : Network κ ι) : Act κ ι → List Bytes
  | .subscribe j n field => if k = j then [strMsg csSubscribe n field] else []
  | .publish j n t => if k = j then [t.toMessage csPublish n] else []
  | .clearServer j => if k = j then [noDataMsg csClearserver] else []
  | _ => []

/-- The packets from `k` that the server hands to `process`. -/
def servedUp (k : κ) (N : Network κ ι) : Act κ ι → List Bytes
  | .read j a _ _ =>
    match N.place with
    | .looping rv (fd :: _) => if k = j then (N.nextRead fd rv a).elim [] packetOf else []
    | _ => []
  | _ => []

/-- The packets that the server sends to `k`. -/
def sentDown (k : κ) (N : Network κ ι) (a : Act κ ι) : List Bytes :=
  (N.step a).elim [] fun N' =>
    System.framesTo ((N.links k).bind Link.fd) (N'.server.sent.drop N.server.sent.length)

/-- The packets that the client of `k` hands to `process`. -/
def handledDown (k : κ) (N : Network κ ι) : Act κ ι → List Bytes
  | .receive j a _ _ _ => if k = j then (N.links j).elim [] fun x => packetOf (x.nextRead a) else []
  | _ => []

section
variable {N N' : Network κ ι} {S S' : System κ ι} {a : Act κ ι}

theorem trace_one (f : System κ ι → Action κ ι → List Bytes) (S : System κ ι) (b : Action κ ι) :
    Run.trace System.step f S [b] = f S b := by
  unfold Run.trace
  cases System.step S b <;> simp [Run.trace]

/-- What the steps emit that a `read` stands for, if they emit the packet alone. -/
theorem trace_shadowOf {f : System κ ι → Action κ ι → List Bytes} {whole last : Action κ ι} {flow : Flow}
    {out : List Bytes} (hwhole : ∀ p, packetOf flow = [p] → f S whole = out) (hlast : f S last = [])
    (hnone : packetOf flow = [] → out = []) :
    Run.trace System.step f S (shadowOf whole last flow) = out := by
  rcases shadowOf_cases whole last flow with ⟨p, hp, h⟩ | ⟨hp, h | h⟩
  · rw [h, trace_one, hwhole p hp]
  · rw [h, trace_one, hlast, hnone hp]
  · rw [h, hnone hp]
    rfl

/-! What a step of the network sends and handles, its shadow does in the system. -/

theorem sentUp_eq (k : κ) (N : Network κ ι) (S : System κ ι) (a : Act κ ι) :
    Run.trace System.step (System.asks k) S (N.shadow a) = sentUp k N a := by
  cases a with
  | hang _ => rfl
  | select _ => rfl
  | finish => rfl
  | read j b tail now =>
    unfold shadow
    dsimp only
    split
    · cases N.nextRead _ _ b with
      | none => rfl
      | some flow => exact trace_shadowOf (fun _ _ => rfl) rfl fun _ => rfl
    · rfl
  | receive j b tail now who =>
    unfold shadow
    dsimp only
    cases N.links j with
    | none => rfl
    | some x => exact trace_shadowOf (fun _ _ => rfl) rfl fun _ => rfl
  | _ => exact trace_one _ _ _

theorem Shows.servedUp_eq (h : Shows N S) (hcons : S.Consistent) (hstep : N.step a = some N') (k : κ) :
    Run.trace System.step (System.serves k) S (N.shadow a) = servedUp k N a := by
  cases a with
  | hang _ => rfl
  | select _ => rfl
  | finish => rfl
  | read j b tail now =>
    obtain ⟨x, hx, hstep⟩ := Option.bind_eq_some_iff.1 hstep
    split at hstep
    · next rv fd rest hplace =>
      obtain ⟨⟨-, hfd, hb⟩, hstep⟩ := Option.ite_none_right_eq_some.1 hstep
      obtain ⟨flow, hflow, -⟩ := Option.bind_eq_some_iff.1 hstep
      simp only [shadow, servedUp, hplace, hflow, Option.elim_some]
      refine trace_shadowOf (fun p hp => ?_) rfl fun hp => by rw [hp, ite_self]
      obtain ⟨qs, hqs⟩ := h.upPacket hcons hx hfd hb hflow hp
      by_cases hk : k = j
      · subst hk
        simp [System.serves, hqs, hp]
      · simp [System.serves, hk]
    · cases hstep
  | receive j b tail now who =>
    obtain ⟨x, hx, -⟩ := Option.bind_eq_some_iff.1 hstep
    simp only [shadow, hx, Option.elim_some]
    exact trace_shadowOf (fun _ _ => rfl) rfl fun _ => rfl
  | _ => exact trace_one _ _ _

theorem Shows.handledDown_eq (h : Shows N S) (hcons : S.Consistent) (hstep : N.step a = some N') (k : κ) :
    Run.trace System.step (System.hears k) S (N.shadow a) = handledDown k N a := by
  cases a with
  | hang _ => rfl
  | select _ => rfl
  | finish => rfl
  | read j b tail now =>
    obtain ⟨x, hx, hstep⟩ := Option.bind_eq_some_iff.1 hstep
    split at hstep
    · next rv fd rest hplace =>
      obtain ⟨-, hstep⟩ := Option.ite_none_right_eq_some.1 hstep
      obtain ⟨flow, hflow, -⟩ := Option.bind_eq_some_iff.1 hstep
      simp only [shadow, hplace, hflow, Option.elim_some]
      exact trace_shadowOf (fun _ _ => rfl) rfl fun _ => rfl
    · cases hstep
  | receive j b tail now who =>
    obtain ⟨x, hx, hstep⟩ := Option.bind_eq_some_iff.1 hstep
    obtain ⟨⟨-, -, hb⟩, -⟩ := Option.ite_none_right_eq_some.1 hstep
    simp only [shadow, handledDown, hx, Option.elim_some]
    refine trace_shadowOf (fun p hp => ?_) rfl fun hp => by rw [hp, ite_self]
    obtain ⟨qs, hqs⟩ := h.downPacket hcons hx hb hp
    by_cases hk : k = j
    · subst hk
      simp [System.hears, hqs, hp]
    · simp [System.hears, hk]
  | _ => exact trace_one _ _ _

theorem Shows.sentDown_eq (h : Shows N S) (hstep : N.step a = some N')
    (hS : Run.exec System.step S (N.shadow a) = some S') (h' : Shows N' S') (k : κ) :
    Run.trace System.step (System.tells k) S (N.shadow a) = sentDown k N a := by
  rw [sentDown, hstep, Option.elim_some, ← h.fdOf, ← h.sent, ← h'.sent]
  rcases shadow_short N a with ha | ⟨b, ha⟩
  · rw [ha, Run.exec, Option.some_inj] at hS
    rw [ha, hS, List.drop_length]
    rfl
  · rw [ha] at hS ⊢
    obtain ⟨T, hT, hS⟩ := Run.exec_cons_eq_some.1 hS
    rw [Run.exec, Option.some_inj] at hS
    rw [trace_one, System.tells, hT, Option.elim_some, hS]

/-! ## First in, first out -/

/-- The packets `q` are on their way up, or down, in a state of the system that the network shows. -/
def UpQueue (k : κ) (N : Network κ ι) (q : List Bytes) : Prop :=
  ∃ S, S.Consistent ∧ Shows N S ∧ S.upOf k = q

def DownQueue (k : κ) (N : Network κ ι) (q : List Bytes) : Prop :=
  ∃ S, S.Consistent ∧ Shows N S ∧ S.downOf k = q

theorem upQueue_step {k : κ} {q : List Bytes} (h : UpQueue k N q) (hstep : N.step a = some N') :
    ∃ q', UpQueue k N' q' ∧ q ++ sentUp k N a = servedUp k N a ++ q' := by
  obtain ⟨S, hcons, hshows, rfl⟩ := h
  obtain ⟨S', hS', hshows'⟩ := shows_step hcons hshows hstep
  obtain ⟨q', rfl, hq⟩ := Run.trace_queue (Q := fun S q => System.upOf S k = q)
    (fun S b S' q hq hb => ⟨_, rfl, hq ▸ System.up_step hb k⟩) rfl hS'
  rw [sentUp_eq, hshows.servedUp_eq hcons hstep] at hq
  exact ⟨_, ⟨S', consistent_exec hcons hS', hshows', rfl⟩, hq⟩

theorem downQueue_step {k : κ} {q : List Bytes} (h : DownQueue k N q) (hstep : N.step a = some N') :
    ∃ q', DownQueue k N' q' ∧ q ++ sentDown k N a = handledDown k N a ++ q' := by
  obtain ⟨S, hcons, hshows, rfl⟩ := h
  obtain ⟨S', hS', hshows'⟩ := shows_step hcons hshows hstep
  obtain ⟨q', rfl, hq⟩ := Run.trace_queue (Q := fun S q => System.downOf S k = q)
    (fun S b S' q hq hb => ⟨_, rfl, hq ▸ System.down_step hb k⟩) rfl hS'
  rw [hshows.sentDown_eq hstep hS' hshows', hshows.handledDown_eq hcons hstep] at hq
  exact ⟨_, ⟨S', consistent_exec hcons hS', hshows', rfl⟩, hq⟩

end

/-- **Every packet is handled once, in the order in which they were sent, and whole.** On each way of a
connection, through any run: the packets handed to `process` are the first of those that were sent. The
bytes its receiver has (that of a connection the server has not accepted yet has none), and those still
to come, are the frames of the others as long as the way is open, and their beginning when it has
ended. -/
theorem packets_in_order (listenfd : Nat) (others : FdSet) (now : Now) (as : List (Act κ ι))
    (N : Network κ ι) (hrun : Run.exec step (start listenfd others now) as = some N) (k : κ) :
    (∃ q, Run.trace step (sentUp k) (start listenfd others now) as =
        Run.trace step (servedUp k) (start listenfd others now) as ++ q ∧
      ∀ x, N.links k = some x → (x.Pending → Remains [] x.up q) ∧
        ∀ fd, x.fd = some fd →
          ∃ c acc, N.server.clients[fd]? = some (some c) ∧ Holds c.r acc ∧ Remains acc x.up q) ∧
    ∃ q, Run.trace step (sentDown k) (start listenfd others now) as =
        Run.trace step (handledDown k) (start listenfd others now) as ++ q ∧
      ∀ x, N.links k = some x → ∃ acc, Holds x.recv acc ∧ Remains acc x.down q := by
  constructor
  · obtain ⟨q, ⟨S, hcons, h, rfl⟩, hq⟩ := Run.trace_queue (Q := UpQueue k)
      (fun N a N' q hQ hstep => upQueue_step hQ hstep)
      ⟨_, System.consistent_start listenfd others now, shows_start listenfd others now, rfl⟩ hrun
    refine ⟨S.upOf k, hq, fun x hx => ⟨fun hpending => ?_, fun fd hfd => ?_⟩⟩
    · obtain ⟨y, hy, hxy⟩ := h.linked k x hx
      obtain ⟨acc, hr, hrem⟩ := (hxy.pending hpending 0).remains
      obtain rfl := hr.eq_nil_of_fresh
      exact System.upOf_of hy ▸ hrem
    · obtain ⟨y, c, hy, hxy, -, hc⟩ := h.entry hcons hx hfd
      obtain ⟨acc, hr, hrem⟩ := (hxy.up fd c hfd hc).remains
      exact ⟨c, acc, hc, hr, System.upOf_of hy ▸ hrem⟩
  · obtain ⟨q, ⟨S, hcons, h, rfl⟩, hq⟩ := Run.trace_queue (Q := DownQueue k)
      (fun N a N' q hQ hstep => downQueue_step hQ hstep)
      ⟨_, System.consistent_start listenfd others now, shows_start listenfd others now, rfl⟩ hrun
    refine ⟨S.downOf k, hq, fun x hx => ?_⟩
    obtain ⟨y, hy, hxy⟩ := h.linked k x hx
    obtain ⟨acc, hr, hrem⟩ := hxy.down.remains
    exact ⟨acc, hr, System.downOf_of hy ▸ hrem⟩

/-- In the run `piecemeal` the server handles the packet of each client, and sends the value on to the one
that has asked for it. -/
theorem packets_in_order_piecemeal :
    ∃ (N : Network Bool Unit) (q : List Bytes), Run.exec step (start 3 ∅ 0) piecemeal = some N ∧
      Run.trace step (servedUp false) (start 3 ∅ 0) piecemeal =
        [strMsg csSubscribe (.ofString "a") .zero] ∧
      Run.trace step (sentDown false) (start 3 ∅ 0) piecemeal =
        Run.trace step (handledDown false) (start 3 ∅ 0) piecemeal ++ q := by
  have hrun : (Run.exec step (start 3 ∅ 0) piecemeal).isSome = true := by decide +kernel
  obtain ⟨N, hN⟩ := Option.isSome_iff_exists.1 hrun
  obtain ⟨q, hq, -⟩ := (packets_in_order 3 ∅ 0 piecemeal N hN false).2
  exact ⟨N, q, hN, by decide +kernel, hq⟩

/-! ## With nothing on its way -/

/-- **The clients agree with the server, down to the bytes.** On a connection that is open and has no
bytes on their way, neither up nor down, the client holds of every topic that it has, and that the server
stores, what the server stores; whatever the other connections and the server's loop are in the middle
of. -/
theorem network_agreement (listenfd : Nat) (others : FdSet) (now : Now) (as : List (Act κ ι))
    (N : Network κ ι) (hrun : Run.exec step (start listenfd others now) as = some N) (k : κ) (x : Link ι)
    (hx : N.links k = some x) (hopen : x.closed = false) (hup : x.up.bytes = [] ∧ x.up.ended = false)
    (hdown : x.down.bytes = [] ∧ x.down.ended = false) (n : CString) (t : Ref) (u : Topic)
    (ht : x.proc.c.topics[n]? = some t) (hu : N.server.topics[n]? = some u) :
    (x.proc.c.heap t).d = u.d := by
  obtain ⟨S, -, hcons, h⟩ := shows_reachable hrun
  obtain ⟨y, hy, hxy⟩ := h.linked k x hx
  obtain ⟨asked, news, hlinked⟩ := hcons.linked k y hy
  have hnothing : y.up = [] := by
    cases hfd : x.fd with
    | none => exact (hxy.pending ⟨hfd, hopen⟩ 0).eq_nil hxy.payloads hup.2 hup.1
    | some fd =>
      obtain ⟨y', c, hy', hxy', -, hc⟩ := h.entry hcons hx hfd
      exact (hxy.up fd c hfd hc).eq_nil hxy.payloads hup.2 hup.1
  rw [← hxy.proc] at ht ⊢
  refine hlinked.settled (hxy.closed.trans hopen) hnothing (hxy.down.eq_nil hlinked.payloads hdown.2 hdown.1)
    ht ?_
  rw [h.server]
  exact hu

theorem network_agreement_piecemeal :
    ∃ (N : Network Bool Unit) (x : Link Unit) (t : Ref), Run.exec step (start 3 ∅ 0) piecemeal = some N ∧
      N.links false = some x ∧ x.proc.c.topics[CString.ofString "a"]? = some t ∧
      (x.proc.c.heap t).d = [.float 7] := by
  have hrun : (Run.exec step (start 3 ∅ 0) piecemeal).any (fun N => (N.links false).any fun x =>
      !x.closed && decide (x.up.bytes = []) && !x.up.ended && decide (x.down.bytes = []) && !x.down.ended &&
        x.proc.c.topics.contains (.ofString "a") &&
        decide (N.server.topics[CString.ofString "a"]?.map Topic.d = some [.float 7])) = true := by
    decide +kernel
  obtain ⟨N, hN, hrun⟩ := (Option.any_eq_true _ _).1 hrun
  obtain ⟨x, hx, hrun⟩ := (Option.any_eq_true _ _).1 hrun
  simp only [Bool.and_eq_true, decide_eq_true_eq, Bool.not_eq_true', ExtTreeMap.contains_iff_mem,
    Option.map_eq_some_iff] at hrun
  obtain ⟨⟨⟨⟨⟨⟨hopen, hup⟩, hupopen⟩, hdown⟩, hdownopen⟩, hmem⟩, u, hu, hdata⟩ := hrun
  obtain ⟨t, ht⟩ := Option.isSome_iff_exists.1 (ExtTreeMap.mem_iff_isSome_getElem?.1 hmem)
  have hsame := network_agreement 3 ∅ 0 piecemeal N hN false x hx hopen ⟨hup, hupopen⟩ ⟨hdown, hdownopen⟩
    _ t u ht hu
  exact ⟨N, x, t, hN, hx, ht, hsame.trans hdata⟩

end Network

end DiamondApparatus
