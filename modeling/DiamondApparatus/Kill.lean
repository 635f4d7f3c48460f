import DiamondApparatus.Network.Progress
import DiamondApparatus.Server.Shutdown

/-!
# The server's end

`killServer()` sends `CS_KILLSERVER`. The server sets `serverKill`, goes on with its round, then tells
every client that it has accepted to stop, and closes its descriptors.

* `Service`, `Turn`, `Service.step` : the system, and whether `server()` has returned;
* `plain` : for everything but `serverKill`, `CS_KILLSERVER` is a packet of an unknown type, so that
  a `Service` stays consistent (`plain_step`);
* `Doomed` : what an accepted client has still to handle, `doomed_step`;
* `kill_reaches_all` : it gets what it was sent before, then `SC_KILLCLIENT`, and stops.
-/

namespace DiamondApparatus
open Lib Std MyServer

structure Service (κ ι : Type) where
  sys : System κ ι
  /-- Whether `server()` has returned. -/
  ended : Bool := false

inductive Turn (κ ι : Type)
  | act (a : Action κ ι)
  | killServer (k : κ)
  /-- The loop of `server()` finds `serverKill` set. -/
  | shutdown

def Action.ofServer {κ ι : Type} : Action κ ι → Bool
  | .connect _ | .accept _ _ | .serve _ _ _ | .close _ => true
  | _ => false

namespace Service
variable {κ ι : Type}

def start (listenfd : Nat) (others : FdSet) (now : Now) : Service κ ι where
  sys := .start listenfd others now

/-- `delete serv`: the server closes all connections. -/
def closeAll (S : System κ ι) : System κ ι :=
  { S with conns := fun k => (S.conns k).map fun x => { x with fd := none, closed := true } }

variable [DecidableEq κ] [DecidableEq ι]

def step (s : Service κ ι) : Turn κ ι → Option (Service κ ι)
  | .act a => if s.ended ∧ a.ofServer then none else (s.sys.step a).map fun S => { s with sys := S }
  | .killServer k => (s.sys.conns k).map fun x =>
    { s with sys := s.sys.request k x x.proc (noDataMsg csKillserver) }
  | .shutdown =>
    if s.ended = false ∧ s.sys.server.serverKill then
      some { sys := closeAll (s.sys.advance s.sys.server.shutdown), ended := true }
    else none

end Service

/-! ## `CS_KILLSERVER` as a packet of an unknown type -/

/-- A packet that asks for nothing, as long as `CS_KILLSERVER`. -/
def idlePacket : ClientPacket := .unknown 5 [] (by decide)

def plain (p : Bytes) : Bytes := if p = noDataMsg csKillserver then idlePacket.bytes else p

theorem plain_of_type {p msg : Bytes} {type : UInt32} (h : takeU32 p = some (type, msg))
    (hne : type ≠ csKillserver) : plain p = p := by
  refine if_neg ?_
  rintro rfl
  have hkill : takeU32 (noDataMsg csKillserver) = some (csKillserver, []) := by decide
  rw [hkill] at h
  cases h
  exact hne rfl

theorem receive_killserver {s : MyServer} (hb : Bookkeeping s) {fd : Nat} (hfd : fd ∈ s.clients)
    (tail : Bytes) (now : Now) :
    ∃ t, s.receive fd idlePacket.bytes tail now = (t, none) ∧
      s.receive fd (noDataMsg csKillserver) tail now = ({ t with serverKill := true }, none) := by
  obtain ⟨c, hc, rfl⟩ := hb.held fd hfd
  have hidle : takeU32 (idlePacket.bytes ++ tail) = some (5, tail) := takeU32_be32 5 tail
  have hkill : takeU32 (noDataMsg csKillserver ++ tail) = some (csKillserver, tail) :=
    takeU32_be32 csKillserver tail
  rw [receive_eq hc, receive_eq hc]
  unfold processFor process
  rw [hidle, hkill]
  have h1 : ¬ (5 : UInt32) = csPublish := by decide
  have h2 : ¬ (5 : UInt32) = csSubscribe := by decide
  have h3 : ¬ (5 : UInt32) = csKillserver := by decide
  have h4 : ¬ (5 : UInt32) = csClearserver := by decide
  have k1 : ¬ csKillserver = csPublish := by decide
  have k2 : ¬ csKillserver = csSubscribe := by decide
  simp only [h1, h2, h3, h4, k1, k2, if_false, if_true]
  exact ⟨_, rfl, rfl⟩

namespace System
variable {κ ι : Type}

def plainConn (x : Conn ι) : Conn ι := { x with up := x.up.map plain }

/-- The system with every `CS_KILLSERVER` on its way read so. -/
def plainly (S : System κ ι) : System κ ι := { S with conns := fun k => (S.conns k).map plainConn }

section
variable {S S' : System κ ι} {k : κ} {x : Conn ι}

theorem plainly_conns (hx : S.conns k = some x) : S.plainly.conns k = some (plainConn x) := by
  show (S.conns k).map plainConn = _
  rw [hx]
  rfl

theorem plainly_advance (S : System κ ι) (s : MyServer) : (S.advance s).plainly = S.plainly.advance s := by
  refine congrArg (fun c => ({ server := s, conns := c } : System κ ι)) (funext fun k => ?_)
  show ((S.conns k).map _).map plainConn = ((S.conns k).map plainConn).map _
  cases S.conns k <;> rfl

/-- `serverKill` plays no part. -/
theorem Consistent.flag (h : Consistent S) (b : Bool) :
    Consistent { S with server := { S.server with serverKill := b } } where
  books := ⟨h.books.active, h.books.held, h.books.twoWay, h.books.keyed, h.books.opened, h.books.listening⟩
  accepted := h.accepted
  apart := h.apart
  linked k x hx := by
    obtain ⟨asked, news, hlinked⟩ := h.linked k x hx
    have hstored : { S.server with serverKill := b }.broker.stored = S.server.broker.stored := rfl
    have hjoined : joinedAs { S.server with serverKill := b } x.fd = joinedAs S.server x.fd := rfl
    exact ⟨asked, news, hlinked.unseen hstored hlinked.shut hjoined⟩

variable [DecidableEq κ]

theorem plainly_setConn (S : System κ ι) (k : κ) (x : Conn ι) :
    (S.setConn k (some x)).plainly = S.plainly.setConn k (some (plainConn x)) := by
  refine congrArg (fun c => ({ server := S.server, conns := c } : System κ ι)) (funext fun j => ?_)
  show (Function.update S.conns k (some x) j).map plainConn =
    Function.update S.plainly.conns k (some (plainConn x)) j
  rw [Function.update_apply, Function.update_apply]
  split <;> rfl

theorem plainly_request (S : System κ ι) (k : κ) (x : Conn ι) (proc : Process ι) (p : Bytes) :
    (S.request k x proc p).plainly = S.plainly.request k (plainConn x) proc (plain p) := by
  rw [request, plainly_setConn, plainConn, List.map_append]
  rfl

variable [DecidableEq ι]

/-- **Any other packet is as it was.** -/
theorem plain_step {a : Action κ ι} (hstep : S.step a = some S')
    (hkill : ∀ k tail now x up, a = .serve k tail now → S.conns k = some x →
      x.up ≠ noDataMsg csKillserver :: up) : S.plainly.step a = some S'.plainly := by
  cases a with
  | connect k =>
    simp only [step] at hstep
    split at hstep
    · next hk =>
      cases hstep
      have hnone : S.plainly.conns k = none := by
        show (S.conns k).map plainConn = none
        rw [hk]
        rfl
      simp only [step, hnone]
      rw [plainly_setConn]
      rfl
    · cases hstep
  | accept k fd =>
    obtain ⟨x, hx, hstep⟩ := Option.bind_eq_some_iff.1 hstep
    obtain ⟨hif, hstep⟩ := Option.ite_none_right_eq_some.1 hstep
    cases hstep
    rw [step, plainly_conns hx, Option.bind_some, plainly_setConn]
    exact if_pos hif
  | thread k a =>
    obtain ⟨x, hx, hstep⟩ := Option.bind_eq_some_iff.1 hstep
    obtain ⟨hlocal, hstep⟩ := Option.ite_none_right_eq_some.1 hstep
    obtain ⟨proc, hproc, rfl⟩ := Option.map_eq_some_iff.1 hstep
    rw [step, plainly_conns hx, Option.bind_some, if_pos hlocal, plainly_setConn]
    exact Option.map_eq_some_iff.2 ⟨proc, hproc, rfl⟩
  | subscribe k n field =>
    obtain ⟨x, hx, hstep⟩ := Option.bind_eq_some_iff.1 hstep
    obtain ⟨hname, hstep⟩ := Option.ite_none_right_eq_some.1 hstep
    obtain ⟨proc, hproc, rfl⟩ := Option.map_eq_some_iff.1 hstep
    have htype : takeU32 (strMsg csSubscribe n field) = some (csSubscribe, _) := takeU32_be32 csSubscribe _
    rw [step, plainly_conns hx, Option.bind_some, if_pos hname, plainly_request,
      plain_of_type htype (by decide)]
    exact Option.map_eq_some_iff.2 ⟨proc, hproc, rfl⟩
  | publish k n t =>
    obtain ⟨x, hx, hstep⟩ := Option.bind_eq_some_iff.1 hstep
    obtain ⟨hif, hstep⟩ := Option.ite_none_right_eq_some.1 hstep
    cases hstep
    have htype := takeU32_message t.d csPublish n []
    rw [List.append_nil, ← toMessage_eq t csPublish hif.1] at htype
    rw [step, plainly_conns hx, Option.bind_some, plainly_request, plain_of_type htype (by decide)]
    exact if_pos hif
  | clearServer k =>
    obtain ⟨x, hx, rfl⟩ := Option.map_eq_some_iff.1 hstep
    rw [step, plainly_conns hx, Option.map_some, plainly_request]
    rfl
  | serve k tail now =>
    obtain ⟨⟨proc, fd?, closed, up?, down⟩, hx, hstep⟩ := Option.bind_eq_some_iff.1 hstep
    split at hstep
    · next fd p up hfd hup =>
      subst hfd hup
      split at hstep
      · next s hs =>
        obtain ⟨hsends, hstep⟩ := Option.ite_none_right_eq_some.1 hstep
        cases hstep
        have hp : plain p = p := if_neg fun he => hkill k tail now _ up rfl hx (congrArg (· :: up) he)
        have hs' : S.plainly.server.step (.packet fd p tail now) = (s, none) := hs
        simp only [step, plainly_conns hx, Option.bind_some, plainConn, List.map_cons, hp, hs']
        rw [plainly_advance, plainly_setConn]
        exact if_pos hsends
      · cases hstep
    · cases hstep
  | receive k tail now who =>
    obtain ⟨x, hx, hstep⟩ := Option.bind_eq_some_iff.1 hstep
    split at hstep
    · next p down hdown =>
      obtain ⟨proc, hproc, rfl⟩ := Option.map_eq_some_iff.1 hstep
      have hdown' : (plainConn x).down = p :: down := hdown
      simp only [step, plainly_conns hx, Option.bind_some, hdown']
      rw [plainly_setConn]
      exact Option.map_eq_some_iff.2 ⟨proc, hproc, rfl⟩
    · cases hstep
  | close k =>
    obtain ⟨⟨proc, fd?, closed, up, down⟩, hx, hstep⟩ := Option.bind_eq_some_iff.1 hstep
    split at hstep
    · next hfd =>
      subst hfd
      cases hstep
      simp only [step, plainly_conns hx, Option.bind_some, plainConn]
      rw [plainly_setConn]
      rfl
    · next fd hfd =>
      subst hfd
      split at hstep
      · next s hs =>
        cases hstep
        have hs' : S.plainly.server.step (.close fd) = (s, none) := hs
        simp only [step, plainly_conns hx, Option.bind_some, plainConn, hs']
        rw [plainly_setConn]
        rfl
      · cases hstep

theorem kill_step (h : S.plainly.Consistent) (hx : S.conns k = some x) {up : List Bytes}
    (hup : x.up = noDataMsg csKillserver :: up) {tail : Bytes} {now : Now}
    (hstep : S.step (.serve k tail now) = some S') : S'.plainly.Consistent := by
  obtain ⟨y, hy, hstep⟩ := Option.bind_eq_some_iff.1 hstep
  obtain rfl := Option.some_inj.1 (hx.symm.trans hy)
  split at hstep
  · next fd p up' hfd hup' =>
    obtain ⟨rfl, rfl⟩ := List.cons.inj (hup.symm.trans hup')
    split at hstep
    · next s hs =>
      obtain ⟨hsends, hstep⟩ := Option.ite_none_right_eq_some.1 hstep
      cases hstep
      have hmem : fd ∈ S.server.clients := (h.accepted fd).2 ⟨k, (fdOf_of (plainly_conns hx)).trans hfd⟩
      obtain ⟨t, ht, hkill⟩ := receive_killserver h.books hmem tail now
      obtain rfl : s = { t with serverKill := true } := congrArg Prod.fst (hs.symm.trans hkill)
      have hup'' : (plainConn x).up = idlePacket.bytes :: up.map plain := by
        show x.up.map plain = _
        rw [hup, List.map_cons]
        rfl
      have ht' : S.plainly.server.step (.packet fd idlePacket.bytes tail now) = (t, none) := ht
      have hserve := (h.serve (plainly_conns hx) hfd hup'' ht' hsends).flag true
      rw [plainly_advance, plainly_setConn]
      exact hserve
    · cases hstep
  · cases hstep

end

end System

/-! ## As long as the server is there -/

namespace Service
variable {κ ι : Type} {s s' : Service κ ι}

def Sane (s : Service κ ι) : Prop := s.ended = false → s.sys.plainly.Consistent

theorem sane_start (listenfd : Nat) (others : FdSet) (now : Now) :
    (start listenfd others now : Service κ ι).Sane :=
  fun _ => System.consistent_start listenfd others now

variable [DecidableEq κ] [DecidableEq ι]

theorem sane_step (h : s.Sane) {a : Turn κ ι} (hstep : s.step a = some s') : s'.Sane := by
  cases a with
  | act a =>
    simp only [step] at hstep
    split at hstep
    · cases hstep
    · obtain ⟨S, hS, rfl⟩ := Option.map_eq_some_iff.1 hstep
      intro hended
      by_cases hkill : ∃ k tail now x up, a = .serve k tail now ∧ s.sys.conns k = some x ∧
          x.up = noDataMsg csKillserver :: up
      · obtain ⟨k, tail, now, x, up, rfl, hx, hup⟩ := hkill
        exact System.kill_step (h hended) hx hup hS
      · refine System.consistent_step (h hended) (System.plain_step hS fun k tail now x up ha hx hup => ?_)
        exact hkill ⟨k, tail, now, x, up, ha, hx, hup⟩
  | killServer k =>
    obtain ⟨x, hx, rfl⟩ := Option.map_eq_some_iff.1 hstep
    intro hended
    show (s.sys.request k x x.proc (noDataMsg csKillserver)).plainly.Consistent
    rw [System.plainly_request]
    refine (h hended).client (System.plainly_conns hx) rfl fun asked news hold => ⟨asked, news, ?_⟩
    exact hold.request (p := idlePacket) rfl
  | shutdown =>
    obtain ⟨-, hstep⟩ := Option.ite_none_right_eq_some.1 hstep
    cases hstep
    exact fun hended => nomatch hended

theorem sane_reachable {listenfd : Nat} {others : FdSet} {now : Now} {as : List (Turn κ ι)}
    (hrun : Run.exec step (start listenfd others now) as = some s) : s.Sane :=
  Run.invariant (fun _ _ _ h hstep => sane_step h hstep) (sane_start listenfd others now) hrun

end Service

/-! ## After the kill -/

namespace Process
variable {ι : Type} [DecidableEq ι] {s s' : Process ι} {a : Label ι}

/-- No topic leaves the map. -/
theorem topics_grow (h : s.step a = some s') {n : CString} (hn : n ∈ s.c.topics) : n ∈ s'.c.topics := by
  cases step_moves h with
  | locked i m wait r _ hr =>
    rw [ends_c]
    cases hr <;> exact hn
  | woken i m wait t loop r _ _ hr =>
    rw [ends_c]
    cases hr <;> exact hn
  | subscribes m => exact Keys.mem_insert_iff.2 (Or.inr hn)
  | receives p now who c signal _ _ hc _ =>
    rw [(received_c s c signal who).1]
    cases hc <;> exact hn
  | _ => exact hn

theorem stopped_step (h : s.step a = some s') (hrun : s.c.running = false) : s'.c.running = false := by
  cases step_moves h with
  | locked i m wait r _ hr =>
    rw [ends_c]
    cases hr <;> exact hrun
  | woken i m wait t loop r _ _ hr =>
    rw [ends_c]
    cases hr <;> exact hrun
  | receives p now who c signal _ htrue _ _ =>
    rw [hrun] at htrue
    cases htrue
  | finish _ => rfl
  | _ => exact hrun

end Process

/-- What a client that the server has told to stop has still to handle. -/
inductive Doomed {ι : Type} (x : Conn ι) : Prop
  | told (news : List (CString × List Datum)) (hdown : x.down = news.map newsFrame ++ [noDataMsg scKillclient])
      (hnews : ∀ m ∈ news, Sendable m ∧ m.1 ∈ x.proc.c.topics)
  | stopped (hdown : x.down = []) (hrun : x.proc.c.running = false)

section
variable {ι : Type} {x : Conn ι}

theorem Doomed.client (h : Doomed x) {x' : Conn ι} (hdown : x'.down = x.down)
    (htopics : ∀ n ∈ x.proc.c.topics, n ∈ x'.proc.c.topics)
    (hrun : x.proc.c.running = false → x'.proc.c.running = false) : Doomed x' := by
  cases h with
  | told news hx hnews =>
    exact .told news (hdown.trans hx) fun m hm => ⟨(hnews m hm).1, htopics m.1 (hnews m hm).2⟩
  | stopped hx hfalse => exact .stopped (hdown.trans hx) (hrun hfalse)

variable [DecidableEq ι]

theorem takeU32_kill (tail : Bytes) : takeU32 (noDataMsg scKillclient ++ tail) = some (scKillclient, tail) :=
  takeU32_be32 scKillclient tail

theorem Doomed.receive (h : Doomed x) {p : Bytes} {down : List Bytes} (hdown : x.down = p :: down)
    {tail : Bytes} {now : Clock} {who : Option ι} {proc : Process ι}
    (hstep : x.proc.step (.packet (p ++ tail) now who) = some proc) :
    Doomed { x with proc := proc, down := down } := by
  cases h with
  | told news hx hnews =>
    cases news with
    | nil =>
      obtain ⟨rfl, rfl⟩ := List.cons.inj (hdown.symm.trans hx)
      refine .stopped rfl ?_
      cases Process.step_moves hstep with
      | receives p now who c signal _ _ hc _ =>
        show (x.proc.received c signal who).c.running = false
        rw [(Process.received_c x.proc c signal who).1]
        cases hc with
        | ignores _ hkill => exact absurd (takeU32_kill tail) (hkill tail)
        | kills msg _ => rfl
        | notifies msg htype =>
          rw [takeU32_kill] at htype
          cases htype
    | cons m news =>
      obtain ⟨rfl, rfl⟩ := List.cons.inj (hdown.symm.trans hx)
      refine .told news rfl fun m' hm' => ?_
      obtain ⟨hsend, hmem⟩ := hnews m' (List.mem_cons_of_mem m hm')
      exact ⟨hsend, Process.topics_grow hstep hmem⟩
  | stopped hx hrun =>
    rw [hdown] at hx
    cases hx

theorem Doomed.goesOn (h : Doomed x) {p : Bytes} {down : List Bytes} (hdown : x.down = p :: down)
    (hloop : x.proc.receiver = .looping) (hrun : x.proc.c.running = true) (tail : Bytes) (now : Clock) :
    ∃ who, (x.proc.step (.packet (p ++ tail) now who)).isSome := by
  cases h with
  | told news hx hnews =>
    cases news with
    | nil =>
      obtain ⟨rfl, rfl⟩ := List.cons.inj (hdown.symm.trans hx)
      have hne : ¬ scKillclient = scNotify := by decide
      have hc : x.proc.c.process (noDataMsg scKillclient ++ tail) now =
          ({ x.proc.c with running := false, waittopic := none }, x.proc.c.waittopic.isSome, none) := by
        unfold MyClient.process
        rw [takeU32_kill]
        cases hw : x.proc.c.waittopic <;> simp [hne, hw]
      exact Process.receives_isSome hloop hrun hc
    | cons m news =>
      obtain ⟨rfl, rfl⟩ := List.cons.inj (hdown.symm.trans hx)
      obtain ⟨hsend, hmem⟩ := hnews m List.mem_cons_self
      obtain ⟨c, signal, hc⟩ := process_news hmem hsend tail now
      exact Process.receives_isSome hloop hrun hc
  | stopped hx _ =>
    rw [hdown] at hx
    cases hx

end

namespace Service
variable {κ ι : Type} [DecidableEq κ] [DecidableEq ι] {s s' : Service κ ι}

def heard (k : κ) (s : Service κ ι) : Turn κ ι → List Bytes
  | .act a => System.hears k s.sys a
  | _ => []

theorem framesTo_everyone {m : ExtTreeMap Nat (Option ClientInServer) compare} {fd : Nat} (hfd : fd ∈ m)
    (p : Bytes) : System.framesTo (some fd) (m.keys.map (·, p)) = [p] := by
  have hone : m.keys.filter (fun j => decide (j = fd)) = [fd] := by
    rw [List.filter_eq, List.count_eq_one_of_mem (Keys.nodup_keys m) (ExtTreeMap.mem_keys.2 hfd)]
    rfl
  rw [System.framesTo, List.filter_map, List.map_map]
  have hsame : ((fun x : Nat × Bytes => decide (some x.1 = some fd)) ∘ fun j => (j, p)) =
      fun j => decide (j = fd) := by
    funext j
    simp
  rw [hsame, hone]
  rfl

/-- **Every client that the server has accepted is told.** -/
theorem doomed_shutdown (h : s.Sane) (hstep : s.step .shutdown = some s') {k : κ} {x : Conn ι}
    (hx : s.sys.conns k = some x) {fd : Nat} (hfd : x.fd = some fd) :
    s'.ended = true ∧ (∀ p ∈ x.down, ∃ msg, takeU32 p = some (scNotify, msg)) ∧
    ∃ y, s'.sys.conns k = some y ∧ y.down = x.down ++ [noDataMsg scKillclient] ∧ Doomed y := by
  obtain ⟨⟨hended, -⟩, hstep⟩ := Option.ite_none_right_eq_some.1 hstep
  cases hstep
  have hcons := h hended
  obtain ⟨asked, news, hlinked⟩ := hcons.linked k _ (System.plainly_conns hx)
  have hmem : fd ∈ s.sys.server.clients :=
    (hcons.accepted fd).2 ⟨k, (System.fdOf_of (System.plainly_conns hx)).trans hfd⟩
  have hdown : x.down = news.map newsFrame := hlinked.down
  have htold : System.framesTo x.fd (s.sys.server.shutdown.sent.drop s.sys.server.sent.length) =
      [noDataMsg scKillclient] := by
    rw [shutdown_sends, hfd, framesTo_everyone hmem]
  refine ⟨rfl, fun p hp => ?_, ?_⟩
  · rw [hdown] at hp
    obtain ⟨m, -, rfl⟩ := List.mem_map.1 hp
    have htype := takeU32_message m.2 scNotify m.1 []
    rw [List.append_nil] at htype
    exact ⟨_, htype⟩
  · refine ⟨{ x with fd := none, closed := true, down := x.down ++ [noDataMsg scKillclient] }, ?_, rfl, ?_⟩
    · rw [← htold]
      show ((s.sys.conns k).map _).map _ = _
      rw [hx]
      rfl
    · refine .told news (congrArg (· ++ _) hdown) fun m hm => ⟨hlinked.sendable m hm, ?_⟩
      exact MyClient.mem_topics.2 (hlinked.agrees.newsHeld m hm)

/-- **A step without the server** takes at most what the client handles. -/
theorem doomed_step (hended : s.ended = true) {k : κ} {x : Conn ι} (hx : s.sys.conns k = some x)
    (hd : Doomed x) {a : Turn κ ι} (hstep : s.step a = some s') :
    s'.ended = true ∧ ∃ y, s'.sys.conns k = some y ∧ Doomed y ∧ x.down = heard k s a ++ y.down := by
  -- another connection is at work
  have helse : ∀ {j : κ} {z : Conn ι} {S : System κ ι}, k ≠ j → S = s.sys.setConn j (some z) →
      S.conns k = some x := by
    rintro j z S hkj rfl
    rw [System.conns_setConn, if_neg hkj, hx]
  have hhere : ∀ {z : Conn ι}, (s.sys.setConn k (some z)).conns k = some z := by
    intro z
    rw [System.conns_setConn, if_pos rfl]
  cases a with
  | act a =>
    simp only [step] at hstep
    split at hstep
    · cases hstep
    · next hno =>
      have hclient : a.ofServer = false := by simpa [hended] using hno
      obtain ⟨S, hS, rfl⟩ := Option.map_eq_some_iff.1 hstep
      refine ⟨hended, ?_⟩
      cases a with
      | connect j => cases hclient
      | accept j fd => cases hclient
      | serve j tail now => cases hclient
      | close j => cases hclient
      | thread j a =>
        obtain ⟨z, hz, hS⟩ := Option.bind_eq_some_iff.1 hS
        obtain ⟨-, hS⟩ := Option.ite_none_right_eq_some.1 hS
        obtain ⟨proc, hproc, rfl⟩ := Option.map_eq_some_iff.1 hS
        by_cases hj : k = j
        · subst hj
          obtain rfl := Option.some_inj.1 (hx.symm.trans hz)
          exact ⟨_, hhere, hd.client rfl (fun n hn => Process.topics_grow hproc hn)
            (Process.stopped_step hproc), rfl⟩
        · exact ⟨x, helse hj rfl, hd, rfl⟩
      | subscribe j n field =>
        obtain ⟨z, hz, hS⟩ := Option.bind_eq_some_iff.1 hS
        obtain ⟨-, hS⟩ := Option.ite_none_right_eq_some.1 hS
        obtain ⟨proc, hproc, rfl⟩ := Option.map_eq_some_iff.1 hS
        by_cases hj : k = j
        · subst hj
          obtain rfl := Option.some_inj.1 (hx.symm.trans hz)
          exact ⟨_, hhere, hd.client rfl (fun n hn => Process.topics_grow hproc hn)
            (Process.stopped_step hproc), rfl⟩
        · exact ⟨x, helse hj rfl, hd, rfl⟩
      | publish j n t =>
        obtain ⟨z, hz, hS⟩ := Option.bind_eq_some_iff.1 hS
        obtain ⟨-, hS⟩ := Option.ite_none_right_eq_some.1 hS
        cases hS
        by_cases hj : k = j
        · subst hj
          obtain rfl := Option.some_inj.1 (hx.symm.trans hz)
          exact ⟨_, hhere, hd.client rfl (fun _ hn => hn) id, rfl⟩
        · exact ⟨x, helse hj rfl, hd, rfl⟩
      | clearServer j =>
        obtain ⟨z, hz, rfl⟩ := Option.map_eq_some_iff.1 hS
        by_cases hj : k = j
        · subst hj
          obtain rfl := Option.some_inj.1 (hx.symm.trans hz)
          exact ⟨_, hhere, hd.client rfl (fun _ hn => hn) id, rfl⟩
        · exact ⟨x, helse hj rfl, hd, rfl⟩
      | receive j tail now who =>
        obtain ⟨z, hz, hS⟩ := Option.bind_eq_some_iff.1 hS
        split at hS
        · next p down hdown =>
          obtain ⟨proc, hproc, rfl⟩ := Option.map_eq_some_iff.1 hS
          by_cases hj : k = j
          · subst hj
            obtain rfl := Option.some_inj.1 (hx.symm.trans hz)
            refine ⟨_, hhere, hd.receive hdown hproc, ?_⟩
            simp [heard, System.hears, System.downOf_of hx, hdown]
          · exact ⟨x, helse hj rfl, hd, by simp [heard, System.hears, hj]⟩
        · cases hS
  | killServer j =>
    obtain ⟨z, hz, rfl⟩ := Option.map_eq_some_iff.1 hstep
    refine ⟨hended, ?_⟩
    by_cases hj : k = j
    · subst hj
      obtain rfl := Option.some_inj.1 (hx.symm.trans hz)
      exact ⟨_, hhere, hd.client rfl (fun _ hn => hn) id, rfl⟩
    · exact ⟨x, helse hj rfl, hd, rfl⟩
  | shutdown =>
    obtain ⟨⟨hnot, -⟩, -⟩ := Option.ite_none_right_eq_some.1 hstep
    rw [hended] at hnot
    cases hnot

/-- The client of `k` has handled `h` of the packets `all`, and has the rest still to handle. -/
def Handled (k : κ) (all h : List Bytes) (s : Service κ ι) : Prop :=
  s.ended = true ∧ ∃ x, s.sys.conns k = some x ∧ Doomed x ∧ all = h ++ x.down

/-- **The kill reaches every client.** In every run up to the shutdown, and however the clients go on
after it: of a connection that the server has accepted, the client handles what was on its way, all of
it notifications, and then `SC_KILLCLIENT`, in this order and nothing else. As long as something is left
its receiver thread can go on, unless it has stopped; when nothing is left, it has stopped. -/
theorem kill_reaches_all (listenfd : Nat) (others : FdSet) (now : Now) (as : List (Turn κ ι))
    (s : Service κ ι) (hrun : Run.exec step (start listenfd others now) as = some s) (t : Service κ ι)
    (hend : s.step .shutdown = some t) (bs : List (Turn κ ι)) (u : Service κ ι)
    (hrest : Run.exec step t bs = some u) (k : κ) (x : Conn ι) (hx : s.sys.conns k = some x)
    (hfd : x.fd ≠ none) :
    (∀ p ∈ x.down, ∃ msg, takeU32 p = some (scNotify, msg)) ∧
    ∃ y, u.sys.conns k = some y ∧
      x.down ++ [noDataMsg scKillclient] = Run.trace step (heard k) t bs ++ y.down ∧
      (y.down = [] → y.proc.c.running = false) ∧
      (y.down ≠ [] → y.proc.receiver = .looping → y.proc.c.running = true → ∀ tail time,
        ∃ who, (u.step (.act (.receive k tail time who))).isSome) := by
  obtain ⟨fd, hfd⟩ := Option.ne_none_iff_exists'.1 hfd
  obtain ⟨hended, hnotes, z, hz, hdown, hd⟩ := doomed_shutdown (sane_reachable hrun) hend hx hfd
  refine ⟨hnotes, ?_⟩
  have hstep : ∀ (h : List Bytes) (s : Service κ ι) (a : Turn κ ι) (s' : Service κ ι), Handled k z.down h s →
      s.step a = some s' → Handled k z.down (h ++ heard k s a) s' := by
    rintro h s a s' ⟨hended, x, hx, hd, hall⟩ hstep
    obtain ⟨hended', y, hy, hd', hdown⟩ := doomed_step hended hx hd hstep
    exact ⟨hended', y, hy, hd', by rw [hall, hdown, List.append_assoc]⟩
  obtain ⟨-, y, hy, hdoom, hall⟩ := Run.invariant_trace hstep (h := []) ⟨hended, z, hz, hd, rfl⟩ hrest
  refine ⟨y, hy, hdown ▸ hall, fun hnil => ?_, fun hne hloop hrunning tail time => ?_⟩
  · cases hdoom with
    | told news hy' _ =>
      rw [hnil] at hy'
      exact absurd hy'.symm (by simp)
    | stopped _ hfalse => exact hfalse
  · obtain ⟨p, down, hcons⟩ := List.exists_cons_of_ne_nil hne
    obtain ⟨who, hwho⟩ := hdoom.goesOn hcons hloop hrunning tail time
    refine ⟨who, ?_⟩
    simpa [step, System.step, hy, hcons, Action.ofServer] using hwho

/-- One client has asked for 'a'; the other publishes it, and asks the server to end. -/
def farewell : List (Turn Bool Unit) :=
  System.relay.dropLast.map .act ++ [.killServer true, .act (.serve true [] 0)]

/-- The first client gets the value, and then the kill. -/
theorem kill_reaches_all_farewell :
    ∃ (s t u : Service Bool Unit) (y : Conn Unit), Run.exec step (start 3 ∅ 0) farewell = some s ∧
      s.step .shutdown = some t ∧
      Run.exec step t [.act (.receive false [] 0 none), .act (.receive false [] 0 none)] = some u ∧
      u.sys.conns false = some y ∧ y.proc.c.running = false := by
  have hrun : (Run.exec step (start 3 ∅ 0) farewell).any (fun s : Service Bool Unit =>
      (s.sys.conns false).any (fun x => decide (x.fd ≠ none)) && (s.step .shutdown).any fun t =>
        (Run.exec step t [.act (.receive false [] 0 none), .act (.receive false [] 0 none)]).any fun u =>
          (u.sys.conns false).any fun y => decide (y.down = [])) = true := by
    decide +kernel
  obtain ⟨s, hs, hrun⟩ := (Option.any_eq_true _ _).1 hrun
  obtain ⟨hfd, hrun⟩ := Bool.and_eq_true_iff.1 hrun
  obtain ⟨x, hx, hfd⟩ := (Option.any_eq_true _ _).1 hfd
  obtain ⟨t, ht, hrun⟩ := (Option.any_eq_true _ _).1 hrun
  obtain ⟨u, hu, hrun⟩ := (Option.any_eq_true _ _).1 hrun
  obtain ⟨y, hy, hdown⟩ := (Option.any_eq_true _ _).1 hrun
  obtain ⟨-, y', hy', -, hstopped, -⟩ :=
    kill_reaches_all 3 ∅ 0 farewell s hs t ht _ u hu false x hx (of_decide_eq_true hfd)
  obtain rfl := Option.some_inj.1 (hy.symm.trans hy')
  exact ⟨s, t, u, y, hs, ht, hu, hy, hstopped (of_decide_eq_true hdown)⟩

end Service

end DiamondApparatus
