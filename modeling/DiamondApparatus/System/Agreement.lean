import DiamondApparatus.Client.Copies
import DiamondApparatus.Lib.Mirror
import DiamondApparatus.Server.Delivery
import DiamondApparatus.System

/-!
# The clients agree with the server

Each connection is a mirror of the server as a broker: the copies are what its client holds, what it has
asked for are the subscriptions on their way up, and the news are the notifications on their way down.

* `Carries up asked` : the packets on their way up, and the topics they ask for;
* `Linked s x asked news` : the connection `x` agrees with the server `s`, with `asked` and `news` under
  way. `Linked.subscribe`, `Linked.receive`, `Linked.hear` : the client asks, the client learns, the
  server handles a packet;
* `Consistent` : all connections are linked, and the server has the descriptors of those it accepted;
* `consistent_step`, `agreement_reachable` : every step keeps it, so it holds of every run.
-/

namespace DiamondApparatus
open Lib Std

def ClientPacket.wants : ClientPacket → Option CString
  | .subscribe n _ _ => some n
  | _ => none

namespace ClientPacket

/-- A packet makes nobody leave, and only its sender join. -/
theorem leave_not_mem_ops (p : ClientPacket) (fd k : Nat) : .leave k ∉ p.ops fd := by
  cases p <;> simp [ops]

theorem join_mem_ops {p : ClientPacket} {fd k : Nat} {n : CString} :
    .join k n ∈ p.ops fd ↔ k = fd ∧ p.wants = some n := by
  cases p with
  | publish m d _ _ => simp [ops, wants]
  | subscribe m field _ =>
    simp only [ops, wants, List.mem_singleton, Broker.Op.join.injEq, Option.some.injEq]
    rw [eq_comm (a := n)]
  | clearserver => simp [ops, wants]
  | unknown _ _ _ => simp [ops, wants]

end ClientPacket

open MyServer

/-- The packets of a connection ask for the topics `asked`, in order. -/
def Carries (up : List Bytes) (asked : List CString) : Prop :=
  ∃ ps : List ClientPacket, up = ps.map ClientPacket.bytes ∧ asked = ps.filterMap ClientPacket.wants

theorem carries_nil : Carries [] [] := ⟨[], rfl, rfl⟩

theorem Carries.request {up : List Bytes} {asked : List CString} (h : Carries up asked)
    {p : ClientPacket} (hp : p.wants = none) : Carries (up ++ [p.bytes]) asked := by
  obtain ⟨ps, rfl, rfl⟩ := h
  exact ⟨ps ++ [p], by simp, by simp [hp]⟩

theorem Carries.subscribe {up : List Bytes} {asked : List CString} (h : Carries up asked) {n : CString}
    (field : MsgField) (hname : n.length ≤ 128) :
    Carries (up ++ [strMsg csSubscribe n field]) (asked ++ [n]) := by
  obtain ⟨ps, rfl, rfl⟩ := h
  exact ⟨ps ++ [.subscribe n field hname], by simp [ClientPacket.bytes], by simp [ClientPacket.wants]⟩

/-- The oldest packet and the rest. -/
theorem Carries.oldest {p : Bytes} {up : List Bytes} {asked : List CString} (h : Carries (p :: up) asked) :
    ∃ (q : ClientPacket) (rest : List CString), q.bytes = p ∧ Carries up rest ∧
      ∀ n, n ∈ asked ↔ n ∈ rest ∨ q.wants = some n := by
  obtain ⟨ps, hup, rfl⟩ := h
  obtain ⟨q, qs, rfl, rfl, rfl⟩ := List.map_eq_cons_iff.1 hup.symm
  refine ⟨q, _, rfl, ⟨qs, rfl, rfl⟩, fun n => ?_⟩
  simp [List.mem_filterMap, or_and_right, exists_or, or_comm]

def newsFrame (m : CString × List Datum) : Bytes := message m.2 scNotify m.1

/-- A notification that fits into a packet. -/
def Sendable (m : CString × List Datum) : Prop := m.1.length ≤ 128 ∧ IntSized m.2 m.1

/-- Whether the server has the connection `fd` among the subscribers of `n`. -/
def joinedAs (s : MyServer) (fd : Option Nat) (n : CString) : Bool :=
  match fd with
  | some fd => s.broker.subs n fd
  | none => false

/-- The client of a connection agrees with the server. Of a connection that has ended, and where the
server will say no more, everything the client has counts as asked for. -/
structure Linked {ι : Type} (s : MyServer) (x : Conn ι) (asked : List CString)
    (news : List (CString × List Datum)) : Prop where
  up : x.closed = false → Carries x.up asked
  shut : x.closed = true → x.fd = none
  down : x.down = news.map newsFrame
  sendable : ∀ m ∈ news, Sendable m
  sound : x.proc.Sound
  agrees : Mirror.Agrees s.broker.stored (joinedAs s x.fd) ⟨x.proc.c.copyOf, asked, news⟩

section
variable {ι : Type} {s s' : MyServer} {x : Conn ι} {asked : List CString}
  {news : List (CString × List Datum)}

/-! ## The client's side -/

theorem linked_start (s : MyServer) : Linked s ({ proc := Process.start } : Conn ι) [] [] where
  up _ := carries_nil
  shut h := nomatch h
  down := rfl
  sendable _ hm := absurd hm List.not_mem_nil
  sound := Process.sound_start
  agrees := by
    have hempty : (Process.start : Process ι).c.copyOf = fun _ => none := by
      funext n
      simp [Process.start, MyClient.copyOf]
    rw [hempty]
    exact Mirror.agrees_nothing s.broker.stored

theorem Linked.thread (h : Linked s x asked news) {proc : Process ι} (hs : proc.Sound)
    (hc : proc.c.copyOf = x.proc.c.copyOf) : Linked s { x with proc := proc } asked news := by
  refine ⟨h.up, h.shut, h.down, h.sendable, hs, ?_⟩
  rw [hc]
  exact h.agrees

theorem Linked.request (h : Linked s x asked news) {p : ClientPacket} (hp : p.wants = none) :
    Linked s { x with up := x.up ++ [p.bytes] } asked news :=
  ⟨fun hopen => (h.up hopen).request hp, h.shut, h.down, h.sendable, h.sound, h.agrees⟩

theorem Linked.subscribe (h : Linked s x asked news) {proc : Process ι} (hs : proc.Sound) {n : CString}
    (hc : proc.c = x.proc.c.subscribe n) (field : MsgField) (hname : n.length ≤ 128) :
    Linked s { x with proc := proc, up := x.up ++ [strMsg csSubscribe n field] } (asked ++ [n]) news := by
  refine ⟨fun hopen => (h.up hopen).subscribe field hname, h.shut, h.down, h.sendable, hs, ?_⟩
  rw [hc, MyClient.subscribe_copyOf h.sound.allocated]
  exact h.agrees.ask n []

theorem Linked.receive [DecidableEq ι] {m : CString × List Datum} (h : Linked s x asked (m :: news))
    {proc : Process ι} {tail : Bytes} {now : Clock} {who : Option ι}
    (hstep : x.proc.step (.packet (newsFrame m ++ tail) now who) = some proc) :
    Linked s { x with proc := proc, down := news.map newsFrame } asked news := by
  obtain ⟨hname, hsize⟩ := h.sendable m List.mem_cons_self
  refine ⟨h.up, h.shut, rfl, fun m' hm' => h.sendable m' (List.mem_cons_of_mem m hm'),
    Process.sound_step h.sound hstep, ?_⟩
  cases Process.step_moves hstep with
  | receives p now who c signal _ _ hc _ =>
    have hmem : m.1 ∈ x.proc.c.topics := MyClient.mem_topics.2 (h.agrees.newsHeld m List.mem_cons_self)
    rw [(Process.received_c x.proc c signal who).1,
      MyClient.message_copyOf hc h.sound.separate hname hsize hmem]
    exact h.agrees.learn rfl

/-! ## The server's side -/

def newsTo (fd : Option Nat) (notes : List Note) : List (CString × List Datum) :=
  (notes.filter fun m => decide (some m.fd = fd)).map fun m => (m.name, m.data)

theorem framesTo_frames (fd : Option Nat) (notes : List Note) :
    System.framesTo fd (notes.map Note.frame) = (newsTo fd notes).map newsFrame := by
  rw [System.framesTo, newsTo, List.filter_map, List.map_map, List.map_map]
  rfl

theorem newsOf_newsTo (fd : Nat) (n : CString) (notes : List Note) :
    Mirror.newsOf n (newsTo (some fd) notes) = told fd n notes := by
  rw [Mirror.newsOf, newsTo, told, List.filter_map, List.map_map, List.filter_filter]
  congr 1
  refine List.filter_congr fun m _ => ?_
  simp [Bool.and_comm]

/-- **The server handles a packet**, of this connection or of another. -/
theorem Linked.hear (h : Linked s x asked news) {ops : List (Broker.Op Nat CString (List Datum))}
    {notes : List Note} (hbroker : s'.broker = s.broker.run ops)
    (htold : ∀ fd n, told fd n notes = s.broker.heardAll fd n ops)
    (hnotes : ∀ m ∈ notes, Sendable (m.name, m.data)) (hleave : ∀ fd, .leave fd ∉ ops)
    {up : List Bytes} {rest : List CString} (hup : x.closed = false → Carries up rest)
    (hasked : ∀ n, n ∈ asked ↔ n ∈ rest ∨ ∃ fd, x.fd = some fd ∧ .join fd n ∈ ops) :
    Linked s' { x with up := up, down := x.down ++ System.framesTo x.fd (notes.map Note.frame) }
      rest (news ++ newsTo x.fd notes) := by
  refine ⟨hup, h.shut, ?_, fun m hm => ?_, h.sound, ?_⟩
  · rw [List.map_append, ← h.down, framesTo_frames]
  · rcases List.mem_append.1 hm with hm | hm
    · exact h.sendable m hm
    · obtain ⟨m', hm', rfl⟩ := List.mem_map.1 hm
      exact hnotes m' (List.mem_of_mem_filter hm')
  · have hagrees := h.agrees
    show Mirror.Agrees _ (joinedAs s' x.fd) ⟨x.proc.c.copyOf, rest, _⟩
    cases hfd : x.fd with
    | none =>
      rw [hfd] at hagrees hasked
      have hnone : newsTo none notes = [] := by simp [newsTo]
      rw [hnone, List.append_nil]
      exact hagrees.absent s'.broker.stored fun n => by simpa using hasked n
    | some fd =>
      rw [hfd] at hagrees hasked
      refine hagrees.run (c := fd) (hleave fd) (fun n => ?_) (fun n => ?_) (fun n => ?_) (fun n => ?_)
      · rw [hbroker, Broker.stored_run]
      · show s'.broker.subs n fd = true ↔ s.broker.subs n fd = true ∨ _
        rw [hbroker, Broker.subs_run s.broker fd n (hleave fd)]
      · simpa using hasked n
      · rw [newsOf_newsTo, htold, Broker.heardAll_eq_expect]
        rfl

/-- A change of the server that neither the topics nor this connection's subscriptions see. -/
theorem Linked.unseen (h : Linked s x asked news) (hstored : s'.broker.stored = s.broker.stored)
    {fd : Option Nat} (hshut : x.closed = true → fd = none)
    (hjoined : joinedAs s' fd = joinedAs s x.fd) : Linked s' { x with fd := fd } asked news := by
  refine ⟨h.up, hshut, h.down, h.sendable, h.sound, ?_⟩
  rw [hstored, hjoined]
  exact h.agrees

theorem Linked.close (h : Linked s x asked news) (s' : MyServer) :
    Linked s' { x with fd := none, closed := true } x.proc.c.topics.keys news where
  up hopen := nomatch hopen
  shut _ := rfl
  down := h.down
  sendable := h.sendable
  sound := h.sound
  agrees := by
    have hkeys : ∀ n, n ∈ x.proc.c.topics.keys ↔ (x.proc.c.copyOf n).isSome := by
      intro n
      rw [ExtTreeMap.mem_keys, MyClient.mem_topics]
    exact ⟨h.agrees.newsHeld, fun n hn => (hkeys n).1 hn, fun _ hn => (nomatch hn),
      fun n hn hnot => absurd ((hkeys n).2 hn) hnot, fun _ hn => (nomatch hn)⟩

end

/-! ## The system -/

namespace System
variable {κ ι : Type}

def fdOf (S : System κ ι) (k : κ) : Option Nat := (S.conns k).bind Conn.fd

theorem fdOf_of {S : System κ ι} {k : κ} {x : Conn ι} (hx : S.conns k = some x) : S.fdOf k = x.fd := by
  rw [fdOf, hx]
  rfl

theorem fdOf_advance (S : System κ ι) (s : MyServer) : (S.advance s).fdOf = S.fdOf := by
  funext k
  show ((S.conns k).map _).bind Conn.fd = (S.conns k).bind Conn.fd
  cases S.conns k <;> rfl

structure Consistent (S : System κ ι) : Prop where
  books : Bookkeeping S.server
  accepted : ∀ fd, fd ∈ S.server.clients ↔ ∃ k, S.fdOf k = some fd
  apart : ∀ k j fd, S.fdOf k = some fd → S.fdOf j = some fd → k = j
  linked : ∀ k x, S.conns k = some x → ∃ asked news, Linked S.server x asked news

theorem consistent_start (listenfd : Nat) (others : FdSet) (now : Now) :
    Consistent (start listenfd others now : System κ ι) where
  books := bookkeeping_new listenfd others now
  accepted fd := by
    refine iff_of_false (fun hfd => ?_) (fun ⟨k, hk⟩ => nomatch hk)
    exact absurd (((serves_new listenfd others now).clients fd).1 hfd) (Finset.notMem_empty fd)
  apart _ _ _ hk := nomatch hk
  linked _ _ hx := nomatch hx

variable [DecidableEq κ]

theorem conns_setConn (S : System κ ι) (k j : κ) (x : Option (Conn ι)) :
    (S.setConn k x).conns j = if j = k then x else S.conns j :=
  Function.update_apply S.conns k x j

theorem fdOf_setConn (S : System κ ι) (k j : κ) (x : Option (Conn ι)) :
    (S.setConn k x).fdOf j = if j = k then x.bind Conn.fd else S.fdOf j := by
  rw [fdOf, conns_setConn]
  split <;> rfl

variable {S S' : System κ ι}

/-- A change at one connection that leaves it its descriptor. -/
theorem fdOf_setConn_same {k : κ} {x : Conn ι} (hfd : x.fd = S.fdOf k) :
    (S.setConn k (some x)).fdOf = S.fdOf := by
  funext j
  rw [fdOf_setConn]
  split
  · next he => exact he ▸ hfd
  · rfl

theorem Consistent.setConn (h : Consistent S) {k : κ} {x : Conn ι} (hfd : x.fd = S.fdOf k)
    (hlinked : ∃ asked news, Linked S.server x asked news) : Consistent (S.setConn k (some x)) := by
  refine ⟨h.books, fun fd => ?_, fun i j fd => ?_, fun j y hy => ?_⟩
  · rw [fdOf_setConn_same hfd]
    exact h.accepted fd
  · rw [fdOf_setConn_same hfd]
    exact h.apart i j fd
  · rw [conns_setConn] at hy
    split at hy
    · exact Option.some_inj.1 hy ▸ hlinked
    · exact h.linked j y hy

theorem Consistent.client (h : Consistent S) {k : κ} {x x' : Conn ι} (hx : S.conns k = some x)
    (hfd : x'.fd = x.fd) (hlinked : ∀ asked news, Linked S.server x asked news →
      ∃ asked' news', Linked S.server x' asked' news') : Consistent (S.setConn k (some x')) := by
  obtain ⟨asked, news, hold⟩ := h.linked k x hx
  exact h.setConn (hfd.trans (fdOf_of hx).symm) (hlinked asked news hold)

/-! ## Connections come and go -/

theorem Consistent.accept (h : Consistent S) {k : κ} {x : Conn ι} (hx : S.conns k = some x)
    (hnone : x.fd = none) (hopen : x.closed = false) {fd : Nat} (hfd : fd ∉ S.server.openFds) :
    Consistent ({ S with server := S.server.acceptClient fd }.setConn k (some { x with fd := some fd })) := by
  have hfresh := (h.books.fresh hfd).1
  have hunused : ∀ j, S.fdOf j ≠ some fd := fun j hj => hfresh ((h.accepted fd).2 ⟨j, hj⟩)
  have hfds : ∀ j, (({ S with server := S.server.acceptClient fd } : System κ ι).setConn k
      (some { x with fd := some fd })).fdOf j = if j = k then some fd else S.fdOf j :=
    fun j => fdOf_setConn _ k j _
  refine ⟨h.books.acceptClient hfd, fun fd' => ?_, fun i j fd' => ?_, fun j y hy => ?_⟩
  · show fd' ∈ S.server.clients.insert fd _ ↔ _
    rw [ExtTreeMap.mem_insert, LawfulEqCmp.compare_eq_iff_eq, h.accepted]
    constructor
    · intro hor
      rcases hor with rfl | ⟨j, hj⟩
      · exact ⟨k, by rw [hfds, if_pos rfl]⟩
      · have hjk : j ≠ k := by
          rintro rfl
          rw [fdOf_of hx, hnone] at hj
          cases hj
        exact ⟨j, by rw [hfds, if_neg hjk]; exact hj⟩
    · intro hex
      obtain ⟨j, hj⟩ := hex
      rw [hfds] at hj
      split at hj
      · exact Or.inl (Option.some_inj.1 hj)
      · exact Or.inr ⟨j, hj⟩
  · rw [hfds, hfds]
    intro hi hj
    split at hi <;> split at hj
    · next hik hjk => exact hik.trans hjk.symm
    · exact absurd (hi ▸ hj) (hunused j)
    · exact absurd (hj ▸ hi) (hunused i)
    · exact h.apart i j fd' hi hj
  · have hview : (S.server.acceptClient fd).broker = S.server.broker := rfl
    rw [conns_setConn] at hy
    split at hy
    · cases hy
      obtain ⟨asked, news, hlinked⟩ := h.linked k x hx
      refine ⟨asked, news, hlinked.unseen (congrArg Broker.stored hview) ?_ ?_⟩
      · intro hclosed
        rw [hopen] at hclosed
        cases hclosed
      · funext n
        have hnot := (h.books.unsubscribed hfresh n).1
        rw [hnone]
        exact Bool.eq_false_iff.2 fun hc => hnot (ExtTreeSet.contains_iff_mem.1 hc)
    · obtain ⟨asked, news, hlinked⟩ := h.linked j y hy
      exact ⟨asked, news, hlinked.unseen (congrArg Broker.stored hview) hlinked.shut rfl⟩

theorem Consistent.close (h : Consistent S) {k : κ} {x : Conn ι} (hx : S.conns k = some x) {fd : Nat}
    (hfd : x.fd = some fd) (hlisten : fd ≠ S.server.listenfd) :
    Consistent ({ S with server := S.server.closed fd }.setConn k
      (some { x with fd := none, closed := true })) := by
  have hk : S.fdOf k = some fd := (fdOf_of hx).trans hfd
  have hfds : ∀ j, (({ S with server := S.server.closed fd } : System κ ι).setConn k
      (some { x with fd := none, closed := true })).fdOf j = if j = k then none else S.fdOf j :=
    fun j => fdOf_setConn _ k j _
  have hbroker := (closed_refines h.books fd).broker
  refine ⟨h.books.closed hlisten, fun fd' => ?_, fun i j fd' hi hj => ?_, fun j y hy => ?_⟩
  · show fd' ∈ S.server.clients.erase fd ↔ _
    rw [ExtTreeMap.mem_erase, ne_eq, LawfulEqCmp.compare_eq_iff_eq, h.accepted]
    constructor
    · rintro ⟨hne, j, hj⟩
      have hjk : j ≠ k := by
        rintro rfl
        exact hne (Option.some_inj.1 (hk.symm.trans hj))
      exact ⟨j, by rw [hfds, if_neg hjk]; exact hj⟩
    · rintro ⟨j, hj⟩
      rw [hfds] at hj
      split at hj
      · cases hj
      · next hjk => exact ⟨fun he => hjk (h.apart j k fd (he ▸ hj) hk), j, hj⟩
  · rw [hfds] at hi hj
    split at hi
    · cases hi
    · split at hj
      · cases hj
      · exact h.apart i j fd' hi hj
  · rw [conns_setConn] at hy
    split at hy
    · cases hy
      obtain ⟨asked, news, hlinked⟩ := h.linked k x hx
      exact ⟨_, news, hlinked.close (S.server.closed fd)⟩
    · next hjk =>
      obtain ⟨asked, news, hlinked⟩ := h.linked j y hy
      have hstored : (S.server.closed fd).broker.stored = S.server.broker.stored := by
        rw [hbroker]
        rfl
      refine ⟨asked, news, hlinked.unseen hstored hlinked.shut ?_⟩
      funext n
      cases hy' : y.fd with
      | none => rfl
      | some fd' =>
        have hkeep : fd' ≠ fd := by
          rintro rfl
          exact hjk (h.apart j k fd' ((fdOf_of hy).trans hy') hk)
        show (S.server.closed fd).broker.subs n fd' = S.server.broker.subs n fd'
        rw [hbroker]
        show (S.server.broker.subs n fd' && decide (fd' ≠ fd)) = _
        rw [decide_eq_true hkeep, Bool.and_true]

/-! ## The server handles a packet -/

theorem around_ops {p : ClientPacket} {fd : Nat} {ops : List (Broker.Op Nat CString (List Datum))}
    (h : Around (p.ops fd) ops) :
    (∀ k, .leave k ∉ ops) ∧ ∀ k n, .join k n ∈ ops ↔ k = fd ∧ p.wants = some n := by
  constructor
  · intro k
    rw [h.mem fun ⟨_, _, _, he⟩ => nomatch he]
    exact p.leave_not_mem_ops fd k
  · intro k n
    rw [h.mem fun ⟨_, _, _, he⟩ => nomatch he]
    exact ClientPacket.join_mem_ops

theorem sendable_notes {s s' : MyServer} {notes : List Note} (hsent : s'.sent = s.sent ++ notes.map Note.frame)
    (hshort : ∀ m ∈ notes, m.name.length ≤ 128)
    (hsends : ∀ m ∈ s'.sent.drop s.sent.length, m.2.length < 2 ^ 31) :
    s'.sent.drop s.sent.length = notes.map Note.frame ∧ ∀ m ∈ notes, Sendable (m.name, m.data) := by
  have hout : s'.sent.drop s.sent.length = notes.map Note.frame := by rw [hsent, List.drop_left]
  refine ⟨hout, fun m hm => ⟨hshort m hm, ?_⟩⟩
  rw [hout] at hsends
  have hlen := hsends m.frame (List.mem_map_of_mem hm)
  rwa [Note.frame, length_message m.data scNotify (hshort m hm)] at hlen

theorem Consistent.serve (h : Consistent S) {k : κ} {x : Conn ι} (hx : S.conns k = some x) {fd : Nat}
    (hfd : x.fd = some fd) {p : Bytes} {up : List Bytes} (hup : x.up = p :: up) {tail : Bytes}
    {now : Now} {s : MyServer} (hstep : S.server.step (.packet fd p tail now) = (s, none))
    (hsends : ∀ m ∈ s.sent.drop S.server.sent.length, m.2.length < 2 ^ 31) :
    Consistent ((S.setConn k (some { x with up := up })).advance s) := by
  have hk : S.fdOf k = some fd := (fdOf_of hx).trans hfd
  have hmem : fd ∈ S.server.clients := (h.accepted fd).2 ⟨k, hk⟩
  obtain ⟨asked, news, hlinked⟩ := h.linked k x hx
  have hopen : x.closed = false := by
    refine Bool.eq_false_iff.2 fun hclosed => ?_
    rw [hlinked.shut hclosed] at hfd
    cases hfd
  obtain ⟨q, rest, rfl, hrest, hasked⟩ := (hup ▸ hlinked.up hopen).oldest
  obtain ⟨s', ops, hs', href, haround, -⟩ := receive_refines h.books hmem q tail now
  obtain rfl : s' = s := congrArg Prod.fst (hs'.symm.trans hstep)
  have hkeeps := receive_keeps h.books hmem q.bytes tail now
  rw [hs'] at hkeeps
  obtain ⟨hleave, hjoin⟩ := around_ops haround
  obtain ⟨notes, hsent, hshort, htold⟩ := href.sent
  obtain ⟨hout, hnotes⟩ := sendable_notes hsent hshort hsends
  have hfds : ((S.setConn k (some { x with up := up })).advance s').fdOf = S.fdOf := by
    rw [fdOf_advance]
    exact fdOf_setConn_same (fdOf_of hx).symm
  refine ⟨hkeeps.books, fun fd' => ?_, fun i j fd' => ?_, fun j y hy => ?_⟩
  · rw [hfds, ← h.accepted]
    show fd' ∈ s'.clients ↔ _
    rw [hkeeps.clients]
  · rw [hfds]
    exact h.apart i j fd'
  · obtain ⟨y, hy', rfl⟩ := Option.map_eq_some_iff.1 hy
    rw [conns_setConn] at hy'
    show ∃ asked news, Linked s'
      { y with down := y.down ++ framesTo y.fd (s'.sent.drop S.server.sent.length) } asked news
    rw [hout]
    split at hy'
    · cases hy'
      refine ⟨rest, _, hlinked.hear href.broker htold hnotes hleave (fun _ => hrest) fun n => ?_⟩
      simp [hasked, hjoin, hfd]
    · next hjk =>
      obtain ⟨asked, news, hlinked⟩ := h.linked j y hy'
      refine ⟨asked, _, hlinked.hear href.broker htold hnotes hleave hlinked.up fun n => ?_⟩
      refine (or_iff_left ?_).symm
      rintro ⟨fd', hfd', hops⟩
      have hj : S.fdOf j = some fd := by rw [fdOf_of hy', hfd', ((hjoin fd' n).1 hops).1]
      exact hjk (h.apart j k fd hj hk)

/-! ## Runs -/

variable [DecidableEq ι]

/-- **Every step keeps the system consistent.** -/
theorem consistent_step {a : Action κ ι} (h : Consistent S) (hstep : S.step a = some S') :
    Consistent S' := by
  cases a with
  | connect k =>
    simp only [step] at hstep
    split at hstep
    · next hk =>
      cases hstep
      exact h.setConn (by rw [fdOf, hk]; rfl) ⟨[], [], linked_start S.server⟩
    · cases hstep
  | accept k fd =>
    obtain ⟨x, hx, hstep⟩ := Option.bind_eq_some_iff.1 hstep
    obtain ⟨⟨hnone, hopen, henabled⟩, hstep⟩ := Option.ite_none_right_eq_some.1 hstep
    cases hstep
    exact h.accept hx hnone hopen henabled.1
  | thread k a =>
    obtain ⟨x, hx, hstep⟩ := Option.bind_eq_some_iff.1 hstep
    obtain ⟨hlocal, hstep⟩ := Option.ite_none_right_eq_some.1 hstep
    obtain ⟨proc, hproc, rfl⟩ := Option.map_eq_some_iff.1 hstep
    have hcopy : proc.c.copyOf = x.proc.c.copyOf := by
      refine Process.copyOf_step hproc ?_ ?_
      · rintro n rfl
        cases hlocal
      · rintro p now who rfl
        cases hlocal
    exact h.client hx rfl fun asked news hold =>
      ⟨asked, news, hold.thread (Process.sound_step hold.sound hproc) hcopy⟩
  | subscribe k n field =>
    obtain ⟨x, hx, hstep⟩ := Option.bind_eq_some_iff.1 hstep
    obtain ⟨hname, hstep⟩ := Option.ite_none_right_eq_some.1 hstep
    obtain ⟨proc, hproc, rfl⟩ := Option.map_eq_some_iff.1 hstep
    have hc : proc.c = x.proc.c.subscribe n := by
      rw [Process.step, Option.some_inj] at hproc
      rw [← hproc]
    exact h.client hx rfl fun asked news hold =>
      ⟨_, news, hold.subscribe (Process.sound_step hold.sound hproc) hc field hname⟩
  | publish k n t =>
    obtain ⟨x, hx, hstep⟩ := Option.bind_eq_some_iff.1 hstep
    obtain ⟨⟨hname, hsize⟩, hstep⟩ := Option.ite_none_right_eq_some.1 hstep
    cases hstep
    exact h.client hx rfl fun asked news hold =>
      ⟨asked, news, hold.request (p := .publish n t.d hname hsize) rfl⟩
  | clearServer k =>
    obtain ⟨x, hx, rfl⟩ := Option.map_eq_some_iff.1 hstep
    exact h.client hx rfl fun asked news hold => ⟨asked, news, hold.request (p := .clearserver) rfl⟩
  | serve k tail now =>
    obtain ⟨x, hx, hstep⟩ := Option.bind_eq_some_iff.1 hstep
    split at hstep
    · next fd p up hfd hup =>
      split at hstep
      · next s hs =>
        obtain ⟨hsends, hstep⟩ := Option.ite_none_right_eq_some.1 hstep
        cases hstep
        exact h.serve hx hfd hup hs hsends
      · cases hstep
    · cases hstep
  | receive k tail now who =>
    obtain ⟨x, hx, hstep⟩ := Option.bind_eq_some_iff.1 hstep
    split at hstep
    · next p down hdown =>
      obtain ⟨proc, hproc, rfl⟩ := Option.map_eq_some_iff.1 hstep
      refine h.client hx rfl fun asked news hold => ?_
      obtain ⟨m, news', rfl, rfl, rfl⟩ := List.map_eq_cons_iff.1 (hold.down.symm.trans hdown)
      exact ⟨asked, news', hold.receive hproc⟩
    · cases hstep
  | close k =>
    obtain ⟨x, hx, hstep⟩ := Option.bind_eq_some_iff.1 hstep
    split at hstep
    · next hfd =>
      cases hstep
      refine h.client hx rfl fun asked news hold => ⟨x.proc.c.topics.keys, news, ?_⟩
      have hclose := hold.close S.server
      rw [← hfd] at hclose
      exact hclose
    · next fd hfd =>
      have hmem : fd ∈ S.server.clients := (h.accepted fd).2 ⟨k, (fdOf_of hx).trans hfd⟩
      rw [step_close h.books hmem] at hstep
      cases hstep
      exact h.close hx hfd ((h.books.active fd).2 hmem).2

/-- **Quiescent agreement.** In every reachable state, whatever notification is on its way to a client is
for a topic that it has; and on a connection with nothing on its way in either direction, the client
holds of every topic that it has, and that the server stores, what the server stores. -/
theorem agreement_reachable (listenfd : Nat) (others : FdSet) (now : Now) (as : List (Action κ ι))
    (S : System κ ι) (h : Run.exec step (start listenfd others now) as = some S) :
    (∀ k x, S.conns k = some x → ∀ p ∈ x.down, (∃ msg, takeU32 p = some (scNotify, msg)) →
      ∀ tail, ∃ n, nameOfMsg (p ++ tail) = .ok n ∧ n ∈ x.proc.c.topics) ∧
    (∀ k x, S.conns k = some x → x.closed = false → x.up = [] → x.down = [] →
      ∀ (n : CString) (t : Ref) (u : Topic), x.proc.c.topics[n]? = some t →
        S.server.topics[n]? = some u → (x.proc.c.heap t).d = u.d) := by
  have hall : Consistent S :=
    Run.invariant (fun S a S' hS hstep => consistent_step hS hstep) (consistent_start listenfd others now) h
  refine ⟨fun k x hx p hp _ tail => ?_, fun k x hx hopen hup hdown n t u ht hu => ?_⟩
  · obtain ⟨asked, news, hlinked⟩ := hall.linked k x hx
    rw [hlinked.down] at hp
    obtain ⟨m, hm, rfl⟩ := List.mem_map.1 hp
    exact ⟨m.1, nameOfMsg_message m.2 scNotify m.1 tail, MyClient.mem_topics.2 (hlinked.agrees.newsHeld m hm)⟩
  · obtain ⟨asked, news, hlinked⟩ := hall.linked k x hx
    obtain ⟨ps, hps, rfl⟩ := hlinked.up hopen
    have hnone : ps = [] := List.map_eq_nil_iff.1 (hps.symm.trans hup)
    have hnews : news = [] := List.map_eq_nil_iff.1 (hlinked.down.symm.trans hdown)
    subst hnone hnews
    have hcopy : x.proc.c.copyOf n = some (x.proc.c.heap t).d := by rw [MyClient.copyOf, ht]; rfl
    have hstored : S.server.broker.stored n = some u.d := by
      show S.server.topics[n]?.map Topic.d = _
      rw [hu]
      rfl
    have hsome : (x.proc.c.copyOf n).isSome := by rw [hcopy]; rfl
    have hsame := hlinked.agrees.settled rfl rfl hsome hstored
    exact Option.some_inj.1 (hcopy.symm.trans hsame)

/-- One client subscribes to 'a' and another publishes it. -/
def relay : List (Action Bool Unit) :=
  [.connect false, .accept false 4, .subscribe false (.ofString "a") .zero, .serve false [] 0,
    .connect true, .accept true 5, .publish true (.ofString "a") { d := [.float 7] }, .serve true [] 0,
    .receive false [] 0 none]

theorem agreement_reachable_relay :
    ∃ S x t, Run.exec step (start 3 ∅ 0) relay = some S ∧ S.conns false = some x ∧
      x.proc.c.topics[CString.ofString "a"]? = some t ∧ (x.proc.c.heap t).d = [.float 7] := by
  have hrun : (Run.exec step (start 3 ∅ 0) relay).any (fun S => (S.conns false).any fun x =>
      !x.closed && decide (x.up = []) && decide (x.down = []) &&
        x.proc.c.topics.contains (.ofString "a") &&
        decide (S.server.topics[CString.ofString "a"]?.map Topic.d = some [.float 7])) = true := by
    decide +kernel
  obtain ⟨S, hS, hrun⟩ := (Option.any_eq_true _ _).1 hrun
  obtain ⟨x, hx, hrun⟩ := (Option.any_eq_true _ _).1 hrun
  simp only [Bool.and_eq_true, decide_eq_true_eq, Bool.not_eq_true', ExtTreeMap.contains_iff_mem,
    Option.map_eq_some_iff] at hrun
  obtain ⟨⟨⟨⟨hopen, hup⟩, hdown⟩, hmem⟩, u, hu, hdata⟩ := hrun
  obtain ⟨t, ht⟩ := Option.isSome_iff_exists.1 (ExtTreeMap.mem_iff_isSome_getElem?.1 hmem)
  have hsame := (agreement_reachable 3 ∅ 0 relay S hS).2 false x hx hopen hup hdown _ t u ht hu
  exact ⟨S, x, t, hS, hx, ht, hsame.trans hdata⟩

end System

end DiamondApparatus
