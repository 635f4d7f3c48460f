import DiamondApparatus.Network
import DiamondApparatus.System.Agreement

/-!
# The network behaves as the system

* `Reflects s x y` : the connection `x` of the network is the connection `y` of the system; what is in
  its two receivers and on its two lines is the packets of `y`, as a stream of frames;
* `Shows N S` : so it is for all connections, and the servers are the same but for their receivers;
* `shows_step` : a step of the network is the steps `shadow` of the system, one or none;
* `network_refines` : so every run of the network is a run of the system.
-/

namespace DiamondApparatus
open Lib Std MyServer

/-! ## Packets that can be sent -/

theorem isPayload_of_length {p : Bytes} {n : Nat} (hlen : p.length = n) (hpos : 0 < n) (hlt : n < 2 ^ 32) :
    IsPayload p := by
  refine ⟨?_, hlen ▸ hlt⟩
  rintro rfl
  exact absurd hlen (Nat.ne_of_lt hpos)

theorem isPayload_message {d : List Datum} {n : CString} (hname : n.length ≤ 128)
    (hsize : IntSized d n) (msgtype : UInt32) : IsPayload (message d msgtype n) := by
  refine isPayload_of_length (length_message d msgtype hname) ?_ (by omega)
  unfold messageSize
  omega

theorem isPayload_strMsg (type : UInt32) (n : CString) (field : MsgField) :
    IsPayload (strMsg type n field) := by
  refine isPayload_of_length (n := 260) ?_ (by decide) (by decide)
  rw [strMsg, List.length_append, length_be32, length_overlay, field.2]

theorem isPayload_noDataMsg (type : UInt32) : IsPayload (noDataMsg type) :=
  isPayload_of_length (n := 4) rfl (by decide) (by decide)

theorem Linked.payloads {ι : Type} {s : MyServer} {x : Conn ι} {asked : List CString}
    {news : List (CString × List Datum)} (h : Linked s x asked news) : ∀ p ∈ x.down, IsPayload p := by
  intro p hp
  rw [h.down] at hp
  obtain ⟨m, hm, rfl⟩ := List.mem_map.1 hp
  obtain ⟨hname, hsize⟩ := h.sendable m hm
  exact isPayload_message hname hsize scNotify

/-! ## One connection -/

structure Reflects {ι : Type} (s : MyServer) (x : Link ι) (y : Conn ι) : Prop where
  proc : y.proc = x.proc
  fd : y.fd = x.fd
  closed : y.closed = x.closed
  payloads : ∀ p ∈ y.up, IsPayload p
  up : ∀ fd c, x.fd = some fd → s.clients[fd]? = some (some c) → Brings c.r x.up y.up
  pending : x.Pending → ∀ fd, Brings { fd := fd } x.up y.up
  down : Brings x.recv x.down y.down

section
variable {ι : Type} {s s' : MyServer} {x : Link ι} {y : Conn ι}

theorem reflects_start (s : MyServer) :
    Reflects s ({ proc := Process.start } : Link ι) { proc := Process.start } where
  proc := rfl
  fd := rfl
  closed := rfl
  payloads _ hp := absurd hp List.not_mem_nil
  up _ _ hfd := nomatch hfd
  pending _ fd := brings_fresh fd
  down := brings_fresh 0

theorem Reflects.unseen (h : Reflects s x y) (hs : ∀ fd, x.fd = some fd → s'.clients[fd]? = s.clients[fd]?) :
    Reflects s' x y :=
  ⟨h.proc, h.fd, h.closed, h.payloads, fun fd c hfd hc => h.up fd c hfd ((hs fd hfd).symm.trans hc),
    h.pending, h.down⟩

theorem Reflects.thread (h : Reflects s x y) (proc : Process ι) :
    Reflects s { x with proc := proc } { y with proc := proc } :=
  ⟨rfl, h.fd, h.closed, h.payloads, h.up, h.pending, h.down⟩

theorem Reflects.hang (h : Reflects s x y) : Reflects s { x with up := x.up.finish } y :=
  ⟨h.proc, h.fd, h.closed, h.payloads, fun fd c hfd hc => (h.up fd c hfd hc).finish,
    fun hp fd => (h.pending hp fd).finish, h.down⟩

theorem Reflects.request (h : Reflects s x y) {p : Bytes} (hp : IsPayload p) (proc : Process ι) :
    Reflects s { x with proc := proc, up := x.up.send p } { y with proc := proc, up := y.up ++ [p] } := by
  refine ⟨rfl, h.fd, h.closed, fun q hq => ?_, fun fd c hfd hc => (h.up fd c hfd hc).send p,
    fun hpending fd => (h.pending hpending fd).send p, h.down⟩
  rcases List.mem_append.1 hq with hq | hq
  · exact h.payloads q hq
  · exact List.mem_singleton.1 hq ▸ hp

theorem Reflects.sends (h : Reflects s x y) (ps : List Bytes) :
    Reflects s { x with down := x.down.sends ps } { y with down := y.down ++ ps } :=
  ⟨h.proc, h.fd, h.closed, h.payloads, h.up, h.pending, h.down.sends ps⟩

theorem Reflects.receives (h : Reflects s x y) {r : TCPReceiver} {l : Line} {ps : List Bytes}
    (hr : Brings r l ps) (rv : Bool) :
    Reflects s { x with recv := r, rv := rv, down := l } { y with down := ps } :=
  ⟨h.proc, h.fd, h.closed, h.payloads, h.up, h.pending, hr⟩

theorem Reflects.reads (h : Reflects s x y) {fd : Nat} (hfd : x.fd = some fd) {r : TCPReceiver} {l : Line}
    {ps : List Bytes} (hps : ∀ p ∈ ps, IsPayload p) (hr : Brings r l ps)
    (hs : ∀ c, s'.clients[fd]? = some (some c) → c.r = r) :
    Reflects s' { x with up := l } { y with up := ps } where
  proc := h.proc
  fd := h.fd
  closed := h.closed
  payloads := hps
  up fd' c hfd' hc := by
    obtain rfl := Option.some_inj.1 (hfd.symm.trans hfd')
    rw [hs c hc]
    exact hr
  pending hp := by
    rw [Link.Pending, hfd] at hp
    cases hp.1
  down := h.down

theorem Reflects.accept (h : Reflects s x y) (hp : x.Pending) (fd : Nat)
    (hs : ∀ c, s'.clients[fd]? = some (some c) → c.r = { fd := fd }) :
    Reflects s' { x with fd := some fd } { y with fd := some fd } where
  proc := h.proc
  fd := rfl
  closed := h.closed
  payloads := h.payloads
  up fd' c hfd' hc := by
    obtain rfl := Option.some_inj.1 hfd'
    rw [hs c hc]
    exact h.pending hp fd
  pending hp' := nomatch hp'.1
  down := h.down

theorem Reflects.close (h : Reflects s x y) (l : Line) (s' : MyServer) :
    Reflects s' { x with fd := none, closed := true, up := l, down := x.down.finish }
      { y with fd := none, closed := true } where
  proc := h.proc
  fd := rfl
  closed := rfl
  payloads := h.payloads
  up _ _ hfd := nomatch hfd
  pending hp := nomatch hp.2
  down := h.down.finish

end

/-! ## All connections -/

namespace Network
variable {κ ι : Type}

structure Shows (N : Network κ ι) (S : System κ ι) : Prop where
  server : S.server = N.server.anew
  linked : ∀ k x, N.links k = some x → ∃ y, S.conns k = some y ∧ Reflects N.server x y
  unlinked : ∀ k, N.links k = none → S.conns k = none

theorem shows_start (listenfd : Nat) (others : FdSet) (now : Now) :
    Shows (start listenfd others now : Network κ ι) (System.start listenfd others now) where
  server := by
    have hclients : (MyServer.new listenfd others now).clients = ∅ := by
      obtain ⟨out, ht⟩ := new_talks listenfd others now
      exact ht.clients
    show MyServer.new listenfd others now = (MyServer.new listenfd others now).anew
    rw [anew, hclients]
    show _ = { MyServer.new listenfd others now with clients := ∅ }
    rw [← hclients]
  linked _ _ hx := nomatch hx
  unlinked _ _ := rfl

section
variable {N : Network κ ι} {S : System κ ι}

theorem Shows.entry (h : Shows N S) (hcons : S.Consistent) {k : κ} {x : Link ι} (hx : N.links k = some x)
    {fd : Nat} (hfd : x.fd = some fd) : ∃ y c, S.conns k = some y ∧ Reflects N.server x y ∧
      fd ∈ S.server.clients ∧ N.server.clients[fd]? = some (some c) := by
  obtain ⟨y, hy, hxy⟩ := h.linked k x hx
  have hyfd : y.fd = some fd := hxy.fd.trans hfd
  have hmem : fd ∈ S.server.clients := (hcons.accepted fd).2 ⟨k, (System.fdOf_of hy).trans hyfd⟩
  obtain ⟨c', hc', -⟩ := hcons.books.held fd hmem
  rw [h.server, getElem?_anew] at hc'
  obtain ⟨e, he, hnew⟩ := Option.map_eq_some_iff.1 hc'
  obtain ⟨c, rfl, -⟩ := Option.map_eq_some_iff.1 hnew
  exact ⟨y, c, hy, hxy, hmem, he⟩

/-- No two connections have the same descriptor. -/
theorem Shows.apart (h : Shows N S) (hcons : S.Consistent) {k j : κ} {x z : Link ι}
    (hx : N.links k = some x) (hz : N.links j = some z) {fd : Nat} (hxfd : x.fd = some fd)
    (hzfd : z.fd = some fd) : k = j := by
  obtain ⟨y, hy, hxy⟩ := h.linked k x hx
  obtain ⟨y', hy', hzy⟩ := h.linked j z hz
  exact hcons.apart k j fd ((System.fdOf_of hy).trans (hxy.fd.trans hxfd))
    ((System.fdOf_of hy').trans (hzy.fd.trans hzfd))

/-- Where the server is plays no part. -/
theorem Shows.place (h : Shows N S) (place : Place) : Shows { N with place := place } S :=
  ⟨h.server, h.linked, h.unlinked⟩

theorem Shows.advance (h : Shows N S) {s : MyServer} (hclients : s.clients = N.server.clients) :
    Shows (N.advance s) (S.advance s.anew) where
  server := rfl
  linked j z hz := by
    obtain ⟨x, hx, rfl⟩ := Option.map_eq_some_iff.1 hz
    obtain ⟨y, hy, hxy⟩ := h.linked j x hx
    have hsent : S.server.sent = N.server.sent := by
      rw [h.server]
      rfl
    refine ⟨{ y with down := y.down ++ System.framesTo y.fd (s.sent.drop S.server.sent.length) }, ?_, ?_⟩
    · show (S.conns j).map _ = _
      rw [hy]
      rfl
    · have hout : System.framesTo y.fd (s.sent.drop S.server.sent.length) =
          System.framesTo x.fd (s.sent.drop N.server.sent.length) := by rw [hxy.fd, hsent]
      rw [hout]
      exact (hxy.sends _).unseen fun fd _ => congrArg (·[fd]?) hclients
  unlinked j hj := by
    have hnone := h.unlinked j (Option.map_eq_none_iff.1 hj)
    show (S.conns j).map _ = none
    rw [hnone]
    rfl

variable [DecidableEq κ]

/-- **A change at one connection**, and of the server as far as the others do not see it. -/
theorem Shows.change (h : Shows N S) {k : κ} {x : Link ι} {y : Conn ι} {s : MyServer} (place : Place)
    (hothers : ∀ j z fd, j ≠ k → N.links j = some z → z.fd = some fd →
      s.clients[fd]? = N.server.clients[fd]?) (hxy : Reflects s x y) :
    Shows ({ N with server := s, place := place }.setLink k x)
      ({ S with server := s.anew }.setConn k (some y)) where
  server := rfl
  linked j z hz := by
    have hz' : (if j = k then some x else N.links j) = some z :=
      (Function.update_apply N.links k (some x) j).symm.trans hz
    rw [System.conns_setConn]
    split at hz'
    · next hj => exact ⟨y, if_pos hj, Option.some_inj.1 hz' ▸ hxy⟩
    · next hj =>
      obtain ⟨y', hy', hzy⟩ := h.linked j z hz'
      exact ⟨y', (if_neg hj).trans hy', hzy.unseen fun fd hfd => hothers j z fd hj hz' hfd⟩
  unlinked j hj := by
    have hj' : (if j = k then some x else N.links j) = none :=
      (Function.update_apply N.links k (some x) j).symm.trans hj
    rw [System.conns_setConn]
    split at hj'
    · cases hj'
    · next hne => exact (if_neg hne).trans (h.unlinked j hj')

/-- A change at one connection that the server does not see. -/
theorem Shows.client (h : Shows N S) {k : κ} {x : Link ι} {y : Conn ι} (hxy : Reflects N.server x y) :
    Shows (N.setLink k x) (S.setConn k (some y)) := by
  have hchange := h.change (s := N.server) (k := k) N.place (fun _ _ _ _ _ _ => rfl) hxy
  rwa [← h.server] at hchange

theorem setConn_self {k : κ} {y : Conn ι} (hy : S.conns k = some y) : S.setConn k (some y) = S := by
  show { S with conns := Function.update S.conns k (some y) } = S
  rw [← hy, Function.update_eq_self]

theorem clients_setReceiver {s : MyServer} {fd : Nat} {c : ClientInServer}
    (hc : s.clients[fd]? = some (some c)) (r : TCPReceiver) :
    (s.setReceiver fd r).clients[fd]? = some (some { c with r := r }) := by
  rw [getElem?_setReceiver, if_pos rfl, hc]
  rfl

/-- **The server has read on `fd`**, and the packets still to come are `ps`. -/
theorem Shows.reads (h : Shows N S) (hcons : S.Consistent) {k : κ} {x : Link ι} (hx : N.links k = some x)
    {y : Conn ι} (hxy : Reflects N.server x y) {fd : Nat} (hfd : x.fd = some fd) {c : ClientInServer}
    (hc : N.server.clients[fd]? = some (some c)) {ps : List Bytes} (hps : ∀ p ∈ ps, IsPayload p)
    {r : TCPReceiver} {l : Line} (hr : Brings r l ps) (place : Place) :
    Shows ({ N with server := N.server.setReceiver fd r, place := place }.setLink k { x with up := l })
      (S.setConn k (some { y with up := ps })) := by
  have hreads : Reflects (N.server.setReceiver fd r) { x with up := l } { y with up := ps } := by
    refine hxy.reads hfd hps hr fun c' hc' => ?_
    rw [clients_setReceiver hc, Option.some_inj, Option.some_inj] at hc'
    exact hc' ▸ rfl
  have hchange := h.change (k := k) place (fun j z fd' hj hz hzfd => ?_) hreads
  · rwa [anew_setReceiver, ← h.server] at hchange
  · rw [getElem?_setReceiver, if_neg]
    rintro rfl
    exact hj (h.apart hcons hx hz hfd hzfd).symm

variable [DecidableEq ι]

theorem Shows.accept (h : Shows N S) (hcons : S.Consistent) {k : κ} {x : Link ι}
    (hx : N.links k = some x) (hpending : x.Pending) {fd : Nat} (henabled : N.server.Enabled (.accept fd))
    (place : Place) : ∃ S', System.step S (.accept k fd) = some S' ∧
      Shows ({ N with server := N.server.acceptClient fd, place := place }.setLink k
        { x with fd := some fd }) S' := by
  obtain ⟨y, hy, hxy⟩ := h.linked k x hx
  have hstep : System.step S (.accept k fd) =
      some ({ S with server := (N.server.acceptClient fd).anew }.setConn k (some { y with fd := some fd })) := by
    have henabled' : S.server.Enabled (.accept fd) := by
      rw [h.server]
      exact henabled
    rw [System.step, hy, Option.bind_some, if_pos ⟨hxy.fd.trans hpending.1, hxy.closed.trans hpending.2, henabled'⟩,
      acceptClient_anew, h.server]
  refine ⟨_, hstep, h.change place (fun j z fd' hj hz hzfd => ?_) (hxy.accept hpending fd fun c hc => ?_)⟩
  · obtain ⟨-, c, -, -, hmem, -⟩ := h.entry hcons hz hzfd
    have hne : fd' ≠ fd := by
      rintro rfl
      rw [h.server] at hmem
      have hopen := hcons.books.opened fd' (h.server ▸ hmem)
      rw [h.server] at hopen
      exact henabled.1 hopen
    show (N.server.clients.insert fd _)[fd']? = _
    rw [ExtTreeMap.getElem?_insert, if_neg]
    exact fun he => hne (LawfulEqCmp.eq_of_compare he).symm
  · rw [show (N.server.acceptClient fd).clients = N.server.clients.insert fd (some (accepted fd)) from rfl,
      ExtTreeMap.getElem?_insert_self, Option.some_inj, Option.some_inj] at hc
    exact hc ▸ rfl

/-- **The server goes on behind a `read`.** -/
theorem Shows.read (h : Shows N S) (hcons : S.Consistent) {k : κ} {x : Link ι}
    (hx : N.links k = some x) {fd : Nat} (hfd : x.fd = some fd) {rv : Bool} {rest : List Nat} {a : Arrival}
    (ha : x.up.Offers a) {tail : Bytes} {now : Now} {flow : Flow} (hflow : N.nextRead fd rv a = some flow)
    {N' : Network κ ι} (hstep : N.afterRead k x fd rest a tail now flow = some N') :
    ∃ S', Run.exec System.step S (shadowOf (.serve k tail now) (.close k) flow) = some S' ∧ Shows N' S' := by
  obtain ⟨y, c, hy, hxy, hmem, hc⟩ := h.entry hcons hx hfd
  have hyfd := hxy.fd.trans hfd
  have hread := (hxy.up fd c hfd hc).readOnce hxy.payloads ha rv
  have hnext : N.nextRead fd rv a = some (c.r.readOnce (fun _ => false) { arrivals := [a] } rv) := by
    rw [nextRead, clientAt_of_mem hc]
    rfl
  obtain rfl := Option.some_inj.1 (hnext.symm.trans hflow)
  generalize c.r.readOnce (fun _ => false) { arrivals := [a] } rv = flow at hread hstep ⊢
  cases hread with
  | going ha' hr =>
    cases hstep
    exact ⟨S, rfl, setConn_self hy ▸ h.reads hcons hx hxy hfd hc hxy.payloads hr _⟩
  | @complete r left p qs ha' hps hr =>
    have hc' := clients_setReceiver hc r
    simp only [afterRead] at hstep
    split at hstep
    · next s hs =>
      obtain ⟨hsends, hstep⟩ := Option.ite_none_right_eq_some.1 hstep
      cases hstep
      have hpacket : S.server.step (.packet fd p tail now) = (s.anew, none) := by
        rw [h.server, ← anew_setReceiver _ fd r]
        exact (receive_anew hc' p tail now).2 s hs
      have hclients : s.clients = (N.server.setReceiver fd r).clients := by
        rw [← receive_clients hc' p tail now]
        exact congrArg (fun o => MyServer.clients (Prod.fst o)) hs.symm
      have hserve : System.step S (.serve k tail now) =
          some ((S.setConn k (some { y with up := qs })).advance s.anew) := by
        have hlen : S.server.sent.length = N.server.sent.length := by
          rw [h.server]
          rfl
        simp only [System.step, hy, Option.bind_some, hyfd, hps, hpacket]
        rw [if_pos]
        rw [hlen]
        exact hsends
      refine ⟨_, Run.exec_cons_eq_some.2 ⟨_, hserve, rfl⟩, ?_⟩
      exact (h.reads hcons hx hxy hfd hc (fun q hq => hxy.payloads q (hps ▸ List.mem_cons_of_mem p hq)) hr
        (.looping false rest)).advance hclients
    · cases hstep
  | @ended r left ha' hr =>
    cases rv with
    | true =>
      cases hstep
      exact ⟨S, rfl, setConn_self hy ▸ h.reads hcons hx hxy hfd hc hxy.payloads hr _⟩
    | false =>
      have hc' := clients_setReceiver hc r
      have hclose : (N.server.setReceiver fd r).step (.close fd) = ((N.server.setReceiver fd r).closed fd, none) :=
        closeClient_eq hc'
      simp only [afterRead, hclose] at hstep
      cases hstep
      have hanew : ((N.server.setReceiver fd r).closed fd).anew = S.server.closed fd := by
        rw [closed_anew, anew_setReceiver, h.server]
      have hlast : System.step S (.close k) = some ({ S with server := S.server.closed fd }.setConn k
          (some { y with fd := none, closed := true })) := by
        simp only [System.step, hy, Option.bind_some, hyfd, step_close hcons.books hmem]
      refine ⟨_, Run.exec_cons_eq_some.2 ⟨_, hlast, rfl⟩, ?_⟩
      rw [← hanew]
      refine h.change _ (fun j z fd' hj hz hzfd => ?_) (hxy.close _ _)
      have hne : fd' ≠ fd := by
        rintro rfl
        exact hj (h.apart hcons hx hz hfd hzfd).symm
      show ((N.server.setReceiver fd r).clients.erase fd)[fd']? = _
      rw [ExtTreeMap.getElem?_erase, if_neg fun he => hne (LawfulEqCmp.eq_of_compare he).symm,
        getElem?_setReceiver, if_neg hne]

/-- **A client goes on behind a `read`.** -/
theorem Shows.receive (h : Shows N S) (hcons : S.Consistent) {k : κ} {x : Link ι}
    (hx : N.links k = some x) {a : Arrival} (ha : x.down.Offers a) {tail : Bytes} {now : Clock}
    {who : Option ι} {N' : Network κ ι}
    (hstep : N.afterReceive k x a tail now who (x.nextRead a) = some N') :
    ∃ S', Run.exec System.step S
      (shadowOf (.receive k tail now who) (.thread k .hangup) (x.nextRead a)) = some S' ∧ Shows N' S' := by
  obtain ⟨y, hy, hxy⟩ := h.linked k x hx
  obtain ⟨asked, news, hlinked⟩ := hcons.linked k y hy
  have hread := hxy.down.readOnce hlinked.payloads ha x.rv
  unfold Link.nextRead at hstep ⊢
  generalize x.recv.readOnce (fun _ => false) { arrivals := [a] } x.rv = flow at hread hstep ⊢
  cases hread with
  | going ha' hr =>
    cases hstep
    exact ⟨S, rfl, setConn_self hy ▸ h.client (hxy.receives hr true)⟩
  | @complete r left p qs ha' hps hr =>
    obtain ⟨proc, hproc, rfl⟩ := Option.map_eq_some_iff.1 hstep
    have hreceive : System.step S (.receive k tail now who) =
        some (S.setConn k (some { y with proc := proc, down := qs })) := by
      simp only [System.step, hy, Option.bind_some, hps, hxy.proc, hproc, Option.map_some]
    exact ⟨_, Run.exec_cons_eq_some.2 ⟨_, hreceive, rfl⟩, h.client ((hxy.thread proc).receives hr false)⟩
  | @ended r left ha' hr =>
    cases hrv : x.rv with
    | true =>
      rw [hrv] at hstep
      cases hstep
      exact ⟨S, rfl, setConn_self hy ▸ h.client (hxy.receives hr false)⟩
    | false =>
      rw [hrv] at hstep
      obtain ⟨proc, hproc, rfl⟩ := Option.map_eq_some_iff.1 hstep
      have hhangup : System.step S (.thread k .hangup) = some (S.setConn k (some { y with proc := proc })) := by
        simp only [System.step, hy, Option.bind_some, Label.isLocal, if_true, hxy.proc, hproc, Option.map_some]
      exact ⟨_, Run.exec_cons_eq_some.2 ⟨_, hhangup, rfl⟩, h.client ((hxy.thread proc).receives hr false)⟩

/-! ## Steps and runs -/

/-- **A step of the network is its shadow in the system.** -/
theorem shows_step {a : Act κ ι} {N' : Network κ ι} (hcons : S.Consistent) (h : Shows N S)
    (hstep : N.step a = some N') :
    ∃ S', Run.exec System.step S (N.shadow a) = some S' ∧ Shows N' S' := by
  cases a with
  | connect k =>
    simp only [step] at hstep
    split at hstep
    · next hk =>
      cases hstep
      refine ⟨S.setConn k (some { proc := .start }), Run.exec_cons_eq_some.2 ⟨_, ?_, rfl⟩, h.client (reflects_start _)⟩
      simp only [System.step, h.unlinked k hk]
    · cases hstep
  | thread k a =>
    obtain ⟨x, hx, hstep⟩ := Option.bind_eq_some_iff.1 hstep
    obtain ⟨hlocal, hstep⟩ := Option.ite_none_right_eq_some.1 hstep
    obtain ⟨proc, hproc, rfl⟩ := Option.map_eq_some_iff.1 hstep
    obtain ⟨y, hy, hxy⟩ := h.linked k x hx
    have hown : a.isLocal = true := ((Bool.and_eq_true _ _).mp hlocal).1
    refine ⟨S.setConn k (some { y with proc := proc }), Run.exec_cons_eq_some.2 ⟨_, ?_, rfl⟩, h.client ?_⟩
    · simp only [System.step, hy, Option.bind_some, hown, if_true, hxy.proc, hproc, Option.map_some]
    · split
      · exact (hxy.thread proc).hang
      · exact hxy.thread proc
  | subscribe k n field =>
    obtain ⟨x, hx, hstep⟩ := Option.bind_eq_some_iff.1 hstep
    obtain ⟨hname, hstep⟩ := Option.ite_none_right_eq_some.1 hstep
    obtain ⟨proc, hproc, rfl⟩ := Option.map_eq_some_iff.1 hstep
    obtain ⟨y, hy, hxy⟩ := h.linked k x hx
    refine ⟨S.request k y proc (strMsg csSubscribe n field), Run.exec_cons_eq_some.2 ⟨_, ?_, rfl⟩,
      h.client (hxy.request (isPayload_strMsg csSubscribe n field) proc)⟩
    simp only [System.step, hy, Option.bind_some, hname, if_true, hxy.proc, hproc, Option.map_some]
  | publish k n t =>
    obtain ⟨x, hx, hstep⟩ := Option.bind_eq_some_iff.1 hstep
    obtain ⟨⟨hname, hsize⟩, hstep⟩ := Option.ite_none_right_eq_some.1 hstep
    cases hstep
    obtain ⟨y, hy, hxy⟩ := h.linked k x hx
    have hpayload : IsPayload (t.toMessage csPublish n) := by
      rw [toMessage_eq t csPublish hname]
      exact isPayload_message hname hsize csPublish
    refine ⟨S.request k y x.proc (t.toMessage csPublish n), Run.exec_cons_eq_some.2 ⟨_, ?_, rfl⟩,
      h.client (hxy.request hpayload x.proc)⟩
    simp only [System.step, hy, Option.bind_some, hname, hsize, and_self, if_true, hxy.proc]
  | clearServer k =>
    obtain ⟨x, hx, rfl⟩ := Option.map_eq_some_iff.1 hstep
    obtain ⟨y, hy, hxy⟩ := h.linked k x hx
    refine ⟨S.request k y x.proc (noDataMsg csClearserver), Run.exec_cons_eq_some.2 ⟨_, ?_, rfl⟩,
      h.client (hxy.request (isPayload_noDataMsg csClearserver) x.proc)⟩
    simp only [System.step, hy, Option.map_some, hxy.proc]
  | hang k =>
    obtain ⟨x, hx, rfl⟩ := Option.map_eq_some_iff.1 hstep
    obtain ⟨y, hy, hxy⟩ := h.linked k x hx
    exact ⟨S, rfl, setConn_self hy ▸ h.client hxy.hang⟩
  | select ready =>
    obtain ⟨-, hstep⟩ := Option.ite_none_right_eq_some.1 hstep
    cases hstep
    exact ⟨S, rfl, h.place _⟩
  | accept k fd =>
    obtain ⟨x, hx, hstep⟩ := Option.bind_eq_some_iff.1 hstep
    split at hstep
    · next i rest hplace =>
      obtain ⟨⟨-, hpending, henabled⟩, hstep⟩ := Option.ite_none_right_eq_some.1 hstep
      cases hstep
      obtain ⟨S', hS', hshows⟩ := h.accept hcons hx hpending henabled (.looping false rest)
      exact ⟨S', Run.exec_cons_eq_some.2 ⟨S', hS', rfl⟩, hshows⟩
    · cases hstep
  | read k a tail now =>
    obtain ⟨x, hx, hstep⟩ := Option.bind_eq_some_iff.1 hstep
    split at hstep
    · next rv fd rest hplace =>
      obtain ⟨⟨-, hfd, ha⟩, hstep⟩ := Option.ite_none_right_eq_some.1 hstep
      obtain ⟨flow, hflow, hstep⟩ := Option.bind_eq_some_iff.1 hstep
      have hshadow : N.shadow (.read k a tail now) = shadowOf (.serve k tail now) (.close k) flow := by
        simp only [shadow, hplace, hflow, Option.elim_some]
      rw [hshadow]
      exact h.read hcons hx hfd ha hflow hstep
    · cases hstep
  | finish =>
    obtain ⟨-, hstep⟩ := Option.ite_none_right_eq_some.1 hstep
    cases hstep
    exact ⟨S, rfl, h.place _⟩
  | receive k a tail now who =>
    obtain ⟨x, hx, hstep⟩ := Option.bind_eq_some_iff.1 hstep
    obtain ⟨⟨-, -, ha⟩, hstep⟩ := Option.ite_none_right_eq_some.1 hstep
    have hshadow : N.shadow (.receive k a tail now who) =
        shadowOf (.receive k tail now who) (.thread k .hangup) (x.nextRead a) := by
      simp only [shadow, hx, Option.elim_some]
    rw [hshadow]
    exact h.receive hcons hx ha hstep

end

variable [DecidableEq κ] [DecidableEq ι]

theorem consistent_exec {S S' : System κ ι} {as : List (Action κ ι)} (h : S.Consistent)
    (hrun : Run.exec System.step S as = some S') : S'.Consistent :=
  Run.invariant (fun _ _ _ hS hstep => System.consistent_step hS hstep) h hrun

theorem shows_run {N N' : Network κ ι} {S : System κ ι} {as : List (Act κ ι)} (hcons : S.Consistent)
    (h : Shows N S) (hrun : Run.exec step N as = some N') :
    ∃ S', Run.exec System.step S (Run.trace step shadow N as) = some S' ∧ S'.Consistent ∧ Shows N' S' := by
  refine Run.exec_trace (R := fun N S => S.Consistent ∧ Shows N S) ?_ ⟨hcons, h⟩ hrun
  intro N S a N' hNS hstep
  obtain ⟨S', hS', hshows⟩ := shows_step hNS.1 hNS.2 hstep
  exact ⟨S', hS', consistent_exec hNS.1 hS', hshows⟩

theorem shows_reachable {listenfd : Nat} {others : FdSet} {now : Now} {as : List (Act κ ι)}
    {N : Network κ ι} (hrun : Run.exec step (start listenfd others now) as = some N) :
    ∃ S, Run.exec System.step (System.start listenfd others now)
      (Run.trace step shadow (start listenfd others now) as) = some S ∧ S.Consistent ∧ Shows N S :=
  shows_run (System.consistent_start listenfd others now) (shows_start listenfd others now) hrun

/-- **Every run of the network is a run of the system.** However the bytes arrive and whatever the
server's loop and the clients' receivers are in the middle of, the same packets are handled one after the
other: with the same server at the end, but for its receivers, the same client processes, and on every
connection the packets still to come, which its lines and receivers hold as a stream of frames (of which a line
that has ended holds a beginning). -/
theorem network_refines (listenfd : Nat) (others : FdSet) (now : Now) (as : List (Act κ ι))
    (N : Network κ ι) (hrun : Run.exec step (start listenfd others now) as = some N) :
    ∃ S, Run.exec System.step (System.start listenfd others now)
      (Run.trace step shadow (start listenfd others now) as) = some S ∧ Shows N S := by
  obtain ⟨S, hS, -, h⟩ := shows_reachable hrun
  exact ⟨S, hS, h⟩

def found : Bytes → Arrival
  | [] => .eof
  | b :: bs => .data b bs

/-- One client subscribes to 'a' and another publishes it. The server finds both ready; the bytes arrive
in pieces that end anywhere. -/
def piecemeal : List (Act Bool Unit) :=
  let asked := frame (strMsg csSubscribe (.ofString "a") .zero)
  let told := frame (Topic.toMessage { d := [.float 7] } csPublish (.ofString "a"))
  let news := frame (Topic.toMessage { d := [.float 7] } scNotify (.ofString "a"))
  [.connect false, .connect true, .select [(3, false)], .accept false 4, .finish, .select [(3, true)],
    .accept true 5, .finish, .subscribe false (.ofString "a") .zero,
    .publish true (.ofString "a") { d := [.float 7] }, .select [(4, false), (5, true)],
    .read false (found (asked.take 3)) [] 0, .read false (found (asked.drop 3)) [] 0,
    .read false (found (asked.drop 4)) [] 0, .read true (found told) [] 0,
    .read true (found ((told.drop 4).take 7)) [] 0, .read true (found (told.drop 11)) [] 0, .finish,
    .receive false (found (news.take 4)) [] 0 none, .receive false (found (news.drop 4)) [] 0 none]

theorem network_refines_piecemeal :
    ∃ N S, Run.exec step (start 3 ∅ 0) piecemeal = some N ∧
      (Run.trace step shadow (start 3 ∅ 0) piecemeal).length = 9 ∧
      Run.exec System.step (System.start 3 ∅ 0) (Run.trace step shadow (start 3 ∅ 0) piecemeal) = some S ∧
      Shows N S := by
  have hrun : (Run.exec step (start 3 ∅ 0) piecemeal).isSome = true := by decide +kernel
  obtain ⟨N, hN⟩ := Option.isSome_iff_exists.1 hrun
  obtain ⟨S, hS, h⟩ := network_refines 3 ∅ 0 piecemeal N hN
  exact ⟨N, S, hN, by decide +kernel, hS, h⟩

end Network

end DiamondApparatus
