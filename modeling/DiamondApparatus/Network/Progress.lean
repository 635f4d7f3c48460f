import DiamondApparatus.Network.Transport

/-!
# The server's loop goes on

Between two calls of `select` the server visits every descriptor that was ready, and in each visit it
makes blocking `read` calls.

* `Attentive N` : whatever descriptor is still to come in the loop has something to read, or a connection
  to accept. Clients only add to that, and the loop stays with a descriptor while its packet is not whole;
* `server_progress`, `client_progress` : so no `read` waits in vain, and none ends in a fault.
-/

namespace DiamondApparatus
open Lib Std MyServer

theorem process_notify {c : MyClient} {p msg : Bytes} (htype : takeU32 p = some (scNotify, msg)) {n : CString}
    (hname : nameOfMsg p = .ok n) {t : Ref} (ht : c.topics[n]? = some t) {x : Topic} {l : Loaded}
    (hload : (c.heap t).fromMessage p false = (x, .ok l)) (now : Clock) :
    ∃ c' signal, c.process p now = (c', signal, none) := by
  have hne : ¬ scNotify = scKillclient := by decide
  have hprocess : c.process p now = c.notify p now := by
    unfold MyClient.process
    rw [htype]
    simp only [hne, false_and, if_false, if_true]
  rw [hprocess]
  unfold MyClient.notify
  rw [hname]
  dsimp only
  rw [ht]
  dsimp only
  rw [hload]
  dsimp only
  split
  · exact ⟨_, _, rfl⟩
  · exact ⟨_, _, rfl⟩

theorem process_news {c : MyClient} {m : CString × List Datum} (hm : m.1 ∈ c.topics) (hsend : Sendable m)
    (tail : Bytes) (now : Clock) : ∃ c' signal, c.process (newsFrame m ++ tail) now = (c', signal, none) := by
  obtain ⟨t, ht⟩ := Option.isSome_iff_exists.1 (ExtTreeMap.mem_iff_isSome_getElem?.1 hm)
  exact process_notify (takeU32_message m.2 scNotify m.1 tail) (nameOfMsg_message m.2 scNotify m.1 tail) ht
    (fromMessage_message (c.heap t) m.2 scNotify hsend.1 hsend.2 false tail) now

namespace Process
variable {ι : Type} [DecidableEq ι] {s : Process ι}

/-- The receiver thread handles a packet, and its signal wakes somebody. -/
theorem receives_isSome (hloop : s.receiver = .looping) (hrun : s.c.running = true) {p : Bytes} {now : Clock}
    {c : MyClient} {signal : Bool} (hc : s.c.process p now = (c, signal, none)) :
    ∃ who, (s.step (.packet p now who)).isSome := by
  obtain ⟨who, hwakes⟩ : ∃ who, s.Wakes who := by
    by_cases hnone : s.getcond = ∅
    · exact ⟨none, hnone⟩
    · obtain ⟨i, hi⟩ := Finset.nonempty_iff_ne_empty.2 hnone
      exact ⟨some i, hi⟩
  refine ⟨who, ?_⟩
  simp only [step, hloop, hrun, and_self, if_true, hc]
  cases signal with
  | false => rfl
  | true =>
    simp only [if_pos hwakes]
    rfl

end Process

namespace Network
variable {κ ι : Type}

/-! ## Ready -/

theorem readable_send {x : Link ι} {p : Bytes} (h : x.Readable) (proc : Process ι) :
    ({ x with proc := proc, up := x.up.send p } : Link ι).Readable := by
  show (x.up.send p).bytes ≠ [] ∨ (x.up.send p).ended
  unfold Line.send
  split
  · exact h
  · exact h.imp_left fun hne hnil => hne (List.append_eq_nil_iff.1 hnil).1

section
variable {N N' : Network κ ι} {S : System κ ι} {fd : Nat} {k j : κ}

theorem isReady_iff : N.IsReady fd k ↔
    ∃ x, N.links k = some x ∧ if fd = N.server.listenfd then x.Pending else x.fd = some fd ∧ x.Readable := by
  unfold IsReady
  cases N.links k with
  | none => simp
  | some x => simp

theorem isReady_of {x : Link ι} (hx : N.links k = some x) (hfd : x.fd = some fd)
    (hlisten : fd ≠ N.server.listenfd) (hread : x.Readable) : N.IsReady fd k :=
  isReady_iff.2 ⟨x, hx, by rw [if_neg hlisten]; exact ⟨hfd, hread⟩⟩

def StillReady (N N' : Network κ ι) (k : κ) : Prop := ∀ fd, N.IsReady fd k → N'.IsReady fd k

theorem stillReady_of (hlisten : N'.server.listenfd = N.server.listenfd)
    (h : ∀ x, N.links k = some x → ∃ x', N'.links k = some x' ∧ x'.fd = x.fd ∧ x'.closed = x.closed ∧
      (x.Readable → x'.Readable)) : StillReady N N' k := by
  intro fd hready
  obtain ⟨x, hx, hif⟩ := isReady_iff.1 hready
  obtain ⟨x', hx', hfd, hclosed, hread⟩ := h x hx
  refine isReady_iff.2 ⟨x', hx', ?_⟩
  rw [hlisten]
  split
  · next hl =>
    rw [if_pos hl] at hif
    exact ⟨hfd.trans hif.1, hclosed.trans hif.2⟩
  · next hl =>
    rw [if_neg hl] at hif
    exact ⟨hfd.trans hif.1, hread hif.2⟩

structure Attentive (N : Network κ ι) : Prop where
  sorted : ∀ rv ready, N.place = .looping rv ready → ready.Pairwise (· < ·)
  ready : ∀ rv ready, N.place = .looping rv ready → ∀ fd ∈ ready, ∃ k, N.IsReady fd k
  /-- In the middle of a packet, the loop is at a connection. -/
  midway : ∀ ready, N.place = .looping true ready → ∃ fd rest, ready = fd :: rest ∧ fd ≠ N.server.listenfd

theorem attentive_selecting (h : N.place = .selecting) : Attentive N := by
  refine ⟨fun rv ready hplace => ?_, fun rv ready hplace => ?_, fun ready hplace => ?_⟩ <;>
    rw [h] at hplace <;> cases hplace

theorem Attentive.stays (h : Attentive N) (hplace : N'.place = N.place)
    (hlisten : N'.server.listenfd = N.server.listenfd) (hready : ∀ k, StillReady N N' k) : Attentive N' := by
  refine ⟨fun rv ready hp => h.sorted rv ready (hplace ▸ hp), fun rv ready hp fd hfd => ?_, fun ready hp => ?_⟩
  · obtain ⟨k, hk⟩ := h.ready rv ready (hplace ▸ hp) fd hfd
    exact ⟨k, hready k fd hk⟩
  · rw [hlisten]
    exact h.midway ready (hplace ▸ hp)

/-- The loop comes to the next descriptor. `k` is the connection that it was at. -/
theorem Attentive.next (h : Attentive N) {rv : Bool} {rest : List Nat}
    (hplace : N.place = .looping rv (fd :: rest)) (hplace' : N'.place = .looping false rest)
    (hothers : ∀ j, j ≠ k → StillReady N N' j) (hk : ∀ fd', fd' ≠ fd → ¬ N.IsReady fd' k) : Attentive N' := by
  have hsorted := List.pairwise_cons.1 (h.sorted rv _ hplace)
  refine ⟨fun rv' ready hp => ?_, fun rv' ready hp fd' hfd' => ?_, fun ready hp => ?_⟩ <;>
    rw [hplace'] at hp <;> cases hp
  · exact hsorted.2
  · obtain ⟨j, hj⟩ := h.ready rv _ hplace fd' (List.mem_cons_of_mem fd hfd')
    have hjk : j ≠ k := by
      rintro rfl
      exact hk fd' (Nat.ne_of_gt (hsorted.1 fd' hfd')) hj
    exact ⟨j, hothers j hjk fd' hj⟩

theorem Attentive.reading (h : Attentive N) {rv : Bool} {rest : List Nat}
    (hplace : N.place = .looping rv (fd :: rest)) (hplace' : N'.place = .looping true (fd :: rest))
    (hlisten : N'.server.listenfd = N.server.listenfd) (hfd : fd ≠ N.server.listenfd)
    (hothers : ∀ j, j ≠ k → StillReady N N' j) (hk : ∀ fd', fd' ≠ fd → ¬ N.IsReady fd' k)
    (hready : N'.IsReady fd k) : Attentive N' := by
  refine ⟨fun rv' ready hp => ?_, fun rv' ready hp fd' hfd' => ?_, fun ready hp => ?_⟩ <;>
    rw [hplace'] at hp <;> cases hp
  · exact h.sorted rv _ hplace
  · by_cases he : fd' = fd
    · exact ⟨k, he ▸ hready⟩
    · obtain ⟨j, hj⟩ := h.ready rv _ hplace fd' hfd'
      have hjk : j ≠ k := by
        rintro rfl
        exact hk fd' he hj
      exact ⟨j, hothers j hjk fd' hj⟩
  · exact ⟨fd, rest, rfl, hlisten ▸ hfd⟩

/-- A connection is ready at its own descriptor alone. -/
theorem not_isReady_other {x : Link ι} (hx : N.links k = some x) (hfd : x.fd = some fd) :
    ∀ fd', fd' ≠ fd → ¬ N.IsReady fd' k := by
  intro fd' hne hready
  obtain ⟨x', hx', hif⟩ := isReady_iff.1 hready
  obtain rfl := Option.some_inj.1 (hx.symm.trans hx')
  split at hif
  · rw [hif.1] at hfd
    cases hfd
  · exact hne (Option.some_inj.1 (hif.1.symm.trans hfd))

theorem not_isReady_pending {x : Link ι} (hx : N.links k = some x) (hp : x.Pending) :
    ∀ fd', fd' ≠ N.server.listenfd → ¬ N.IsReady fd' k := by
  intro fd' hne hready
  obtain ⟨x', hx', hif⟩ := isReady_iff.1 hready
  obtain rfl := Option.some_inj.1 (hx.symm.trans hx')
  rw [if_neg hne, hp.1] at hif
  cases hif.1

theorem stillReady_advance {s : MyServer} (hlisten : s.listenfd = N.server.listenfd) :
    StillReady N (N.advance s) k :=
  stillReady_of hlisten fun _ hx => ⟨_, congrArg (Option.map _) hx, rfl, rfl, id⟩

theorem Shows.serves (h : Shows N S) (hcons : S.Consistent) {x : Link ι} {y : Conn ι}
    (hx : N.links k = some x) (hfd : x.fd = some fd) (hy : S.conns k = some y) {c : ClientInServer}
    (hc : N.server.clients[fd]? = some (some c)) {p : Bytes} {qs : List Bytes} (hup : y.up = p :: qs)
    (tail : Bytes) (now : Now) : ∃ s, N.server.step (.packet fd p tail now) = (s, none) := by
  obtain ⟨y', c', hy', hxy, hmem, -⟩ := h.entry hcons hx hfd
  obtain rfl := Option.some_inj.1 (hy.symm.trans hy')
  obtain ⟨asked, news, hlinked⟩ := hcons.linked k y hy
  have hopen : y.closed = false := by
    refine Bool.eq_false_iff.2 fun hclosed => ?_
    have hnone := hxy.fd.trans hfd
    rw [hlinked.shut hclosed] at hnone
    cases hnone
  obtain ⟨q, rest, rfl, -, -⟩ := (hup ▸ hlinked.up hopen).oldest
  obtain ⟨s', ops, hs', -⟩ := receive_refines hcons.books hmem q tail now
  have hfault := (receive_anew hc q.bytes tail now).1
  rw [← h.server] at hfault
  have hnone : (N.server.receive fd q.bytes tail now).2 = none :=
    hfault.symm.trans (congrArg Prod.snd hs')
  exact ⟨_, Prod.ext rfl hnone⟩

variable [DecidableEq κ]

theorem stillReady_setLink (hlisten : N'.server.listenfd = N.server.listenfd)
    {x : Link ι} (hlinks : N'.links = Function.update N.links k (some x)) (hj : j ≠ k) :
    StillReady N N' j :=
  stillReady_of hlisten fun z hz => ⟨z, by rw [hlinks, Function.update_of_ne hj, hz], rfl, rfl, id⟩

/-- A client's own steps take nothing from what there is to read. -/
theorem stillReady_client {x x' : Link ι} (hx : N.links k = some x) (hfd : x'.fd = x.fd)
    (hclosed : x'.closed = x.closed) (hread : x.Readable → x'.Readable) :
    StillReady N (N.setLink k x') j := by
  by_cases hj : j = k
  · subst hj
    refine stillReady_of rfl fun z hz => ?_
    obtain rfl := Option.some_inj.1 (hx.symm.trans hz)
    exact ⟨x', Function.update_self .., hfd, hclosed, hread⟩
  · exact stillReady_setLink rfl rfl hj

/-! ## Behind a `read` of the server -/

/-- What the loop does behind a `read` on `fd`, for the connection `k`: it stays there, or it has handled
a packet, or kept the connection for its next visit, or closed it. -/
inductive ReadMoves (N : Network κ ι) (k : κ) (x : Link ι) (fd : Nat) (rest : List Nat) :
    Flow → Network κ ι → Prop
  | going {r : TCPReceiver} {s : Socket} {l : Line} {ps : List Bytes} (hps : ∀ p ∈ ps, IsPayload p)
      (hr : Brings r l ps) (hne : ps ≠ []) : ReadMoves N k x fd rest (.next r s true)
        ({ N with server := N.server.setReceiver fd r, place := .looping true (fd :: rest) }.setLink k
          { x with up := l })
  | handled {r : TCPReceiver} {s : Socket} {p : Bytes} {l : Line} {t : MyServer}
      (hlisten : t.listenfd = N.server.listenfd) : ReadMoves N k x fd rest (.done ⟨r, s, .complete p⟩)
        (({ N with place := .looping false rest }.setLink k { x with up := l }).advance t)
  | kept {r : TCPReceiver} {s : Socket} {l : Line} : ReadMoves N k x fd rest (.done ⟨r, s, .returned true⟩)
        ({ N with server := N.server.setReceiver fd r, place := .looping false rest }.setLink k
          { x with up := l })
  | closed {r : TCPReceiver} {s : Socket} {l : Line} :
      ReadMoves N k x fd rest (.done ⟨r, s, .returned false⟩)
        ({ N with server := (N.server.setReceiver fd r).closed fd, place := .looping false rest }.setLink k
          { x with fd := none, closed := true, up := l, down := x.down.finish })

theorem receive_listenfd {s s' : MyServer} {i : Nat} {c : ClientInServer} (hc : s.clients[i]? = some (some c))
    {p tail : Bytes} {now : Now} (hs : s.step (.packet i p tail now) = (s', none)) (hbooks : Bookkeeping s.anew) :
    s'.listenfd = s.listenfd := by
  have hmem : i ∈ s.anew.clients := by
    rw [ExtTreeMap.mem_iff_isSome_getElem?, getElem?_anew, hc]
    rfl
  have hkeeps := receive_keeps hbooks hmem p tail now
  rw [(receive_anew hc p tail now).2 s' hs] at hkeeps
  exact hkeeps.listenfd

theorem Shows.readMoves [DecidableEq ι] (h : Shows N S) (hcons : S.Consistent) {x : Link ι}
    (hx : N.links k = some x) (hfd : x.fd = some fd) {rv : Bool} {rest : List Nat} {a : Arrival}
    (ha : x.up.Offers a) {tail : Bytes} {now : Now} {flow : Flow} (hflow : N.nextRead fd rv a = some flow)
    (hstep : N.afterRead k x fd rest a tail now flow = some N') : ReadMoves N k x fd rest flow N' := by
  obtain ⟨y, c, hy, hxy, hmem, hc⟩ := h.entry hcons hx hfd
  have hread := (hxy.up fd c hfd hc).readOnce hxy.payloads ha rv
  rw [nextRead, clientAt_of_mem hc, Option.map_some, Option.some_inj] at hflow
  rw [hflow] at hread
  cases hread with
  | going ha' hr =>
    cases hstep
    have hbytes : x.up.bytes ≠ [] := by
      intro hnil
      cases a with
      | data b bs =>
        have hpre : b :: bs <+: x.up.bytes := ha
        rw [hnil, List.prefix_nil] at hpre
        cases hpre
      | eof => exact ha' rfl
      | error => exact ha' rfl
    exact .going hxy.payloads hr ((hxy.up fd c hfd hc).ne_nil hbytes)
  | @complete r left p qs ha' hps hr =>
    simp only [afterRead] at hstep
    split at hstep
    · next s hs =>
      obtain ⟨-, hstep⟩ := Option.ite_none_right_eq_some.1 hstep
      cases hstep
      have hbooks : Bookkeeping (N.server.setReceiver fd r).anew := by
        rw [anew_setReceiver, ← h.server]
        exact hcons.books
      have hlisten : s.listenfd = (N.server.setReceiver fd r).listenfd :=
        receive_listenfd (clients_setReceiver hc r) hs hbooks
      exact .handled hlisten
    · cases hstep
  | @ended r left ha' hr =>
    cases rv with
    | true =>
      cases hstep
      exact .kept
    | false =>
      have hclose : (N.server.setReceiver fd r).step (.close fd) = ((N.server.setReceiver fd r).closed fd, none) :=
        closeClient_eq (clients_setReceiver hc r)
      simp only [afterRead, hclose] at hstep
      cases hstep
      exact .closed

/-- **The loop after a `read`** has something to do as before. -/
theorem Attentive.read (h : Attentive N) {x : Link ι} (hx : N.links k = some x) (hfd : x.fd = some fd)
    (hlisten : fd ≠ N.server.listenfd) {rv : Bool} {rest : List Nat}
    (hplace : N.place = .looping rv (fd :: rest)) {flow : Flow} (hmoves : ReadMoves N k x fd rest flow N') :
    Attentive N' := by
  have hk := not_isReady_other hx hfd
  cases hmoves with
  | @going r s l ps hps hr hne =>
    refine h.reading hplace rfl rfl hlisten (fun j hj => stillReady_setLink rfl rfl hj) hk ?_
    refine isReady_of (x := { x with up := l }) (Function.update_self ..) hfd hlisten ?_
    by_cases hopen : l.ended = false
    · exact Or.inl fun hbytes => hne (hr.eq_nil hps hopen hbytes)
    · exact Or.inr ((Bool.not_eq_false _).mp hopen)
  | @handled r s p l t hserver =>
    refine h.next hplace rfl (fun j hj fd' hready => ?_) hk
    have hread : StillReady N ({ N with place := .looping false rest }.setLink k { x with up := l }) j :=
      stillReady_setLink rfl rfl hj
    exact stillReady_advance (N := { N with place := .looping false rest }.setLink k { x with up := l })
      hserver fd' (hread fd' hready)
  | kept => exact h.next hplace rfl (fun j hj => stillReady_setLink rfl rfl hj) hk
  | closed => exact h.next hplace rfl (fun j hj => stillReady_setLink rfl rfl hj) hk

/-! ## No `read` ends in a fault -/

/-- Whatever the server's `read` finds, the loop goes on, unless a message would be too long to send. -/
theorem Shows.goesOn (h : Shows N S) (hcons : S.Consistent) {x : Link ι} (hx : N.links k = some x)
    (hfd : x.fd = some fd) (rv : Bool) (rest : List Nat) {a : Arrival} (ha : x.up.Offers a) (tail : Bytes)
    (now : Now) : ∃ flow, N.nextRead fd rv a = some flow ∧
      ((N.afterRead k x fd rest a tail now flow).isSome ∨ ∃ p, packetOf flow = [p] ∧
        ∃ m ∈ (N.server.step (.packet fd p tail now)).1.sent.drop N.server.sent.length,
          2 ^ 31 ≤ m.2.length) := by
  obtain ⟨y, c, hy, hxy, -, hc⟩ := h.entry hcons hx hfd
  have hread := (hxy.up fd c hfd hc).readOnce hxy.payloads ha rv
  have hnext : N.nextRead fd rv a = some (c.r.readOnce (fun _ => false) { arrivals := [a] } rv) := by
    rw [nextRead, clientAt_of_mem hc]
    rfl
  refine ⟨_, hnext, ?_⟩
  generalize c.r.readOnce (fun _ => false) { arrivals := [a] } rv = flow at hread ⊢
  cases hread with
  | going ha' hr => exact Or.inl rfl
  | @complete r left p qs ha' hps hr =>
    obtain ⟨s, hs⟩ := h.serves hcons hx hfd hy hc hps tail now
    have hc' := clients_setReceiver hc r
    -- the receiver makes no difference
    have hanew : (N.server.setReceiver fd r).anew.receive fd p tail now = (s.anew, none) := by
      rw [anew_setReceiver]
      exact (receive_anew hc p tail now).2 s hs
    obtain ⟨hfault, hsame⟩ := receive_anew hc' p tail now
    rw [hanew] at hfault
    have hs' : (N.server.setReceiver fd r).step (.packet fd p tail now) =
        (((N.server.setReceiver fd r).receive fd p tail now).1, none) := Prod.ext rfl hfault.symm
    have hsent : ((N.server.setReceiver fd r).receive fd p tail now).1.sent = s.sent :=
      congrArg (fun o => MyServer.sent (Prod.fst o)) ((hsame _ hs').symm.trans hanew)
    by_cases hsends : ∀ m ∈ s.sent.drop N.server.sent.length, m.2.length < 2 ^ 31
    · refine Or.inl ?_
      simp only [afterRead, hs', hsent]
      rw [if_pos hsends]
      rfl
    · refine Or.inr ⟨p, rfl, ?_⟩
      rw [hs]
      simpa using hsends
  | @ended r left ha' hr =>
    cases rv with
    | true => exact Or.inl rfl
    | false =>
      have hclose : (N.server.setReceiver fd r).step (.close fd) = ((N.server.setReceiver fd r).closed fd, none) :=
        closeClient_eq (clients_setReceiver hc r)
      refine Or.inl ?_
      simp only [afterRead, hclose]
      rfl

/-! ## Steps -/

variable [DecidableEq ι]

theorem afterReceive_setLink {x : Link ι} {a : Arrival} {tail : Bytes} {now : Clock} {who : Option ι} {flow : Flow}
    (hstep : N.afterReceive k x a tail now who flow = some N') :
    ∃ x', N' = N.setLink k x' ∧ x'.fd = x.fd ∧ x'.closed = x.closed ∧ x'.up = x.up := by
  unfold afterReceive at hstep
  split at hstep
  · cases hstep
    exact ⟨_, rfl, rfl, rfl, rfl⟩
  · obtain ⟨proc, -, rfl⟩ := Option.map_eq_some_iff.1 hstep
    exact ⟨_, rfl, rfl, rfl, rfl⟩
  · cases hstep
    exact ⟨_, rfl, rfl, rfl, rfl⟩
  · obtain ⟨proc, -, rfl⟩ := Option.map_eq_some_iff.1 hstep
    exact ⟨_, rfl, rfl, rfl, rfl⟩
  · cases hstep
  · cases hstep

theorem attentive_step (hcons : S.Consistent) (h : Shows N S) (ha : Attentive N) {a : Act κ ι}
    (hstep : N.step a = some N') : Attentive N' := by
  cases a with
  | connect k =>
    simp only [step] at hstep
    split at hstep
    · next hk =>
      cases hstep
      refine ha.stays rfl rfl fun j => stillReady_of rfl fun z hz => ⟨z, ?_, rfl, rfl, id⟩
      have hj : j ≠ k := by
        rintro rfl
        rw [hk] at hz
        cases hz
      exact (Function.update_of_ne hj _ _).trans hz
    · cases hstep
  | thread k a =>
    obtain ⟨x, hx, hstep⟩ := Option.bind_eq_some_iff.1 hstep
    obtain ⟨-, hstep⟩ := Option.ite_none_right_eq_some.1 hstep
    obtain ⟨proc, -, rfl⟩ := Option.map_eq_some_iff.1 hstep
    refine ha.stays rfl rfl fun j => stillReady_client hx rfl rfl fun hread => ?_
    split
    · exact Or.inr rfl
    · exact hread
  | subscribe k n field =>
    obtain ⟨x, hx, hstep⟩ := Option.bind_eq_some_iff.1 hstep
    obtain ⟨-, hstep⟩ := Option.ite_none_right_eq_some.1 hstep
    obtain ⟨proc, -, rfl⟩ := Option.map_eq_some_iff.1 hstep
    exact ha.stays rfl rfl fun j => stillReady_client hx rfl rfl fun hread => readable_send hread proc
  | publish k n t =>
    obtain ⟨x, hx, hstep⟩ := Option.bind_eq_some_iff.1 hstep
    obtain ⟨-, hstep⟩ := Option.ite_none_right_eq_some.1 hstep
    cases hstep
    exact ha.stays rfl rfl fun j => stillReady_client hx rfl rfl fun hread => readable_send hread x.proc
  | clearServer k =>
    obtain ⟨x, hx, rfl⟩ := Option.map_eq_some_iff.1 hstep
    exact ha.stays rfl rfl fun j => stillReady_client hx rfl rfl fun hread => readable_send hread x.proc
  | hang k =>
    obtain ⟨x, hx, rfl⟩ := Option.map_eq_some_iff.1 hstep
    exact ha.stays rfl rfl fun j => stillReady_client hx rfl rfl fun _ => Or.inr rfl
  | select ready =>
    obtain ⟨⟨-, -, hsorted, hall⟩, hstep⟩ := Option.ite_none_right_eq_some.1 hstep
    cases hstep
    refine ⟨fun rv l hp => ?_, fun rv l hp fd hfd => ?_, fun l hp => ?_⟩ <;> cases hp
    · exact hsorted
    · obtain ⟨r, hr, rfl⟩ := List.mem_map.1 hfd
      exact ⟨r.2, (hall r hr).2⟩
  | accept k fd =>
    obtain ⟨x, hx, hstep⟩ := Option.bind_eq_some_iff.1 hstep
    split at hstep
    · next i rest hplace =>
      obtain ⟨⟨hi, hpending, -⟩, hstep⟩ := Option.ite_none_right_eq_some.1 hstep
      cases hstep
      exact ha.next hplace rfl (fun j hj => stillReady_setLink rfl rfl hj) fun fd' hne =>
        not_isReady_pending hx hpending fd' (hi ▸ hne)
    · cases hstep
  | read k a tail now =>
    obtain ⟨x, hx, hstep⟩ := Option.bind_eq_some_iff.1 hstep
    split at hstep
    · next rv fd rest hplace =>
      obtain ⟨⟨hlisten, hfd, hoffers⟩, hstep⟩ := Option.ite_none_right_eq_some.1 hstep
      obtain ⟨flow, hflow, hstep⟩ := Option.bind_eq_some_iff.1 hstep
      exact ha.read hx hfd hlisten hplace (h.readMoves hcons hx hfd hoffers hflow hstep)
    · cases hstep
  | finish =>
    obtain ⟨-, hstep⟩ := Option.ite_none_right_eq_some.1 hstep
    cases hstep
    exact attentive_selecting rfl
  | receive k a tail now who =>
    obtain ⟨x, hx, hstep⟩ := Option.bind_eq_some_iff.1 hstep
    obtain ⟨-, hstep⟩ := Option.ite_none_right_eq_some.1 hstep
    obtain ⟨x', rfl, hfd, hclosed, hup⟩ := afterReceive_setLink hstep
    refine ha.stays rfl rfl fun j => stillReady_client hx hfd hclosed fun hread => ?_
    rw [Link.Readable, hup]
    exact hread

/-- Whatever a client's `read` finds, its receiver thread goes on. -/
theorem Shows.hears (h : Shows N S) (hcons : S.Consistent) {x : Link ι} (hx : N.links k = some x)
    (hloop : x.proc.receiver = .looping) (hrun : x.proc.c.running = true) {a : Arrival}
    (ha : x.down.Offers a) (tail : Bytes) (now : Clock) :
    ∃ who, (N.afterReceive k x a tail now who (x.nextRead a)).isSome := by
  obtain ⟨y, hy, hxy⟩ := h.linked k x hx
  obtain ⟨asked, news, hlinked⟩ := hcons.linked k y hy
  have hread := hxy.down.readOnce hlinked.payloads ha x.rv
  rw [Link.nextRead]
  generalize x.recv.readOnce (fun _ => false) { arrivals := [a] } x.rv = flow at hread ⊢
  cases hread with
  | going ha' hr => exact ⟨none, rfl⟩
  | @complete r left p qs ha' hps hr =>
    obtain ⟨m, news', rfl, rfl, -⟩ := List.map_eq_cons_iff.1 (hlinked.down.symm.trans hps)
    have hmem : m.1 ∈ x.proc.c.topics := by
      rw [← hxy.proc]
      exact MyClient.mem_topics.2 (hlinked.agrees.newsHeld m List.mem_cons_self)
    obtain ⟨c', signal, hc'⟩ := process_news hmem (hlinked.sendable m List.mem_cons_self) tail now
    obtain ⟨who, hwho⟩ := Process.receives_isSome hloop hrun hc'
    exact ⟨who, by simpa [afterReceive] using hwho⟩
  | @ended r left ha' hr =>
    cases hrv : x.rv with
    | true => exact ⟨none, rfl⟩
    | false =>
      refine ⟨none, ?_⟩
      simp only [afterReceive, Process.step, hloop, hrun, and_self, if_true]
      rfl

end

variable [DecidableEq κ]

/-! ## What is left of the loop -/

/-! ## Runs -/

variable [DecidableEq ι]

theorem attentive_reachable {listenfd : Nat} {others : FdSet} {now : Now} {as : List (Act κ ι)}
    {N : Network κ ι} (hrun : Run.exec step (start listenfd others now) as = some N) :
    ∃ S, S.Consistent ∧ Shows N S ∧ Attentive N := by
  refine Run.invariant (I := fun N => ∃ S, S.Consistent ∧ Shows N S ∧ Attentive N) ?_
    ⟨_, System.consistent_start listenfd others now, shows_start listenfd others now,
      attentive_selecting rfl⟩ hrun
  rintro N a N' ⟨S, hcons, h, ha⟩ hstep
  obtain ⟨S', hS', h'⟩ := shows_step hcons h hstep
  exact ⟨S', consistent_exec hcons hS', h', attentive_step hcons h ha hstep⟩

/-- **The server never waits in vain.** In every reachable state, wherever its loop is: at its end, it can
return to `select`; at the listening socket, a connection is pending, and is accepted with any descriptor
the system may give it; at a connection, there are bytes to read or its end, and whatever the `read` finds,
the step goes through, without a fault and with the client found in `clients`; unless a message that it
is to send would have 2^31 bytes or more. -/
theorem server_progress (listenfd : Nat) (others : FdSet) (now : Now) (as : List (Act κ ι))
    (N : Network κ ι) (hrun : Run.exec step (start listenfd others now) as = some N) (rv : Bool)
    (ready : List Nat) (hplace : N.place = .looping rv ready) :
    (ready = [] → (N.step .finish).isSome) ∧
    (∀ fd rest, ready = fd :: rest → fd = N.server.listenfd →
      ∃ k, ∀ i, N.server.Enabled (.accept i) → (N.step (.accept k i)).isSome) ∧
    (∀ fd rest, ready = fd :: rest → fd ≠ N.server.listenfd →
      ∃ k x, N.links k = some x ∧ x.fd = some fd ∧ x.Readable ∧
        ∀ a, x.up.Offers a → ∀ tail now, (N.step (.read k a tail now)).isSome ∨
          ∃ flow p, N.nextRead fd rv a = some flow ∧ packetOf flow = [p] ∧
            ∃ m ∈ (N.server.step (.packet fd p tail now)).1.sent.drop N.server.sent.length,
              2 ^ 31 ≤ m.2.length) := by
  obtain ⟨S, hcons, h, ha⟩ := attentive_reachable hrun
  have hrv : ∀ {fd rest}, ready = fd :: rest → fd = N.server.listenfd → rv = false := by
    intro fd rest hready hfd
    refine Bool.eq_false_iff.2 fun htrue => ?_
    subst htrue
    obtain ⟨fd', rest', hready', hne⟩ := ha.midway ready hplace
    obtain rfl := (List.cons.inj (hready.symm.trans hready')).1
    exact hne hfd
  refine ⟨fun hready => ?_, fun fd rest hready hfd => ?_, fun fd rest hready hfd => ?_⟩
  · have hnot : rv = false := by
      refine Bool.eq_false_iff.2 fun htrue => ?_
      subst htrue
      obtain ⟨fd, rest, hcons', -⟩ := ha.midway ready hplace
      rw [hready] at hcons'
      cases hcons'
    rw [step, if_pos (by rw [hplace, hnot, hready])]
    rfl
  · obtain ⟨k, hk⟩ := ha.ready rv ready hplace fd (by rw [hready]; exact List.mem_cons_self)
    obtain ⟨x, hx, hif⟩ := isReady_iff.1 hk
    rw [if_pos hfd] at hif
    refine ⟨k, fun i hi => ?_⟩
    rw [hrv hready hfd, hready] at hplace
    simp only [step, hx, Option.bind_some, hplace]
    rw [if_pos ⟨hfd, hif, hi⟩]
    rfl
  · obtain ⟨k, hk⟩ := ha.ready rv ready hplace fd (by rw [hready]; exact List.mem_cons_self)
    obtain ⟨x, hx, hif⟩ := isReady_iff.1 hk
    rw [if_neg hfd] at hif
    refine ⟨k, x, hx, hif.1, hif.2, fun a hoffers tail now' => ?_⟩
    obtain ⟨flow, hflow, hor⟩ := h.goesOn hcons hx hif.1 rv rest hoffers tail now'
    rcases hor with hsome | ⟨p, hp, hlong⟩
    · refine Or.inl ?_
      rw [hready] at hplace
      simp only [step, hx, Option.bind_some, hplace]
      rw [if_pos ⟨hfd, hif.1, hoffers⟩, hflow]
      exact hsome
    · exact Or.inr ⟨flow, p, hflow, hp, hlong⟩

/-- In the run `piecemeal` the loop comes to the descriptors 4 and 5; there is something to read on 4. -/
theorem server_progress_piecemeal :
    ∃ N : Network Bool Unit, Run.exec step (start 3 ∅ 0) (piecemeal.take 11) = some N ∧
      N.place = .looping false [4, 5] ∧
      ∃ k x, N.links k = some x ∧ x.fd = some 4 ∧ x.Readable := by
  have hrun : (Run.exec step (start 3 ∅ 0) (piecemeal.take 11)).any (fun N =>
      decide (N.place = .looping false [4, 5]) && decide (N.server.listenfd = 3)) = true := by
    decide +kernel
  obtain ⟨N, hN, hrun⟩ := (Option.any_eq_true _ _).1 hrun
  simp only [Bool.and_eq_true, decide_eq_true_eq] at hrun
  obtain ⟨hplace, hlisten⟩ := hrun
  obtain ⟨-, -, hread⟩ := server_progress 3 ∅ 0 _ N hN false [4, 5] hplace
  obtain ⟨k, x, hx, hfd, hreadable, -⟩ := hread 4 [5] rfl (by rw [hlisten]; decide)
  exact ⟨N, hN, hplace, k, x, hx, hfd, hreadable⟩

/-- **No client faults on what the server sends.** Whatever the `read` of a client's receiver thread finds,
the step goes through. -/
theorem client_progress (listenfd : Nat) (others : FdSet) (now : Now) (as : List (Act κ ι))
    (N : Network κ ι) (hrun : Run.exec step (start listenfd others now) as = some N) (k : κ) (x : Link ι)
    (hx : N.links k = some x) (hloop : x.proc.receiver = .looping) (hrunning : x.proc.c.running = true)
    (a : Arrival) (ha : x.down.Offers a) (tail : Bytes) (time : Clock) :
    ∃ who, (N.step (.receive k a tail time who)).isSome := by
  obtain ⟨S, hcons, h, -⟩ := attentive_reachable hrun
  obtain ⟨who, hwho⟩ := h.hears hcons hx hloop hrunning ha tail time
  refine ⟨who, ?_⟩
  simp only [step, hx, Option.bind_some]
  rw [if_pos ⟨hloop, hrunning, ha⟩]
  exact hwho

/-- In the run `piecemeal` the client has four bytes of its news to read, and reads them. -/
theorem client_progress_piecemeal :
    ∃ (N : Network Bool Unit) (x : Link Unit), Run.exec step (start 3 ∅ 0) (piecemeal.take 18) = some N ∧
      N.links false = some x ∧ x.down.bytes ≠ [] ∧
      ∃ who, (N.step (.receive false (found (x.down.bytes.take 4)) [] 0 who)).isSome := by
  have hrun : (Run.exec step (start 3 ∅ 0) (piecemeal.take 18)).any (fun N => (N.links false).any fun x =>
      decide (x.down.bytes ≠ []) && decide (x.proc.receiver = .looping) && x.proc.c.running &&
        decide (x.down.Offers (found (x.down.bytes.take 4)))) = true := by
    decide +kernel
  obtain ⟨N, hN, hrun⟩ := (Option.any_eq_true _ _).1 hrun
  obtain ⟨x, hx, hrun⟩ := (Option.any_eq_true _ _).1 hrun
  simp only [Bool.and_eq_true, decide_eq_true_eq] at hrun
  obtain ⟨⟨⟨hbytes, hloop⟩, hrunning⟩, hoffers⟩ := hrun
  exact ⟨N, x, hN, hx, hbytes, client_progress 3 ∅ 0 _ N hN false x hx hloop hrunning _ hoffers [] 0⟩

end Network

end DiamondApparatus
