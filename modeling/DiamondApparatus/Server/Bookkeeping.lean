import DiamondApparatus.Lib.Run
import DiamondApparatus.Server.Effects

/-!
# The server's books

`active_fd_set`, `clients`, `subscribers` and `subtopics` are kept in step by hand.

* `Bookkeeping s` : the invariant; `Keeps s s'` : `s'` has it, with the connections of `s`, and was
  reached by sending to these only, nothing of which is a kill message;
* `bookkeeping_new`, `process_keeps`, `bookkeeping_step` : the constructor and every event;
* `bookkeeping_run` : every run. A fault ends the process; the runs here go on after one, so that
  the state it leaves is covered too.
-/

namespace DiamondApparatus
open Lib Std

namespace MyServer

/-- The state after an event that the system lets happen. -/
def advance (s : MyServer) (e : Event) : Option MyServer :=
  if s.Enabled e then some (s.step e).1 else none

structure Bookkeeping (s : MyServer) : Prop where
  active : ∀ fd, (fd ∈ s.activeFdSet ∧ fd ≠ s.listenfd) ↔ fd ∈ s.clients
  held : ∀ fd ∈ s.clients, ∃ c : ClientInServer, s.clients[fd]? = some (some c) ∧ c.fd = fd
  twoWay : ∀ fd n, fd ∈ s.subscribers.entry n ↔ n ∈ s.subtopics.entry fd
  keyed : ∀ fd ∈ s.subtopics, fd ∈ s.clients
  opened : ∀ fd ∈ s.clients, fd ∈ s.openFds
  listening : s.listenfd ∈ s.openFds

theorem Bookkeeping.subscribed {s : MyServer} (h : Bookkeeping s) {fd : Nat} {n : CString}
    (hfd : fd ∈ s.subscribers.entry n) : fd ∈ s.clients :=
  h.keyed fd (SetMap.mem_of_mem_entry ((h.twoWay fd n).1 hfd))

theorem Bookkeeping.fresh {s : MyServer} (h : Bookkeeping s) {fd : Nat} (hfd : fd ∉ s.openFds) :
    fd ∉ s.clients ∧ fd ≠ s.listenfd :=
  ⟨fun hc => hfd (h.opened fd hc), fun he => hfd (he ▸ h.listening)⟩

theorem Bookkeeping.unsubscribed {s : MyServer} (h : Bookkeeping s) {fd : Nat} (hfd : fd ∉ s.clients)
    (n : CString) : fd ∉ s.subscribers.entry n ∧ fd ∉ s.subtopics :=
  ⟨fun hn => hfd (h.subscribed hn), fun hk => hfd (h.keyed fd hk)⟩

/-! ## Talking -/

theorem Bookkeeping.talks {s s' : MyServer} {out : List (Nat × Bytes)} (h : Bookkeeping s)
    (ht : Talks s s' out) : Bookkeeping s' where
  active fd := by rw [ht.activeFdSet, ht.listenfd, ht.clients]; exact h.active fd
  held fd hfd := by rw [ht.clients] at hfd ⊢; exact h.held fd hfd
  twoWay fd n := by rw [ht.entry, ht.subtopics]; exact h.twoWay fd n
  keyed fd hfd := by rw [ht.subtopics] at hfd; rw [ht.clients]; exact h.keyed fd hfd
  opened fd hfd := by rw [ht.clients] at hfd; rw [ht.openFds]; exact h.opened fd hfd
  listening := by rw [ht.listenfd, ht.openFds]; exact h.listening

structure Keeps (s s' : MyServer) : Prop where
  books : Bookkeeping s'
  clients : s'.clients = s.clients
  openFds : s'.openFds = s.openFds
  listenfd : s'.listenfd = s.listenfd
  sent : ∃ out, s'.sent = s.sent ++ out ∧ ∀ x ∈ out, x.1 ∈ s.clients ∧ x.2 ≠ noDataMsg scKillclient

theorem toMessage_ne_kill (t : Topic) (n : CString) : t.toMessage scNotify n ≠ noDataMsg scKillclient := by
  intro h
  have hlen := congrArg List.length h
  rw [length_toMessage, messageSize, noDataMsg, length_be32] at hlen
  omega

theorem relayed_ne_kill (mem : Bytes) (pktsize : Nat) : relayed mem pktsize ≠ noDataMsg scKillclient := by
  intro h
  have hlen := congrArg List.length h
  rw [relayed, List.length_take, List.length_append, length_be32, noDataMsg, length_be32] at hlen
  have hhead := congrArg (List.take 4) h
  rw [relayed, List.take_take, Nat.min_eq_left (by omega)] at hhead
  cases hhead

theorem Bookkeeping.keeps {s : MyServer} (h : Bookkeeping s) : Keeps s s :=
  ⟨h, rfl, rfl, rfl, [], (List.append_nil _).symm, by simp⟩

theorem Keeps.trans {s t u : MyServer} (h : Keeps s t) (h' : Keeps t u) : Keeps s u := by
  obtain ⟨out, hout, hto⟩ := h.sent
  obtain ⟨out', hout', hto'⟩ := h'.sent
  refine ⟨h'.books, h'.clients.trans h.clients, h'.openFds.trans h.openFds,
    h'.listenfd.trans h.listenfd, out ++ out', ?_, ?_⟩
  · rw [hout', hout, List.append_assoc]
  · intro x hx
    rcases List.mem_append.1 hx with hx | hx
    · exact hto x hx
    · exact h.clients ▸ hto' x hx

theorem Bookkeeping.keeps_of_talks {s s' : MyServer} {n : CString} {p : Bytes} (h : Bookkeeping s)
    (ht : Talks s s' (s.toAll n p)) (hp : p ≠ noDataMsg scKillclient) : Keeps s s' := by
  refine ⟨h.talks ht, ht.clients, ht.openFds, ht.listenfd, _, ht.sent, fun x hx => ?_⟩
  obtain ⟨hfd, hmsg⟩ := mem_toAll.1 hx
  exact ⟨h.subscribed hfd, hmsg ▸ hp⟩

theorem Bookkeeping.rebuilds {s s' : MyServer} {n : CString} {d : List Datum} (h : Bookkeeping s)
    (hr : Rebuilds s s' n d) : Keeps s s' :=
  h.keeps_of_talks hr.talks (toMessage_ne_kill _ n)

/-! ## Packets -/

theorem Bookkeeping.joined {s : MyServer} (h : Bookkeeping s) {fd : Nat} (hfd : fd ∈ s.clients)
    (n : CString) : Bookkeeping (s.joined fd n) where
  active := h.active
  held := h.held
  twoWay k m := by
    show k ∈ (s.subscribers.add n fd).entry m ↔ m ∈ (s.subtopics.add fd n).entry k
    rw [SetMap.mem_entry_add, SetMap.mem_entry_add, h.twoWay, and_comm]
  keyed k hk := by
    rcases SetMap.mem_add.1 hk with rfl | hk
    · exact hfd
    · exact h.keyed k hk
  opened := h.opened
  listening := h.listening

theorem subscribe_keeps {s : MyServer} {c : ClientInServer} (h : Bookkeeping s)
    (hc : s.curClient = some c) (hfd : c.fd ∈ s.clients) (n : CString) :
    Keeps s (s.subscribe c.fd n).1 := by
  obtain ⟨s', hs', -, ht⟩ := subscribe_talks hc n
  rw [hs']
  refine ⟨(h.joined hfd n).talks ht, ht.clients, ht.openFds, ht.listenfd, _, ht.sent,
    fun x hx => ?_⟩
  unfold greeting at hx
  split at hx
  · next t _ =>
    rw [List.mem_singleton] at hx
    rw [hx]
    dsimp only
    exact ⟨hfd, toMessage_ne_kill t n⟩
  · simp at hx

theorem publish_keeps {s : MyServer} (h : Bookkeeping s) (mem : Bytes) (pktsize : Nat) :
    Keeps s (s.publish mem pktsize).1 := by
  rw [publish_eq]
  split
  · exact h.keeps
  · next n _ =>
    split
    · exact ⟨h.talks (setTopic_talks s n _), rfl, rfl, rfl, [], (List.append_nil _).symm, by simp⟩
    · have hp := h.keeps_of_talks (published_talks s mem pktsize n) (relayed_ne_kill mem pktsize)
      split
      · exact hp
      · exact hp.trans (hp.books.rebuilds (rebuildTopicsTopic_rebuilds _))

theorem handled_keeps {s : MyServer} {c : ClientInServer} (h : Bookkeeping s)
    (hc : s.curClient = some c) (hfd : c.fd ∈ s.clients) (size : Nat) (mem : Bytes) (now : Now) :
    Keeps (s.counted now) (s.process size mem now).1 := by
  obtain ⟨d, hd⟩ := counted_rebuilds s now
  have hk := h.rebuilds hd
  have hcases := process_handled s size mem now
  generalize s.process size mem now = r at hcases ⊢
  cases hcases with
  | publish msg _ => exact publish_keeps hk.books mem size
  | subscribe msg c' n _ hc' _ =>
    rw [hd.talks.curClient, hc, Option.some_inj] at hc'
    subst hc'
    exact subscribe_keeps hk.books (hd.talks.curClient.trans hc) (hd.talks.clients ▸ hfd) n
  | short | outside | unterminated | other => exact hk.books.keeps
  | kill | clear =>
    obtain ⟨active, held, twoWay, keyed, opened, listening⟩ := hk.books
    exact ⟨⟨active, held, twoWay, keyed, opened, listening⟩, rfl, rfl, rfl, [],
      (List.append_nil _).symm, by simp⟩

theorem process_keeps {s : MyServer} {c : ClientInServer} (h : Bookkeeping s)
    (hc : s.curClient = some c) (hfd : c.fd ∈ s.clients) (size : Nat) (mem : Bytes) (now : Now) :
    Keeps s (s.process size mem now).1 := by
  obtain ⟨d, hd⟩ := counted_rebuilds s now
  exact (h.rebuilds hd).trans (handled_keeps h hc hfd size mem now)

theorem Bookkeeping.setCurClient {s : MyServer} (h : Bookkeeping s) (c : Option ClientInServer) :
    Bookkeeping { s with curClient := c } :=
  ⟨h.active, h.held, h.twoWay, h.keyed, h.opened, h.listening⟩

theorem receive_keeps {s : MyServer} {i : Nat} (h : Bookkeeping s) (hi : i ∈ s.clients)
    (pkt tail : Bytes) (now : Now) : Keeps s (s.receive i pkt tail now).1 := by
  obtain ⟨c, hc, rfl⟩ := h.held i hi
  have hk : Keeps { s with curClient := some c } (s.processFor c pkt tail now).1 :=
    process_keeps (h.setCurClient _) rfl hi _ _ now
  rw [receive_eq hc]
  obtain ⟨books, clients, openFds, listenfd, sent⟩ := hk
  split
  · next s' e heq =>
    rw [heq] at books clients openFds listenfd sent
    exact ⟨books, clients, openFds, listenfd, sent⟩
  · next s' heq =>
    rw [heq] at books clients openFds listenfd sent
    exact ⟨books.setCurClient none, clients, openFds, listenfd, sent⟩

/-! ## Connections -/

theorem Bookkeeping.acceptClient {s : MyServer} (h : Bookkeeping s) {fd : Nat}
    (hfd : fd ∉ s.openFds) : Bookkeeping (s.acceptClient fd) where
  active k := by
    have hne := (h.fresh hfd).2
    show (k ∈ s.activeFdSet.insert fd ∧ k ≠ s.listenfd) ↔ k ∈ s.clients.insert fd _
    rw [ExtTreeSet.mem_insert, ExtTreeMap.mem_insert, ← h.active, LawfulEqCmp.compare_eq_iff_eq]
    constructor
    · rintro ⟨rfl | hk, hl⟩
      · exact Or.inl rfl
      · exact Or.inr ⟨hk, hl⟩
    · rintro (rfl | ⟨hk, hl⟩)
      · exact ⟨Or.inl rfl, hne⟩
      · exact ⟨Or.inr hk, hl⟩
  held k hk := by
    show ∃ c : ClientInServer, (s.clients.insert fd _)[k]? = some (some c) ∧ c.fd = k
    rw [ExtTreeMap.getElem?_insert]
    split
    · next he => exact ⟨_, rfl, LawfulEqCmp.eq_of_compare he⟩
    · next hne =>
      rcases ExtTreeMap.mem_insert.1 hk with he | hk
      · exact absurd he hne
      · exact h.held k hk
  twoWay := h.twoWay
  keyed k hk := ExtTreeMap.mem_insert.2 (Or.inr (h.keyed k hk))
  opened k hk := by
    show k ∈ s.openFds.insert fd
    rw [ExtTreeSet.mem_insert]
    exact (ExtTreeMap.mem_insert.1 hk).imp_right (h.opened k)
  listening := ExtTreeSet.mem_insert.2 (Or.inr h.listening)

def closed (s : MyServer) (i : Nat) : MyServer :=
  { s with openFds := s.openFds.erase i,
           activeFdSet := s.activeFdSet.erase i,
           clients := s.clients.erase i,
           curClient := none }.unsubscribe i

theorem mem_entry_closed {s : MyServer} (h : Bookkeeping s) {i fd : Nat} {n : CString} :
    fd ∈ (s.closed i).subscribers.entry n ↔ fd ∈ s.subscribers.entry n ∧ fd ≠ i := by
  show fd ∈ (s.subscribers.removeAll (s.subtopics.entry i).toList i).entry n ↔ _
  rw [SetMap.mem_entry_removeAll, ExtTreeSet.mem_toList]
  constructor
  · rintro ⟨hfd, hnot⟩
    refine ⟨hfd, ?_⟩
    rintro rfl
    exact hnot ⟨(h.twoWay fd n).1 hfd, rfl⟩
  · rintro ⟨hfd, hne⟩
    exact ⟨hfd, fun hand => hne hand.2⟩

theorem Bookkeeping.closed {s : MyServer} (h : Bookkeeping s) {i : Nat} (hi : i ≠ s.listenfd) :
    Bookkeeping (s.closed i) where
  active k := by
    show (k ∈ s.activeFdSet.erase i ∧ k ≠ s.listenfd) ↔ k ∈ s.clients.erase i
    rw [ExtTreeSet.mem_erase, ExtTreeMap.mem_erase, ← h.active, and_assoc]
  held k hk := by
    show ∃ c : ClientInServer, (s.clients.erase i)[k]? = some (some c) ∧ c.fd = k
    obtain ⟨hne, hk⟩ := ExtTreeMap.mem_erase.1 hk
    rw [ExtTreeMap.getElem?_erase, if_neg hne]
    exact h.held k hk
  twoWay k n := by
    rw [mem_entry_closed h]
    show _ ↔ n ∈ SetMap.entry (s.subtopics.erase i) k
    rw [SetMap.mem_entry_erase, h.twoWay, and_comm]
  keyed k hk := by
    obtain ⟨hne, hk⟩ := ExtTreeMap.mem_erase.1 (show k ∈ s.subtopics.erase i from hk)
    exact ExtTreeMap.mem_erase.2 ⟨hne, h.keyed k hk⟩
  opened k hk := by
    obtain ⟨hne, hk⟩ := ExtTreeMap.mem_erase.1 (show k ∈ s.clients.erase i from hk)
    exact ExtTreeSet.mem_erase.2 ⟨hne, h.opened k hk⟩
  listening := ExtTreeSet.mem_erase.2 ⟨fun he => hi (LawfulEqCmp.eq_of_compare he), h.listening⟩

theorem Bookkeeping.deletetopic {s : MyServer} (h : Bookkeeping s) (n : CString) :
    Bookkeeping (s.deletetopic n) where
  active := h.active
  held := h.held
  twoWay k m := by
    show k ∈ SetMap.entry (s.subscribers.erase n) m ↔
      m ∈ (s.subtopics.removeAll (s.subscribers.entry n).toList n).entry k
    rw [SetMap.mem_entry_erase, SetMap.mem_entry_removeAll, ExtTreeSet.mem_toList, h.twoWay, h.twoWay]
    constructor
    · rintro ⟨hne, hm⟩
      exact ⟨hm, fun hand => hne hand.2⟩
    · rintro ⟨hm, hnot⟩
      refine ⟨?_, hm⟩
      rintro rfl
      exact hnot ⟨hm, rfl⟩
  keyed k hk := by
    rcases (SetMap.mem_removeAll _ _ _ _).1 hk with hk | hk
    · exact h.subscribed (ExtTreeSet.mem_toList.1 hk)
    · exact h.keyed k hk
  opened := h.opened
  listening := h.listening

/-! ## Runs -/

theorem bookkeeping_bare (listenfd : Nat) (others : FdSet) : Bookkeeping (bare listenfd others) where
  active fd := by
    show (fd ∈ (∅ : FdSet).insert listenfd ∧ fd ≠ listenfd) ↔ _
    rw [ExtTreeSet.mem_insert, LawfulEqCmp.compare_eq_iff_eq, eq_comm]
    simp [bare]
  held fd hfd := by simp [bare] at hfd
  twoWay fd n := iff_of_false (SetMap.not_mem_entry_empty n fd) (SetMap.not_mem_entry_empty fd n)
  keyed fd hfd := by simp [bare] at hfd
  opened fd hfd := by simp [bare] at hfd
  listening := ExtTreeSet.mem_insert_self

theorem bookkeeping_new (listenfd : Nat) (others : FdSet) (now : Now) :
    Bookkeeping (new listenfd others now) := by
  rw [new_eq]
  have hversion := (bookkeeping_bare listenfd others).talks (setTopic_talks _ versionName versionTopic)
  have hstats := hversion.rebuilds (rebuildStatsTopic_rebuilds _ now)
  exact (hstats.books.rebuilds (rebuildTopicsTopic_rebuilds _)).books

theorem step_close {s : MyServer} (h : Bookkeeping s) {fd : Nat} (hfd : fd ∈ s.clients) :
    s.step (.close fd) = (s.closed fd, none) := by
  obtain ⟨c, hc, -⟩ := h.held fd hfd
  exact closeClient_eq hc

theorem bookkeeping_step {s : MyServer} {e : Event} (h : Bookkeeping s) (he : s.Enabled e) :
    Bookkeeping (s.step e).1 := by
  cases e with
  | accept fd => exact h.acceptClient he.1
  | packet fd pkt tail now => exact (receive_keeps h ((h.active fd).1 he) pkt tail now).books
  | close fd =>
    rw [step_close h ((h.active fd).1 he)]
    exact h.closed he.2
  | deletetopic n => exact h.deletetopic n

/-- Whatever the event, the server sends to its connections only, and no kill message. -/
theorem step_sent {s : MyServer} {e : Event} (h : Bookkeeping s) (he : s.Enabled e) :
    ∃ out, (s.step e).1.sent = s.sent ++ out ∧
      ∀ x ∈ out, x.1 ∈ s.clients ∧ x.2 ≠ noDataMsg scKillclient := by
  cases e with
  | accept fd => exact ⟨[], (List.append_nil _).symm, by simp⟩
  | packet fd pkt tail now => exact (receive_keeps h ((h.active fd).1 he) pkt tail now).sent
  | close fd =>
    rw [step_close h ((h.active fd).1 he)]
    exact ⟨[], (List.append_nil _).symm, by simp⟩
  | deletetopic n => exact ⟨[], (List.append_nil _).symm, by simp⟩

theorem bookkeeping_run {listenfd : Nat} {others : FdSet} {now : Now} {es : List Event} {s : MyServer}
    (h : Run.exec advance (new listenfd others now) es = some s) : Bookkeeping s := by
  refine Run.invariant (fun s e s' hs hstep => ?_) (bookkeeping_new listenfd others now) h
  obtain ⟨he, hs'⟩ := Option.ite_none_right_eq_some.1 hstep
  rw [← Option.some_inj.1 hs']
  exact bookkeeping_step hs he

/-- **The four containers agree in every reachable state.** So no close leaves a mention of its
descriptor behind, nothing is sent to a closed one, and a new connection starts without
subscriptions, whatever number it gets. -/
theorem bookkeeping_reachable (listenfd : Nat) (others : FdSet) (now : Now) (es : List Event)
    (s : MyServer) (h : Run.exec advance (new listenfd others now) es = some s) :
    (∀ fd, (fd ∈ s.activeFdSet ∧ fd ≠ s.listenfd) ↔ fd ∈ s.clients) ∧
    (∀ fd ∈ s.clients, ∃ c : ClientInServer,
      s.clients[fd]? = some (some c) ∧ c.fd = fd ∧ s.clientAt fd = (s, some c)) ∧
    (∀ fd n, fd ∈ s.subscribers.entry n ↔ n ∈ s.subtopics.entry fd) ∧
    (∀ fd, (∃ n, fd ∈ s.subscribers.entry n) ∨ fd ∈ s.subtopics → fd ∈ s.clients) ∧
    (∀ fd, s.Enabled (.close fd) → ∃ s', s.step (.close fd) = (s', none) ∧ fd ∉ s'.activeFdSet ∧
      fd ∉ s'.clients ∧ fd ∉ s'.subtopics ∧ ∀ n, fd ∉ s'.subscribers.entry n) ∧
    (∀ e, s.Enabled e → ∃ out, (s.step e).1.sent = s.sent ++ out ∧
      ∀ x ∈ out, x.1 ∈ s.clients ∧ x.1 ∈ s.openFds) ∧
    (∀ fd, s.Enabled (.accept fd) → ∀ n, fd ∉ (s.acceptClient fd).subscribers.entry n ∧
      n ∉ (s.acceptClient fd).subtopics.entry fd) := by
  have hb := bookkeeping_run h
  refine ⟨hb.active, ?_, hb.twoWay, ?_, ?_, ?_, ?_⟩
  · intro fd hfd
    obtain ⟨c, hc, hcfd⟩ := hb.held fd hfd
    exact ⟨c, hc, hcfd, clientAt_of_mem hc⟩
  · rintro fd (⟨n, hn⟩ | hk)
    · exact hb.subscribed hn
    · exact hb.keyed fd hk
  · intro fd hfd
    have hclosed := hb.closed hfd.2
    have hgone : fd ∉ (s.closed fd).clients := fun hmem => (ExtTreeMap.mem_erase.1 hmem).1 compare_self
    refine ⟨s.closed fd, step_close hb ((hb.active fd).1 hfd), ?_, hgone, ?_, ?_⟩
    · exact fun hmem => (ExtTreeSet.mem_erase.1 hmem).1 compare_self
    · exact fun hmem => hgone (hclosed.keyed fd hmem)
    · exact fun n hmem => hgone (hclosed.subscribed hmem)
  · intro e he
    obtain ⟨out, hout, hto⟩ := step_sent hb he
    exact ⟨out, hout, fun x hx => ⟨(hto x hx).1, hb.opened x.1 (hto x hx).1⟩⟩
  · intro fd hfd n
    have hnot := (hb.unsubscribed (hb.fresh hfd.1).1 n).1
    exact ⟨hnot, fun hmem => hnot ((hb.twoWay fd n).2 hmem)⟩

/-- A connection that subscribes and closes, and one that gets its number. -/
theorem bookkeeping_reachable_reused :
    ∃ s, Run.exec advance (new 3 ∅ 0)
      [.accept 4, .packet 4 (be32 csSubscribe ++ versionName.mem) [] 7, .close 4, .accept 4] = some s ∧
    (∀ fd, (fd ∈ s.activeFdSet ∧ fd ≠ s.listenfd) ↔ fd ∈ s.clients) ∧
    ∀ fd, (∃ n, fd ∈ s.subscribers.entry n) ∨ fd ∈ s.subtopics → fd ∈ s.clients := by
  have hrun : (Run.exec advance (new 3 ∅ 0) [.accept 4,
      .packet 4 (be32 csSubscribe ++ versionName.mem) [] 7, .close 4, .accept 4]).isSome := by
    decide +kernel
  obtain ⟨s, hs⟩ := Option.isSome_iff_exists.1 hrun
  have hall := bookkeeping_reachable 3 ∅ 0 _ s hs
  exact ⟨s, hs, hall.1, hall.2.2.2.1⟩

end MyServer

end DiamondApparatus
