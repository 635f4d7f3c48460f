import DiamondApparatus.Server.Bookkeeping

/-!
# The server and the receivers of its connections

Each entry of `clients` has a receiver of its own. Nothing but the loop of `TCPServer::update` looks at
it.

* `put` : other contents of `clients` and `curClient`; `process_put` : what `process` does is the same;
* `setReceiver s i r` : the receiver of the entry `i` has become `r`;
* `anew s` : the server with every receiver as it was when the connection was accepted. A packet, an
  accept and a close commute with it (`receive_anew`, `acceptClient_anew`, `closed_anew`).
-/

namespace DiamondApparatus
open Lib Std

namespace MyServer

abbrev Clients := ExtTreeMap Nat (Option ClientInServer) compare

/-! ## What `process` does not look at -/

def put (s : MyServer) (m : Clients) (c : Option ClientInServer) : MyServer :=
  { s with clients := m, curClient := c }

section
variable (s : MyServer) (m : Clients) (c : Option ClientInServer)

theorem sendAll_put (n : CString) (p : Bytes) : (s.put m c).sendAll n p = (s.sendAll n p).put m c := by
  rw [sendAll_eq, sendAll_eq]
  rfl

theorem publishInternal_put (n : CString) (t : Topic) :
    (s.put m c).publishInternal n t = (s.publishInternal n t).put m c :=
  sendAll_put s m c n _

theorem directory_put : (s.put m c).directory = s.directory := by
  have htopics : (s.put m c).topics = s.topics := rfl
  simp only [directory, findOrCreateTopic, htopics]
  cases s.topics[topicsName]? <;> rfl

theorem rebuildTopicsTopic_put : (s.put m c).rebuildTopicsTopic = s.rebuildTopicsTopic.put m c := by
  rw [rebuildTopicsTopic_eq, rebuildTopicsTopic_eq, directory_put, ← publishInternal_put]
  rfl

theorem counted_put (now : Now) : (s.put m c).counted now = (s.counted now).put m c := by
  unfold counted
  rw [rebuildStatsTopic_eq, rebuildStatsTopic_eq, ← publishInternal_put]
  rfl

theorem publish_put (mem : Bytes) (size : Nat) :
    (s.put m c).publish mem size = ((s.publish mem size).1.put m c, (s.publish mem size).2) := by
  rw [publish_eq, publish_eq]
  cases nameOfMsg mem with
  | error e => rfl
  | ok n =>
    have hpublished : (s.put m c).published mem size n = (s.published mem size n).put m c := by
      unfold published
      rw [← sendAll_put]
      rfl
    have hdecoded : (s.put m c).decoded mem n = s.decoded mem n := rfl
    have hcontains : (s.put m c).topics.contains n = s.topics.contains n := rfl
    simp only [hdecoded, hcontains, hpublished, rebuildTopicsTopic_put]
    cases (s.decoded mem n).2 with
    | error e => rfl
    | ok l => cases s.topics.contains n <;> rfl

end

section
variable {s : MyServer} {c c' : ClientInServer}

theorem subscribe_put (hc : s.curClient = some c) (hfd : c'.fd = c.fd) (m : Clients) (n : CString) :
    (s.put m (some c')).subscribe c'.fd n =
      ((s.subscribe c.fd n).1.put m (some c'), (s.subscribe c.fd n).2) := by
  unfold subscribe
  have htopics : (s.put m (some c')).topics = s.topics := rfl
  simp only [htopics, hfd]
  cases s.topics[n]? with
  | none => rfl
  | some t =>
    simp only [respond, put, hc, hfd]
    rfl

/-- **`process` looks at the descriptor of the current connection**, and at no entry of `clients`. -/
theorem process_put (hc : s.curClient = some c) (hfd : c'.fd = c.fd) (m : Clients) (size : Nat)
    (mem : Bytes) (now : Now) : (s.put m (some c')).process size mem now =
      ((s.process size mem now).1.put m (some c'), (s.process size mem now).2) := by
  obtain ⟨d, hd⟩ := counted_rebuilds s now
  have hcur : (s.counted now).curClient = some c := hd.talks.curClient.trans hc
  have hcounted := counted_put s m (some c') now
  unfold counted at hcur hcounted
  unfold process
  dsimp only
  rw [hcounted]
  generalize rebuildStatsTopic _ now = t at hcur ⊢
  cases takeU32 mem with
  | none => rfl
  | some head =>
    obtain ⟨type, msg⟩ := head
    dsimp only
    by_cases hpublish : type = csPublish
    · rw [if_pos hpublish, if_pos hpublish, publish_put]
    rw [if_neg hpublish, if_neg hpublish]
    by_cases hsubscribe : type = csSubscribe
    · simp only [if_pos hsubscribe, hcur, put]
      cases CString.ofMem msg with
      | none => rfl
      | some n => exact subscribe_put hcur hfd m n
    rw [if_neg hsubscribe, if_neg hsubscribe]
    by_cases hkill : type = csKillserver
    · rw [if_pos hkill, if_pos hkill]
      rfl
    rw [if_neg hkill, if_neg hkill]
    by_cases hclear : type = csClearserver
    · rw [if_pos hclear, if_pos hclear]
      rfl
    · rw [if_neg hclear, if_neg hclear]

end

/-! ## The receivers -/

def setReceiver (s : MyServer) (i : Nat) (r : TCPReceiver) : MyServer :=
  { s with clients := s.clients.alter i fun e => e.map (Option.map fun c => { c with r := r }) }

def accepted (fd : Nat) : ClientInServer := { fd := fd, r := { fd := fd } }

def newEntry (e : Option ClientInServer) : Option ClientInServer := e.map fun c => accepted c.fd

def anew (s : MyServer) : MyServer := { s with clients := s.clients.map fun _ e => newEntry e }

section
variable {s : MyServer} {i : Nat} {c : ClientInServer}

theorem getElem?_setReceiver (s : MyServer) (i j : Nat) (r : TCPReceiver) :
    (s.setReceiver i r).clients[j]? =
      if j = i then s.clients[i]?.map (Option.map fun c => { c with r := r }) else s.clients[j]? := by
  show (s.clients.alter i _)[j]? = _
  rw [ExtTreeMap.getElem?_alter]
  simp only [LawfulEqCmp.compare_eq_iff_eq, eq_comm (a := i)]

theorem getElem?_anew (s : MyServer) (i : Nat) : s.anew.clients[i]? = s.clients[i]?.map newEntry :=
  ExtTreeMap.getElem?_map

theorem anew_setReceiver (s : MyServer) (i : Nat) (r : TCPReceiver) : (s.setReceiver i r).anew = s.anew := by
  have hclients : (s.setReceiver i r).anew.clients = s.anew.clients := by
    apply ExtTreeMap.ext_getElem?
    intro j
    rw [getElem?_anew, getElem?_anew, getElem?_setReceiver]
    split
    · next hj =>
      subst hj
      cases s.clients[j]? with
      | none => rfl
      | some e => cases e <;> rfl
    · rfl
  show { s with clients := _ } = { s with clients := _ }
  exact congrArg (fun m => ({ s with clients := m } : MyServer)) hclients

theorem acceptClient_anew (s : MyServer) (fd : Nat) : (s.acceptClient fd).anew = s.anew.acceptClient fd := by
  have hclients : (s.acceptClient fd).anew.clients = (s.anew.acceptClient fd).clients := by
    apply ExtTreeMap.ext_getElem?
    intro j
    show ((s.clients.insert fd _).map _)[j]? = ((s.clients.map _).insert fd _)[j]?
    simp only [ExtTreeMap.getElem?_map, ExtTreeMap.getElem?_insert]
    split <;> rfl
  exact congrArg (fun m => ({ s.acceptClient fd with clients := m } : MyServer)) hclients

theorem closed_anew (s : MyServer) (i : Nat) : (s.closed i).anew = s.anew.closed i := by
  have hclients : (s.closed i).anew.clients = (s.anew.closed i).clients := by
    apply ExtTreeMap.ext_getElem?
    intro j
    show ((s.clients.erase i).map _)[j]? = ((s.clients.map _).erase i)[j]?
    simp only [ExtTreeMap.getElem?_map, ExtTreeMap.getElem?_erase]
    split <;> rfl
  exact congrArg (fun m => ({ s.closed i with clients := m } : MyServer)) hclients

theorem processFor_put (s : MyServer) (c : ClientInServer) (pkt tail : Bytes) (now : Now) :
    (s.processFor c pkt tail now).1 = (s.processFor c pkt tail now).1.put s.clients (some c) :=
  congrArg Prod.fst
    (process_put (s := { s with curClient := some c }) rfl rfl s.clients pkt.length (pkt ++ tail) now)

theorem receive_clients (hc : s.clients[i]? = some (some c)) (pkt tail : Bytes) (now : Now) :
    (s.receive i pkt tail now).1.clients = s.clients := by
  have hput := congrArg MyServer.clients (processFor_put s c pkt tail now)
  rw [receive_eq hc]
  split
  · next heq =>
    rw [heq] at hput
    exact hput
  · next heq =>
    rw [heq] at hput
    exact hput

theorem processFor_anew (s : MyServer) (c : ClientInServer) (pkt tail : Bytes) (now : Now) :
    s.anew.processFor (accepted c.fd) pkt tail now =
      ((s.processFor c pkt tail now).1.put s.anew.clients (some (accepted c.fd)),
        (s.processFor c pkt tail now).2) := by
  have hcur : ({ s with curClient := some c } : MyServer).curClient = some c := rfl
  have hfd : (accepted c.fd).fd = c.fd := rfl
  exact process_put hcur hfd s.anew.clients pkt.length (pkt ++ tail) now

/-- **A packet is handled the same, whatever the receivers are in the middle of.** -/
theorem receive_anew (hc : s.clients[i]? = some (some c)) (pkt tail : Bytes) (now : Now) :
    (s.anew.receive i pkt tail now).2 = (s.receive i pkt tail now).2 ∧
      ∀ s', s.receive i pkt tail now = (s', none) → s.anew.receive i pkt tail now = (s'.anew, none) := by
  have hclients := receive_clients hc pkt tail now
  have hnew : s.anew.clients[i]? = some (some (accepted c.fd)) := by
    rw [getElem?_anew, hc]
    rfl
  rw [receive_eq hc] at hclients ⊢
  rw [receive_eq hnew, processFor_anew]
  generalize s.processFor c pkt tail now = res at hclients ⊢
  obtain ⟨t, fault⟩ := res
  cases fault with
  | some e => exact ⟨rfl, nofun⟩
  | none =>
    refine ⟨rfl, fun s' heq => ?_⟩
    rw [← (Prod.mk.inj heq).1]
    have hsame : t.clients = s.clients := hclients
    exact congrArg (fun m : Clients => ({ t with clients := m.map fun _ e => newEntry e, curClient := none },
      none)) hsame.symm

end

end MyServer

end DiamondApparatus
