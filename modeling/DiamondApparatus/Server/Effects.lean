import DiamondApparatus.Data.RoundTrip
import DiamondApparatus.Lib.Keys
import DiamondApparatus.Server

/-!
# What the server's functions do

One specification a function; nothing below unfolds them again.

* `notes s n t` : the `SC_NOTIFY` messages that tell the subscribers of `n` about the topic `t`;
* `Talks s s' out` : from `s` to `s'` the server sent `out`; it may have set topics, and made empty
  entries in `subscribers`, but what it knows of its connections and their subscriptions is the same;
* `Rebuilds s s' n d` : it set the topic `n` to the items `d`, and told its subscribers;
* `publish_eq`, `subscribe_talks`, `Handled`, `receive_eq`, `closeClient_eq` : what handling a packet
  can do, and one descriptor of the loop.
-/

namespace DiamondApparatus
open Lib Std

namespace MyServer

/-- `p` to every subscriber of `n`. -/
def toAll (s : MyServer) (n : CString) (p : Bytes) : List (Nat × Bytes) :=
  (s.subscribers.entry n).toList.map (·, p)

def notes (s : MyServer) (n : CString) (t : Topic) : List (Nat × Bytes) :=
  s.toAll n (t.toMessage scNotify n)

theorem mem_toAll {s : MyServer} {n : CString} {p : Bytes} {x : Nat × Bytes} :
    x ∈ s.toAll n p ↔ x.1 ∈ s.subscribers.entry n ∧ x.2 = p := by
  obtain ⟨fd, q⟩ := x
  simp [toAll, eq_comm]

/-- The server builds `out` for the subscribers of `n`, every message of a size that an `int` holds. -/
def Builds (s : MyServer) (n : CString) (out : List (Nat × Bytes)) : Prop :=
  ∀ x ∈ out, x.1 ∈ s.subscribers.entry n ∧ x.2.length < 2 ^ 31

theorem builds_notes {t : Topic} {n : CString} (h : IntSized t.d n) (s : MyServer) :
    s.Builds n (s.notes n t) := by
  intro x hx
  obtain ⟨hfd, hmsg⟩ := mem_toAll.1 hx
  refine ⟨hfd, ?_⟩
  rw [hmsg, length_toMessage]
  exact h

/-! ## Talking -/

structure Talks (s s' : MyServer) (out : List (Nat × Bytes)) : Prop where
  listenfd : s'.listenfd = s.listenfd
  activeFdSet : s'.activeFdSet = s.activeFdSet
  clients : s'.clients = s.clients
  openFds : s'.openFds = s.openFds
  curClient : s'.curClient = s.curClient
  serverKill : s'.serverKill = s.serverKill
  subtopics : s'.subtopics = s.subtopics
  entry : ∀ n, s'.subscribers.entry n = s.subscribers.entry n
  sent : s'.sent = s.sent ++ out

theorem Talks.refl (s : MyServer) : Talks s s [] :=
  ⟨rfl, rfl, rfl, rfl, rfl, rfl, rfl, fun _ => rfl, (List.append_nil _).symm⟩

theorem Talks.trans {s t u : MyServer} {out out' : List (Nat × Bytes)} (h : Talks s t out)
    (h' : Talks t u out') : Talks s u (out ++ out') where
  listenfd := h'.listenfd.trans h.listenfd
  activeFdSet := h'.activeFdSet.trans h.activeFdSet
  clients := h'.clients.trans h.clients
  openFds := h'.openFds.trans h.openFds
  curClient := h'.curClient.trans h.curClient
  serverKill := h'.serverKill.trans h.serverKill
  subtopics := h'.subtopics.trans h.subtopics
  entry n := (h'.entry n).trans (h.entry n)
  sent := by rw [h'.sent, h.sent, List.append_assoc]

theorem Talks.toAll {s s' : MyServer} {out : List (Nat × Bytes)} (h : Talks s s' out) (n : CString)
    (p : Bytes) : s'.toAll n p = s.toAll n p := by
  rw [MyServer.toAll, MyServer.toAll, h.entry]

theorem Talks.notes {s s' : MyServer} {out : List (Nat × Bytes)} (h : Talks s s' out) (n : CString)
    (t : Topic) : s'.notes n t = s.notes n t :=
  h.toAll n _

theorem setTopic_talks (s : MyServer) (n : CString) (t : Topic) : Talks s (s.setTopic n t) [] :=
  ⟨rfl, rfl, rfl, rfl, rfl, rfl, rfl, fun _ => rfl, (List.append_nil _).symm⟩

theorem foldl_sendTo (l : List Nat) (s : MyServer) (p : Bytes) :
    l.foldl (fun s i => s.sendTo i p) s =
      { s with sent := s.sent ++ l.map (·, p), msgssent := s.msgssent + l.length } := by
  induction l generalizing s with
  | nil => simp
  | cons i l ih =>
    rw [List.foldl_cons, ih]
    simp [sendTo, Nat.add_comm, Nat.add_left_comm]

theorem sendAll_eq (s : MyServer) (n : CString) (p : Bytes) :
    s.sendAll n p = { s with subscribers := s.subscribers.touch n, sent := s.sent ++ s.toAll n p,
                             msgssent := s.msgssent + (s.subscribers.entry n).toList.length } := by
  simp only [sendAll, foldl_sendTo, SetMap.entry_touch, toAll]

theorem sendAll_talks (s : MyServer) (n : CString) (p : Bytes) :
    Talks s (s.sendAll n p) (s.toAll n p) := by
  rw [sendAll_eq]
  exact ⟨rfl, rfl, rfl, rfl, rfl, rfl, rfl, SetMap.entry_touch s.subscribers n, rfl⟩

@[simp] theorem sendAll_topics (s : MyServer) (n : CString) (p : Bytes) :
    (s.sendAll n p).topics = s.topics := by
  rw [sendAll_eq]

/-! ## Topics -/

theorem insert_insert_topic (m : ExtTreeMap CString Topic CString.cmp) (n : CString) (t t' : Topic) :
    (m.insert n t).insert n t' = m.insert n t' := by
  apply ExtTreeMap.ext_getElem?
  intro k
  simp only [ExtTreeMap.getElem?_insert]
  split <;> rfl

theorem findOrCreateTopic_snd (s : MyServer) (n : CString) :
    (s.findOrCreateTopic n).2 = s.topics.getD n {} := by
  rw [findOrCreateTopic, ExtTreeMap.getD_eq_getD_getElem?]
  split <;> simp_all

theorem setTopic_findOrCreateTopic (s : MyServer) (n : CString) (t : Topic) :
    (s.findOrCreateTopic n).1.setTopic n t = s.setTopic n t := by
  unfold findOrCreateTopic
  split
  · rfl
  · simp [setTopic, insert_insert_topic]

/-- The contents of the 'stats' topic. -/
def statsData (s : MyServer) (now : Now) : List Datum :=
  [.ofNat s.subscribers.size, .ofNat s.msgssent, .ofNat s.msgsrecvd, .float now]

theorem rebuildStatsTopic_eq (s : MyServer) (now : Now) :
    s.rebuildStatsTopic now =
      (s.setTopic statsName { s.topics.getD statsName {} with d := s.statsData now }).publishInternal
        statsName { s.topics.getD statsName {} with d := s.statsData now } := by
  have hsame : (s.findOrCreateTopic statsName).1.statsData now = s.statsData now := by
    unfold findOrCreateTopic
    split <;> rfl
  rw [← setTopic_findOrCreateTopic, ← findOrCreateTopic_snd, ← hsame]
  rfl

theorem foldl_add (l : List CString) (t : Topic) :
    l.foldl (fun t n => t.add (.string n)) t = { t with d := t.d ++ l.map .string } := by
  induction l generalizing t with
  | nil => simp
  | cons n l ih => rw [List.foldl_cons, ih]; simp [Topic.add]

/-- The contents of the 'topics' topic. -/
def directory (s : MyServer) : List Datum :=
  (s.findOrCreateTopic topicsName).1.topics.keys.map .string

/-- The directory lists the names that are stored together with 'topics'. -/
theorem directory_eq {s : MyServer} {m : ExtTreeMap CString Topic CString.cmp}
    (h : ∀ k, k ∈ m ↔ k = topicsName ∨ k ∈ s.topics) : s.directory = m.keys.map .string := by
  have hkeys : ∀ k, k ∈ (s.findOrCreateTopic topicsName).1.topics ↔ k ∈ m := by
    intro k
    rw [h]
    unfold findOrCreateTopic
    split
    · next t ht =>
      refine ⟨Or.inr, fun hk => hk.elim (fun he => ?_) id⟩
      rw [he, ExtTreeMap.mem_iff_isSome_getElem?, ht]
      rfl
    · exact Keys.mem_insert_iff
  rw [directory, Keys.keys_congr hkeys]

theorem rebuildTopicsTopic_eq (s : MyServer) :
    s.rebuildTopicsTopic =
      (s.setTopic topicsName { s.topics.getD topicsName {} with d := s.directory }).publishInternal
        topicsName { s.topics.getD topicsName {} with d := s.directory } := by
  rw [← setTopic_findOrCreateTopic, ← findOrCreateTopic_snd]
  simp only [rebuildTopicsTopic, foldl_add, directory]
  rfl

theorem intSized_stats (s : MyServer) (now : Now) : IntSized (s.statsData now) statsName := by
  have hname : nameLen statsName = 6 := by decide
  simp [IntSized, messageSize, hname, statsData, Datum.ofNat, Datum.size]

/-- The server set the topic `n` to the items `d`, and told all subscribers. -/
structure Rebuilds (s s' : MyServer) (n : CString) (d : List Datum) : Prop where
  talks : Talks s s' (s.notes n { d := d })
  topics : ∃ t : Topic, t.d = d ∧ s'.topics = s.topics.insert n t

theorem publishInternal_rebuilds (s : MyServer) (n : CString) (t : Topic) :
    Rebuilds s ((s.setTopic n t).publishInternal n t) n t.d := by
  constructor
  · exact (setTopic_talks s n t).trans (sendAll_talks (s.setTopic n t) n (t.toMessage scNotify n))
  · exact ⟨t, rfl, sendAll_topics _ _ _⟩

theorem rebuildStatsTopic_rebuilds (s : MyServer) (now : Now) :
    Rebuilds s (s.rebuildStatsTopic now) statsName (s.statsData now) := by
  rw [rebuildStatsTopic_eq]
  exact publishInternal_rebuilds s statsName _

theorem rebuildTopicsTopic_rebuilds (s : MyServer) :
    Rebuilds s s.rebuildTopicsTopic topicsName s.directory := by
  rw [rebuildTopicsTopic_eq]
  exact publishInternal_rebuilds s topicsName _

/-! ## Construction -/

/-- The server before its first topic. -/
def bare (listenfd : Nat) (others : FdSet) : MyServer where
  listenfd := listenfd
  activeFdSet := (∅ : FdSet).insert listenfd
  openFds := others.insert listenfd

def versionTopic : Topic := { d := [.ofString VERSION, .ofString VERSIONNAME] }

theorem new_eq (listenfd : Nat) (others : FdSet) (now : Now) :
    new listenfd others now =
      (((bare listenfd others).setTopic versionName versionTopic).rebuildStatsTopic
        now).rebuildTopicsTopic := by
  have hnone : (bare listenfd others).topics.getD versionName {} = {} := by
    simp [bare]
  rw [← setTopic_findOrCreateTopic]
  have hversion : versionTopic = (((bare listenfd others).findOrCreateTopic versionName).2.add
      (.ofString VERSION)).add (.ofString VERSIONNAME) := by
    rw [findOrCreateTopic_snd, hnone]
    rfl
  rw [hversion]
  rfl

theorem new_talks (listenfd : Nat) (others : FdSet) (now : Now) :
    ∃ out, Talks (bare listenfd others) (new listenfd others now) out := by
  rw [new_eq]
  exact ⟨_, ((setTopic_talks _ versionName versionTopic).trans
    (rebuildStatsTopic_rebuilds _ now).talks).trans (rebuildTopicsTopic_rebuilds _).talks⟩

/-! ## Handling a packet -/

/-- The two containers after `subscribe` has put `fd` and `n` into them. -/
def joined (s : MyServer) (fd : Nat) (n : CString) : MyServer :=
  { s with subscribers := s.subscribers.add n fd, subtopics := s.subtopics.add fd n }

def greeting (s : MyServer) (fd : Nat) (n : CString) : List (Nat × Bytes) :=
  match s.topics[n]? with
  | some t => [(fd, t.toMessage scNotify n)]
  | none => []

theorem subscribe_talks {s : MyServer} {c : ClientInServer} (hc : s.curClient = some c)
    (n : CString) : ∃ s', s.subscribe c.fd n = (s', none) ∧ s'.topics = s.topics ∧
      Talks (s.joined c.fd n) s' (s.greeting c.fd n) := by
  unfold subscribe greeting
  dsimp only
  cases ht : s.topics[n]? with
  | some t =>
    refine ⟨(s.joined c.fd n).sendTo c.fd (t.toMessage scNotify n), ?_, rfl, ?_⟩
    · simp [respond, hc, joined]
    · exact ⟨rfl, rfl, rfl, rfl, rfl, rfl, rfl, fun _ => rfl, rfl⟩
  | none => exact ⟨s.joined c.fd n, rfl, rfl, .refl _⟩

def decoded (s : MyServer) (mem : Bytes) (n : CString) : Topic × Except Fault Loaded :=
  (s.topics.getD n {}).fromMessage mem false

/-- The state of `publish` behind its loop. -/
def published (s : MyServer) (mem : Bytes) (pktsize : Nat) (n : CString) : MyServer :=
  (s.setTopic n (s.decoded mem n).1).sendAll n (relayed mem pktsize)

theorem publish_eq (s : MyServer) (mem : Bytes) (pktsize : Nat) :
    s.publish mem pktsize =
      match nameOfMsg mem with
      | .error e => (s, some e)
      | .ok n =>
        match (s.decoded mem n).2 with
        | .error e => (s.setTopic n (s.decoded mem n).1, some e)
        | .ok _ =>
          (if s.topics.contains n then s.published mem pktsize n
            else (s.published mem pktsize n).rebuildTopicsTopic, none) := by
  unfold publish
  cases nameOfMsg mem with
  | error e => rfl
  | ok n =>
    simp only [findOrCreateTopic_snd, setTopic_findOrCreateTopic, decoded, published]
    cases ((s.topics.getD n {}).fromMessage mem false).2 with
    | error e => rfl
    | ok l => cases s.topics.contains n <;> rfl

theorem publish_ok {s : MyServer} {mem : Bytes} {n : CString} {l : Loaded}
    (hname : nameOfMsg mem = .ok n) (hdec : (s.decoded mem n).2 = .ok l) (pktsize : Nat) :
    s.publish mem pktsize =
      (if s.topics.contains n then s.published mem pktsize n
        else (s.published mem pktsize n).rebuildTopicsTopic, none) := by
  rw [publish_eq, hname]
  dsimp only
  rw [hdec]

theorem published_talks (s : MyServer) (mem : Bytes) (pktsize : Nat) (n : CString) :
    Talks s (s.published mem pktsize n) (s.toAll n (relayed mem pktsize)) :=
  (setTopic_talks s n _).trans (sendAll_talks _ n _)

theorem published_topics (s : MyServer) (mem : Bytes) (pktsize : Nat) (n : CString) :
    (s.published mem pktsize n).topics = s.topics.insert n (s.decoded mem n).1 :=
  sendAll_topics _ _ _

/-- `publish` of a packet that can be decoded: the directory is rebuilt when the name is new. -/
theorem publish_cases {s : MyServer} {mem : Bytes} {n : CString} {l : Loaded}
    (hname : nameOfMsg mem = .ok n) (hdec : (s.decoded mem n).2 = .ok l) (pktsize : Nat) :
    ∃ s', s.publish mem pktsize = (s', none) ∧
      ((n ∈ s.topics ∧ Talks s s' (s.toAll n (relayed mem pktsize)) ∧
        s'.topics = s.topics.insert n (s.decoded mem n).1) ∨
      (n ∉ s.topics ∧ ∃ t : Topic, t.d = (s.published mem pktsize n).directory ∧
        Talks s s' (s.toAll n (relayed mem pktsize) ++ s.notes topicsName { d := t.d }) ∧
        s'.topics = (s.topics.insert n (s.decoded mem n).1).insert topicsName t)) := by
  have hp := published_talks s mem pktsize n
  have htopics := published_topics s mem pktsize n
  rw [publish_ok hname hdec]
  by_cases hold : n ∈ s.topics
  · rw [if_pos (by simpa using hold)]
    exact ⟨_, rfl, Or.inl ⟨hold, hp, htopics⟩⟩
  · rw [if_neg (by simpa using hold)]
    have hre := rebuildTopicsTopic_rebuilds (s.published mem pktsize n)
    obtain ⟨t, ht, hto⟩ := hre.topics
    refine ⟨_, rfl, Or.inr ⟨hold, t, ht, ?_, ?_⟩⟩
    · rw [ht, ← hp.notes]
      exact hp.trans hre.talks
    · rw [hto, htopics]

/-- The state in which `process` looks at the type of the packet. -/
def counted (s : MyServer) (now : Now) : MyServer :=
  { s with msgsrecvd := s.msgsrecvd + 1 }.rebuildStatsTopic now

theorem counted_stats (s : MyServer) (now : Now) :
    Rebuilds s (s.counted now) statsName (statsData { s with msgsrecvd := s.msgsrecvd + 1 } now) := by
  obtain ⟨h, ht⟩ := rebuildStatsTopic_rebuilds { s with msgsrecvd := s.msgsrecvd + 1 } now
  exact ⟨⟨h.listenfd, h.activeFdSet, h.clients, h.openFds, h.curClient, h.serverKill, h.subtopics,
    h.entry, h.sent⟩, ht⟩

theorem counted_rebuilds (s : MyServer) (now : Now) :
    ∃ d, Rebuilds s (s.counted now) statsName d :=
  ⟨_, counted_stats s now⟩

/-- What `process` can do, once the statistics are out. -/
inductive Handled (s : MyServer) (size : Nat) (mem : Bytes) : MyServer × Option Fault → Prop
  | short : takeU32 mem = none → Handled s size mem (s, some .outOfBounds)
  | publish (msg : Bytes) : takeU32 mem = some (csPublish, msg) →
      Handled s size mem (s.publish mem size)
  | outside (msg : Bytes) (e : Fault) : takeU32 mem = some (csSubscribe, msg) →
      s.curClient = none → Handled s size mem (s, some e)
  | unterminated (msg : Bytes) : takeU32 mem = some (csSubscribe, msg) →
      CString.ofMem msg = none → Handled s size mem (s, some .outOfBounds)
  | subscribe (msg : Bytes) (c : ClientInServer) (n : CString) :
      takeU32 mem = some (csSubscribe, msg) → s.curClient = some c → CString.ofMem msg = some n →
      Handled s size mem (s.subscribe c.fd n)
  | kill (msg : Bytes) : takeU32 mem = some (csKillserver, msg) →
      Handled s size mem ({ s with serverKill := true }, none)
  | clear (msg : Bytes) : takeU32 mem = some (csClearserver, msg) →
      Handled s size mem ({ s with topics := ∅ }, none)
  | other (type : UInt32) (msg : Bytes) : takeU32 mem = some (type, msg) → type ≠ csPublish →
      type ≠ csSubscribe → type ≠ csKillserver → type ≠ csClearserver →
      Handled s size mem (s, none)

theorem process_handled (s : MyServer) (size : Nat) (mem : Bytes) (now : Now) :
    Handled (s.counted now) size mem (s.process size mem now) := by
  unfold process counted
  dsimp only
  generalize rebuildStatsTopic _ now = s
  split
  · next h => exact .short h
  · next type msg h =>
    split
    · next hp => exact .publish msg (hp ▸ h)
    split
    · next hs =>
      split
      · next hc => exact .outside msg _ (hs ▸ h) hc
      · next c hc =>
        split
        · next hn => exact .unterminated msg (hs ▸ h) hn
        · next n hn => exact .subscribe msg c n (hs ▸ h) hc hn
    split
    · next hk => exact .kill msg (hk ▸ h)
    split
    · next hk => exact .clear msg (hk ▸ h)
    · exact .other type msg h ‹_› ‹_› ‹_› ‹_›

theorem process_publish {mem msg : Bytes} (h : takeU32 mem = some (csPublish, msg)) (s : MyServer)
    (size : Nat) (now : Now) : s.process size mem now = (s.counted now).publish mem size := by
  simp only [process, h, if_true]
  rfl

theorem process_subscribe {s : MyServer} {c : ClientInServer} (hc : s.curClient = some c)
    {mem msg : Bytes} (h : takeU32 mem = some (csSubscribe, msg)) {n : CString}
    (hn : CString.ofMem msg = some n) (size : Nat) (now : Now) :
    s.process size mem now = (s.counted now).subscribe c.fd n := by
  obtain ⟨d, hd⟩ := counted_rebuilds s now
  have hcur : (s.counted now).curClient = some c := hd.talks.curClient.trans hc
  have hne : csSubscribe ≠ csPublish := by decide
  unfold counted at hcur ⊢
  simp only [process, h, if_neg hne, if_true, hcur, hn]

theorem process_clearserver {mem msg : Bytes} (h : takeU32 mem = some (csClearserver, msg))
    (s : MyServer) (size : Nat) (now : Now) :
    s.process size mem now = ({ s.counted now with topics := ∅ }, none) := by
  have hpub : csClearserver ≠ csPublish := by decide
  have hsub : csClearserver ≠ csSubscribe := by decide
  have hkill : csClearserver ≠ csKillserver := by decide
  simp only [process, h, if_neg hpub, if_neg hsub, if_neg hkill, if_true]
  rfl

theorem process_unknown {mem msg : Bytes} {type : UInt32} (h : takeU32 mem = some (type, msg))
    (htype : type ∉ [csPublish, csSubscribe, csKillserver, csClearserver]) (s : MyServer)
    (size : Nat) (now : Now) : s.process size mem now = (s.counted now, none) := by
  simp only [List.mem_cons, List.not_mem_nil, or_false, not_or] at htype
  obtain ⟨hpub, hsub, hkill, hclear⟩ := htype
  simp only [process, h, if_neg hpub, if_neg hsub, if_neg hkill, if_neg hclear]
  rfl

/-! ## One descriptor of the loop -/

theorem clientAt_of_mem {s : MyServer} {i : Nat} {c : Option ClientInServer}
    (h : s.clients[i]? = some c) : s.clientAt i = (s, c) := by
  have hsame : s.clients.insertIfNew i none = s.clients := by
    apply ExtTreeMap.ext_getElem?
    intro k
    rw [ExtTreeMap.getElem?_insertIfNew, if_neg]
    rintro ⟨-, hk⟩
    exact hk (ExtTreeMap.mem_iff_isSome_getElem?.2 (by rw [h]; rfl))
  rw [clientAt, hsame, ExtTreeMap.getD_eq_getD_getElem?, h]
  rfl

/-- `process` as the loop calls it for the connection `c`. -/
def processFor (s : MyServer) (c : ClientInServer) (pkt tail : Bytes) (now : Now) :
    MyServer × Option Fault :=
  { s with curClient := some c }.process pkt.length (pkt ++ tail) now

theorem receive_eq {s : MyServer} {i : Nat} {c : ClientInServer} (h : s.clients[i]? = some (some c))
    (pkt tail : Bytes) (now : Now) : s.receive i pkt tail now =
      match s.processFor c pkt tail now with
      | (s, some e) => (s, some e)
      | (s, none) => ({ s with curClient := none }, none) := by
  unfold receive
  rw [clientAt_of_mem h]
  unfold processFor
  rfl

theorem closeClient_eq {s : MyServer} {i : Nat} {c : ClientInServer}
    (h : s.clients[i]? = some (some c)) : s.closeClient i =
      ({ s with openFds := s.openFds.erase i,
                activeFdSet := s.activeFdSet.erase i,
                clients := s.clients.erase i,
                curClient := none }.unsubscribe i, none) := by
  unfold closeClient
  rw [clientAt_of_mem h]

end MyServer

end DiamondApparatus
