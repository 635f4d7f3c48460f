import Mathlib.Data.List.Flatten
import DiamondApparatus.Lib.Broker
import DiamondApparatus.Data.RoundTrip
import DiamondApparatus.Server.Bookkeeping

/-!
# The server refines the abstract broker

* `ClientPacket` : the packets the client library builds, and those of unknown type;
* `MyServer.broker` : the server as a broker between descriptors, over the items of its topics;
* `notifications fd n log` : the `SC_NOTIFY` messages for `n` sent on `fd`;
* `Refines s s' ops` : from `s` to `s'` the broker handled `ops`, and the messages sent are the ones it
  says;
* `Around xs ops` : `ops` are `xs` among the server's own posts of 'stats' and 'topics';
* `processPacket_refines`, `receive_refines`, `closed_refines` : a packet and a close.
-/

namespace DiamondApparatus
open Lib Std

/-! ## Packets -/

/-- A packet as the client library builds it, or one of unknown type. -/
inductive ClientPacket
  | publish (n : CString) (d : List Datum) (hname : n.length ≤ 128) (hsize : IntSized d n)
  | subscribe (n : CString) (field : MsgField) (hname : n.length ≤ 128)
  | clearserver
  | unknown (type : UInt32) (rest : Bytes)
      (htype : type ∉ [csPublish, csSubscribe, csKillserver, csClearserver])

namespace ClientPacket

def bytes : ClientPacket → Bytes
  | publish n d _ _ => Topic.toMessage { d := d } csPublish n
  | subscribe n field _ => strMsg csSubscribe n field
  | clearserver => noDataMsg csClearserver
  | unknown type rest _ => be32 type ++ rest

/-- What the packet asks of the broker for the client `fd`. -/
def ops (fd : Nat) : ClientPacket → List (Broker.Op Nat CString (List Datum))
  | publish n d _ _ => [.post n d]
  | subscribe n _ _ => [.join fd n]
  | clearserver => [.clear]
  | unknown _ _ _ => []

end ClientPacket

namespace MyServer

/-! ## Notifications -/

/-- A notification, as it is sent on `fd`. -/
structure Note where
  fd : Nat
  name : CString
  data : List Datum

def Note.frame (x : Note) : Nat × Bytes := (x.fd, message x.data scNotify x.name)

/-- What the notes tell the connection `fd` about the topic `n`. -/
def told (fd : Nat) (n : CString) (notes : List Note) : List (List Datum) :=
  (notes.filter fun x => decide (x.fd = fd ∧ x.name = n)).map Note.data

theorem told_append (fd : Nat) (n : CString) (xs ys : List Note) :
    told fd n (xs ++ ys) = told fd n xs ++ told fd n ys := by
  rw [told, List.filter_append, List.map_append]
  rfl

def notesTo (s : MyServer) (n : CString) (d : List Datum) : List Note :=
  (s.subscribers.entry n).toList.map (⟨·, n, d⟩)

theorem map_frame_notesTo (s : MyServer) (n : CString) (d : List Datum) :
    (s.notesTo n d).map Note.frame = s.toAll n (message d scNotify n) := by
  rw [notesTo, List.map_map]
  rfl

theorem told_notesTo (s : MyServer) (fd : Nat) (n m : CString) (d : List Datum) :
    told fd n (s.notesTo m d) = if m = n ∧ fd ∈ s.subscribers.entry m then [d] else [] := by
  unfold told notesTo
  rw [List.filter_map, List.map_map]
  by_cases h : m = n
  · have hfilter : ((fun x : Note => decide (x.fd = fd ∧ x.name = n)) ∘ (⟨·, m, d⟩)) =
        fun x : Nat => decide (x = fd) := by
      funext x
      simp [h]
    rw [hfilter, SetMap.filter_toList]
    by_cases hfd : fd ∈ s.subscribers.entry m
    · rw [if_pos hfd, if_pos ⟨h, hfd⟩]; rfl
    · rw [if_neg hfd, if_neg fun hand => hfd hand.2]; rfl
  · have hfilter : ((fun x : Note => decide (x.fd = fd ∧ x.name = n)) ∘ (⟨·, m, d⟩)) =
        fun _ : Nat => false := by
      funext x
      simp [h]
    rw [hfilter, if_neg fun hand => h hand.1]
    simp

def noteOf (n : CString) (d : List Datum) : Bytes := Topic.toMessage { d := d } scNotify n

def tells (n : CString) (p : Bytes) : Bool :=
  decide ((takeU32 p).map Prod.fst = some scNotify ∧ nameOfMsg p = .ok n)

def notifications (fd : Nat) (n : CString) (log : List (Nat × Bytes)) : List Bytes :=
  (log.filter fun x => decide (x.1 = fd) && tells n x.2).map Prod.snd

theorem tells_message (d : List Datum) (n m : CString) :
    tells n (message d scNotify m) = decide (m = n) := by
  have htype := takeU32_message d scNotify m []
  have hname := nameOfMsg_message d scNotify m []
  rw [List.append_nil] at htype hname
  simp [tells, htype, hname]

/-- The notifications among the frames of some notes are what the notes tell. -/
theorem notifications_frames (fd : Nat) (n : CString) {notes : List Note}
    (h : ∀ x ∈ notes, x.name.length ≤ 128) :
    notifications fd n (notes.map Note.frame) = (told fd n notes).map (noteOf n) := by
  induction notes with
  | nil => rfl
  | cons x notes ih =>
    have hx : x.name.length ≤ 128 := h x (by simp)
    have hrest := ih fun y hy => h y (by simp [hy])
    unfold notifications told at hrest ⊢
    have htells : (decide (x.frame.1 = fd) && tells n x.frame.2) = decide (x.fd = fd ∧ x.name = n) := by
      rw [Note.frame, tells_message, ← Bool.decide_and]
    rw [List.map_cons, List.filter_cons, List.filter_cons, htells]
    by_cases hand : x.fd = fd ∧ x.name = n
    · rw [if_pos (decide_eq_true hand), if_pos (decide_eq_true hand), List.map_cons, hrest,
        List.map_cons, List.map_cons, noteOf, ← hand.2, toMessage_eq _ _ hx]
      rfl
    · rw [if_neg (by simpa using hand), if_neg (by simpa using hand), hrest]

/-! ## The relation -/

/-- What the server is as a broker. -/
def broker (s : MyServer) : Broker Nat CString (List Datum) where
  stored n := s.topics[n]?.map Topic.d
  subs n fd := (s.subscribers.entry n).contains fd

structure Refines (s s' : MyServer) (ops : List (Broker.Op Nat CString (List Datum))) : Prop where
  broker : s'.broker = s.broker.run ops
  sent : ∃ notes : List Note, s'.sent = s.sent ++ notes.map Note.frame ∧
    (∀ x ∈ notes, x.name.length ≤ 128) ∧ ∀ fd n, told fd n notes = s.broker.heardAll fd n ops

theorem Refines.trans {s t u : MyServer} {xs ys : List (Broker.Op Nat CString (List Datum))}
    (h : Refines s t xs) (h' : Refines t u ys) : Refines s u (xs ++ ys) := by
  obtain ⟨notes, hout, hshort, htold⟩ := h.sent
  obtain ⟨notes', hout', hshort', htold'⟩ := h'.sent
  refine ⟨?_, notes ++ notes', ?_, ?_, ?_⟩
  · rw [h'.broker, h.broker, Broker.run_append]
  · rw [hout', hout, List.append_assoc, List.map_append]
  · intro x hx
    exact (List.mem_append.1 hx).elim (hshort x) (hshort' x)
  · intro fd n
    rw [told_append, htold, htold', Broker.heardAll_append, h.broker]

theorem refines_nil {s s' : MyServer} (hb : s'.broker = s.broker) (hs : s'.sent = s.sent) :
    Refines s s' [] :=
  ⟨hb, [], by rw [hs, List.map_nil, List.append_nil], by simp, fun _ _ => rfl⟩

theorem refines_silent {s s' : MyServer} {o : Broker.Op Nat CString (List Datum)}
    (hb : s'.broker = s.broker.apply o) (hs : s'.sent = s.sent)
    (ho : ∀ fd n, s.broker.heard fd n o = []) : Refines s s' [o] := by
  refine ⟨hb, [], by rw [hs, List.map_nil, List.append_nil], by simp, fun fd n => ?_⟩
  rw [Broker.heardAll, ho]
  rfl

theorem refines_post {s s' : MyServer} {n : CString} {t : Topic}
    (ht : Talks s s' (s.toAll n (message t.d scNotify n))) (htopics : s'.topics = s.topics.insert n t)
    (hname : n.length ≤ 128) : Refines s s' [.post n t.d] := by
  refine ⟨?_, s.notesTo n t.d, ?_, ?_, fun fd m => ?_⟩
  · show Broker.mk _ _ = Broker.mk _ _
    congr 1
    · funext m
      rw [htopics, ExtTreeMap.getElem?_insert, Function.update_apply]
      by_cases h : m = n
      · rw [if_pos h, h, if_pos ReflCmp.compare_self]
        rfl
      · rw [if_neg h, if_neg fun he => h (LawfulEqCmp.eq_of_compare he).symm]
        rfl
    · funext m fd
      rw [ht.entry]
      rfl
  · rw [map_frame_notesTo, ht.sent]
  · intro x hx
    obtain ⟨_, _, rfl⟩ := List.mem_map.1 hx
    exact hname
  · rw [told_notesTo, Broker.heardAll, Broker.heardAll, List.append_nil, Broker.heard]
    by_cases h : n = m ∧ fd ∈ s.subscribers.entry n
    · obtain ⟨rfl, hfd⟩ := h
      rw [if_pos ⟨rfl, hfd⟩, if_pos ⟨rfl, ExtTreeSet.contains_iff_mem.2 hfd⟩]
    · rw [if_neg h, if_neg]
      rintro ⟨rfl, hfd⟩
      exact h ⟨rfl, ExtTreeSet.contains_iff_mem.1 hfd⟩

theorem Rebuilds.refines {s s' : MyServer} {n : CString} {d : List Datum} (h : Rebuilds s s' n d)
    (hname : n.length ≤ 128) : Refines s s' [.post n d] := by
  obtain ⟨ht, t, rfl, htopics⟩ := h
  rw [notes, toMessage_eq _ _ hname] at ht
  exact refines_post ht htopics hname

/-! ## Packets of clients -/

theorem relayed_message (n : CString) (d : List Datum) (tail : Bytes) :
    relayed (message d csPublish n ++ tail) (message d csPublish n).length = message d scNotify n := by
  have hlen : (message d csPublish n).length = (message d scNotify n).length := by
    simp [message, be32]
  have hmem : be32 scNotify ++ (message d csPublish n ++ tail).drop 4 = message d scNotify n ++ tail := by
    simp [message, be32]
  rw [relayed, hmem, hlen, List.take_left]

/-- A post of a topic that the server builds itself. -/
def Own (o : Broker.Op Nat CString (List Datum)) : Prop :=
  ∃ n d, (n = statsName ∨ n = topicsName) ∧ o = .post n d

theorem publish_refines (s : MyServer) {n : CString} {d : List Datum} (hname : n.length ≤ 128)
    (hsize : IntSized d n) (tail : Bytes) :
    ∃ s' more, s.publish (message d csPublish n ++ tail) (message d csPublish n).length = (s', none) ∧
      Refines s s' (.post n d :: more) ∧ (∀ o ∈ more, Own o) ∧
      s'.curClient = s.curClient ∧ s'.serverKill = s.serverKill := by
  have hdec : s.decoded (message d csPublish n ++ tail) n =
      ({ s.topics.getD n {} with d := d }, .ok ⟨[], tail⟩) := by
    rw [decoded, fromMessage_message _ d csPublish hname hsize]
    simp only [Bool.false_eq_true, if_false]
  have hpub := published_talks s (message d csPublish n ++ tail) (message d csPublish n).length n
  have htopics := published_topics s (message d csPublish n ++ tail) (message d csPublish n).length n
  rw [relayed_message] at hpub
  rw [hdec] at htopics
  have hpost := refines_post (t := { s.topics.getD n {} with d := d }) hpub htopics hname
  rw [publish_ok (nameOfMsg_message d csPublish n tail) (congrArg Prod.snd hdec)]
  by_cases hold : s.topics.contains n
  · rw [if_pos hold]
    exact ⟨_, [], rfl, hpost, by simp, hpub.curClient, hpub.serverKill⟩
  · have hre := rebuildTopicsTopic_rebuilds
      (s.published (message d csPublish n ++ tail) (message d csPublish n).length n)
    rw [if_neg hold]
    refine ⟨_, [.post topicsName _], rfl, hpost.trans (hre.refines (by decide)), ?_, ?_, ?_⟩
    · intro o ho
      exact ⟨topicsName, _, Or.inr rfl, List.mem_singleton.1 ho⟩
    · exact hre.talks.curClient.trans hpub.curClient
    · exact hre.talks.serverKill.trans hpub.serverKill

theorem subscribe_refines {s : MyServer} {c : ClientInServer} (hc : s.curClient = some c)
    {n : CString} (hname : n.length ≤ 128) :
    ∃ s', s.subscribe c.fd n = (s', none) ∧ Refines s s' [.join c.fd n] ∧
      s'.curClient = s.curClient ∧ s'.serverKill = s.serverKill := by
  obtain ⟨s', hs', htopics, ht⟩ := subscribe_talks hc n
  have hbroker : s'.broker = s.broker.apply (.join c.fd n) := by
    show Broker.mk _ _ = Broker.mk _ _
    congr 1
    · funext m
      rw [htopics]
      rfl
    · funext m fd
      show (s'.subscribers.entry m).contains fd =
        ((s.subscribers.entry m).contains fd || decide (m = n ∧ fd = c.fd))
      rw [Bool.eq_iff_iff, Bool.or_eq_true, ExtTreeSet.contains_iff_mem, ExtTreeSet.contains_iff_mem,
        decide_eq_true_iff, ht.entry, or_comm]
      exact SetMap.mem_entry_add s.subscribers n m c.fd fd
  have hsent := ht.sent
  unfold greeting at hsent
  refine ⟨s', hs', ⟨hbroker, ?_⟩, ht.curClient, ht.serverKill⟩
  cases hstored : s.topics[n]? with
  | none =>
    rw [hstored] at hsent
    refine ⟨[], hsent, by simp, fun fd m => ?_⟩
    rw [Broker.heardAll, Broker.heardAll, List.append_nil, Broker.heard]
    by_cases h : c.fd = fd ∧ n = m
    · rw [if_pos h, ← h.2]
      simp [broker, hstored, told]
    · rw [if_neg h]; rfl
  | some t =>
    rw [hstored] at hsent
    dsimp only at hsent
    rw [toMessage_eq _ _ hname] at hsent
    refine ⟨[⟨c.fd, n, t.d⟩], hsent, by simpa using hname, fun fd m => ?_⟩
    rw [Broker.heardAll, Broker.heardAll, List.append_nil, Broker.heard]
    by_cases h : c.fd = fd ∧ n = m
    · rw [if_pos h, ← h.2]
      simp [broker, hstored, told, h.1]
    · rw [if_neg h]
      simp [told, h]

/-- Some operations ask the same of every topic that the server does not build itself. -/
def SameForClients (xs ys : List (Broker.Op Nat CString (List Datum))) : Prop :=
  ∀ n, n ≠ statsName → n ≠ topicsName → xs.filter (Broker.about n) = ys.filter (Broker.about n)

theorem SameForClients.append {xs ys xs' ys' : List (Broker.Op Nat CString (List Datum))}
    (h : SameForClients xs ys) (h' : SameForClients xs' ys') :
    SameForClients (xs ++ xs') (ys ++ ys') := by
  intro n hs ht
  rw [List.filter_append, List.filter_append, h n hs ht, h' n hs ht]

theorem sameForClients_own {xs : List (Broker.Op Nat CString (List Datum))} (h : ∀ o ∈ xs, Own o) :
    SameForClients xs [] := by
  intro n hs ht
  rw [List.filter_nil, List.filter_eq_nil_iff]
  intro o ho
  obtain ⟨m, d, hm, rfl⟩ := h o ho
  rcases hm with rfl | rfl
  · exact fun he => hs (of_decide_eq_true he).symm
  · exact fun he => ht (of_decide_eq_true he).symm

/-- `ops` are `xs`, among the server's own posts. -/
def Around (xs ops : List (Broker.Op Nat CString (List Datum))) : Prop :=
  ∃ pre post, (∀ o ∈ pre ++ post, Own o) ∧ ops = pre ++ (xs ++ post)

theorem Around.same {xs ops : List (Broker.Op Nat CString (List Datum))} (h : Around xs ops) :
    SameForClients ops xs := by
  obtain ⟨pre, post, hown, rfl⟩ := h
  have hpre := sameForClients_own fun o ho => hown o (List.mem_append_left post ho)
  have hpost := sameForClients_own fun o ho => hown o (List.mem_append_right pre ho)
  have hxs : SameForClients xs xs := fun _ _ _ => rfl
  simpa using hpre.append (hxs.append hpost)

theorem Around.mem {xs ops : List (Broker.Op Nat CString (List Datum))} (h : Around xs ops)
    {o : Broker.Op Nat CString (List Datum)} (ho : ¬ Own o) : o ∈ ops ↔ o ∈ xs := by
  obtain ⟨pre, post, hown, rfl⟩ := h
  rw [List.mem_append, List.mem_append]
  constructor
  · intro hmem
    rcases hmem with hpre | hxs | hpost
    · exact absurd (hown o (List.mem_append_left post hpre)) ho
    · exact hxs
    · exact absurd (hown o (List.mem_append_right pre hpost)) ho
  · exact fun hxs => Or.inr (Or.inl hxs)

theorem processPacket_refines {s : MyServer} {c : ClientInServer} (hc : s.curClient = some c)
    (p : ClientPacket) (tail : Bytes) (now : Now) :
    ∃ s' ops, s.process p.bytes.length (p.bytes ++ tail) now = (s', none) ∧ Refines s s' ops ∧
      Around (p.ops c.fd) ops ∧ s'.serverKill = s.serverKill := by
  obtain ⟨stats, hstats⟩ := counted_rebuilds s now
  have hcount := hstats.refines (by decide)
  have hcur := hstats.talks.curClient.trans hc
  have hkill := hstats.talks.serverKill
  have hown : ∀ o ∈ [Broker.Op.post (C := Nat) statsName stats] ++ [], Own o := by
    intro o ho
    exact ⟨statsName, stats, Or.inl rfl, by simpa using ho⟩
  cases p with
  | publish n d hname hsize =>
    obtain ⟨s', more, hs', href, hmore, -, hk⟩ := publish_refines (s.counted now) hname hsize tail
    refine ⟨s', _, ?_, hcount.trans href, ⟨[.post statsName stats], more, ?_, rfl⟩, hk.trans hkill⟩
    · rw [ClientPacket.bytes, toMessage_eq _ _ hname, process_publish (takeU32_message d csPublish n tail)]
      exact hs'
    · intro o ho
      rcases List.mem_append.1 ho with ho | ho
      · exact hown o (List.mem_append_left [] ho)
      · exact hmore o ho
  | subscribe n field hname =>
    obtain ⟨s', hs', href, -, hk⟩ := subscribe_refines hcur hname
    refine ⟨s', _, ?_, hcount.trans href, ⟨[.post statsName stats], [], hown, rfl⟩, hk.trans hkill⟩
    rw [ClientPacket.bytes, strMsg_eq _ (by omega) field, List.append_assoc, List.append_assoc,
      process_subscribe hc (takeU32_be32 _ _) (CString.ofMem_mem_append n _)]
    exact hs'
  | clearserver =>
    refine ⟨_, _, process_clearserver (takeU32_be32 _ _) s _ now,
      hcount.trans (refines_silent (o := .clear) ?_ rfl fun _ _ => rfl),
      ⟨[.post statsName stats], [], hown, rfl⟩, hkill⟩
    show Broker.mk _ _ = Broker.mk _ _
    congr 1
  | unknown type rest htype =>
    refine ⟨_, _, ?_, hcount, ⟨[.post statsName stats], [], hown, rfl⟩, hkill⟩
    rw [ClientPacket.bytes, List.append_assoc]
    exact process_unknown (takeU32_be32 _ _) htype s _ now

/-- **Handling a packet is a step of the broker.** -/
theorem receive_refines {s : MyServer} (hb : Bookkeeping s) {fd : Nat} (hfd : fd ∈ s.clients)
    (p : ClientPacket) (tail : Bytes) (now : Now) :
    ∃ s' ops, s.receive fd p.bytes tail now = (s', none) ∧ Refines s s' ops ∧
      Around (p.ops fd) ops ∧ s'.serverKill = s.serverKill := by
  obtain ⟨c, hc, rfl⟩ := hb.held fd hfd
  obtain ⟨s', ops, hs', href, haround, hk⟩ :=
    processPacket_refines (s := { s with curClient := some c }) rfl p tail now
  refine ⟨{ s' with curClient := none }, ops, ?_, ⟨href.broker, href.sent⟩, haround, hk⟩
  rw [receive_eq hc, processFor, hs']

theorem closed_refines {s : MyServer} (hb : Bookkeeping s) (fd : Nat) :
    Refines s (s.closed fd) [.leave fd] := by
  refine refines_silent ?_ rfl fun _ _ => rfl
  show Broker.mk _ _ = Broker.mk _ _
  congr 1
  funext n k
  rw [Bool.eq_iff_iff, Bool.and_eq_true, ExtTreeSet.contains_iff_mem, mem_entry_closed hb,
    decide_eq_true_iff, ← ExtTreeSet.contains_iff_mem]
  rfl

end MyServer

end DiamondApparatus
