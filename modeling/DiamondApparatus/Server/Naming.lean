import DiamondApparatus.Data.Decoded
import DiamondApparatus.Server.Effects

/-!
# The name of a topic in its messages

`StrMsg` has room for a name of 255 bytes. `toMessage` clamps the length of a name to 128 but copies
all of it, so of a longer one the message keeps the first 129 bytes, and the items follow where its
terminator should be.

* `publication n d` : the packet of `publish(n,d)`; `IsPublication n d p` : it is built, its size being
  one that an `int` holds; `nameOfMsg_long` : the key it is stored under;
* `Spelled n d` : the first bytes of the items are the missing end of the name;
* `Relays` : what the server does with a publication that it decodes;
* `SameName n d` : the subscription, the store, the relayed and the rebuilt notification have one name;
* `sameName_iff` : that is so for the names of at most 128 bytes, and beyond them for `Spelled` items,
  as long as the message can be built;
* `sharedKey_iff` : when two names have one key.
-/

namespace DiamondApparatus
open Lib Std

/-- The packet that `MyClient::publish` sends. -/
def publication (n : CString) (d : List Datum) : Bytes := Topic.toMessage { d := d } csPublish n

/-- `MyClient::publish` gets `p` from `toMessage`. -/
def IsPublication (n : CString) (d : List Datum) (p : Bytes) : Prop :=
  Topic.toMessageInt { d := d } csPublish n = .ok p

theorem isPublication_iff {n : CString} {d : List Datum} {p : Bytes} :
    IsPublication n d p ↔ IntSized d n ∧ p = publication n d :=
  toMessageInt_eq_ok

/-- The items start with the bytes of `n` behind the 129th, and a zero. -/
def Spelled (n : CString) (d : List Datum) : Prop :=
  ∃ q, d.flatMap Datum.encode = n.bytes.drop 129 ++ 0 :: q

/-! ## Reading the name -/

theorem getNameFromMsg_layout (d : List Datum) (msgtype : UInt32) (n : CString) (tail : Bytes) :
    getNameFromMsg (layout d msgtype n ++ tail) =
      n.mem.take (nameLen n) ++ (d.flatMap Datum.encode ++ tail) := by
  simp [getNameFromMsg, layout, be32]

theorem nameOfMsg_short {n : CString} (h : n.length ≤ 128) (d : List Datum) (msgtype : UInt32)
    (tail : Bytes) : nameOfMsg (layout d msgtype n ++ tail) = .ok n := by
  rw [layout_eq_message d msgtype h, nameOfMsg_message]

theorem take_mem_long {n : CString} (h : 128 < n.length) :
    n.mem.take (nameLen n) = n.bytes.take 129 := by
  rw [nameLen, Nat.min_eq_right (by omega), CString.mem, List.take_append_of_le_length h]

theorem not_mem_take (n : CString) : (0 : UInt8) ∉ n.bytes.take 129 :=
  fun h => n.nulFree (List.mem_of_mem_take h)

/-- **The key of a longer name**: its first 129 bytes, then what follows up to a zero. -/
theorem nameOfMsg_long {n k : CString} (h : 128 < n.length) (d : List Datum) (msgtype : UInt32)
    (tail : Bytes) : nameOfMsg (layout d msgtype n ++ tail) = .ok k ↔
      ∃ c, CString.ofMem (d.flatMap Datum.encode ++ tail) = some c ∧
        k.bytes = n.bytes.take 129 ++ c.bytes := by
  rw [nameOfMsg_eq_ok, getNameFromMsg_layout, take_mem_long h,
    CString.ofMem_append_eq_some (not_mem_take n)]

theorem nameOfMsg_spelled {n : CString} (h : 128 < n.length) {d : List Datum} (hs : Spelled n d)
    (msgtype : UInt32) (tail : Bytes) : nameOfMsg (layout d msgtype n ++ tail) = .ok n := by
  obtain ⟨q, hq⟩ := hs
  have hnul : (0 : UInt8) ∉ n.bytes.drop 129 := fun h => n.nulFree (List.mem_of_mem_drop h)
  rw [nameOfMsg_long h]
  refine ⟨⟨n.bytes.drop 129, hnul⟩, CString.ofMem_eq_some.2 ⟨q ++ tail, ?_⟩, ?_⟩
  · simp [hq, CString.mem]
  · exact (List.take_append_drop 129 n.bytes).symm

theorem spelled_of_nameOfMsg {n : CString} (h : 128 < n.length) {d : List Datum} {msgtype : UInt32}
    (hn : nameOfMsg (layout d msgtype n) = .ok n) : Spelled n d := by
  rw [← List.append_nil (layout d msgtype n), nameOfMsg_long h, List.append_nil] at hn
  obtain ⟨c, hc, hbytes⟩ := hn
  obtain ⟨q, hq⟩ := CString.ofMem_eq_some.1 hc
  have hdrop : n.bytes.drop 129 = c.bytes :=
    List.append_cancel_left ((List.take_append_drop 129 n.bytes).trans hbytes)
  refine ⟨q, ?_⟩
  rw [hq, hdrop, CString.mem]
  simp

theorem publication_eq (n : CString) (d : List Datum) : publication n d = layout d csPublish n :=
  toMessage_layout { d := d } csPublish n

theorem relayed_publication (n : CString) (d : List Datum) (tail : Bytes) :
    MyServer.relayed (publication n d ++ tail) (publication n d).length = layout d scNotify n := by
  have hlen : (layout d csPublish n).length = (layout d scNotify n).length := by
    simp [layout, be32]
  have hmem : be32 scNotify ++ (layout d csPublish n ++ tail).drop 4 = layout d scNotify n ++ tail := by
    simp [layout, be32]
  rw [publication_eq, MyServer.relayed, hmem, hlen, List.take_left]

theorem takeU32_publication (n : CString) (d : List Datum) (tail : Bytes) :
    takeU32 (publication n d ++ tail) = some (csPublish, (publication n d ++ tail).drop 4) := by
  rw [publication_eq, takeU32_eq_some]
  simp [layout, be32]

/-! ## Relaying a packet -/

namespace MyServer

/-- The packet that the current subscribers get. -/
def live (p : Bytes) : Bytes := relayed p p.length

theorem length_of_decodes {p : Bytes} {n : CString} {d : List Datum} (h : Decodes p n d) :
    4 ≤ p.length := by
  obtain ⟨type, count, namelen, q, r, rfl, -⟩ := h.header
  simp

/-- What is relayed does not depend on the memory behind the packet. -/
theorem relayed_append {p : Bytes} (h : 4 ≤ p.length) (tail : Bytes) :
    relayed (p ++ tail) p.length = be32 scNotify ++ p.drop 4 := by
  have hlen : p.length = (be32 scNotify ++ p.drop 4).length := by
    rw [List.length_append, length_be32, List.length_drop]
    omega
  rw [relayed, List.drop_append_of_le_length h, ← List.append_assoc]
  conv_lhs => rw [hlen]
  exact List.take_left

theorem live_eq {p : Bytes} (h : 4 ≤ p.length) : live p = be32 scNotify ++ p.drop 4 := by
  rw [live, ← relayed_append h [], List.append_nil]

theorem live_decodes {p : Bytes} {n : CString} {d : List Datum} (h : Decodes p n d) (tail : Bytes) :
    Decodes (live p ++ tail) n d := by
  rw [live_eq (length_of_decodes h)]
  exact h.retype scNotify tail

/-- The contents of the directory once 'stats' and the name `n` are in it. -/
def directoryWith (s : MyServer) (n : CString) : List Datum :=
  (((s.topics.insert statsName {}).insert n {}).insert topicsName {}).keys.map .string

/-- The server stores the packet `p` as the items `d` of `n` and relays it to the subscribers of `n`.
The messages it builds besides are for the subscribers of 'stats', and for a new name of 'topics'. -/
def Relays (s : MyServer) (p tail : Bytes) (n : CString) (d : List Datum) (now : Now) : Prop :=
  ∃ s' stats dir, s.process p.length (p ++ tail) now = (s', none) ∧
    s'.sent = s.sent ++ (stats ++ (s.toAll n (live p) ++ dir)) ∧
    s.Builds statsName stats ∧ s.Builds topicsName dir ∧ n ∈ s'.topics ∧
    (n ∈ s.topics ∨ n ≠ topicsName → ∃ t, s'.topics[n]? = some t ∧ t.d = d)

theorem directory_published {s : MyServer} {now : Now} {mem : Bytes} {pktsize : Nat} {n : CString} :
    ((s.counted now).published mem pktsize n).directory = s.directoryWith n := by
  obtain ⟨t, -, htopics⟩ := (counted_stats s now).topics
  refine directory_eq fun k => ?_
  rw [published_topics, htopics]
  simp only [Keys.mem_insert_iff]

/-- The packet, whatever lies behind it: its items are decoded, and what is relayed is `live p`. -/
theorem decoded_decodes {p : Bytes} {n : CString} {d : List Datum} (h : Decodes p n d) (s : MyServer)
    (tail : Bytes) : (∃ l, (s.decoded (p ++ tail) n).2 = .ok l) ∧ (s.decoded (p ++ tail) n).1.d = d ∧
      relayed (p ++ tail) p.length = live p := by
  obtain ⟨l, hl⟩ := (h.append tail).fromMessage (s.topics.getD n {})
  refine ⟨⟨l, ?_⟩, ?_, ?_⟩
  · rw [decoded, hl]
  · rw [decoded, hl]
  · rw [relayed_append (length_of_decodes h), live_eq (length_of_decodes h)]

theorem process_decodes {p msg : Bytes} {n : CString} {d : List Datum}
    (htype : takeU32 p = some (csPublish, msg)) (h : Decodes p n d) {s : MyServer}
    (hdir : IntSized (s.directoryWith n) topicsName) (tail : Bytes) (now : Now) :
    s.Relays p tail n d now := by
  have hstats := counted_stats s now
  obtain ⟨ts, -, hto⟩ := hstats.topics
  have hbuilt : s.Builds statsName (s.notes statsName { d := _ }) :=
    builds_notes (intSized_stats { s with msgsrecvd := s.msgsrecvd + 1 } now) s
  obtain ⟨⟨l, hdec⟩, hd, hlive⟩ := decoded_decodes h (s.counted now) tail
  obtain ⟨s', hs', hcases⟩ := publish_cases (h.append tail).name hdec p.length
  rw [hlive, hstats.talks.toAll] at hcases
  simp only [hstats.talks.notes] at hcases
  rw [Relays, process_publish (takeU32_append htype tail), hs']
  rcases hcases with ⟨-, ht, htopics⟩ | ⟨hnew, t', ht', ht, htopics⟩
  · refine ⟨s', _, [], rfl, ?_, hbuilt, by simp [Builds], ?_, fun _ => ⟨_, ?_, hd⟩⟩
    · rw [List.append_nil]
      exact (hstats.talks.trans ht).sent
    · rw [htopics, Keys.mem_insert_iff]
      exact Or.inl rfl
    · rw [htopics, ExtTreeMap.getElem?_insert_self]
  · refine ⟨s', _, s.notes topicsName { d := t'.d }, rfl, (hstats.talks.trans ht).sent, hbuilt,
      builds_notes ?_ s, ?_, fun hor => ⟨_, ?_, hd⟩⟩
    · rw [ht', directory_published]
      exact hdir
    · rw [htopics, Keys.mem_insert_iff, Keys.mem_insert_iff]
      exact Or.inr (Or.inl rfl)
    · have hne : n ≠ topicsName := by
        rcases hor with hmem | hne
        · rw [hto, ExtTreeMap.mem_insert, not_or] at hnew
          exact absurd hmem hnew.2
        · exact hne
      rw [htopics, Keys.getElem?_insert_eq, if_neg hne, ExtTreeMap.getElem?_insert_self]

end MyServer

/-! ## One name for all -/

/-- Packets of the two senders that reach the server, and what it sends for the publication, carry
the name `n`. -/
structure SameName (n : CString) (d : List Datum) : Prop where
  registered : ∀ (s : MyServer) (c : ClientInServer) (field : MsgField) (tail : Bytes) (now : Now),
    s.curClient = some c → ∃ s',
      s.process (strMsg csSubscribe n field).length (strMsg csSubscribe n field ++ tail) now = (s', none) ∧
      ∀ fd m, fd ∈ s'.subscribers.entry m ↔ (m = n ∧ fd = c.fd) ∨ fd ∈ s.subscribers.entry m
  built : IsPublication n d (publication n d)
  stored : ∀ tail, Decodes (publication n d ++ tail) n d
  relayed : ∀ tail, nameOfMsg (MyServer.live (publication n d) ++ tail) = .ok n
  rebuilt : ∃ q, Topic.toMessageInt { d := d } scNotify n = .ok q ∧ ∀ tail, nameOfMsg (q ++ tail) = .ok n
  /-- It reaches the subscribers of `n`, each once, as long as the directory can be built. -/
  delivered : ∀ (s : MyServer) (tail : Bytes) (now : Now),
    IntSized (s.directoryWith n) MyServer.topicsName → s.Relays (publication n d) tail n d now

theorem process_strMsg {n : CString} (h : n.length ≤ 255) {s : MyServer} {c : ClientInServer}
    (hc : s.curClient = some c) (field : MsgField) (tail : Bytes) (now : Now) :
    ∃ s', s.process (strMsg csSubscribe n field).length (strMsg csSubscribe n field ++ tail) now =
        (s', none) ∧
      ∀ fd m, fd ∈ s'.subscribers.entry m ↔ (m = n ∧ fd = c.fd) ∨ fd ∈ s.subscribers.entry m := by
  obtain ⟨d, hd⟩ := MyServer.counted_rebuilds s now
  have htype : takeU32 (strMsg csSubscribe n field ++ tail) =
      some (csSubscribe, n.mem ++ (field.1.drop (n.length + 1) ++ tail)) := by
    rw [strMsg_eq csSubscribe h, List.append_assoc, List.append_assoc, takeU32_be32]
  obtain ⟨s', hs', -, ht⟩ := MyServer.subscribe_talks (hd.talks.curClient.trans hc) n
  refine ⟨s', ?_, fun fd m => ?_⟩
  · rw [MyServer.process_subscribe hc htype (CString.ofMem_mem_append n _), hs']
  · rw [ht.entry]
    show fd ∈ ((s.counted now).subscribers.add n c.fd).entry m ↔ _
    rw [SetMap.mem_entry_add, hd.talks.entry]

theorem sameName_of {n : CString} {d : List Datum} (h255 : n.length ≤ 255) (hsize : IntSized d n)
    (hname : ∀ msgtype tail, nameOfMsg (layout d msgtype n ++ tail) = .ok n) : SameName n d := by
  have hdec : ∀ tail, Decodes (publication n d ++ tail) n d := fun tail =>
    publication_eq n d ▸ ⟨hname csPublish tail,
      _, fromMessage_layout {} (loadable_of_messageSize hsize) csPublish n false tail⟩
  exact {
    registered := fun s c field tail now hc => process_strMsg h255 hc field tail now
    built := isPublication_iff.2 ⟨hsize, rfl⟩
    stored := hdec
    relayed := fun tail => (MyServer.live_decodes (List.append_nil (publication n d) ▸ hdec []) tail).name
    rebuilt := ⟨_, toMessageInt_eq_ok.2 ⟨hsize, rfl⟩, fun tail =>
      toMessage_layout { d := d } scNotify n ▸ hname scNotify tail⟩
    delivered := fun s tail now hdir => MyServer.process_decodes
      (List.append_nil (publication n d) ▸ takeU32_publication n d [])
      (List.append_nil (publication n d) ▸ hdec []) hdir tail now }

theorem spelled_of_sameName {n : CString} {d : List Datum} (h : 128 < n.length) (hs : SameName n d) :
    Spelled n d := by
  have hn := (hs.stored []).name
  rw [publication_eq, List.append_nil] at hn
  exact spelled_of_nameOfMsg h hn

/-- **Two names have one key** only where both lose their end, and agree on what is left. -/
theorem sharedKey_iff {n n' : CString} (hne : n' ≠ n) (d d' : List Datum) (tail tail' : Bytes) :
    (∃ k, nameOfMsg (publication n d ++ tail) = .ok k ∧ nameOfMsg (publication n' d' ++ tail') = .ok k) ↔
      128 < n.length ∧ 128 < n'.length ∧ n.bytes.take 129 = n'.bytes.take 129 ∧
        ∃ c, CString.ofMem (d.flatMap Datum.encode ++ tail) = some c ∧
          CString.ofMem (d'.flatMap Datum.encode ++ tail') = some c := by
  rw [publication_eq, publication_eq]
  have hkey : ∀ {m k : CString} {e : List Datum} {q : Bytes}, 128 < m.length →
      nameOfMsg (layout e csPublish m ++ q) = .ok k → 128 < k.length := by
    intro m k e q hm hk
    obtain ⟨c, -, hc⟩ := (nameOfMsg_long hm e csPublish q).1 hk
    have : (m.bytes.take 129).length = 129 := List.length_take_of_le hm
    rw [CString.length, hc, List.length_append]
    omega
  constructor
  · rintro ⟨k, hk, hk'⟩
    by_cases h : n.length ≤ 128 <;> by_cases h' : n'.length ≤ 128
    · rw [nameOfMsg_short h, Except.ok.injEq] at hk
      rw [nameOfMsg_short h', Except.ok.injEq] at hk'
      exact absurd (hk'.trans hk.symm) hne
    · rw [nameOfMsg_short h, Except.ok.injEq] at hk
      have := hkey (by omega) hk'
      rw [← hk] at this
      omega
    · rw [nameOfMsg_short h', Except.ok.injEq] at hk'
      have := hkey (by omega) hk
      rw [← hk'] at this
      omega
    · have hlong : 128 < n.length := by omega
      have hlong' : 128 < n'.length := by omega
      obtain ⟨c, hc, hkc⟩ := (nameOfMsg_long hlong d csPublish tail).1 hk
      obtain ⟨c', hc', hkc'⟩ := (nameOfMsg_long hlong' d' csPublish tail').1 hk'
      have hlen : (n.bytes.take 129).length = (n'.bytes.take 129).length := by
        rw [List.length_take_of_le hlong, List.length_take_of_le hlong']
      obtain ⟨htake, hcc⟩ := List.append_inj (hkc.symm.trans hkc') hlen
      exact ⟨hlong, hlong', htake, c, hc, CString.ext hcc ▸ hc'⟩
  · rintro ⟨h, h', htake, c, hc, hc'⟩
    refine ⟨⟨n.bytes.take 129 ++ c.bytes, ?_⟩, ?_, ?_⟩
    · rw [List.mem_append, not_or]
      exact ⟨not_mem_take n, c.nulFree⟩
    · exact (nameOfMsg_long h d csPublish tail).2 ⟨c, hc, rfl⟩
    · exact (nameOfMsg_long h' d' csPublish tail').2 ⟨c, hc', by rw [← htake]⟩

/-- **When subscription and publication name the same topic.** -/
theorem sameName_iff (n : CString) (d : List Datum) (h255 : n.length ≤ 255) :
    (SameName n d ↔ IntSized d n ∧ (n.length ≤ 128 ∨ Spelled n d)) ∧
    ∀ n' d' tail tail', n' ≠ n →
      ((¬ ∃ k p p', IsPublication n d p ∧ IsPublication n' d' p' ∧
          nameOfMsg (p ++ tail) = .ok k ∧ nameOfMsg (p' ++ tail') = .ok k) ↔
        ¬ (IntSized d n ∧ IntSized d' n' ∧ 128 < n.length ∧ 128 < n'.length ∧
          n.bytes.take 129 = n'.bytes.take 129 ∧
          ∃ c, CString.ofMem (d.flatMap Datum.encode ++ tail) = some c ∧
            CString.ofMem (d'.flatMap Datum.encode ++ tail') = some c)) := by
  refine ⟨⟨fun hs => ?_, fun ⟨hsize, h⟩ => ?_⟩, fun n' d' tail tail' hne => not_congr ?_⟩
  · refine ⟨(isPublication_iff.1 hs.built).1, ?_⟩
    by_cases h : n.length ≤ 128
    · exact Or.inl h
    · exact Or.inr (spelled_of_sameName (by omega) hs)
  · by_cases hshort : n.length ≤ 128
    · exact sameName_of h255 hsize (nameOfMsg_short hshort d)
    · exact sameName_of h255 hsize (nameOfMsg_spelled (by omega) (h.resolve_left hshort))
  · simp only [isPublication_iff]
    constructor
    · rintro ⟨k, p, p', ⟨hsize, rfl⟩, ⟨hsize', rfl⟩, hk, hk'⟩
      exact ⟨hsize, hsize', (sharedKey_iff hne d d' tail tail').1 ⟨k, hk, hk'⟩⟩
    · rintro ⟨hsize, hsize', hrest⟩
      obtain ⟨k, hk, hk'⟩ := (sharedKey_iff hne d d' tail tail').2 hrest
      exact ⟨k, _, _, ⟨hsize, rfl⟩, ⟨hsize', rfl⟩, hk, hk'⟩

def xs (k : Nat) : CString := ⟨List.replicate k 120, by simp⟩

@[simp] theorem length_xs (k : Nat) : (xs k).length = k := List.length_replicate

theorem xs_ne {k j : Nat} (h : k ≠ j) : xs k ≠ xs j := by
  intro he
  have := congrArg CString.length he
  rw [length_xs, length_xs] at this
  exact h this

theorem sameName_iff_xs :
    SameName (xs 3) [.float 0] ∧ ¬ SameName (xs 130) [.float 0] ∧
      ∃ k p p', IsPublication (xs 131) [.float 0] p ∧ IsPublication (xs 130) [.float 0] p' ∧
        nameOfMsg p = .ok k ∧ nameOfMsg p' = .ok k := by
  have h130 := sameName_iff (xs 130) [.float 0] (by simp)
  have h131 := sameName_iff (xs 131) [.float 0] (by simp)
  refine ⟨(sameName_iff (xs 3) [.float 0] (by simp)).1.2 ⟨by decide, by simp⟩, fun hs => ?_, ?_⟩
  · rcases (h130.1.1 hs).2 with h | ⟨q, hq⟩
    · simp at h
    · have h := congrArg List.head? hq
      simp [xs, Datum.encode, dtFloat] at h
  · have hshared := not_iff_not.1 (h131.2 (xs 130) [.float 0] [] [] (xs_ne (by decide)))
    simp only [List.append_nil] at hshared
    exact hshared.2 ⟨by decide +kernel, by decide +kernel, by simp, by simp, by simp [xs],
      ⟨[], by simp⟩, by decide +kernel⟩

/-- Of the name of 130 letters the server keeps 129, whoever publishes on it: a client that
subscribed to it waits under another key. That of 131 letters ends there too. -/
theorem xs_not_sameName :
    (xs 130).length ≤ 255 ∧ xs 129 ≠ xs 130 ∧ xs 131 ≠ xs 130 ∧
      (∃ p, IsPublication (xs 130) [.float 0] p ∧ nameOfMsg p = .ok (xs 129)) ∧
      (∃ p, IsPublication (xs 131) [.float 0] p ∧ nameOfMsg p = .ok (xs 129)) ∧
      (∃ msg, takeU32 (strMsg csSubscribe (xs 130) MsgField.zero) = some (csSubscribe, msg) ∧
        CString.ofMem msg = some (xs 130)) ∧
      ¬ SameName (xs 130) [.float 0] := by
  have hkey : nameOfMsg (publication (xs 130) [.float 0]) = .ok (xs 129) := by decide +kernel
  refine ⟨by simp, xs_ne (by decide), xs_ne (by decide),
    ⟨_, isPublication_iff.2 ⟨by decide +kernel, rfl⟩, hkey⟩,
    ⟨_, isPublication_iff.2 ⟨by decide +kernel, rfl⟩, by decide +kernel⟩,
    ⟨(strMsg csSubscribe (xs 130) MsgField.zero).drop 4, by decide +kernel, by decide +kernel⟩, fun hs => ?_⟩
  have h := (hs.stored []).name
  rw [List.append_nil, hkey, Except.ok.injEq] at h
  exact xs_ne (by decide) h

end DiamondApparatus
