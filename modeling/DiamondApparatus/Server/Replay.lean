import DiamondApparatus.Server.Naming

/-!
# Live relay and late replay

A publication reaches a client in one of two ways: the packet itself goes to the subscribers of the
name, and whoever subscribes later gets the stored topic, encoded again.

* `live p`, `late p n` : the two notifications made from the packet `p`. The second has to be built,
  and its size is an `int`, where that of the packet is an unsigned word;
* `live_decodes`, `late_decodes` : both carry the name and the items of `p`, whoever wrote it;
* `live_eq_late` : they are equal when `p` was written by `toMessage`;
* `replay_agrees` : the two agree whenever the second can be built.
-/

namespace DiamondApparatus
open Lib Std

namespace MyServer

/-- The packet that a later subscriber of `n` gets: the topic as `p` left it. -/
def late (p : Bytes) (n : CString) : Except Fault Bytes :=
  (Topic.fromMessage {} p false).1.toMessageInt scNotify n

theorem late_eq_ok {p q : Bytes} {n : CString} {d : List Datum} (h : Decodes p n d) :
    late p n = .ok q ↔ IntSized d n ∧ q = layout d scNotify n := by
  obtain ⟨l, hl⟩ := h.items
  rw [late, hl, toMessageInt_eq_ok, toMessage_layout]

theorem late_null {p : Bytes} {n : CString} {d : List Datum} (h : Decodes p n d)
    (hlow : 2 ^ 31 ≤ messageSize d n) (hhigh : messageSize d n < 2 ^ 32) :
    late p n = .error .nullPointer := by
  obtain ⟨l, hl⟩ := h.items
  rw [late, hl]
  exact toMessageInt_null hlow hhigh scNotify

theorem decodes_layout {n : CString} (hn : n.length ≤ 128) {d : List Datum} (hd : Loadable d)
    (msgtype : UInt32) (tail : Bytes) : Decodes (layout d msgtype n ++ tail) n d where
  name := nameOfMsg_short hn d msgtype tail
  items := ⟨_, fromMessage_layout {} hd msgtype n false tail⟩

theorem late_decodes {p q : Bytes} {n : CString} {d : List Datum} (h : Decodes p n d)
    (hn : n.length ≤ 128) (hq : late p n = .ok q) (tail : Bytes) : Decodes (q ++ tail) n d := by
  rw [((late_eq_ok h).1 hq).2]
  exact decodes_layout hn h.loadable scNotify tail

theorem name_of_publication {n m : CString} {d : List Datum} (hn : n.length ≤ 128)
    (h : nameOfMsg (publication m d) = .ok n) : m = n := by
  rw [publication_eq, ← List.append_nil (layout d csPublish m)] at h
  by_cases hm : m.length ≤ 128
  · rw [nameOfMsg_short hm, Except.ok.injEq] at h
    exact h
  · obtain ⟨c, -, hc⟩ := (nameOfMsg_long (by omega) d csPublish []).1 h
    have htake : (m.bytes.take 129).length = 129 :=
      List.length_take_of_le (show 129 ≤ m.length by omega)
    rw [CString.length, hc, List.length_append] at hn
    omega

/-- **The two notifications of a packet that `toMessage` wrote are equal**, byte for byte. -/
theorem live_eq_late {p q : Bytes} {n m : CString} {d e : List Datum} (h : Decodes p n d)
    (hn : n.length ≤ 128) (hp : IsPublication m e p) (hq : late p n = .ok q) : live p = q := by
  obtain ⟨hsize, rfl⟩ := isPublication_iff.1 hp
  obtain rfl := name_of_publication hn h.name
  have hload := fromMessage_layout {} (loadable_of_messageSize hsize) csPublish m false []
  rw [List.append_nil, ← publication_eq] at hload
  obtain rfl := h.unique ⟨h.name, _, hload⟩
  rw [((late_eq_ok h).1 hq).2, ← relayed_publication m d [], List.append_nil, live]

theorem subscribe_replays {s : MyServer} {c : ClientInServer} (hc : s.curClient = some c)
    {n : CString} {t : Topic} (ht : s.topics[n]? = some t) :
    ∃ s', s.subscribe c.fd n = (s', none) ∧ s'.sent = s.sent ++ [(c.fd, layout t.d scNotify n)] := by
  obtain ⟨s', hs', -, htalks⟩ := subscribe_talks hc n
  have hsent := htalks.sent
  rw [greeting, ht] at hsent
  exact ⟨s', hs', toMessage_layout t scNotify n ▸ hsent⟩

/-- The packet `p` of a publication, relayed, and the notification `q` of the stored topic: one name,
one list of items. The server sends the first to the subscribers, the second to a later one. -/
structure ReplayAgrees (p q : Bytes) (n : CString) (d : List Datum) : Prop where
  name : ∀ tail, nameOfMsg (live p ++ tail) = .ok n ∧ nameOfMsg (q ++ tail) = .ok n
  items : ∀ (x : Topic) (tail : Bytes),
    (∃ l, x.fromMessage (live p ++ tail) false = ({ x with d := d }, .ok l)) ∧
    ∃ l, x.fromMessage (q ++ tail) false = ({ x with d := d }, .ok l)
  same : ∀ m e, IsPublication m e p → live p = q
  relayed : ∀ (s : MyServer) (tail : Bytes) (now : Now),
    IntSized (s.directoryWith n) topicsName → s.Relays p tail n d now
  replayed : ∀ (s : MyServer) (c : ClientInServer) (t : Topic), s.curClient = some c →
    s.topics[n]? = some t → t.d = d →
    ∃ s', s.subscribe c.fd n = (s', none) ∧ s'.sent = s.sent ++ [(c.fd, q)]

/-- **When live relay and late replay agree.** -/
theorem replay_agrees (p msg : Bytes) (n : CString) (d : List Datum)
    (htype : takeU32 p = some (csPublish, msg)) (h : Decodes p n d) (hn : n.length ≤ 128) :
    (∃ q, late p n = .ok q ∧ ReplayAgrees p q n d) ↔ IntSized d n := by
  refine ⟨fun ⟨q, hq, _⟩ => ((late_eq_ok h).1 hq).1, fun hsize => ?_⟩
  have hq : late p n = .ok (layout d scNotify n) := (late_eq_ok h).2 ⟨hsize, rfl⟩
  refine ⟨_, hq, ?_⟩
  constructor
  · exact fun tail => ⟨(live_decodes h tail).name, (late_decodes h hn hq tail).name⟩
  · exact fun x tail => ⟨(live_decodes h tail).fromMessage x, (late_decodes h hn hq tail).fromMessage x⟩
  · exact fun m e hp => live_eq_late h hn hp hq
  · exact fun s tail now hdir => process_decodes htype h hdir tail now
  · rintro s c t hc ht rfl
    exact subscribe_replays hc ht

/-- A publication of 'a' as no client would write it: the name length says 4, the string holds a zero
byte, and a byte follows. -/
def untidy : Bytes :=
  be32 csPublish ++ be32 1 ++ [4, 97, 0, 7, 7] ++ [dtString, 0, 0, 0, 3, 120, 0, 121] ++ [9]

theorem replay_agrees_untidy :
    ∃ q, late untidy (.ofString "a") = .ok q ∧ live untidy ≠ q ∧
      ∃ l l', Topic.fromMessage {} (live untidy) false = ({ d := [.ofString "x"] }, .ok l) ∧
        Topic.fromMessage {} q false = ({ d := [.ofString "x"] }, .ok l') := by
  obtain ⟨q, hq, h⟩ := (replay_agrees untidy (untidy.drop 4) (.ofString "a") [.ofString "x"] (by decide)
    ⟨by decide, ⟨[], [9]⟩, by decide⟩ (by decide)).2 (by decide)
  have hitems := h.items {} []
  rw [List.append_nil, List.append_nil] at hitems
  obtain ⟨⟨l, hl⟩, l', hl'⟩ := hitems
  have hne : late untidy (.ofString "a") ≠ .ok (live untidy) := by decide
  exact ⟨q, hq, fun he => hne (he ▸ hq), l, l', hl, hl'⟩

def strings (k : Nat) : List Datum := [.string (xs k), .string (xs k)]

theorem messageSize_strings (k : Nat) : messageSize (strings k) (.ofString "a") = 2 * k + 21 := by
  have hname : nameLen (.ofString "a") = 2 := by decide
  simp only [messageSize, hname, strings, List.map_cons, List.map_nil, Datum.size, length_xs,
    List.sum_cons, List.sum_nil]
  omega

def stringsPacket (k : Nat) : Bytes := layout (strings k) csPublish (.ofString "a")

theorem decodes_stringsPacket {k : Nat} (hk : k ≤ 2 ^ 30) :
    Decodes (stringsPacket k) (.ofString "a") (strings k) := by
  have hload : Loadable (strings k) := by
    refine ⟨by simp [strings], fun i hi => ?_⟩
    obtain rfl : i = .string (xs k) := by simpa [strings] using hi
    rw [Datum.size, length_xs, Datum.maxSize]
    omega
  exact List.append_nil (stringsPacket k) ▸ decodes_layout (by decide) hload csPublish []

/-- Two strings of 2^30 bytes fit a packet, and the relayed packet can be decoded; for a later
subscriber the server asks `malloc` for the size that its `int` has become. -/
theorem strings_not_replayed :
    (stringsPacket (2 ^ 30)).length < 2 ^ 32 ∧
    (∃ msg, takeU32 (stringsPacket (2 ^ 30)) = some (csPublish, msg)) ∧
    Decodes (stringsPacket (2 ^ 30)) (.ofString "a") (strings (2 ^ 30)) ∧
    Decodes (live (stringsPacket (2 ^ 30))) (.ofString "a") (strings (2 ^ 30)) ∧
    late (stringsPacket (2 ^ 30)) (.ofString "a") = .error .nullPointer ∧
    ¬ ∃ q, late (stringsPacket (2 ^ 30)) (.ofString "a") = .ok q ∧
      ReplayAgrees (stringsPacket (2 ^ 30)) q (.ofString "a") (strings (2 ^ 30)) := by
  have hsize := messageSize_strings (2 ^ 30)
  have hpkt : stringsPacket (2 ^ 30) = publication (.ofString "a") (strings (2 ^ 30)) :=
    (publication_eq _ _).symm
  have hdec := decodes_stringsPacket (Nat.le_refl (2 ^ 30))
  have hlate := late_null hdec (by omega) (by omega)
  refine ⟨?_, ⟨(stringsPacket (2 ^ 30)).drop 4, ?_⟩, hdec, ?_, hlate, fun ⟨q, hq, _⟩ => ?_⟩
  · rw [hpkt, publication, length_toMessage, hsize]
    omega
  · have := takeU32_publication (.ofString "a") (strings (2 ^ 30)) []
    rwa [List.append_nil, ← hpkt] at this
  · exact List.append_nil (live _) ▸ live_decodes hdec []
  · rw [hlate] at hq
    cases hq

end MyServer

end DiamondApparatus
