import DiamondApparatus.Server.Effects

/-!
# The server's counters

What the functions do to what 'stats' is made of: the keys of `subscribers`, `msgssent` and
`msgsrecvd`.

* `Sends s s' ns` : from `s` to `s'` the entries of `ns` were used, every send was counted, and no
  packet was received; `publish_sends`, `subscribe_sends`, `counted_sends` : one a function.
-/

namespace DiamondApparatus
open Lib Std

namespace MyServer

structure Sends (s s' : MyServer) (ns : List CString) : Prop where
  names : ∀ n, n ∈ s'.subscribers ↔ n ∈ ns ∨ n ∈ s.subscribers
  count : s'.msgssent + s.sent.length = s.msgssent + s'.sent.length
  recvd : s'.msgsrecvd = s.msgsrecvd

theorem Sends.trans {s t u : MyServer} {ns ms : List CString} (h : Sends s t ns) (h' : Sends t u ms) :
    Sends s u (ns ++ ms) where
  names n := by rw [h'.names, h.names, List.mem_append, or_left_comm, or_assoc]
  count := by
    have := h.count
    have := h'.count
    omega
  recvd := h'.recvd.trans h.recvd

theorem setTopic_sends (s : MyServer) (n : CString) (t : Topic) : Sends s (s.setTopic n t) [] :=
  ⟨fun n => by simp [setTopic], rfl, rfl⟩

theorem sendAll_sends (s : MyServer) (n : CString) (p : Bytes) : Sends s (s.sendAll n p) [n] := by
  rw [sendAll_eq]
  refine ⟨fun k => ?_, ?_, rfl⟩
  · rw [SetMap.mem_touch, List.mem_singleton]
  · have hlen : (s.toAll n p).length = (s.subscribers.entry n).toList.length := List.length_map _
    simp only [List.length_append]
    omega

theorem publishInternal_sends (s : MyServer) (n : CString) (t : Topic) :
    Sends s ((s.setTopic n t).publishInternal n t) [n] :=
  (setTopic_sends s n t).trans (sendAll_sends _ n _)

theorem rebuildStatsTopic_sends (s : MyServer) (now : Now) :
    Sends s (s.rebuildStatsTopic now) [statsName] := by
  rw [rebuildStatsTopic_eq]
  exact publishInternal_sends s statsName _

theorem rebuildTopicsTopic_sends (s : MyServer) : Sends s s.rebuildTopicsTopic [topicsName] := by
  rw [rebuildTopicsTopic_eq]
  exact publishInternal_sends s topicsName _

theorem published_sends (s : MyServer) (mem : Bytes) (pktsize : Nat) (n : CString) :
    Sends s (s.published mem pktsize n) [n] :=
  (setTopic_sends s n _).trans (sendAll_sends _ n _)

theorem publish_sends {s s' : MyServer} {mem : Bytes} {n : CString} (hname : nameOfMsg mem = .ok n)
    {pktsize : Nat} (h : s.publish mem pktsize = (s', none)) :
    Sends s s' (if s.topics.contains n then [n] else [n, topicsName]) := by
  rw [publish_eq, hname] at h
  have hp := published_sends s mem pktsize n
  dsimp only at h
  split at h
  · cases h
  · obtain ⟨rfl, -⟩ := Prod.mk.inj h
    split
    · exact hp
    · exact hp.trans (rebuildTopicsTopic_sends _)

theorem sendTo_sends (s : MyServer) (fd : Nat) (p : Bytes) : Sends s (s.sendTo fd p) [] := by
  refine ⟨fun n => by simp [sendTo], ?_, rfl⟩
  simp only [sendTo, List.length_append, List.length_singleton]
  omega

theorem joined_sends (s : MyServer) (fd : Nat) (n : CString) : Sends s (s.joined fd n) [n] := by
  refine ⟨fun k => ?_, rfl, rfl⟩
  rw [joined, SetMap.mem_add, List.mem_singleton]

theorem subscribe_sends {s s' : MyServer} {c : ClientInServer} (hc : s.curClient = some c) {n : CString}
    (h : s.subscribe c.fd n = (s', none)) : Sends s s' [n] := by
  unfold subscribe at h
  dsimp only at h
  split at h
  · next t _ =>
    have hresp : (s.joined c.fd n).respond (t.toMessage scNotify n) =
        ((s.joined c.fd n).sendTo c.fd (t.toMessage scNotify n), none) := by
      simp [respond, joined, hc]
    rw [← joined, hresp] at h
    obtain ⟨rfl, -⟩ := Prod.mk.inj h
    exact (joined_sends s c.fd n).trans (sendTo_sends _ c.fd _)
  · obtain ⟨rfl, -⟩ := Prod.mk.inj h
    exact joined_sends s c.fd n

theorem counted_sends (s : MyServer) (now : Now) :
    Sends { s with msgsrecvd := s.msgsrecvd + 1 } (s.counted now) [statsName] :=
  rebuildStatsTopic_sends _ now

end MyServer

end DiamondApparatus
