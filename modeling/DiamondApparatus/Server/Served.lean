import DiamondApparatus.Data.Decoded
import DiamondApparatus.Lib.Keys
import DiamondApparatus.Server.Bookkeeping
import DiamondApparatus.Server.Counters

/-!
# Events after which the server goes on

A fault ends the server, so what it does as long as it runs is what it does without one.

* `proceed` : the state after an event without a fault;
* `request mem` : what the packet at `mem` asks for;
* `Served u fd size mem s'` : what a packet of the connection `fd` does to the state `u`, in which the
  statistics are out; `process_served` : every packet that is handled without a fault;
* `proceed_packet`, `proceed_accept`, `proceed_close` : the events of a run.
-/

namespace DiamondApparatus
open Lib Std

namespace MyServer

def proceed (s : MyServer) (e : Event) : Option MyServer :=
  if s.Enabled e then
    match s.step e with
    | (s', none) => some s'
    | (_, some _) => none
  else none

theorem proceed_eq_some {s s' : MyServer} {e : Event} :
    s.proceed e = some s' ↔ s.Enabled e ∧ s.step e = (s', none) := by
  unfold proceed
  obtain ⟨t, f⟩ := s.step e
  cases f <;> simp

/-! ## Packets -/

/-- What a packet asks for. -/
inductive Request
  | publish (n : CString)
  | subscribe (n : CString)
  | killserver
  | clearserver
  | unknown
  deriving DecidableEq

def request (mem : Bytes) : Option Request :=
  match takeU32 mem with
  | none => none
  | some (type, msg) =>
    if type = csPublish then (nameOfMsg mem).toOption.map .publish
    else if type = csSubscribe then (CString.ofMem msg).map .subscribe
    else if type = csKillserver then some .killserver
    else if type = csClearserver then some .clearserver
    else some .unknown

theorem request_publish {mem msg : Bytes} {n : CString} (htype : takeU32 mem = some (csPublish, msg))
    (hname : nameOfMsg mem = .ok n) : request mem = some (.publish n) := by
  simp [request, htype, hname, Except.toOption]

theorem request_subscribe {mem msg : Bytes} {n : CString}
    (htype : takeU32 mem = some (csSubscribe, msg)) (hn : CString.ofMem msg = some n) :
    request mem = some (.subscribe n) := by
  have hpub : csSubscribe ≠ csPublish := by decide
  simp [request, htype, hn, hpub]

theorem request_of_type {mem msg : Bytes} {type : UInt32} (htype : takeU32 mem = some (type, msg))
    (hpub : type ≠ csPublish) (hsub : type ≠ csSubscribe) : request mem =
      some (if type = csKillserver then .killserver
        else if type = csClearserver then .clearserver else .unknown) := by
  simp only [request, htype, if_neg hpub, if_neg hsub]
  split_ifs <;> rfl

/-- What a packet can do, once the statistics are out. -/
inductive Served (u : MyServer) (fd size : Nat) (mem : Bytes) (s' : MyServer) : Prop
  | known (n : CString) (d : List Datum) (t : Topic) (hreq : request mem = some (.publish n))
      (hdec : Decodes mem n d) (hn : n ∈ u.topics)
      (htalks : Talks u s' (u.toAll n (relayed mem size))) (hsends : Sends u s' [n]) (ht : t.d = d)
      (htopics : s'.topics = u.topics.insert n t)
  | named (n : CString) (d : List Datum) (t t' : Topic) (hreq : request mem = some (.publish n))
      (hdec : Decodes mem n d) (hn : n ∉ u.topics)
      (htalks : Talks u s' (u.toAll n (relayed mem size) ++ u.notes topicsName { d := t'.d }))
      (hsends : Sends u s' [n, topicsName]) (ht : t.d = d)
      (ht' : t'.d = s'.topics.keys.map .string)
      (htopics : s'.topics = (u.topics.insert n t).insert topicsName t')
  | subscribed (n : CString) (hreq : request mem = some (.subscribe n))
      (htalks : Talks (u.joined fd n) s' (u.greeting fd n)) (hsends : Sends u s' [n])
      (htopics : s'.topics = u.topics)
  | killed (hreq : request mem = some .killserver) (hs' : s' = { u with serverKill := true })
  | cleared (hreq : request mem = some .clearserver) (hs' : s' = { u with topics := ∅ })
  | ignored (hreq : request mem = some .unknown) (hs' : s' = u)

theorem decodes_of_decoded {s : MyServer} {mem : Bytes} {n : CString} {l : Loaded}
    (hname : nameOfMsg mem = .ok n) (hdec : (s.decoded mem n).2 = .ok l) :
    Decodes mem n (s.decoded mem n).1.d := by
  rw [decoded, fromMessage_eq] at hdec ⊢
  exact ⟨hname, l, by rw [fromMessage_eq, ← hdec]⟩

theorem publish_served {u s' : MyServer} {fd size : Nat} {mem msg : Bytes}
    (htype : takeU32 mem = some (csPublish, msg)) (h : u.publish mem size = (s', none)) :
    Served u fd size mem s' := by
  have heq := h
  rw [publish_eq] at heq
  split at heq
  · cases heq
  · next n hname =>
    split at heq
    · cases heq
    · next l hdec =>
      have hd := decodes_of_decoded hname hdec
      have hreq := request_publish htype hname
      have hsends := publish_sends hname h
      obtain ⟨t, ht, hcases⟩ := publish_cases hname hdec size
      rw [h, Prod.mk.injEq] at ht
      rw [← ht.1] at hcases
      rcases hcases with ⟨hn, htalks, htopics⟩ | ⟨hn, t', ht', htalks, htopics⟩
      · rw [if_pos (by simpa using hn)] at hsends
        exact .known n _ _ hreq hd hn htalks hsends rfl htopics
      · rw [if_neg (by simpa using hn)] at hsends
        refine .named n _ _ t' hreq hd hn htalks hsends rfl ?_ htopics
        rw [ht', htopics]
        refine directory_eq fun k => ?_
        rw [Keys.mem_insert_iff, published_topics]

theorem process_served {s s' : MyServer} {c : ClientInServer} (hc : s.curClient = some c) {size : Nat}
    {mem : Bytes} {now : Now} (h : s.process size mem now = (s', none)) :
    Served (s.counted now) c.fd size mem s' := by
  obtain ⟨d, hd⟩ := counted_rebuilds s now
  have hcases := process_handled s size mem now
  rw [h] at hcases
  generalize hr : (s', (none : Option Fault)) = r at hcases
  cases hcases with
  | short | outside | unterminated => cases hr
  | publish msg htype => exact publish_served htype hr.symm
  | subscribe msg c' n htype hc' hn =>
    rw [hd.talks.curClient, hc, Option.some_inj] at hc'
    subst hc'
    obtain ⟨t, ht, htopics, htalks⟩ := subscribe_talks (hd.talks.curClient.trans hc) n
    have hsends := subscribe_sends (hd.talks.curClient.trans hc) ht
    rw [← hr, Prod.mk.injEq] at ht
    rw [← ht.1] at htopics htalks hsends
    exact .subscribed n (request_subscribe htype hn) htalks hsends htopics
  | kill msg htype =>
    exact .killed (request_of_type htype (by decide) (by decide)) (Prod.mk.inj hr).1
  | clear msg htype =>
    exact .cleared (request_of_type htype (by decide) (by decide)) (Prod.mk.inj hr).1
  | other type msg htype hpub hsub hkill hclear =>
    have hreq := request_of_type htype hpub hsub
    rw [if_neg hkill, if_neg hclear] at hreq
    exact .ignored hreq (Prod.mk.inj hr).1

/-! ## The events of a run -/

end MyServer

def Event.request : Event → Option MyServer.Request
  | .packet _ pkt tail _ => MyServer.request (pkt ++ tail)
  | _ => none

namespace MyServer

/-- The state in which the packet of the connection `fd` is looked at. -/
def opened (s : MyServer) (c : ClientInServer) (now : Now) : MyServer :=
  { s with curClient := some c }.counted now

theorem opened_rebuilds (s : MyServer) (c : ClientInServer) (now : Now) :
    Rebuilds { s with curClient := some c } (s.opened c now) statsName
      (statsData { s with msgsrecvd := s.msgsrecvd + 1 } now) :=
  counted_stats { s with curClient := some c } now

theorem proceed_packet {s s' : MyServer} (hb : Bookkeeping s) {fd : Nat} {pkt tail : Bytes} {now : Now}
    (h : s.proceed (.packet fd pkt tail now) = some s') :
    ∃ c t, s.clients[fd]? = some (some c) ∧ c.fd = fd ∧ s' = { t with curClient := none } ∧
      Served (s.opened c now) fd pkt.length (pkt ++ tail) t := by
  obtain ⟨he, hstep⟩ := proceed_eq_some.1 h
  obtain ⟨c, hc, hfd⟩ := hb.held fd ((hb.active fd).1 he)
  have hstep : s.receive fd pkt tail now = (s', none) := hstep
  rw [receive_eq hc] at hstep
  split at hstep
  · cases hstep
  · next t heq =>
    have hserved := process_served (s := { s with curClient := some c }) rfl heq
    exact ⟨c, t, hc, hfd, (Prod.mk.inj hstep).1.symm, hfd ▸ hserved⟩

theorem proceed_deletetopic {s s' : MyServer} {n : CString}
    (h : s.proceed (.deletetopic n) = some s') : s' = s.deletetopic n :=
  (Prod.mk.inj (proceed_eq_some.1 h).2).1.symm

theorem proceed_accept {s s' : MyServer} {fd : Nat} (h : s.proceed (.accept fd) = some s') :
    s' = s.acceptClient fd :=
  (Prod.mk.inj (proceed_eq_some.1 h).2).1.symm

theorem proceed_close {s s' : MyServer} (hb : Bookkeeping s) {fd : Nat}
    (h : s.proceed (.close fd) = some s') : fd ∈ s.clients ∧ s' = s.closed fd := by
  obtain ⟨he, hstep⟩ := proceed_eq_some.1 h
  have hfd := (hb.active fd).1 he
  rw [step_close hb hfd] at hstep
  exact ⟨hfd, (Prod.mk.inj hstep).1.symm⟩

theorem proceed_bookkeeping {s s' : MyServer} {e : Event} (hb : Bookkeeping s)
    (h : s.proceed e = some s') : Bookkeeping s' := by
  obtain ⟨he, hstep⟩ := proceed_eq_some.1 h
  have := bookkeeping_step hb he
  rwa [hstep] at this

end MyServer

end DiamondApparatus
