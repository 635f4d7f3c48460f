import DiamondApparatus.Server.Served
import DiamondApparatus.Tcp.Send

/-!
# The server, with what its messages and its writes come to

`MyServer` takes every message for built and every `basesend` for complete. Here a message has an `int`
size, and the writes of a `basesend` have results.

* `SendResults` : the results of the writes, for every `basesend` of a run;
* `Sending.sendTo` : `basesend(..); msgssent++;`. A `basesend` that gives up on a broken pipe returns
  as one that has sent its block does, and is counted as well; one that throws ends the handler;
* `Sending.sendAll` to `Sending.step` : the functions above it, one by one;
* `Sending.proceed_eq` : what they do without a fault, `MyServer` does;
* `packetsSent` : how many blocks went out as one frame.
-/

namespace DiamondApparatus
open Lib Std

/-! ## Fallible steps -/

theorem bind_eq_ok {α β : Type} {x : Except Fault α} {f : α → Except Fault β} {b : β} :
    (x >>= f) = .ok b ↔ ∃ a, x = .ok a ∧ f a = .ok b := by
  cases x with
  | error e => exact iff_of_false (fun h => by cases h) fun ⟨a, ha, _⟩ => by cases ha
  | ok a => exact ⟨fun h => ⟨a, rfl, h⟩, fun ⟨a', ha, h⟩ => Except.ok.inj ha ▸ h⟩

theorem foldlM_eq_ok {α β : Type} {f : β → α → Except Fault β} {g : β → α → β}
    (hstep : ∀ b a c, f b a = .ok c → c = g b a) {l : List α} {b c : β} (h : l.foldlM f b = .ok c) :
    c = l.foldl g b := by
  induction l generalizing b with
  | nil => exact (Except.ok.inj h).symm
  | cons a l ih =>
    rw [List.foldlM_cons, bind_eq_ok] at h
    obtain ⟨b', hb', hrest⟩ := h
    rw [List.foldl_cons, ← hstep b a b' hb']
    exact ih hrest

/-! ## Results -/

/-- For the `basesend` calls of a run, by number: what their writes do, and `errno` before them. -/
abbrev SendResults := Nat → Writes × Nat

/-- What the call number `k` puts on the wire, and how it ends. -/
def SendResults.send (r : SendResults) (k : Nat) (p : Bytes) : Bytes × SendEnd :=
  basesend (r k).1 (r k).2 p

namespace MyServer

namespace Sending

variable (r : SendResults)

def sendTo (s : MyServer) (fd : Nat) (p : Bytes) : Except Fault MyServer :=
  match (r.send s.sent.length p).2 with
  | .thrown => .error (.exception "cannot send")
  | .returned | .brokenPipe => .ok (s.sendTo fd p)

def sendAll (s : MyServer) (name : CString) (p : Bytes) : Except Fault MyServer :=
  let s := { s with subscribers := s.subscribers.touch name }
  (s.subscribers.entry name).toList.foldlM (fun s i => sendTo r s i p) s

def publishInternal (s : MyServer) (name : CString) (t : Topic) : Except Fault MyServer := do
  let p ← t.toMessageInt scNotify name
  sendAll r s name p

def rebuildTopicsTopic (s : MyServer) : Except Fault MyServer :=
  let (s, t) := s.findOrCreateTopic topicsName
  let t := s.topics.keys.foldl (fun t n => t.add (.string n)) t.clear
  publishInternal r (s.setTopic topicsName t) topicsName t

def rebuildStatsTopic (s : MyServer) (now : Now) : Except Fault MyServer :=
  let (s, t) := s.findOrCreateTopic statsName
  let t := t.clear
  let t := t.add (.ofNat s.subscribers.size)
  let t := t.add (.ofNat s.msgssent)
  let t := t.add (.ofNat s.msgsrecvd)
  let t := t.add (.float now)
  publishInternal r (s.setTopic statsName t) statsName t

def respond (s : MyServer) (data : Bytes) : Except Fault MyServer :=
  match s.curClient with
  | none => .error (.exception "cannot call respond() outside process()")
  | some c => sendTo r s c.fd data

def subscribe (s : MyServer) (fd : Nat) (n : CString) : Except Fault MyServer :=
  let s := { s with subscribers := s.subscribers.add n fd, subtopics := s.subtopics.add fd n }
  match s.topics[n]? with
  | some t => do
    let p ← t.toMessageInt scNotify n
    respond r s p
  | none => .ok s

def publish (s : MyServer) (mem : Bytes) (pktsize : Nat) : Except Fault MyServer := do
  let name ← nameOfMsg mem
  let isnew := !s.topics.contains name
  let (s, t) := s.findOrCreateTopic name
  let (t, loaded) := t.fromMessage mem false
  let s := s.setTopic name t
  let _ ← loaded
  let s ← sendAll r s name (relayed mem pktsize)
  if isnew then rebuildTopicsTopic r s else .ok s

def process (s : MyServer) (packetsize : Nat) (mem : Bytes) (now : Now) : Except Fault MyServer := do
  let s := { s with msgsrecvd := s.msgsrecvd + 1 }
  let s ← rebuildStatsTopic r s now
  match takeU32 mem with
  | none => .error .outOfBounds
  | some (type, msg) =>
    if type = csPublish then publish r s mem packetsize
    else if type = csSubscribe then
      match s.curClient with
      | none => .error (.exception "cannot call getfd() outside process()")
      | some c =>
        match CString.ofMem msg with
        | none => .error .outOfBounds
        | some n => subscribe r s c.fd n
    else if type = csKillserver then .ok { s with serverKill := true }
    else if type = csClearserver then .ok { s with topics := ∅ }
    else .ok s

def receive (s : MyServer) (i : Nat) (pkt tail : Bytes) (now : Now) : Except Fault MyServer :=
  match s.clientAt i with
  | (_, none) => .error .nullPointer
  | (s, some c) => do
    let s ← process r { s with curClient := some c } pkt.length (pkt ++ tail) now
    .ok { s with curClient := none }

/-- The other events send nothing. -/
def step (s : MyServer) : Event → Except Fault MyServer
  | .packet fd pkt tail now => receive r s fd pkt tail now
  | e =>
    match s.step e with
    | (s, none) => .ok s
    | (_, some f) => .error f

def proceed (s : MyServer) (e : Event) : Option MyServer :=
  if s.Enabled e then (step r s e).toOption else none

/-! ## Without a fault -/

variable {r} {s t : MyServer}

theorem sendTo_eq {fd : Nat} {p : Bytes} (h : sendTo r s fd p = .ok t) : t = s.sendTo fd p := by
  unfold sendTo at h
  split at h
  · cases h
  · exact (Except.ok.inj h).symm
  · exact (Except.ok.inj h).symm

theorem sendAll_eq {n : CString} {p : Bytes} (h : sendAll r s n p = .ok t) : t = s.sendAll n p :=
  foldlM_eq_ok (fun _ _ _ => sendTo_eq) h

theorem publishInternal_eq {n : CString} {x : Topic} (h : publishInternal r s n x = .ok t) :
    t = s.publishInternal n x := by
  obtain ⟨p, hp, hall⟩ := bind_eq_ok.1 h
  rw [sendAll_eq hall, (toMessageInt_eq_ok.1 hp).2, MyServer.publishInternal]

theorem rebuildTopicsTopic_eq (h : rebuildTopicsTopic r s = .ok t) : t = s.rebuildTopicsTopic :=
  publishInternal_eq h

theorem rebuildStatsTopic_eq {now : Now} (h : rebuildStatsTopic r s now = .ok t) :
    t = s.rebuildStatsTopic now :=
  publishInternal_eq h

theorem respond_eq {data : Bytes} (h : respond r s data = .ok t) : s.respond data = (t, none) := by
  cases hc : s.curClient with
  | none =>
    simp only [respond, hc] at h
    cases h
  | some c =>
    simp only [respond, hc] at h
    simp only [MyServer.respond, hc, sendTo_eq h]

theorem subscribe_eq {fd : Nat} {n : CString} (h : subscribe r s fd n = .ok t) :
    s.subscribe fd n = (t, none) := by
  cases hx : s.topics[n]? with
  | none =>
    simp only [subscribe, hx] at h
    simp only [MyServer.subscribe, hx, Except.ok.inj h]
  | some x =>
    simp only [subscribe, hx] at h
    obtain ⟨p, hp, hresp⟩ := bind_eq_ok.1 h
    rw [(toMessageInt_eq_ok.1 hp).2] at hresp
    simp only [MyServer.subscribe, hx]
    exact respond_eq hresp

theorem publish_eq {mem : Bytes} {pktsize : Nat} (h : publish r s mem pktsize = .ok t) :
    s.publish mem pktsize = (t, none) := by
  unfold publish at h
  obtain ⟨n, hn, h⟩ := bind_eq_ok.1 h
  unfold MyServer.publish
  rw [hn]
  dsimp only at h ⊢
  obtain ⟨l, hl, h⟩ := bind_eq_ok.1 h
  obtain ⟨u, hu, h⟩ := bind_eq_ok.1 h
  rw [hl, ← sendAll_eq hu]
  by_cases hnew : (!s.topics.contains n) = true
  · rw [if_pos hnew] at h ⊢
    rw [rebuildTopicsTopic_eq h]
  · rw [if_neg hnew] at h ⊢
    rw [Except.ok.inj h]

theorem process_eq {size : Nat} {mem : Bytes} {now : Now} (h : process r s size mem now = .ok t) :
    s.process size mem now = (t, none) := by
  obtain ⟨u, hu, h⟩ := bind_eq_ok.1 h
  unfold MyServer.process
  dsimp only
  rw [← rebuildStatsTopic_eq hu]
  cases htype : takeU32 mem with
  | none =>
    simp only [htype] at h
    cases h
  | some x =>
    obtain ⟨type, msg⟩ := x
    simp only [htype] at h ⊢
    split_ifs at h ⊢
    · exact publish_eq h
    · cases hc : u.curClient with
      | none =>
        simp only [hc] at h
        cases h
      | some c =>
        simp only [hc] at h
        cases hn : CString.ofMem msg with
        | none =>
          simp only [hn] at h
          cases h
        | some n =>
          simp only [hn] at h
          exact subscribe_eq h
    · rw [Except.ok.inj h]
    · rw [Except.ok.inj h]
    · rw [Except.ok.inj h]

theorem receive_eq {i : Nat} {pkt tail : Bytes} {now : Now} (h : receive r s i pkt tail now = .ok t) :
    s.receive i pkt tail now = (t, none) := by
  unfold receive at h
  unfold MyServer.receive
  rcases hc : s.clientAt i with ⟨u, _ | c⟩
  · simp only [hc] at h
    cases h
  · simp only [hc] at h
    obtain ⟨v, hv, hend⟩ := bind_eq_ok.1 h
    simp only [process_eq hv, ← Except.ok.inj hend]

theorem step_eq {e : Event} (h : step r s e = .ok t) : s.step e = (t, none) := by
  cases e with
  | packet fd pkt tail now => exact receive_eq h
  | accept fd => exact Prod.ext (Except.ok.inj h) rfl
  | close fd =>
    unfold step at h
    rcases hstep : s.step (.close fd) with ⟨u, _ | f⟩
    · simp only [hstep] at h
      rw [Except.ok.inj h]
    · simp only [hstep] at h
      cases h
  | deletetopic n => exact Prod.ext (Except.ok.inj h) rfl

/-- **What happens without a fault, happens to `MyServer`.** -/
theorem proceed_eq {e : Event} (h : proceed r s e = some t) : s.proceed e = some t := by
  obtain ⟨he, hstep⟩ := Option.ite_none_right_eq_some.1 h
  refine proceed_eq_some.2 ⟨he, step_eq (r := r) ?_⟩
  cases hs : step r s e with
  | error f =>
    rw [hs] at hstep
    cases hstep
  | ok u =>
    rw [hs] at hstep
    rw [Option.some_inj.1 hstep]

theorem exec_eq {es : List Event} (h : Run.exec (proceed r) s es = some t) :
    Run.exec MyServer.proceed s es = some t := by
  induction es generalizing s with
  | nil => exact h
  | cons e es ih =>
    obtain ⟨u, hu, hrest⟩ := Run.exec_cons_eq_some.1 h
    exact Run.exec_cons_eq_some.2 ⟨u, proceed_eq hu, ih hrest⟩

end Sending

/-! ## What is on the wire -/

/-- The calls, each with its number, that put their block on the wire as one frame. -/
def OnWire (r : SendResults) (x : (Nat × Bytes) × Nat) : Prop := (r.send x.2 x.1.2).1 = frame x.1.2

instance (r : SendResults) (x : (Nat × Bytes) × Nat) : Decidable (OnWire r x) :=
  inferInstanceAs (Decidable (_ = _))

/-- The packets that the server has sent. -/
def packetsSent (r : SendResults) (s : MyServer) : Nat := s.sent.zipIdx.countP (OnWire r ·)

theorem packetsSent_eq_iff {r : SendResults} {s : MyServer} :
    s.sent.length = packetsSent r s ↔ ∀ x ∈ s.sent.zipIdx, OnWire r x := by
  have hcount := List.countP_eq_length (p := fun x => decide (OnWire r x)) (l := s.sent.zipIdx)
  rw [List.length_zipIdx, eq_comm] at hcount
  simpa [packetsSent] using hcount

end MyServer

end DiamondApparatus
