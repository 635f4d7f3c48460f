import DiamondApparatus.Lib.Binary32
import DiamondApparatus.Server.Sending

/-!
# The 'stats' topic

Its first item is the size of the map `subscribers`. An entry of this map is a name, made by the first
subscription or the first publication, and stays when the last subscriber has gone. Its second item
counts the `basesend` calls that returned, and one that gave up on a broken pipe is among them.

* `built s now` : what a packet that comes in the state `s` puts into 'stats'; `Datum.number` : the
  number that an item stands for, and `value_floatBits` : the conversion from an `int` is exact;
* `mentioned es`, `holding es` : the names that were used, and the connections that hold a
  subscription, after the events `es`; `Counted es s` : the counters, after `es`;
* `stats_truthful` : the items that are built, and when they are the number of subscribers and that of
  the packets sent.
-/

namespace DiamondApparatus
open Lib Std

/-! ## Numbers -/

theorem value_floatBits_of_lt {n : Nat} (hn : n ≠ 0) (h : n < 2 ^ 24) :
    Binary32.value (floatBits n) = n := by
  have hlog : Nat.log2 n ≤ 23 := by
    have := (Nat.log2_lt hn).2 h
    omega
  have hpow : 2 ^ Nat.log2 n * 2 ^ (23 - Nat.log2 n) = 2 ^ 23 := by
    rw [← pow_add]
    congr 1
    omega
  have hlow := Nat.mul_le_mul_right (2 ^ (23 - Nat.log2 n)) (Nat.log2_self_le hn)
  have hup := Nat.mul_lt_mul_of_pos_right (Nat.lt_log2_self (n := n))
    (pow_pos (show 0 < 2 by decide) (23 - Nat.log2 n))
  rw [pow_succ, mul_right_comm] at hup
  have hbits : (floatBits n).toNat =
      (127 + Nat.log2 n) * 2 ^ 23 + (n * 2 ^ (23 - Nat.log2 n) - 2 ^ 23) := by
    simp only [floatBits, if_neg hn, if_pos hlog]
    rw [UInt32.toNat_ofNat', Nat.mod_eq_of_lt (by omega)]
  have hsum : 2 ^ 23 + (n * 2 ^ (23 - Nat.log2 n) - 2 ^ 23) = n * 2 ^ (23 - Nat.log2 n) := by omega
  rw [Binary32.value_of_fields (by omega) (by omega) hbits, hsum, Binary32.mul_pow_mul_zpow hlog]

/-- **Up to `2 ^ 24` the conversion is exact.** -/
theorem value_floatBits {n : Nat} (h : n ≤ 2 ^ 24) : Binary32.value (floatBits n) = n := by
  by_cases hn : n = 0
  · simp [hn, floatBits, Binary32.value_zero]
  by_cases hlt : n < 2 ^ 24
  · exact value_floatBits_of_lt hn hlt
  · have hmax : n = 2 ^ 24 := by omega
    have hbits : (floatBits (2 ^ 24)).toNat = (127 + 24) * 2 ^ 23 + 0 := by decide +kernel
    rw [hmax, Binary32.value_of_fields (by decide) (by decide) hbits]
    norm_num

def Datum.number : Datum → Option ℚ
  | .float f => some (Binary32.value f)
  | .string _ => none

theorem number_ofNat {n : Nat} (h : n ≤ 2 ^ 24) : (Datum.ofNat n).number = some (n : ℚ) := by
  rw [Datum.ofNat, Datum.number, value_floatBits h]

namespace MyServer

/-- What the next packet puts into 'stats'. -/
def built (s : MyServer) (now : Now) : List Datum :=
  { s with msgsrecvd := s.msgsrecvd + 1 }.statsData now

theorem built_sent {s : MyServer} (hb : Bookkeeping s) {fd : Nat} {pkt tail : Bytes} {now : Now}
    (he : s.Enabled (.packet fd pkt tail now)) :
    ∃ out, (s.step (.packet fd pkt tail now)).1.sent =
      s.sent ++ (s.notes statsName { d := s.built now } ++ out) := by
  obtain ⟨c, hc, rfl⟩ := hb.held fd ((hb.active fd).1 he)
  have hopen := (opened_rebuilds s c now).talks.sent
  obtain ⟨out, hout, -⟩ := (handled_keeps (hb.setCurClient (some c)) rfl ((hb.active c.fd).1 he)
    pkt.length (pkt ++ tail) now).sent
  refine ⟨out, ?_⟩
  show (s.receive c.fd pkt tail now).1.sent = _
  have hsent : (s.receive c.fd pkt tail now).1.sent = (s.processFor c pkt tail now).1.sent := by
    rw [receive_eq hc]
    split <;> simp_all
  rw [hsent]
  refine hout.trans ?_
  rw [← List.append_assoc]
  exact congrArg (· ++ out) hopen

/-! ## Names and subscribers -/

def Request.names : Request → List CString
  | .publish n | .subscribe n => [n]
  | _ => []

end MyServer

namespace Event

def isPacket : Event → Bool
  | .packet .. => true
  | _ => false

def names (e : Event) : List CString := e.request.elim [] MyServer.Request.names

end Event

namespace MyServer

/-- The names that have been used: the constructor starts with two. -/
def mentioned (es : List Event) : Finset CString :=
  (statsName :: topicsName :: es.flatMap Event.names).toFinset

theorem mem_mentioned_snoc {es : List Event} {e : Event} {n : CString} :
    n ∈ mentioned (es ++ [e]) ↔ n ∈ e.names ∨ n ∈ mentioned es := by
  simp only [mentioned, List.mem_toFinset, List.mem_cons, List.flatMap_append, List.flatMap_singleton,
    List.mem_append]
  grind

/-- The connections with a subscription, after one more event. -/
def hold (f : Finset Nat) (e : Event) : Finset Nat :=
  match e with
  | .packet fd pkt tail _ =>
    match request (pkt ++ tail) with
    | some (.subscribe _) => insert fd f
    | _ => f
  | .close fd => f.erase fd
  | _ => f

/-- The connections that hold a subscription after `es`. -/
def holding (es : List Event) : Finset Nat := es.foldl hold ∅

theorem holding_snoc (es : List Event) (e : Event) : holding (es ++ [e]) = hold (holding es) e := by
  rw [holding, List.foldl_append]
  rfl

theorem mem_hold_packet {f : Finset Nat} {fd k : Nat} {pkt tail : Bytes} {now : Now} :
    k ∈ hold f (.packet fd pkt tail now) ↔
      k ∈ f ∨ k = fd ∧ ∃ n, request (pkt ++ tail) = some (.subscribe n) := by
  unfold hold
  dsimp only
  split
  · next n heq => simp [heq, or_comm]
  · next hne => exact (or_iff_left fun ⟨_, n, hn⟩ => hne n hn).symm

/-- The counters after the events `es`. -/
structure Counted (es : List Event) (s : MyServer) : Prop where
  books : Bookkeeping s
  names : ∀ n, n ∈ s.subscribers ↔ n ∈ mentioned es
  holders : ∀ fd, fd ∈ holding es ↔ ∃ n, fd ∈ s.subscribers.entry n
  sent : s.msgssent = s.sent.length
  recvd : s.msgsrecvd = es.countP Event.isPacket

theorem opened_sends (s : MyServer) (c : ClientInServer) (now : Now) :
    Sends { s with msgsrecvd := s.msgsrecvd + 1 } (s.opened c now) [statsName] := by
  obtain ⟨hnames, hcount, hrecvd⟩ := counted_sends { s with curClient := some c } now
  exact ⟨hnames, hcount, hrecvd⟩

theorem served_sends {u s' : MyServer} {fd size : Nat} {mem : Bytes} (h : Served u fd size mem s')
    (hdir : topicsName ∈ u.subscribers) : ∃ r, request mem = some r ∧ Sends u s' r.names := by
  cases h with
  | known n d t hreq _ _ _ hsends => exact ⟨_, hreq, hsends⟩
  | named n d t t' hreq _ _ _ hsends =>
    refine ⟨_, hreq, fun k => ?_, hsends.count, hsends.recvd⟩
    rw [hsends.names]
    simp only [Request.names, List.mem_cons, List.not_mem_nil, or_false, or_assoc]
    refine or_congr_right ⟨fun hk => hk.elim (fun he => he ▸ hdir) id, Or.inr⟩
  | subscribed n hreq _ hsends => exact ⟨_, hreq, hsends⟩
  | killed hreq hs' | cleared hreq hs' | ignored hreq hs' =>
    rw [hs']
    exact ⟨_, hreq, fun n => by simp [Request.names], rfl, rfl⟩

theorem served_entry {u s' : MyServer} {fd size : Nat} {mem : Bytes} (h : Served u fd size mem s')
    (k : Nat) (n : CString) : k ∈ s'.subscribers.entry n ↔
      k ∈ u.subscribers.entry n ∨ k = fd ∧ request mem = some (.subscribe n) := by
  cases h with
  | known m d t hreq _ _ htalks | named m d t t' hreq _ _ htalks => rw [htalks.entry, hreq]; simp
  | subscribed m hreq htalks =>
    rw [htalks.entry, joined, SetMap.mem_entry_add, hreq]
    simp only [Option.some.injEq, Request.subscribe.injEq]
    grind
  | killed hreq hs' | cleared hreq hs' | ignored hreq hs' => rw [hs', hreq]; simp

theorem counted_new (listenfd : Nat) (others : FdSet) (now : Now) :
    Counted [] (new listenfd others now) := by
  have hsends : Sends (bare listenfd others) (new listenfd others now) [statsName, topicsName] := by
    rw [new_eq]
    exact ((setTopic_sends _ versionName versionTopic).trans (rebuildStatsTopic_sends _ now)).trans
      (rebuildTopicsTopic_sends _)
  refine ⟨bookkeeping_new listenfd others now, fun n => ?_, fun fd => ?_, ?_, hsends.recvd⟩
  · rw [hsends.names]
    simp [mentioned, bare]
  · obtain ⟨out, ht⟩ := new_talks listenfd others now
    refine iff_of_false (by simp [holding]) ?_
    rintro ⟨n, hn⟩
    rw [ht.entry] at hn
    exact SetMap.not_mem_entry_empty n fd hn
  · have := hsends.count
    simp only [bare, List.length_nil] at this
    omega

theorem Counted.packet {es : List Event} {s s' : MyServer} (h : Counted es s) {fd : Nat}
    {pkt tail : Bytes} {now : Now} (he : s.proceed (.packet fd pkt tail now) = some s') :
    Counted (es ++ [.packet fd pkt tail now]) s' := by
  obtain ⟨c, t, -, -, rfl, hserved⟩ := proceed_packet h.books he
  have hopen := opened_sends s c now
  have htalks := (opened_rebuilds s c now).talks
  have hused : ∀ n, n ∈ (s.opened c now).subscribers ↔ n ∈ mentioned es := by
    intro n
    rw [hopen.names, List.mem_singleton]
    refine ⟨fun hn => hn.elim (fun he => ?_) (h.names n).1, fun hn => Or.inr ((h.names n).2 hn)⟩
    simp [he, mentioned]
  obtain ⟨r, hreq, hsends⟩ := served_sends hserved ((hused topicsName).2 (by simp [mentioned]))
  refine ⟨proceed_bookkeeping h.books he, fun n => ?_, fun k => ?_, ?_, ?_⟩
  · rw [mem_mentioned_snoc, Event.names, Event.request, hreq, ← hused]
    exact hsends.names n
  · rw [holding_snoc, mem_hold_packet, h.holders]
    simp only [served_entry hserved, htalks.entry, exists_or, exists_and_left]
  · have := hopen.count
    have := hsends.count
    have := h.sent
    simp only at *
    omega
  · have hrecvd := (hsends.recvd.trans hopen.recvd)
    rw [List.countP_append, ← h.recvd]
    exact hrecvd

theorem Counted.proceed {es : List Event} {s s' : MyServer} {e : Event} (h : Counted es s)
    (he : s.proceed e = some s') (hdel : ∀ n, e ≠ .deletetopic n) : Counted (es ++ [e]) s' := by
  have hb := proceed_bookkeeping h.books he
  cases e with
  | accept fd =>
    rw [proceed_accept he] at hb ⊢
    refine ⟨hb, fun n => ?_, fun k => ?_, h.sent, ?_⟩
    · rw [mem_mentioned_snoc]
      simpa [Event.names, Event.request, acceptClient] using h.names n
    · rw [holding_snoc]
      exact h.holders k
    · simpa [Event.isPacket, acceptClient] using h.recvd
  | packet fd pkt tail now => exact h.packet he
  | close fd =>
    obtain ⟨-, rfl⟩ := proceed_close h.books he
    refine ⟨hb, fun n => ?_, fun k => ?_, h.sent, ?_⟩
    · rw [mem_mentioned_snoc, closed, unsubscribe, SetMap.mem_removeAll, ← h.names]
      refine ⟨fun hn => Or.inr (hn.elim (fun hsub => ?_) id), fun hn => Or.inr (hn.resolve_left ?_)⟩
      · rw [ExtTreeSet.mem_toList, ← h.books.twoWay] at hsub
        exact SetMap.mem_of_mem_entry hsub
      · simp [Event.names, Event.request]
    · rw [holding_snoc, hold, Finset.mem_erase, h.holders]
      simp only [mem_entry_closed h.books, exists_and_right]
      exact and_comm
    · simpa [Event.isPacket, closed, unsubscribe] using h.recvd
  | deletetopic n => exact absurd rfl (hdel n)

theorem counted_run {listenfd : Nat} {others : FdSet} {now : Now} {es : List Event} {s : MyServer}
    (h : Run.exec MyServer.proceed (new listenfd others now) es = some s)
    (hdel : ∀ e ∈ es, ∀ n, e ≠ .deletetopic n) : Counted es s := by
  have hrun : (∀ e ∈ es, ∀ n, e ≠ .deletetopic n) → Counted es s := by
    refine Run.invariant_history (I := fun es s => (∀ e ∈ es, ∀ n, e ≠ .deletetopic n) → Counted es s)
      (fun es s e s' hs he hes => ?_) (h := []) (fun _ => counted_new listenfd others now) h
    rw [List.forall_mem_append] at hes
    exact (hs hes.1).proceed he (hes.2 e (List.mem_singleton_self e))
  exact hrun hdel

def counts (d : List Datum) : List (Option ℚ) := (d.take 3).map Datum.number

theorem counts_built {s : MyServer} (now : Now) (hnames : s.subscribers.size ≤ 2 ^ 24)
    (hsent : s.msgssent ≤ 2 ^ 24) (hrecvd : s.msgsrecvd + 1 ≤ 2 ^ 24) : counts (s.built now) =
      [some (s.subscribers.size : ℚ), some (s.msgssent : ℚ), some ((s.msgsrecvd + 1 : ℕ) : ℚ)] := by
  rw [← number_ofNat hnames, ← number_ofNat hsent, ← number_ofNat hrecvd]
  rfl

/-- **What 'stats' counts**: the names that were ever used, the `basesend` calls that returned, and the
packets received. So it tells the number of connections that hold a subscription and that of the
packets sent exactly when there are as many names as such connections, and every call so far has put
its block on the wire. -/
theorem stats_truthful (r : SendResults) (listenfd : Nat) (others : FdSet) (now₀ : Now)
    (es : List Event) (s : MyServer)
    (h : Run.exec (Sending.proceed r) (new listenfd others now₀) es = some s)
    (hdel : ∀ e ∈ es, ∀ n, e ≠ .deletetopic n) (hnames : s.subscribers.size ≤ 2 ^ 24)
    (hsent : s.msgssent ≤ 2 ^ 24) (hrecvd : s.msgsrecvd + 1 ≤ 2 ^ 24) (now : Now) :
    (∀ fd pkt tail s', Sending.proceed r s (.packet fd pkt tail now) = some s' →
      ∃ out, s'.sent = s.sent ++ (s.notes statsName { d := s.built now } ++ out)) ∧
    (∀ k, k ∈ holding es ↔ ∃ n, k ∈ s.subscribers.entry n) ∧
    counts (s.built now) = [some ((mentioned es).card : ℚ), some (s.sent.length : ℚ),
      some ((es.countP Event.isPacket + 1 : ℕ) : ℚ)] ∧
    (counts (s.built now) = [some ((holding es).card : ℚ), some (packetsSent r s : ℚ),
      some ((es.countP Event.isPacket + 1 : ℕ) : ℚ)] ↔
      (mentioned es).card = (holding es).card ∧ ∀ x ∈ s.sent.zipIdx, OnWire r x) := by
  have hc := counted_run (Sending.exec_eq h) hdel
  have hcard : (mentioned es).card = s.subscribers.size :=
    Keys.card_eq_size fun n => (hc.names n).symm
  have hcounts := counts_built now hnames hsent hrecvd
  rw [← hcard, hc.sent, hc.recvd] at hcounts
  refine ⟨fun fd pkt tail s' hs' => ?_, hc.holders, hcounts, ?_⟩
  · obtain ⟨he, hstep⟩ := proceed_eq_some.1 (Sending.proceed_eq hs')
    obtain ⟨out, hout⟩ := built_sent hc.books he
    exact ⟨out, by rw [← hout, hstep]⟩
  · rw [hcounts, ← packetsSent_eq_iff]
    simp

/-- Every write takes all it is given. -/
def wellSent : SendResults := fun _ => (fun _ => .all, 0)

def audience : List Event :=
  [.accept 4, .accept 5, .packet 4 (be32 csSubscribe ++ statsName.mem) [] 7,
    .packet 5 (be32 csSubscribe ++ statsName.mem) [] 8]

theorem stats_truthful_audience :
    ∃ s, Run.exec (Sending.proceed wellSent) (new 3 ∅ 0) audience = some s ∧
      counts (s.built 9) = [some 2, some (packetsSent wellSent s : ℚ), some 3] := by
  have hrun : (Run.exec (Sending.proceed wellSent) (new 3 ∅ 0) audience).map
      (fun s => decide (s.subscribers.size ≤ 2 ^ 24 ∧ s.msgssent ≤ 2 ^ 24 ∧
        s.msgsrecvd + 1 ≤ 2 ^ 24 ∧ ∀ x ∈ s.sent.zipIdx, OnWire wellSent x)) = some true := by
    decide +kernel
  obtain ⟨s, hs, hconds⟩ := Option.map_eq_some_iff.1 hrun
  obtain ⟨hnames, hsent, hrecvd, hwhole⟩ := of_decide_eq_true hconds
  have hdel : ∀ e ∈ audience, ∀ n, e ≠ .deletetopic n := by
    simp [audience]
  have htrue := (stats_truthful wellSent 3 ∅ 0 audience s hs hdel hnames hsent hrecvd 9).2.2.2.2
    ⟨by decide +kernel, hwhole⟩
  have hholding : (holding audience).card = 2 := by decide +kernel
  rw [hholding] at htrue
  exact ⟨s, hs, htrue⟩

theorem counts_of_built {s : MyServer} {now f : Now} {i j k : Nat}
    (h : s.built now = [.ofNat i, .ofNat j, .ofNat k, .float f]) (hi : i ≤ 2 ^ 24) (hj : j ≤ 2 ^ 24)
    (hk : k ≤ 2 ^ 24) : counts (s.built now) = [some (i : ℚ), some (j : ℚ), some (k : ℚ)] := by
  rw [h, ← number_ofNat hi, ← number_ofNat hj, ← number_ofNat hk]
  rfl

/-- Before anyone has subscribed to anything the first item is 2. -/
theorem stats_counts_names : ∃ s, Run.exec (Sending.proceed wellSent) (new 3 ∅ 0) [.accept 4] = some s ∧
    s.Enabled (.packet 4 (noDataMsg 99) [] 7) ∧ (∀ fd n, fd ∉ s.subscribers.entry n) ∧
    packetsSent wellSent s = 0 ∧ counts (s.built 7) = [some 2, some 0, some 1] := by
  have hrun : (Run.exec (Sending.proceed wellSent) (new 3 ∅ 0) [.accept 4]).map
      (fun s => (decide (s.Enabled (.packet 4 (noDataMsg 99) [] 7)), packetsSent wellSent s, s.built 7)) =
      some (true, 0, [.ofNat 2, .ofNat 0, .ofNat 1, .float 7]) := by
    decide +kernel
  obtain ⟨s, hs, hpair⟩ := Option.map_eq_some_iff.1 hrun
  obtain ⟨he, hrest⟩ := Prod.mk.inj hpair
  obtain ⟨hpackets, hbuilt⟩ := Prod.mk.inj hrest
  have hc := counted_run (Sending.exec_eq hs) (by simp)
  refine ⟨s, hs, of_decide_eq_true he, fun fd n hn => ?_, hpackets, ?_⟩
  · exact absurd ((hc.holders fd).2 ⟨n, hn⟩) (by simp [holding, hold])
  · simpa using counts_of_built hbuilt (by decide) (by decide) (by decide)

def pipeBroken : SendResults := fun k => (fun i => if k = 0 ∧ i ≤ 1 then .failed EPIPE else .all, 0)

-- The answer to a subscription is given up, and counted.
example : (Run.exec (Sending.proceed pipeBroken) (new 3 ∅ 0)
    [.accept 4, .packet 4 (be32 csSubscribe ++ statsName.mem) [] 7]).map
    (fun s => (packetsSent pipeBroken s, s.built 8)) =
    some (0, [.ofNat 2, .ofNat 1, .ofNat 2, .float 8]) := by
  decide +kernel

end MyServer

end DiamondApparatus
