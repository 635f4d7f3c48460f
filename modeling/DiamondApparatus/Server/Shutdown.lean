import DiamondApparatus.Server.Served
import DiamondApparatus.Tcp.Framing
import Mathlib.Logic.Function.Basic

/-!
# Shutdown by a signal

The handler of SIGINT and SIGQUIT calls `shutdown` on top of whatever the loop was doing.

* `Move` : what the loop does to the connections and to the map `clients`, a step that a signal can
  come between; `moves s e` : the moves of one event, `ending s` : those after a CS_KILLSERVER;
* `Wire` : the open connections, the keys of `clients` and the bytes sent; `handled w` : `w` after the
  handler;
* `Point` : what holds wherever the signal comes; `Breaks` : the moves behind which the handler fails;
  `shutdown_framed_iff` : where all connections are well framed, with a kill message at the end.
-/

namespace DiamondApparatus
open Lib Std

/-! ## Actions -/

inductive Move
  /-- `accept` returned `fd`. -/
  | opened (fd : Nat)
  /-- `clients[fd]=c` -/
  | entered (fd : Nat)
  /-- The first `write` of a `basesend`: the size of `p`. -/
  | header (fd : Nat) (p : Bytes)
  /-- The second one. -/
  | payload (fd : Nat) (p : Bytes)
  /-- `close(fd)` in the loop -/
  | closed (fd : Nat)
  /-- `clients.erase(fd)` -/
  | erased (fd : Nat)
  /-- `close(fd)` in the destructor, which leaves `clients` as it is -/
  | left (fd : Nat)
  deriving DecidableEq

/-- The last move of what the loop does in one go. -/
def Move.last : Move → Bool
  | entered _ | payload _ _ | erased _ => true
  | _ => false

def writes (l : List (Nat × Bytes)) : List Move :=
  l.flatMap fun x => [.header x.1 x.2, .payload x.1 x.2]

namespace MyServer

def moves (s : MyServer) (e : Event) : List Move :=
  match e with
  | .accept fd => [.opened fd, .entered fd]
  | .close fd => [.closed fd, .erased fd]
  | .packet _ _ _ _ | .deletetopic _ => writes ((s.step e).1.sent.drop s.sent.length)

/-- What the loop does behind a round that has set `serverKill`: `shutdown`, and the destructor. -/
def ending (s : MyServer) : List Move :=
  if s.serverKill then
    writes (s.shutdown.sent.drop s.sent.length) ++ s.clients.keys.map .left
  else []

end MyServer

/-- What there is outside the server, and the keys of `clients`. -/
structure Wire where
  conns : Finset Nat := ∅
  clients : FdSet := ∅
  /-- What was sent on a descriptor since `accept` returned it. -/
  bytes : Nat → Bytes := fun _ => []

namespace Wire

def act (w : Wire) : Move → Wire
  | .opened fd => { w with conns := insert fd w.conns, bytes := Function.update w.bytes fd [] }
  | .entered fd => { w with clients := w.clients.insert fd }
  | .header fd p =>
    { w with bytes := Function.update w.bytes fd (w.bytes fd ++ be32 (UInt32.ofNat p.length)) }
  | .payload fd p => { w with bytes := Function.update w.bytes fd (w.bytes fd ++ p) }
  | .closed fd | .left fd => { w with conns := w.conns.erase fd }
  | .erased fd => { w with clients := w.clients.erase fd }

def run (w : Wire) (as : List Move) : Wire := as.foldl act w

/-- The descriptors that the handler's loop over `clients` gets to: a `basesend` to a closed one throws. -/
def reached (w : Wire) : List Nat := w.clients.toList.takeWhile (· ∈ w.conns)

/-- The `basesend` calls of `shutdown`, run by the handler. -/
def kills (w : Wire) : List (Nat × Bytes) := w.reached.map (·, noDataMsg scKillclient)

def handled (w : Wire) : Wire := w.run (writes w.kills)

theorem run_append (w : Wire) (as bs : List Move) : w.run (as ++ bs) = (w.run as).run bs :=
  List.foldl_append

def framesTo (fd : Nat) (l : List (Nat × Bytes)) : Bytes :=
  (l.filter fun x => decide (x.1 = fd)).flatMap fun x => frame x.2

theorem framesTo_cons (fd : Nat) (x : Nat × Bytes) (l : List (Nat × Bytes)) :
    framesTo fd (x :: l) = (if x.1 = fd then frame x.2 else []) ++ framesTo fd l := by
  unfold framesTo
  rw [List.filter_cons]
  by_cases h : x.1 = fd
  · simp [h]
  · simp [h]

/-- **Complete `write` calls** send frames, and nothing else changes. -/
theorem run_writes (l : List (Nat × Bytes)) (w : Wire) : w.run (writes l) =
    { w with bytes := fun fd => w.bytes fd ++ framesTo fd l } := by
  induction l generalizing w with
  | nil => simp [writes, run, framesTo]
  | cons x l ih =>
    have hx : w.run [.header x.1 x.2, .payload x.1 x.2] =
        { w with bytes := Function.update w.bytes x.1 (w.bytes x.1 ++ frame x.2) } := by
      simp [run, act, frame, Function.update_idem]
    rw [writes, List.flatMap_cons, run_append, hx]
    refine (ih _).trans ?_
    congr 1
    funext fd
    show Function.update w.bytes x.1 _ fd ++ _ = _
    rw [framesTo_cons, Function.update_apply]
    by_cases h : fd = x.1
    · simp [h]
    · simp [h, Ne.symm h]

end Wire

/-! ## Frames -/

def killPayload : Payload := ⟨noDataMsg scKillclient, by decide, by decide⟩

theorem stream_cons (p : Payload) (ps : List Payload) : stream (p :: ps) = frame p.bytes ++ stream ps :=
  List.flatMap_cons

theorem stream_snoc (ps : List Payload) (p : Payload) : stream (ps ++ [p]) = stream ps ++ frame p.bytes := by
  simp [stream]

theorem length_frame (p : Bytes) : (frame p).length = 4 + p.length := by
  rw [frame, List.length_append, length_be32]

theorem frame_append_inj {p q : Payload} {x y : Bytes} (h : frame p.bytes ++ x = frame q.bytes ++ y) :
    p.bytes = q.bytes ∧ x = y := by
  have hword : ∀ r : Payload, (UInt32.ofNat r.bytes.length).toNat = r.bytes.length := by
    intro r
    rw [UInt32.toNat_ofNat', Nat.mod_eq_of_lt r.lt]
  simp only [frame, List.append_assoc] at h
  have htake := congrArg takeU32 h
  rw [takeU32_be32, takeU32_be32, Option.some_inj, Prod.mk.injEq] at htake
  have hlen := congrArg UInt32.toNat htake.1
  rw [hword, hword] at hlen
  exact List.append_inj htake.2 hlen

/-- **A stream is the frames of one list only.** -/
theorem map_bytes_of_stream {ps qs : List Payload} (h : stream ps = stream qs) :
    ps.map Payload.bytes = qs.map Payload.bytes := by
  have hnil : ∀ (p : Payload) (rs : List Payload), stream (p :: rs) ≠ [] := by
    intro p rs hrs
    have hlen := congrArg List.length hrs
    rw [stream_cons, List.length_append, length_frame] at hlen
    change _ = 0 at hlen
    omega
  induction ps generalizing qs with
  | nil =>
    cases qs with
    | nil => rfl
    | cons q qs => exact absurd h.symm (hnil q qs)
  | cons p ps ih =>
    cases qs with
    | nil => exact absurd h (hnil p ps)
    | cons q qs =>
      rw [stream_cons, stream_cons] at h
      obtain ⟨hbytes, hrest⟩ := frame_append_inj h
      rw [List.map_cons, List.map_cons, hbytes, ih hrest]

theorem five_le_length_frame (p : Payload) : 5 ≤ (frame p.bytes).length := by
  have := List.length_pos_of_ne_nil p.ne
  rw [length_frame]
  omega

/-- **A header without its payload**: what is sent after it cannot be read as frames any more. -/
theorem torn_stream (ps : List Payload) (w : UInt32) (qs : List Payload) :
    stream ps ++ be32 w ++ frame killPayload.bytes ≠ stream (qs ++ [killPayload]) := by
  have hkill : (frame killPayload.bytes).length = 8 := by decide
  have hlast : ∀ qs, (stream (qs ++ [killPayload])).length = (stream qs).length + 8 := by
    intro qs
    rw [stream_snoc, List.length_append, hkill]
  induction ps generalizing qs with
  | nil =>
    intro h
    have hlen := congrArg List.length h
    rw [hlast, List.length_append, List.length_append, length_be32, hkill] at hlen
    cases qs with
    | nil => cases hlen
    | cons q qs =>
      have hq := five_le_length_frame q
      rw [stream_cons, List.length_append] at hlen
      change 0 + 4 + 8 = _ at hlen
      omega
  | cons p ps ih =>
    intro h
    cases qs with
    | nil =>
      have hlen := congrArg List.length h
      have hp := five_le_length_frame p
      rw [hlast, stream_cons, List.length_append, List.length_append, List.length_append, length_be32,
        hkill] at hlen
      change _ = 0 + 8 at hlen
      omega
    | cons q qs =>
      refine ih qs ?_
      rw [List.cons_append, stream_cons, stream_cons, List.append_assoc, List.append_assoc] at h
      rw [List.append_assoc]
      exact (frame_append_inj h).2

theorem wholly_stream (ps : List Payload) : wholly ps (stream ps).length = ps := by
  induction ps with
  | nil => rfl
  | cons p ps ih =>
    rw [stream_cons, List.length_append, wholly, if_pos (Nat.le_add_right _ _), Nat.add_sub_cancel_left, ih]

/-- A client that gets frames with the kill message at the end takes this message in, however the
stream arrives. -/
theorem kill_received (ps : List Payload) {chunks ends : List Arrival} (hchunks : ∀ a ∈ chunks, a.bytes ≠ [])
    (hends : ∀ a ∈ ends, a.bytes = []) (hbytes : chunks.flatMap Arrival.bytes = stream (ps ++ [killPayload])) :
    .complete (noDataMsg scKillclient) ∈
      TCPReceiver.calls (fun _ => false) (ps.length + 1) {} { arrivals := chunks ++ ends } := by
  have hall := (calls_stream hends (ps ++ [killPayload]) (stream (ps ++ [killPayload])).length
    (ps.length + 1) holds_new hchunks (by rw [hbytes, List.take_length])
    (s := { arrivals := chunks ++ ends }) rfl rfl).1
  have hlen : ((ps ++ [killPayload]).map fun p => CallEnd.complete p.bytes).length = ps.length + 1 := by
    simp
  rw [wholly_stream, List.take_of_length_le (Nat.le_of_eq hlen)] at hall
  have hmem : .complete (noDataMsg scKillclient) ∈
      (ps ++ [killPayload]).map fun p => CallEnd.complete p.bytes :=
    List.mem_map.2 ⟨killPayload, by simp, rfl⟩
  rw [← hall] at hmem
  exact List.mem_of_mem_take hmem

/-! ## Where the signal comes -/

/-- A connection has got whole frames. -/
def Whole (b : Bytes) : Prop := ∃ ps : List Payload, b = stream ps

/-- None of them is the kill message. -/
def Quiet (b : Bytes) : Prop := ∃ ps : List Payload, b = stream ps ∧ ∀ p ∈ ps, p.bytes ≠ noDataMsg scKillclient

/-- The last of them is the kill message. -/
def Told (b : Bytes) : Prop := ∃ ps, b = stream (ps ++ [killPayload])

/-- The blocks are such as `basesend` can send: their size is a `uint32_t`, and the `write` of an empty
one never returns a positive number. -/
def Fits (as : List Move) : Prop :=
  ∀ fd p, .header fd p ∈ as → p ≠ [] ∧ p.length < 2 ^ 32

/-- A move behind which the handler fails: a connection that `clients` does not know yet, a size without
its block, and a closed descriptor that is still in `clients`, in front of an open one. -/
def Breaks (w : Wire) : Move → Prop
  | .opened _ | .header _ _ => True
  | .closed fd => ∃ k ∈ w.conns, fd < k
  | _ => False

/-- `w`, reached by a list of moves with the last one `a`. -/
inductive Point (w : Wire) (a : Option Move) : Prop
  | calm (ha : ∀ x ∈ a, x.last) (hsame : ∀ fd, fd ∈ w.conns ↔ fd ∈ w.clients)
      (hwhole : ∀ fd ∈ w.conns, Whole (w.bytes fd))
  | accepted (fd : Nat) (ha : a = some (.opened fd)) (hfd : fd ∈ w.conns) (hno : fd ∉ w.clients)
      (hbytes : w.bytes fd = [])
  | torn (fd : Nat) (p b : Bytes) (ha : a = some (.header fd p))
      (hsame : ∀ fd, fd ∈ w.conns ↔ fd ∈ w.clients) (hfd : fd ∈ w.conns) (hb : Whole b)
      (hbytes : w.bytes fd = b ++ be32 (UInt32.ofNat p.length))
  | closing (fd : Nat) (ha : a = some (.closed fd)) (hfd : fd ∈ w.clients)
      (hsame : ∀ k, k ∈ w.conns ↔ k ≠ fd ∧ k ∈ w.clients) (hquiet : ∀ k ∈ w.conns, Quiet (w.bytes k))
  | leaving (fd : Nat) (ha : a = some (.left fd)) (hreached : w.reached = [])
      (htold : ∀ k ∈ w.conns, Told (w.bytes k))

theorem Quiet.whole {b : Bytes} (h : Quiet b) : Whole b := by
  obtain ⟨ps, hps, -⟩ := h
  exact ⟨ps, hps⟩

theorem Whole.told {b : Bytes} (h : Whole b) : Told (b ++ frame killPayload.bytes) := by
  obtain ⟨ps, rfl⟩ := h
  exact ⟨ps, (stream_snoc ps killPayload).symm⟩

theorem Quiet.not_told {b : Bytes} (h : Quiet b) : ¬ Told b := by
  obtain ⟨ps, rfl, hps⟩ := h
  rintro ⟨qs, hqs⟩
  have hmem : killPayload.bytes ∈ ps.map Payload.bytes := by
    rw [map_bytes_of_stream hqs, List.map_append]
    simp
  obtain ⟨p, hp, hbytes⟩ := List.mem_map.1 hmem
  exact hps p hp hbytes

theorem whole_append_frame {b : Bytes} (h : Whole b) {p : Bytes} (hne : p ≠ []) (hlt : p.length < 2 ^ 32) :
    Whole (b ++ frame p) := by
  obtain ⟨ps, rfl⟩ := h
  exact ⟨ps ++ [⟨p, hne, hlt⟩], (stream_snoc ps ⟨p, hne, hlt⟩).symm⟩

theorem quiet_append_frame {b : Bytes} (h : Quiet b) {p : Bytes} (hne : p ≠ []) (hlt : p.length < 2 ^ 32)
    (hkill : p ≠ noDataMsg scKillclient) : Quiet (b ++ frame p) := by
  obtain ⟨ps, rfl, hps⟩ := h
  refine ⟨ps ++ [⟨p, hne, hlt⟩], (stream_snoc ps ⟨p, hne, hlt⟩).symm, fun q hq => ?_⟩
  rcases List.mem_append.1 hq with hq | hq
  · exact hps q hq
  · rw [List.mem_singleton.1 hq]
    exact hkill

theorem Fits.cons {x : Nat × Bytes} {l : List (Nat × Bytes)} (h : Fits (writes (x :: l))) :
    (x.2 ≠ [] ∧ x.2.length < 2 ^ 32) ∧ Fits (writes l) := by
  refine ⟨h x.1 x.2 (by simp [writes]), fun k p hp => h k p ?_⟩
  rw [writes, List.flatMap_cons]
  exact List.mem_append_right _ hp

theorem whole_framesTo {b : Bytes} (h : Whole b) (fd : Nat) {l : List (Nat × Bytes)}
    (hl : Fits (writes l)) : Whole (b ++ Wire.framesTo fd l) := by
  induction l generalizing b with
  | nil =>
    rw [Wire.framesTo, List.filter_nil, List.flatMap_nil, List.append_nil]
    exact h
  | cons x l ih =>
    obtain ⟨hx, hrest⟩ := hl.cons
    rw [Wire.framesTo_cons, ← List.append_assoc]
    refine ih ?_ hrest
    split
    · exact whole_append_frame h hx.1 hx.2
    · rwa [List.append_nil]

theorem quiet_framesTo {b : Bytes} (h : Quiet b) (fd : Nat) {l : List (Nat × Bytes)}
    (hl : Fits (writes l)) (hkill : ∀ x ∈ l, x.2 ≠ noDataMsg scKillclient) :
    Quiet (b ++ Wire.framesTo fd l) := by
  induction l generalizing b with
  | nil =>
    rw [Wire.framesTo, List.filter_nil, List.flatMap_nil, List.append_nil]
    exact h
  | cons x l ih =>
    obtain ⟨hx, hrest⟩ := hl.cons
    rw [List.forall_mem_cons] at hkill
    rw [Wire.framesTo_cons, ← List.append_assoc]
    refine ih ?_ hrest hkill.2
    split
    · exact quiet_append_frame h hx.1 hx.2 hkill.1
    · rwa [List.append_nil]

theorem framesTo_map {l : List Nat} (h : l.Nodup) (fd : Nat) (p : Bytes) :
    Wire.framesTo fd (l.map (·, p)) = if fd ∈ l then frame p else [] := by
  induction l with
  | nil => rfl
  | cons k l ih =>
    obtain ⟨hk, hl⟩ := List.nodup_cons.1 h
    rw [List.map_cons, Wire.framesTo_cons, ih hl]
    by_cases he : k = fd
    · subst he
      simp [hk]
    · simp [he, Ne.symm he]

theorem nodup_toList (t : FdSet) : t.toList.Nodup := Keys.nodup_of_ordered t.ordered_toList

theorem handled_bytes (w : Wire) (fd : Nat) :
    w.handled.bytes fd = w.bytes fd ++ if fd ∈ w.reached then frame killPayload.bytes else [] := by
  rw [Wire.handled, Wire.run_writes, Wire.kills]
  show w.bytes fd ++ Wire.framesTo fd _ = _
  have hnodup : w.reached.Nodup := (nodup_toList w.clients).sublist (List.takeWhile_sublist _)
  rw [framesTo_map hnodup]
  rfl

theorem mem_reached_of_same {w : Wire} (hsame : ∀ fd, fd ∈ w.conns ↔ fd ∈ w.clients) {fd : Nat}
    (hfd : fd ∈ w.conns) : fd ∈ w.reached := by
  have hall : w.reached = w.clients.toList := by
    rw [Wire.reached, List.takeWhile_eq_self_iff]
    intro k hk
    exact decide_eq_true ((hsame k).2 (ExtTreeSet.mem_toList.1 hk))
  rw [hall, ExtTreeSet.mem_toList]
  exact (hsame fd).1 hfd

theorem mem_takeWhile_of_ordered {l : List Nat} (hl : l.Pairwise (· < ·)) {P : Nat → Bool} {fd : Nat}
    (hfd : fd ∈ l) (hP : ∀ k ∈ l, P k = true ↔ k ≠ fd) (k : Nat) :
    k ∈ l.takeWhile P ↔ k ∈ l ∧ k < fd := by
  induction l with
  | nil => simp
  | cons a l ih =>
    obtain ⟨hhead, htail⟩ := List.pairwise_cons.1 hl
    by_cases ha : a = fd
    · subst ha
      have hstop : P a = false := by
        rw [Bool.eq_false_iff]
        exact fun h => (hP a hfd).1 h rfl
      rw [List.takeWhile_cons_of_neg (by rw [hstop]; decide)]
      refine iff_of_false List.not_mem_nil ?_
      rintro ⟨hk, hlt⟩
      rcases List.mem_cons.1 hk with rfl | hk
      · exact Nat.lt_irrefl k hlt
      · exact Nat.lt_asymm hlt (hhead k hk)
    · have hfd' : fd ∈ l := (List.mem_cons.1 hfd).resolve_left (Ne.symm ha)
      rw [List.takeWhile_cons_of_pos ((hP a (by simp)).2 ha), List.mem_cons, List.mem_cons,
        ih htail hfd' fun k hk => hP k (List.mem_cons_of_mem a hk)]
      refine ⟨fun h => h.elim (fun he => ⟨Or.inl he, he ▸ hhead fd hfd'⟩) (And.imp_left Or.inr), ?_⟩
      exact fun ⟨h, hlt⟩ => h.imp_right (⟨·, hlt⟩)

/-- The handler gets to the descriptors in front of the closed one. -/
theorem mem_reached_of_closing {w : Wire} {fd : Nat} (hfd : fd ∈ w.clients)
    (hsame : ∀ k, k ∈ w.conns ↔ k ≠ fd ∧ k ∈ w.clients) (k : Nat) :
    k ∈ w.reached ↔ k ∈ w.clients ∧ k < fd := by
  have hordered : w.clients.toList.Pairwise (· < ·) :=
    w.clients.ordered_toList.imp fun h => Nat.compare_eq_lt.1 h
  rw [Wire.reached, mem_takeWhile_of_ordered hordered (ExtTreeSet.mem_toList.2 hfd) fun j hj => ?_,
    ExtTreeSet.mem_toList]
  rw [decide_eq_true_iff, hsame]
  exact and_iff_left (ExtTreeSet.mem_toList.1 hj)

/-- **What the handler makes of a point.** -/
theorem Point.framed_iff {w : Wire} {a : Option Move} (h : Point w a) :
    (∀ fd ∈ w.conns, Told (w.handled.bytes fd)) ↔ ∀ x ∈ a, ¬ Breaks w x := by
  cases h with
  | calm ha hsame hwhole =>
    refine iff_of_true (fun fd hfd => ?_) fun x hx => ?_
    · rw [handled_bytes, if_pos (mem_reached_of_same hsame hfd)]
      exact (hwhole fd hfd).told
    · have hlast := ha x hx
      cases x <;> simp_all [Move.last, Breaks]
  | accepted fd ha hfd hno hbytes =>
    refine iff_of_false (fun hall => ?_) (fun hcut => hcut _ ha trivial)
    have hnot : fd ∉ w.reached := fun h => hno (ExtTreeSet.mem_toList.1 ((List.takeWhile_sublist _).mem h))
    obtain ⟨ps, hps⟩ := hall fd hfd
    rw [handled_bytes, if_neg hnot, hbytes, stream_snoc] at hps
    have hlen := congrArg List.length hps
    rw [List.length_append, List.length_append, length_frame killPayload.bytes] at hlen
    change 0 + 0 = _ at hlen
    omega
  | torn fd p b ha hsame hfd hb hbytes =>
    refine iff_of_false (fun hall => ?_) (fun hcut => hcut _ ha trivial)
    obtain ⟨qs, hqs⟩ := hall fd hfd
    obtain ⟨ps, rfl⟩ := hb
    rw [handled_bytes, if_pos (mem_reached_of_same hsame hfd), hbytes] at hqs
    exact torn_stream ps _ qs hqs
  | closing fd ha hfd hsame hquiet =>
    have hreached := mem_reached_of_closing hfd hsame
    rw [ha]
    simp only [Option.mem_some_iff, forall_eq', Breaks, not_exists, not_and]
    refine forall₂_congr fun k hk => ?_
    obtain ⟨hne, hclient⟩ := (hsame k).1 hk
    rw [handled_bytes]
    by_cases hlt : k < fd
    · rw [if_pos ((hreached k).2 ⟨hclient, hlt⟩)]
      exact iff_of_true (hquiet k hk).whole.told (by omega)
    · rw [if_neg fun h => hlt ((hreached k).1 h).2, List.append_nil]
      exact iff_of_false (hquiet k hk).not_told (by omega)
  | leaving fd ha hreached htold =>
    rw [ha]
    refine iff_of_true (fun k hk => ?_) (by simp [Breaks])
    rw [handled_bytes, hreached, if_neg List.not_mem_nil, List.append_nil]
    exact htold k hk

/-! ## Every point -/

/-- Between two events, after the moves `as`. -/
structure Settled (as : List Move) (s : MyServer) : Prop where
  books : MyServer.Bookkeeping s
  conns : ∀ fd, fd ∈ (Wire.run {} as).conns ↔ fd ∈ s.clients
  clients : ∀ fd, fd ∈ (Wire.run {} as).clients ↔ fd ∈ s.clients
  quiet : ∀ fd, fd ∈ s.clients → Quiet ((Wire.run {} as).bytes fd)
  last : ∀ x ∈ as.getLast?, x.last

theorem Settled.same {as : List Move} {s : MyServer} (h : Settled as s) (fd : Nat) :
    fd ∈ (Wire.run {} as).conns ↔ fd ∈ (Wire.run {} as).clients := by
  rw [h.conns, h.clients]

theorem Settled.point {as : List Move} {s : MyServer} (h : Settled as s) :
    Point (Wire.run {} as) as.getLast? :=
  .calm h.last h.same fun fd hfd => (h.quiet fd ((h.conns fd).1 hfd)).whole

/-- The first `j` moves of some calls of `basesend`: whole calls, or a header at the end. -/
theorem take_writes (l : List (Nat × Bytes)) (j : Nat) :
    (∃ i, (writes l).take j = writes (l.take i)) ∨
      ∃ i x, x ∈ l ∧ (writes l).take j = writes (l.take i) ++ [.header x.1 x.2] := by
  induction l generalizing j with
  | nil => exact Or.inl ⟨0, by simp [writes]⟩
  | cons x l ih =>
    match j with
    | 0 => exact Or.inl ⟨0, by simp [writes]⟩
    | 1 => exact Or.inr ⟨0, x, by simp, by simp [writes]⟩
    | j + 2 =>
      have hcons : ∀ m, writes (x :: m) = .header x.1 x.2 :: .payload x.1 x.2 :: writes m := fun _ => rfl
      rw [hcons, List.take_succ_cons, List.take_succ_cons]
      rcases ih j with ⟨i, hi⟩ | ⟨i, y, hy, hi⟩
      · exact Or.inl ⟨i + 1, by rw [hi, List.take_succ_cons, hcons]⟩
      · exact Or.inr ⟨i + 1, y, List.mem_cons_of_mem _ hy, by
          rw [hi, List.take_succ_cons, hcons]; rfl⟩

theorem getLast?_writes (l : List (Nat × Bytes)) : ∀ x ∈ (writes l).getLast?, x.last := by
  intro x hx
  rcases List.eq_nil_or_concat l with rfl | ⟨l, y, rfl⟩
  · simp [writes] at hx
  · simp only [writes, List.concat_eq_append, List.flatMap_append, List.flatMap_singleton] at hx
    rw [List.getLast?_append_of_ne_nil _ (by simp)] at hx
    simp only [List.getLast?_cons_cons, List.getLast?_singleton, Option.mem_some_iff] at hx
    rw [← hx]
    rfl

theorem last_append_writes {as : List Move} (h : ∀ x ∈ as.getLast?, x.last)
    (l : List (Nat × Bytes)) : ∀ x ∈ (as ++ writes l).getLast?, x.last := by
  by_cases hl : writes l = []
  · rwa [hl, List.append_nil]
  · rw [List.getLast?_append_of_ne_nil _ hl]
    exact getLast?_writes l

theorem fits_writes_take {l : List (Nat × Bytes)} (h : Fits (writes l)) (i : Nat) :
    Fits (writes (l.take i)) := by
  intro fd p hp
  refine h fd p ?_
  simp only [writes, List.mem_flatMap] at hp ⊢
  obtain ⟨x, hx, hp⟩ := hp
  exact ⟨x, List.mem_of_mem_take hx, hp⟩

theorem Settled.point_writes {as : List Move} {s : MyServer} (h : Settled as s)
    {l : List (Nat × Bytes)} (hl : Fits (writes l)) (hto : ∀ x ∈ l, x.1 ∈ s.clients) (j : Nat) :
    Point (Wire.run {} (as ++ (writes l).take j)) (as ++ (writes l).take j).getLast? := by
  have hwhole : ∀ i fd, fd ∈ s.clients →
      Whole ((Wire.run {} as).bytes fd ++ Wire.framesTo fd (l.take i)) :=
    fun i fd hfd => whole_framesTo (h.quiet fd hfd).whole fd (fits_writes_take hl i)
  rcases take_writes l j with ⟨i, hi⟩ | ⟨i, x, hx, hi⟩
  · rw [hi, Wire.run_append, Wire.run_writes]
    exact .calm (last_append_writes h.last _) h.same fun fd hfd => hwhole i fd ((h.conns fd).1 hfd)
  · have hfd := hto x hx
    rw [hi, ← List.append_assoc, List.getLast?_concat, Wire.run_append, Wire.run_append,
      Wire.run_writes]
    refine .torn x.1 x.2 _ rfl h.same ((h.conns x.1).2 hfd) (hwhole i x.1 hfd) ?_
    simp [Wire.run, Wire.act]

namespace MyServer

theorem advance_eq_some {s s' : MyServer} {e : Event} (h : s.advance e = some s') :
    s.Enabled e ∧ (s.step e).1 = s' := by
  obtain ⟨he, hs'⟩ := Option.ite_none_right_eq_some.1 h
  exact ⟨he, Option.some_inj.1 hs'⟩

theorem mem_sends {s : MyServer} {e : Event} (hb : Bookkeeping s) (he : s.Enabled e) :
    ∀ x ∈ (s.step e).1.sent.drop s.sent.length, x.1 ∈ s.clients ∧ x.2 ≠ noDataMsg scKillclient := by
  obtain ⟨out, hout, hto⟩ := step_sent hb he
  rw [hout, List.drop_left]
  exact hto

theorem shutdown_sends (s : MyServer) :
    s.shutdown.sent.drop s.sent.length = s.clients.keys.map (·, noDataMsg scKillclient) := by
  rw [shutdown, foldl_sendTo, List.drop_left]

end MyServer

open MyServer

theorem Settled.sends {as : List Move} {s s' : MyServer} (h : Settled as s)
    {l : List (Nat × Bytes)} (hl : Fits (writes l)) (hkill : ∀ x ∈ l, x.2 ≠ noDataMsg scKillclient)
    (hb : Bookkeeping s') (hclients : s'.clients = s.clients) : Settled (as ++ writes l) s' := by
  have hrun : Wire.run {} (as ++ writes l) = { Wire.run {} as with
      bytes := fun fd => (Wire.run {} as).bytes fd ++ Wire.framesTo fd l } := by
    rw [Wire.run_append, Wire.run_writes]
  refine ⟨hb, fun fd => ?_, fun fd => ?_, fun fd hfd => ?_, last_append_writes h.last l⟩
  · rw [hrun, hclients]
    exact h.conns fd
  · rw [hrun, hclients]
    exact h.clients fd
  · rw [hrun]
    rw [hclients] at hfd
    exact quiet_framesTo (h.quiet fd hfd) fd hl hkill

theorem Settled.accept {as : List Move} {s : MyServer} (h : Settled as s) {fd : Nat}
    (hfd : fd ∉ s.openFds) : Settled (as ++ [.opened fd, .entered fd]) (s.acceptClient fd) := by
  have hmem : ∀ k, k ∈ (s.acceptClient fd).clients ↔ k = fd ∨ k ∈ s.clients := fun k => Keys.mem_insert_iff
  refine ⟨h.books.acceptClient hfd, fun k => ?_, fun k => ?_, fun k hk => ?_, by simp [Move.last]⟩
  · rw [hmem, ← h.conns, Wire.run_append]
    exact Finset.mem_insert
  · rw [hmem, ← h.clients, Wire.run_append]
    show k ∈ (Wire.run {} as).clients.insert fd ↔ _
    rw [ExtTreeSet.mem_insert, LawfulEqCmp.compare_eq_iff_eq, eq_comm]
  · rw [Wire.run_append]
    show Quiet (Function.update (Wire.run {} as).bytes fd [] k)
    rw [Function.update_apply]
    split
    · exact ⟨[], rfl, by simp⟩
    · next hne => exact h.quiet k (((hmem k).1 hk).resolve_left hne)

theorem Settled.close {as : List Move} {s : MyServer} (h : Settled as s) {fd : Nat}
    (hfd : fd ≠ s.listenfd) : Settled (as ++ [.closed fd, .erased fd]) (s.closed fd) := by
  have hmem : ∀ k, k ∈ (s.closed fd).clients ↔ k ≠ fd ∧ k ∈ s.clients := by
    intro k
    show k ∈ s.clients.erase fd ↔ _
    rw [ExtTreeMap.mem_erase, ne_eq, LawfulEqCmp.compare_eq_iff_eq, eq_comm]
  refine ⟨h.books.closed hfd, fun k => ?_, fun k => ?_, fun k hk => ?_, by simp [Move.last]⟩
  · rw [hmem, ← h.conns, Wire.run_append]
    exact Finset.mem_erase
  · rw [hmem, ← h.clients, Wire.run_append]
    show k ∈ (Wire.run {} as).clients.erase fd ↔ _
    rw [ExtTreeSet.mem_erase, ne_eq, LawfulEqCmp.compare_eq_iff_eq, eq_comm]
  · rw [Wire.run_append]
    exact h.quiet k ((hmem k).1 hk).2

theorem Settled.advance {as : List Move} {s s' : MyServer} {e : Event} (h : Settled as s)
    (hstep : s.advance e = some s') (hsend : Fits (s.moves e)) :
    Settled (as ++ s.moves e) s' := by
  obtain ⟨he, rfl⟩ := advance_eq_some hstep
  have hb := bookkeeping_step h.books he
  have hkill := fun x hx => (mem_sends h.books he x hx).2
  cases e with
  | accept fd => exact h.accept he.1
  | packet fd pkt tail now =>
    exact h.sends hsend hkill hb (receive_keeps h.books ((h.books.active fd).1 he) pkt tail now).clients
  | close fd =>
    have hclose := step_close h.books ((h.books.active fd).1 he)
    rw [hclose]
    exact h.close he.2
  | deletetopic n => exact h.sends hsend hkill hb rfl

theorem Settled.point_in {as : List Move} {s s' : MyServer} {e : Event} (h : Settled as s)
    (hstep : s.advance e = some s') (hsend : Fits (s.moves e)) (j : Nat) :
    Point (Wire.run {} (as ++ (s.moves e).take j)) (as ++ (s.moves e).take j).getLast? := by
  have hall := (h.advance hstep hsend).point
  obtain ⟨he, -⟩ := advance_eq_some hstep
  have hto := fun x hx => (mem_sends h.books he x hx).1
  cases e with
  | accept fd =>
    match j with
    | 0 => rw [List.take_zero, List.append_nil]; exact h.point
    | 1 =>
      show Point (Wire.run {} (as ++ [Move.opened fd])) (as ++ [Move.opened fd]).getLast?
      have hfresh := (h.books.fresh he.1).1
      rw [List.getLast?_concat, Wire.run_append]
      exact .accepted fd rfl (Finset.mem_insert_self fd _) (fun hc => hfresh ((h.clients fd).1 hc))
        (Function.update_self fd _ _)
    | j + 2 =>
      rw [List.take_of_length_le (by simp [moves])]
      exact hall
  | close fd =>
    match j with
    | 0 => rw [List.take_zero, List.append_nil]; exact h.point
    | 1 =>
      show Point (Wire.run {} (as ++ [Move.closed fd])) (as ++ [Move.closed fd]).getLast?
      rw [List.getLast?_concat, Wire.run_append]
      refine .closing fd rfl ((h.clients fd).2 ((h.books.active fd).1 he)) (fun k => ?_) fun k hk => ?_
      · show k ∈ (Wire.run {} as).conns.erase fd ↔ _
        rw [Finset.mem_erase, h.same]
        rfl
      · exact h.quiet k ((h.conns k).1 (Finset.mem_of_mem_erase hk))
    | j + 2 =>
      rw [List.take_of_length_le (by simp [moves])]
      exact hall
  | packet fd pkt tail now => exact h.point_writes hsend hto j
  | deletetopic n => exact h.point_writes hsend hto j

theorem Wire.run_left (l : List Nat) (w : Wire) : (w.run (l.map .left)).clients = w.clients ∧
    (w.run (l.map .left)).bytes = w.bytes ∧
    ∀ k, k ∈ (w.run (l.map .left)).conns ↔ k ∈ w.conns ∧ k ∉ l := by
  induction l generalizing w with
  | nil => exact ⟨rfl, rfl, fun k => by simp [Wire.run]⟩
  | cons fd l ih =>
    obtain ⟨hclients, hbytes, hconns⟩ := ih (w.act (.left fd))
    refine ⟨hclients, hbytes, fun k => (hconns k).trans ?_⟩
    show k ∈ w.conns.erase fd ∧ k ∉ l ↔ _
    rw [Finset.mem_erase, List.mem_cons, not_or]
    grind

/-- A signal during the destructor, which closes the descriptors in the order of `clients`: the handler
gets to none of them, and all have their kill message. -/
theorem Settled.point_destructor {as : List Move} {s : MyServer} (h : Settled as s) {fd : Nat}
    (l rest : List Nat) (hkeys : s.clients.keys = fd :: (l ++ rest)) :
    Point (Wire.run {} (as ++ (writes (s.clients.keys.map (·, noDataMsg scKillclient)) ++
        (fd :: l).map Move.left)))
      (as ++ (writes (s.clients.keys.map (·, noDataMsg scKillclient)) ++
        (fd :: l).map Move.left)).getLast? := by
  have hlast : ∃ k, ((fd :: l).map Move.left).getLast? = some (.left k) := by
    rw [List.getLast?_map, List.getLast?_cons]
    exact ⟨_, rfl⟩
  obtain ⟨k, hk⟩ := hlast
  have hend : (as ++ (writes (s.clients.keys.map (·, noDataMsg scKillclient)) ++
      (fd :: l).map Move.left)).getLast? = some (.left k) := by
    rw [← List.append_assoc, List.getLast?_append, hk]
    rfl
  rw [hend, ← List.append_assoc, Wire.run_append, Wire.run_append, Wire.run_writes]
  obtain ⟨hclients, hbytes, hconns⟩ := Wire.run_left (fd :: l) { Wire.run {} as with
    bytes := fun k => (Wire.run {} as).bytes k ++
      Wire.framesTo k (s.clients.keys.map (·, noDataMsg scKillclient)) }
  refine .leaving k rfl ?_ fun j hj => ?_
  · have hclosed := mt (hconns fd).1 fun hand => hand.2 (by simp)
    have hlist : (Wire.run {} as).clients.toList = fd :: (l ++ rest) :=
      (Keys.toList_eq_keys h.clients).trans hkeys
    rw [Wire.reached, hclients, hlist]
    exact List.takeWhile_cons_of_neg fun hopen => hclosed (of_decide_eq_true hopen)
  · have hmem := (h.conns j).1 ((hconns j).1 hj).1
    rw [hbytes]
    show Told ((Wire.run {} as).bytes j ++ Wire.framesTo j _)
    rw [framesTo_map (Keys.nodup_keys s.clients), if_pos (ExtTreeMap.mem_keys.2 hmem)]
    exact (h.quiet j hmem).whole.told

/-- A signal behind the last round. -/
theorem Settled.point_ending {as : List Move} {s : MyServer} (h : Settled as s)
    (hsend : Fits s.ending) (j : Nat) :
    Point (Wire.run {} (as ++ s.ending.take j)) (as ++ s.ending.take j).getLast? := by
  unfold ending at hsend ⊢
  by_cases hkill : s.serverKill = true
  · rw [if_pos hkill] at hsend ⊢
    rw [shutdown_sends] at hsend ⊢
    have hpoint := h.point_writes (l := s.clients.keys.map (·, noDataMsg scKillclient))
      (fun fd p hp => hsend fd p (List.mem_append_left _ hp)) (fun x hx => by
        obtain ⟨k, hk, rfl⟩ := List.mem_map.1 hx
        exact ExtTreeMap.mem_keys.1 hk)
    rw [List.take_append, ← List.map_take]
    generalize hi : j - (writes (s.clients.keys.map (·, noDataMsg scKillclient))).length = i
    cases hclosed : s.clients.keys.take i with
    | nil =>
      rw [List.map_nil, List.append_nil]
      exact hpoint j
    | cons fd l =>
      have hpos : i ≠ 0 := fun h0 => by simp [h0] at hclosed
      rw [List.take_of_length_le (by omega)]
      refine h.point_destructor l (s.clients.keys.drop i) ?_
      rw [← List.cons_append, ← hclosed, List.take_append_drop]
  · rw [if_neg hkill, List.take_nil, List.append_nil]
    exact h.point

theorem settled_new (listenfd : Nat) (others : FdSet) (now : Now) :
    Settled [] (new listenfd others now) := by
  obtain ⟨out, ht⟩ := new_talks listenfd others now
  have hnone : ∀ fd, fd ∉ (new listenfd others now).clients := by
    intro fd hfd
    rw [ht.clients] at hfd
    simp [bare] at hfd
  refine ⟨bookkeeping_new listenfd others now, fun fd => iff_of_false ?_ (hnone fd),
    fun fd => iff_of_false ?_ (hnone fd), fun fd hfd => absurd hfd (hnone fd), by simp⟩
  · exact Finset.notMem_empty fd
  · exact ExtTreeSet.not_mem_empty

/-- Everything the server does: the events of a run, and what may come behind them. -/
def program (s₀ s : MyServer) (es : List Event) : List Move :=
  Run.trace MyServer.advance MyServer.moves s₀ es ++ s.ending

theorem settled_run {s₀ s : MyServer} {es : List Event} (h₀ : Settled [] s₀)
    (h : Run.exec MyServer.advance s₀ es = some s)
    (hsend : Fits (Run.trace MyServer.advance MyServer.moves s₀ es)) :
    Settled (Run.trace MyServer.advance MyServer.moves s₀ es) s := by
  have hrun : Fits (Run.trace MyServer.advance MyServer.moves s₀ es) →
      Settled (Run.trace MyServer.advance MyServer.moves s₀ es) s := by
    refine Run.invariant_trace (I := fun as s => Fits as → Settled as s) (h := [])
      (fun as s e s' hs he has => ?_) (fun _ => h₀) h
    exact (hs fun fd p hp => has fd p (List.mem_append_left _ hp)).advance he
      fun fd p hp => has fd p (List.mem_append_right _ hp)
  exact hrun hsend

/-- Wherever in the program the signal comes, it comes at a point. -/
theorem point_of_take {s₀ s : MyServer} {es : List Event} (h₀ : Settled [] s₀)
    (h : Run.exec MyServer.advance s₀ es = some s) (hsend : Fits (program s₀ s es)) (k : Nat) :
    Point (Wire.run {} ((program s₀ s es).take k)) ((program s₀ s es).take k).getLast? := by
  have htrace : Fits (Run.trace MyServer.advance MyServer.moves s₀ es) :=
    fun fd p hp => hsend fd p (List.mem_append_left _ hp)
  unfold program
  by_cases hk : k < (Run.trace MyServer.advance MyServer.moves s₀ es).length
  · obtain ⟨es₁, e, t, t', rest, j, ht, ht', hall, htake⟩ := Run.take_trace h hk
    rw [List.take_append_of_le_length (Nat.le_of_lt hk), htake]
    rw [hall] at htrace
    have hsettled := settled_run h₀ ht fun fd p hp => htrace fd p (List.mem_append_left _ hp)
    exact hsettled.point_in ht' (fun fd p hp =>
      htrace fd p (List.mem_append_right _ (List.mem_append_left _ hp))) j
  · rw [List.take_append, List.take_of_length_le (by omega)]
    exact (settled_run h₀ h htrace).point_ending (fun fd p hp => hsend fd p (List.mem_append_right _ hp)) _

/-- The outside at the point `k`. -/
def wireAt (s₀ s : MyServer) (es : List Event) (k : Nat) : Wire := Wire.run {} ((program s₀ s es).take k)

/-- **Where a signal leaves every stream well framed.** It comes behind `k` moves of the loop. Every open
connection gets whole frames with the kill message at the end, unless the last move was the first
write of a `basesend`, an `accept`, or the close of a descriptor in front of an open one. So its client
takes that message in. -/
theorem shutdown_framed_iff (listenfd : Nat) (others : FdSet) (now : Now) (es : List Event) (s : MyServer)
    (h : Run.exec MyServer.advance (new listenfd others now) es = some s)
    (hsend : Fits (program (new listenfd others now) s es)) (k : Nat) :
    ((∀ fd ∈ (wireAt (new listenfd others now) s es k).conns,
        Told ((wireAt (new listenfd others now) s es k).handled.bytes fd)) ↔
      ∀ a ∈ ((program (new listenfd others now) s es).take k).getLast?,
        ¬ Breaks (wireAt (new listenfd others now) s es k) a) ∧
    ((∀ a ∈ ((program (new listenfd others now) s es).take k).getLast?,
        ¬ Breaks (wireAt (new listenfd others now) s es k) a) →
      ∀ fd ∈ (wireAt (new listenfd others now) s es k).conns, ∀ chunks ends : List Arrival,
        (∀ a ∈ chunks, a.bytes ≠ []) → (∀ a ∈ ends, a.bytes = []) →
        chunks.flatMap Arrival.bytes = (wireAt (new listenfd others now) s es k).handled.bytes fd →
        ∃ n, .complete (noDataMsg scKillclient) ∈
          TCPReceiver.calls (fun _ => false) n {} { arrivals := chunks ++ ends }) := by
  have hiff := (point_of_take (settled_new listenfd others now) h hsend k).framed_iff
  refine ⟨hiff, fun hcut fd hfd chunks ends hchunks hends hbytes => ?_⟩
  obtain ⟨ps, hps⟩ := hiff.2 hcut fd hfd
  exact ⟨_, kill_received ps hchunks hends (hbytes.trans hps)⟩

/-- A client subscribes to 'version', and is sent it. -/
def greeted : List Event := [.accept 4, .packet 4 (be32 csSubscribe ++ versionName.mem) [] 7]

def versionNote : Bytes := versionTopic.toMessage scNotify versionName

theorem program_greeted : ∃ s, Run.exec MyServer.advance (new 3 ∅ 0) greeted = some s ∧
    program (new 3 ∅ 0) s greeted =
      [.opened 4, .entered 4, .header 4 versionNote, .payload 4 versionNote] := by
  have hrun : (Run.exec MyServer.advance (new 3 ∅ 0) greeted).map (program (new 3 ∅ 0) · greeted) =
      some [.opened 4, .entered 4, .header 4 versionNote, .payload 4 versionNote] := by
    decide +kernel
  obtain ⟨s, hs, hp⟩ := Option.map_eq_some_iff.1 hrun
  exact ⟨s, hs, hp⟩

theorem fits_greeted :
    Fits [.opened 4, .entered 4, .header 4 versionNote, .payload 4 versionNote] := by
  intro fd p hp
  simp only [List.mem_cons, List.not_mem_nil, or_false, reduceCtorEq, false_or, Move.header.injEq] at hp
  rw [hp.2]
  decide +kernel

theorem shutdown_framed_iff_greeted : ∃ s, Run.exec MyServer.advance (new 3 ∅ 0) greeted = some s ∧
    Told ((wireAt (new 3 ∅ 0) s greeted 4).handled.bytes 4) := by
  obtain ⟨s, hs, hp⟩ := program_greeted
  exact ⟨s, hs, (shutdown_framed_iff 3 ∅ 0 greeted s hs (hp ▸ fits_greeted) 4).1.2
    (by rw [hp]; simp [Breaks]) 4 (by rw [wireAt, hp]; decide)⟩

/-- A signal between the two writes: the client takes the kill message for the start of its note. -/
theorem shutdown_torn : ∃ s, Run.exec MyServer.advance (new 3 ∅ 0) greeted = some s ∧
    Fits (program (new 3 ∅ 0) s greeted) ∧ 4 ∈ (wireAt (new 3 ∅ 0) s greeted 3).conns ∧
    (wireAt (new 3 ∅ 0) s greeted 3).handled.bytes 4 =
      be32 (UInt32.ofNat versionNote.length) ++ frame (noDataMsg scKillclient) ∧
    ¬ Told ((wireAt (new 3 ∅ 0) s greeted 3).handled.bytes 4) := by
  obtain ⟨s, hs, hp⟩ := program_greeted
  have hbytes : (wireAt (new 3 ∅ 0) s greeted 3).handled.bytes 4 =
      be32 (UInt32.ofNat versionNote.length) ++ frame (noDataMsg scKillclient) := by
    rw [wireAt, hp]
    rfl
  refine ⟨s, hs, hp ▸ fits_greeted, ?_, hbytes, fun ⟨ps, hps⟩ => ?_⟩
  · rw [wireAt, hp]
    decide
  · rw [hbytes] at hps
    exact torn_stream [] (UInt32.ofNat versionNote.length) ps hps

-- A signal between the two steps of a close: the handler stops at the closed descriptor 4, and the client on 5
-- is sent nothing.
example : (Run.exec MyServer.advance (new 3 ∅ 0) [.accept 4, .accept 5, .close 4]).map
    (fun s => (wireAt (new 3 ∅ 0) s [.accept 4, .accept 5, .close 4] 5).handled.bytes 5) = some [] := by
  decide +kernel

end DiamondApparatus
