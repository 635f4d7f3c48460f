import DiamondApparatus.Tcp.Phases
import DiamondApparatus.Lib.Run

/-!
# The `read` calls of the receiver stay inside their buffers

* `reads` : the `read` calls of a call of `update`, each with the receiver that makes it; the socket records
  the same ones (`update_requests`);
* `Inside r q` : the bytes that `r` asks for in `q` lie in the memory of `recvsize`, or in the buffer;
* `Received all x` : of the stream `all` a part has been taken, and what the receiver holds is its end;
* `update_reads_inside` : the statement about all calls.
-/

namespace DiamondApparatus
open Lib Lib.Run TCPReceiver

/-! ## The calls of `read` -/

namespace TCPReceiver

def phase1Read (r : TCPReceiver) : List Request :=
  if r.recvdata.isSome then []
  else [⟨.recvsize, r.recvct.toNat, (2 ^ 64 + 4 - r.recvct.toNat) % 2 ^ 64⟩]

def phase2Read (r : TCPReceiver) : List Request :=
  if r.recvdata.isSome then [⟨.recvdata, r.recvct.toNat, (r.recvsize - r.recvct).toNat⟩] else []

/-- The `read` calls of the receive loop, each with the receiver that makes it. -/
def readsLoop (throws : Bytes → Bool) : Nat → TCPReceiver → Socket → Bool → List (TCPReceiver × Request)
  | 0, _, _, _ => []
  | n + 1, r, s, rv =>
    r.phase1Read.map (r, ·) ++
      match r.phase1 s rv with
      | .done _ => []
      | .next r s rv =>
        r.phase2Read.map (r, ·) ++
          match r.phase2 throws s rv with
          | .done _ => []
          | .next r s rv => if r.isForceExit then [] else readsLoop throws n r s rv

def reads (throws : Bytes → Bool) (r : TCPReceiver) (s : Socket) : List (TCPReceiver × Request) :=
  readsLoop throws (s.pending + 1) r s false

end TCPReceiver

/-- The socket after a part of the loop body. -/
def Flow.sock : Flow → Socket
  | .done c => c.sock
  | .next _ s _ => s

theorem read_requests (s : Socket) (q : Request) : (s.read q).1.requests = s.requests ++ [q] := by
  unfold Socket.read
  dsimp only
  split
  · rfl
  · split <;> rfl

theorem malloc_requests (s : Socket) (n : Nat) : (s.malloc n).1.requests = s.requests := by
  unfold Socket.malloc
  split <;> rfl

theorem phase1_requests (r : TCPReceiver) (s : Socket) (rv : Bool) :
    (r.phase1 s rv).sock.requests = s.requests ++ r.phase1Read := by
  unfold phase1 phase1Read
  split
  · exact (List.append_nil _).symm
  · have hreq := read_requests s ⟨.recvsize, r.recvct.toNat, (2 ^ 64 + 4 - r.recvct.toNat) % 2 ^ 64⟩
    split
    · next heq => rw [heq] at hreq; exact hreq
    · next heq => rw [heq] at hreq; exact hreq
    · next heq =>
      rw [heq] at hreq
      dsimp only
      split
      · exact (malloc_requests _ _).trans hreq
      · exact hreq

theorem phase2_requests (throws : Bytes → Bool) (r : TCPReceiver) (s : Socket) (rv : Bool) :
    (r.phase2 throws s rv).sock.requests = s.requests ++ r.phase2Read := by
  unfold phase2 phase2Read
  split
  · next hnone =>
    rw [hnone]
    exact (List.append_nil _).symm
  · next hsome =>
    rw [hsome, Option.isSome_some, if_pos rfl]
    have hreq := read_requests s ⟨.recvdata, r.recvct.toNat, (r.recvsize - r.recvct).toNat⟩
    split
    · next heq => rw [heq] at hreq; exact hreq
    · next heq => rw [heq] at hreq; exact hreq
    · next heq =>
      rw [heq] at hreq
      dsimp only
      split
      · split
        · exact hreq
        · exact hreq
      · exact hreq

theorem updateLoop_requests (throws : Bytes → Bool) (n : Nat) : ∀ (r : TCPReceiver) (s : Socket) (rv : Bool),
    (updateLoop throws n r s rv).sock.requests = s.requests ++ (readsLoop throws n r s rv).map Prod.snd := by
  induction n with
  | zero => intro r s rv; exact (List.append_nil _).symm
  | succ n ih =>
    intro r s rv
    have h1 := phase1_requests r s rv
    unfold updateLoop readsLoop
    have hsnd : ∀ (r : TCPReceiver) (qs : List Request), (qs.map (r, ·)).map Prod.snd = qs := by
      intro r qs
      rw [List.map_map]
      exact List.map_id _
    cases hflow : r.phase1 s rv with
    | done c =>
      rw [hflow] at h1
      rw [List.map_append, hsnd]
      exact h1.trans (by simp)
    | next r1 s1 rv1 =>
      rw [hflow] at h1
      have h2 := phase2_requests throws r1 s1 rv1
      dsimp only
      rw [List.map_append, hsnd, ← List.append_assoc]
      rw [show s1.requests = s.requests ++ r.phase1Read from h1] at h2
      cases hflow2 : r1.phase2 throws s1 rv1 with
      | done c =>
        rw [hflow2] at h2
        rw [List.map_append, hsnd]
        exact h2.trans (by simp)
      | next r2 s2 rv2 =>
        rw [hflow2] at h2
        dsimp only
        rw [List.map_append, hsnd, ← List.append_assoc, ← show s2.requests = _ from h2]
        split
        · simp
        · exact ih r2 s2 rv2

/-- The socket records the `read` calls of `reads`. -/
theorem update_requests (throws : Bytes → Bool) (r : TCPReceiver) (s : Socket) :
    (r.update throws s).sock.requests = s.requests ++ (r.reads throws s).map Prod.snd :=
  updateLoop_requests throws _ r s false

/-! ## Inside the buffers -/

/-- The destination of `q` lies in the four bytes of `recvsize` as long as there is no buffer, and else in
the buffer of `recvsize` bytes; it ends where that ends, so the subtraction behind `count` has not wrapped. -/
def Inside (r : TCPReceiver) (q : Request) : Prop :=
  match q.dest with
  | .recvsize =>
    r.recvdata = none ∧ r.recvct < 4 ∧ q.off = r.recvct.toNat ∧ q.off + q.count = 4
  | .recvdata =>
    r.recvdata.map List.length = some r.recvsize.toNat ∧ r.recvct ≤ r.recvsize ∧
      q.off = r.recvct.toNat ∧ q.off + q.count = r.recvsize.toNat

theorem Holds.phase1Read_inside {r : TCPReceiver} {acc : Bytes} (h : Holds r acc) :
    ∀ q ∈ r.phase1Read, Inside r q := by
  intro q hq
  unfold phase1Read at hq
  cases hdata : r.recvdata with
  | some buf =>
    rw [hdata] at hq
    cases hq
  | none =>
    obtain ⟨hlt, hct, -⟩ := h.lt_of_none hdata
    rw [hdata] at hq
    obtain rfl := List.mem_singleton.1 hq
    refine ⟨hdata, UInt32.lt_iff_toNat_lt.2 (hct ▸ hlt), rfl, ?_⟩
    dsimp only
    omega

theorem Holds.phase2Read_inside {r : TCPReceiver} {acc : Bytes} (h : Holds r acc) :
    ∀ q ∈ r.phase2Read, Inside r q := by
  intro q hq
  unfold phase2Read at hq
  cases hdata : r.recvdata with
  | none =>
    rw [hdata] at hq
    cases hq
  | some buf =>
    obtain ⟨part, -, hbuf, hle, hct, -⟩ := h.part_of_some hdata
    rw [hdata] at hq
    obtain rfl := List.mem_singleton.1 hq
    have hle' : r.recvct ≤ r.recvsize := UInt32.le_iff_toNat_le.2 (by omega)
    refine ⟨by rw [hdata, Option.map_some, hbuf], hle', rfl, ?_⟩
    rw [UInt32.toNat_sub_of_le _ _ hle']
    exact Nat.add_sub_of_le (UInt32.le_iff_toNat_le.1 hle')

theorem Phase1.holds {r r' : TCPReceiver} {s s' : Socket} {rv rv' : Bool} {acc : Bytes}
    (h : Phase1 r s rv acc (.next r' s' rv')) (hr : Holds r acc) : ∃ acc', Holds r' acc' := by
  cases h with
  | skip => exact ⟨acc, hr⟩
  | grew _ _ _ _ hr' => exact ⟨_, hr'⟩
  | null _ _ _ _ _ hr' => exact ⟨_, hr'⟩

theorem Phase2.holds {throws : Bytes → Bool} {r r' : TCPReceiver} {s s' : Socket} {rv rv' : Bool}
    {acc : Bytes} (h : Phase2 throws r s rv acc (.next r' s' rv')) (hr : Holds r acc) :
    ∃ acc', Holds r' acc' := by
  cases h with
  | skip => exact ⟨acc, hr⟩
  | grew _ _ _ _ hr' => exact ⟨_, hr'⟩

/-- Every turn of the loop asks for bytes inside the buffers, whatever arrives and whatever `malloc` does. -/
theorem readsLoop_inside (throws : Bytes → Bool) (n : Nat) : ∀ {r : TCPReceiver} {acc : Bytes} (s : Socket)
    (rv : Bool), Holds r acc → ∀ x ∈ readsLoop throws n r s rv, Inside x.1 x.2 := by
  induction n with
  | zero => intro r acc s rv _ x hx; cases hx
  | succ n ih =>
    intro r acc s rv h x hx
    have h1 := phase1_spec h s rv
    unfold readsLoop at hx
    rcases List.mem_append.1 hx with hx | hx
    · obtain ⟨q, hq, rfl⟩ := List.mem_map.1 hx
      exact h.phase1Read_inside q hq
    cases hflow : r.phase1 s rv with
    | done c =>
      rw [hflow] at hx
      cases hx
    | next r1 s1 rv1 =>
      rw [hflow] at h1 hx
      obtain ⟨acc1, hr1⟩ := h1.holds h
      have h2 := phase2_spec throws hr1 s1 rv1
      rcases List.mem_append.1 hx with hx | hx
      · obtain ⟨q, hq, rfl⟩ := List.mem_map.1 hx
        exact hr1.phase2Read_inside q hq
      cases hflow2 : r1.phase2 throws s1 rv1 with
      | done c =>
        rw [hflow2] at hx
        cases hx
      | next r2 s2 rv2 =>
        rw [hflow2] at h2 hx
        obtain ⟨acc2, hr2⟩ := h2.holds hr1
        simp only [hr2.force, Bool.false_eq_true, if_false] at hx
        exact ih s2 rv2 hr2 x hx

/-! ## Call after call -/

def Socket.bytes (s : Socket) : Bytes := s.arrivals.flatMap Arrival.bytes

/-- What a call takes off the stream, and what of it the receiver has when `process` gets a packet, and
afterwards. -/
theorem Outcome.taken {throws : Bytes → Bool} {r : TCPReceiver} {s : Socket} {rv : Bool} {acc : Bytes}
    {c : Call} (h : Outcome throws r s rv acc c) : ∃ got acc' left, s.bytes = got ++ c.sock.bytes ∧
      acc' <:+ acc ++ got ∧ left <:+ acc' ∧ Holds c.recv left ∧
      ∀ p, c.result.packet = some p → acc' = be32 (UInt32.ofNat p.length) ++ p ∧ p.length < 2 ^ 32 := by
  cases h with
  | @complete got p hread hkept hlt hne hthrow hr hres =>
    refine ⟨got, _, [], hread.bytes, hkept.suffix, List.nil_suffix, hr, fun p' hp' => ?_⟩
    rw [hres] at hp'
    cases hp'
    exact ⟨rfl, hlt⟩
  | @thrown got p hread hkept hlt hne hthrow hfull hr hres =>
    refine ⟨got, _, _, hread.bytes, hkept.suffix, List.suffix_refl _, hr, fun p' hp' => ?_⟩
    rw [hres] at hp'
    cases hp'
    exact ⟨rfl, hlt⟩
  | @blocked got acc' hread hend hkept hpart hr hres =>
    refine ⟨got, acc', acc', ?_, hkept.suffix, List.suffix_refl _, hr, fun p' hp' => ?_⟩
    · rw [Socket.bytes, Socket.bytes, hend]
      exact hread.bytes
    · rw [hres] at hp'
      cases hp'
  | @ended got acc' a rv' hread ha hkept hpart hr hres =>
    refine ⟨got, acc', acc', ?_, hkept.suffix, List.suffix_refl _, hr, fun p' hp' => ?_⟩
    · have hbytes := hread.bytes
      rwa [List.flatMap_cons, ha, List.nil_append] at hbytes
    · rw [hres] at hp'
      cases hp'
  | @full got acc' rv' hread hkept hfull hr hwhy hres =>
    refine ⟨got, acc', acc', hread.bytes, hkept.suffix, List.suffix_refl _, hr, fun p' hp' => ?_⟩
    rw [hres] at hp'
    cases hp'

theorem Outcome.exhausted {throws : Bytes → Bool} {r : TCPReceiver} {s : Socket} {rv : Bool} {acc : Bytes}
    {c : Call} (h : Outcome throws r s rv acc c) (hres : c.result = .blocked) : c.sock.arrivals = [] := by
  cases h with
  | blocked _ hend => exact hend
  | complete _ _ _ _ _ _ hres' => rw [hres'] at hres; cases hres
  | thrown _ _ _ _ _ _ _ hres' => rw [hres'] at hres; cases hres
  | ended _ _ _ _ _ hres' => rw [hres'] at hres; cases hres
  | full _ _ _ _ _ hres' => rw [hres'] at hres; cases hres

/-- The bytes `taken` of the stream `all` have been read, and the receiver holds the last of them. -/
structure Received (all : Bytes) (x : TCPReceiver × Socket) (taken acc : Bytes) : Prop where
  stream : all = taken ++ x.2.bytes
  holds : Holds x.1 acc
  suffix : acc <:+ taken

theorem Received.update {all taken acc : Bytes} {x : TCPReceiver × Socket} (h : Received all x taken acc)
    (throws : Bytes → Bool) : ∃ got left, Received all
      ((x.1.update throws x.2).recv, (x.1.update throws x.2).sock) (taken ++ got) left ∧
      ∀ p, (x.1.update throws x.2).result.packet = some p →
        be32 (UInt32.ofNat p.length) ++ p <:+ taken ++ got ∧ p.length < 2 ^ 32 := by
  obtain ⟨got, acc', left, hbytes, hsuf, hleft, hholds, hpacket⟩ := (update_outcome throws h.holds x.2).taken
  have hacc : acc' <:+ taken ++ got := by
    obtain ⟨pre, hpre⟩ := h.suffix
    refine hsuf.trans ⟨pre, ?_⟩
    rw [← hpre, List.append_assoc]
  refine ⟨got, left, ⟨?_, hholds, hleft.trans hacc⟩, fun p hp => ?_⟩
  · rw [h.stream, hbytes, List.append_assoc]
  · obtain ⟨rfl, hlt⟩ := hpacket p hp
    exact ⟨hacc, hlt⟩

theorem received_new (fd : Nat) (s : Socket) : Received s.bytes ({ fd := fd }, s) [] [] :=
  ⟨rfl, holds_fresh fd, List.suffix_refl _⟩

theorem callStep_eq_some {x x' : TCPReceiver × Socket} {throws : Bytes → Bool}
    (h : callStep x throws = some x') : (x.1.update throws x.2).result ≠ .blocked ∧
      x' = ((x.1.update throws x.2).recv, (x.1.update throws x.2).sock) := by
  unfold callStep at h
  dsimp only at h
  split at h
  · cases h
  · next hne => exact ⟨hne, (Option.some_inj.1 h).symm⟩

theorem received_run {fd : Nat} {s : Socket} {es : List (Bytes → Bool)} {x : TCPReceiver × Socket}
    (hrun : exec callStep ({ fd := fd }, s) es = some x) : ∃ taken acc, Received s.bytes x taken acc := by
  refine invariant (I := fun x => ∃ taken acc, Received s.bytes x taken acc) ?_ ⟨_, _, received_new fd s⟩ hrun
  rintro x throws x' ⟨taken, acc, h⟩ hstep
  obtain ⟨-, rfl⟩ := callStep_eq_some hstep
  obtain ⟨got, left, h', -⟩ := h.update throws
  exact ⟨_, _, h'⟩

/-- **Receiver buffer bounds.** A new receiver gets any bytes, ends and errors in any pieces, with any results
of `malloc`, and `process` throws on any packets. In every call of `update`, each `read` is asked for bytes
inside its buffer, and a packet for `process` is a length field and as many bytes, the last that were read.
A call that blocks has taken all there is. -/
theorem update_reads_inside (fd : Nat) (arrivals : List Arrival) (mallocs : List Bool)
    (before : List (Bytes → Bool)) (x : TCPReceiver × Socket)
    (hrun : exec callStep ({ fd := fd }, { arrivals := arrivals, mallocs := mallocs }) before = some x)
    (throws : Bytes → Bool) :
    let c := x.1.update throws x.2
    c.sock.requests = x.2.requests ++ (x.1.reads throws x.2).map Prod.snd ∧
      (∀ y ∈ x.1.reads throws x.2, Inside y.1 y.2) ∧
      (∀ p, c.result.packet = some p → p.length < 2 ^ 32 ∧
        ∃ taken, arrivals.flatMap Arrival.bytes = taken ++ c.sock.bytes ∧
          be32 (UInt32.ofNat p.length) ++ p <:+ taken) ∧
      (c.result = .blocked → c.sock.arrivals = []) := by
  obtain ⟨taken, acc, h⟩ := received_run hrun
  obtain ⟨got, left, h', hpacket⟩ := h.update throws
  refine ⟨update_requests throws x.1 x.2, readsLoop_inside throws _ x.2 false h.holds, fun p hp => ?_,
    (update_outcome throws h.holds x.2).exhausted⟩
  obtain ⟨hsuf, hlt⟩ := hpacket p hp
  exact ⟨hlt, taken ++ got, h'.stream, hsuf⟩

/-- A length field of 9 for which there is no memory, and then a packet on which `process` throws. -/
def afterThrow : TCPReceiver × Socket :=
  ({ fd := 5, recvct := 2, recvdata := some [7, 8], recvsize := 2 },
    { arrivals := [.data 0 []], requests := [⟨.recvsize, 0, 4⟩, ⟨.recvsize, 0, 4⟩, ⟨.recvsize, 2, 2⟩,
      ⟨.recvdata, 0, 2⟩, ⟨.recvdata, 1, 1⟩] })

/-- The next call of `update` asks for nothing, at the end of the full buffer. -/
theorem update_reads_inside_afterThrow :
    afterThrow.1.reads (fun _ => false) afterThrow.2 = [(afterThrow.1, ⟨.recvdata, 2, 0⟩)] ∧
      Inside afterThrow.1 ⟨.recvdata, 2, 0⟩ := by
  have hreads : afterThrow.1.reads (fun _ => false) afterThrow.2 = [(afterThrow.1, ⟨.recvdata, 2, 0⟩)] := by
    decide
  have h := update_reads_inside 5 [.data 0 [0, 0, 9, 0, 0], .data 0 [2, 7], .data 8 [0]] [false]
    [fun _ => true] afterThrow (by decide) (fun _ => false)
  exact ⟨hreads, h.2.1 (afterThrow.1, ⟨.recvdata, 2, 0⟩) (hreads ▸ List.mem_singleton_self _)⟩

end DiamondApparatus
