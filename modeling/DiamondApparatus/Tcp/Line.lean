import DiamondApparatus.Tcp.Framing
import DiamondApparatus.Tcp.Reads

/-!
# One direction of a connection

* `TCPReceiver.readOnce` : the receive loop from one `read` call to the next, and `stepwise` : the loop
  taken in such pieces. `stepwise_eq_update` : it is `update`;
* `Line` : the bytes that were sent and not read yet, in order; `Line.Offers` : what a `read` can find,
  in pieces of any size;
* `Brings r l ps` : the receiver `r`, with what it has read so far, and the line `l` bring the packets
  `ps`; `Remains acc l ps` : `l` brings what is left of their frames behind the bytes `acc`. `Brings.send`, `Brings.readOnce` : a packet more, and a `read` more.
-/

namespace DiamondApparatus
open Lib TCPReceiver

/-! ## From one `read` to the next -/

namespace TCPReceiver

/-- The part of the loop body that makes the next `read` call. -/
def readOnce (throws : Bytes → Bool) (r : TCPReceiver) (s : Socket) (rv : Bool) : Flow :=
  if r.recvdata.isSome then r.phase2 throws s rv else r.phase1 s rv

def stepwise (throws : Bytes → Bool) : Nat → TCPReceiver → Socket → Bool → Call
  | 0, r, s, _ => ⟨r, s, .blocked⟩
  | n + 1, r, s, rv =>
    match r.readOnce throws s rv with
    | .done c => c
    | .next r s rv => stepwise throws n r s rv

theorem phase1_of_isSome {r : TCPReceiver} (h : r.recvdata.isSome) (s : Socket) (rv : Bool) :
    r.phase1 s rv = .next r s rv := by
  rw [phase1, if_pos h]

theorem updateLoop_done {throws : Bytes → Bool} {r : TCPReceiver} {s : Socket} {rv : Bool} {c : Call}
    (h : r.recvdata.isSome) (hflow : r.phase2 throws s rv = .done c) (n : Nat) :
    updateLoop throws (n + 1) r s rv = c := by
  simp only [updateLoop, phase1_of_isSome h, hflow]

theorem updateLoop_next {throws : Bytes → Bool} {r r' : TCPReceiver} {s s' : Socket} {rv rv' : Bool}
    (h : r.recvdata.isSome) (hflow : r.phase2 throws s rv = .next r' s' rv') (hforce : r'.isForceExit = false)
    (n : Nat) : updateLoop throws (n + 1) r s rv = updateLoop throws n r' s' rv' := by
  simp only [updateLoop, phase1_of_isSome h, hflow, hforce, Bool.false_eq_true, if_false]

end TCPReceiver

theorem readOnce_next {throws : Bytes → Bool} {r r' : TCPReceiver} {s s' : Socket} {rv rv' : Bool} {acc : Bytes}
    (h : Holds r acc) (hflow : r.readOnce throws s rv = .next r' s' rv') :
    (∃ acc', Holds r' acc') ∧ s'.pending < s.pending := by
  unfold readOnce at hflow
  split at hflow
  · next hsome =>
    have hspec := phase2_spec throws h s rv
    rw [hflow] at hspec
    refine ⟨hspec.holds h, ?_⟩
    cases hspec with
    | skip hnone => rw [hnone] at hsome; cases hsome
    | grew hread hne => exact hread.pending hne
  · next hnone =>
    have hspec := phase1_spec h s rv
    rw [hflow] at hspec
    refine ⟨hspec.holds h, ?_⟩
    cases hspec with
    | skip hsome => exact absurd (by rw [hsome]; rfl) hnone
    | grew hread hne => exact hread.pending hne
    | null hread hne => exact hread.pending hne

/-- By induction on the number of `read` calls; a turn of the loop makes one or two of them. -/
theorem stepwise_eq_updateLoop (throws : Bytes → Bool) (n : Nat) : ∀ {m : Nat} {r : TCPReceiver} {s : Socket}
    {acc : Bytes} (rv : Bool), Holds r acc → s.pending < n → s.pending < m →
      stepwise throws n r s rv = updateLoop throws m r s rv := by
  induction n with
  | zero => intro m r s acc rv _ hn; exact absurd hn (Nat.not_lt_zero _)
  | succ n ih =>
    intro m r s acc rv h hn hm
    obtain ⟨m, rfl⟩ : ∃ k, m = k + 1 := ⟨m - 1, by omega⟩
    have hgo : ∀ {r' s' rv'}, r.readOnce throws s rv = .next r' s' rv' →
        (∃ acc', Holds r' acc') ∧ s'.pending < n ∧ s'.pending < m := by
      intro r' s' rv' hflow
      obtain ⟨hr', hlt⟩ := readOnce_next h hflow
      exact ⟨hr', by omega, by omega⟩
    unfold stepwise
    unfold readOnce at hgo ⊢
    split at hgo
    · next hsome =>
      rw [if_pos hsome]
      cases hflow : r.phase2 throws s rv with
      | done c => exact (updateLoop_done hsome hflow m).symm
      | next r' s' rv' =>
        obtain ⟨⟨acc', hr'⟩, hn', hm'⟩ := hgo hflow
        rw [updateLoop_next hsome hflow hr'.force]
        exact ih rv' hr' hn' hm'
    · next hnone =>
      rw [updateLoop, if_neg hnone]
      cases hflow : r.phase1 s rv with
      | done c => rfl
      | next r' s' rv' =>
        obtain ⟨⟨acc', hr'⟩, hn', hm'⟩ := hgo hflow
        dsimp only
        by_cases hsome : r'.recvdata.isSome
        · -- the same turn goes on with its second half
          have hturn : stepwise throws n r' s' rv' = updateLoop throws (m + 1) r' s' rv' :=
            ih rv' hr' hn' (Nat.lt_succ_of_lt hm')
          rw [hturn]
          cases hflow' : r'.phase2 throws s' rv' with
          | done c => exact updateLoop_done hsome hflow' m
          | next r'' s'' rv'' =>
            obtain ⟨acc'', hr''⟩ := (hflow' ▸ phase2_spec throws hr' s' rv').holds hr'
            simp only [hr''.force, Bool.false_eq_true, if_false]
            exact updateLoop_next hsome hflow' hr''.force m
        · have hskip : r'.phase2 throws s' rv' = .next r' s' rv' := by
            rw [phase2, Option.not_isSome_iff_eq_none.1 hsome]
          rw [hskip]
          simp only [hr'.force, Bool.false_eq_true, if_false]
          exact ih rv' hr' hn' hm'

/-- **`update` is its `read` calls, one after the other.** -/
theorem stepwise_eq_update (throws : Bytes → Bool) {r : TCPReceiver} {acc : Bytes} (h : Holds r acc)
    (s : Socket) : stepwise throws (s.pending + 1) r s false = r.update throws s :=
  stepwise_eq_updateLoop throws _ false h (Nat.lt_succ_self _) (Nat.lt_succ_self _)

/-! ## The bytes on their way -/

structure Line where
  bytes : Bytes := []
  /-- Nothing more will be sent. -/
  ended : Bool := false

namespace Line

/-- A complete `basesend`; at a connection that has ended it gives up. -/
def send (l : Line) (p : Bytes) : Line := if l.ended then l else { l with bytes := l.bytes ++ frame p }

def sends (l : Line) (ps : List Bytes) : Line := ps.foldl send l

def finish (l : Line) : Line := { l with ended := true }

/-- What a `read` can find: some of the bytes, the end behind the last of them, or at any time an
error. -/
def Offers (l : Line) : Arrival → Prop
  | .data b bs => b :: bs <+: l.bytes
  | .eof => l.bytes = [] ∧ l.ended
  | .error => True

instance (l : Line) (a : Arrival) : Decidable (l.Offers a) := by
  cases a <;> unfold Offers <;> infer_instance

/-- After a `read` that found `a` and left `s` of it. An error ends the connection, and what was on its
way is lost. -/
def rest (l : Line) (a : Arrival) (s : Socket) : Line :=
  match a with
  | .data _ bs => { l with bytes := s.bytes ++ l.bytes.drop (bs.length + 1) }
  | .eof => l
  | .error => { bytes := [], ended := true }

end Line

/-! ## The packets on their way -/

def IsPayload (p : Bytes) : Prop := p ≠ [] ∧ p.length < 2 ^ 32

/-- The bytes that `r` has read since the last packet and those of `l` are the frames of the packets
`ps`, or the first of these bytes, if the connection has ended. -/
def Brings (r : TCPReceiver) (l : Line) (ps : List Bytes) : Prop :=
  ∃ acc, Holds r acc ∧ ¬ Full r ∧ acc ++ l.bytes <+: ps.flatMap frame ∧
    (l.ended = false → acc ++ l.bytes = ps.flatMap frame)

/-- The bytes `acc`, already read, and those of `l` are the beginning of the frames of `ps`; all of them
while the way is open. -/
def Remains (acc : Bytes) (l : Line) (ps : List Bytes) : Prop :=
  acc ++ l.bytes <+: ps.flatMap frame ∧ (l.ended = false → acc ++ l.bytes = ps.flatMap frame)

theorem not_full_of_none {r : TCPReceiver} (h : r.recvdata = none) : ¬ Full r := by
  rw [Full, h]
  exact fun hfull => Bool.false_ne_true hfull.1

theorem Brings.remains {r : TCPReceiver} {l : Line} {ps : List Bytes} (h : Brings r l ps) :
    ∃ acc, Holds r acc ∧ Remains acc l ps := by
  obtain ⟨acc, hr, -, hpre, hall⟩ := h
  exact ⟨acc, hr, hpre, hall⟩

theorem Holds.eq_nil_of_fresh {fd : Nat} {acc : Bytes} (h : Holds { fd := fd } acc) : acc = [] := by
  cases h with
  | size _ _ _ hct _ => exact List.length_eq_zero_iff.1 hct.symm
  | data _ hdata _ _ _ _ => cases hdata

theorem brings_fresh (fd : Nat) : Brings { fd := fd } {} [] :=
  ⟨[], holds_fresh fd, not_full_of_none rfl, List.prefix_refl _, fun _ => rfl⟩

section
variable {r : TCPReceiver} {l : Line} {ps : List Bytes}

theorem Brings.send (h : Brings r l ps) (p : Bytes) : Brings r (l.send p) (ps ++ [p]) := by
  obtain ⟨acc, hr, hfull, hpre, hall⟩ := h
  refine ⟨acc, hr, hfull, ?_⟩
  rw [List.flatMap_append, List.flatMap_singleton]
  unfold Line.send
  split
  · next hended =>
    refine ⟨hpre.trans (List.prefix_append _ _), fun hopen => ?_⟩
    rw [hended] at hopen
    cases hopen
  · next hopen =>
    have heq := hall (Bool.eq_false_iff.2 hopen)
    rw [← heq, ← List.append_assoc]
    exact ⟨List.prefix_refl _, fun _ => rfl⟩

theorem Brings.sends (h : Brings r l ps) (qs : List Bytes) : Brings r (l.sends qs) (ps ++ qs) := by
  induction qs generalizing l ps with
  | nil => rwa [List.append_nil]
  | cons q qs ih =>
    have h' := ih (h.send q)
    rwa [List.append_assoc] at h'

theorem Brings.finish (h : Brings r l ps) : Brings r l.finish ps := by
  obtain ⟨acc, hr, hfull, hpre, -⟩ := h
  exact ⟨acc, hr, hfull, hpre, nofun⟩

/-- The first block of the stream is the first packet. -/
theorem first_of_prefix (hps : ∀ p ∈ ps, IsPayload p) {m p q : Bytes} (hpre : m <+: ps.flatMap frame)
    (hsplit : ∀ more, splitFrame (m ++ more) = some (p, q ++ more)) :
    ∃ qs, ps = p :: qs ∧ q <+: qs.flatMap frame ∧ (m = ps.flatMap frame → q = qs.flatMap frame) := by
  obtain ⟨more, hmore⟩ := hpre
  have hfirst := hsplit more
  rw [hmore] at hfirst
  cases ps with
  | nil => rw [List.flatMap_nil, splitFrame_short (by decide)] at hfirst; cases hfirst
  | cons p' qs =>
    rw [List.flatMap_cons, splitFrame_frame (hps p' List.mem_cons_self).2, Option.some_inj,
      Prod.mk.injEq] at hfirst
    obtain ⟨rfl, hq⟩ := hfirst
    refine ⟨qs, rfl, ⟨more, hq.symm⟩, fun hall => ?_⟩
    have hnil : more = [] := by
      rw [hall] at hmore
      exact List.append_cancel_left (hmore.trans (List.append_nil _).symm)
    rw [hq, hnil, List.append_nil]

theorem Line.Offers.got {a : Arrival} (h : l.Offers a) {s : Socket} {got : Bytes}
    (acc : Bytes) (hread : Consumed [a] got s.arrivals) (hne : got ≠ []) :
    acc ++ l.bytes = acc ++ got ++ (l.rest a s).bytes ∧ (l.rest a s).ended = l.ended := by
  have hbytes := hread.bytes
  rw [List.flatMap_singleton] at hbytes
  cases a with
  | data b bs =>
    obtain ⟨more, hmore⟩ := h
    refine ⟨?_, rfl⟩
    show _ = _ ++ (s.bytes ++ l.bytes.drop (b :: bs).length)
    rw [← hmore, List.drop_left, show b :: bs = got ++ s.bytes from hbytes]
    simp only [List.append_assoc]
  | eof => exact absurd (List.append_eq_nil_iff.1 hbytes.symm).1 hne
  | error => exact absurd (List.append_eq_nil_iff.1 hbytes.symm).1 hne

theorem Brings.ended (h : Brings r l ps) {a : Arrival} (ha : a.bytes = []) (s : Socket) (b : Bool) :
    Brings { r with portClosed := b } (l.rest a s) ps := by
  obtain ⟨acc, hr, hfull, hpre, hall⟩ := h
  cases a with
  | data b bs => cases ha
  | eof => exact ⟨acc, hr.close b, hfull, hpre, hall⟩
  | error =>
    refine ⟨acc, hr.close b, hfull, ?_, nofun⟩
    show acc ++ [] <+: _
    rw [List.append_nil]
    exact (List.prefix_append acc l.bytes).trans hpre

end

/-- How the loop comes to its next `read`, or ends with this one. -/
inductive ReadEnd (l : Line) (rv : Bool) (a : Arrival) (ps : List Bytes) : Flow → Prop
  | going {r : TCPReceiver} {s : Socket} (ha : a.bytes ≠ []) (hr : Brings r (l.rest a s) ps) :
      ReadEnd l rv a ps (.next r s true)
  | complete {r : TCPReceiver} {s : Socket} {p : Bytes} {qs : List Bytes} (ha : a.bytes ≠ [])
      (hps : ps = p :: qs) (hr : Brings r (l.rest a s) qs) :
      ReadEnd l rv a ps (.done ⟨r, s, .complete p⟩)
  | ended {r : TCPReceiver} {s : Socket} (ha : a.bytes = []) (hr : Brings r (l.rest a s) ps) :
      ReadEnd l rv a ps (.done ⟨r, s, .returned rv⟩)

section
variable {r : TCPReceiver} {l : Line} {ps : List Bytes}

theorem Brings.grow {acc got : Bytes} {a : Arrival} {s : Socket} {r' : TCPReceiver}
    (hpre : acc ++ l.bytes <+: ps.flatMap frame)
    (hall : l.ended = false → acc ++ l.bytes = ps.flatMap frame) (ha : l.Offers a)
    (hread : Consumed [a] got s.arrivals) (hne : got ≠ []) (hr : Holds r' (acc ++ got))
    (hpart : ¬ Full r') : Brings r' (l.rest a s) ps := by
  obtain ⟨hbytes, hended⟩ := ha.got acc hread hne
  rw [hbytes] at hpre hall
  exact ⟨_, hr, hpart, hpre, hended ▸ hall⟩

theorem Brings.got_ne {a : Arrival} {got : Bytes} {as : List Arrival} (hread : Consumed [a] got as)
    (hne : got ≠ []) : a.bytes ≠ [] := by
  intro ha
  have hbytes := hread.bytes
  rw [List.flatMap_singleton, ha] at hbytes
  exact hne (List.append_eq_nil_iff.1 hbytes.symm).1

theorem Holds.part_of_empty (h : Holds r []) : ¬ Full r := by
  intro hf
  obtain ⟨p, -, hsplit⟩ := h.splitFrame_full hf
  have hnone : splitFrame ([] ++ []) = none := splitFrame_short (by decide)
  rw [hsplit] at hnone
  cases hnone

/-- A block that is there with its length field is an empty one. -/
theorem Holds.size_of_full {acc : Bytes} (h : Holds r acc) (hf : Full r) (hlen : acc.length ≤ 4) :
    r.recvsize.toNat = 0 := by
  obtain ⟨buf, hsome⟩ := Option.isSome_iff_exists.1 hf.1
  obtain ⟨part, rfl, -, -, hct, -⟩ := h.part_of_some hsome
  rw [List.length_append, length_be32] at hlen
  rw [← hf.2, hct]
  omega

/-- **One `read` more**, of any piece of what is on its way. -/
theorem Brings.readOnce (h : Brings r l ps) (hps : ∀ p ∈ ps, IsPayload p) {a : Arrival}
    (ha : l.Offers a) (rv : Bool) :
    ReadEnd l rv a ps (r.readOnce (fun _ => false) { arrivals := [a] } rv) := by
  have hbr := h
  obtain ⟨acc, hr, hfull, hpre, hall⟩ := h
  unfold TCPReceiver.readOnce
  split
  · next hsome =>
    have hspec := phase2_spec (fun _ => false) hr { arrivals := [a] } rv
    generalize r.phase2 (fun _ => false) { arrivals := [a] } rv = flow at hspec ⊢
    cases hspec with
    | skip hnone => rw [hnone] at hsome; cases hsome
    | full b hf => exact absurd hf hfull
    | blocked hpart hs => cases hs
    | @ended s' a' b hpart hs ha' =>
      obtain ⟨rfl, -⟩ := List.cons.inj hs
      exact .ended ha' (hbr.ended ha' s' b)
    | grew hread hne hm hpart hr' =>
      exact .going (Brings.got_ne hread hne) (Brings.grow hpre hall ha hread hne hr' hpart)
    | @complete r' s' got p hread hm hp hlt hne hthrow hr' =>
      have hgot : got ≠ [] := by
        rintro rfl
        rw [List.append_nil] at hp
        have hshort := hr.splitFrame_none hfull
        rw [hp, ← List.append_nil (be32 _ ++ p), ← frame, splitFrame_frame hlt] at hshort
        cases hshort
      obtain ⟨hbytes, hended⟩ := ha.got (s := s') acc hread hgot
      rw [hp, ← frame] at hbytes
      rw [hbytes] at hpre hall
      obtain ⟨qs, rfl, hq, hqall⟩ := first_of_prefix hps hpre (p := p) (q := (l.rest a s').bytes)
        fun more => by rw [List.append_assoc, splitFrame_frame hlt]
      refine .complete (Brings.got_ne hread hgot) rfl ⟨[], hr', hr'.part_of_empty, hq, fun hopen => ?_⟩
      exact hqall (hall (hended ▸ hopen))
    | thrown hread hm hp hlt hne hthrow => cases hthrow
  · next hnone =>
    have hspec := phase1_spec hr { arrivals := [a] } rv
    generalize r.phase1 { arrivals := [a] } rv = flow at hspec ⊢
    cases hspec with
    | skip hsome => exact absurd (by rw [hsome]; rfl) hnone
    | blocked hnone hs => cases hs
    | @ended s' a' b hnone hs ha' =>
      obtain ⟨rfl, -⟩ := List.cons.inj hs
      exact .ended ha' (hbr.ended ha' s' b)
    | @grew r' s' got hread hne hm hlen hr' =>
      refine .going (Brings.got_ne hread hne) (Brings.grow hpre hall ha hread hne hr' fun hf => ?_)
      -- the block would be an empty one
      obtain ⟨p, hsize, hsplit⟩ := hr'.splitFrame_full hf
      obtain ⟨hbytes, -⟩ := ha.got (s := s') acc hread hne
      rw [hbytes] at hpre
      obtain ⟨qs, rfl, -⟩ := first_of_prefix hps hpre (q := (l.rest a s').bytes) fun more => by
        rw [List.append_assoc]
        exact hsplit _
      refine (hps p List.mem_cons_self).1 (List.eq_nil_of_length_eq_zero ?_)
      rw [hsize, hr'.size_of_full hf hlen]
    | null hread hne hfail => cases hfail

theorem Brings.eq_nil (h : Brings r l ps) (hps : ∀ p ∈ ps, IsPayload p) (hopen : l.ended = false)
    (hbytes : l.bytes = []) : ps = [] := by
  obtain ⟨acc, hr, hfull, -, hall⟩ := h
  have hacc := hall hopen
  rw [hbytes, List.append_nil] at hacc
  have hnone := hr.splitFrame_none hfull
  cases ps with
  | nil => rfl
  | cons p qs =>
    rw [hacc, List.flatMap_cons, splitFrame_frame (hps p List.mem_cons_self).2] at hnone
    cases hnone

theorem Brings.ne_nil (h : Brings r l ps) (hbytes : l.bytes ≠ []) : ps ≠ [] := by
  rintro rfl
  obtain ⟨acc, -, -, hpre, -⟩ := h
  exact hbytes (List.append_eq_nil_iff.1 (List.prefix_nil.1 hpre)).2

end

end DiamondApparatus
