import DiamondApparatus.Server.Bookkeeping
import DiamondApparatus.Tcp.Framing
import DiamondApparatus.Tcp.Reads

/-!
# When a connection is dropped

A call of the receiver's `update` that returns false makes the server close the connection.

* `Socket.ends` : the ends of stream and errors to come; `EndReported x throws` : the call returns false only
  when a `read` in it has met one of them. `endReported_iff` : it does not begin with a full buffer;
* `Frames m fs tail` : the stream `m` is the frames of `fs` and less than one more; `FrameCall` : how a call
  ends that begins between two frames (`update_frames`), and `Leftover` : what is there behind the last one;
* `beforeCall` : the receiver before a call; `keptUp_iff` : the statement about all calls on a connection.
-/

namespace DiamondApparatus
open Lib Lib.Run TCPReceiver Std

/-! ## The server's side -/

/-- What the call of the receiver of `fd` is for the server; `tail` is the readable memory behind a packet. -/
def CallEnd.event (fd : Nat) (tail : Bytes) (now : Now) : CallEnd → Option Event
  | .returned false => some (.close fd)
  | .complete p => some (.packet fd p tail now)
  | .thrown p => some (.packet fd p tail now)
  | .returned true => none
  | .blocked => none

namespace MyServer

/-- The server behind the call of the receiver of `fd`. -/
def readable (m : MyServer) (fd : Nat) (tail : Bytes) (now : Now) (e : CallEnd) : MyServer :=
  (e.event fd tail now).elim m fun ev => (m.step ev).1

theorem mem_readable_clients {m : MyServer} (hb : Bookkeeping m) {fd : Nat} (hfd : fd ∈ m.clients)
    (tail : Bytes) (now : Now) (e : CallEnd) :
    fd ∈ (m.readable fd tail now e).clients ↔ e ≠ .returned false := by
  have hpacket : ∀ p, fd ∈ (m.step (.packet fd p tail now)).1.clients := by
    intro p
    have hkeeps := receive_keeps hb hfd p tail now
    show fd ∈ (m.receive fd p tail now).1.clients
    rw [hkeeps.clients]
    exact hfd
  cases e with
  | returned rv =>
    cases rv with
    | false =>
      refine iff_of_false (fun hmem => ?_) (fun hne => hne rfl)
      have hmem : fd ∈ (m.step (.close fd)).1.clients := hmem
      rw [step_close hb hfd] at hmem
      exact (ExtTreeMap.mem_erase.1 hmem).1 compare_self
    | true => exact iff_of_true hfd nofun
  | complete p => exact iff_of_true (hpacket p) nofun
  | thrown p => exact iff_of_true (hpacket p) nofun
  | blocked => exact iff_of_true hfd nofun

end MyServer

/-! ## Ends of the stream -/

def Socket.ends (s : Socket) : Nat := s.arrivals.countP fun a => a.bytes = []

theorem Consumed.ends {as as' : List Arrival} {got : Bytes} (h : Consumed as got as') :
    (as'.countP fun a => a.bytes = []) = as.countP fun a => a.bytes = [] := by
  induction h with
  | refl => rfl
  | @step b bs got rest more as as' _ _ _ ih =>
    rw [ih]
    cases rest <;> simp [putBack, Arrival.bytes]

/-- A call that returns false has met an end of the stream, or an error. -/
def EndReported (x : TCPReceiver × Socket) (throws : Bytes → Bool) : Prop :=
  (x.1.update throws x.2).result = .returned false → (x.1.update throws x.2).sock.ends < x.2.ends

/-- With a full buffer `read` is asked for nothing. -/
theorem update_full (throws : Bytes → Bool) {r : TCPReceiver} (hfull : Full r) (s : Socket) :
    (r.update throws s).result = .returned false ∧ (r.update throws s).sock.arrivals = s.arrivals := by
  obtain ⟨buf, hsome⟩ := Option.isSome_iff_exists.1 hfull.1
  simp [TCPReceiver.update, updateLoop, phase1, phase2, hsome, hfull.2, Socket.read]

/-- **A call returns false for an end exactly when it does not begin with a full buffer.** -/
theorem endReported_iff {x : TCPReceiver × Socket} {acc : Bytes} (h : Holds x.1 acc) (throws : Bytes → Bool) :
    EndReported x throws ↔ ¬ Full x.1 := by
  constructor
  · intro hrep hfull
    obtain ⟨hres, harr⟩ := update_full throws hfull x.2
    have hlt := hrep hres
    rw [Socket.ends, harr] at hlt
    exact Nat.lt_irrefl _ hlt
  · intro hpart hres
    have hout := update_outcome throws h x.2
    generalize x.1.update throws x.2 = c at hout hres ⊢
    cases hout with
    | complete _ _ _ _ _ _ hres' => rw [hres'] at hres; cases hres
    | thrown _ _ _ _ _ _ _ hres' => rw [hres'] at hres; cases hres
    | blocked _ _ _ _ _ hres' => rw [hres'] at hres; cases hres
    | ended hread ha =>
      have hends := hread.ends
      rw [List.countP_cons_of_pos (by simp [ha])] at hends
      exact Nat.lt_of_succ_le (Nat.le_of_eq hends)
    | full _ _ _ _ hwhy hres' =>
      rcases hwhy with ⟨hstart, -⟩ | ⟨-, rfl, -⟩
      · exact absurd hstart hpart
      · rw [hres'] at hres
        cases hres

/-! ## Frames on the way -/

/-- The stream `m` is the frames of `fs`, and then less than one more. -/
structure Frames (m : Bytes) (fs : List Bytes) (tail : Bytes) : Prop where
  stream : m = fs.flatMap frame ++ tail
  lt : ∀ f ∈ fs, f.length < 2 ^ 32
  short : splitFrame tail = none

theorem splitFrame_eq_some {m f q : Bytes} (h : splitFrame m = some (f, q)) :
    m = frame f ++ q ∧ f.length < 2 ^ 32 := by
  by_cases hm : m.length < 4
  · rw [splitFrame_short hm] at h
    cases h
  · obtain ⟨n, rest, rfl⟩ := exists_be32_append (Nat.le_of_not_lt hm)
    rw [splitFrame_be32] at h
    split at h
    · cases h
    · next hle =>
      obtain ⟨rfl, rfl⟩ := Prod.mk.inj (Option.some_inj.1 h)
      have hlen : (rest.take n.toNat).length = n.toNat := by
        rw [List.length_take]
        omega
      rw [frame, hlen, UInt32.ofNat_toNat, List.append_assoc, List.take_append_drop]
      exact ⟨rfl, n.toNat_lt⟩

theorem exists_frames (m : Bytes) : ∃ fs tail, Frames m fs tail := by
  induction hn : m.length using Nat.strong_induction_on generalizing m with
  | _ n ih =>
    cases hsplit : splitFrame m with
    | none => exact ⟨[], m, rfl, by simp, hsplit⟩
    | some x =>
      obtain ⟨f, q⟩ := x
      obtain ⟨rfl, hlt⟩ := splitFrame_eq_some hsplit
      have hq : q.length < n := by
        rw [← hn, List.length_append, frame, List.length_append, length_be32]
        omega
      obtain ⟨fs, tail, h⟩ := ih q.length hq q rfl
      refine ⟨f :: fs, tail, ?_, ?_, h.short⟩
      · rw [List.flatMap_cons, List.append_assoc, ← h.stream]
      · intro g hg
        rcases List.mem_cons.1 hg with rfl | hg
        · exact hlt
        · exact h.lt g hg

theorem Holds.not_full {r : TCPReceiver} (h : Holds r []) : ¬ Full r := by
  intro hfull
  obtain ⟨buf, hsome⟩ := Option.isSome_iff_exists.1 hfull.1
  obtain ⟨part, hnil, -⟩ := h.part_of_some hsome
  have hlen := congrArg List.length hnil
  rw [List.length_append, length_be32, List.length_nil] at hlen
  omega

/-- No byte comes behind an end of the stream or an error. -/
def Socket.Orderly (s : Socket) : Prop :=
  ∃ chunks ends, s.arrivals = chunks ++ ends ∧ (∀ a ∈ chunks, a.bytes ≠ []) ∧ ∀ a ∈ ends, a.bytes = []

/-- The bytes `m` are on the way, and `malloc` succeeds. -/
structure OnTheWay (s : Socket) (m : Bytes) : Prop where
  orderly : s.Orderly
  mallocs : false ∉ s.mallocs
  bytes : s.bytes = m

theorem OnTheWay.after {s s' : Socket} {m got rest acc acc' : Bytes} (h : OnTheWay s m)
    (hread : Consumed s.arrivals got s'.arrivals) (hkept : Kept s s' acc got acc') (hrest : m = got ++ rest) :
    OnTheWay s' rest where
  orderly := by
    obtain ⟨chunks, ends, harr, hdata, hends⟩ := h.orderly
    obtain ⟨left, hleft, hdata', -⟩ := hread.split hends harr hdata
    exact ⟨left, ends, hleft, hdata', hends⟩
  mallocs := hkept.malloc_ok h.mallocs
  bytes := by
    have hbytes := h.bytes
    rw [Socket.bytes, hread.bytes, hrest] at hbytes
    exact List.append_cancel_left hbytes

theorem Socket.Orderly.ended {s s' : Socket} {a : Arrival} {got : Bytes} (h : s.Orderly)
    (hread : Consumed s.arrivals got (a :: s'.arrivals)) (ha : a.bytes = []) : s'.bytes = [] := by
  obtain ⟨chunks, ends, harr, hdata, hends⟩ := h
  obtain ⟨rfl, -⟩ := hread.split_end hends ha harr hdata
  exact List.flatMap_eq_nil_iff.2 fun x hx => hends x (List.mem_cons_of_mem _ hx)

/-- The receiver holds a part of a block, and nothing more comes. -/
structure Leftover (x : TCPReceiver × Socket) (acc : Bytes) : Prop where
  holds : Holds x.1 acc
  part : ¬ Full x.1
  mallocs : false ∉ x.2.mallocs
  bytes : x.2.bytes = []

/-- How a call ends that begins between two frames, with the stream `m` on the way: it uses `m` up, it passes
the first frame on, or it gets stuck with that frame in the buffer. -/
inductive FrameCall (throws : Bytes → Bool) (m : Bytes) (c : Call) : Prop
  | usedUp {acc : Bytes} (hsplit : splitFrame m = none) (hleft : Leftover (c.recv, c.sock) acc)
  | passes {f rest : Bytes} (hsplit : splitFrame m = some (f, rest)) (ho : OnTheWay c.sock rest)
      (hgood : f ≠ [] ∧ throws f = false) (hr : Holds c.recv []) (hres : c.result = .complete f)
  | stuck {f rest : Bytes} (hsplit : splitFrame m = some (f, rest)) (hbad : ¬ (f ≠ [] ∧ throws f = false))
      (hfull : Full c.recv) (hres : c.result ≠ .blocked)

theorem update_frames {r : TCPReceiver} {s : Socket} {m : Bytes} (h : Holds r []) (ho : OnTheWay s m)
    (throws : Bytes → Bool) : FrameCall throws m (r.update throws s) := by
  have hout := update_outcome throws h s
  generalize r.update throws s = c at hout ⊢
  have hbytes : ∀ {as : List Arrival} {got : Bytes}, Consumed s.arrivals got as →
      m = got ++ as.flatMap Arrival.bytes := by
    intro as got hread
    rw [← ho.bytes]
    exact hread.bytes
  cases hout with
  | @complete got p hread hkept hlt hne hthrow hr hres =>
    have hm := hbytes hread
    have hsplit : splitFrame m = some (p, c.sock.bytes) := by
      rw [hm, ← List.nil_append got, ← hkept.all ho.mallocs]
      exact splitFrame_frame hlt _
    exact .passes hsplit (ho.after hread hkept hm) ⟨hne, hthrow⟩ hr hres
  | @thrown got p hread hkept hlt hne hthrow hfull hr hres =>
    have hsplit : splitFrame m = some (p, c.sock.bytes) := by
      rw [hbytes hread, ← List.nil_append got, ← hkept.all ho.mallocs]
      exact splitFrame_frame hlt _
    exact .stuck hsplit (by simp [hthrow]) hfull (by simp [hres])
  | @blocked got acc' hread hend hkept hpart hr hres =>
    have hsplit : splitFrame m = none := by
      rw [hbytes hread, List.flatMap_nil, List.append_nil, ← List.nil_append got, ← hkept.all ho.mallocs]
      exact hr.splitFrame_none hpart
    have hnone : c.sock.bytes = [] := by
      rw [Socket.bytes, hend]
      rfl
    exact .usedUp hsplit ⟨hr, hpart, hkept.malloc_ok ho.mallocs, hnone⟩
  | @ended got acc' a rv' hread ha hkept hpart hr hres =>
    have hnone := ho.orderly.ended hread ha
    have hsplit : splitFrame m = none := by
      rw [hbytes hread, List.flatMap_cons, ha, List.nil_append]
      show splitFrame (got ++ c.sock.bytes) = none
      rw [hnone, List.append_nil, ← List.nil_append got, ← hkept.all ho.mallocs]
      exact hr.splitFrame_none hpart
    exact .usedUp hsplit ⟨hr, hpart, hkept.malloc_ok ho.mallocs, hnone⟩
  | @full got acc' rv' hread hkept hfull hr hwhy hres =>
    rcases hwhy with ⟨hstart, -⟩ | ⟨-, -, hzero⟩
    · exact absurd hstart h.not_full
    · obtain ⟨p, hlen, hsplit⟩ := hr.splitFrame_full hfull
      rw [hzero] at hlen
      obtain rfl : p = [] := List.eq_nil_of_length_eq_zero hlen
      have hsplit : splitFrame m = some ([], c.sock.bytes) := by
        rw [hbytes hread, ← List.nil_append got, ← hkept.all ho.mallocs]
        exact hsplit _
      exact .stuck hsplit (by simp) hfull (by simp [hres])

theorem Leftover.update {x : TCPReceiver × Socket} {acc : Bytes} (h : Leftover x acc) (throws : Bytes → Bool) :
    ∃ acc', Leftover ((x.1.update throws x.2).recv, (x.1.update throws x.2).sock) acc' := by
  have hout := update_outcome throws h.holds x.2
  generalize x.1.update throws x.2 = c at hout ⊢
  have hnone : ∀ {as : List Arrival} {got : Bytes}, Consumed x.2.arrivals got as →
      got = [] ∧ as.flatMap Arrival.bytes = [] := by
    intro as got hread
    exact List.append_eq_nil_iff.1 (hread.bytes.symm.trans h.bytes)
  have hframe : ∀ {p : Bytes} {got : Bytes}, Kept x.2 c.sock acc got (frame p) → got = [] →
      ¬ p.length < 2 ^ 32 := by
    intro p got hkept hgot hlt
    have hshort := h.holds.splitFrame_none h.part
    have hall := hkept.all h.mallocs
    rw [hgot, List.append_nil] at hall
    rw [← hall, ← List.append_nil (frame p), splitFrame_frame hlt] at hshort
    cases hshort
  cases hout with
  | complete hread hkept hlt => exact absurd hlt (hframe hkept (hnone hread).1)
  | thrown hread hkept hlt => exact absurd hlt (hframe hkept (hnone hread).1)
  | blocked hread hend hkept hpart hr =>
    refine ⟨_, hr, hpart, hkept.malloc_ok h.mallocs, ?_⟩
    show c.sock.bytes = []
    rw [Socket.bytes, hend]
    rfl
  | ended hread ha hkept hpart hr =>
    refine ⟨_, hr, hpart, hkept.malloc_ok h.mallocs, ?_⟩
    have hbytes := (hnone hread).2
    rwa [List.flatMap_cons, ha, List.nil_append] at hbytes
  | full hread hkept hfull hr hwhy =>
    rcases hwhy with ⟨hstart, -⟩ | ⟨hne, -⟩
    · exact absurd hstart h.part
    · exact absurd (hnone hread).1 hne

/-- The call that meets the frame of `f`. -/
theorem frame_call {r : TCPReceiver} {s : Socket} {f rest : Bytes} (h : Holds r [])
    (ho : OnTheWay s (frame f ++ rest)) (hlt : f.length < 2 ^ 32) (throws : Bytes → Bool) :
    let c := r.update throws s
    (f ≠ [] ∧ throws f = false) ∧ c.result = .complete f ∧ Holds c.recv [] ∧ OnTheWay c.sock rest ∨
      ¬ (f ≠ [] ∧ throws f = false) ∧ Full c.recv ∧ c.result ≠ .blocked := by
  have hfirst := splitFrame_frame hlt rest
  cases update_frames h ho throws with
  | usedUp hsplit =>
    rw [hfirst] at hsplit
    cases hsplit
  | passes hsplit ho' hgood hr hres =>
    rw [hfirst] at hsplit
    cases hsplit
    exact .inl ⟨hgood, hres, hr, ho'⟩
  | stuck hsplit hbad hfull hres =>
    rw [hfirst] at hsplit
    cases hsplit
    exact .inr ⟨hbad, hfull, hres⟩

/-! ## All calls -/

section
variable {fd : Nat} {s : Socket} {throws : Nat → Bytes → Bool}

/-- The receiver and its socket before call number `k`, when the calls before it have not blocked; `throws i`
tells the packets on which `process` throws in call number `i`. -/
def beforeCall (fd : Nat) (s : Socket) (throws : Nat → Bytes → Bool) (k : Nat) : Option (TCPReceiver × Socket) :=
  exec callStep ({ fd := fd }, s) ((List.range k).map throws)

theorem beforeCall_succ (k : Nat) :
    beforeCall fd s throws (k + 1) = (beforeCall fd s throws k).bind (callStep · (throws k)) := by
  rw [beforeCall, List.range_succ, List.map_append, exec_append]
  exact congrArg _ (funext fun x => Option.bind_fun_some _)

theorem beforeCall_next {k : Nat} {x : TCPReceiver × Socket} (hx : beforeCall fd s throws k = some x)
    (hres : (x.1.update (throws k) x.2).result ≠ .blocked) : beforeCall fd s throws (k + 1) =
      some ((x.1.update (throws k) x.2).recv, (x.1.update (throws k) x.2).sock) := by
  rw [beforeCall_succ, hx, Option.bind_some, callStep]
  exact if_neg hres

/-- No call begins with a full buffer. -/
def NeverFull (fd : Nat) (s : Socket) (throws : Nat → Bytes → Bool) : Prop :=
  ∀ k x, beforeCall fd s throws k = some x → ¬ Full x.1

/-- The connection is dropped only when it is over: a call that returns false has met an end of the stream or
an error, and every frame behind another one is handed over, in the call of its number. -/
structure KeptUp (fd : Nat) (s : Socket) (throws : Nat → Bytes → Bool) : Prop where
  real : ∀ k x, beforeCall fd s throws k = some x → EndReported x (throws k)
  received : s.Orderly → ∀ fs tail, Frames s.bytes fs tail → ∀ i f, 0 < i → fs[i]? = some f →
    ∃ x, beforeCall fd s throws i = some x ∧ (x.1.update (throws i) x.2).result.packet = some f

/-- The frames before number `i` have gone to `process`, one in each call. -/
theorem beforeCall_frames (fd : Nat) {fs : List Bytes} {tail : Bytes} (ho : OnTheWay s s.bytes)
    (hf : Frames s.bytes fs tail) (i : Nat) (hi : i ≤ fs.length)
    (hgood : ∀ j f, j < i → fs[j]? = some f → f ≠ [] ∧ throws j f = false) :
    ∃ x, beforeCall fd s throws i = some x ∧ Holds x.1 [] ∧
      OnTheWay x.2 ((fs.drop i).flatMap frame ++ tail) := by
  induction i with
  | zero => exact ⟨_, rfl, holds_fresh fd, hf.stream ▸ ho⟩
  | succ i ih =>
    obtain ⟨x, hx, hholds, hopen⟩ := ih (Nat.le_of_succ_le hi) fun j f hj => hgood j f (Nat.lt_succ_of_lt hj)
    rw [List.drop_eq_getElem_cons hi, List.flatMap_cons, List.append_assoc] at hopen
    rcases frame_call hholds hopen (hf.lt _ (List.getElem_mem hi)) (throws i) with
      ⟨-, hres, hr, ho'⟩ | ⟨hbad, -, -⟩
    · exact ⟨_, beforeCall_next hx (by simp [hres]), hr, ho'⟩
    · exact absurd (hgood i _ (Nat.lt_succ_self i) (List.getElem?_eq_getElem hi)) hbad

/-- The call that meets frame number `i`, behind frames that went through. -/
theorem call_frame (fd : Nat) {fs : List Bytes} {tail : Bytes} (ho : OnTheWay s s.bytes) (hf : Frames s.bytes fs tail)
    {i : Nat} {f : Bytes} (hget : fs[i]? = some f)
    (hgood : ∀ j f, j < i → fs[j]? = some f → f ≠ [] ∧ throws j f = false) :
    ∃ x, beforeCall fd s throws i = some x ∧
      ((f ≠ [] ∧ throws i f = false) ∧ (x.1.update (throws i) x.2).result = .complete f ∨
        Full (x.1.update (throws i) x.2).recv ∧ (x.1.update (throws i) x.2).result ≠ .blocked) := by
  obtain ⟨hi, rfl⟩ := List.getElem?_eq_some_iff.1 hget
  obtain ⟨x, hx, hholds, hopen⟩ := beforeCall_frames fd ho hf i (Nat.le_of_lt hi) hgood
  rw [List.drop_eq_getElem_cons hi, List.flatMap_cons, List.append_assoc] at hopen
  refine ⟨x, hx, ?_⟩
  rcases frame_call hholds hopen (hf.lt _ (List.getElem_mem hi)) (throws i) with ⟨hgood', hres, -⟩ | ⟨-, hfull⟩
  · exact .inl ⟨hgood', hres⟩
  · exact .inr hfull

/-- Where no call begins with a full buffer, every frame is one that goes through. -/
theorem NeverFull.good {fs : List Bytes} {tail : Bytes} (h : NeverFull fd s throws) (ho : OnTheWay s s.bytes)
    (hf : Frames s.bytes fs tail) (i : Nat) :
    ∀ f, fs[i]? = some f → f ≠ [] ∧ throws i f = false := by
  induction i using Nat.strong_induction_on with
  | _ i ih =>
    intro f hget
    obtain ⟨x, hx, hcall⟩ := call_frame fd ho hf hget fun j g hj => ih j hj g
    rcases hcall with ⟨hgood, -⟩ | ⟨hfull, hres⟩
    · exact hgood
    · exact absurd hfull (h (i + 1) _ (beforeCall_next hx hres))

/-- Behind the last frame there is never a full buffer. -/
theorem beforeCall_left {fs : List Bytes} {tail : Bytes} (ho : OnTheWay s s.bytes) (hf : Frames s.bytes fs tail)
    (hgood : ∀ i f, fs[i]? = some f → f ≠ [] ∧ throws i f = false) {k : Nat} (hk : fs.length + 1 ≤ k) :
    ∀ x, beforeCall fd s throws k = some x → ∃ acc, Leftover x acc := by
  induction k, hk using Nat.le_induction with
  | base =>
    intro x hx
    obtain ⟨y, hy, hholds, hopen⟩ := beforeCall_frames fd ho hf fs.length (Nat.le_refl _)
      fun j f _ => hgood j f
    rw [List.drop_length, List.flatMap_nil, List.nil_append] at hopen
    rw [beforeCall_succ, hy, Option.bind_some] at hx
    obtain ⟨-, rfl⟩ := callStep_eq_some hx
    cases update_frames hholds hopen (throws fs.length) with
    | usedUp _ hleft => exact ⟨_, hleft⟩
    | passes hsplit => rw [hf.short] at hsplit; cases hsplit
    | stuck hsplit => rw [hf.short] at hsplit; cases hsplit
  | succ k _ ih =>
    intro x hx
    rw [beforeCall_succ] at hx
    obtain ⟨y, hy, hstep⟩ := Option.bind_eq_some_iff.1 hx
    obtain ⟨-, rfl⟩ := callStep_eq_some hstep
    obtain ⟨acc, hleft⟩ := ih y hy
    exact hleft.update (throws k)

theorem neverFull_of_good {fs : List Bytes} {tail : Bytes} (ho : OnTheWay s s.bytes)
    (hf : Frames s.bytes fs tail) (hgood : ∀ i f, fs[i]? = some f → f ≠ [] ∧ throws i f = false) :
    NeverFull fd s throws := by
  intro k x hx
  rcases Nat.lt_or_ge fs.length k with hlt | hle
  · obtain ⟨acc, hleft⟩ := beforeCall_left ho hf hgood hlt x hx
    exact hleft.part
  · obtain ⟨y, hy, hholds, -⟩ := beforeCall_frames fd ho hf k hle fun j f _ => hgood j f
    rw [hx] at hy
    cases hy
    exact hholds.not_full

/-- Where no call begins with a full buffer, every frame is handed over in the call of its number. -/
theorem NeverFull.received {fs : List Bytes} {tail : Bytes} (h : NeverFull fd s throws) (ho : OnTheWay s s.bytes)
    (hf : Frames s.bytes fs tail) {i : Nat} {f : Bytes} (hget : fs[i]? = some f) :
    ∃ x, beforeCall fd s throws i = some x ∧ (x.1.update (throws i) x.2).result = .complete f := by
  obtain ⟨x, hx, hcall⟩ := call_frame fd ho hf hget fun j g _ => h.good ho hf j g
  rcases hcall with ⟨-, hres⟩ | ⟨hfull, hres⟩
  · exact ⟨x, hx, hres⟩
  · exact absurd hfull (h (i + 1) _ (beforeCall_next hx hres))

end

/-- **When a connection is dropped.** Whatever arrives in whatever pieces, the connection is dropped only when it
is over exactly when no call of `update` begins with a full buffer. Where no byte comes behind an end of the
stream, that is so exactly when no frame is empty and `process` throws on none. -/
theorem keptUp_iff (fd : Nat) (s : Socket) (throws : Nat → Bytes → Bool) (hm : false ∉ s.mallocs) :
    (KeptUp fd s throws ↔ NeverFull fd s throws) ∧
      (s.Orderly → (∃ fs tail, Frames s.bytes fs tail) ∧ ∀ fs tail, Frames s.bytes fs tail →
        (KeptUp fd s throws ↔ ∀ i f, fs[i]? = some f → f ≠ [] ∧ throws i f = false)) := by
  have hreal : ∀ k x, beforeCall fd s throws k = some x → (EndReported x (throws k) ↔ ¬ Full x.1) := by
    intro k x hx
    obtain ⟨taken, acc, h⟩ := received_run hx
    exact endReported_iff h.holds (throws k)
  have hnever : KeptUp fd s throws ↔ NeverFull fd s throws := by
    constructor
    · exact fun h k x hx => (hreal k x hx).1 (h.real k x hx)
    · refine fun h => ⟨fun k x hx => (hreal k x hx).2 (h k x hx), fun horder fs tail hf i f _ hget => ?_⟩
      obtain ⟨x, hx, hres⟩ := h.received ⟨horder, hm, rfl⟩ hf hget
      exact ⟨x, hx, by rw [hres]; rfl⟩
  refine ⟨hnever, fun horder => ⟨exists_frames s.bytes, fun fs tail hf => ?_⟩⟩
  have ho : OnTheWay s s.bytes := ⟨horder, hm, rfl⟩
  exact hnever.trans ⟨fun h i => h.good ho hf i, neverFull_of_good ho hf⟩

/-- Two frames in three pieces, and then the end of the stream. -/
theorem keptUp_iff_two :
    KeptUp 5 { arrivals := [.data 0 [0, 0], .data 2 [7, 8, 0, 0, 0], .data 1 [9], .eof] } fun _ _ => false := by
  refine (((keptUp_iff 5 _ _ (by decide)).2 ?_).2 [[7, 8], [9]] [] ⟨by decide, by decide, by decide⟩).2 ?_
  · exact ⟨[.data 0 [0, 0], .data 2 [7, 8, 0, 0, 0], .data 1 [9]], [.eof], by decide, by decide, by decide⟩
  · intro i f hget
    have hmem : f ∈ [[7, 8], [9]] := List.mem_of_getElem? hget
    refine ⟨?_, rfl⟩
    rintro rfl
    exact absurd hmem (by decide)

def emptyFirst : Socket := { arrivals := [.data 0 [0, 0, 0], .data 0 [0, 0, 1, 9]] }

/-- The connection with `emptyFirst` is dropped with the second frame unread. -/
theorem emptyFirst_dropped :
    Frames emptyFirst.bytes [[], [9]] [] ∧ emptyFirst.ends = 0 ∧ ¬ KeptUp 5 emptyFirst (fun _ _ => false) ∧
      ∃ x, beforeCall 5 emptyFirst (fun _ _ => false) 1 = some x ∧
        (x.1.update (fun _ => false) x.2).result = .returned false ∧
        (x.1.update (fun _ => false) x.2).sock.bytes = frame [9] ∧
        ∀ tail now, 5 ∈ ((MyServer.new 3 ∅ 0).acceptClient 5).clients ∧
          5 ∉ (((MyServer.new 3 ∅ 0).acceptClient 5).readable 5 tail now
            (x.1.update (fun _ => false) x.2).result).clients := by
  have hx : beforeCall 5 emptyFirst (fun _ _ => false) 1 = some ({ fd := 5, recvdata := some [] },
      { arrivals := [.data 0 [0, 0, 1, 9]], requests := [⟨.recvsize, 0, 4⟩, ⟨.recvdata, 0, 0⟩] }) := by decide
  have hbooks : MyServer.Bookkeeping ((MyServer.new 3 ∅ 0).acceptClient 5) :=
    (MyServer.bookkeeping_new 3 ∅ 0).acceptClient (by decide +kernel)
  have hmem : 5 ∈ ((MyServer.new 3 ∅ 0).acceptClient 5).clients := ExtTreeMap.mem_insert_self
  refine ⟨⟨by decide, by decide, by decide⟩, by decide, fun h => ?_, _, hx, by decide, by decide, ?_⟩
  · exact absurd (h.real 1 _ hx (by decide)) (by decide)
  · exact fun tail now => ⟨hmem, fun hin => (MyServer.mem_readable_clients hbooks hmem tail now _).1 hin (by decide)⟩

end DiamondApparatus
