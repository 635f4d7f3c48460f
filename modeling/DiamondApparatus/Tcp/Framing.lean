import DiamondApparatus.Tcp.Phases

/-!
# Framing is exact and independent of fragmentation

* `splitFrame m` : the first block of the byte stream `m` and the bytes behind it;
* `CallSpec` : a call hands over the first block of the consumed bytes and those still to come, or uses up
  what there is. `update_spec` reads it off `Outcome`, what a call can do at all;
* `framing_exact` : the statement about all calls.
-/

namespace DiamondApparatus
open Lib TCPReceiver

/-! ## The first block of a stream -/

def splitFrame (m : Bytes) : Option (Bytes × Bytes) :=
  match takeU32 m with
  | none => none
  | some (n, q) => if q.length < n.toNat then none else some (q.take n.toNat, q.drop n.toNat)

theorem splitFrame_short {m : Bytes} (h : m.length < 4) : splitFrame m = none := by
  rw [splitFrame, takeU32_eq_none.mpr h]

theorem splitFrame_be32 (n : UInt32) (q : Bytes) :
    splitFrame (be32 n ++ q) =
      if q.length < n.toNat then none else some (q.take n.toNat, q.drop n.toNat) := by
  rw [splitFrame, takeU32_be32]

theorem splitFrame_frame {p : Bytes} (h : p.length < 2 ^ 32) (q : Bytes) :
    splitFrame (frame p ++ q) = some (p, q) := by
  have hto : (UInt32.ofNat p.length).toNat = p.length := by
    rw [UInt32.toNat_ofNat', Nat.mod_eq_of_lt h]
  rw [frame, List.append_assoc, splitFrame_be32, hto, if_neg (by rw [List.length_append]; omega),
    List.take_left, List.drop_left]

theorem Holds.splitFrame_none {r : TCPReceiver} {acc : Bytes} (h : Holds r acc) (hpart : ¬ Full r) :
    splitFrame acc = none := by
  cases hdata : r.recvdata with
  | none => exact splitFrame_short (h.lt_of_none hdata).1
  | some buf =>
    have hlt := h.lt_of_not_full hdata hpart
    obtain ⟨part, rfl, -, -, hct, -⟩ := h.part_of_some hdata
    rw [splitFrame_be32, if_pos (hct ▸ hlt)]

theorem Holds.splitFrame_full {r : TCPReceiver} {acc : Bytes} (h : Holds r acc) (hfull : Full r) :
    ∃ p, p.length = r.recvsize.toNat ∧ ∀ q, splitFrame (acc ++ q) = some (p, q) := by
  obtain ⟨buf, hsome⟩ := Option.isSome_iff_exists.1 hfull.1
  obtain ⟨part, rfl, -, -, hct, -⟩ := h.part_of_some hsome
  rw [hfull.2] at hct
  refine ⟨part, hct.symm, fun q => ?_⟩
  rw [List.append_assoc, splitFrame_be32, hct, if_neg (by rw [List.length_append]; omega),
    List.take_left, List.drop_left]

/-! ## One call -/

/-- Nothing was handed over, and the receiver holds `acc`. -/
def Stopped (acc : Bytes) (as : List Arrival) (c : Call) : Prop :=
  Holds c.recv acc ∧ c.sock.arrivals = as.tail ∧ c.sock.mallocs = [] ∧ c.result.packet = none

/-- How a call ends that finds the bytes `m` in the receiver and on the way, and then `ends`. -/
inductive CallSpec (m : Bytes) (ends : List Arrival) : Call → Prop
  | complete {p rest : Bytes} {chunks : List Arrival} {c : Call} (hsplit : splitFrame m = some (p, rest))
      (hr : Holds c.recv []) (hchunks : ∀ a ∈ chunks, a.bytes ≠ [])
      (hrest : chunks.flatMap Arrival.bytes = rest) (harr : c.sock.arrivals = chunks ++ ends)
      (hmal : c.sock.mallocs = []) (hres : c.result = .complete p) : CallSpec m ends c
  | stopped {c : Call} (hsplit : splitFrame m = none) (hc : Stopped m ends c) : CallSpec m ends c

theorem putBack_append (rest : Bytes) (as bs : List Arrival) :
    putBack rest (as ++ bs) = putBack rest as ++ bs := by
  cases rest <;> rfl

theorem putBack_data {rest : Bytes} {as : List Arrival} (h : ∀ a ∈ as, a.bytes ≠ []) :
    ∀ a ∈ putBack rest as, a.bytes ≠ [] := by
  intro a ha
  cases rest with
  | nil => exact h a ha
  | cons b bs =>
    rcases List.mem_cons.mp ha with rfl | ha
    · simp [Arrival.bytes]
    · exact h a ha

/-- What was taken off `chunks` and `ends` was taken off `chunks`. -/
theorem Consumed.split {ends : List Arrival} (hends : ∀ a ∈ ends, a.bytes = []) {as as' : List Arrival}
    {got : Bytes} (h : Consumed as got as') : ∀ {chunks : List Arrival}, as = chunks ++ ends →
      (∀ a ∈ chunks, a.bytes ≠ []) → ∃ rest, as' = rest ++ ends ∧ (∀ a ∈ rest, a.bytes ≠ []) ∧
        chunks.flatMap Arrival.bytes = got ++ rest.flatMap Arrival.bytes := by
  induction h with
  | refl =>
    intro chunks has hdata
    exact ⟨chunks, has, hdata, rfl⟩
  | @step b bs got rest more as as' hsplit hne _ ih =>
    intro chunks has hdata
    cases chunks with
    | nil => exact absurd (hends (.data b bs) (by rw [← List.nil_append ends, ← has]; simp)) (by simp [Arrival.bytes])
    | cons x chunks =>
      obtain ⟨rfl, rfl⟩ := List.cons.inj has
      obtain ⟨left, hleft, hdata', hbytes⟩ := ih (putBack_append rest chunks ends)
        (putBack_data fun a ha => hdata a (List.mem_cons_of_mem _ ha))
      refine ⟨left, hleft, hdata', ?_⟩
      rw [bytes_putBack] at hbytes
      rw [List.flatMap_cons, Arrival.bytes, hsplit, List.append_assoc, hbytes, List.append_assoc]

/-- An end was met when all of `chunks` had been taken. -/
theorem Consumed.split_end {ends : List Arrival} (hends : ∀ a ∈ ends, a.bytes = []) {as as' : List Arrival}
    {a : Arrival} {got : Bytes} (h : Consumed as got (a :: as')) (ha : a.bytes = []) {chunks : List Arrival}
    (has : as = chunks ++ ends) (hdata : ∀ a ∈ chunks, a.bytes ≠ []) :
    ends = a :: as' ∧ chunks.flatMap Arrival.bytes = got := by
  obtain ⟨rest, hrest, hdata', hbytes⟩ := h.split hends has hdata
  cases rest with
  | nil => exact ⟨hrest.symm, hbytes.trans (List.append_nil got)⟩
  | cons x rest =>
    obtain ⟨rfl, -⟩ := List.cons.inj hrest
    exact absurd ha (hdata' _ List.mem_cons_self)

/-- In the middle of a block: the receiver holds `acc`, on the way are `chunks` and then `ends`, and
the block is not an empty one. -/
structure Midway (ends : List Arrival) (r : TCPReceiver) (s : Socket) (acc : Bytes)
    (chunks : List Arrival) : Prop where
  holds : Holds r acc
  short : splitFrame acc = none
  data : ∀ a ∈ chunks, a.bytes ≠ []
  arrivals : s.arrivals = chunks ++ ends
  mallocs : s.mallocs = []
  nonempty : ∀ q, splitFrame (acc ++ chunks.flatMap Arrival.bytes) ≠ some ([], q)

/-- **One call of `update`**: it hands over the first block of what the receiver holds and what is on
the way, or, when that is not a whole block, uses it up. -/
theorem update_spec {ends : List Arrival} (hends : ∀ a ∈ ends, a.bytes = []) {r : TCPReceiver}
    {s : Socket} {acc : Bytes} {chunks : List Arrival} (h : Midway ends r s acc chunks) :
    CallSpec (acc ++ chunks.flatMap Arrival.bytes) ends (r.update (fun _ => false) s) := by
  have hmal : ∀ {s' : Socket}, s'.mallocs <:+ s.mallocs → s'.mallocs = [] := by
    intro s' hsuf
    rw [h.mallocs] at hsuf
    exact List.suffix_nil.1 hsuf
  have hok : false ∉ s.mallocs := by
    rw [h.mallocs]
    exact List.not_mem_nil
  have hout := update_outcome (fun _ => false) h.holds s
  generalize r.update (fun _ => false) s = c at hout ⊢
  cases hout with
  | @complete got p hread hkept hlt hne hthrow hr hres =>
    obtain ⟨rest, harr, hdata, hbytes⟩ := hread.split hends h.arrivals h.data
    refine .complete (p := p) ?_ hr hdata rfl harr (hmal hkept.mallocs) hres
    rw [hbytes, ← List.append_assoc, ← hkept.all hok]
    exact splitFrame_frame hlt _
  | thrown _ _ _ _ hthrow => cases hthrow
  | blocked hread hend hkept hpart hr hres =>
    obtain ⟨rest, harr, -, hbytes⟩ := hread.split hends h.arrivals h.data
    obtain ⟨rfl, rfl⟩ := List.append_eq_nil_iff.1 harr.symm
    rw [hbytes, List.flatMap_nil, List.append_nil, ← hkept.all hok]
    exact .stopped (hr.splitFrame_none hpart) ⟨hr, hend, hmal hkept.mallocs, by rw [hres]; rfl⟩
  | ended hread ha hkept hpart hr hres =>
    obtain ⟨harr, hbytes⟩ := hread.split_end hends ha h.arrivals h.data
    rw [hbytes, ← hkept.all hok]
    exact .stopped (hr.splitFrame_none hpart) ⟨hr, by rw [harr]; rfl, hmal hkept.mallocs, by rw [hres]; rfl⟩
  | full hread hkept hfull hr hwhy hres =>
    rcases hwhy with ⟨hstart, -⟩ | ⟨-, -, hzero⟩
    · obtain ⟨p, -, hsplit⟩ := h.holds.splitFrame_full hstart
      have hsome := hsplit []
      rw [List.append_nil, h.short] at hsome
      cases hsome
    · obtain ⟨p, hlen, hsplit⟩ := hr.splitFrame_full hfull
      obtain ⟨rest, -, -, hbytes⟩ := hread.split hends h.arrivals h.data
      rw [hzero] at hlen
      obtain rfl : p = [] := List.eq_nil_of_length_eq_zero hlen
      refine absurd ?_ (h.nonempty (rest.flatMap Arrival.bytes))
      rw [hbytes, ← List.append_assoc, ← hkept.all hok]
      exact hsplit _

/-! ## All calls -/

/-- A block `basesend` can send: some bytes, whose number fits the length field. -/
structure Payload where
  bytes : Bytes
  ne : bytes ≠ []
  lt : bytes.length < 2 ^ 32

/-- The payloads of `ps` whose frames lie wholly in the first `m` bytes of the stream. -/
def wholly : List Payload → Nat → List Payload
  | [], _ => []
  | p :: ps, m =>
    if (frame p.bytes).length ≤ m then p :: wholly ps (m - (frame p.bytes).length) else []

def stream (ps : List Payload) : Bytes := ps.flatMap fun p => frame p.bytes

theorem splitFrame_stream (p : Payload) (ps : List Payload) (m : Nat) :
    splitFrame ((stream (p :: ps)).take m) =
      if (frame p.bytes).length ≤ m then
        some (p.bytes, (stream ps).take (m - (frame p.bytes).length)) else none := by
  have hto : (UInt32.ofNat p.bytes.length).toNat = p.bytes.length := by
    rw [UInt32.toNat_ofNat', Nat.mod_eq_of_lt p.lt]
  have hlen : (frame p.bytes).length = 4 + p.bytes.length := by
    rw [frame, List.length_append, length_be32]
  have hstream : stream (p :: ps) = be32 (UInt32.ofNat p.bytes.length) ++ (p.bytes ++ stream ps) := by
    rw [stream, List.flatMap_cons, frame, List.append_assoc]; rfl
  by_cases hm : m < 4
  · rw [splitFrame_short (by rw [List.length_take]; omega), if_neg (by omega)]
  · obtain ⟨k, rfl⟩ := Nat.exists_eq_add_of_le (Nat.le_of_not_lt hm)
    have htake : (be32 (UInt32.ofNat p.bytes.length) ++ (p.bytes ++ stream ps)).take (4 + k) =
        be32 (UInt32.ofNat p.bytes.length) ++ (p.bytes ++ stream ps).take k := by
      rw [show 4 + k = (be32 (UInt32.ofNat p.bytes.length)).length + k from rfl,
        List.take_length_add_append]
    rw [hstream, htake, splitFrame_be32, hto, hlen]
    by_cases hk : p.bytes.length ≤ k
    · obtain ⟨j, rfl⟩ := Nat.exists_eq_add_of_le hk
      rw [List.take_length_add_append, if_neg (by rw [List.length_append]; omega), if_pos (by omega),
        List.take_left, List.drop_left, show 4 + (p.bytes.length + j) - (4 + p.bytes.length) = j by omega]
    · rw [if_pos (by rw [List.length_take]; omega), if_neg (by omega)]

theorem mem_calls_succ {r : TCPReceiver} {s : Socket} {k : Nat} {e : CallEnd}
    (h : e ∈ calls (fun _ => false) (k + 1) r s) :
    e = (r.update (fun _ => false) s).result ∨
      e ∈ calls (fun _ => false) k (r.update (fun _ => false) s).recv
        (r.update (fun _ => false) s).sock := by
  simp only [calls] at h
  split at h
  · next hb => exact .inl ((List.mem_singleton.mp h).trans hb.symm)
  · exact List.mem_cons.mp h

theorem calls_ended (k : Nat) : ∀ {ends : List Arrival} {r : TCPReceiver} {s : Socket} {acc : Bytes},
    (∀ a ∈ ends, a.bytes = []) → Holds r acc → splitFrame acc = none → s.arrivals = ends →
    s.mallocs = [] → ∀ e ∈ calls (fun _ => false) k r s, e.packet = none := by
  induction k with
  | zero => intro ends r s acc _ _ _ _ _ e he; cases he
  | succ k ih =>
    intro ends r s acc hends hr hacc harr hm e he
    have hnone : ∀ q, splitFrame (acc ++ ([] : List Arrival).flatMap Arrival.bytes) ≠ some ([], q) := by
      intro q
      rw [List.flatMap_nil, List.append_nil, hacc]
      exact nofun
    have hspec := update_spec hends ⟨hr, hacc, fun _ ha => absurd ha List.not_mem_nil, harr, hm, hnone⟩
    rw [List.flatMap_nil, List.append_nil] at hspec
    cases hspec with
    | complete hsplit => rw [hacc] at hsplit; cases hsplit
    | stopped _ hc =>
      obtain ⟨hr', harr', hm', hres⟩ := hc
      rcases mem_calls_succ he with rfl | he
      · exact hres
      · exact ih (fun a ha => hends a (List.mem_of_mem_tail ha)) hr' hacc harr' hm' e he

theorem calls_stream {ends : List Arrival} (hends : ∀ a ∈ ends, a.bytes = []) (ps : List Payload) :
    ∀ (m k : Nat) {r : TCPReceiver} {s : Socket} {chunks : List Arrival}, Holds r [] →
      (∀ a ∈ chunks, a.bytes ≠ []) → chunks.flatMap Arrival.bytes = (stream ps).take m →
      s.arrivals = chunks ++ ends → s.mallocs = [] →
      (calls (fun _ => false) k r s).take (wholly ps m).length =
          ((wholly ps m).map fun p => CallEnd.complete p.bytes).take k ∧
        ∀ e ∈ (calls (fun _ => false) k r s).drop (wholly ps m).length, e.packet = none := by
  induction ps with
  | nil =>
    intro m k r s chunks hr hchunks hbytes harr hm
    have hnil : chunks = [] := by
      cases chunks with
      | nil => rfl
      | cons a chunks =>
        have hnone : a.bytes = [] ∧ ∀ x ∈ chunks, x.bytes = [] := by simpa [stream] using hbytes
        exact absurd hnone.1 (hchunks a List.mem_cons_self)
    subst hnil
    refine ⟨by simp [wholly], fun e he => ?_⟩
    exact calls_ended k hends hr (splitFrame_short (by decide)) harr hm e (by simpa [wholly] using he)
  | cons p ps ih =>
    intro m k r s chunks hr hchunks hbytes harr hm
    cases k with
    | zero => simp [calls]
    | succ k =>
      have hsplit := splitFrame_stream p ps m
      have hne : ∀ q, splitFrame ([] ++ chunks.flatMap Arrival.bytes) ≠ some ([], q) := by
        intro q
        rw [List.nil_append, hbytes, hsplit]
        split
        · intro h
          injection h with h
          exact p.ne (congrArg Prod.fst h)
        · exact nofun
      have hspec := update_spec hends ⟨hr, splitFrame_short (by decide), hchunks, harr, hm, hne⟩
      rw [List.nil_append, hbytes] at hspec
      cases hspec with
      | complete hsplit' hr' hchunks' hrest' harr' hm' hres =>
        rw [hsplit] at hsplit'
        split at hsplit'
        · next hfit =>
          obtain ⟨rfl, rfl⟩ : p.bytes = _ ∧ (stream ps).take (m - (frame p.bytes).length) = _ := by
            simpa using hsplit'
          obtain ⟨htake, hdrop⟩ := ih (m - (frame p.bytes).length) k hr' hchunks' hrest' harr' hm'
          have hcalls : calls (fun _ => false) (k + 1) r s = .complete p.bytes ::
              calls (fun _ => false) k (r.update (fun _ => false) s).recv
                (r.update (fun _ => false) s).sock := by
            simp only [calls, hres]
            rw [if_neg nofun]
          rw [hcalls, wholly, if_pos hfit]
          refine ⟨?_, hdrop⟩
          rw [List.length_cons, List.take_succ_cons, List.map_cons, List.take_succ_cons, htake]
        · cases hsplit'
      | stopped hsplit' hc =>
        obtain ⟨hr', harr', hm', hres⟩ := hc
        have hfit : ¬ (frame p.bytes).length ≤ m := by
          intro hfit
          rw [hsplit, if_pos hfit] at hsplit'
          cases hsplit'
        rw [wholly, if_neg hfit]
        refine ⟨by simp, fun e he => ?_⟩
        rcases mem_calls_succ (by simpa using he) with rfl | he
        · exact hres
        · exact calls_ended k (fun a ha => hends a (List.mem_of_mem_tail ha)) hr' hsplit' harr' hm' e he

/-- **Framing is exact and independent of fragmentation.** The payloads `ps` are sent with complete
`write` calls; the first `m` bytes of that stream arrive in the pieces `chunks`, which the `read`
calls may split further, and behind them the ends of stream `ends`. Then the first calls hand over
exactly the payloads whose frames arrived whole, one per call, and no later call hands over anything. -/
theorem framing_exact (ps : List Payload) (w : Payload → Writes)
    (hw : ∀ p ∈ ps, w p 0 = .all ∧ w p 1 = .all) (errno m k : Nat) (chunks ends : List Arrival)
    (hchunks : ∀ a ∈ chunks, a.bytes ≠ []) (hends : ∀ a ∈ ends, a.bytes = [])
    (hbytes : chunks.flatMap Arrival.bytes =
      (ps.flatMap fun p => (basesend (w p) errno p.bytes).1).take m) :
    let done := calls (fun _ => false) k {} { arrivals := chunks ++ ends }
    done.take (wholly ps m).length =
        ((wholly ps m).map fun p => CallEnd.complete p.bytes).take k ∧
      ∀ e ∈ done.drop (wholly ps m).length, e.packet = none := by
  have hstream : (ps.flatMap fun p => (basesend (w p) errno p.bytes).1) = stream ps := by
    unfold stream
    refine List.flatMap_congr fun p hp => ?_
    rw [basesend_complete (hw p hp).1 (hw p hp).2 errno p.ne]
  exact calls_stream hends ps m k holds_new hchunks (hbytes.trans (by rw [hstream])) rfl rfl

/-- Two payloads cut inside a length field and inside a payload, and then the end of the stream. -/
theorem framing_exact_two :
    (calls (fun _ => false) 3 {} { arrivals := [.data 0 [0], .data 0 [2, 7], .data 8 [0, 0, 0, 1],
      .data 9 []] ++ [.eof] }).take 2 = [.complete [7, 8], .complete [9]] :=
  (framing_exact [⟨[7, 8], by decide, by decide⟩, ⟨[9], by decide, by decide⟩] (fun _ _ => .all)
    (fun _ _ => ⟨rfl, rfl⟩) 0 100 3 [.data 0 [0], .data 0 [2, 7], .data 8 [0, 0, 0, 1], .data 9 []]
    [.eof] (by decide) (by decide) (by decide)).1

end DiamondApparatus
