import DiamondApparatus.Tcp.Send
import DiamondApparatus.Tcp.Receiver

/-!
# What a call of the receiver can do

* `Holds r acc` : the receiver `r` has consumed the bytes `acc` since its last reset. One counter
  and one pointer stand for both phases: in the first one `acc` lies in the memory of `recvsize`, in
  the second one its length field is `recvsize` and the bytes behind it start `recvdata`;
* `Consumed as got as'` : the `read` calls took the bytes `got` off the arrivals `as`; `ReadSpec` : one call;
* `Phase1`, `Phase2` : how the two halves of the loop body end (`phase1_spec`, `phase2_spec`);
* `Outcome` : how a call of `update` ends; `update_outcome` is proved by induction on the turns.
-/

namespace DiamondApparatus
open Lib TCPReceiver

/-! ## Words in memory -/

theorem le32_pokeWord (w : UInt32) (off : Nat) (bs : Bytes) :
    le32 (pokeWord w off bs) = overlay (le32 w) off bs := by
  rw [pokeWord, le32_ofLe32 _ (by simp)]

theorem ntohl_eq {w n : UInt32} (h : le32 w = be32 n) : ntohl w = n := by
  unfold ntohl
  rw [h]
  exact ofBe32_be32 n

theorem be32_ntohl (w : UInt32) : be32 (ntohl w) = le32 w := by
  obtain ⟨n, q, hn⟩ := exists_be32_append (Nat.le_of_eq (length_le32 w).symm)
  have hlen := congrArg List.length hn
  rw [length_le32, List.length_append, length_be32] at hlen
  obtain rfl : q = [] := List.eq_nil_of_length_eq_zero (by omega)
  rw [List.append_nil] at hn
  rw [hn, ntohl_eq hn]

theorem toNat_add_ofNat {a : UInt32} {n m : Nat} (ha : a.toNat = n) (h : n + m < 2 ^ 32) :
    (a + UInt32.ofNat m).toNat = n + m := by
  rw [UInt32.toNat_add, UInt32.toNat_ofNat', ha]
  omega

/-! ## The receiver and the bytes it has consumed -/

inductive Holds : TCPReceiver → Bytes → Prop
  | size {r : TCPReceiver} {acc : Bytes} (hforce : r.isForceExit = false)
      (hdata : r.recvdata = none) (hlt : acc.length < 4) (hct : r.recvct.toNat = acc.length)
      (hmem : (le32 r.recvsize).take acc.length = acc) : Holds r acc
  | data {r : TCPReceiver} {buf part : Bytes} (hforce : r.isForceExit = false)
      (hdata : r.recvdata = some buf) (hbuf : buf.length = r.recvsize.toNat)
      (hle : part.length ≤ buf.length) (hct : r.recvct.toNat = part.length)
      (hmem : buf.take part.length = part) : Holds r (be32 r.recvsize ++ part)

theorem holds_fresh (fd : Nat) : Holds { fd := fd } [] := .size rfl rfl (by decide) rfl rfl

theorem holds_new : Holds {} [] := holds_fresh 0

theorem Holds.force {r : TCPReceiver} {acc : Bytes} (h : Holds r acc) : r.isForceExit = false := by
  cases h <;> assumption

theorem Holds.reset {r : TCPReceiver} {acc : Bytes} (h : Holds r acc) : Holds r.reset [] :=
  .size h.force rfl (by decide) rfl rfl

theorem Holds.close {r : TCPReceiver} {acc : Bytes} (h : Holds r acc) (b : Bool) :
    Holds { r with portClosed := b } acc := by
  cases h with
  | size hforce hdata hlt hct hmem => exact .size hforce hdata hlt hct hmem
  | data hforce hdata hbuf hle hct hmem =>
    exact Holds.data (r := { r with portClosed := b }) hforce hdata hbuf hle hct hmem

/-- The receiver is in its first phase as long as it holds less than a length field. -/
theorem Holds.lt_of_none {r : TCPReceiver} {acc : Bytes} (h : Holds r acc)
    (hnone : r.recvdata = none) :
    acc.length < 4 ∧ r.recvct.toNat = acc.length ∧ (le32 r.recvsize).take acc.length = acc := by
  cases h with
  | size _ _ hlt hct hmem => exact ⟨hlt, hct, hmem⟩
  | data _ hdata _ _ _ _ => rw [hnone] at hdata; cases hdata

theorem Holds.part_of_some {r : TCPReceiver} {acc buf : Bytes} (h : Holds r acc)
    (hsome : r.recvdata = some buf) :
    ∃ part, acc = be32 r.recvsize ++ part ∧ buf.length = r.recvsize.toNat ∧
      part.length ≤ buf.length ∧ r.recvct.toNat = part.length ∧ buf.take part.length = part := by
  cases h with
  | size _ hdata _ _ _ => rw [hsome] at hdata; cases hdata
  | data _ hdata hbuf hle hct hmem =>
    rw [hsome] at hdata
    cases hdata
    exact ⟨_, rfl, hbuf, hle, hct, hmem⟩

/-- The buffer for the block is there, and full. -/
def Full (r : TCPReceiver) : Prop := r.recvdata.isSome ∧ r.recvct = r.recvsize

instance (r : TCPReceiver) : Decidable (Full r) := by unfold Full; infer_instance

theorem Holds.lt_of_not_full {r : TCPReceiver} {acc buf : Bytes} (h : Holds r acc)
    (hsome : r.recvdata = some buf) (hfull : ¬ Full r) : r.recvct.toNat < r.recvsize.toNat := by
  obtain ⟨part, -, hbuf, hle, hct, -⟩ := h.part_of_some hsome
  have hne : r.recvct.toNat ≠ r.recvsize.toNat :=
    fun he => hfull ⟨by rw [hsome]; rfl, UInt32.toNat_inj.mp he⟩
  omega

theorem Holds.poke {r : TCPReceiver} {acc got : Bytes} (h : Holds r acc) (hnone : r.recvdata = none)
    (hlen : (acc ++ got).length ≤ 4) :
    (r.recvct + UInt32.ofNat got.length).toNat = (acc ++ got).length ∧
      (le32 (pokeWord r.recvsize r.recvct.toNat got)).take (acc ++ got).length = acc ++ got := by
  obtain ⟨-, hct, hmem⟩ := h.lt_of_none hnone
  rw [List.length_append] at hlen ⊢
  refine ⟨toNat_add_ofNat hct (by omega), ?_⟩
  rw [le32_pokeWord, hct, take_overlay _ _ _ (by rw [length_le32]; exact hlen), hmem]

theorem Holds.alloc {r : TCPReceiver} {acc : Bytes} (h : Holds r acc) (n : UInt32) :
    Holds { r with recvsize := n, recvdata := some (List.replicate n.toNat 0), recvct := 0 } (be32 n) := by
  rw [← List.append_nil (be32 n)]
  exact Holds.data (r := { r with recvsize := n, recvdata := some (List.replicate n.toNat 0), recvct := 0 })
    h.force rfl List.length_replicate (Nat.zero_le _) rfl rfl

/-- The buffer takes more bytes, not more than it has room for. -/
theorem Holds.grow {r : TCPReceiver} {acc buf got : Bytes} (h : Holds r acc) (hsome : r.recvdata = some buf)
    (hle : got.length ≤ (r.recvsize - r.recvct).toNat) :
    Holds { r with recvdata := some (overlay buf r.recvct.toNat got),
                   recvct := r.recvct + UInt32.ofNat got.length } (acc ++ got) := by
  obtain ⟨part, rfl, hbuf, hpart, hct, hmem⟩ := h.part_of_some hsome
  have hsize := r.recvsize.toNat_lt
  rw [UInt32.toNat_sub_of_le _ _ (UInt32.le_iff_toNat_le.mpr (by omega)), hct] at hle
  have hct' : (r.recvct + UInt32.ofNat got.length).toNat = (part ++ got).length := by
    rw [List.length_append]
    exact toNat_add_ofNat hct (by omega)
  have hmem' : (overlay buf r.recvct.toNat got).take (part ++ got).length = part ++ got := by
    rw [List.length_append, hct, take_overlay _ _ _ (by omega), hmem]
  have hfits : (part ++ got).length ≤ (overlay buf r.recvct.toNat got).length := by
    rw [length_overlay, List.length_append]
    omega
  rw [List.append_assoc]
  exact Holds.data (r := { r with recvdata := some (overlay buf r.recvct.toNat got),
                                  recvct := r.recvct + UInt32.ofNat got.length })
    h.force rfl (by simpa using hbuf) hfits hct' hmem'

theorem Holds.block {r : TCPReceiver} {acc buf : Bytes} (h : Holds r acc) (hsome : r.recvdata = some buf)
    (hfull : r.recvct = r.recvsize) :
    acc = be32 (UInt32.ofNat buf.length) ++ buf ∧ buf.length < 2 ^ 32 := by
  obtain ⟨part, rfl, hbuf, -, hct, hmem⟩ := h.part_of_some hsome
  rw [hfull, ← hbuf] at hct
  rw [← hct, List.take_length] at hmem
  rw [hbuf, UInt32.ofNat_toNat, hmem]
  exact ⟨rfl, r.recvsize.toNat_lt⟩

/-! ## One `read` -/

/-- The bytes `got` were taken off the arrivals, a piece of one arrival at a time. -/
inductive Consumed : List Arrival → Bytes → List Arrival → Prop
  | refl (as : List Arrival) : Consumed as [] as
  | step {b : UInt8} {bs got rest more : Bytes} {as as' : List Arrival} (hsplit : b :: bs = got ++ rest)
      (hne : got ≠ []) (h : Consumed (putBack rest as) more as') :
      Consumed (.data b bs :: as) (got ++ more) as'

theorem Consumed.trans {as as' as'' : List Arrival} {got more : Bytes} (h : Consumed as got as')
    (h' : Consumed as' more as'') : Consumed as (got ++ more) as'' := by
  induction h with
  | refl => exact h'
  | step hsplit hne _ ih =>
    rw [List.append_assoc]
    exact .step hsplit hne (ih h')

theorem bytes_putBack (rest : Bytes) (as : List Arrival) :
    (putBack rest as).flatMap Arrival.bytes = rest ++ as.flatMap Arrival.bytes := by
  cases rest <;> simp [putBack, Arrival.bytes]

theorem Consumed.bytes {as as' : List Arrival} {got : Bytes} (h : Consumed as got as') :
    as.flatMap Arrival.bytes = got ++ as'.flatMap Arrival.bytes := by
  induction h with
  | refl => rfl
  | step hsplit _ _ ih =>
    rw [bytes_putBack] at ih
    rw [List.flatMap_cons, Arrival.bytes, hsplit, List.append_assoc, ih, List.append_assoc]

/-- What an end of the `read` calls bounds goes down with every byte. -/
theorem Consumed.pending {s s' : Socket} {got : Bytes} (h : Consumed s.arrivals got s'.arrivals)
    (hne : got ≠ []) : s'.pending < s.pending := by
  have hall : ∀ {as as' : List Arrival} {got : Bytes}, Consumed as got as' →
      (as'.map fun a => a.bytes.length + 1).sum + got.length ≤
        (as.map fun a => a.bytes.length + 1).sum := by
    intro as as' got h
    induction h with
    | refl => simp
    | step hsplit hne _ ih =>
      rename_i b bs got rest more as as' _
      have hlen := congrArg List.length hsplit
      have hput : ((putBack rest as).map fun a => a.bytes.length + 1).sum ≤
          rest.length + 1 + (as.map fun a => a.bytes.length + 1).sum := by
        cases rest <;> simp [putBack, Arrival.bytes]
      rw [List.length_append, List.length_cons] at hlen
      rw [List.map_cons, List.sum_cons, List.length_append, Arrival.bytes, List.length_cons]
      omega
  have := hall h
  have := List.length_pos_iff.mpr hne
  unfold Socket.pending
  omega

/-- How a `read` of at least one byte ends. -/
inductive ReadSpec (s : Socket) (q : Request) (s' : Socket) : Option ReadResult → Prop
  | blocked (hs : s.arrivals = []) (hs' : s'.arrivals = []) : ReadSpec s q s' none
  | ended {a : Arrival} (neg : Bool) (hs : s.arrivals = a :: s'.arrivals) (ha : a.bytes = []) :
      ReadSpec s q s' (some (.none neg))
  | got {got : Bytes} (hread : Consumed s.arrivals got s'.arrivals) (hne : got ≠ [])
      (hle : got.length ≤ q.count) : ReadSpec s q s' (some (.got got))

theorem read_spec (s : Socket) {q : Request} (hq : 0 < q.count) :
    ∃ s' res, s.read q = (s', res) ∧ s'.mallocs = s.mallocs ∧ ReadSpec s q s' res := by
  unfold Socket.read
  rw [if_neg (by omega)]
  match harr : s.arrivals with
  | [] => exact ⟨_, _, rfl, rfl, .blocked harr rfl⟩
  | .eof :: as => exact ⟨_, _, rfl, rfl, .ended false harr rfl⟩
  | .error :: as => exact ⟨_, _, rfl, rfl, .ended true harr rfl⟩
  | .data b bs :: as =>
    have hmin : 0 < min q.count MAX_RW_COUNT := lt_min hq (by decide)
    have hne : (b :: bs).take (min q.count MAX_RW_COUNT) ≠ [] := by
      obtain ⟨n, hn⟩ := Nat.exists_eq_succ_of_ne_zero hmin.ne'
      rw [hn]
      simp
    refine ⟨_, _, rfl, rfl, .got ?_ hne ?_⟩
    · rw [harr, ← List.append_nil (List.take _ _)]
      exact .step (List.take_append_drop _ _).symm hne (.refl _)
    · rw [List.length_take]
      omega

/-! ## The two phases -/

/-- How the first phase ends, with `acc` in the receiver before it. When `malloc` fails behind the
length field, the bytes held so far are lost. -/
inductive Phase1 (r : TCPReceiver) (s : Socket) (rv : Bool) (acc : Bytes) : Flow → Prop
  | skip {buf : Bytes} (hsome : r.recvdata = some buf) : Phase1 r s rv acc (.next r s rv)
  | blocked {s' : Socket} (hnone : r.recvdata = none) (hs : s.arrivals = []) (hs' : s'.arrivals = [])
      (hm : s'.mallocs = s.mallocs) : Phase1 r s rv acc (.done ⟨r, s', .blocked⟩)
  | ended {s' : Socket} {a : Arrival} (b : Bool) (hnone : r.recvdata = none)
      (hs : s.arrivals = a :: s'.arrivals) (ha : a.bytes = []) (hm : s'.mallocs = s.mallocs) :
      Phase1 r s rv acc (.done ⟨{ r with portClosed := b }, s', .returned rv⟩)
  | grew {r' : TCPReceiver} {s' : Socket} {got : Bytes} (hread : Consumed s.arrivals got s'.arrivals)
      (hne : got ≠ []) (hm : s'.mallocs <:+ s.mallocs) (hlen : (acc ++ got).length ≤ 4)
      (hr : Holds r' (acc ++ got)) : Phase1 r s rv acc (.next r' s' true)
  | null {r' : TCPReceiver} {s' : Socket} {got : Bytes} (hread : Consumed s.arrivals got s'.arrivals)
      (hne : got ≠ []) (hfail : false ∈ s.mallocs) (hm : s'.mallocs <:+ s.mallocs)
      (hnone : r'.recvdata = none) (hr : Holds r' []) : Phase1 r s rv acc (.next r' s' true)

theorem malloc_cases (s : Socket) (n : Nat) :
    ∃ s' buf, s.malloc n = (s', buf) ∧ s'.arrivals = s.arrivals ∧ s'.mallocs <:+ s.mallocs ∧
      (buf = some (List.replicate n 0) ∨ buf = none ∧ false ∈ s.mallocs) := by
  unfold Socket.malloc
  match hms : s.mallocs with
  | [] => exact ⟨_, _, rfl, rfl, hms ▸ List.suffix_refl _, Or.inl rfl⟩
  | true :: ms => exact ⟨_, _, rfl, rfl, List.suffix_cons _ _, Or.inl rfl⟩
  | false :: ms => exact ⟨_, _, rfl, rfl, List.suffix_cons _ _, Or.inr ⟨rfl, List.mem_cons_self⟩⟩

theorem phase1_spec {r : TCPReceiver} {acc : Bytes} (h : Holds r acc) (s : Socket) (rv : Bool) :
    Phase1 r s rv acc (r.phase1 s rv) := by
  cases hdata : r.recvdata with
  | some buf =>
    unfold phase1
    rw [hdata]
    exact .skip hdata
  | none =>
    obtain ⟨hlt, hct, -⟩ := h.lt_of_none hdata
    obtain ⟨s', res, hread, hm, hspec⟩ := read_spec s
      (q := ⟨.recvsize, r.recvct.toNat, (2 ^ 64 + 4 - r.recvct.toNat) % 2 ^ 64⟩)
      (by rw [hct]; simp only; omega)
    unfold phase1
    simp only [hdata, Option.isSome_none, Bool.false_eq_true, if_false, hread]
    cases hspec with
    | blocked hs hs' => exact .blocked hdata hs hs' hm
    | ended neg hs ha => exact hdata ▸ .ended _ hdata hs ha hm
    | @got got hcons hne hle =>
      have hlen : (acc ++ got).length ≤ 4 := by
        rw [hct] at hle
        simp only at hle
        rw [List.length_append]
        omega
      obtain ⟨hct', hmem'⟩ := h.poke hdata hlen
      by_cases hfull : r.recvct + UInt32.ofNat got.length = 4
      · simp only [if_pos hfull]
        have hfour : (acc ++ got).length = 4 := by
          rw [← hct', hfull]
          rfl
        -- the four bytes of the length field are those of `recvsize` after `ntohl`
        have hword : be32 (ntohl (pokeWord r.recvsize r.recvct.toNat got)) = acc ++ got := by
          rw [be32_ntohl, ← hmem', List.take_of_length_le (by rw [length_le32, hfour])]
        obtain ⟨s'', buf, hmal, harr, hsuf, hbuf⟩ :=
          malloc_cases s' (ntohl (pokeWord r.recvsize r.recvct.toNat got)).toNat
        rw [hmal]
        rw [← harr] at hcons
        rw [hm] at hsuf hbuf
        rcases hbuf with rfl | ⟨rfl, hfail⟩
        · exact .grew hcons hne hsuf hlen (hword ▸ h.alloc _)
        · exact .null hcons hne hfail hsuf rfl (.size h.force rfl (by decide) rfl rfl)
      · simp only [if_neg hfull]
        have hthree : (acc ++ got).length < 4 := by
          have hne4 : (acc ++ got).length ≠ 4 :=
            fun he => hfull (UInt32.toNat_inj.mp (hct'.trans he))
          omega
        exact .grew hcons hne (hm ▸ List.suffix_refl _) hlen (.size h.force rfl hthree hct' hmem')

inductive Phase2 (throws : Bytes → Bool) (r : TCPReceiver) (s : Socket) (rv : Bool) (acc : Bytes) :
    Flow → Prop
  | skip (hnone : r.recvdata = none) : Phase2 throws r s rv acc (.next r s rv)
  | full {s' : Socket} (b : Bool) (hfull : Full r) (hs : s'.arrivals = s.arrivals)
      (hm : s'.mallocs = s.mallocs) :
      Phase2 throws r s rv acc (.done ⟨{ r with portClosed := b }, s', .returned rv⟩)
  | blocked {s' : Socket} (hpart : ¬ Full r) (hs : s.arrivals = []) (hs' : s'.arrivals = [])
      (hm : s'.mallocs = s.mallocs) : Phase2 throws r s rv acc (.done ⟨r, s', .blocked⟩)
  | ended {s' : Socket} {a : Arrival} (b : Bool) (hpart : ¬ Full r) (hs : s.arrivals = a :: s'.arrivals)
      (ha : a.bytes = []) (hm : s'.mallocs = s.mallocs) :
      Phase2 throws r s rv acc (.done ⟨{ r with portClosed := b }, s', .returned rv⟩)
  | grew {r' : TCPReceiver} {s' : Socket} {got : Bytes} (hread : Consumed s.arrivals got s'.arrivals)
      (hne : got ≠ []) (hm : s'.mallocs = s.mallocs) (hpart : ¬ Full r')
      (hr : Holds r' (acc ++ got)) : Phase2 throws r s rv acc (.next r' s' true)
  | complete {r' : TCPReceiver} {s' : Socket} {got p : Bytes}
      (hread : Consumed s.arrivals got s'.arrivals) (hm : s'.mallocs = s.mallocs)
      (hp : acc ++ got = be32 (UInt32.ofNat p.length) ++ p) (hlt : p.length < 2 ^ 32) (hne : p ≠ [])
      (hthrow : throws p = false) (hr : Holds r' []) :
      Phase2 throws r s rv acc (.done ⟨r', s', .complete p⟩)
  | thrown {r' : TCPReceiver} {s' : Socket} {got p : Bytes}
      (hread : Consumed s.arrivals got s'.arrivals) (hm : s'.mallocs = s.mallocs)
      (hp : acc ++ got = be32 (UInt32.ofNat p.length) ++ p) (hlt : p.length < 2 ^ 32) (hne : p ≠ [])
      (hthrow : throws p = true) (hfull : Full r') (hr : Holds r' (acc ++ got)) :
      Phase2 throws r s rv acc (.done ⟨r', s', .thrown p⟩)

theorem phase2_spec (throws : Bytes → Bool) {r : TCPReceiver} {acc : Bytes} (h : Holds r acc) (s : Socket)
    (rv : Bool) : Phase2 throws r s rv acc (r.phase2 throws s rv) := by
  cases hdata : r.recvdata with
  | none =>
    unfold phase2
    rw [hdata]
    exact .skip hdata
  | some buf =>
    by_cases hfull : Full r
    · have hzero : (r.recvsize - r.recvct).toNat = 0 := by
        rw [hfull.2, UInt32.sub_self]
        rfl
      unfold phase2
      simp only [hdata, Socket.read, hzero, if_true]
      exact hdata ▸ .full _ hfull rfl rfl
    · have hlt := h.lt_of_not_full hdata hfull
      have hpos : 0 < (r.recvsize - r.recvct).toNat := by
        rw [UInt32.toNat_sub_of_le _ _ (UInt32.le_iff_toNat_le.mpr (Nat.le_of_lt hlt))]
        omega
      obtain ⟨s', res, hread, hm, hspec⟩ := read_spec s
        (q := ⟨.recvdata, r.recvct.toNat, (r.recvsize - r.recvct).toNat⟩) hpos
      unfold phase2
      simp only [hdata, hread]
      cases hspec with
      | blocked hs hs' => exact .blocked hfull hs hs' hm
      | ended neg hs ha => exact hdata ▸ .ended _ hfull hs ha hm
      | @got got hcons hne hle =>
        have hr := h.grow hdata hle
        by_cases heq : r.recvct + UInt32.ofNat got.length = r.recvsize
        · obtain ⟨hp, hlen⟩ := hr.block rfl heq
          have hpne : overlay buf r.recvct.toNat got ≠ [] := by
            intro he
            obtain ⟨-, -, hbuf, -⟩ := h.part_of_some hdata
            have hzero := congrArg List.length he
            rw [length_overlay, hbuf, List.length_nil] at hzero
            omega
          simp only [if_pos heq]
          cases hthrow : throws (overlay buf r.recvct.toNat got) with
          | false =>
            rw [if_neg Bool.false_ne_true]
            exact .complete hcons hm hp hlen hpne hthrow hr.reset
          | true =>
            rw [if_pos rfl]
            exact .thrown hcons hm hp hlen hpne hthrow ⟨rfl, heq⟩ hr
        · simp only [if_neg heq]
          exact .grew hcons hne hm (fun hf => heq hf.2) hr

/-! ## One call -/

/-- The receiver held `acc`, took the bytes `got`, and holds `acc'`: all of them, unless `malloc` failed
in between. -/
structure Kept (s s' : Socket) (acc got acc' : Bytes) : Prop where
  suffix : acc' <:+ acc ++ got
  all : false ∉ s.mallocs → acc' = acc ++ got
  mallocs : s'.mallocs <:+ s.mallocs

theorem Kept.refl {s s' : Socket} (acc : Bytes) (hm : s'.mallocs = s.mallocs) : Kept s s' acc [] acc :=
  ⟨by rw [List.append_nil], fun _ => (List.append_nil acc).symm, hm ▸ List.suffix_refl _⟩

theorem Kept.grew {s s' : Socket} (acc got : Bytes) (hm : s'.mallocs <:+ s.mallocs) :
    Kept s s' acc got (acc ++ got) :=
  ⟨List.suffix_refl _, fun _ => rfl, hm⟩

theorem Kept.malloc_ok {s s' : Socket} {acc got acc' : Bytes} (h : Kept s s' acc got acc')
    (hok : false ∉ s.mallocs) : false ∉ s'.mallocs :=
  fun hmem => hok (h.mallocs.subset hmem)

theorem Kept.trans {s s' s'' : Socket} {acc got acc' more acc'' : Bytes} (h : Kept s s' acc got acc')
    (h' : Kept s' s'' acc' more acc'') : Kept s s'' acc (got ++ more) acc'' where
  suffix := by
    obtain ⟨pre, hpre⟩ := h.suffix
    refine h'.suffix.trans ⟨pre, ?_⟩
    rw [← List.append_assoc, ← List.append_assoc, hpre]
  all hall := by
    rw [h'.all (h.malloc_ok hall), h.all hall, List.append_assoc]
  mallocs := h'.mallocs.trans h.mallocs

/-- How a call ends that starts with `acc` in the receiver. -/
inductive Outcome (throws : Bytes → Bool) (r : TCPReceiver) (s : Socket) (rv : Bool) (acc : Bytes)
    (c : Call) : Prop
  | complete {got p : Bytes} (hread : Consumed s.arrivals got c.sock.arrivals)
      (hkept : Kept s c.sock acc got (be32 (UInt32.ofNat p.length) ++ p)) (hlt : p.length < 2 ^ 32)
      (hne : p ≠ []) (hthrow : throws p = false) (hr : Holds c.recv []) (hres : c.result = .complete p)
  | thrown {got p : Bytes} (hread : Consumed s.arrivals got c.sock.arrivals)
      (hkept : Kept s c.sock acc got (be32 (UInt32.ofNat p.length) ++ p)) (hlt : p.length < 2 ^ 32)
      (hne : p ≠ []) (hthrow : throws p = true) (hfull : Full c.recv)
      (hr : Holds c.recv (be32 (UInt32.ofNat p.length) ++ p)) (hres : c.result = .thrown p)
  | blocked {got acc' : Bytes} (hread : Consumed s.arrivals got []) (hend : c.sock.arrivals = [])
      (hkept : Kept s c.sock acc got acc') (hpart : ¬ Full c.recv) (hr : Holds c.recv acc')
      (hres : c.result = .blocked)
  | ended {got acc' : Bytes} {a : Arrival} {rv' : Bool}
      (hread : Consumed s.arrivals got (a :: c.sock.arrivals)) (ha : a.bytes = [])
      (hkept : Kept s c.sock acc got acc') (hpart : ¬ Full c.recv) (hr : Holds c.recv acc')
      (hres : c.result = .returned rv')
  /-- `read` was asked for nothing: the buffer was full before the call, or the block is an empty one. -/
  | full {got acc' : Bytes} {rv' : Bool} (hread : Consumed s.arrivals got c.sock.arrivals)
      (hkept : Kept s c.sock acc got acc') (hfull : Full c.recv) (hr : Holds c.recv acc')
      (hwhy : Full r ∧ got = [] ∧ rv' = rv ∧ c.recv.recvsize = r.recvsize ∨
        got ≠ [] ∧ rv' = true ∧ c.recv.recvsize = 0)
      (hres : c.result = .returned rv')

theorem Outcome.after {throws : Bytes → Bool} {r r' : TCPReceiver} {s s' : Socket} {rv rv' : Bool}
    {acc got acc' : Bytes} {c : Call} (h : Outcome throws r' s' rv' acc' c)
    (hread : Consumed s.arrivals got s'.arrivals) (hkept : Kept s s' acc got acc')
    (hfull : Full r' → got ≠ [] ∧ rv' = true ∧ r'.recvsize = 0) : Outcome throws r s rv acc c := by
  cases h with
  | complete hread' hkept' hlt hne hthrow hr hres =>
    exact .complete (hread.trans hread') (hkept.trans hkept') hlt hne hthrow hr hres
  | thrown hread' hkept' hlt hne hthrow hfull' hr hres =>
    exact .thrown (hread.trans hread') (hkept.trans hkept') hlt hne hthrow hfull' hr hres
  | blocked hread' hend hkept' hpart hr hres =>
    exact .blocked (hread.trans hread') hend (hkept.trans hkept') hpart hr hres
  | ended hread' ha hkept' hpart hr hres =>
    exact .ended (hread.trans hread') ha (hkept.trans hkept') hpart hr hres
  | full hread' hkept' hfull' hr hwhy hres =>
    refine .full (hread.trans hread') (hkept.trans hkept') hfull' hr (Or.inr ?_) hres
    rcases hwhy with ⟨hstart, rfl, rfl, hsize⟩ | ⟨hne, rfl, hzero⟩
    · obtain ⟨hne, rfl, hzero⟩ := hfull hstart
      exact ⟨by rwa [List.append_nil], rfl, hsize.trans hzero⟩
    · exact ⟨fun he => hne (List.append_eq_nil_iff.1 he).2, rfl, hzero⟩

/-- The second `if` of the loop body and the turns behind it, given what `n` turns do. -/
theorem secondHalf_outcome {throws : Bytes → Bool} {n : Nat}
    (ih : ∀ {r s acc} rv, Holds r acc → s.pending < n →
      Outcome throws r s rv acc (updateLoop throws n r s rv))
    {r : TCPReceiver} {s : Socket} {acc : Bytes} (rv : Bool) (h : Holds r acc)
    (hn : s.pending < n + 1) (hskip : r.recvdata = none → s.pending < n) :
    Outcome throws r s rv acc
      (match r.phase2 throws s rv with
      | .done c => c
      | .next r s rv =>
        if r.isForceExit then ⟨r, s, .returned false⟩ else updateLoop throws n r s rv) := by
  have hspec := phase2_spec throws h s rv
  generalize r.phase2 throws s rv = flow at hspec ⊢
  cases hspec with
  | skip hnone =>
    simp only [h.force, Bool.false_eq_true, if_false]
    exact ih rv h (hskip hnone)
  | full b hfull hs hm =>
    exact .full (hs ▸ .refl _) (.refl acc hm) hfull (h.close b) (Or.inl ⟨hfull, rfl, rfl, rfl⟩) rfl
  | blocked hpart hs hs' hm => exact .blocked (hs ▸ .refl _) hs' (.refl acc hm) hpart h rfl
  | ended b hpart hs ha hm => exact .ended (hs ▸ .refl _) ha (.refl acc hm) hpart (h.close b) rfl
  | @grew r' s' got hread hne hm hpart hr =>
    simp only [hr.force, Bool.false_eq_true, if_false]
    have hpend := hread.pending hne
    exact (ih true hr (by omega)).after hread (.grew acc got (hm ▸ List.suffix_refl _))
      fun hf => absurd hf hpart
  | complete hread hm hp hlt hne hthrow hr =>
    exact .complete hread (hp ▸ .grew acc _ (hm ▸ List.suffix_refl _)) hlt hne hthrow hr rfl
  | thrown hread hm hp hlt hne hthrow hfull hr =>
    exact .thrown hread (hp ▸ .grew acc _ (hm ▸ List.suffix_refl _)) hlt hne hthrow hfull (hp ▸ hr) rfl

/-- **One call of `update`**, whatever arrives and whatever `malloc` does. -/
theorem updateLoop_outcome (throws : Bytes → Bool) (n : Nat) :
    ∀ {r : TCPReceiver} {s : Socket} {acc : Bytes} (rv : Bool), Holds r acc → s.pending < n →
      Outcome throws r s rv acc (updateLoop throws n r s rv) := by
  induction n with
  | zero => intro r s acc rv _ hn; exact absurd hn (Nat.not_lt_zero _)
  | succ n ih =>
    intro r s acc rv h hn
    have hspec := phase1_spec h s rv
    unfold updateLoop
    generalize r.phase1 s rv = flow at hspec ⊢
    cases hspec with
    | skip hsome => exact secondHalf_outcome ih rv h hn fun hnone => by rw [hnone] at hsome; cases hsome
    | blocked hnone hs hs' hm =>
      exact .blocked (hs ▸ .refl _) hs' (.refl acc hm) (fun hf => by rw [Full, hnone] at hf; cases hf.1) h rfl
    | ended b hnone hs ha hm =>
      exact .ended (hs ▸ .refl _) ha (.refl acc hm) (fun hf => by rw [Full, hnone] at hf; cases hf.1)
        (h.close b) rfl
    | @grew r' s' got hread hne hm hlen hr =>
      have hpend := hread.pending hne
      refine (secondHalf_outcome ih true hr (by omega) fun _ => by omega).after hread
        (.grew acc got hm) fun hf => ⟨hne, rfl, ?_⟩
      obtain ⟨buf, hsome⟩ := Option.isSome_iff_exists.1 hf.1
      obtain ⟨part, heq, -, -, hct, -⟩ := hr.part_of_some hsome
      rw [heq, List.length_append, length_be32] at hlen
      apply UInt32.toNat_inj.mp
      rw [← hf.2, hct]
      show part.length = 0
      omega
    | @null r' s' got hread hne hfail hm hnone hr =>
      have hpend := hread.pending hne
      exact (secondHalf_outcome ih true hr (by omega) fun _ => by omega).after hread
        ⟨List.nil_suffix, fun hall => absurd hfail hall, hm⟩
        fun hf => by rw [Full, hnone] at hf; cases hf.1

theorem update_outcome (throws : Bytes → Bool) {r : TCPReceiver} {acc : Bytes} (h : Holds r acc)
    (s : Socket) : Outcome throws r s false acc (r.update throws s) :=
  updateLoop_outcome throws _ false h (Nat.lt_succ_self _)

end DiamondApparatus
