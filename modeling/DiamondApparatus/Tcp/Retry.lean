import DiamondApparatus.Tcp.Send

/-!
# What the retries of `basesend` leave on the wire

A round ends the loop when both of its `write` calls take something. What they leave out is not sent,
and the rounds before have left on the wire what they took.

* `WriteResult.taken` : how many bytes a `write` takes; `Last w n j` : the loop for a block of `n` bytes
  ends with round `j`;
* `basesend_returned` : the bytes of all rounds up to that one;
* `HeaderOnly` : the outcomes with which every block of that size goes out whole; `Clean` : nothing was lost
  and nothing sent twice; `Coincides` : the pieces of this block make up its frame all the same;
* `basesend_frame_iff` : when `basesend` sends one frame.
-/

namespace DiamondApparatus
open Lib

def WriteResult.taken (r : WriteResult) (n : Nat) : Nat :=
  match r with
  | .all => n
  | .short m => min m n
  | .failed _ => 0

theorem WriteResult.write_fst (r : WriteResult) (data : Bytes) (errno : Nat) :
    (r.write data errno).1 = data.take (r.taken data.length) := by
  cases r with
  | all => simp [write, taken]
  | short m => exact List.take_eq_take_min
  | failed e => simp [write, taken]

theorem WriteResult.write_positive (r : WriteResult) (data : Bytes) (errno : Nat) :
    (r.write data errno).2.1 = true ↔ 0 < r.taken data.length := by
  cases r with
  | all => cases data <;> simp [write, taken]
  | short m => cases data <;> simp [write, taken]
  | failed e => simp [write, taken]

/-- Both `write` calls of round `i` take something of a block of `n` bytes. -/
def Goes (w : Writes) (n i : Nat) : Prop := 0 < (w (2 * i)).taken 4 ∧ 0 < (w (2 * i + 1)).taken n

/-- The loop for a block of `n` bytes ends with round `j`. -/
structure Last (w : Writes) (n j : Nat) : Prop where
  goes : Goes w n j
  first : ∀ i < j, ¬ Goes w n i

/-- What round `i` puts on the wire. -/
def roundBytes (w : Writes) (data : Bytes) (i : Nat) : Bytes :=
  (be32 (UInt32.ofNat data.length)).take ((w (2 * i)).taken 4) ++
    data.take ((w (2 * i + 1)).taken data.length)

/-! ## The loop -/

theorem basesendLoop_returned (w : Writes) (data : Bytes) (m : Nat) :
    ∀ i errno, (basesendLoop w data m (2 * i) errno).2 = .returned →
      ∃ j < m, Goes w data.length (i + j) ∧ (∀ l < j, ¬ Goes w data.length (i + l)) ∧
        (basesendLoop w data m (2 * i) errno).1 =
          (List.range (j + 1)).flatMap fun l => roundBytes w data (i + l) := by
  induction m with
  | zero =>
    intro i errno h
    cases h
  | succ m ih =>
    intro i errno h
    have hround : (((w (2 * i)).write (be32 (UInt32.ofNat data.length)) errno).1 ++
        ((w (2 * i + 1)).write data
          ((w (2 * i)).write (be32 (UInt32.ofNat data.length)) errno).2.2).1) = roundBytes w data i := by
      rw [WriteResult.write_fst, WriteResult.write_fst, length_be32, roundBytes]
    have hgoes : (((w (2 * i)).write (be32 (UInt32.ofNat data.length)) errno).2.1 &&
        ((w (2 * i + 1)).write data
          ((w (2 * i)).write (be32 (UInt32.ofNat data.length)) errno).2.2).2.1) = true ↔
        Goes w data.length i := by
      rw [Bool.and_eq_true, WriteResult.write_positive, WriteResult.write_positive, length_be32, Goes]
    simp only [basesendLoop, hround] at h ⊢
    by_cases hg : Goes w data.length i
    · rw [if_pos (hgoes.2 hg)]
      exact ⟨0, Nat.succ_pos m, hg, fun l hl => absurd hl (Nat.not_lt_zero l), by simp⟩
    · rw [if_neg (mt hgoes.1 hg)] at h ⊢
      split at h
      · cases h
      · next hpipe =>
        rw [if_neg hpipe]
        obtain ⟨j, hj, hgo, hfirst, hout⟩ := ih (i + 1) _ h
        refine ⟨j + 1, Nat.succ_lt_succ hj, ?_, fun l hl => ?_, ?_⟩
        · rwa [Nat.add_comm j 1, ← Nat.add_assoc]
        · cases l with
          | zero => exact hg
          | succ l =>
            rw [Nat.add_comm l 1, ← Nat.add_assoc]
            exact hfirst l (Nat.lt_of_succ_lt_succ hl)
        · show roundBytes w data i ++ _ = _
          rw [List.range_succ_eq_map, List.flatMap_cons, List.flatMap_map]
          refine congrArg _ (hout.trans (List.flatMap_congr fun l _ => ?_))
          rw [Nat.add_assoc, Nat.add_comm 1 l]

/-- **What a `basesend` that returns has sent**: the bytes of its rounds. -/
theorem basesend_returned {w : Writes} {errno : Nat} {data : Bytes}
    (h : (basesend w errno data).2 = .returned) :
    ∃ j < 10, Last w data.length j ∧
      (basesend w errno data).1 = (List.range (j + 1)).flatMap (roundBytes w data) := by
  obtain ⟨j, hj, hgo, hfirst, hout⟩ := basesendLoop_returned w data 10 0 errno h
  simp only [Nat.zero_add] at hgo hfirst hout
  exact ⟨j, hj, ⟨hgo, hfirst⟩, hout⟩

/-- How `basesend` ends depends on the size of the block only. -/
theorem basesendLoop_snd (w : Writes) {data data' : Bytes} (h : data.length = data'.length) (m : Nat) :
    ∀ k errno, (basesendLoop w data m k errno).2 = (basesendLoop w data' m k errno).2 := by
  have hpos : ∀ (r : WriteResult) errno, (r.write data errno).2 = (r.write data' errno).2 := by
    intro r errno
    refine Prod.ext (Bool.eq_iff_iff.2 ?_) (by cases r <;> rfl)
    rw [WriteResult.write_positive, WriteResult.write_positive, h]
  induction m with
  | zero => exact fun _ _ => rfl
  | succ m ih =>
    intro k errno
    simp only [basesendLoop, h, hpos]
    split
    · rfl
    · split
      · rfl
      · exact ih _ _

/-! ## One frame -/

/-- In the last round both `write` calls took everything, and before it nothing was taken. -/
structure Clean (w : Writes) (n j : Nat) : Prop where
  header : (w (2 * j)).taken 4 = 4
  payload : (w (2 * j + 1)).taken n = n
  earlier : ∀ i < j, (w (2 * i)).taken 4 = 0 ∧ (w (2 * i + 1)).taken n = 0

/-- What is on the wire before the last `write` of the payload. -/
def headBytes (w : Writes) (data : Bytes) (j : Nat) : Bytes :=
  (List.range j).flatMap (roundBytes w data) ++
    (be32 (UInt32.ofNat data.length)).take ((w (2 * j)).taken 4)

/-- The number of bytes that the last `write` of the payload leaves out. -/
def leftOut (w : Writes) (n j : Nat) : Nat := n - (w (2 * j + 1)).taken n

/-- The payload goes on behind the bytes that were left out as it begins, and these are on the wire
already, behind the size. -/
structure Coincides (w : Writes) (data : Bytes) (j : Nat) : Prop where
  repeats : data.drop (leftOut w data.length j) = data.take ((w (2 * j + 1)).taken data.length)
  head : headBytes w data j =
    be32 (UInt32.ofNat data.length) ++ data.take (leftOut w data.length j)

/-- No bytes of the payload were taken before the last round, and all of them in it; and what was
taken of the size, round after round, is the size. -/
structure HeaderOnly (w : Writes) (n j : Nat) : Prop where
  payload : (w (2 * j + 1)).taken n = n
  earlier : ∀ i < j, (w (2 * i + 1)).taken n = 0
  header : ((List.range (j + 1)).flatMap fun i => (be32 (UInt32.ofNat n)).take ((w (2 * i)).taken 4)) =
    be32 (UInt32.ofNat n)

theorem WriteResult.taken_le (r : WriteResult) (n : Nat) : r.taken n ≤ n := by
  cases r with
  | all => exact Nat.le_refl n
  | short m => exact Nat.min_le_right m n
  | failed e => exact Nat.zero_le n

theorem rounds_eq (w : Writes) (data : Bytes) (j : Nat) :
    (List.range (j + 1)).flatMap (roundBytes w data) =
      headBytes w data j ++ data.take ((w (2 * j + 1)).taken data.length) := by
  rw [List.range_succ, List.flatMap_append, List.flatMap_singleton, headBytes, List.append_assoc]
  rfl

/-- The rounds make up a frame exactly if the last `write` of the payload takes its end. -/
theorem rounds_eq_frame_iff (w : Writes) (data : Bytes) (j : Nat) :
    (List.range (j + 1)).flatMap (roundBytes w data) = frame data ↔ Coincides w data j := by
  have hle := (w (2 * j + 1)).taken_le data.length
  have hsplit : frame data = (be32 (UInt32.ofNat data.length) ++ data.take (leftOut w data.length j)) ++
      data.drop (leftOut w data.length j) := by
    rw [List.append_assoc, List.take_append_drop, frame]
  have hlen : (data.take ((w (2 * j + 1)).taken data.length)).length =
      (data.drop (leftOut w data.length j)).length := by
    rw [List.length_take_of_le hle, List.length_drop, leftOut]
    omega
  rw [rounds_eq, hsplit]
  constructor
  · intro h
    obtain ⟨hhead, htail⟩ := List.append_inj' h hlen
    exact ⟨htail.symm, hhead⟩
  · intro h
    rw [h.head, h.repeats]

theorem HeaderOnly.coincides {w : Writes} {data : Bytes} {j : Nat} (h : HeaderOnly w data.length j) :
    Coincides w data j := by
  have hleft : leftOut w data.length j = 0 := by
    rw [leftOut, h.payload, Nat.sub_self]
  refine ⟨?_, ?_⟩
  · rw [hleft, h.payload, List.drop_zero, List.take_length]
  · have hrounds : (List.range j).flatMap (roundBytes w data) = (List.range j).flatMap fun i =>
        (be32 (UInt32.ofNat data.length)).take ((w (2 * i)).taken 4) := by
      refine List.flatMap_congr fun i hi => ?_
      rw [roundBytes, h.earlier i (List.mem_range.1 hi), List.take_zero, List.append_nil]
    have hall := h.header
    rw [List.range_succ, List.flatMap_append, List.flatMap_singleton, ← hrounds] at hall
    rw [headBytes, hall, hleft, List.take_zero, List.append_nil]

/-! ## Any block of one size -/

theorem take_be32_eq_nil {n : UInt32} {k : Nat} : (be32 n).take k = [] ↔ k = 0 := by
  rw [List.take_eq_nil_iff, or_iff_left (by simp [be32])]

theorem exists_not_mem_be32 (n : UInt32) : ∃ x, x ∉ be32 n := by
  by_contra hall
  have hsub : [0, 1, 2, 3, 4] ⊆ be32 n := fun x _ => by
    by_contra hx
    exact hall ⟨x, hx⟩
  have hlen := (List.subperm_of_subset (by decide) hsub).length_le
  rw [length_be32] at hlen
  exact absurd hlen (by decide)

/-- A block of bytes that the size does not have tells its pieces from those of the size. -/
theorem Coincides.headerOnly {w : Writes} {n j : Nat} {x : UInt8} (hgo : Goes w n j)
    (hx : x ∉ be32 (UInt32.ofNat n)) (h : Coincides w (List.replicate n x) j) : HeaderOnly w n j := by
  have hlen : (List.replicate n x).length = n := List.length_replicate
  have hhead := h.head
  have hle := (w (2 * j + 1)).taken_le n
  rw [hlen] at hhead
  have hleft : leftOut w n j = 0 := by
    by_contra hpos
    have hsize : (be32 (UInt32.ofNat n)).take ((w (2 * j)).taken 4) ≠ [] :=
      fun hnil => hgo.1.ne' (take_be32_eq_nil.1 hnil)
    have htail : (List.replicate n x).take (leftOut w n j) ≠ [] := by
      intro hnil
      have hcut := congrArg List.length hnil
      rw [List.length_take, hlen] at hcut
      unfold leftOut at hcut hpos
      change _ = 0 at hcut
      omega
    have hlast := congrArg List.getLast? hhead
    rw [headBytes, hlen, List.getLast?_append_of_ne_nil _ hsize, List.getLast?_append_of_ne_nil _ htail,
      List.getLast?_eq_getLast_of_ne_nil hsize, List.getLast?_eq_getLast_of_ne_nil htail,
      Option.some_inj] at hlast
    have hin := List.mem_of_mem_take (List.getLast_mem hsize)
    rw [hlast, List.eq_of_mem_replicate (List.mem_of_mem_take (List.getLast_mem htail))] at hin
    exact hx hin
  rw [hleft, List.take_zero, List.append_nil, headBytes, hlen] at hhead
  have hearlier : ∀ i < j, (w (2 * i + 1)).taken n = 0 := by
    intro i hi
    by_contra hpos
    have hin : x ∈ be32 (UInt32.ofNat n) := by
      rw [← hhead]
      refine List.mem_append_left _ (List.mem_flatMap.2 ⟨i, List.mem_range.2 hi, ?_⟩)
      refine List.mem_append_right _ ?_
      rw [hlen, List.take_replicate, List.mem_replicate]
      have := (w (2 * i + 1)).taken_le n
      exact ⟨by omega, rfl⟩
    exact hx hin
  refine ⟨?_, hearlier, ?_⟩
  · unfold leftOut at hleft
    omega
  · rw [List.range_succ, List.flatMap_append, List.flatMap_singleton]
    refine Eq.trans ?_ hhead
    congr 1
    refine List.flatMap_congr fun i hi => ?_
    rw [roundBytes, hlen, hearlier i (List.mem_range.1 hi), List.take_zero, List.append_nil]

/-! ## All blocks -/

theorem Last.unique {w : Writes} {n j j' : Nat} (h : Last w n j) (h' : Last w n j') : j = j' := by
  rcases Nat.lt_trichotomy j j' with hlt | heq | hlt
  · exact absurd h.goes (h'.first j hlt)
  · exact heq
  · exact absurd h'.goes (h.first j' hlt)

theorem basesend_eq_frame_iff {w : Writes} {errno : Nat} {data : Bytes} {j : Nat}
    (h : (basesend w errno data).2 = .returned) (hlast : Last w data.length j) :
    (basesend w errno data).1 = frame data ↔ Coincides w data j := by
  obtain ⟨j', -, hlast', hout⟩ := basesend_returned h
  obtain rfl := hlast.unique hlast'
  rw [hout, rounds_eq_frame_iff]

theorem be32_small {n : Nat} (hn : n < 2 ^ 16) :
    be32 (UInt32.ofNat n) = [0, 0, UInt8.ofNat (n / 256), UInt8.ofNat n] := by
  have hto : (UInt32.ofNat n).toNat = n := by
    rw [UInt32.toNat_ofNat', Nat.mod_eq_of_lt (by omega)]
  rw [be32, hto, Nat.div_eq_of_lt (by omega), Nat.div_eq_of_lt (by omega)]
  rfl

/-- A word that begins with two zero bytes, and does not end with one, has none of its beginnings at its
end. -/
theorem whole_of_append_take {x y : UInt8} (hy : y ≠ 0) {pieces : Bytes} {a : Nat} (hpos : 0 < a)
    (hle : a ≤ 4) (h : pieces ++ [0, 0, x, y].take a = [0, 0, x, y]) : a = 4 := by
  have hlast := congrArg List.getLast? h
  obtain rfl | rfl | rfl | rfl : a = 1 ∨ a = 2 ∨ a = 3 ∨ a = 4 := by omega
  · exact absurd (by simpa using hlast) hy.symm
  · exact absurd (by simpa using hlast) hy.symm
  · have hlen := congrArg List.length h
    rw [List.length_append] at hlen
    obtain ⟨z, rfl⟩ := List.length_eq_one_iff.1 (Nat.add_right_cancel (m := 3) hlen)
    simp only [List.take_succ_cons, List.take_zero, List.singleton_append, List.cons.injEq,
      and_true] at h
    exact absurd (h.2.2.2.symm.trans h.2.2.1.symm) hy
  · rfl

/-- For the sizes below `2 ^ 16` that 256 does not divide, the four bytes of the size cannot be made of
shorter pieces: nothing may be sent twice. -/
theorem headerOnly_iff_clean {w : Writes} {n j : Nat} (hn : n < 2 ^ 16) (hmod : n % 256 ≠ 0)
    (hgo : Goes w n j) : HeaderOnly w n j ↔ Clean w n j := by
  have hbyte : UInt8.ofNat n ≠ 0 := by
    intro h
    have := congrArg UInt8.toNat h
    rw [UInt8.toNat_ofNat'] at this
    exact hmod this
  constructor
  · intro h
    have hall := h.header
    rw [List.range_succ, List.flatMap_append, List.flatMap_singleton] at hall
    have hsize : (w (2 * j)).taken 4 = 4 := by
      rw [be32_small hn] at hall
      exact whole_of_append_take hbyte hgo.1 ((w (2 * j)).taken_le 4) hall
    have hnone : ((List.range j).flatMap fun i =>
        (be32 (UInt32.ofNat n)).take ((w (2 * i)).taken 4)) = [] := by
      rw [hsize, List.take_of_length_le (Nat.le_of_eq (length_be32 _))] at hall
      exact List.append_left_eq_self.1 hall
    refine ⟨hsize, h.payload, fun i hi => ⟨?_, h.earlier i hi⟩⟩
    exact take_be32_eq_nil.1 (List.flatMap_eq_nil_iff.1 hnone i (List.mem_range.2 hi))
  · intro h
    refine ⟨h.payload, fun i hi => (h.earlier i hi).2, ?_⟩
    have hnone : ((List.range j).flatMap fun i =>
        (be32 (UInt32.ofNat n)).take ((w (2 * i)).taken 4)) = [] := by
      rw [List.flatMap_eq_nil_iff]
      intro i hi
      rw [(h.earlier i (List.mem_range.1 hi)).1]
      rfl
    rw [List.range_succ, List.flatMap_append, List.flatMap_singleton, hnone, h.header]
    rfl

/-- **When `basesend` sends one frame.** Whatever the bytes of the block are, when the outcomes of the writes are
`HeaderOnly`; for most of the sizes below `2 ^ 16` that is when they are `Clean`. Otherwise only when the bytes
coincide. -/
theorem basesend_frame_iff (w : Writes) (errno : Nat) (data : Bytes)
    (h : (basesend w errno data).2 = .returned) :
    ∃ j < 10, Last w data.length j ∧
      ((∀ data', data'.length = data.length → (basesend w errno data').1 = frame data') ↔
        HeaderOnly w data.length j) ∧
      (data.length < 2 ^ 16 → data.length % 256 ≠ 0 → (HeaderOnly w data.length j ↔ Clean w data.length j)) ∧
      ((basesend w errno data).1 = frame data ↔ HeaderOnly w data.length j ∨ Coincides w data j) := by
  obtain ⟨j, hj, hlast, -⟩ := basesend_returned h
  have hsame : ∀ data', data'.length = data.length →
      ((basesend w errno data').1 = frame data' ↔ Coincides w data' j) := by
    intro data' hlen
    refine basesend_eq_frame_iff ?_ (hlen ▸ hlast)
    exact (basesendLoop_snd w hlen 10 0 errno).trans h
  refine ⟨j, hj, hlast, ⟨fun hall => ?_, fun hhead data' hlen => ?_⟩, ?_, ?_⟩
  · obtain ⟨x, hx⟩ := exists_not_mem_be32 (UInt32.ofNat data.length)
    have hlen : (List.replicate data.length x).length = data.length := List.length_replicate
    exact ((hsame _ hlen).1 (hall _ hlen)).headerOnly hlast.goes hx
  · rw [hsame data' hlen]
    exact HeaderOnly.coincides (hlen ▸ hhead)
  · exact fun hn hmod => headerOnly_iff_clean hn hmod hlast.goes
  · rw [hsame data rfl]
    exact ⟨Or.inr, fun hor => hor.elim HeaderOnly.coincides id⟩

/-- Both `write` calls of the first round fail. -/
def refused : Writes := fun k => if k < 2 then .failed 11 else .all

theorem basesend_frame_iff_refused : (basesend refused 0 [7, 8]).1 = frame [7, 8] := by
  obtain ⟨j, -, hlast, -, hclean, hiff⟩ := basesend_frame_iff refused 0 [7, 8] (by decide)
  have hone : Last refused 2 1 :=
    ⟨by unfold Goes; decide, fun i hi => by obtain rfl := Nat.lt_one_iff.1 hi; unfold Goes; decide⟩
  obtain rfl : j = 1 := hlast.unique hone
  refine hiff.2 (Or.inl ((hclean (by decide) (by decide)).2 ⟨by decide, by decide, fun i hi => ?_⟩))
  obtain rfl := Nat.lt_one_iff.1 hi
  decide

def cutShort : Writes := fun k => if k = 1 then .short 3 else .all

/-- The second `write` is interrupted. -/
def repeated : Writes := fun k => if k = 1 then .failed 4 else .all

/-- After a short `write` the end of the payload is missing, after a failed one the size is there twice. -/
theorem basesend_breaks_frames :
    basesend cutShort 0 [1, 2, 3, 4, 5] = ([0, 0, 0, 5, 1, 2, 3], .returned) ∧
      basesend repeated 0 [1, 2, 3, 4, 5] = ([0, 0, 0, 5, 0, 0, 0, 5, 1, 2, 3, 4, 5], .returned) ∧
      frame [1, 2, 3, 4, 5] = [0, 0, 0, 5, 1, 2, 3, 4, 5] := by
  decide

end DiamondApparatus
