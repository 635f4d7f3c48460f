import DiamondApparatus.Lib.Bytes

/-!
# Writing into a buffer

* `overlay buf off bs` : `buf` with the bytes from `off` on replaced by `bs`. What does not fit lands
  outside and is lost, so the length never changes (`length_overlay`);
* `Write` : one `memcpy`; `runWrites buf ws` does the writes `ws` in order;
* `Consecutive off ws fin` : each write starts where the one before ended, from `off` up to `fin`.
  Such writes leave their concatenation in the buffer (`runWrites_consecutive`), whatever it held;
* `Write.Within size w` : no byte of the write lands outside of `size` bytes; `Consecutive.within`.
-/

namespace DiamondApparatus.Lib

/-- `buf` with the bytes from `off` on replaced by `bs`, as far as they fit. -/
def overlay (buf : Bytes) (off : Nat) (bs : Bytes) : Bytes :=
  buf.take off ++ bs.take (buf.length - off) ++ buf.drop (off + bs.length)

@[simp] theorem length_overlay (buf : Bytes) (off : Nat) (bs : Bytes) :
    (overlay buf off bs).length = buf.length := by
  simp only [overlay, List.length_append, List.length_take, List.length_drop]
  omega

/-- A write that fits leaves the bytes before it and then its own. -/
theorem take_overlay (buf : Bytes) (off : Nat) (bs : Bytes) (h : off + bs.length ≤ buf.length) :
    (overlay buf off bs).take (off + bs.length) = buf.take off ++ bs := by
  have hbs : bs.take (buf.length - off) = bs := List.take_of_length_le (by omega)
  have hlen : (buf.take off ++ bs).length = off + bs.length := by
    rw [List.length_append, List.length_take_of_le (by omega)]
  rw [overlay, hbs, ← hlen, List.take_left]

theorem take_overlay_add (buf : Bytes) (off k : Nat) (bs : Bytes) (hk : k ≤ bs.length)
    (h : off + k ≤ buf.length) : (overlay buf off bs).take (off + k) = buf.take off ++ bs.take k := by
  have hoff : (buf.take off).length = off := List.length_take_of_le (by omega)
  have hfit : k ≤ (bs.take (buf.length - off)).length := by
    rw [List.length_take]
    omega
  rw [overlay, List.append_assoc, List.take_append, hoff, Nat.add_sub_cancel_left,
    List.take_of_length_le (by omega), List.take_append_of_le_length hfit, List.take_take,
    Nat.min_eq_left (by omega)]

theorem drop_overlay (buf : Bytes) (off : Nat) (bs : Bytes) (h : off + bs.length ≤ buf.length) :
    (overlay buf off bs).drop (off + bs.length) = buf.drop (off + bs.length) := by
  have hbs : bs.take (buf.length - off) = bs := List.take_of_length_le (by omega)
  have hlen : (buf.take off ++ bs).length = off + bs.length := by
    rw [List.length_append, List.length_take_of_le (by omega)]
  conv_lhs => rw [overlay, hbs, ← hlen, List.drop_left]
  rw [hlen]

/-! ## Lists of writes -/

structure Write where
  off : Nat
  bytes : Bytes
  deriving DecidableEq, Repr

def runWrites (buf : Bytes) (ws : List Write) : Bytes :=
  ws.foldl (fun b w => overlay b w.off w.bytes) buf

@[simp] theorem length_runWrites (buf : Bytes) (ws : List Write) :
    (runWrites buf ws).length = buf.length := by
  induction ws generalizing buf with
  | nil => rfl
  | cons w ws ih => exact (ih (overlay buf w.off w.bytes)).trans (length_overlay _ _ _)

/-- The writes follow each other without a gap, from the offset `off` to the offset `fin`. -/
def Consecutive (off : Nat) : List Write → Nat → Prop
  | [], fin => off = fin
  | w :: ws, fin => w.off = off ∧ Consecutive (off + w.bytes.length) ws fin

theorem Consecutive.append {off mid fin : Nat} {ws vs : List Write} (h₁ : Consecutive off ws mid)
    (h₂ : Consecutive mid vs fin) : Consecutive off (ws ++ vs) fin := by
  induction ws generalizing off with
  | nil => exact h₁ ▸ h₂
  | cons w ws ih => exact ⟨h₁.1, ih h₁.2⟩

theorem Consecutive.fin_eq {off fin : Nat} {ws : List Write} (h : Consecutive off ws fin) :
    fin = off + (ws.flatMap Write.bytes).length := by
  induction ws generalizing off with
  | nil => exact h.symm
  | cons w ws ih =>
    rw [ih h.2, List.flatMap_cons, List.length_append]
    omega

def Write.Within (size : Nat) (w : Write) : Prop := w.off + w.bytes.length ≤ size

instance (size : Nat) (w : Write) : Decidable (w.Within size) := Nat.decLe _ _

theorem Consecutive.within {off fin : Nat} {ws : List Write} (h : Consecutive off ws fin) :
    ∀ w ∈ ws, w.Within fin := by
  induction ws generalizing off with
  | nil => simp
  | cons v ws ih =>
    intro w hw
    rcases List.mem_cons.1 hw with rfl | hw
    · have := h.2.fin_eq
      have := h.1
      unfold Write.Within
      omega
    · exact ih h.2 w hw

/-- **Consecutive writes leave their concatenation.** -/
theorem runWrites_consecutive {off fin : Nat} {ws : List Write} (buf : Bytes)
    (h : Consecutive off ws fin) (hfin : fin ≤ buf.length) :
    runWrites buf ws = buf.take off ++ ws.flatMap Write.bytes ++ buf.drop fin := by
  induction ws generalizing off buf with
  | nil =>
    have : off = fin := h
    subst this
    simp [runWrites]
  | cons w ws ih =>
    obtain ⟨hoff, hws⟩ := h
    have hmid : off + w.bytes.length ≤ buf.length := by have := hws.fin_eq; omega
    have hle : off + w.bytes.length ≤ fin := by have := hws.fin_eq; omega
    have hdrop : (overlay buf off w.bytes).drop fin = buf.drop fin := by
      obtain ⟨k, rfl⟩ := Nat.exists_eq_add_of_le hle
      rw [← List.drop_drop, drop_overlay _ _ _ hmid, List.drop_drop]
    have hstep : runWrites buf (w :: ws) = runWrites (overlay buf off w.bytes) ws := by
      rw [← hoff]; rfl
    rw [hstep, ih _ hws (by simpa using hfin), take_overlay _ _ _ hmid, hdrop, List.flatMap_cons]
    simp only [List.append_assoc]

theorem take_runWrites_consecutive {fin : Nat} {ws : List Write} (buf : Bytes)
    (h : Consecutive 0 ws fin) (hfin : fin ≤ buf.length) :
    (runWrites buf ws).take fin = ws.flatMap Write.bytes := by
  have hlen : fin = (ws.flatMap Write.bytes).length := by rw [h.fin_eq, Nat.zero_add]
  rw [runWrites_consecutive buf h hfin, List.take_zero, List.nil_append, hlen, List.take_left]

end DiamondApparatus.Lib
