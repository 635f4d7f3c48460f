import DiamondApparatus.Data.RoundTrip

/-!
# What was decoded

Nothing here asks who wrote the message: string items may hold zero bytes, the name length may point
anywhere, and bytes may follow the last item.

* `readDatum_eq_ok` : the bytes of an item that was read;
* `readItems_append` : the reader does not look behind what it has read;
* `Decodes p n d` : a message with the name `n` and the items `d`; `Decodes.retype`, `Decodes.append` :
  so it stays with another type, and with other memory behind it;
* `Decodes.loadable` : decoded items, encoded again, can be decoded again.
-/

namespace DiamondApparatus
open Lib

theorem readString_eq_ok {len : UInt32} {p q : Bytes} {i : Datum} :
    readString len p = .ok (i, q) ↔
      ∃ s, p = s ++ q ∧ s.length = len.toNat ∧ len.toNat < 2 ^ 31 - 1 ∧ i = .string (CString.cut s) := by
  unfold readString
  constructor
  · intro h
    split at h
    · cases h
    · next hlen =>
      split at h
      · cases h
      · next hlast =>
        simp only [Except.ok.injEq, Prod.mk.injEq] at h
        obtain ⟨rfl, rfl⟩ := h
        refine ⟨p.take len.toNat, (List.take_append_drop _ _).symm, ?_, by omega, rfl⟩
        rw [List.length_take]
        omega
  · rintro ⟨s, rfl, hs, hlen, rfl⟩
    rw [if_neg (by rw [List.length_append]; omega), if_neg (by omega), ← hs, List.take_left,
      List.drop_left]

/-- **An item was read** exactly when the cursor starts with its type, and the word or the length and
the bytes. -/
theorem readDatum_eq_ok {p q : Bytes} {i : Datum} :
    readDatum p = .ok (i, q) ↔
      (∃ f, p = dtFloat :: (be32 f ++ q) ∧ i = .float f) ∨
      ∃ len s, p = dtString :: (be32 len ++ (s ++ q)) ∧ s.length = len.toNat ∧
        len.toNat < 2 ^ 31 - 1 ∧ i = .string (CString.cut s) := by
  have hne : dtString ≠ dtFloat := by decide
  constructor
  · intro h
    cases p with
    | nil => cases h
    | cons t p =>
      simp only [readDatum] at h
      split at h
      · next ht =>
        split at h
        · cases h
        · next f r hf =>
          simp only [Except.ok.injEq, Prod.mk.injEq] at h
          obtain ⟨rfl, rfl⟩ := h
          exact Or.inl ⟨f, by rw [ht, takeU32_eq_some.1 hf], rfl⟩
      split at h
      · next ht =>
        split at h
        · cases h
        · next len r hlen =>
          obtain ⟨s, rfl, hs, hlt, rfl⟩ := readString_eq_ok.1 h
          exact Or.inr ⟨len, s, by rw [ht, takeU32_eq_some.1 hlen], hs, hlt, rfl⟩
      · cases h
  · rintro (⟨f, rfl, rfl⟩ | ⟨len, s, rfl, hs, hlt, rfl⟩)
    · simp [readDatum]
    · simp only [readDatum, if_neg hne, if_true, takeU32_be32]
      exact readString_eq_ok.2 ⟨s, rfl, hs, hlt, rfl⟩

theorem readDatum_append {p q : Bytes} {i : Datum} (h : readDatum p = .ok (i, q)) (tail : Bytes) :
    readDatum (p ++ tail) = .ok (i, q ++ tail) := by
  rw [readDatum_eq_ok] at h ⊢
  rcases h with ⟨f, rfl, rfl⟩ | ⟨len, s, rfl, hs, hlt, rfl⟩
  · exact Or.inl ⟨f, by simp, rfl⟩
  · exact Or.inr ⟨len, s, by simp, hs, hlt, rfl⟩

theorem size_of_readDatum {p q : Bytes} {i : Datum} (h : readDatum p = .ok (i, q)) :
    i.size ≤ Datum.maxSize := by
  unfold Datum.maxSize
  rcases readDatum_eq_ok.1 h with ⟨f, rfl, rfl⟩ | ⟨len, s, rfl, hs, hlt, rfl⟩
  · simp [Datum.size]
  · have hcut : (CString.cut s).length ≤ s.length := (List.takeWhile_prefix _).length_le
    rw [Datum.size]
    omega

theorem readItems_succ {k : Nat} {acc d : List Datum} {p q : Bytes}
    (h : readItems (k + 1) acc p = (d, .ok q)) :
    ∃ i r, readDatum p = .ok (i, r) ∧ readItems k (acc ++ [i]) r = (d, .ok q) := by
  rw [readItems] at h
  split at h
  · cases h
  · next i r hi => exact ⟨i, r, hi, h⟩

/-- The item loop does not look behind the cursor that it ends at. -/
theorem readItems_append {k : Nat} {acc d : List Datum} {p q : Bytes}
    (h : readItems k acc p = (d, .ok q)) (tail : Bytes) :
    readItems k acc (p ++ tail) = (d, .ok (q ++ tail)) := by
  induction k generalizing acc p with
  | zero =>
    simp only [readItems, Prod.mk.injEq, Except.ok.injEq] at h ⊢
    exact ⟨h.1, by rw [h.2]⟩
  | succ k ih =>
    obtain ⟨i, r, hi, hrest⟩ := readItems_succ h
    rw [readItems, readDatum_append hi]
    exact ih hrest

theorem items_of_readItems {k : Nat} {acc d : List Datum} {p q : Bytes}
    (h : readItems k acc p = (d, .ok q)) :
    d.length = acc.length + k ∧ ∀ i ∈ d, i ∈ acc ∨ i.size ≤ Datum.maxSize := by
  induction k generalizing acc p with
  | zero =>
    simp only [readItems, Prod.mk.injEq] at h
    rw [← h.1]
    exact ⟨rfl, fun i hi => Or.inl hi⟩
  | succ k ih =>
    obtain ⟨i, r, hi, hrest⟩ := readItems_succ h
    obtain ⟨hlen, hitems⟩ := ih hrest
    refine ⟨by rw [hlen, List.length_append, List.length_singleton]; omega, fun j hj => ?_⟩
    rcases hitems j hj with hacc | hsize
    · rw [List.mem_append, List.mem_singleton] at hacc
      rcases hacc with hacc | rfl
      · exact Or.inl hacc
      · exact Or.inr (size_of_readDatum hi)
    · exact Or.inr hsize

/-! ## Messages -/

theorem nameOfMsg_eq_ok {p : Bytes} {n : CString} :
    nameOfMsg p = .ok n ↔ CString.ofMem (getNameFromMsg p) = some n := by
  unfold nameOfMsg
  cases CString.ofMem (getNameFromMsg p) <;> simp

/-- A name can be read only behind the fixed header. -/
theorem header_of_nameOfMsg {p : Bytes} {n : CString} (h : nameOfMsg p = .ok n) :
    ∃ type count namelen q, p = be32 type ++ (be32 count ++ namelen :: (n.mem ++ q)) := by
  obtain ⟨q, hq⟩ := CString.ofMem_eq_some.1 (nameOfMsg_eq_ok.1 h)
  have hlen : 9 ≤ p.length := by
    by_contra hshort
    rw [getNameFromMsg, List.drop_of_length_le (by omega)] at hq
    simp [CString.mem] at hq
  obtain ⟨type, p, rfl⟩ := exists_be32_append (show 4 ≤ p.length by omega)
  rw [List.length_append, length_be32] at hlen
  obtain ⟨count, p, rfl⟩ := exists_be32_append (show 4 ≤ p.length by omega)
  cases p with
  | nil => simp at hlen
  | cons namelen p =>
    have hp : p = n.mem ++ q := hq
    exact ⟨type, count, namelen, q, by rw [hp]⟩

theorem fromMessage_be32 (t : Topic) (type count : UInt32) (namelen : UInt8) (p : Bytes) :
    t.fromMessage (be32 type ++ (be32 count ++ namelen :: p)) false =
      ({ t with d := (readItems count.toNat [] (p.drop namelen.toNat)).1 },
        (readItems count.toNat [] (p.drop namelen.toNat)).2.map fun q => ⟨[], q⟩) := by
  simp [Topic.fromMessage, readHeader]

/-- **A topic message that decodes within its bounds**: the name `n` and the items `d`. -/
structure Decodes (p : Bytes) (n : CString) (d : List Datum) : Prop where
  name : nameOfMsg p = .ok n
  items : ∃ l, Topic.fromMessage {} p false = ({ d := d }, .ok l)

theorem Decodes.unique {p : Bytes} {n n' : CString} {d d' : List Datum} (h : Decodes p n d)
    (h' : Decodes p n' d') : d = d' := by
  obtain ⟨l, hl⟩ := h.items
  obtain ⟨l', hl'⟩ := h'.items
  rw [hl, Prod.mk.injEq, Topic.mk.injEq] at hl'
  exact hl'.1.1

theorem readItems_of_fromMessage {p q : Bytes} {type count : UInt32} {namelen : UInt8} {d : List Datum}
    {l : Loaded} (hhead : readHeader p = .ok (type, count, namelen, q))
    (h : Topic.fromMessage {} p false = ({ d := d }, .ok l)) :
    readItems count.toNat [] (q.drop namelen.toNat) = (d, .ok l.cursor) := by
  simp only [Topic.fromMessage, hhead, Bool.false_eq_true, false_and, if_false, Prod.mk.injEq,
    Topic.mk.injEq, and_true] at h
  obtain ⟨hd, hr⟩ := h
  refine Prod.ext hd ?_
  cases hres : (readItems count.toNat [] (q.drop namelen.toNat)).2 with
  | error e =>
    rw [hres] at hr
    cases hr
  | ok r =>
    rw [hres] at hr
    rw [← Except.ok.inj hr]

theorem Decodes.header {p : Bytes} {n : CString} {d : List Datum} (h : Decodes p n d) :
    ∃ type count namelen q r, p = be32 type ++ (be32 count ++ namelen :: (n.mem ++ q)) ∧
      readItems count.toNat [] ((n.mem ++ q).drop namelen.toNat) = (d, .ok r) := by
  obtain ⟨type, count, namelen, q, rfl⟩ := header_of_nameOfMsg h.name
  obtain ⟨l, hl⟩ := h.items
  have hhead : readHeader (be32 type ++ (be32 count ++ namelen :: (n.mem ++ q))) =
      .ok (type, count, namelen, n.mem ++ q) := by
    simp [readHeader]
  exact ⟨type, count, namelen, q, l.cursor, rfl, readItems_of_fromMessage hhead hl⟩

theorem decodes_of_header {n : CString} {d : List Datum} {count : UInt32} {namelen : UInt8}
    {q r : Bytes} (h : readItems count.toNat [] ((n.mem ++ q).drop namelen.toNat) = (d, .ok r))
    (type : UInt32) : Decodes (be32 type ++ (be32 count ++ namelen :: (n.mem ++ q))) n d where
  name := nameOfMsg_eq_ok.2 (CString.ofMem_eq_some.2 ⟨q, by simp [getNameFromMsg, be32]⟩)
  items := ⟨⟨[], r⟩, by rw [fromMessage_be32, h]; rfl⟩

/-- Neither reader looks at the type of the message, or behind its end. -/
theorem Decodes.retype {p : Bytes} {n : CString} {d : List Datum} (h : Decodes p n d) (type : UInt32)
    (tail : Bytes) : Decodes (be32 type ++ p.drop 4 ++ tail) n d := by
  obtain ⟨type', count, namelen, q, r, rfl, hr⟩ := h.header
  have hmem : be32 type ++ (be32 type' ++ (be32 count ++ namelen :: (n.mem ++ q))).drop 4 ++ tail =
      be32 type ++ (be32 count ++ namelen :: (n.mem ++ (q ++ tail))) := by
    simp [be32]
  rw [hmem]
  have hdrop : ∃ r', readItems count.toNat [] ((n.mem ++ (q ++ tail)).drop namelen.toNat) = (d, .ok r') := by
    by_cases hlong : namelen.toNat ≤ (n.mem ++ q).length
    · refine ⟨r ++ tail, ?_⟩
      rw [← List.append_assoc, List.drop_append_of_le_length hlong]
      exact readItems_append hr tail
    · -- the name length points behind the packet: there are no items to read
      have hnil : (n.mem ++ q).drop namelen.toNat = [] := List.drop_of_length_le (by omega)
      rw [hnil] at hr
      cases hcount : count.toNat with
      | zero =>
        rw [hcount] at hr
        exact ⟨_, by rw [readItems, (Prod.mk.inj hr).1]⟩
      | succ k =>
        rw [hcount] at hr
        obtain ⟨i, r', hi, -⟩ := readItems_succ hr
        cases hi
  obtain ⟨r', hr'⟩ := hdrop
  exact decodes_of_header hr' type

theorem Decodes.append {p : Bytes} {n : CString} {d : List Datum} (h : Decodes p n d) (tail : Bytes) :
    Decodes (p ++ tail) n d := by
  obtain ⟨type, count, namelen, q, r, hp, -⟩ := h.header
  have hsame : be32 type ++ p.drop 4 = p := by
    rw [hp]
    simp [be32]
  exact hsame ▸ h.retype type tail

/-- **Decoded items can be sent again.** -/
theorem Decodes.loadable {p : Bytes} {n : CString} {d : List Datum} (h : Decodes p n d) : Loadable d := by
  obtain ⟨-, count, namelen, q, r, -, hr⟩ := h.header
  obtain ⟨hlen, hitems⟩ := items_of_readItems hr
  have hcount := count.toNat_lt
  refine ⟨?_, fun i hi => ?_⟩
  · rw [hlen, List.length_nil]
    omega
  · rcases hitems i hi with hnil | hsize
    · exact absurd hnil List.not_mem_nil
    · exact hsize

theorem Decodes.fromMessage {p : Bytes} {n : CString} {d : List Datum} (h : Decodes p n d) (t : Topic) :
    ∃ l, t.fromMessage p false = ({ t with d := d }, .ok l) := by
  obtain ⟨l, hl⟩ := h.items
  exact ⟨l, by rw [fromMessage_eq, hl]⟩

end DiamondApparatus
