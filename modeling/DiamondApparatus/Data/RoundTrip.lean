import DiamondApparatus.Data
import Mathlib.Algebra.Order.BigOperators.Group.List
import Mathlib.Algebra.Order.Ring.Nat

/-!
# Decoding a topic message undoes encoding it

* `message` : the layout of a topic message, as a concatenation of its fields; `layout` : the same for
  a name of any length, of which the items leave `nameLen` bytes;
* `runWrites_fill_layout`, `toMessage_eq` : the writes of `toMessage` leave `layout` in the buffer,
  whatever was in the fresh memory, and with a name of at most 128 bytes that is `message`;
* `Loadable` : the items that a message can carry. `readItems_encode` : the item loop reads the encoded
  items back, by induction on the items;
* `fromMessage_message`, `nameOfMsg_message` : the two readers on a message followed by anything.
-/

namespace DiamondApparatus
open Lib

def Datum.encode : Datum → Bytes
  | .float f => dtFloat :: be32 f
  | .string s => dtString :: (be32 (UInt32.ofNat s.length) ++ s.bytes)

/-- A topic message, field by field. -/
def message (d : List Datum) (msgtype : UInt32) (name : CString) : Bytes :=
  be32 msgtype ++ (be32 (UInt32.ofNat d.length) ++
    (UInt8.ofNat (name.length + 1) :: (name.mem ++ d.flatMap Datum.encode)))

/-- A topic message for a name of any length: the items start where the clamped name ends. -/
def layout (d : List Datum) (msgtype : UInt32) (name : CString) : Bytes :=
  be32 msgtype ++ (be32 (UInt32.ofNat d.length) ++
    (UInt8.ofNat (nameLen name) :: (name.mem.take (nameLen name) ++ d.flatMap Datum.encode)))

/-! ## The filling pass -/

theorem nameLen_eq {name : CString} (hname : name.length ≤ 128) : nameLen name = name.length + 1 := by
  rw [nameLen, Nat.min_eq_left hname]

@[simp] theorem length_encode (i : Datum) : i.encode.length = i.size := by
  cases i with
  | float f => simp [Datum.encode, Datum.size]
  | string s => simp [Datum.encode, Datum.size, CString.length]; omega

theorem five_le_size (i : Datum) : 5 ≤ i.size := by
  cases i <;> simp only [Datum.size] <;> omega

theorem length_flatMap_encode (d : List Datum) :
    (d.flatMap Datum.encode).length = (d.map Datum.size).sum := by
  rw [List.length_flatMap]
  simp

theorem fill_consecutive (i : Datum) (p : Nat) :
    Consecutive p (i.fill p) (p + i.size) ∧ (i.fill p).flatMap Write.bytes = i.encode := by
  cases i with
  | float f => simp [Datum.fill, Datum.size, Datum.encode, Consecutive]
  | string s => simp [Datum.fill, Datum.size, Datum.encode, Consecutive, CString.length]; omega

theorem fillItems_consecutive (d : List Datum) (p : Nat) :
    Consecutive p (fillItems d p).1 (fillItems d p).2 ∧
      (fillItems d p).1.flatMap Write.bytes = d.flatMap Datum.encode := by
  induction d generalizing p with
  | nil => exact ⟨rfl, rfl⟩
  | cons i d ih =>
    obtain ⟨hi, hbytes⟩ := fill_consecutive i p
    obtain ⟨hd, hrest⟩ := ih (p + i.size)
    refine ⟨hi.append hd, ?_⟩
    rw [fillItems, List.flatMap_append, hbytes, hrest, List.flatMap_cons]

theorem fillItems_snd (d : List Datum) (p : Nat) :
    (fillItems d p).2 = p + (d.map Datum.size).sum := by
  obtain ⟨hd, hbytes⟩ := fillItems_consecutive d p
  rw [hd.fin_eq, hbytes, length_flatMap_encode]

theorem take_mem {name : CString} (hname : name.length ≤ 128) :
    name.mem.take (nameLen name) = name.mem := by
  rw [nameLen_eq hname, ← CString.length_mem, List.take_length]

theorem layout_eq_message (d : List Datum) (msgtype : UInt32) {name : CString}
    (hname : name.length ≤ 128) : layout d msgtype name = message d msgtype name := by
  rw [layout, take_mem hname, nameLen_eq hname, message]

theorem length_take_mem (name : CString) : (name.mem.take (nameLen name)).length = nameLen name := by
  rw [List.length_take, CString.length_mem, nameLen]
  omega

@[simp] theorem length_toMessage (t : Topic) (msgtype : UInt32) (name : CString) :
    (t.toMessage msgtype name).length = messageSize t.d name := by
  simp [Topic.toMessage]

/-- **The filling pass leaves `layout` in the buffer**, whatever `malloc` returned: the items are
written behind the clamped name, over what `strcpy` put there. -/
theorem runWrites_fill_layout (d : List Datum) (msgtype : UInt32) (name : CString) (buf : Bytes)
    (hbuf : buf.length = messageSize d name) :
    runWrites buf (fill d msgtype name).1 = layout d msgtype name := by
  have hsize : messageSize d name = 9 + nameLen name + (d.map Datum.size).sum := by
    rw [messageSize]; omega
  have hnameLen : nameLen name ≤ name.mem.length := by
    rw [CString.length_mem, nameLen]; omega
  let head : List Write := [⟨0, be32 msgtype⟩, ⟨4, be32 (UInt32.ofNat d.length)⟩,
    ⟨8, [UInt8.ofNat (nameLen name)]⟩]
  have hhead : Consecutive 0 head 9 := ⟨rfl, rfl, rfl, rfl⟩
  obtain ⟨hitems, hbytes⟩ := fillItems_consecutive d (9 + nameLen name)
  have hend : (fillItems d (9 + nameLen name)).2 = messageSize d name := by
    rw [fillItems_snd, hsize]
  have hfill : runWrites buf (fill d msgtype name).1 =
      runWrites (overlay (runWrites buf head) 9 name.mem) (fillItems d (9 + nameLen name)).1 := rfl
  rw [hend] at hitems
  rw [hfill, runWrites_consecutive _ hitems (by simp [hbuf]),
    take_overlay_add _ _ _ _ hnameLen (by rw [length_runWrites]; omega),
    take_runWrites_consecutive buf hhead (by omega), hbytes, List.drop_eq_nil_of_le (by simp [hbuf])]
  simp [head, layout]

theorem toMessage_layout (t : Topic) (msgtype : UInt32) (name : CString) :
    t.toMessage msgtype name = layout t.d msgtype name :=
  runWrites_fill_layout t.d msgtype name _ (by simp)

/-- `toMessage` returns the message where `*size` holds its length, and nothing elsewhere. -/
theorem toMessageInt_eq_ok {t : Topic} {msgtype : UInt32} {name : CString} {p : Bytes} :
    t.toMessageInt msgtype name = .ok p ↔ IntSized t.d name ∧ p = t.toMessage msgtype name := by
  rw [IntSized, ← intOf_fits_iff, Topic.toMessageInt]
  split_ifs with hneg hsmall
  · simp [hneg]
  · simp [hsmall]
  · rw [Except.ok.injEq, eq_comm (a := p)]
    exact (and_iff_right ⟨hneg, hsmall⟩).symm

/-- The first sizes that an `int` does not hold are negative in it. -/
theorem toMessageInt_null {t : Topic} {name : CString} (hlow : 2 ^ 31 ≤ messageSize t.d name)
    (hhigh : messageSize t.d name < 2 ^ 32) (msgtype : UInt32) :
    t.toMessageInt msgtype name = .error .nullPointer := by
  have hneg := intOf_neg hlow hhigh
  simp only [Topic.toMessageInt, hneg, if_true]

theorem runWrites_fill (d : List Datum) (msgtype : UInt32) {name : CString}
    (hname : name.length ≤ 128) (buf : Bytes) (hbuf : buf.length = messageSize d name) :
    runWrites buf (fill d msgtype name).1 = message d msgtype name := by
  rw [runWrites_fill_layout d msgtype name buf hbuf, layout_eq_message d msgtype hname]

theorem toMessage_eq (t : Topic) (msgtype : UInt32) {name : CString} (hname : name.length ≤ 128) :
    t.toMessage msgtype name = message t.d msgtype name :=
  runWrites_fill t.d msgtype hname _ (by simp)

theorem length_message (d : List Datum) (msgtype : UInt32) {name : CString} (hname : name.length ≤ 128) :
    (message d msgtype name).length = messageSize d name := by
  rw [← toMessage_eq { d := d } msgtype hname, length_toMessage]

/-! ## The cursor walk -/

/-- The size of the longest item that `readString` allows: a string of `2 ^ 31 - 2` bytes. -/
def Datum.maxSize : Nat := 2 ^ 31 + 3

/-- Items that a message can carry: no more than its count word says, each of a size that
`fromMessage` reads. -/
structure Loadable (d : List Datum) : Prop where
  count : d.length < 2 ^ 32
  items : ∀ i ∈ d, i.size ≤ Datum.maxSize

theorem readDatum_encode (i : Datum) (h : i.size ≤ Datum.maxSize) (p : Bytes) :
    readDatum (i.encode ++ p) = .ok (i, p) := by
  cases i with
  | float f => simp [Datum.encode, readDatum]
  | string s =>
    have hlen : s.bytes.length + 1 < 2 ^ 31 := by
      simp only [Datum.size, Datum.maxSize, CString.length] at h; omega
    have hto : (UInt32.ofNat s.length).toNat = s.bytes.length := by
      rw [UInt32.toNat_ofNat', CString.length, Nat.mod_eq_of_lt (by omega)]
    have hne : dtString ≠ dtFloat := by decide
    simp only [Datum.encode, List.cons_append, List.append_assoc, readDatum, if_neg hne, if_true,
      takeU32_be32, readString, hto]
    rw [if_neg (by rw [List.length_append]; omega), if_neg (by omega), List.take_left, List.drop_left,
      CString.cut_bytes]

/-- **The item loop reads the encoded items back**, and stops behind them. -/
theorem readItems_encode (d : List Datum) (h : ∀ i ∈ d, i.size ≤ Datum.maxSize) (acc : List Datum)
    (p : Bytes) : readItems d.length acc (d.flatMap Datum.encode ++ p) = (acc ++ d, .ok p) := by
  induction d generalizing acc with
  | nil => simp [readItems]
  | cons i d ih =>
    have hi : i.size ≤ Datum.maxSize := h i (by simp)
    have hd : ∀ j ∈ d, j.size ≤ Datum.maxSize := fun j hj => h j (by simp [hj])
    simp only [List.length_cons, readItems, List.flatMap_cons, List.append_assoc,
      readDatum_encode i hi, ih hd]
    simp

theorem size_le_messageSize {d : List Datum} {i : Datum} (hi : i ∈ d) (name : CString) :
    i.size ≤ messageSize d name := by
  have : i.size ≤ (d.map Datum.size).sum :=
    List.single_le_sum (fun _ _ => Nat.zero_le _) _ (List.mem_map_of_mem hi)
  rw [messageSize]
  omega

theorem length_le_messageSize (d : List Datum) (name : CString) :
    5 * d.length ≤ messageSize d name := by
  have h : 5 * d.length ≤ (d.map Datum.size).sum := by
    induction d with
    | nil => simp
    | cons i d ih =>
      have := five_le_size i
      simp only [List.length_cons, List.map_cons, List.sum_cons]
      omega
  rw [messageSize]
  omega

theorem loadable_of_messageSize {d : List Datum} {name : CString} (h : IntSized d name) :
    Loadable d where
  count := by have := length_le_messageSize d name; omega
  items i hi := by have := size_le_messageSize hi name; unfold Datum.maxSize; omega

theorem readHeader_layout (d : List Datum) (msgtype : UInt32) (name : CString) (tail : Bytes) :
    readHeader (layout d msgtype name ++ tail) =
      .ok (msgtype, UInt32.ofNat d.length, UInt8.ofNat (nameLen name),
        name.mem.take (nameLen name) ++ (d.flatMap Datum.encode ++ tail)) := by
  simp [readHeader, layout]

theorem takeU32_message (d : List Datum) (msgtype : UInt32) (name : CString) (tail : Bytes) :
    takeU32 (message d msgtype name ++ tail) =
      some (msgtype, (message d msgtype name ++ tail).drop 4) := by
  rw [takeU32_eq_some]
  simp [message, be32]

theorem nameOfMsg_message (d : List Datum) (msgtype : UInt32) (name : CString) (tail : Bytes) :
    nameOfMsg (message d msgtype name ++ tail) = .ok name := by
  have hdrop : getNameFromMsg (message d msgtype name ++ tail) =
      name.mem ++ (d.flatMap Datum.encode ++ tail) := by
    simp [getNameFromMsg, message, be32]
  rw [nameOfMsg, hdrop, CString.ofMem_mem_append]

/-- `fromMessage` does not look at the topic it is called on, except to keep its other fields. -/
theorem fromMessage_eq (t : Topic) (mem : Bytes) (namebuf : Bool) :
    t.fromMessage mem namebuf =
      ({ t with d := (Topic.fromMessage {} mem namebuf).1.d }, (Topic.fromMessage {} mem namebuf).2) := by
  unfold Topic.fromMessage
  split
  · rfl
  · split <;> rfl

/-- `fromMessage` skips as much of the name as the message has. -/
theorem fromMessage_layout (t : Topic) {d : List Datum} (hd : Loadable d) (msgtype : UInt32)
    (name : CString) (namebuf : Bool) (tail : Bytes) :
    t.fromMessage (layout d msgtype name ++ tail) namebuf =
      ({ t with d := d }, .ok ⟨if namebuf then name.mem.take (nameLen name) ++ [0] else [], tail⟩) := by
  have hcount : (UInt32.ofNat d.length).toNat = d.length := by
    rw [UInt32.toNat_ofNat', Nat.mod_eq_of_lt hd.count]
  have hlen : (UInt8.ofNat (nameLen name)).toNat = (name.mem.take (nameLen name)).length := by
    rw [length_take_mem, UInt8.toNat_ofNat', Nat.mod_eq_of_lt (by rw [nameLen]; omega)]
  have hshort : ¬ (namebuf = true ∧
      (name.mem.take (nameLen name) ++ (d.flatMap Datum.encode ++ tail)).length <
        (name.mem.take (nameLen name)).length) := by
    rw [List.length_append]; omega
  rw [Topic.fromMessage, readHeader_layout]
  simp only [hcount, hlen, if_neg hshort, List.take_left, List.drop_left,
    readItems_encode d hd.items]
  rfl

/-- **`fromMessage` on a message followed by anything**: the items, the name, and the cursor at the
message's end. -/
theorem fromMessage_message (t : Topic) (d : List Datum) (msgtype : UInt32) {name : CString}
    (hname : name.length ≤ 128) (hsize : IntSized d name) (namebuf : Bool)
    (tail : Bytes) :
    t.fromMessage (message d msgtype name ++ tail) namebuf =
      ({ t with d := d }, .ok ⟨if namebuf then name.mem ++ [0] else [], tail⟩) := by
  rw [← layout_eq_message d msgtype hname, fromMessage_layout t (loadable_of_messageSize hsize),
    take_mem hname]

/-- **Decoding undoes encoding**: whatever the fresh buffer held, whatever the receiving topic held
and whatever lies behind the message in memory. -/
theorem fromMessage_toMessage (src t : Topic) (msgtype : UInt32) (name : CString)
    (hname : name.length ≤ 128) (hsize : IntSized src.d name) (fresh tail : Bytes)
    (hfresh : fresh.length = messageSize src.d name) :
    let buf := runWrites fresh (fill src.d msgtype name).1
    buf = src.toMessage msgtype name ∧ buf.length = messageSize src.d name ∧
      t.fromMessage (buf ++ tail) false = ({ t with d := src.d }, .ok ⟨[], tail⟩) ∧
      (∃ namebuf, t.fromMessage (buf ++ tail) true = ({ t with d := src.d }, .ok ⟨namebuf, tail⟩) ∧
        CString.ofMem namebuf = some name) ∧
      nameOfMsg (buf ++ tail) = .ok name ∧ ∃ q, takeU32 (buf ++ tail) = some (msgtype, q) := by
  intro buf
  have hbuf : buf = message src.d msgtype name := runWrites_fill src.d msgtype hname fresh hfresh
  refine ⟨?_, ?_, ?_, ⟨name.mem ++ [0], ?_, ?_⟩, ?_, ?_⟩
  · rw [hbuf, toMessage_eq src msgtype hname]
  · rw [← hfresh, length_runWrites]
  · rw [hbuf, fromMessage_message t src.d msgtype hname hsize false tail]; rfl
  · rw [hbuf, fromMessage_message t src.d msgtype hname hsize true tail]; rfl
  · exact CString.ofMem_mem_append name [0]
  · rw [hbuf, nameOfMsg_message]
  · exact ⟨_, hbuf ▸ takeU32_message src.d msgtype name tail⟩

/-- A topic of two items survives the round trip. -/
theorem fromMessage_toMessage_pair :
    Topic.fromMessage ⟨[.float 7], some 3, .changed⟩
        (runWrites (List.replicate 28 255)
          (fill [.float 0x3f800000, .string (.ofString "hello")] 1 (.ofString "foo")).1 ++ [9]) false =
      (⟨[.float 0x3f800000, .string (.ofString "hello")], some 3, .changed⟩, .ok ⟨[], [9]⟩) :=
  (fromMessage_toMessage ⟨[.float 0x3f800000, .string (.ofString "hello")], none, .nodata⟩
    ⟨[.float 7], some 3, .changed⟩ 1 (.ofString "foo") (by decide) (by decide)
    (List.replicate 28 255) [9] (by decide)).2.2.1

end DiamondApparatus
