import DiamondApparatus.Data.RoundTrip

/-!
# Where `toMessage` writes

The sizing pass clamps the length of the name, the filling pass copies the name with `strcpy`.

* `namelen` : the clamped length, through the `int` that `strlen` is put into. `nameLen` of
  `DiamondApparatus.Data` is the same for the names whose length an `int` holds (`namelen_eq`);
* `sizingPass`, `fillingPass` : the two passes with it, equal to `messageSize` and `fill` for those names;
* `fillItems_within` : the items, written behind the clamped name, stay within the buffer;
* `filling_within_iff` : when all writes do.
-/

namespace DiamondApparatus
open Lib

/-- `int nll = strlen(name); if(nll>128)nll=128; uint8_t namelen = nll+1;` -/
def namelen (name : CString) : UInt8 :=
  let nll := (name.length : Int).bmod (2 ^ 32)
  UInt8.ofInt ((if nll > 128 then 128 else nll) + 1)

/-- `*size` at the end of the sizing pass. -/
def sizingPass (d : List Datum) (name : CString) : Nat :=
  4 + 4 + ((namelen name).toNat + 1) + (d.map Datum.size).sum

/-- The writes of the filling pass in order, and its cursor at the end. -/
def fillingPass (d : List Datum) (msgtype : UInt32) (name : CString) : List Write × Nat :=
  let items := fillItems d (9 + (namelen name).toNat)
  (⟨0, be32 msgtype⟩ :: ⟨4, be32 (UInt32.ofNat d.length)⟩ :: ⟨8, [namelen name]⟩ ::
    ⟨9, name.mem⟩ :: items.1, items.2)

theorem namelen_eq {name : CString} (h : name.length < 2 ^ 31) :
    namelen name = UInt8.ofNat (nameLen name) ∧ (namelen name).toNat = nameLen name := by
  have hint : (name.length : Int).bmod (2 ^ 32) = name.length :=
    Int.bmod_eq_of_le (by omega) (by omega)
  have hclamp : (if (name.length : Int) > 128 then 128 else (name.length : Int)) + 1 =
      (nameLen name : Nat) := by
    unfold nameLen
    split <;> omega
  have heq : namelen name = UInt8.ofNat (nameLen name) := by
    unfold namelen UInt8.ofInt
    dsimp only
    rw [hint, hclamp]
    apply UInt8.toNat_inj.mp
    rw [UInt8.toNat_ofNat', UInt8.toNat_ofNat']
    omega
  refine ⟨heq, ?_⟩
  rw [heq, UInt8.toNat_ofNat', Nat.mod_eq_of_lt (by unfold nameLen; omega)]

theorem passes_eq {name : CString} (h : name.length < 2 ^ 31) (d : List Datum) (msgtype : UInt32) :
    sizingPass d name = messageSize d name ∧ fillingPass d msgtype name = fill d msgtype name := by
  obtain ⟨hbyte, hlen⟩ := namelen_eq h
  constructor
  · rw [sizingPass, messageSize, hlen]
  · simp only [fillingPass, fill, hlen]
    rw [hbyte]

/-! ## The cursor -/

theorem fillItems_within (d : List Datum) (p : Nat) :
    ∀ w ∈ (fillItems d p).1, w.Within (p + (d.map Datum.size).sum) := by
  rw [← fillItems_snd]
  exact (fillItems_consecutive d p).1.within

theorem sizingPass_eq (d : List Datum) (name : CString) :
    sizingPass d name = 9 + (namelen name).toNat + (d.map Datum.size).sum := by
  rw [sizingPass]
  omega

/-- The two passes agree about where the message ends. -/
theorem fillingPass_snd (d : List Datum) (msgtype : UInt32) (name : CString) :
    (fillingPass d msgtype name).2 = sizingPass d name := by
  rw [sizingPass_eq]
  exact fillItems_snd d _

/-- Only `strcpy` can leave the buffer. -/
theorem fillingPass_within_of_ne (d : List Datum) (msgtype : UInt32) (name : CString) :
    ∀ w ∈ (fillingPass d msgtype name).1, w ≠ ⟨9, name.mem⟩ → w.Within (sizingPass d name) := by
  intro w hw hne
  rw [sizingPass_eq]
  simp only [fillingPass, List.mem_cons] at hw
  rcases hw with rfl | rfl | rfl | rfl | hw
  · show 0 + 4 ≤ _
    omega
  · show 4 + 4 ≤ _
    omega
  · show 8 + 1 ≤ _
    omega
  · exact absurd rfl hne
  · exact fillItems_within d _ w hw

theorem fillingPass_within_iff (d : List Datum) (msgtype : UInt32) (name : CString) :
    (∀ w ∈ (fillingPass d msgtype name).1, w.Within (sizingPass d name)) ↔
      name.length + 1 ≤ (namelen name).toNat + (d.map Datum.size).sum := by
  have hname : Write.Within (sizingPass d name) ⟨9, name.mem⟩ ↔
      name.length + 1 ≤ (namelen name).toNat + (d.map Datum.size).sum := by
    rw [Write.Within, sizingPass_eq, CString.length_mem]
    show 9 + _ ≤ _ ↔ _
    omega
  rw [← hname]
  constructor
  · intro h
    exact h _ (by simp [fillingPass])
  · intro h w hw
    by_cases he : w = ⟨9, name.mem⟩
    · exact he ▸ h
    · exact fillingPass_within_of_ne d msgtype name w hw he

/-- **When `toMessage` stays inside its buffer**: a name of more than 128 bytes may be longer than that
by no more bytes than the items have. The cursor ends behind the last byte of the buffer in any case. -/
theorem filling_within_iff (t : Topic) (msgtype : UInt32) (name : CString)
    (hsize : sizingPass t.d name < 2 ^ 31) :
    ((∀ w ∈ (fillingPass t.d msgtype name).1, w.Within (sizingPass t.d name)) ∧
        (fillingPass t.d msgtype name).2 = sizingPass t.d name ↔
      name.length < 2 ^ 31 ∧ name.length ≤ 128 + (t.d.map Datum.size).sum) ∧
    (fillingPass t.d msgtype name).2 = sizingPass t.d name ∧
    ∀ w ∈ (fillingPass t.d msgtype name).1, ¬ w.Within (sizingPass t.d name) → w = ⟨9, name.mem⟩ := by
  have hend := fillingPass_snd t.d msgtype name
  refine ⟨?_, hend, fun w hw hout => ?_⟩
  · rw [and_iff_left hend, fillingPass_within_iff]
    rw [sizingPass_eq] at hsize
    by_cases hlong : name.length < 2 ^ 31
    · rw [(namelen_eq hlong).2, and_iff_right hlong, nameLen]
      omega
    · omega
  · by_contra hne
    exact hout (fillingPass_within_of_ne t.d msgtype name w hw hne)

def longName (n : Nat) : CString := ⟨List.replicate n 110, by simp⟩

theorem filling_within_iff_room :
    (∀ w ∈ (fillingPass [.float 0] 1 (longName 133)).1, w.Within (sizingPass [.float 0] (longName 133))) ∧
      (fillingPass [.float 0] 1 (longName 133)).2 = sizingPass [.float 0] (longName 133) :=
  (filling_within_iff { d := [.float 0] } 1 (longName 133) (by decide +kernel)).1.2 (by decide +kernel)

/-- The terminator of a name of 129 bytes lands behind the buffer when there are no items. -/
theorem longName_overruns : sizingPass [] (longName 129) < 2 ^ 31 ∧
    ¬ ∀ w ∈ (fillingPass [] 1 (longName 129)).1, w.Within (sizingPass [] (longName 129)) := by
  decide +kernel

end DiamondApparatus
