import Mathlib.Data.List.TakeWhile
import Mathlib.Data.UInt

/-!
# Bytes, 32-bit words in network order, C strings

* `be32 w`, `le32 w` : the four bytes of a word, most / least significant first;
  `ofBe32`, `ofLe32` put a word together again (`ofBe32_be32`, `be32_ofBe32`, `le32_ofLe32`);
* `takeU32 p` : the word in network order at the cursor `p`, and the cursor behind it. A cursor is
  the list of the readable bytes from the pointer on; `none` is a read past them;
* `CString` : the bytes of a C string before its terminator, none of which is zero;
  `CString.ofMem p` is the C string that starts at the cursor `p`, `CString.cut` what `strdup`
  keeps of a zero-terminated buffer.
-/

namespace DiamondApparatus.Lib
open Std

abbrev Bytes := List UInt8

/-! ## Words -/

/-- The bytes of `w`, most significant first. -/
def be32 (w : UInt32) : Bytes :=
  [UInt8.ofNat (w.toNat / 2 ^ 24), UInt8.ofNat (w.toNat / 2 ^ 16), UInt8.ofNat (w.toNat / 2 ^ 8),
    UInt8.ofNat w.toNat]

/-- The bytes of `w`, least significant first. -/
def le32 (w : UInt32) : Bytes := (be32 w).reverse

def ofBe32 (a b c d : UInt8) : UInt32 :=
  UInt32.ofNat (a.toNat * 2 ^ 24 + b.toNat * 2 ^ 16 + c.toNat * 2 ^ 8 + d.toNat)

/-- The word whose bytes in memory are the first four of `m`, least significant first. -/
def ofLe32 (m : Bytes) : UInt32 :=
  ofBe32 (m.getD 3 0) (m.getD 2 0) (m.getD 1 0) (m.getD 0 0)

@[simp] theorem length_be32 (w : UInt32) : (be32 w).length = 4 := rfl

@[simp] theorem length_le32 (w : UInt32) : (le32 w).length = 4 := rfl

theorem toNat_ofBe32 (a b c d : UInt8) :
    (ofBe32 a b c d).toNat = a.toNat * 2 ^ 24 + b.toNat * 2 ^ 16 + c.toNat * 2 ^ 8 + d.toNat := by
  have ha := a.toNat_lt
  have hb := b.toNat_lt
  have hc := c.toNat_lt
  have hd := d.toNat_lt
  rw [ofBe32, UInt32.toNat_ofNat', Nat.mod_eq_of_lt (by omega)]

theorem ofBe32_be32 (w : UInt32) :
    ofBe32 (UInt8.ofNat (w.toNat / 2 ^ 24)) (UInt8.ofNat (w.toNat / 2 ^ 16))
      (UInt8.ofNat (w.toNat / 2 ^ 8)) (UInt8.ofNat w.toNat) = w := by
  have hw := w.toNat_lt
  apply UInt32.toNat_inj.mp
  simp only [toNat_ofBe32, UInt8.toNat_ofNat']
  omega

theorem be32_ofBe32 (a b c d : UInt8) : be32 (ofBe32 a b c d) = [a, b, c, d] := by
  have ha := a.toNat_lt
  have hb := b.toNat_lt
  have hc := c.toNat_lt
  have hd := d.toNat_lt
  simp only [be32, toNat_ofBe32, List.cons.injEq, and_true]
  refine ⟨?_, ?_, ?_, ?_⟩ <;> apply UInt8.toNat_inj.mp <;> rw [UInt8.toNat_ofNat'] <;> omega

theorem le32_ofLe32 (m : Bytes) (h : m.length = 4) : le32 (ofLe32 m) = m := by
  match m, h with
  | [a, b, c, d], _ => rw [le32, ofLe32, be32_ofBe32]; rfl

/-- The word in network order at the cursor, and the cursor behind it. -/
def takeU32 : Bytes → Option (UInt32 × Bytes)
  | a :: b :: c :: d :: p => some (ofBe32 a b c d, p)
  | _ => none

@[simp] theorem takeU32_be32 (w : UInt32) (p : Bytes) : takeU32 (be32 w ++ p) = some (w, p) := by
  simp only [be32, List.cons_append, List.nil_append, takeU32, ofBe32_be32]

/-- A word was read exactly when the cursor starts with its four bytes. -/
theorem takeU32_eq_some {p q : Bytes} {w : UInt32} : takeU32 p = some (w, q) ↔ p = be32 w ++ q := by
  constructor
  · intro h
    match p with
    | a :: b :: c :: d :: p =>
      simp only [takeU32, Option.some.injEq, Prod.mk.injEq] at h
      obtain ⟨rfl, rfl⟩ := h
      rw [be32_ofBe32]; rfl
  · rintro rfl
    exact takeU32_be32 w q

theorem takeU32_eq_none {p : Bytes} : takeU32 p = none ↔ p.length < 4 := by
  match p with
  | [] | [_] | [_, _] | [_, _, _] => simp [takeU32]
  | _ :: _ :: _ :: _ :: p => simp [takeU32]

theorem takeU32_append {p q : Bytes} {w : UInt32} (h : takeU32 p = some (w, q)) (r : Bytes) :
    takeU32 (p ++ r) = some (w, q ++ r) := by
  rw [takeU32_eq_some] at h ⊢
  rw [h, List.append_assoc]

theorem exists_be32_append {p : Bytes} (h : 4 ≤ p.length) : ∃ w q, p = be32 w ++ q := by
  cases hp : takeU32 p with
  | none =>
    have := takeU32_eq_none.1 hp
    omega
  | some r => exact ⟨r.1, r.2, takeU32_eq_some.1 hp⟩

/-! ## C strings -/

/-- A C string: its bytes before the terminator. -/
structure CString where
  bytes : Bytes
  nulFree : (0 : UInt8) ∉ bytes
  deriving DecidableEq

namespace CString

def length (c : CString) : Nat := c.bytes.length

/-- The string as it lies in memory, with its terminator. -/
def mem (c : CString) : Bytes := c.bytes ++ [0]

/-- The string a zero-terminated buffer holding `m` has: it ends at the first zero of `m`. -/
def cut (m : Bytes) : CString where
  bytes := m.takeWhile (· ≠ 0)
  nulFree h := by simpa using List.mem_takeWhile_imp h

/-- The C string that starts at the cursor, if a terminator can be read. -/
def ofMem (p : Bytes) : Option CString := if 0 ∈ p then some (cut p) else none

/-- A string literal of the source. -/
def ofString (s : String) : CString := cut (s.toList.map fun c => UInt8.ofNat c.toNat)

@[ext] theorem ext {a b : CString} (h : a.bytes = b.bytes) : a = b := by
  cases a; cases b; congr

@[simp] theorem length_mem (c : CString) : c.mem.length = c.length + 1 := by simp [mem, length]

theorem cut_append_zero (c : CString) (p : Bytes) : cut (c.bytes ++ 0 :: p) = c := by
  apply ext
  have hne : ∀ x ∈ c.bytes, decide (x ≠ 0) = true := by
    intro x hx
    have : x ≠ 0 := fun h => c.nulFree (h ▸ hx)
    simpa using this
  change (c.bytes ++ 0 :: p).takeWhile (· ≠ 0) = c.bytes
  rw [List.takeWhile_append_of_pos hne]
  simp

@[simp] theorem cut_bytes (c : CString) : cut c.bytes = c := by
  apply ext
  change c.bytes.takeWhile (· ≠ 0) = c.bytes
  rw [List.takeWhile_eq_self_iff]
  intro x hx
  have : x ≠ 0 := fun h => c.nulFree (h ▸ hx)
  simpa using this

@[simp] theorem ofMem_mem_append (c : CString) (p : Bytes) : ofMem (c.mem ++ p) = some c := by
  rw [ofMem, mem, List.append_assoc, List.singleton_append, if_pos (by simp), cut_append_zero]

/-- A C string was read exactly when the cursor starts with it and its terminator. -/
theorem ofMem_eq_some {p : Bytes} {c : CString} : ofMem p = some c ↔ ∃ q, p = c.mem ++ q := by
  constructor
  · intro h
    unfold ofMem at h
    split at h
    · next h0 =>
      obtain ⟨a, q, rfl, ha⟩ := List.eq_append_cons_of_mem h0
      have hc : cut (a ++ 0 :: q) = ⟨a, ha⟩ := cut_append_zero ⟨a, ha⟩ q
      rw [hc, Option.some.injEq] at h
      subst h
      exact ⟨q, by simp [mem]⟩
    · cases h
  · rintro ⟨q, rfl⟩
    exact ofMem_mem_append c q

theorem ofMem_eq_none {p : Bytes} : ofMem p = none ↔ (0 : UInt8) ∉ p := by
  simp [ofMem]

/-- A C string that starts with the bytes `m`, none of which is zero. -/
theorem ofMem_append_eq_some {m p : Bytes} (hm : (0 : UInt8) ∉ m) {c : CString} :
    ofMem (m ++ p) = some c ↔ ∃ c', ofMem p = some c' ∧ c.bytes = m ++ c'.bytes := by
  constructor
  · intro h
    have hp : 0 ∈ p := by
      by_contra hp
      rw [ofMem_eq_none.2 (by simp [hm, hp])] at h
      cases h
    obtain ⟨a, q, rfl, ha⟩ := List.eq_append_cons_of_mem hp
    have hq : m ++ (a ++ 0 :: q) = (⟨m ++ a, by simp [hm, ha]⟩ : CString).mem ++ q := by simp [mem]
    rw [hq, ofMem_mem_append, Option.some_inj] at h
    refine ⟨⟨a, ha⟩, ofMem_eq_some.2 ⟨q, by simp [mem]⟩, ?_⟩
    rw [← h]
  · rintro ⟨c', hc', hc⟩
    obtain ⟨q, rfl⟩ := ofMem_eq_some.1 hc'
    exact ofMem_eq_some.2 ⟨q, by simp [mem, hc]⟩

/-- The order of `std::string`: lexicographic on the bytes. -/
def cmp (a b : CString) : Ordering := List.compareLex compare a.bytes b.bytes

instance : TransCmp cmp where
  eq_swap {a b} := by
    show List.compareLex compare a.bytes b.bytes = (List.compareLex compare b.bytes a.bytes).swap
    exact OrientedCmp.eq_swap
  isLE_trans {a b c} hab hbc := by
    show (List.compareLex compare a.bytes c.bytes).isLE = true
    exact TransCmp.isLE_trans hab hbc

instance : LawfulEqCmp cmp where
  compare_self {a} := by
    show List.compareLex compare a.bytes a.bytes = .eq
    exact ReflCmp.compare_self
  eq_of_compare {a b} h := by
    change List.compareLex compare a.bytes b.bytes = .eq at h
    exact ext (LawfulEqCmp.eq_of_compare h)

end CString

end DiamondApparatus.Lib
