import DiamondApparatus.Data.Memory

/-!
# What the functions on topics do to the memory

* `DatumObj.Is c q` : the object `c` stands for the datum `q`, and owns the block of its string; `Cells` : the
  same of a list of them; `Lost` : objects that are gone, with their blocks;
* one specification for each function, by those of the functions it calls: `DatumObj.copy_spec`,
  `Vec.pushBack_spec`, `Vec.assignFrom_spec`, `TopicObj.fromMessage_spec`.
-/

namespace DiamondApparatus
open Lib Assertion

/-! ## What an object stands for -/

def Topic.shell (t : Topic) : Option Clock × TopicState := (t.timeLastSet, t.state)

def TopicObj.shell (t : TopicObj) : Option Clock × TopicState := (t.timeLastSet, t.state)

/-- The block of a string may be longer than the string. -/
def DatumObj.Is : DatumObj → Datum → Assertion Bytes
  | .float f, .float g => fact (f = g)
  | .string a, .string s => fun r => ∃ m, (fact (CString.ofMem m = some s) * points a m : Assertion Bytes) r
  | _, _ => fact False

/-- What the two may differ in is a contradiction. -/
theorem triple_absurd {α : Type} {φ : Prop} (h : ¬ φ) {c : Mem α} {Q : α → Assertion Bytes} :
    Triple (fact φ) c Q := by
  have hfact := Triple.of_fact (P := 1) (c := c) (Q := Q) fun hφ => absurd hφ h
  rwa [mul_one] at hfact

theorem strdup_spec {a : Addr} {m : Bytes} {s : CString} (hm : CString.ofMem m = some s) :
    Triple (points a m) (strdup a) fun b => points a m * points b s.mem := by
  refine (Triple.read a m).bind fun x => Triple.of_fact fun hx => ?_
  rw [hx, hm]
  have hframe := (Triple.alloc s.mem).frame (points a m)
  rw [one_mul] at hframe
  exact hframe.weaken fun b r hr => by rwa [mul_comm]

namespace DatumObj

theorem is_of_points {a : Addr} {m : Bytes} {s : CString} (hm : CString.ofMem m = some s) {r : Blocks Bytes}
    (h : points a m r) : Is (.string a) (.string s) r :=
  ⟨m, fact_mul.2 ⟨hm, h⟩⟩

theorem mem_ofMem (s : CString) : CString.ofMem s.mem = some s := by
  simpa using CString.ofMem_mem_append s []

theorem make_spec (q : Datum) : Triple 1 (make q) fun c => Is c q := by
  cases q with
  | float f => exact Triple.pure fun r hr => ⟨rfl, hr⟩
  | string s =>
    exact (Triple.alloc s.mem).bind fun a => Triple.pure fun r hr => is_of_points (mem_ofMem s) hr

theorem copy_spec (c : DatumObj) (q : Datum) : Triple (Is c q) c.copy fun c' => Is c q * Is c' q := by
  cases c with
  | float f =>
    cases q with
    | float g =>
      refine Triple.pure fun r hr => ?_
      exact fact_mul.2 ⟨hr.1, hr⟩
    | string s => exact triple_absurd not_false
  | string a =>
    cases q with
    | float g => exact triple_absurd not_false
    | string s =>
      refine Triple.of_exists fun m => Triple.of_fact fun hm => (strdup_spec hm).bind fun b => ?_
      exact Triple.pure (mul_mono (fun _ => is_of_points hm) fun _ => is_of_points (mem_ofMem s))

theorem assign_eq (t c : DatumObj) : t.assign c = c.copy := by
  cases c <;> rfl

theorem destroy_spec (c : DatumObj) (q : Datum) : Triple (Is c q) c.destroy fun _ => 1 := by
  cases c with
  | float f =>
    cases q with
    | float g => exact Triple.pure fun r hr => hr.2
    | string s => exact triple_absurd not_false
  | string a =>
    cases q with
    | float g => exact triple_absurd not_false
    | string s =>
      refine Triple.of_exists fun m => Triple.of_fact fun _ => ?_
      have hclr : Triple (points a m) (clr (.string a)) fun _ => 1 :=
        (Triple.free a m).bind fun _ => Triple.pure fun _ => id
      exact hclr.bind fun _ => Triple.pure fun _ => id

end DatumObj

/-! ## The vector -/

/-- The objects `cells` stand for the items `ds`. -/
abbrev Cells : List DatumObj → List Datum → Assertion Bytes := Each DatumObj.Is

theorem cells_singleton (c : DatumObj) (q : Datum) : Cells [c] [q] = DatumObj.Is c q := mul_one _

theorem cells_concat {cells : List DatumObj} {ds : List Datum} (h : cells.length = ds.length) (c : DatumObj)
    (q : Datum) : Cells (cells ++ [c]) (ds ++ [q]) = Cells cells ds * DatumObj.Is c q := by
  rw [Cells, each_append h]
  exact congrArg _ (cells_singleton c q)

theorem triple_cells {α : Type} {cells : List DatumObj} {ds : List Datum} {P : Assertion Bytes} {c : Mem α}
    {Q : α → Assertion Bytes} (h : cells.length = ds.length → Triple (Cells cells ds * P) c Q) :
    Triple (Cells cells ds * P) c Q := by
  rintro s _ f hpf hs ⟨p, q, hpq, rfl, hp, hq⟩
  exact h hp.length s _ f hpf hs ⟨p, q, hpq, rfl, hp, hq⟩

theorem cells_split {cells : List DatumObj} {ds : List Datum} (h : cells.length = ds.length) (n : Nat) :
    Cells cells ds = Cells (cells.take n) (ds.take n) * Cells (cells.drop n) (ds.drop n) := by
  have hlen : (cells.take n).length = (ds.take n).length := by rw [List.length_take, List.length_take, h]
  rw [Cells, ← each_append hlen, List.take_append_drop, List.take_append_drop]

theorem map_snd_zip_eq_take {α β : Type} (xs : List α) (ys : List β) :
    (xs.zip ys).map Prod.snd = ys.take xs.length := by
  induction xs generalizing ys with
  | nil => rfl
  | cons x xs ih =>
    cases ys with
    | nil => rfl
    | cons y ys => exact congrArg (y :: ·) (ih ys)

def Lost (cells : List DatumObj) : Assertion Bytes := fun r => ∃ ds, Cells cells ds r

theorem lost_nil : Lost [] = 1 := by
  ext r
  constructor
  · rintro ⟨ds, hds⟩
    cases ds with
    | nil => exact hds
    | cons d ds => exact absurd hds.1 not_false
  · exact fun hr => ⟨[], hr⟩

theorem lost_append (xs ys : List DatumObj) : ∀ r, (Lost xs * Lost ys) r → Lost (xs ++ ys) r := by
  rintro _ ⟨p, q, hpq, rfl, ⟨ds, hp⟩, ⟨es, hq⟩⟩
  refine ⟨ds ++ es, ?_⟩
  rw [Cells, each_append hp.length]
  exact ⟨p, q, hpq, rfl, hp, hq⟩

namespace Vec

theorem destroyAll_spec (cells : List DatumObj) (ds : List Datum) :
    Triple (Cells cells ds) (cells.forM DatumObj.destroy) fun _ => 1 :=
  Triple.forM DatumObj.destroy_spec cells ds

theorem copyAll_spec (cells : List DatumObj) (ds : List Datum) :
    Triple (Cells cells ds) (cells.mapM DatumObj.copy) fun copies => Cells cells ds * Cells copies ds :=
  Triple.mapM DatumObj.copy_spec cells ds

theorem pushBack_spec (v : Vec) (ds : List Datum) (c : DatumObj) (q : Datum) :
    Triple (Cells v.cells ds * DatumObj.Is c q) (v.pushBack c)
      fun w => Cells w.cells (ds ++ [q]) * DatumObj.Is c q := by
  refine triple_cells fun hlen => (DatumObj.copy_spec c q).seq (Cells v.cells ds) (fun c' => ?_) (mul_comm _ _)
  split
  · refine Triple.ret ?_
    rw [cells_concat hlen]
    ac_rfl
  · refine (copyAll_spec v.cells ds).seq (DatumObj.Is c q * DatumObj.Is c' q) (fun moved => ?_) (mul_comm _ _)
    refine (destroyAll_spec v.cells ds).seq (Cells moved ds * (DatumObj.Is c q * DatumObj.Is c' q)) (fun _ => ?_)
      (mul_assoc _ _ _)
    rw [one_mul]
    refine triple_cells fun hmoved => Triple.ret ?_
    rw [cells_concat hmoved]
    ac_rfl

theorem clear_spec (v : Vec) (ds : List Datum) :
    Triple (Cells v.cells ds) v.clear fun w => Cells w.cells [] :=
  (destroyAll_spec v.cells ds).bind fun _ => Triple.ret rfl

theorem ofRange_spec (cells : List DatumObj) (ds : List Datum) :
    Triple (Cells cells ds) (ofRange cells) fun v =>
      fact (v.cells.length = cells.length) * (Cells cells ds * Cells v.cells ds) := by
  refine (copyAll_spec cells ds).bind fun copies => Triple.pure fun r hr => fact_mul.2 ⟨?_, hr⟩
  obtain ⟨p, q, -, -, hp, hq⟩ := hr
  exact hq.length.trans hp.length.symm

theorem assignMoved_spec (v tmp : Vec) (ds es : List Datum) :
    Triple (Cells v.cells ds * Cells tmp.cells es) (v.assignMoved tmp) fun w => Cells w.cells es := by
  refine (destroyAll_spec v.cells ds).seq (Cells tmp.cells es) (fun _ => Triple.ret ?_) rfl
  exact one_mul _

/-- The elements that are assigned one by one leave the blocks of what they held behind. -/
def overwritten (v : Vec) (n : Nat) : List DatumObj := if v.capacity < n then [] else v.cells.take n

theorem assignCopied_spec (v tmp : Vec) (ds es : List Datum) :
    Triple (Cells v.cells ds * Cells tmp.cells es) (v.assignCopied tmp)
      fun w => Cells w.cells es * Lost (v.overwritten tmp.cells.length) := by
  refine triple_cells fun hv => ?_
  rw [mul_comm]
  refine triple_cells fun htmp => ?_
  unfold assignCopied overwritten
  split
  · refine (copyAll_spec tmp.cells es).seq (Cells v.cells ds) (fun copies => ?_) rfl
    refine (destroyAll_spec v.cells ds).seq (Cells tmp.cells es * Cells copies es) (fun _ => ?_) (mul_comm _ _)
    rw [one_mul]
    refine (destroyAll_spec tmp.cells es).seq (Cells copies es) (fun _ => Triple.ret ?_) rfl
    rw [lost_nil, one_mul, mul_one]
  · -- what is assigned, and what is copied
    have hfirsts : ((v.cells.zip tmp.cells).mapM fun x => x.1.assign x.2) =
        (tmp.cells.take v.cells.length).mapM DatumObj.copy := by
      rw [← map_snd_zip_eq_take, List.mapM_map]
      simp only [DatumObj.assign_eq]
      rfl
    rw [hfirsts]
    have hall := cells_split htmp v.cells.length
    have hold := cells_split hv tmp.cells.length
    generalize tmp.cells.drop v.cells.length = later at hall ⊢
    generalize tmp.cells.take v.cells.length = now at hall ⊢
    generalize v.cells.drop tmp.cells.length = surplus at hold ⊢
    generalize v.cells.take tmp.cells.length = gone at hold ⊢
    rw [hall, hold]
    refine (copyAll_spec now _).seq (Cells later _ * (Cells gone _ * Cells surplus _)) (fun firsts => ?_)
      (mul_assoc _ _ _)
    refine (destroyAll_spec surplus _).seq (Cells firsts _ * (Cells now _ * Cells later _ * Cells gone _))
      (fun _ => ?_) (by ac_rfl)
    rw [one_mul]
    refine triple_cells fun hlen => ?_
    refine (copyAll_spec later _).seq (Cells firsts _ * (Cells now _ * Cells gone _)) (fun rest => ?_)
      (by ac_rfl)
    refine (destroyAll_spec tmp.cells es).seq (Cells firsts _ * Cells rest _ * Cells gone _)
      (fun _ => ?_) (by rw [hall]; ac_rfl)
    rw [one_mul]
    refine Triple.pure fun r hr => ?_
    have hjoin := each_append (A := DatumObj.Is) hlen rest (es.drop v.cells.length)
    rw [List.take_append_drop] at hjoin
    rw [Cells, hjoin]
    exact mul_mono (fun _ => id) (fun _ h => ⟨_, h⟩) r hr

theorem assignFrom_spec (moves : Bool) (v tmp : Vec) (ds es : List Datum) :
    Triple (Cells v.cells ds * Cells tmp.cells es) (v.assignFrom moves tmp)
      fun w => Cells w.cells es * Lost (if moves then [] else v.overwritten tmp.cells.length) := by
  cases moves with
  | true => exact (assignMoved_spec v tmp ds es).weaken fun w r hr => by simpa [lost_nil] using hr
  | false => exact assignCopied_spec v tmp ds es

end Vec

/-! ## `fromMessage` -/

def Item.datum : Item → Datum
  | .float f => .float f
  | .bytes m => .string (CString.cut m)

theorem readDatum_eq (p : Bytes) : readDatum p = (readItem p).map fun x => (x.1.datum, x.2) := by
  cases p with
  | nil => rfl
  | cons t p =>
    simp only [readDatum, readItem, readString]
    by_cases hfloat : t = dtFloat
    · rw [if_pos hfloat, if_pos hfloat]
      cases takeU32 p <;> rfl
    rw [if_neg hfloat, if_neg hfloat]
    by_cases hstring : t = dtString
    · rw [if_pos hstring, if_pos hstring]
      cases takeU32 p with
      | none => rfl
      | some x =>
        dsimp only
        split
        · rfl
        split <;> rfl
    · rw [if_neg hstring, if_neg hstring]
      rfl

/-- What `strdup` keeps of the bytes of a message. -/
theorem ofMem_terminated (m : Bytes) : CString.ofMem (m ++ [0]) = some (CString.cut m) := by
  have hcut : CString.cut (m ++ [0]) = CString.cut m := by
    apply CString.ext
    show (m ++ [0]).takeWhile _ = m.takeWhile _
    rw [List.takeWhile_append]
    split
    · next hall =>
      have htake := (List.takeWhile_prefix (l := m) (fun x => decide (x ≠ 0))).eq_of_length hall
      rw [htake]
      exact List.append_nil m
    · rfl
  rw [CString.ofMem, if_pos (by simp), hcut]

theorem place_spec (i : Item) : Triple 1 i.place fun c => DatumObj.Is c i.datum := by
  cases i with
  | float f => exact Triple.pure fun r hr => ⟨rfl, hr⟩
  | bytes m =>
    exact (Triple.alloc (m ++ [0])).bind fun a =>
      Triple.pure fun r hr => DatumObj.is_of_points (ofMem_terminated m) hr

theorem loadItems_spec (n : Nat) (v : Vec) (ds : List Datum) (p : Bytes) :
    Triple (Cells v.cells ds) (loadItems n v p)
      fun o => fact (o.2 = (readItems n ds p).2) * Cells o.1.cells (readItems n ds p).1 := by
  induction n generalizing v ds p with
  | zero => exact Triple.pure fun r hr => fact_mul.2 ⟨rfl, hr⟩
  | succ n ih =>
    unfold loadItems readItems
    rw [readDatum_eq]
    cases readItem p with
    | error e => exact Triple.pure fun r hr => fact_mul.2 ⟨rfl, hr⟩
    | ok x =>
      refine (place_spec x.1).seq (Cells v.cells ds) (fun t => ?_) (one_mul _).symm
      refine (Vec.pushBack_spec v ds t x.1.datum).seq 1 (fun w => ?_) (by rw [mul_one, mul_comm])
      refine (DatumObj.destroy_spec t x.1.datum).seq (Cells w.cells (ds ++ [x.1.datum])) (fun _ => ?_) (by
        rw [mul_one, mul_comm])
      rw [one_mul]
      exact ih w (ds ++ [x.1.datum]) x.2

namespace TopicObj

theorem fromMessage_spec (o : TopicObj) (t : Topic) (p : Bytes) :
    Triple (Cells o.d.cells t.d) (o.fromMessage p) fun x =>
      fact (x.2 = (t.fromMessage p false).2 ∧ x.1.shell = o.shell) *
        Cells x.1.d.cells (t.fromMessage p false).1.d := by
  refine (Vec.clear_spec o.d t.d).bind fun v => ?_
  unfold Topic.fromMessage
  cases readHeader p with
  | error e => exact Triple.pure fun r hr => fact_mul.2 ⟨⟨rfl, rfl⟩, hr⟩
  | ok x =>
    obtain ⟨msg, count, namelen, q⟩ := x
    refine (loadItems_spec count.toNat v [] (q.drop namelen.toNat)).bind fun y => Triple.pure fun r hr => ?_
    obtain ⟨hy, hr⟩ := fact_mul.1 hr
    refine fact_mul.2 ⟨⟨?_, rfl⟩, hr⟩
    show y.2.map _ = _
    rw [hy]
    rfl

theorem fromMessage_shell (t : Topic) (p : Bytes) : (t.fromMessage p false).1.shell = t.shell := by
  unfold Topic.fromMessage
  cases readHeader p <;> rfl

theorem add_spec (o : TopicObj) (t : Topic) (q : Datum) :
    Triple (Cells o.d.cells t.d) (o.add q) fun x =>
      fact (x.shell = o.shell) * Cells x.d.cells (t.add q).d := by
  refine (DatumObj.make_spec q).seq (Cells o.d.cells t.d) (fun c => ?_) (one_mul _).symm
  refine (Vec.pushBack_spec o.d t.d c q).seq 1 (fun d => ?_) (by rw [mul_one, mul_comm])
  refine (DatumObj.destroy_spec c q).seq (Cells d.cells (t.d ++ [q])) (fun _ => ?_) (by rw [mul_one, mul_comm])
  exact Triple.pure fun r hr => fact_mul.2 ⟨rfl, by rwa [one_mul] at hr⟩

theorem clear_spec (o : TopicObj) (t : Topic) :
    Triple (Cells o.d.cells t.d) o.clear fun x =>
      fact (x.shell = o.shell) * Cells x.d.cells t.clear.d :=
  (Vec.clear_spec o.d t.d).bind fun _ => Triple.pure fun _ hr => fact_mul.2 ⟨rfl, hr⟩

end TopicObj

end DiamondApparatus
