import DiamondApparatus.Main.Table

/-!
# `diamond pub` (`main.cpp`, `mainc.c`)

* `pubLoop` : the loop over the letters of the types, in both programs; `cmdPub`, `Linkage.cmdPub` : the command;
* `Supplied` : when the loop has a value for every letter; `pubLoop_eq` : what it has added then;
* `cmdPub_eq`, `Linkage.cmdPub_eq` : what the two publish. Only the first reads a leading `n` as a minus sign;
* `fields` : the texts that the arguments of `pub` stand for;
* `rows_of_pub` : the rows that `diamond listen` prints, where `diamond pub` publishes.
-/

namespace DiamondApparatus
open Lib MyServer

/-! ## The command -/

/-- The loop over `types`, with `argv` from `argidx` on, and what a value does under `f` and under `s`;
`none` is `usagepanic()`. -/
def pubLoop {σ : Type} (f s : σ → CString → σ) : Bytes → List CString → σ → Option σ
  | [], _, t => some t
  -- the test for a value comes before the letter is looked at
  | _ :: _, [], _ => none
  | c :: types, a :: vals, t =>
    if c = ('f').toUInt8 then pubLoop f s types vals (f t a)
    else if c = ('s').toUInt8 then pubLoop f s types vals (s t a)
    else pubLoop f s types (a :: vals) t

/-- `if(argv[argidx][0]=='n') argv[argidx][0]='-'` -/
def minus (a : CString) : CString :=
  if a.bytes.head? = some ('n').toUInt8 then
    { bytes := ('-').toUInt8 :: a.bytes.tail
      nulFree := fun h => (List.mem_cons.1 h).elim (by decide) fun h => a.nulFree (List.mem_of_mem_tail h) }
  else a

/-- `pub` with the arguments behind it: the name and the topic that are published. The value of `atof` is
narrowed to a `float`. -/
def cmdPub (atof : CString → UInt32) : List CString → Option (CString × Topic)
  | name :: types :: a :: vals =>
    (pubLoop (fun t a => t.add (.float (atof (minus a)))) (fun t a => t.add (.string a)) types.bytes (a :: vals) {}).map
      (name, ·)
  | _ => none

/-- The same in `mainc.c`, through the static topic. -/
def Linkage.cmdPub (atof : CString → UInt32) (L : Linkage) : List CString → Option (CString × Linkage)
  | name :: types :: a :: vals =>
    (pubLoop (fun L a => L.addfloat (atof a)) addstring types.bytes (a :: vals) L.newtopic).map (name, ·)
  | _ => none

/-! ## The loop -/

/-- A letter that takes a value. -/
def takes (c : UInt8) : Bool := c = ('f').toUInt8 ∨ c = ('s').toUInt8

/-- With so many values the loop comes to the end of `types`: the letters in front of the last have left one. -/
def Supplied (types : Bytes) (vals : Nat) : Prop := types ≠ [] → types.dropLast.countP takes < vals

instance (types : Bytes) (vals : Nat) : Decidable (Supplied types vals) :=
  inferInstanceAs (Decidable (_ → _))

theorem supplied_nil (vals : Nat) : Supplied [] vals := fun h => absurd rfl h

theorem not_supplied_zero (c : UInt8) (types : Bytes) : ¬ Supplied (c :: types) 0 :=
  fun h => Nat.not_lt_zero _ (h (List.cons_ne_nil c types))

theorem supplied_takes {c : UInt8} (hc : takes c) (types : Bytes) (vals : Nat) :
    Supplied (c :: types) (vals + 1) ↔ Supplied types vals := by
  cases types with
  | nil => exact ⟨fun _ => supplied_nil vals, fun _ _ => Nat.succ_pos vals⟩
  | cons d types => simp [Supplied, List.countP_cons_of_pos hc]

theorem supplied_skips {c : UInt8} (hc : ¬ takes c) (types : Bytes) (vals : Nat) :
    Supplied (c :: types) (vals + 1) ↔ Supplied types (vals + 1) := by
  cases types with
  | nil => exact ⟨fun _ => supplied_nil _, fun _ _ => Nat.succ_pos vals⟩
  | cons d types => simp [Supplied, List.countP_cons_of_neg hc]

/-- The letters that take a value, each with its value. -/
def valued (types : Bytes) (vals : List CString) : List (UInt8 × CString) := (types.filter takes).zip vals

theorem valued_takes {c : UInt8} (hc : takes c) (types : Bytes) (a : CString) (vals : List CString) :
    valued (c :: types) (a :: vals) = (c, a) :: valued types vals := by
  rw [valued, List.filter_cons_of_pos hc, List.zip_cons_cons, valued]

theorem valued_skips {c : UInt8} (hc : ¬ takes c) (types : Bytes) (vals : List CString) :
    valued (c :: types) vals = valued types vals := by
  rw [valued, List.filter_cons_of_neg hc, valued]

/-- **The loop**: it ends when it is supplied, and has then added the values in order. -/
theorem pubLoop_eq {σ : Type} (f s : σ → CString → σ) (types : Bytes) (vals : List CString) (t : σ) :
    pubLoop f s types vals t =
      if Supplied types vals.length then
        some ((valued types vals).foldl (fun t x => if x.1 = ('f').toUInt8 then f t x.2 else s t x.2) t)
      else none := by
  induction types generalizing vals t with
  | nil => rw [if_pos (supplied_nil _)]; rfl
  | cons c types ih =>
    cases vals with
    | nil => exact (if_neg (not_supplied_zero c types)).symm
    | cons a vals =>
      rw [pubLoop, List.length_cons]
      by_cases hf : c = ('f').toUInt8
      · have hc : takes c := by simp [takes, hf]
        simp only [if_pos hf, ih, supplied_takes hc, valued_takes hc, List.foldl_cons]
      by_cases hs : c = ('s').toUInt8
      · have hc : takes c := by simp [takes, hs]
        simp only [if_neg hf, if_pos hs, ih, supplied_takes hc, valued_takes hc, List.foldl_cons]
      · have hc : ¬ takes c := by simp [takes, hf, hs]
        simp only [if_neg hf, if_neg hs, ih, supplied_skips hc, valued_skips hc, List.length_cons]

/-! ## What is published -/

/-- The arguments with which `pub` does not end in `usagepanic()`. -/
def Usable : List CString → Prop
  | _ :: types :: vals => vals ≠ [] ∧ Supplied types.bytes vals.length
  | _ => False

theorem usable_cons (name types a : CString) (vals : List CString) :
    Usable (name :: types :: a :: vals) ↔ Supplied types.bytes (a :: vals).length :=
  and_iff_right (List.cons_ne_nil a vals)

def item (atof : CString → UInt32) (x : UInt8 × CString) : Datum :=
  if x.1 = ('f').toUInt8 then .float (atof x.2) else .string x.2

def items (atof : CString → UInt32) : List CString → List Datum
  | _ :: types :: vals => (valued types.bytes vals).map (item atof)
  | _ => []

theorem foldl_add (atof : CString → UInt32) (xs : List (UInt8 × CString)) (t : Topic) :
    xs.foldl (fun t x => if x.1 = ('f').toUInt8 then t.add (.float (atof x.2)) else t.add (.string x.2)) t =
      { t with d := t.d ++ xs.map (item atof) } := by
  induction xs generalizing t with
  | nil => rw [List.foldl_nil, List.map_nil, List.append_nil]
  | cons x xs ih =>
    have hadd : (if x.1 = ('f').toUInt8 then t.add (.float (atof x.2)) else t.add (.string x.2)) =
        t.add (item atof x) := by
      unfold item
      split <;> rfl
    rw [List.foldl_cons, hadd, ih, List.map_cons]
    simp only [Topic.add, List.append_assoc, List.singleton_append]

theorem foldl_addfloat (atof : CString → UInt32) (xs : List (UInt8 × CString)) (L : Linkage) :
    xs.foldl (fun L x => if x.1 = ('f').toUInt8 then L.addfloat (atof x.2) else L.addstring x.2) L =
      { L with topicToPublish :=
          { L.topicToPublish with d := L.topicToPublish.d ++ xs.map (item atof) } } := by
  rw [← foldl_add]
  refine List.foldl_hom (fun t => { L with topicToPublish := t }) fun t x => ?_
  split <;> rfl

theorem named_eq_some {σ : Type} {p : Prop} [Decidable p] {n name : CString} {t t' : σ} :
    (if p then some t else none).map (n, ·) = some (name, t') ↔ p ∧ some n = some name ∧ t' = t := by
  by_cases hp : p
  · rw [if_pos hp, Option.map_some, Option.some.injEq, Prod.mk.injEq, Option.some.injEq, and_iff_right hp]
    exact and_congr_right fun _ => eq_comm
  · rw [if_neg hp, Option.map_none]
    exact iff_of_false (Option.some_ne_none _).symm fun h => hp h.1

/-- **What `diamond pub` publishes.** -/
theorem cmdPub_eq_some {atof : CString → UInt32} {args : List CString} {name : CString} {t : Topic} :
    cmdPub atof args = some (name, t) ↔
      Usable args ∧ args.head? = some name ∧ t = { d := items (fun a => atof (minus a)) args } := by
  rcases args with - | ⟨n, - | ⟨types, - | ⟨a, vals⟩⟩⟩
  · simp [cmdPub, Usable]
  · simp [cmdPub, Usable]
  · simp [cmdPub, Usable]
  · rw [cmdPub, pubLoop_eq, foldl_add (fun a => atof (minus a)), usable_cons]
    exact named_eq_some

/-- The same of `mainc.c`, which hands `atof` the value as it is. -/
theorem Linkage.cmdPub_eq_some {atof : CString → UInt32} {L L' : Linkage} {args : List CString} {name : CString} :
    L.cmdPub atof args = some (name, L') ↔
      Usable args ∧ args.head? = some name ∧ L' = { L with topicToPublish := { d := items atof args } } := by
  rcases args with - | ⟨n, - | ⟨types, - | ⟨a, vals⟩⟩⟩
  · simp [cmdPub, Usable]
  · simp [cmdPub, Usable]
  · simp [cmdPub, Usable]
  · rw [cmdPub, pubLoop_eq, foldl_addfloat, usable_cons]
    exact named_eq_some

theorem minus_eq {a : CString} (h : a.bytes.head? ≠ some ('n').toUInt8) : minus a = a := if_neg h

theorem items_minus (atof : CString → UInt32) {args : List CString}
    (h : ∀ a ∈ args, a.bytes.head? ≠ some ('n').toUInt8) : items (fun a => atof (minus a)) args = items atof args := by
  rcases args with - | ⟨n, - | ⟨types, vals⟩⟩
  · rfl
  · rfl
  · refine List.map_congr_left fun x hx => ?_
    have hmem : x.2 ∈ n :: types :: vals :=
      List.mem_cons_of_mem _ (List.mem_cons_of_mem _ (List.of_mem_zip hx).2)
    rw [item, item, minus_eq (h _ hmem)]

/-- **The two programs publish the same**, as long as no argument begins with an `n`. -/
theorem Linkage.cmdPub_eq (atof : CString → UInt32) (L : Linkage) {args : List CString}
    (h : ∀ a ∈ args, a.bytes.head? ≠ some ('n').toUInt8) :
    (L.cmdPub atof args).map (fun x => (x.1, x.2.topicToPublish)) = DiamondApparatus.cmdPub atof args := by
  refine Option.ext fun x => ?_
  rw [Option.map_eq_some_iff, DiamondApparatus.cmdPub_eq_some, items_minus atof h]
  constructor
  · rintro ⟨y, hy, rfl⟩
    obtain ⟨husable, hname, hL⟩ := Linkage.cmdPub_eq_some.1 hy
    exact ⟨husable, hname, by rw [hL]⟩
  · rintro ⟨husable, hname, ht⟩
    exact ⟨(x.1, _), Linkage.cmdPub_eq_some.2 ⟨husable, hname, rfl⟩, Prod.ext rfl ht.symm⟩

/-! ## The row -/

/-- The texts that the arguments stand for: a value under `s` is its own text. -/
def fields (num : UInt32 → Bytes) (atof : CString → UInt32) : List CString → List Bytes
  | _ :: types :: vals => (valued types.bytes vals).map fun x =>
      if x.1 = ('f').toUInt8 then num (atof (minus x.2)) else x.2.bytes
  | _ => []

theorem map_text_items (num : UInt32 → Bytes) (atof : CString → UInt32) (args : List CString) :
    (items (fun a => atof (minus a)) args).map (Datum.text num) = fields num atof args := by
  rcases args with - | ⟨n, - | ⟨types, vals⟩⟩
  · rfl
  · rfl
  · rw [items, fields, List.map_map]
    refine List.map_congr_left fun x _ => ?_
    rw [Function.comp_apply, item]
    split <;> rfl

theorem splitOn_row {num : UInt32 → Bytes} {atof : CString → UInt32} {args : List CString} (printedname : Bytes)
    (hne : fields num atof args ≠ []) (hcomma : ∀ m ∈ fields num atof args, (',').toUInt8 ∉ m) :
    ((Printed.row (items (fun a => atof (minus a)) args)).text num printedname).dropLast.splitOn (',').toUInt8 =
      fields num atof args := by
  rw [Printed.text, List.dropLast_concat, ← map_text_items]
  rw [← map_text_items] at hne hcomma
  exact splitOn_csv (fun hnil => hne (by rw [hnil, List.map_nil])) fun q hq => hcomma _ (List.mem_map_of_mem hq)

namespace System
variable {κ ι : Type} [DecidableEq κ] [DecidableEq ι]

/-- **`diamond listen` prints the arguments of `diamond pub`.** Where all that is published on a topic comes from
commands `diamond pub`, however the programs' steps interleave: each row that a listener has printed is what the
server started with, or holds the items of one of the commands; and splits then at the commas into the values of
that command, each as its letter says, when there is one and none has a comma in it. -/
theorem rows_of_pub (num : UInt32 → Bytes) (atof : CString → UInt32) (listenfd : Nat) (others : FdSet) (now : Now)
    (as : List (Action κ ι)) (S : System κ ι) (hrun : Run.exec step (start listenfd others now) as = some S)
    (cmds : List (List CString)) (topic : CString) (hs : topic ≠ statsName) (ht : topic ≠ topicsName)
    (hcmds : ∀ d ∈ Run.trace step (publishes topic) (start listenfd others now) as,
      ∃ args ∈ cmds, ∃ t, cmdPub atof args = some (topic, t) ∧ t.d = d)
    (k : κ) (i : ι) (listenHeaders : Bool) (es : List (Listen.Step ι)) (L : Listen ι)
    (hlisten : Listen.Runs i topic listenHeaders es L (Run.trace step (labels k) (start listenfd others now) as)) :
    ∀ row ∈ L.rows, initially topic = some row ∨ ∃ args ∈ cmds, Usable args ∧ args.head? = some topic ∧
      row = items (fun a => atof (minus a)) args ∧
      (fields num atof args ≠ [] → (∀ m ∈ fields num atof args, (',').toUInt8 ∉ m) → ∀ printedname,
        ((Printed.row row).text num printedname).dropLast.splitOn (',').toUInt8 = fields num atof args) := by
  intro row hrow
  have hsent := (rows_sublist hrun hs ht hlisten).subset hrow
  rcases List.mem_append.1 hsent with hfirst | hposted
  · exact Or.inl (Option.mem_toList.1 hfirst)
  · obtain ⟨args, hargs, t, hpub, rfl⟩ := hcmds row (posts_published hrun hposted)
    obtain ⟨husable, hname, rfl⟩ := cmdPub_eq_some.1 hpub
    exact Or.inr ⟨args, hargs, husable, hname, rfl, fun hne hcomma printedname => splitOn_row printedname hne hcomma⟩

/-- What `pub a fs n7 hello` publishes. -/
def hello : Topic := { d := [.float 0xC0E00000, .string (.ofString "hello")] }

def pubRelay : List (Action Bool Unit) :=
  [.connect false, .accept false 4, .subscribe false (.ofString "a") .zero, .serve false [] 0,
    .thread false (.get () (.ofString "a") .new), .thread false (.lock ()),
    .connect true, .accept true 5, .publish true (.ofString "a") hello, .serve true [] 0,
    .receive false [] 0 (some ()), .thread false (.resume ())]

def pubSteps : List (Listen.Step Unit) :=
  [.subscribe, .enter, .test, .call, .library (.lock ()),
    .library (.packet (hello.toMessage scNotify (.ofString "a")) 0 (some ())), .library (.resume ()), .print]

theorem rows_of_pub_hello : ∃ (S : System Bool Unit) (L : Listen Unit),
    Run.exec step (start 3 ∅ 0) pubRelay = some S ∧ L.rows = [hello.d] ∧
    ((Printed.row hello.d).text (fun _ => (CString.ofString "-7").bytes) []).dropLast.splitOn (',').toUInt8 =
      [(CString.ofString "-7").bytes, (CString.ofString "hello").bytes] := by
  have hrun : (Run.exec step (start 3 ∅ 0) pubRelay).isSome = true := by
    decide +kernel
  have hlisten : (Run.exec (Listen.step () (.ofString "a") false) {} pubSteps).any (fun L =>
      decide (L.rows = [hello.d])) = true := by
    decide +kernel
  have hlabels : Run.trace (Listen.step () (.ofString "a") false) (Listen.labels () (.ofString "a")) {} pubSteps =
      Run.trace step (labels false) (start 3 ∅ 0) pubRelay := by
    decide +kernel
  have hpublished : Run.trace step (publishes (.ofString "a")) (start 3 ∅ 0) pubRelay = [hello.d] := by
    decide +kernel
  obtain ⟨S, hS⟩ := Option.isSome_iff_exists.1 hrun
  obtain ⟨L, hL, hrows⟩ := (Option.any_eq_true _ _).1 hlisten
  have hrows := of_decide_eq_true hrows
  have hnone : initially (.ofString "a") = none := by decide +kernel
  obtain hfirst | ⟨args, hargs, -, -, -, hsplit⟩ := rows_of_pub (fun _ => (CString.ofString "-7").bytes)
    (fun a => if a = .ofString "-7" then 0xC0E00000 else 0) 3 ∅ 0 pubRelay S hS
    [[.ofString "a", .ofString "fs", .ofString "n7", .ofString "hello"]] (.ofString "a") (by decide +kernel)
    (by decide +kernel)
    (fun d hd => ⟨_, List.mem_singleton_self _, hello, by decide +kernel,
      (List.mem_singleton.1 (hpublished ▸ hd)).symm⟩)
    false () false pubSteps L ⟨hL, hlabels⟩ hello.d (hrows ▸ List.mem_singleton_self _)
  · rw [hnone] at hfirst
    cases hfirst
  · rw [List.mem_singleton.1 hargs] at hsplit
    exact ⟨S, L, hS, hrows, hsplit (by decide +kernel) (by decide +kernel) []⟩

end System

end DiamondApparatus
