import DiamondApparatus.Main.Published
import DiamondApparatus.Linkage.Built

/-!
# The table that `diamond listen` prints

* `splitOn_csv`, `splitOn_header` : a row and the header split at their commas;
* `Tabled` : what holds of what was printed, step by step;
* `output_table` : one header at the most, in front of the rows, with a column for each item of the first row;
  what the handler prints comes behind them, outside the loop.
-/

namespace DiamondApparatus
open Lib

/-! ## Lines -/

/-- A row is the texts of its items with a comma between any two. -/
theorem csv_eq (num : UInt32 → Bytes) (d : List Datum) :
    csv num d = [(',').toUInt8].intercalate (d.map (Datum.text num)) := by
  fun_induction csv num d with
  | case1 => rfl
  | case2 q => rw [List.map_singleton, List.intercalate_singleton]
  | case3 q r d ih =>
    rw [ih]
    simp only [List.map_cons, List.intercalate_cons_cons, List.append_assoc, List.singleton_append]

/-- **A row splits at the commas into the texts of its items**, as long as none of these has a comma in it. -/
theorem splitOn_csv {num : UInt32 → Bytes} {d : List Datum} (hd : d ≠ [])
    (hcomma : ∀ q ∈ d, (',').toUInt8 ∉ q.text num) : (csv num d).splitOn (',').toUInt8 = d.map (Datum.text num) := by
  rw [csv_eq]
  refine List.splitOn_intercalate _ (fun m hm => ?_) (mt List.map_eq_nil_iff.1 hd)
  obtain ⟨q, hq, rfl⟩ := List.mem_map.1 hm
  exact hcomma q hq

theorem headerFrom_eq (printedname : Bytes) (i k : Nat) :
    headerFrom printedname i (k + 1) =
      [(',').toUInt8].intercalate ((List.range' i (k + 1)).map fun j => printedname ++ digits j) ++
        [('\n').toUInt8] := by
  induction k generalizing i with
  | zero => rw [List.range'_one, List.map_singleton, List.intercalate_singleton]; rfl
  | succ k ih =>
    rw [headerFrom, ih, if_neg k.succ_ne_zero]
    simp only [List.range'_succ, List.map_cons, List.intercalate_cons_cons, List.append_assoc, List.cons_append,
      List.nil_append]

theorem comma_not_mem_digits (i : Nat) : (',').toUInt8 ∉ digits i := by
  intro hcomma
  obtain ⟨c, hc, hbyte⟩ := List.mem_map.1 hcomma
  have hdigit := Nat.isDigit_of_mem_toDigits (by decide) (by decide) hc
  have hlow : 48 ≤ c.toNat := (Char.isDigit_iff_toNat.1 hdigit).1
  have hhigh : c.toNat ≤ 57 := (Char.isDigit_iff_toNat.1 hdigit).2
  have hnat : c.toNat % 256 = 44 := congrArg UInt8.toNat hbyte
  omega

/-- **The header splits at the commas into the name with the number of each column.** -/
theorem splitOn_header (num : UInt32 → Bytes) {printedname : Bytes} (hcomma : (',').toUInt8 ∉ printedname) (n : Nat) :
    ((Printed.header (n + 1)).text num printedname).dropLast.splitOn (',').toUInt8 =
      (List.range (n + 1)).map fun j => printedname ++ digits j := by
  rw [Printed.text, headerFrom_eq, List.dropLast_concat, List.range_eq_range']
  refine List.splitOn_intercalate _ (fun m hm => ?_) (by simp [List.range'_succ])
  obtain ⟨j, -, rfl⟩ := List.mem_map.1 hm
  exact fun hmem => (List.mem_append.1 hmem).elim hcomma (comma_not_mem_digits j)

/-! ## The table -/

namespace Listen
variable {ι : Type} {i : ι} {topic : CString} {listenHeaders : Bool} {s s' : Listen ι}

theorem signal_of_mem_printed {s : Listen ι} {t : Topic} {q : Printed} (hq : q ∈ s.printed listenHeaders t) :
    q.signal = none := by
  rcases List.mem_append.1 hq with hq | hq <;> split at hq
  · rw [List.mem_singleton.1 hq]
    rfl
  · cases hq
  · rw [List.mem_singleton.1 hq]
    rfl
  · cases hq

theorem table_printed (s : Listen ι) (t : Topic) :
    (s.printed listenHeaders t).filter (fun q => q.signal.isNone) = s.printed listenHeaders t :=
  List.filter_eq_self.2 fun q hq => by rw [signal_of_mem_printed hq]; rfl

theorem signals_printed (s : Listen ι) (t : Topic) : (s.printed listenHeaders t).filterMap Printed.signal = [] :=
  List.filterMap_eq_nil_iff.2 fun _ hq => signal_of_mem_printed hq

variable [DecidableEq ι]

/-- The header is in front of the rows, and has a column for each item of the first; or it is empty. -/
def Headed (s : Listen ι) (n : Nat) : Prop :=
  s.table = .header n :: s.rows.map .row ∧ (n ≠ 0 → ∃ d, s.rows.head? = some d ∧ d.length = n)

structure Tabled (listenHeaders : Bool) (s : Listen ι) : Prop where
  reached : ∃ ls, Run.exec Process.step .start ls = some s.p
  order : s.out = s.table ++ s.signals.map .caught
  outside : s.signals ≠ [] → s.pc = .ended
  empty : s.headerDone = false → s.table = []
  plain : listenHeaders = false → s.table = s.rows.map .row
  headed : listenHeaders = true → s.headerDone = true → ∃ n, s.Headed n

theorem tabled_start : Tabled listenHeaders ({} : Listen ι) where
  reached := ⟨[], rfl⟩
  order := rfl
  outside hsignals := absurd rfl hsignals
  empty _ := rfl
  plain _ := rfl
  headed _ hdone := by cases hdone

theorem Tabled.keeps (ht : Tabled listenHeaders s) (hreached : ∃ ls, Run.exec Process.step .start ls = some s'.p)
    (hpc : s.pc = .ended → s'.pc = .ended) (hdone : s'.headerDone = s.headerDone) (hout : s'.out = s.out) :
    Tabled listenHeaders s' := by
  have htable : s'.table = s.table := by rw [table, table, hout]
  have hrows : s'.rows = s.rows := by rw [rows, rows, hout]
  have hsignals : s'.signals = s.signals := by rw [signals, signals, hout]
  refine ⟨hreached, ?_, ?_, ?_, ?_, ?_⟩
  · rw [hout, htable, hsignals]
    exact ht.order
  · rw [hsignals]
    exact fun hs => hpc (ht.outside hs)
  · rw [hdone, htable]
    exact ht.empty
  · rw [htable, hrows]
    exact ht.plain
  · unfold Headed
    rw [hdone, htable, hrows]
    exact ht.headed

theorem Tabled.prints (ht : Tabled listenHeaders s) (hpc : s.pc = .getting) {t : Topic}
    (hi : s.p.threads i = .returned t) :
    Tabled listenHeaders { s with out := s.out ++ s.printed listenHeaders t, headerDone := true, pc := .test } := by
  obtain ⟨ls, hls⟩ := ht.reached
  have hnosignal : s.signals = [] := by
    by_contra hs
    rw [ht.outside hs] at hpc
    cases hpc
  have htable : table ⟨s.p, .test, true, s.listening, s.exitListenLoop, s.out ++ s.printed listenHeaders t⟩ =
      s.table ++ s.printed listenHeaders t :=
    (List.filter_append _ _).trans (congrArg (s.table ++ ·) (table_printed s t))
  have hsignals : signals ⟨s.p, .test, true, s.listening, s.exitListenLoop, s.out ++ s.printed listenHeaders t⟩ =
      [] := by
    rw [signals, List.filterMap_append, signals_printed, List.append_nil]
    exact hnosignal
  have hrows : rows ⟨s.p, .test, true, s.listening, s.exitListenLoop, s.out ++ s.printed listenHeaders t⟩ =
      s.rows ++ (Thread.returned t).result := rows_printed s t s.p .test true s.listening s.exitListenLoop
  have hrow : (if t.isValid then [Printed.row t.d] else []) = (Thread.returned t).result.map .row := by
    show _ = (if t.isValid then [t.d] else []).map Printed.row
    split <;> rfl
  refine ⟨⟨ls, hls⟩, ?_, (fun hs => absurd hsignals hs), (fun hdone => by cases hdone), (fun hplain => ?_),
    fun hheaders _ => ?_⟩
  · have horder := ht.order
    rw [hnosignal, List.map_nil, List.append_nil] at horder
    rw [htable, hsignals, List.map_nil, List.append_nil, ← horder]
  · rw [hrows, htable, printed, hrow, if_neg (by simp [hplain]), List.nil_append, List.map_append,
      ← ht.plain hplain]
  · unfold Headed
    rw [hrows, htable, printed, hrow]
    cases hdone : s.headerDone with
    | false =>
      have hempty := ht.empty hdone
      have hout : s.out = [] := by rw [ht.order, hempty, hnosignal]; rfl
      have hnone : s.rows = [] := by rw [rows, hout]; rfl
      refine ⟨t.d.length, by rw [if_pos ⟨rfl, hheaders⟩, hempty, hnone]; rfl, fun hn => ⟨t.d, ?_, rfl⟩⟩
      -- what is returned without data has no items, and its header no columns
      have hvalid : t.isValid = true := by
        by_contra hinvalid
        exact hn (List.length_eq_zero_iff.2
          (Process.returned_empty hls i t hi (Bool.eq_false_iff.2 hinvalid)))
      rw [hnone, List.nil_append]
      show (if t.isValid then [t.d] else []).head? = some t.d
      rw [if_pos hvalid, List.head?_cons]
    | true =>
      obtain ⟨n, hhead, hfirst⟩ := ht.headed hheaders hdone
      refine ⟨n, ?_, fun hn => ?_⟩
      · rw [if_neg (by simp), List.nil_append, hhead, List.map_append, List.cons_append]
      · obtain ⟨d, hd, hlen⟩ := hfirst hn
        exact ⟨d, by rw [List.head?_append, hd, Option.some_or], hlen⟩

theorem Tabled.caught (ht : Tabled listenHeaders s) (signal : Signal) :
    Tabled listenHeaders { s with pc := .ended, out := s.out ++ [.caught signal] } := by
  have htable : table { s with pc := .ended, out := s.out ++ [.caught signal] } = s.table :=
    (List.filter_append _ _).trans (List.append_nil _)
  have hsignals : signals { s with pc := .ended, out := s.out ++ [.caught signal] } = s.signals ++ [signal] :=
    List.filterMap_append
  have hrows : rows { s with pc := .ended, out := s.out ++ [.caught signal] } = s.rows := rows_caught s.out signal
  refine ⟨ht.reached, ?_, fun _ => rfl, ?_, ?_, ?_⟩
  · rw [htable, hsignals, List.map_append, ← List.append_assoc, ← ht.order]
    rfl
  · rw [htable]
    exact ht.empty
  · rw [htable, hrows]
    exact ht.plain
  · unfold Headed
    rw [htable, hrows]
    exact ht.headed

theorem Tabled.step (ht : Tabled listenHeaders s) {a : Step ι} (hstep : s.step i topic listenHeaders a = some s') :
    Tabled listenHeaders s' := by
  obtain ⟨ls, hls⟩ := ht.reached
  have hreached : ∃ ls, Run.exec Process.step .start ls = some s'.p :=
    ⟨ls ++ s.labels i topic a, by rw [Run.exec_append, hls, Option.bind_some, process_step hstep]⟩
  have hmoves : ∀ {pc : ListenPc}, s.pc = pc → pc ≠ .ended → s.pc = .ended → s'.pc = .ended :=
    fun hpc hne hended => absurd (hpc.symm.trans hended) hne
  cases a with
  | subscribe =>
    obtain ⟨hpc, hstep⟩ := Option.ite_none_right_eq_some.1 hstep
    split at hstep
    · obtain ⟨p, -, rfl⟩ := Option.map_eq_some_iff.1 hstep
      exact ht.keeps hreached (hmoves hpc (by decide)) rfl rfl
    · cases hstep
      exact ht.keeps hreached (fun _ => rfl) rfl rfl
  | enter | test | leave =>
    obtain ⟨hpc, hstep⟩ := Option.ite_none_right_eq_some.1 hstep
    cases hstep
    exact ht.keeps hreached (hmoves hpc (by decide)) rfl rfl
  | call =>
    obtain ⟨hpc, hstep⟩ := Option.ite_none_right_eq_some.1 hstep
    obtain ⟨p, -, rfl⟩ := Option.map_eq_some_iff.1 hstep
    exact ht.keeps hreached (hmoves hpc (by decide)) rfl rfl
  | print =>
    simp only [Listen.step] at hstep
    split at hstep
    · next t hpc hi =>
      cases hstep
      exact ht.prints hpc hi
    · cases hstep
  | signal signal =>
    simp only [Listen.step] at hstep
    split at hstep
    · cases hstep
      exact ht.keeps hreached id rfl rfl
    · cases hstep
      exact ht.caught signal
  | library a =>
    obtain ⟨-, hstep⟩ := Option.ite_none_right_eq_some.1 hstep
    obtain ⟨p, -, rfl⟩ := Option.map_eq_some_iff.1 hstep
    exact ht.keeps hreached id rfl rfl

theorem comma_not_mem_printedName {topic : CString} (hcomma : (',').toUInt8 ∉ topic.bytes) (replaceSlash : Bool) :
    (',').toUInt8 ∉ printedName replaceSlash topic := by
  intro hmem
  obtain ⟨p, hp, hbyte⟩ := List.mem_map.1 hmem
  split at hbyte
  · exact absurd hbyte (by decide)
  · exact hcomma (hbyte ▸ hp)

/-- **`diamond listen` prints a table.** Through any run of the program, of the library in it and of its signal
handler: with `-h` `cmdListen` has printed its rows, and without, nothing or one header and then its rows. The
header is empty, or has a column for each item of the first row, and splits at the commas into the name with the
number of each. Behind it are the lines of the handler, and it has printed none before the program is on its way
out. -/
theorem output_table (i : ι) (topic : CString) (listenHeaders replaceSlash : Bool) (es : List (Step ι))
    (s : Listen ι) (hrun : Run.exec (step i topic listenHeaders) {} es = some s) (num : UInt32 → Bytes) :
    s.out = s.table ++ s.signals.map .caught ∧ (s.signals ≠ [] → s.pc = .ended) ∧
      (listenHeaders = false → s.table = s.rows.map .row) ∧
      (listenHeaders = true → s.table = [] ∨ ∃ n, s.table = .header n :: s.rows.map .row ∧
        (n = 0 → (Printed.header n).text num (printedName replaceSlash topic) = []) ∧
        (n ≠ 0 → (∃ d, s.rows.head? = some d ∧ d.length = n) ∧ ((',').toUInt8 ∉ topic.bytes →
          ((Printed.header n).text num (printedName replaceSlash topic)).dropLast.splitOn (',').toUInt8 =
            (List.range n).map fun j => printedName replaceSlash topic ++ digits j))) := by
  have htabled : Tabled listenHeaders s := Run.invariant (fun _ _ _ ht hstep => ht.step hstep) tabled_start hrun
  refine ⟨htabled.order, htabled.outside, htabled.plain, fun hheaders => ?_⟩
  cases hdone : s.headerDone with
  | false => exact Or.inl (htabled.empty hdone)
  | true =>
    obtain ⟨n, hhead, hfirst⟩ := htabled.headed hheaders hdone
    refine Or.inr ⟨n, hhead, fun hn => by rw [hn]; rfl, fun hn => ⟨hfirst hn, fun hcomma => ?_⟩⟩
    obtain ⟨m, rfl⟩ := Nat.exists_eq_succ_of_ne_zero hn
    exact splitOn_header num (comma_not_mem_printedName hcomma replaceSlash) m

/-- SIGINT while it sleeps in `get()`, the next topic, and SIGQUIT on the way out. -/
def interrupted : List (Step Unit) :=
  System.listenSteps ++ [.signal .int,
    .library (.packet (Topic.toMessage { d := [.float 8] } scNotify (.ofString "a")) 0 (some ())),
    .library (.resume ()), .print, .test, .leave, .signal .quit]

theorem output_table_interrupted : ∃ s : Listen Unit,
    Run.exec (step () (.ofString "a") true) {} interrupted = some s ∧
    s.out = [.header 1, .row [.float 7], .row [.float 8], .caught .quit] ∧ s.pc = .ended ∧
    ((Printed.header 1).text (fun _ => []) (printedName false (.ofString "a"))).dropLast.splitOn (',').toUInt8 =
      [printedName false (.ofString "a") ++ digits 0] := by
  have hrun : (Run.exec (step () (.ofString "a") true) {} interrupted).any (fun s =>
      decide (s.out = [.header 1, .row [.float 7], .row [.float 8], .caught .quit])) = true := by
    decide +kernel
  obtain ⟨s, hs, hout⟩ := (Option.any_eq_true _ _).1 hrun
  have hout := of_decide_eq_true hout
  have htable : s.table = [.header 1, .row [.float 7], .row [.float 8]] := by rw [table, hout]; rfl
  have hsignals : s.signals = [.quit] := by rw [signals, hout]; rfl
  obtain ⟨-, hended, -, htabled⟩ :=
    output_table () (.ofString "a") true false interrupted s hs fun _ => []
  rcases htabled rfl with hnone | ⟨n, hhead, -, hcolumns⟩
  · rw [htable] at hnone
    cases hnone
  · obtain rfl : 1 = n := Printed.header.inj (List.cons.inj (htable.symm.trans hhead)).1
    exact ⟨s, hs, hout, hended (by rw [hsignals]; exact List.cons_ne_nil _ _),
      (hcolumns Nat.one_ne_zero).2 (by decide +kernel)⟩

end Listen

end DiamondApparatus
