import Mathlib.Data.List.Induction

/-!
# A cell that remembers whether it was read

* `Cell α` : the last value written, if any, and whether it has been read since;
* `Op`, `run` : writes and reads, and the cell after them;
* `run_value` : the value is that of the last write; `run_fresh` : it is fresh exactly when a write
  comes behind all reads. Both look at the operations from the last one back.
-/

namespace DiamondApparatus.Lib

structure Cell (α : Type) where
  value : Option α := none
  fresh : Bool := false

namespace Cell
variable {α : Type}

inductive Op (α : Type)
  | write (a : α)
  | read

def Op.written : Op α → Option α
  | .write a => some a
  | .read => none

def apply (c : Cell α) : Op α → Cell α
  | .write a => { value := some a, fresh := true }
  | .read => { c with fresh := false }

def run (ops : List (Op α)) : Cell α := ops.foldl apply {}

@[simp] theorem run_snoc (ops : List (Op α)) (o : Op α) : run (ops ++ [o]) = (run ops).apply o := by
  rw [run, List.foldl_append]
  rfl

theorem run_value (ops : List (Op α)) : (run ops).value = (ops.filterMap Op.written).getLast? := by
  induction ops using List.reverseRecOn with
  | nil => rfl
  | append_singleton ops o ih =>
    rw [run_snoc, List.filterMap_append]
    cases o with
    | write a => simp [apply, Op.written]
    | read => simpa [apply, Op.written] using ih

/-- The cell is fresh when the last operation was a write; its value is then what that wrote. -/
theorem run_fresh_last {ops : List (Op α)} (h : (run ops).fresh = true) :
    ∃ xs a, ops = xs ++ [.write a] ∧ (run ops).value = some a := by
  rcases List.eq_nil_or_concat ops with rfl | ⟨xs, o, rfl⟩
  · cases h
  · rw [List.concat_eq_append, run_snoc] at h ⊢
    cases o with
    | write a => exact ⟨xs, a, rfl, rfl⟩
    | read => cases h

theorem run_fresh (ops : List (Op α)) :
    (run ops).fresh = true ↔ ∃ xs a ys, ops = xs ++ .write a :: ys ∧ .read ∉ ys := by
  constructor
  · intro h
    obtain ⟨xs, a, rfl, -⟩ := run_fresh_last h
    exact ⟨xs, a, [], rfl, List.not_mem_nil⟩
  · rintro ⟨xs, a, ys, rfl, hread⟩
    induction ys using List.reverseRecOn with
    | nil => rw [run_snoc]; rfl
    | append_singleton ys o _ =>
      rw [← List.cons_append, ← List.append_assoc, run_snoc]
      cases o with
      | write b => rfl
      | read => simp at hread

end Cell

end DiamondApparatus.Lib
