import Mathlib.Data.List.Basic

/-!
# Run lengths

A list as its runs, each a count and the element it repeats (`RunLength.runs`). A run ends where
the elements change, and where its count has reached a limit, so a count fits whatever it is
written in (`RunLength.count_mem_runs`); the runs expand to the list they were taken from
(`RunLength.expand_runs`).
-/

namespace RunLength

variable {α : Type*}

/-- The list that runs stand for. -/
def expand (runs : List (ℕ × α)) : List α := runs.flatMap fun run => List.replicate run.1 run.2

@[simp] theorem expand_cons (run : ℕ × α) (runs : List (ℕ × α)) :
    expand (run :: runs) = List.replicate run.1 run.2 ++ expand runs := List.flatMap_cons

variable [DecidableEq α]

/-- The runs of `n` copies of `a` with a list behind them. -/
def runsFrom (limit : ℕ) (a : α) (n : ℕ) : List α → List (ℕ × α)
  | [] => [(n, a)]
  | b :: rest =>
    if n < limit ∧ b = a then runsFrom limit a (n + 1) rest
    else (n, a) :: runsFrom limit b 1 rest

/-- The runs of a list. -/
def runs (limit : ℕ) : List α → List (ℕ × α)
  | [] => []
  | a :: rest => runsFrom limit a 1 rest

theorem expand_runsFrom (limit : ℕ) (a : α) (n : ℕ) (l : List α) :
    expand (runsFrom limit a n l) = List.replicate n a ++ l := by
  induction l generalizing a n with
  | nil => rw [runsFrom, expand_cons]; rfl
  | cons b rest ih =>
    rw [runsFrom]
    split
    · next h =>
      -- the run goes on: its next copy is the head of the list
      obtain ⟨-, rfl⟩ := h
      rw [ih, List.replicate_succ', List.append_assoc, List.singleton_append]
    · rw [expand_cons, ih, List.replicate_one, List.singleton_append]

/-- **The runs of a list expand to the list.** -/
theorem expand_runs (limit : ℕ) (l : List α) : expand (runs limit l) = l := by
  cases l with
  | nil => rfl
  | cons a rest => rw [runs, expand_runsFrom, List.replicate_one, List.singleton_append]

theorem count_mem_runsFrom {limit n : ℕ} (hpos : 0 < n) (hle : n ≤ limit) (a : α) (l : List α) :
    ∀ run ∈ runsFrom limit a n l, 0 < run.1 ∧ run.1 ≤ limit := by
  induction l generalizing a n with
  | nil => exact List.forall_mem_singleton.mpr ⟨hpos, hle⟩
  | cons b rest ih =>
    rw [runsFrom]
    split
    · next h => exact ih (Nat.succ_pos n) h.1 a
    · exact List.forall_mem_cons.mpr ⟨⟨hpos, hle⟩, ih Nat.one_pos (Nat.lt_of_lt_of_le hpos hle) b⟩

/-- **A run is never empty, and never longer than the limit.** -/
theorem count_mem_runs {limit : ℕ} (hlimit : 0 < limit) (l : List α) :
    ∀ run ∈ runs limit l, 0 < run.1 ∧ run.1 ≤ limit := by
  cases l with
  | nil => exact List.forall_mem_nil _
  | cons a rest => exact count_mem_runsFrom Nat.one_pos hlimit a rest

end RunLength
