import Mathlib.Data.List.Basic

/-!
# Contents that are written over

Contents give each key at most one value; a write is of the same kind, and what it has goes before
what there was (`Contents.write`). After any number of writes a key has what the last of them that
touched it says (`Contents.writeAll_of_none`), so that two stretches of a history which differ only
by writes elsewhere agree on it (`Contents.writeAll_take`).
-/

/-- **Contents**: at most one value for each key. -/
abbrev Contents (κ α : Type) := κ → Option α

namespace Contents

variable {κ α : Type} (c : Contents κ α)

/-- Lays a write over contents. -/
def write (w : Contents κ α) : Contents κ α := fun k => (w k).or (c k)

/-- Lays writes over contents, one after the other. -/
def writeAll (ws : List (Contents κ α)) : Contents κ α := ws.foldl write c

variable {c} {ws ws' : List (Contents κ α)} {k : κ}

theorem writeAll_append : c.writeAll (ws ++ ws') = (c.writeAll ws).writeAll ws' :=
  List.foldl_append

/-- **What no write touches** stays. -/
theorem writeAll_of_none (h : ∀ w ∈ ws, w k = none) : c.writeAll ws k = c k := by
  induction ws generalizing c with
  | nil => rfl
  | cons w ws ih =>
    obtain ⟨hw, hws⟩ := List.forall_mem_cons.mp h
    refine (ih hws).trans ?_
    rw [write, hw, Option.none_or]

/-- **A key is the same at two times** between which nothing has been written to it. -/
theorem writeAll_take {n m : ℕ} (hle : n ≤ m)
    (h : ∀ i w, n ≤ i → i < m → ws[i]? = some w → w k = none) :
    c.writeAll (ws.take m) k = c.writeAll (ws.take n) k := by
  obtain ⟨d, rfl⟩ := Nat.exists_eq_add_of_le hle
  rw [List.take_add, writeAll_append]
  refine writeAll_of_none fun w hw => ?_
  obtain ⟨i, hi, heq⟩ := List.getElem_of_mem hw
  rw [List.length_take] at hi
  have hget : ws[n + i]? = some w := by
    rw [← heq, List.getElem_take, List.getElem_drop]
    exact List.getElem?_eq_getElem _
  exact h (n + i) w (Nat.le_add_right _ _) (by omega) hget

end Contents
