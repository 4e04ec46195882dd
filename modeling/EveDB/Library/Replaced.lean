import Mathlib.Data.List.Basic
import Mathlib.Logic.Function.Basic

/-!
# One replaced cell

A list of which one cell was replaced by a different one (`Replaced`), wherever that cell is. In
a list put together from parts it is one of the parts that is hit (`Replaced.of_append`).

A sum that runs over the cells detects every such damage when its step can be undone, in the
state as well as in the cell (`Replaced.foldl_ne`). Where the sum is stored in the middle of the
list it is about, with its own cells left out of it, the two no longer agree
(`Replaced.mismatch`): either the sum has changed or what is stored, and never both.
-/

/-- The lists differ in one cell. -/
def Replaced {α : Type} (l l' : List α) : Prop :=
  ∃ (i : ℕ) (h : i < l.length) (b : α), b ≠ l[i] ∧ l' = l.set i b

namespace Replaced

variable {α β σ : Type} {l l' as bs : List α}

theorem length_eq (h : Replaced l l') : l'.length = l.length := by
  obtain ⟨i, hi, b, -, rfl⟩ := h
  exact List.length_set

theorem ne (h : Replaced l l') : l' ≠ l := by
  obtain ⟨i, hi, b, hne, rfl⟩ := h
  intro heq
  have hget : (l.set i b)[i]? = l[i]? := by rw [heq]
  rw [List.getElem?_set_self hi, List.getElem?_eq_getElem hi] at hget
  exact hne (Option.some.inj hget)

theorem append_right (h : Replaced as l') (bs : List α) : Replaced (as ++ bs) (l' ++ bs) := by
  obtain ⟨i, hi, b, hne, rfl⟩ := h
  refine ⟨i, by rw [List.length_append]; omega, b, ?_, (List.set_append_left i b hi).symm⟩
  rwa [List.getElem_append_left hi]

theorem append_left (as : List α) (h : Replaced bs l') : Replaced (as ++ bs) (as ++ l') := by
  obtain ⟨i, hi, b, hne, rfl⟩ := h
  refine ⟨as.length + i, by rw [List.length_append]; omega, b, ?_, ?_⟩
  · rw [List.getElem_append_right (Nat.le_add_right _ _)]
    simpa using hne
  · rw [List.set_append_right _ _ (Nat.le_add_right _ _), Nat.add_sub_cancel_left]

/-- **One of two parts is hit.** -/
theorem of_append (h : Replaced (as ++ bs) l') :
    (∃ as', Replaced as as' ∧ l' = as' ++ bs) ∨ ∃ bs', Replaced bs bs' ∧ l' = as ++ bs' := by
  obtain ⟨i, hi, b, hne, rfl⟩ := h
  rcases Nat.lt_or_ge i as.length with hlt | hge
  · rw [List.getElem_append_left hlt] at hne
    exact Or.inl ⟨_, ⟨i, hlt, b, hne, rfl⟩, List.set_append_left i b hlt⟩
  · rw [List.length_append] at hi
    rw [List.getElem_append_right hge] at hne
    exact Or.inr ⟨_, ⟨i - as.length, by omega, b, hne, rfl⟩, List.set_append_right i b hge⟩

/-- **A running sum whose step can be undone** changes with one cell. -/
theorem foldl_ne {f : σ → α → σ} (hstate : ∀ a, Function.Injective fun s => f s a)
    (hcell : ∀ s, Function.Injective (f s)) (h : Replaced l l') (s : σ) :
    l'.foldl f s ≠ l.foldl f s := by
  obtain ⟨i, hi, b, hne, rfl⟩ := h
  have hfold (l : List α) : Function.Injective fun s => l.foldl f s := by
    induction l with
    | nil => exact fun _ _ heq => heq
    | cons a l ih => exact fun _ _ heq => hstate a (ih heq)
  intro heq
  have hsplit : l.take i ++ l[i] :: l.drop (i + 1) = l := by
    rw [← List.drop_eq_getElem_cons, List.take_append_drop]
  conv_rhs at heq => rw [← hsplit]
  rw [List.set_eq_take_append_cons_drop, if_pos hi, List.foldl_append, List.foldl_append,
    List.foldl_cons, List.foldl_cons] at heq
  exact hne (hcell _ (hfold _ heq))

/-- **A stored sum no longer agrees**: the list is `as ++ cs ++ bs`, the sum is taken with `zs` in
place of the cells `cs` it is stored in. -/
theorem mismatch {sum value : List α → β} {cs zs : List α}
    (hsum : ∀ l l', Replaced l l' → sum l' ≠ sum l)
    (hvalue : ∀ l l', Replaced l l' → value l' ≠ value l)
    (hstored : value cs = sum (as ++ (zs ++ bs))) (h : Replaced (as ++ (cs ++ bs)) l') :
    ∃ as' cs' bs', l' = as' ++ (cs' ++ bs') ∧ as'.length = as.length ∧
      cs'.length = cs.length ∧ value cs' ≠ sum (as' ++ (zs ++ bs')) := by
  rcases h.of_append with ⟨as', has, rfl⟩ | ⟨l', hrest, rfl⟩
  · refine ⟨as', cs, bs, rfl, has.length_eq, rfl, fun heq => ?_⟩
    exact hsum _ _ (has.append_right (zs ++ bs)) (heq.symm.trans hstored)
  rcases hrest.of_append with ⟨cs', hcs, rfl⟩ | ⟨bs', hbs, rfl⟩
  · refine ⟨as, cs', bs, rfl, rfl, hcs.length_eq, fun heq => ?_⟩
    exact hvalue _ _ hcs (heq.trans hstored.symm)
  · refine ⟨as, cs, bs', rfl, rfl, rfl, fun heq => ?_⟩
    exact hsum _ _ ((hbs.append_left zs).append_left as) (heq.symm.trans hstored)

end Replaced
