import EveDB.OrderedMap
import Mathlib.Data.List.Pairwise

/-!
# The entries of an ordered map

Every operation on the tree is an operation on the list of its entries: rotations, and so
`balance` and `join`, keep it, and each update filters it or puts an entry into it
(`Link.toList_insert`, `Link.toList_remove`, `Link.toList_retainFrom`). Lookups read the
list when its keys ascend, and so does a range (`Range.collect_descend`).
-/

namespace EveDB

namespace Link

variable {K V : Type}

/-! ### Balance -/

@[simp] theorem toList_nil : (nil : Link K V).toList = [] := rfl

@[simp] theorem toList_node (key : K) (value : V) (left right : Link K V) (h : ℕ) :
    (node key value left right h).toList = left.toList ++ (key, value) :: right.toList := rfl

@[simp] theorem toList_mk (key : K) (value : V) (left right : Link K V) :
    (mk key value left right).toList = left.toList ++ (key, value) :: right.toList := rfl

@[simp] theorem toList_rotateLeft {key : K} {value : V} {left right : Link K V}
    (h : right ≠ nil) :
    (rotateLeft key value left right h).toList =
      left.toList ++ (key, value) :: right.toList := by
  cases right with
  | nil => exact absurd rfl h
  | node => simp [rotateLeft]

@[simp] theorem toList_rotateRight {key : K} {value : V} {left right : Link K V}
    (h : left ≠ nil) :
    (rotateRight key value left right h).toList =
      left.toList ++ (key, value) :: right.toList := by
  cases left with
  | nil => exact absurd rfl h
  | node => simp [rotateRight]

@[simp] theorem toList_balance (link : Link K V) : link.balance.toList = link.toList := by
  cases link with
  | nil => rfl
  | node key value left right height =>
    rw [balance]
    split_ifs with hl hr
    · cases left with
      | nil => exact absurd hl (Nat.not_lt_zero _)
      | node => dsimp only; split_ifs <;> simp
    · cases right with
      | nil => exact absurd hr (Nat.not_lt_zero _)
      | node => dsimp only; split_ifs <;> simp
    · rfl

@[simp] theorem toList_join (left : Link K V) (key : K) (value : V) (right : Link K V) :
    (join left key value right).toList = left.toList ++ (key, value) :: right.toList := by
  fun_induction join left key value right with
  | case1 right topKey topValue topLeft topRight topHeight _ _ ih => simp [ih]
  | case2 left topKey topValue topLeft topRight topHeight _ _ _ ih => simp [ih]
  | case3 left right => rw [toList_mk]

/-! ### Ascending entries -/

/-- The keys of a list of entries ascend. -/
def Ascends [LT K] (entries : List (K × V)) : Prop :=
  entries.Pairwise fun x y => x.1 < y.1

/-- A filter that drops everything, or nothing. -/
theorem filter_eq_nil_of_forall {l : List (K × V)} {p : K × V → Prop} [DecidablePred p]
    (h : ∀ x ∈ l, ¬ p x) : l.filter p = [] :=
  List.filter_eq_nil_iff.mpr fun x hx => by simpa using h x hx

theorem filter_eq_self_of_forall {l : List (K × V)} {p : K × V → Prop} [DecidablePred p]
    (h : ∀ x ∈ l, p x) : l.filter p = l :=
  List.filter_eq_self.mpr fun x hx => by simpa using h x hx

variable [LinearOrder K]

/-- Entries around a middle one ascend when both sides do and lie on their sides of it. -/
theorem ascends_append_cons {l r : List (K × V)} {key : K} {value : V} :
    Ascends (l ++ (key, value) :: r) ↔
      Ascends l ∧ Ascends r ∧ (∀ x ∈ l, x.1 < key) ∧ ∀ x ∈ r, key < x.1 := by
  unfold Ascends
  rw [List.pairwise_append, List.pairwise_cons]
  constructor
  · rintro ⟨hl, ⟨hkey, hr⟩, hcross⟩
    exact ⟨hl, hr, fun x hx => hcross x hx _ List.mem_cons_self, hkey⟩
  · rintro ⟨hl, hr, hlkey, hkeyr⟩
    refine ⟨hl, ⟨hkeyr, hr⟩, fun x hx y hy => ?_⟩
    rcases List.mem_cons.mp hy with rfl | hy
    · exact hlkey x hx
    · exact (hlkey x hx).trans (hkeyr y hy)

/-- The last of ascending entries is the greatest. -/
theorem getLast?_eq_some {entries : List (K × V)} (h : Ascends entries) {entry : K × V} :
    entries.getLast? = some entry ↔ entry ∈ entries ∧ ∀ x ∈ entries, x.1 ≤ entry.1 := by
  rcases entries.eq_nil_or_concat with rfl | ⟨front, last, rfl⟩
  · simp
  · rw [List.concat_eq_append] at h ⊢
    obtain ⟨-, -, hfront⟩ := List.pairwise_append.mp h
    have hlt : ∀ x ∈ front, x.1 < last.1 := fun x hx => hfront x hx last (List.mem_singleton_self _)
    rw [List.getLast?_concat]
    constructor
    · rintro ⟨⟩
      refine ⟨by simp, fun x hx => ?_⟩
      rcases List.mem_append.mp hx with hx | hx
      · exact (hlt x hx).le
      · rw [List.mem_singleton.mp hx]
    · rintro ⟨hmem, hmax⟩
      rcases List.mem_append.mp hmem with hmem | hmem
      · exact absurd (hmax last (by simp)) (not_le.mpr (hlt entry hmem))
      · rw [List.mem_singleton.mp hmem]

/-! ### Updates -/

/-- Putting an entry into a list in front of the keys behind it. -/
def put (key : K) (value : V) (entries : List (K × V)) : List (K × V) :=
  entries.filter (fun x => x.1 < key) ++ (key, value) :: entries.filter fun x => key < x.1

/-- **An insertion puts the entry in its place.** -/
theorem toList_insert (key : K) (value : V) {link : Link K V} (h : Ascends link.toList) :
    (link.insert key value).toList = put key value link.toList := by
  induction link with
  | nil => rfl
  | node oldKey oldValue left right height ihLeft ihRight =>
    obtain ⟨hl, hr, hlkey, hkeyr⟩ := ascends_append_cons.mp h
    rw [insert, toList_balance, put, toList_node]
    simp only [List.filter_append, List.filter_cons]
    cases hcmp : compare key oldKey with
    | lt =>
      have hlt : key < oldKey := compare_lt_iff_lt.mp hcmp
      rw [toList_mk, ihLeft hl, put]
      rw [filter_eq_nil_of_forall (l := right.toList) (p := fun x => x.1 < key)
        fun x hx => not_lt.mpr (hlt.trans (hkeyr x hx)).le]
      rw [filter_eq_self_of_forall (l := right.toList) (p := fun x => key < x.1)
        fun x hx => hlt.trans (hkeyr x hx)]
      simp [hlt, hlt.le]
    | gt =>
      have hlt : oldKey < key := compare_gt_iff_gt.mp hcmp
      rw [toList_mk, ihRight hr, put]
      rw [filter_eq_self_of_forall (l := left.toList) (p := fun x => x.1 < key)
        fun x hx => (hlkey x hx).trans hlt]
      rw [filter_eq_nil_of_forall (l := left.toList) (p := fun x => key < x.1)
        fun x hx => not_lt.mpr ((hlkey x hx).trans hlt).le]
      simp [hlt, hlt.le]
    | eq =>
      obtain rfl : key = oldKey := compare_eq_iff_eq.mp hcmp
      rw [toList_mk]
      rw [filter_eq_self_of_forall (l := left.toList) (p := fun x => x.1 < key) hlkey]
      rw [filter_eq_nil_of_forall (l := left.toList) (p := fun x => key < x.1)
        fun x hx => not_lt.mpr (hlkey x hx).le]
      rw [filter_eq_nil_of_forall (l := right.toList) (p := fun x => x.1 < key)
        fun x hx => not_lt.mpr (hkeyr x hx).le]
      rw [filter_eq_self_of_forall (l := right.toList) (p := fun x => key < x.1) hkeyr]
      simp

omit [LinearOrder K] in
/-- The first entry is in front. -/
theorem exists_toList_eq_first (key : K) (value : V) (left right : Link K V) (h : ℕ) :
    ∃ tail, (node key value left right h).toList = first key value left :: tail := by
  induction left generalizing key value right h with
  | nil => exact ⟨right.toList, rfl⟩
  | node leftKey leftValue left leftRight leftHeight ih _ =>
    obtain ⟨tail, htail⟩ := ih leftKey leftValue leftRight leftHeight
    exact ⟨tail ++ (key, value) :: right.toList, by rw [toList_node, htail]; rfl⟩

/-- **A removal drops the entry of the key.** -/
theorem toList_remove (key : K) {link : Link K V} (h : Ascends link.toList) :
    (link.remove key).toList = link.toList.filter fun x => x.1 ≠ key := by
  fun_induction remove key link with
  | case1 => rfl
  | case2 key topKey topValue left right height hcmp ih =>
    obtain ⟨hl, hr, hlkey, hkeyr⟩ := ascends_append_cons.mp h
    have hlt : key < topKey := compare_lt_iff_lt.mp hcmp
    rw [toList_join, ih hl, toList_node, List.filter_append, List.filter_cons,
      filter_eq_self_of_forall (l := right.toList) fun x hx => (hlt.trans (hkeyr x hx)).ne']
    simp [hlt.ne']
  | case3 key topKey topValue left right height hcmp ih =>
    obtain ⟨hl, hr, hlkey, hkeyr⟩ := ascends_append_cons.mp h
    have hlt : topKey < key := compare_gt_iff_gt.mp hcmp
    rw [toList_join, ih hr, toList_node, List.filter_append, List.filter_cons,
      filter_eq_self_of_forall (l := left.toList) fun x hx => ((hlkey x hx).trans hlt).ne]
    simp [hlt.ne]
  | case4 key topKey topValue left height hcmp =>
    obtain ⟨hl, -, hlkey, -⟩ := ascends_append_cons.mp h
    obtain rfl : key = topKey := compare_eq_iff_eq.mp hcmp
    rw [toList_node, List.filter_append, List.filter_cons,
      filter_eq_self_of_forall (l := left.toList) fun x hx => (hlkey x hx).ne]
    simp
  | case5 key topKey topValue left height hcmp rightKey rightValue rightLeft rightRight rightHeight
      next ih =>
    obtain ⟨hl, hr, hlkey, hkeyr⟩ := ascends_append_cons.mp h
    obtain rfl : key = topKey := compare_eq_iff_eq.mp hcmp
    -- the first entry on the right takes the place of the one that goes
    obtain ⟨tail, htail⟩ := exists_toList_eq_first rightKey rightValue rightLeft rightRight
      rightHeight
    have hdrop : ((node rightKey rightValue rightLeft rightRight rightHeight).remove
        next.1).toList = tail := by
      rw [ih hr, htail]
      have hnext := (List.pairwise_cons.mp (htail ▸ hr)).1
      rw [List.filter_cons, filter_eq_self_of_forall fun x hx => (hnext x hx).ne']
      simp [next]
    rw [toList_join, hdrop, toList_node, List.filter_append, List.filter_cons,
      filter_eq_self_of_forall (l := left.toList) fun x hx => (hlkey x hx).ne,
      filter_eq_self_of_forall fun x hx => (hkeyr x hx).ne', htail]
    simp [next]

/-- **`retain_from` keeps the keys from there on.** -/
theorem toList_retainFrom (key : K) {link : Link K V} (h : Ascends link.toList) :
    (link.retainFrom key).toList = link.toList.filter fun x => key ≤ x.1 := by
  fun_induction retainFrom key link with
  | case1 => rfl
  | case2 topKey topValue left right height hlt ih =>
    obtain ⟨hl, hr, hlkey, hkeyr⟩ := ascends_append_cons.mp h
    rw [ih hr, toList_node, List.filter_append, List.filter_cons,
      filter_eq_nil_of_forall (l := left.toList) fun x hx =>
        not_le.mpr ((hlkey x hx).trans hlt)]
    simp [hlt]
  | case3 topKey topValue left right height hle ih =>
    obtain ⟨hl, hr, hlkey, hkeyr⟩ := ascends_append_cons.mp h
    have hle : key ≤ topKey := not_lt.mp hle
    rw [toList_join, ih hl, toList_node, List.filter_append, List.filter_cons,
      filter_eq_self_of_forall (l := right.toList) fun x hx => hle.trans (hkeyr x hx).le]
    simp [hle]

/-! ### Lookups -/

/-- **A lookup finds the entry of the key.** -/
theorem get_eq_some {key : K} {link : Link K V} (h : Ascends link.toList) {value : V} :
    link.get key = some value ↔ (key, value) ∈ link.toList := by
  fun_induction get key link with
  | case1 => simp
  | case2 nodeKey nodeValue left right height hcmp ih =>
    obtain ⟨hl, hr, hlkey, hkeyr⟩ := ascends_append_cons.mp h
    have hlt : key < nodeKey := compare_lt_iff_lt.mp hcmp
    have hright : (key, value) ∉ right.toList := fun hx => (hlt.trans (hkeyr _ hx)).false
    simp [ih hl, hright, hlt.ne]
  | case3 nodeKey nodeValue left right height hcmp ih =>
    obtain ⟨hl, hr, hlkey, hkeyr⟩ := ascends_append_cons.mp h
    have hlt : nodeKey < key := compare_gt_iff_gt.mp hcmp
    have hleft : (key, value) ∉ left.toList := fun hx => ((hlkey _ hx).trans hlt).false
    simp [ih hr, hleft, hlt.ne']
  | case4 nodeKey nodeValue left right height hcmp =>
    obtain ⟨hl, hr, hlkey, hkeyr⟩ := ascends_append_cons.mp h
    obtain rfl : key = nodeKey := compare_eq_iff_eq.mp hcmp
    have hleft : (key, value) ∉ left.toList := fun hx => (hlkey _ hx).false
    have hright : (key, value) ∉ right.toList := fun hx => (hkeyr _ hx).false
    simp [hleft, hright, eq_comm]

/-- **`floor` finds the last entry up to the key.** -/
theorem floorLoop_eq (key : K) (result : Option (K × V)) {link : Link K V}
    (h : Ascends link.toList) :
    link.floorLoop key result =
      ((link.toList.filter fun x => x.1 ≤ key).getLast?).or result := by
  fun_induction floorLoop key result link with
  | case1 => simp
  | case2 result nodeKey nodeValue left right height hle ih =>
    obtain ⟨hl, hr, hlkey, hkeyr⟩ := ascends_append_cons.mp h
    rw [ih hr, toList_node, List.filter_append, List.filter_cons, if_pos (by simpa using hle),
      List.getLast?_append, List.getLast?_cons]
    cases (right.toList.filter fun x => x.1 ≤ key).getLast? <;> rfl
  | case3 result nodeKey nodeValue left right height hlt ih =>
    obtain ⟨hl, hr, hlkey, hkeyr⟩ := ascends_append_cons.mp h
    have hlt : key < nodeKey := not_le.mp hlt
    rw [ih hl, toList_node, List.filter_append, List.filter_cons,
      filter_eq_nil_of_forall (l := right.toList) fun x hx =>
        not_le.mpr (hlt.trans (hkeyr x hx))]
    simp [not_le.mpr hlt]

/-! ### Ranges -/

end Link

namespace Bound

variable {K : Type} [LinearOrder K]

/-- What is before the start of a range goes down, and what is behind its end goes up. -/
theorem startsAfter_of_le {start : Bound K} {a b : K} (hab : a ≤ b) (h : start.startsAfter b) :
    start.startsAfter a := by
  cases start with
  | included key => exact hab.trans_lt h
  | excluded key => exact hab.trans h
  | unbounded => exact h

theorem endsBefore_of_le {upper : Bound K} {a b : K} (hab : a ≤ b) (h : upper.endsBefore a) :
    upper.endsBefore b := by
  cases upper with
  | included key => exact h.trans_le hab
  | excluded key => exact le_trans h hab
  | unbounded => exact h

end Bound

namespace Link

variable {K V : Type} [LinearOrder K]

/-- The descent of a range puts the entries that are not before its start in front. -/
theorem pending_descend (start : Bound K) {link : Link K V} (h : Ascends link.toList)
    (stack : List (StackNode K V)) :
    Range.pending (link.descend start stack) =
      (link.toList.filter fun x => ¬ start.startsAfter x.1) ++ Range.pending stack := by
  fun_induction descend start link stack with
  | case1 => rfl
  | case2 key value left right height stack hbelow ih =>
    obtain ⟨hl, hr, hlkey, hkeyr⟩ := ascends_append_cons.mp h
    rw [ih hr, toList_node, List.filter_append, List.filter_cons,
      filter_eq_nil_of_forall (l := left.toList) fun x hx =>
        not_not.mpr (Bound.startsAfter_of_le (hlkey x hx).le hbelow)]
    simp [hbelow]
  | case3 key value left right height stack habove ih =>
    obtain ⟨hl, hr, hlkey, hkeyr⟩ := ascends_append_cons.mp h
    rw [ih hl, toList_node, List.filter_append, List.filter_cons,
      filter_eq_self_of_forall (l := right.toList) (p := fun x => ¬ start.startsAfter x.1)
        fun x hx hx' => habove (Bound.startsAfter_of_le (hkeyr x hx).le hx')]
    simp [habove, Range.pending]

end Link

namespace Range

variable {K V : Type} [LinearOrder K]

/-- **A range yields the pending entries** up to its end. -/
theorem collect_eq {range : Range K V} (h : Link.Ascends (pending range.stack)) :
    range.collect = (pending range.stack).filter fun x => ¬ range.upper.endsBefore x.1 := by
  fun_induction collect range with
  | case1 range hnone =>
    obtain ⟨stack, upper⟩ := range
    cases stack with
    | nil => rfl
    | cons node stack =>
      by_cases hend : upper.endsBefore node.key
      · refine (Link.filter_eq_nil_of_forall fun x hx => not_not.mpr ?_).symm
        refine Bound.endsBefore_of_le ?_ hend
        simp only [pending, List.flatMap_cons, List.cons_append] at h hx
        rcases List.mem_cons.mp hx with rfl | hx
        · exact le_rfl
        · exact ((List.pairwise_cons.mp h).1 x hx).le
      · simp [next, hend] at hnone
  | case2 range entry hnext ih =>
    obtain ⟨stack, upper⟩ := range
    cases stack with
    | nil => cases hnext
    | cons node stack =>
      by_cases hend : upper.endsBefore node.key
      · simp [next, hend] at hnext
      · simp only [next, hend, if_false, Option.some.injEq] at hnext ih ⊢
        simp only [pending_pushLeft] at ih
        simp only [pending, List.flatMap_cons, List.cons_append] at h ih ⊢
        rw [ih (List.pairwise_cons.mp h).2, List.filter_cons, if_pos (by simpa using hend), hnext]

end Range

end EveDB
