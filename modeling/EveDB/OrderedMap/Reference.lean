import EveDB.OrderedMap.Entries
import Mathlib.Data.List.Forall2

/-!
# The ordered map is a sorted map

A tree is `Link.Balanced` when its stored heights are right and the heights of siblings
differ by at most one. Rotations restore that when it is off by one more
(`Link.balanced_balance`), which is all that `insert` needs and all that each level of
`join` leaves to do: a subtree grows by at most one (`Link.balanced_join`).

The main theorem compares any number of maps, some of them clones of others, with finite
maps under the same updates.
-/

namespace EveDB

namespace Link

variable {K V : Type}

/-! ### Balance -/

/-- The heights are right, and those of siblings differ by at most one. -/
def Balanced : Link K V → Prop
  | nil => True
  | node _ _ left right height =>
    left.Balanced ∧ right.Balanced ∧ height = 1 + max left.height right.height ∧
      left.height ≤ right.height + 1 ∧ right.height ≤ left.height + 1

theorem balanced_mk {key : K} {value : V} {left right : Link K V} (hl : left.Balanced)
    (hr : right.Balanced) (hlr : left.height ≤ right.height + 1)
    (hrl : right.height ≤ left.height + 1) : (mk key value left right).Balanced :=
  ⟨hl, hr, rfl, hlr, hrl⟩

@[simp] theorem height_mk (key : K) (value : V) (left right : Link K V) :
    (mk key value left right).height = 1 + max left.height right.height := rfl

/-- **Rotations restore the balance** of a node whose children differ by at most two, and
leave the others as they are. -/
theorem balanced_balance (key : K) (value : V) {left right : Link K V} (hl : left.Balanced)
    (hr : right.Balanced) (hlr : left.height ≤ right.height + 2)
    (hrl : right.height ≤ left.height + 2) :
    (mk key value left right).balance.Balanced ∧
      max left.height right.height ≤ (mk key value left right).balance.height ∧
      (mk key value left right).balance.height ≤ max left.height right.height + 1 ∧
      (left.height ≤ right.height + 1 → right.height ≤ left.height + 1 →
        (mk key value left right).balance.height = 1 + max left.height right.height) := by
  rw [mk, balance]
  split_ifs with h₁ h₂
  · cases left with
    | nil => exact absurd h₁ (Nat.not_lt_zero _)
    | node lk lv ll lr lh =>
      obtain ⟨hll, hlr', hlh, hb₁, hb₂⟩ := hl
      dsimp only
      split_ifs with h₂
      · cases lr with
        | nil => exact absurd h₂ (Nat.not_lt_zero _)
        | node pk pv pl pr ph =>
          obtain ⟨hpl, hpr, hph, hb₃, hb₄⟩ := hlr'
          simp only [rotateLeft, rotateRight, mk]
          refine ⟨⟨⟨hll, hpl, rfl, ?_, ?_⟩, ⟨hpr, hr, rfl, ?_, ?_⟩, rfl, ?_, ?_⟩, ?_, ?_, ?_⟩ <;>
            simp only [height_node] at * <;> omega
      · simp only [rotateRight, mk]
        refine ⟨⟨hll, ⟨hlr', hr, rfl, ?_, ?_⟩, rfl, ?_, ?_⟩, ?_, ?_, ?_⟩ <;>
            simp only [height_node] at * <;> omega
  · cases right with
    | nil => exact absurd h₂ (Nat.not_lt_zero _)
    | node rk rv rl rr rh =>
      obtain ⟨hrl', hrr, hrh, hb₁, hb₂⟩ := hr
      dsimp only
      split_ifs with h₃
      · cases rl with
        | nil => exact absurd h₃ (Nat.not_lt_zero _)
        | node pk pv pl pr ph =>
          obtain ⟨hpl, hpr, hph, hb₃, hb₄⟩ := hrl'
          simp only [rotateLeft, rotateRight, mk]
          refine ⟨⟨⟨hl, hpl, rfl, ?_, ?_⟩, ⟨hpr, hrr, rfl, ?_, ?_⟩, rfl, ?_, ?_⟩, ?_, ?_, ?_⟩ <;>
            simp only [height_node] at * <;> omega
      · simp only [rotateLeft, mk]
        refine ⟨⟨⟨hl, hrl', rfl, ?_, ?_⟩, hrr, rfl, ?_, ?_⟩, ?_, ?_, ?_⟩ <;>
            simp only [height_node] at * <;> omega
  · have hheight : (node key value left right (1 + max left.height right.height)).height =
        1 + max left.height right.height := rfl
    refine ⟨⟨hl, hr, rfl, ?_, ?_⟩, ?_, ?_, ?_⟩ <;> omega

/-- **`join` balances trees of any heights**, and grows the taller one by at most one. -/
theorem balanced_join {key : K} {value : V} {left right : Link K V} (hl : left.Balanced)
    (hr : right.Balanced) :
    (join left key value right).Balanced ∧
      max left.height right.height ≤ (join left key value right).height ∧
      (join left key value right).height ≤ max left.height right.height + 1 := by
  fun_induction join left key value right with
  | case1 right topKey topValue topLeft topRight topHeight _ hgt ih =>
    obtain ⟨htl, htr, hh, hb₁, hb₂⟩ := hl
    obtain ⟨hj, hlow, hhigh⟩ := ih htr hr
    simp only [height_node] at *
    obtain ⟨hbal, hmin, hmax, heq⟩ := balanced_balance topKey topValue htl hj (by omega)
      (by omega)
    exact ⟨hbal, by omega, by omega⟩
  | case2 left topKey topValue topLeft topRight topHeight _ hle hgt ih =>
    obtain ⟨htl, htr, hh, hb₁, hb₂⟩ := hr
    obtain ⟨hj, hlow, hhigh⟩ := ih hl htl
    simp only [height_node] at *
    obtain ⟨hbal, hmin, hmax, heq⟩ := balanced_balance topKey topValue hj htr (by omega)
      (by omega)
    exact ⟨hbal, by omega, by omega⟩
  | case3 left right h₁ h₂ =>
    refine ⟨balanced_mk hl hr (by omega) (by omega), ?_, ?_⟩ <;> rw [height_mk] <;> omega

variable [LinearOrder K]

/-- An insertion keeps the balance, and grows the tree by at most one. -/
theorem balanced_insert (key : K) (value : V) {link : Link K V} (h : link.Balanced) :
    (link.insert key value).Balanced ∧ link.height ≤ (link.insert key value).height ∧
      (link.insert key value).height ≤ link.height + 1 := by
  induction link with
  | nil => exact ⟨⟨trivial, trivial, rfl, by simp, by simp⟩, by simp, by simp [insert]⟩
  | node oldKey oldValue left right height ihLeft ihRight =>
    obtain ⟨hl, hr, hh, hb₁, hb₂⟩ := h
    rw [insert, height_node]
    cases compare key oldKey with
    | lt =>
      obtain ⟨hi, hlow, hhigh⟩ := ihLeft hl
      obtain ⟨hbal, hmin, hmax, heq⟩ := balanced_balance oldKey oldValue hi hr (by omega)
        (by omega)
      dsimp only
      exact ⟨hbal, by omega, by omega⟩
    | gt =>
      obtain ⟨hi, hlow, hhigh⟩ := ihRight hr
      obtain ⟨hbal, hmin, hmax, heq⟩ := balanced_balance oldKey oldValue hl hi (by omega)
        (by omega)
      dsimp only
      exact ⟨hbal, by omega, by omega⟩
    | eq =>
      obtain ⟨hbal, -, -, heq⟩ := balanced_balance key value hl hr (by omega) (by omega)
      dsimp only
      exact ⟨hbal, by omega, by omega⟩

/-- A removal keeps the balance. -/
theorem balanced_remove (key : K) {link : Link K V} (h : link.Balanced) :
    (link.remove key).Balanced := by
  fun_induction remove key link with
  | case1 => trivial
  | case2 key topKey topValue left right height hcmp ih => exact (balanced_join (ih h.1) h.2.1).1
  | case3 key topKey topValue left right height hcmp ih => exact (balanced_join h.1 (ih h.2.1)).1
  | case4 key topKey topValue left height hcmp => exact h.1
  | case5 key topKey topValue left height hcmp rightKey rightValue rightLeft rightRight rightHeight
      next ih =>
    exact (balanced_join h.1 (ih h.2.1)).1

/-- And so does `retain_from`. -/
theorem balanced_retainFrom (key : K) {link : Link K V} (h : link.Balanced) :
    (link.retainFrom key).Balanced := by
  fun_induction retainFrom key link with
  | case1 => trivial
  | case2 topKey topValue left right height hlt ih => exact ih h.2.1
  | case3 topKey topValue left right height hle ih => exact (balanced_join (ih h.1) h.2.1).1

end Link

/-! ### Updates of several maps -/

/-- An update of one of several maps, or a clone of it. -/
inductive Update (K V : Type)
  | insert (i : ℕ) (key : K) (value : V)
  | remove (i : ℕ) (key : K)
  | retainFrom (i : ℕ) (key : K)
  | clear (i : ℕ)
  | clone (i : ℕ)

variable {K V : Type} [LinearOrder K]

/-- What an update makes of the maps. A clone comes behind them. -/
def Update.apply (maps : List (OrderedMap K V)) : Update K V → List (OrderedMap K V)
  | insert i key value => maps.modify i (OrderedMap.insert key value)
  | remove i key => maps.modify i (OrderedMap.remove key)
  | retainFrom i key => maps.modify i (OrderedMap.retainFrom key)
  | clear i => maps.modify i OrderedMap.clear
  | clone i => maps ++ maps[i]?.toList

/-- What it makes of finite maps. -/
def Update.reference (maps : List (K → Option V)) : Update K V → List (K → Option V)
  | insert i key value => maps.modify i fun map => Function.update map key (some value)
  | remove i key => maps.modify i fun map => Function.update map key none
  | retainFrom i key => maps.modify i fun map k => if key ≤ k then map k else none
  | clear i => maps.modify i fun _ _ => none
  | clone i => maps ++ maps[i]?.toList

/-- The key lies within the bounds. -/
def Within (lower upper : Bound K) (key : K) : Prop :=
  ¬ lower.startsAfter key ∧ ¬ upper.endsBefore key

/-- **A tree and a map agree**: the tree is a balanced search tree, and it answers as the
map does. -/
structure OrderedMap.Agrees (tree : OrderedMap K V) (map : K → Option V) : Prop where
  balanced : tree.root.Balanced
  ascends : Link.Ascends tree.root.toList
  get : ∀ key, tree.get key = map key
  containsKey : ∀ key, tree.containsKey key = true ↔ map key ≠ none
  /-- The floor of a key is the entry with the greatest key up to it. -/
  floor : ∀ key entry, tree.floor key = some entry ↔
    map entry.1 = some entry.2 ∧ entry.1 ≤ key ∧ ∀ k, k ≤ key → map k ≠ none → k ≤ entry.1
  /-- A range yields the entries within its bounds, each once and in order. -/
  range : ∀ lower upper, Link.Ascends (tree.range lower upper).collect ∧
    ∀ entry, entry ∈ (tree.range lower upper).collect ↔
      map entry.1 = some entry.2 ∧ Within lower upper entry.1

namespace OrderedMap

variable {tree : OrderedMap K V} {map : K → Option V}

/-- The entries of a tree decide what it agrees with. -/
theorem Agrees.of_entries (hbalanced : tree.root.Balanced)
    (hascends : Link.Ascends tree.root.toList)
    (hmap : ∀ key value, (key, value) ∈ tree.root.toList ↔ map key = some value) :
    tree.Agrees map := by
  have hget : ∀ key, tree.get key = map key := fun key => Option.ext fun value => by
    rw [OrderedMap.get, Link.get_eq_some hascends, hmap]
  refine ⟨hbalanced, hascends, hget, fun key => ?_, fun key entry => ?_, fun lower upper => ?_⟩
  · rw [OrderedMap.containsKey, hget, Option.isSome_iff_ne_none]
  · rw [OrderedMap.floor, Link.floorLoop_eq key none hascends, Option.or_none]
    rw [Link.getLast?_eq_some (hascends.filter _), List.mem_filter, ← hmap entry.1 entry.2,
      and_assoc, decide_eq_true_iff]
    refine and_congr_right fun _ => and_congr_right fun _ =>
      ⟨fun h k hk hne => ?_, fun h x hx => ?_⟩
    · obtain ⟨value, hvalue⟩ := Option.ne_none_iff_exists'.mp hne
      exact h (k, value) (List.mem_filter.mpr ⟨(hmap k value).mpr hvalue, by simpa using hk⟩)
    · obtain ⟨hx, hle⟩ := List.mem_filter.mp hx
      exact h x.1 (by simpa using hle) (by rw [(hmap x.1 x.2).mp hx]; simp)
  · have hpending : Range.pending (tree.range lower upper).stack =
        tree.root.toList.filter fun x => ¬ lower.startsAfter x.1 := by
      rw [OrderedMap.range, Link.pending_descend lower hascends]
      simp [Range.pending]
    have hcollect : (tree.range lower upper).collect = _ :=
      Range.collect_eq (hpending ▸ hascends.filter _)
    rw [hcollect, hpending]
    refine ⟨(hascends.filter _).filter _, fun entry => ?_⟩
    rw [List.mem_filter, List.mem_filter, ← hmap entry.1 entry.2]
    rw [and_assoc, decide_eq_true_iff, decide_eq_true_iff]
    exact Iff.rfl

theorem Agrees.mem_toList (h : tree.Agrees map) {key : K} {value : V} :
    (key, value) ∈ tree.root.toList ↔ map key = some value := by
  rw [← h.get key, OrderedMap.get, Link.get_eq_some h.ascends]

theorem agrees_new : (OrderedMap.new : OrderedMap K V).Agrees fun _ => none :=
  .of_entries trivial List.Pairwise.nil fun key value => by simp [OrderedMap.new]

/-- **Each update keeps a tree and a map in agreement.** -/
theorem Agrees.insert (h : tree.Agrees map) (key : K) (value : V) :
    (tree.insert key value).Agrees (Function.update map key (some value)) := by
  have hlist := Link.toList_insert key value h.ascends
  refine .of_entries (Link.balanced_insert key value h.balanced).1 ?_ fun k v => ?_
  · rw [OrderedMap.insert, hlist, Link.put, Link.ascends_append_cons]
    refine ⟨h.ascends.filter _, h.ascends.filter _, fun x hx => ?_, fun x hx => ?_⟩
    · simpa using (List.mem_filter.mp hx).2
    · simpa using (List.mem_filter.mp hx).2
  · rw [OrderedMap.insert, hlist, Link.put, List.mem_append, List.mem_cons, List.mem_filter,
      List.mem_filter, h.mem_toList]
    rcases eq_or_ne k key with rfl | hne
    · simp [eq_comm]
    · simp [hne, hne.lt_or_gt, ← and_or_left]

theorem Agrees.remove (h : tree.Agrees map) (key : K) :
    (tree.remove key).Agrees (Function.update map key none) := by
  have hlist := Link.toList_remove key h.ascends
  refine .of_entries (Link.balanced_remove key h.balanced) ?_ fun k v => ?_
  · rw [OrderedMap.remove, hlist]
    exact h.ascends.filter _
  · rw [OrderedMap.remove, hlist, List.mem_filter, h.mem_toList]
    rcases eq_or_ne k key with rfl | hne
    · simp
    · simp [hne]

theorem Agrees.retainFrom (h : tree.Agrees map) (key : K) :
    (tree.retainFrom key).Agrees fun k => if key ≤ k then map k else none := by
  have hlist := Link.toList_retainFrom key h.ascends
  refine .of_entries (Link.balanced_retainFrom key h.balanced) ?_ fun k v => ?_
  · rw [OrderedMap.retainFrom, hlist]
    exact h.ascends.filter _
  · rw [OrderedMap.retainFrom, hlist, List.mem_filter, h.mem_toList]
    by_cases hle : key ≤ k <;> simp [hle]

end OrderedMap

/-- A change of one of several maps, or of none. -/
theorem forall₂_modify {trees : List (OrderedMap K V)} {maps : List (K → Option V)}
    (h : List.Forall₂ OrderedMap.Agrees trees maps) (i : ℕ) {f : OrderedMap K V → OrderedMap K V}
    {g : (K → Option V) → K → Option V}
    (hfg : ∀ tree map, OrderedMap.Agrees tree map → (f tree).Agrees (g map)) :
    List.Forall₂ OrderedMap.Agrees (trees.modify i f) (maps.modify i g) := by
  induction h generalizing i with
  | nil => simp
  | cons hhead htail ih =>
    cases i with
    | zero => exact List.Forall₂.cons (hfg _ _ hhead) htail
    | succ i => exact List.Forall₂.cons hhead (ih i)

/-- A clone of one of several maps. -/
theorem forall₂_getElem? {trees : List (OrderedMap K V)} {maps : List (K → Option V)}
    (h : List.Forall₂ OrderedMap.Agrees trees maps) (i : ℕ) :
    List.Forall₂ OrderedMap.Agrees trees[i]?.toList maps[i]?.toList := by
  induction h generalizing i with
  | nil => simp
  | cons hhead _ ih =>
    cases i with
    | zero => exact List.Forall₂.cons hhead List.Forall₂.nil
    | succ i => simpa using ih i

/-- An update keeps maps and trees in agreement, each with its own. -/
theorem Update.agrees (update : Update K V) {trees : List (OrderedMap K V)}
    {maps : List (K → Option V)} (h : List.Forall₂ OrderedMap.Agrees trees maps) :
    List.Forall₂ OrderedMap.Agrees (update.apply trees) (update.reference maps) := by
  cases update with
  | insert i key value => exact forall₂_modify h i fun _ _ h => h.insert key value
  | remove i key => exact forall₂_modify h i fun _ _ h => h.remove key
  | retainFrom i key => exact forall₂_modify h i fun _ _ h => h.retainFrom key
  | clear i => exact forall₂_modify h i fun _ _ _ => OrderedMap.agrees_new
  | clone i =>
    exact List.rel_append h (forall₂_getElem? h i)

/-- **The ordered map is a sorted map.** Any number of maps made from an empty one by
updates and clones agree with the finite maps made by the same updates, and so a clone
still denotes what it denoted when it was taken. -/
theorem OrderedMap.agrees_run (updates : List (Update K V)) :
    List.Forall₂ OrderedMap.Agrees (updates.foldl Update.apply [OrderedMap.new])
      (updates.foldl Update.reference [fun _ => none]) := by
  have hstart : List.Forall₂ OrderedMap.Agrees [(OrderedMap.new : OrderedMap K V)]
      [fun _ => none] := List.Forall₂.cons agrees_new List.Forall₂.nil
  generalize [(OrderedMap.new : OrderedMap K V)] = trees at hstart ⊢
  generalize [fun _ : K => (none : Option V)] = maps at hstart ⊢
  induction updates generalizing trees maps with
  | nil => exact hstart
  | cons update updates ih => exact ih _ _ (update.agrees hstart)

end EveDB
