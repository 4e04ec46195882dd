import Mathlib.Order.Compare
import Mathlib.Tactic.Linarith

/-!
# Immutable AVL nodes shared by committed views

The map that committed views share. A node stores its height; an update copies its search
path and shares the rest, so a map that was cloned stays what it was: here trees are
values, and a clone is the tree itself.

`insert` rebalances with single and double rotations on the way back. `remove` and
`retain_from` put trees of any heights together again with `join`, which descends along
the taller one to a node of a fitting height and rebalances from there.

Where the source expects a node, having compared heights, the function here takes a proof
that there is one.
-/

namespace EveDB

/-- A shared node, or none. -/
inductive Link (K V : Type)
  | nil
  | node (key : K) (value : V) (left right : Link K V) (height : ℕ)

namespace Link

variable {K V : Type}

/-- The stored height. -/
def height : Link K V → ℕ
  | nil => 0
  | node _ _ _ _ height => height

@[simp] theorem height_nil : (nil : Link K V).height = 0 := rfl

@[simp] theorem height_node (key : K) (value : V) (left right : Link K V) (h : ℕ) :
    (node key value left right h).height = h := rfl

/-- A link with a height has a node. -/
theorem ne_nil_of_lt {n : ℕ} {link : Link K V} (h : n < link.height) : link ≠ nil := by
  rintro rfl
  exact Nat.not_lt_zero n h

/-- Makes a node and computes its height. -/
def mk (key : K) (value : V) (left right : Link K V) : Link K V :=
  node key value left right (1 + max left.height right.height)

/-! ### Balance -/

/-- The right node becomes the root. -/
def rotateLeft (key : K) (value : V) (left right : Link K V) (h : right ≠ nil) : Link K V :=
  match right, h with
  | node pivotKey pivotValue pivotLeft pivotRight _, _ =>
    mk pivotKey pivotValue (mk key value left pivotLeft) pivotRight

/-- The left node becomes the root. -/
def rotateRight (key : K) (value : V) (left right : Link K V) (h : left ≠ nil) : Link K V :=
  match left, h with
  | node pivotKey pivotValue pivotLeft pivotRight _, _ =>
    mk pivotKey pivotValue pivotLeft (mk key value pivotRight right)

theorem rotateLeft_ne_nil {key : K} {value : V} {left right : Link K V} (h : right ≠ nil) :
    rotateLeft key value left right h ≠ nil := by
  cases right with
  | nil => exact absurd rfl h
  | node => exact nofun

theorem rotateRight_ne_nil {key : K} {value : V} {left right : Link K V} (h : left ≠ nil) :
    rotateRight key value left right h ≠ nil := by
  cases left with
  | nil => exact absurd rfl h
  | node => exact nofun

/-- Rotates a node whose children differ by more than one. -/
def balance : Link K V → Link K V
  | nil => nil
  | node key value left right height =>
    if hl : left.height > right.height + 1 then
      match left, ne_nil_of_lt hl with
      | node leftKey leftValue leftLeft leftRight leftHeight, hleft =>
        if hr : leftRight.height > leftLeft.height then
          rotateRight key value
            (rotateLeft leftKey leftValue leftLeft leftRight (ne_nil_of_lt hr)) right
            (rotateLeft_ne_nil _)
        else
          rotateRight key value (node leftKey leftValue leftLeft leftRight leftHeight) right hleft
    else if hr : right.height > left.height + 1 then
      match right, ne_nil_of_lt hr with
      | node rightKey rightValue rightLeft rightRight rightHeight, hright =>
        if hl : rightLeft.height > rightRight.height then
          rotateLeft key value left
            (rotateRight rightKey rightValue rightLeft rightRight (ne_nil_of_lt hl))
            (rotateRight_ne_nil _)
        else
          rotateLeft key value left (node rightKey rightValue rightLeft rightRight rightHeight)
            hright
    else node key value left right height

/-- Puts two trees together around an entry, whatever their heights. -/
def join (left : Link K V) (key : K) (value : V) (right : Link K V) : Link K V :=
  if hl : left.height > right.height + 1 then
    match left, ne_nil_of_lt hl with
    | node topKey topValue topLeft topRight _, _ =>
      balance (mk topKey topValue topLeft (join topRight key value right))
  else if hr : right.height > left.height + 1 then
    match right, ne_nil_of_lt hr with
    | node topKey topValue topLeft topRight _, _ =>
      balance (mk topKey topValue (join left key value topLeft) topRight)
  else mk key value left right
termination_by sizeOf left + sizeOf right

/-! ### Updates and lookups -/

variable [LinearOrder K]

/-- Sets the value of a key. -/
def insert (key : K) (value : V) : Link K V → Link K V
  | nil => mk key value nil nil
  | node oldKey oldValue left right _ =>
    balance <|
      match compare key oldKey with
      | .lt => mk oldKey oldValue (insert key value left) right
      | .gt => mk oldKey oldValue left (insert key value right)
      | .eq => mk key value left right

/-- The first entry of a node: the loop along the left links. -/
def first (key : K) (value : V) : Link K V → K × V
  | nil => (key, value)
  | node leftKey leftValue left _ _ => first leftKey leftValue left

/-- Drops a key. -/
def remove (key : K) : Link K V → Link K V
  | nil => nil
  | node topKey topValue left right _ =>
    match compare key topKey with
    | .lt => join (remove key left) topKey topValue right
    | .gt => join left topKey topValue (remove key right)
    | .eq =>
      match right with
      | nil => left
      | node rightKey rightValue rightLeft rightRight rightHeight =>
        let next := first rightKey rightValue rightLeft
        join left next.1 next.2
          (remove next.1 (node rightKey rightValue rightLeft rightRight rightHeight))

/-- Drops the keys below one. -/
def retainFrom (key : K) : Link K V → Link K V
  | nil => nil
  | node topKey topValue left right _ =>
    if topKey < key then retainFrom key right
    else join (retainFrom key left) topKey topValue right

/-- The value of a key. -/
def get (key : K) : Link K V → Option V
  | nil => none
  | node nodeKey value left right _ =>
    match compare key nodeKey with
    | .lt => get key left
    | .gt => get key right
    | .eq => some value

/-- The loop of `floor`: the entry with the greatest key up to `key`, or the last one
seen. -/
def floorLoop (key : K) (result : Option (K × V)) : Link K V → Option (K × V)
  | nil => result
  | node nodeKey value left right _ =>
    if nodeKey ≤ key then floorLoop key (some (nodeKey, value)) right
    else floorLoop key result left

end Link

/-! ### Ranges -/

/-- An end of a range of keys. -/
inductive Bound (K : Type)
  | included (key : K)
  | excluded (key : K)
  | unbounded

namespace Bound

variable {K : Type} [LinearOrder K]

/-- The key lies before the start of the range. -/
def startsAfter (key : K) : Bound K → Prop
  | included bound => key < bound
  | excluded bound => key ≤ bound
  | unbounded => False

/-- The key lies behind the end of the range. -/
def endsBefore (key : K) : Bound K → Prop
  | included bound => bound < key
  | excluded bound => bound ≤ key
  | unbounded => False

instance (key : K) (bound : Bound K) : Decidable (bound.startsAfter key) := by
  cases bound <;> unfold startsAfter <;> infer_instance

instance (key : K) (bound : Bound K) : Decidable (bound.endsBefore key) := by
  cases bound <;> unfold endsBefore <;> infer_instance

end Bound

/-- A node on the stack of a range: its entry, and the nodes behind it. -/
structure StackNode (K V : Type) where
  key : K
  value : V
  right : Link K V

/-- An iterator over a range; the node in front is on top of the stack. -/
structure Range (K V : Type) where
  stack : List (StackNode K V)
  upper : Bound K

variable {K V : Type}

/-- Pushes a node and those along its left links. -/
def pushLeft : Link K V → List (StackNode K V) → List (StackNode K V)
  | .nil, stack => stack
  | .node key value left right _, stack => pushLeft left (⟨key, value, right⟩ :: stack)

/-- The entries of a tree in order. -/
def Link.toList : Link K V → List (K × V)
  | .nil => []
  | .node key value left right _ => left.toList ++ (key, value) :: right.toList

namespace Range

/-- The entries a stack has in front of it. -/
def pending (stack : List (StackNode K V)) : List (K × V) :=
  stack.flatMap fun node => (node.key, node.value) :: node.right.toList

theorem pending_pushLeft (link : Link K V) (stack : List (StackNode K V)) :
    pending (pushLeft link stack) = link.toList ++ pending stack := by
  induction link generalizing stack with
  | nil => rfl
  | node key value left right height ihLeft _ =>
    rw [pushLeft, ihLeft]
    simp [pending, Link.toList]

variable [LinearOrder K]

/-- Moves a range on: the next entry, if there is one, and the range behind it. -/
def next (range : Range K V) : Option (K × V) × Range K V :=
  match range.stack with
  | [] => (none, range)
  | node :: stack =>
    if range.upper.endsBefore node.key then (none, { range with stack := [] })
    else (some (node.key, node.value), { range with stack := pushLeft node.right stack })

/-- Every entry a range yields is one less to come. -/
theorem length_pending_next {range : Range K V} {entry : K × V}
    (h : range.next.1 = some entry) :
    (pending range.next.2.stack).length < (pending range.stack).length := by
  obtain ⟨stack, upper⟩ := range
  cases stack with
  | nil => cases h
  | cons node stack =>
    by_cases hend : upper.endsBefore node.key
    · simp [next, hend] at h
    · simp only [next, hend, if_false, pending_pushLeft, List.length_append]
      simp only [pending, List.flatMap_cons, List.length_append, List.length_cons]
      omega

/-- All entries a range yields, up to the first time it yields none. -/
def collect (range : Range K V) : List (K × V) :=
  match _h : range.next.1 with
  | none => []
  | some entry => entry :: collect range.next.2
termination_by (pending range.stack).length
decreasing_by exact length_pending_next _h

end Range

namespace Link

variable [LinearOrder K]

/-- The descent of `range`: nodes before the start are passed over. -/
def descend (start : Bound K) : Link K V → List (StackNode K V) → List (StackNode K V)
  | nil, stack => stack
  | node key value left right _, stack =>
    if start.startsAfter key then descend start right stack
    else descend start left (⟨key, value, right⟩ :: stack)

end Link

/-! ### The map -/

/-- A map in the order of its keys. -/
structure OrderedMap (K V : Type) where
  root : Link K V

namespace OrderedMap

/-- The map without entries. -/
def new : OrderedMap K V := ⟨.nil⟩

/-- Drops all entries. The nodes that others share stay theirs. -/
def clear (_ : OrderedMap K V) : OrderedMap K V := ⟨.nil⟩

variable [LinearOrder K]

/-- Sets the value of a key, and copies the path to it. -/
def insert (key : K) (value : V) (map : OrderedMap K V) : OrderedMap K V :=
  ⟨map.root.insert key value⟩

/-- Takes a key out, and copies the path to it. -/
def remove (key : K) (map : OrderedMap K V) : OrderedMap K V := ⟨map.root.remove key⟩

/-- Keeps the keys from a bound on. -/
def retainFrom (key : K) (map : OrderedMap K V) : OrderedMap K V := ⟨map.root.retainFrom key⟩

/-- The value of a key. -/
def get (key : K) (map : OrderedMap K V) : Option V := map.root.get key

/-- Whether the map has a key. -/
def containsKey (key : K) (map : OrderedMap K V) : Bool := (map.get key).isSome

/-- The entry with the greatest key that is not above a bound. -/
def floor (key : K) (map : OrderedMap K V) : Option (K × V) := map.root.floorLoop key none

/-- Walks over the entries between two bounds, in the order of their keys. -/
def range (lower upper : Bound K) (map : OrderedMap K V) : Range K V :=
  ⟨map.root.descend lower [], upper⟩

end OrderedMap

end EveDB
