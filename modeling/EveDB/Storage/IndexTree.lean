import EveDB.Storage.IndexFile

/-!
# Searching a tree

What a tree in an index file holds (`Index.Tree`): at height zero a leaf, above it a branch over
trees one lower, each under the key its first entry has. The leaves are chained across the
branches (`Index.Chain`), so a tree is told together with the leaves that come behind it.

A descent ends at the leaf where the key has its place (`Tree.descendFrom`): what is before the
leaf is below the key and what is behind it above, as far as the three queries can tell. From
there `lookupAt`, `floorAt` and a scan return what the sorted list of all entries has
(`Tree.lookupAt`, `Tree.floorAt`, `Tree.scanAt`).
-/

namespace EveDB

namespace Index

/-- An entry of a leaf. -/
abbrev Entry := Key × IndexValue

/-- The key an entry is ordered by. -/
def order (entry : Entry) : ℕ ×ₗ ℕ := toLex entry.1

/-! ### Searching one node -/

section Search

variable {id : ℕ} {node : Node id} {key : Key}

/-- The keys of the node ascend. -/
def Node.Ascends (node : Node id) : Prop :=
  ∀ i j, i < j → j < node.count → toLex (node.key i) < toLex (node.key j)

theorem Node.ascends_of_entries (h : SortedList.Ascending order node.entries) : node.Ascends := by
  intro i j hij hj
  have hlen : node.entries.length = node.count := by simp [Node.entries]
  have := List.pairwise_iff_getElem.mp h i j (by omega) (by omega) hij
  simpa [Node.entries, order] using this

theorem Node.ascends_of_children
    (h : SortedList.Ascending (fun c : Key × ℕ => toLex c.1) node.children) : node.Ascends := by
  intro i j hij hj
  have hlen : node.children.length = node.count := by simp [Node.children]
  have := List.pairwise_iff_getElem.mp h i j (by omega) (by omega) hij
  simpa [Node.children] using this

/-- **The search cuts the entries at the key.** -/
theorem Node.lowerBound_spec (h : node.Ascends) (key : Key) :
    (∀ i < node.lowerBound key, toLex (node.key i) < toLex key) ∧
    ∀ i, node.lowerBound key ≤ i → i < node.count → toLex key ≤ toLex (node.key i) := by
  have hspec := @BinarySearch.lowerBound_spec (fun i => toLex (node.key i) < toLex key) 0
    node.count (Nat.zero_le _) ?_
  · refine ⟨fun i hi => of_decide_eq_true (hspec.2.2.1 i (Nat.zero_le i) hi), fun i hle hlt => ?_⟩
    exact not_lt.mp fun hlt' => hspec.2.2.2 i hle hlt (decide_eq_true hlt')
  · intro i j hij hj hlt
    rcases Nat.eq_or_lt_of_le hij with rfl | hne
    · exact hlt
    · exact decide_eq_true ((h i j hne hj).trans (of_decide_eq_true hlt))

/-- The parts of the cut. -/
theorem Node.cut (h : SortedList.Ascending order node.entries) (key : Key) :
    (∀ e ∈ node.entries.take (node.lowerBound key), order e < toLex key) ∧
    ∀ e ∈ node.entries.drop (node.lowerBound key), toLex key ≤ order e := by
  obtain ⟨hbelow, habove⟩ := Node.lowerBound_spec (Node.ascends_of_entries h) key
  constructor
  · intro e he
    obtain ⟨i, hi, rfl⟩ := List.getElem_of_mem he
    rw [List.length_take] at hi
    rw [List.getElem_take]
    simpa [Node.entries, order] using hbelow i (by omega)
  · intro e he
    obtain ⟨i, hi, rfl⟩ := List.getElem_of_mem he
    rw [List.length_drop] at hi
    have hlen : node.entries.length = node.count := by simp [Node.entries]
    rw [List.getElem_drop]
    simpa [Node.entries, order] using habove (node.lowerBound key + i) (by omega) (by omega)

/-- What is at the cut. -/
theorem Node.head?_drop_entries (node : Node id) (index : ℕ) :
    (node.entries.drop index).head? =
      if index < node.count then some (node.key index, node.value index) else none := by
  rw [List.head?_drop, Node.entries, List.getElem?_map]
  split
  · next hlt => rw [List.getElem?_range hlt, Option.map_some]
  · next hle =>
    rw [List.getElem?_eq_none (by rw [List.length_range]; exact not_lt.mp hle), Option.map_none]

/-- **A leaf is looked up** as the list of its entries. -/
theorem Node.lookup_eq (h : SortedList.Ascending order node.entries) (key : Key) :
    (if node.lowerBound key < node.count ∧ node.key (node.lowerBound key) = key then
      some (node.value (node.lowerBound key)) else none) =
      (SortedList.lookup order (toLex key) node.entries).map Prod.snd := by
  obtain ⟨hbelow, habove⟩ := Node.cut h key
  have hsplit := List.take_append_drop (node.lowerBound key) node.entries
  rw [← hsplit, SortedList.lookup_of_cut (by rwa [hsplit]) hbelow habove,
    Node.head?_drop_entries]
  by_cases hlt : node.lowerBound key < node.count
  · rw [if_pos hlt, Option.filter_some]
    by_cases heq : node.key (node.lowerBound key) = key
    · simp [hlt, heq, order]
    · simp [heq, order]
  · simp [hlt]

/-- **The floor of a leaf** is the floor of the list of its entries. -/
theorem Node.floor_eq (h : SortedList.Ascending order node.entries) (key : Key) :
    (node.floorIndex key).map (fun index => (node.key index, node.value index)) =
      SortedList.floor order (toLex key) node.entries := by
  obtain ⟨hbelow, habove⟩ := Node.cut h key
  have hle := node.lowerBound_le key
  have hlen : node.entries.length = node.count := by simp [Node.entries]
  have hsplit := List.take_append_drop (node.lowerBound key) node.entries
  conv_rhs => rw [← hsplit]
  rw [SortedList.floor_of_cut (by rwa [hsplit]) hbelow habove, Node.head?_drop_entries,
    Node.floorIndex]
  by_cases hfound : node.lowerBound key < node.count ∧ node.key (node.lowerBound key) = key
  · rw [if_pos hfound, if_pos hfound.1, Option.filter_some, if_pos (by simp [order, hfound.2])]
    rfl
  · have hnone : (if node.lowerBound key < node.count then
        some (node.key (node.lowerBound key), node.value (node.lowerBound key)) else none).filter
          (fun b => order b = toLex key) = none := by
      by_cases hlt : node.lowerBound key < node.count
      · have hne : ¬ node.key (node.lowerBound key) = key := fun heq => hfound ⟨hlt, heq⟩
        rw [if_pos hlt, Option.filter_some, if_neg (by simpa [order] using hne)]
      · rw [if_neg hlt, Option.filter_none]
    rw [if_neg hfound, hnone, Option.none_or]
    by_cases hzero : node.lowerBound key = 0
    · rw [if_pos hzero, hzero, List.take_zero]
      rfl
    · rw [if_neg hzero, Option.map_some, List.getLast?_eq_getElem?, List.length_take, hlen,
        min_eq_left hle, List.getElem?_take, if_pos (by omega), Node.entries, List.getElem?_map,
        List.getElem?_range (by omega), Option.map_some]

/-- **The child a descent follows** is the last one whose key is not above, or the first. -/
theorem Node.floorIndex_spec (h : node.Ascends) (key : Key) :
    (∀ i, (node.floorIndex key).getD 0 < i → i < node.count → toLex key < toLex (node.key i)) ∧
    ((node.floorIndex key).getD 0 = 0 ∨
      toLex (node.key ((node.floorIndex key).getD 0)) ≤ toLex key) := by
  obtain ⟨hbelow, habove⟩ := Node.lowerBound_spec h key
  rw [Node.floorIndex]
  by_cases hfound : node.lowerBound key < node.count ∧ node.key (node.lowerBound key) = key
  · rw [if_pos hfound, Option.getD_some]
    refine ⟨fun i hlt hi => ?_, Or.inr (by rw [hfound.2])⟩
    conv_lhs => rw [← hfound.2]
    exact h _ i hlt hi
  · have hstrict : ∀ i, node.lowerBound key ≤ i → i < node.count →
        toLex key < toLex (node.key i) := by
      intro i hle hi
      refine lt_of_le_of_ne (habove i hle hi) fun heq => ?_
      rcases Nat.eq_or_lt_of_le hle with rfl | hlt
      · exact hfound ⟨hi, (toLex_inj.mp heq).symm⟩
      · have := h _ i hlt hi
        exact (habove _ le_rfl (hlt.trans hi)).not_gt (heq ▸ this)
    rw [if_neg hfound]
    by_cases hzero : node.lowerBound key = 0
    · rw [if_pos hzero, Option.getD_none]
      exact ⟨fun i _ hi => hstrict i (by omega) hi, Or.inl rfl⟩
    · rw [if_neg hzero, Option.getD_some]
      exact ⟨fun i hlt hi => hstrict i (by omega) hi, Or.inr (hbelow _ (by omega)).le⟩

end Search

/-! ### Trees -/

/-- The page is a leaf with these entries, chained to the page `next`. -/
def LeafAt (file : Bytes) (lsn id : ℕ) (entries : List Entry) (next : ℕ) : Prop :=
  ∃ node, readNode file id lsn = .ok node ∧ node.kind = 1 ∧ node.next = next ∧
    node.entries = entries

/-- The page is a branch over these children. -/
def BranchAt (file : Bytes) (lsn id : ℕ) (children : List (Key × ℕ)) : Prop :=
  ∃ node, readNode file id lsn = .ok node ∧ node.kind = 2 ∧ node.children = children

/-- **The chain of leaves** that begins at a page, and ends where the next page is 0. -/
inductive Chain (file : Bytes) (lsn : ℕ) : ℕ → List (List Entry) → Prop
  | done : Chain file lsn 0 []
  | leaf {id next : ℕ} {entries : List Entry} {leaves : List (List Entry)} (nonzero : id ≠ 0)
      (nonempty : entries ≠ []) (page : LeafAt file lsn id entries next)
      (rest : Chain file lsn next leaves) : Chain file lsn id (entries :: leaves)

/-- A chain either ends here, or goes on with a leaf that can be read. -/
theorem Chain.start {id : ℕ} {leaves : List (List Entry)} (h : Chain file lsn id leaves) :
    (id = 0 ∧ leaves = []) ∨ (id ≠ 0 ∧ ∃ node, readNode file id lsn = .ok node ∧ node.kind = 1 ∧
      ∃ rest, leaves = node.entries :: rest ∧ Chain file lsn node.next rest) := by
  cases h with
  | done => exact Or.inl ⟨rfl, rfl⟩
  | leaf hzero hne hpage hrest =>
    obtain ⟨node, hread, hkind, rfl, rfl⟩ := hpage
    exact Or.inr ⟨hzero, node, hread, hkind, _, rfl, hrest⟩

/-- Trees side by side, each under the key of its first entry. `T id leaves behind` says that
the tree at `id` has these leaves, with those behind it in the chain. -/
inductive Forest (T : ℕ → List (List Entry) → List (List Entry) → Prop) :
    List (Key × ℕ) → List (List Entry) → List (List Entry) → Prop
  | nil (behind : List (List Entry)) : Forest T [] [] behind
  | cons {key : Key} {id : ℕ} {children : List (Key × ℕ)}
      {leaves leaves' behind : List (List Entry)}
      (first : leaves.flatten.head?.map Prod.fst = some key)
      (tree : T id leaves (leaves' ++ behind))
      (rest : Forest T children leaves' behind) :
      Forest T ((key, id) :: children) (leaves ++ leaves') behind

/-- **A tree** of a height, with its leaves and those behind it. -/
def Tree (file : Bytes) (lsn : ℕ) : ℕ → ℕ → List (List Entry) → List (List Entry) → Prop
  | 0, id, leaves, behind => ∃ entries, leaves = [entries] ∧ Chain file lsn id (entries :: behind)
  | height + 1, id, leaves, behind => id ≠ 0 ∧ ∃ children,
    BranchAt file lsn id children ∧ Forest (Tree file lsn height) children leaves behind

section Forests

variable {T : ℕ → List (List Entry) → List (List Entry) → Prop}
    {children children' : List (Key × ℕ)}
  {leaves leaves' behind : List (List Entry)}

theorem Forest.of_append (h : Forest T (children ++ children') leaves behind) :
    ∃ as bs, leaves = as ++ bs ∧ Forest T children as (bs ++ behind) ∧
      Forest T children' bs behind := by
  induction children generalizing leaves with
  | nil => exact ⟨[], leaves, rfl, .nil _, h⟩
  | cons child children ih =>
    cases h with
    | cons first tree rest =>
    obtain ⟨as, bs, rfl, hchildren, hchildren'⟩ := ih rest
    refine ⟨_ ++ as, bs, (List.append_assoc _ _ _).symm, ?_, hchildren'⟩
    exact .cons first (by rwa [← List.append_assoc]) hchildren

/-- The first key of a forest is the key of its first entry. -/
theorem Forest.head (h : Forest T children leaves behind) (hne : children ≠ []) :
    leaves.flatten.head?.map Prod.fst = children.head?.map Prod.fst := by
  cases h with
  | nil => exact absurd rfl hne
  | cons first tree rest =>
    rw [List.flatten_append, List.head?_append, Option.map_or, first]
    rfl

/-- The entries of a forest whose first key is above a key are all above it. -/
theorem Forest.above (h : Forest T children leaves behind) {key : Key}
    (hascending : SortedList.Ascending order leaves.flatten)
    (hkey : ∀ c ∈ children.head?, toLex key < toLex c.1) :
    ∀ e ∈ leaves.flatten, toLex key < order e := by
  cases hchildren : children with
  | nil =>
    subst hchildren
    cases h
    exact List.forall_mem_nil _
  | cons child rest =>
    have hhead := h.head (hchildren ▸ List.cons_ne_nil _ _)
    rw [hchildren] at hhead hkey
    cases hleaves : leaves.flatten with
    | nil => exact List.forall_mem_nil _
    | cons first entries =>
      rw [hleaves] at hhead hascending
      have hfirst : toLex key < order first := by
        have hfst : first.1 = child.1 := Option.some.inj hhead
        rw [order, hfst]
        exact hkey child rfl
      intro e he
      rcases List.mem_cons.mp he with rfl | he
      · exact hfirst
      · exact hfirst.trans (List.rel_of_pairwise_cons hascending he)

/-- The key of a child is the key of an entry below it. -/
theorem Forest.exists_entry (h : Forest T children leaves behind) {c : Key × ℕ}
    (hc : c ∈ children) : ∃ e ∈ leaves.flatten, e.1 = c.1 := by
  induction h with
  | nil => cases hc
  | @cons key id children leaves leaves' behind first tree rest ih =>
    rw [List.flatten_append]
    rcases List.mem_cons.mp hc with rfl | hc
    · obtain ⟨e, he, hkey⟩ := Option.map_eq_some_iff.mp first
      exact ⟨e, List.mem_append_left _ (List.mem_of_mem_head? he), hkey⟩
    · obtain ⟨e, he, hkey⟩ := ih hc
      exact ⟨e, List.mem_append_right _ he, hkey⟩

/-- **The keys of a forest ascend** with its entries. -/
theorem Forest.ascending (h : Forest T children leaves behind)
    (hascending : SortedList.Ascending order leaves.flatten) :
    SortedList.Ascending (fun c : Key × ℕ => toLex c.1) children := by
  induction h with
  | nil => exact List.Pairwise.nil
  | cons first tree rest ih =>
    rw [List.flatten_append] at hascending
    obtain ⟨-, hrest, hcross⟩ := List.pairwise_append.mp hascending
    refine List.pairwise_cons.mpr ⟨fun c hc => ?_, ih hrest⟩
    obtain ⟨e, he, rfl⟩ := Option.map_eq_some_iff.mp first
    obtain ⟨e', he', hkey⟩ := rest.exists_entry hc
    have hlt := hcross e (List.mem_of_mem_head? he) e' he'
    rwa [order, order, hkey] at hlt

end Forests

section Descent

variable {file : Bytes} {lsn : ℕ} {key : Key}

/-- **Where a descent ends.** The leaf is one of the leaves of the tree; it is the first, or its
first entry is not above the key, and what comes behind it is above. -/
structure Reached (file : Bytes) (lsn : ℕ) (key : Key) (leaves behind : List (List Entry))
    (leaf : Leaf) : Prop where
  nonempty : leaf.2.entries ≠ []
  split : ∃ before after, leaves = before ++ leaf.2.entries :: after ∧
    Chain file lsn leaf.2.next (after ++ behind) ∧
    (before = [] ∨ ∃ e ∈ leaf.2.entries.head?, order e ≤ toLex key) ∧
    ∀ e ∈ after.flatten, toLex key < order e

theorem Tree.descendFrom {height id : ℕ} {leaves behind : List (List Entry)}
    (h : Tree file lsn height id leaves behind)
    (hascending : SortedList.Ascending order leaves.flatten) :
    ∃ leaf, Index.descendFrom file lsn key id = .ok (some leaf) ∧
      Reached file lsn key leaves behind leaf := by
  induction height generalizing id leaves behind with
  | zero =>
    obtain ⟨entries, rfl, hchain⟩ := h
    cases hchain with
    | leaf nonzero nonempty page rest =>
    obtain ⟨node, hread, hkind, rfl, rfl⟩ := page
    refine ⟨⟨id, node⟩, ?_, nonempty, [], [], rfl, rest, Or.inl rfl, List.forall_mem_nil _⟩
    rw [Index.descendFrom, if_neg nonzero, hread]
    exact if_pos hkind
  | succ height ih =>
    obtain ⟨hzero, children, ⟨node, hread, hkind, rfl⟩, hforest⟩ := h
    have hkeys := Node.ascends_of_children (hforest.ascending hascending)
    obtain ⟨habove, hfirst⟩ := Node.floorIndex_spec hkeys key
    have hlen : node.children.length = node.count := by simp [Node.children]
    have hcount : 0 < node.count := node.nonempty fun hmeta => by
      rw [Node.kind, hmeta] at hkind
      cases hkind
    have hlt := node.floorIndex_getD_lt key hcount
    rw [Index.descendFrom, if_neg hzero, hread]
    dsimp only
    rw [if_neg (by rw [hkind]; decide), dif_pos hkind]
    generalize (node.floorIndex key).getD 0 = c at habove hfirst hlt ⊢
    -- the child that is followed, with those before and behind it
    have hchildren : node.children =
        node.children.take c ++ (node.key c, node.child c) :: node.children.drop (c + 1) := by
      have hget : node.children[c] = (node.key c, node.child c) := by simp [Node.children]
      rw [← hget, ← List.drop_eq_getElem_cons, List.take_append_drop]
    rw [hchildren] at hforest
    obtain ⟨la, lcb, rfl, hbefore, hforest⟩ := hforest.of_append
    cases hforest with
    | @cons _ _ _ lc lb _ hhead htree hbehind =>
    rw [List.flatten_append, List.flatten_append] at hascending
    have hasc := List.pairwise_append.mp (List.pairwise_append.mp hascending).2.1
    obtain ⟨leaf, hdescend, hne, before, after, rfl, hchain, hstart, hafter⟩ := ih htree hasc.1
    refine ⟨leaf, hdescend, hne, la ++ before, after ++ lb, by simp, by rwa [List.append_assoc],
      ?_, ?_⟩
    · rcases hstart with rfl | hstart
      · rcases hfirst with rfl | hle
        · rw [List.take_zero] at hbefore
          cases hbefore
          exact Or.inl rfl
        · obtain ⟨e, es, hes⟩ := List.exists_cons_of_ne_nil hne
          rw [hes] at hhead ⊢
          have hkey : e.1 = node.key c := Option.some.inj hhead
          exact Or.inr ⟨e, rfl, by rwa [order, hkey]⟩
      · exact Or.inr hstart
    · rw [List.flatten_append]
      refine List.forall_mem_append.mpr ⟨hafter, hbehind.above hasc.2.1 fun child hchild => ?_⟩
      rw [List.head?_drop, Node.children, List.getElem?_map, Option.mem_def,
        Option.map_eq_some_iff] at hchild
      obtain ⟨i, hget, rfl⟩ := hchild
      obtain ⟨hi, hc⟩ := List.getElem?_eq_some_iff.mp hget
      rw [List.getElem_range] at hc
      rw [List.length_range] at hi
      exact hc ▸ habove _ (Nat.lt_succ_self c) hi

/-- **An index holds the leaves.** -/
structure Holds (file : Bytes) (lsn base : ℕ) (leaves : List (List Entry)) : Prop where
  whole : file.length % pageSize = 0
  root : ∃ node, readNode file base lsn = .ok node ∧ node.kind = 0 ∧
    ((node.next = 0 ∧ leaves = []) ∨ ∃ height, Tree file lsn height node.next leaves [])

variable {base : ℕ} {leaves : List (List Entry)}

/-- A descent from the metadata page ends at a leaf, unless there is none. -/
theorem Holds.descend (h : Holds file lsn base leaves)
    (hascending : SortedList.Ascending order leaves.flatten) (key : Key) :
    (Index.descend file lsn base key = .ok none ∧ leaves = []) ∨
    ∃ leaf, Index.descend file lsn base key = .ok (some leaf) ∧
      Reached file lsn key leaves [] leaf := by
  obtain ⟨hwhole, node, hread, hkind, hroot⟩ := h
  have hdescend : Index.descend file lsn base key = Index.descendFrom file lsn key node.next := by
    rw [Index.descend, if_neg (not_not.mpr hwhole), hread, ok_bind, if_neg (not_not.mpr hkind)]
  rw [hdescend]
  rcases hroot with ⟨hzero, rfl⟩ | ⟨height, htree⟩
  · refine Or.inl ⟨?_, rfl⟩
    rw [hzero, Index.descendFrom, if_pos rfl]
  · exact Or.inr (htree.descendFrom hascending)

/-- The leaf where a descent ends, between what is before and behind it. -/
theorem Reached.parts {leaf : Leaf} (h : Reached file lsn key leaves [] leaf)
    (hascending : SortedList.Ascending order leaves.flatten) :
    ∃ before after, leaves.flatten = before ++ (leaf.2.entries ++ after.flatten) ∧
      Chain file lsn leaf.2.next after ∧ SortedList.Ascending order leaf.2.entries ∧
      (∀ e ∈ before, order e < toLex key) ∧ (∀ e ∈ after.flatten, toLex key < order e) ∧
      (before = [] ∨ ∃ e ∈ leaf.2.entries, order e ≤ toLex key) := by
  obtain ⟨hne, before, after, rfl, hchain, hstart, hafter⟩ := h
  rw [List.append_nil] at hchain
  rw [List.flatten_append, List.flatten_cons] at hascending ⊢
  have hasc := List.pairwise_append.mp hascending
  refine ⟨before.flatten, after, rfl, hchain, (List.pairwise_append.mp hasc.2.1).1, ?_, hafter, ?_⟩
  · rcases hstart with rfl | ⟨e, he, hle⟩
    · exact List.forall_mem_nil _
    · exact fun b hb =>
        (hasc.2.2 b hb e (List.mem_append_left _ (List.mem_of_mem_head? he))).trans_le hle
  · rcases hstart with rfl | ⟨e, he, hle⟩
    · exact Or.inl rfl
    · exact Or.inr ⟨e, List.mem_of_mem_head? he, hle⟩

/-- **Looking a key up** finds it in the list of all entries. -/
theorem Holds.lookupAt (h : Holds file lsn base leaves)
    (hascending : SortedList.Ascending order leaves.flatten) (key : Key) :
    Index.lookupAt file lsn base key =
      .ok ((SortedList.lookup order (toLex key) leaves.flatten).map Prod.snd) := by
  rcases h.descend hascending key with ⟨hdescend, rfl⟩ | ⟨leaf, hdescend, hreached⟩
  · rw [Index.lookupAt, hdescend]
    rfl
  · obtain ⟨before, after, hsplit, -, hleaf, hbefore, hafter, -⟩ := hreached.parts hascending
    rw [Index.lookupAt, hdescend, hsplit, SortedList.lookup_append_of_lt hbefore,
      SortedList.lookup_append_of_gt hafter, ← Node.lookup_eq hleaf key]
    rfl

/-- **The floor of a key** is its floor in the list of all entries. -/
theorem Holds.floorAt (h : Holds file lsn base leaves)
    (hascending : SortedList.Ascending order leaves.flatten) (key : Key) :
    Index.floorAt file lsn base key =
      .ok (SortedList.floor order (toLex key) leaves.flatten) := by
  rcases h.descend hascending key with ⟨hdescend, rfl⟩ | ⟨leaf, hdescend, hreached⟩
  · rw [Index.floorAt, hdescend]
    rfl
  · obtain ⟨before, after, hsplit, -, hleaf, -, hafter, hstart⟩ := hreached.parts hascending
    have hfloor : SortedList.floor order (toLex key) (before ++ leaf.2.entries) =
        SortedList.floor order (toLex key) leaf.2.entries := by
      rcases hstart with rfl | hle
      · rw [List.nil_append]
      · exact SortedList.floor_append_of_le hle
    rw [Index.floorAt, hdescend, hsplit, ← List.append_assoc, SortedList.floor_append_of_gt hafter,
      hfloor, ← Node.floor_eq hleaf key]
    rfl

end Descent

/-! ### Scans -/

section Scan

variable {file : Bytes} {lsn : ℕ} {upper : Key}

/-- **What a cursor has before it**: the entries from its position on, then those of the leaves
behind. -/
inductive Before (file : Bytes) (lsn : ℕ) (upper : Key) : IndexCursor → List Entry → Prop
  | done (position : ℕ) : Before file lsn upper ⟨file, lsn, upper, none, position, false⟩ []
  | at (leaf : Leaf) {position : ℕ} {leaves : List (List Entry)} (le : position ≤ leaf.2.count)
      (rest : Chain file lsn leaf.2.next leaves) :
      Before file lsn upper ⟨file, lsn, upper, some leaf, position, false⟩
        (leaf.2.entries.drop position ++ leaves.flatten)

/-- What a step of a scan does with the entries before it. -/
def Steps (file : Bytes) (lsn : ℕ) (upper : Key) (entries : List Entry)
    (step : Option (Result Entry) × IndexCursor) : Prop :=
  match entries.takeWhile fun e => order e ≤ toLex upper with
  | [] => step.1 = none ∧ Before file lsn upper step.2 []
  | e :: rest => step.1 = some (.ok e) ∧ ∃ entries',
    Before file lsn upper step.2 entries' ∧
      (entries'.takeWhile fun e => order e ≤ toLex upper) = rest

/-- An entry at the position is returned, unless it is past the end. -/
theorem steps_emit (leaf : Leaf) {position : ℕ} {leaves : List (List Entry)}
    (hlt : position < leaf.2.count) (hrest : Chain file lsn leaf.2.next leaves)
    (cursor : IndexCursor) (hfile : cursor.file = file) (hlsn : cursor.lsn = lsn)
    (hupper : cursor.upper = upper) (hfailed : cursor.failed = false) :
    Steps file lsn upper (leaf.2.entries.drop position ++ leaves.flatten)
      (cursor.emit leaf position) := by
  obtain ⟨file', lsn', upper', _, _, failed⟩ := cursor
  obtain rfl : file = file' := hfile.symm
  obtain rfl : lsn = lsn' := hlsn.symm
  obtain rfl : upper = upper' := hupper.symm
  obtain rfl : failed = false := hfailed
  have hlen : leaf.2.entries.length = leaf.2.count := by simp [Node.entries]
  have hget : leaf.2.entries[position] = (leaf.2.key position, leaf.2.value position) := by
    simp [Node.entries]
  rw [List.drop_eq_getElem_cons (by omega), hget, List.cons_append, Steps, IndexCursor.emit]
  by_cases hpast : toLex upper < toLex (leaf.2.key position)
  · rw [List.takeWhile_cons_of_neg (by rw [decide_eq_true_eq]; exact not_le.mpr hpast),
      if_pos hpast]
    exact ⟨rfl, .done _⟩
  · rw [List.takeWhile_cons_of_pos (by rw [decide_eq_true_eq]; exact not_lt.mp hpast),
      if_neg hpast]
    exact ⟨rfl, _, .at leaf hlt hrest, rfl⟩

/-- **One step of a scan** returns the next entry, unless it is past the end. -/
theorem Before.next {cursor : IndexCursor} {entries : List Entry}
    (h : Before file lsn upper cursor entries) : Steps file lsn upper entries cursor.next := by
  cases h with
  | done position => exact ⟨rfl, .done position⟩
  | @«at» leaf position leaves hle hrest =>
    rw [IndexCursor.next, if_neg Bool.false_ne_true]
    dsimp only
    split
    · next hend =>
      have hlen : leaf.2.entries.length = leaf.2.count := by simp [Node.entries]
      rw [List.drop_of_length_le (by omega), List.nil_append]
      rcases hrest.start with ⟨hzero, rfl⟩ | ⟨hzero, node, hread, hkind, rest, rfl, hbehind⟩
      · rw [if_pos hzero]
        exact ⟨rfl, .done position⟩
      · have hpos : 0 < node.count := node.nonempty fun hmeta => by
          rw [Node.kind, hmeta] at hkind
          cases hkind
        rw [if_neg hzero, hread]
        dsimp only
        rw [if_pos hkind]
        exact steps_emit ⟨_, node⟩ hpos hbehind _ rfl rfl rfl rfl
    · next hwithin =>
      exact steps_emit leaf (lt_of_le_of_ne hle hwithin) hrest _ rfl rfl rfl rfl

/-- **A scan returns the entries up to its end**, in order, and then nothing. -/
theorem Before.nth {cursor : IndexCursor} {entries : List Entry}
    (h : Before file lsn upper cursor entries) (i : ℕ) :
    cursor.nth i = ((entries.takeWhile fun e => order e ≤ toLex upper)[i]?).map .ok := by
  induction i generalizing cursor entries with
  | zero =>
    have hnext := h.next
    rw [IndexCursor.nth]
    unfold Steps at hnext
    split at hnext
    · next heq => rw [heq, hnext.1]; rfl
    · next heq => rw [heq, hnext.1]; rfl
  | succ i ih =>
    have hnext := h.next
    rw [IndexCursor.nth]
    unfold Steps at hnext
    split at hnext
    · next heq => rw [heq, ih hnext.2]; rfl
    · next heq =>
      obtain ⟨-, entries', hbefore, hrest⟩ := hnext
      rw [heq, ih hbefore, hrest, List.getElem?_cons_succ]

/-- **A scan between two keys** returns the entries between them. -/
theorem Holds.scanAt {base : ℕ} {leaves : List (List Entry)} (h : Holds file lsn base leaves)
    (hascending : SortedList.Ascending order leaves.flatten) (lower upper : Key) :
    ∃ cursor, Index.scanAt file lsn base lower upper = .ok cursor ∧ ∀ i, cursor.nth i =
      ((SortedList.range order (toLex lower) (toLex upper) leaves.flatten)[i]?).map .ok := by
  rcases h.descend hascending lower with ⟨hdescend, rfl⟩ | ⟨leaf, hdescend, hreached⟩
  · refine ⟨_, by rw [Index.scanAt, hdescend]; rfl, fun i => ?_⟩
    exact (Before.done 0).nth i
  · obtain ⟨before, after, hsplit, hchain, hleaf, hbefore, hafter, -⟩ := hreached.parts hascending
    have hat := @Before.at file lsn upper leaf _ _ (leaf.2.lowerBound_le lower) hchain
    refine ⟨_, by rw [Index.scanAt, hdescend]; rfl, fun i => ?_⟩
    obtain ⟨hbelow, habove⟩ := Node.cut hleaf lower
    have hcut : leaves.flatten = (before ++ leaf.2.entries.take (leaf.2.lowerBound lower)) ++
        (leaf.2.entries.drop (leaf.2.lowerBound lower) ++ after.flatten) := by
      rw [hsplit, List.append_assoc, ← List.append_assoc (List.take _ _), List.take_append_drop]
    refine (hat.nth i).trans ?_
    rw [hcut] at hascending ⊢
    rw [SortedList.range_of_cut hascending (List.forall_mem_append.mpr ⟨hbefore, hbelow⟩)
      (List.forall_mem_append.mpr ⟨habove, fun e he => (hafter e he).le⟩)]

end Scan

end Index

end EveDB
