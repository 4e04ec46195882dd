import EveDB.Storage.IndexFile

/-!
# Index queries on any bytes

The pages of an index file are validated one at a time, and a damaged file may hold anything. Here
the queries are written once more so that whatever could go wrong with them does: an access
outside of a page is `none`, and so is a loop that has not come to its end within its steps.

They come to an end, with what the queries of `Storage.IndexFile` return (`queries_end`). A node
that passed its checks has all its entries on its page; a branch has its children on pages in front
of it, and a leaf the next one behind it. So a descent goes down from page to page, whatever tree
of the file they belong to, and a scan goes up.
-/

namespace EveDB

/-- Reads a number of eight bytes, if they are on the page. -/
def PageBytes.get? (page : PageBytes) (offset : ℕ) : Option ℕ :=
  if offset + 8 ≤ pageSize then some (page.get offset) else none

namespace Index

/-! ### Pages -/

section Fields

variable (bytes : PageBytes)

/-- `keyOf`, unless it reads behind the page. -/
def keyOf? (index : ℕ) : Option Key := do
  let offset := header + index * widthOf bytes
  return (← bytes.get? offset, ← bytes.get? (offset + 8))

/-- `childOf`, unless it reads behind the page. -/
def childOf? (index : ℕ) : Option ℕ := bytes.get? (header + index * branchWidth + 16)

/-- The value of an entry of a leaf, unless it is read behind the page. -/
def valueOf? (index : ℕ) : Option IndexValue := do
  let offset := header + index * leafWidth
  return (← bytes.get? (offset + 16), ← bytes.get? (offset + 24))

end Fields

/-- `checkEntries`, with every access checked. -/
def checkEntries? (bytes : PageBytes) (expectedId : ℕ) :
    (n i : ℕ) → Option Key → Option (Result Unit)
  | 0, _, _ => some (.ok ())
  | n + 1, i, previous => do
    let key ← keyOf? bytes i
    if previous.any fun p => toLex key ≤ toLex p then return corrupt "unordered index node"
    else if kindOf bytes = 2 then do
      let child ← childOf? bytes i
      if child = 0 ∨ expectedId ≤ child then return corrupt "invalid index child"
      else checkEntries? bytes expectedId n (i + 1) (some key)
    else checkEntries? bytes expectedId n (i + 1) (some key)

namespace Node

/-- The checks of `validate`, with every access checked. -/
def validate? (bytes : PageBytes) (expectedId : ℕ) : Option (Result Unit) :=
  let count := countOf bytes
  if kindOf bytes = 0 ∧ count = 0 ∧ (nextOf bytes = 0 ∨ expectedId < nextOf bytes) then
    some (.ok ())
  else if ¬ (kindOf bytes = 1 ∨ kindOf bytes = 2) then some (corrupt "invalid index node kind")
  else if count = 0 ∨ (pageSize - header) / widthOf bytes < count then
    some (corrupt "invalid index node count")
  else do
    match ← checkEntries? bytes expectedId count 0 none with
    | .error e => return .error e
    | .ok () =>
      if kindOf bytes = 1 ∧ nextOf bytes ≠ 0 ∧ nextOf bytes ≤ expectedId then
        return corrupt "cyclic index leaf chain"
      else return .ok ()

/-- A page is decoded if its entries can be checked; its header is always there. -/
def decode? (page : PageBytes) (expectedId : ℕ) : Option (Result (Node expectedId)) := do
  let bytes := page.write 28 [0, 0, 0, 0]
  let _ ← validate? bytes expectedId
  return decode page expectedId

variable {id : ℕ} (node : Node id)

/-- `key`, unless it reads behind the page. -/
def key? (index : ℕ) : Option Key := keyOf? node.bytes index

/-- `value`, unless it reads behind the page. -/
def value? (index : ℕ) : Option IndexValue := valueOf? node.bytes index

/-- `child`, unless it reads behind the page. -/
def child? (index : ℕ) : Option ℕ := childOf? node.bytes index

/-- `lowerBound`, with every key it compares checked. -/
def lowerBound? (key : Key) : Option ℕ :=
  BinarySearch.lowerBound? (fun i => (node.key? i).map fun k => decide (toLex k < toLex key)) 0
    node.count

/-- `floorIndex`, with every key it compares checked. -/
def floorIndex? (key : Key) : Option (Option ℕ) := do
  let index ← node.lowerBound? key
  if index < node.count then
    if (← node.key? index) = key then return some index
  return if index = 0 then none else some (index - 1)

end Node

/-! ### Queries -/

section Reading

variable (file : Bytes)

/-- `readNode`, with every access checked. -/
def readNode? (id lsn : ℕ) : Option (Result (Node id)) :=
  match pageAt file id with
  | .error e => some (.error e)
  | .ok page => do
    let _ ← Node.decode? page id
    return readNode file id lsn

/-- Walks from a page to the leaf that would contain `key`, and lists the pages it meets. -/
def descendFrom? (lsn : ℕ) (key : Key) : (steps id : ℕ) → Option (List ℕ × Result (Option Leaf))
  | 0, _ => none
  | steps + 1, id =>
    if id = 0 then some ([], .ok none)
    else do
      match ← readNode? file id lsn with
      | .error e => return ([id], .error e)
      | .ok current =>
        if current.kind = 1 then return ([id], .ok (some ⟨id, current⟩))
        else if current.kind = 2 then do
          let index ← current.floorIndex? key
          let child ← current.child? (index.getD 0)
          let (ids, leaf) ← descendFrom? lsn key steps child
          return (id :: ids, leaf)
        else return ([id], corrupt "index root points to metadata")

/-- `descend`, in at most so many steps, with the pages it meets. -/
def descend? (lsn base : ℕ) (key : Key) (steps : ℕ) : Option (List ℕ × Result (Option Leaf)) :=
  if file.length % pageSize ≠ 0 then some ([], corrupt "truncated index file")
  else do
    match ← readNode? file base lsn with
    | .error e => return ([], .error e)
    | .ok root =>
      if root.kind ≠ 0 then return ([], corrupt "index root is not metadata")
      else descendFrom? file lsn key steps root.next

/-- `lookupAt`, in at most so many steps, with every access checked. -/
def lookupAt? (lsn base : ℕ) (key : Key) (steps : ℕ) : Option (Result (Option IndexValue)) := do
  match (← descend? file lsn base key steps).2 with
  | .error e => return .error e
  | .ok none => return .ok none
  | .ok (some ⟨_, leaf⟩) =>
    let index ← leaf.lowerBound? key
    if index < leaf.count then
      if (← leaf.key? index) = key then return .ok (some (← leaf.value? index))
    return .ok none

/-- `floorAt`, in at most so many steps, with every access checked. -/
def floorAt? (lsn base : ℕ) (key : Key) (steps : ℕ) :
    Option (Result (Option (Key × IndexValue))) := do
  match (← descend? file lsn base key steps).2 with
  | .error e => return .error e
  | .ok none => return .ok none
  | .ok (some ⟨_, leaf⟩) =>
    match ← leaf.floorIndex? key with
    | none => return .ok none
    | some index => return .ok (some (← leaf.key? index, ← leaf.value? index))

/-- `scanAt`, in at most so many steps, with every access checked. -/
def scanAt? (lsn base : ℕ) (lower upper : Key) (steps : ℕ) : Option (Result IndexCursor) := do
  match (← descend? file lsn base lower steps).2 with
  | .error e => return .error e
  | .ok leaf =>
    let position ← match leaf with
      | none => some 0
      | some leaf => leaf.2.lowerBound? lower
    return .ok { file, lsn, upper, leaf, position, failed := false }

end Reading

namespace IndexCursor

/-- The next entry, if there is one, and the leaves that the cursor moves on to. -/
def next? : (steps : ℕ) → IndexCursor →
    Option (List ℕ × Option (Result (Key × IndexValue)) × IndexCursor)
  | 0, _ => none
  | steps + 1, cursor =>
    if cursor.failed then some ([], none, cursor)
    else
      match cursor.leaf with
      | none => some ([], none, cursor)
      | some leaf =>
        if cursor.position = leaf.2.count then
          if leaf.2.next = 0 then some ([], none, { cursor with leaf := none })
          else do
            match ← readNode? cursor.file leaf.2.next cursor.lsn with
            | .error e => return ([], some (.error e), { cursor with failed := true })
            | .ok page =>
              if page.kind = 1 then do
                let (leaves, item) ← next? steps
                  { cursor with leaf := some ⟨leaf.2.next, page⟩, position := 0 }
                return (leaf.2.next :: leaves, item)
              else
                return ([], some (corrupt "leaf chain points to a branch"),
                  { cursor with failed := true })
        else do
          let key ← leaf.2.key? cursor.position
          if toLex cursor.upper < toLex key then return ([], none, { cursor with leaf := none })
          else
            let value ← leaf.2.value? cursor.position
            return ([], some (.ok (key, value)), { cursor with position := cursor.position + 1 })

/-- Asks a cursor until there is nothing left. -/
def drain? : (steps : ℕ) → IndexCursor → Option (List ℕ × List (Result (Key × IndexValue)))
  | 0, _ => none
  | steps + 1, cursor => do
    let (leaves, item, cursor) ← cursor.next? 2
    match item with
    | none => return (leaves, [])
    | some item =>
      let (rest, items) ← cursor.drain? steps
      return (leaves ++ rest, item :: items)

end IndexCursor

/-! ### Every access is on its page -/

theorem get?_eq {bytes : PageBytes} {offset : ℕ} (h : offset + 8 ≤ pageSize) :
    bytes.get? offset = some (bytes.get offset) := if_pos h

/-- **The entries of a page are on it.** -/
def OnPage (bytes : PageBytes) (count : ℕ) : Prop := header + count * widthOf bytes ≤ pageSize

section Entries

variable {bytes : PageBytes} {count index : ℕ}

theorem widthOf_cases (bytes : PageBytes) :
    (kindOf bytes = 1 ∧ widthOf bytes = 32) ∨ (kindOf bytes ≠ 1 ∧ widthOf bytes = 24) := by
  by_cases hkind : kindOf bytes = 1
  · exact Or.inl ⟨hkind, if_pos hkind⟩
  · exact Or.inr ⟨hkind, if_neg hkind⟩

/-- An entry ends where the next one begins. -/
theorem OnPage.entry (h : OnPage bytes count) (hindex : index < count) :
    header + index * widthOf bytes + widthOf bytes ≤ pageSize := by
  have hle : (index + 1) * widthOf bytes ≤ count * widthOf bytes := Nat.mul_le_mul_right _ hindex
  rw [Nat.succ_mul] at hle
  have := h
  rw [OnPage] at this
  omega

theorem OnPage.key (h : OnPage bytes count) (hindex : index < count) :
    keyOf? bytes index = some (keyOf bytes index) := by
  have hentry := h.entry hindex
  have hwidth := widthOf_cases bytes
  rw [keyOf?]
  rw [get?_eq (by omega), Option.bind_eq_bind, Option.bind_some, get?_eq (by omega)]
  rfl

theorem OnPage.child (h : OnPage bytes count) (hindex : index < count) (hkind : kindOf bytes = 2) :
    childOf? bytes index = some (childOf bytes index) := by
  have hentry := h.entry hindex
  have hwidth : widthOf bytes = branchWidth := if_neg (by omega)
  have hsize : branchWidth = 24 := rfl
  rw [hwidth, hsize] at hentry
  exact get?_eq (by rw [hsize]; omega)

theorem OnPage.value {id : ℕ} {node : Node id} (h : OnPage node.bytes count)
    (hindex : index < count) (hkind : node.kind = 1) :
    node.value? index = some (node.value index) := by
  have hentry := h.entry hindex
  have hwidth : widthOf node.bytes = leafWidth := if_pos hkind
  have hsize : leafWidth = 32 := rfl
  rw [hwidth, hsize] at hentry
  rw [Node.value?, valueOf?]
  rw [get?_eq (by rw [hsize]; omega), Option.bind_eq_bind, Option.bind_some,
    get?_eq (by rw [hsize]; omega)]
  rfl

/-- **The entries of a page are checked** without an access outside of it. -/
theorem OnPage.checkEntries (h : OnPage bytes count) (expectedId : ℕ) {n i : ℕ}
    (hn : i + n ≤ count) (previous : Option Key) :
    checkEntries? bytes expectedId n i previous =
      some (Index.checkEntries bytes expectedId n i previous) := by
  induction n generalizing i previous with
  | zero => rfl
  | succ n ih =>
    rw [checkEntries?, Index.checkEntries, h.key (by omega), Option.bind_eq_bind, Option.bind_some]
    split
    · rfl
    · by_cases hkind : kindOf bytes = 2
      · rw [if_pos hkind, h.child (by omega) hkind, Option.bind_eq_bind, Option.bind_some]
        by_cases hchild : childOf bytes i = 0 ∨ expectedId ≤ childOf bytes i
        · rw [if_pos hchild, if_pos ⟨hkind, hchild⟩]
          rfl
        · rw [if_neg hchild, if_neg fun hc => hchild hc.2]
          exact ih (by omega) _
      · rw [if_neg hkind, if_neg fun hc => hkind hc.1]
        exact ih (by omega) _

end Entries

/-- **A node that passed its checks** has its entries on its page, and the next leaf is behind
it. -/
structure Node.Passed {id : ℕ} (node : Node id) : Prop where
  onPage : OnPage node.bytes node.count
  next_gt : node.kind = 1 → node.next = 0 ∨ id < node.next

namespace Node

variable {id : ℕ} {node : Node id}

/-- The checks look at nothing outside of the page. -/
theorem exists_validate? (bytes : PageBytes) (expectedId : ℕ) :
    ∃ r, validate? bytes expectedId = some r := by
  rw [validate?]
  split
  · exact ⟨_, rfl⟩
  · split
    · exact ⟨_, rfl⟩
    · split
      · exact ⟨_, rfl⟩
      · next hcount =>
        have honPage : OnPage bytes (countOf bytes) := by
          have hle := Nat.le_of_not_lt fun hlt => hcount (Or.inr hlt)
          have hmul := Nat.mul_le_of_le_div _ _ _ hle
          have hheader : header ≤ pageSize := by decide
          rw [OnPage]
          omega
        rw [honPage.checkEntries expectedId (by omega) none, Option.bind_eq_bind, Option.bind_some]
        split
        · exact ⟨_, rfl⟩
        · split
          · exact ⟨_, rfl⟩
          · exact ⟨_, rfl⟩

theorem passed_of_validate {bytes : PageBytes} (h : validate bytes id = .ok node) :
    node.Passed := by
  rw [validate] at h
  split at h
  · next hmeta =>
    cases h
    refine ⟨?_, fun hkind => ?_⟩
    · rw [OnPage, count, hmeta.2.1, Nat.zero_mul]
      decide
    · rw [kind, hmeta.1] at hkind
      cases hkind
  · split at h
    · cases h
    · split at h
      · cases h
      · next hcount =>
        split at h
        · cases h
        · split at h
          · cases h
          · next hchain =>
            cases h
            refine ⟨?_, fun hkind => ?_⟩
            · have hle := Nat.le_of_not_lt fun hlt => hcount (Or.inr hlt)
              have hmul := Nat.mul_le_of_le_div _ _ _ hle
              have hheader : header ≤ pageSize := by decide
              change header + countOf bytes * widthOf bytes ≤ pageSize
              omega
            · by_contra hnext
              obtain ⟨hne, hle⟩ := not_or.mp hnext
              exact hchain ⟨hkind, hne, Nat.le_of_not_lt hle⟩

theorem passed_of_decode {page : PageBytes} (h : decode page id = .ok node) : node.Passed := by
  rw [decode] at h
  split at h
  · cases h
  · exact passed_of_validate h

/-- **A page is decoded** without an access outside of it. -/
theorem decode?_eq (page : PageBytes) (expectedId : ℕ) :
    decode? page expectedId = some (decode page expectedId) := by
  obtain ⟨r, hr⟩ := exists_validate? (page.write 28 [0, 0, 0, 0]) expectedId
  rw [decode?, hr]
  rfl

/-- **A binary search looks at entries of the page.** -/
theorem Passed.lowerBound? (h : node.Passed) (key : Key) :
    node.lowerBound? key = some (node.lowerBound key) := by
  refine BinarySearch.lowerBound?_eq fun i hi => ?_
  rw [key?, h.onPage.key hi]
  rfl

theorem Passed.floorIndex? (h : node.Passed) (key : Key) :
    node.floorIndex? key = some (node.floorIndex key) := by
  rw [Node.floorIndex?, h.lowerBound?, Option.bind_eq_bind, Option.bind_some, floorIndex]
  dsimp only
  by_cases hlt : node.lowerBound key < node.count
  · have hkey : node.key? (node.lowerBound key) = some (node.key (node.lowerBound key)) :=
      h.onPage.key hlt
    rw [if_pos hlt, hkey, Option.bind_eq_bind, Option.bind_some]
    by_cases hfound : node.key (node.lowerBound key) = key
    · rw [if_pos hfound, if_pos ⟨hlt, hfound⟩]
      rfl
    · have hnot : ¬ (node.lowerBound key < node.count ∧ node.key (node.lowerBound key) = key) :=
        fun hc => hfound hc.2
      rw [if_neg hfound, if_neg hnot]
      rfl
  · have hnot : ¬ (node.lowerBound key < node.count ∧ node.key (node.lowerBound key) = key) :=
      fun hc => hlt hc.1
    rw [if_neg hlt, if_neg hnot]
    rfl

/-- The entry found is one of the node. -/
theorem floorIndex_lt {key : Key} {index : ℕ} (h : node.floorIndex key = some index) :
    index < node.count := by
  have hle := node.lowerBound_le key
  rw [floorIndex] at h
  split at h
  · next hfound => exact Option.some.inj h ▸ hfound.1
  · split at h
    · cases h
    · obtain rfl := Option.some.inj h
      omega

end Node

section Reading

variable (file : Bytes)

/-- The pages of a file. -/
def pageCount : ℕ := file.length / pageSize

/-- A page that can be read is in the file. -/
theorem lt_pageCount {id : ℕ} {page : PageBytes} (h : pageAt file id = .ok page) :
    id < pageCount file := by
  rw [pageAt] at h
  split at h
  · cases h
  · split at h
    · next hend =>
      rw [← Nat.succ_mul] at hend
      exact (Nat.le_div_iff_mul_le (by decide)).mpr hend
    · cases h

/-- **Reading a page** stays on it. A node that was read has passed its checks, and is in the
file. -/
theorem readNode?_eq (id lsn : ℕ) : readNode? file id lsn = some (readNode file id lsn) := by
  rw [readNode?]
  split
  · next e he =>
    rw [readNode, he]
    rfl
  · rw [Node.decode?_eq]
    rfl

theorem readNode_eq_ok {id lsn : ℕ} {node : Node id} (h : readNode file id lsn = .ok node) :
    node.Passed ∧ id < pageCount file := by
  obtain ⟨page, hpage, hrest⟩ := bind_eq_ok.mp h
  obtain ⟨found, hfound, hguard⟩ := bind_eq_ok.mp hrest
  split at hguard
  · cases hguard
  · cases hguard
    exact ⟨Node.passed_of_decode hfound, lt_pageCount file hpage⟩

/-- **A descent comes to its end**, after no more steps than the file has pages and one. The pages
it meets go down, from the one it starts at. -/
theorem descendFrom?_eq (lsn : ℕ) (key : Key) {steps id : ℕ}
    (hsteps : min id (pageCount file) < steps) :
    ∃ ids, descendFrom? file lsn key steps id = some (ids, descendFrom file lsn key id) ∧
      (∀ i ∈ ids, i ≤ id) ∧ ids.Pairwise (· > ·) := by
  induction steps generalizing id with
  | zero => exact absurd hsteps (Nat.not_lt_zero _)
  | succ steps ih =>
    rw [descendFrom?, descendFrom]
    by_cases hzero : id = 0
    · rw [if_pos hzero, if_pos hzero]
      exact ⟨[], rfl, fun i hi => absurd hi List.not_mem_nil, .nil⟩
    · rw [if_neg hzero, if_neg hzero, readNode?_eq, Option.bind_eq_bind, Option.bind_some]
      have hself : ∀ i ∈ [id], i ≤ id := fun i hi => (List.mem_singleton.mp hi).le
      rcases hread : readNode file id lsn with e | current
      · exact ⟨[id], rfl, hself, List.pairwise_singleton _ _⟩
      · obtain ⟨hpassed, hinside⟩ := readNode_eq_ok file hread
        dsimp only
        by_cases hleaf : current.kind = 1
        · rw [if_pos hleaf, if_pos hleaf]
          exact ⟨[id], rfl, hself, List.pairwise_singleton _ _⟩
        · rw [if_neg hleaf, if_neg hleaf]
          by_cases hbranch : current.kind = 2
          · -- the children of a branch are in front of it
            have hnonempty : 0 < current.count := current.nonempty fun hmeta => by
              rw [Node.kind, hmeta] at hbranch
              cases hbranch
            have hindex := current.floorIndex_getD_lt key hnonempty
            have hchild := current.child_lt hbranch _ hindex
            have hfound : current.child? ((current.floorIndex key).getD 0) =
                some (current.child ((current.floorIndex key).getD 0)) :=
              hpassed.onPage.child hindex hbranch
            obtain ⟨ids, hids, hle, hdown⟩ :=
              @ih (current.child ((current.floorIndex key).getD 0)) (by
                have : current.child ((current.floorIndex key).getD 0) < id := hchild
                omega)
            have hbelow : ∀ i ∈ ids, i < id := fun i hi => (hle i hi).trans_lt hchild
            rw [if_pos hbranch, dif_pos hbranch, hpassed.floorIndex?, Option.bind_eq_bind,
              Option.bind_some, hfound, Option.bind_eq_bind, Option.bind_some, hids]
            refine ⟨id :: ids, rfl, ?_, List.pairwise_cons.mpr ⟨hbelow, hdown⟩⟩
            intro i hi
            rcases List.mem_cons.mp hi with rfl | hi
            · exact le_rfl
            · exact (hbelow i hi).le
          · rw [if_neg hbranch, dif_neg hbranch]
            exact ⟨[id], rfl, hself, List.pairwise_singleton _ _⟩

/-- **A descent from the metadata page of a tree**, whatever the page holds. -/
theorem descend?_eq (lsn base : ℕ) (key : Key) {steps : ℕ} (hsteps : pageCount file < steps) :
    ∃ ids, descend? file lsn base key steps = some (ids, descend file lsn base key) ∧
      ids.Pairwise (· > ·) := by
  rw [descend?, descend]
  by_cases htruncated : file.length % pageSize ≠ 0
  · rw [if_pos htruncated, if_pos htruncated]
    exact ⟨[], rfl, .nil⟩
  · rw [if_neg htruncated, if_neg htruncated, readNode?_eq, Option.bind_eq_bind, Option.bind_some]
    rcases hread : readNode file base lsn with e | root
    · exact ⟨[], rfl, .nil⟩
    · dsimp only
      rw [ok_bind]
      by_cases hmeta : root.kind ≠ 0
      · rw [if_pos hmeta, if_pos hmeta]
        exact ⟨[], rfl, .nil⟩
      · rw [if_neg hmeta, if_neg hmeta]
        obtain ⟨ids, hids, -, hdown⟩ :=
          @descendFrom?_eq file lsn key steps root.next (by omega)
        exact ⟨ids, hids, hdown⟩

/-- **A leaf that may be searched**: it has passed its checks, and is in the file. -/
structure Leaf.Found (leaf : Leaf) : Prop where
  passed : leaf.2.Passed
  kind_eq : leaf.2.kind = 1
  inside : leaf.1 < pageCount file

theorem found_of_descendFrom {lsn : ℕ} {key : Key} {id : ℕ} {leaf : Leaf}
    (h : descendFrom file lsn key id = .ok (some leaf)) : leaf.Found file := by
  fun_induction descendFrom file lsn key id with
  | case1 => cases h
  | case2 => cases h
  | case3 id hid current hread hleaf =>
    cases h
    obtain ⟨hpassed, hinside⟩ := readNode_eq_ok file hread
    exact ⟨hpassed, hleaf, hinside⟩
  | case4 id hid current hread hleaf hbranch ih => exact ih h
  | case5 => cases h

theorem found_of_descend {lsn base : ℕ} {key : Key} {leaf : Leaf}
    (h : descend file lsn base key = .ok (some leaf)) : leaf.Found file := by
  rw [descend] at h
  split at h
  · cases h
  · obtain ⟨root, -, hrest⟩ := bind_eq_ok.mp h
    split at hrest
    · cases hrest
    · exact found_of_descendFrom file hrest

/-- **A lookup comes to its end.** -/
theorem lookupAt?_eq (lsn base : ℕ) (key : Key) {steps : ℕ} (hsteps : pageCount file < steps) :
    lookupAt? file lsn base key steps = some (lookupAt file lsn base key) := by
  obtain ⟨ids, hids, -⟩ := descend?_eq file lsn base key hsteps
  rw [lookupAt?, lookupAt, hids, Option.bind_eq_bind, Option.bind_some]
  rcases hleaf : descend file lsn base key with e | _ | ⟨id, leaf⟩
  · rfl
  · rfl
  · obtain ⟨hpassed, hkind, -⟩ := found_of_descend file hleaf
    dsimp only
    rw [hpassed.lowerBound?, Option.bind_eq_bind, Option.bind_some, ok_bind]
    dsimp only
    by_cases hlt : leaf.lowerBound key < leaf.count
    · have hkey : leaf.key? (leaf.lowerBound key) = some (leaf.key (leaf.lowerBound key)) :=
        hpassed.onPage.key hlt
      rw [if_pos hlt, hkey, Option.bind_eq_bind, Option.bind_some]
      by_cases hfound : leaf.key (leaf.lowerBound key) = key
      · rw [if_pos hfound, hpassed.onPage.value hlt hkind, if_pos ⟨hlt, hfound⟩]
        rfl
      · have hnot : ¬ (leaf.lowerBound key < leaf.count ∧ leaf.key (leaf.lowerBound key) = key) :=
          fun hc => hfound hc.2
        rw [if_neg hfound, if_neg hnot]
        rfl
    · have hnot : ¬ (leaf.lowerBound key < leaf.count ∧ leaf.key (leaf.lowerBound key) = key) :=
        fun hc => hlt hc.1
      rw [if_neg hlt, if_neg hnot]
      rfl

/-- **A floor query comes to its end.** -/
theorem floorAt?_eq (lsn base : ℕ) (key : Key) {steps : ℕ} (hsteps : pageCount file < steps) :
    floorAt? file lsn base key steps = some (floorAt file lsn base key) := by
  obtain ⟨ids, hids, -⟩ := descend?_eq file lsn base key hsteps
  rw [floorAt?, floorAt, hids, Option.bind_eq_bind, Option.bind_some]
  rcases hleaf : descend file lsn base key with e | _ | ⟨id, leaf⟩
  · rfl
  · rfl
  · obtain ⟨hpassed, hkind, -⟩ := found_of_descend file hleaf
    dsimp only
    rw [hpassed.floorIndex?, Option.bind_eq_bind, Option.bind_some, ok_bind]
    dsimp only
    rcases hindex : leaf.floorIndex key with _ | index
    · rfl
    · have hlt := Node.floorIndex_lt hindex
      have hkey : leaf.key? index = some (leaf.key index) := hpassed.onPage.key hlt
      dsimp only
      rw [hkey, hpassed.onPage.value hlt hkind]
      rfl

/-- **Beginning a scan** comes to its end. -/
theorem scanAt?_eq (lsn base : ℕ) (lower upper : Key) {steps : ℕ}
    (hsteps : pageCount file < steps) :
    scanAt? file lsn base lower upper steps = some (scanAt file lsn base lower upper) := by
  obtain ⟨ids, hids, -⟩ := descend?_eq file lsn base lower hsteps
  rw [scanAt?, scanAt, hids, Option.bind_eq_bind, Option.bind_some]
  rcases hleaf : descend file lsn base lower with e | _ | ⟨id, leaf⟩
  · rfl
  · rfl
  · obtain ⟨hpassed, -, -⟩ := found_of_descend file hleaf
    dsimp only
    rw [hpassed.lowerBound?, Option.bind_eq_bind, Option.bind_some, ok_bind]
    rfl

end Reading

/-! ### Scans -/

namespace IndexCursor

variable {cursor : IndexCursor}

/-- **A cursor on its way**: it is at an entry of a leaf, or behind the last. -/
def OnWay (cursor : IndexCursor) : Prop :=
  ∀ leaf, cursor.leaf = some leaf → leaf.Found cursor.file ∧ cursor.position ≤ leaf.2.count

/-- How many more entries a cursor may come to. -/
def left (cursor : IndexCursor) : ℕ :=
  if cursor.failed then 0
  else
    match cursor.leaf with
    | none => 0
    | some leaf => (pageCount cursor.file - leaf.1 - 1) * leafCapacity +
        (leaf.2.count - cursor.position) + 1

/-- The leaf a cursor is at, if it is at one. -/
def here (cursor : IndexCursor) : List ℕ := (cursor.leaf.map Sigma.fst).toList

/-- A leaf has no more entries than fit. -/
theorem count_le_of_found {file : Bytes} {leaf : Leaf} (h : leaf.Found file) :
    leaf.2.count ≤ leafCapacity := by
  have honPage := h.passed.onPage
  have hwidth : widthOf leaf.2.bytes = leafWidth := if_pos h.kind_eq
  rw [OnPage, hwidth] at honPage
  exact (Nat.le_div_iff_mul_le (by decide)).mpr (by omega)

theorem left_eq {leaf : Leaf} (hfailed : cursor.failed = false) (hleaf : cursor.leaf = some leaf) :
    cursor.left = (pageCount cursor.file - leaf.1 - 1) * leafCapacity +
      (leaf.2.count - cursor.position) + 1 := by
  rw [left, if_neg (Bool.eq_false_iff.mp hfailed), hleaf]

theorem here_eq {leaf : Leaf} (hleaf : cursor.leaf = some leaf) : cursor.here = [leaf.1] := by
  rw [here, hleaf]
  rfl

/-- **An entry is emitted** without an access outside of its page. -/
theorem next?_emit {leaf : Leaf} (hfailed : cursor.failed = false)
    (hleaf : cursor.leaf = some leaf) (hfound : leaf.Found cursor.file)
    (hlt : cursor.position < leaf.2.count) (steps : ℕ) :
    ∃ cursor', cursor.next? (steps + 1) = some ([], (cursor.emit leaf cursor.position).1, cursor') ∧
      ((cursor.emit leaf cursor.position).1.isSome →
        cursor' = { cursor with position := cursor.position + 1 } ∧
          cursor' = (cursor.emit leaf cursor.position).2) := by
  have hkey : leaf.2.key? cursor.position = some (leaf.2.key cursor.position) :=
    hfound.passed.onPage.key hlt
  rw [next?, if_neg (Bool.eq_false_iff.mp hfailed), hleaf]
  dsimp only
  rw [if_neg (Nat.ne_of_lt hlt), hkey, Option.bind_eq_bind, Option.bind_some, emit]
  split
  · refine ⟨_, rfl, ?_⟩
    rintro ⟨⟩
  · rw [hfound.passed.onPage.value hlt hfound.kind_eq]
    exact ⟨_, rfl, fun _ => ⟨rfl, rfl⟩⟩

/-- A cursor that moves on to the next leaf emits its first entry. -/
theorem next?_moved {id : ℕ} {page : Node id} (hfailed : ¬ cursor.failed = true)
    (hinside : id < pageCount cursor.file) (hpassed : page.Passed) (hkind : page.kind = 1) :
    ∃ cursor', next? 1 { cursor with leaf := some ⟨id, page⟩, position := 0 } =
        some ([], (cursor.emit ⟨id, page⟩ 0).1, cursor') ∧
      ((cursor.emit ⟨id, page⟩ 0).1.isSome →
        cursor' = { cursor with leaf := some ⟨id, page⟩, position := 1 } ∧
          cursor' = (cursor.emit ⟨id, page⟩ 0).2) := by
  have hcount : 0 < page.count := page.nonempty fun hmeta => by
    rw [Node.kind, hmeta] at hkind
    cases hkind
  obtain ⟨cursor', hcall, hcalled⟩ := @next?_emit
    { cursor with leaf := some ⟨id, page⟩, position := 0 } ⟨id, page⟩
    (Bool.eq_false_iff.mpr hfailed) rfl ⟨hpassed, hkind, hinside⟩ hcount 0
  rw [emit] at hcall hcalled ⊢
  dsimp only at hcall hcalled ⊢
  split at hcall
  · next hbeyond =>
    rw [if_pos hbeyond]
    refine ⟨cursor', hcall, ?_⟩
    rintro ⟨⟩
  · next hinside =>
    rw [if_neg hinside] at hcalled ⊢
    exact ⟨cursor', hcall, hcalled⟩

/-- **What one call does.** It comes to its end, with what `next` returns. It stays at its leaf or
moves on to one behind it, and unless it found nothing there is less left. -/
structure Called (cursor : IndexCursor) (leaves : List ℕ) (cursor' : IndexCursor) : Prop where
  next_eq : cursor' = cursor.next.2
  onWay : cursor'.OnWay
  file_eq : cursor'.file = cursor.file
  less : cursor'.left < cursor.left
  here_eq : leaves = [] ∧ cursor'.here = cursor.here ∨ leaves ≠ [] ∧ cursor'.here = leaves

/-- **How a call ends**: with what `next` returns, and after at most one page, which is behind the
leaf the cursor was at. -/
def Ends (cursor : IndexCursor) : Prop :=
  ∃ leaves cursor', cursor.next? 2 = some (leaves, cursor.next.1, cursor') ∧
    (cursor.next.1.isSome → cursor.Called leaves cursor') ∧
    (∀ i ∈ cursor.here, ∀ j ∈ leaves, i < j) ∧
    (leaves = [] ∨ ∃ j < pageCount cursor.file, leaves = [j])

/-- A call that reads no page. -/
theorem Ends.of_unread {cursor' : IndexCursor}
    (hcall : cursor.next? 2 = some ([], cursor.next.1, cursor'))
    (hcalled : cursor.next.1.isSome → cursor.Called [] cursor') : cursor.Ends :=
  ⟨[], cursor', hcall, hcalled, fun _ _ _ hj => absurd hj List.not_mem_nil, Or.inl rfl⟩

/-- A call that returns nothing. -/
theorem Ends.of_none {cursor' : IndexCursor} (hnext : cursor.next = (none, cursor'))
    (hcall : cursor.next? 2 = some ([], none, cursor')) : cursor.Ends := by
  refine .of_unread (by rw [hnext]; exact hcall) fun hsome => ?_
  rw [hnext] at hsome
  cases hsome

/-- A call that fails leaves the cursor at its leaf, with nothing left. -/
theorem Ends.of_error {leaf : Leaf} {e : Error} (h : cursor.OnWay) (hfailed : cursor.failed = false)
    (hleaf : cursor.leaf = some leaf)
    (hnext : cursor.next = (some (.error e), { cursor with failed := true }))
    (hcall : cursor.next? 2 = some ([], some (.error e), { cursor with failed := true })) :
    cursor.Ends := by
  refine .of_unread (by rw [hnext]; exact hcall) fun _ => ?_
  refine ⟨by rw [hnext], fun leaf' hleaf' => h leaf' hleaf', rfl, ?_, Or.inl ⟨rfl, rfl⟩⟩
  rw [left_eq hfailed hleaf]
  exact Nat.succ_pos _

/-- **A call within a leaf.** -/
theorem called_within {leaf : Leaf} (hfailed : cursor.failed = false)
    (hleaf : cursor.leaf = some leaf) (hfound : leaf.Found cursor.file)
    (hlt : cursor.position < leaf.2.count)
    (hnext : cursor.next.2 = { cursor with position := cursor.position + 1 }) :
    cursor.Called [] { cursor with position := cursor.position + 1 } where
  next_eq := hnext.symm
  onWay leaf' hleaf' := by
    obtain rfl := Option.some.inj (hleaf.symm.trans hleaf')
    exact ⟨hfound, hlt⟩
  file_eq := rfl
  less := by
    have hrest := @left_eq { cursor with position := cursor.position + 1 } leaf hfailed hleaf
    rw [left_eq hfailed hleaf, hrest]
    dsimp only
    omega
  here_eq := Or.inl ⟨rfl, rfl⟩

/-- **A call that moves on to the next leaf.** The leaves before it had room for more entries than
this one can have. -/
theorem called_moved {leaf : Leaf} {id : ℕ} {page : Node id} (hfailed : cursor.failed = false)
    (hleaf : cursor.leaf = some leaf) (hgt : leaf.1 < id)
    (hfound : Leaf.Found cursor.file ⟨id, page⟩) (hcount : 0 < page.count)
    (hnext : cursor.next.2 = { cursor with leaf := some ⟨id, page⟩, position := 1 }) :
    cursor.Called [id] { cursor with leaf := some ⟨id, page⟩, position := 1 } where
  next_eq := hnext.symm
  onWay leaf' hleaf' := by
    obtain rfl := Option.some.inj hleaf'
    exact ⟨hfound, hcount⟩
  file_eq := rfl
  less := by
    have hrest := @left_eq { cursor with leaf := some ⟨id, page⟩, position := 1 } ⟨id, page⟩
      hfailed rfl
    have hfits : page.count ≤ leafCapacity := count_le_of_found hfound
    have hinside : id < pageCount cursor.file := hfound.inside
    have hcapacity : leafCapacity = 254 := by decide
    rw [hcapacity] at hrest hfits
    rw [left_eq hfailed hleaf, hrest, hcapacity]
    dsimp only
    omega
  here_eq := Or.inr ⟨List.cons_ne_nil _ _, rfl⟩

/-- A call that finds the next leaf emits its first entry. -/
theorem ends_of_moved {leaf : Leaf} {page : Node leaf.2.next} (hfailed : ¬ cursor.failed = true)
    (hleaf : cursor.leaf = some leaf) (hfound : leaf.Found cursor.file)
    (hend : cursor.position = leaf.2.count) (hlast : ¬ leaf.2.next = 0)
    (hread : readNode cursor.file leaf.2.next cursor.lsn = .ok page) (hkind : page.kind = 1) :
    cursor.Ends := by
  obtain ⟨hpassed, hinside⟩ := readNode_eq_ok cursor.file hread
  have hnext : cursor.next = cursor.emit ⟨leaf.2.next, page⟩ 0 := by
    rw [next, if_neg hfailed, hleaf]
    dsimp only
    rw [if_pos hend, if_neg hlast, hread]
    dsimp only
    rw [if_pos hkind]
  obtain ⟨cursor', hcall, hcalled⟩ := next?_moved hfailed hinside hpassed hkind
  have hgt : leaf.1 < leaf.2.next := (hfound.passed.next_gt hfound.kind_eq).resolve_left hlast
  have hcount : 0 < page.count := page.nonempty fun hmeta => by
    rw [Node.kind, hmeta] at hkind
    cases hkind
  refine ⟨[leaf.2.next], cursor', ?_, fun hsome => ?_, fun i hi j hj => ?_,
    Or.inr ⟨_, hinside, rfl⟩⟩
  · rw [hnext, next?, if_neg hfailed, hleaf]
    dsimp only
    rw [if_pos hend, if_neg hlast, readNode?_eq, Option.bind_eq_bind, Option.bind_some, hread]
    dsimp only
    rw [if_pos hkind, hcall]
    rfl
  · rw [hnext] at hsome
    obtain ⟨rfl, hemit⟩ := hcalled hsome
    exact called_moved (Bool.eq_false_iff.mpr hfailed) hleaf hgt ⟨hpassed, hkind, hinside⟩ hcount
      (by rw [hnext, ← hemit])
  · rw [here_eq hleaf] at hi
    rw [List.mem_singleton.mp hi, List.mem_singleton.mp hj]
    exact hgt

/-- A call at the end of a leaf looks for the next one. -/
theorem ends_of_end {leaf : Leaf} (h : cursor.OnWay) (hfailed : ¬ cursor.failed = true)
    (hleaf : cursor.leaf = some leaf) (hfound : leaf.Found cursor.file)
    (hend : cursor.position = leaf.2.count) : cursor.Ends := by
  have hfailed' : cursor.failed = false := Bool.eq_false_iff.mpr hfailed
  by_cases hlast : leaf.2.next = 0
  · refine @Ends.of_none cursor { cursor with leaf := none } ?_ ?_
    · rw [next, if_neg hfailed, hleaf]
      dsimp only
      rw [if_pos hend, if_pos hlast]
    · rw [next?, if_neg hfailed, hleaf]
      dsimp only
      rw [if_pos hend, if_pos hlast]
  rcases hread : readNode cursor.file leaf.2.next cursor.lsn with e | page
  · refine .of_error (e := e) h hfailed' hleaf ?_ ?_
    · rw [next, if_neg hfailed, hleaf]
      dsimp only
      rw [if_pos hend, if_neg hlast, hread]
    · rw [next?, if_neg hfailed, hleaf]
      dsimp only
      rw [if_pos hend, if_neg hlast, readNode?_eq, Option.bind_eq_bind, Option.bind_some, hread]
      rfl
  by_cases hkind : page.kind = 1
  · exact ends_of_moved hfailed hleaf hfound hend hlast hread hkind
  · refine .of_error (e := .corrupt "leaf chain points to a branch") h hfailed' hleaf ?_ ?_
    · rw [next, if_neg hfailed, hleaf]
      dsimp only
      rw [if_pos hend, if_neg hlast, hread]
      dsimp only
      rw [if_neg hkind]
    · rw [next?, if_neg hfailed, hleaf]
      dsimp only
      rw [if_pos hend, if_neg hlast, readNode?_eq, Option.bind_eq_bind, Option.bind_some, hread]
      dsimp only
      rw [if_neg hkind]
      rfl

/-- **Every call comes to its end.** -/
theorem next?_eq (h : cursor.OnWay) : cursor.Ends := by
  by_cases hfailed : cursor.failed = true
  · refine @Ends.of_none cursor cursor ?_ ?_
    · rw [next, if_pos hfailed]
    · rw [next?, if_pos hfailed]
  rcases hleaf : cursor.leaf with _ | leaf
  · refine @Ends.of_none cursor cursor ?_ ?_
    · rw [next, if_neg hfailed, hleaf]
    · rw [next?, if_neg hfailed, hleaf]
  obtain ⟨hfound, hposition⟩ := h leaf hleaf
  by_cases hend : cursor.position = leaf.2.count
  · exact ends_of_end h hfailed hleaf hfound hend
  -- there are more entries in this leaf
  have hfailed' : cursor.failed = false := Bool.eq_false_iff.mpr hfailed
  have hlt : cursor.position < leaf.2.count := Nat.lt_of_le_of_ne hposition hend
  have hnext : cursor.next = cursor.emit leaf cursor.position := by
    rw [next, if_neg hfailed, hleaf]
    dsimp only
    rw [if_neg hend]
  obtain ⟨cursor', hcall, hcalled⟩ := next?_emit hfailed' hleaf hfound hlt 1
  refine .of_unread (by rw [hnext]; exact hcall) fun hsome => ?_
  rw [hnext] at hsome
  obtain ⟨rfl, hemit⟩ := hcalled hsome
  exact called_within hfailed' hleaf hfound hlt (by rw [hnext, ← hemit])

/-- A cursor that has failed, or has come to its end, returns nothing. -/
theorem next_of_idle (h : cursor.failed = true ∨ cursor.leaf = none) :
    cursor.next = (none, cursor) := by
  rw [next]
  by_cases hfailed : cursor.failed = true
  · rw [if_pos hfailed]
  · rw [if_neg hfailed, h.resolve_left hfailed]

theorem nth_of_idle (h : cursor.failed = true ∨ cursor.leaf = none) (n : ℕ) :
    cursor.nth n = none := by
  induction n with
  | zero => rw [nth, next_of_idle h]
  | succ n ih => rw [nth, next_of_idle h, ih]

/-- Where a cursor is when it returns nothing, or an error. -/
theorem idle_of_next (h : cursor.next.1 = none ∨ ∃ e, cursor.next.1 = some (.error e)) :
    cursor.next.2.failed = true ∨ cursor.next.2.leaf = none := by
  have hemit (leaf : Leaf) (position : ℕ) (hresult : (cursor.emit leaf position).1 = none ∨
      ∃ e, (cursor.emit leaf position).1 = some (.error e)) :
      (cursor.emit leaf position).2.leaf = none := by
    rw [emit] at hresult ⊢
    split
    · rfl
    · next hinside =>
      rw [if_neg hinside] at hresult
      rcases hresult with hresult | ⟨e, hresult⟩
      · cases hresult
      · cases hresult
  rw [next] at h ⊢
  split
  · next hfailed => exact Or.inl hfailed
  · next hfailed =>
    rw [if_neg hfailed] at h
    rcases hleaf : cursor.leaf with _ | leaf
    · exact Or.inr hleaf
    · rw [hleaf] at h
      dsimp only at h ⊢
      split
      · next hend =>
        rw [if_pos hend] at h
        split
        · exact Or.inr rfl
        · next hnext =>
          rw [if_neg hnext] at h
          rcases hread : readNode cursor.file leaf.2.next cursor.lsn with e | page
          · exact Or.inl rfl
          · rw [hread] at h
            dsimp only at h ⊢
            split
            · next hkind =>
              rw [if_pos hkind] at h
              exact Or.inr (hemit _ _ h)
            · exact Or.inl rfl
      · next hend =>
        rw [if_neg hend] at h
        exact Or.inr (hemit _ _ h)

/-- **After an error there is nothing more.** -/
theorem nth_of_error {n : ℕ} {e : Error} (h : cursor.nth n = some (.error e)) {m : ℕ} (hm : n < m) :
    cursor.nth m = none := by
  induction n generalizing cursor m with
  | zero =>
    obtain ⟨m, rfl⟩ : ∃ k, m = k + 1 := ⟨m - 1, by omega⟩
    exact nth_of_idle (idle_of_next (Or.inr ⟨e, h⟩)) m
  | succ n ih =>
    obtain ⟨m, rfl⟩ : ∃ k, m = k + 1 := ⟨m - 1, by omega⟩
    exact ih h (Nat.lt_of_succ_lt_succ hm)

/-- **A full run of a scan comes to its end**, after what it returns one by one. The leaves that it
moves on to go up, and they are in the file. -/
theorem drain?_eq (h : cursor.OnWay) {steps : ℕ} (hsteps : cursor.left < steps) :
    ∃ leaves items, cursor.drain? steps = some (leaves, items) ∧
      (∀ n, cursor.nth n = items[n]?) ∧ (cursor.here ++ leaves).Pairwise (· < ·) ∧
      ∀ j ∈ leaves, j < pageCount cursor.file := by
  induction steps generalizing cursor with
  | zero => exact absurd hsteps (Nat.not_lt_zero _)
  | succ steps ih =>
    obtain ⟨leaves, cursor', hcall, hcalled, hup, hfew⟩ := next?_eq h
    have hhere : cursor.here.Pairwise (· < ·) := by
      rw [here]
      rcases cursor.leaf with _ | leaf
      · exact .nil
      · exact List.pairwise_singleton _ _
    have hleaves : leaves.Pairwise (· < ·) ∧ ∀ j ∈ leaves, j < pageCount cursor.file := by
      rcases hfew with rfl | ⟨j, hj, rfl⟩
      · exact ⟨.nil, fun j hj => absurd hj List.not_mem_nil⟩
      · exact ⟨List.pairwise_singleton _ _, fun i hi => List.mem_singleton.mp hi ▸ hj⟩
    rw [drain?, hcall, Option.bind_eq_bind, Option.bind_some]
    rcases hitem : cursor.next.1 with _ | item
    · refine ⟨leaves, [], rfl, fun n => ?_, ?_, hleaves.2⟩
      · rw [List.getElem?_nil]
        cases n with
        | zero => exact hitem
        | succ n => exact nth_of_idle (idle_of_next (Or.inl hitem)) n
      · exact List.pairwise_append.mpr ⟨hhere, hleaves.1, hup⟩
    · obtain ⟨hnext, honWay, hfile, hless, hat⟩ := hcalled (by rw [hitem]; rfl)
      obtain ⟨rest, items, hrest, hnth, hincreasing, hinside⟩ := ih honWay (by omega)
      rw [hfile] at hinside
      dsimp only
      rw [hrest]
      refine ⟨leaves ++ rest, item :: items, rfl, fun n => ?_, ?_, fun j hj => ?_⟩
      · cases n with
        | zero => exact hitem
        | succ n =>
          rw [List.getElem?_cons_succ, ← hnth n, hnext]
          rfl
      · rcases hat with ⟨rfl, hat⟩ | ⟨hne, hat⟩
        · rw [hat] at hincreasing
          exact hincreasing
        · -- what is above the new leaf is above the old one
          rw [hat] at hincreasing
          refine List.pairwise_append.mpr ⟨hhere, hincreasing, fun i hi j hj => ?_⟩
          rcases List.mem_append.mp hj with hj | hj
          · exact hup i hi j hj
          · obtain ⟨k, hk⟩ := List.exists_mem_of_ne_nil _ hne
            exact (hup i hi k hk).trans ((List.pairwise_append.mp hincreasing).2.2 k hk j hj)
      · rcases List.mem_append.mp hj with hj | hj
        · exact hleaves.2 j hj
        · exact hinside j hj

end IndexCursor

/-- As many steps as a query can take: one for each entry of the file, and two more. -/
def stepBound (file : Bytes) : ℕ := pageCount file * leafCapacity + 2

/-- **A scan begins at a leaf**, or at none. -/
theorem onWay_of_scanAt {file : Bytes} {lsn base : ℕ} {lower upper : Key} {cursor : IndexCursor}
    (h : scanAt file lsn base lower upper = .ok cursor) :
    cursor.OnWay ∧ cursor.file = file ∧ cursor.left < stepBound file ∧
      ∀ i ∈ cursor.here, i < pageCount file := by
  have hcapacity : leafCapacity = 254 := by decide
  obtain ⟨found, hfound, hcursor⟩ := bind_eq_ok.mp h
  obtain rfl := Except.ok.inj hcursor
  rcases found with _ | leaf
  · refine ⟨?_, rfl, Nat.succ_pos _, ?_⟩
    · rintro leaf ⟨⟩
    · rintro i ⟨⟩
  · have hleaf := found_of_descend file hfound
    have hcount := IndexCursor.count_le_of_found hleaf
    refine ⟨fun leaf' hleaf' => ?_, rfl, ?_, fun i hi => ?_⟩
    · obtain rfl := Option.some.inj hleaf'
      exact ⟨hleaf, leaf.2.lowerBound_le lower⟩
    · rw [IndexCursor.left_eq rfl rfl, stepBound]
      have hinside := hleaf.inside
      rw [hcapacity] at hcount ⊢
      dsimp only
      omega
    · obtain rfl := List.mem_singleton.mp hi
      exact hleaf.inside

/-- **Queries end on any bytes.** Whatever is in an index file, at whatever page a tree is said to
begin, and whatever the key and the bounds are: a descent, a lookup, a floor query and a full run
of a scan come to their end without an access outside of a page or of the file, and return what
the queries return. The pages a descent meets go down from the root pointer, the leaves a scan
meets go up and are in the file, and after an error a cursor returns nothing more. -/
theorem queries_end (file : Bytes) (lsn base : ℕ) (key lower upper : Key) :
    (∃ ids, descend? file lsn base key (stepBound file) = some (ids, descend file lsn base key) ∧
        ids.Pairwise (· > ·)) ∧
      lookupAt? file lsn base key (stepBound file) = some (lookupAt file lsn base key) ∧
      floorAt? file lsn base key (stepBound file) = some (floorAt file lsn base key) ∧
      scanAt? file lsn base lower upper (stepBound file) =
        some (scanAt file lsn base lower upper) ∧
      ∀ cursor, scanAt file lsn base lower upper = .ok cursor →
        (∃ leaves items, cursor.drain? (stepBound file) = some (leaves, items) ∧
          (∀ n, cursor.nth n = items[n]?) ∧ (cursor.here ++ leaves).Pairwise (· < ·) ∧
          ∀ id ∈ cursor.here ++ leaves, id < pageCount file) ∧
        ∀ n e, cursor.nth n = some (.error e) → ∀ m, n < m → cursor.nth m = none := by
  have hsteps : pageCount file < stepBound file := by
    have hcapacity : leafCapacity = 254 := by decide
    rw [stepBound, hcapacity]
    omega
  refine ⟨descend?_eq file lsn base key hsteps, lookupAt?_eq file lsn base key hsteps,
    floorAt?_eq file lsn base key hsteps, scanAt?_eq file lsn base lower upper hsteps, ?_⟩
  intro cursor hcursor
  obtain ⟨honWay, hfile, hleft, hhere⟩ := onWay_of_scanAt hcursor
  obtain ⟨leaves, items, hdrain, hnth, hup, hinside⟩ := IndexCursor.drain?_eq honWay hleft
  rw [hfile] at hinside
  refine ⟨⟨leaves, items, hdrain, hnth, hup, fun id hid => ?_⟩, ?_⟩
  · exact (List.mem_append.mp hid).elim (hhere id) (hinside id)
  · intro n e he m hm
    exact IndexCursor.nth_of_error he hm

end Index

end EveDB
