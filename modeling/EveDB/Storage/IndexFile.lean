import EveDB.Library.Chunks
import EveDB.Storage.Node

/-!
# Bulk-built index files

An index file holds trees one behind the other, each written once by an `IndexWriter` and then
only read (`storage/index.rs`). A tree takes up the pages from its base on: the metadata page,
which is written last, the leaves, which are chained in the order they are written, and the
branches level by level, up to a single root.

Reading starts at the metadata page. `descend` walks to the leaf that would contain a key;
`lookupAt` and `floorAt` look into it, and `scanAt` follows the chain of leaves from there.
Pages are immutable once a file is published, so the page cache is left out; writes are taken to
succeed.
-/

namespace EveDB

namespace Index

/-! ### Building pages -/

/-- An index page without entries. -/
def page (kind id lsn count next : ℕ) : PageBytes :=
  let bytes : PageBytes := ⟨List.replicate pageSize 0, List.length_replicate⟩
  let bytes := bytes.write 0 magic
  let bytes := bytes.write 4 (Encoder.u16 1)
  let bytes := bytes.write 6 (Encoder.u16 kind)
  let bytes := bytes.put 8 id
  let bytes := bytes.put 16 lsn
  let bytes := bytes.write 24 (Encoder.u16 count)
  bytes.put 32 next

/-- A page with its checksum, as it goes into a file. -/
def checksummed (bytes : PageBytes) : PageBytes :=
  bytes.write 28 (Encoder.u32 (crc32c bytes.1).toNat)

/-- Writes the entries of a leaf from the `i`-th on. -/
def putEntries : ℕ → List (Key × IndexValue) → PageBytes → PageBytes
  | _, [], bytes => bytes
  | i, (key, value) :: entries, bytes =>
    let offset := header + i * leafWidth
    let bytes := bytes.put offset key.1
    let bytes := bytes.put (offset + 8) key.2
    let bytes := bytes.put (offset + 16) value.1
    let bytes := bytes.put (offset + 24) value.2
    putEntries (i + 1) entries bytes

/-- Writes the entries of a branch from the `i`-th on. -/
def putChildren : ℕ → List (Key × ℕ) → PageBytes → PageBytes
  | _, [], bytes => bytes
  | i, (key, id) :: children, bytes =>
    let offset := header + i * branchWidth
    let bytes := bytes.put offset key.1
    let bytes := bytes.put (offset + 8) key.2
    let bytes := bytes.put (offset + 16) id
    putChildren (i + 1) children bytes

/-- A leaf, which names the next one. -/
def leafPage (id lsn next : ℕ) (entries : List (Key × IndexValue)) : PageBytes :=
  putEntries 0 entries (page 1 id lsn entries.length next)

/-- A branch over the pages of its children. -/
def branchPage (id lsn : ℕ) (children : List (Key × ℕ)) : PageBytes :=
  putChildren 0 children (page 2 id lsn children.length 0)

/-- The metadata page names the root and counts the entries. -/
def metaPage (base lsn root count : ℕ) : PageBytes := (page 0 base lsn 0 root).put 40 count

/-! ### Writing a tree -/

/-- Bulk-built immutable B+tree. Leaf pages are linked for ordered scans. -/
structure IndexWriter where
  file : Bytes
  lsn : ℕ
  next : ℕ
  base : ℕ
  count : ℕ
  leaf : List (Key × IndexValue)
  level : List (Key × ℕ)
  previous : Option Key

namespace IndexWriter

/-- Begins a tree at the end of a file, with room for its metadata page. -/
def fromFile (file : Bytes) (lsn base : ℕ) : IndexWriter where
  file := file ++ List.replicate pageSize 0
  lsn
  next := base + 1
  base
  count := 0
  leaf := []
  level := []
  previous := none

/-- Writes the pending leaf, chained to the page `next`. -/
def flushLeaf (w : IndexWriter) (next : ℕ) : IndexWriter :=
  match w.leaf with
  | [] => w
  | (key, _) :: _ =>
    { w with
      file := w.file ++ (checksummed (leafPage w.next w.lsn next w.leaf)).1
      level := w.level ++ [(key, w.next)]
      next := w.next + 1
      leaf := [] }

/-- Adds an entry behind the others. -/
def append (w : IndexWriter) (key : Key) (value : IndexValue) : Result Unit × IndexWriter :=
  if w.previous.any fun previous => toLex key ≤ toLex previous then
    (corrupt "index keys are not strictly ordered", w)
  else
    let w := if w.leaf.length = leafCapacity then w.flushLeaf (w.next + 1) else w
    (.ok (), { w with
      leaf := w.leaf ++ [(key, value)], previous := some key, count := w.count + 1 })

/-- Writes a branch over each group of children, and returns the level of the branches. -/
def writeParents : List (List (Key × ℕ)) → IndexWriter → IndexWriter × List (Key × ℕ)
  | [], w => (w, [])
  | children :: groups, w =>
    let branch := (checksummed (branchPage w.next w.lsn children)).1
    let (w', parents) := writeParents groups
      { w with file := w.file ++ branch, next := w.next + 1 }
    (w', ((children.head?.map Prod.fst).getD (0, 0), w.next) :: parents)

theorem length_writeParents (groups : List (List (Key × ℕ))) (w : IndexWriter) :
    (writeParents groups w).2.length = groups.length := by
  induction groups generalizing w with
  | nil => rfl
  | cons children groups ih => rw [writeParents, List.length_cons, List.length_cons, ih]

/-- Writes levels of branches until one page is left. -/
def writeLevels (w : IndexWriter) : IndexWriter :=
  if 1 < w.level.length then
    let written := writeParents (Chunks.chunks branchCapacity w.level) w
    writeLevels { written.1 with level := written.2 }
  else w
termination_by w.level.length
decreasing_by
  rw [length_writeParents]
  exact Chunks.length_chunks_lt (by decide) (by assumption)

/-- Finishes a tree: the last leaf, the branches, and the metadata page at its base. -/
def finishPart (w : IndexWriter) : Bytes :=
  let w := (w.flushLeaf 0).writeLevels
  let root := (w.level.head?.map Prod.snd).getD 0
  Buffer.write w.file (w.base * pageSize) (checksummed (metaPage w.base w.lsn root w.count)).1

/-- Adds entries one after the other, until one is refused. -/
def appendAll : List (Key × IndexValue) → IndexWriter → Result IndexWriter
  | [], w => .ok w
  | (key, value) :: entries, w =>
    match w.append key value with
    | (.error e, _) => .error e
    | (.ok (), w) => appendAll entries w

end IndexWriter

/-! ### Reading a tree -/

section Reading

variable (file : Bytes)

/-- The bytes of a page. -/
def pageAt (number : ℕ) : Result PageBytes :=
  if maxU64 < number * pageSize then corrupt "page offset overflow"
  else if hend : number * pageSize + pageSize ≤ file.length then
    .ok ⟨Buffer.slice file (number * pageSize) pageSize, by
      rw [Buffer.length_slice]
      exact Nat.min_eq_left (Nat.le_sub_of_add_le' hend)⟩
  else .error (.io "failed to fill whole buffer")

/-- A page, validated and checked against the expected sequence. -/
def readNode (id lsn : ℕ) : Result (Node id) := do
  let node ← Node.decode (← pageAt file id) id
  if node.lsn ≠ lsn then corrupt "invalid index page header or checksum" else return node

/-- A page that was read, with its identity. -/
abbrev Leaf := (id : ℕ) × Node id

/-- Walks from a page to the leaf that would contain `key`. -/
def descendFrom (lsn : ℕ) (key : Key) (id : ℕ) : Result (Option Leaf) :=
  if id = 0 then .ok none
  else
    match readNode file id lsn with
    | .error e => .error e
    | .ok current =>
      if current.kind = 1 then .ok (some ⟨id, current⟩)
      else if _hbranch : current.kind = 2 then
        descendFrom lsn key (current.child ((current.floorIndex key).getD 0))
      else corrupt "index root points to metadata"
termination_by id
decreasing_by
  have hkind : kindOf current.bytes = 2 := by assumption
  refine current.child_lt hkind _
    (current.floorIndex_getD_lt key (current.nonempty fun hmeta => ?_))
  rw [hmeta] at hkind
  cases hkind

/-- Walks from the metadata page of a tree to the leaf that would contain `key`. -/
def descend (lsn base : ℕ) (key : Key) : Result (Option Leaf) :=
  if file.length % pageSize ≠ 0 then corrupt "truncated index file"
  else do
    let root ← readNode file base lsn
    if root.kind ≠ 0 then corrupt "index root is not metadata"
    else descendFrom file lsn key root.next

/-- The value under a key. -/
def lookupAt (lsn base : ℕ) (key : Key) : Result (Option IndexValue) := do
  match ← descend file lsn base key with
  | none => return none
  | some ⟨_, leaf⟩ =>
    let index := leaf.lowerBound key
    return if index < leaf.count ∧ leaf.key index = key then some (leaf.value index) else none

/-- The last entry at or below a key. -/
def floorAt (lsn base : ℕ) (key : Key) : Result (Option (Key × IndexValue)) := do
  match ← descend file lsn base key with
  | none => return none
  | some ⟨_, leaf⟩ =>
    return (leaf.floorIndex key).map fun index => (leaf.key index, leaf.value index)

end Reading

/-- A scan on its way through the leaves of a tree. -/
structure IndexCursor where
  file : Bytes
  lsn : ℕ
  upper : Key
  leaf : Option Leaf
  position : ℕ
  failed : Bool

/-- Begins a scan at the first entry that is not below `lower`. -/
def scanAt (file : Bytes) (lsn base : ℕ) (lower upper : Key) : Result IndexCursor := do
  let leaf ← descend file lsn base lower
  let position := (leaf.map fun leaf => leaf.2.lowerBound lower).getD 0
  return { file, lsn, upper, leaf, position, failed := false }

namespace IndexCursor

/-- The entry at the position, unless it is past the upper end. -/
def emit (cursor : IndexCursor) (leaf : Leaf) (position : ℕ) :
    Option (Result (Key × IndexValue)) × IndexCursor :=
  let key := leaf.2.key position
  if toLex cursor.upper < toLex key then (none, { cursor with leaf := none })
  else
    (some (.ok (key, leaf.2.value position)),
      { cursor with leaf := some leaf, position := position + 1 })

/-- The next entry, if there is one. A leaf is never empty, so the cursor moves on to another
one at most once. -/
def next (cursor : IndexCursor) : Option (Result (Key × IndexValue)) × IndexCursor :=
  if cursor.failed then (none, cursor)
  else
    match cursor.leaf with
    | none => (none, cursor)
    | some leaf =>
      if cursor.position = leaf.2.count then
        if leaf.2.next = 0 then (none, { cursor with leaf := none })
        else
          match readNode cursor.file leaf.2.next cursor.lsn with
          | .error e => (some (.error e), { cursor with failed := true })
          | .ok page =>
            if page.kind = 1 then cursor.emit ⟨leaf.2.next, page⟩ 0
            else
              (some (corrupt "leaf chain points to a branch"), { cursor with failed := true })
      else cursor.emit leaf cursor.position

/-- What a cursor returns when it is asked again and again. -/
def nth (cursor : IndexCursor) : ℕ → Option (Result (Key × IndexValue))
  | 0 => cursor.next.1
  | n + 1 => cursor.next.2.nth n

end IndexCursor

end Index

end EveDB
