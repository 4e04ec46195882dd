import EveDB.Library.Ascending
import EveDB.Library.Buffer
import EveDB.Manifest
import Mathlib.Data.Prod.Lex

/-!
# Index pages

The pages of an index file (`storage/index.rs`): a metadata page that names the root, leaves
with keys and values, and branches with keys and children. `Node.decode` checks a page against
the identity it is expected to have; a node that passed has its entries in order, is not empty
unless it is the metadata, and its children have smaller identities than itself, which is what
makes a descent end. The last two are fields of `Node`.

A branch and a leaf are searched alike: the first entry that is not below a key
(`Node.lowerBound`), and the last one that is not above it (`Node.floorIndex`).
-/

namespace EveDB

/-- The bytes of one page. -/
abbrev PageBytes := { bytes : Bytes // bytes.length = pageSize }

namespace PageBytes

/-- The bytes of a page from an offset on. -/
def slice (page : PageBytes) (offset n : ℕ) : Bytes := Buffer.slice page.1 offset n

/-- Overwrites the bytes of a page from an offset on. -/
def write (page : PageBytes) (offset : ℕ) (data : Bytes) : PageBytes :=
  ⟨Buffer.write page.1 offset data, by rw [Buffer.length_write, page.2]⟩

/-- Writes a number of eight bytes. -/
def put (page : PageBytes) (offset value : ℕ) : PageBytes := page.write offset (Encoder.u64 value)

/-- Reads a number of eight bytes. -/
def get (page : PageBytes) (offset : ℕ) : ℕ := LittleEndian.decode (page.slice offset 8)

/-- Reads a number of two bytes. -/
def readU16 (page : PageBytes) (offset : ℕ) : ℕ := LittleEndian.decode (page.slice offset 2)

end PageBytes

namespace Index

/-- The bytes in front of the entries. -/
def header : ℕ := 40

/-- The bytes of an entry of a leaf: its key and its value. -/
def leafWidth : ℕ := 32

/-- The bytes of an entry of a branch: its key and the page of its child. -/
def branchWidth : ℕ := 24

/-- The entries a leaf has room for. -/
def leafCapacity : ℕ := (pageSize - header) / leafWidth

/-- The entries a branch has room for. -/
def branchCapacity : ℕ := (pageSize - header) / branchWidth

/-- `EVIX`. -/
def magic : Bytes := [69, 86, 73, 88]

/-! ### Fields of a page -/

section Fields

variable (bytes : PageBytes)

/-- 0 a metadata page, 1 a leaf, 2 a branch. -/
def kindOf : ℕ := bytes.readU16 6

/-- The entries a page claims to have. Nothing bounds them before it is validated. -/
def countOf : ℕ := bytes.readU16 24

/-- The next leaf in the scan chain, or the root pointer on a metadata page. -/
def nextOf : ℕ := bytes.get 32

/-- The bytes of an entry. -/
def widthOf : ℕ := if kindOf bytes = 1 then leafWidth else branchWidth

/-- The key of an entry. -/
def keyOf (index : ℕ) : Key :=
  let offset := header + index * widthOf bytes
  (bytes.get offset, bytes.get (offset + 8))

/-- The page an entry of a branch leads to. -/
def childOf (index : ℕ) : ℕ := bytes.get (header + index * branchWidth + 16)

end Fields

/-- One decoded and fully validated page of a B+tree. -/
structure Node (id : ℕ) where
  bytes : PageBytes
  nonempty : kindOf bytes ≠ 0 → 0 < countOf bytes
  child_lt : kindOf bytes = 2 → ∀ i < countOf bytes, childOf bytes i < id

/-- Checks that the keys of `n` entries ascend and that children were written before their
parent. -/
def checkEntries (bytes : PageBytes) (expectedId : ℕ) : (n i : ℕ) → Option Key → Result Unit
  | 0, _, _ => .ok ()
  | n + 1, i, previous =>
    let key := keyOf bytes i
    if previous.any fun p => toLex key ≤ toLex p then corrupt "unordered index node"
    else if kindOf bytes = 2 ∧ (childOf bytes i = 0 ∨ expectedId ≤ childOf bytes i) then
      corrupt "invalid index child"
    else checkEntries bytes expectedId n (i + 1) (some key)

theorem childOf_lt_of_checkEntries {bytes : PageBytes} {id n i : ℕ} {previous : Option Key}
    (h : checkEntries bytes id n i previous = .ok ()) (hkind : kindOf bytes = 2) {j : ℕ}
    (hle : i ≤ j) (hlt : j < i + n) : childOf bytes j < id := by
  induction n generalizing i previous with
  | zero => omega
  | succ n ih =>
    rw [checkEntries] at h
    split at h
    · cases h
    · split at h
      · cases h
      · next hchild =>
        rcases Nat.eq_or_lt_of_le hle with rfl | hne
        · exact not_le.mp fun hge => hchild ⟨hkind, Or.inr hge⟩
        · exact ih h hne (by omega)

namespace Node

/-- Validates what is behind the header of a page. -/
def validate (bytes : PageBytes) (expectedId : ℕ) : Result (Node expectedId) :=
  let count := countOf bytes
  if hmeta : kindOf bytes = 0 ∧ count = 0 ∧ (nextOf bytes = 0 ∨ expectedId < nextOf bytes) then
    .ok ⟨bytes, fun h => absurd hmeta.1 h, fun h => absurd (h ▸ hmeta.1) (by decide)⟩
  else if ¬ (kindOf bytes = 1 ∨ kindOf bytes = 2) then corrupt "invalid index node kind"
  else if hcount : count = 0 ∨ (pageSize - header) / widthOf bytes < count then
    corrupt "invalid index node count"
  else
    match hentries : checkEntries bytes expectedId count 0 none with
    | .error e => .error e
    | .ok () =>
      if kindOf bytes = 1 ∧ nextOf bytes ≠ 0 ∧ nextOf bytes ≤ expectedId then
        corrupt "cyclic index leaf chain"
      else
        .ok ⟨bytes, fun _ => Nat.pos_of_ne_zero fun h => hcount (Or.inl h), fun hkind i hi =>
          childOf_lt_of_checkEntries hentries hkind (Nat.zero_le i) (by rwa [Nat.zero_add])⟩

/-- Validates a page against the identity the caller expects to have read. -/
def decode (page : PageBytes) (expectedId : ℕ) : Result (Node expectedId) :=
  let expected := LittleEndian.decode (page.slice 28 4)
  let bytes := page.write 28 [0, 0, 0, 0]
  if bytes.slice 0 4 ≠ magic ∨ bytes.slice 4 2 ≠ Encoder.u16 1 ∨ bytes.get 8 ≠ expectedId ∨
      bytes.slice 26 2 ≠ [0, 0] ∨ (crc32c bytes.1).toNat ≠ expected then
    corrupt "invalid index page header or checksum"
  else validate bytes expectedId

variable {id : ℕ} (node : Node id)

/-- 0 a metadata page, 1 a leaf, 2 a branch. -/
def kind : ℕ := kindOf node.bytes

/-- The entries of the page. -/
def count : ℕ := countOf node.bytes

/-- The transaction the page is stamped with. -/
def lsn : ℕ := node.bytes.get 16

/-- The next leaf in the scan chain, or the root pointer on a metadata page. -/
def next : ℕ := nextOf node.bytes

/-- The key of an entry. -/
def key (index : ℕ) : Key := keyOf node.bytes index

/-- The value of an entry of a leaf. -/
def value (index : ℕ) : IndexValue :=
  let offset := header + index * leafWidth
  (node.bytes.get (offset + 16), node.bytes.get (offset + 24))

/-- The page an entry of a branch leads to. -/
def child (index : ℕ) : ℕ := childOf node.bytes index

/-- The first entry whose key is greater than or equal to `key`. -/
def lowerBound (key : Key) : ℕ :=
  BinarySearch.lowerBound (fun i => toLex (node.key i) < toLex key) 0 node.count

/-- The last entry whose key is less than or equal to `key`. -/
def floorIndex (key : Key) : Option ℕ :=
  let index := node.lowerBound key
  if index < node.count ∧ node.key index = key then some index
  else if index = 0 then none else some (index - 1)

/-- The entries of a leaf. -/
def entries : List (Key × IndexValue) :=
  (List.range node.count).map fun i => (node.key i, node.value i)

/-- The entries of a branch. -/
def children : List (Key × ℕ) := (List.range node.count).map fun i => (node.key i, node.child i)

theorem lowerBound_le (key : Key) : node.lowerBound key ≤ node.count :=
  BinarySearch.lowerBound_le _ (Nat.zero_le _)

/-- The entry a descent follows is there. -/
theorem floorIndex_getD_lt (key : Key) (h : 0 < node.count) :
    (node.floorIndex key).getD 0 < node.count := by
  have hle := node.lowerBound_le key
  rw [floorIndex]
  split
  · next hfound => exact hfound.1
  · split
    · exact h
    · rw [Option.getD_some]
      omega

end Node

end Index

end EveDB
