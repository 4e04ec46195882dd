import EveDB.Builder.Segments
import EveDB.Storage.HeapReads
import EveDB.Store.Scans
import Mathlib.Data.Finset.Prod

/-!
# Checkpoints in a directory

How the files of a manifest are read from a directory (`Checkpoint.ofDisk`): queries of its indexes
run over the partitions it lists, pages and frames are taken from their files.

A directory may refuse to hold a file (`Storage`), for whatever reason; it does refuse one of 8 PiB,
which no file system holds.
-/

namespace EveDB

open Store Index

/-- **What a directory refuses to hold.** -/
structure Storage where
  /-- Why a file with these contents is refused, if it is. -/
  refuses : FileId → Bytes → Option String
  /-- No file system holds a file of 8 PiB. -/
  bounded : ∀ file bytes, 2 ^ 53 ≤ bytes.length → (refuses file bytes).isSome

/-- Writes a file, or fails to. -/
def Storage.write (storage : Storage) (file : FileId) (bytes : Bytes) : Result Unit :=
  match storage.refuses file bytes with
  | some reason => .error (.io reason)
  | none => .ok ()

theorem Storage.length_lt {storage : Storage} {file : FileId} {bytes : Bytes}
    (h : storage.write file bytes = .ok ()) : bytes.length < 2 ^ 53 := by
  by_contra hlarge
  obtain ⟨reason, hreason⟩ :=
    Option.isSome_iff_exists.mp (storage.bounded file bytes (not_lt.mp hlarge))
  rw [Storage.write, hreason] at h
  cases h

/-- Creates a file that must not be there. -/
def Disk.createNew (disk : Disk) (file : FileId) : Result Unit :=
  if (disk file).isSome then .error (.io "File exists (os error 17)") else .ok ()

/-! ### Cursors -/

/-- How many keys there are. -/
def keyCount : ℕ := 2 ^ 64 * 2 ^ 64

/-- What a cursor returns until it ends, up to a number of entries. -/
def Index.IndexCursor.drain : ℕ → IndexCursor → List (Result (Key × IndexValue))
  | 0, _ => []
  | n + 1, cursor =>
    match cursor.next with
    | (none, _) => []
    | (some item, cursor) => item :: cursor.drain n

/-- What a scan over partitions returns until it ends. -/
def Scan.drain : ℕ → Scan → List (Result (Key × IndexValue))
  | 0, _ => []
  | n + 1, scan =>
    match scan.next with
    | (none, _) => []
    | (some item, scan) => item :: scan.drain n

theorem Scan.drain_eq {scan : Scan} {found : List (Result (Key × IndexValue))} {n : ℕ}
    (h : ∀ i, scan.nth i = found[i]?) (hn : found.length ≤ n) : scan.drain n = found := by
  induction n generalizing scan found with
  | zero => exact (List.length_eq_zero_iff.mp (Nat.le_zero.mp hn)).symm
  | succ n ih =>
    have hhead := h 0
    rw [Scan.nth] at hhead
    rw [drain]
    cases found with
    | nil => rw [show scan.next = (none, scan.next.2) from Prod.ext hhead rfl]
    | cons item found =>
      rw [show scan.next = (some item, scan.next.2) from Prod.ext hhead rfl]
      exact congrArg (item :: ·) (ih (fun i => h (i + 1)) (Nat.le_of_succ_le_succ hn))

/-- Pairs of numbers below a bound that all differ are few. -/
theorem length_le_mul_self {keys : List (ℕ × ℕ)} {n : ℕ} (hnodup : keys.Nodup)
    (hkeys : ∀ key ∈ keys, key.1 < n ∧ key.2 < n) : keys.length ≤ n * n := by
  have hsub : keys.toFinset ⊆ Finset.range n ×ˢ Finset.range n := by
    intro key hkey
    obtain ⟨hfirst, hsecond⟩ := hkeys key (List.mem_toFinset.mp hkey)
    exact Finset.mem_product.mpr ⟨Finset.mem_range.mpr hfirst, Finset.mem_range.mpr hsecond⟩
  have hcard := Finset.card_le_card hsub
  rwa [List.toFinset_card_of_nodup hnodup, Finset.card_product, Finset.card_range] at hcard

/-- **Entries with different keys** are no more than the keys there are. -/
theorem length_le_keyCount {entries : List Entry} (hascending : SortedList.Ascending order entries)
    (hfits : ∀ e ∈ entries, Fits e.1) : entries.length ≤ keyCount := by
  have hnodup : (entries.map Prod.fst).Nodup := by
    refine List.pairwise_map.mpr (hascending.imp fun {a b} hlt heq => ?_)
    rw [order, order, heq] at hlt
    exact lt_irrefl _ hlt
  have hlength := length_le_mul_self hnodup (List.forall_mem_map.mpr hfits)
  rwa [List.length_map] at hlength

/-! ### Reading from a directory -/

/-- **The files of a manifest**, read from a directory. -/
def Store.Files.ofDisk (root : Root) (disk : Disk) : Files where
  lookupIndex table kind key := root.lookupIndex disk table kind key
  floorIndex table kind key := root.floorIndex disk table kind key
  scanIndex table kind lower upper := (root.scanIndex disk table kind lower upper).drain keyCount
  page file id := disk.read file fun bytes => heapPage bytes id
  payloadSize file offset :=
    disk.read file fun bytes => Frame.payloadSizeAt bytes offset bytes.length
  frame file offset := disk.read file fun bytes => Frame.readAt bytes offset bytes.length

/-- A manifest with its files in a directory. -/
def Store.Checkpoint.ofDisk (disk : Disk) (root : Root) : Checkpoint := ⟨root, .ofDisk root disk⟩

/-- What a partition has between two keys. -/
def Partition.scan (part : Partition) (disk : Disk) (lower upper : Key) :
    Result (List (Result (Key × IndexValue))) := do
  let cursor ← disk.read part.file fun bytes => scanAt bytes part.lsn part.base lower upper
  return cursor.drain keyCount

end EveDB
