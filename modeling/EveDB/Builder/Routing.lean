import EveDB.Builder.Indexes
import EveDB.Library.Blocks

/-!
# Routing is transparent

A query of an index is routed to the partitions that may answer it. When every partition of the
index holds what a sorted list of entries has in its bucket (`Partition.Shows`), and every entry
of the list has its partition, the queries are answered from that one list (`Transparent`):
a point lookup visits a single tree, a floor goes back over the partitions to the first that has
one, and a scan runs through the partitions between its ends, whatever the ends are.
-/

namespace EveDB

open Std Store Index

/-- Keys in their order. -/
abbrev OrderedKey := ℕ ×ₗ ℕ

/-- The bucket of a key, in the order of the keys. -/
def bucketOf (kind : ℕ) (key : OrderedKey) : OrderedKey := toLex (bucket kind (ofLex key))

/-- **Buckets are in the order of the keys.** -/
theorem monotone_bucketOf (kind : ℕ) : Monotone (bucketOf kind) := by
  intro a b hle
  rw [bucketOf, bucketOf, bucket, bucket]
  rw [Prod.Lex.le_iff] at hle
  by_cases hkind : kind = 3
  · rw [if_pos hkind, if_pos hkind, Prod.Lex.toLex_le_toLex']
    refine ⟨?_, fun _ => le_rfl⟩
    rcases hle with hlt | ⟨heq, -⟩
    · exact Nat.mul_le_mul_right _ (Nat.div_le_div_right hlt.le)
    · rw [heq]
  · rw [if_neg hkind, if_neg hkind, Prod.Lex.toLex_le_toLex]
    rcases hle with hlt | ⟨heq, hle⟩
    · exact Or.inl hlt
    · exact Or.inr ⟨heq, Nat.mul_le_mul_right _ (Nat.div_le_div_right hle)⟩

namespace Partition

/-- An entry as a query through the partition shows it. -/
def shownEntry (part : Partition) (entry : Entry) : Entry :=
  (entry.1, ((part.translate entry.2).toOption).getD entry.2)

/-- **A partition shows the entries** of its bucket: its tree holds them, with the slots they were
written with, and the partition translates each of them. -/
structure Shows (disk : Disk) (kind : ℕ) (lower : Key) (part : Partition) (entries : List Entry) :
    Prop where
  stored : ∃ stored bytes, disk part.file = some bytes ∧
    IndexWriter.Answers bytes part.lsn part.base stored ∧ entries = stored.map part.shownEntry ∧
    ∀ e ∈ stored, part.translate e.2 = .ok (part.shownEntry e).2
  ascending : SortedList.Ascending order entries
  bucket : ∀ e ∈ entries, bucket kind e.1 = lower
  first : entries.head?.map Prod.fst = some part.first
  last : entries.getLast?.map Prod.fst = some part.last
  kind : part.file.kind = kind
  slots : ∀ slot new : ℕ, part.slots[slot]? = some new → new < 2 ^ 8

variable {part : Partition}

@[simp] theorem shownEntry_fst (entry : Entry) : (part.shownEntry entry).1 = entry.1 := rfl

@[simp] theorem order_shownEntry (entry : Entry) :
    order (part.shownEntry entry) = order entry := rfl

theorem translateEntry_eq {entry : Entry}
    (h : part.translate entry.2 = .ok (part.shownEntry entry).2) :
    part.translateEntry entry = .ok (part.shownEntry entry) := by
  rw [translateEntry, h]
  rfl

section Queries

variable {stored : List Entry} {k lower upper : OrderedKey}

theorem lookup_shown :
    SortedList.lookup order k (stored.map part.shownEntry) =
      (SortedList.lookup order k stored).map part.shownEntry := by
  rw [SortedList.lookup, List.find?_map, SortedList.lookup]
  rfl

theorem floor_shown :
    SortedList.floor order k (stored.map part.shownEntry) =
      (SortedList.floor order k stored).map part.shownEntry := by
  rw [SortedList.floor, List.filter_map, List.getLast?_map, SortedList.floor]
  rfl

theorem range_shown :
    SortedList.range order lower upper (stored.map part.shownEntry) =
      (SortedList.range order lower upper stored).map part.shownEntry := by
  rw [SortedList.range, List.filter_map, SortedList.range]
  rfl

end Queries

section Shows

variable {disk : Disk} {kind : ℕ} {lower : Key} {entries : List Entry}

/-- An entry of a partition that is carried: its slot goes through the translation. -/
def carryEntry (kind : ℕ) (slots : List (Option ℕ)) (entry : Entry) : Entry :=
  if kind = 3 then
    (entry.1, remap entry.2 ((newSlot slots (splitLocator entry.2.1).1).getD 0))
  else entry

/-- Remapping twice is remapping once. -/
theorem remap_remap (value : IndexValue) {slot new : ℕ} (hslot : slot < 2 ^ 8) :
    remap (remap value slot) new = remap value new := by
  obtain ⟨hcurrent, hbase⟩ := splitLocator_remap value hslot
  rw [remap, hcurrent, hbase, remap]

/-- **A carried partition** shows the same entries, with their slots translated. -/
theorem Shows.carry {root : Root} {absorb : SortedSet ℕ} {generation lsn : ℕ}
    {generations : List GenerationInfo} {slots : List (Option ℕ)} {part' : Partition}
    (h : part.Shows disk kind lower entries)
    (hrebuild : root.rebuildSlots absorb generation lsn = .ok (generations, slots))
    (hcarry : part.carry slots = .ok part') :
    part'.Shows disk kind lower (entries.map (carryEntry kind slots)) := by
  obtain ⟨hrest, hslots⟩ := carry_eq_ok hcarry
  obtain ⟨stored, bytes, hdisk, hanswers, rfl, htranslate⟩ := h.stored
  have hfile : part'.file = part.file := by rw [hrest]
  have hlsn : part'.lsn = part.lsn := by rw [hrest]
  have hbase : part'.base = part.base := by rw [hrest]
  have hfirst : part'.first = part.first := by rw [hrest]
  have hlast : part'.last = part.last := by rw [hrest]
  have hkind := h.kind
  have hfst (e : Entry) : (carryEntry kind slots e).1 = e.1 := by
    rw [carryEntry]
    split <;> rfl
  -- every entry is translated by both, one behind the other
  have hentry : ∀ e ∈ stored, part'.translate e.2 =
      .ok (carryEntry kind slots (part.shownEntry e)).2 := by
    intro e he
    have hshown := htranslate e he
    rw [translate] at hshown
    rw [translate, hfile, carryEntry]
    by_cases hprimary : kind = 3
    · rw [if_neg (by rw [hkind]; exact not_not.mpr hprimary)] at hshown
      rw [if_neg (by rw [hkind]; exact not_not.mpr hprimary), if_pos hprimary]
      cases hslot : entitySlot e.2 with
      | error err =>
        rw [hslot] at hshown
        cases hshown
      | ok slot =>
        rw [hslot, ok_bind] at hshown
        cases hold : part.slots[slot]? with
        | none =>
          rw [hold] at hshown
          cases hshown
        | some old =>
          rw [hold] at hshown
          have hlt := h.slots slot old hold
          have hshown' : remap e.2 old = (part.shownEntry e).2 := Except.ok.inj hshown
          have hmem : slot ∈ part'.slots := by
            rw [Partition.carry] at hcarry
            split at hcarry
            · cases hcarry
              exact ExtTreeMap.mem_map.mpr
                (ExtTreeMap.mem_iff_isSome_getElem?.mpr (by rw [hold]; rfl))
            · cases hcarry
          obtain ⟨new, hnew⟩ :=
            Option.isSome_iff_exists.mp (ExtTreeMap.mem_iff_isSome_getElem?.mp hmem)
          obtain ⟨old', hold', htranslated⟩ := (hslots slot new).mp hnew
          obtain rfl : old = old' := Option.some.inj (hold.symm.trans hold')
          rw [ok_bind, hnew, ← hshown']
          dsimp only
          rw [(splitLocator_remap e.2 hlt).1]
          dsimp only
          rw [htranslated, Option.getD_some, remap_remap _ hlt]
          rfl
    · rw [if_pos (by rw [hkind]; exact hprimary)] at hshown
      rw [if_pos (by rw [hkind]; exact hprimary), if_neg hprimary, ← Except.ok.inj hshown]
  have hsame : ∀ e ∈ stored, part'.shownEntry e = carryEntry kind slots (part.shownEntry e) := by
    intro e he
    refine Prod.ext (hfst (part.shownEntry e)).symm ?_
    show ((part'.translate e.2).toOption).getD e.2 = _
    rw [hentry e he]
    rfl
  refine ⟨⟨stored, bytes, by rwa [hfile], by rwa [hlsn, hbase], ?_, ?_⟩, ?_, ?_, ?_, ?_,
    by rwa [hfile], ?_⟩
  · rw [List.map_map]
    exact (List.map_congr_left hsame).symm
  · intro e he
    rw [hentry e he, hsame e he]
  · exact List.pairwise_map.mpr (h.ascending.imp fun {a b} hlt => by rwa [order, order, hfst, hfst])
  · intro e he
    obtain ⟨e', he', rfl⟩ := List.mem_map.mp he
    rw [hfst]
    exact h.bucket e' he'
  · rw [List.head?_map, Option.map_map, hfirst, ← h.first]
    congr 1
    exact funext hfst
  · rw [List.getLast?_map, Option.map_map, hlast, ← h.last]
    congr 1
    exact funext hfst
  · intro slot new hnew
    obtain ⟨old, -, htranslated⟩ := (hslots slot new).mp hnew
    exact (rebuildSlots_newSlot hrebuild htranslated).2.1

/-- A lookup in a partition. -/
theorem Shows.lookup (h : part.Shows disk kind lower entries) (key : Key) :
    (do
      match ← disk.read part.file fun file => lookupAt file part.lsn part.base key with
      | none => return none
      | some value => return some (← part.translate value)) =
      (.ok ((SortedList.lookup order (toLex key) entries).map Prod.snd) :
        Result (Option IndexValue)) := by
  obtain ⟨stored, bytes, hdisk, hanswers, rfl, htranslate⟩ := h.stored
  rw [Disk.read, hdisk]
  dsimp only
  rw [hanswers.lookup, ok_bind, lookup_shown]
  cases hfound : SortedList.lookup order (toLex key) stored with
  | none => rfl
  | some entry =>
    have hmem : entry ∈ stored := List.mem_of_find?_eq_some hfound
    rw [Option.map_some]
    dsimp only
    rw [htranslate entry hmem]
    rfl

/-- A floor in a partition. -/
theorem Shows.floor (h : part.Shows disk kind lower entries) (key : Key) :
    ∃ found, disk.read part.file (fun file => floorAt file part.lsn part.base key) = .ok found ∧
      SortedList.floor order (toLex key) entries = found.map part.shownEntry ∧
      ∀ entry ∈ found, part.translateEntry entry = .ok (part.shownEntry entry) := by
  obtain ⟨stored, bytes, hdisk, hanswers, rfl, htranslate⟩ := h.stored
  refine ⟨SortedList.floor order (toLex key) stored, ?_, floor_shown, fun entry hentry => ?_⟩
  · rw [Disk.read, hdisk]
    exact hanswers.floor key
  · have hmem : entry ∈ stored := List.mem_of_mem_filter (List.mem_of_getLast? hentry)
    exact translateEntry_eq (htranslate entry hmem)

/-- A scan in a partition. -/
theorem Shows.scan (h : part.Shows disk kind lower entries) (low high : Key) :
    ∃ (cursor : IndexCursor) (found : List Entry), disk.read part.file (fun file =>
        scanAt file part.lsn part.base low high) = .ok cursor ∧
      (∀ i, cursor.nth i = (found[i]?).map .ok) ∧
      SortedList.range order (toLex low) (toLex high) entries = found.map part.shownEntry ∧
      ∀ entry ∈ found, part.translateEntry entry = .ok (part.shownEntry entry) := by
  obtain ⟨stored, bytes, hdisk, hanswers, rfl, htranslate⟩ := h.stored
  obtain ⟨cursor, hscan, hnth⟩ := hanswers.scan low high
  refine ⟨cursor, _, ?_, hnth, range_shown, fun entry hentry => ?_⟩
  · rw [Disk.read, hdisk]
    exact hscan
  · exact translateEntry_eq (htranslate entry (List.mem_of_mem_filter hentry))

end Shows

end Partition

/-! ### Partitions in order -/

section Routes

variable {table kind : ℕ}

/-- Within an index, routes are in the order of their buckets. -/
theorem compare_route {a b : Key} :
    compare ((table, kind, a) : Route) (table, kind, b) = .lt ↔ toLex a < toLex b := by
  have hpair (x y : ℕ × ℕ) : compare x y = .lt ↔ toLex x < toLex y := by
    rw [show compare x y = (compare x.1 y.1).then (compare x.2 y.2) from rfl,
      Ordering.then_eq_lt, Nat.compare_eq_lt, Nat.compare_eq_eq, Nat.compare_eq_lt,
      Prod.Lex.toLex_lt_toLex]
  rw [show compare ((table, kind, a) : Route) (table, kind, b) =
    (compare table table).then ((compare kind kind).then (compare a b)) from rfl,
    Nat.compare_eq_eq.mpr rfl, Nat.compare_eq_eq.mpr rfl, ← hpair]
  rfl

variable (root : Root) (table kind)

/-- The partitions of an index. -/
def Root.partitionsOf : List (Route × Partition) :=
  root.partitions.toList.filter fun entry => entry.1.1 = table ∧ entry.1.2.1 = kind

variable {root table kind}

theorem mem_partitionsOf {entry : Route × Partition} : entry ∈ root.partitionsOf table kind ↔
    entry.1 = (table, kind, entry.1.2.2) ∧ root.partitions[entry.1]? = some entry.2 := by
  obtain ⟨⟨table', kind', lower⟩, part⟩ := entry
  rw [Root.partitionsOf, List.mem_filter, ExtTreeMap.mem_toList_iff_getElem?_eq_some,
    decide_eq_true_eq]
  simp [and_comm]

theorem partitionsOf_ordered :
    (root.partitionsOf table kind).Pairwise fun a b => toLex a.1.2.2 < toLex b.1.2.2 := by
  have hordered : (root.partitionsOf table kind).Pairwise fun a b => compare a.1 b.1 = .lt :=
    ExtTreeMap.ordered_keys_toList.filter _
  refine hordered.imp_of_mem fun {a b} ha hb hlt => ?_
  rw [(mem_partitionsOf.mp ha).1, (mem_partitionsOf.mp hb).1] at hlt
  exact compare_route.mp hlt

/-- The partitions between two buckets are those of the index between them. -/
theorem between_eq (lower upper : Key) : root.between table kind lower upper =
    ((root.partitionsOf table kind).filter fun entry =>
      toLex lower ≤ toLex entry.1.2.2 ∧ toLex entry.1.2.2 ≤ toLex upper).map Prod.snd := by
  rw [Root.between, Root.partitionsOf, List.filter_filter]
  congr 2
  funext entry
  rw [← Bool.decide_and]
  congr 1
  apply propext
  tauto

end Routes

/-! ### Queries of an index -/

/-- **The manifest routes the entries** of an index: each lies in the partition its bucket names,
and a partition shows nothing else. -/
structure Routed (root : Root) (disk : Disk) (table kind : ℕ) (entries : List Entry) : Prop where
  ascending : SortedList.Ascending order entries
  shows : ∀ (lower : Key) (part : Partition),
    root.partitions[((table, kind, lower) : Route)]? = some part →
    part.Shows disk kind lower (entries.filter fun e => bucket kind e.1 = lower)
  covered : ∀ e ∈ entries, ((table, kind, bucket kind e.1) : Route) ∈ root.partitions

/-- The entries in the bucket of a partition. -/
def entriesIn (kind : ℕ) (entries : List Entry) (part : Route × Partition) : List Entry :=
  entries.filter fun e => bucket kind e.1 = part.1.2.2

section Routed

variable {root : Root} {disk : Disk} {table kind : ℕ} {entries : List Entry}

theorem Routed.part_shows (h : Routed root disk table kind entries) {part : Route × Partition}
    (hpart : part ∈ root.partitionsOf table kind) :
    part.2.Shows disk kind part.1.2.2 (entriesIn kind entries part) := by
  obtain ⟨hroute, hget⟩ := mem_partitionsOf.mp hpart
  rw [hroute] at hget
  exact h.shows _ _ hget

/-- The partitions are blocks of the sorted list. -/
theorem Routed.blocks (h : Routed root disk table kind entries) :
    SortedList.Blocks order (bucketOf kind) ((root.partitionsOf table kind).map fun part =>
      (toLex part.1.2.2, entriesIn kind entries part)) where
  ordered := List.pairwise_map.mpr partitionsOf_ordered
  ascending b hb := by
    obtain ⟨part, hpart, rfl⟩ := List.mem_map.mp hb
    exact h.ascending.filter _
  inside b hb e he := by
    obtain ⟨part, hpart, rfl⟩ := List.mem_map.mp hb
    exact congrArg toLex (of_decide_eq_true (List.mem_filter.mp he).2)

/-- **The blocks are the whole list.** -/
theorem Routed.flatMap_eq (h : Routed root disk table kind entries) :
    ((root.partitionsOf table kind).map fun part =>
      (toLex part.1.2.2, entriesIn kind entries part)).flatMap Prod.snd = entries := by
  refine (h.blocks.flatMap_ascending (monotone_bucketOf kind)).ext h.ascending fun e => ?_
  rw [List.flatMap_map, List.mem_flatMap]
  constructor
  · rintro ⟨part, -, he⟩
    exact List.mem_of_mem_filter he
  · intro he
    obtain ⟨part, hget⟩ := Option.isSome_iff_exists.mp
      (ExtTreeMap.mem_iff_isSome_getElem?.mp (h.covered e he))
    exact ⟨((table, kind, bucket kind e.1), part), mem_partitionsOf.mpr ⟨rfl, hget⟩,
      List.mem_filter.mpr ⟨he, decide_eq_true rfl⟩⟩

/-- **A point lookup** visits a single tree. -/
theorem Routed.lookupIndex (h : Routed root disk table kind entries) (key : Key) :
    root.lookupIndex disk table kind key =
      .ok ((SortedList.lookup order (toLex key) entries).map Prod.snd) := by
  have hhere : SortedList.lookup order (toLex key) entries =
      SortedList.lookup order (toLex key)
        (entries.filter fun e => bucket kind e.1 = bucket kind key) := by
    rw [SortedList.lookup, SortedList.lookup, List.find?_filter]
    congr 1
    funext e
    by_cases heq : order e = toLex key
    · have hkey : e.1 = key := toLex_inj.mp heq
      simp [heq, hkey]
    · simp [heq]
  rw [Root.lookupIndex, hhere]
  cases hpart : root.partitions[((table, kind, bucket kind key) : Route)]? with
  | some part => exact (h.shows _ part hpart).lookup key
  | none =>
    have hempty : (entries.filter fun e => bucket kind e.1 = bucket kind key) = [] := by
      rw [List.filter_eq_nil_iff]
      intro e he heq
      have hmem := h.covered e he
      rw [of_decide_eq_true heq, ExtTreeMap.mem_iff_isSome_getElem?, hpart] at hmem
      cases hmem
    rw [hempty]
    rfl

/-- The first floor in a list of partitions. -/
theorem floorIn_eq {key : Key} {parts : List (Route × Partition)}
    (h : ∀ part ∈ parts, part.2.Shows disk kind part.1.2.2 (entriesIn kind entries part)) :
    Root.floorIn disk key (parts.map Prod.snd) = .ok (parts.findSome? fun part =>
      SortedList.floor order (toLex key) (entriesIn kind entries part)) := by
  induction parts with
  | nil => rfl
  | cons part parts ih =>
    obtain ⟨hpart, hparts⟩ := List.forall_mem_cons.mp h
    obtain ⟨found, hread, hfloor, htranslate⟩ := hpart.floor key
    rw [List.map_cons, Root.floorIn, hread, ok_bind, List.findSome?_cons, hfloor]
    cases found with
    | none => exact ih hparts
    | some entry =>
      dsimp only
      rw [htranslate entry rfl]
      rfl

/-- **A floor** is found in the last partition that has one. -/
theorem Routed.floorIndex (h : Routed root disk table kind entries) (key : Key) :
    root.floorIndex disk table kind key =
      .ok (SortedList.floor order (toLex key) entries) := by
  have hshows : ∀ part ∈ ((root.partitionsOf table kind).filter fun entry =>
      toLex (0, 0) ≤ toLex entry.1.2.2 ∧ toLex entry.1.2.2 ≤ toLex (bucket kind key)).reverse,
      part.2.Shows disk kind part.1.2.2 (entriesIn kind entries part) := fun part hpart =>
    h.part_shows (List.mem_of_mem_filter (List.mem_reverse.mp hpart))
  have hbottom (b : Key) : toLex (0, 0) ≤ toLex b :=
    Prod.Lex.toLex_le_toLex'.mpr ⟨Nat.zero_le _, fun _ => Nat.zero_le _⟩
  rw [Root.floorIndex, between_eq, ← List.map_reverse, floorIn_eq hshows]
  conv_rhs => rw [← h.flatMap_eq]
  rw [h.blocks.floor_eq (monotone_bucketOf kind), List.filter_map, ← List.map_reverse,
    List.findSome?_map]
  congr 4
  funext part
  exact decide_eq_decide.mpr (and_iff_right (hbottom _))

end Routed

/-! ### Scans over partitions -/

section Scans

variable {disk : Disk} {kind : ℕ} {entries : List Entry} {lower upper : Key}

/-- What partitions hold for a scan. -/
def scanRest (kind : ℕ) (entries : List Entry) (lower upper : Key)
    (parts : List (Route × Partition)) : List Entry :=
  parts.flatMap fun part =>
    SortedList.range order (toLex lower) (toLex upper) (entriesIn kind entries part)

/-- **What a scan has before it**: the rest of the tree it is in, and the partitions behind. -/
inductive Ahead (disk : Disk) (kind : ℕ) (entries : List Entry) (lower upper : Key) :
    Scan → List Entry → Prop
  | between (parts : List (Route × Partition))
      (shows : ∀ part ∈ parts, part.2.Shows disk kind part.1.2.2 (entriesIn kind entries part)) :
      Ahead disk kind entries lower upper ⟨disk, lower, upper, none, parts.map Prod.snd⟩
        (scanRest kind entries lower upper parts)
  | inside (part : Partition) (cursor : IndexCursor) (found : List Entry)
      (parts : List (Route × Partition)) (nth : ∀ i, cursor.nth i = (found[i]?).map .ok)
      (translate : ∀ entry ∈ found, part.translateEntry entry = .ok (part.shownEntry entry))
      (shows : ∀ part ∈ parts, part.2.Shows disk kind part.1.2.2 (entriesIn kind entries part)) :
      Ahead disk kind entries lower upper
        ⟨disk, lower, upper, some (part, cursor), parts.map Prod.snd⟩
        (found.map part.shownEntry ++ scanRest kind entries lower upper parts)

/-- What a step of a scan returns, and what it leaves. -/
def Takes (disk : Disk) (kind : ℕ) (entries : List Entry) (lower upper : Key) (all : List Entry)
    (step : Option (Result Entry) × Scan) : Prop :=
  match all with
  | [] => step.1 = none ∧ Ahead disk kind entries lower upper step.2 []
  | e :: rest => step.1 = some (.ok e) ∧ Ahead disk kind entries lower upper step.2 rest

/-- Entering partitions returns the first entry they have. -/
theorem takes_enter (scan : Scan) (hdisk : scan.disk = disk) (hlower : scan.lower = lower)
    (hupper : scan.upper = upper) {parts : List (Route × Partition)}
    (h : ∀ part ∈ parts, part.2.Shows disk kind part.1.2.2 (entriesIn kind entries part)) :
    Takes disk kind entries lower upper (scanRest kind entries lower upper parts)
      (scan.enter (parts.map Prod.snd)) := by
  obtain ⟨disk', lower', upper', current, rest⟩ := scan
  obtain rfl : disk = disk' := hdisk.symm
  obtain rfl : lower = lower' := hlower.symm
  obtain rfl : upper = upper' := hupper.symm
  induction parts with
  | nil => exact ⟨rfl, .between [] (List.forall_mem_nil _)⟩
  | cons part parts ih =>
    obtain ⟨hpart, hparts⟩ := List.forall_mem_cons.mp h
    obtain ⟨cursor, found, hread, hnth, hrange, htranslate⟩ := hpart.scan lower upper
    rw [scanRest, List.flatMap_cons, hrange, List.map_cons, Scan.enter, hread]
    dsimp only
    have hhead := hnth 0
    rw [IndexCursor.nth] at hhead
    cases found with
    | nil =>
      rw [show cursor.next = (none, cursor.next.2) from Prod.ext hhead rfl]
      exact ih hparts
    | cons entry found =>
      rw [show cursor.next = (some (.ok entry), cursor.next.2) from Prod.ext hhead rfl]
      obtain ⟨hentry, hfound⟩ := List.forall_mem_cons.mp htranslate
      refine ⟨?_, .inside part.2 cursor.next.2 found parts (fun i => ?_) hfound hparts⟩
      · dsimp only
        rw [ok_bind, hentry]
      · exact hnth (i + 1)

/-- **A step of a scan** returns the next entry. -/
theorem Ahead.next {scan : Scan} {all : List Entry}
    (h : Ahead disk kind entries lower upper scan all) :
    Takes disk kind entries lower upper all scan.next := by
  cases h with
  | between parts hshows =>
    exact takes_enter ⟨disk, lower, upper, none, parts.map Prod.snd⟩ rfl rfl rfl hshows
  | inside part cursor found parts hnth htranslate hshows =>
    rw [Scan.next]
    dsimp only
    have hhead := hnth 0
    rw [IndexCursor.nth] at hhead
    cases found with
    | nil =>
      rw [show cursor.next = (none, cursor.next.2) from Prod.ext hhead rfl]
      exact takes_enter ⟨disk, lower, upper, some (part, cursor), parts.map Prod.snd⟩ rfl rfl rfl
        hshows
    | cons entry found =>
      rw [show cursor.next = (some (.ok entry), cursor.next.2) from Prod.ext hhead rfl]
      obtain ⟨hentry, hfound⟩ := List.forall_mem_cons.mp htranslate
      refine ⟨?_, .inside part cursor.next.2 found parts (fun i => ?_) hfound hshows⟩
      · dsimp only
        rw [ok_bind, hentry]
      · exact hnth (i + 1)

/-- **A scan returns what is before it**, in order, and then nothing. -/
theorem Ahead.nth {scan : Scan} {all : List Entry}
    (h : Ahead disk kind entries lower upper scan all) (i : ℕ) :
    scan.nth i = (all[i]?).map .ok := by
  induction i generalizing scan all with
  | zero =>
    have hnext := h.next
    rw [Scan.nth]
    cases all with
    | nil => exact hnext.1
    | cons e rest => exact hnext.1
  | succ i ih =>
    have hnext := h.next
    rw [Scan.nth]
    cases all with
    | nil => exact ih hnext.2
    | cons e rest =>
      rw [ih hnext.2, List.getElem?_cons_succ]

variable {root : Root} {table : ℕ}

/-- **A scan** runs through the partitions between its ends, whatever these are. -/
theorem Routed.scanIndex (h : Routed root disk table kind entries) (lower upper : Key) (i : ℕ) :
    (root.scanIndex disk table kind lower upper).nth i =
      ((SortedList.range order (toLex lower) (toLex upper) entries)[i]?).map .ok := by
  rw [Root.scanIndex]
  split
  · next hcrossed =>
    have hempty : SortedList.range order (toLex lower) (toLex upper) entries = [] := by
      rw [SortedList.range, List.filter_eq_nil_iff]
      intro e he hle
      obtain ⟨hlow, hhigh⟩ := of_decide_eq_true hle
      exact (hlow.trans hhigh).not_gt hcrossed
    have hdone : Ahead disk kind entries lower upper ⟨disk, lower, upper, none, []⟩ [] :=
      .between [] (List.forall_mem_nil _)
    rw [hempty]
    exact hdone.nth i
  · have hshows : ∀ part ∈ (root.partitionsOf table kind).filter fun entry =>
        toLex (bucket kind lower) ≤ toLex entry.1.2.2 ∧
          toLex entry.1.2.2 ≤ toLex (bucket kind upper),
        part.2.Shows disk kind part.1.2.2 (entriesIn kind entries part) := fun part hpart =>
      h.part_shows (List.mem_of_mem_filter hpart)
    rw [between_eq]
    refine (Ahead.nth (.between _ hshows) i).trans ?_
    conv_rhs => rw [← h.flatMap_eq]
    rw [h.blocks.range_eq (monotone_bucketOf kind), List.filter_map, List.flatMap_map, scanRest]
    rfl

/-- **An index that is routed transparently**: point lookups, floors and scans are answered as
from one sorted list, for every key and every two ends, and the partitions cut that list by the
buckets of its keys. -/
structure Transparent (root : Root) (disk : Disk) (table kind : ℕ) (entries : List Entry) :
    Prop where
  ascending : SortedList.Ascending order entries
  lookup : ∀ key, root.lookupIndex disk table kind key =
    .ok ((SortedList.lookup order (toLex key) entries).map Prod.snd)
  floor : ∀ key, root.floorIndex disk table kind key =
    .ok (SortedList.floor order (toLex key) entries)
  scan : ∀ lower upper n, (root.scanIndex disk table kind lower upper).nth n =
    ((SortedList.range order (toLex lower) (toLex upper) entries)[n]?).map .ok
  covered : ∀ e ∈ entries, ((table, kind, bucket kind e.1) : Route) ∈ root.partitions
  shows : ∀ (lower : Key) (part : Partition),
    root.partitions[((table, kind, lower) : Route)]? = some part →
    part.Shows disk kind lower (entries.filter fun e => bucket kind e.1 = lower)
  extreme : ∀ (lower : Key) (part : Partition),
    root.partitions[((table, kind, lower) : Route)]? = some part →
    (∃ e ∈ entries, bucket kind e.1 = lower ∧ e.1 = part.first) ∧
      (∃ e ∈ entries, bucket kind e.1 = lower ∧ e.1 = part.last) ∧
      ∀ e ∈ entries, bucket kind e.1 = lower →
        toLex part.first ≤ toLex e.1 ∧ toLex e.1 ≤ toLex part.last

/-- The first and the last key of a partition are its extreme keys. -/
theorem shows_extreme {part : Partition} {here : List Entry}
    (h : part.Shows disk kind lower here) :
    (∃ e ∈ here, e.1 = part.first) ∧ (∃ e ∈ here, e.1 = part.last) ∧
      ∀ e ∈ here, toLex part.first ≤ toLex e.1 ∧ toLex e.1 ≤ toLex part.last := by
  obtain ⟨first, hfirst, hfirst'⟩ := Option.map_eq_some_iff.mp h.first
  obtain ⟨last, hlast, hlast'⟩ := Option.map_eq_some_iff.mp h.last
  obtain ⟨behind, hcons⟩ := List.head?_eq_some_iff.mp hfirst
  obtain ⟨front, hconcat⟩ := List.getLast?_eq_some_iff.mp hlast
  have hascending := h.ascending
  refine ⟨⟨first, List.mem_of_head? hfirst, hfirst'⟩, ⟨last, List.mem_of_getLast? hlast, hlast'⟩,
    fun e he => ⟨?_, ?_⟩⟩
  · rw [hcons] at he
    rw [hcons] at hascending
    rw [← hfirst']
    rcases List.mem_cons.mp he with rfl | he
    · exact le_rfl
    · exact ((List.pairwise_cons.mp hascending).1 e he).le
  · rw [hconcat] at he
    rw [hconcat] at hascending
    rw [← hlast']
    rcases List.mem_append.mp he with he | he
    · exact ((List.pairwise_append.mp hascending).2.2 e he last (List.mem_singleton_self last)).le
    · rw [List.mem_singleton.mp he]

/-- **Routed entries** are shown transparently. -/
theorem Routed.transparent (h : Routed root disk table kind entries) :
    Transparent root disk table kind entries where
  ascending := h.ascending
  lookup := h.lookupIndex
  floor := h.floorIndex
  scan := h.scanIndex
  covered := h.covered
  shows := h.shows
  extreme lower part hpart := by
    obtain ⟨⟨first, hfirst, hfirst'⟩, ⟨last, hlast, hlast'⟩, hall⟩ :=
      shows_extreme (h.shows lower part hpart)
    obtain ⟨hfirst, hbucket⟩ := List.mem_filter.mp hfirst
    obtain ⟨hlast, hbucket'⟩ := List.mem_filter.mp hlast
    refine ⟨⟨first, hfirst, of_decide_eq_true hbucket, hfirst'⟩,
      ⟨last, hlast, of_decide_eq_true hbucket', hlast'⟩, fun e he heq => ?_⟩
    exact hall e (List.mem_filter.mpr ⟨he, decide_eq_true heq⟩)

end Scans

end EveDB
