import EveDB.Builder.TableSteps
import EveDB.Builder.Rooted

/-!
# Counting what a pass writes

What the primary index of a table is told in a pass (`Told`): entries in the order of their
identifiers, each with the slot of the generation that is written or with one that stays. Beside it
stand the counters of the table (`Underway`): what has come under a slot that stays and what has
died in it are together what there was of it, and what has come under the new slot is what was
written anew.
-/

namespace EveDB

open Std Store Index Indexes

/-- Whether an entry names a slot. -/
def names (slot : ℕ) (value : IndexValue) : Bool := entitySlot value = .ok slot

theorem names_iff {slot : ℕ} {value : IndexValue} :
    names slot value ↔ entitySlot value = .ok slot :=
  decide_eq_true_iff

/-- The counters of a table in a slot. -/
def tally (occupancy : SortedMap (ℕ × ℕ) Occupancy) (table slot : ℕ) : Occupancy :=
  (occupancy[(table, slot)]?).getD ⟨0, 0⟩

/-! ### Deliveries in order -/

/-- A delivery lies below an identifier. -/
def Delivery.Below (next : ℕ) : Delivery → Prop
  | .entry key _ _ => key.1 < next
  | .reuse _ lower _ => lower.1 + width ≤ next

section Below

variable {d : Delivery} {next id : ℕ}

theorem Delivery.Below.mono {more : ℕ} (h : d.Below next) (hle : next ≤ more) : d.Below more := by
  cases d with
  | entry key value dependency => exact Nat.lt_of_lt_of_le h hle
  | reuse root lower part => exact Nat.le_trans h hle

/-- What lies below an identifier comes before its entry. -/
theorem Delivery.Below.before_entry (h : d.Below next) (hid : next ≤ id) (value : IndexValue)
    (dependency : Option FileId) : d.Before 3 (.entry (id, 0) value dependency) := by
  cases d with
  | entry key value' dependency' => exact Prod.Lex.toLex_lt_toLex.mpr (Or.inl (h.trans_le hid))
  | reuse root lower part =>
    refine Prod.Lex.toLex_lt_toLex.mpr (Or.inl ?_)
    change lower.1 + width ≤ next at h
    change lower.1 < (EveDB.bucket 3 (id, 0)).1
    rw [EveDB.bucket, if_pos rfl]
    rw [width] at h ⊢
    dsimp only
    omega

/-- What lies below a bucket comes before it. -/
theorem Delivery.Below.before_reuse (h : d.Below next) {lower : ℕ} (hlower : next ≤ lower)
    (root : Root) (part : Partition) : d.Before 3 (.reuse root (lower, 0) part) := by
  cases d with
  | entry key value dependency =>
    refine Prod.Lex.toLex_lt_toLex.mpr (Or.inl ?_)
    change key.1 < next at h
    change (EveDB.bucket 3 key).1 < lower
    rw [EveDB.bucket, if_pos rfl, width]
    dsimp only
    omega
  | reuse root' lower' part' =>
    refine Prod.Lex.toLex_lt_toLex.mpr (Or.inl ?_)
    change lower'.1 + width ≤ next at h
    change lower'.1 < lower
    rw [width] at h
    omega

end Below

/-! ### What an index is told -/

section Told

variable (disk : Disk) (slots : List (Option ℕ)) (last table : ℕ)

/-- The entries of deliveries. -/
noncomputable def shownBy (ds : List Delivery) : List Entry :=
  ds.flatMap (·.entries (shownEntries disk))

/-- **What the primary index of a table is told** below an identifier. -/
structure Told (ds : List Delivery) (next n : ℕ) : Prop where
  ordered : ds.Pairwise (Delivery.Before 3)
  below : ∀ d ∈ ds, d.Below next
  sound : ∀ d ∈ ds, d.Sound disk (shownEntries disk) table 3
  zero : ∀ e ∈ shownBy disk ds, e.1.2 = 0
  fits : ∀ e ∈ shownBy disk ds, Fits e.1
  slot : ∀ e ∈ shownBy disk ds, ∃ slot, entitySlot e.2 = .ok slot ∧
    (slot = last ∨ ∃ old, newSlot slots old = some slot)
  anew : (shownBy disk ds).countP (fun e => names last e.2) = n

variable {disk slots last table} {ds : List Delivery} {next n : ℕ}

theorem shownBy_concat (ds : List Delivery) (d : Delivery) : shownBy disk (ds ++ [d]) =
    shownBy disk ds ++ d.entries (shownEntries disk) := by
  rw [shownBy, List.flatMap_append, List.flatMap_singleton]
  rfl

theorem told_nil : Told disk slots last table [] next 0 where
  ordered := List.Pairwise.nil
  below := List.forall_mem_nil _
  sound := List.forall_mem_nil _
  zero := List.forall_mem_nil _
  fits := List.forall_mem_nil _
  slot := List.forall_mem_nil _
  anew := rfl

theorem Told.mono {more : ℕ} (h : Told disk slots last table ds next n) (hle : next ≤ more) :
    Told disk slots last table ds more n :=
  { h with below := fun d hd => (h.below d hd).mono hle }

/-- **One more entry.** -/
theorem Told.entry (h : Told disk slots last table ds next n) {id slot : ℕ} {value : IndexValue}
    (hid : next ≤ id) (hbound : id ≤ maxU64) (hvalue : Fits value)
    (hslot : entitySlot value = .ok slot)
    (hknown : slot = last ∨ ∃ old, newSlot slots old = some slot) :
    Told disk slots last table (ds ++ [.entry (id, 0) value none]) (id + 1)
      (n + if slot = last then 1 else 0) := by
  have hkey : Fits (id, 0) := ⟨Nat.lt_succ_of_le hbound, Nat.two_pow_pos 64⟩
  have hshown : shownBy disk (ds ++ [.entry (id, 0) value none]) =
      shownBy disk ds ++ [((id, 0), value)] := shownBy_concat ds _
  refine ⟨?_, ?_, ?_, ?_, ?_, ?_, ?_⟩
  · refine List.pairwise_append.mpr ⟨h.ordered, List.pairwise_singleton _ _, fun d hd d' hd' => ?_⟩
    rw [List.mem_singleton.mp hd']
    exact (h.below d hd).before_entry hid value none
  · refine List.forall_mem_append.mpr ⟨fun d hd => ?_, List.forall_mem_singleton.mpr ?_⟩
    · exact (h.below d hd).mono (hid.trans (Nat.le_succ id))
    · exact Nat.lt_succ_self id
  · refine List.forall_mem_append.mpr ⟨h.sound, List.forall_mem_singleton.mpr ?_⟩
    exact ⟨hkey, hvalue, fun _ => ⟨slot, hslot⟩⟩
  · rw [hshown]
    exact List.forall_mem_append.mpr ⟨h.zero, List.forall_mem_singleton.mpr rfl⟩
  · rw [hshown]
    exact List.forall_mem_append.mpr ⟨h.fits, List.forall_mem_singleton.mpr hkey⟩
  · rw [hshown]
    refine List.forall_mem_append.mpr ⟨h.slot, List.forall_mem_singleton.mpr ?_⟩
    exact ⟨slot, hslot, hknown⟩
  · rw [hshown, List.countP_append, h.anew, List.countP_singleton]
    refine congrArg _ (if_congr ?_ rfl rfl)
    rw [names_iff, hslot]
    exact ⟨fun heq => Except.ok.inj heq, fun heq => congrArg _ heq⟩

/-- **One more partition**, with the entries it shows. -/
theorem Told.reuse (h : Told disk slots last table ds next n) {root : Root} {lower : ℕ}
    {part : Partition} (hlower : next ≤ lower)
    (hsound : Delivery.Sound disk (shownEntries disk) table 3 (.reuse root (lower, 0) part))
    (hentries : ∀ e ∈ shownEntries disk part, e.1.2 = 0 ∧ Fits e.1 ∧
      ∃ old new, newSlot slots old = some new ∧ entitySlot e.2 = .ok new)
    (hlast : ∀ old, newSlot slots old ≠ some last) :
    Told disk slots last table (ds ++ [.reuse root (lower, 0) part]) (lower + width) n := by
  have hshown : shownBy disk (ds ++ [.reuse root (lower, 0) part]) =
      shownBy disk ds ++ shownEntries disk part := shownBy_concat ds _
  refine ⟨?_, ?_, ?_, ?_, ?_, ?_, ?_⟩
  · refine List.pairwise_append.mpr ⟨h.ordered, List.pairwise_singleton _ _, fun d hd d' hd' => ?_⟩
    rw [List.mem_singleton.mp hd']
    exact (h.below d hd).before_reuse hlower root part
  · refine List.forall_mem_append.mpr ⟨fun d hd => ?_, List.forall_mem_singleton.mpr ?_⟩
    · exact (h.below d hd).mono (hlower.trans (Nat.le_add_right lower width))
    · exact Nat.le_refl (lower + width)
  · exact List.forall_mem_append.mpr ⟨h.sound, List.forall_mem_singleton.mpr hsound⟩
  · rw [hshown]
    exact List.forall_mem_append.mpr ⟨h.zero, fun e he => (hentries e he).1⟩
  · rw [hshown]
    exact List.forall_mem_append.mpr ⟨h.fits, fun e he => (hentries e he).2.1⟩
  · rw [hshown]
    refine List.forall_mem_append.mpr ⟨h.slot, fun e he => ?_⟩
    obtain ⟨-, -, old, new, hnew, hslot⟩ := hentries e he
    exact ⟨new, hslot, Or.inr ⟨old, hnew⟩⟩
  · have hnone : (shownEntries disk part).countP (fun e => names last e.2) = 0 := by
      refine List.countP_eq_zero.mpr fun e he hnames => ?_
      obtain ⟨-, -, old, new, hnew, hslot⟩ := hentries e he
      obtain rfl : new = last := Except.ok.inj (hslot.symm.trans (names_iff.mp hnames))
      exact hlast old hnew
    rw [hshown, List.countP_append, h.anew, hnone, Nat.add_zero]

end Told

/-! ### Primary partitions -/

section Primary

variable {disk : Disk} {part part' : Partition} {lower : Key} {shown : List Entry}

/-- **An entry of a primary partition** lies in a slot that the partition lists. -/
theorem Partition.Shows.slot_listed (h : part.Shows disk 3 lower shown) {e : Entry}
    (he : e ∈ shown) :
    ∃ stored slot : ℕ, part.slots[stored]? = some slot ∧ entitySlot e.2 = .ok slot := by
  obtain ⟨entries, bytes, -, -, rfl, htranslate⟩ := h.stored
  obtain ⟨e', he', rfl⟩ := List.mem_map.mp he
  have htranslated := htranslate e' he'
  rw [Partition.translate, if_neg (not_not.mpr h.kind)] at htranslated
  obtain ⟨stored, -, htranslated⟩ := bind_eq_ok.mp htranslated
  split at htranslated
  · cases htranslated
  · next slot hslot =>
    refine ⟨stored, slot, hslot, ?_⟩
    have hvalue : remap e'.2 slot = (part.shownEntry e').2 := Except.ok.inj htranslated
    rw [← hvalue]
    exact entitySlot_remap e'.2 (h.slots stored slot hslot)

/-- What is carried has somewhere to go. -/
theorem Partition.carry_slot {slots : List (Option ℕ)} (h : part.carry slots = .ok part')
    {stored slot : ℕ} (hslot : part.slots[stored]? = some slot) :
    ∃ new, newSlot slots slot = some new := by
  rw [Partition.carry] at h
  split at h
  · next hall =>
    have hsome := List.all_eq_true.mp hall _ (ExtTreeMap.mem_toList_iff_getElem?_eq_some.mpr hslot)
    exact Option.isSome_iff_exists.mp hsome
  · cases h

/-- The slot of an entry that is carried. -/
theorem entitySlot_carryEntry {slots : List (Option ℕ)} {e : Entry} {old new : ℕ}
    (hold : entitySlot e.2 = .ok old) (hnew : newSlot slots old = some new) (hlt : new < 2 ^ 8) :
    entitySlot (Partition.carryEntry 3 slots e).2 = .ok new := by
  rw [Partition.carryEntry, if_pos rfl, (entitySlot_eq_ok.mp hold).1, hnew]
  exact entitySlot_remap e.2 hlt

/-- **What a view has of a primary index**, and where its partitions lie. -/
structure Located (disk : Disk) (state : ReadState) (table : ℕ) (listed : List Entry) : Prop where
  routed : Routed state.root.manifest disk table 3 listed
  zero : ∀ e ∈ listed, e.1.2 = 0
  fits : ∀ e ∈ listed, Fits e.1
  files : ∀ (lower : Key) (part : Partition),
    state.root.manifest.partitions[((table, 3, lower) : Route)]? = some part →
    ∃ info ∈ state.root.manifest.files, info.id = part.file

/-- The entries of a bucket. -/
theorem Located.filter_byId {state : ReadState} {table : ℕ} {listed : List Entry}
    (h : Located disk state table listed) {lower : ℕ} (haligned : lower % width = 0) :
    (listed.map byId).filter (inBucket lower) =
      (listed.filter fun e => bucket 3 e.1 = (lower, 0)).map byId := by
  rw [List.filter_map]
  refine congrArg _ (List.filter_congr fun e he => ?_)
  have hin := @inBucket_iff lower (byId e) haligned (Nat.le_of_lt_succ (h.fits e he).1)
  refine Bool.eq_iff_iff.mpr (hin.trans ?_)
  rw [decide_eq_true_eq, bucket, bucket, if_pos rfl, if_pos rfl, Prod.ext_iff]
  exact (and_iff_left rfl).symm

end Primary

/-! ### A table that is being written -/

/-- **Where the slots of a manifest go**: to different ones, all of them before the one that is
written. -/
structure Translates (slots : List (Option ℕ)) (last : ℕ) : Prop where
  below : ∀ old new, newSlot slots old = some new → new < last
  injective : ∀ old old' new, newSlot slots old = some new → newSlot slots old' = some new →
    old = old'
  last_lt : last < 2 ^ 8

theorem Translates.lt {slots : List (Option ℕ)} {last old new : ℕ} (h : Translates slots last)
    (hnew : newSlot slots old = some new) : new < 2 ^ 8 := (h.below old new hnew).trans h.last_lt

/-- **Where an entry of a table comes from**: from the entry there was, for an entity that no
transaction touched, or from an entity that was written anew, whose records are stored. -/
inductive Origin (state : ReadState) (listed : List Entry) (slots : List (Option ℕ))
    (last table : ℕ) (current base : ℕ → Bytes → Prop) : Entry → Prop
  | kept {e : Entry} {old new : ℕ} (hlisted : e ∈ listed) (hold : entitySlot e.2 = .ok old)
      (hnew : newSlot slots old = some new) (huntouched : (table, e.1.1) ∉ state.overlay) :
      Origin state listed slots last table current base (e.1, remap e.2 new)
  | anew {id currentAt baseAt : ℕ} {data : EntityData}
      (hload : (state.load table id).result = .ok (some data)) (hcurrentAt : currentAt < 2 ^ 56)
      (hbaseAt : baseAt < 2 ^ 56) (hcurrent : current currentAt (encodeEntity data.current))
      (hbase : base baseAt (encodeEntity data.base)) :
      Origin state listed slots last table current base
        ((id, 0), (locate last currentAt, locate last baseAt))

/-- Where an entry comes from does not change as long as what is stored stays so. -/
theorem Origin.mono {state : ReadState} {listed : List Entry} {slots : List (Option ℕ)}
    {last table : ℕ} {current base current' base' : ℕ → Bytes → Prop} {e : Entry}
    (h : Origin state listed slots last table current base e)
    (hcurrent : ∀ location bytes, current location bytes → current' location bytes)
    (hbase : ∀ location bytes, base location bytes → base' location bytes) :
    Origin state listed slots last table current' base' e := by
  cases h with
  | kept hlisted hold hnew huntouched => exact .kept hlisted hold hnew huntouched
  | anew hload hcurrentAt hbaseAt hstored hstored' =>
    exact .anew hload hcurrentAt hbaseAt (hcurrent _ _ hstored) (hbase _ _ hstored')

/-- The entities that entries are about. -/
def idsOf (entries : List Entry) : Set ℕ := {id | ∃ e ∈ entries, e.1.1 = id}

theorem idsOf_append (entries more : List Entry) :
    idsOf (entries ++ more) = idsOf entries ∪ idsOf more := by
  ext id
  constructor
  · rintro ⟨e, he, rfl⟩
    exact (List.mem_append.mp he).imp (fun he => ⟨e, he, rfl⟩) fun he => ⟨e, he, rfl⟩
  · rintro (⟨e, he, rfl⟩ | ⟨e, he, rfl⟩)
    · exact ⟨e, List.mem_append_left _ he, rfl⟩
    · exact ⟨e, List.mem_append_right _ he, rfl⟩

theorem idsOf_singleton (e : Entry) : idsOf [e] = {e.1.1} := by
  ext id
  constructor
  · rintro ⟨e', he', rfl⟩
    exact congrArg (fun e : Entry => e.1.1) (List.mem_singleton.mp he')
  · rintro rfl
    exact ⟨e, List.mem_singleton_self e, rfl⟩

/-- **A table that is being written**, after so many entities of each slot, and these in all. -/
structure Underway (disk : Disk) (here : FileInfo → Prop) (state : ReadState) (listed : List Entry)
    (slots : List (Option ℕ)) (last table : ℕ) (start : Pass Progress) (w₀ : FullTableWriter)
    (next : ℕ) (seen : ℕ → ℕ) (ids : Set ℕ) (pass : Pass Progress) : Prop where
  writer : ∃ w steps n, pass.writer = { start.writer with table := some w } ∧
    w₀.Did disk here w steps n ∧
    Told disk slots last table (delivered primaryIndex steps) next n ∧
    (∀ old new, newSlot slots old = some new →
      (tally pass.occupancy table new).dead +
          (shownBy disk (delivered primaryIndex steps)).countP (fun e => names new e.2) =
        (tally start.occupancy table new).dead + seen old) ∧
    idsOf (shownBy disk (delivered primaryIndex steps)) = ids ∧
    ∀ e ∈ shownBy disk (delivered primaryIndex steps),
      Origin state listed slots last table w.current.Has w.bases.Has e
  entities : ∀ slot, (tally pass.occupancy table slot).entities =
    (tally start.occupancy table slot).entities
  known : ∀ key ∈ pass.occupancy, key ∈ start.occupancy ∨ key.1 = table ∧ key.2 < last
  others : ∀ key : ℕ × ℕ, (key.1 ≠ table ∨ ∀ old, newSlot slots old ≠ some key.2) →
    pass.occupancy[key]? = start.occupancy[key]?

theorem Progress.onTable_eq_ok {p p' : Progress} {w : FullTableWriter}
    {step : FullTableWriter → Reading FullTableWriter} (htable : p.table = some w)
    (hok : (p.onTable step).result = .ok p') :
    ∃ w', (step w).result = .ok w' ∧ p' = { p with table := some w' } := by
  rw [Progress.onTable, htable] at hok
  dsimp only at hok
  rw [Guarded.result_bind] at hok
  obtain ⟨w', hstep, hok⟩ := bind_eq_ok.mp hok
  cases hok
  exact ⟨w', hstep, rfl⟩

theorem countP_names {slot old : ℕ} {key : Key} {value : IndexValue}
    (hvalue : entitySlot value = .ok old) :
    ([(key, value)] : List Entry).countP (fun e => names slot e.2) =
      if slot = old then 1 else 0 := by
  rw [List.countP_singleton]
  refine if_congr ?_ rfl rfl
  rw [names_iff, hvalue]
  exact ⟨fun heq => (Except.ok.inj heq).symm, fun heq => congrArg _ heq.symm⟩

/-- A locator is a number of eight bytes. -/
theorem locate_lt {slot location : ℕ} (hslot : slot < 2 ^ 8) (hlocation : location < 2 ^ 56) :
    locate slot location < 2 ^ 64 := by
  rw [locate, ← Nat.shiftLeft_eq, ← Nat.shiftLeft_add_eq_or_of_lt hlocation, Nat.shiftLeft_eq]
  omega

theorem fits_remap (value : IndexValue) {slot : ℕ} (hslot : slot < 2 ^ 8) :
    Fits (remap value slot) :=
  ⟨locate_lt hslot (splitLocator_snd_lt _), locate_lt hslot (splitLocator_snd_lt _)⟩

section Underway

variable {disk : Disk} {here : FileInfo → Prop} {storage : Storage} {options : TableOptions}
  {limit : ℕ} {state : ReadState} {listed : List Entry} {slots : List (Option ℕ)} {last table : ℕ}
  {start pass pass' : Pass Progress} {w₀ : FullTableWriter} {next id : ℕ} {seen : ℕ → ℕ}
  {ids : Set ℕ}

theorem Underway.mono
    (h : Underway disk here state listed slots last table start w₀ next seen ids pass) {more : ℕ}
    (hle : next ≤ more) :
    Underway disk here state listed slots last table start w₀ more seen ids pass := by
  obtain ⟨w, steps, n, hwriter, hdid, htold, hrest⟩ := h.writer
  exact ⟨⟨w, steps, n, hwriter, hdid, htold.mono hle, hrest⟩, h.entities, h.known, h.others⟩

/-- What has been seen of a slot that leaves the manifest does not count. -/
theorem Underway.leave
    (h : Underway disk here state listed slots last table start w₀ next seen ids pass) {old : ℕ}
    (hnone : newSlot slots old = none) :
    Underway disk here state listed slots last table start w₀ next
      (fun slot => seen slot + if slot = old then 1 else 0) ids pass := by
  obtain ⟨w, steps, n, hwriter, hdid, htold, hbalance, hrest⟩ := h.writer
  refine ⟨⟨w, steps, n, hwriter, hdid, htold, fun old' new hnew => ?_, hrest⟩, h.entities, h.known,
    h.others⟩
  rw [if_neg, Nat.add_zero]
  · exact hbalance old' new hnew
  · rintro rfl
    rw [hnone] at hnew
    cases hnew

/-- **An entity dies** in a slot that stays. -/
theorem Underway.bury
    (h : Underway disk here state listed slots last table start w₀ next seen ids pass)
    (hslots : Translates slots last) {old new : ℕ} (hnew : newSlot slots old = some new)
    (quotas : ℕ → ℕ) : Underway disk here state listed slots last table start w₀ next
      (fun slot => seen slot + if slot = old then 1 else 0) ids
      { pass with
        quotas
        occupancy := pass.occupancy.insert (table, new)
          { tally pass.occupancy table new with
            dead := (tally pass.occupancy table new).dead + 1 } } := by
  have hlt := hslots.below old new hnew
  have hget (slot : ℕ) : tally (pass.occupancy.insert (table, new)
      { tally pass.occupancy table new with dead := (tally pass.occupancy table new).dead + 1 })
      table slot = if slot = new then
        { tally pass.occupancy table new with dead := (tally pass.occupancy table new).dead + 1 }
      else tally pass.occupancy table slot := by
    by_cases hslot : slot = new
    · rw [if_pos hslot, hslot, tally, ExtTreeMap.getElem?_insert_self]
      rfl
    · rw [if_neg hslot, tally, SortedMap.getElem?_insert_of_ne, tally]
      rintro ⟨⟩
      exact hslot rfl
  obtain ⟨w, steps, n, hwriter, hdid, htold, hbalance, hrest⟩ := h.writer
  refine ⟨⟨w, steps, n, hwriter, hdid, htold, fun old' new' hnew' => ?_, hrest⟩, fun slot => ?_,
    fun key hkey => ?_, fun key hkey => ?_⟩
  · have hold := hbalance old' new' hnew'
    dsimp only
    rw [hget]
    by_cases hsame : new' = new
    · subst hsame
      obtain rfl := hslots.injective _ _ _ hnew' hnew
      rw [if_pos rfl, if_pos rfl]
      dsimp only
      omega
    · rw [if_neg hsame, if_neg, Nat.add_zero]
      · exact hold
      · rintro rfl
        exact hsame (Option.some.inj (hnew'.symm.trans hnew))
  · dsimp only
    rw [hget]
    split
    · next hslot =>
      rw [hslot]
      exact h.entities new
    · exact h.entities slot
  · rcases ExtTreeMap.mem_insert.mp hkey with heq | hkey
    · obtain rfl := LawfulEqOrd.eq_of_compare heq
      exact Or.inr ⟨rfl, hlt⟩
    · exact h.known key hkey
  · dsimp only
    rw [SortedMap.getElem?_insert_of_ne]
    · exact h.others key hkey
    · rintro rfl
      rcases hkey with hkey | hkey
      · exact hkey rfl
      · exact hkey old hnew

/-- **An entity is carried** under its new slot. -/
theorem Underway.carry
    (h : Underway disk here state listed slots last table start w₀ next seen ids pass)
    (hslots : Translates slots last) (hhere : ∀ info ∈ state.root.manifest.files, here info)
    {value : IndexValue} {old new : ℕ} (hlisted : ((id, 0), value) ∈ listed)
    (hold : entitySlot value = .ok old) (hnew : newSlot slots old = some new)
    (huntouched : (table, id) ∉ state.overlay) (hid : next ≤ id) (hbound : id ≤ maxU64)
    {writer : Progress}
    (hok : ((tableWriter disk storage options limit).carry table state.root id (remap value new)
      pass.writer).result = .ok writer) :
    Underway disk here state listed slots last table start w₀ (id + 1)
      (fun slot => seen slot + if slot = old then 1 else 0) (ids ∪ {id})
      { pass with writer } := by
  obtain ⟨w, steps, n, hwriter, hdid, htold, hbalance, hids, horigin⟩ := h.writer
  obtain ⟨w', hcarry, rfl⟩ := Progress.onTable_eq_ok (congrArg Progress.table hwriter) hok
  obtain ⟨more, hmore, hdelivered⟩ := FullTableWriter.carry_did hhere hcarry
  have hslot := @entitySlot_remap new value (hslots.lt hnew)
  have htold' := htold.entry hid hbound (fits_remap value (hslots.lt hnew)) hslot
    (Or.inr ⟨old, hnew⟩)
  rw [if_neg (hslots.below old new hnew).ne] at htold'
  have hshown : shownBy disk (delivered primaryIndex (steps ++ more)) =
      shownBy disk (delivered primaryIndex steps) ++ [((id, 0), remap value new)] := by
    rw [delivered_append, hdelivered]
    exact shownBy_concat _ _
  refine ⟨⟨w', steps ++ more, n + 0, by rw [hwriter], hdid.trans hmore, ?_,
    fun old' new' hnew' => ?_, ?_, ?_⟩, h.entities, h.known, h.others⟩
  · rw [delivered_append, hdelivered]
    exact htold'
  · rw [hshown, List.countP_append, ← Nat.add_assoc, hbalance old' new' hnew', countP_names hslot,
      Nat.add_assoc]
    refine congrArg _ (congrArg _ (if_congr ⟨?_, ?_⟩ rfl rfl))
    · rintro rfl
      exact hslots.injective _ _ _ hnew' hnew
    · rintro rfl
      exact Option.some.inj (hnew'.symm.trans hnew)
  · rw [hshown, idsOf_append, hids, idsOf_singleton]
  · rw [hshown]
    refine List.forall_mem_append.mpr
      ⟨fun e he => (horigin e he).mono (fun _ _ h => h.mono hmore.current) fun _ _ h =>
        h.mono hmore.bases, List.forall_mem_singleton.mpr ?_⟩
    exact @Origin.kept state listed slots last table _ _ _ old new hlisted hold hnew huntouched

/-- **An entity is written anew.** -/
theorem Underway.append
    (h : Underway disk here state listed slots last table start w₀ next seen ids pass)
    (hslots : Translates slots last) (hlast : w₀.slot = last) (hstores : w₀.Stores)
    (hid : next ≤ id) (hbound : id ≤ maxU64) {data : EntityData}
    (hload : (state.load table id).result = .ok (some data))
    (hhere : ∀ disk ∈ data.disk, ∀ info ∈ disk.root.manifest.files, here info) {writer : Progress}
    (rewritten : List (ℕ × ℕ))
    (hok : ((tableWriter disk storage options limit).append table id data pass.writer).result =
      .ok writer) :
    Underway disk here state listed slots last table start w₀ (id + 1) seen (ids ∪ {id})
      { pass with rewritten, writer } := by
  obtain ⟨w, steps, n, hwriter, hdid, htold, hbalance, hids, horigin⟩ := h.writer
  obtain ⟨w', happend, rfl⟩ := Progress.onTable_eq_ok (congrArg Progress.table hwriter) hok
  obtain ⟨currentAt, baseAt, more, hmore, hcurrent, hbase, hstored, hstored', hdelivered⟩ :=
    FullTableWriter.append_did (hdid.stores hstores) hhere happend
  rw [hdid.slot, hlast] at hdelivered
  have hslot : entitySlot (locate last currentAt, locate last baseAt) = .ok last := by
    rw [entitySlot_eq_ok, splitLocator_locate hslots.last_lt hcurrent,
      splitLocator_locate hslots.last_lt hbase]
    exact ⟨rfl, rfl⟩
  have htold' :=
    htold.entry hid hbound ⟨locate_lt hslots.last_lt hcurrent, locate_lt hslots.last_lt hbase⟩ hslot
    (Or.inl rfl)
  rw [if_pos rfl] at htold'
  have hshown : shownBy disk (delivered primaryIndex (steps ++ more)) =
      shownBy disk (delivered primaryIndex steps) ++
        [((id, 0), (locate last currentAt, locate last baseAt))] := by
    rw [delivered_append, hdelivered]
    exact shownBy_concat _ _
  refine ⟨⟨w', steps ++ more, n + 1, by rw [hwriter], hdid.trans hmore, ?_,
    fun old' new' hnew' => ?_, ?_, ?_⟩, h.entities, h.known, h.others⟩
  · rw [delivered_append, hdelivered]
    exact htold'
  · rw [hshown, List.countP_append, countP_names hslot, if_neg (hslots.below _ _ hnew').ne,
      Nat.add_zero]
    exact hbalance old' new' hnew'
  · rw [hshown, idsOf_append, hids, idsOf_singleton]
  · rw [hshown]
    refine List.forall_mem_append.mpr
      ⟨fun e he => (horigin e he).mono (fun _ _ h => h.mono hmore.current) fun _ _ h =>
        h.mono hmore.bases, List.forall_mem_singleton.mpr ?_⟩
    exact .anew hload hcurrent hbase hstored hstored'

/-- **A bucket is taken over** with its partition, and the history of its entities with it. -/
theorem Underway.reuse
    (h : Underway disk here state listed slots last table start w₀ next seen ids pass)
    (hslots : Translates slots last) (hprimary : Located disk state table listed)
    (hhere : ∀ info ∈ state.root.manifest.files, here info) {absorb : SortedSet ℕ}
    {generation lsn : ℕ} {generations : List GenerationInfo}
    (hrebuild : state.root.manifest.rebuildSlots absorb generation lsn = .ok (generations, slots))
    {lower upper : ℕ} (hlower : next ≤ lower) {part : Partition}
    (hpart : state.root.manifest.partitions[((table, 3, (lower, 0)) : Route)]? = some part)
    (huntouched : ∀ e ∈ listed, bucket 3 e.1 = (lower, 0) → (table, e.1.1) ∉ state.overlay)
    {writer₁ writer₂ : Progress}
    (hok₁ : ((tableWriter disk storage options limit).carryPartition table state.root
      (table, 3, (lower, 0)) slots pass.writer).result = .ok writer₁)
    (hok₂ : ((tableWriter disk storage options limit).carryPartitionHistory table state.root lower
      upper slots writer₁).result = .ok writer₂) :
    Underway disk here state listed slots last table start w₀ (lower + width)
      (fun slot => seen slot + ((listed.filter fun e => bucket 3 e.1 = (lower, 0)).map byId).countP
        fun e => names slot e.2)
      (ids ∪ idsOf (listed.filter fun e => bucket 3 e.1 = (lower, 0)))
      { pass with writer := writer₂ } := by
  obtain ⟨w, steps, n, hwriter, hdid, htold, hbalance, hids, horigin⟩ := h.writer
  obtain ⟨w₁, hcarryPartition, rfl⟩ :=
    Progress.onTable_eq_ok (congrArg Progress.table hwriter) hok₁
  rw [hpart] at hcarryPartition
  obtain ⟨part', more, hcarry, hmore, hdelivered⟩ :=
    FullTableWriter.carryPartition_did hhere hcarryPartition
  obtain ⟨w₂, hhistory, rfl⟩ := @Progress.onTable_eq_ok _ _ w₁ _ rfl hok₂
  obtain ⟨aside, haside, hnothing⟩ := FullTableWriter.carryPartitionHistory_aside hhere hhistory
  rw [if_pos rfl] at hdelivered
  have hshows := hprimary.routed.shows (lower, 0) part hpart
  have hcarried := shownEntries_eq (hshows.carry hrebuild hcarry)
  have hfile : part'.file = part.file := by rw [(Partition.carry_eq_ok hcarry).1]
  -- every entry of the partition goes to the new slot of its generation
  have hentries : ∀ e ∈ listed.filter fun e => bucket 3 e.1 = (lower, 0), ∃ old new,
      entitySlot e.2 = .ok old ∧ newSlot slots old = some new ∧
      entitySlot (Partition.carryEntry 3 slots e).2 = .ok new := by
    intro e he
    obtain ⟨stored, old, hstored, hold⟩ := hshows.slot_listed he
    obtain ⟨new, hnew⟩ := Partition.carry_slot hcarry hstored
    exact ⟨old, new, hold, hnew, entitySlot_carryEntry hold hnew (hslots.lt hnew)⟩
  have hkey (e : Entry) : (Partition.carryEntry 3 slots e).1 = e.1 := by
    rw [Partition.carryEntry, if_pos rfl]
  have hshown : shownBy disk (delivered primaryIndex (steps ++ (more ++ aside))) =
      shownBy disk (delivered primaryIndex steps) ++
        (listed.filter fun e => bucket 3 e.1 = (lower, 0)).map (Partition.carryEntry 3 slots) := by
    rw [delivered_append, delivered_append, hdelivered, hnothing, List.append_nil,
      shownBy_concat, ← hcarried]
    rfl
  have hsound : Delivery.Sound disk (shownEntries disk) table 3
      (.reuse state.root.manifest (lower, 0) part') := by
    refine ⟨?_, absorb, generation, lsn, generations, slots, part, _, hrebuild, hpart, hshows,
      hcarry, hcarried⟩
    rw [hfile]
    exact hprimary.files (lower, 0) part hpart
  have htold' := htold.reuse hlower hsound (fun e he => ?_)
    (fun old hold => (hslots.below old last hold).ne rfl)
  · refine ⟨⟨w₂, steps ++ (more ++ aside), n + (0 + 0), by rw [hwriter],
      hdid.trans (hmore.trans haside), ?_, fun old' new' hnew' => ?_, ?_, ?_⟩, h.entities, h.known,
      h.others⟩
    · rw [delivered_append, delivered_append, hdelivered, hnothing, List.append_nil]
      exact htold'
    · rw [hshown, List.countP_append, ← Nat.add_assoc, hbalance old' new' hnew', Nat.add_assoc,
        List.countP_map, List.countP_map]
      refine congrArg _ (congrArg _ (List.countP_congr fun e he => ?_))
      obtain ⟨old, new, hold, hnew, hslot⟩ := hentries e he
      rw [Function.comp_apply, Function.comp_apply, names_iff, names_iff, hslot, byId, hold]
      constructor
      · intro heq
        obtain rfl := Except.ok.inj heq
        exact congrArg _ (hslots.injective _ _ _ hnew hnew')
      · intro heq
        obtain rfl := Except.ok.inj heq
        exact congrArg _ (Option.some.inj (hnew.symm.trans hnew'))
    · rw [hshown, idsOf_append, hids]
      refine congrArg _ (Set.ext fun id => ?_)
      constructor
      · rintro ⟨e, he, rfl⟩
        obtain ⟨e', he', rfl⟩ := List.mem_map.mp he
        exact ⟨e', he', congrArg Prod.fst (hkey e').symm⟩
      · rintro ⟨e, he, rfl⟩
        exact ⟨_, List.mem_map_of_mem he, congrArg Prod.fst (hkey e)⟩
    · rw [hshown]
      refine List.forall_mem_append.mpr
        ⟨fun e he => (horigin e he).mono (fun _ _ h => ?_) fun _ _ h => ?_,
          List.forall_mem_map.mpr fun e he => ?_⟩
      · exact h.mono (hmore.current.trans haside.current)
      · exact h.mono (hmore.bases.trans haside.bases)
      · obtain ⟨old, new, hold, hnew, -⟩ := hentries e he
        obtain ⟨hmem, hbucket⟩ := List.mem_filter.mp he
        have hcarry : Partition.carryEntry 3 slots e = (e.1, remap e.2 new) := by
          rw [Partition.carryEntry, if_pos rfl, (entitySlot_eq_ok.mp hold).1, hnew]
          rfl
        rw [hcarry]
        exact .kept hmem hold hnew (huntouched e hmem (of_decide_eq_true hbucket))
  · rw [hcarried] at he
    obtain ⟨e', he', rfl⟩ := List.mem_map.mp he
    have hkey : (Partition.carryEntry 3 slots e').1 = e'.1 := by
      rw [Partition.carryEntry, if_pos rfl]
    have hmem := List.mem_of_mem_filter he'
    obtain ⟨old, new, -, hnew, hslot⟩ := hentries e' he'
    rw [hkey]
    exact ⟨hprimary.zero e' hmem, hprimary.fits e' hmem, old, new, hnew, hslot⟩

/-! ### Visits -/

section Visits

/-- The files of a view are those of some descriptions. -/
structure Store.ReadState.Here (here : FileInfo → Prop) (state : ReadState) : Prop where
  root : ∀ info ∈ state.root.manifest.files, here info
  overlay : ∀ (key : ℕ × ℕ) (data : EntityData), state.overlay[key]? = some data →
    ∀ disk ∈ data.disk, ∀ info ∈ disk.root.manifest.files, here info

/-- And so are those of an entity that is loaded. -/
theorem Store.ReadState.Here.of_load (h : state.Here here) {data : EntityData}
    (hload : (state.load table id).result = .ok (some data)) :
    ∀ disk ∈ data.disk, ∀ info ∈ disk.root.manifest.files, here info := by
  rintro disk hdisk info hinfo
  obtain ⟨-, hoverlay | ⟨-, hloaded⟩⟩ := loadCharged_result hload
  · exact h.overlay _ data hoverlay disk hdisk info hinfo
  · obtain ⟨value, -, -, -, -, -, -, -, hroot⟩ := Checkpoint.entity_result hloaded
    rw [hroot] at hdisk
    obtain rfl := Option.some.inj hdisk
    exact h.root info hinfo

/-- **What writing an entity anew does.** -/
theorem rewrite_eq_ok {w : Writer Progress}
    (hok : (w.rewrite state table id pass).result = .ok pass') :
    ∃ data writer, (state.load table id).result = .ok (some data) ∧
      (w.append table id data pass.writer).result = .ok writer ∧
      pass' = { pass with rewritten := pass.rewritten ++ [(table, id)], writer } := by
  rw [Writer.rewrite, Guarded.result_bind] at hok
  obtain ⟨loaded, hload, hok⟩ := bind_eq_ok.mp hok
  cases loaded with
  | none => cases hok
  | some data =>
    rw [Guarded.result_bind] at hok
    obtain ⟨writer, happend, hok⟩ := bind_eq_ok.mp hok
    cases hok
    exact ⟨data, writer, hload, happend, rfl⟩

theorem Underway.rewrite
    (h : Underway disk here state listed slots last table start w₀ next seen ids pass)
    (hslots : Translates slots last) (hlast : w₀.slot = last) (hstores : w₀.Stores)
    (hhere : state.Here here) (hid : next ≤ id) (hbound : id ≤ maxU64)
    (hok : ((tableWriter disk storage options limit).rewrite state table id pass).result =
      .ok pass') :
    Underway disk here state listed slots last table start w₀ (id + 1) seen (ids ∪ {id}) pass' := by
  obtain ⟨data, writer, hload, happend, rfl⟩ := rewrite_eq_ok hok
  exact h.append hslots hlast hstores hid hbound hload (hhere.of_load hload) _ happend

/-- **A visit.** -/
theorem Underway.visit
    (h : Underway disk here state listed slots last table start w₀ next seen ids pass)
    (hslots : Translates slots last) (hlast : w₀.slot = last) (hstores : w₀.Stores)
    (hhere : state.Here here) {locator : Option IndexValue}
    (hlisted : ∀ value ∈ locator, ((id, 0), value) ∈ listed) (hid : next ≤ id)
    (hbound : id ≤ maxU64)
    (hok : ((tableWriter disk storage options limit).visit state slots table id locator
      pass).result = .ok pass') :
    Underway disk here state listed slots last table start w₀ (id + 1)
      (fun slot => seen slot + locator.toList.countP (names slot)) (ids ∪ {id}) pass' := by
  cases locator with
  | none => exact h.rewrite hslots hlast hstores hhere hid hbound hok
  | some value =>
    rw [Writer.visit, Guarded.result_bind] at hok
    obtain ⟨old, hold, hok⟩ := bind_eq_ok.mp hok
    have hseen : (fun slot => seen slot + (some value).toList.countP (names slot)) =
        fun slot => seen slot + if slot = old then 1 else 0 := by
      funext slot
      rw [← @countP_names slot old (id, 0) value hold, List.countP_singleton]
      exact congrArg _ List.countP_singleton
    rw [hseen]
    split at hok
    · next hnone => exact (h.leave hnone).rewrite hslots hlast hstores hhere hid hbound hok
    · next new hnew =>
      split at hok
      · next hcarried =>
        rw [Guarded.result_bind] at hok
        obtain ⟨writer, hcarry, hok⟩ := bind_eq_ok.mp hok
        cases hok
        exact h.carry hslots hhere.root (hlisted value rfl) hold hnew hcarried.1 hid hbound hcarry
      · exact (h.bury hslots hnew _).rewrite hslots hlast hstores hhere hid hbound hok

/-- **A run of visits**, in the order of the identifiers. -/
theorem Underway.visitAll {l : List (ℕ × Option IndexValue)}
    (h : Underway disk here state listed slots last table start w₀ next seen ids pass)
    (hslots : Translates slots last) (hlast : w₀.slot = last) (hstores : w₀.Stores)
    (hhere : state.Here here)
    (hlisted : ∀ e ∈ l, ∀ value ∈ e.2, ((e.1, 0), value) ∈ listed)
    (hascending : (l.map Prod.fst).Pairwise (· < ·)) {upper : ℕ}
    (hwithin : ∀ e ∈ l, next ≤ e.1 ∧ e.1 ≤ upper) (hupper : upper ≤ maxU64)
    (hnext : next ≤ upper + 1)
    (hok : l.foldlM (fun pass e => ((tableWriter disk storage options limit).visit state slots table
      e.1 e.2 pass).result) pass = .ok pass') :
    Underway disk here state listed slots last table start w₀ (upper + 1)
      (fun slot => seen slot + (l.filterMap Prod.snd).countP (names slot))
      (ids ∪ {id | id ∈ l.map Prod.fst}) pass' := by
  induction l generalizing next seen ids pass with
  | nil =>
    cases hok
    have hids : ids ∪ {id | id ∈ ([] : List (ℕ × Option IndexValue)).map Prod.fst} = ids := by
      ext id
      simp
    rw [hids]
    exact h.mono hnext
  | cons e l ih =>
    obtain ⟨⟨hid, hle⟩, hl⟩ := List.forall_mem_cons.mp hwithin
    obtain ⟨hhead, hlisted⟩ := List.forall_mem_cons.mp hlisted
    rw [List.map_cons, List.pairwise_cons] at hascending
    rw [List.foldlM_cons] at hok
    obtain ⟨mid, hvisit, hok⟩ := bind_eq_ok.mp hok
    have hmid := h.visit hslots hlast hstores hhere hhead hid (hle.trans hupper) hvisit
    have hrest := ih hmid hlisted hascending.2
      (fun e' he' => ⟨hascending.1 e'.1 (List.mem_map_of_mem he'), (hl e' he').2⟩)
      (Nat.succ_le_succ hle) hok
    have hseen : (fun slot => seen slot + ((e :: l).filterMap Prod.snd).countP (names slot)) =
        fun slot => seen slot + e.2.toList.countP (names slot) +
          (l.filterMap Prod.snd).countP (names slot) := by
      funext slot
      rw [Nat.add_assoc, ← List.countP_append]
      refine congrArg _ (congrArg _ ?_)
      obtain ⟨id, _ | value⟩ := e <;> rfl
    have hids : ids ∪ {id | id ∈ (e :: l).map Prod.fst} =
        ids ∪ {e.1} ∪ {id | id ∈ l.map Prod.fst} := by
      rw [Set.union_assoc]
      refine congrArg _ (Set.ext fun id => ?_)
      rw [Set.mem_ofPred_eq, List.map_cons, List.mem_cons]
      rfl
    rw [hseen, hids]
    exact hrest

/-- The entities of a bucket, those that are listed and those of the overlay. -/
def Store.ReadState.within (state : ReadState) (listed : List Entry) (table lower : ℕ) : Set ℕ :=
  {id | (id ∈ idsOf listed ∨ (table, id) ∈ state.overlay) ∧
    lower ≤ id ∧ id ≤ saturatingAdd lower (width - 1)}

section Buckets

variable {entries : ℕ → List (ℕ × IndexValue)} {absorb : SortedSet ℕ}
  {generation lsn : ℕ} {generations : List GenerationInfo}
  (hindexed : Indexed state entries) (hlocated : Located disk state table listed)
  (hentries : entries table = listed.map byId)
  (hrebuild : state.root.manifest.rebuildSlots absorb generation lsn = .ok (generations, slots))
  (hslots : Translates slots last) (hlast : w₀.slot = last) (hstores : w₀.Stores)
  (hhere : state.Here here)

include hindexed hlocated hentries hrebuild hslots hlast hstores hhere

/-- **A bucket**, taken over as it is or visited. -/
theorem Underway.visitBucket {lower : ℕ}
    (h : Underway disk here state listed slots last table start w₀ next seen ids pass)
    (haligned : lower % width = 0) (hnext : next ≤ lower) (hmax : lower ≤ maxU64)
    (hok : ((tableWriter disk storage options limit).visitBucket state slots table lower
      pass).result = .ok pass') :
    Underway disk here state listed slots last table start w₀ (lower + width)
      (fun slot => seen slot +
        ((entries table).filter (inBucket lower)).countP fun e => names slot e.2)
      (ids ∪ state.within listed table lower) pass' := by
  -- an entry of the bucket has an identifier of the bucket
  have hinside (e : Entry) (he : e ∈ listed) : bucket 3 e.1 = (lower, 0) ↔
      lower ≤ e.1.1 ∧ e.1.1 ≤ saturatingAdd lower (width - 1) := by
    have hiff := @inBucket_iff lower (byId e) haligned (Nat.le_of_lt_succ (hlocated.fits e he).1)
    rw [inBucket, decide_eq_true_eq] at hiff
    rw [← show (byId e).1 = e.1.1 from rfl, hiff, bucket, bucket, if_pos rfl, if_pos rfl,
      Prod.ext_iff]
    exact and_iff_left rfl
  rw [Writer.visitBucket] at hok
  split at hok
  · next hcarries =>
    obtain ⟨part, hpart, hcarries⟩ := (Option.any_eq_true _ _).mp hcarries
    have hrecent := List.isEmpty_iff.mp ((Bool.and_eq_true _ _).mp hcarries).1
    have huntouched (id : ℕ) (hlower : lower ≤ id) (hupper : id ≤ saturatingAdd lower (width - 1)) :
        (table, id) ∉ state.overlay := fun hmem => by
      have hmem := mem_recent.mpr ⟨hmem, hlower, hupper⟩
      rw [hrecent] at hmem
      cases hmem
    rw [Guarded.result_bind] at hok
    obtain ⟨writer₁, hok₁, hok⟩ := bind_eq_ok.mp hok
    rw [Guarded.result_bind] at hok
    obtain ⟨writer₂, hok₂, hok⟩ := bind_eq_ok.mp hok
    cases hok
    have hids : state.within listed table lower =
        idsOf (listed.filter fun e => bucket 3 e.1 = (lower, 0)) := by
      ext id
      constructor
      · rintro ⟨⟨e, he, rfl⟩ | hmem, hlower, hupper⟩
        · exact ⟨e, List.mem_filter.mpr ⟨he, decide_eq_true ((hinside e he).mpr ⟨hlower, hupper⟩)⟩,
          rfl⟩
        · exact absurd hmem (huntouched id hlower hupper)
      · rintro ⟨e, he, rfl⟩
        obtain ⟨hmem, hbucket⟩ := List.mem_filter.mp he
        exact ⟨Or.inl ⟨e, hmem, rfl⟩, (hinside e hmem).mp (of_decide_eq_true hbucket)⟩
    rw [hentries, hlocated.filter_byId haligned, hids]
    refine h.reuse hslots hlocated hhere.root hrebuild hnext hpart
      (fun e he hbucket => ?_) hok₁ hok₂
    obtain ⟨hlower, hupper⟩ := (hinside e he).mp hbucket
    exact huntouched e.1.1 hlower hupper
  · have hupper : lower ≤ saturatingAdd lower (width - 1) ∧
        saturatingAdd lower (width - 1) ≤ maxU64 ∧
        saturatingAdd lower (width - 1) + 1 ≤ lower + width := by
      rw [saturatingAdd, width]
      omega
    obtain ⟨hle, hbound, hbehind⟩ := hupper
    rw [Store.ReadState.visitEntriesRange, hindexed.indexed_eq, visitEntries_eq,
      Guarded.result_foldlM] at hok
    have hascending : SortedList.Ascending Prod.fst ((entries table).filter (inBucket lower)) :=
      (List.pairwise_map.mp (hindexed.ascending table)).filter _
    have hmerged := List.pairwise_map.mpr (SortedList.merged_ascending hascending
      (recent_ascending state table lower (saturatingAdd lower (width - 1))))
    have hsome (id : ℕ) (value : IndexValue) (hmem : (id, value) ∈ entries table) :
        ((id, 0), value) ∈ listed := by
      rw [hentries] at hmem
      obtain ⟨⟨⟨id', version⟩, value'⟩, he, heq⟩ := List.mem_map.mp hmem
      obtain ⟨rfl, rfl⟩ := Prod.mk.inj heq
      have hzero : version = 0 := hlocated.zero _ he
      exact hzero ▸ he
    have hvisited := h.visitAll hslots hlast hstores hhere (fun e he value hvalue => ?_) hmerged
      (fun e he => ?_) hbound (hnext.trans (hle.trans (Nat.le_succ _))) hok
    · rw [SortedList.filterMap_merged] at hvisited
      simp only [List.countP_map] at hvisited
      have hids : state.within listed table lower =
          {id | id ∈ (SortedList.merged ((entries table).filter (inBucket lower))
            (state.recent table lower (saturatingAdd lower (width - 1)))).map Prod.fst} := by
        ext id
        rw [Set.mem_ofPred_eq, SortedList.mem_keys_merged, mem_recent]
        constructor
        · rintro ⟨⟨e, he, rfl⟩ | hmem, hwithin⟩
          · refine Or.inl (List.mem_map.mpr ⟨byId e, List.mem_filter.mpr ⟨?_, ?_⟩, rfl⟩)
            · exact hentries ▸ List.mem_map_of_mem he
            · exact decide_eq_true hwithin
          · exact Or.inr ⟨hmem, hwithin⟩
        · rintro (hmem | ⟨hmem, hwithin⟩)
          · obtain ⟨⟨id, value⟩, he, rfl⟩ := List.mem_map.mp hmem
            obtain ⟨he, hwithin⟩ := List.mem_filter.mp he
            exact ⟨Or.inl ⟨_, hsome id value he, rfl⟩, of_decide_eq_true hwithin⟩
          · exact ⟨Or.inr hmem, hwithin⟩
      rw [hids]
      exact hvisited.mono hbehind
    · obtain ⟨id, _⟩ := e
      obtain rfl := hvalue
      exact hsome id value (List.mem_of_mem_filter (SortedList.some_mem_merged.mp he))
    · rcases SortedList.mem_keys_merged.mp (List.mem_map_of_mem he) with hmem | hmem
      · obtain ⟨e', he', heq⟩ := List.mem_map.mp hmem
        have hin := of_decide_eq_true (List.mem_filter.mp he').2
        rw [← heq]
        exact ⟨hnext.trans hin.1, hin.2⟩
      · obtain ⟨-, hlower, hupper⟩ := mem_recent.mp hmem
        exact ⟨hnext.trans hlower, hupper⟩

/-- **Buckets**, one after the other. -/
theorem Underway.visitBuckets {buckets : List ℕ}
    (h : Underway disk here state listed slots last table start w₀ next seen ids pass)
    (haligned : ∀ lower ∈ buckets, lower % width = 0 ∧ next ≤ lower ∧ lower ≤ maxU64)
    (hascending : buckets.Pairwise (· < ·))
    (hok : ((tableWriter disk storage options limit).visitBuckets state slots table buckets
      pass).result = .ok pass') :
    ∃ next', Underway disk here state listed slots last table start w₀ next'
      (fun slot => seen slot + (buckets.map fun lower =>
        ((entries table).filter (inBucket lower)).countP fun e => names slot e.2).sum)
      (ids ∪ {id | ∃ lower ∈ buckets, id ∈ state.within listed table lower}) pass' := by
  induction buckets generalizing next seen ids pass with
  | nil =>
    cases hok
    have hids : ids ∪ {id | ∃ lower ∈ ([] : List ℕ), id ∈ state.within listed table lower} =
        ids := by
      ext id
      simp
    rw [hids]
    exact ⟨next, h⟩
  | cons lower buckets ih =>
    obtain ⟨⟨hlower, hnext, hmax⟩, haligned⟩ := List.forall_mem_cons.mp haligned
    obtain ⟨hbefore, hascending⟩ := List.pairwise_cons.mp hascending
    rw [Writer.visitBuckets, Guarded.result_bind] at hok
    obtain ⟨mid, hbucket, hok⟩ := bind_eq_ok.mp hok
    have hmid := h.visitBucket hindexed hlocated hentries hrebuild hslots hlast hstores hhere hlower
      hnext hmax hbucket
    -- buckets are a width apart
    have hbehind : ∀ lower' ∈ buckets,
        lower' % width = 0 ∧ lower + width ≤ lower' ∧ lower' ≤ maxU64 := by
      intro lower' hlower'
      obtain ⟨haligned', -, hmax'⟩ := haligned lower' hlower'
      have hlt := hbefore lower' hlower'
      refine ⟨haligned', ?_, hmax'⟩
      rw [width] at hlower haligned' ⊢
      omega
    have hids : ids ∪ {id | ∃ lower' ∈ lower :: buckets, id ∈ state.within listed table lower'} =
        ids ∪ state.within listed table lower ∪
          {id | ∃ lower' ∈ buckets, id ∈ state.within listed table lower'} := by
      ext id
      simp [or_assoc]
    simp only [List.map_cons, List.sum_cons, ← Nat.add_assoc]
    rw [hids]
    exact ih hmid hbehind hascending hok

end Buckets

end Visits

end Underway

end EveDB
