import EveDB.Store.Checkpoint
import Mathlib.Logic.Relation

/-!
# Generation slots

A manifest lists the generations it references, and a locator names one of them by its position
in the list (`snapshot.rs`, `storage/heap.rs`, `partitions.rs`). The next manifest leaves out the
generations it absorbs, so the others change their positions: `Root.rebuildSlots` makes the new
list and the translation from old slots to new ones.

A primary-index partition that is carried into the next manifest is not written again. It keeps
the slots its entries were written with, together with a map from these to the slots of the
manifest it is in (`Partition.slots`), and each carry sends the values of the map through the
translation (`Partition.carry`). What a reader finds through the map (`Partition.translate`) is
the generation the entry named when it was written, after any number of carries
(`Partition.translate_after_carries`).
-/

namespace EveDB

open Std Store

/-! ### Locators -/

/-- Stamps the generation slot of a manifest onto an in-file location. -/
def locate (slot location : ℕ) : ℕ := slot * 2 ^ 56 ||| location

/-- Rewrites the generation slot of a primary entry for another manifest. -/
def remap (value : IndexValue) (slot : ℕ) : IndexValue :=
  (locate slot (splitLocator value.1).2, locate slot (splitLocator value.2).2)

section Locators

variable {slot location : ℕ}

theorem splitLocator_locate (hslot : slot < 2 ^ 8) (hlocation : location < 2 ^ 56) :
    splitLocator (locate slot location) = (slot, location) := by
  have hor : locate slot location = slot * 2 ^ 56 + location := by
    rw [locate, ← Nat.shiftLeft_eq, Nat.shiftLeft_add_eq_or_of_lt hlocation]
  rw [splitLocator, hor]
  refine Prod.ext ?_ ?_
  · dsimp only
    omega
  · dsimp only
    omega

theorem splitLocator_fst_lt (locator : ℕ) : (splitLocator locator).1 < 2 ^ 8 :=
  Nat.mod_lt _ (by decide)

theorem splitLocator_snd_lt (locator : ℕ) : (splitLocator locator).2 < 2 ^ 56 :=
  Nat.mod_lt _ (by decide)

/-- **Remapping** changes the slot of both locators, and nothing else. -/
theorem splitLocator_remap (value : IndexValue) (hslot : slot < 2 ^ 8) :
    splitLocator (remap value slot).1 = (slot, (splitLocator value.1).2) ∧
      splitLocator (remap value slot).2 = (slot, (splitLocator value.2).2) :=
  ⟨splitLocator_locate hslot (splitLocator_snd_lt _),
    splitLocator_locate hslot (splitLocator_snd_lt _)⟩

theorem entitySlot_remap (value : IndexValue) (hslot : slot < 2 ^ 8) :
    entitySlot (remap value slot) = .ok slot := by
  obtain ⟨hcurrent, hbase⟩ := splitLocator_remap value hslot
  rw [entitySlot, hcurrent, hbase, if_neg (not_not.mpr rfl)]

theorem entitySlot_eq_ok {value : IndexValue} : entitySlot value = .ok slot ↔
    (splitLocator value.1).1 = slot ∧ (splitLocator value.2).1 = slot := by
  rw [entitySlot]
  constructor
  · intro h
    split at h
    · cases h
    · next hsame =>
      cases h
      exact ⟨rfl, (not_not.mp hsame).symm⟩
  · rintro ⟨rfl, hbase⟩
    rw [if_neg (not_not.mpr hbase.symm)]

/-- A locator is put together again from its parts. -/
theorem locate_splitLocator {locator : ℕ} (h : locator < 2 ^ 64) :
    locate (splitLocator locator).1 (splitLocator locator).2 = locator := by
  rw [locate, ← Nat.shiftLeft_eq, ← Nat.shiftLeft_add_eq_or_of_lt (splitLocator_snd_lt _),
    Nat.shiftLeft_eq, splitLocator]
  dsimp only
  omega

/-- An entry that keeps its slot is left as it was. -/
theorem remap_self {value : IndexValue} (hcurrent : value.1 < 2 ^ 64) (hbase : value.2 < 2 ^ 64)
    (hslot : entitySlot value = .ok slot) : remap value slot = value := by
  obtain ⟨hfirst, hsecond⟩ := entitySlot_eq_ok.mp hslot
  rw [remap]
  conv_lhs => rw [← hfirst, locate_splitLocator hcurrent, hfirst, ← hsecond,
    locate_splitLocator hbase]

end Locators

/-! ### The generations of the next manifest -/

/-- The translation of old slots: where the generations that are not absorbed come to stand. -/
def keptSlots (absorb : SortedSet ℕ) : List GenerationInfo → (kept : ℕ) → List (Option ℕ)
  | [], _ => []
  | entry :: rest, kept =>
    if absorb.contains entry.generation then none :: keptSlots absorb rest kept
    else some (kept % 2 ^ 8) :: keptSlots absorb rest (kept + 1)

/-- The generations that survive. -/
def keptGenerations (absorb : SortedSet ℕ) (generations : List GenerationInfo) :
    List GenerationInfo :=
  generations.filter fun entry => ¬ absorb.contains entry.generation

/-- The new slot of an old one, unless its generation was absorbed. -/
def newSlot (slots : List (Option ℕ)) (old : ℕ) : Option ℕ := (slots[old]?).join

namespace Root

/-- The generation list of the next manifest, and the translation of the slots of this one. -/
def rebuildSlots (root : Root) (absorb : SortedSet ℕ) (generation lsn : ℕ) :
    Result (List GenerationInfo × List (Option ℕ)) :=
  let generations := keptGenerations absorb root.generations ++ [⟨generation, lsn⟩]
  if maxSlots < generations.length then
    .error (.invalid "a manifest cannot reference more generations")
  else .ok (generations, keptSlots absorb root.generations 0)

end Root

section Kept

variable {absorb : SortedSet ℕ} {generations : List GenerationInfo} {kept old new : ℕ}

theorem newSlot_cons_zero (slot : Option ℕ) (slots : List (Option ℕ)) :
    newSlot (slot :: slots) 0 = slot := rfl

/-- **A slot that is translated** stands for the same generation in the list of survivors. -/
theorem getElem?_of_newSlot (hlen : kept + (keptGenerations absorb generations).length ≤ 2 ^ 8)
    (h : newSlot (keptSlots absorb generations kept) old = some new) :
    ∃ i, new = kept + i ∧ i < (keptGenerations absorb generations).length ∧
      (keptGenerations absorb generations)[i]? = generations[old]? := by
  induction generations generalizing kept old with
  | nil => cases h
  | cons entry rest ih =>
    by_cases habsorbed : absorb.contains entry.generation = true
    · have hkept : keptGenerations absorb (entry :: rest) = keptGenerations absorb rest :=
        List.filter_cons_of_neg (by rw [habsorbed]; decide)
      rw [keptSlots, if_pos habsorbed] at h
      rw [hkept] at hlen ⊢
      cases old with
      | zero => cases h
      | succ old => exact ih hlen h
    · have hkept : keptGenerations absorb (entry :: rest) =
          entry :: keptGenerations absorb rest :=
        List.filter_cons_of_pos (decide_eq_true habsorbed)
      rw [keptSlots, if_neg habsorbed] at h
      rw [hkept, List.length_cons] at hlen
      rw [hkept]
      cases old with
      | zero =>
        cases h
        exact ⟨0, Nat.mod_eq_of_lt (by omega), Nat.succ_pos _, rfl⟩
      | succ old =>
        obtain ⟨i, rfl, hi, hget⟩ := ih (by omega) h
        exact ⟨i + 1, by omega, Nat.succ_lt_succ hi, hget⟩

/-- A generation that is not absorbed has a new slot. -/
theorem exists_newSlot {entry : GenerationInfo} (hget : generations[old]? = some entry)
    (hkept : ¬ absorb.contains entry.generation) :
    ∃ new, newSlot (keptSlots absorb generations kept) old = some new := by
  induction generations generalizing kept old with
  | nil => cases hget
  | cons first rest ih =>
    cases old with
    | zero =>
      cases hget
      exact ⟨kept % 2 ^ 8, by rw [keptSlots, if_neg hkept, newSlot_cons_zero]⟩
    | succ old =>
      rw [keptSlots]
      split
      · exact ih hget
      · exact ih hget

end Kept

section Rebuild

variable {root : Root} {absorb : SortedSet ℕ} {generation lsn : ℕ}
  {generations : List GenerationInfo} {slots : List (Option ℕ)}

/-- What a rebuilt list is made of. -/
theorem rebuildSlots_eq (h : root.rebuildSlots absorb generation lsn = .ok (generations, slots)) :
    generations = keptGenerations absorb root.generations ++ [⟨generation, lsn⟩] ∧
      slots = keptSlots absorb root.generations 0 ∧ generations.length ≤ maxSlots := by
  rw [Root.rebuildSlots] at h
  split at h
  · cases h
  · next hlen =>
    cases h
    exact ⟨rfl, rfl, Nat.le_of_not_lt hlen⟩

/-- **A translated slot names the same generation** in the next manifest, and leaves room for
the new one. -/
theorem rebuildSlots_newSlot
    (h : root.rebuildSlots absorb generation lsn = .ok (generations, slots)) {old new : ℕ}
    (hslot : newSlot slots old = some new) :
    new + 1 < generations.length ∧ new < 2 ^ 8 ∧ generations[new]? = root.generations[old]? := by
  obtain ⟨rfl, rfl, hlen⟩ := rebuildSlots_eq h
  rw [List.length_append, List.length_singleton, maxSlots] at hlen
  obtain ⟨i, rfl, hi, hget⟩ := getElem?_of_newSlot (by omega) hslot
  rw [Nat.zero_add, List.length_append, List.length_singleton]
  refine ⟨by omega, by omega, ?_⟩
  rw [List.getElem?_append_left hi, hget]

/-- The slot of the generation that is written. -/
theorem rebuildSlots_last
    (h : root.rebuildSlots absorb generation lsn = .ok (generations, slots)) :
    generations.length - 1 < 2 ^ 8 ∧
      generations[generations.length - 1]? = some ⟨generation, lsn⟩ := by
  obtain ⟨rfl, -, hlen⟩ := rebuildSlots_eq h
  rw [List.length_append, List.length_singleton, maxSlots] at hlen
  rw [List.length_append, List.length_singleton, Nat.add_sub_cancel]
  refine ⟨by omega, ?_⟩
  rw [List.getElem?_append_right le_rfl, Nat.sub_self, List.getElem?_cons_zero]

end Rebuild

/-! ### Partitions -/

namespace Partition

/-- Translates an entry of a primary partition to the slots of the manifest. -/
def translate (part : Partition) (value : IndexValue) : Result IndexValue :=
  if part.file.kind ≠ 3 then .ok value
  else do
    let slot ← entitySlot value
    match part.slots[slot]? with
    | none => corrupt "unmapped primary partition slot"
    | some new => return remap value new

/-- The slots of a partition behind an entry that is appended to it. -/
def noteSlot (part : Partition) (value : IndexValue) : Result (BTreeMap ℕ) :=
  if part.file.kind = 3 then do
    let slot ← entitySlot value
    return part.slots.insert slot slot
  else return part.slots

/-- What the description of a partition keeps of an entry that is appended to it. -/
def note (part : Partition) (key : Key) (value : IndexValue) (dependency : Option FileId) :
    Result Partition := do
  let slots ← part.noteSlot value
  let dependencies := match dependency with
    | some file => part.dependencies.insert file
    | none => part.dependencies
  return { part with last := key, slots, dependencies }

/-- Entries appended one after the other. -/
def noteAll : List ((Key × IndexValue) × Option FileId) → Partition → Result Partition
  | [], part => .ok part
  | (entry, dependency) :: entries, part => do
    noteAll entries (← part.note entry.1 entry.2 dependency)

/-- A partition as the next manifest lists it: its slots go through the translation. -/
def carry (part : Partition) (slots : List (Option ℕ)) : Result Partition :=
  if part.slots.toList.all fun entry => (newSlot slots entry.2).isSome then
    .ok { part with slots := part.slots.map fun _ slot => (newSlot slots slot).getD 0 }
  else corrupt "reused collected partition"

section Slots

variable {part part' : Partition} {slots : List (Option ℕ)}

/-- **What a carry does**: every slot that was mapped is mapped on, and nothing else changes. -/
theorem carry_eq_ok (h : part.carry slots = .ok part') :
    part' = { part with slots := part'.slots } ∧ ∀ slot new : ℕ, part'.slots[slot]? = some new ↔
      ∃ old : ℕ, part.slots[slot]? = some old ∧ newSlot slots old = some new := by
  rw [carry] at h
  split at h
  · next hall =>
    cases h
    refine ⟨rfl, fun slot new => ?_⟩
    dsimp only
    rw [ExtTreeMap.getElem?_map, Option.map_eq_some_iff]
    refine exists_congr fun old => and_congr_right fun hold => ?_
    have hmem := ExtTreeMap.mem_toList_iff_getElem?_eq_some.mpr hold
    obtain ⟨new', hnew⟩ := Option.isSome_iff_exists.mp (List.all_eq_true.mp hall _ hmem)
    dsimp only at hnew
    rw [hnew, Option.getD_some, Option.some_inj]
  · cases h

/-- An entry that was noted has its slot in the map, where it stands for itself. -/
theorem note_eq_ok {key : Key} {value : IndexValue} {dependency : Option FileId}
    (h : part.note key value dependency = .ok part') (hkind : part.file.kind = 3) :
    part'.file = part.file ∧ ∃ slot, entitySlot value = .ok slot ∧
      part'.slots = part.slots.insert slot slot := by
  unfold note at h
  rw [noteSlot, if_pos hkind] at h
  cases hslot : entitySlot value with
  | error e =>
    rw [hslot] at h
    cases h
  | ok slot =>
    rw [hslot] at h
    cases h
    exact ⟨rfl, slot, rfl, rfl⟩

/-- What an entry does not change of a description. -/
theorem note_fields {key : Key} {value : IndexValue} {dependency : Option FileId}
    (h : part.note key value dependency = .ok part') :
    part'.file = part.file ∧ part'.lsn = part.lsn ∧ part'.base = part.base ∧
      part'.first = part.first ∧ part'.last = key := by
  unfold note at h
  cases hslots : part.noteSlot value with
  | error e =>
    rw [hslots] at h
    cases h
  | ok slots =>
    rw [hslots] at h
    cases h
    exact ⟨rfl, rfl, rfl, rfl, rfl⟩

theorem noteAll_fields {entries : List ((Key × IndexValue) × Option FileId)}
    (h : noteAll entries part = .ok part') :
    part'.file = part.file ∧ part'.lsn = part.lsn ∧ part'.base = part.base ∧
      part'.first = part.first ∧
      part'.last = (entries.getLast?.map fun entry => entry.1.1).getD part.last := by
  induction entries generalizing part with
  | nil =>
    cases h
    exact ⟨rfl, rfl, rfl, rfl, rfl⟩
  | cons entry entries ih =>
    rw [noteAll] at h
    cases hnote : part.note entry.1.1 entry.1.2 entry.2 with
    | error e =>
      rw [hnote] at h
      cases h
    | ok noted =>
      rw [hnote] at h
      obtain ⟨hfile, hlsn, hbase, hfirst, hlast⟩ := note_fields hnote
      obtain ⟨hfile', hlsn', hbase', hfirst', hlast'⟩ := ih h
      refine ⟨hfile'.trans hfile, hlsn'.trans hlsn, hbase'.trans hbase, hfirst'.trans hfirst, ?_⟩
      rw [hlast', hlast]
      cases entries with
      | nil => rfl
      | cons next entries => rw [List.getLast?_cons_cons]; rfl

/-- The slots of a description are slots. -/
theorem noteAll_slots_lt {entries : List ((Key × IndexValue) × Option FileId)}
    (h : noteAll entries part = .ok part')
    (hslots : ∀ slot new : ℕ, part.slots[slot]? = some new → new < 2 ^ 8) {slot new : ℕ}
    (hget : part'.slots[slot]? = some new) : new < 2 ^ 8 := by
  induction entries generalizing part with
  | nil =>
    cases h
    exact hslots slot new hget
  | cons entry entries ih =>
    rw [noteAll] at h
    cases hnote : part.note entry.1.1 entry.1.2 entry.2 with
    | error e =>
      rw [hnote] at h
      cases h
    | ok noted =>
      rw [hnote] at h
      refine ih h fun s n hs => ?_
      by_cases hkind : part.file.kind = 3
      · obtain ⟨-, own, hown, hinsert⟩ := note_eq_ok hnote hkind
        rw [hinsert, ExtTreeMap.getElem?_insert] at hs
        split at hs
        · cases hs
          exact (entitySlot_eq_ok.mp hown).1 ▸ splitLocator_fst_lt _
        · exact hslots s n hs
      · unfold note at hnote
        rw [noteSlot, if_neg hkind] at hnote
        cases hnote
        exact hslots s n hs

theorem noteAll_concat (entries : List ((Key × IndexValue) × Option FileId))
    (entry : (Key × IndexValue) × Option FileId) :
    noteAll (entries ++ [entry]) part =
      noteAll entries part >>= fun noted => noted.note entry.1.1 entry.1.2 entry.2 := by
  induction entries generalizing part with
  | nil =>
    rw [List.nil_append, noteAll, noteAll, ok_bind]
    cases part.note entry.1.1 entry.1.2 entry.2 <;> rfl
  | cons first entries ih =>
    rw [List.cons_append, noteAll, noteAll]
    cases part.note first.1.1 first.1.2 first.2 with
    | error e => rfl
    | ok noted => exact ih

/-- An entry is noted unless its locators name different slots. -/
theorem exists_note {key : Key} {value : IndexValue}
    (h : part.file.kind = 3 → ∃ slot, entitySlot value = .ok slot) (dependency : Option FileId) :
    ∃ part', part.note key value dependency = .ok part' := by
  unfold note
  rw [noteSlot]
  by_cases hkind : part.file.kind = 3
  · obtain ⟨slot, hslot⟩ := h hkind
    rw [if_pos hkind, hslot]
    exact ⟨_, rfl⟩
  · rw [if_neg hkind]
    exact ⟨_, rfl⟩

/-- **Every slot an entry was written with stands for itself** in the manifest it was written
for. -/
theorem noteAll_slots {entries : List ((Key × IndexValue) × Option FileId)}
    (h : noteAll entries part = .ok part') (hkind : part.file.kind = 3)
    (hself : ∀ slot new : ℕ, part.slots[slot]? = some new → new = slot ∧ slot < 2 ^ 8) :
    part'.file = part.file ∧
      (∀ slot new : ℕ, part'.slots[slot]? = some new → new = slot ∧ slot < 2 ^ 8) ∧
      (∀ slot, slot ∈ part.slots → slot ∈ part'.slots) ∧
      ∀ entry ∈ entries, ∃ slot, entitySlot entry.1.2 = .ok slot ∧ slot ∈ part'.slots := by
  induction entries generalizing part with
  | nil =>
    cases h
    exact ⟨rfl, hself, fun _ hmem => hmem, List.forall_mem_nil _⟩
  | cons entry entries ih =>
    obtain ⟨⟨key, value⟩, dependency⟩ := entry
    rw [noteAll] at h
    cases hnote : part.note key value dependency with
    | error e =>
      rw [hnote] at h
      cases h
    | ok noted =>
      rw [hnote] at h
      obtain ⟨hfile, slot, hslot, hslots⟩ := note_eq_ok hnote hkind
      have hself' : ∀ slot new : ℕ, noted.slots[slot]? = some new → new = slot ∧ slot < 2 ^ 8 := by
        intro s new hget
        rw [hslots, ExtTreeMap.getElem?_insert] at hget
        split at hget
        · next heq =>
          cases hget
          have hlt : slot < 2 ^ 8 := (entitySlot_eq_ok.mp hslot).1 ▸ splitLocator_fst_lt _
          obtain rfl : slot = s := LawfulEqOrd.eq_of_compare heq
          exact ⟨rfl, hlt⟩
        · exact hself s new hget
      obtain ⟨hfile', hself'', hkeep, hentries⟩ := ih h (hfile ▸ hkind) hself'
      have hmem : slot ∈ noted.slots := by
        rw [hslots]
        exact ExtTreeMap.mem_insert_self
      refine ⟨hfile'.trans hfile, hself'', fun s hs => hkeep s ?_, ?_⟩
      · rw [hslots]
        exact ExtTreeMap.mem_insert.mpr (Or.inr hs)
      · exact List.forall_mem_cons.mpr ⟨⟨slot, hslot, hkeep slot hmem⟩, hentries⟩

end Slots

end Partition

/-! ### Chains of checkpoints -/

/-- **A checkpoint carries the partition** of the route: it absorbs some generations, renumbers
the others, and lists the partition with its slots translated. -/
structure Carries (route : Route) (root root' : Root) : Prop where
  step : ∃ absorb slots part part',
    root.rebuildSlots absorb root'.generation root'.lsn = .ok (root'.generations, slots) ∧
    root.partitions[route]? = some part ∧ part.carry slots = .ok part' ∧
    root'.partitions[route]? = some part'

/-- **Where an entry comes from** that is written for the manifest after `old`, and the
generation it names: its entity stays in the generation it was in, or it is written anew. -/
inductive Names (old : Root) (slots : List (Option ℕ)) (generations : List GenerationInfo) :
    IndexValue → GenerationInfo → Prop
  | carried {value : IndexValue} {slot new : ℕ} {info : GenerationInfo}
      (hslot : entitySlot value = .ok slot) (hnew : newSlot slots slot = some new)
      (hinfo : old.generations[slot]? = some info) :
      Names old slots generations (remap value new) info
  | appended {current base : ℕ} {info : GenerationInfo} (hcurrent : current < 2 ^ 56)
      (hbase : base < 2 ^ 56) (hinfo : generations.getLast? = some info) :
      Names old slots generations
        (locate (generations.length - 1) current, locate (generations.length - 1) base) info

/-- **The checkpoint that wrote the partition**: its entries, and the generation each names. -/
structure Wrote (old root : Root) (route : Route)
    (entries : List ((Key × IndexValue) × Option FileId)) (named : IndexValue → GenerationInfo) :
    Prop where
  step : ∃ absorb slots part fresh,
    old.rebuildSlots absorb root.generation root.lsn = .ok (root.generations, slots) ∧
    fresh.file.kind = 3 ∧ fresh.slots = ∅ ∧ Partition.noteAll entries fresh = .ok part ∧
    root.partitions[route]? = some part ∧
    ∀ entry ∈ entries, Names old slots root.generations entry.1.2 (named entry.1.2)

section Chains

variable {old root root' : Root} {route : Route}

/-- What an entry names is in the list of the manifest it is written for, under its slot. -/
theorem Names.slot {absorb : SortedSet ℕ} {generation lsn : ℕ} {slots : List (Option ℕ)}
    {generations : List GenerationInfo} {value : IndexValue} {info : GenerationInfo}
    (h : Names old slots generations value info)
    (hrebuild : old.rebuildSlots absorb generation lsn = .ok (generations, slots)) :
    ∃ slot, entitySlot value = .ok slot ∧ generations[slot]? = some info := by
  cases h with
  | @carried value slot new info hslot hnew hinfo =>
    obtain ⟨-, hlt, hget⟩ := rebuildSlots_newSlot hrebuild hnew
    exact ⟨new, entitySlot_remap value hlt, hget.trans hinfo⟩
  | appended hcurrent hbase hinfo =>
    have hlt := (rebuildSlots_last hrebuild).1
    refine ⟨_, entitySlot_eq_ok.mpr ⟨?_, ?_⟩, List.getLast?_eq_getElem?.symm.trans hinfo⟩
    · rw [splitLocator_locate hlt hcurrent]
    · rw [splitLocator_locate hlt hbase]

/-- **The map of a carried partition** sends every slot it was written with to where the same
generation stands now. -/
structure SlotsFollow (written : List GenerationInfo) (root : Root) (part : Partition) : Prop where
  kind : part.file.kind = 3
  slots : ∀ slot new : ℕ, part.slots[slot]? = some new →
    new < 2 ^ 8 ∧ root.generations[new]? = written[slot]?

/-- One carry keeps what the map says, and drops no slot. -/
theorem Carries.follows {written : List GenerationInfo} {part : Partition}
    (h : Carries route root root') (hpart : root.partitions[route]? = some part)
    (hfollows : SlotsFollow written root part) :
    ∃ part', root'.partitions[route]? = some part' ∧ SlotsFollow written root' part' ∧
      ∀ slot ∈ part.slots, slot ∈ part'.slots := by
  obtain ⟨absorb, slots, part₀, part', hrebuild, hget, hcarry, hget'⟩ := h.step
  obtain rfl : part₀ = part := Option.some.inj (hget.symm.trans hpart)
  obtain ⟨hrest, hslots⟩ := Partition.carry_eq_ok hcarry
  refine ⟨part', hget', ⟨?_, fun slot new hnew => ?_⟩, fun slot hslot => ?_⟩
  · rw [hrest]
    exact hfollows.kind
  · obtain ⟨mid, hmid, hnew⟩ := (hslots slot new).mp hnew
    obtain ⟨-, hlt, hsame⟩ := rebuildSlots_newSlot hrebuild hnew
    exact ⟨hlt, hsame.trans (hfollows.slots slot mid hmid).2⟩
  · obtain ⟨mid, hmid⟩ := Option.isSome_iff_exists.mp (ExtTreeMap.mem_iff_isSome_getElem?.mp hslot)
    rw [Partition.carry] at hcarry
    split at hcarry
    · cases hcarry
      exact ExtTreeMap.mem_map.mpr hslot
    · cases hcarry

/-- **Any number of carries** keeps what the map says, and drops no slot. -/
theorem follows_of_carries {written : List GenerationInfo} {part : Partition}
    (hchain : Relation.ReflTransGen (Carries route) root root')
    (hpart : root.partitions[route]? = some part) (hfollows : SlotsFollow written root part) :
    ∃ part', root'.partitions[route]? = some part' ∧ SlotsFollow written root' part' ∧
      ∀ slot ∈ part.slots, slot ∈ part'.slots := by
  induction hchain with
  | refl => exact ⟨part, hpart, hfollows, fun _ h => h⟩
  | tail _ hstep ih =>
    obtain ⟨mid, hmid, hfollows', hkeep⟩ := ih
    obtain ⟨part', hpart', hfollows'', hkeep'⟩ := hstep.follows hmid hfollows'
    exact ⟨part', hpart', hfollows'', fun slot hslot => hkeep' slot (hkeep slot hslot)⟩

/-- **Slot translation survives any number of carries.** After every chain of checkpoints that
carry a primary partition, each of its entries is translated: the slot it is stored with is in
the map, the locations in the files are those it was written with, and the slot both locators
get stands in the newest manifest for the very generation the entry named when it was written. -/
theorem Partition.translate_after_carries
    {entries : List ((Key × IndexValue) × Option FileId)} {named : IndexValue → GenerationInfo}
    (hwrote : Wrote old root route entries named)
    (hchain : Relation.ReflTransGen (Carries route) root root') :
    ∃ part, root'.partitions[route]? = some part ∧ ∀ entry ∈ entries, ∃ stored slot value,
      entitySlot entry.1.2 = .ok stored ∧ part.slots[stored]? = some slot ∧
      part.translate entry.1.2 = .ok value ∧
      splitLocator value.1 = (slot, (splitLocator entry.1.2.1).2) ∧
      splitLocator value.2 = (slot, (splitLocator entry.1.2.2).2) ∧
      root'.generations[slot]? = some (named entry.1.2) := by
  obtain ⟨absorb, slots, part, fresh, hrebuild, hkind, hempty, hnotes, hpart, hnames⟩ :=
    hwrote.step
  have hfresh : ∀ slot new : ℕ, fresh.slots[slot]? = some new → new = slot ∧ slot < 2 ^ 8 := by
    intro slot new hget
    rw [hempty, ExtTreeMap.getElem?_empty] at hget
    cases hget
  obtain ⟨hfile, hself, -, hentries⟩ := Partition.noteAll_slots hnotes hkind hfresh
  have hfollows : SlotsFollow root.generations root part := by
    refine ⟨hfile ▸ hkind, fun slot new hget => ?_⟩
    obtain ⟨rfl, hlt⟩ := hself slot new hget
    exact ⟨hlt, rfl⟩
  obtain ⟨part', hpart', hfollows', hkeep⟩ := follows_of_carries hchain hpart hfollows
  refine ⟨part', hpart', fun entry hentry => ?_⟩
  obtain ⟨stored, hstored, hmem⟩ := hentries entry hentry
  obtain ⟨slot, hslot⟩ :=
    Option.isSome_iff_exists.mp (ExtTreeMap.mem_iff_isSome_getElem?.mp (hkeep stored hmem))
  obtain ⟨hlt, hsame⟩ := hfollows'.slots stored slot hslot
  obtain ⟨named', hnamed, hinfo⟩ := (hnames entry hentry).slot hrebuild
  obtain rfl : named' = stored := Except.ok.inj (hnamed.symm.trans hstored)
  obtain ⟨hcurrent, hbase⟩ := splitLocator_remap entry.1.2 hlt
  refine ⟨_, slot, remap entry.1.2 slot, hstored, hslot, ?_, hcurrent, hbase, hsame.trans hinfo⟩
  rw [Partition.translate, if_neg (not_not.mpr hfollows'.kind), hstored, ok_bind, hslot]
  rfl

/-- A partition with one entry, written in generation 1 and carried while generation 0 is
absorbed: its slot 1 has become slot 0. -/
theorem Partition.translate_after_carries_one :
    ∃ (part : Partition) (root : Root) (slot : ℕ) (value : IndexValue),
      root.generations = [⟨1, 5⟩, ⟨2, 9⟩] ∧
      root.partitions[((1, 3, (0, 0)) : Route)]? = some part ∧
      part.translate (locate 1 16, locate 1 32) = .ok value ∧
      splitLocator value.1 = (slot, 16) ∧ splitLocator value.2 = (slot, 32) ∧
      root.generations[slot]? = some ⟨1, 5⟩ := by
  let fresh : Partition :=
    { file := ⟨1, 1, 3, 0⟩
      lsn := 5
      base := 0
      first := (7, 0)
      last := (7, 0)
      slots := ∅
      dependencies := ∅ }
  let part : Partition := { fresh with slots := (∅ : BTreeMap ℕ).insert 1 1 }
  let part' : Partition :=
    { part with slots := part.slots.map fun _ slot => (newSlot [none, some 0] slot).getD 0 }
  let root : Root :=
    { Root.empty with
      generation := 1
      lsn := 5
      generations := [⟨0, 0⟩, ⟨1, 5⟩]
      partitions := (∅ : SortedMap Route Partition).insert (1, 3, (0, 0)) part }
  let root' : Root :=
    { Root.empty with
      generation := 2
      lsn := 9
      generations := [⟨1, 5⟩, ⟨2, 9⟩]
      partitions := (∅ : SortedMap Route Partition).insert (1, 3, (0, 0)) part' }
  have hnames : Names Root.empty [some 0] root.generations (locate 1 16, locate 1 32) ⟨1, 5⟩ :=
    .appended (by decide) (by decide) rfl
  have hwrote : Wrote Root.empty root (1, 3, (0, 0))
      [(((7, 0), (locate 1 16, locate 1 32)), none)] (fun _ => ⟨1, 5⟩) :=
    ⟨∅, [some 0], part, fresh, rfl, rfl, rfl, rfl, rfl, List.forall_mem_singleton.mpr hnames⟩
  have hcarries : Carries (1, 3, (0, 0)) root root' :=
    ⟨(∅ : SortedSet ℕ).insert 0, [none, some 0], part, part', rfl, rfl, rfl, rfl⟩
  obtain ⟨final, hfinal, hentries⟩ := Partition.translate_after_carries hwrote (.single hcarries)
  obtain ⟨_, slot, value, -, -, htranslate, hcurrent, hbase, hinfo⟩ :=
    hentries _ (List.mem_singleton_self _)
  exact ⟨final, root', slot, value, rfl, hfinal, htranslate, hcurrent, hbase, hinfo⟩

end Chains

end EveDB
