import Mathlib.Data.List.Induction
import EveDB.Manifest

/-!
# The page cache

What the readers of a checkpoint keep of its files (`storage/pager.rs`): decoded pages, under a
clock replacement policy, and open descriptors, the oldest of which is closed first.

The clock keeps its pages in slots, and an index of the slot of each page. A page that is used is
marked; when all slots are taken, a hand goes round, clears marks, and stops at the first slot
that is free or has none (`PageCache.evict`). Forgetting a file leaves free slots behind
(`PageCache.retain`), which the hand finds later. A slot number that does not exist, or an index
entry of a slot that is free, would be a panic; here it is a step without a result.
-/

namespace EveDB

open Std

/-- A page: its file and its number. -/
abbrev PageKey := FileId × ℕ

/-- A slot that is taken. -/
structure PageCache.Slot (α : Type) where
  key : PageKey
  value : α
  referenced : Bool

/-- **A clock replacement cache** of decoded pages. -/
structure PageCache (α : Type) where
  index : SortedMap PageKey ℕ
  slots : List (Option (PageCache.Slot α))
  hand : ℕ
  limit : ℕ
  hits : ℕ
  misses : ℕ

namespace PageCache

variable {α : Type}

/-- A cache of up to `limit` pages. -/
def new (limit : ℕ) : PageCache α where
  index := ∅
  slots := []
  hand := 0
  limit
  hits := 0
  misses := 0

variable (cache : PageCache α)

/-- The page under a key, which is marked as used. -/
def get (key : PageKey) : Option (Option α × PageCache α) :=
  match cache.index[key]? with
  | none => some (none, { cache with misses := cache.misses + 1 })
  | some position =>
    match cache.slots[position]?.join with
    | none => none
    | some slot => some (some slot.value, { cache with
        slots := cache.slots.set position (some { slot with referenced := true })
        hits := cache.hits + 1 })

/-- A slot to reuse. The hand clears marks along the way, for so many rounds at most. -/
def evict : (rounds : ℕ) → PageCache α → Option (ℕ × PageCache α)
  | 0, cache => some (cache.hand, cache)
  | rounds + 1, cache =>
    match cache.slots[cache.hand]? with
    | none => none
    | some none =>
      some (cache.hand, { cache with hand := (cache.hand + 1) % cache.slots.length })
    | some (some slot) =>
      if slot.referenced then
        evict rounds { cache with
          hand := (cache.hand + 1) % cache.slots.length
          slots := cache.slots.set cache.hand (some { slot with referenced := false }) }
      else some (cache.hand, { cache with hand := (cache.hand + 1) % cache.slots.length })

/-- Takes a slot over, and forgets the page that was there. -/
def replace (key : PageKey) (value : α) (position : ℕ) : Option (PageCache α) :=
  match cache.slots[position]? with
  | none => none
  | some previous =>
    let index := match previous with
      | some previous => cache.index.erase previous.key
      | none => cache.index
    some { cache with
      index := index.insert key position
      slots := cache.slots.set position (some { key, value, referenced := true }) }

/-- Adds a page, unless it is there. -/
def insert (key : PageKey) (value : α) : Option (PageCache α) :=
  if cache.index.contains key then some cache
  else if cache.slots.length < cache.limit then
    some { cache with
      index := cache.index.insert key cache.slots.length
      slots := cache.slots ++ [some { key, value, referenced := true }] }
  else
    match evict (cache.slots.length * 2) cache with
    | none => none
    | some (position, cache) => cache.replace key value position

/-- Takes a removed page out of the index. -/
def dropKey (keep : FileId → Bool) (index : SortedMap PageKey ℕ) (slot : Option (Slot α)) :
    SortedMap PageKey ℕ :=
  match slot with
  | some slot => if keep slot.key.1 then index else index.erase slot.key
  | none => index

/-- Keeps the pages of some files. -/
def retain (keep : FileId → Bool) : PageCache α :=
  { cache with
    index := cache.slots.foldl (dropKey keep) cache.index
    slots := cache.slots.map fun slot => slot.filter fun slot => keep slot.key.1 }

/-- Something that is done to a cache. -/
inductive Op (α : Type)
  | get (key : PageKey)
  | insert (key : PageKey) (value : α)
  | forget (matching : FileId → Bool)

/-- What an operation does. -/
def step : Op α → Option (PageCache α)
  | .get key => (cache.get key).map Prod.snd
  | .insert key value => cache.insert key value
  | .forget matching => some (cache.retain fun file => !matching file)

/-- A cache behind some operations, unless one of them panics. -/
def after (limit : ℕ) (ops : List (Op α)) : Option (PageCache α) :=
  ops.foldlM step (new limit)

/-! ### Coherence -/

/-- What the slots hold, whether it is marked or not. -/
def entries (cache : PageCache α) : List (Option (PageKey × α)) :=
  cache.slots.map (Option.map fun slot => (slot.key, slot.value))

/-- The page a key leads to. -/
def lookup (cache : PageCache α) (key : PageKey) : Option α :=
  (cache.index[key]?.bind fun position => cache.entries[position]?.join).map Prod.snd

/-- **The index and the slots agree**: a key is indexed at the slot that holds it, and only there.
A key is in one slot at most, since it is indexed once. -/
def Indexes (index : SortedMap PageKey ℕ) (entries : List (Option (PageKey × α))) : Prop :=
  ∀ (key : PageKey) (position : ℕ), index[key]? = some position ↔
    ∃ value, entries[position]? = some (some (key, value))

/-- **A coherent cache**: the index and the slots agree, there are no more slots than the limit
allows, and the hand is at one of them. -/
structure Coherent (cache : PageCache α) : Prop where
  indexes : Indexes cache.index cache.entries
  length_le : cache.slots.length ≤ cache.limit
  hand_lt : cache.hand < max cache.slots.length 1

/-- A cache that holds the same pages in the same slots. -/
structure Alike (cache cache' : PageCache α) : Prop where
  index : cache'.index = cache.index
  entries : cache'.entries = cache.entries
  limit : cache'.limit = cache.limit

section Coherence

variable {cache cache' : PageCache α} {index : SortedMap PageKey ℕ}
  {entries : List (Option (PageKey × α))} {key : PageKey} {value : α} {position limit : ℕ}

@[simp] theorem length_entries (cache : PageCache α) :
    cache.entries.length = cache.slots.length := List.length_map _

theorem getElem?_entries (cache : PageCache α) (position : ℕ) :
    cache.entries[position]? =
      cache.slots[position]?.map (Option.map fun slot => (slot.key, slot.value)) :=
  List.getElem?_map

/-- Marking a page changes nothing else. -/
theorem entries_set {slot slot' : Slot α} (hget : cache.slots[position]? = some (some slot))
    (hkey : slot'.key = slot.key) (hvalue : slot'.value = slot.value) :
    (cache.slots.set position (some slot')).map (Option.map fun slot => (slot.key, slot.value)) =
      cache.entries := by
  refine List.ext_getElem? fun i => ?_
  rw [getElem?_entries, List.getElem?_map, List.getElem?_set]
  split
  · next heq =>
    subst heq
    rw [if_pos (List.getElem?_eq_some_iff.mp hget).1, hget, Option.map_some, Option.map_some,
      Option.map_some, Option.map_some, hkey, hvalue]
  · rfl

theorem coherent_new (limit : ℕ) : (new limit : PageCache α).Coherent where
  indexes key position := by
    constructor
    · intro h
      rw [new, ExtTreeMap.getElem?_empty] at h
      cases h
    · rintro ⟨value, ⟨⟩⟩
  length_le := Nat.zero_le limit
  hand_lt := Nat.one_pos

/-- An indexed key is in one slot only. -/
theorem Indexes.unique (h : Indexes index entries) {key : PageKey} {value value' : α}
    {position position' : ℕ} (hget : entries[position]? = some (some (key, value)))
    (hget' : entries[position']? = some (some (key, value'))) : position = position' := by
  have hindex := (h key position).mpr ⟨value, hget⟩
  rw [(h key position').mpr ⟨value', hget'⟩] at hindex
  exact (Option.some.inj hindex).symm

/-- A slot that was freed, with its key out of the index. -/
theorem Indexes.erase (h : Indexes index entries)
    (hget : entries[position]? = some (some (key, value))) :
    Indexes (index.erase key) (entries.set position none) := by
  intro k i
  simp only [ExtTreeMap.getElem?_erase, List.getElem?_set, LawfulEqCmp.compare_eq_iff_eq]
  constructor
  · intro hindex
    split at hindex
    · cases hindex
    · next hne =>
      obtain ⟨v, hv⟩ := (h k i).mp hindex
      refine ⟨v, ?_⟩
      rw [if_neg, hv]
      rintro rfl
      rw [hget] at hv
      cases hv
      exact hne rfl
  · rintro ⟨v, hv⟩
    split at hv
    · split at hv <;> cases hv
    · next hi =>
      rw [if_neg, h k i]
      · exact ⟨v, hv⟩
      · rintro rfl
        exact hi (h.unique hget hv)

/-- A free slot that was filled, with its new key in the index. -/
theorem Indexes.insert (h : Indexes index entries) (hget : entries[position]? = some none)
    (hnew : index[key]? = none) (value : α) :
    Indexes (index.insert key position) (entries.set position (some (key, value))) := by
  have hlt := (List.getElem?_eq_some_iff.mp hget).1
  intro k i
  simp only [ExtTreeMap.getElem?_insert, List.getElem?_set, LawfulEqCmp.compare_eq_iff_eq]
  by_cases hi : position = i
  · -- the slot that was filled holds no other key
    subst hi
    rw [if_pos rfl, if_pos hlt]
    constructor
    · intro hindex
      split at hindex
      · next heq => exact ⟨value, by rw [heq]⟩
      · obtain ⟨v, hv⟩ := (h k position).mp hindex
        rw [hget] at hv
        cases hv
    · rintro ⟨v, ⟨⟩⟩
      rw [if_pos rfl]
  · -- and the key is in no other slot
    rw [if_neg hi]
    constructor
    · intro hindex
      split at hindex
      · exact absurd (Option.some.inj hindex) hi
      · exact (h k i).mp hindex
    · intro hv
      have hindex := (h k i).mpr hv
      rw [if_neg, hindex]
      rintro rfl
      rw [hnew] at hindex
      cases hindex

/-- One more slot, which is free. -/
theorem Indexes.concat (h : Indexes index entries) : Indexes index (entries ++ [none]) := by
  intro key position
  rw [h key position]
  constructor
  · rintro ⟨value, hget⟩
    exact ⟨value, List.getElem?_append_left (List.getElem?_eq_some_iff.mp hget).1 ▸ hget⟩
  · rintro ⟨value, hget⟩
    rw [List.getElem?_append] at hget
    split at hget
    · exact ⟨value, hget⟩
    · cases List.mem_singleton.mp (List.mem_of_getElem? hget)

/-- **A page that is indexed is there**, and the pages that are there are indexed. -/
theorem Coherent.lookup_eq (h : cache.Coherent) (key : PageKey) (value : α) :
    cache.lookup key = some value ↔
      ∃ position : ℕ, cache.entries[position]? = some (some (key, value)) := by
  rw [lookup, Option.map_eq_some_iff]
  constructor
  · rintro ⟨found, hfound, rfl⟩
    obtain ⟨position, hindex, hget⟩ := Option.bind_eq_some_iff.mp hfound
    obtain ⟨value, hvalue⟩ := (h.indexes key position).mp hindex
    rw [hvalue, Option.join_some] at hget
    obtain rfl := Option.some.inj hget
    exact ⟨position, hvalue⟩
  · rintro ⟨position, hget⟩
    refine ⟨(key, value), Option.bind_eq_some_iff.mpr ⟨position, ?_, by rw [hget]; rfl⟩, rfl⟩
    exact (h.indexes key position).mpr ⟨value, hget⟩

theorem Coherent.getElem?_eq_none (h : cache.Coherent) (key : PageKey) :
    cache.index[key]? = none ↔ cache.lookup key = none := by
  rw [Option.eq_none_iff_forall_ne_some, Option.eq_none_iff_forall_ne_some]
  constructor
  · intro hnone value hlookup
    obtain ⟨position, hget⟩ := (h.lookup_eq key value).mp hlookup
    exact hnone position ((h.indexes key position).mpr ⟨value, hget⟩)
  · intro hnone position hindex
    obtain ⟨value, hget⟩ := (h.indexes key position).mp hindex
    exact hnone value ((h.lookup_eq key value).mpr ⟨position, hget⟩)

theorem Coherent.not_mem (h : cache.Coherent) (key : PageKey) :
    key ∉ cache.index ↔ cache.lookup key = none := by
  rw [← h.getElem?_eq_none, ExtTreeMap.mem_iff_isSome_getElem?, Option.not_isSome_iff_eq_none]

theorem Alike.lookup (h : Alike cache cache') : cache'.lookup = cache.lookup := by
  funext key
  rw [PageCache.lookup, PageCache.lookup, h.index, h.entries]

theorem Alike.length (h : Alike cache cache') : cache'.slots.length = cache.slots.length := by
  rw [← length_entries, h.entries, length_entries]

theorem Coherent.of_alike (h : cache.Coherent) (halike : Alike cache cache')
    (hhand : cache'.hand < max cache.slots.length 1) : cache'.Coherent where
  indexes := by
    rw [halike.index, halike.entries]
    exact h.indexes
  length_le := by
    rw [halike.length, halike.limit]
    exact h.length_le
  hand_lt := by
    rw [halike.length]
    exact hhand

/-- **Reading a page** returns what the key leads to, and marks it. -/
theorem Coherent.get (h : cache.Coherent) (key : PageKey) :
    ∃ cache', cache.get key = some (cache.lookup key, cache') ∧ cache'.Coherent ∧
      Alike cache cache' := by
  rw [PageCache.get, lookup]
  rcases hindex : cache.index[key]? with _ | position
  · have halike : Alike cache { cache with misses := cache.misses + 1 } := ⟨rfl, rfl, rfl⟩
    exact ⟨_, rfl, h.of_alike halike h.hand_lt, halike⟩
  · obtain ⟨value, hget⟩ := (h.indexes key position).mp hindex
    rw [getElem?_entries] at hget
    obtain ⟨found, hslot, hfound⟩ := Option.map_eq_some_iff.mp hget
    obtain ⟨slot, rfl, hslot'⟩ := Option.map_eq_some_iff.mp hfound
    obtain ⟨rfl, rfl⟩ := Prod.mk.inj hslot'
    dsimp only
    rw [Option.bind_some, getElem?_entries, hslot]
    have halike : Alike cache { cache with
        slots := cache.slots.set position (some { slot with referenced := true })
        hits := cache.hits + 1 } := ⟨rfl, entries_set hslot rfl rfl, rfl⟩
    exact ⟨_, rfl, h.of_alike halike h.hand_lt, halike⟩

end Coherence

/-! ### Eviction -/

/-- The marked slots, which the hand has still to pass. -/
def marked (cache : PageCache α) : ℕ := cache.slots.countP fun slot => slot.any Slot.referenced

section Eviction

variable {cache cache' : PageCache α} {key : PageKey} {value : α} {position limit : ℕ}

theorem marked_le (cache : PageCache α) : cache.marked ≤ cache.slots.length :=
  List.countP_le_length

/-- **The hand stops**: every marked slot it passes loses its mark, so that twice round is enough.
The slot it stops at is free, or holds a page that was not used. -/
theorem evict_eq (rounds : ℕ) (cache : PageCache α) (hmarked : cache.marked < rounds)
    (hhand : cache.hand < cache.slots.length) :
    ∃ position turned slot, evict rounds cache = some (position, turned) ∧ Alike cache turned ∧
      turned.hand < cache.slots.length ∧ turned.slots[position]? = some slot ∧
      slot.any Slot.referenced = false := by
  induction rounds generalizing cache with
  | zero => exact absurd hmarked (Nat.not_lt_zero _)
  | succ rounds ih =>
    have hnext : (cache.hand + 1) % cache.slots.length < cache.slots.length :=
      Nat.mod_lt _ (Nat.zero_lt_of_lt hhand)
    have hget := List.getElem?_eq_getElem hhand
    rcases hslot : cache.slots[cache.hand] with _ | slot
    · rw [hslot] at hget
      refine ⟨cache.hand, { cache with hand := (cache.hand + 1) % cache.slots.length }, none, ?_,
        ⟨rfl, rfl, rfl⟩, hnext, hget, rfl⟩
      rw [evict, hget]
    · rw [hslot] at hget
      by_cases hreferenced : slot.referenced = true
      · -- one mark less for the rounds that are left
        obtain ⟨position, turned, slot', heq, halike, hturned, hstop, hunused⟩ := ih
          { cache with
            hand := (cache.hand + 1) % cache.slots.length
            slots := cache.slots.set cache.hand (some { slot with referenced := false }) }
          (by
            have hpos : 0 < cache.marked := List.countP_pos_iff.mpr
              ⟨some slot, List.mem_of_getElem? hget, hreferenced⟩
            rw [marked, List.countP_set hhand, hslot]
            simp only [Option.any_some, hreferenced, if_true, Bool.false_eq_true, if_false]
            rw [← marked]
            omega)
          (by rwa [List.length_set])
        rw [List.length_set] at hturned
        refine ⟨position, turned, slot', ?_, ?_, hturned, hstop, hunused⟩
        · rw [evict, hget]
          dsimp only
          rw [if_pos hreferenced, heq]
        · exact ⟨halike.index, halike.entries.trans (entries_set hget rfl rfl), halike.limit⟩
      · refine ⟨cache.hand, { cache with hand := (cache.hand + 1) % cache.slots.length }, some slot,
          ?_, ⟨rfl, rfl, rfl⟩, hnext, hget, ?_⟩
        · rw [evict, hget]
          dsimp only
          rw [if_neg hreferenced]
        · exact Bool.eq_false_iff.mpr hreferenced

/-- **Taking a slot over** puts the page there, and takes out of the index the page that was. -/
theorem Coherent.replace (h : cache.Coherent) (hnew : cache.lookup key = none) (value : α)
    (hposition : position < cache.slots.length) :
    ∃ cache', cache.replace key value position = some cache' ∧ cache'.Coherent ∧
      cache'.limit = cache.limit ∧
      cache'.entries = cache.entries.set position (some (key, value)) := by
  rw [← h.getElem?_eq_none] at hnew
  have hget := List.getElem?_eq_getElem hposition
  have hentries : (cache.slots.set position (some { key, value, referenced := true })).map
      (Option.map fun slot => (slot.key, slot.value)) =
        cache.entries.set position (some (key, value)) := List.map_set
  have hlt : position < cache.entries.length := by rwa [length_entries]
  rw [PageCache.replace, hget]
  rcases hslot : cache.slots[position] with _ | previous
  · refine ⟨_, rfl, ⟨?_, ?_, ?_⟩, rfl, hentries⟩
    · rw [PageCache.entries, hentries]
      refine h.indexes.insert ?_ hnew value
      rw [getElem?_entries, hget, hslot]
      rfl
    · rw [List.length_set]
      exact h.length_le
    · rw [List.length_set]
      exact h.hand_lt
  · refine ⟨_, rfl, ⟨?_, ?_, ?_⟩, rfl, hentries⟩
    · have hprevious : cache.entries[position]? = some (some (previous.key, previous.value)) := by
        rw [getElem?_entries, hget, hslot]
        rfl
      have habsent : (cache.index.erase previous.key)[key]? = none := by
        rw [ExtTreeMap.getElem?_erase, hnew, ite_self]
      have hinsert := (h.indexes.erase hprevious).insert (List.getElem?_set_self hlt) habsent value
      rw [PageCache.entries, hentries]
      rwa [List.set_set] at hinsert
    · rw [List.length_set]
      exact h.length_le
    · rw [List.length_set]
      exact h.hand_lt

/-- **Adding a page to a full cache**: the hand finds a slot, and the page takes it over. -/
theorem Coherent.insert_full (h : cache.Coherent) (hnew : cache.lookup key = none) (value : α)
    (hfull : cache.slots.length = cache.limit) (hlimit : 0 < cache.limit) :
    ∃ position turned slot cache', evict (cache.slots.length * 2) cache = some (position, turned) ∧
      position < cache.slots.length ∧ turned.slots[position]? = some slot ∧
        slot.any Slot.referenced = false ∧
      cache.insert key value = some cache' ∧ cache'.Coherent ∧ cache'.limit = cache.limit ∧
      cache'.entries = cache.entries.set position (some (key, value)) := by
  have hhand : cache.hand < cache.slots.length := by
    have := h.hand_lt
    omega
  have hmarked := cache.marked_le
  obtain ⟨position, turned, slot, hevict, halike, hturned, hslot, hunused⟩ :=
    evict_eq (cache.slots.length * 2) cache (by omega) hhand
  have hcoherent := h.of_alike halike (hturned.trans_le (le_max_left _ 1))
  have hlt := (List.getElem?_eq_some_iff.mp hslot).1
  obtain ⟨cache', hreplace, hcoherent', hlimit', hentries⟩ := hcoherent.replace
    (by rw [halike.lookup, hnew]) value hlt
  rw [halike.length] at hlt
  refine ⟨position, turned, slot, cache', hevict, hlt, hslot, hunused, ?_, hcoherent',
    hlimit'.trans halike.limit, by rw [hentries, halike.entries]⟩
  have habsent : key ∉ cache.index := (h.not_mem key).mpr hnew
  rw [PageCache.insert, if_neg (by rwa [ExtTreeMap.contains_iff_mem]), if_neg (by omega), hevict]
  exact hreplace

/-- **Adding a page while there is room** takes a slot more. -/
theorem Coherent.insert_grow (h : cache.Coherent) (hnew : cache.lookup key = none) (value : α)
    (hroom : cache.slots.length < cache.limit) :
    ∃ cache', cache.insert key value = some cache' ∧ cache'.Coherent ∧
      cache'.limit = cache.limit ∧ cache'.entries = cache.entries ++ [some (key, value)] := by
  have habsent : key ∉ cache.index := (h.not_mem key).mpr hnew
  have hentries : (cache.slots ++ [some (⟨key, value, true⟩ : Slot α)]).map
      (Option.map fun slot => (slot.key, slot.value)) = cache.entries ++ [some (key, value)] :=
    List.map_append
  rw [PageCache.insert, if_neg (by rwa [ExtTreeMap.contains_iff_mem]), if_pos hroom]
  refine ⟨_, rfl, ⟨?_, ?_, ?_⟩, rfl, hentries⟩
  · -- the new slot is one that was free, and is filled
    have hfree : (cache.entries ++ [none])[cache.slots.length]? = some none := by
      rw [← length_entries, List.getElem?_concat_length]
    have hinsert := h.indexes.concat.insert hfree ((h.getElem?_eq_none key).mpr hnew) value
    rw [List.set_append_right _ _ (by rw [length_entries]), length_entries, Nat.sub_self] at hinsert
    rw [PageCache.entries, hentries]
    exact hinsert
  · rw [List.length_append]
    exact hroom
  · rw [List.length_append, List.length_singleton]
    exact h.hand_lt.trans_le (max_le_max (Nat.le_succ _) le_rfl)

theorem insert_of_lookup (h : cache.Coherent) (hthere : cache.lookup key ≠ none) (value : α) :
    cache.insert key value = some cache := by
  rw [PageCache.insert, if_pos]
  rw [ExtTreeMap.contains_iff_mem]
  exact not_not.mp fun habsent => hthere ((h.not_mem key).mp habsent)

end Eviction

/-! ### Forgetting -/

section Forgetting

variable {cache : PageCache α}

theorem getElem?_dropKey (keep : FileId → Bool) (index : SortedMap PageKey ℕ)
    (slot : Option (Slot α)) (key : PageKey) (position : ℕ) :
    (dropKey keep index slot)[key]? = some position ↔ index[key]? = some position ∧
      (keep key.1 = false → ∀ removed, slot = some removed → removed.key ≠ key) := by
  rcases slot with _ | slot
  · exact ⟨fun h => ⟨h, fun _ removed hremoved => by cases hremoved⟩, And.left⟩
  · rw [dropKey]
    split
    · next hkeep =>
      refine ⟨fun h => ⟨h, ?_⟩, And.left⟩
      rintro hdropped removed ⟨⟩ rfl
      rw [hkeep] at hdropped
      cases hdropped
    · next hdropped =>
      simp only [ExtTreeMap.getElem?_erase, LawfulEqCmp.compare_eq_iff_eq]
      constructor
      · intro h
        split at h
        · cases h
        · next hne =>
          refine ⟨h, ?_⟩
          rintro - removed ⟨⟩
          exact hne
      · rintro ⟨h, hother⟩
        rw [if_neg, h]
        rintro rfl
        exact hother (Bool.eq_false_iff.mpr hdropped) slot rfl rfl

/-- **Forgetting drops the keys of the slots it frees**, one slot after the other. -/
theorem getElem?_foldl_dropKey (keep : FileId → Bool) (slots : List (Option (Slot α)))
    (index : SortedMap PageKey ℕ) (key : PageKey) (position : ℕ) :
    (slots.foldl (dropKey keep) index)[key]? = some position ↔ index[key]? = some position ∧
      (keep key.1 = false → ∀ removed, some removed ∈ slots → removed.key ≠ key) := by
  induction slots generalizing index with
  | nil => exact ⟨fun h => ⟨h, fun _ removed hmem => by cases hmem⟩, And.left⟩
  | cons slot slots ih =>
    rw [List.foldl_cons, ih, getElem?_dropKey]
    constructor
    · rintro ⟨⟨hindex, hslot⟩, hslots⟩
      refine ⟨hindex, fun hdropped removed hmem => ?_⟩
      rcases List.mem_cons.mp hmem with heq | hmem
      · exact hslot hdropped removed heq.symm
      · exact hslots hdropped removed hmem
    · rintro ⟨hindex, hall⟩
      exact ⟨⟨hindex, fun hdropped removed heq => hall hdropped removed (heq ▸ List.mem_cons_self)⟩,
        fun hdropped removed hmem => hall hdropped removed (List.mem_cons_of_mem slot hmem)⟩

theorem entries_retain (keep : FileId → Bool) (cache : PageCache α) :
    (cache.retain keep).entries =
      cache.entries.map fun entry => entry.filter fun entry => keep entry.1.1 := by
  rw [entries, retain, entries, List.map_map, List.map_map]
  refine List.map_congr_left fun slot _ => ?_
  rcases slot with _ | slot
  · rfl
  · rw [Function.comp_apply, Function.comp_apply, Option.map_some, Option.filter_some,
      Option.filter_some]
    split <;> rfl

/-- **Forgetting files keeps the other pages**, and frees the slots of theirs. -/
theorem Coherent.retain (h : cache.Coherent) (keep : FileId → Bool) :
    (cache.retain keep).Coherent ∧ ∀ key, (cache.retain keep).lookup key =
      if keep key.1 then cache.lookup key else none := by
  have hget (key : PageKey) (position : ℕ) (value : α) :
      (cache.retain keep).entries[position]? = some (some (key, value)) ↔
        cache.entries[position]? = some (some (key, value)) ∧ keep key.1 := by
    rw [entries_retain, List.getElem?_map, Option.map_eq_some_iff]
    constructor
    · rintro ⟨entry, hentry, hfilter⟩
      obtain ⟨rfl, hkeep⟩ := Option.filter_eq_some_iff.mp hfilter
      exact ⟨hentry, hkeep⟩
    · rintro ⟨hentry, hkeep⟩
      exact ⟨_, hentry, Option.filter_eq_some_iff.mpr ⟨rfl, hkeep⟩⟩
  have hcoherent : (cache.retain keep).Coherent := by
    refine ⟨fun key position => ?_, ?_, ?_⟩
    · refine (getElem?_foldl_dropKey keep cache.slots cache.index key position).trans ?_
      rw [h.indexes key position]
      constructor
      · rintro ⟨⟨value, hentry⟩, hdropped⟩
        refine ⟨value, (hget key position value).mpr ⟨hentry, ?_⟩⟩
        by_contra hkeep
        rw [getElem?_entries] at hentry
        obtain ⟨found, hslot, hfound⟩ := Option.map_eq_some_iff.mp hentry
        obtain ⟨slot, rfl, hslot'⟩ := Option.map_eq_some_iff.mp hfound
        obtain ⟨rfl, rfl⟩ := Prod.mk.inj hslot'
        exact hdropped (Bool.eq_false_iff.mpr hkeep) slot (List.mem_of_getElem? hslot) rfl
      · rintro ⟨value, hentry⟩
        obtain ⟨hentry, hkeep⟩ := (hget key position value).mp hentry
        exact ⟨⟨value, hentry⟩, fun hdropped => by rw [hkeep] at hdropped; cases hdropped⟩
    · rw [PageCache.retain, List.length_map]
      exact h.length_le
    · rw [PageCache.retain, List.length_map]
      exact h.hand_lt
  refine ⟨hcoherent, fun key => Option.ext fun value => ?_⟩
  rw [hcoherent.lookup_eq]
  split
  · next hkeep =>
    rw [h.lookup_eq]
    exact ⟨fun ⟨position, hentry⟩ => ⟨position, ((hget key position value).mp hentry).1⟩,
      fun ⟨position, hentry⟩ => ⟨position, (hget key position value).mpr ⟨hentry, hkeep⟩⟩⟩
  · next hdropped =>
    constructor
    · rintro ⟨position, hentry⟩
      exact absurd ((hget key position value).mp hentry).2 hdropped
    · rintro ⟨⟩

end Forgetting

/-! ### Runs -/

/-- A key is indexed behind some operations. -/
def Cached (limit : ℕ) (ops : List (Op α)) (key : PageKey) : Prop :=
  ∃ cache, after limit ops = some cache ∧ key ∈ cache.index

/-- **The current entry of a key**: an insertion made it, when the key was not there, and the key
has been there ever since. -/
def Lasting (limit : ℕ) (ops : List (Op α)) (key : PageKey) (value : α) : Prop :=
  ∃ before rest, ops = before ++ .insert key value :: rest ∧ ¬Cached limit before key ∧
    ∀ n, Cached limit (before ++ .insert key value :: rest.take n) key

/-- **What an operation does to the pages**: those that are there behind it were there, or it is
their insertion. -/
structure Turns (op : Op α) (cache cache' : PageCache α) : Prop where
  coherent : cache'.Coherent
  limit : cache'.limit = cache.limit
  lookup : ∀ key value, cache'.lookup key = some value ↔ cache'.lookup key ≠ none ∧
    (cache.lookup key = some value ∨ op = .insert key value ∧ cache.lookup key = none)

section Runs

variable {cache cache' : PageCache α} {op : Op α} {ops : List (Op α)} {key : PageKey} {value : α}
  {limit position : ℕ}

/-- A page that was there before. -/
theorem lookup_iff_of_kept {found found' : Option α} {p : Prop}
    (h : ∀ v, found' = some v → found = some v) :
    found' = some value ↔ found' ≠ none ∧ (found = some value ∨ p ∧ found = none) := by
  constructor
  · intro hvalue
    exact ⟨by rw [hvalue]; exact Option.some_ne_none value, .inl (h value hvalue)⟩
  · rintro ⟨hthere, hfound⟩
    obtain ⟨v, hv⟩ := Option.ne_none_iff_exists'.mp hthere
    rcases hfound with hfound | ⟨-, hnone⟩
    · rw [hv, ← h v hv, hfound]
    · rw [h v hv] at hnone
      cases hnone

theorem Coherent.lookup_eq_some_iff_mem (h : cache.Coherent) (key : PageKey) (value : α) :
    cache.lookup key = some value ↔ some (key, value) ∈ cache.entries := by
  rw [h.lookup_eq, List.mem_iff_getElem?]

/-- **An insertion** into one slot, whatever was there. -/
theorem Coherent.turns_insert (h : cache.Coherent) (h' : cache'.Coherent)
    (hlimit : cache'.limit = cache.limit) (hnew : cache.lookup key = none)
    (hmem : some (key, value) ∈ cache'.entries)
    (hkept : ∀ entry, some entry ∈ cache'.entries →
      entry = (key, value) ∨ some entry ∈ cache.entries) :
    Turns (.insert key value) cache cache' := by
  refine ⟨h', hlimit, fun k v => ?_⟩
  by_cases hk : k = key
  · subst hk
    rw [(h'.lookup_eq_some_iff_mem k value).mpr hmem, hnew]
    constructor
    · rintro ⟨⟩
      exact ⟨Option.some_ne_none _, .inr ⟨rfl, rfl⟩⟩
    · rintro ⟨-, hv | ⟨heq, -⟩⟩
      · cases hv
      · cases heq
        rfl
  · refine lookup_iff_of_kept fun v hv => ?_
    rw [h'.lookup_eq_some_iff_mem] at hv
    rcases hkept (k, v) hv with heq | hold
    · exact absurd (Prod.mk.inj heq).1 hk
    · exact (h.lookup_eq_some_iff_mem k v).mpr hold

theorem Coherent.insert (h : cache.Coherent) (hlimit : 0 < cache.limit) (key : PageKey)
    (value : α) :
    ∃ cache', cache.insert key value = some cache' ∧ Turns (.insert key value) cache cache' := by
  by_cases hnew : cache.lookup key = none
  · rcases h.length_le.lt_or_eq with hroom | hfull
    · obtain ⟨cache', heq, h', hlimit', hentries⟩ := h.insert_grow hnew value hroom
      refine ⟨cache', heq, h.turns_insert h' hlimit' hnew ?_ ?_⟩
      · rw [hentries]
        exact List.mem_append_right _ (List.mem_singleton_self _)
      · intro entry hentry
        rw [hentries] at hentry
        rcases List.mem_append.mp hentry with hold | hadded
        · exact .inr hold
        · exact .inl (Option.some.inj (List.mem_singleton.mp hadded))
    · obtain ⟨position, -, -, cache', -, hlt, -, -, heq, h', hlimit', hentries⟩ :=
        h.insert_full hnew value hfull hlimit
      refine ⟨cache', heq, h.turns_insert h' hlimit' hnew ?_ ?_⟩
      · rw [hentries]
        exact List.mem_set (hlt.trans_eq (length_entries cache).symm) _
      · intro entry hentry
        rw [hentries] at hentry
        rcases List.mem_or_eq_of_mem_set hentry with hold | hadded
        · exact .inr hold
        · exact .inl (Option.some.inj hadded)
  · refine ⟨cache, insert_of_lookup h hnew value, h, rfl, fun k v => ?_⟩
    exact lookup_iff_of_kept fun v hv => hv

/-- **No operation panics**, and each leaves a coherent cache. -/
theorem Coherent.step (h : cache.Coherent) (hlimit : 0 < cache.limit) (op : Op α) :
    ∃ cache', cache.step op = some cache' ∧ Turns op cache cache' := by
  match op with
  | .get key =>
    obtain ⟨cache', heq, h', halike⟩ := h.get key
    refine ⟨cache', by rw [PageCache.step, heq]; rfl, h', halike.limit, fun k v => ?_⟩
    rw [halike.lookup]
    exact lookup_iff_of_kept fun v hv => hv
  | .insert key value => exact h.insert hlimit key value
  | .forget matching =>
    obtain ⟨h', hlookup⟩ := h.retain fun file => !matching file
    refine ⟨_, rfl, h', rfl, fun k v => lookup_iff_of_kept fun v hv => ?_⟩
    rw [hlookup] at hv
    split at hv
    · exact hv
    · cases hv

theorem after_concat (limit : ℕ) (ops : List (Op α)) (op : Op α) :
    after limit (ops ++ [op]) = (after limit ops).bind fun cache => cache.step op := by
  rw [after, List.foldlM_append]
  exact congrArg _ (funext fun cache => bind_pure (cache.step op))

theorem cached_iff (hafter : after limit ops = some cache) (h : cache.Coherent) :
    Cached limit ops key ↔ cache.lookup key ≠ none := by
  rw [Cached, hafter, ← not_iff_not, not_not, ← h.not_mem]
  constructor
  · rintro hnone hmem
    exact hnone ⟨cache, rfl, hmem⟩
  · rintro habsent ⟨_, ⟨⟩, hmem⟩
    exact habsent hmem

/-- The current entry of a key, one operation later. -/
theorem lasting_concat : Lasting limit (ops ++ [op]) key value ↔ Cached limit (ops ++ [op]) key ∧
    (Lasting limit ops key value ∨ op = .insert key value ∧ ¬Cached limit ops key) := by
  constructor
  · rintro ⟨before, rest, heq, hnew, hlast⟩
    rcases List.eq_nil_or_concat' rest with rfl | ⟨rest, last, rfl⟩
    · obtain ⟨rfl, hop⟩ := List.append_inj' heq rfl
      obtain rfl := List.singleton_inj.mp hop
      exact ⟨hlast 0, .inr ⟨rfl, hnew⟩⟩
    · rw [← List.cons_append, ← List.append_assoc] at heq
      obtain ⟨rfl, hop⟩ := List.append_inj' heq rfl
      obtain rfl := List.singleton_inj.mp hop
      refine ⟨?_, .inl ⟨before, rest, rfl, hnew, fun n => ?_⟩⟩
      · have hall := hlast (rest ++ [op]).length
        rwa [List.take_length, ← List.cons_append, ← List.append_assoc] at hall
      · have hn := hlast (min n rest.length)
        rwa [List.take_append_of_le_length (Nat.min_le_right _ _), ← List.take_eq_take_min] at hn
  · rintro ⟨hcached, ⟨before, rest, rfl, hnew, hlast⟩ | ⟨rfl, hnew⟩⟩
    · refine ⟨before, rest ++ [op], by rw [List.append_assoc, List.cons_append], hnew, fun n => ?_⟩
      rcases Nat.lt_or_ge rest.length n with hlt | hle
      · rw [List.take_of_length_le (by rw [List.length_append, List.length_singleton]; omega)]
        rwa [List.append_assoc, List.cons_append] at hcached
      · rw [List.take_append_of_le_length hle]
        exact hlast n
    · refine ⟨ops, [], rfl, hnew, fun n => ?_⟩
      rwa [List.take_nil]

/-- **The run of a cache**: it never panics, it stays coherent, and a key leads to its current
entry. -/
theorem coherent_after (hlimit : 0 < limit) (ops : List (Op α)) :
    ∃ cache, after limit ops = some cache ∧ cache.Coherent ∧ cache.limit = limit ∧
      ∀ key value, cache.lookup key = some value ↔ Lasting limit ops key value := by
  induction ops using List.reverseRecOn with
  | nil =>
    refine ⟨new limit, rfl, coherent_new limit, rfl, fun key value => ?_⟩
    rw [(coherent_new limit).lookup_eq_some_iff_mem]
    constructor
    · rintro ⟨⟩
    · rintro ⟨before, rest, heq, -⟩
      exact absurd heq.symm (List.append_ne_nil_of_right_ne_nil _ (List.cons_ne_nil _ _))
  | append_singleton ops op ih =>
    obtain ⟨cache, hafter, h, hlimit', hlasting⟩ := ih
    obtain ⟨cache', hstep, hturns⟩ := h.step (by rwa [hlimit']) op
    have hafter' : after limit (ops ++ [op]) = some cache' := by
      rw [after_concat, hafter, Option.bind_some, hstep]
    refine ⟨cache', hafter', hturns.coherent, hturns.limit.trans hlimit', fun key value => ?_⟩
    rw [hturns.lookup, lasting_concat, cached_iff hafter' hturns.coherent, cached_iff hafter h,
      not_not, hlasting]

/-- No more pages are indexed than there are slots. -/
theorem Coherent.size_le (h : cache.Coherent) : cache.index.size ≤ cache.slots.length := by
  have hindexed (entry : PageKey × ℕ) (hentry : entry ∈ cache.index.toList) :
      ∃ value, cache.entries[entry.2]? = some (some (entry.1, value)) :=
    (h.indexes entry.1 entry.2).mp (ExtTreeMap.mem_toList_iff_getElem?_eq_some.mp hentry)
  have hnodup : (cache.index.toList.map Prod.snd).Nodup := by
    refine List.Nodup.map_on ?_ (SortedMap.nodup_toList cache.index)
    rintro ⟨key, position⟩ hentry ⟨key', position'⟩ hentry' rfl
    -- one slot holds one key
    obtain ⟨value, hget⟩ := hindexed _ hentry
    obtain ⟨value', hget'⟩ := hindexed _ hentry'
    rw [hget] at hget'
    cases hget'
    rfl
  have hsubset : cache.index.toList.map Prod.snd ⊆ List.range cache.slots.length := by
    intro position hposition
    obtain ⟨entry, hentry, rfl⟩ := List.mem_map.mp hposition
    obtain ⟨value, hget⟩ := hindexed entry hentry
    rw [List.mem_range, ← length_entries]
    exact (List.getElem?_eq_some_iff.mp hget).1
  have hle := hnodup.length_le_of_subset hsubset
  rwa [List.length_map, ExtTreeMap.length_toList, List.length_range] at hle

/-- **The key a slot was taken from** is not indexed any more. -/
theorem Coherent.not_mem_of_set (h : cache.Coherent) (h' : cache'.Coherent)
    (hnew : cache.lookup key = none) {former : PageKey × α}
    (hformer : cache.entries[position]? = some (some former))
    (hentries : cache'.entries = cache.entries.set position (some (key, value))) :
    former.1 ∉ cache'.index := by
  rw [h'.not_mem, Option.eq_none_iff_forall_ne_some]
  intro v hv
  obtain ⟨i, hi⟩ := (h'.lookup_eq former.1 v).mp hv
  rw [hentries, List.getElem?_set] at hi
  split at hi
  · next heq =>
    split at hi
    · cases hi
      rw [(h.lookup_eq former.1 former.2).mpr ⟨position, hformer⟩] at hnew
      cases hnew
    · cases hi
  · next hne => exact hne (h.indexes.unique hformer hi)

end Runs

end PageCache

/-! ### Descriptors -/

/-- **The open descriptors**, the oldest first. -/
structure FileCache (φ : Type) where
  openFiles : SortedMap FileId φ
  order : List FileId
  limit : ℕ

namespace FileCache

variable {φ : Type}

/-- A cache of up to `limit` descriptors. -/
def new (limit : ℕ) : FileCache φ where
  openFiles := ∅
  order := []
  limit

/-- Closes the oldest descriptors until there is room for one. -/
def makeRoom (limit : ℕ) : List FileId → SortedMap FileId φ → List FileId × SortedMap FileId φ
  | [], openFiles => ([], openFiles)
  | evicted :: order, openFiles =>
    if limit ≤ order.length + 1 then makeRoom limit order (openFiles.erase evicted)
    else (evicted :: order, openFiles)

variable (cache : FileCache φ)

/-- Adds a descriptor, once there is room for it. -/
def insert (id : FileId) (file : φ) : FileCache φ :=
  let room := makeRoom cache.limit cache.order cache.openFiles
  { cache with openFiles := room.2.insert id file, order := room.1 ++ [id] }

/-- The descriptor of a file, which is opened unless it is there. -/
def file (id : FileId) (opened : Result φ) : Result φ × FileCache φ :=
  match cache.openFiles[id]? with
  | some file => (.ok file, cache)
  | none =>
    match opened with
    | .error e => (.error e, cache)
    | .ok file => (.ok file, cache.insert id file)

/-- Closes the descriptors of some files. -/
def forget (matching : FileId → Bool) : FileCache φ :=
  let openFiles := cache.openFiles.filter fun id _ => !matching id
  { cache with openFiles, order := cache.order.filter fun id => openFiles.contains id }

/-- Something that is done to the descriptors. -/
inductive Op (φ : Type)
  | file (id : FileId) (opened : Result φ)
  | forget (matching : FileId → Bool)

/-- What an operation does. -/
def step : Op φ → FileCache φ
  | .file id opened => (cache.file id opened).2
  | .forget matching => cache.forget matching

/-- The descriptors behind some operations. -/
def after (limit : ℕ) (ops : List (Op φ)) : FileCache φ := ops.foldl step (new limit)

/-- **The table and the order list agree**: they hold the same files, each once, and no more of
them than the limit. -/
structure Coherent (cache : FileCache φ) : Prop where
  nodup : cache.order.Nodup
  mem_iff : ∀ id, id ∈ cache.order ↔ id ∈ cache.openFiles
  length_le : cache.order.length ≤ cache.limit

section Coherence

variable {cache : FileCache φ} {limit : ℕ}

/-- **There is room**, once the oldest descriptors are closed, in the list and in the table. -/
theorem makeRoom_eq (hlimit : 0 < limit) (order : List FileId) (openFiles : SortedMap FileId φ)
    (hnodup : order.Nodup) (hmem : ∀ id, id ∈ order ↔ id ∈ openFiles) :
    (makeRoom limit order openFiles).1.Nodup ∧ (makeRoom limit order openFiles).1 ⊆ order ∧
      (∀ id, id ∈ (makeRoom limit order openFiles).1 ↔ id ∈ (makeRoom limit order openFiles).2) ∧
      (makeRoom limit order openFiles).1.length < limit := by
  induction order generalizing openFiles with
  | nil => exact ⟨hnodup, List.Subset.refl _, hmem, hlimit⟩
  | cons evicted order ih =>
    rw [makeRoom]
    split
    · -- the oldest is closed, and taken out of both
      obtain ⟨hevicted, hnodup⟩ := List.nodup_cons.mp hnodup
      obtain ⟨hroom, hsub, hsame, hlt⟩ := ih (openFiles.erase evicted) hnodup fun id => by
        rw [ExtTreeMap.mem_erase, ← hmem id, ne_eq, LawfulEqCmp.compare_eq_iff_eq,
          List.mem_cons]
        constructor
        · intro hid
          exact ⟨fun heq => hevicted (heq ▸ hid), .inr hid⟩
        · rintro ⟨hne, rfl | hid⟩
          · exact absurd rfl hne
          · exact hid
      exact ⟨hroom, List.subset_cons_of_subset evicted hsub, hsame, hlt⟩
    · next hlt =>
      refine ⟨hnodup, List.Subset.refl _, hmem, ?_⟩
      rw [List.length_cons]
      omega

theorem Coherent.insert (h : cache.Coherent) (hlimit : 0 < cache.limit) {id : FileId}
    (hnew : id ∉ cache.openFiles) (file : φ) : (cache.insert id file).Coherent := by
  obtain ⟨hnodup, hsub, hsame, hlt⟩ :=
    makeRoom_eq hlimit cache.order cache.openFiles h.nodup h.mem_iff
  refine ⟨?_, fun other => ?_, ?_⟩
  · refine List.Nodup.append hnodup (List.nodup_singleton id) ?_
    rintro other hother hid
    obtain rfl := List.mem_singleton.mp hid
    exact hnew ((h.mem_iff other).mp (hsub hother))
  · rw [FileCache.insert, List.mem_append, List.mem_singleton, ExtTreeMap.mem_insert,
      LawfulEqCmp.compare_eq_iff_eq, hsame, or_comm, eq_comm]
  · rw [FileCache.insert, List.length_append, List.length_singleton]
    exact hlt

theorem Coherent.forget (h : cache.Coherent) (matching : FileId → Bool) :
    (cache.forget matching).Coherent := by
  refine ⟨h.nodup.filter _, fun id => ?_, (List.length_filter_le _ _).trans h.length_le⟩
  rw [FileCache.forget, List.mem_filter, ExtTreeMap.contains_iff_mem, h.mem_iff]
  exact ⟨And.right, fun hid => ⟨ExtTreeMap.mem_of_mem_filter hid, hid⟩⟩

/-- A file that is open already, or cannot be opened, leaves the descriptors as they are. -/
theorem file_eq (cache : FileCache φ) (id : FileId) (opened : Result φ) :
    (cache.file id opened).2 = cache ∨
      ∃ file, id ∉ cache.openFiles ∧ (cache.file id opened).2 = cache.insert id file := by
  rcases hget : cache.openFiles[id]? with _ | found
  · rcases opened with e | opened
    · left
      simp only [file, hget]
    · refine .inr ⟨opened, ?_, by simp only [file, hget]⟩
      rw [ExtTreeMap.mem_iff_isSome_getElem?, hget]
      exact Bool.false_ne_true
  · left
    simp only [file, hget]

/-- An operation keeps the table and the order list in agreement. -/
theorem Coherent.step (h : cache.Coherent) (hlimit : 0 < cache.limit) (op : Op φ) :
    (cache.step op).Coherent ∧ (cache.step op).limit = cache.limit := by
  match op with
  | .forget matching => exact ⟨h.forget matching, rfl⟩
  | .file id opened =>
    rw [FileCache.step]
    rcases cache.file_eq id opened with heq | ⟨file, hnew, heq⟩
    · rw [heq]
      exact ⟨h, rfl⟩
    · rw [heq]
      exact ⟨h.insert hlimit hnew file, rfl⟩

/-- **A run of opens and forgets** keeps the table and the order list in agreement. -/
theorem coherent_after (hlimit : 0 < limit) (ops : List (Op φ)) :
    (after limit ops).Coherent ∧ (after limit ops).limit = limit := by
  have hrun (cache : FileCache φ) (h : cache.Coherent) (hpos : 0 < cache.limit) :
      (ops.foldl step cache).Coherent ∧ (ops.foldl step cache).limit = cache.limit := by
    induction ops generalizing cache with
    | nil => exact ⟨h, rfl⟩
    | cons op ops ih =>
      obtain ⟨hstep, hlimit'⟩ := h.step hpos op
      obtain ⟨hops, hlimit''⟩ := ih _ hstep (by rwa [hlimit'])
      exact ⟨hops, hlimit''.trans hlimit'⟩
  refine hrun (new limit) ⟨List.nodup_nil, fun id => ?_, Nat.zero_le limit⟩ hlimit
  rw [new, ← ExtTreeMap.contains_iff_mem, ExtTreeMap.contains_empty]
  exact iff_of_false List.not_mem_nil Bool.false_ne_true

end Coherence

end FileCache

/-! ### The caches of a pager -/

/-- **What holds of a page cache** behind some operations. -/
structure PageCache.Faithful {α : Type} (limit : ℕ) (ops : List (PageCache.Op α))
    (cache : PageCache α) : Prop where
  /-- A key is indexed at the one slot that holds it, and what a slot holds is indexed. -/
  indexes : Indexes cache.index cache.entries
  slots_le : cache.slots.length ≤ limit
  size_le : cache.index.size ≤ limit
  /-- A key is read as its current entry has it, and not at all if it has none. -/
  get : ∀ key, ∃ found cache', cache.get key = some (found, cache') ∧
    (∀ value, found = some value ↔ Lasting limit ops key value) ∧
    (found = none ↔ key ∉ cache.index)
  /-- Forgetting takes out the keys of the files that match, and no others. -/
  forget : ∀ matching cache', cache.step (.forget matching) = some cache' →
    ∀ key, key ∈ cache'.index ↔ key ∈ cache.index ∧ matching key.1 = false
  /-- Eviction stops at a slot that is free or not marked. A page takes the slot over, and the key
  that was there is not indexed any more. -/
  evict : ∀ key value, key ∉ cache.index → cache.slots.length = limit →
    ∃ position turned slot cache', evict (cache.slots.length * 2) cache = some (position, turned) ∧
      turned.slots[position]? = some slot ∧ slot.any Slot.referenced = false ∧
      cache.insert key value = some cache' ∧
      cache'.entries = cache.entries.set position (some (key, value)) ∧
      ∀ former, cache.entries[position]? = some (some former) → former.1 ∉ cache'.index

/-- **The caches are coherent and bounded**, whatever is read, added, opened and forgotten. -/
theorem caches_coherent_and_bounded {α φ : Type} {limit descriptors : ℕ} (hlimit : 8 ≤ limit)
    (hdescriptors : 0 < descriptors) (ops : List (PageCache.Op α))
    (opens : List (FileCache.Op φ)) :
    (∃ cache, PageCache.after limit ops = some cache ∧ cache.Faithful limit ops) ∧
      (FileCache.after descriptors opens).Coherent ∧
      (FileCache.after descriptors opens).limit = descriptors := by
  refine ⟨?_, FileCache.coherent_after hdescriptors opens⟩
  have hpos : 0 < limit := Nat.zero_lt_of_lt hlimit
  obtain ⟨cache, hafter, h, rfl, hlasting⟩ := PageCache.coherent_after hpos ops
  refine ⟨cache, hafter, h.indexes, h.length_le, h.size_le.trans h.length_le, fun key => ?_, ?_, ?_⟩
  · obtain ⟨cache', heq, -, -⟩ := h.get key
    exact ⟨cache.lookup key, cache', heq, hlasting key, (h.not_mem key).symm⟩
  · rintro matching _ ⟨⟩ key
    obtain ⟨h', hlookup⟩ := h.retain fun file => !matching file
    rw [← not_iff_not, h'.not_mem, hlookup, not_and_or, h.not_mem, Bool.not_eq_false]
    constructor
    · intro hnone
      split at hnone
      · exact .inl hnone
      · next hmatching => exact .inr (by simpa using hmatching)
    · rintro (hnone | hmatching)
      · rw [hnone, ite_self]
      · rw [hmatching]
        rfl
  · intro key value hnew hfull
    rw [h.not_mem] at hnew
    obtain ⟨position, turned, slot, cache', hevict, -, hslot, hunused, hinsert, h', -, hentries⟩ :=
      h.insert_full hnew value hfull hpos
    exact ⟨position, turned, slot, cache', hevict, hslot, hunused, hinsert, hentries,
      fun former hformer => h.not_mem_of_set h' hnew hformer hentries⟩

/-- Nine pages of one file in a cache of eight: the ninth takes the first slot over. Then the file
is forgotten, and a page of another one fills the slot the hand is at. -/
theorem caches_coherent_and_bounded_nine :
    ∃ cache : PageCache ℕ, PageCache.after 8
        (((List.range 9).map fun number => .insert (⟨1, 1, 3, 0⟩, number) number) ++
          [.get (⟨1, 1, 3, 0⟩, 0), .forget fun file => file.table == 1,
            .insert (⟨2, 1, 3, 0⟩, 4) 9]) = some cache ∧
      cache.index.toList = [((⟨2, 1, 3, 0⟩, 4), 1)] ∧
      cache.entries = [none, some ((⟨2, 1, 3, 0⟩, 4), 9), none, none, none, none, none, none] ∧
      cache.index.size ≤ 8 ∧
      (FileCache.after 4 [.file ⟨1, 1, 3, 0⟩ (.ok ()), .file ⟨2, 1, 3, 0⟩ (.ok ()),
        .forget fun file => file.table == 1]).order.Nodup := by
  obtain ⟨⟨cache, hafter, hfaithful⟩, hfiles, -⟩ := caches_coherent_and_bounded
    (by decide : 8 ≤ 8) (by decide : 0 < 4)
    (((List.range 9).map fun number => PageCache.Op.insert (⟨1, 1, 3, 0⟩, number) number) ++
      [.get (⟨1, 1, 3, 0⟩, 0), .forget fun file => file.table == 1, .insert (⟨2, 1, 3, 0⟩, 4) 9])
    [.file ⟨1, 1, 3, 0⟩ (.ok ()), .file ⟨2, 1, 3, 0⟩ (.ok ()), .forget fun file => file.table == 1]
  have hcomputed : (PageCache.after 8
      (((List.range 9).map fun number => PageCache.Op.insert (⟨1, 1, 3, 0⟩, number) number) ++
        [.get (⟨1, 1, 3, 0⟩, 0), .forget fun file => file.table == 1,
          .insert (⟨2, 1, 3, 0⟩, 4) 9])).map (fun cache => (cache.index.toList, cache.entries)) =
      some ([((⟨2, 1, 3, 0⟩, 4), 1)],
        [none, some ((⟨2, 1, 3, 0⟩, 4), 9), none, none, none, none, none, none]) := by
    decide +kernel
  rw [hafter, Option.map_some, Option.some_inj, Prod.mk.injEq] at hcomputed
  exact ⟨cache, hafter, hcomputed.1, hcomputed.2, hfaithful.size_le, hfiles.nodup⟩

end EveDB
