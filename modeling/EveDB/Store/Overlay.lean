import EveDB.Library.Totals
import EveDB.Store.Commit

/-!
# The overlay and the owners of history files

The overlay holds the entities that changed since the checkpoint (`overlay.rs`). The history of
such an entity may still be in the files of an older root, which must not be deleted then, so the
overlay keeps a ledger: for each generation that one of its entities names, the root, how many
entities name it, and the size of its files.

The ledger is kept up to date with each insertion alone. It counts owners exactly, on every
overlay that insertions and clones lead to (`Overlay.ledger_exact`). The bytes saturate: they are
exact as long as they fit.
-/

namespace EveDB.Store

open Std

/-- The files of a root, with their sizes. -/
def Checkpoint.fileSizes (root : Checkpoint) : List (FileId × ℕ) :=
  root.manifest.files.map fun file => (file.id, file.size)

/-- The sizes of the files of a root, as far as they fit. -/
def Checkpoint.saturatedSize (root : Checkpoint) : ℕ :=
  (root.fileSizes.map Prod.snd).foldl saturatingAdd 0

/-- A subtraction that wraps around. -/
def wrappingSub (a b : ℕ) : ℕ := (a + (maxU64 + 1) - b) % (maxU64 + 1)

/-- **The overlay**: entities by table and identity, and the roots that they own, each with the
number of its owners and the size of its files. -/
structure Overlay where
  entries : SortedMap (ℕ × ℕ) EntityData
  roots : BTreeMap (Checkpoint × ℕ × ℕ)
  bytes : ℕ

namespace Overlay

/-- The overlay of a new database. -/
def new : Overlay where
  entries := ∅
  roots := ∅
  bytes := 0

/-- Takes an owner off a root, which has to be in the ledger. -/
def release (o : Overlay) (generation : ℕ) : Option Overlay := do
  let (root, count, bytes) ← o.roots[generation]?
  if count = 1 then
    return { o with roots := o.roots.erase generation, bytes := wrappingSub o.bytes bytes }
  else return { o with roots := o.roots.insert generation (root, count - 1, bytes) }

/-- Adds an owner to a root. -/
def adopt (o : Overlay) (root : Checkpoint) : Overlay :=
  let generation := root.manifest.generation
  let (count, bytes) := match o.roots[generation]? with
    | none => (0, root.saturatedSize)
    | some (_, count, bytes) => (count, bytes)
  { o with
    bytes := if count = 0 then saturatingAdd o.bytes bytes else o.bytes
    roots := o.roots.insert generation (root, count + 1, bytes) }

/-- The entity that is replaced gives up its root. -/
def giveUp (o : Overlay) : Option ℕ → Option Overlay
  | none => some o
  | some generation => o.release generation

/-- The entity that comes in takes up its root. -/
def takeUp (o : Overlay) : Option DiskHistory → Overlay
  | none => o
  | some disk => o.adopt disk.root

/-- **Inserts an entity** in the place of the one under its key. -/
def insert (o : Overlay) (key : ℕ × ℕ) (value : EntityData) : Option Overlay :=
  let previous := (o.entries[key]?).bind EntityData.generation
  if previous = value.generation then some { o with entries := o.entries.insert key value }
  else do
    let o ← o.giveUp previous
    let o := o.takeUp value.disk
    return { o with entries := o.entries.insert key value }

/-- The files of the roots that are owned. -/
def fileSizes (o : Overlay) : List (FileId × ℕ) := o.roots.toList.flatMap fun p => p.2.1.fileSizes

/-- How many entities own a root. -/
def owners (o : Overlay) (generation : ℕ) : ℕ :=
  (o.entries.toList.filter fun p => p.2.generation = some generation).length

/-! ### Owners -/

/-- Whether an entity owns a root. -/
def owns (generation : ℕ) (data : EntityData) : ℕ :=
  if data.generation = some generation then 1 else 0

theorem owners_eq_total (o : Overlay) (generation : ℕ) :
    o.owners generation = SortedMap.total (fun _ => owns generation) o.entries := by
  rw [owners, SortedMap.total]
  induction o.entries.toList with
  | nil => rfl
  | cons p entries ih =>
    rw [List.map_cons, List.sum_cons, ← ih, owns]
    by_cases hp : p.2.generation = some generation
    · rw [List.filter_cons_of_pos (by simpa using hp), if_pos hp, List.length_cons, Nat.add_comm]
    · rw [List.filter_cons_of_neg (by simpa using hp), if_neg hp, Nat.zero_add]

/-- **An insertion moves an owner** from the root of the old entity to that of the new one. -/
theorem owners_insert (o : Overlay) (key : ℕ × ℕ) (value : EntityData) (generation : ℕ) :
    ({ o with entries := o.entries.insert key value } : Overlay).owners generation +
        (if (o.entries[key]?).bind EntityData.generation = some generation then 1 else 0) =
      o.owners generation + if value.generation = some generation then 1 else 0 := by
  have htotal := SortedMap.total_insert (fun _ => owns generation) o.entries key value
  have hold : SortedMap.weightAt (fun _ => owns generation) o.entries key =
      if (o.entries[key]?).bind EntityData.generation = some generation then 1 else 0 := by
    rw [SortedMap.weightAt]
    rcases o.entries[key]? with _ | old
    · rfl
    · rfl
  rw [owners_eq_total, owners_eq_total, ← hold]
  exact htotal

/-! ### The ledger -/

/-- The size of the files of a root. -/
def size (root : Checkpoint) : ℕ := (root.fileSizes.map Prod.snd).sum

theorem saturatedSize_eq (root : Checkpoint) : root.saturatedSize = min (size root) maxU64 := by
  have hfold (sizes : List ℕ) (n : ℕ) (hn : n ≤ maxU64) :
      sizes.foldl saturatingAdd n = min (n + sizes.sum) maxU64 := by
    induction sizes generalizing n with
    | nil => rw [List.foldl_nil, List.sum_nil, Nat.add_zero, Nat.min_eq_left hn]
    | cons size sizes ih =>
      rw [List.foldl_cons, saturatingAdd, ih _ (Nat.min_le_right _ _), List.sum_cons]
      omega
  rw [Checkpoint.saturatedSize, hfold _ 0 (Nat.zero_le _), Nat.zero_add, size]

/-- What is there can be subtracted. -/
theorem wrappingSub_of_le {a b : ℕ} (h : b ≤ a) (ha : a ≤ maxU64) : wrappingSub a b = a - b := by
  have hsplit : a + (maxU64 + 1) - b = a - b + (maxU64 + 1) := by omega
  rw [wrappingSub, hsplit, Nat.add_mod_right, Nat.mod_eq_of_lt (by omega)]

/-- **A ledger of counts**: a root for each generation that has owners. The roots of generations
are given. -/
def Counts (rootOf : ℕ → Checkpoint) (count : ℕ → ℕ) (roots : BTreeMap (Checkpoint × ℕ × ℕ)) :
    Prop :=
  ∀ generation, roots[generation]? =
    if count generation = 0 then none
    else some (rootOf generation, count generation, (rootOf generation).saturatedSize)

/-- The files of all roots of a ledger. -/
def ledgerSize (roots : BTreeMap (Checkpoint × ℕ × ℕ)) : ℕ :=
  SortedMap.total (fun _ entry => size entry.1) roots

section Steps

variable {rootOf : ℕ → Checkpoint} {count : ℕ → ℕ} {o : Overlay} {generation : ℕ}

/-- A change at one generation. -/
theorem Counts.update {roots : BTreeMap (Checkpoint × ℕ × ℕ)} (h : Counts rootOf count roots)
    {n : ℕ} {roots' : BTreeMap (Checkpoint × ℕ × ℕ)}
    (hself : roots'[generation]? =
      if n = 0 then none else some (rootOf generation, n, (rootOf generation).saturatedSize))
    (hother : ∀ g, g ≠ generation → roots'[g]? = roots[g]?) :
    Counts rootOf (Function.update count generation n) roots' := by
  intro g
  rcases eq_or_ne g generation with rfl | hne
  · rw [Function.update_self]
    exact hself
  · rw [Function.update_of_ne hne, hother g hne]
    exact h g

/-- **Taking an owner off** a root that has one. The bytes go down with the last owner. -/
theorem Counts.release (h : Counts rootOf count o.roots) (hcount : 0 < count generation) :
    ∃ o', o.release generation = some o' ∧ o'.entries = o.entries ∧
      Counts rootOf (Function.update count generation (count generation - 1)) o'.roots ∧
      (o.bytes = ledgerSize o.roots → ledgerSize o.roots ≤ maxU64 →
        o'.bytes = ledgerSize o'.roots ∧ ledgerSize o'.roots ≤ ledgerSize o.roots) := by
  have hget := h generation
  rw [if_neg (Nat.ne_of_gt hcount)] at hget
  have hweight : SortedMap.weightAt (fun _ (entry : Checkpoint × ℕ × ℕ) => size entry.1) o.roots
      generation = size (rootOf generation) := by
    rw [SortedMap.weightAt, hget]
    rfl
  rw [Overlay.release, hget, Option.bind_eq_bind, Option.bind_some]
  dsimp only
  by_cases hlast : count generation = 1
  · rw [if_pos hlast]
    have herase := SortedMap.total_erase (fun _ (entry : Checkpoint × ℕ × ℕ) => size entry.1)
      o.roots generation
    rw [hweight] at herase
    refine ⟨_, rfl, rfl, h.update ?_ fun g hg => ?_, fun hbytes hfits => ?_⟩
    · rw [hlast, if_pos rfl, ExtTreeMap.getElem?_erase, if_pos ReflOrd.compare_self]
    · rw [ExtTreeMap.getElem?_erase, if_neg fun hc => hg (LawfulEqOrd.eq_of_compare hc).symm]
    · dsimp only
      rw [ledgerSize] at hbytes hfits ⊢
      rw [saturatedSize_eq, hbytes, wrappingSub_of_le (by omega) hfits, ledgerSize]
      omega
  · rw [if_neg hlast]
    have hinsert := SortedMap.total_insert (fun _ (entry : Checkpoint × ℕ × ℕ) => size entry.1)
      o.roots generation
      (rootOf generation, count generation - 1, (rootOf generation).saturatedSize)
    rw [hweight] at hinsert
    dsimp only at hinsert
    refine ⟨_, rfl, rfl, h.update ?_ fun g hg => ?_, fun hbytes hfits => ?_⟩
    · rw [if_neg (by omega), ExtTreeMap.getElem?_insert_self]
    · rw [ExtTreeMap.getElem?_insert, if_neg fun hc => hg (LawfulEqOrd.eq_of_compare hc).symm]
    · dsimp only
      rw [ledgerSize] at hbytes hfits ⊢
      rw [ledgerSize]
      omega

/-- **Adding an owner** to a root. The bytes go up with the first owner. -/
theorem Counts.adopt (h : Counts rootOf count o.roots) {root : Checkpoint}
    (hroot : root = rootOf root.manifest.generation) :
    (o.adopt root).entries = o.entries ∧
      Counts rootOf (Function.update count root.manifest.generation
        (count root.manifest.generation + 1)) (o.adopt root).roots ∧
      (o.bytes = ledgerSize o.roots → ledgerSize o.roots ≤ maxU64 →
        (o.adopt root).bytes = min (ledgerSize (o.adopt root).roots) maxU64) := by
  obtain ⟨generation, hgeneration⟩ : ∃ g, root.manifest.generation = g := ⟨_, rfl⟩
  have hget := h generation
  rw [hgeneration] at hroot ⊢
  have hentry : ∃ bytes, (o.adopt root) = { o with
      bytes := bytes
      roots := o.roots.insert generation (root, count generation + 1, root.saturatedSize) } ∧
      bytes = if count generation = 0 then saturatingAdd o.bytes root.saturatedSize
        else o.bytes := by
    rw [Overlay.adopt, hgeneration, hget, ← hroot]
    by_cases hzero : count generation = 0
    · rw [if_pos hzero, hzero]
      exact ⟨_, rfl, rfl⟩
    · rw [if_neg hzero]
      exact ⟨_, rfl, rfl⟩
  obtain ⟨bytes, hadopt, hbytes⟩ := hentry
  rw [hadopt]
  refine ⟨rfl, h.update ?_ fun g hg => ?_, fun hexact hfits => ?_⟩
  · rw [if_neg (Nat.succ_ne_zero _), ExtTreeMap.getElem?_insert_self, ← hroot]
  · rw [ExtTreeMap.getElem?_insert, if_neg fun hc => hg (LawfulEqOrd.eq_of_compare hc).symm]
  · have hinsert := SortedMap.total_insert (fun _ (entry : Checkpoint × ℕ × ℕ) => size entry.1)
      o.roots generation (root, count generation + 1, root.saturatedSize)
    have hweight : SortedMap.weightAt (fun _ (entry : Checkpoint × ℕ × ℕ) => size entry.1) o.roots
        generation = if count generation = 0 then 0 else size root := by
      rw [SortedMap.weightAt, hget]
      by_cases hzero : count generation = 0
      · rw [if_pos hzero, if_pos hzero]
        rfl
      · rw [if_neg hzero, if_neg hzero, hroot]
        rfl
    rw [hweight] at hinsert
    dsimp only at hinsert ⊢
    rw [ledgerSize] at hexact hfits ⊢
    rw [hbytes, hexact]
    by_cases hzero : count generation = 0
    · rw [if_pos hzero] at hinsert ⊢
      have hsize := saturatedSize_eq root
      rw [saturatingAdd]
      omega
    · rw [if_neg hzero] at hinsert ⊢
      omega

end Steps

/-- **What holds of an overlay**: its ledger has the roots that its entities own, with the number
of their owners. -/
structure Sound (rootOf : ℕ → Checkpoint) (o : Overlay) : Prop where
  counts : Counts rootOf o.owners o.roots

/-- The bytes of an overlay are those of its files, as far as they fit. -/
def Charged (o : Overlay) : Prop := o.bytes = min (ledgerSize o.roots) maxU64

/-- **An entity names a root** if its history is on disk in one of the given ones. -/
def Names (rootOf : ℕ → Checkpoint) (value : EntityData) : Prop :=
  ∀ disk, value.disk = some disk → disk.root = rootOf disk.root.manifest.generation

section Insertion

variable {rootOf : ℕ → Checkpoint} {o : Overlay}

/-- The root that an entity names has an owner. -/
theorem owners_pos {key : ℕ × ℕ} {generation : ℕ}
    (h : (o.entries[key]?).bind EntityData.generation = some generation) :
    0 < o.owners generation := by
  have herase := SortedMap.total_erase (fun _ => owns generation) o.entries key
  obtain ⟨data, hdata, hgeneration⟩ := Option.bind_eq_some_iff.mp h
  rw [SortedMap.weightAt, hdata, Option.map_some, Option.getD_some, owns,
    if_pos hgeneration] at herase
  rw [owners_eq_total]
  omega

/-- The old entity gives up its root, if it has one. -/
theorem Sound.giveUp (h : o.Sound rootOf) (previous : Option ℕ)
    (hprevious : ∀ generation, previous = some generation → 0 < o.owners generation) :
    ∃ o' count, o.giveUp previous = some o' ∧ o'.entries = o.entries ∧
      Counts rootOf count o'.roots ∧
      (∀ g, count g + (if previous = some g then 1 else 0) = o.owners g) ∧
      (o.bytes = ledgerSize o.roots → ledgerSize o.roots ≤ maxU64 →
        o'.bytes = ledgerSize o'.roots ∧ ledgerSize o'.roots ≤ ledgerSize o.roots) := by
  rcases previous with _ | generation
  · exact ⟨o, o.owners, rfl, rfl, h.counts, fun g => if_neg (Option.some_ne_none g).symm ▸ rfl,
      fun hbytes _ => ⟨hbytes, le_rfl⟩⟩
  · have hpos := hprevious generation rfl
    obtain ⟨o', hrelease, hentries, hcounts, hbytes⟩ := h.counts.release hpos
    refine ⟨o', _, hrelease, hentries, hcounts, fun g => ?_, hbytes⟩
    rcases eq_or_ne g generation with rfl | hne
    · rw [Function.update_self, if_pos rfl]
      omega
    · rw [Function.update_of_ne hne, if_neg fun hc => hne (Option.some.inj hc).symm]
      rfl

/-- The new entity takes up its root, if it has one. -/
theorem Counts.takeUp {count : ℕ → ℕ} (h : Counts rootOf count o.roots) {value : EntityData}
    (hvalue : Names rootOf value) :
    ∃ o' count', o.takeUp value.disk = o' ∧ o'.entries = o.entries ∧ Counts rootOf count' o'.roots ∧
      (∀ g, count' g = count g + if value.generation = some g then 1 else 0) ∧
      (o.bytes = ledgerSize o.roots → ledgerSize o.roots ≤ maxU64 → o'.Charged) := by
  rcases hdisk : value.disk with _ | disk
  · refine ⟨o, count, rfl, rfl, h, fun g => ?_, fun hbytes hfits => ?_⟩
    · rw [EntityData.generation, hdisk]
      exact (if_neg (Option.some_ne_none g).symm ▸ rfl)
    · rw [Charged, hbytes, Nat.min_eq_left hfits]
  · obtain ⟨hentries, hcounts, hbytes⟩ := h.adopt (hvalue disk hdisk)
    refine ⟨_, _, rfl, hentries, hcounts, fun g => ?_, hbytes⟩
    rw [EntityData.generation, hdisk, Option.map_some]
    rcases eq_or_ne g disk.root.manifest.generation with rfl | hne
    · rw [Function.update_self, if_pos rfl]
    · rw [Function.update_of_ne hne, if_neg fun hc => hne (Option.some.inj hc).symm]
      rfl

/-- **An insertion keeps the ledger.** -/
theorem Sound.insert (h : o.Sound rootOf) (key : ℕ × ℕ) {value : EntityData}
    (hvalue : Names rootOf value) :
    ∃ o', o.insert key value = some o' ∧ o'.Sound rootOf ∧
      (o.Charged → ledgerSize o.roots ≤ maxU64 → o'.Charged) := by
  obtain ⟨previous, hprevious⟩ : ∃ p, (o.entries[key]?).bind EntityData.generation = p := ⟨_, rfl⟩
  have howners := o.owners_insert key value
  rw [Overlay.insert, hprevious]
  dsimp only
  rw [hprevious] at howners
  by_cases hsame : previous = value.generation
  · rw [if_pos hsame]
    refine ⟨_, rfl, ⟨fun g => ?_⟩, fun hcharged _ => hcharged⟩
    have hg := howners g
    rw [hsame] at hg
    rw [Nat.add_right_cancel hg]
    exact h.counts g
  · rw [if_neg hsame]
    obtain ⟨o₁, count₁, hrelease, hentries₁, hcounts₁, hcount₁, hbytes₁⟩ :=
      h.giveUp previous fun generation hgeneration => owners_pos (hprevious.trans hgeneration)
    obtain ⟨o₂, count₂, hadopt, hentries₂, hcounts₂, hcount₂, hbytes₂⟩ := hcounts₁.takeUp hvalue
    rw [hrelease, Option.bind_eq_bind, Option.bind_some, hadopt]
    refine ⟨_, rfl, ⟨fun g => ?_⟩, fun hcharged hfits => ?_⟩
    · have hg := howners g
      have h₁ := hcount₁ g
      have h₂ := hcount₂ g
      have hcount : count₂ g =
          ({ o₂ with entries := o₂.entries.insert key value } : Overlay).owners g := by
        have hsame : ({ o₂ with entries := o₂.entries.insert key value } : Overlay).owners g =
            ({ o with entries := o.entries.insert key value } : Overlay).owners g := by
          rw [owners, owners, hentries₂, hentries₁]
        omega
      rw [← hcount]
      exact hcounts₂ g
    · rw [Charged, Nat.min_eq_left hfits] at hcharged
      obtain ⟨hexact, hle⟩ := hbytes₁ hcharged hfits
      exact hbytes₂ hexact (hle.trans hfits)

end Insertion

theorem sound_new (rootOf : ℕ → Checkpoint) : new.Sound rootOf ∧ new.Charged := by
  refine ⟨⟨fun generation => ?_⟩, ?_⟩
  · have hnone : new.owners generation = 0 := by
      rw [owners_eq_total, new, SortedMap.total_empty]
    rw [hnone, if_pos rfl, new, ExtTreeMap.getElem?_empty]
  · rw [Charged, ledgerSize, new, SortedMap.total_empty, Nat.zero_min]

/-- The size of a ledger is that of the files it lists. -/
theorem sum_fileSizes (o : Overlay) : (o.fileSizes.map Prod.snd).sum = ledgerSize o.roots := by
  rw [fileSizes, ledgerSize, SortedMap.total]
  induction o.roots.toList with
  | nil => rfl
  | cons p entries ih =>
    rw [List.flatMap_cons, List.map_append, List.sum_append, ih, List.map_cons, List.sum_cons, size]

/-- **The files of an overlay** are those of the roots that are owned, in the order of their
generations. -/
theorem Sound.fileSizes_eq {rootOf : ℕ → Checkpoint} {o : Overlay} (h : o.Sound rootOf) :
    ∃ generations : List ℕ, generations.Pairwise (· < ·) ∧
      (∀ generation, generation ∈ generations ↔ 0 < o.owners generation) ∧
      o.fileSizes = generations.flatMap fun generation => (rootOf generation).fileSizes := by
  refine ⟨o.roots.toList.map Prod.fst, ?_, fun generation => ?_, ?_⟩
  · rw [List.pairwise_map]
    exact ExtTreeMap.ordered_keys_toList.imp fun h => compare_lt_iff_lt.mp h
  · rw [List.mem_map]
    have hget := h.counts generation
    constructor
    · rintro ⟨p, hp, rfl⟩
      rw [ExtTreeMap.mem_toList_iff_getElem?_eq_some] at hp
      rw [hp] at hget
      by_contra hzero
      rw [if_pos (by omega)] at hget
      cases hget
    · intro hpos
      rw [if_neg (by omega)] at hget
      exact ⟨_, ExtTreeMap.mem_toList_iff_getElem?_eq_some.mpr hget, rfl⟩
  · rw [fileSizes, List.flatMap_map]
    refine List.flatMap_congr fun p hp => ?_
    have hget := h.counts p.1
    rw [ExtTreeMap.mem_toList_iff_getElem?_eq_some.mp hp] at hget
    split at hget
    · cases hget
    · rw [Option.some.inj hget]

/-! ### Insertions and clones -/

/-- **What is done with overlays**: one of them is cloned, or an entity inserted into it. -/
inductive Step
  | clone (i : ℕ)
  | insert (i : ℕ) (key : ℕ × ℕ) (value : EntityData)

/-- A step; a clone goes behind the others. -/
def Step.run (overlays : List Overlay) : Step → Option (List Overlay)
  | .clone i => some (overlays ++ (overlays[i]?).toList)
  | .insert i key value =>
    match overlays[i]? with
    | none => some overlays
    | some o => do
      let o ← o.insert key value
      return overlays.set i o

/-- Takes steps one after the other, unless one of them panics. -/
def runSteps : List Step → List Overlay → Option (List Overlay)
  | [], overlays => some overlays
  | step :: steps, overlays => do
    let overlays ← step.run overlays
    runSteps steps overlays

/-- An entity that is inserted names one of the given roots. -/
def Step.Names (rootOf : ℕ → Checkpoint) : Step → Prop
  | .clone _ => True
  | .insert _ _ value => Overlay.Names rootOf value

/-- **The sizes fit whenever a step is taken.** -/
def FitBefore : List Step → List Overlay → Prop
  | [], _ => True
  | step :: steps, overlays => (∀ o ∈ overlays, (o.fileSizes.map Prod.snd).sum ≤ maxU64) ∧
      ∀ overlays', step.run overlays = some overlays' → FitBefore steps overlays'

/-- **A step keeps every ledger.** -/
theorem Step.keeps {rootOf : ℕ → Checkpoint} {overlays : List Overlay}
    (h : ∀ o ∈ overlays, o.Sound rootOf) {step : Step} (hstep : step.Names rootOf) :
    ∃ overlays', step.run overlays = some overlays' ∧ (∀ o ∈ overlays', o.Sound rootOf) ∧
      ((∀ o ∈ overlays, o.Charged ∧ (o.fileSizes.map Prod.snd).sum ≤ maxU64) →
        ∀ o ∈ overlays', o.Charged) := by
  cases step with
  | clone i =>
    have hmem (o : Overlay) (ho : o ∈ overlays ++ (overlays[i]?).toList) : o ∈ overlays := by
      rcases List.mem_append.mp ho with ho | ho
      · exact ho
      · exact List.mem_of_getElem? (Option.mem_toList.mp ho)
    exact ⟨_, rfl, fun o ho => h o (hmem o ho), fun hfits o ho => (hfits o (hmem o ho)).1⟩
  | insert i key value =>
    rw [Step.run]
    rcases hget : overlays[i]? with _ | o
    · exact ⟨overlays, rfl, h, fun hfits o ho => (hfits o ho).1⟩
    · have ho := List.mem_of_getElem? hget
      obtain ⟨o', hinsert, hsound, hcharged⟩ := (h o ho).insert key hstep
      dsimp only
      rw [hinsert]
      refine ⟨overlays.set i o', rfl, fun found hfound => ?_, fun hfits found hfound => ?_⟩
      · rcases List.mem_or_eq_of_mem_set hfound with hold | rfl
        · exact h found hold
        · exact hsound
      · rcases List.mem_or_eq_of_mem_set hfound with hold | rfl
        · exact (hfits found hold).1
        · obtain ⟨hbytes, hsum⟩ := hfits o ho
          rw [sum_fileSizes] at hsum
          exact hcharged hbytes hsum

/-- **A run keeps every ledger.** -/
theorem runSteps_keeps {rootOf : ℕ → Checkpoint} {steps : List Step} {overlays : List Overlay}
    (h : ∀ o ∈ overlays, o.Sound rootOf) (hsteps : ∀ step ∈ steps, step.Names rootOf) :
    ∃ overlays', runSteps steps overlays = some overlays' ∧ (∀ o ∈ overlays', o.Sound rootOf) ∧
      ((∀ o ∈ overlays, o.Charged) → FitBefore steps overlays → ∀ o ∈ overlays', o.Charged) := by
  induction steps generalizing overlays with
  | nil => exact ⟨overlays, rfl, h, fun hcharged _ => hcharged⟩
  | cons step steps ih =>
    obtain ⟨hstep, hsteps⟩ := List.forall_mem_cons.mp hsteps
    obtain ⟨overlays₁, hrun, hsound, hcharged⟩ := Step.keeps h hstep
    obtain ⟨overlays', hrest, hsound', hcharged'⟩ := ih hsound hsteps
    rw [runSteps, hrun]
    refine ⟨overlays', hrest, hsound', fun hbefore hfits => ?_⟩
    exact hcharged' (hcharged fun o ho => ⟨hbefore o ho, hfits.1 o ho⟩) (hfits.2 _ hrun)

/-- **The ledger of an overlay counts owners exactly.** Take any steps from a new overlay, with
entities under any keys whose histories are in roots of which there is one for each generation. No
step fails, and in every overlay there is then: the ledger has an entry for a generation exactly
when an entity names it, with the number of entities that do, and the files are those of these
roots, each root once. As long as the sizes have fitted so far, the bytes are the sizes of these
files, or the largest number there is. -/
theorem ledger_exact (rootOf : ℕ → Checkpoint) (steps : List Step)
    (hsteps : ∀ step ∈ steps, step.Names rootOf) :
    ∃ overlays, runSteps steps [new] = some overlays ∧ ∀ o ∈ overlays,
      (∀ generation, (o.roots[generation]?).map (fun entry => entry.2.1) =
        if o.owners generation = 0 then none else some (o.owners generation)) ∧
      (∃ generations : List ℕ, generations.Pairwise (· < ·) ∧
        (∀ generation, generation ∈ generations ↔ 0 < o.owners generation) ∧
        o.fileSizes = generations.flatMap fun generation => (rootOf generation).fileSizes) ∧
      (FitBefore steps [new] → o.bytes = min (o.fileSizes.map Prod.snd).sum maxU64) := by
  obtain ⟨hnew, hcharged⟩ := sound_new rootOf
  obtain ⟨overlays, hrun, hsound, hbytes⟩ :=
    @runSteps_keeps rootOf steps [new] (List.forall_mem_singleton.mpr hnew) hsteps
  refine ⟨overlays, hrun, fun o ho => ⟨fun generation => ?_, (hsound o ho).fileSizes_eq, ?_⟩⟩
  · rw [(hsound o ho).counts generation]
    split
    · rfl
    · rfl
  · intro hfits
    rw [sum_fileSizes]
    exact hbytes (List.forall_mem_singleton.mpr hcharged) hfits o ho

/-- A root with two files of `2 ^ 63` bytes. -/
def largeRoot : Checkpoint where
  manifest := { Root.empty with
    generation := 1
    files := [⟨1, 1, 0, 0, 2 ^ 63, 0⟩, ⟨1, 1, 1, 0, 2 ^ 63, 0⟩] }
  files := Files.empty

/-- An entity whose history is in it. -/
def largeData : EntityData where
  current := ⟨1, 0, 1, false, ∅⟩
  base := ⟨1, 0, 1, false, ∅⟩
  events := []
  committed := ∅
  snapshots := ∅
  disk := some ⟨largeRoot, 1, 0⟩

/-- The bytes of two large files are one more than fit. -/
theorem bytes_saturate : ∃ o, new.insert (1, 1) largeData = some o ∧
    o.bytes = 2 ^ 64 - 1 ∧ (o.fileSizes.map Prod.snd).sum = 2 ^ 64 :=
  ⟨_, rfl, rfl, rfl⟩

/-- Whether the sizes fit is decided by taking the steps. -/
instance FitBefore.decidable : ∀ (steps : List Step) (overlays : List Overlay),
    Decidable (FitBefore steps overlays)
  | [], _ => isTrue trivial
  | step :: steps, overlays =>
    have (next : List Overlay) : Decidable (FitBefore steps next) := decidable steps next
    inferInstanceAs (Decidable ((∀ o ∈ overlays, (o.fileSizes.map Prod.snd).sum ≤ maxU64) ∧
      ∀ next ∈ step.run overlays, FitBefore steps next))

/-- The root of a generation, with one file. -/
def smallRoot (generation : ℕ) : Checkpoint where
  manifest := { Root.empty with
    generation
    files := [⟨generation, 1, 2, 0, 10 * generation, 0⟩] }
  files := Files.empty

/-- An entity whose history is in the root of a generation. -/
def smallData (id generation : ℕ) : EntityData where
  current := ⟨id, 0, 1, false, ∅⟩
  base := ⟨id, 0, 1, false, ∅⟩
  events := []
  committed := ∅
  snapshots := ∅
  disk := some ⟨smallRoot generation, 1, 0⟩

/-- Two entities are inserted with the first root. In a clone, both are replaced by ones with
the second root. -/
def movedSteps : List Step :=
  [.insert 0 (1, 1) (smallData 1 1), .insert 0 (1, 2) (smallData 2 1), .clone 0,
    .insert 1 (1, 1) (smallData 1 2), .insert 1 (1, 2) (smallData 2 2)]

/-- The overlay still owns the first root, and its clone has let go of it. -/
theorem ledger_exact_pair : ∃ o clone, runSteps movedSteps [new] = some [o, clone] ∧
    (o.roots[1]?).map (fun entry => entry.2.1) = some 2 ∧
    (o.roots[2]?).map (fun entry => entry.2.1) = none ∧ o.bytes = 10 ∧
    (clone.roots[1]?).map (fun entry => entry.2.1) = none ∧
    (clone.roots[2]?).map (fun entry => entry.2.1) = some 2 ∧ clone.bytes = 20 := by
  have hsteps : ∀ step ∈ movedSteps, Step.Names smallRoot step := by
    simp only [movedSteps, List.forall_mem_cons]
    refine ⟨?_, ?_, trivial, ?_, ?_, List.forall_mem_nil _⟩
    · rintro disk ⟨⟩
      rfl
    · rintro disk ⟨⟩
      rfl
    · rintro disk ⟨⟩
      rfl
    · rintro disk ⟨⟩
      rfl
  have hfits : FitBefore movedSteps [new] := by decide +kernel
  obtain ⟨overlays, hrun, hexact⟩ := ledger_exact smallRoot movedSteps hsteps
  have hpair : ∃ o clone, runSteps movedSteps [new] = some [o, clone] ∧ o.owners 1 = 2 ∧
      o.owners 2 = 0 ∧ (o.fileSizes.map Prod.snd).sum = 10 ∧ clone.owners 1 = 0 ∧
      clone.owners 2 = 2 ∧ (clone.fileSizes.map Prod.snd).sum = 20 :=
    ⟨_, _, rfl, rfl, rfl, rfl, rfl, rfl, rfl⟩
  obtain ⟨o, clone, hpair, howners₁, howners₂, hsizes, hclone₁, hclone₂, hcloneSizes⟩ := hpair
  obtain rfl := Option.some.inj (hrun.symm.trans hpair)
  obtain ⟨hcounts, -, hbytes⟩ := hexact o List.mem_cons_self
  obtain ⟨hcounts', -, hbytes'⟩ := hexact clone (List.mem_cons_of_mem _ List.mem_cons_self)
  refine ⟨o, clone, hrun, ?_, ?_, ?_, ?_, ?_, ?_⟩
  · rw [hcounts, howners₁, if_neg (by decide)]
  · rw [hcounts, howners₂, if_pos rfl]
  · rw [hbytes hfits, hsizes]
    decide
  · rw [hcounts', hclone₁, if_pos rfl]
  · rw [hcounts', hclone₂, if_neg (by decide)]
  · rw [hbytes' hfits, hcloneSizes]
    decide

end Overlay

end EveDB.Store
