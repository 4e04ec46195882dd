import EveDB.Builder.Delivered

/-!
# One index on its own

A step on one index of a table leaves the others as they were, whatever it is, as long as what is
being built belongs where it is being built (`Indexes.Formed`). So an index can be followed on its
own: what was delivered to it in order it has, whatever was delivered to the others
(`LaneState.deliverAll`), and when everything is finished the manifest routes it (`Idle.routed`).
-/

namespace EveDB

open Store Index

open Std (ExtTreeMap)

namespace Indexes

/-- **Indexes as their steps leave them**: what is being built belongs to its index, the files of
complete partitions are there, and none of them was in the directory before. -/
structure Formed (disk : Disk) (ix : Indexes) : Prop where
  route : ∀ i, ∀ pending ∈ (ix.lanes i).pending, ∃ lower, pending.route = ix.route i lower
  file : ∀ i, ∀ pending ∈ (ix.lanes i).pending, pending.part.file = ix.file i
  parts : ∀ (route : Route) (part : Partition), ix.parts[route]? = some part →
    part.file ∈ ix.files ∨ ∃ i, part.file = ix.file i ∧ (ix.lanes i).handle.isSome
  files : ∀ (file : FileId) (info : FileInfo), ix.files[file]? = some info → info.id = file
  created : ∀ i, (ix.lanes i).handle.isSome ∨ (ix.lanes i).pending.isSome → disk (ix.file i) = none

section Steps

variable {disk : Disk} {ix ix' : Indexes} {i : Fin 3}

theorem formed_new (disk : Disk) (table generation lsn limit : ℕ) :
    (Indexes.new table generation lsn limit).Formed disk := by
  refine ⟨?_, ?_, fun route part hpart => ?_, fun file info hinfo => ?_, ?_⟩
  · rintro i pending ⟨⟩
  · rintro i pending ⟨⟩
  · rw [Indexes.new, ExtTreeMap.getElem?_empty] at hpart
    cases hpart
  · rw [Indexes.new, ExtTreeMap.getElem?_empty] at hinfo
    cases hinfo
  · rintro i (hsome | hsome)
    · cases hsome
    · cases hsome

/-- A step on one lane keeps what there is formed. -/
theorem Formed.update (h : ix.Formed disk) {lane : Lane} {parts : SortedMap Route Partition}
    {files : SortedMap FileId FileInfo}
    (hpending : ∀ pending ∈ lane.pending,
      (∃ lower, pending.route = ix.route i lower) ∧ pending.part.file = ix.file i)
    (hhandle : (ix.lanes i).handle.isSome → lane.handle.isSome)
    (hkept : ∀ file ∈ ix.files, file ∈ files)
    (hparts : ∀ (route : Route) (part : Partition), parts[route]? = some part →
      ix.parts[route]? = some part ∨ part.file ∈ files ∨
        part.file = ix.file i ∧ lane.handle.isSome)
    (hfiles : ∀ (file : FileId) (info : FileInfo), files[file]? = some info → info.id = file)
    (hcreated : lane.handle.isSome ∨ lane.pending.isSome → disk (ix.file i) = none) :
    ({ ix with lanes := Function.update ix.lanes i lane, parts, files } : Indexes).Formed disk := by
  have hlane (j : Fin 3) : (j = i ∧ Function.update ix.lanes i lane j = lane) ∨
      (j ≠ i ∧ Function.update ix.lanes i lane j = ix.lanes j) := by
    by_cases hj : j = i
    · exact Or.inl ⟨hj, by rw [hj, Function.update_self]⟩
    · exact Or.inr ⟨hj, Function.update_of_ne hj ..⟩
  refine ⟨fun j pending hp => ?_, fun j pending hp => ?_, fun route part hpart => ?_, hfiles,
    fun j hj => ?_⟩
  · change pending ∈ (Function.update ix.lanes i lane j).pending at hp
    rcases hlane j with ⟨rfl, hupdate⟩ | ⟨-, hupdate⟩
    · rw [hupdate] at hp
      exact (hpending pending hp).1
    · rw [hupdate] at hp
      exact h.route j pending hp
  · change pending ∈ (Function.update ix.lanes i lane j).pending at hp
    rcases hlane j with ⟨rfl, hupdate⟩ | ⟨-, hupdate⟩
    · rw [hupdate] at hp
      exact (hpending pending hp).2
    · rw [hupdate] at hp
      exact h.file j pending hp
  · rcases hparts route part hpart with hold | hmem | ⟨hfile, hopen⟩
    · refine (h.parts route part hold).imp (hkept _) ?_
      rintro ⟨j, hfile, hopen⟩
      refine ⟨j, hfile, ?_⟩
      change (Function.update ix.lanes i lane j).handle.isSome
      rcases hlane j with ⟨rfl, hupdate⟩ | ⟨-, hupdate⟩
      · rw [hupdate]
        exact hhandle hopen
      · rw [hupdate]
        exact hopen
    · exact Or.inl hmem
    · refine Or.inr ⟨i, hfile, ?_⟩
      change (Function.update ix.lanes i lane i).handle.isSome
      rw [Function.update_self]
      exact hopen
  · change (Function.update ix.lanes i lane j).handle.isSome ∨
      (Function.update ix.lanes i lane j).pending.isSome at hj
    rcases hlane j with ⟨rfl, hupdate⟩ | ⟨-, hupdate⟩
    · rw [hupdate] at hj
      exact hcreated hj
    · rw [hupdate] at hj
      exact h.created j hj

/-- **Flushing an index**: nothing of it is being built any more. -/
theorem Formed.flush (h : ix.Formed disk) (hok : ix.flush i = .ok ix') :
    ix'.Formed disk ∧ Apart i ix ix' ∧ ix'.files = ix.files := by
  rw [Indexes.flush] at hok
  split at hok
  · cases hok
    exact ⟨h, .refl i ix, rfl⟩
  · next pending hpending =>
    dsimp only at hok
    split at hok
    · cases hok
    · cases hok
      obtain ⟨lower, hroute⟩ := h.route i pending hpending
      refine ⟨h.update ?_ (fun _ => rfl) (fun _ hfile => hfile) (fun route part hpart => ?_)
        h.files (fun _ => h.created i (Or.inr (by rw [hpending]; rfl))),
        apart_update rfl rfl rfl rfl rfl (Or.inr (by rw [← hroute])), rfl⟩
      · rintro pending ⟨⟩
      · rw [ExtTreeMap.getElem?_insert] at hpart
        split at hpart
        · cases hpart
          exact Or.inr (Or.inr ⟨h.file i pending hpending, rfl⟩)
        · exact Or.inl hpart

/-- **An entry is put behind the others** of a partition of its index. -/
theorem Formed.push (h : ix.Formed disk) {pending : Pending} {lower key : Key} {value : IndexValue}
    {dependency : Option FileId} (hroute : pending.route = ix.route i lower)
    (hfile : pending.part.file = ix.file i) (hnew : disk (ix.file i) = none)
    (hok : ix.push i pending key value dependency = .ok ix') :
    ix'.Formed disk ∧ Apart i ix ix' ∧ ix'.files = ix.files ∧ (ix'.lanes i).pending.isSome := by
  rw [Indexes.push] at hok
  split at hok
  · cases hok
  · obtain ⟨part, hnote, hok⟩ := bind_eq_ok.mp hok
    cases hok
    obtain ⟨hsame, -⟩ := Partition.note_fields hnote
    refine ⟨h.update ?_ id (fun _ hmem => hmem) (fun route part hpart => Or.inl hpart) h.files
      (fun _ => hnew), apart_lanes rfl rfl rfl rfl rfl rfl, rfl, ?_⟩
    · rintro pending ⟨⟩
      exact ⟨⟨lower, hroute⟩, hsame.trans hfile⟩
    · change (Function.update ix.lanes i _ i).pending.isSome
      rw [Function.update_self]
      rfl

/-- What begins with a key. -/
theorem start_eq_ok {key : Key} {pending : Pending} (hok : ix.start disk i key = .ok pending) :
    pending.route = ix.route i (bucket (kind i) key) ∧ pending.part = ix.fresh i key ∧
      ((ix.lanes i).handle.isSome ∨ disk (ix.file i) = none) := by
  rw [Indexes.start] at hok
  split at hok
  · next hhandle =>
    cases hok
    exact ⟨rfl, rfl, Or.inl (by rw [hhandle]; rfl)⟩
  · split at hok
    · cases hok
    · next hnone =>
      cases hok
      exact ⟨rfl, rfl, Or.inr (Option.not_isSome_iff_eq_none.mp hnone)⟩

/-- **An entry that is delivered** is in the partition that is being built. -/
theorem Formed.append (h : ix.Formed disk) {key : Key} {value : IndexValue}
    {dependency : Option FileId} (hok : ix.append disk i key value dependency = .ok ix') :
    ix'.Formed disk ∧ Apart i ix ix' ∧ ix'.files = ix.files ∧ (ix'.lanes i).pending.isSome := by
  rw [Indexes.append] at hok
  split at hok
  · next pending hsame =>
    obtain ⟨hpending, hroute⟩ := Option.filter_eq_some_iff.mp hsame
    exact h.push (of_decide_eq_true hroute) (h.file i pending hpending)
      (h.created i (Or.inr (by rw [hpending]; rfl))) hok
  · obtain ⟨ix₁, hflush, hok⟩ := bind_eq_ok.mp hok
    obtain ⟨hformed₁, hapart₁, hfiles₁⟩ := h.flush hflush
    obtain ⟨_, -, hok⟩ := bind_eq_ok.mp hok
    split at hok
    · cases hok
    · obtain ⟨pending, hstart, hok⟩ := bind_eq_ok.mp hok
      obtain ⟨hroute, hpart, hnew⟩ := start_eq_ok hstart
      have hnone : disk (ix₁.file i) = none :=
        hnew.elim (fun hhandle => hformed₁.created i (Or.inl hhandle)) id
      obtain ⟨hformed, hapart, hfiles, hpending⟩ :=
        hformed₁.push hroute (by rw [hpart]; rfl) hnone hok
      exact ⟨hformed, hapart₁.trans hapart, hfiles.trans hfiles₁, hpending⟩

/-- **A delivery** leaves the other indexes as they were. -/
theorem Formed.deliver (h : ix.Formed disk) {d : Delivery} (hok : ix.deliver disk i d = .ok ix') :
    ix'.Formed disk ∧ Apart i ix ix' ∧ ∀ file ∈ ix.files, file ∈ ix'.files := by
  cases d with
  | entry key value dependency =>
    obtain ⟨hformed, hapart, hfiles, -⟩ := h.append hok
    exact ⟨hformed, hapart, fun file hfile => hfiles ▸ hfile⟩
  | reuse root lower part =>
    rw [Indexes.deliver, Indexes.reuse] at hok
    obtain ⟨ix₁, hflush, hok⟩ := bind_eq_ok.mp hok
    obtain ⟨hformed₁, hapart₁, hfiles₁⟩ := h.flush hflush
    obtain ⟨_, -, hok⟩ := bind_eq_ok.mp hok
    split at hok
    · cases hok
    · next info hinfo =>
      split at hok
      · cases hok
      · cases hok
        have hfound := List.find?_some hinfo
        have hid : info.id = part.file := of_decide_eq_true hfound
        have hlanes : ix₁.lanes = Function.update ix₁.lanes i (ix₁.lanes i) :=
          (Function.update_eq_self i ix₁.lanes).symm
        refine ⟨?_, hapart₁.trans (apart_update rfl rfl rfl rfl hlanes (Or.inr rfl)),
          fun file hfile => ExtTreeMap.mem_insert.mpr (Or.inr (hfiles₁ ▸ hfile))⟩
        have hupdated := @Formed.update disk ix₁ i hformed₁ (ix₁.lanes i)
          (ix₁.parts.insert (ix₁.route i lower) part) (ix₁.files.insert info.id info)
          (fun pending hp => ⟨hformed₁.route i pending hp, hformed₁.file i pending hp⟩) id
          (fun file hfile => ExtTreeMap.mem_insert.mpr (Or.inr hfile))
          (fun route found hfound => ?_) (fun file found hfound => ?_) (hformed₁.created i)
        · rwa [← hlanes] at hupdated
        · rw [ExtTreeMap.getElem?_insert] at hfound
          split at hfound
          · cases hfound
            refine Or.inr (Or.inl (ExtTreeMap.mem_insert.mpr (Or.inl ?_)))
            rw [hid]
            exact Std.ReflOrd.compare_self
          · exact Or.inl hfound
        · rw [ExtTreeMap.getElem?_insert] at hfound
          split at hfound
          · next heq =>
            cases hfound
            exact Std.LawfulEqOrd.eq_of_compare heq
          · exact hformed₁.files file found hfound

/-! ### A run of deliveries -/

/-- **What no step on the indexes changes.** -/
structure Same (ix ix' : Indexes) : Prop where
  limit : ix'.limit = ix.limit
  table : ix'.table = ix.table
  generation : ix'.generation = ix.generation
  lsn : ix'.lsn = ix.lsn
  tables : (∀ route ∈ ix.parts, route.1 = ix.table) → ∀ route ∈ ix'.parts, route.1 = ix'.table

theorem Same.refl (ix : Indexes) : Same ix ix := ⟨rfl, rfl, rfl, rfl, fun h => h⟩

theorem Same.trans {ix'' : Indexes} (h : Same ix ix') (h' : Same ix' ix'') : Same ix ix'' :=
  ⟨h'.limit.trans h.limit, h'.table.trans h.table, h'.generation.trans h.generation,
    h'.lsn.trans h.lsn, fun htables => h'.tables (h.tables htables)⟩

theorem Apart.same (h : Apart i ix ix') : Same ix ix' :=
  ⟨h.limit, h.table, h.generation, h.lsn, h.tables⟩

theorem Same.file (h : Same ix ix') (j : Fin 3) : ix'.file j = ix.file j := by
  rw [Indexes.file, Indexes.file, h.table, h.generation]

theorem deliverAll_append {steps more : List (Fin 3 × Delivery)} :
    deliverAll disk (steps ++ more) ix = deliverAll disk steps ix >>= deliverAll disk more := by
  induction steps generalizing ix with
  | nil => rfl
  | cons step steps ih =>
    rw [List.cons_append, deliverAll, deliverAll, bind_assoc]
    exact congrArg _ (funext fun _ => ih)

/-- **A run of deliveries** keeps what there is formed. -/
theorem Formed.deliverAll (h : ix.Formed disk) {steps : List (Fin 3 × Delivery)}
    (hok : Indexes.deliverAll disk steps ix = .ok ix') :
    ix'.Formed disk ∧ Same ix ix' ∧ ∀ file ∈ ix.files, file ∈ ix'.files := by
  induction steps generalizing ix with
  | nil =>
    cases hok
    exact ⟨h, .refl _, fun _ hfile => hfile⟩
  | cons step steps ih =>
    obtain ⟨j, d⟩ := step
    rw [Indexes.deliverAll] at hok
    obtain ⟨ix₁, hdeliver, hok⟩ := bind_eq_ok.mp hok
    obtain ⟨hformed, hapart, hfiles⟩ := h.deliver hdeliver
    obtain ⟨hformed', hsame, hfiles'⟩ := ih hformed hok
    exact ⟨hformed', hapart.same.trans hsame, fun file hfile => hfiles' file (hfiles file hfile)⟩

end Steps

section Lanes

variable {disk : Disk} {shows : Partition → List Entry} {ix ix' : Indexes} {i : Fin 3}
  {ds : List Delivery} {old : Bytes} {opened : List (Entry × Option FileId)}

/-- **What one index has of a run**, whatever is delivered to the others in between. -/
theorem LaneState.deliverAll (h : LaneState disk shows ix i ds old opened)
    (hformed : ix.Formed disk) (hlsn : ix.lsn < 2 ^ 64) {steps : List (Fin 3 × Delivery)}
    (hordered : (ds ++ delivered i steps).Pairwise (Delivery.Before (kind i)))
    (hsound : ∀ d ∈ ds ++ delivered i steps, d.Sound disk shows ix.table (kind i))
    (hok : Indexes.deliverAll disk steps ix = .ok ix') :
    ∃ old' opened', LaneState disk shows ix' i (ds ++ delivered i steps) old' opened' := by
  induction steps generalizing ix ds old opened with
  | nil =>
    cases hok
    rw [delivered, List.filter_nil, List.map_nil, List.append_nil]
    exact ⟨old, opened, h⟩
  | cons step steps ih =>
    obtain ⟨j, d⟩ := step
    rw [Indexes.deliverAll] at hok
    obtain ⟨ix₁, hdeliver, hok⟩ := bind_eq_ok.mp hok
    obtain ⟨hformed₁, hapart, -⟩ := hformed.deliver hdeliver
    rw [← hapart.lsn] at hlsn
    by_cases hj : j = i
    · subst hj
      have hcons : delivered j ((j, d) :: steps) = d :: delivered j steps := by
        rw [← List.singleton_append, delivered_append, delivered_singleton_self,
          List.singleton_append]
      rw [hcons, List.append_cons] at hordered hsound ⊢
      obtain ⟨hcame, -, -⟩ := List.pairwise_append.mp hordered
      have hbefore : ∀ d₀ ∈ ds, d₀.Before (kind j) d := fun d₀ hd₀ =>
        (List.pairwise_append.mp hcame).2.2 d₀ hd₀ d (List.mem_singleton_self d)
      have hsound' := (List.forall_mem_append.mp hsound).1
      obtain ⟨hds, hd⟩ := List.forall_mem_append.mp hsound'
      replace hd := List.forall_mem_singleton.mp hd
      have hlane : ∃ old' opened', LaneState disk shows ix₁ j (ds ++ [d]) old' opened' := by
        rw [hapart.lsn] at hlsn
        cases d with
        | entry key value dependency =>
          have hnew : disk (ix.file j) = none := by
            rw [← hapart.same.file]
            exact hformed₁.created j (Or.inr (hformed.append hdeliver).2.2.2)
          rcases h.append hlsn hds hd hbefore hnew with ⟨herror, -⟩ | ⟨ix₂, old', opened', hok', -,
            hlane⟩
          · cases herror.symm.trans hdeliver
          · cases hok'.symm.trans hdeliver
            exact ⟨old', opened', hlane⟩
        | reuse root lower part =>
          rcases h.reuse hlsn hds hd hbefore with ⟨herror, -⟩ | ⟨ix₂, old', hok', -, hlane⟩
          · cases herror.symm.trans hdeliver
          · cases hok'.symm.trans hdeliver
            exact ⟨old', [], hlane⟩
      obtain ⟨old', opened', hlane⟩ := hlane
      exact ih hlane hformed₁ hlsn hordered (by rwa [hapart.table]) hok
    · have hskip : delivered i ((j, d) :: steps) = delivered i steps := by
        rw [← List.singleton_append, delivered_append, delivered_singleton_of_ne (Ne.symm hj),
          List.nil_append]
      rw [hskip] at hordered hsound ⊢
      exact ih (h.of_apart hapart (Ne.symm hj)) hformed₁ hlsn hordered
        (by rwa [hapart.table]) hok

end Lanes

/-! ### Finishing -/

section Finish

variable {disk : Disk} {shows : Partition → List Entry} {ix ix' : Indexes} {i j : Fin 3}
  {ds : List Delivery} {old : Bytes} {opened : List (Entry × Option FileId)}

/-- What finishing does: it completes what is being built of each index. -/
theorem finish_eq_ok {files : List FileInfo} {parts : SortedMap Route Partition}
    {written : List (FileId × Bytes)} (hok : ix.finish = .ok (files, parts, written)) :
    ∃ ix₀ ix₁ ix₂, ix.flush 0 = .ok ix₀ ∧ ix₀.flush 1 = .ok ix₁ ∧ ix₁.flush 2 = .ok ix₂ ∧
      parts = ix₂.parts ∧ written = ix₂.built ∧
      files = (ix₂.built.foldl (fun files written => files.insert written.1
        { generation := ix₂.generation, table := ix₂.table, kind := written.1.kind, segment := 0,
          size := written.2.length, crc := (crc32c written.2).toNat }) ix₂.files).toList.map
            Prod.snd := by
  obtain ⟨ix₀, h₀, hok⟩ := bind_eq_ok.mp hok
  obtain ⟨ix₁, h₁, hok⟩ := bind_eq_ok.mp hok
  obtain ⟨ix₂, h₂, hok⟩ := bind_eq_ok.mp hok
  cases hok
  exact ⟨ix₀, ix₁, ix₂, h₀, h₁, h₂, rfl, rfl, rfl⟩

/-- An index is done with once it is flushed. -/
theorem LaneState.idle_of_flush (h : LaneState disk shows ix i ds old opened)
    (hlsn : ix.lsn < 2 ^ 64) (hsound : ∀ d ∈ ds, d.Sound disk shows ix.table (kind i))
    (hok : ix.flush i = .ok ix') : ∃ old', Idle disk shows ix' i ds old' := by
  obtain ⟨ix₁, old', hflush, -, hidle, -⟩ := h.flush hlsn hsound
  cases hflush.symm.trans hok
  exact ⟨old', hidle⟩

/-- **Finishing**, seen from one of the indexes. -/
theorem LaneState.finish (h : LaneState disk shows ix i ds old opened) (hformed : ix.Formed disk)
    (hlsn : ix.lsn < 2 ^ 64) (hsound : ∀ d ∈ ds, d.Sound disk shows ix.table (kind i))
    {ix₀ ix₁ ix₂ : Indexes} (h₀ : ix.flush 0 = .ok ix₀) (h₁ : ix₀.flush 1 = .ok ix₁)
    (h₂ : ix₁.flush 2 = .ok ix₂) : ∃ old', Idle disk shows ix₂ i ds old' := by
  obtain ⟨hformed₀, hapart₀, -⟩ := hformed.flush h₀
  obtain ⟨hformed₁, hapart₁, -⟩ := hformed₀.flush h₁
  obtain ⟨-, hapart₂, -⟩ := hformed₁.flush h₂
  have hsame := hapart₀.same.trans hapart₁.same
  match i with
  | 0 =>
    obtain ⟨old', hidle⟩ := h.idle_of_flush hlsn hsound h₀
    exact ⟨old', (hidle.of_apart hapart₁ (by decide)).of_apart hapart₂ (by decide)⟩
  | 1 =>
    obtain ⟨old', hidle⟩ := (h.of_apart hapart₀ (by decide)).idle_of_flush (hapart₀.lsn ▸ hlsn)
      (hapart₀.table ▸ hsound) h₁
    exact ⟨old', hidle.of_apart hapart₂ (by decide)⟩
  | 2 =>
    exact ((h.of_apart hapart₀ (by decide)).of_apart hapart₁ (by decide)).idle_of_flush
      (hsame.lsn ▸ hlsn) (hsame.table ▸ hsound) h₂

end Finish

end Indexes

end EveDB
