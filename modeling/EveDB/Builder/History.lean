import EveDB.Builder.Segments

/-!
# History segments give every event back

A run of appends (`TableWriter.appendEvents`) leaves segments that hold a frame of each event, in
the order of the events, and hands the history index an entry of each, in the order of the keys
(`TableWriter.Appended`). A frame stays where it was written, since segments grow at their ends
alone, so an entry of the finished index leads to it; and the frame is read back as it was packed
(`eventAt_of_located`).
-/

namespace EveDB

open Store Index

namespace TableWriter

/-- What an append delivers: an entry of the history index, and the segment it leads to. -/
def delivery (noted : Entry × FileId) : Fin 3 × Delivery :=
  (historyIndex, .entry noted.1.1 noted.1.2 (some noted.2))

/-- **An event that is stored**: its entry has its key, and leads to its frame. -/
structure Placed (start : TableWriter) (segments : List (List Frame)) (e : ℕ × Event)
    (noted : Entry × FileId) : Prop where
  key : noted.1.1 = (e.1, e.2.version)
  generation : noted.1.2.1 = start.generation
  located : Located segments (eventFrame start.compress e.1 e.2) noted.1.2.2

/-- **What there is behind some appends**: the segments with the frames of the events, and the
entries that were delivered to the history index. -/
structure Appended (disk : Disk) (start : TableWriter) (events : List (ℕ × Event))
    (full : List (List Frame)) (last : List Frame) (noted : List (Entry × FileId))
    (w : TableWriter) : Prop where
  laid : Laid start full last w
  frames : (full ++ [last]).flatten = events.map fun e => eventFrame start.compress e.1 e.2
  placed : List.Forall₂ (Placed start (full ++ [last])) events noted
  delivering : Indexes.Delivering disk (fun _ => []) start.indexes w.indexes (noted.map delivery)

/-- **Events in key order**, under numbers of eight bytes. -/
structure Appendable (events : List (ℕ × Event)) : Prop where
  id_lt : ∀ e ∈ events, e.1 < 2 ^ 64
  admitted : ∀ e ∈ events, Event.Admitted e.2
  ordered : events.Pairwise fun e e' => toLex (e.1, e.2.version) < toLex (e'.1, e'.2.version)

section Run

variable {disk : Disk} {start w w' : TableWriter} {events more : List (ℕ × Event)}
  {full : List (List Frame)} {last : List Frame} {noted : List (Entry × FileId)}

theorem Appendable.of_append (h : Appendable (events ++ more)) : Appendable events where
  id_lt e he := h.id_lt e (List.mem_append_left _ he)
  admitted e he := h.admitted e (List.mem_append_left _ he)
  ordered := (List.pairwise_append.mp h.ordered).1

/-- The frame of an event is one that can be written. -/
theorem eventFrame_valid {compress : Bool} {id : ℕ} {event : Event} (h : Event.Admitted event) :
    (eventFrame compress id event).Valid where
  kind_lt := (by decide : 3 < 2 ^ 16)
  lsn_lt := h.typed.2.1
  length_le := by
    have hrecord := h.length_le
    have hframe : 13 + maxRecord ≤ maxFrame := by decide
    have hpack := @length_pack_le (encodeEvent event) compress id
    exact hpack.trans (by omega)

/-- What is said of pairs is said of every one on the right. -/
theorem exists_of_mem_right {α β : Type} {R : α → β → Prop} {l : List α} {l' : List β}
    (h : List.Forall₂ R l l') {b : β} (hb : b ∈ l') : ∃ a ∈ l, R a b := by
  induction h with
  | nil => cases hb
  | cons hR _ ih =>
    rcases List.mem_cons.mp hb with rfl | hb
    · exact ⟨_, List.mem_cons_self, hR⟩
    · obtain ⟨a, ha, hR⟩ := ih hb
      exact ⟨a, List.mem_cons_of_mem _ ha, hR⟩

theorem forall₂_of_mem {α β : Type} {R S : α → β → Prop} {l : List α} {l' : List β}
    (h : List.Forall₂ R l l') (himp : ∀ a ∈ l, ∀ b, R a b → S a b) : List.Forall₂ S l l' := by
  induction h with
  | nil => exact .nil
  | cons hR _ ih =>
    obtain ⟨ha, hl⟩ := List.forall_mem_cons.mp himp
    exact .cons (ha _ hR) (ih hl)

theorem Placed.mono {segments segments' : List (List Frame)} {e : ℕ × Event}
    {n : Entry × FileId} (h : Placed start segments e n) (hgrown : Grown segments segments') :
    Placed start segments' e n :=
  ⟨h.key, h.generation, h.located.mono hgrown⟩

/-! ### What is delivered -/

theorem delivered_history (noted : List (Entry × FileId)) :
    Indexes.delivered historyIndex (noted.map delivery) =
      noted.map fun n => Delivery.entry n.1.1 n.1.2 (some n.2) := by
  rw [Indexes.delivered, List.filter_eq_self.mpr, List.map_map]
  · rfl
  · rintro step hstep
    obtain ⟨n, -, rfl⟩ := List.mem_map.mp hstep
    exact decide_eq_true rfl

theorem delivered_other {i : Fin 3} (hi : i ≠ historyIndex) (noted : List (Entry × FileId)) :
    Indexes.delivered i (noted.map delivery) = [] := by
  rw [Indexes.delivered, List.filter_eq_nil_iff.mpr, List.map_nil]
  rintro step hstep heq
  obtain ⟨n, -, rfl⟩ := List.mem_map.mp hstep
  exact hi (of_decide_eq_true heq).symm

/-- The entries have the keys of the events. -/
theorem keys_of_placed {segments : List (List Frame)}
    (h : List.Forall₂ (Placed start segments) events noted) :
    noted.map (fun n => n.1.1) = events.map fun e => (e.1, e.2.version) := by
  induction h with
  | nil => rfl
  | cons hplaced _ ih => rw [List.map_cons, List.map_cons, hplaced.key, ih]

/-- **The history index is delivered to in order.** -/
theorem orderly_of_placed (disk : Disk) (table : ℕ) (hevents : Appendable events)
    (hgeneration : start.generation < 2 ^ 64) {segments : List (List Frame)}
    (h : List.Forall₂ (Placed start segments) events noted) :
    Indexes.Orderly disk (fun _ => []) table (noted.map delivery) := by
  refine ⟨fun i => ?_, fun i => ?_⟩
  · by_cases hi : i = historyIndex
    · subst hi
      rw [delivered_history]
      have hordered : (noted.map fun n => n.1.1).Pairwise fun k k' => toLex k < toLex k' := by
        rw [keys_of_placed h, List.pairwise_map]
        exact hevents.ordered
      exact List.pairwise_map.mpr ((List.pairwise_map.mp hordered).imp fun hlt => hlt)
    · rw [delivered_other hi]
      exact List.Pairwise.nil
  · by_cases hi : i = historyIndex
    · subst hi
      rw [delivered_history]
      rintro d hd
      obtain ⟨n, hn, rfl⟩ := List.mem_map.mp hd
      obtain ⟨e, he, hplaced⟩ := exists_of_mem_right h hn
      obtain ⟨_, _, _, -, hlocation⟩ := hplaced.located
      refine ⟨?_, ⟨?_, (splitEvent_eventLocation hlocation).2⟩, fun hkind => ?_⟩
      · rw [hplaced.key]
        exact ⟨hevents.id_lt e he, (hevents.admitted e he).typed.1⟩
      · rw [hplaced.generation]
        exact hgeneration
      · exact absurd hkind (by decide)
    · rw [delivered_other hi]
      exact List.forall_mem_nil _

/-! ### The run -/

theorem appended_create {table generation lsn limit maxIndexPartitions : ℕ} {compress : Bool}
    (h : create disk table generation lsn limit compress maxIndexPartitions = .ok w) :
    w.table = table ∧ w.generation = generation ∧ w.segmentLimit = limit ∧
      w.compress = compress ∧ w.indexes = .new table generation lsn maxIndexPartitions ∧
      Appended disk w [] [] [] [] w := by
  rw [create] at h
  split at h
  · cases h
  · cases h
    refine ⟨rfl, rfl, rfl, rfl, rfl, ?_, rfl, .nil, Indexes.delivering_new _ _ _ _ _ _⟩
    refine ⟨rfl, rfl, rfl, rfl, rfl, rfl, rfl, List.forall_mem_singleton.mpr ?_⟩
    exact ⟨List.forall_mem_nil _, fun hlimit => absurd hlimit (Nat.not_lt_zero _), Nat.zero_le _⟩

/-- Making room is no matter of the indexes. -/
theorem indexes_of_makeRoom {payload : Bytes} {w₁ : TableWriter}
    (h : (makeRoom disk payload).run w = (.ok (), w₁)) :
    w₁.indexes = w.indexes ∧ w₁.generation = w.generation := by
  rcases makeRoom_eq_ok h with ⟨rfl, -⟩ | rfl
  · exact ⟨rfl, rfl⟩
  · exact ⟨rfl, rfl⟩

/-- **One append** adds a frame to the segments and an entry to the history index. -/
theorem Appended.appendEvent {e : ℕ × Event} (h : Appended disk start events full last noted w)
    (hevents : Appendable (events ++ [e])) (hgeneration : start.generation < 2 ^ 64)
    (hlsn : start.indexes.lsn < 2 ^ 64) (hnew : disk (start.indexes.file historyIndex) = none)
    (hrun : (appendEvent disk e.1 e.2).run w = (.ok (), w')) :
    ∃ full' last' noted', Appended disk start (events ++ [e]) full' last' noted' w' := by
  obtain ⟨w₁, location, indexes, hroom, hlocation, hindexes, rfl⟩ := appendEvent_eq_ok hrun
  rw [h.laid.compress] at hroom
  obtain ⟨hsame, hgeneration₁⟩ := indexes_of_makeRoom hroom
  have hadmitted := hevents.admitted e (List.mem_append_right _ (List.mem_singleton_self e))
  obtain ⟨full', last', hgrown, hflatten, hlocated, hlaid⟩ :=
    h.laid.write (eventFrame_valid hadmitted) hroom hlocation indexes
  let entry : Entry × FileId :=
    (((e.1, e.2.version), w₁.generation, location), w₁.historyFile w₁.segment)
  have hplaced : List.Forall₂ (Placed start (full' ++ [last'])) (events ++ [e])
      (noted ++ [entry]) := by
    refine List.rel_append (h.placed.imp fun _ _ hold => hold.mono hgrown) (.cons ?_ .nil)
    exact ⟨rfl, hgeneration₁.trans h.laid.generation, hlocated⟩
  have horderly := orderly_of_placed disk start.indexes.table hevents hgeneration hplaced
  rw [List.map_append] at horderly
  refine ⟨full', last', noted ++ [entry], ?_, ?_, hplaced, ?_⟩
  · rwa [← h.laid.compress] at hlaid
  · rw [hflatten, h.frames, List.map_append]
    rfl
  · rw [List.map_append]
    rcases h.delivering.deliver hlsn horderly hnew with ⟨herror, -⟩ | ⟨ix, hok, hdelivering⟩
    · rw [← hsame, Indexes.deliver, hindexes] at herror
      cases herror
    · rw [← hsame, Indexes.deliver, hindexes] at hok
      cases hok
      exact hdelivering

/-- **A run of appends.** -/
theorem Appended.appendEvents (h : Appended disk start events full last noted w)
    (hevents : Appendable (events ++ more)) (hgeneration : start.generation < 2 ^ 64)
    (hlsn : start.indexes.lsn < 2 ^ 64) (hnew : disk (start.indexes.file historyIndex) = none)
    (hrun : (appendEvents disk more).run w = (.ok (), w')) :
    ∃ full' last' noted', Appended disk start (events ++ more) full' last' noted' w' := by
  induction more generalizing w events full last noted with
  | nil =>
    cases hrun
    rw [List.append_nil]
    exact ⟨full, last, noted, h⟩
  | cons e more ih =>
    obtain ⟨⟨⟩, w₁, hfirst, hrest⟩ := Fallible.run_bind_eq_ok.mp hrun
    rw [List.append_cons] at hevents ⊢
    obtain ⟨full', last', noted', h₁⟩ :=
      h.appendEvent hevents.of_append hgeneration hlsn hnew hfirst
    exact ih h₁ hevents hrest

/-! ### Reading back -/

/-- **A frame is read where it is**, from a file of whole frames. -/
theorem read_frame {before after : List Frame} {f : Frame} {limit : ℕ}
    (h : Segment limit (before ++ f :: after)) :
    let bytes := Frame.format.encodeAll (before ++ f :: after)
    let offset := (Frame.format.encodeAll before).length
    Frame.payloadSizeAt bytes offset bytes.length = .ok f.payload.length ∧
      Frame.readAt bytes offset bytes.length = .ok (some f) := by
  have hlt : before.length < (before ++ f :: after).length := by
    rw [List.length_append, List.length_cons]
    omega
  have hget : (before ++ f :: after)[before.length] = f := by
    rw [List.getElem_append_right (Nat.le_refl _)]
    simp only [Nat.sub_self, List.getElem_cons_zero]
  have hstart : Frame.start (before ++ f :: after) before.length =
      (Frame.format.encodeAll before).length := by
    rw [Frame.start, List.take_left]
  have hend : Frame.start (before ++ f :: after) (before.length + 1) ≤
      (Frame.format.encodeAll (before ++ f :: after)).length := by
    conv_rhs => rw [← List.take_length (l := before ++ f :: after)]
    exact Frame.start_mono hlt
  have hsize := @Frame.payloadSizeAt_cut _ (Frame.format.encodeAll (before ++ f :: after)).length _
    h.valid hlt
  have hread := Frame.read_whole h.valid hlt hend
  rw [List.take_length, hstart, hget] at hsize hread
  dsimp only
  refine ⟨?_, ?_⟩
  · rw [hsize, if_pos hend]
    exact h.short.trans (by decide)
  · rw [Frame.readAt_eq, hread]
    rfl

/-- **A frame that is read is the event it was made of.** -/
theorem eventAt_of_frame {root : Checkpoint} {table id size : ℕ} {compress : Bool}
    {location : IndexValue} {event : Event}
    (hgeneration : root.manifest.historyGenerations.contains location.1)
    (hsize : root.files.payloadSize ⟨table, location.1, 6, (splitEvent location.2).1⟩
      (splitEvent location.2).2 = .ok size)
    (hframe : root.files.frame ⟨table, location.1, 6, (splitEvent location.2).1⟩
      (splitEvent location.2).2 = .ok (some (eventFrame compress id event)))
    (hid : id < 2 ^ 64) (h : Event.Admitted event) :
    (root.eventAt table location).result = .ok (id, event, event.transaction) := by
  have hunpack := @unpack_pack (encodeEvent event) compress id hid h.length_le
  obtain ⟨hdecode, hscan⟩ := h.read_record
  unfold Checkpoint.eventAt
  rw [if_neg (not_not.mpr hgeneration)]
  dsimp only
  simp only [Guarded.result_bind, Guarded.result_lift, hsize, ok_bind, Guarded.result_ask, hframe]
  have hkind : ¬ (eventFrame compress id event).kind ≠ 3 := not_not.mpr rfl
  rw [if_neg hkind]
  simp only [Guarded.result_bind, Guarded.result_lift, Guarded.result_ask, eventFrame, hunpack,
    ok_bind, hscan, hdecode]
  rfl

/-- **An event that is stored is read back** under its entry, from any directory that has the
segments. -/
theorem Placed.eventAt {segments : List (List Frame)} {e : ℕ × Event} {n : Entry × FileId}
    {limit : ℕ} (h : Placed start segments e n)
    (hsegments : ∀ frames ∈ segments, Segment limit frames)
    {root : Root} {files : Files} {disk' : Disk}
    (hgeneration : root.historyGenerations.contains start.generation)
    (hdisk : ∀ (k : ℕ) frames, segments[k]? = some frames →
      disk' ⟨start.table, start.generation, 6, k⟩ = some (Frame.format.encodeAll frames))
    (hid : e.1 < 2 ^ 64) (hevent : Event.Admitted e.2) :
    ((Checkpoint.mk root (files.onDisk disk')).eventAt start.table n.1.2).result =
      .ok (e.1, e.2, e.2.transaction) := by
  obtain ⟨k, before, after, hget, hlocation⟩ := h.located
  obtain ⟨hsize, hread⟩ := read_frame (hsegments _ (List.mem_of_getElem? hget))
  have hfile := hdisk k _ hget
  obtain ⟨hsplit, -⟩ := splitEvent_eventLocation hlocation
  rw [← h.generation] at hgeneration hfile
  have hsize' : (files.onDisk disk').payloadSize
      ⟨start.table, n.1.2.1, 6, (splitEvent n.1.2.2).1⟩ (splitEvent n.1.2.2).2 =
        .ok (eventFrame start.compress e.1 e.2).payload.length := by
    rw [hsplit]
    dsimp only [Files.onDisk]
    rw [Disk.read, hfile]
    exact hsize
  have hread' : (files.onDisk disk').frame
      ⟨start.table, n.1.2.1, 6, (splitEvent n.1.2.2).1⟩ (splitEvent n.1.2.2).2 =
        .ok (some (eventFrame start.compress e.1 e.2)) := by
    rw [hsplit]
    dsimp only [Files.onDisk]
    rw [Disk.read, hfile]
    exact hread
  exact eventAt_of_frame hgeneration hsize' hread' hid hevent

/-! ### Finishing -/

/-- The description of a segment with its frames, under its number. -/
def describe (table generation n : ℕ) (frames : List Frame) : FileInfo where
  generation
  table
  kind := 6
  segment := n
  size := (Frame.format.encodeAll frames).length
  crc := (crc32c (Frame.format.encodeAll frames)).toNat

/-- What succeeds everywhere is mapped. -/
theorem mapM_eq_ok {α β : Type} {f : α → Result β} {g : α → β} {l : List α}
    (h : ∀ a ∈ l, f a = .ok (g a)) : l.mapM f = .ok (l.map g) := by
  induction l with
  | nil => rfl
  | cons a l ih =>
    obtain ⟨ha, hl⟩ := List.forall_mem_cons.mp h
    rw [List.mapM_cons, ha, ok_bind, ih hl]
    rfl

/-- The segments have names of their own. -/
theorem nodup_segmentFile (table generation : ℕ) (segments : List (List Frame)) :
    ((segments.mapIdx (segmentFile table generation)).map Prod.fst).Nodup := by
  have hnames : (segments.mapIdx (segmentFile table generation)).map Prod.fst =
      (List.range segments.length).map fun n => ⟨table, generation, 6, n⟩ := by
    refine List.ext_getElem ?_ fun n hn hn' => ?_
    · rw [List.length_map, List.length_mapIdx, List.length_map, List.length_range]
    · rw [List.getElem_map, List.getElem_mapIdx, List.getElem_map, List.getElem_range]
      rfl
  rw [hnames]
  refine List.Nodup.map ?_ List.nodup_range
  rintro n n' heq
  exact congrArg FileId.segment heq

theorem mem_segments {table generation n : ℕ} {segments : List (List Frame)} {frames : List Frame}
    (h : segments[n]? = some frames) :
    segmentFile table generation n frames ∈ segments.mapIdx (segmentFile table generation) := by
  refine List.mem_of_getElem? (i := n) ?_
  rw [List.getElem?_mapIdx, h]
  rfl

/-- **The segments are described by their content**, in the order of their numbers. -/
theorem Laid.segmentInfos (h : Laid start full last w) (disk : Disk) :
    (List.range (w.segment + 1)).mapM (w.segmentInfo disk) =
      .ok ((full ++ [last]).mapIdx (describe start.table start.generation)) := by
  have hlength : (full ++ [last]).length = w.segment + 1 := by
    rw [List.length_append, h.segment]
    rfl
  have hinfo : ∀ n ∈ List.range (w.segment + 1), w.segmentInfo disk n =
      .ok (describe start.table start.generation n ((full ++ [last]).getD n [])) := by
    rintro n hn
    rw [List.mem_range, ← hlength] at hn
    have hget := List.getElem?_eq_getElem hn
    have hwritten := @Disk.write_of_mem disk _
      (nodup_segmentFile start.table start.generation (full ++ [last])) _ (mem_segments hget)
    rw [segmentInfo, historyFile, h.segments_eq, h.table, h.generation, Disk.read]
    rw [segmentFile] at hwritten
    rw [hwritten, List.getD_eq_getElem?_getD, hget]
    rfl
  rw [mapM_eq_ok hinfo]
  refine congrArg Except.ok (List.ext_getElem ?_ fun n hn hn' => ?_)
  · rw [List.length_map, List.length_range, List.length_mapIdx, hlength]
  · rw [List.length_mapIdx] at hn'
    rw [List.getElem_map, List.getElem_range, List.getElem_mapIdx, List.getD_eq_getElem?_getD,
      List.getElem?_eq_getElem hn', Option.getD_some]

/-- **Finishing** never fails behind appends in order. -/
theorem Appended.finish (h : Appended disk start events full last noted w)
    (hevents : Appendable events) (hgeneration : start.generation < 2 ^ 64)
    (hlsn : start.indexes.lsn < 2 ^ 64) :
    ∃ ix files, w.finish disk =
        .ok (files ++ (full ++ [last]).mapIdx (describe start.table start.generation), ix.parts,
          ix.built ++ (full ++ [last]).mapIdx (segmentFile start.table start.generation)) ∧
      Indexes.Finished disk (fun _ => []) start.indexes ix (noted.map delivery) := by
  have horderly := orderly_of_placed disk start.indexes.table hevents hgeneration h.placed
  obtain ⟨ix, files, hfinish, hfinished⟩ := h.delivering.finish hlsn horderly
  refine ⟨ix, files, ?_, hfinished⟩
  rw [TableWriter.finish, hfinish, ok_bind]
  dsimp only
  rw [h.laid.segmentInfos, ok_bind, h.laid.segments_eq]
  rfl

/-- A file that is there is not taken for a new one. -/
theorem start_of_exists {ix : Indexes} {i : Fin 3} {key : Key}
    (hhandle : (ix.lanes i).handle = none) (hthere : (disk (ix.file i)).isSome) :
    ix.start disk i key = .error (.io "File exists (os error 17)") := by
  unfold Indexes.start
  rw [hhandle]
  dsimp only
  rw [if_pos hthere]
  rfl

/-- New indexes take an entry only where their file is not there. -/
theorem file_new_of_append {table generation lsn limit : ℕ} {i : Fin 3} {key : Key}
    {value : IndexValue} {dependency : Option FileId} {ix : Indexes}
    (h : (Indexes.new table generation lsn limit).append disk i key value dependency = .ok ix) :
    disk ((Indexes.new table generation lsn limit).file i) = none := by
  obtain ⟨_, ⟨⟩, h⟩ := bind_eq_ok.mp h
  obtain ⟨_, -, h⟩ := bind_eq_ok.mp h
  split at h
  · cases h
  · obtain ⟨_, hstart, -⟩ := bind_eq_ok.mp h
    refine Option.not_isSome_iff_eq_none.mp fun hthere => ?_
    rw [start_of_exists rfl hthere] at hstart
    cases hstart

/-- **A run of a new writer**: what there is behind it. -/
theorem appended_of_run {table generation lsn limit maxIndexPartitions : ℕ} {compress : Bool}
    (hcreate : create disk table generation lsn limit compress maxIndexPartitions = .ok w)
    (hevents : Appendable events) (hgeneration : generation < 2 ^ 64) (hlsn : lsn < 2 ^ 64)
    (hrun : (TableWriter.appendEvents disk events).run w = (.ok (), w')) :
    ∃ full last noted, Appended disk w events full last noted w' := by
  obtain ⟨-, hgeneration', -, -, hindexes, happended⟩ := appended_create hcreate
  match events, hevents, hrun with
  | [], _, hrun =>
    cases hrun
    exact ⟨[], [], [], happended⟩
  | e :: events, hevents, hrun =>
    -- the first append has opened the file of the index
    obtain ⟨⟨⟩, w₁, hfirst, -⟩ := Fallible.run_bind_eq_ok.mp hrun
    obtain ⟨w₂, location, indexes, hroom, -, hok, -⟩ := appendEvent_eq_ok hfirst
    rw [(indexes_of_makeRoom hroom).1, hindexes] at hok
    have hnew := file_new_of_append hok
    rw [← hindexes] at hnew
    have hlsn' : w.indexes.lsn < 2 ^ 64 := by rwa [hindexes]
    exact happended.appendEvents hevents (hgeneration'.symm ▸ hgeneration) hlsn' hnew hrun

/-! ### Appends that do not fit -/

/-- Where the frame of a payload is to go. -/
def place (w : TableWriter) (payload : Bytes) : ℕ × ℕ :=
  if w.rotates payload then (w.segment + 1, 0) else (w.segment, w.history.2.length)

/-- **Making room**, whether it succeeds or not, writes no frame. -/
theorem makeRoom_cases (w : TableWriter) (disk : Disk) (payload : Bytes) :
    ∃ r w₁, (makeRoom disk payload).run w = (r, w₁) ∧ w₁.indexes = w.indexes ∧
      (w₁.segments = w.segments ∨
        w₁.segments = w.segments ++ [(w.historyFile (w.segment + 1), [])]) ∧
      (r = .ok () → (w₁.segment, w₁.history.2.length) = w.place payload) := by
  unfold makeRoom
  rw [Fallible.run_bind_of_ok (Fallible.run_get w), place]
  by_cases hrotates : w.rotates payload = true
  · rw [if_pos hrotates, if_pos hrotates]
    unfold rotate
    rw [Fallible.run_bind_of_ok (Fallible.run_get w)]
    rcases hsegment : checkedAdd w.segment 1 with _ | segment
    · exact ⟨_, w, rfl, rfl, .inl rfl, fun h => by cases h⟩
    · obtain ⟨rfl, -⟩ := checkedAdd_eq_some.mp hsegment
      dsimp only
      rw [Fallible.run_bind_of_ok (Fallible.run_modify _ w)]
      split
      · exact ⟨_, _, rfl, rfl, .inl rfl, fun h => by cases h⟩
      · exact ⟨_, _, rfl, rfl, .inr rfl, fun _ => rfl⟩
  · rw [if_neg hrotates, if_neg hrotates]
    exact ⟨_, w, rfl, rfl, .inl rfl, fun _ => rfl⟩

/-- **An append that does not fit fails before its frame is written.** -/
theorem appendEvent_of_unfit {id : ℕ} {event : Event}
    (h : 65535 < (w.place (eventFrame w.compress id event).payload).1 ∨
      2 ^ 48 ≤ (w.place (eventFrame w.compress id event).payload).2) :
    ∃ e w₁, (TableWriter.appendEvent disk id event).run w = (.error e, w₁) ∧
      w₁.indexes = w.indexes ∧ (w₁.segments = w.segments ∨
        w₁.segments = w.segments ++ [(w.historyFile (w.segment + 1), [])]) := by
  obtain ⟨r, w₁, hroom, hindexes, hsegments, hplace⟩ :=
    makeRoom_cases w disk (eventFrame w.compress id event).payload
  rw [eventFrame] at hroom
  unfold TableWriter.appendEvent
  rw [Fallible.run_bind_of_ok (Fallible.run_get w)]
  dsimp only at hroom ⊢
  rcases r with e | ⟨⟩
  · exact ⟨e, w₁, Fallible.run_bind_of_error hroom _, hindexes, hsegments⟩
  · rw [Fallible.run_bind_of_ok hroom, Fallible.run_bind_of_ok (Fallible.run_get w₁)]
    have hlocation : eventLocation w₁.segment w₁.history.2.length =
        .error (.invalid "history location exhausted") := by
      rw [← hplace rfl] at h
      exact if_pos h
    rw [hlocation]
    exact ⟨_, w₁, rfl, hindexes, hsegments⟩

/-! ### Every event is given back -/

/-- The files of a table have names of their own. -/
theorem nodup_written (ix : Indexes) (table generation : ℕ) (segments : List (List Frame)) :
    ((ix.built ++ segments.mapIdx (segmentFile table generation)).map Prod.fst).Nodup := by
  rw [List.map_append]
  refine (Indexes.nodup_built ix).append (nodup_segmentFile table generation segments) ?_
  rintro id hbuilt hsegment
  obtain ⟨file, hfile, rfl⟩ := List.mem_map.mp hbuilt
  obtain ⟨i, -, hid⟩ := Indexes.mem_built_iff.mp hfile
  obtain ⟨segment, hsegment, hsame⟩ := List.mem_map.mp hsegment
  obtain ⟨n, hn, rfl⟩ := List.mem_mapIdx.mp hsegment
  -- the kinds of index files end before that of history files
  have hkind := congrArg FileId.kind (hid.trans hsame.symm)
  change (i : ℕ) + 3 = 6 at hkind
  omega

/-- **History segments give every event back.** When events are appended in key order, for any
limit on the segments and whether they are compressed or not, and no append fails, then the writer
finishes with segments that are numbered from zero, hold the frames of the events in their order,
and are over the limit only with a single frame; and whoever has the files and the partitions of
the writer reads each event back under its entry of the history index. An append whose segment or
offset does not fit a location fails without a frame. -/
theorem history_gives_every_event_back {table generation lsn limit maxIndexPartitions : ℕ}
    {compress : Bool}
    (hcreate : create disk table generation lsn limit compress maxIndexPartitions = .ok w)
    (hgeneration : generation < 2 ^ 64) (hlsn : lsn < 2 ^ 64) (hevents : Appendable events)
    (hrun : (TableWriter.appendEvents disk events).run w = (.ok (), w')) :
    (∃ (segments : List (List Frame)) (entries : List Entry) (files : List FileInfo)
        (parts : SortedMap Route Partition) (written : List (FileId × Bytes)),
      w'.finish disk = .ok (files ++ segments.mapIdx (describe table generation), parts, written) ∧
      (written.map Prod.fst).Nodup ∧
      (∀ file ∈ segments.mapIdx (segmentFile table generation), file ∈ written) ∧
      segments.flatten = events.map (fun e => eventFrame compress e.1 e.2) ∧
      (∀ frames ∈ segments, limit < (Frame.format.encodeAll frames).length →
        frames.length = 1) ∧
      ∀ (root : Root) (files : Files) (disk' : Disk),
        (∀ route : Route, route.1 = table → root.partitions[route]? = parts[route]?) →
        root.historyGenerations.contains generation →
        (∀ file bytes, disk file = some bytes → disk' file = some bytes) →
        (∀ file ∈ written, disk' file.1 = some file.2 ∧ file.2.length ≤ maxU64) →
        Transparent root disk' table 4 entries ∧
        List.Forall₂ (fun e entry => entry.1 = (e.1, e.2.version) ∧
          ((Checkpoint.mk root (files.onDisk disk')).eventAt table entry.2).result =
            .ok (e.1, e.2, e.2.transaction)) events entries) ∧
      ∀ (id : ℕ) (event : Event),
        (65535 < (w'.place (eventFrame w'.compress id event).payload).1 ∨
          2 ^ 48 ≤ (w'.place (eventFrame w'.compress id event).payload).2) →
        ∃ e w₁, (TableWriter.appendEvent disk id event).run w' = (.error e, w₁) ∧
          w₁.indexes = w'.indexes ∧ (w₁.segments = w'.segments ∨
            w₁.segments = w'.segments ++ [(w'.historyFile (w'.segment + 1), [])]) := by
  refine ⟨?_, fun id event hunfit => appendEvent_of_unfit hunfit⟩
  obtain ⟨full, last, noted, h⟩ := appended_of_run hcreate hevents hgeneration hlsn hrun
  obtain ⟨rfl, rfl, rfl, rfl, hindexes, -⟩ := appended_create hcreate
  have hlsn' : w.indexes.lsn < 2 ^ 64 := by rwa [hindexes]
  obtain ⟨ix, files, hfinish, hfinished⟩ := h.finish hevents hgeneration hlsn'
  refine ⟨full ++ [last], noted.map Prod.fst, files, ix.parts, _, hfinish,
    nodup_written ix _ _ _, fun file hfile => List.mem_append_right _ hfile, h.frames,
    fun frames hframes => (h.laid.segments frames hframes).single, ?_⟩
  rintro root others disk' hroot hcontains hextends hwritten
  obtain ⟨hbuilt, hsegments⟩ := List.forall_mem_append.mp hwritten
  have htable : w.indexes.table = w.table := by rw [hindexes]; rfl
  refine ⟨?_, ?_⟩
  · -- the finished index is read as the list of the entries
    have horderly := orderly_of_placed disk w.indexes.table hevents hgeneration h.placed
    have hrouted := hfinished.routed horderly hextends hbuilt
      (fun route hroute => hroot route (hroute.trans htable)) historyIndex
    rw [delivered_history, htable, List.flatMap_map] at hrouted
    have hentries : noted.flatMap (fun n =>
        (Delivery.entry n.1.1 n.1.2 (some n.2)).entries fun _ => []) = noted.map Prod.fst :=
      List.map_eq_flatMap.symm
    rw [hentries] at hrouted
    exact hrouted.transparent
  · rw [List.forall₂_map_right_iff]
    refine forall₂_of_mem h.placed fun e he n hplaced => ⟨hplaced.key, ?_⟩
    refine hplaced.eventAt h.laid.segments hcontains ?_ (hevents.id_lt e he)
      (hevents.admitted e he)
    rintro k frames hget
    exact (hsegments _ (mem_segments hget)).1

/-- An entity of one field is changed and then deleted. -/
theorem history_gives_every_event_back_two :
    let fields : Fields := Std.ExtTreeMap.ofList [(1, .bytes (List.replicate 64 7))] compare
    let events : List (ℕ × Event) := [(7, ⟨2, 9, 1, .apply, fields⟩), (7, ⟨3, 9, 1, .delete, ∅⟩)]
    ∃ (w w' : TableWriter) (infos : List FileInfo) (parts : SortedMap Route Partition)
      (written : List (FileId × Bytes)) (entries : List Entry),
      create (fun _ => none) 1 2 9 4096 true 8 = .ok w ∧
      (TableWriter.appendEvents (fun _ => none) events).run w = (.ok (), w') ∧
      w'.finish (fun _ => none) = .ok (infos, parts, written) ∧
      ((∀ file ∈ written, file.2.length ≤ maxU64) → ∀ root : Root, root.partitions = parts →
        root.historyGenerations.contains 2 → List.Forall₂ (fun e entry =>
          entry.1 = (e.1, e.2.version) ∧
          ((Checkpoint.mk root (Files.empty.onDisk (Disk.write (fun _ => none) written))).eventAt 1
            entry.2).result = .ok (e.1, e.2, 9)) events entries) := by
  intro fields events
  let schema : Schema := ⟨1, [⟨1, "body", .bytes, false⟩]⟩
  have hschema : schema.validate = .ok () := by decide
  have hadmitted (version : ℕ) (hversion : version < 2 ^ 64) (kind : EventKind) (fields : Fields)
      (htyped : fields.Typed) (hnormal : (schema.normalize fields false).toBool = true) :
      Event.Admitted ⟨version, 9, 1, kind, fields⟩ := by
    refine ⟨⟨hversion, (by decide : 9 < 2 ^ 64), (by decide : 1 < 2 ^ 64), htyped⟩, schema, fields,
      hschema, ?_⟩
    rcases hok : schema.normalize fields false with e | out
    · rw [hok] at hnormal
      cases hnormal
    · rw [(assignments_of_normalize hok).1]
  have hevents : Appendable events := by
    refine ⟨?_, ?_, ?_⟩
    · exact List.forall_mem_cons.mpr ⟨by decide, List.forall_mem_singleton.mpr (by decide)⟩
    · refine List.forall_mem_cons.mpr ⟨?_, List.forall_mem_singleton.mpr ?_⟩
      · have hlist : fields.toList = [(1, .bytes (List.replicate 64 7))] := by decide +kernel
        refine hadmitted 2 (by decide) .apply fields ?_ (by decide +kernel)
        rw [Fields.Typed, hlist]
        exact List.forall_mem_singleton.mpr ⟨by decide, (by decide : 64 < 2 ^ 64)⟩
      · refine hadmitted 3 (by decide) .delete ∅ ?_ (by decide +kernel)
        rw [Fields.Typed, SortedMap.toList_empty]
        exact List.forall_mem_nil _
    · exact List.pairwise_pair.mpr (Prod.Lex.toLex_lt_toLex.mpr (Or.inr ⟨rfl, by decide⟩))
  obtain ⟨w, hcreate⟩ : ∃ w, create (fun _ => none) 1 2 9 4096 true 8 = .ok w := ⟨_, rfl⟩
  obtain ⟨w', hrun⟩ : ∃ w', (TableWriter.appendEvents (fun _ => none) events).run w =
      (.ok (), w') := by
    refine Fallible.exists_run_eq_ok ?_
    cases hcreate
    decide +kernel
  obtain ⟨⟨segments, entries, files, parts, written, hfinish, hnodup, -, -, -, hroot⟩, -⟩ :=
    history_gives_every_event_back hcreate (by decide) (by decide) hevents hrun
  refine ⟨w, w', _, parts, written, entries, hcreate, hrun, hfinish, ?_⟩
  rintro hsize root hparts hgeneration
  obtain ⟨-, hread⟩ := hroot root Files.empty (Disk.write (fun _ => none) written)
    (fun route _ => by rw [hparts]) hgeneration (fun _ _ h => by cases h)
    (fun file hfile => ⟨Disk.write_of_mem hnodup hfile, hsize file hfile⟩)
  refine forall₂_of_mem hread fun e he entry hentry => ?_
  have htransaction : e.2.transaction = 9 := by
    rcases List.mem_pair.mp he with rfl | rfl <;> rfl
  rwa [htransaction] at hentry

end Run

end TableWriter

end EveDB
