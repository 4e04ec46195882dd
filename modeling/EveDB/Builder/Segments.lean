import EveDB.Builder.Delivered
import EveDB.Storage.Stream
import EveDB.Store.Packing

/-!
# History segments

How a table writer stores events (`TableWriter::append_event` in `snapshot.rs`). An event becomes
a frame of the segment that is open, and an entry of the history index that says where the frame
is: the segment in the upper 16 bits of a location, the offset in the lower 48
(`eventLocation`). A segment that is not empty and would outgrow its limit is left behind, and
the next one is opened (`TableWriter.makeRoom`).
-/

namespace EveDB

open Store

/-- The location of a frame. -/
def eventLocation (segment offset : ℕ) : Result ℕ :=
  if 65535 < segment ∨ 2 ^ 48 ≤ offset then .error (.invalid "history location exhausted")
  else .ok (segment * 2 ^ 48 ||| offset)

/-- The index of the events, which is the second of a table. -/
def historyIndex : Fin 3 := (Fin.last 1).castSucc

/-- **What a table writer stores events with**: the indexes of the table, the history segments it
has left behind, and the one that is open. -/
structure TableWriter where
  indexes : Indexes
  full : List (FileId × Bytes)
  history : FileId × Bytes
  segment : ℕ
  segmentLimit : ℕ
  compress : Bool
  table : ℕ
  generation : ℕ

namespace TableWriter

variable (w : TableWriter)

/-- The file of a segment of the history. -/
def historyFile (segment : ℕ) : FileId := ⟨w.table, w.generation, 6, segment⟩

/-- The segments there are. -/
def segments : List (FileId × Bytes) := w.full ++ [w.history]

/-- A writer for a table of a new generation. -/
def create (disk : Disk) (table generation lsn limit : ℕ) (compress : Bool)
    (maxIndexPartitions : ℕ) : Result TableWriter :=
  if (disk ⟨table, generation, 6, 0⟩).isSome then .error (.io "File exists (os error 17)")
  else .ok {
    indexes := .new table generation lsn maxIndexPartitions
    full := []
    history := (⟨table, generation, 6, 0⟩, [])
    segment := 0
    segmentLimit := limit
    compress
    table
    generation }

/-- Whether a payload goes to the next segment. -/
def rotates (payload : Bytes) : Bool :=
  decide (w.history.2.length ≠ 0 ∧ w.segmentLimit < w.history.2.length + payload.length + 40)

/-- Opens the next segment. -/
def rotate (disk : Disk) : Fallible Error TableWriter Unit := do
  let w ← get
  match checkedAdd w.segment 1 with
  | none => Fallible.lift (corrupt "history segment exhausted")
  | some segment => do
    modify fun w => { w with segment }
    if (disk.write w.segments (w.historyFile segment)).isSome then
      Fallible.lift (.error (.io "File exists (os error 17)"))
    else modify fun w => { w with full := w.segments, history := (w.historyFile segment, []) }

/-- Opens the next segment when a payload does not fit the one that is open. -/
def makeRoom (disk : Disk) (payload : Bytes) : Fallible Error TableWriter Unit := do
  if (← get).rotates payload then rotate disk else pure ()

/-- **Stores an event**, and indexes it. -/
def appendEvent (disk : Disk) (id : ℕ) (event : Event) : Fallible Error TableWriter Unit := do
  let payload := pack id (encodeEvent event) (← get).compress
  makeRoom disk payload
  let w ← get
  let location ← Fallible.lift (eventLocation w.segment w.history.2.length)
  let bytes ← Fallible.lift (Frame.encode 3 event.transaction payload)
  set { w with history := (w.history.1, w.history.2 ++ bytes) }
  let indexes ← Fallible.lift (w.indexes.append disk historyIndex (id, event.version)
    (w.generation, location) (some (w.historyFile w.segment)))
  modify fun w => { w with indexes }

/-- Stores one event after the other. -/
def appendEvents (disk : Disk) : List (ℕ × Event) → Fallible Error TableWriter Unit
  | [] => pure ()
  | (id, event) :: events => do
    appendEvent disk id event
    appendEvents disk events

/-- The description of a history segment, taken from its file. -/
def segmentInfo (disk : Disk) (segment : ℕ) : Result FileInfo :=
  (disk.write w.segments).read (w.historyFile segment) fun bytes => .ok {
    generation := w.generation
    table := w.table
    kind := 6
    segment
    size := bytes.length
    crc := (crc32c bytes).toNat }

/-- Finishes the indexes and the history, and returns the files of the manifest, the partitions of
the indexes, and what was written. -/
def finish (disk : Disk) :
    Result (List FileInfo × SortedMap Route Partition × List (FileId × Bytes)) := do
  let (files, parts, built) ← w.indexes.finish
  let history ← (List.range (w.segment + 1)).mapM (w.segmentInfo disk)
  return (files ++ history, parts, built ++ w.segments)

end TableWriter

/-! ### Locations -/

theorem eventLocation_eq_ok {segment offset location : ℕ} :
    eventLocation segment offset = .ok location ↔
      segment ≤ 65535 ∧ offset < 2 ^ 48 ∧ location = segment * 2 ^ 48 + offset := by
  rw [eventLocation]
  split
  · next h =>
    refine ⟨?_, ?_⟩
    · rintro ⟨⟩
    · rintro ⟨hsegment, hoffset, -⟩
      omega
  · next h =>
    obtain ⟨hsegment, hoffset⟩ := not_or.mp h
    rw [← Nat.shiftLeft_eq, ← Nat.shiftLeft_add_eq_or_of_lt (not_le.mp hoffset), Except.ok.injEq,
      eq_comm]
    exact ⟨fun heq => ⟨not_lt.mp hsegment, not_le.mp hoffset, heq⟩, fun h => h.2.2⟩

/-- **A location is split** into the segment and the offset it was made of. -/
theorem splitEvent_eventLocation {segment offset location : ℕ}
    (h : eventLocation segment offset = .ok location) :
    splitEvent location = (segment, offset) ∧ location < 2 ^ 64 := by
  obtain ⟨hsegment, hoffset, rfl⟩ := eventLocation_eq_ok.mp h
  refine ⟨Prod.ext ?_ ?_, by omega⟩
  · change (segment * 2 ^ 48 + offset) / 2 ^ 48 = segment
    omega
  · change (segment * 2 ^ 48 + offset) % 2 ^ 48 = offset
    omega

namespace TableWriter

/-! ### One append -/

variable {w w' : TableWriter} {disk : Disk}

/-- **What making room does**: nothing, or it leaves a segment behind that the payload would have
made too long. -/
theorem makeRoom_eq_ok {payload : Bytes}
    (h : (makeRoom disk payload).run w = (.ok (), w')) :
    w' = w ∧ (w.history.2 = [] ∨ w.history.2.length + payload.length + 40 ≤ w.segmentLimit) ∨
      w' = { w with
        segment := w.segment + 1
        full := w.segments
        history := (w.historyFile (w.segment + 1), []) } := by
  obtain ⟨w₀, _, hget, h⟩ := Fallible.run_bind_eq_ok.mp h
  cases hget
  split at h
  · refine Or.inr ?_
    obtain ⟨w₁, _, hget, h⟩ := Fallible.run_bind_eq_ok.mp h
    cases hget
    split at h
    · cases h
    · next segment hsegment =>
      obtain ⟨rfl, -⟩ := checkedAdd_eq_some.mp hsegment
      obtain ⟨⟨⟩, _, hmodify, h⟩ := Fallible.run_bind_eq_ok.mp h
      cases hmodify
      split at h
      · cases h
      · cases h
        rfl
  · next hroom =>
    cases h
    rw [rotates, decide_eq_true_iff, not_and_or, not_not, not_lt] at hroom
    exact Or.inl ⟨rfl, hroom.imp_left List.length_eq_zero_iff.mp⟩

/-- The frame of an event. -/
def eventFrame (compress : Bool) (id : ℕ) (event : Event) : Frame where
  kind := 3
  lsn := event.transaction
  payload := pack id (encodeEvent event) compress

/-- **What an append that succeeds does**: behind making room, it writes the frame to the end of
the open segment, and indexes its location. -/
theorem appendEvent_eq_ok {id : ℕ} {event : Event}
    (h : (appendEvent disk id event).run w = (.ok (), w')) :
    ∃ w₁ location indexes,
      (makeRoom disk (eventFrame w.compress id event).payload).run w = (.ok (), w₁) ∧
      eventLocation w₁.segment w₁.history.2.length = .ok location ∧
      w₁.indexes.append disk historyIndex (id, event.version) (w₁.generation, location)
        (some (w₁.historyFile w₁.segment)) = .ok indexes ∧
      w' = { w₁ with
        history := (w₁.history.1, w₁.history.2 ++ (eventFrame w.compress id event).bytes)
        indexes } := by
  obtain ⟨w₀, _, hget, h⟩ := Fallible.run_bind_eq_ok.mp h
  cases hget
  obtain ⟨⟨⟩, w₁, hroom, h⟩ := Fallible.run_bind_eq_ok.mp h
  obtain ⟨_, _, hget, h⟩ := Fallible.run_bind_eq_ok.mp h
  cases hget
  obtain ⟨location, _, hlocation, h⟩ := Fallible.run_bind_eq_ok.mp h
  obtain ⟨hlocation, rfl⟩ := Prod.ext_iff.mp hlocation
  obtain ⟨bytes, _, hbytes, h⟩ := Fallible.run_bind_eq_ok.mp h
  obtain ⟨hbytes, rfl⟩ := Prod.ext_iff.mp hbytes
  obtain ⟨⟨⟩, _, hset, h⟩ := Fallible.run_bind_eq_ok.mp h
  cases hset
  obtain ⟨indexes, _, hindexes, h⟩ := Fallible.run_bind_eq_ok.mp h
  obtain ⟨hindexes, rfl⟩ := Prod.ext_iff.mp hindexes
  cases h
  obtain ⟨-, hframe⟩ := @Frame.encode_eq_ok (eventFrame w.compress id event) _ hbytes
  subst hframe
  exact ⟨w₁, location, indexes, hroom, hlocation, hindexes, rfl⟩

/-! ### The segments of a run -/

/-- A segment with its frames, under its number. -/
def segmentFile (table generation n : ℕ) (frames : List Frame) : FileId × Bytes :=
  (⟨table, generation, 6, n⟩, Frame.format.encodeAll frames)

/-- A segment as a writer leaves it: whole frames, and at most one when it is over the limit. -/
structure Segment (limit : ℕ) (frames : List Frame) : Prop where
  valid : ∀ f ∈ frames, f.Valid
  single : limit < (Frame.format.encodeAll frames).length → frames.length = 1
  short : (Frame.format.encodeAll frames).length ≤ 2 ^ 48 + (40 + maxFrame)

/-- **The segments of a writer** that began as another one: those it has left behind, and the one
that is open. -/
structure Laid (start : TableWriter) (full : List (List Frame)) (last : List Frame)
    (w : TableWriter) : Prop where
  table : w.table = start.table
  generation : w.generation = start.generation
  limit : w.segmentLimit = start.segmentLimit
  compress : w.compress = start.compress
  segment : w.segment = full.length
  behind : w.full = full.mapIdx (segmentFile start.table start.generation)
  history : w.history = segmentFile start.table start.generation full.length last
  segments : ∀ frames ∈ full ++ [last], Segment start.segmentLimit frames

/-- **Where a frame is**, under its location. -/
def Located (segments : List (List Frame)) (f : Frame) (location : ℕ) : Prop :=
  ∃ (n : ℕ) (before after : List Frame), segments[n]? = some (before ++ f :: after) ∧
    eventLocation n (Frame.format.encodeAll before).length = .ok location

/-- Segments that have grown, at their ends alone. -/
def Grown (segments segments' : List (List Frame)) : Prop :=
  ∀ (n : ℕ) frames, segments[n]? = some frames → ∃ more, segments'[n]? = some (frames ++ more)

/-- A frame stays where it is. -/
theorem Located.mono {segments segments' : List (List Frame)} {f : Frame} {location : ℕ}
    (h : Located segments f location) (hgrown : Grown segments segments') :
    Located segments' f location := by
  obtain ⟨n, before, after, hget, hlocation⟩ := h
  obtain ⟨more, hmore⟩ := hgrown n _ hget
  refine ⟨n, before, after ++ more, ?_, hlocation⟩
  rw [hmore, List.append_assoc, List.cons_append]

section Run

variable {start : TableWriter} {full : List (List Frame)} {last : List Frame} {f : Frame}

theorem length_encodeAll_singleton (f : Frame) :
    (Frame.format.encodeAll [f]).length = 40 + f.payload.length := by
  rw [TornLog.encodeAll_cons, TornLog.encodeAll_nil, List.append_nil]
  exact Frame.length_bytes f

theorem encodeAll_eq_nil {frames : List Frame} (h : Frame.format.encodeAll frames = []) :
    frames = [] := by
  cases frames with
  | nil => rfl
  | cons f frames =>
    have hlen := congrArg List.length h
    rw [TornLog.encodeAll_cons, List.length_append] at hlen
    change f.bytes.length + _ = 0 at hlen
    rw [Frame.length_bytes] at hlen
    omega

theorem Laid.segments_eq (h : Laid start full last w) :
    w.segments = (full ++ [last]).mapIdx (segmentFile start.table start.generation) := by
  rw [TableWriter.segments, h.behind, h.history, List.mapIdx_concat]

/-- A frame alone in its segment. -/
theorem Segment.singleton {limit : ℕ} (hf : f.Valid) : Segment limit [f] := by
  refine ⟨List.forall_mem_singleton.mpr hf, fun _ => rfl, ?_⟩
  rw [length_encodeAll_singleton]
  have := hf.length_le
  omega

/-- **A frame at the end of a segment** that is empty or has room for it. -/
theorem Segment.concat {limit : ℕ} {frames : List Frame} (h : Segment limit frames)
    (hf : f.Valid) (hoffset : (Frame.format.encodeAll frames).length < 2 ^ 48)
    (hfits : frames = [] ∨
      (Frame.format.encodeAll frames).length + f.payload.length + 40 ≤ limit) :
    Segment limit (frames ++ [f]) := by
  have hlength : (Frame.format.encodeAll (frames ++ [f])).length =
      (Frame.format.encodeAll frames).length + (40 + f.payload.length) := by
    rw [TornLog.encodeAll_append, List.length_append, length_encodeAll_singleton]
  have hpayload := hf.length_le
  refine ⟨List.forall_mem_append.mpr ⟨h.valid, List.forall_mem_singleton.mpr hf⟩, ?_, by omega⟩
  rcases hfits with rfl | hfits
  · exact fun _ => rfl
  · intro hlimit
    omega

/-- **Room is made for a frame**, and the frame is written there. -/
theorem Laid.write (h : Laid start full last w) (hf : f.Valid) {w₁ : TableWriter}
    {location : ℕ} (hroom : (makeRoom disk f.payload).run w = (.ok (), w₁))
    (hlocation : eventLocation w₁.segment w₁.history.2.length = .ok location)
    (indexes : Indexes) :
    ∃ full' last', Grown (full ++ [last]) (full' ++ [last']) ∧
      (full' ++ [last']).flatten = (full ++ [last]).flatten ++ [f] ∧
      Located (full' ++ [last']) f location ∧
      Laid start full' last'
        { w₁ with history := (w₁.history.1, w₁.history.2 ++ f.bytes), indexes } := by
  have hbytes (frames : List Frame) : Frame.format.encodeAll frames ++ f.bytes =
      Frame.format.encodeAll (frames ++ [f]) := by
    rw [TornLog.encodeAll_append, TornLog.encodeAll_cons, TornLog.encodeAll_nil, List.append_nil]
    rfl
  obtain ⟨hfull, hlast⟩ := List.forall_mem_append.mp h.segments
  replace hlast := List.forall_mem_singleton.mp hlast
  rcases makeRoom_eq_ok hroom with ⟨rfl, hfits⟩ | rfl
  · -- the frame goes to the end of the segment that is open
    rw [h.segment, h.history] at hlocation
    rw [h.history, h.limit] at hfits
    obtain ⟨-, hoffset, -⟩ := eventLocation_eq_ok.mp hlocation
    refine ⟨full, last ++ [f], ?_, ?_, ⟨full.length, last, [], ?_, hlocation⟩, ?_⟩
    · intro n frames hget
      rcases lt_trichotomy n full.length with hn | rfl | hn
      · rw [List.getElem?_append_left hn] at hget ⊢
        exact ⟨[], by rw [hget, List.append_nil]⟩
      · rw [List.getElem?_concat_length] at hget ⊢
        cases hget
        exact ⟨[f], rfl⟩
      · rw [List.getElem?_eq_none (by rw [List.length_append, List.length_singleton]; omega)]
          at hget
        cases hget
    · rw [List.flatten_concat, List.flatten_concat, List.append_assoc]
    · exact List.getElem?_concat_length
    · refine ⟨h.table, h.generation, h.limit, h.compress, h.segment, h.behind, ?_, ?_⟩
      · change (w₁.history.1, w₁.history.2 ++ f.bytes) = _
        rw [h.history]
        exact congrArg (Prod.mk _) (hbytes last)
      · refine List.forall_mem_append.mpr ⟨hfull, List.forall_mem_singleton.mpr ?_⟩
        exact hlast.concat hf hoffset (hfits.imp_left encodeAll_eq_nil)
  · -- the frame opens the next segment
    have hbehind : w.segments = (full ++ [last]).mapIdx
        (segmentFile start.table start.generation) := h.segments_eq
    have hlength : (full ++ [last]).length = full.length + 1 := List.length_append
    refine ⟨full ++ [last], [f], ?_, List.flatten_concat, ⟨full.length + 1, [], [], ?_, ?_⟩, ?_⟩
    · intro n frames hget
      obtain ⟨hn, -⟩ := List.getElem?_eq_some_iff.mp hget
      exact ⟨[], by rw [List.getElem?_append_left hn, hget, List.append_nil]⟩
    · rw [← hlength]
      exact List.getElem?_concat_length
    · rw [← h.segment]
      exact hlocation
    · refine ⟨h.table, h.generation, h.limit, h.compress, ?_, hbehind, ?_, ?_⟩
      · rw [hlength, ← h.segment]
      · change (historyFile w (w.segment + 1), [] ++ f.bytes) = _
        rw [hlength, ← TornLog.encodeAll_nil (F := Frame.format), hbytes, h.segment, historyFile,
          h.table, h.generation]
        rfl
      · exact List.forall_mem_append.mpr
          ⟨h.segments, List.forall_mem_singleton.mpr (.singleton hf)⟩

end Run

end TableWriter

/-- The files of a checkpoint, with the history segments read from a directory. -/
def Store.Files.onDisk (files : Files) (disk : Disk) : Files where
  lookupIndex := files.lookupIndex
  floorIndex := files.floorIndex
  scanIndex := files.scanIndex
  page := files.page
  payloadSize file offset :=
    disk.read file fun bytes => Frame.payloadSizeAt bytes offset bytes.length
  frame file offset := disk.read file fun bytes => Frame.readAt bytes offset bytes.length

end EveDB
