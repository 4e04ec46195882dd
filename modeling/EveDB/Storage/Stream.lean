import EveDB.Frame

/-!
# The readers of a frame file

A file of frames is read in three ways (`storage/frame.rs`): one frame behind the other from a
cursor (`Frame.readFrom`), a frame at an offset (`Frame.readAt`), and the header of a frame at
an offset, for the size of its payload (`Frame.payloadSizeAt`). Each does its own arithmetic on
the length of the file.

All three decide alike (`Frame.readers_agree_on_cut`): of a stream of frames that was cut
anywhere they see the frames that are whole, and none of them takes the torn one for damage.
-/

namespace EveDB

/-- Reads `count` bytes at an absolute offset. -/
def readExactAt (file : Bytes) (offset count : ℕ) : Result Bytes :=
  if offset + count ≤ file.length then .ok ((file.drop offset).take count)
  else .error (.io "failed to fill whole buffer")

namespace Frame

/-- The payload size of the frame at an offset, read off its header before the payload is
admitted. -/
def payloadSizeAt (file : Bytes) (offset fileLen : ℕ) : Result ℕ :=
  if (checkedAdd offset 32).all (fileLen < ·) then corrupt "truncated frame header"
  else do
    let header ← readExactAt file offset 32
    let size ← headerLength header
    if (checkedAdd offset (40 + size)).all (fileLen < ·) then
      corrupt "truncated indexed frame"
    else return size

/-- Reads the frame at a cursor, and moves the cursor. -/
def readFrom (file : Bytes) (position : ℕ) : Result (Option Frame × ℕ) :=
  let remaining := file.length - position
  if remaining < 32 then .ok (none, position)
  else do
    let header ← readExactAt file position 32
    let length ← headerLength header
    -- the cursor stays behind the header of an incomplete frame
    if remaining < 40 + length then return (none, position + 32)
    let payload ← readExactAt file (position + 32) length
    let trailer ← readExactAt file (position + 32 + length) 8
    return (some (← assemble header payload trailer), position + 40 + length)

/-- Reads the frame at an offset of a file that is `stop` bytes long. -/
def readAt (file : Bytes) (offset stop : ℕ) : Result (Option Frame) :=
  let remaining := stop - offset
  if remaining < 32 then .ok none
  else do
    let header ← readExactAt file offset 32
    let length ← headerLength header
    if remaining < 40 + length then return none
    let rest ← readExactAt file (offset + 32) (length + 8)
    return some (← assemble header (rest.take length) (rest.drop length))

/-- Reads frames from a cursor until there is none, and returns them with the end of the last
one. -/
def readAll (file : Bytes) : (fuel position : ℕ) → Option (Result (List Frame × ℕ))
  | 0, _ => none
  | fuel + 1, position =>
    match readFrom file position with
    | .error e => some (.error e)
    | .ok (none, _) => some (.ok ([], position))
    | .ok (some frame, next) =>
      (readAll file fuel next).map fun r => r.map fun (frames, complete) =>
        (frame :: frames, complete)

/-! ### One reader for the three -/

section Readers

variable {file : Bytes} {offset : ℕ}

theorem readExactAt_of_le {count : ℕ} (h : offset + count ≤ file.length) :
    readExactAt file offset count = .ok ((file.drop offset).take count) := if_pos h

/-- **Reading at an offset** is reading what is behind it. -/
theorem readAt_eq (file : Bytes) (offset : ℕ) :
    readAt file offset file.length = (fun r => r.map Prod.fst) <$> read (file.drop offset) := by
  rw [readAt, read, List.length_drop]
  split
  · rfl
  · next hlong =>
    rw [readExactAt_of_le (by omega), ok_bind]
    cases headerLength ((file.drop offset).take 32) with
    | error e => rfl
    | ok length =>
      rw [ok_bind, ok_bind]
      split
      · rfl
      · next hwhole =>
        have hpayload : ((file.drop (offset + 32)).take (length + 8)).take length =
            ((file.drop offset).drop 32).take length := by
          rw [List.take_take, List.drop_drop, min_eq_left (by omega)]
        have htrailer : ((file.drop (offset + 32)).take (length + 8)).drop length =
            ((file.drop offset).drop (32 + length)).take 8 := by
          rw [List.drop_take, List.drop_drop, List.drop_drop, Nat.add_sub_cancel_left,
            Nat.add_assoc]
        rw [readExactAt_of_le (by omega), ok_bind, hpayload, htrailer]
        cases assemble ((file.drop offset).take 32) (((file.drop offset).drop 32).take length)
          (((file.drop offset).drop (32 + length)).take 8) <;> rfl

/-- **Reading from a cursor** is reading what is behind it. -/
theorem readFrom_eq (file : Bytes) (position : ℕ) :
    ∃ stop, readFrom file position = (fun r => match r with
      | none => (none, stop)
      | some (frame, rest) => (some frame, file.length - rest.length)) <$>
        read (file.drop position) := by
  rw [readFrom, read, List.length_drop]
  split
  · exact ⟨position, rfl⟩
  · next hlong =>
    refine ⟨position + 32, ?_⟩
    rw [readExactAt_of_le (by omega), ok_bind]
    cases headerLength ((file.drop position).take 32) with
    | error e => rfl
    | ok length =>
      rw [ok_bind, ok_bind]
      split
      · rfl
      · next hwhole =>
        have hend : file.length - ((file.drop position).drop (40 + length)).length =
            position + 40 + length := by
          rw [List.length_drop, List.length_drop]
          omega
        rw [readExactAt_of_le (by omega), readExactAt_of_le (by omega), ok_bind, ok_bind,
          List.drop_drop, List.drop_drop, Nat.add_assoc position 32]
        cases assemble ((file.drop position).take 32) ((file.drop (position + 32)).take length)
          ((file.drop (position + (32 + length))).take 8) with
        | error e => rfl
        | ok frame => exact congrArg (fun stop => Except.ok (some frame, stop)) hend.symm

end Readers

/-! ### A stream that was cut -/

section Cut

variable {frames : List Frame} {k i : ℕ}

/-- Where a frame of a stream starts; at the number of frames, where the stream ends. -/
def start (frames : List Frame) (i : ℕ) : ℕ := (format.encodeAll (frames.take i)).length

@[simp] theorem start_zero (frames : List Frame) : start frames 0 = 0 := by
  rw [start, List.take_zero]
  rfl

theorem start_succ (h : i < frames.length) :
    start frames (i + 1) = start frames i + (40 + frames[i].payload.length) := by
  have hlast : format.encodeAll [frames[i]] = frames[i].bytes ++ [] := rfl
  rw [start, List.take_succ_eq_append_getElem h, TornLog.encodeAll_append, List.length_append,
    hlast, List.append_nil, length_bytes, start]

theorem start_mono {j : ℕ} (h : i ≤ j) : start frames i ≤ start frames j := by
  have hsplit : frames.take j = frames.take i ++ (frames.take j).drop i := by
    conv_lhs => rw [← List.take_append_drop i (frames.take j), List.take_take, min_eq_left h]
  rw [start, start, hsplit, TornLog.encodeAll_append, List.length_append]
  exact Nat.le_add_right _ _

/-- The stream from a frame on. -/
theorem drop_start (frames : List Frame) (i : ℕ) :
    (format.encodeAll frames).drop (start frames i) = format.encodeAll (frames.drop i) := by
  have hsplit : format.encodeAll frames =
      format.encodeAll (frames.take i) ++ format.encodeAll (frames.drop i) := by
    rw [← TornLog.encodeAll_append, List.take_append_drop]
  rw [hsplit, start, List.drop_left]

theorem drop_start_cons (h : i < frames.length) :
    (format.encodeAll frames).drop (start frames i) =
      frames[i].bytes ++ format.encodeAll (frames.drop (i + 1)) := by
  rw [drop_start, List.drop_eq_getElem_cons h]
  rfl

/-- **A frame that is whole** is read, and what is behind it is left. -/
theorem read_whole (hvalid : ∀ f ∈ frames, f.Valid) (h : i < frames.length)
    (hk : start frames (i + 1) ≤ k) :
    read (((format.encodeAll frames).take k).drop (start frames i)) =
      .ok (some (frames[i], ((format.encodeAll frames).take k).drop (start frames (i + 1)))) := by
  have hsucc := start_succ h
  have hrest : ((format.encodeAll frames).take k).drop (start frames i) =
      frames[i].bytes ++ ((format.encodeAll frames).take k).drop (start frames (i + 1)) := by
    rw [List.drop_take, List.drop_take, drop_start_cons h, drop_start, List.take_append,
      List.take_of_length_le (by rw [length_bytes]; omega), length_bytes, hsucc, Nat.sub_sub]
  rw [hrest]
  exact read_bytes (hvalid _ (List.getElem_mem h)) _

/-- **A frame that is not whole** is a torn tail. -/
theorem read_torn (hvalid : ∀ f ∈ frames, f.Valid) (h : i < frames.length)
    (hk : k < start frames (i + 1)) :
    read (((format.encodeAll frames).take k).drop (start frames i)) = .ok none := by
  have hsucc := start_succ h
  have hlen := length_bytes frames[i]
  rw [List.drop_take, drop_start_cons h, List.take_append_of_le_length (by omega)]
  refine read_prefix (hvalid _ (List.getElem_mem h)) (List.take_prefix _ _) fun heq => ?_
  have := congrArg List.length heq
  rw [List.length_take] at this
  omega

/-- A frame that is whole ends within what the cut has left. -/
theorem start_le_length (h : i < frames.length) (hk : start frames (i + 1) ≤ k) :
    start frames (i + 1) ≤ ((format.encodeAll frames).take k).length := by
  have hle : start frames (i + 1) ≤ (format.encodeAll frames).length := by
    conv_rhs => rw [← List.take_length (l := frames)]
    exact start_mono h
  rw [List.length_take]
  exact le_min hk hle

/-- The cursor moves over a whole frame. -/
theorem readFrom_whole (hvalid : ∀ f ∈ frames, f.Valid) (h : i < frames.length)
    (hk : start frames (i + 1) ≤ k) :
    readFrom ((format.encodeAll frames).take k) (start frames i) =
      .ok (some frames[i], start frames (i + 1)) := by
  have hle := start_le_length h hk
  have hnext : ((format.encodeAll frames).take k).length -
      (((format.encodeAll frames).take k).drop (start frames (i + 1))).length =
        start frames (i + 1) := by
    rw [List.length_drop]
    omega
  obtain ⟨stop, hread⟩ := readFrom_eq ((format.encodeAll frames).take k) (start frames i)
  rw [hread, read_whole hvalid h hk]
  exact congrArg (fun n => Except.ok (some frames[i], n)) hnext

/-- The cursor finds nothing where nothing whole is left. -/
theorem readFrom_none {file : Bytes} {position : ℕ} (h : read (file.drop position) = .ok none) :
    ∃ stop, readFrom file position = .ok (none, stop) := by
  obtain ⟨stop, hread⟩ := readFrom_eq file position
  exact ⟨stop, by rw [hread, h]; rfl⟩

/-- The header of a frame that the cut has left. -/
theorem readExactAt_header (h : i < frames.length)
    (hk : start frames i + 32 ≤ ((format.encodeAll frames).take k).length) :
    readExactAt ((format.encodeAll frames).take k) (start frames i) 32 = .ok frames[i].header := by
  rw [List.length_take] at hk
  rw [readExactAt_of_le (by rw [List.length_take]; exact hk), List.drop_take,
    drop_start_cons h, List.take_take, min_eq_left (by omega), bytes, List.append_assoc,
    List.take_left' (length_header _)]

/-- **The size of a payload** is read off the header exactly when the frame is whole. -/
theorem payloadSizeAt_cut (hvalid : ∀ f ∈ frames, f.Valid) (h : i < frames.length)
    (hfile : ((format.encodeAll frames).take k).length ≤ maxU64) :
    payloadSizeAt ((format.encodeAll frames).take k) (start frames i)
        ((format.encodeAll frames).take k).length =
      if start frames (i + 1) ≤ ((format.encodeAll frames).take k).length then
        .ok frames[i].payload.length
      else if start frames i + 32 ≤ ((format.encodeAll frames).take k).length then
        corrupt "truncated indexed frame"
      else corrupt "truncated frame header" := by
  have hsucc := start_succ h
  have hfits (a b : ℕ) : (checkedAdd a b).all
      (((format.encodeAll frames).take k).length < ·) = true ↔
        ((format.encodeAll frames).take k).length < a + b := by
    unfold checkedAdd
    split
    · exact decide_eq_true_iff
    · simp only [Option.all_none, true_iff]
      omega
  rw [payloadSizeAt]
  simp only [hfits]
  by_cases hheader : start frames i + 32 ≤ ((format.encodeAll frames).take k).length
  · rw [if_neg (by omega), readExactAt_header h hheader, ok_bind,
      headerLength_header (hvalid _ (List.getElem_mem h)), ok_bind, if_pos hheader]
    by_cases hwhole : start frames (i + 1) ≤ ((format.encodeAll frames).take k).length
    · rw [if_neg (by omega), if_pos hwhole]
      rfl
    · rw [if_pos (by omega), if_neg hwhole]
  · rw [if_pos (by omega), if_neg (by omega), if_neg hheader]

/-- Reading on from a whole frame, to the last one. -/
theorem readAll_start (hvalid : ∀ f ∈ frames, f.Valid) {m : ℕ} (hm : m ≤ frames.length)
    (hwhole : ∀ i < frames.length, i < m ↔ start frames (i + 1) ≤ k) (left : ℕ) {i fuel : ℕ}
    (hi : i + left = m) (hfuel : left < fuel) :
    readAll ((format.encodeAll frames).take k) fuel (start frames i) =
      some (.ok ((frames.take m).drop i, start frames m)) := by
  induction left generalizing i fuel with
  | zero =>
    obtain ⟨fuel, rfl⟩ : ∃ n, fuel = n + 1 := ⟨fuel - 1, by omega⟩
    obtain rfl : i = m := hi
    have hnone : read (((format.encodeAll frames).take k).drop (start frames i)) = .ok none := by
      by_cases hlt : i < frames.length
      · exact read_torn hvalid hlt (not_le.mp fun hle => lt_irrefl i ((hwhole i hlt).mpr hle))
      · have hall : (format.encodeAll frames).length ≤ start frames i := by
          rw [start, List.take_of_length_le (not_lt.mp hlt)]
        rw [List.drop_of_length_le ((List.length_take_le' _ _).trans hall)]
        rfl
    obtain ⟨stop, hread⟩ := readFrom_none hnone
    rw [readAll, hread, List.drop_of_length_le (List.length_take_le _ _)]
  | succ left ih =>
    obtain ⟨fuel, rfl⟩ : ∃ n, fuel = n + 1 := ⟨fuel - 1, by omega⟩
    have hlt : i < frames.length := by omega
    rw [readAll, readFrom_whole hvalid hlt ((hwhole i hlt).mp (by omega))]
    dsimp only
    rw [ih (by omega) (by omega),
      List.drop_eq_getElem_cons (show i < (frames.take m).length by rw [List.length_take]; omega),
      List.getElem_take]
    rfl

/-- **The readers agree on a stream that was cut anywhere.** Reading on from the beginning
returns the frames that lie wholly before the cut, ends behind the last of them, and meets no
error. At the start of each frame the reader of an offset returns what the reader of the cursor
does: the frame if it is whole, and otherwise nothing; the size of its payload is returned if it
is whole, and otherwise an error. -/
theorem readers_agree_on_cut (hkind : ∀ f ∈ frames, f.kind < 2 ^ 16)
    (hlsn : ∀ f ∈ frames, f.lsn < 2 ^ 64) {pieces : List Bytes}
    (hencode : List.Forall₂ (fun f piece => encode f.kind f.lsn f.payload = .ok piece)
      frames pieces)
    {file : Bytes} (hfile : file = pieces.flatten.take k) (hlength : file.length ≤ maxU64) :
    (∃ m ≤ frames.length, (∀ i < frames.length, i < m ↔ start frames (i + 1) ≤ k) ∧
      readAll file (file.length + 1) 0 = some (.ok (frames.take m, start frames m))) ∧
    ∀ (i : ℕ) (hi : i < frames.length),
      if start frames (i + 1) ≤ k then
        readFrom file (start frames i) = .ok (some frames[i], start frames (i + 1)) ∧
        readAt file (start frames i) file.length = .ok (some frames[i]) ∧
        payloadSizeAt file (start frames i) file.length = .ok frames[i].payload.length
      else
        (∃ stop, readFrom file (start frames i) = .ok (none, stop)) ∧
        readAt file (start frames i) file.length = .ok none ∧
        ∃ e, payloadSizeAt file (start frames i) file.length = .error e := by
  have hpieces : pieces = frames.map Frame.bytes := by
    have heq : List.Forall₂ (fun f piece => piece = Frame.bytes f) frames pieces :=
      hencode.imp fun f piece h => (encode_eq_ok h).2
    have hmap : List.Forall₂ Eq (frames.map Frame.bytes) pieces :=
      List.forall₂_map_left_iff.mpr (heq.imp fun f piece h => h.symm)
    exact (List.forall₂_eq_eq_eq ▸ hmap : frames.map Frame.bytes = pieces).symm
  have hvalid : ∀ f ∈ frames, f.Valid := by
    intro f hf
    obtain ⟨i, hi, rfl⟩ := List.getElem_of_mem hf
    have := hencode.get hi (hencode.length_eq ▸ hi)
    exact ⟨hkind _ hf, hlsn _ hf, (encode_eq_ok this).1⟩
  obtain rfl : file = (format.encodeAll frames).take k := by rw [hfile, hpieces]; rfl
  constructor
  · have hspec : start frames (Nat.findGreatest (fun m => start frames m ≤ k) frames.length) ≤ k :=
      Nat.findGreatest_spec (P := fun m => start frames m ≤ k) (Nat.zero_le _) (by simp)
    generalize hm : Nat.findGreatest (fun m => start frames m ≤ k) frames.length = m at hspec
    have hle : m ≤ frames.length := hm ▸ Nat.findGreatest_le _
    have hwhole : ∀ i < frames.length, i < m ↔ start frames (i + 1) ≤ k := by
      intro i hi
      constructor
      · exact fun hlt => (start_mono hlt).trans hspec
      · exact fun hk => hm ▸ Nat.le_findGreatest hi hk
    refine ⟨m, hle, hwhole, ?_⟩
    have hfuel : m < ((format.encodeAll frames).take k).length + 1 := by
      have hcount := TornLog.length_le_length_encodeAll lawful (frames.take m)
        fun f hf => hvalid f (List.mem_of_mem_take hf)
      have htotal : start frames m ≤ (format.encodeAll frames).length := by
        conv_rhs => rw [← List.take_length (l := frames)]
        exact start_mono hle
      rw [List.length_take, min_eq_left hle] at hcount
      rw [List.length_take]
      exact Nat.lt_succ_of_le (le_min (hcount.trans hspec) (hcount.trans htotal))
    simpa using readAll_start hvalid hle hwhole m (Nat.zero_add m) hfuel
  · intro i hi
    split
    · next hk =>
      refine ⟨readFrom_whole hvalid hi hk, ?_, ?_⟩
      · rw [readAt_eq, read_whole hvalid hi hk]
        rfl
      · rw [payloadSizeAt_cut hvalid hi hlength, if_pos (start_le_length hi hk)]
    · next hk =>
      have htorn := read_torn hvalid hi (not_le.mp hk)
      refine ⟨readFrom_none htorn, ?_, ?_⟩
      · rw [readAt_eq, htorn]
        rfl
      · have hlost : ¬ start frames (i + 1) ≤ ((format.encodeAll frames).take k).length :=
          fun hle => hk (hle.trans (List.length_take_le _ _))
        rw [payloadSizeAt_cut hvalid hi hlength, if_neg hlost]
        split
        · exact ⟨_, rfl⟩
        · exact ⟨_, rfl⟩

/-- Two frames, the second of which lost its trailer. -/
def lostTrailer : Bytes := ((Frame.mk 2 7 [1]).bytes ++ (Frame.mk 2 8 [2, 3]).bytes).take 75

/-- The readers agree on them: the first frame is read, and the second one is not. -/
theorem readers_agree_on_lost_trailer :
    readAll lostTrailer 76 0 = some (.ok ([⟨2, 7, [1]⟩], 41)) ∧
      readAt lostTrailer 0 75 = .ok (some ⟨2, 7, [1]⟩) ∧ payloadSizeAt lostTrailer 0 75 = .ok 1 ∧
      (∃ stop, readFrom lostTrailer 41 = .ok (none, stop)) ∧ readAt lostTrailer 41 75 = .ok none ∧
      ∃ e, payloadSizeAt lostTrailer 41 75 = .error e := by
  have hencode : List.Forall₂ (fun (f : Frame) piece => encode f.kind f.lsn f.payload = .ok piece)
      [⟨2, 7, [1]⟩, ⟨2, 8, [2, 3]⟩] [(Frame.mk 2 7 [1]).bytes, (Frame.mk 2 8 [2, 3]).bytes] :=
    .cons rfl (.cons rfl .nil)
  have hlength : lostTrailer.length = 75 := by simp [lostTrailer]
  have hfirst : start [⟨2, 7, [1]⟩, ⟨2, 8, [2, 3]⟩] 1 = 41 := by
    rw [start_succ (by decide), start_zero]
    rfl
  have hsecond : start [⟨2, 7, [1]⟩, ⟨2, 8, [2, 3]⟩] 2 = 83 := by
    rw [start_succ (by decide), hfirst]
    rfl
  have hfile : lostTrailer =
      [(Frame.mk 2 7 [1]).bytes, (Frame.mk 2 8 [2, 3]).bytes].flatten.take 75 := by
    simp [lostTrailer]
  obtain ⟨⟨m, hle, hwhole, hall⟩, heach⟩ := readers_agree_on_cut (by decide) (by decide) hencode
    hfile (by rw [hlength]; decide)
  -- the first frame lies before the cut, and the second one does not
  obtain rfl : m = 1 := by
    have hread := (hwhole 0 (by decide)).mpr (by rw [hfirst]; decide)
    have hlost := (hwhole 1 (by decide)).not.mpr (by rw [hsecond]; decide)
    omega
  have hread := heach 0 (by decide)
  have hlost := heach 1 (by decide)
  rw [if_pos (by rw [hfirst]; decide), start_zero] at hread
  rw [if_neg (by rw [hsecond]; decide), hfirst] at hlost
  rw [hlength] at hall hread hlost
  rw [hfirst] at hall
  exact ⟨hall, hread.2.1, hread.2.2, hlost⟩

end Cut

end Frame

end EveDB
