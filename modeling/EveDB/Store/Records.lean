import EveDB.Store.Sizes

/-!
# The codec of records and the scan in front of it

A stored record is scanned for its size before it is decoded (`recordBytes`). The scan walks over
the same bytes as the decoder and checks less: wherever the decoder succeeds, so does the scan,
and they have consumed the same bytes (`Decoder.Follows`). The size it returns is therefore what
the decoded record is charged for, on every byte string that is decoded at all, in whatever order
the fields come (`scans_as_decoded`).
-/

namespace EveDB

open Std

namespace Decoder

variable {α β γ δ σ τ : Type}

/-- **Wherever one decoder succeeds, so does another**, which consumes the same bytes and returns a
related result. -/
def Follows (d : Decoder α) (d' : Decoder β) (data : Bytes) (R : α → β → Bytes → Prop) : Prop :=
  ∀ a rest, d.run data = .ok (a, rest) → ∃ b, d'.run data = .ok (b, rest) ∧ R a b rest

namespace Follows

variable {d : Decoder α} {d' : Decoder β} {data : Bytes} {R : α → β → Bytes → Prop}
  {S : γ → δ → Bytes → Prop}

/-- Following composes. -/
theorem bind {f : α → Decoder γ} {f' : β → Decoder δ} (h : Follows d d' data R)
    (hf : ∀ a b rest, R a b rest → Follows (f a) (f' b) rest S) :
    Follows (d >>= f) (d' >>= f') data S := by
  intro c rest hrun
  rw [StateT.run_bind] at hrun
  obtain ⟨⟨a, mid⟩, hd, hfa⟩ := bind_eq_ok.mp hrun
  obtain ⟨b, hd', hab⟩ := h a mid hd
  obtain ⟨e, he, hce⟩ := hf a b mid hab c rest hfa
  refine ⟨e, ?_, hce⟩
  rw [StateT.run_bind, hd', ok_bind]
  exact he

theorem pure {a : α} {b : β} (h : R a b data) : Follows (Pure.pure a) (Pure.pure b) data R := by
  rintro _ _ ⟨⟩
  exact ⟨b, rfl, h⟩

/-- A decoder that fails is followed by any other. -/
theorem fail (message : String) : Follows (Decoder.fail message) d' data R := by
  rintro _ _ ⟨⟩

/-- A step of the other decoder that consumes nothing. -/
theorem step {f' : γ → Decoder β} {e : Decoder γ} {c : γ} (he : e.run data = .ok (c, data))
    (h : Follows d (f' c) data R) : Follows d (e >>= f') data R := by
  intro a rest hrun
  obtain ⟨b, hb, hab⟩ := h a rest hrun
  refine ⟨b, ?_, hab⟩
  rw [StateT.run_bind, he, ok_bind]
  exact hb

/-- A weaker relation. -/
theorem mono {R' : α → β → Bytes → Prop} (h : Follows d d' data R)
    (hR : ∀ a b rest, R a b rest → R' a b rest) : Follows d d' data R' := by
  intro a rest hrun
  obtain ⟨b, hb, hab⟩ := h a rest hrun
  exact ⟨b, hb, hR a b rest hab⟩

/-- **A loop follows a loop** when one round follows the other, with a relation that may count the
rounds that are left. -/
theorem times {body : σ → Decoder σ} {body' : τ → Decoder τ} {R : ℕ → σ → τ → Bytes → Prop}
    (hbody : ∀ n s t rest, R (n + 1) s t rest → Follows (body s) (body' t) rest (R n))
    (n : ℕ) {s : σ} {t : τ} {data : Bytes} (h : R n s t data) :
    Follows (Decoder.times body n s) (Decoder.times body' n t) data (R 0) := by
  induction n generalizing s t data with
  | zero => exact pure h
  | succ n ih => exact (hbody n s t data h).bind fun s t rest h => ih h

end Follows

/-- Following carries over to whole records. -/
theorem Follows.decode {d : Decoder α} {d' : Decoder β} {data : Bytes} {f : α → β} {a : α}
    (h : Follows d d' data fun a b _ => b = f a) (ha : Decoder.decode d data = .ok a) :
    Decoder.decode d' data = .ok (f a) := by
  obtain ⟨⟨_, left⟩, hrun, rfl⟩ := map_eq_ok.mp ha
  rw [StateT.run_bind] at hrun
  obtain ⟨⟨b, rest⟩, hd, hfinish⟩ := bind_eq_ok.mp hrun
  obtain ⟨_, hd', rfl⟩ := h b rest hd
  rw [StateT.run_bind] at hfinish
  obtain ⟨⟨u, left'⟩, hend, hpure⟩ := bind_eq_ok.mp hfinish
  cases hpure
  rw [Decoder.decode, StateT.run_bind, hd', ok_bind, StateT.run_bind, hend]
  rfl

/-- What is taken is as long as was asked for, and the rest is what is left. -/
theorem run_take {n : ℕ} {data taken rest : Bytes} (h : (take n).run data = .ok (taken, rest)) :
    taken.length = n ∧ rest.length + n = data.length := by
  rw [StateT.run, take] at h
  split at h
  · next hle =>
    cases h
    rw [List.length_take_of_le hle, List.length_drop]
    omega
  · cases h

/-- A decoder that takes bytes alone follows itself, with less left. -/
theorem Follows.self {d : Decoder α} {data : Bytes}
    (h : ∀ a rest, d.run data = .ok (a, rest) → rest.length ≤ data.length) :
    Follows d d data fun a b rest => a = b ∧ rest.length ≤ data.length := by
  intro a rest hrun
  exact ⟨a, hrun, rfl, h a rest hrun⟩

theorem Follows.number (n : ℕ) (data : Bytes) :
    Follows (LittleEndian.decode <$> take n) (LittleEndian.decode <$> take n) data
      fun a b rest => a = b ∧ rest.length ≤ data.length := by
  refine .self fun a rest hrun => ?_
  rw [StateT.run_map] at hrun
  obtain ⟨⟨taken, left⟩, htake, heq⟩ := map_eq_ok.mp hrun
  obtain rfl : left = rest := congrArg Prod.snd heq
  have := (run_take htake).2
  omega

/-- A count consumes bytes alone. -/
theorem Follows.count (m : ℕ) (data : Bytes) : Follows (Decoder.count m) (Decoder.count m) data
    fun a b rest => a = b ∧ rest.length ≤ data.length := by
  refine .self fun a rest hrun => ?_
  rw [Decoder.count, StateT.run_bind] at hrun
  obtain ⟨⟨n, left⟩, hu, hrest⟩ := bind_eq_ok.mp hrun
  obtain ⟨-, -, -, hleft⟩ := Follows.number 8 data n left hu
  rw [StateT.run_bind] at hrest
  obtain ⟨⟨left', same⟩, hremaining, hguard⟩ := bind_eq_ok.mp hrest
  cases hremaining
  dsimp only at hguard
  split at hguard
  · cases hguard
  · cases hguard
    exact hleft

/-- A byte string is as long as the bytes that are gone, behind its length. -/
theorem Follows.bytes (data : Bytes) : Follows Decoder.bytes Decoder.bytes data
    fun a b rest => a = b ∧ a.length + rest.length ≤ data.length := by
  intro a rest hrun
  refine ⟨a, hrun, rfl, ?_⟩
  rw [Decoder.bytes, StateT.run_bind] at hrun
  obtain ⟨⟨n, mid⟩, hcount, htake⟩ := bind_eq_ok.mp hrun
  obtain ⟨-, -, -, hmid⟩ := Follows.count 1 data n mid hcount
  obtain ⟨hlen, hrest⟩ := run_take htake
  dsimp only at hrest
  omega

end Decoder

/-- A text takes up the bytes it was decoded from. -/
theorem utf8ByteSize_of_fromUTF8? {data : Bytes} {s : String}
    (h : String.fromUTF8? ⟨data.toArray⟩ = some s) : s.utf8ByteSize = data.length := by
  rw [String.fromUTF8?] at h
  split at h
  · cases h
    rfl
  · cases h

/-- The scan walks over a text as over any bytes. -/
theorem follows_text (data : Bytes) :
    Decoder.Follows (do return Value.text (← Decoder.string))
      (do return (← Decoder.bytes).length) data
      fun v n rest => n = valueBytes v ∧ n + rest.length ≤ data.length := by
  rw [Decoder.string, bind_assoc]
  refine (Decoder.Follows.bytes data).bind ?_
  rintro text _ rest ⟨rfl, hrest⟩ v out hv
  rw [StateT.run_bind] at hv
  obtain ⟨⟨s, left⟩, hs, hpure⟩ := bind_eq_ok.mp hv
  cases hpure
  split at hs
  · next found hfound =>
    cases hs
    exact ⟨_, rfl, (utf8ByteSize_of_fromUTF8? hfound).symm, hrest⟩
  · cases hs

/-- **The scan follows the decoder over a value**, and counts what the value holds. -/
theorem follows_value (data : Bytes) : Decoder.Follows decodeValue skipValue data
    fun v n rest => n = valueBytes v ∧ n + rest.length ≤ data.length := by
  refine (Decoder.Follows.number 1 data).bind ?_
  rintro tag _ rest ⟨rfl, hrest⟩
  have hnumber (k : ℕ) {f : ℕ → Decoder Value}
      (hf : ∀ m left v out, (f m).run left = .ok (v, out) → out = left ∧ valueBytes v = 0) :
      Decoder.Follows (LittleEndian.decode <$> Decoder.take k >>= f)
        (LittleEndian.decode <$> Decoder.take k >>= fun _ => (return 0)) rest
        fun v n rest => n = valueBytes v ∧ n + rest.length ≤ data.length := by
    refine (Decoder.Follows.number k rest).bind ?_
    rintro m _ left ⟨rfl, hleft⟩ v out hv
    obtain ⟨rfl, hzero⟩ := hf m left v out hv
    exact ⟨0, rfl, hzero.symm, by omega⟩
  -- the decoder checks flags, doubles and texts; the scan does not
  rcases tag with _ | _ | _ | _ | _ | _ | _ | tag
  · exact .pure ⟨rfl, by omega⟩
  · change Decoder.Follows (Decoder.bool "invalid boolean" >>= fun b => return Value.bool b)
      (Decoder.u8 >>= fun _ => (return 0)) rest _
    rw [Decoder.bool, bind_assoc]
    refine hnumber 1 ?_
    rintro (_ | _ | m) left v out hv
    · cases hv
      exact ⟨rfl, rfl⟩
    · cases hv
      exact ⟨rfl, rfl⟩
    · cases hv
  · refine hnumber 8 fun m left v out hv => ?_
    cases hv
    exact ⟨rfl, rfl⟩
  · refine hnumber 8 fun m left v out hv => ?_
    cases hv
    exact ⟨rfl, rfl⟩
  · refine hnumber 8 fun m left v out hv => ?_
    dsimp only at hv
    split at hv
    · cases hv
      exact ⟨rfl, rfl⟩
    · cases hv
  · exact (follows_text rest).mono fun v n left h => ⟨h.1, h.2.trans hrest⟩
  · refine (Decoder.Follows.bytes rest).bind ?_
    rintro bytes _ left ⟨rfl, hleft⟩
    exact .pure ⟨rfl, by omega⟩
  · exact .fail _

/-- A size that stays within 64 bits grows, and nothing is consumed. -/
theorem run_growSize {a b : ℕ} (h : a + b ≤ maxU64) (data : Bytes) :
    (growSize a b).run data = .ok (a + b, data) := by
  rw [growSize, checkedAdd_eq_some.mpr ⟨rfl, h⟩]
  rfl

/-- **The size counted so far** covers the fields decoded so far and the allowances of those to
come; with the bytes to come it stays within a bound. -/
def Counted (overhead bound n : ℕ) (fields : Fields) (size : ℕ) (rest : Bytes) : Prop :=
  size = overhead + fieldsBytes fields + n * fieldAllowance ∧ size + rest.length ≤ bound

/-- The scan follows the decoder over an assignment. -/
theorem follows_assignment {overhead bound n size : ℕ} {fields : Fields} {data : Bytes}
    (hbound : bound ≤ maxU64) (h : Counted overhead bound (n + 1) fields size data) :
    Decoder.Follows (decodeAssignment fields) (skipAssignment size) data
      (Counted overhead bound n) := by
  obtain ⟨hsize, hdata⟩ := h
  refine (Decoder.Follows.number 4 data).bind ?_
  rintro id _ mid ⟨rfl, hmid⟩
  refine (follows_value mid).bind ?_
  rintro value n' rest ⟨rfl, hrest⟩
  have hgrow := run_growSize (a := size) (b := valueBytes value) (by omega) rest
  rintro out left hout
  split at hout
  · cases hout
  · next hnew =>
    cases hout
    have hnew : id ∉ fields := fun hc => hnew (ExtTreeMap.mem_iff_contains.mp hc)
    refine ⟨_, hgrow, ?_, by omega⟩
    have hadd : (n + 1) * fieldAllowance = n * fieldAllowance + fieldAllowance := Nat.succ_mul _ _
    have hfield : fieldBytes (id, value) = fieldAllowance + valueBytes value := rfl
    rw [fieldsBytes_insert hnew, hfield, hsize]
    omega

/-- The scan of a row. -/
def skipFields (overhead : ℕ) : Decoder ℕ := do
  let n ← Decoder.count 5
  let size ← growSize overhead (n * fieldAllowance)
  Decoder.times skipAssignment n size

/-- **The scan follows the decoder over a row.** -/
theorem follows_fields {overhead : ℕ} {data : Bytes}
    (hbound : overhead + 4096 * fieldAllowance + data.length ≤ maxU64) :
    Decoder.Follows decodeFields (skipFields overhead) data
      fun fields size _ => size = overhead + fieldsBytes fields := by
  refine (Decoder.Follows.count 5 data).bind ?_
  rintro n _ rest ⟨rfl, hrest⟩
  split
  · exact .fail _
  · next hmany =>
    have hn : n * fieldAllowance ≤ 4096 * fieldAllowance :=
      Nat.mul_le_mul_right _ (Nat.not_lt.mp hmany)
    refine Decoder.Follows.step (run_growSize (by omega) rest) ?_
    have hempty : fieldsBytes ∅ = 0 := rfl
    have hstart : Counted overhead (overhead + 4096 * fieldAllowance + data.length) n ∅
        (overhead + n * fieldAllowance) rest := ⟨by omega, by omega⟩
    have hloop := Decoder.Follows.times
      (R := Counted overhead (overhead + 4096 * fieldAllowance + data.length))
      (fun _ _ _ _ h => follows_assignment hbound h) n hstart
    refine hloop.mono fun fields size rest h => ?_
    rw [h.1, Nat.zero_mul, Nat.add_zero]

/-- **A record that is decoded is scanned**, whatever kind of flag it has. -/
theorem scan_of_decode {κ ρ : Type} {kind : Decoder κ} {make : ℕ → ℕ → ℕ → κ → Fields → ρ}
    {fields : ρ → Fields} {overhead : ℕ} {data : Bytes} {r : ρ}
    (hkind : ∀ data, Decoder.Follows kind Decoder.u8 data fun _ _ rest => rest.length ≤ data.length)
    (hmake : ∀ a b c k fs, fields (make a b c k fs) = fs)
    (hbound : overhead + 4096 * fieldAllowance + data.length ≤ maxU64)
    (h : Decoder.decode (do
      let a ← Decoder.u64
      let b ← Decoder.u64
      let c ← Decoder.u64
      let k ← kind
      let fs ← decodeFields
      return make a b c k fs) data = .ok r) :
    recordBytes data overhead = .ok (overhead + fieldsBytes (fields r)) := by
  have hu64 (data : Bytes) : Decoder.Follows Decoder.u64 Decoder.u64 data
      fun a b rest => a = b ∧ rest.length ≤ data.length := Decoder.Follows.number 8 data
  have hscan : Decoder.Follows (do
      let a ← Decoder.u64
      let b ← Decoder.u64
      let c ← Decoder.u64
      let k ← kind
      let fs ← decodeFields
      return make a b c k fs) (do
        let _ ← Decoder.u64
        let _ ← Decoder.u64
        let _ ← Decoder.u64
        let _ ← Decoder.u8
        skipFields overhead) data
      fun r size _ => size = overhead + fieldsBytes (fields r) := by
    refine (hu64 data).bind ?_
    rintro a _ rest₁ ⟨-, h₁⟩
    refine (hu64 rest₁).bind ?_
    rintro b _ rest₂ ⟨-, h₂⟩
    refine (hu64 rest₂).bind ?_
    rintro c _ rest₃ ⟨-, h₃⟩
    refine (hkind rest₃).bind ?_
    rintro k _ rest₄ h₄ out rest hout
    rw [StateT.run_bind] at hout
    obtain ⟨⟨fs, left⟩, hfs, hpure⟩ := bind_eq_ok.mp hout
    cases hpure
    obtain ⟨size, hsize, heq⟩ := @follows_fields overhead rest₄ (by omega) fs left hfs
    refine ⟨size, hsize, ?_⟩
    dsimp only
    rw [hmake, heq]
  exact hscan.decode h

/-- A flag takes up a byte, whatever it is checked for. -/
theorem follows_flag {κ : Type} {check : ℕ → Decoder κ}
    (hcheck : ∀ m left k out, (check m).run left = .ok (k, out) → out = left) (data : Bytes) :
    Decoder.Follows (Decoder.u8 >>= check) Decoder.u8 data
      fun _ _ rest => rest.length ≤ data.length := by
  intro k out hrun
  rw [StateT.run_bind] at hrun
  obtain ⟨⟨m, left⟩, hu, hk⟩ := bind_eq_ok.mp hrun
  obtain ⟨_, hu', -, hleft⟩ := Decoder.Follows.number 1 data m left hu
  obtain rfl := hcheck m left k out hk
  exact ⟨_, hu', hleft⟩

/-- The floats of a row are finite. -/
def Fields.Finite (fields : Fields) : Prop :=
  ∀ id bits, (id, Value.float64 bits) ∈ fields.toList → isFinite bits = true

/-- A row of few fields with finite floats can be stored. -/
theorem Fields.Typed.storable {fields : Fields} (h : fields.Typed)
    (hlength : fields.toList.length ≤ 4096) (hfinite : fields.Finite) : fields.Storable := by
  refine ⟨hlength, fun p hp => (h p hp).1, ?_⟩
  rintro ⟨id, value⟩ hp
  have htyped := (h _ hp).2
  cases value with
  | float64 bits => exact hfinite id bits hp
  | text v => exact htyped
  | bytes v => exact htyped
  | null | bool v | int64 v | uint64 v => trivial

theorem Reads.entity {e : Entity} (h : e.Typed) (hfields : e.fields.Storable) :
    decodeEntity (encodeEntity e) = .ok e := by
  obtain ⟨hid, hversion, hschema, -⟩ := h
  refine Reads.decode ((u64 hid).bind ((u64 hversion).bind ((u64 hschema).bind
    ((bool _ e.deleted).bind ?_))))
  exact (fields hfields).bind_last (pure _)

theorem Reads.event {v : Event} (h : v.Typed) (hfields : v.fields.Storable) :
    decodeEvent (encodeEvent v) = .ok v := by
  obtain ⟨hversion, htransaction, hschema, -⟩ := h
  have hkind : Reads decodeEventKind (Encoder.u8 v.kind.tag) v.kind := by
    refine (u8 (v := v.kind.tag) (by cases v.kind <;> decide)).bind_last ?_
    rcases v.kind with _ | _
    · exact pure _
    · exact pure _
  refine Reads.decode ((u64 hversion).bind ((u64 htransaction).bind ((u64 hschema).bind
    (hkind.bind ?_))))
  exact (fields hfields).bind_last (pure _)

/-- **An event that is decoded is scanned** for what it is charged for. -/
theorem scan_of_decodeEvent {data : Bytes} (hdata : data.length < 2 ^ 63) {v : Event}
    (hv : decodeEvent data = .ok v) : recordBytes data eventSize = .ok (eventBytes v) := by
  have hmax : maxU64 = 2 ^ 64 - 1 := rfl
  have hsizes : eventSize = 80 ∧ fieldAllowance = 128 := ⟨rfl, rfl⟩
  refine @scan_of_decode _ _ _ _ Event.fields _ _ _ (follows_flag ?_) (fun _ _ _ _ _ => rfl)
    (by omega) hv
  rintro (_ | _ | m) left k out ⟨⟩
  · rfl
  · rfl

/-- **So is a state.** -/
theorem scan_of_decodeEntity {data : Bytes} (hdata : data.length < 2 ^ 63) {e : Entity}
    (he : decodeEntity data = .ok e) : recordBytes data entitySize = .ok (entityBytes e) := by
  have hmax : maxU64 = 2 ^ 64 - 1 := rfl
  have hsizes : entitySize = 56 ∧ fieldAllowance = 128 := ⟨rfl, rfl⟩
  refine @scan_of_decode _ _ _ _ Entity.fields _ _ _ (follows_flag ?_) (fun _ _ _ _ _ => rfl)
    (by omega) he
  rintro (_ | _ | m) left k out ⟨⟩
  · rfl
  · rfl

/-- **Records round-trip, and are admitted for what they are.** A state or an event of at most 4096
fields with finite floats is decoded from its bytes. Whatever bytes are decoded at all, a byte
string being shorter than `2 ^ 63`, the scan in front of the decoder admits exactly what the
decoded record is charged for: the fixed size, and for each field its allowance and the length of
its value. -/
theorem records_round_trip_as_scanned :
    (∀ e : Entity, e.Typed → e.fields.toList.length ≤ 4096 → e.fields.Finite →
        decodeEntity (encodeEntity e) = .ok e) ∧
      (∀ v : Event, v.Typed → v.fields.toList.length ≤ 4096 → v.fields.Finite →
        decodeEvent (encodeEvent v) = .ok v) ∧
      (∀ data : Bytes, data.length < 2 ^ 63 → ∀ e, decodeEntity data = .ok e →
        recordBytes data entitySize = .ok (entityBytes e)) ∧
      ∀ data : Bytes, data.length < 2 ^ 63 → ∀ v, decodeEvent data = .ok v →
        recordBytes data eventSize = .ok (eventBytes v) := by
  refine ⟨?_, ?_, ?_, ?_⟩
  · intro e htyped hlength hfinite
    exact Reads.entity htyped (htyped.2.2.2.storable hlength hfinite)
  · intro v htyped hlength hfinite
    exact Reads.event htyped (htyped.2.2.2.storable hlength hfinite)
  · exact fun data hdata e he => scan_of_decodeEntity hdata he
  · exact fun data hdata v hv => scan_of_decodeEvent hdata hv

/-- A state with a field that is null, and one that is a negative zero. -/
def nullAndZero : Entity where
  id := 7
  version := 1
  schemaVersion := 1
  deleted := false
  fields := ExtTreeMap.ofList [(1, .null), (2, .float64 0x8000000000000000)] compare

/-- A state of two fields. -/
theorem records_round_trip_as_scanned_pair :
    decodeEntity (encodeEntity nullAndZero) = .ok nullAndZero ∧
      recordBytes (encodeEntity nullAndZero) entitySize = .ok 312 := by
  obtain ⟨hdecode, -, hscan, -⟩ := records_round_trip_as_scanned
  have hlist : nullAndZero.fields.toList = [(1, .null), (2, .float64 0x8000000000000000)] := rfl
  have hread := hdecode nullAndZero ⟨by decide, by decide, by decide, ?_⟩ (by decide) ?_
  · exact ⟨hread, hscan _ (by decide) _ hread⟩
  · intro p hp
    rw [hlist] at hp
    rcases List.mem_pair.mp hp with rfl | rfl
    · exact ⟨by decide, trivial⟩
    · exact ⟨by decide, trivial⟩
  · intro id bits hp
    rw [hlist] at hp
    rcases List.mem_pair.mp hp with heq | heq
    · cases heq
    · cases heq
      decide

end EveDB
