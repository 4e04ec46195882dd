import EveDB.Store.Records

/-!
# The length of what is decoded

A decoder that succeeds has consumed as many bytes as its value is encoded in, whatever these
bytes were (`leaves_value`, `leaves_fields`): a record is as long as the bytes of the state that
is decoded from it (`length_encodeEntity_of_decode`), in whatever order its fields come.
-/

namespace EveDB

open Std

namespace Decoder

variable {α β σ : Type}

/-- **Where a decoder ends**: wherever it succeeds, its value and the bytes it leaves are so. -/
def Leaves (d : Decoder α) (data : Bytes) (R : α → Bytes → Prop) : Prop :=
  ∀ a rest, d.run data = .ok (a, rest) → R a rest

namespace Leaves

variable {d : Decoder α} {data : Bytes} {R : α → Bytes → Prop} {S : β → Bytes → Prop}

theorem bind {f : α → Decoder β} (h : d.Leaves data R)
    (hf : ∀ a rest, R a rest → (f a).Leaves rest S) : (d >>= f).Leaves data S := by
  intro b rest hrun
  rw [StateT.run_bind] at hrun
  obtain ⟨⟨a, mid⟩, hd, hfa⟩ := bind_eq_ok.mp hrun
  exact hf a mid (h a mid hd) b rest hfa

theorem pure {a : α} (h : R a data) : Leaves (Pure.pure a) data R := by
  rintro _ _ ⟨⟩
  exact h

theorem fail (message : String) : (Decoder.fail message).Leaves data R := by
  rintro _ _ ⟨⟩

/-- What every round keeps, a loop keeps. -/
theorem times {body : σ → Decoder σ} {R : σ → Bytes → Prop}
    (hbody : ∀ s rest, R s rest → (body s).Leaves rest R) (n : ℕ) {s : σ} {data : Bytes}
    (h : R s data) : (Decoder.times body n s).Leaves data R := by
  induction n generalizing s data with
  | zero => exact pure h
  | succ n ih => exact (hbody s data h).bind fun s rest h => ih h

/-- A number takes up its bytes. -/
theorem number (n : ℕ) (data : Bytes) :
    Leaves (LittleEndian.decode <$> take n) data fun _ rest => rest.length + n = data.length := by
  intro a rest hrun
  rw [StateT.run_map] at hrun
  obtain ⟨⟨taken, left⟩, htake, heq⟩ := map_eq_ok.mp hrun
  obtain rfl : left = rest := congrArg Prod.snd heq
  exact (run_take htake).2

/-- A count takes up eight bytes. -/
theorem count (m : ℕ) (data : Bytes) :
    (Decoder.count m).Leaves data fun _ rest => rest.length + 8 = data.length := by
  refine (number 8 data).bind fun n rest hrest => ?_
  rintro a left hrun
  rw [StateT.run_bind] at hrun
  obtain ⟨⟨_, _⟩, hremaining, hguard⟩ := bind_eq_ok.mp hrun
  cases hremaining
  dsimp only at hguard
  split at hguard
  · cases hguard
  · cases hguard
    exact hrest

/-- A byte string takes up its bytes behind its length. -/
theorem bytes (data : Bytes) :
    Decoder.bytes.Leaves data fun a rest => 8 + a.length + rest.length = data.length := by
  refine (count 1 data).bind fun n rest hrest a left hrun => ?_
  obtain ⟨hlen, hleft⟩ := run_take hrun
  omega

/-- A record that is decoded leaves nothing. -/
theorem decode (h : d.Leaves data R) {a : α} (ha : Decoder.decode d data = .ok a) : R a [] := by
  obtain ⟨⟨_, left⟩, hrun, rfl⟩ := map_eq_ok.mp ha
  rw [StateT.run_bind] at hrun
  obtain ⟨⟨b, rest⟩, hd, hfinish⟩ := bind_eq_ok.mp hrun
  rw [StateT.run_bind] at hfinish
  obtain ⟨⟨u, left'⟩, hend, hpure⟩ := bind_eq_ok.mp hfinish
  cases hpure
  rw [StateT.run, finish] at hend
  split at hend
  · cases hend
  · next hempty =>
    cases hend
    rw [not_not, List.length_eq_zero_iff] at hempty
    obtain rfl : rest = [] := hempty
    exact h b [] hd

end Leaves

end Decoder

/-- **A value takes up the bytes it is encoded in.** -/
theorem leaves_value (data : Bytes) : decodeValue.Leaves data
    fun v rest => 1 + valueEncodedLen v + rest.length = data.length := by
  refine (Decoder.Leaves.number 1 data).bind fun tag rest hrest => ?_
  have hnumber {f : ℕ → Value} (hf : ∀ n, valueEncodedLen (f n) = 8) :
      Decoder.Leaves (do return f (← Decoder.u64)) rest
        fun v rest => 1 + valueEncodedLen v + rest.length = data.length := by
    refine (Decoder.Leaves.number 8 rest).bind fun n left hleft => .pure ?_
    rw [hf]
    omega
  rcases tag with _ | _ | _ | _ | _ | _ | _ | tag
  · exact .pure (by rw [valueEncodedLen]; omega)
  · refine ((Decoder.Leaves.number 1 rest).bind (S := fun _ left => left.length + 1 = rest.length)
      fun flag left hleft => ?_).bind fun b left hleft => .pure ?_
    · split
      · exact .pure hleft
      · exact .pure hleft
      · exact .fail _
    · rw [valueEncodedLen]
      omega
  · exact hnumber fun _ => rfl
  · exact hnumber fun _ => rfl
  · refine (Decoder.Leaves.number 8 rest).bind fun n left hleft => ?_
    dsimp only
    split
    · have hlen : valueEncodedLen (.float64 (UInt64.ofNat n)) = 8 := rfl
      exact .pure (by omega)
    · exact .fail _
  · refine ((Decoder.Leaves.bytes rest).bind
      (S := fun s left => 8 + s.utf8ByteSize + left.length = rest.length)
      fun text left hleft => ?_).bind fun s left hleft => .pure ?_
    · split
      · next s hs =>
        refine .pure ?_
        rw [utf8ByteSize_of_fromUTF8? hs]
        exact hleft
      · exact .fail _
    · rw [valueEncodedLen]
      omega
  · refine (Decoder.Leaves.bytes rest).bind fun bytes left hleft => .pure ?_
    rw [valueEncodedLen]
    omega
  · exact .fail _

/-- A field of its own adds the bytes it takes. -/
theorem fieldsEncodedLen_insert {fields : Fields} {id : ℕ} (hid : id ∉ fields) (value : Value) :
    fieldsEncodedLen (fields.insert id value) =
      5 + valueEncodedLen value + fieldsEncodedLen fields := by
  have hsum := ((SortedMap.toList_insert_perm hid value).map
    fun p : ℕ × Value => 5 + valueEncodedLen p.2).sum_eq
  rw [List.map_cons, List.sum_cons] at hsum
  dsimp only at hsum
  change 8 + ((fields.insert id value).toList.map fun p => 5 + valueEncodedLen p.2).sum =
    5 + valueEncodedLen value + (8 + (fields.toList.map fun p => 5 + valueEncodedLen p.2).sum)
  omega

/-- **A row takes up the bytes it is encoded in.** -/
theorem leaves_fields (data : Bytes) : decodeFields.Leaves data
    fun fields rest => fieldsEncodedLen fields + rest.length = data.length := by
  refine (Decoder.Leaves.count 5 data).bind fun n rest hrest => ?_
  split
  · exact .fail _
  · refine .times (fun fields mid hmid => ?_) n ?_
    · refine (Decoder.Leaves.number 4 mid).bind fun id mid' hid => ?_
      refine (leaves_value mid').bind fun value left hvalue => ?_
      split
      · exact .fail _
      · next hnew =>
        refine .pure ?_
        rw [fieldsEncodedLen_insert fun hc => hnew (ExtTreeMap.mem_iff_contains.mp hc)]
        omega
    · have hempty : fieldsEncodedLen ∅ = 8 := rfl
      omega

theorem length_encodeEntity (e : Entity) :
    (encodeEntity e).length = 25 + fieldsEncodedLen e.fields := by
  rw [← length_encodeFields]
  simp only [encodeEntity, Encoder.bool, List.length_append, Encoder.length_u64, Encoder.length_u8]
  omega

/-- **A state that is decoded is as long as its record.** -/
theorem length_encodeEntity_of_decode {data : Bytes} {e : Entity} (h : decodeEntity data = .ok e) :
    (encodeEntity e).length = data.length := by
  refine (length_encodeEntity e).trans (Decoder.Leaves.decode (R := fun e rest =>
    25 + fieldsEncodedLen e.fields + rest.length = data.length) ?_ h)
  refine (Decoder.Leaves.number 8 data).bind fun id rest₁ h₁ => ?_
  refine (Decoder.Leaves.number 8 rest₁).bind fun version rest₂ h₂ => ?_
  refine (Decoder.Leaves.number 8 rest₂).bind fun schema rest₃ h₃ => ?_
  refine ((Decoder.Leaves.number 1 rest₃).bind (S := fun _ left => left.length + 1 = rest₃.length)
    fun flag left hleft => ?_).bind fun deleted rest₄ h₄ => ?_
  · split
    · exact .pure hleft
    · exact .pure hleft
    · exact .fail _
  · refine (leaves_fields rest₄).bind fun fields rest hrest => .pure ?_
    dsimp only
    omega

end EveDB
