import Mathlib.Data.List.Basic
import Mathlib.Data.List.TakeDrop
import Mathlib.Algebra.Order.Ring.Nat

/-!
# Logs of self-delimiting records, torn at the end

An append-only file of records survives a crash as a byte prefix of what was
written: some records whole, and then a *torn* remainder that is a proper prefix
of the next one. This file says what a reader makes of such a file, for any
record type with an encoder and a reader that tells a torn remainder from a
record (`TornLog.Format.Lawful`).

| fact | theorem |
|---|---|
| a scan sees exactly the whole records | `TornLog.scan_encodeAll` |
| a cut keeps whole records and tears one | `TornLog.exists_take_encodeAll` |

The number of whole records below a cut is `TornLog.whole`, computed from the
record lengths alone; everything a crash can do to a log is a statement about it.
-/

namespace TornLog

variable {α ε σ : Type}

/-- A record format: how a record is spelt, and how the record at the front of a
byte string is read. The reader answers `none` for a torn remainder, and an error
for bytes that are damaged rather than missing. -/
structure Format (α ε : Type) where
  /-- The bytes of a record. -/
  encode : α → List UInt8
  /-- Reads the first record and returns the bytes behind it. -/
  read : List UInt8 → Except ε (Option (α × List UInt8))

/-- The bytes of several records, one behind the other. -/
def Format.encodeAll (F : Format α ε) (as : List α) : List UInt8 := (as.map F.encode).flatten

/-- **The laws of a record format** on the records satisfying `valid`: a record is
read back whatever follows it, and every proper prefix of one reads as torn. -/
structure Format.Lawful (F : Format α ε) (valid : α → Prop) : Prop where
  encode_ne_nil : ∀ {a}, valid a → F.encode a ≠ []
  read_encode : ∀ {a} (rest), valid a → F.read (F.encode a ++ rest) = .ok (some (a, rest))
  read_prefix : ∀ {a t}, valid a → t <+: F.encode a → t ≠ F.encode a → F.read t = .ok none
  read_nil : F.read [] = .ok none

/-- **A torn remainder**: nothing at all, or a proper prefix of a record. -/
def Torn (F : Format α ε) (valid : α → Prop) (t : List UInt8) : Prop :=
  t = [] ∨ ∃ a, valid a ∧ t <+: F.encode a ∧ t ≠ F.encode a

/-- Reads records one by one and feeds them to `body`, until the first torn one.
Returns the final state and the bytes that were left. -/
def scan (F : Format α ε) (body : σ → α → Except ε σ) :
    ℕ → σ → List UInt8 → Except ε (σ × List UInt8)
  | 0, s, bytes => .ok (s, bytes)
  | fuel + 1, s, bytes =>
    match F.read bytes with
    | .error e => .error e
    | .ok none => .ok (s, bytes)
    | .ok (some (a, rest)) =>
      match body s a with
      | .error e => .error e
      | .ok s' => scan F body fuel s' rest

/-- How many of the records `as` lie wholly within their first `k` bytes. -/
def whole (F : Format α ε) : ℕ → List α → ℕ
  | _, [] => 0
  | k, a :: as =>
    if (F.encode a).length ≤ k then whole F (k - (F.encode a).length) as + 1 else 0

section Encoding

variable {F : Format α ε} {valid : α → Prop}

@[simp] theorem encodeAll_nil : F.encodeAll [] = [] := rfl

@[simp] theorem encodeAll_cons (a : α) (as : List α) :
    F.encodeAll (a :: as) = F.encode a ++ F.encodeAll as := rfl

@[simp] theorem encodeAll_append (as bs : List α) :
    F.encodeAll (as ++ bs) = F.encodeAll as ++ F.encodeAll bs := by
  simp [Format.encodeAll]

theorem torn_nil : Torn F valid [] := Or.inl rfl

theorem Torn.read (hF : F.Lawful valid) {t : List UInt8} (ht : Torn F valid t) :
    F.read t = .ok none := by
  rcases ht with rfl | ⟨a, ha, hpre, hne⟩
  · exact hF.read_nil
  · exact hF.read_prefix ha hpre hne

/-- A shorter remainder is torn too. -/
theorem Torn.take {t : List UInt8} (ht : Torn F valid t) (k : ℕ) : Torn F valid (t.take k) := by
  rcases ht with rfl | ⟨a, ha, hpre, hne⟩
  · simpa using torn_nil
  refine Or.inr ⟨a, ha, (List.take_prefix k t).trans hpre, fun heq => hne ?_⟩
  refine hpre.eq_of_length (le_antisymm hpre.length_le ?_)
  rw [← heq]
  exact (List.take_prefix k t).length_le

/-- **A scan sees exactly the whole records of a log**, in order, and stops at the
torn remainder. -/
theorem scan_encodeAll (hF : F.Lawful valid) (body : σ → α → Except ε σ) {t : List UInt8}
    (ht : Torn F valid t) (as : List α) (has : ∀ a ∈ as, valid a) {fuel : ℕ}
    (hfuel : as.length < fuel) (s : σ) :
    scan F body fuel s (F.encodeAll as ++ t) = (as.foldlM body s).map fun s' => (s', t) := by
  induction as generalizing fuel s with
  | nil =>
    obtain ⟨fuel, rfl⟩ : ∃ f, fuel = f + 1 := ⟨fuel - 1, by simp at hfuel; omega⟩
    simp [scan, ht.read hF, Except.map, pure, Except.pure]
  | cons a as ih =>
    obtain ⟨fuel, rfl⟩ : ∃ f, fuel = f + 1 := ⟨fuel - 1, by simp at hfuel; omega⟩
    have hread := hF.read_encode (F.encodeAll as ++ t) (has a List.mem_cons_self)
    rw [encodeAll_cons, List.append_assoc, scan, hread, List.foldlM_cons]
    cases hb : body s a with
    | error e => simp [hb, bind, Except.bind, Except.map]
    | ok s' =>
      have := ih (fun b hb => has b (List.mem_cons_of_mem a hb)) (by simpa using hfuel) s'
      simpa [hb, bind, Except.bind] using this

/-- A scan whose steps carry over to another state carries over. -/
theorem scan_transport {τ : Type} {body : σ → α → Except ε σ} {body' : τ → α → Except ε τ}
    {f : σ → τ} (h : ∀ s a s', body s a = .ok s' → body' (f s) a = .ok (f s')) {fuel : ℕ}
    {s s' : σ} {bytes left : List UInt8} (hscan : scan F body fuel s bytes = .ok (s', left)) :
    scan F body' fuel (f s) bytes = .ok (f s', left) := by
  induction fuel generalizing s bytes with
  | zero =>
    cases hscan
    rfl
  | succ fuel ih =>
    rw [scan] at hscan ⊢
    rcases hread : F.read bytes with e | _ | ⟨a, rest⟩
    · rw [hread] at hscan
      cases hscan
    · rw [hread] at hscan
      cases hscan
      rfl
    · rw [hread] at hscan
      dsimp only at hscan ⊢
      cases hbody : body s a with
      | error e =>
        rw [hbody] at hscan
        cases hscan
      | ok s₁ =>
        rw [hbody] at hscan
        rw [h s a s₁ hbody]
        exact ih hscan

/-- What every record keeps, a scan keeps. -/
theorem scan_keeps {I : σ → Prop} {body : σ → α → Except ε σ}
    (h : ∀ s a s', I s → body s a = .ok s' → I s') {fuel : ℕ} {s s' : σ} {bytes left : List UInt8}
    (hs : I s) (hscan : scan F body fuel s bytes = .ok (s', left)) : I s' := by
  induction fuel generalizing s bytes with
  | zero =>
    cases hscan
    exact hs
  | succ fuel ih =>
    rw [scan] at hscan
    split at hscan
    · cases hscan
    · cases hscan
      exact hs
    · split at hscan
      · cases hscan
      · next hbody => exact ih (h _ _ _ hs hbody) hscan

/-- A log is at least as long as it has records. -/
theorem length_le_length_encodeAll (hF : F.Lawful valid) (as : List α)
    (has : ∀ a ∈ as, valid a) : as.length ≤ (F.encodeAll as).length := by
  induction as with
  | nil => simp
  | cons a as ih =>
    have h1 := ih fun b hb => has b (List.mem_cons_of_mem a hb)
    have h2 := List.length_pos_iff.mpr (hF.encode_ne_nil (has a List.mem_cons_self))
    simp only [List.length_cons, encodeAll_cons, List.length_append]
    omega

end Encoding

/-! ### Cuts -/

section Cut

variable {F : Format α ε} {valid : α → Prop}

theorem whole_of_length_le {k : ℕ} {as : List α} (h : (F.encodeAll as).length ≤ k) :
    whole F k as = as.length := by
  induction as generalizing k with
  | nil => rfl
  | cons a as ih =>
    simp only [encodeAll_cons, List.length_append] at h
    rw [whole, if_pos (by omega), ih (by omega), List.length_cons]

theorem whole_append_of_le {k : ℕ} {as : List α} (h : (F.encodeAll as).length ≤ k)
    (bs : List α) :
    whole F k (as ++ bs) = as.length + whole F (k - (F.encodeAll as).length) bs := by
  induction as generalizing k with
  | nil => simp
  | cons a as ih =>
    simp only [encodeAll_cons, List.length_append] at h ⊢
    rw [List.cons_append, whole, if_pos (by omega), ih (by omega), List.length_cons,
      Nat.sub_sub]
    omega

/-- **What a cut leaves of a log**: the records that lie wholly before it, and a
torn remainder. A cut behind the last record cuts the remainder only. -/
theorem exists_take_encodeAll {t : List UInt8} (ht : Torn F valid t) (as : List α)
    (has : ∀ a ∈ as, valid a) (k : ℕ) :
    ∃ t', Torn F valid t' ∧
      (F.encodeAll as ++ t).take k = F.encodeAll (as.take (whole F k as)) ++ t' := by
  induction as generalizing k with
  | nil => exact ⟨t.take k, ht.take k, by simp⟩
  | cons a as ih =>
    rw [whole]
    by_cases h : (F.encode a).length ≤ k
    · obtain ⟨t', ht', heq⟩ :=
        ih (fun b hb => has b (List.mem_cons_of_mem a hb)) (k - (F.encode a).length)
      refine ⟨t', ht', ?_⟩
      rw [if_pos h, encodeAll_cons, List.append_assoc, List.take_append, List.take_of_length_le h,
        heq, List.take_succ_cons, encodeAll_cons, List.append_assoc]
    · refine ⟨(F.encode a).take k, Or.inr ⟨a, has a List.mem_cons_self, List.take_prefix _ _,
        fun heq => h ?_⟩, ?_⟩
      · rw [← heq]
        exact List.length_take_le _ _
      · rw [if_neg h, encodeAll_cons, List.append_assoc, List.take_append_of_le_length (by omega)]
        simp

end Cut

end TornLog
