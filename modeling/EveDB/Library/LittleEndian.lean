import Mathlib.Data.List.Basic
import Mathlib.Algebra.Order.Ring.Nat
import Mathlib.Tactic.Ring

/-!
# Little-endian numbers

Fixed-width unsigned integers as byte strings, least significant byte first. The
two directions are `LittleEndian.encode`, which truncates like a cast to the
width, and `LittleEndian.decode`, which reads a string of any length; they are
inverse on the numbers that fit (`LittleEndian.decode_encode_of_lt`) and on all
strings (`LittleEndian.encode_decode`).
-/

namespace LittleEndian

/-- The `n` low bytes of `v`, least significant byte first. -/
def encode : ℕ → ℕ → List UInt8
  | 0, _ => []
  | n + 1, v => UInt8.ofNat v :: encode n (v / 256)

/-- The number a byte string spells, least significant byte first. -/
def decode : List UInt8 → ℕ
  | [] => 0
  | b :: bs => b.toNat + 256 * decode bs

@[simp] theorem length_encode (n v : ℕ) : (encode n v).length = n := by
  induction n generalizing v with
  | zero => rfl
  | succ n ih => simp [encode, ih]

theorem decode_encode (n v : ℕ) : decode (encode n v) = v % 256 ^ n := by
  induction n generalizing v with
  | zero => simp [encode, decode, Nat.mod_one]
  | succ n ih =>
    have h : (UInt8.ofNat v).toNat = v % 256 := by simp
    rw [encode, decode, ih, h, pow_succ', Nat.mod_mul]

/-- **A number that fits its width survives the round trip.** -/
theorem decode_encode_of_lt {n v : ℕ} (h : v < 256 ^ n) : decode (encode n v) = v := by
  rw [decode_encode, Nat.mod_eq_of_lt h]

theorem decode_lt (bs : List UInt8) : decode bs < 256 ^ bs.length := by
  induction bs with
  | nil => simp [decode]
  | cons b bs ih =>
    have hb : b.toNat < 256 := b.toNat_lt
    rw [decode, List.length_cons, pow_succ']
    omega

/-- **A string is the encoding of the number it spells**, at its own length. -/
theorem encode_decode (bs : List UInt8) : encode bs.length (decode bs) = bs := by
  induction bs with
  | nil => rfl
  | cons b bs ih =>
    have hb : b.toNat < 256 := b.toNat_lt
    have hdiv : (b.toNat + 256 * decode bs) / 256 = decode bs := by omega
    have hmod : UInt8.ofNat (b.toNat + 256 * decode bs) = b := by
      apply UInt8.toNat_inj.mp
      simp only [UInt8.toNat_ofNat']
      omega
    rw [List.length_cons, decode, encode, hdiv, ih, hmod]

/-- Two strings of one length that spell the same number are equal. -/
theorem decode_injective {as bs : List UInt8} (hl : as.length = bs.length)
    (h : decode as = decode bs) : as = bs := by
  rw [← encode_decode as, ← encode_decode bs, hl, h]

end LittleEndian
