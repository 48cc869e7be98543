import Mathlib.Data.List.Basic
import Mathlib.Tactic.Ring

/-!
# Bytes and C integers

The extension moves bytes between Ruby strings and a C buffer, and every length it
writes is a C `int`.  This file fixes the vocabulary the rest of the model uses:

* `Bytes`, a byte string, and `cstr`, what a C string function sees of one
  (everything before its first NUL);
* `toInt32`, the conversion `(int)x` of a wider integer, which wraps modulo `2^32`;
* `leBytes w n`, the `w` little-endian bytes a `memcpy` of an integer writes, with
  `le32`/`le64` for the `int` and `long long` fields, and `readLE`, `int32Of`,
  `int64Of` for the reads of the decoder.

The only laws needed later are the round trips `int32Of_le32` and `int64Of_le64` and
the length lemmas; they are tagged `@[simp]` so that the encoder and decoder proofs
compute through them.
-/

namespace CBson

/-- A byte string: the contents of a Ruby `String`, or a slice of a C buffer. -/
abbrev Bytes := List UInt8

/-- The bytes of an ASCII literal of the source, such as `"_id"` or `"$ref"`. -/
def ascii (s : String) : Bytes := s.toList.map fun c => c.toNat.toUInt8

/-- What `strlen`, `strcmp` and `rb_str_new2` see of a byte string: the bytes before
its first NUL.  Ruby keeps a NUL after the last byte of every string, so a string
without one is seen whole. -/
def cstr (b : Bytes) : Bytes := b.takeWhile (· != 0)

/-- A byte string holds no NUL. -/
def NulFree (b : Bytes) : Prop := 0 ∉ b

instance (b : Bytes) : Decidable (NulFree b) := inferInstanceAs (Decidable (0 ∉ b))

@[simp] theorem cstr_nil : cstr [] = [] := rfl

theorem cstr_cons_zero (b : Bytes) : cstr (0 :: b) = [] := rfl

theorem cstr_cons_of_ne {c : UInt8} (hc : c ≠ 0) (b : Bytes) : cstr (c :: b) = c :: cstr b := by
  simp [cstr, List.takeWhile_cons, hc]

theorem cstr_of_nulFree {b : Bytes} (h : NulFree b) : cstr b = b := by
  induction b with
  | nil => rfl
  | cons c b ih =>
    have hc : c ≠ 0 := fun hc => h (hc ▸ List.mem_cons_self c b)
    rw [cstr_cons_of_ne hc, ih fun hb => h (List.mem_cons_of_mem c hb)]

theorem cstr_append_zero {b : Bytes} (h : NulFree b) (rest : Bytes) :
    cstr (b ++ 0 :: rest) = b := by
  induction b with
  | nil => rfl
  | cons c b ih =>
    have hc : c ≠ 0 := fun hc => h (hc ▸ List.mem_cons_self c b)
    rw [List.cons_append, cstr_cons_of_ne hc, ih fun hb => h (List.mem_cons_of_mem c hb)]

theorem nulFree_cstr (b : Bytes) : NulFree (cstr b) := by
  intro h
  simpa using List.mem_takeWhile_imp h

theorem cstr_length_le (b : Bytes) : (cstr b).length ≤ b.length :=
  (List.takeWhile_prefix _).length_le

/-! ## C `int` -/

/-- The C conversion `(int)x` of a value held in a wider integer type (`long`,
`size_t`): two's complement wrap-around to 32 bits, as the compilers the extension
targets do it. -/
def toInt32 (x : Int) : Int := (x + 2 ^ 31) % 2 ^ 32 - 2 ^ 31

/-- A value fits a C `int`. -/
def FitsInt32 (x : Int) : Prop := -2 ^ 31 ≤ x ∧ x < 2 ^ 31

instance (x : Int) : Decidable (FitsInt32 x) := inferInstanceAs (Decidable (_ ∧ _))

theorem toInt32_of_fits {x : Int} (h : FitsInt32 x) : toInt32 x = x := by
  unfold toInt32 FitsInt32 at *
  omega

theorem toInt32_fits (x : Int) : FitsInt32 (toInt32 x) := by
  unfold toInt32 FitsInt32
  omega

theorem toInt32_le (x : Int) (h : 0 ≤ x) : toInt32 x ≤ x := by
  unfold toInt32
  omega

/-! ## Little-endian fields -/

/-- The `w` little-endian bytes of `n`; bits above `8 * w` are dropped. -/
def leBytes : Nat → Nat → Bytes
  | 0, _ => []
  | w + 1, n => (n % 256).toUInt8 :: leBytes w (n / 256)

/-- The natural number with the given little-endian bytes. -/
def readLE : Bytes → Nat
  | [] => 0
  | b :: bs => b.toNat + 256 * readLE bs

/-- The four bytes a `memcpy` of a C `int` (or the low half of a wider value) writes. -/
def le32 (x : Int) : Bytes := leBytes 4 (x % 2 ^ 32).toNat

/-- The eight bytes a `memcpy` of a `long long` or a `double` writes. -/
def le64 (x : Int) : Bytes := leBytes 8 (x % 2 ^ 64).toNat

/-- The signed value of a `w`-byte two's complement field. -/
def signedOf (w : Nat) (u : Nat) : Int :=
  if u < 2 ^ (8 * w - 1) then u else (u : Int) - 2 ^ (8 * w)

/-- `*(int*)p`: the C `int` stored at the start of `b`. -/
def int32Of (b : Bytes) : Int := signedOf 4 (readLE b)

/-- `memcpy(&ll, p, 8)`: the `long long` stored at the start of `b`. -/
def int64Of (b : Bytes) : Int := signedOf 8 (readLE b)

@[simp] theorem length_leBytes (w n : Nat) : (leBytes w n).length = w := by
  induction w generalizing n with
  | zero => rfl
  | succ w ih => simp [leBytes, ih]

@[simp] theorem length_le32 (x : Int) : (le32 x).length = 4 := length_leBytes _ _

@[simp] theorem length_le64 (x : Int) : (le64 x).length = 8 := length_leBytes _ _

theorem readLE_leBytes (w n : Nat) : readLE (leBytes w n) = n % 256 ^ w := by
  induction w generalizing n with
  | zero => simp [leBytes, readLE, Nat.mod_one]
  | succ w ih =>
    have h : ((n % 256).toUInt8).toNat = n % 256 :=
      UInt8.toNat_ofNat_of_lt (Nat.mod_lt _ (by decide))
    simp only [leBytes, readLE, ih, h, pow_succ']
    rw [Nat.mod_mul]

theorem readLE_append (b₁ b₂ : Bytes) :
    readLE (b₁ ++ b₂) = readLE b₁ + 256 ^ b₁.length * readLE b₂ := by
  induction b₁ with
  | nil => simp [readLE]
  | cons c b ih =>
    rw [List.cons_append, readLE, readLE, ih, List.length_cons, pow_succ]
    ring

theorem toUInt8_toNat_mod (b : UInt8) : (b.toNat % 256).toUInt8 = b := by
  apply UInt8.toNat.inj
  rw [UInt8.toNat_ofNat_of_lt (Nat.mod_lt _ (by decide))]
  exact Nat.mod_eq_of_lt b.val.isLt

theorem leBytes_zero (w : Nat) : leBytes w 0 = List.replicate w 0 := by
  induction w with
  | zero => rfl
  | succ w ih => rw [leBytes, ih]; rfl

/-- Writing back what was read gives the bytes again, padded with zeros. -/
theorem leBytes_readLE (bs : Bytes) (k : Nat) :
    leBytes (bs.length + k) (readLE bs) = bs ++ List.replicate k 0 := by
  induction bs with
  | nil => rw [List.length_nil, Nat.zero_add, readLE, leBytes_zero, List.nil_append]
  | cons b bs ih =>
    have hb : b.toNat < 256 := b.val.isLt
    rw [List.length_cons, Nat.add_right_comm, leBytes, readLE,
      show (b.toNat + 256 * readLE bs) % 256 = b.toNat % 256 by omega,
      show (b.toNat + 256 * readLE bs) / 256 = readLE bs by omega, toUInt8_toNat_mod, ih,
      List.cons_append]

/-- `w` bytes see `n` only modulo `256 ^ w`. -/
theorem leBytes_mod_pow (w n : Nat) : leBytes w (n % 256 ^ w) = leBytes w n := by
  induction w generalizing n with
  | zero => rfl
  | succ w ih =>
    rw [leBytes, leBytes, pow_succ', Nat.mod_mul_right_div_self, ih, Nat.mod_mul_right_mod]

theorem leBytes_mod_of_dvd {w m : Nat} (h : 256 ^ w ∣ m) (n : Nat) :
    leBytes w (n % m) = leBytes w n := by
  rw [← leBytes_mod_pow, Nat.mod_mod_of_dvd _ h, leBytes_mod_pow]

@[simp] theorem int32Of_le32 (x : Int) : int32Of (le32 x) = toInt32 x := by
  unfold int32Of le32 signedOf toInt32
  rw [readLE_leBytes]
  have h := Int.emod_nonneg x (by norm_num : (2 : Int) ^ 32 ≠ 0)
  have h' := Int.emod_lt_of_pos x (by decide : (0 : Int) < 2 ^ 32)
  have hn : (((x % 2 ^ 32).toNat % 256 ^ 4 : Nat) : Int) = x % 2 ^ 32 := by
    rw [Nat.mod_eq_of_lt (by omega), Int.toNat_of_nonneg h]
  split <;> omega

@[simp] theorem int64Of_le64 (x : Int) : int64Of (le64 x) = x % 2 ^ 64 -
    (if x % 2 ^ 64 < 2 ^ 63 then 0 else 2 ^ 64) := by
  unfold int64Of le64 signedOf
  rw [readLE_leBytes]
  have h := Int.emod_nonneg x (by norm_num : (2 : Int) ^ 64 ≠ 0)
  have h' := Int.emod_lt_of_pos x (by decide : (0 : Int) < 2 ^ 64)
  have hn : (((x % 2 ^ 64).toNat % 256 ^ 8 : Nat) : Int) = x % 2 ^ 64 := by
    rw [Nat.mod_eq_of_lt (by omega), Int.toNat_of_nonneg h]
  split <;> split <;> omega

theorem int64Of_le64_of_fits {x : Int} (h : -2 ^ 63 ≤ x ∧ x < 2 ^ 63) : int64Of (le64 x) = x := by
  rw [int64Of_le64]
  split <;> omega

end CBson
