import CBson.Encodable

/-!
# Integers: `int32`, `int64`, or `RangeError`

`write_element` has two cases for an `Integer`, one per Ruby class.  A `Bignum` is first
compared with `LL2NUM(9223372036854775807LL)` and `LL2NUM(-9223372036854775808ULL)` and
raises `RangeError` outside; it then falls through to the `Fixnum` case, which converts
with `NUM2LL` and writes tag `0x12` and the eight bytes of the `long long`, or, when the
value fits an `int`, tag `0x10` and the four bytes of `(int)ll_value`.  Which integers
are `Fixnum`s depends on the host.  `writeInteger` keeps the two cases apart for a host
whose `Fixnum`s have `fixnumBits` bits; `writeElement` of the encoder merges them.

The lower bound is spelled with an unsigned literal: `-9223372036854775808ULL` negates
`2^63` modulo `2^64`, which gives `2^63` back, and `LL2NUM` converts that to the
`long long` `-2^63` (`llMinOperand_eq`).

## Strategy

`writeElement_integer` shows that the merged case is the two-case code on every host
whose `Fixnum`s fit a `long long`, which is every host: a `Fixnum` fits a `long`.  The
rest is one run of `serialize` on `{k => n}`, computed forward with `Succeeds` of
`Encodable`: the element appends its bytes to every buffer with room for them, and
`succeeds_writeDocFrame` puts the frame around it.  `serialize_single_integer` gives
the result for every `n`, from which the three cases are read off.
-/

namespace CBson

/-! ## The two cases of the source -/

/-- `(long long)x` of a wider integer: modulo `2^64` into `[-2^63, 2^63)`. -/
def toInt64 (x : Int) : Int := (x + 2 ^ 63) % 2 ^ 64 - 2 ^ 63

/-- The operand of the `Bignum` lower bound, `LL2NUM(-9223372036854775808ULL)`: the
`unsigned long long` negation of `2^63`, converted to `long long`. -/
def llMinOperand : Int := toInt64 ((-9223372036854775808 : Int) % 2 ^ 64)

/-- `NUM2LL(value)` on an `Integer`: the value if it fits a `long long`, else
`RangeError`. -/
def num2ll (n : Int) : Except RbError Int :=
  if -2 ^ 63 ≤ n ∧ n < 2 ^ 63 then .ok n
  else .error (.rangeError "bignum too big to convert into long long")

/-- `TYPE(value) == T_FIXNUM` on a host whose `Fixnum`s are the integers of `fixnumBits`
bits. -/
def isFixnum (fixnumBits : Nat) (n : Int) : Bool :=
  decide (-2 ^ (fixnumBits - 1) ≤ n ∧ n < 2 ^ (fixnumBits - 1))

/-- The `T_BIGNUM` and `T_FIXNUM` cases of `write_element`, after the key, on a host whose
`Fixnum`s have `fixnumBits` bits. -/
def writeInteger (fixnumBits : Nat) (key : Bytes) (n : Int) : Enc Unit := do
  if !isFixnum fixnumBits n then
    if n > 9223372036854775807 ∨ n < llMinOperand then
      freeAndRaise (.rangeError "MongoDB can only handle 8-byte ints")
  let llValue ← liftExcept (num2ll n)
  if llValue > 2147483647 ∨ llValue < -2147483648 then do
    writeNameAndType key 0x12
    safeWrite (le64 llValue)
  else do
    writeNameAndType key 0x10
    safeWrite (le32 (toInt32 llValue))

theorem llMinOperand_eq : llMinOperand = -2 ^ 63 := by decide

theorem le32_toInt32 (x : Int) : le32 (toInt32 x) = le32 x := by
  unfold le32 toInt32
  congr 2
  omega

/-- A raise ends the run: nothing after `freeAndRaise` is run. -/
theorem freeAndRaise_bind (e : RbError) (f : Unit → Enc Unit) :
    freeAndRaise e >>= f = freeAndRaise e := by
  funext s
  rfl

/-- On a host whose `Fixnum`s fit a `long long`, the two cases of the source are the
merged case of `writeElement`. -/
theorem writeElement_integer {fixnumBits : Nat} (hbits : fixnumBits ≤ 64) (k : Bytes) (n : Int)
    (ck : Bool) :
    writeElement (.string k) (.integer n) ck true = (do
      if ck then checkKey k
      writeInteger fixnumBits k n) := by
  have hpow : (2 : Int) ^ (fixnumBits - 1) ≤ 2 ^ 63 := by
    exact_mod_cast Nat.pow_le_pow_right (by norm_num) (show fixnumBits - 1 ≤ 63 by omega)
  have hbranch : writeInteger fixnumBits k n =
      if n > 9223372036854775807 ∨ n < -9223372036854775808 then
        freeAndRaise (.rangeError "MongoDB can only handle 8-byte ints")
      else if n > 2147483647 ∨ n < -2147483648 then
        writeNameAndType k 0x12 >>= fun _ => safeWrite (le64 n)
      else writeNameAndType k 0x10 >>= fun _ => safeWrite (le32 n) := by
    simp only [writeInteger, llMinOperand_eq, le32_toInt32]
    by_cases h64 : n > 9223372036854775807 ∨ n < -9223372036854775808
    · have hbig : isFixnum fixnumBits n = false := by
        simp only [isFixnum, decide_eq_false_iff_not, not_and_or, not_le, not_lt]; omega
      simp only [h64, if_true, hbig, Bool.not_false,
        if_pos (show n > 9223372036854775807 ∨ n < -2 ^ 63 by omega), freeAndRaise_bind]
    · have hll : liftExcept (num2ll n) = pure n := by
        simp only [liftExcept, num2ll, if_pos (show -2 ^ 63 ≤ n ∧ n < 2 ^ 63 by omega)]; rfl
      rw [if_neg h64, hll, pure_bind]
      by_cases hfix : isFixnum fixnumBits n = true
      · simp only [hfix, Bool.not_true, Bool.false_eq_true, if_false, pure_bind]
      · simp only [hfix, Bool.not_false, if_true,
          if_neg (show ¬(n > 9223372036854775807 ∨ n < -2 ^ 63) by omega), pure_bind]
  rw [hbranch, writeElement]
  simp only [RValue.keyString?_string, Bool.not_true, Bool.false_and, Bool.false_eq_true, if_false]

/-! ## Runs that return -/

theorem succeeds_checkKey {k : Bytes} (hk : KeyOk k) : Succeeds (checkKey k) [] :=
  fun _ _ _ => ⟨(), by rw [Buffer.append_nil]; exact checkKey_eq_ok.2 ⟨hk, rfl⟩⟩

/-- A body that raises after the slot is reserved raises out of the hash frame. -/
theorem writeDocFrame_of_error {body : Enc Unit} {s s' : Buffer} {e : RbError}
    (hcap : s.bytes.length + 4 ≤ s.capacity) (h : body (s.append [0, 0, 0, 0]) = .error e s') :
    writeDocFrame body s = .error e s' := by
  unfold writeDocFrame
  rw [Enc.bind_of_ok (getPosition_apply s), Enc.bind_of_ok (saveSpace_eq_ok.2 ⟨hcap, rfl, rfl⟩), Enc.bind_of_error h]

/-! ## `serialize` of `{k => n}` -/

/-- A key `write_element` writes as it is: NUL-free UTF-8 that `RSTRING_LENINT` does not
wrap, and that passes the key tests when `check_keys` is on. -/
def ValidKey (checkKeys : Bool) (k : Bytes) : Prop :=
  CText k ∧ k.length < 2 ^ 31 ∧ (checkKeys = true → KeyOk k)

instance (checkKeys : Bool) (k : Bytes) : Decidable (ValidKey checkKeys k) :=
  inferInstanceAs
    (Decidable ((NulFree k ∧ Utf8Valid k) ∧ k.length < 2 ^ 31 ∧ (checkKeys = true → KeyOk k)))

theorem succeeds_writeElement_integer {checkKeys : Bool} {k : Bytes} {n : Int}
    (hk : ValidKey checkKeys k) (h64 : ¬(n > 9223372036854775807 ∨ n < -9223372036854775808)) :
    Succeeds (writeElement (.string k) (.integer n) checkKeys true)
      (elementBytes k (wireOf (.integer n))) := by
  have hvalue : Succeeds (if n > 2147483647 ∨ n < -2147483648 then
      writeNameAndType k 0x12 >>= fun _ => safeWrite (le64 n)
    else writeNameAndType k 0x10 >>= fun _ => safeWrite (le32 n))
      (elementBytes k (wireOf (.integer n))) := by
    simp only [wireOf]
    split <;> exact (succeeds_writeNameAndType hk.2.1 hk.1 _).bind fun _ => succeeds_safeWrite _
  rw [writeElement]
  simp only [RValue.keyString?_string, Bool.not_true, Bool.false_and, Bool.false_eq_true, if_false,
    if_neg h64]
  cases checkKeys
  · exact hvalue
  · exact (succeeds_checkKey (hk.2.2 rfl)).bind fun _ => hvalue

theorem writeElement_integer_rangeError {checkKeys : Bool} {k : Bytes} {n : Int}
    (hk : ValidKey checkKeys k) (h64 : n > 9223372036854775807 ∨ n < -9223372036854775808)
    (s : Buffer) :
    writeElement (.string k) (.integer n) checkKeys true s =
      .error (.rangeError "MongoDB can only handle 8-byte ints") { s with frees := s.frees + 1 } := by
  rw [writeElement]
  simp only [RValue.keyString?_string, Bool.not_true, Bool.false_and, Bool.false_eq_true, if_false,
    if_pos h64]
  cases checkKeys
  · rfl
  · rw [if_pos rfl, Enc.bind_of_ok ((checkKey_eq_ok (u := ())).2 ⟨hk.2.2 rfl, rfl⟩)]
    rfl

/-- Under `move_id`, a one-entry hash with a `String` key is written as it is. -/
theorem moveIdEntries_single {k : Bytes} (hk : NulFree k) (v : RValue) :
    moveIdEntries [(.string k, v)] = [(.string k, v)] := by
  by_cases h : k = ascii "_id"
  · subst h; rfl
  · simp [moveIdEntries, idEntry, readsId, RValue.isString, RValue.isSymbol, cstr_of_nulFree hk, h]

/-- `{k => n}` under `serialize`, for a valid key and room for the document: `RangeError`
outside the `long long`s, and else the document of the element `wireOf` means. -/
theorem serialize_single_integer {k : Bytes} {n : Int} {checkKeys moveId : Bool} {maxSize : Int}
    {capacity : Nat} (hk : ValidKey checkKeys k) (hfit : maxSize < 2 ^ 31)
    (hmax : ((docBytes [(k, wireOf (.integer n))]).length : Int) ≤ maxSize)
    (hcap : (docBytes [(k, wireOf (.integer n))]).length ≤ capacity) :
    serialize (.hash [(.string k, .integer n)]) checkKeys moveId maxSize capacity =
      if n > 9223372036854775807 ∨ n < -9223372036854775808 then
        .error (.rangeError "MongoDB can only handle 8-byte ints")
      else .ok (docBytes [(k, wireOf (.integer n))]) := by
  have hm : FitsInt32 maxSize := ⟨by omega, hfit⟩
  have hdoc : writeDoc (.hash [(.string k, .integer n)]) checkKeys moveId =
      writeDocFrame (writeElement (.string k) (.integer n) checkKeys true) := by
    have hplain : writeDoc (.hash [(.string k, .integer n)]) checkKeys false =
        writeDocFrame (writeElement (.string k) (.integer n) checkKeys true) := by
      simp only [writeDoc, Bool.false_eq_true, if_false, writeEntries, bind_pure_unit]
    cases moveId
    · exact hplain
    · rw [writeDoc_moveId, moveIdEntries_single hk.1.1, hplain]
  have hframe : (docBytes [(k, wireOf (.integer n))]) = frame (elementBytes k (wireOf (.integer n))) :=
    by rw [docBytes, fieldsBytes_cons, fieldsBytes, List.append_nil]
  split_ifs with h64
  · have herr : writeDoc (.hash [(.string k, .integer n)]) checkKeys moveId
        (startBuffer maxSize capacity) = .error (.rangeError "MongoDB can only handle 8-byte ints")
          { (startBuffer maxSize capacity).append [0, 0, 0, 0] with frees := 1 } := by
      rw [hdoc]
      refine writeDocFrame_of_error ?_ (writeElement_integer_rangeError hk h64 _)
      rw [hframe] at hcap
      simp [startBuffer, frame] at hcap ⊢
      omega
    exact serialize_of_error hm herr
  · refine serialize_eq_ok.2 ⟨hm, (startBuffer maxSize capacity).append
      (docBytes [(k, wireOf (.integer n))]), ?_, by simp [startBuffer]⟩
    rw [hframe] at hmax hcap ⊢
    rw [hdoc]
    obtain ⟨⟨⟩, h⟩ := succeeds_writeDocFrame (succeeds_writeElement_integer hk h64)
      (startBuffer maxSize capacity)
      (by simpa only [startBuffer, List.length_nil, Nat.zero_add] using hcap)
      (by simpa only [startBuffer] using hmax)
    exact h

/-- For every `Integer` and every host, the `Bignum` and `Fixnum` cases of the source are
`writeElement`'s merged case, and `serialize` of `{k => n}` writes tag `0x10` and the four
bytes of `n` exactly when it fits an `int`, tag `0x12` and the eight bytes exactly when it
fits a `long long` and not an `int`, and raises `RangeError` exactly when it fits no
`long long`. -/
theorem serialize_integer_width (fixnumBits : Nat) (hbits : fixnumBits ≤ 64) (k : Bytes)
    (n : Int) (checkKeys moveId : Bool) (maxSize : Int) (capacity : Nat)
    (hk : ValidKey checkKeys k) (hfit : maxSize < 2 ^ 31)
    (hmax : ((docBytes [(k, wireOf (.integer n))]).length : Int) ≤ maxSize)
    (hcap : (docBytes [(k, wireOf (.integer n))]).length ≤ capacity) :
    writeElement (.string k) (.integer n) checkKeys true =
        (do if checkKeys then checkKey k
            writeInteger fixnumBits k n) ∧
      (serialize (.hash [(.string k, .integer n)]) checkKeys moveId maxSize capacity =
          .ok (frame ([0x10] ++ k ++ [0] ++ le32 n)) ↔ -2 ^ 31 ≤ n ∧ n ≤ 2 ^ 31 - 1) ∧
      (serialize (.hash [(.string k, .integer n)]) checkKeys moveId maxSize capacity =
          .ok (frame ([0x12] ++ k ++ [0] ++ le64 n)) ↔
        (-2 ^ 63 ≤ n ∧ n ≤ 2 ^ 63 - 1) ∧ ¬(-2 ^ 31 ≤ n ∧ n ≤ 2 ^ 31 - 1)) ∧
      ((∃ msg, serialize (.hash [(.string k, .integer n)]) checkKeys moveId maxSize capacity =
          .error (.rangeError msg)) ↔ n < -2 ^ 63 ∨ 2 ^ 63 - 1 < n) := by
  refine ⟨writeElement_integer hbits k n checkKeys, ?_⟩
  have hne : frame ([0x10] ++ k ++ [0] ++ le32 n) ≠ frame ([0x12] ++ k ++ [0] ++ le64 n) :=
    fun h => by simpa [frame] using congrArg List.length h
  have hdoc : docBytes [(k, wireOf (.integer n))] =
      if n > 2147483647 ∨ n < -2147483648 then frame ([0x12] ++ k ++ [0] ++ le64 n)
      else frame ([0x10] ++ k ++ [0] ++ le32 n) := by
    rw [docBytes, fieldsBytes_cons, fieldsBytes, List.append_nil, wireOf]
    split <;> rfl
  rw [serialize_single_integer hk hfit hmax hcap, hdoc]
  by_cases h64 : n > 9223372036854775807 ∨ n < -9223372036854775808
  · rw [if_pos h64]
    exact ⟨⟨fun h => (by cases h), fun h => absurd h (by omega)⟩,
      ⟨fun h => (by cases h), fun h => absurd h.1 (by omega)⟩, ⟨fun _ => by omega, fun _ => ⟨_, rfl⟩⟩⟩
  have hnot : ∀ b : Bytes, ¬∃ msg, (.ok b : Except RbError Bytes) = .error (.rangeError msg) :=
    fun _ ⟨_, h⟩ => by cases h
  rw [if_neg h64]
  by_cases h32 : n > 2147483647 ∨ n < -2147483648
  · rw [if_pos h32]
    exact ⟨⟨fun h => absurd (Except.ok.inj h).symm hne, fun h => absurd h (by omega)⟩,
      ⟨fun _ => ⟨⟨by omega, by omega⟩, by omega⟩, fun _ => rfl⟩,
      ⟨fun h => absurd h (hnot _), fun h => absurd h (by omega)⟩⟩
  · rw [if_neg h32]
    exact ⟨⟨fun _ => ⟨by omega, by omega⟩, fun _ => rfl⟩,
      ⟨fun h => absurd (Except.ok.inj h) hne, fun h => absurd h.2 (by omega)⟩,
      ⟨fun h => absurd h (hnot _), fun h => absurd h (by omega)⟩⟩

/-- `{"a" => 2^31}`, with `check_keys` and `move_id`, on a host of 63-bit `Fixnum`s: the
eight-byte case. -/
theorem serialize_integer_width_int64 :
    (63 ≤ 64 ∧ ValidKey true (ascii "a") ∧ (2 ^ 31 - 1 : Int) < 2 ^ 31 ∧
      ((docBytes [(ascii "a", wireOf (.integer (2 ^ 31)))]).length : Int) ≤ 2 ^ 31 - 1 ∧
      (docBytes [(ascii "a", wireOf (.integer (2 ^ 31)))]).length ≤ 64) ∧
    serialize (.hash [(.string (ascii "a"), .integer (2 ^ 31))]) true true (2 ^ 31 - 1) 64 =
      .ok (frame ([0x12] ++ ascii "a" ++ [0] ++ le64 (2 ^ 31))) :=
  ⟨⟨by decide, by decide, by omega, by decide, by decide⟩,
    ((serialize_integer_width 63 (by decide) (ascii "a") (2 ^ 31) true true (2 ^ 31 - 1) 64
      (by decide) (by omega) (by decide) (by decide)).2.2.1).2 ⟨⟨by omega, by omega⟩, by omega⟩⟩

end CBson
