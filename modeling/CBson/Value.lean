import CBson.Basic

/-!
# Ruby values and Ruby exceptions

`write_element` dispatches on `TYPE(value)` and, for `T_OBJECT` and `T_DATA`, on the
class name; `get_value` builds values of the same classes.  `RValue` has one
constructor per case the extension tells apart, carrying exactly the data it reads:

| constructor | Ruby value | read through |
|---|---|---|
| `integer` | `Integer` (`T_FIXNUM`, `T_BIGNUM`) | `NUM2LL` |
| `bool`, `nil`, `float` | `true`/`false`, `nil`, `Float` | the IEEE-754 bits |
| `hash`, `array` | `Hash`/`BSON::OrderedHash`, `Array` | entries in order |
| `string`, `symbol`, `chars` | `String`, `Symbol`, `ActiveSupport::Multibyte::Chars` | the bytes |
| `binary`, `byteBuffer` | `BSON::Binary`, `ByteBuffer` | `to_s`, `subtype` |
| `objectId`, `dbref`, `code` | `BSON::ObjectId`, `BSON::DBRef`, `BSON::Code` | `to_a`; `namespace`, `object_id`; `code`, `scope` |
| `maxKey`, `minKey`, `timestamp`, `time` | `BSON::MaxKey`, `BSON::MinKey`, `BSON::Timestamp`, `Time` | `seconds`, `increment`; `to_f` |
| `bsonRegex`, `regexp` | `BSON::Regex`, `Regexp` | pattern, option bits, `extra_options_str` |
| `object`, `data`, `other` | any other `T_OBJECT`, `T_DATA`, or other type | the class name |

A `Time` is kept as the millisecond count `(long long)round(to_f * 1000)` the encoder
computes from it, so no floating point enters the model; a `Float` is kept as its bit
pattern, which is all the codec copies.  Hash keys are values too: `write_element`
accepts a `String` or a `Symbol` key and raises on anything else.  The fields the encoder
converts with `FIX2INT` or `NUM2UINT` (a `Binary` subtype, the entries of an ObjectId's
`to_a`, a `Timestamp`'s `seconds` and `increment`) are `RInt`s: an `Integer`, `nil`, or a
value of a class the conversion refuses.

The host is MRI 1.8.7 on an LP64 target: `long` has 64 bits and `int` 32.  This is the
host where `RSTRING_LENINT` and `RARRAY_LENINT` are the source's own `(int)` casts and
`STR_NEW` is `rb_str_new` (there is no `ruby/encoding.h`), and the conversions raise the
exceptions `numeric.c` and `bignum.c` of that version raise.
-/

namespace CBson

/-- The six option tests `flags & BSONRegex_X` that `serialize_regex` makes on a
`BSON::Regex`.  The constants live in the Ruby class, so the model keeps the outcome of
each test rather than the bits. -/
structure RegexOptions where
  ignorecase : Bool
  localeDependent : Bool
  multiline : Bool
  dotall : Bool
  unicode : Bool
  extended : Bool
  deriving DecidableEq, Repr

/-- The three option tests `flags & IGNORECASE`, `MULTILINE`, `EXTENDED` that
`serialize_regex` makes on a native `Regexp`. -/
structure RegexpOptions where
  ignorecase : Bool
  multiline : Bool
  extended : Bool
  deriving DecidableEq, Repr

/-- A Ruby value that the encoder converts to a C integer with `FIX2INT` or `NUM2UINT`:
an `Integer`, `nil`, or a value of a class without `to_int`, under the name the
conversion's message gives it (`true`, `false`, or the class name).  A `Float`, which the
conversions truncate, is not modelled. -/
inductive RInt where
  | integer (n : Int)
  | nil
  | other (name : String)
  deriving DecidableEq, Repr, Inhabited

/-- A Ruby value, as far as the extension inspects it. -/
inductive RValue where
  | integer (n : Int)
  | bool (b : Bool)
  | float (bits : UInt64)
  | nil
  | hash (entries : List (RValue × RValue))
  | array (items : List RValue)
  | string (bytes : Bytes)
  | symbol (name : Bytes)
  | chars (bytes : Bytes)
  | binary (data : Bytes) (subtype : RInt)
  | byteBuffer (data : Bytes)
  | objectId (data : List RInt)
  | dbref (ns : RValue) (id : RValue)
  | code (code : Bytes) (scope : RValue)
  | maxKey
  | minKey
  | timestamp (seconds increment : RInt)
  | time (millis : Int)
  | bsonRegex (pattern : Bytes) (options : RegexOptions) (extra : Option Bytes)
  | regexp (source : Bytes) (options : RegexpOptions) (extra : Option Bytes)
  | object (cls : String)
  | data (cls : String)
  | other (cls : String) (type : Nat)
  deriving Inhabited

namespace RValue

/-- The key string `write_element` works with: a `String` as it is, a `Symbol` through
`rb_str_new2(rb_id2name(SYM2ID(key)))`, which stops at the name's first NUL, and
nothing for any other key. -/
def keyString? : RValue → Option Bytes
  | .string b => some b
  | .symbol name => some (cstr name)
  | _ => none

/-- `eql?` against a `String` key with contents `b`. -/
def isString (b : Bytes) : RValue → Bool
  | .string b' => b' == b
  | _ => false

/-- `eql?` against the `Symbol` named `b`. -/
def isSymbol (b : Bytes) : RValue → Bool
  | .symbol b' => b' == b
  | _ => false

@[simp] theorem keyString?_string (b : Bytes) : (RValue.string b).keyString? = some b := rfl

@[simp] theorem keyString?_symbol (n : Bytes) : (RValue.symbol n).keyString? = some (cstr n) := rfl

/-- The class name `rb_obj_classname` reports. -/
def className : RValue → String
  | .integer _ => "Integer"
  | .bool true => "TrueClass"
  | .bool false => "FalseClass"
  | .float _ => "Float"
  | .nil => "NilClass"
  | .hash _ => "Hash"
  | .array _ => "Array"
  | .string _ => "String"
  | .symbol _ => "Symbol"
  | .chars _ => "ActiveSupport::Multibyte::Chars"
  | .binary .. => "BSON::Binary"
  | .byteBuffer _ => "ByteBuffer"
  | .objectId _ => "BSON::ObjectId"
  | .dbref .. => "BSON::DBRef"
  | .code .. => "BSON::Code"
  | .maxKey => "BSON::MaxKey"
  | .minKey => "BSON::MinKey"
  | .timestamp .. => "BSON::Timestamp"
  | .time _ => "Time"
  | .bsonRegex .. => "BSON::Regex"
  | .regexp .. => "Regexp"
  | .object cls => cls
  | .data cls => cls
  | .other cls _ => cls

theorem isString_iff {b : Bytes} {k : RValue} : k.isString b = true ↔ k = .string b := by
  cases k <;> simp [isString]

theorem isSymbol_iff {b : Bytes} {k : RValue} : k.isSymbol b = true ↔ k = .symbol b := by
  cases k <;> simp [isSymbol]

end RValue

/-- `hash[key] = value` on a `BSON::OrderedHash`: an existing `String` key keeps its
place and takes the new value, a new one goes last.  The decoder only assigns `String`
keys. -/
def assignString (entries : List (RValue × RValue)) (name : Bytes) (value : RValue) :
    List (RValue × RValue) :=
  if entries.any (·.1.isString name) then
    entries.map fun kv => if kv.1.isString name then (kv.1, value) else kv
  else entries ++ [(.string name, value)]

/-- A Ruby exception, by class, with its message. -/
inductive RbError where
  | noMemError (msg : String)
  | runtimeError (msg : String)
  | typeError (msg : String)
  | rangeError (msg : String)
  | argumentError (msg : String)
  | noMethodError (msg : String)
  | invalidKeyName (msg : String)
  | invalidStringEncoding (msg : String)
  | invalidDocument (msg : String)
  | invalidObjectId (msg : String)
  /-- Not an exception: the C code has undefined behaviour here (a `memcpy` of a
  negative count, a read past a string), and the model stops. -/
  | undefinedBehavior (what : String)
  deriving DecidableEq, Repr

/-- How a byte string shows up in a message built with `%s`: its C string, one
character per byte. -/
def cText (b : Bytes) : String := String.mk ((cstr b).map fun c => Char.ofNat c.toNat)

/-- `FIX2INT(v)` on an `Integer`: `rb_fix2int`, that is `rb_num2long` and then the check
that the `long` fits an `int`. -/
def fix2int (n : Int) : Except RbError Int :=
  if n < -2 ^ 63 ∨ 2 ^ 63 ≤ n then .error (.rangeError "bignum too big to convert into `long'")
  else if n < -2 ^ 31 then .error (.rangeError s!"integer {n} too small to convert to `int'")
  else if 2 ^ 31 ≤ n then .error (.rangeError s!"integer {n} too big to convert to `int'")
  else .ok n

/-- `NUM2UINT(v)` on an `Integer`: `rb_num2uint`, that is `rb_num2ulong` (a negative
`Bignum` is negated as an `unsigned long`) and then `check_uint`, which accepts
`(-2^31, 2^32)` and reduces it modulo `2^32`. -/
def num2uint (n : Int) : Except RbError Nat :=
  if n ≤ -2 ^ 64 ∨ 2 ^ 64 ≤ n then
    .error (.rangeError "bignum too big to convert into `unsigned long'")
  else if n < -2 ^ 63 then
    .error (.rangeError s!"integer {n + 2 ^ 64} too small to convert to `unsigned int'")
  else if n ≤ -2 ^ 31 then
    .error (.rangeError s!"integer {n} too small to convert to `unsigned int'")
  else if 2 ^ 32 ≤ n then .error (.rangeError s!"integer {n} too big to convert to `unsigned int'")
  else .ok (n % 2 ^ 32).toNat

theorem fix2int_eq_ok {x y : Int} : fix2int x = .ok y ↔ FitsInt32 x ∧ y = x := by
  unfold fix2int FitsInt32
  split_ifs <;> simp only [reduceCtorEq, false_iff, Except.ok.injEq, eq_comm (a := x)] <;> omega

theorem num2uint_eq_ok {x : Int} {m : Nat} :
    num2uint x = .ok m ↔ (-2 ^ 31 < x ∧ x < 2 ^ 32) ∧ m = (x % 2 ^ 32).toNat := by
  unfold num2uint
  split_ifs <;> simp only [reduceCtorEq, false_iff, Except.ok.injEq, eq_comm (a := m)] <;> omega

namespace RInt

/-- The start of `rb_num2long`: an `Integer` is its value; `nil`, and through `rb_to_int`
a value without `to_int`, raise `TypeError`. -/
def toInt : RInt → Except RbError Int
  | .integer n => .ok n
  | .nil => .error (.typeError "no implicit conversion from nil to integer")
  | .other name => .error (.typeError s!"can't convert {name} into Integer")

/-- The number an `RInt` stands for when the conversions accept it; the others are
refused, and `0` stands in for them. -/
def num : RInt → Int
  | .integer n => n
  | _ => 0

/-- An `Integer` in `[lo, hi)`. -/
def inRange (lo hi : Int) : RInt → Bool
  | .integer n => decide (lo ≤ n ∧ n < hi)
  | _ => false

theorem eq_of_inRange {lo hi : Int} {v : RInt} (h : v.inRange lo hi = true) :
    v = .integer v.num ∧ lo ≤ v.num ∧ v.num < hi := by
  cases v <;> simp_all [inRange, num]

/-- `FIX2INT(v)`. -/
def fix2int (v : RInt) : Except RbError Int := v.toInt >>= CBson.fix2int

/-- `NUM2UINT(v)`. -/
def num2uint (v : RInt) : Except RbError Nat := v.toInt >>= CBson.num2uint

@[simp] theorem fix2int_integer (n : Int) : (RInt.integer n).fix2int = CBson.fix2int n := rfl

@[simp] theorem num2uint_integer (n : Int) : (RInt.integer n).num2uint = CBson.num2uint n := rfl

theorem fix2int_eq_ok {v : RInt} {y : Int} :
    v.fix2int = .ok y ↔ ∃ n, v = .integer n ∧ FitsInt32 n ∧ y = n := by
  cases v with
  | integer n =>
    exact CBson.fix2int_eq_ok.trans ⟨(⟨n, rfl, ·⟩), fun ⟨_, h, h'⟩ => by cases h; exact h'⟩
  | nil | other _ => exact ⟨(nomatch ·), fun ⟨_, h, _⟩ => nomatch h⟩

theorem num2uint_eq_ok {v : RInt} {m : Nat} :
    v.num2uint = .ok m ↔ ∃ n, v = .integer n ∧ (-2 ^ 31 < n ∧ n < 2 ^ 32) ∧ m = (n % 2 ^ 32).toNat := by
  cases v with
  | integer n =>
    exact CBson.num2uint_eq_ok.trans ⟨(⟨n, rfl, ·⟩), fun ⟨_, h, h'⟩ => by cases h; exact h'⟩
  | nil | other _ => exact ⟨(nomatch ·), fun ⟨_, h, _⟩ => nomatch h⟩

theorem inRange_of_fix2int {v : RInt} {y : Int} (h : v.fix2int = .ok y) :
    v.inRange (-2 ^ 31) (2 ^ 31) = true ∧ y = v.num := by
  obtain ⟨n, rfl, hf, rfl⟩ := fix2int_eq_ok.1 h
  exact ⟨decide_eq_true hf, rfl⟩

theorem fix2int_of_inRange {v : RInt} (h : v.inRange (-2 ^ 31) (2 ^ 31) = true) :
    v.fix2int = .ok v.num := by
  obtain ⟨hv, h₀, h₁⟩ := eq_of_inRange h
  rw [hv]
  exact fix2int_eq_ok.2 ⟨_, rfl, ⟨h₀, h₁⟩, rfl⟩

theorem inRange_of_num2uint {v : RInt} {m : Nat} (h : v.num2uint = .ok m) :
    v.inRange (-2 ^ 31 + 1) (2 ^ 32) = true ∧ m = (v.num % 2 ^ 32).toNat := by
  obtain ⟨n, rfl, hf, rfl⟩ := num2uint_eq_ok.1 h
  exact ⟨decide_eq_true ⟨by omega, hf.2⟩, rfl⟩

theorem num2uint_of_inRange {v : RInt} (h : v.inRange (-2 ^ 31 + 1) (2 ^ 32) = true) :
    v.num2uint = .ok (v.num % 2 ^ 32).toNat := by
  obtain ⟨hv, h₀, h₁⟩ := eq_of_inRange h
  rw [hv]
  exact num2uint_eq_ok.2 ⟨_, rfl, ⟨by omega, h₁⟩, rfl⟩

end RInt

end CBson
