import CBson.Buffer
import CBson.Utf8

/-!
# The encoder

`write_utf8`, `write_name_and_type`, `serialize_regex`, `write_element`, `write_doc` and
`method_serialize` of `cbson.c`, one definition each, in the order of the source.
`write_element` carries the whole `switch (TYPE(value))`, as the C function does, so that
the recursion through nested hashes, arrays, DBRefs and code scopes is structural on the
value.  Three pieces are split out so that this works:

* `writeDocFrame` and `writeFrame` are the write-then-patch frames around a hash's
  entries (with the size check) and around an array, a DBRef or a code string and scope.
  The `T_HASH` case is `write_doc` with `move_id` false, which is
  `writeDocFrame (writeEntries entries checkKeys true)`.
* `writeIdEntry` is `write_element_with_id(id, hash[id], ...)`: it writes the value of
  the first entry with key `id`.

The `'_id'`/`:_id` coalescing of `write_doc` is guarded by
`(rb_obj_classname(hash), "Hash") == 0`.  The comma operator discards the class name and
compares the address of the literal `"Hash"` with null, so the guard is false for every
hash and the branch is dead; the model leaves it out.

Lengths the source takes from Ruby go through the source's own casts:
`RSTRING_LENINT(v)` is `(int)RSTRING_LEN(v)`, `(int)strlen(...)` and `RARRAY_LENINT` wrap
likewise (`toInt32`).
-/

namespace CBson

/-- The decimal digits `INT2STRING(&name, i)` (`"%d"`) writes for an array index. -/
def decimalAux : Nat → Nat → Bytes → Bytes
  | 0, _, acc => acc
  | fuel + 1, i, acc =>
    if i < 10 then (48 + i).toUInt8 :: acc
    else decimalAux fuel (i / 10) ((48 + i % 10).toUInt8 :: acc)

/-- The key `"i"` of array element `i`. -/
def decimal (i : Nat) : Bytes := decimalAux (i + 1) i []

/-- `(const char)FIX2INT(x)`: the low byte. -/
def charOf (x : Int) : UInt8 := (x % 256).toNat.toUInt8

/-- `rb_str_new(bson_buffer_get_buffer(buffer), bson_buffer_get_position(buffer))`. -/
def getBuffer : Enc Bytes := fun s => .ok s.bytes s

/-- `write_utf8(buffer, string, allow_null)`. -/
def writeUtf8 (string : Bytes) (allowNull : Bool) : Enc Unit :=
  match validateUtf8Encoding string allowNull with
  | .hasNull =>
    freeAndRaise (.invalidDocument "Key names / regex patterns must not contain the NULL byte")
  | .invalidUtf8 => freeAndRaise (.invalidStringEncoding "String not valid UTF-8")
  | .valid => safeWriteN string (toInt32 string.length)

/-- `write_name_and_type(buffer, name, type)`. -/
def writeNameAndType (name : Bytes) (type : UInt8) : Enc Unit := do
  safeWrite [type]
  writeUtf8 name false
  safeWrite [0]

/-- The option letters `serialize_regex` writes for a native `Regexp`: `m` always (Ruby
regular expressions always use multiline mode), then `i`, `s` (Ruby's `MULTILINE` is the
server's dotall) and `x`. -/
def nativeFlags (o : RegexpOptions) : Bytes :=
  ascii "m" ++ (if o.ignorecase then ascii "i" else []) ++
    (if o.multiline then ascii "s" else []) ++ (if o.extended then ascii "x" else [])

/-- The option letters `serialize_regex` writes for a `BSON::Regex`, one per set option,
in the order `i`, `l`, `m`, `s`, `u`, `x`. -/
def bsonRegexFlags (o : RegexOptions) : Bytes :=
  (if o.ignorecase then ascii "i" else []) ++ (if o.localeDependent then ascii "l" else []) ++
    (if o.multiline then ascii "m" else []) ++ (if o.dotall then ascii "s" else []) ++
    (if o.unicode then ascii "u" else []) ++ (if o.extended then ascii "x" else [])

/-- `cmp_char`: bytes compared as the (signed) `char`s they are on the targets. -/
def cmpCharLe (a b : UInt8) : Bool :=
  (if a.toNat < 128 then (a.toNat : Int) else a.toNat - 256) ≤
    (if b.toNat < 128 then (b.toNat : Int) else b.toNat - 256)

/-- `qsort(bson_buffer_get_buffer(buffer) + pos, len, sizeof(char), cmp_char)`. -/
def qsortAt (pos len : Nat) : Enc Unit := fun s =>
  if pos + len ≤ s.bytes.length then
    .ok () { s with bytes := s.bytes.take pos ++
      List.mergeSort ((s.bytes.drop pos).take len) cmpCharLe ++ s.bytes.drop (pos + len) }
  else .error (.undefinedBehavior "qsort past the end of the buffer") s

/-- `serialize_regex(buffer, key, pattern, flags, value, native)`: `flags` is `.inl` for a
native `Regexp` (`native == 1`), `.inr` for a `BSON::Regex`; `extra` is the value's
`extra_options_str`, when it responds to it.  Each option letter is its own `SAFE_WRITE`
in the source; they are written here as one block, which fails exactly when the last of
them would. -/
def serializeRegex (key pattern : Bytes) (flags : RegexpOptions ⊕ RegexOptions)
    (extra : Option Bytes) : Enc Unit := do
  writeNameAndType key 0x0B
  writeUtf8 pattern false
  safeWrite [0]
  match flags with
  | .inl o => safeWrite (nativeFlags o)
  | .inr o => safeWrite (bsonRegexFlags o)
  match extra with
  | some extra => do
    let oldPosition ← getPosition
    safeWriteN extra (toInt32 extra.length)
    qsortAt oldPosition extra.length
  | none => pure ()
  safeWrite [0]

/-- The `check_keys` tests of `write_element`. -/
def checkKey (key : Bytes) : Enc Unit := do
  if key.head? = some 36 then
    freeAndRaise (.invalidKeyName s!"key {cText key} must not start with '$'")
  if (46 : UInt8) ∈ key then
    freeAndRaise (.invalidKeyName s!"key {cText key} must not contain '.'")

/-- The `BSON::Binary` and `ByteBuffer` case of `write_element`; subtype 2 is the old
form with a second length. -/
def writeBinary (key data : Bytes) (subtype : UInt8) : Enc Unit := do
  let length := toInt32 data.length
  writeNameAndType key 0x05
  if subtype = 2 then
    safeWrite (le32 (length + 4))
    safeWrite [subtype]
  safeWrite (le32 length)
  if subtype ≠ 2 then
    safeWrite [subtype]
  safeWriteN data length

/-- The twelve bytes of a `BSON::ObjectId`, `(char)FIX2INT(rb_ary_entry(as_array, i))`
for `i < 12`.  An entry past the end of `to_a` is `nil`, and `FIX2INT(nil)` raises
`TypeError`. -/
def writeObjectIdBytes : Nat → List RInt → Enc Unit
  | 0, _ => pure ()
  | k + 1, data => do
    let byte ← liftExcept (data.headD .nil).fix2int
    safeWrite [charOf byte]
    writeObjectIdBytes k data.tail

/-- The exception for an object whose class the encoder refuses, as the `T_OBJECT` and
`T_DATA` cases word it; `numeric` lists the numeric classes the case names. -/
def unsupportedClass (numeric : List String) (cls : String) : RbError :=
  if cls = "DateTime" ∨ cls = "Date" ∨ cls = "ActiveSupport::TimeWithZone" then
    .invalidDocument s!"{cls} is not currently supported; use a UTC Time instance instead."
  else if cls ∈ numeric then
    .invalidDocument
      s!"Cannot serialize the Numeric type {cls} as BSON; only Bignum, Fixnum, and Float are supported."
  else .invalidDocument s!"Cannot serialize an object of class {cls} into BSON."

/-- The exception of the size check of `write_doc`. -/
def tooLarge (maxSize : Int) : RbError :=
  .invalidDocument s!"Document too large: This BSON document is limited to {maxSize} bytes."

/-- `length = bson_buffer_get_position(buffer) - start_position` and the check of
`length` against `bson_buffer_get_max_size(buffer)`. -/
def checkedLength (startPosition : Nat) : Enc Nat := do
  let length := (← getPosition) - startPosition
  let maxSize ← getMaxSize
  if (length : Int) > maxSize then freeAndRaise (tooLarge maxSize)
  pure length

/-- The frame `write_doc` puts around a hash: a slot for the length, the entries
(`body`), the terminating NUL, the size check, and the length patched into the slot. -/
def writeDocFrame (body : Enc Unit) : Enc Unit := do
  let startPosition ← getPosition
  let lengthLocation ← saveSpace
  body
  safeWrite [0]
  let length ← checkedLength startPosition
  safeWriteAtPos lengthLocation (le32 length)

/-- The write-then-patch frame of the `T_ARRAY`, `BSON::DBRef` and `BSON::Code` cases:
a slot for the length, `body`, and the length from the slot to the end patched in.  The
array and DBRef bodies end with their terminating NUL; no size check is made. -/
def writeFrame (body : Enc Unit) : Enc Unit := do
  let startPosition ← getPosition
  let lengthLocation ← saveSpace
  body
  let objLength := (← getPosition) - startPosition
  safeWriteAtPos lengthLocation (le32 objLength)

mutual

/-- `write_element(key, value, extra, allow_id)`, with `extra` unpacked into
`check_keys`. -/
def writeElement (key value : RValue) (checkKeys allowId : Bool) : Enc Unit :=
  match key.keyString? with
  | none => freeAndRaise (.typeError "keys must be strings or symbols")
  | some key =>
    if !allowId && cstr key == ascii "_id" then pure ()
    else do
      if checkKeys then checkKey key
      match value with
      | .integer n =>
        if n > 9223372036854775807 ∨ n < -9223372036854775808 then
          freeAndRaise (.rangeError "MongoDB can only handle 8-byte ints")
        else if n > 2147483647 ∨ n < -2147483648 then do
          writeNameAndType key 0x12
          safeWrite (le64 n)
        else do
          writeNameAndType key 0x10
          safeWrite (le32 n)
      | .bool b => do
        writeNameAndType key 0x08
        safeWrite [if b then 1 else 0]
      | .float bits => do
        writeNameAndType key 0x01
        safeWrite (le64 bits.toNat)
      | .nil => writeNameAndType key 0x0A
      | .hash entries => do
        writeNameAndType key 0x03
        writeDocFrame (writeEntries entries checkKeys true)
      | .array items => do
        writeNameAndType key 0x04
        writeFrame do
          writeArrayItems items 0 (toInt32 items.length) checkKeys
          safeWrite [0]
      | .string s => do
        writeNameAndType key 0x02
        safeWrite (le32 (toInt32 s.length + 1))
        writeUtf8 s true
        safeWrite [0]
      | .symbol name => do
        let length := toInt32 (cstr name).length + 1
        writeNameAndType key 0x0E
        safeWrite (le32 length)
        safeWriteN (cstr name ++ [0]) length
      | .chars s => do
        writeNameAndType key 0x02
        safeWrite (le32 (toInt32 s.length + 1))
        writeUtf8 s true
        safeWrite [0]
      | .binary data subtype => do
        let subtype ← liftExcept subtype.fix2int
        writeBinary key data (charOf subtype)
      | .byteBuffer data => writeBinary key data 2
      | .objectId data => do
        writeNameAndType key 0x07
        writeObjectIdBytes 12 data
      | .dbref ns oid => do
        writeNameAndType key 0x03
        writeFrame do
          writeElement (.string (ascii "$ref")) ns false true
          writeElement (.string (ascii "$id")) oid false true
          safeWrite [0]
      | .code code scope => do
        writeNameAndType key 0x0F
        writeFrame do
          let length := toInt32 code.length + 1
          safeWrite (le32 length)
          safeWriteN code (length - 1)
          safeWrite [0]
          writeDoc scope false false
      | .maxKey => writeNameAndType key 0x7F
      | .minKey => writeNameAndType key 0xFF
      | .timestamp seconds increment => do
        writeNameAndType key 0x11
        let seconds ← liftExcept seconds.num2uint
        let increment ← liftExcept increment.num2uint
        safeWrite (le32 increment)
        safeWrite (le32 seconds)
      | .time millis =>
        if -2 ^ 63 ≤ millis ∧ millis < 2 ^ 63 then do
          writeNameAndType key 0x09
          safeWrite (le64 millis)
        else throw (.undefinedBehavior "(long long) of a double out of range")
      | .bsonRegex pattern options extra => serializeRegex key pattern (.inr options) extra
      | .regexp source options extra => serializeRegex key source (.inl options) extra
      | .object cls => freeAndRaise (unsupportedClass ["Complex", "Rational", "BigDecimal"] cls)
      | .data cls => freeAndRaise (unsupportedClass ["BigDecimal"] cls)
      | .other cls type =>
        freeAndRaise (.invalidDocument s!"Cannot serialize an object of class {cls} (type {type}) into BSON.")
termination_by structural value

/-- The loop of the `T_ARRAY` case: element `i` under the key `"i"`, for `i < items`,
where `items` is `RARRAY_LENINT(value)`. -/
def writeArrayItems (values : List RValue) (i : Nat) (items : Int) (checkKeys : Bool) : Enc Unit :=
  match values with
  | [] => pure ()
  | v :: rest =>
    if (i : Int) < items then do
      writeElement (.string (decimal i)) v checkKeys true
      writeArrayItems rest (i + 1) items checkKeys
    else pure ()
termination_by structural values

/-- `rb_hash_foreach(hash, write_function, ...)`: every entry in order, with `allow_id`. -/
def writeEntries (entries : List (RValue × RValue)) (checkKeys allowId : Bool) : Enc Unit :=
  match entries with
  | [] => pure ()
  | (k, v) :: rest => do
    writeElement k v checkKeys allowId
    writeEntries rest checkKeys allowId
termination_by structural entries

/-- `write_element_with_id(id, hash[id], ...)` where `isId` recognises the key `id`. -/
def writeIdEntry (id : RValue) (isId : RValue → Bool) (entries : List (RValue × RValue))
    (checkKeys : Bool) : Enc Unit :=
  match entries with
  | [] => pure ()
  | (k, v) :: rest =>
    if isId k then writeElement id v checkKeys true else writeIdEntry id isId rest checkKeys
termination_by structural entries

/-- `write_doc(buffer, hash, check_keys, move_id)`.  A `Hash` (a `BSON::OrderedHash` is
one too) is framed by `writeDocFrame`; with `move_id` its `'_id'` entry, else its `:_id`
entry, goes first and every other `_id` is skipped.  Anything else is refused, by
`has_key?` when `move_id` is set and by the class test otherwise. -/
def writeDoc (hash : RValue) (checkKeys moveId : Bool) : Enc Unit :=
  match hash with
  | .hash entries => writeDocFrame do
    if moveId then
      if entries.any (·.1.isString (ascii "_id")) then
        writeIdEntry (.string (ascii "_id")) (·.isString (ascii "_id")) entries checkKeys
      else if entries.any (·.1.isSymbol (ascii "_id")) then
        writeIdEntry (.symbol (ascii "_id")) (·.isSymbol (ascii "_id")) entries checkKeys
      writeEntries entries checkKeys false
    else
      writeEntries entries checkKeys true
  | other => do
    let _ ← saveSpace
    if moveId then throw (.noMethodError s!"undefined method has_key? for {other.className}")
    else freeAndRaise (.invalidDocument s!"BSON.serialize takes a Hash but got a {other.className}")
termination_by structural hash

end

/-- `method_serialize(self, doc, check_keys, move_id, max_size)`, from the state
`bson_buffer_new` returns. -/
def methodSerialize (doc : RValue) (checkKeys moveId : Bool) (maxSize : Int) : Enc Bytes := do
  let maxSize ← liftExcept (fix2int maxSize)
  setMaxSize maxSize
  writeDoc doc checkKeys moveId
  let result ← getBuffer
  bsonBufferFree
  return result

/-- `CBson.serialize(doc, check_keys, move_id, max_size)` with an allocator that grants
`capacity` bytes: the bytes, or the exception that leaves it. -/
def serialize (doc : RValue) (checkKeys moveId : Bool) (maxSize : Int) (capacity : Nat) :
    Except RbError Bytes :=
  match methodSerialize doc checkKeys moveId maxSize (Buffer.new capacity) with
  | .ok b _ => .ok b
  | .error e _ => .error e

end CBson
