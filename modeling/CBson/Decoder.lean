import CBson.Value

/-!
# The decoder

`get_value`, `elements_to_hash` and `method_deserialize` of `cbson.c`.  The C code
walks a `const char*` with `int` positions and trusts every length it finds; it reads
memory wherever these lead.  The model keeps the input string `b` and turns every read
into a check: a read of `buffer[i]` with `i` outside `[0, |b|)` stops the run with
`outOfBounds i`.  Ruby keeps a NUL after the last byte of a string, so the C code often
survives such a read; it has still left the string it was given.

Three more things of the C code are kept:

* positions and lengths are C `int`s, and the additions on them wrap (`cAdd`); pointer
  arithmetic `buffer + *position + k` does not;
* `STR_NEW(p, n)` and `rb_str_new(p, n)` raise `ArgumentError` for a negative `n` and
  read `n` bytes otherwise; `strlen`, `strcmp` and `rb_intern` read up to a NUL;
* the loops run as long as the code's conditions say.  A run is given `fuel`, one unit per
  call of `get_value` and per loop iteration, and stops with `outOfFuel` when it is spent,
  so that the model is total whatever the input.

`BSON::Regex.new(pattern, flags)` and `try_compile` are Ruby code outside the sources;
the decoder takes them as the parameter `newRegex`.

The tag-9 case builds `rb_time_new(millis / 1000, (millis % 1000) * 1000)` in UTC, and the
model names that `Time` by `millis`, which is what `RValue.time` holds for the encoder
(`round(to_f * 1000)`).  The two agree only while the double arithmetic of `to_f` and
`* 1000` rounds back to `millis`: each operation is off by at most half an ulp, so they
agree for `|millis| < 2^50`, and they part for counts around `2^51` and beyond.  The
statements that re-encode decoded times carry that bound.
-/

namespace CBson

/-- How a run of the decoder can end without a value. -/
inductive DecError where
  /-- A Ruby exception leaves `deserialize`. -/
  | raise (e : RbError)
  /-- The code reads `buffer[i]`, outside the string it was given. -/
  | outOfBounds (i : Int)
  /-- The fuel ran out before the run ended. -/
  | outOfFuel
  deriving DecidableEq, Repr

/-- The decoder's monad: a value, or how the run ended without one. -/
abbrev Dec := Except DecError

/-- `x + y` on C `int`s: two's complement wrap-around. -/
def cAdd (x y : Int) : Int := toInt32 (x + y)

/-! ## Reads -/

/-- `buffer[i]`. -/
def byteAt (b : Bytes) (i : Int) : Dec UInt8 :=
  if 0 ≤ i then
    match b.get? i.toNat with
    | some c => .ok c
    | none => .error (.outOfBounds i)
  else .error (.outOfBounds i)

/-- `memcpy(dst, buffer + i, n)` and the `n` bytes `rb_str_new` copies; the first byte
outside the string is reported. -/
def bytesAt (b : Bytes) (i : Int) (n : Nat) : Dec Bytes :=
  if 0 ≤ i ∧ i + n ≤ b.length then .ok ((b.drop i.toNat).take n)
  else .error (.outOfBounds (if i < 0 then i else max i b.length))

/-- `*(int*)(buffer + i)`, or `memcpy(&x, buffer + i, 4)` into an `int`. -/
def int32At (b : Bytes) (i : Int) : Dec Int := do
  return int32Of (← bytesAt b i 4)

/-- `memcpy(&x, buffer + i, 4)` into an `unsigned int`. -/
def uint32At (b : Bytes) (i : Int) : Dec Int := do
  return readLE (← bytesAt b i 4)

/-- `memcpy(&x, buffer + i, 8)` into a `long long`. -/
def int64At (b : Bytes) (i : Int) : Dec Int := do
  return int64Of (← bytesAt b i 8)

/-- The C string at `buffer + i`, as `strlen` and `rb_intern` read it: the bytes up to
the first NUL, which must lie inside the string. -/
def cStringAt (b : Bytes) (i : Int) : Dec Bytes :=
  if 0 ≤ i then
    if (0 : UInt8) ∈ b.drop i.toNat then .ok (cstr (b.drop i.toNat))
    else .error (.outOfBounds (max i b.length))
  else .error (.outOfBounds i)

/-- `(int)strlen(buffer + i)`. -/
def strlenAt (b : Bytes) (i : Int) : Dec Int := do
  return toInt32 (← cStringAt b i).length

/-- `strcmp(buffer + i, lit) == 0` for a literal `lit` given with its NUL: it reads up to
the first difference, or up to the NUL of both. -/
def strcmpEqAt (b : Bytes) (i : Int) : Bytes → Dec Bool
  | [] => .ok true
  | c :: rest => do
    let d ← byteAt b i
    if d ≠ c then pure false
    else if c = 0 then pure true
    else strcmpEqAt b (i + 1) rest

/-- `STR_NEW(buffer + i, n)` and `rb_str_new(buffer + i, n)`: `ArgumentError` for a
negative size, else the `n` bytes.  On the modelled host (MRI 1.8.7) `STR_NEW` is
`rb_str_new`; with `ruby/encoding.h` it tags the string UTF-8 and converts it to
`Encoding.default_internal`, which changes the bytes unless that is `nil` or UTF-8. -/
def strNew (b : Bytes) (i n : Int) : Dec Bytes :=
  if n < 0 then .error (.raise (.argumentError "negative string size (or size too big)"))
  else bytesAt b i n.toNat

/-- The message of the `default` case of `get_value`. -/
def unknownType (type : UInt8) : RbError :=
  .typeError s!"Detected unknown BSON type \"\\x{type}\". Are you using the latest BSON version?"

/-! ## `get_value` and `elements_to_hash` -/

/-- What `deserialize` reads from its options hash. -/
structure DeserializeOpts where
  compileRegex : Bool
  deriving DecidableEq, Repr

variable (newRegex : Bytes → Bytes → Bool → RValue)

mutual

/-- `get_value(buffer + base, &pos, type, opts)`: the value and the position after it. -/
def getValue (fuel : Nat) (b : Bytes) (opts : DeserializeOpts) (base pos : Int) (type : UInt8) :
    Dec (RValue × Int) :=
  match fuel with
  | 0 => .error .outOfFuel
  | fuel + 1 =>
    match type with
    | 255 => pure (.minKey, pos)
    | 1 => do
      let d ← bytesAt b (base + pos) 8
      pure (.float (UInt64.ofNat (readLE d)), cAdd pos 8)
    | 2 | 13 => do
      let valueLength := cAdd (← int32At b (base + pos)) (-1)
      let pos := cAdd pos 4
      let value ← strNew b (base + pos) valueLength
      pure (.string value, cAdd pos (cAdd valueLength 1))
    | 3 => do
      let size ← int32At b (base + pos)
      let value ←
        if (← strcmpEqAt b (base + pos + 5) (ascii "$ref" ++ [0])) then do
          let offset := cAdd pos 10
          let collectionLength := cAdd (← int32At b (base + offset)) (-1)
          let offset := cAdd offset 4
          let ns ← strNew b (base + offset) collectionLength
          let offset := cAdd offset (cAdd collectionLength 1)
          let idType ← byteAt b (base + offset)
          let offset := cAdd offset 5
          let (id, _) ← getValue fuel b opts base offset idType
          pure (.dbref (.string ns) id)
        else elementsToHash fuel b opts (base + pos + 4) (cAdd size (-5))
      pure (value, cAdd pos size)
    | 4 => do
      let size ← int32At b (base + pos)
      let «end» := cAdd (cAdd pos size) (-1)
      let (items, pos) ← arrayItems fuel b opts base (cAdd pos 4) «end» []
      pure (.array items, cAdd pos 1)
    | 5 => do
      let length ← int32At b (base + pos)
      let subtype ← byteAt b (base + pos + 4)
      let data ←
        if subtype = 2 then strNew b (base + pos + 9) (cAdd length (-4))
        else strNew b (base + pos + 5) length
      pure (.binary data (.integer subtype.toNat), cAdd pos (cAdd length 5))
    | 6 => pure (.nil, pos)
    | 7 => do
      let str ← bytesAt b (base + pos) 12
      pure (.objectId (str.map fun c => .integer c.toNat), cAdd pos 12)
    | 8 => do
      let c ← byteAt b (base + pos)
      pure (.bool (c ≠ 0), cAdd pos 1)
    | 9 => do
      let millis ← int64At b (base + pos)
      pure (.time millis, cAdd pos 8)
    | 10 => pure (.nil, pos)
    | 11 => do
      let patternLength ← strlenAt b (base + pos)
      let pattern ← strNew b (base + pos) patternLength
      let pos := cAdd pos (cAdd patternLength 1)
      let flagsLength ← strlenAt b (base + pos)
      let flags ← strNew b (base + pos) flagsLength
      pure (newRegex pattern flags opts.compileRegex, cAdd pos (cAdd flagsLength 1))
    | 12 => do
      let collectionLength := cAdd (← int32At b (base + pos)) (-1)
      let pos := cAdd pos 4
      let collection ← strNew b (base + pos) collectionLength
      let pos := cAdd pos (cAdd collectionLength 1)
      let str ← bytesAt b (base + pos) 12
      pure (.dbref (.string collection) (.objectId (str.map fun c => .integer c.toNat)),
        cAdd pos 12)
    | 14 => do
      let valueLength ← int32At b (base + pos)
      let name ← cStringAt b (base + pos + 4)
      pure (.symbol name, cAdd pos (cAdd valueLength 4))
    | 15 => do
      let pos := cAdd pos 4
      let codeLength := cAdd (← int32At b (base + pos)) (-1)
      let pos := cAdd pos 4
      let code ← strNew b (base + pos) codeLength
      let pos := cAdd pos (cAdd codeLength 1)
      let scopeSize ← int32At b (base + pos)
      let scope ← elementsToHash fuel b opts (base + pos + 4) (cAdd scopeSize (-5))
      pure (.code code scope, cAdd pos scopeSize)
    | 16 => do
      let i ← int32At b (base + pos)
      pure (.integer i, cAdd pos 4)
    | 17 => do
      let inc ← uint32At b (base + pos)
      let sec ← uint32At b (base + pos + 4)
      pure (.timestamp (.integer sec) (.integer inc), cAdd pos 8)
    | 18 => do
      let ll ← int64At b (base + pos)
      pure (.integer ll, cAdd pos 8)
    | 127 => pure (.maxKey, pos)
    | type => .error (.raise (unknownType type))
termination_by structural fuel

/-- The loop of the tag-4 case: `while (*position < end)`, skipping each key. -/
def arrayItems (fuel : Nat) (b : Bytes) (opts : DeserializeOpts) (base pos «end» : Int)
    (acc : List RValue) : Dec (List RValue × Int) :=
  match fuel with
  | 0 => .error .outOfFuel
  | fuel + 1 =>
    if pos < «end» then do
      let type ← byteAt b (base + pos)
      let pos := cAdd pos 1
      let keySize ← strlenAt b (base + pos)
      let pos := cAdd pos (cAdd keySize 1)
      let (v, pos) ← getValue fuel b opts base pos type
      arrayItems fuel b opts base pos «end» (acc ++ [v])
    else pure (acc, pos)
termination_by structural fuel

/-- The loop of `elements_to_hash`: `while (position < max)`, each element assigned with
`hash[name] = value`. -/
def hashElements (fuel : Nat) (b : Bytes) (opts : DeserializeOpts) (base max pos : Int)
    (hash : List (RValue × RValue)) : Dec (List (RValue × RValue)) :=
  match fuel with
  | 0 => .error .outOfFuel
  | fuel + 1 =>
    if pos < max then do
      let type ← byteAt b (base + pos)
      let pos := cAdd pos 1
      let nameLength ← strlenAt b (base + pos)
      let name ← strNew b (base + pos) nameLength
      let pos := cAdd pos (cAdd nameLength 1)
      let (value, pos) ← getValue fuel b opts base pos type
      hashElements fuel b opts base max pos (assignString hash name value)
    else pure hash
termination_by structural fuel

/-- `elements_to_hash(buffer + base, max, opts)`: a new `BSON::OrderedHash`. -/
def elementsToHash (fuel : Nat) (b : Bytes) (opts : DeserializeOpts) (base max : Int) :
    Dec RValue :=
  match fuel with
  | 0 => .error .outOfFuel
  | fuel + 1 => do
    return .hash (← hashElements fuel b opts base max 0 [])
termination_by structural fuel

end

/-- `compile_regex` is off only when the options hash maps `:compile_regex` to `false`. -/
def compileRegexOf (opts : List (RValue × RValue)) : Bool :=
  !(opts.any fun kv => kv.1.isSymbol (ascii "compile_regex") && kv.2 matches .bool false)

/-- `method_deserialize(self, bson, opts)` with `fuel`: the leading four bytes and the
last one are skipped, not read. -/
def methodDeserialize (fuel : Nat) (bson : Bytes) (opts : List (RValue × RValue)) : Dec RValue :=
  let remaining := toInt32 bson.length
  elementsToHash newRegex fuel bson ⟨compileRegexOf opts⟩ 4 (cAdd remaining (-5))

end CBson
