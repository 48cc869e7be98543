import CBson.Encoder

/-!
# The BSON wire format

What the encoder is meant to produce and the decoder is meant to read, independent of
either: the BSON element grammar for the element types the extension writes, and the two
it only reads, the deprecated DBPointer (`0x0C`) and JavaScript code (`0x0D`).  `BValue` is
a BSON value; `payload`, `fieldsBytes` and `docBytes` write it canonically, every length
prefix exact; `wf` says which trees have a canonical encoding at all (keys without NUL,
lengths that fit an `int32`, ...).  `parseDoc` reads the grammar strictly: each length
prefix must match the bytes it frames, each frame must end in NUL, each array key must be
the next index.  It is fuel-bounded by the input's length, so it is total and can be run.

A DBRef is not a wire type: it is the document `{"$ref": ns, "$id": id}`.

## Strategy

The round trip `parseDoc (docBytes d) = some d` is proved with the bytes that follow each
value left in place (`parseValue_payload`: `parseValue fuel v.tag (payload v ++ r)` is
`some (v, r)`), by structural recursion over the tree, with enough fuel when it exceeds
the length of what is parsed.  Each reader has one lemma for the canonical bytes
(`readInt32_le32`, `readCString_append`, `readLenString_lenString`, `readFrame_frame`).
-/

namespace CBson

/-- A BSON value, for the element types `cbson.c` writes or reads. -/
inductive BValue where
  | double (bits : UInt64)
  | string (s : Bytes)
  | document (fields : List (Bytes × BValue))
  | array (items : List BValue)
  | binary (subtype : UInt8) (data : Bytes)
  | objectId (bytes : Bytes)
  | bool (b : Bool)
  | utcDateTime (millis : Int)
  | null
  | regex (pattern flags : Bytes)
  | dbPointer (ns id : Bytes)
  | javascript (code : Bytes)
  | symbol (s : Bytes)
  | codeWScope (code : Bytes) (scope : List (Bytes × BValue))
  | int32 (n : Int)
  | timestamp (increment seconds : Nat)
  | int64 (n : Int)
  | maxKey
  | minKey
  deriving Inhabited

/-- The element type byte. -/
def BValue.tag : BValue → UInt8
  | .double _ => 0x01
  | .string _ => 0x02
  | .document _ => 0x03
  | .array _ => 0x04
  | .binary .. => 0x05
  | .objectId _ => 0x07
  | .bool _ => 0x08
  | .utcDateTime _ => 0x09
  | .null => 0x0A
  | .regex .. => 0x0B
  | .dbPointer .. => 0x0C
  | .javascript _ => 0x0D
  | .symbol _ => 0x0E
  | .codeWScope .. => 0x0F
  | .int32 _ => 0x10
  | .timestamp .. => 0x11
  | .int64 _ => 0x12
  | .maxKey => 0x7F
  | .minKey => 0xFF

/-! ## Writing -/

/-- A length-prefixed string: `int32 (|s| + 1)`, the bytes, NUL. -/
def lenString (s : Bytes) : Bytes := le32 (s.length + 1) ++ s ++ [0]

/-- A document or array: `int32` length of the whole frame, the elements, NUL. -/
def frame (body : Bytes) : Bytes := le32 (body.length + 5) ++ body ++ [0]

/-- A binary payload; subtype 2 is the old form with a second length. -/
def binaryBytes (subtype : UInt8) (data : Bytes) : Bytes :=
  if subtype = 2 then le32 (data.length + 4) ++ [2] ++ le32 data.length ++ data
  else le32 data.length ++ [subtype] ++ data

/-- A code-with-scope payload around the code and the scope's document bytes. -/
def codeBytes (code scopeDoc : Bytes) : Bytes :=
  le32 (code.length + scopeDoc.length + 9) ++ lenString code ++ scopeDoc

mutual

/-- The bytes of a value after its element's type and key. -/
def payload : BValue → Bytes
  | .double bits => le64 bits.toNat
  | .string s => lenString s
  | .document fields => frame (fieldsBytes fields)
  | .array items => frame (itemsBytes 0 items)
  | .binary subtype data => binaryBytes subtype data
  | .objectId bytes => bytes
  | .bool b => [if b then 1 else 0]
  | .utcDateTime millis => le64 millis
  | .null => []
  | .regex pattern flags => pattern ++ [0] ++ flags ++ [0]
  | .dbPointer ns id => lenString ns ++ id
  | .javascript code => lenString code
  | .symbol s => lenString s
  | .codeWScope code scope => codeBytes code (frame (fieldsBytes scope))
  | .int32 n => le32 n
  | .timestamp increment seconds => le32 increment ++ le32 seconds
  | .int64 n => le64 n
  | .maxKey => []
  | .minKey => []

/-- The elements of a document: type, key, NUL, payload, for each field. -/
def fieldsBytes : List (Bytes × BValue) → Bytes
  | [] => []
  | (key, v) :: rest => [v.tag] ++ key ++ [0] ++ payload v ++ fieldsBytes rest

/-- The elements of an array from index `i`, keyed `"i"`, `"i+1"`, .... -/
def itemsBytes (i : Nat) : List BValue → Bytes
  | [] => []
  | v :: rest => [v.tag] ++ decimal i ++ [0] ++ payload v ++ itemsBytes (i + 1) rest

end

/-- The bytes of a whole document. -/
def docBytes (fields : List (Bytes × BValue)) : Bytes := frame (fieldsBytes fields)

/-- One element: type, key, NUL, payload. -/
def elementBytes (key : Bytes) (v : BValue) : Bytes := [v.tag] ++ key ++ [0] ++ payload v

@[simp] theorem fieldsBytes_nil : fieldsBytes [] = [] := rfl

theorem fieldsBytes_cons (key : Bytes) (v : BValue) (rest : List (Bytes × BValue)) :
    fieldsBytes ((key, v) :: rest) = elementBytes key v ++ fieldsBytes rest := rfl

@[simp] theorem itemsBytes_nil (i : Nat) : itemsBytes i [] = [] := rfl

theorem itemsBytes_cons (i : Nat) (v : BValue) (rest : List BValue) :
    itemsBytes i (v :: rest) = elementBytes (decimal i) v ++ itemsBytes (i + 1) rest := rfl

/-! ## Well-formed trees -/

mutual

/-- The trees the canonical writer encodes faithfully, lengths apart: keys, regex patterns
and flags are C strings, an ObjectId has twelve bytes, every number fits its field.  That
every length fits an `int32` follows from the size of the whole. -/
def BValue.wf : BValue → Bool
  | .document fields => fieldsWf fields
  | .array items => itemsWf items
  | .objectId bytes | .dbPointer _ bytes => bytes.length == 12
  | .utcDateTime millis => decide (-2 ^ 63 ≤ millis ∧ millis < 2 ^ 63)
  | .regex pattern flags => decide ((0 : UInt8) ∉ pattern ∧ (0 : UInt8) ∉ flags)
  | .codeWScope _ scope => fieldsWf scope
  | .int32 n => decide (FitsInt32 n)
  | .timestamp increment seconds => decide (increment < 2 ^ 32 ∧ seconds < 2 ^ 32)
  | .int64 n => decide (-2 ^ 63 ≤ n ∧ n < 2 ^ 63)
  | .double _ | .string _ | .binary .. | .bool _ | .null | .javascript _ | .symbol _ | .maxKey
  | .minKey => true

/-- Every key a C string, every value well formed. -/
def fieldsWf : List (Bytes × BValue) → Bool
  | [] => true
  | (key, v) :: rest => decide ((0 : UInt8) ∉ key) && v.wf && fieldsWf rest

/-- Every item well formed. -/
def itemsWf : List BValue → Bool
  | [] => true
  | v :: rest => v.wf && itemsWf rest

end

/-- A document with a canonical encoding: well formed, and shorter than `2^31` bytes. -/
def docWf (fields : List (Bytes × BValue)) : Bool :=
  fieldsWf fields && decide ((docBytes fields).length < 2 ^ 31)

/-! ## Reading -/

/-- The first `n` bytes and the rest, when there are `n`. -/
def takeExact (n : Nat) (b : Bytes) : Option (Bytes × Bytes) :=
  if n ≤ b.length then some (b.take n, b.drop n) else none

/-- A little-endian `int32`. -/
def readInt32 (b : Bytes) : Option (Int × Bytes) := do
  let (w, r) ← takeExact 4 b
  pure (int32Of w, r)

/-- A C string and the bytes after its NUL. -/
def readCString (b : Bytes) : Option (Bytes × Bytes) :=
  if b.contains 0 then some (cstr b, b.drop ((cstr b).length + 1)) else none

/-- A length-prefixed string: the prefix counts the final NUL, which must be there. -/
def readLenString (b : Bytes) : Option (Bytes × Bytes) := do
  let (n, r) ← readInt32 b
  if 1 ≤ n then
    let (s, r) ← takeExact n.toNat r
    if s.getLast? = some 0 then pure (s.dropLast, r) else none
  else none

/-- A frame: the `int32` prefix counts the whole frame, which must end in NUL; the body
between them. -/
def readFrame (b : Bytes) : Option (Bytes × Bytes) := do
  let (n, _) ← readInt32 b
  if 5 ≤ n then
    let (f, r) ← takeExact n.toNat b
    if f.getLast? = some 0 then pure ((f.drop 4).dropLast, r) else none
  else none

/-- A binary payload, either form. -/
def readBinary (b : Bytes) : Option (BValue × Bytes) := do
  let (n, r) ← readInt32 b
  match r with
  | subtype :: r =>
    if subtype = 2 then
      let (m, r) ← readInt32 r
      if 0 ≤ m ∧ n = m + 4 then
        let (data, r) ← takeExact m.toNat r
        pure (.binary subtype data, r)
      else none
    else if 0 ≤ n then
      let (data, r) ← takeExact n.toNat r
      pure (.binary subtype data, r)
    else none
  | [] => none

mutual

/-- The value of type `tag` at the front of `b`, and the bytes after it. -/
def parseValue : Nat → UInt8 → Bytes → Option (BValue × Bytes)
  | 0, _, _ => none
  | fuel + 1, tag, b =>
    match tag with
    | 0x01 => do
      let (w, r) ← takeExact 8 b
      pure (.double (UInt64.ofNat (readLE w)), r)
    | 0x02 => do
      let (s, r) ← readLenString b
      pure (.string s, r)
    | 0x03 => do
      let (body, r) ← readFrame b
      let fields ← parseFields fuel body
      pure (.document fields, r)
    | 0x04 => do
      let (body, r) ← readFrame b
      let items ← parseItems fuel 0 body
      pure (.array items, r)
    | 0x05 => readBinary b
    | 0x07 => do
      let (w, r) ← takeExact 12 b
      pure (.objectId w, r)
    | 0x08 =>
      match b with
      | 0 :: r => some (.bool false, r)
      | 1 :: r => some (.bool true, r)
      | _ => none
    | 0x09 => do
      let (w, r) ← takeExact 8 b
      pure (.utcDateTime (int64Of w), r)
    | 0x0A => some (.null, b)
    | 0x0B => do
      let (pattern, r) ← readCString b
      let (flags, r) ← readCString r
      pure (.regex pattern flags, r)
    | 0x0C => do
      let (ns, r) ← readLenString b
      let (id, r) ← takeExact 12 r
      pure (.dbPointer ns id, r)
    | 0x0D => do
      let (code, r) ← readLenString b
      pure (.javascript code, r)
    | 0x0E => do
      let (s, r) ← readLenString b
      pure (.symbol s, r)
    | 0x0F => do
      let (n, _) ← readInt32 b
      let (w, r) ← takeExact n.toNat b
      let (code, w) ← readLenString (w.drop 4)
      let (body, w) ← readFrame w
      if w = [] ∧ 4 ≤ n then
        let scope ← parseFields fuel body
        pure (.codeWScope code scope, r)
      else none
    | 0x10 => do
      let (n, r) ← readInt32 b
      pure (.int32 n, r)
    | 0x11 => do
      let (w, r) ← takeExact 8 b
      pure (.timestamp (readLE (w.take 4)) (readLE (w.drop 4)), r)
    | 0x12 => do
      let (w, r) ← takeExact 8 b
      pure (.int64 (int64Of w), r)
    | 0x7F => some (.maxKey, b)
    | 0xFF => some (.minKey, b)
    | _ => none

/-- The fields of a document body, which must be used up exactly. -/
def parseFields : Nat → Bytes → Option (List (Bytes × BValue))
  | 0, _ => none
  | _ + 1, [] => some []
  | fuel + 1, tag :: b => do
    let (key, r) ← readCString b
    let (v, r) ← parseValue fuel tag r
    let rest ← parseFields fuel r
    pure ((key, v) :: rest)

/-- The items of an array body from index `i`: each key must be `"i"`. -/
def parseItems : Nat → Nat → Bytes → Option (List BValue)
  | 0, _, _ => none
  | _ + 1, _, [] => some []
  | fuel + 1, i, tag :: b => do
    let (key, r) ← readCString b
    if key = decimal i then
      let (v, r) ← parseValue fuel tag r
      let rest ← parseItems fuel (i + 1) r
      pure (v :: rest)
    else none

end

/-- A whole document, which must be exactly one frame. -/
def parseDoc (b : Bytes) : Option (List (Bytes × BValue)) := do
  let (body, r) ← readFrame b
  if r = [] then parseFields b.length body else none

/-! ## The readers on canonical bytes -/

theorem takeExact_append (w r : Bytes) : takeExact w.length (w ++ r) = some (w, r) := by
  simp [takeExact]

theorem takeExact_append_of_eq {w r : Bytes} {n : Nat} (h : w.length = n) :
    takeExact n (w ++ r) = some (w, r) := h ▸ takeExact_append w r

theorem readInt32_le32 {n : Int} (h : FitsInt32 n) (r : Bytes) :
    readInt32 (le32 n ++ r) = some (n, r) := by
  simp [readInt32, takeExact_append_of_eq (length_le32 n), toInt32_of_fits h]

theorem readCString_append {key : Bytes} (h : NulFree key) (r : Bytes) :
    readCString (key ++ 0 :: r) = some (key, r) := by
  have hc : cstr (key ++ 0 :: r) = key := by
    rw [cstr_append_zero h]
  unfold readCString
  rw [if_pos (by simp), hc, List.drop_append_eq_append_drop]
  simp

theorem readLenString_lenString {s : Bytes} (h : s.length + 1 < 2 ^ 31) (r : Bytes) :
    readLenString (lenString s ++ r) = some (s, r) := by
  have hfit : FitsInt32 ((s.length : Int) + 1) := ⟨by omega, by omega⟩
  rw [lenString, List.append_assoc, List.append_assoc, readLenString,
    readInt32_le32 hfit]
  simp only [Option.bind_eq_bind, Option.some_bind]
  rw [if_pos (by omega), show ((s.length : Int) + 1).toNat = (s ++ [0]).length by simp,
    ← List.append_assoc, takeExact_append]
  simp

theorem readFrame_frame {body : Bytes} (h : body.length + 5 < 2 ^ 31) (r : Bytes) :
    readFrame (frame body ++ r) = some (body, r) := by
  have hfit : FitsInt32 ((body.length : Int) + 5) := ⟨by omega, by omega⟩
  have hlen : (frame body).length = ((body.length : Int) + 5).toNat := by
    simp [frame]; omega
  rw [readFrame, frame, List.append_assoc, List.append_assoc, readInt32_le32 hfit]
  simp only [Option.bind_eq_bind, Option.some_bind]
  rw [if_pos (by omega), ← hlen, frame, ← List.append_assoc, ← List.append_assoc,
    List.append_assoc (le32 _), takeExact_append]
  simp

theorem readBinary_binaryBytes (subtype : UInt8) {data : Bytes} (h : data.length + 4 < 2 ^ 31)
    (r : Bytes) : readBinary (binaryBytes subtype data ++ r) = some (.binary subtype data, r) := by
  have hfit : FitsInt32 (data.length : Int) := ⟨by omega, by omega⟩
  have hfit4 : FitsInt32 ((data.length : Int) + 4) := ⟨by omega, by omega⟩
  unfold binaryBytes
  split_ifs with hs
  · subst hs
    rw [show le32 (data.length + 4) ++ [2] ++ le32 data.length ++ data ++ r =
        le32 (data.length + 4) ++ (2 :: (le32 data.length ++ (data ++ r))) by simp,
      readBinary, readInt32_le32 hfit4]
    simp only [Option.bind_eq_bind, Option.some_bind, if_true, readInt32_le32 hfit]
    rw [if_pos ⟨by omega, trivial⟩, Int.toNat_natCast, takeExact_append]
    rfl
  · rw [show le32 data.length ++ [subtype] ++ data ++ r =
        le32 data.length ++ (subtype :: (data ++ r)) by simp,
      readBinary, readInt32_le32 hfit]
    simp only [Option.bind_eq_bind, Option.some_bind, if_neg hs]
    rw [if_pos (by omega), Int.toNat_natCast, takeExact_append]
    rfl

theorem nulFree_decimalAux : ∀ (fuel i : Nat) {acc : Bytes}, NulFree acc →
    NulFree (decimalAux fuel i acc)
  | 0, _, _, h => h
  | fuel + 1, i, acc, h => by
    have hdigit : ∀ d, d < 10 → (48 + d).toUInt8 ≠ 0 := fun d hd he => by
      have := congrArg UInt8.toNat he
      rw [UInt8.toNat_ofNat_of_lt (show 48 + d < 256 by omega)] at this
      simp at this
    rw [decimalAux]
    split_ifs with hi
    · exact List.not_mem_cons_of_ne_of_not_mem (hdigit i hi).symm h
    · exact nulFree_decimalAux fuel (i / 10)
        (List.not_mem_cons_of_ne_of_not_mem (hdigit _ (Nat.mod_lt _ (by decide))).symm h)

theorem nulFree_decimal (i : Nat) : NulFree (decimal i) :=
  nulFree_decimalAux (i + 1) i (List.not_mem_nil _)

theorem uint64_ofNat_readLE_le64 (bits : UInt64) : UInt64.ofNat (readLE (le64 bits.toNat)) = bits := by
  have hlt : bits.toNat < 2 ^ 64 := bits.val.isLt
  have hr : readLE (le64 bits.toNat) = bits.toNat := by rw [le64, readLE_leBytes]; omega
  apply UInt64.toNat.inj
  rw [hr]
  exact UInt64.toNat_ofNat_of_lt hlt

theorem readLE_le32_of_lt {n : Nat} (h : n < 2 ^ 32) : readLE (le32 n) = n := by
  rw [le32, readLE_leBytes]; omega

/-! ## The round trip -/

mutual

/-- A well-formed value's payload reads back as the value, leaving the bytes that follow,
when it is shorter than `2^31` bytes and the fuel exceeds its length. -/
theorem parseValue_payload : (v : BValue) → v.wf = true → (fuel : Nat) → (r : Bytes) →
    (payload v).length < 2 ^ 31 → (payload v).length < fuel →
    parseValue fuel v.tag (payload v ++ r) = some (v, r)
  | .double bits, _, fuel + 1, r, _, _ => by
    simp only [parseValue, BValue.tag, payload, takeExact_append_of_eq (length_le64 _),
      Option.bind_eq_bind, Option.some_bind, uint64_ofNat_readLE_le64]
    rfl
  | .string s, _, fuel + 1, r, hsize, _ => by
    simp only [payload, lenString, List.length_append, length_le32, List.length_singleton]
      at hsize
    have hs : s.length + 1 < 2 ^ 31 := by omega
    simp only [parseValue, BValue.tag, payload, readLenString_lenString hs,
      Option.bind_eq_bind, Option.some_bind]
    rfl
  | .document fields, hv, fuel + 1, r, hsize, hfuel => by
    simp only [BValue.wf] at hv
    simp only [payload, frame, List.length_append, length_le32, List.length_singleton]
      at hsize hfuel
    have hb : (fieldsBytes fields).length + 5 < 2 ^ 31 := by omega
    simp only [parseValue, BValue.tag, payload, readFrame_frame hb, Option.bind_eq_bind,
      Option.some_bind, parseFields_fieldsBytes fields hv fuel (by omega) (by omega)]
    rfl
  | .array items, hv, fuel + 1, r, hsize, hfuel => by
    simp only [BValue.wf] at hv
    simp only [payload, frame, List.length_append, length_le32, List.length_singleton]
      at hsize hfuel
    have hb : (itemsBytes 0 items).length + 5 < 2 ^ 31 := by omega
    simp only [parseValue, BValue.tag, payload, readFrame_frame hb, Option.bind_eq_bind,
      Option.some_bind, parseItems_itemsBytes items hv fuel 0 (by omega) (by omega)]
    rfl
  | .binary subtype data, _, fuel + 1, r, hsize, _ => by
    have hlen : data.length + 4 < 2 ^ 31 := by
      simp only [payload, binaryBytes] at hsize
      split_ifs at hsize <;> simp at hsize <;> omega
    simp only [parseValue, BValue.tag, payload, readBinary_binaryBytes subtype hlen]
  | .objectId bytes, hv, fuel + 1, r, _, _ => by
    simp only [BValue.wf, beq_iff_eq] at hv
    simp only [parseValue, BValue.tag, payload, takeExact_append_of_eq hv, Option.bind_eq_bind,
      Option.some_bind]
    rfl
  | .bool b, _, fuel + 1, r, _, _ => by
    cases b <;> rfl
  | .utcDateTime millis, hv, fuel + 1, r, _, _ => by
    simp only [BValue.wf, decide_eq_true_eq] at hv
    simp only [parseValue, BValue.tag, payload, takeExact_append_of_eq (length_le64 _),
      Option.bind_eq_bind, Option.some_bind, int64Of_le64_of_fits hv]
    rfl
  | .null, _, fuel + 1, r, _, _ => rfl
  | .regex pattern flags, hv, fuel + 1, r, _, _ => by
    simp only [BValue.wf, decide_eq_true_eq] at hv
    rw [show payload (.regex pattern flags) ++ r = pattern ++ 0 :: (flags ++ 0 :: r) by
      simp [payload]]
    simp only [parseValue, BValue.tag, readCString_append hv.1, readCString_append hv.2,
      Option.bind_eq_bind, Option.some_bind]
    rfl
  | .dbPointer ns id, hv, fuel + 1, r, hsize, _ => by
    simp only [BValue.wf, beq_iff_eq] at hv
    simp only [payload, lenString, List.length_append, length_le32, List.length_singleton]
      at hsize
    have hs : ns.length + 1 < 2 ^ 31 := by omega
    simp only [parseValue, BValue.tag, payload, List.append_assoc, readLenString_lenString hs,
      takeExact_append_of_eq hv, Option.bind_eq_bind, Option.some_bind]
    rfl
  | .javascript code, _, fuel + 1, r, hsize, _ => by
    simp only [payload, lenString, List.length_append, length_le32, List.length_singleton]
      at hsize
    have hs : code.length + 1 < 2 ^ 31 := by omega
    simp only [parseValue, BValue.tag, payload, readLenString_lenString hs,
      Option.bind_eq_bind, Option.some_bind]
    rfl
  | .symbol s, _, fuel + 1, r, hsize, _ => by
    simp only [payload, lenString, List.length_append, length_le32, List.length_singleton]
      at hsize
    have hs : s.length + 1 < 2 ^ 31 := by omega
    simp only [parseValue, BValue.tag, payload, readLenString_lenString hs,
      Option.bind_eq_bind, Option.some_bind]
    rfl
  | .codeWScope code scope, hv, fuel + 1, r, hsize, hfuel => by
    simp only [BValue.wf] at hv
    have hdocLen : (frame (fieldsBytes scope)).length = (fieldsBytes scope).length + 5 := by
      simp [frame]; omega
    simp only [payload, codeBytes, lenString, List.length_append, length_le32,
      List.length_singleton, hdocLen] at hsize hfuel
    have hT : FitsInt32 ((code.length : Int) + (frame (fieldsBytes scope)).length + 9) :=
      ⟨by omega, by omega⟩
    have hlen : (codeBytes code (frame (fieldsBytes scope))).length =
        ((code.length : Int) + (frame (fieldsBytes scope)).length + 9).toNat := by
      simp only [codeBytes, lenString, List.length_append, length_le32, List.length_singleton]
      omega
    have hb : le32 ((code.length : Int) + (frame (fieldsBytes scope)).length + 9) ++
        (lenString code ++ (frame (fieldsBytes scope) ++ r)) =
          codeBytes code (frame (fieldsBytes scope)) ++ r := by
      simp [codeBytes]
    have hinner : (codeBytes code (frame (fieldsBytes scope))).drop 4 =
        lenString code ++ (frame (fieldsBytes scope) ++ []) := by
      simp [codeBytes, List.drop_append_eq_append_drop]
    simp only [parseValue, BValue.tag, payload]
    rw [codeBytes, List.append_assoc, List.append_assoc, readInt32_le32 hT]
    simp only [Option.bind_eq_bind, Option.some_bind]
    rw [hb, ← hlen, takeExact_append]
    simp only [Option.some_bind, hinner]
    rw [readLenString_lenString (by omega), Option.some_bind, readFrame_frame (by omega)]
    simp only [Option.some_bind, true_and]
    rw [if_pos (by omega), parseFields_fieldsBytes scope hv fuel (by omega) (by omega)]
    rfl
  | .int32 n, hv, fuel + 1, r, _, _ => by
    simp only [BValue.wf, decide_eq_true_eq] at hv
    simp only [parseValue, BValue.tag, payload, readInt32_le32 hv, Option.bind_eq_bind,
      Option.some_bind]
    rfl
  | .timestamp increment seconds, hv, fuel + 1, r, _, _ => by
    simp only [BValue.wf, decide_eq_true_eq] at hv
    have h8 : (le32 increment ++ le32 seconds).length = 8 := by simp
    simp only [parseValue, BValue.tag, payload, List.append_assoc]
    rw [← List.append_assoc, takeExact_append_of_eq h8]
    simp only [Option.bind_eq_bind, Option.some_bind,
      List.take_left' (length_le32 _), List.drop_left' (length_le32 _),
      readLE_le32_of_lt hv.1, readLE_le32_of_lt hv.2]
    rfl
  | .int64 n, hv, fuel + 1, r, _, _ => by
    simp only [BValue.wf, decide_eq_true_eq] at hv
    simp only [parseValue, BValue.tag, payload, takeExact_append_of_eq (length_le64 _),
      Option.bind_eq_bind, Option.some_bind, int64Of_le64_of_fits hv]
    rfl
  | .maxKey, _, fuel + 1, r, _, _ => rfl
  | .minKey, _, fuel + 1, r, _, _ => rfl

/-- Well-formed fields read back from their bytes, under the same two bounds. -/
theorem parseFields_fieldsBytes : (fields : List (Bytes × BValue)) → fieldsWf fields = true →
    (fuel : Nat) → (fieldsBytes fields).length < 2 ^ 31 → (fieldsBytes fields).length < fuel →
    parseFields fuel (fieldsBytes fields) = some fields
  | [], _, fuel + 1, _, _ => rfl
  | (key, v) :: rest, hw, fuel + 1, hsize, hfuel => by
    simp only [fieldsWf, Bool.and_eq_true, decide_eq_true_eq] at hw
    simp only [fieldsBytes, List.length_append, List.length_singleton] at hsize hfuel
    rw [show fieldsBytes ((key, v) :: rest) = v.tag :: (key ++ 0 :: (payload v ++ fieldsBytes rest))
      by simp [fieldsBytes]]
    simp only [parseFields, readCString_append hw.1.1, Option.bind_eq_bind, Option.some_bind,
      parseValue_payload v hw.1.2 fuel _ (by omega) (by omega),
      parseFields_fieldsBytes rest hw.2 fuel (by omega) (by omega)]
    rfl

/-- Well-formed items read back from their bytes, keys and all, under the same bounds. -/
theorem parseItems_itemsBytes : (items : List BValue) → itemsWf items = true →
    (fuel i : Nat) → (itemsBytes i items).length < 2 ^ 31 → (itemsBytes i items).length < fuel →
    parseItems fuel i (itemsBytes i items) = some items
  | [], _, fuel + 1, _, _, _ => rfl
  | v :: rest, hw, fuel + 1, i, hsize, hfuel => by
    simp only [itemsWf, Bool.and_eq_true] at hw
    simp only [itemsBytes, List.length_append, List.length_singleton] at hsize hfuel
    rw [show itemsBytes i (v :: rest) =
        v.tag :: (decimal i ++ 0 :: (payload v ++ itemsBytes (i + 1) rest)) by
      simp [itemsBytes]]
    simp only [parseItems, readCString_append (nulFree_decimal i), Option.bind_eq_bind,
      Option.some_bind, if_true, parseValue_payload v hw.1 fuel _ (by omega) (by omega),
      parseItems_itemsBytes rest hw.2 fuel (i + 1) (by omega) (by omega)]
    rfl

end

/-- The canonical bytes of a well-formed document parse back to it. -/
theorem parseDoc_docBytes {fields : List (Bytes × BValue)} (h : docWf fields = true) :
    parseDoc (docBytes fields) = some fields := by
  simp only [docWf, Bool.and_eq_true, decide_eq_true_eq, docBytes] at h
  have hlen : (frame (fieldsBytes fields)).length = (fieldsBytes fields).length + 5 := by
    simp [frame]; omega
  rw [parseDoc, docBytes, show frame (fieldsBytes fields) = frame (fieldsBytes fields) ++ [] from
    (List.append_nil _).symm, readFrame_frame (by omega)]
  simp only [Option.bind_eq_bind, Option.some_bind, if_true, List.append_nil]
  exact parseFields_fieldsBytes fields h.1 _ (by omega) (by omega)

/-- A document the parser accepts starts with its own length. -/
theorem int32Of_take_of_parseDoc {b : Bytes} {fields : List (Bytes × BValue)}
    (h : parseDoc b = some fields) : int32Of (b.take 4) = b.length := by
  simp only [parseDoc, readFrame, readInt32, takeExact, Option.bind_eq_bind, Option.bind_eq_some,
    Option.pure_def, Option.some.injEq, Prod.exists, Prod.mk.injEq] at h
  obtain ⟨body, r, ⟨n, _, ⟨w, r', h4, rfl, rfl⟩, h5⟩, hr⟩ := h
  have hr : r = [] := by by_contra hne; simp [hne] at hr
  split_ifs at h4 h5 with _ h5n hn <;> simp only [reduceCtorEq, Option.some.injEq, Prod.mk.injEq,
    Option.some_bind, Option.none_bind, Option.ite_none_right_eq_some] at h4 h5
  obtain ⟨rfl, -⟩ := h4
  obtain ⟨-, -, hd⟩ := h5
  rw [hr, List.drop_eq_nil_iff] at hd
  omega

end CBson
