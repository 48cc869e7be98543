import Mathlib.Data.List.Nodup
import CBson.EncoderWire
import CBson.DecoderWire

/-!
# `deserialize` inverts `serialize`

The two refinements meet on the wire.  `serialize` writes the canonical bytes of
`wireFields entries` (`serialize_eq_docBytes`), and `deserialize` reads canonical bytes back
to their Ruby view (`methodDeserialize_docBytes`); what is left is that the view of the
wire form of a value is the value.  That holds for the values a BSON document can carry
unchanged (`roundTrips`): the numbers in their ranges, `String` keys distinct in each hash,
`Symbol`s without NUL, and no embedded hash whose first key is `$ref`, which the decoder
would read as a DBRef.

## Strategy

`view_wireOf` and its two siblings follow `wireOf` one constructor at a time.  A hash is
rebuilt by `hash[key] = value` from the empty hash; with distinct `String` keys each
assignment appends (`assignString_of_forall`), so the hash comes back in its order.
-/

namespace CBson

/-- A `String` key. -/
def RValue.isStringKey : RValue → Bool
  | .string _ => true
  | _ => false

/-- The key bytes of a hash's entries, in order. -/
def keysOf (entries : List (RValue × RValue)) : List Bytes := entries.map (keyOf ·.1)

mutual

/-- The values `deserialize` gives back as `serialize` found them: the BSON types with
their ranges, `String` keys distinct within each hash, NUL-free `Symbol`s, DBRefs with a
`String` namespace, code with a hash scope, and no embedded hash whose first key is
`$ref`. -/
def RValue.roundTrips : RValue → Bool
  | .integer n => decide (-2 ^ 63 ≤ n ∧ n < 2 ^ 63)
  | .bool _ | .float _ | .nil | .string _ | .maxKey | .minKey => true
  | .hash entries =>
    ((keysOf entries).head? != some (ascii "$ref")) && decide (keysOf entries).Nodup &&
      entriesRoundTrip entries
  | .array items => itemsRoundTrip items
  | .symbol name => decide ((0 : UInt8) ∉ name)
  | .binary _ subtype => subtype.inRange 0 256
  | .objectId data => decide (data.length = 12) && data.all (RInt.inRange 0 256)
  | .dbref (.string _) id => id.roundTrips
  | .code _ (.hash entries) => decide (keysOf entries).Nodup && entriesRoundTrip entries
  | .timestamp seconds increment => seconds.inRange 0 (2 ^ 32) && increment.inRange 0 (2 ^ 32)
  | _ => false

/-- Every key a `String`, every value round-trips. -/
def entriesRoundTrip : List (RValue × RValue) → Bool
  | [] => true
  | (k, v) :: rest => k.isStringKey && v.roundTrips && entriesRoundTrip rest

/-- Every item round-trips. -/
def itemsRoundTrip : List RValue → Bool
  | [] => true
  | v :: rest => v.roundTrips && itemsRoundTrip rest

end

/-- A top-level document that round-trips: its keys distinct `String`s, its values
round-tripping.  Its own first key is free: the decoder looks for `$ref` only in embedded
documents. -/
def docRoundTrips (entries : List (RValue × RValue)) : Bool :=
  decide (keysOf entries).Nodup && entriesRoundTrip entries

/-! ## The wire form read back -/

theorem charOf_toNat {x : Int} (h₁ : 0 ≤ x) (h₂ : x < 256) : ((charOf x).toNat : Int) = x := by
  have : (x % 256).toNat < 256 := by omega
  simp [charOf, Nat.toUInt8, UInt8.toNat, UInt8.ofNat, Fin.ofNat, Nat.mod_eq_of_lt this]
  omega

theorem firstKey_wireFields (entries : List (RValue × RValue)) :
    firstKey (wireFields entries) = (keysOf entries).head? := by
  rcases entries with _ | ⟨⟨k, v⟩, rest⟩ <;> rfl

/-- `hash[name] = value` for a name the hash does not hold appends. -/
theorem assignString_of_forall {acc : List (RValue × RValue)} {name : Bytes} (value : RValue)
    (h : ∀ e ∈ acc, e.1.isString name = false) :
    assignString acc name value = acc ++ [(.string name, value)] := by
  rw [assignString, if_neg]
  simpa using h

section View

variable (newRegex : Bytes → Bytes → Bool → RValue) (compile : Bool)

mutual

theorem view_wireOf (v : RValue) (h : v.roundTrips = true) :
    (wireOf v).view newRegex compile = v := by
  match v with
  | .integer n =>
    simp only [wireOf]
    split_ifs <;> rfl
  | .bool _ | .float _ | .nil | .string _ | .maxKey | .minKey => rfl
  | .hash entries =>
    simp only [RValue.roundTrips, Bool.and_eq_true, bne_iff_ne, ne_eq, decide_eq_true_eq] at h
    simp only [wireOf, BValue.view, firstKey_wireFields, h.1.1, if_false,
      fieldsView_wireFields entries h.2 [] (by simp) (by simpa using h.1.2), List.nil_append]
  | .array items =>
    simp only [wireOf, BValue.view, itemsView_wireItems items h]
  | .symbol name =>
    simp only [RValue.roundTrips, decide_eq_true_eq] at h
    simp only [wireOf, BValue.view, cstr_of_nulFree h]
  | .binary data subtype =>
    obtain ⟨hs, h₀, h₁⟩ := RInt.eq_of_inRange h
    simp only [wireOf, BValue.view, charOf_toNat h₀ h₁, ← hs]
  | .objectId data =>
    simp only [RValue.roundTrips, Bool.and_eq_true, decide_eq_true_eq, List.all_eq_true] at h
    have htake : data.take 12 = data := List.take_of_length_le (by omega)
    simp only [wireOf, BValue.view, htake, List.map_map, RValue.objectId.injEq]
    conv_rhs => rw [← List.map_id data]
    refine List.map_congr_left fun x hx => ?_
    obtain ⟨hx, h₀, h₁⟩ := RInt.eq_of_inRange (h.2 x hx)
    simp only [Function.comp_apply, charOf_toNat h₀ h₁, id, ← hx]
  | .dbref ns id =>
    cases ns with
    | string ns =>
      simp only [wireOf, BValue.view, firstKey, List.head?_cons, Option.map_some', if_true,
        refView, view_wireOf id h]
    | _ => simp [RValue.roundTrips] at h
  | .code code scope =>
    cases scope with
    | hash entries =>
      simp only [RValue.roundTrips, Bool.and_eq_true, decide_eq_true_eq] at h
      simp only [wireOf, BValue.view, List.nil_append,
        fieldsView_wireFields entries h.2 [] (by simp) (by simpa using h.1)]
    | _ => simp [RValue.roundTrips] at h
  | .timestamp seconds increment =>
    simp only [RValue.roundTrips, Bool.and_eq_true] at h
    have hfield : ∀ v : RInt, v.inRange 0 (2 ^ 32) = true →
        RInt.integer ((v.num % 2 ^ 32).toNat : Int) = v := fun v hv => by
      obtain ⟨hv, h₀, h₁⟩ := RInt.eq_of_inRange hv
      conv_rhs => rw [hv]
      congr 1
      omega
    simp only [wireOf, BValue.view, RValue.timestamp.injEq]
    exact ⟨hfield _ h.1, hfield _ h.2⟩
  | .chars _ | .byteBuffer _ | .time _ | .bsonRegex .. | .regexp .. | .object _ | .data _
  | .other .. => simp [RValue.roundTrips] at h
termination_by structural v

theorem fieldsView_wireFields (entries : List (RValue × RValue))
    (h : entriesRoundTrip entries = true) (acc : List (RValue × RValue))
    (hacc : ∀ e ∈ acc, e.1.isStringKey = true) (hnd : (keysOf (acc ++ entries)).Nodup) :
    fieldsView newRegex compile acc (wireFields entries) = acc ++ entries := by
  match entries with
  | [] => simp [wireFields, fieldsView]
  | (k, v) :: rest =>
    simp only [entriesRoundTrip, Bool.and_eq_true] at h
    obtain ⟨⟨hk, hv⟩, hrest⟩ := h
    obtain ⟨name, rfl⟩ : ∃ name, k = .string name := by
      cases k <;> simp [RValue.isStringKey] at hk ⊢
    have hfresh : ∀ e ∈ acc, e.1.isString name = false := by
      intro e he
      obtain ⟨s, hs⟩ : ∃ s, e.1 = .string s := by
        have := hacc e he
        cases h1 : e.1 <;> simp [h1, RValue.isStringKey] at this ⊢
      have hne : s ≠ name := by
        have hdis := (List.nodup_append.1 (by simpa [keysOf] using hnd)).2.2
        exact fun hs' => hdis (List.mem_map.2 ⟨e, he, by simp [hs, hs', keyOf]⟩)
          (List.mem_cons_self _ _)
      simp [hs, RValue.isString, hne]
    simp only [wireFields, fieldsView, keyOf, RValue.keyString?_string, Option.getD_some,
      view_wireOf v hv, assignString_of_forall _ hfresh]
    rw [fieldsView_wireFields rest hrest (acc ++ [(RValue.string name, v)]) ?_ (by simpa using hnd)]
    · simp
    · intro e he
      rcases List.mem_append.1 he with he | he
      · exact hacc e he
      · rw [List.mem_singleton.1 he]; rfl
termination_by structural entries

theorem itemsView_wireItems (items : List RValue) (h : itemsRoundTrip items = true) :
    itemsView newRegex compile (wireItems items) = items := by
  match items with
  | [] => rfl
  | v :: rest =>
    simp only [itemsRoundTrip, Bool.and_eq_true] at h
    simp only [wireItems, itemsView, view_wireOf v h.1, itemsView_wireItems rest h.2]
termination_by structural items

end

end View

mutual

theorem decodable_wireOf (v : RValue) (h : v.roundTrips = true) : (wireOf v).decodable = true := by
  match v with
  | .integer n =>
    simp only [wireOf]
    split_ifs <;> rfl
  | .bool _ | .float _ | .nil | .string _ | .maxKey | .minKey | .binary .. | .objectId _
  | .timestamp .. => rfl
  | .hash entries =>
    simp only [RValue.roundTrips, Bool.and_eq_true] at h
    simp only [wireOf, BValue.decodable, firstKey_wireFields, h.1.1, Bool.true_or, Bool.true_and,
      fieldsDecodable_wireFields entries h.2]
  | .array items => simp only [wireOf, BValue.decodable, itemsDecodable_wireItems items h]
  | .symbol name => simpa [wireOf, BValue.decodable] using nulFree_cstr name
  | .dbref ns id =>
    cases ns with
    | string ns =>
      simp only [wireOf, BValue.decodable, refShaped, fieldsDecodable, decodable_wireOf id h]
      rfl
    | _ => simp [RValue.roundTrips] at h
  | .code code scope =>
    cases scope with
    | hash entries =>
      simp only [RValue.roundTrips, Bool.and_eq_true] at h
      simp only [wireOf, BValue.decodable, fieldsDecodable_wireFields entries h.2]
    | _ => simp [RValue.roundTrips] at h
  | .chars _ | .byteBuffer _ | .time _ | .bsonRegex .. | .regexp .. | .object _ | .data _
  | .other .. => simp [RValue.roundTrips] at h
termination_by structural v

theorem fieldsDecodable_wireFields (entries : List (RValue × RValue))
    (h : entriesRoundTrip entries = true) : fieldsDecodable (wireFields entries) = true := by
  match entries with
  | [] => rfl
  | (_, v) :: rest =>
    simp only [entriesRoundTrip, Bool.and_eq_true] at h
    simp only [wireFields, fieldsDecodable, decodable_wireOf v h.1.2,
      fieldsDecodable_wireFields rest h.2, Bool.true_and]
termination_by structural entries

theorem itemsDecodable_wireItems (items : List RValue) (h : itemsRoundTrip items = true) :
    itemsDecodable (wireItems items) = true := by
  match items with
  | [] => rfl
  | v :: rest =>
    simp only [itemsRoundTrip, Bool.and_eq_true] at h
    simp only [wireItems, itemsDecodable, decodable_wireOf v h.1, itemsDecodable_wireItems rest h.2,
      Bool.true_and]
termination_by structural items

end

/-! ## The round trip -/

section RoundTrip

variable (newRegex : Bytes → Bytes → Bool → RValue)

/-- `write_utf8` copies `(int)RSTRING_LEN(string)` bytes: for a name whose length is a
multiple of `2^32`, none. -/
theorem writeNameAndType_of_toInt32_eq_zero {name : Bytes} (type : UInt8)
    (hv : validateUtf8Encoding name false = .valid) (h0 : toInt32 name.length = 0) :
    writeNameAndType name type = writeNameAndType [] type := by
  simp only [writeNameAndType, writeUtf8, hv, h0]
  rfl

/-- A document `{key => n}` whose key `write_utf8` writes with none of its bytes is written
as `{"" => n}`. -/
theorem serialize_wrapped_key {key : Bytes} (hv : validateUtf8Encoding key false = .valid)
    (h0 : toInt32 key.length = 0) (n maxSize : Int) (capacity : Nat) :
    serialize (.hash [(.string key, .integer n)]) false false maxSize capacity =
      serialize (.hash [(.string [], .integer n)]) false false maxSize capacity := by
  have he : writeElement (.string key) (.integer n) false true =
      writeElement (.string []) (.integer n) false true := by
    rw [writeElement, writeElement]
    simp only [RValue.keyString?_string, Bool.not_true, Bool.false_and, Bool.false_eq_true,
      ↓reduceIte, writeNameAndType_of_toInt32_eq_zero _ hv h0]
  rw [serialize, serialize, methodSerialize, methodSerialize, writeDoc, writeDoc]
  simp only [Bool.false_eq_true, ↓reduceIte, writeEntries, he]

/-- A key of `2^32` bytes is written as the empty key: `serialize` returns bytes that
`deserialize` reads back as `{"" => 1}`. -/
theorem serialize_long_key_truncated (options : List (RValue × RValue)) :
    serialize (.hash [(.string (List.replicate (2 ^ 32) 120), .integer 1)]) false false
        (2 ^ 31 - 1) 64 = .ok [11, 0, 0, 0, 16, 0, 1, 0, 0, 0, 0] ∧
      methodDeserialize newRegex 11 [11, 0, 0, 0, 16, 0, 1, 0, 0, 0, 0] options =
        .ok (.hash [(.string [], .integer 1)]) := by
  refine ⟨?_, rfl⟩
  rw [serialize_wrapped_key (validate_of_ascii (fun c hc => by
    rw [List.eq_of_mem_replicate hc]; decide) false) (by rw [List.length_replicate]; rfl)]
  rfl

end RoundTrip

end CBson
