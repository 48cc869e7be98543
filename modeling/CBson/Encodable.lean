import CBson.EncoderWire
import CBson.DecoderWire

/-!
# When `serialize` returns

`EncoderWire` shows what a successful run of `serialize` writes.  This module says when
a run is successful.  A `Hash` whose texts fit a C `int` is serialized, with `check_keys`
and `move_id` off, exactly when four conditions hold (`serialize_eq_ok_iff`).  The cap is
in the `int` range.  Every key and value passes the tests `write_element` makes of it
(`entriesEncodable`).  The canonical bytes fit under the cap.  The allocator grants
them.  The bytes are then the canonical ones.  So the encoder raises on nothing else,
and on nothing that depends on the order of the entries.

For every document and every setting, the allocator's grant filters as the cap does
(`serialize_capacity_filter`).  Under a smaller grant, `serialize` returns what it returns
under a larger one when that fits, and raises `NoMemError` when it does not: an allocation
that fails never changes the bytes.

## Strategy

`Succeeds x w` says that every run of `x` from a buffer with room for `w`, under a cap of
at least `|w|`, returns and appends `w`.  It is closed under `>>=`.  Each primitive and
each frame has its `Succeeds` lemma.  The encoder's mutual functions follow one constructor
at a time (`succeeds_writeElement`), on values that pass their tests.  The other direction
reuses `Ensures` from `CheckKeys`: every test of a successful run passed
(`ensures_encodable_writeElement`).  The size and capacity bounds come from the size check
and the NUL that closes the frame.  The grant filter is the simulation of `Sim` between
two runs whose buffers differ in their grant (`compat_grant`).
-/

namespace CBson

variable {α β : Type}

/-! ## What the encoder tests -/

instance (b : Bytes) : Decidable (CText b) := inferInstanceAs (Decidable (_ ∧ _))

/-- A key `write_element` accepts: a `String` or a `Symbol` whose key string passes
`write_utf8` without NUL. -/
def keyEncodable (key : RValue) : Bool := key.keyString?.any fun k => decide (CText k)

mutual

/-- A value passes every test `write_element` makes of it: integers and times in range,
`String` texts in UTF-8, regex patterns NUL-free UTF-8, a `BSON::Binary` subtype that
`FIX2INT` takes, twelve `FIX2INT` entries in an ObjectId, `NUM2UINT` fields in a
`BSON::Timestamp`, a hash as a code scope, and no class the encoder refuses. -/
def RValue.encodable : RValue → Bool
  | .integer n => decide (-2 ^ 63 ≤ n ∧ n < 2 ^ 63)
  | .hash entries => entriesEncodable entries
  | .array items => itemsEncodable items
  | .string s | .chars s => decide (Utf8Valid s)
  | .binary _ subtype => subtype.inRange (-2 ^ 31) (2 ^ 31)
  | .objectId data =>
    decide (12 ≤ data.length) && (data.take 12).all (RInt.inRange (-2 ^ 31) (2 ^ 31))
  | .dbref ns id => ns.encodable && id.encodable
  | .code _ (.hash entries) => entriesEncodable entries
  | .timestamp seconds increment =>
    seconds.inRange (-2 ^ 31 + 1) (2 ^ 32) && increment.inRange (-2 ^ 31 + 1) (2 ^ 32)
  | .time millis => decide (-2 ^ 63 ≤ millis ∧ millis < 2 ^ 63)
  | .bsonRegex pattern _ _ | .regexp pattern _ _ => decide (CText pattern)
  | .bool _ | .float _ | .nil | .symbol _ | .byteBuffer _ | .maxKey | .minKey => true
  | .code .. | .object _ | .data _ | .other .. => false

/-- Every key and value of a hash passes. -/
def entriesEncodable : List (RValue × RValue) → Bool
  | [] => true
  | (k, v) :: rest => keyEncodable k && v.encodable && entriesEncodable rest

/-- Every item of an array passes. -/
def itemsEncodable : List RValue → Bool
  | [] => true
  | v :: rest => v.encodable && itemsEncodable rest

end

/-! ## Runs that return -/

/-- Every run of `x` from a buffer with room for `w`, under a cap of at least `|w|`, returns
and appends `w`. -/
def Succeeds (x : Enc α) (w : Bytes) : Prop :=
  ∀ s : Buffer, s.bytes.length + w.length ≤ s.capacity → (w.length : Int) ≤ s.maxSize →
    ∃ a, x s = .ok a (s.append w)

namespace Succeeds

theorem bind {x : Enc α} {f : α → Enc β} {w₁ w₂ : Bytes} (hx : Succeeds x w₁)
    (hf : ∀ a, Succeeds (f a) w₂) : Succeeds (x >>= f) (w₁ ++ w₂) := by
  intro s hcap hmax
  simp only [List.length_append, Nat.cast_add] at hcap hmax
  obtain ⟨a, ha⟩ := hx s (by omega) (by omega)
  obtain ⟨b, hb⟩ := hf a (s.append w₁) (by simp; omega) (by simp; omega)
  exact ⟨b, by rw [Enc.bind_of_ok ha, hb, Buffer.append_append]⟩

theorem imp {x : Enc α} {w w' : Bytes} (hx : Succeeds x w) (hw : w = w') : Succeeds x w' :=
  hw ▸ hx

theorem pure (a : α) : Succeeds (Pure.pure a : Enc α) [] := fun s _ _ => ⟨a, by simp⟩

end Succeeds

theorem succeeds_safeWrite (d : Bytes) : Succeeds (safeWrite d) d := fun _ hcap _ =>
  ⟨(), safeWrite_append hcap⟩

theorem succeeds_safeWriteN (src : Bytes) {size : Int} (h : size = src.length) :
    Succeeds (safeWriteN src size) src := fun s hcap _ =>
  ⟨(), safeWriteN_eq_ok.2 ⟨by omega, by omega, by simp [h]; omega, by simp [h]⟩⟩

theorem succeeds_writeUtf8 {b : Bytes} (h : b.length < 2 ^ 31) {allowNull : Bool}
    (hv : validateUtf8Encoding b allowNull = .valid) : Succeeds (writeUtf8 b allowNull) b := by
  unfold writeUtf8
  rw [hv]
  exact succeeds_safeWriteN b (toInt32_of_fits ⟨by omega, by omega⟩)

theorem succeeds_writeNameAndType {name : Bytes} (h : name.length < 2 ^ 31) (hc : CText name)
    (type : UInt8) : Succeeds (writeNameAndType name type) ([type] ++ name ++ [0]) :=
  (succeeds_safeWrite _).bind fun _ =>
    (succeeds_writeUtf8 h (validate_false_of_valid hc.1 hc.2)).bind fun _ => succeeds_safeWrite _

/-- Patching the slot reserved at the end of `s`. -/
theorem safeWriteAtPos_slot_ok (s : Buffer) {d : Bytes} (w : Bytes) (hd : d.length = 4) :
    safeWriteAtPos s.bytes.length d ((s.append [0, 0, 0, 0]).append w) =
      .ok () (s.append (d ++ w)) := by
  simp only [safeWriteAtPos, Buffer.writeAtPosition, Buffer.append_append, Buffer.bytes_append,
    List.length_append, hd, List.length_cons, List.length_nil]
  rw [if_pos (by omega)]
  simp [Buffer.append, List.drop_append_eq_append_drop]

theorem succeeds_writeFrame {body : Enc Unit} {w : Bytes} (h : Succeeds body w) :
    Succeeds (writeFrame body) (le32 (w.length + 4) ++ w) := by
  intro s hcap hmax
  simp only [List.length_append, length_le32, Nat.cast_add] at hcap hmax
  obtain ⟨_, hbody⟩ := h (s.append [0, 0, 0, 0]) (by simp; omega) (by simp; omega)
  have hsave : saveSpace s = .ok s.bytes.length (s.append [0, 0, 0, 0]) :=
    saveSpace_eq_ok.2 ⟨by omega, rfl, rfl⟩
  refine ⟨(), ?_⟩
  rw [writeFrame, Enc.bind_of_ok (getPosition_apply s), Enc.bind_of_ok hsave, Enc.bind_of_ok hbody,
    Enc.bind_of_ok (getPosition_apply _)]
  have hlen : ((s.append [0, 0, 0, 0]).append w).bytes.length - s.bytes.length = w.length + 4 := by
    simp
  rw [hlen]
  exact_mod_cast safeWriteAtPos_slot_ok s w (length_le32 _)

theorem succeeds_writeDocFrame {body : Enc Unit} {w : Bytes} (h : Succeeds body w) :
    Succeeds (writeDocFrame body) (frame w) := by
  intro s hcap hmax
  rw [length_frame] at hcap hmax
  obtain ⟨_, hbody⟩ := h (s.append [0, 0, 0, 0]) (by simp; omega) (by simp; omega)
  have hsave : saveSpace s = .ok s.bytes.length (s.append [0, 0, 0, 0]) :=
    saveSpace_eq_ok.2 ⟨by omega, rfl, rfl⟩
  have hnul : safeWrite [0] ((s.append [0, 0, 0, 0]).append w) =
      .ok () (((s.append [0, 0, 0, 0]).append w).append [0]) :=
    safeWrite_append (by simp; omega)
  have hlen : (((s.append [0, 0, 0, 0]).append w).append [0]).bytes.length - s.bytes.length =
      w.length + 5 := by simp
  have hcheck : checkedLength s.bytes.length (((s.append [0, 0, 0, 0]).append w).append [0]) =
      .ok (w.length + 5) (((s.append [0, 0, 0, 0]).append w).append [0]) := by
    rw [checkedLength_apply, hlen, if_neg (by simp; omega)]
  refine ⟨(), ?_⟩
  rw [writeDocFrame, Enc.bind_of_ok (getPosition_apply s), Enc.bind_of_ok hsave,
    Enc.bind_of_ok hbody, Enc.bind_of_ok hnul, Enc.bind_of_ok hcheck, Buffer.append_append,
    frame, List.append_assoc]
  exact_mod_cast safeWriteAtPos_slot_ok s (w ++ [0]) (length_le32 _)

theorem succeeds_liftExcept_bind {e : Except RbError α} {a : α} {f : α → Enc β} {w : Bytes}
    (he : e = .ok a) (hf : Succeeds (f a) w) : Succeeds (liftExcept e >>= f) w := by
  subst he
  exact hf

theorem succeeds_writeBinary {key data : Bytes} (hk : key.length < 2 ^ 31) (hc : CText key)
    (hd : data.length < 2 ^ 31) (subtype : UInt8) :
    Succeeds (writeBinary key data subtype) ([0x05] ++ key ++ [0] ++ binaryBytes subtype data) := by
  unfold writeBinary
  rw [toInt32_of_fits (show FitsInt32 (data.length : Int) from ⟨by omega, by omega⟩)]
  by_cases hs : subtype = 2
  · simp only [hs, if_true, ne_eq, not_true_eq_false, if_false, bind_assoc, pure_bind]
    exact ((succeeds_writeNameAndType hk hc _).bind fun _ => (succeeds_safeWrite _).bind fun _ =>
      (succeeds_safeWrite _).bind fun _ => (succeeds_safeWrite _).bind fun _ =>
        succeeds_safeWriteN data rfl).imp (by simp [binaryBytes])
  · simp only [hs, if_false, ne_eq, not_false_eq_true, if_true, bind_assoc, pure_bind]
    exact ((succeeds_writeNameAndType hk hc _).bind fun _ => (succeeds_safeWrite _).bind fun _ =>
      (succeeds_safeWrite _).bind fun _ => succeeds_safeWriteN data rfl).imp
        (by simp [binaryBytes, hs])

theorem succeeds_writeObjectIdBytes : (k : Nat) → (data : List RInt) → k ≤ data.length →
    (∀ x ∈ data.take k, x.inRange (-2 ^ 31) (2 ^ 31) = true) →
    Succeeds (writeObjectIdBytes k data) ((data.take k).map fun v => charOf v.num)
  | 0, _, _, _ => (Succeeds.pure ()).imp (by simp)
  | k + 1, v :: rest, hk, hfit => by
    simp only [List.take_succ_cons, List.mem_cons, forall_eq_or_imp] at hfit
    rw [writeObjectIdBytes]
    exact succeeds_liftExcept_bind (RInt.fix2int_of_inRange hfit.1)
      (((succeeds_safeWrite _).bind fun _ => succeeds_writeObjectIdBytes k rest
        (by simpa using hk) hfit.2).imp (by simp))

/-- Writing `extra_options_str` and sorting it where it lies, then going on. -/
theorem succeeds_sortedExtra_bind {e : Bytes} (h : e.length < 2 ^ 31) {f : Unit → Enc β}
    {w : Bytes} (hf : Succeeds (f ()) w) :
    Succeeds (getPosition >>= fun oldPosition => safeWriteN e (toInt32 e.length) >>= fun _ =>
      qsortAt oldPosition e.length >>= f) (List.mergeSort e cmpCharLe ++ w) := by
  intro s hcap hmax
  simp only [List.length_append, List.length_mergeSort, Nat.cast_add] at hcap hmax
  obtain ⟨_, hw⟩ := succeeds_safeWriteN e (toInt32_of_fits ⟨by omega, by omega⟩) s (by omega)
    (by omega)
  have hq : qsortAt s.bytes.length e.length (s.append e) =
      .ok () (s.append (List.mergeSort e cmpCharLe)) :=
    qsortAt_eq_ok.2 ⟨by simp, by simp [Buffer.append]⟩
  obtain ⟨b, hb⟩ := hf (s.append (List.mergeSort e cmpCharLe)) (by simp; omega) (by simp; omega)
  exact ⟨b, by rw [Enc.bind_of_ok (getPosition_apply s), Enc.bind_of_ok hw, Enc.bind_of_ok hq, hb,
    Buffer.append_append]⟩

theorem succeeds_serializeRegex {key pattern : Bytes} (hk : key.length < 2 ^ 31) (hkc : CText key)
    (hp : pattern.length < 2 ^ 31) (hpc : CText pattern) (flags : RegexpOptions ⊕ RegexOptions)
    {extra : Option Bytes} (he : extraSafe extra = true) :
    Succeeds (serializeRegex key pattern flags extra)
      ([0x0B] ++ key ++ [0] ++ pattern ++ [0] ++ regexFlags flags ++ sortedExtra extra ++ [0]) := by
  unfold serializeRegex
  have hpat := succeeds_writeUtf8 hp (validate_false_of_valid hpc.1 hpc.2)
  cases extra with
  | none =>
    cases flags <;> simp only [pure_bind] <;>
    exact ((succeeds_writeNameAndType hk hkc _).bind fun _ => hpat.bind fun _ =>
      (succeeds_safeWrite _).bind fun _ => (succeeds_safeWrite _).bind fun _ =>
        succeeds_safeWrite _).imp (by simp [regexFlags, sortedExtra])
  | some e =>
    simp only [extraSafe, decide_eq_true_eq] at he
    cases flags <;> simp only [pure_bind] <;>
    exact ((succeeds_writeNameAndType hk hkc _).bind fun _ => hpat.bind fun _ =>
      (succeeds_safeWrite _).bind fun _ => (succeeds_safeWrite _).bind fun _ =>
        succeeds_sortedExtra_bind he.1 (succeeds_safeWrite _)).imp
          (by simp [regexFlags, sortedExtra])

theorem ascii_decimalAux : ∀ (fuel i : Nat) {acc : Bytes}, (∀ c ∈ acc, 0 < c ∧ c ≤ 0x7F) →
    ∀ c ∈ decimalAux fuel i acc, 0 < c ∧ c ≤ 0x7F
  | 0, _, _, h => h
  | fuel + 1, i, acc, h => by
    have hdigit : ∀ d, d < 10 → 0 < (48 + d).toUInt8 ∧ (48 + d).toUInt8 ≤ 0x7F := by decide
    have hcons : ∀ d, d < 10 → ∀ c ∈ (48 + d).toUInt8 :: acc, 0 < c ∧ c ≤ 0x7F := fun d hd c hc =>
      (List.mem_cons.1 hc).elim (fun he => he ▸ hdigit d hd) (h c)
    rw [decimalAux]
    split_ifs with hi
    · exact hcons i hi
    · exact ascii_decimalAux fuel (i / 10) (hcons _ (Nat.mod_lt _ (by decide)))

/-- An array index is a key `write_utf8` accepts. -/
theorem cText_decimal (i : Nat) : CText (decimal i) :=
  ⟨nulFree_decimal i, validate_of_ascii (ascii_decimalAux (i + 1) i (by simp)) true⟩

/-! ## The encoder returns on values that pass -/

/-- A key `write_element` accepts behaves as the `String` it is read as. -/
theorem succeeds_element_key {key value : RValue} {k w : Bytes} (hk : key.keyString? = some k)
    (h : Succeeds (writeElement (.string k) value false true) w) :
    Succeeds (writeElement key value false true) w := by
  rw [writeElement] at h ⊢
  rw [hk]
  exact h

mutual

/-- `write_element` of a safe value that passes its tests, under a `String` key that passes
`write_utf8`, returns once there is room, and writes the key and `wireOf value`. -/
theorem succeeds_writeElement (k : Bytes) (hk : k.length < 2 ^ 31) (hkc : CText k)
    (value : RValue) (hv : value.wireSafe = true) (he : value.encodable = true) :
    Succeeds (writeElement (.string k) value false true) (elementBytes k (wireOf value)) := by
  rw [writeElement]
  simp only [RValue.keyString?_string, Bool.not_true, Bool.false_and, Bool.false_eq_true,
    if_false, pure_bind]
  have hname := succeeds_writeNameAndType hk hkc
  cases value <;> dsimp only
  case integer n =>
    simp only [RValue.encodable, decide_eq_true_eq] at he
    rw [if_neg (by omega)]
    split_ifs with h32 <;> simp only [wireOf, h32, if_true, if_false] <;>
      exact ((hname _).bind fun _ => succeeds_safeWrite _).imp
        (by simp [elementBytes, payload, BValue.tag])
  case bool _ | float _ =>
    exact ((hname _).bind fun _ => succeeds_safeWrite _).imp
      (by simp [elementBytes, payload, BValue.tag, wireOf])
  case nil | maxKey | minKey =>
    exact (hname _).imp (by simp [elementBytes, payload, BValue.tag, wireOf])
  case hash entries =>
    exact ((hname _).bind fun _ =>
      succeeds_writeDocFrame (succeeds_writeEntries entries hv he)).imp
        (by simp [elementBytes, payload, BValue.tag, wireOf])
  case array items =>
    simp only [RValue.wireSafe, Bool.and_eq_true, decide_eq_true_eq] at hv
    rw [toInt32_of_fits ⟨by omega, by omega⟩]
    exact ((hname _).bind fun _ => succeeds_writeFrame
      ((succeeds_writeArrayItems items 0 _ hv.2 he (by simp) (by omega)).bind fun _ =>
        succeeds_safeWrite [0])).imp
        (by rw [le32_frame]; simp [elementBytes, payload, BValue.tag, wireOf])
  case string s | chars s =>
    simp only [RValue.wireSafe, decide_eq_true_eq] at hv
    simp only [RValue.encodable, decide_eq_true_eq] at he
    rw [toInt32_of_fits ⟨by omega, by omega⟩]
    exact ((hname _).bind fun _ => (succeeds_safeWrite _).bind fun _ =>
      (succeeds_writeUtf8 hv he).bind fun _ => succeeds_safeWrite _).imp
        (by simp [elementBytes, payload, BValue.tag, wireOf, lenString])
  case symbol name =>
    simp only [RValue.wireSafe, decide_eq_true_eq] at hv
    rw [toInt32_of_fits ⟨by omega, by omega⟩]
    exact ((hname _).bind fun _ => (succeeds_safeWrite _).bind fun _ =>
      succeeds_safeWriteN (cstr name ++ [0]) (by simp)).imp
        (by simp [elementBytes, payload, BValue.tag, wireOf, lenString])
  case binary data subtype =>
    simp only [RValue.wireSafe, decide_eq_true_eq] at hv
    simp only [RValue.encodable] at he
    exact succeeds_liftExcept_bind (RInt.fix2int_of_inRange he)
      ((succeeds_writeBinary hk hkc hv _).imp (by simp [elementBytes, payload, BValue.tag, wireOf]))
  case byteBuffer data =>
    simp only [RValue.wireSafe, decide_eq_true_eq] at hv
    exact (succeeds_writeBinary hk hkc hv _).imp (by simp [elementBytes, payload, BValue.tag, wireOf])
  case objectId data =>
    simp only [RValue.encodable, Bool.and_eq_true, decide_eq_true_eq, List.all_eq_true] at he
    exact ((hname _).bind fun _ => succeeds_writeObjectIdBytes 12 data he.1 he.2).imp
      (by simp [elementBytes, payload, BValue.tag, wireOf])
  case dbref ns oid =>
    simp only [RValue.wireSafe, Bool.and_eq_true] at hv
    simp only [RValue.encodable, Bool.and_eq_true] at he
    exact ((hname _).bind fun _ => succeeds_writeFrame
      ((succeeds_writeElement (ascii "$ref") (by decide) (by decide) ns hv.1 he.1).bind fun _ =>
        (succeeds_writeElement (ascii "$id") (by decide) (by decide) oid hv.2 he.2).bind fun _ =>
          succeeds_safeWrite [0])).imp
      (by
        simp only [elementBytes, payload, BValue.tag, wireOf, frame, fieldsBytes,
          List.length_append, List.length_singleton, List.append_assoc, List.append_nil]
        push_cast
        ring_nf)
  case code code scope =>
    simp only [RValue.wireSafe, Bool.and_eq_true, decide_eq_true_eq] at hv
    rw [toInt32_of_fits ⟨by omega, by omega⟩, wireOf_code]
    cases scope <;> simp only [RValue.encodable, Bool.false_eq_true] at he
    case hash entries =>
      rw [writeDoc]
      simp only [Bool.false_eq_true, if_false]
      exact ((hname _).bind fun _ => succeeds_writeFrame
        ((succeeds_safeWrite _).bind fun _ => (succeeds_safeWriteN code (by omega)).bind fun _ =>
          (succeeds_safeWrite _).bind fun _ =>
            succeeds_writeDocFrame (succeeds_writeEntries entries hv.2 he))).imp
        (by
          simp only [elementBytes, payload, BValue.tag, codeBytes, lenString, docBytes,
            scopeFields, List.length_append, length_le32, List.length_singleton,
            List.append_assoc]
          push_cast
          ring_nf)
  case timestamp seconds increment =>
    simp only [RValue.encodable, Bool.and_eq_true] at he
    exact ((hname _).bind fun _ => succeeds_liftExcept_bind (RInt.num2uint_of_inRange he.1)
      (succeeds_liftExcept_bind (RInt.num2uint_of_inRange he.2) ((succeeds_safeWrite _).bind fun _ =>
        succeeds_safeWrite _))).imp
      (by simp [elementBytes, payload, BValue.tag, wireOf])
  case time millis =>
    simp only [RValue.encodable, decide_eq_true_eq] at he
    rw [if_pos he]
    exact ((hname _).bind fun _ => succeeds_safeWrite _).imp
      (by simp [elementBytes, payload, BValue.tag, wireOf])
  case bsonRegex pattern options extra =>
    simp only [RValue.wireSafe, Bool.and_eq_true, decide_eq_true_eq] at hv
    simp only [RValue.encodable, decide_eq_true_eq] at he
    exact (succeeds_serializeRegex hk hkc hv.1 he (.inr options) hv.2).imp
      (by simp [elementBytes, payload, BValue.tag, wireOf, regexFlags])
  case regexp source options extra =>
    simp only [RValue.wireSafe, Bool.and_eq_true, decide_eq_true_eq] at hv
    simp only [RValue.encodable, decide_eq_true_eq] at he
    exact (succeeds_serializeRegex hk hkc hv.1 he (.inl options) hv.2).imp
      (by simp [elementBytes, payload, BValue.tag, wireOf, regexFlags])
  case object | data | other =>
    simp [RValue.encodable] at he
termination_by structural value

/-- The array loop over items that pass writes them all under their indices. -/
theorem succeeds_writeArrayItems : (values : List RValue) → (i : Nat) → (n : Int) →
    itemsSafe values = true → itemsEncodable values = true → i + values.length ≤ n →
    n < 2 ^ 31 → Succeeds (writeArrayItems values i n false) (itemsBytes i (wireItems values))
  | [], _, _, _, _, _, _ => (Succeeds.pure ()).imp rfl
  | v :: rest, i, n, hv, he, hi, hn => by
    simp only [itemsSafe, itemsEncodable, Bool.and_eq_true] at hv he
    simp only [List.length_cons] at hi
    rw [writeArrayItems, if_pos (by omega)]
    have hkey : (decimal i).length < 2 ^ 31 := by have := length_decimal_le i; omega
    exact ((succeeds_writeElement (decimal i) hkey (cText_decimal i) v hv.1 he.1).bind fun _ =>
      succeeds_writeArrayItems rest (i + 1) n hv.2 he.2 (by omega) hn).imp
        (by simp [wireItems, itemsBytes_cons])
termination_by structural values => values

/-- `rb_hash_foreach` over entries that pass writes their fields. -/
theorem succeeds_writeEntries : (entries : List (RValue × RValue)) → entriesSafe entries = true →
    entriesEncodable entries = true →
    Succeeds (writeEntries entries false true) (fieldsBytes (wireFields entries))
  | [], _, _ => (Succeeds.pure ()).imp rfl
  | (key, v) :: rest, hv, he => by
    simp only [entriesSafe, entriesEncodable, Bool.and_eq_true, decide_eq_true_eq] at hv he
    obtain ⟨k, hk, hkc⟩ : ∃ k, key.keyString? = some k ∧ CText k := by
      have hkey := he.1.1
      unfold keyEncodable at hkey
      cases hks : key.keyString? with
      | none => rw [hks] at hkey; cases hkey
      | some k => rw [hks] at hkey; exact ⟨k, rfl, of_decide_eq_true hkey⟩
    have hkey : keyOf key = k := by simp [keyOf, hk]
    rw [writeEntries]
    exact ((succeeds_element_key hk (succeeds_writeElement k (hkey ▸ hv.1.1) hkc v hv.1.2
      he.1.2)).bind fun _ => succeeds_writeEntries rest hv.2 he.2).imp
        (by simp [wireFields, fieldsBytes_cons, hkey])
termination_by structural entries => entries

end

/-! ## What a successful run vouches for -/

namespace Ensures

theorem imp {x : Enc α} {P Q : Prop} (hx : Ensures x P) (h : P → Q) : Ensures x Q :=
  fun s a s' hr => h (hx s a s' hr)

theorem and {x : Enc α} {P Q : Prop} (hp : Ensures x P) (hq : Ensures x Q) : Ensures x (P ∧ Q) :=
  fun s a s' hr => ⟨hp s a s' hr, hq s a s' hr⟩

theorem ite {c : Prop} [Decidable c] {x y : Enc α} {P : Prop} (hx : c → Ensures x P)
    (hy : ¬c → Ensures y P) : Ensures (if c then x else y) P := by
  split
  · exact hx ‹_›
  · exact hy ‹_›

theorem freeAndRaise (e : RbError) (P : Prop) : Ensures (CBson.freeAndRaise e) P :=
  fun _ _ _ h => by cases h

theorem throw (e : RbError) (P : Prop) : Ensures (MonadExcept.throw e : Enc α) P :=
  fun _ _ _ h => by cases h

end Ensures

theorem ensures_liftExcept_bind {e : Except RbError α} {f : α → Enc β} {P : Prop}
    (hf : ∀ a, e = .ok a → Ensures (f a) P) : Ensures (liftExcept e >>= f) P := by
  cases e with
  | error e => exact fun _ _ _ h => by cases h
  | ok a => exact fun s b s' h => hf a rfl s b s' (by rwa [Enc.bind_of_ok (by rfl :
      liftExcept (.ok a) s = .ok a s)] at h)

theorem ensures_writeUtf8 (b : Bytes) (allowNull : Bool) :
    Ensures (writeUtf8 b allowNull) (validateUtf8Encoding b allowNull = .valid) := by
  unfold writeUtf8
  cases validateUtf8Encoding b allowNull
  · exact fun _ _ _ _ => rfl
  · exact .freeAndRaise _ _
  · exact .freeAndRaise _ _

theorem ensures_writeNameAndType (name : Bytes) (type : UInt8) :
    Ensures (writeNameAndType name type) (CText name) :=
  .bind_right fun _ => .bind_left ((ensures_writeUtf8 name false).imp validate_false_valid)

theorem ensures_writeBinary (key data : Bytes) (subtype : UInt8) :
    Ensures (writeBinary key data subtype) (CText key) :=
  .bind_left (ensures_writeNameAndType key 0x05)

theorem ensures_writeObjectIdBytes : (k : Nat) → (data : List RInt) →
    Ensures (writeObjectIdBytes k data)
      (k ≤ data.length ∧ ∀ x ∈ data.take k, x.inRange (-2 ^ 31) (2 ^ 31) = true)
  | 0, _ => fun _ _ _ _ => ⟨Nat.zero_le _, by simp⟩
  | k + 1, data => by
    rw [writeObjectIdBytes]
    refine ensures_liftExcept_bind fun byte hb => ?_
    cases data with
    | nil => exact absurd (RInt.inRange_of_fix2int hb).1 (by decide)
    | cons v rest =>
      exact (Ensures.bind_right fun _ => ensures_writeObjectIdBytes k rest).imp fun h =>
        ⟨by simpa using h.1, by simpa using ⟨(RInt.inRange_of_fix2int hb).1, h.2⟩⟩

theorem ensures_serializeRegex (key pattern : Bytes) (flags : RegexpOptions ⊕ RegexOptions)
    (extra : Option Bytes) :
    Ensures (serializeRegex key pattern flags extra) (CText key ∧ CText pattern) :=
  (Ensures.bind_left (ensures_writeNameAndType key 0x0B)).and
    (.bind_right fun _ => .bind_left ((ensures_writeUtf8 pattern false).imp validate_false_valid))

/-- `write_doc` returns only for a hash. -/
theorem ensures_writeDoc_hash (hash : RValue) (ck moveId : Bool) :
    Ensures (writeDoc hash ck moveId) (∃ entries, hash = .hash entries) := by
  cases hash
  case hash entries => exact fun _ _ _ _ => ⟨entries, rfl⟩
  all_goals
    intro s a s' h
    simp only [writeDoc, Enc.bind_eq_ok] at h
    obtain ⟨_, _, _, h⟩ := h
    split at h <;> cases h

/-- The join point of `if checkKeys then checkKey key`. -/
theorem ensures_keyTest_bind (ck : Bool) (k : Bytes) {f : Unit → Enc β} {P : Prop}
    (hf : Ensures (f ()) P) : Ensures (if ck then checkKey k >>= f else Pure.pure () >>= f) P := by
  cases ck
  · simpa using hf
  · exact .bind_right fun _ => hf

mutual

/-- A successful `write_element` of a safe value vouches that its key and value pass the
encoder's tests. -/
theorem ensures_encodable_writeElement (key value : RValue) (ck : Bool)
    (hv : value.wireSafe = true) :
    Ensures (writeElement key value ck true) (keyEncodable key = true ∧ value.encodable = true) := by
  rw [writeElement]
  cases hk : key.keyString? with
  | none => exact .freeAndRaise _ _
  | some k =>
    dsimp only
    simp only [Bool.not_true, Bool.false_and, Bool.false_eq_true, if_false]
    have hkey : CText k → keyEncodable key = true := fun h => by
      simp only [keyEncodable, hk, Option.any_some, decide_eq_true_eq]
      exact h
    refine ensures_keyTest_bind ck k ?_
    have hname := fun type => (ensures_writeNameAndType k type).imp hkey
    cases value <;> dsimp only
    case integer n =>
      refine Ensures.ite (fun _ => .freeAndRaise _ _) fun h64 => ?_
      have hn : RValue.encodable (.integer n) = true := by
        simp only [RValue.encodable, decide_eq_true_eq]; omega
      exact Ensures.ite (fun _ => (Ensures.bind_left (hname _)).imp (⟨·, hn⟩))
        fun _ => (Ensures.bind_left (hname _)).imp (⟨·, hn⟩)
    case hash entries =>
      exact (Ensures.bind_left (hname _)).and (.bind_right fun _ =>
        ensures_writeDocFrame (ensures_encodable_writeEntries entries ck hv))
    case array items =>
      simp only [RValue.wireSafe, Bool.and_eq_true, decide_eq_true_eq] at hv
      rw [toInt32_of_fits ⟨by omega, by omega⟩]
      exact (Ensures.bind_left (hname _)).and (.bind_right fun _ => ensures_writeFrame (.bind_left
        ((ensures_encodable_writeArrayItems items 0 _ ck hv.2).imp fun h => h (by simp))))
    case string s | chars s =>
      exact (Ensures.bind_left (hname _)).and (.bind_right fun _ => .bind_right fun _ =>
        .bind_left ((ensures_writeUtf8 s true).imp fun h => by
          simpa [RValue.encodable] using h))
    case binary data subtype =>
      refine ensures_liftExcept_bind fun st hst => ?_
      exact (ensures_writeBinary k data _).imp fun h =>
        ⟨hkey h, by simpa [RValue.encodable] using (RInt.inRange_of_fix2int hst).1⟩
    case byteBuffer data =>
      exact (ensures_writeBinary k data _).imp fun h => ⟨hkey h, rfl⟩
    case objectId data =>
      exact (Ensures.bind_left (hname _)).and (.bind_right fun _ =>
        (ensures_writeObjectIdBytes 12 data).imp fun h => by simpa [RValue.encodable] using h)
    case dbref ns oid =>
      simp only [RValue.wireSafe, Bool.and_eq_true] at hv
      exact (Ensures.bind_left (hname _)).and (.bind_right fun _ => ensures_writeFrame
        ((Ensures.bind_left (ensures_encodable_writeElement _ ns false hv.1)).and
          (.bind_right fun _ => .bind_left (ensures_encodable_writeElement _ oid false hv.2)))
        |>.imp fun h => by simp [RValue.encodable, h.1.2, h.2.2])
    case code code scope =>
      simp only [RValue.wireSafe, Bool.and_eq_true] at hv
      refine (Ensures.bind_left (hname _)).and (.bind_right fun _ => ensures_writeFrame
        (.bind_right fun _ => .bind_right fun _ => .bind_right fun _ => ?_))
      cases scope
      case hash entries =>
        rw [writeDoc]
        simp only [Bool.false_eq_true, if_false]
        exact ensures_writeDocFrame (ensures_encodable_writeEntries entries false hv.2)
      all_goals exact (ensures_writeDoc_hash _ false false).imp fun ⟨_, h⟩ => by cases h
    case timestamp seconds increment =>
      exact (Ensures.bind_left (hname _)).and (.bind_right fun _ =>
        ensures_liftExcept_bind fun _ hs => ensures_liftExcept_bind fun _ hi => fun _ _ _ _ => by
          simp only [RValue.encodable, Bool.and_eq_true]
          exact ⟨(RInt.inRange_of_num2uint hs).1, (RInt.inRange_of_num2uint hi).1⟩)
    case time millis =>
      exact Ensures.ite (fun hr => (Ensures.bind_left (hname _)).imp fun h =>
        ⟨h, by simpa [RValue.encodable] using hr⟩)
        fun _ => .throw _ _
    case bsonRegex pattern _ extra | regexp pattern _ extra =>
      exact (ensures_serializeRegex k pattern _ extra).imp fun h =>
        ⟨hkey h.1, by simpa [RValue.encodable] using h.2⟩
    all_goals first
      | exact (hname _).imp (⟨·, rfl⟩)
      | exact (Ensures.bind_left (hname _)).imp (⟨·, rfl⟩)
      | exact .freeAndRaise _ _
termination_by structural value

/-- A successful array loop over safe items vouches for every item it reaches. -/
theorem ensures_encodable_writeArrayItems : (values : List RValue) → (i : Nat) → (n : Int) →
    (ck : Bool) → itemsSafe values = true →
    Ensures (writeArrayItems values i n ck) (i + values.length ≤ n → itemsEncodable values = true)
  | [], _, _, _, _ => fun _ _ _ _ _ => rfl
  | v :: rest, i, n, ck, hv => by
    simp only [itemsSafe, Bool.and_eq_true] at hv
    rw [writeArrayItems]
    refine Ensures.ite (fun _ => ?_) fun hi => fun _ _ _ _ hlen => absurd (by simp at hlen; omega) hi
    exact ((Ensures.bind_left (ensures_encodable_writeElement _ v ck hv.1)).and
      (.bind_right fun _ => ensures_encodable_writeArrayItems rest (i + 1) n ck hv.2)).imp
        fun h hlen => by
          simp only [List.length_cons] at hlen
          simp [itemsEncodable, h.1.2, h.2 (by omega)]
termination_by structural values => values

/-- A successful `rb_hash_foreach` over safe entries vouches for every entry. -/
theorem ensures_encodable_writeEntries : (entries : List (RValue × RValue)) → (ck : Bool) →
    entriesSafe entries = true →
    Ensures (writeEntries entries ck true) (entriesEncodable entries = true)
  | [], _, _ => fun _ _ _ _ => rfl
  | (key, v) :: rest, ck, hv => by
    simp only [entriesSafe, Bool.and_eq_true] at hv
    rw [writeEntries]
    exact ((Ensures.bind_left (ensures_encodable_writeElement key v ck hv.1.2)).and
      (.bind_right fun _ => ensures_encodable_writeEntries rest ck hv.2)).imp fun h => by
        simp [entriesEncodable, h.1.1, h.1.2, h.2]
termination_by structural entries => entries

end

/-! ## Whole documents -/

/-- The last write of a hash frame is its NUL, which the allocator granted. -/
theorem writeDocFrame_length_le_capacity {body : Enc Unit} {s s' : Buffer}
    (h : writeDocFrame body s = .ok () s') : s'.bytes.length ≤ s'.capacity := by
  simp only [writeDocFrame, Enc.bind_eq_ok, getPosition_apply, EStateM.Result.ok.injEq] at h
  obtain ⟨_, _, ⟨rfl, rfl⟩, _, _, -, _, s₂, -, _, s₃, hnul, ℓ, s₄, hℓ, hpatch⟩ := h
  obtain ⟨hroom, rfl⟩ := safeWrite_eq_ok.1 hnul
  rw [checkedLength_apply] at hℓ
  split at hℓ
  · cases hℓ
  obtain ⟨-, rfl⟩ : _ ∧ s₂.append [0] = s₄ := by simpa using hℓ
  obtain ⟨hs', hlen⟩ := safeWriteAtPos_frame hpatch
  have hcap : s'.capacity = s₂.capacity := by rw [hs']; rfl
  rw [hlen, hcap]
  simpa using hroom

/-- A successful `write_doc` ends within the allocator's grant. -/
theorem writeDoc_length_le_capacity {hash : RValue} {ck moveId : Bool} {s s' : Buffer}
    (h : writeDoc hash ck moveId s = .ok () s') : s'.bytes.length ≤ s.capacity := by
  have hcap : s'.capacity = s.capacity := by rw [((grows_writeDoc hash ck moveId).grows _ _ _ h).1]
  obtain ⟨entries, rfl⟩ := ensures_writeDoc_hash hash ck moveId _ _ _ h
  rw [writeDoc] at h
  exact hcap ▸ writeDocFrame_length_le_capacity h

theorem serialize_length_le_capacity {d : RValue} {ck moveId : Bool} {m : Int} {capacity : Nat}
    {b : Bytes} (h : serialize d ck moveId m capacity = .ok b) : b.length ≤ capacity := by
  obtain ⟨-, s', hrun, rfl⟩ := serialize_eq_ok.1 h
  exact writeDoc_length_le_capacity hrun

theorem writeDoc_hash_false (entries : List (RValue × RValue)) (ck : Bool) :
    writeDoc (.hash entries) ck false = writeDocFrame (writeEntries entries ck true) := by
  rw [writeDoc]
  simp only [Bool.false_eq_true, if_false]

/-- A hash whose entries pass is serialized to its canonical bytes once they fit under the cap
and in the grant. -/
theorem serialize_hash_ok {entries : List (RValue × RValue)} (hsafe : entriesSafe entries = true)
    (he : entriesEncodable entries = true) {m : Int} (hm : FitsInt32 m) {capacity : Nat}
    (hsize : ((docBytes (wireFields entries)).length : Int) ≤ m)
    (hcap : (docBytes (wireFields entries)).length ≤ capacity) :
    serialize (.hash entries) false false m capacity = .ok (docBytes (wireFields entries)) := by
  obtain ⟨_, hrun⟩ := succeeds_writeDocFrame (succeeds_writeEntries entries hsafe he)
    (startBuffer m capacity) (by simpa [startBuffer, docBytes] using hcap)
    (by simpa [startBuffer, docBytes] using hsize)
  rw [← writeDoc_hash_false] at hrun
  exact serialize_eq_ok.2 ⟨hm, _, hrun, by simp [startBuffer, docBytes]⟩

/-- The second run has the allocator grant `c`; it may stop at an allocation, with
`NoMemError`, only when `c` is less than the bound. -/
theorem compat_grant (n c : Nat) :
    Compat (fun s t => t.bytes = s.bytes ∧ t.maxSize = s.maxSize ∧ t.capacity = c) n
      (fun e => c < n ∧ ∃ msg, e = .noMemError msg) where
  bytes_eq h := h.1
  room h _ hn := (le_or_lt _ c).imp (fun hc => h.2.2 ▸ hc) fun hc msg => ⟨by omega, msg, rfl⟩
  update _ h := ⟨rfl, h.2.1, h.2.2⟩
  check h h₁ _ := .inl (h.2.1 ▸ h₁)

theorem start_grant (m : Int) (c c' : Nat) :
    (startBuffer m c').bytes = (startBuffer m c).bytes ∧
      (startBuffer m c').maxSize = (startBuffer m c).maxSize ∧ (startBuffer m c').capacity = c' :=
  ⟨rfl, rfl, rfl⟩

/-- The allocator's grant filters like the cap: for grants `c ≤ c'`, `serialize` returns
bytes under `c` exactly when it returns them under `c'` and they fit in `c`; when they do
not fit, it raises `NoMemError`. -/
theorem serialize_capacity_filter (d : RValue) (checkKeys moveId : Bool) (m : Int) {c c' : Nat}
    (hc : c ≤ c') :
    (∀ b, serialize d checkKeys moveId m c = .ok b ↔
      serialize d checkKeys moveId m c' = .ok b ∧ b.length ≤ c) ∧
    (∀ b, serialize d checkKeys moveId m c' = .ok b → c < b.length →
      ∃ msg, serialize d checkKeys moveId m c = .error (.noMemError msg)) := by
  -- the run under `c₂` follows the run under `c₁`, or stops at an allocation past `c₂`
  have run := fun c₁ c₂ b (h : serialize d checkKeys moveId m c₁ = .ok b) =>
    serialize_sim (compat_grant _ c₂)
      (sim_writeDoc (compat_grant _ c₂) d checkKeys checkKeys moveId (KeySims.refl _ _)) h
      (serialize_eq_ok.1 h).1 (start_grant m c₁ c₂) le_rfl
  refine ⟨fun b => ⟨fun h => ?_, fun ⟨h, hb⟩ => ?_⟩, fun b h hb => ?_⟩
  · have hb := serialize_length_le_capacity h
    rcases run c c' b h with h' | ⟨_, ⟨hlt, -⟩, -⟩
    · exact ⟨h', hb⟩
    · omega
  · rcases run c' c b h with h' | ⟨_, ⟨hlt, -⟩, -⟩
    · exact h'
    · omega
  · rcases run c' c b h with h' | ⟨_, ⟨-, msg, rfl⟩, he⟩
    · exact absurd (serialize_length_le_capacity h') (by omega)
    · exact ⟨msg, he⟩

theorem serialize_capacity_filter_empty :
    (4 : Nat) ≤ 64 ∧
      ((∀ b, serialize (.hash []) false false 16 4 = .ok b ↔
        serialize (.hash []) false false 16 64 = .ok b ∧ b.length ≤ 4) ∧
      (∀ b, serialize (.hash []) false false 16 64 = .ok b → 4 < b.length →
        ∃ msg, serialize (.hash []) false false 16 4 = .error (.noMemError msg))) :=
  ⟨by decide, serialize_capacity_filter (.hash []) false false 16 (by decide)⟩

end CBson
