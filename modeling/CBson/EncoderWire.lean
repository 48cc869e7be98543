import CBson.Wire
import CBson.MoveId
import CBson.CheckKeys

/-!
# The encoder writes the wire format

`wireOf` reads a Ruby value as the BSON value `write_element` means to write for it:
an `Integer` as `int32` or `int64` by its range, a `Symbol` as its C string, a
`BSON::DBRef` as the document `{"$ref": ns, "$id": id}`, a regex with its option letters
followed by its `extra_options_str` sorted, and so on.  The encoder does write exactly
`elementBytes key (wireOf value)` whenever it succeeds, provided the texts reach the wire
intact (`RValue.wireSafe`): every length the code takes from Ruby through
`RSTRING_LENINT`, `(int)strlen` or `RARRAY_LENINT` fits an `int`, so that no cast wraps,
and every `extra_options_str` is free of NUL, which `serialize_regex` copies unchecked.
Success also vouches for what the encoder does check: keys and regex patterns passed
`write_utf8` without NUL, `String` values passed it, integers and times were in range, an
ObjectId had twelve entries.

## Strategy

`Writes x w P` says that every successful run of `x` appends `w` and establishes `P`.
It is closed under `>>=` (`Writes.bind`), each primitive has its `Writes` lemma, and the
two write-then-patch frames turn a body's bytes `w` into `le32 (|w| + 4) ++ w` and
`frame w` (`writes_writeFrame`, `writes_writeDocFrame`).  The encoder's mutual functions
are then followed one constructor at a time (`writes_writeElement` and its siblings).
-/

namespace CBson

/-! ## What the encoder means to write -/

/-- The key bytes `write_element` works with, or nothing for a key it refuses. -/
def keyOf (key : RValue) : Bytes := key.keyString?.getD []

/-- `extra_options_str` after the `qsort` of `serialize_regex`. -/
def sortedExtra (extra : Option Bytes) : Bytes :=
  match extra with
  | some e => List.mergeSort e cmpCharLe
  | none => []

mutual

/-- The BSON value `write_element` writes for a Ruby value. -/
def wireOf : RValue → BValue
  | .integer n =>
    if n > 2147483647 ∨ n < -2147483648 then .int64 n else .int32 n
  | .bool b => .bool b
  | .float bits => .double bits
  | .nil => .null
  | .hash entries => .document (wireFields entries)
  | .array items => .array (wireItems items)
  | .string s => .string s
  | .symbol name => .symbol (cstr name)
  | .chars s => .string s
  | .binary data subtype => .binary (charOf subtype.num) data
  | .byteBuffer data => .binary 2 data
  | .objectId data => .objectId ((data.take 12).map fun v => charOf v.num)
  | .dbref ns id => .document [(ascii "$ref", wireOf ns), (ascii "$id", wireOf id)]
  | .code code scope =>
    .codeWScope code (match scope with
      | .hash entries => wireFields entries
      | _ => [])
  | .maxKey => .maxKey
  | .minKey => .minKey
  | .timestamp seconds increment =>
    .timestamp (increment.num % 2 ^ 32).toNat (seconds.num % 2 ^ 32).toNat
  | .time millis => .utcDateTime millis
  | .bsonRegex pattern options extra => .regex pattern (bsonRegexFlags options ++ sortedExtra extra)
  | .regexp source options extra => .regex source (nativeFlags options ++ sortedExtra extra)
  | .object _ | .data _ | .other .. => .null

/-- The fields of a hash, keys as `write_element` reads them. -/
def wireFields : List (RValue × RValue) → List (Bytes × BValue)
  | [] => []
  | (k, v) :: rest => (keyOf k, wireOf v) :: wireFields rest

/-- The items of an array. -/
def wireItems : List RValue → List BValue
  | [] => []
  | v :: rest => wireOf v :: wireItems rest

end

/-- The fields `write_doc` writes for a hash; anything else it refuses. -/
def scopeFields : RValue → List (Bytes × BValue)
  | .hash entries => wireFields entries
  | _ => []

theorem wireOf_code (code : Bytes) (scope : RValue) :
    wireOf (.code code scope) = .codeWScope code (scopeFields scope) := by
  cases scope <;> rfl

/-- An `extra_options_str` that reaches the wire intact. -/
def extraSafe (extra : Option Bytes) : Bool :=
  match extra with
  | some e => decide (e.length < 2 ^ 31 ∧ (0 : UInt8) ∉ e)
  | none => true

mutual

/-- The texts of a value reach the wire intact: every length the encoder takes from Ruby
fits a C `int`, and every `extra_options_str` is free of NUL. -/
def RValue.wireSafe : RValue → Bool
  | .hash entries => entriesSafe entries
  | .array items => decide (items.length < 2 ^ 31) && itemsSafe items
  | .string s => decide (s.length < 2 ^ 31)
  | .chars s => decide (s.length < 2 ^ 31)
  | .symbol name => decide ((cstr name).length < 2 ^ 31)
  | .binary data _ => decide (data.length < 2 ^ 31)
  | .byteBuffer data => decide (data.length < 2 ^ 31)
  | .dbref ns id => ns.wireSafe && id.wireSafe
  | .code code scope => decide (code.length < 2 ^ 31) && scope.wireSafe
  | .bsonRegex pattern _ extra => decide (pattern.length < 2 ^ 31) && extraSafe extra
  | .regexp source _ extra => decide (source.length < 2 ^ 31) && extraSafe extra
  | .integer _ | .bool _ | .float _ | .nil | .objectId _ | .maxKey | .minKey | .timestamp ..
  | .time _ | .object _ | .data _ | .other .. => true

/-- Every key and value of a hash is safe. -/
def entriesSafe : List (RValue × RValue) → Bool
  | [] => true
  | (k, v) :: rest => decide ((keyOf k).length < 2 ^ 31) && v.wireSafe && entriesSafe rest

/-- Every item of an array is safe. -/
def itemsSafe : List RValue → Bool
  | [] => true
  | v :: rest => v.wireSafe && itemsSafe rest

end

/-! ## Text validity on the wire -/

mutual

/-- The text checks `write_utf8` makes, read on the wire: `String` payloads and regex
patterns are UTF-8, and so is every key. -/
def BValue.textOk : BValue → Bool
  | .string s => decide (Utf8Valid s)
  | .document fields => fieldsTextOk fields
  | .array items => itemsTextOk items
  | .regex pattern _ => decide (Utf8Valid pattern)
  | .codeWScope _ scope => fieldsTextOk scope
  | .double _ | .binary .. | .objectId _ | .bool _ | .utcDateTime _ | .null | .dbPointer ..
  | .javascript _ | .symbol _ | .int32 _ | .timestamp .. | .int64 _ | .maxKey | .minKey => true

/-- Every key UTF-8, every value's texts valid. -/
def fieldsTextOk : List (Bytes × BValue) → Bool
  | [] => true
  | (key, v) :: rest => decide (Utf8Valid key) && v.textOk && fieldsTextOk rest

/-- Every item's texts valid. -/
def itemsTextOk : List BValue → Bool
  | [] => true
  | v :: rest => v.textOk && itemsTextOk rest

end

/-! ## Runs that append -/

variable {α β : Type}

/-- Every successful run of `x` appends `w` to the bytes and establishes `P`. -/
def Writes (x : Enc α) (w : Bytes) (P : Prop) : Prop :=
  ∀ s a s', x s = .ok a s' → s'.bytes = s.bytes ++ w ∧ P

namespace Writes

theorem bind {x : Enc α} {f : α → Enc β} {w₁ w₂ : Bytes} {P₁ P₂ : Prop} (hx : Writes x w₁ P₁)
    (hf : ∀ a, Writes (f a) w₂ P₂) : Writes (x >>= f) (w₁ ++ w₂) (P₁ ∧ P₂) := by
  intro s b s'' h
  obtain ⟨a, s', h1, h2⟩ := Enc.bind_eq_ok.1 h
  obtain ⟨e1, p1⟩ := hx _ _ _ h1
  obtain ⟨e2, p2⟩ := hf a _ _ _ h2
  exact ⟨by rw [e2, e1, List.append_assoc], p1, p2⟩

theorem imp {x : Enc α} {w w' : Bytes} {P Q : Prop} (hx : Writes x w P) (hw : w = w')
    (hPQ : P → Q) : Writes x w' Q := fun s a s' h =>
  let ⟨e, p⟩ := hx s a s' h
  ⟨hw ▸ e, hPQ p⟩

theorem pure (a : α) : Writes (Pure.pure a : Enc α) [] True := fun s _ s' h => by
  cases h; simp

theorem throw (e : RbError) (w : Bytes) (P : Prop) : Writes (MonadExcept.throw e : Enc α) w P :=
  fun _ _ _ h => by cases h

theorem freeAndRaise (e : RbError) (w : Bytes) (P : Prop) : Writes (CBson.freeAndRaise e) w P :=
  fun _ _ _ h => by cases h

theorem ite {c : Prop} [Decidable c] {x y : Enc α} {w : Bytes} {P : Prop}
    (hx : c → Writes x w P) (hy : ¬c → Writes y w P) : Writes (if c then x else y) w P := by
  split
  · exact hx ‹_›
  · exact hy ‹_›

end Writes

theorem writes_liftExcept_bind {e : Except RbError α} {f : α → Enc β} {w : Bytes} {P : Prop}
    (hf : ∀ a, e = .ok a → Writes (f a) w P) : Writes (liftExcept e >>= f) w P := by
  cases e with
  | error e => exact fun _ _ _ h => by cases h
  | ok a =>
    intro s b s' h
    exact hf a rfl s b s' (by rwa [Enc.bind_of_ok (by rfl : liftExcept (.ok a) s = .ok a s)] at h)

theorem writes_safeWrite (d : Bytes) : Writes (safeWrite d) d True := fun _ _ _ h =>
  ⟨by obtain ⟨-, rfl⟩ := safeWrite_eq_ok.1 h; rfl, trivial⟩

/-- `SAFE_WRITE` of a C `int` size writes the first `size` bytes. -/
theorem writes_safeWriteN_take (src : Bytes) (size : Int) :
    Writes (safeWriteN src size) (src.take size.toNat) True := fun _ _ _ hx => by
  obtain ⟨-, -, -, rfl⟩ := safeWriteN_eq_ok.1 hx
  simp

theorem writes_safeWriteN (src : Bytes) {size : Int} (h : size = src.length) :
    Writes (safeWriteN src size) src True :=
  (writes_safeWriteN_take src size).imp (by simp [h]) id

theorem writes_checkKey (k : Bytes) : Writes (checkKey k) [] True := fun _ _ _ h => by
  obtain ⟨-, rfl⟩ := checkKey_eq_ok.1 h
  simp

/-- `write_utf8` writes the first `(int)RSTRING_LEN` bytes of the string it checks. -/
theorem writes_writeUtf8_take (b : Bytes) (allowNull : Bool) :
    Writes (writeUtf8 b allowNull) (b.take (toInt32 b.length).toNat)
      (validateUtf8Encoding b allowNull = .valid) := by
  unfold writeUtf8
  cases hv : validateUtf8Encoding b allowNull
  · exact (writes_safeWriteN_take b _).imp rfl fun _ => rfl
  · exact Writes.freeAndRaise _ _ _
  · exact Writes.freeAndRaise _ _ _

theorem writes_writeUtf8 {b : Bytes} (h : b.length < 2 ^ 31) (allowNull : Bool) :
    Writes (writeUtf8 b allowNull) b (validateUtf8Encoding b allowNull = .valid) :=
  (writes_writeUtf8_take b allowNull).imp (by rw [toInt32_of_fits ⟨by omega, by omega⟩]; simp) id

/-- A key or a regex pattern: a C string that is UTF-8. -/
def CText (b : Bytes) : Prop := NulFree b ∧ Utf8Valid b

theorem writes_writeNameAndType_take (name : Bytes) (type : UInt8) :
    Writes (writeNameAndType name type) ([type] ++ (name.take (toInt32 name.length).toNat ++ [0]))
      (CText name) := by
  have h := (writes_safeWrite [type]).bind fun _ => (writes_writeUtf8_take name false).bind fun _ =>
    writes_safeWrite [0]
  exact h.imp rfl fun h => validate_false_valid h.2.1

theorem writes_writeNameAndType {name : Bytes} (h : name.length < 2 ^ 31) (type : UInt8) :
    Writes (writeNameAndType name type) ([type] ++ name ++ [0]) (CText name) :=
  (writes_writeNameAndType_take name type).imp
    (by rw [toInt32_of_fits ⟨by omega, by omega⟩]; simp) id

/-- Patching the slot reserved after `pre`. -/
theorem safeWriteAtPos_slot {pre w d : Bytes} {s s' : Buffer} {u : Unit}
    (hs : s.bytes = pre ++ [0, 0, 0, 0] ++ w) (hd : d.length = 4)
    (h : safeWriteAtPos pre.length d s = .ok u s') : s'.bytes = pre ++ d ++ w := by
  have h := safeWriteAtPos_eq_ok.1 h
  unfold Buffer.writeAtPosition at h
  split at h <;> cases h
  have htake : (pre ++ [0, 0, 0, 0] ++ w).take pre.length = pre := by simp
  have hdrop : (pre ++ [0, 0, 0, 0] ++ w).drop (pre.length + 4) = w := by
    rw [List.append_assoc, List.drop_append_eq_append_drop]; simp
  rw [hs, hd, htake, hdrop]

theorem writes_writeFrame {body : Enc Unit} {w : Bytes} {P : Prop} (h : Writes body w P) :
    Writes (writeFrame body) (le32 (w.length + 4) ++ w) P := by
  intro s u s' hrun
  simp only [writeFrame, Enc.bind_eq_ok, getPosition_apply, EStateM.Result.ok.injEq] at hrun
  obtain ⟨_, _, ⟨rfl, rfl⟩, p, s₁, hsave, _, s₂, hbody, _, _, ⟨rfl, rfl⟩, hpatch⟩ := hrun
  obtain ⟨-, rfl, rfl⟩ := saveSpace_eq_ok.1 hsave
  obtain ⟨hb, hP⟩ := h _ _ _ hbody
  refine ⟨?_, hP⟩
  rw [Buffer.bytes_append] at hb
  have hlen : s₂.bytes.length - s.bytes.length = w.length + 4 := by
    rw [hb]; simp only [List.length_append, List.length_cons, List.length_nil]; omega
  rw [hlen] at hpatch
  rw [safeWriteAtPos_slot hb (length_le32 _) hpatch, List.append_assoc]
  push_cast
  rfl

theorem writes_writeDocFrame {body : Enc Unit} {w : Bytes} {P : Prop} (h : Writes body w P) :
    Writes (writeDocFrame body) (frame w) P := by
  intro s u s' hrun
  simp only [writeDocFrame, Enc.bind_eq_ok, getPosition_apply, EStateM.Result.ok.injEq] at hrun
  obtain ⟨_, _, ⟨rfl, rfl⟩, p, s₁, hsave, _, s₂, hbody, _, s₃, hnul, ℓ, s₄, hℓ, hpatch⟩ := hrun
  obtain ⟨-, rfl, rfl⟩ := saveSpace_eq_ok.1 hsave
  obtain ⟨hb, hP⟩ := h _ _ _ hbody
  obtain ⟨-, rfl⟩ := safeWrite_eq_ok.1 hnul
  rw [checkedLength_apply] at hℓ
  split at hℓ
  · cases hℓ
  obtain ⟨rfl, rfl⟩ : (s₂.append [0]).bytes.length - s.bytes.length = ℓ ∧ s₂.append [0] = s₄ := by
    simpa using hℓ
  refine ⟨?_, hP⟩
  rw [Buffer.bytes_append] at hb
  have hb' : (s₂.append [0]).bytes = s.bytes ++ [0, 0, 0, 0] ++ (w ++ [0]) := by
    rw [Buffer.bytes_append, hb]; simp
  have hlen : (s₂.append [0]).bytes.length - s.bytes.length = w.length + 5 := by
    rw [hb']; simp only [List.length_append, List.length_cons, List.length_nil]; omega
  rw [hlen] at hpatch
  rw [safeWriteAtPos_slot hb' (length_le32 _) hpatch, frame]
  push_cast
  simp

theorem writes_writeBinary {key data : Bytes} (hk : key.length < 2 ^ 31)
    (hd : data.length < 2 ^ 31) (subtype : UInt8) :
    Writes (writeBinary key data subtype) ([0x05] ++ key ++ [0] ++ binaryBytes subtype data)
      (CText key) := by
  unfold writeBinary
  rw [toInt32_of_fits (show FitsInt32 (data.length : Int) from ⟨by omega, by omega⟩)]
  by_cases hs : subtype = 2
  · simp only [hs, if_true, ne_eq, not_true_eq_false, if_false, bind_assoc, pure_bind]
    exact ((writes_writeNameAndType hk _).bind fun _ => (writes_safeWrite _).bind fun _ =>
      (writes_safeWrite _).bind fun _ => (writes_safeWrite _).bind fun _ =>
        writes_safeWriteN data rfl).imp (by simp [binaryBytes]) And.left
  · simp only [hs, if_false, ne_eq, not_false_eq_true, if_true, bind_assoc, pure_bind]
    exact ((writes_writeNameAndType hk _).bind fun _ => (writes_safeWrite _).bind fun _ =>
      (writes_safeWrite _).bind fun _ => writes_safeWriteN data rfl).imp
        (by simp [binaryBytes, hs]) And.left

theorem writes_writeObjectIdBytes : (k : Nat) → (data : List RInt) →
    Writes (writeObjectIdBytes k data) ((data.take k).map fun v => charOf v.num) (k ≤ data.length)
  | 0, _ => (Writes.pure ()).imp (by simp) fun _ => Nat.zero_le _
  | k + 1, data => by
    rw [writeObjectIdBytes]
    refine writes_liftExcept_bind fun byte hb => ?_
    obtain ⟨n, hn, -, rfl⟩ := RInt.fix2int_eq_ok.1 hb
    cases data with
    | nil => cases hn
    | cons v rest =>
      obtain rfl : v = .integer _ := hn
      exact ((writes_safeWrite _).bind fun _ => writes_writeObjectIdBytes k rest).imp
        (by simp [RInt.num]) fun h => by simpa using h.2

/-- Writing `extra_options_str` and sorting it where it lies, then going on. -/
theorem writes_sortedExtra_bind {e : Bytes} (h : e.length < 2 ^ 31) {f : Unit → Enc β}
    {w : Bytes} {P : Prop} (hf : Writes (f ()) w P) :
    Writes (getPosition >>= fun oldPosition => safeWriteN e (toInt32 e.length) >>= fun _ =>
      qsortAt oldPosition e.length >>= f) (List.mergeSort e cmpCharLe ++ w) P := by
  intro s b s' hrun
  simp only [Enc.bind_eq_ok, getPosition_apply, EStateM.Result.ok.injEq] at hrun
  obtain ⟨_, _, ⟨rfl, rfl⟩, _, s₁, hw, _, s₂, hq, hrest⟩ := hrun
  rw [toInt32_of_fits ⟨by omega, by omega⟩] at hw
  obtain ⟨-, -, -, rfl⟩ := safeWriteN_eq_ok.1 hw
  obtain ⟨-, rfl⟩ := qsortAt_eq_ok.1 hq
  obtain ⟨hb, hP⟩ := hf _ _ _ hrest
  refine ⟨?_, hP⟩
  rw [hb]
  simp

/-- The option letters `serialize_regex` writes before the extra ones. -/
def regexFlags : RegexpOptions ⊕ RegexOptions → Bytes
  | .inl o => nativeFlags o
  | .inr o => bsonRegexFlags o

theorem writes_serializeRegex {key pattern : Bytes} (hk : key.length < 2 ^ 31)
    (hp : pattern.length < 2 ^ 31) (flags : RegexpOptions ⊕ RegexOptions) {extra : Option Bytes}
    (he : extraSafe extra = true) :
    Writes (serializeRegex key pattern flags extra)
      ([0x0B] ++ key ++ [0] ++ pattern ++ [0] ++ regexFlags flags ++ sortedExtra extra ++ [0])
      (CText key ∧ CText pattern) := by
  unfold serializeRegex
  cases extra with
  | none =>
    cases flags <;> simp only [pure_bind] <;>
    exact ((writes_writeNameAndType hk _).bind fun _ => (writes_writeUtf8 hp false).bind fun _ =>
      (writes_safeWrite _).bind fun _ => (writes_safeWrite _).bind fun _ =>
        writes_safeWrite _).imp (by simp [regexFlags, sortedExtra])
          fun h => ⟨h.1, validate_false_valid h.2.1⟩
  | some e =>
    simp only [extraSafe, decide_eq_true_eq] at he
    cases flags <;> simp only [pure_bind] <;>
    exact ((writes_writeNameAndType hk _).bind fun _ => (writes_writeUtf8 hp false).bind fun _ =>
      (writes_safeWrite _).bind fun _ => (writes_safeWrite _).bind fun _ =>
        writes_sortedExtra_bind he.1 (writes_safeWrite _)).imp (by simp [regexFlags, sortedExtra])
          fun h => ⟨h.1, validate_false_valid h.2.1⟩

/-! ## Facts the element cases use -/

theorem toNat_emod_lt (n : Int) : (n % 2 ^ 32).toNat < 2 ^ 32 := by omega

theorem length_decimalAux_le : ∀ (fuel i : Nat) (acc : Bytes),
    (decimalAux fuel i acc).length ≤ fuel + acc.length
  | 0, _, _ => by simp [decimalAux]
  | fuel + 1, i, acc => by
    rw [decimalAux]
    split_ifs
    · simp only [List.length_cons]; omega
    · have := length_decimalAux_le fuel (i / 10) ((48 + i % 10).toUInt8 :: acc)
      simp only [List.length_cons] at this
      omega

theorem length_decimal_le (i : Nat) : (decimal i).length ≤ i + 1 := by
  simpa using length_decimalAux_le (i + 1) i []

/-- The array and DBRef frames write the frame of their body without its NUL. -/
theorem le32_frame (w : Bytes) : le32 (((w ++ [0]).length : Int) + 4) ++ (w ++ [0]) = frame w := by
  rw [frame, List.length_append, List.length_singleton, List.append_assoc]
  push_cast
  ring_nf

theorem nulFree_nativeFlags (o : RegexpOptions) : NulFree (nativeFlags o) := by
  rcases o with ⟨_ | _, _ | _, _ | _⟩ <;> decide

theorem nulFree_bsonRegexFlags (o : RegexOptions) : NulFree (bsonRegexFlags o) := by
  rcases o with ⟨_ | _, _ | _, _ | _, _ | _, _ | _, _ | _⟩ <;> decide

theorem nulFree_sortedExtra {extra : Option Bytes} (h : extraSafe extra = true) :
    NulFree (sortedExtra extra) := by
  cases extra with
  | none => exact List.not_mem_nil 0
  | some e =>
    simp only [extraSafe, decide_eq_true_eq] at h
    exact fun hm => h.2 ((List.mem_mergeSort).1 hm)

theorem nulFree_regexFlags (flags : RegexpOptions ⊕ RegexOptions) {extra : Option Bytes}
    (h : extraSafe extra = true) : NulFree (regexFlags flags ++ sortedExtra extra) := by
  refine fun hm => (List.mem_append.1 hm).elim (fun hf => ?_) (nulFree_sortedExtra h)
  cases flags
  · exact nulFree_nativeFlags _ hf
  · exact nulFree_bsonRegexFlags _ hf

/-- What a successful `write_element` vouches for: its key is a C string in UTF-8, and its
value is well formed with valid texts. -/
def ElemOk (key : Bytes) (v : BValue) : Prop := CText key ∧ v.wf = true ∧ v.textOk = true

/-- A key `write_element` accepts behaves as the `String` it is read as. -/
theorem writes_element_key {key value : RValue} {w : Bytes} {P : Prop}
    (h : ∀ k, key.keyString? = some k → Writes (writeElement (.string k) value false true) w P) :
    Writes (writeElement key value false true) w P := by
  rw [writeElement]
  cases hk : key.keyString? with
  | none => exact Writes.freeAndRaise _ _ _
  | some k =>
    have := h k hk
    rw [writeElement] at this
    exact this

/-! ## The encoder writes `wireOf` -/

mutual

/-- A successful `write_element` of a safe value under a `String` key writes the key and
`wireOf value`. -/
theorem writes_writeElement (k : Bytes) (hk : k.length < 2 ^ 31) (value : RValue)
    (hv : value.wireSafe = true) :
    Writes (writeElement (.string k) value false true) (elementBytes k (wireOf value))
      (ElemOk k (wireOf value)) := by
  rw [writeElement]
  simp only [RValue.keyString?_string, Bool.not_true, Bool.false_and, Bool.false_eq_true,
    if_false, pure_bind]
  cases value <;> dsimp only
  case integer n =>
    refine Writes.ite (fun _ => Writes.freeAndRaise _ _ _) fun h64 =>
      Writes.ite (fun h32 => ?_) fun h32 => ?_
    · simp only [wireOf, if_pos h32]
      exact ((writes_writeNameAndType hk _).bind fun _ => writes_safeWrite _).imp
        (by simp [elementBytes, payload, BValue.tag])
        fun h => ⟨h.1, by simp only [BValue.wf, decide_eq_true_eq]; omega, rfl⟩
    · simp only [wireOf, if_neg h32]
      exact ((writes_writeNameAndType hk _).bind fun _ => writes_safeWrite _).imp
        (by simp [elementBytes, payload, BValue.tag])
        fun h => ⟨h.1, by simp only [BValue.wf, decide_eq_true_eq, FitsInt32]; omega, rfl⟩
  case bool b =>
    exact ((writes_writeNameAndType hk _).bind fun _ => writes_safeWrite _).imp
      (by simp [elementBytes, payload, BValue.tag, wireOf]) fun h => ⟨h.1, rfl, rfl⟩
  case float bits =>
    exact ((writes_writeNameAndType hk _).bind fun _ => writes_safeWrite _).imp
      (by simp [elementBytes, payload, BValue.tag, wireOf]) fun h => ⟨h.1, rfl, rfl⟩
  case nil =>
    exact (writes_writeNameAndType hk _).imp
      (by simp [elementBytes, payload, BValue.tag, wireOf]) fun h => ⟨h, rfl, rfl⟩
  case hash entries =>
    exact ((writes_writeNameAndType hk _).bind fun _ =>
      writes_writeDocFrame (writes_writeEntries entries hv)).imp
        (by simp [elementBytes, payload, BValue.tag, wireOf]) fun h => ⟨h.1, h.2.1, h.2.2⟩
  case array items =>
    simp only [RValue.wireSafe, Bool.and_eq_true, decide_eq_true_eq] at hv
    rw [toInt32_of_fits ⟨by omega, by omega⟩]
    exact ((writes_writeNameAndType hk _).bind fun _ => writes_writeFrame
      ((writes_writeArrayItems items 0 _ hv.2 (by simp) (by omega)).bind fun _ =>
        writes_safeWrite [0])).imp
        (by rw [le32_frame]; simp [elementBytes, payload, BValue.tag, wireOf])
        fun h => ⟨h.1, h.2.1.1, h.2.1.2⟩
  case string s =>
    simp only [RValue.wireSafe, decide_eq_true_eq] at hv
    rw [toInt32_of_fits ⟨by omega, by omega⟩]
    exact ((writes_writeNameAndType hk _).bind fun _ => (writes_safeWrite _).bind fun _ =>
      (writes_writeUtf8 hv true).bind fun _ => writes_safeWrite _).imp
        (by simp [elementBytes, payload, BValue.tag, wireOf, lenString])
        fun h => ⟨h.1, rfl, decide_eq_true h.2.2.1⟩
  case symbol name =>
    simp only [RValue.wireSafe, decide_eq_true_eq] at hv
    rw [toInt32_of_fits ⟨by omega, by omega⟩]
    exact ((writes_writeNameAndType hk _).bind fun _ => (writes_safeWrite _).bind fun _ =>
      writes_safeWriteN (cstr name ++ [0]) (by simp)).imp
        (by simp [elementBytes, payload, BValue.tag, wireOf, lenString])
        fun h => ⟨h.1, rfl, rfl⟩
  case chars s =>
    simp only [RValue.wireSafe, decide_eq_true_eq] at hv
    rw [toInt32_of_fits ⟨by omega, by omega⟩]
    exact ((writes_writeNameAndType hk _).bind fun _ => (writes_safeWrite _).bind fun _ =>
      (writes_writeUtf8 hv true).bind fun _ => writes_safeWrite _).imp
        (by simp [elementBytes, payload, BValue.tag, wireOf, lenString])
        fun h => ⟨h.1, rfl, decide_eq_true h.2.2.1⟩
  case binary data subtype =>
    simp only [RValue.wireSafe, decide_eq_true_eq] at hv
    refine writes_liftExcept_bind fun st hst => ?_
    obtain ⟨_, rfl, -, rfl⟩ := RInt.fix2int_eq_ok.1 hst
    exact (writes_writeBinary hk hv _).imp
      (by simp [elementBytes, payload, BValue.tag, wireOf, RInt.num]) fun h => ⟨h, rfl, rfl⟩
  case byteBuffer data =>
    simp only [RValue.wireSafe, decide_eq_true_eq] at hv
    exact (writes_writeBinary hk hv _).imp (by simp [elementBytes, payload, BValue.tag, wireOf])
      fun h => ⟨h, rfl, rfl⟩
  case objectId data =>
    exact ((writes_writeNameAndType hk _).bind fun _ => writes_writeObjectIdBytes 12 data).imp
      (by simp [elementBytes, payload, BValue.tag, wireOf])
      fun h => ⟨h.1, by simp [BValue.wf, wireOf]; omega, rfl⟩
  case dbref ns oid =>
    simp only [RValue.wireSafe, Bool.and_eq_true] at hv
    exact ((writes_writeNameAndType hk _).bind fun _ => writes_writeFrame
      ((writes_writeElement (ascii "$ref") (by decide) ns hv.1).bind fun _ =>
        (writes_writeElement (ascii "$id") (by decide) oid hv.2).bind fun _ =>
          writes_safeWrite [0])).imp
      (by
        simp only [elementBytes, payload, BValue.tag, wireOf, frame, fieldsBytes,
          List.length_append, List.length_singleton, List.append_assoc, List.append_nil]
        push_cast
        ring_nf)
      fun ⟨hk', ⟨h₁, h₂, h₃⟩, ⟨h₄, h₅, h₆⟩, _⟩ =>
        ⟨hk', by simp [wireOf, BValue.wf, fieldsWf, h₂, h₅]; exact ⟨h₁.1, h₄.1⟩,
          by simp [wireOf, BValue.textOk, fieldsTextOk, h₁.2, h₃, h₄.2, h₆]⟩
  case code code scope =>
    simp only [RValue.wireSafe, Bool.and_eq_true, decide_eq_true_eq] at hv
    rw [toInt32_of_fits ⟨by omega, by omega⟩, wireOf_code]
    exact ((writes_writeNameAndType hk _).bind fun _ => writes_writeFrame
      ((writes_safeWrite _).bind fun _ => (writes_safeWriteN code (by omega)).bind fun _ =>
        (writes_safeWrite _).bind fun _ => writes_writeDoc scope hv.2)).imp
      (by
        simp only [elementBytes, payload, BValue.tag, codeBytes, lenString, docBytes,
          List.length_append, length_le32, List.length_singleton, List.append_assoc]
        push_cast
        ring_nf)
      fun h => ⟨h.1, h.2.2.2.2.1, h.2.2.2.2.2⟩
  case maxKey =>
    exact (writes_writeNameAndType hk _).imp
      (by simp [elementBytes, payload, BValue.tag, wireOf]) fun h => ⟨h, rfl, rfl⟩
  case minKey =>
    exact (writes_writeNameAndType hk _).imp
      (by simp [elementBytes, payload, BValue.tag, wireOf]) fun h => ⟨h, rfl, rfl⟩
  case timestamp seconds increment =>
    have hfields : ∀ sec inc, seconds.num2uint = .ok sec → increment.num2uint = .ok inc →
        Writes (do safeWrite (le32 inc); safeWrite (le32 sec))
          (le32 ((increment.num % 2 ^ 32).toNat : Int) ++ le32 ((seconds.num % 2 ^ 32).toNat : Int))
          (True ∧ True) := fun sec inc hsec hinc => by
      obtain ⟨_, rfl, -, rfl⟩ := RInt.num2uint_eq_ok.1 hsec
      obtain ⟨_, rfl, -, rfl⟩ := RInt.num2uint_eq_ok.1 hinc
      exact (writes_safeWrite _).bind fun _ => writes_safeWrite _
    exact ((writes_writeNameAndType hk _).bind fun _ =>
      writes_liftExcept_bind fun sec hsec => writes_liftExcept_bind fun inc hinc =>
        hfields sec inc hsec hinc).imp
      (by simp [elementBytes, payload, BValue.tag, wireOf])
      fun h => ⟨h.1, by
        simp only [BValue.wf, wireOf, decide_eq_true_eq]
        exact ⟨toNat_emod_lt _, toNat_emod_lt _⟩, rfl⟩
  case time millis =>
    exact Writes.ite (fun hr => ((writes_writeNameAndType hk _).bind fun _ =>
      writes_safeWrite _).imp (by simp [elementBytes, payload, BValue.tag, wireOf])
        fun h => ⟨h.1, by simpa [BValue.wf, wireOf] using hr, rfl⟩) fun _ => Writes.throw _ _ _
  case bsonRegex pattern options extra =>
    simp only [RValue.wireSafe, Bool.and_eq_true, decide_eq_true_eq] at hv
    exact (writes_serializeRegex hk hv.1 (.inr options) hv.2).imp
      (by simp [elementBytes, payload, BValue.tag, wireOf, regexFlags])
      fun h => ⟨h.1, by
          simp only [BValue.wf, wireOf, decide_eq_true_eq]
          exact ⟨h.2.1, nulFree_regexFlags (.inr options) hv.2⟩,
        by simpa [BValue.textOk, wireOf] using h.2.2⟩
  case regexp source options extra =>
    simp only [RValue.wireSafe, Bool.and_eq_true, decide_eq_true_eq] at hv
    exact (writes_serializeRegex hk hv.1 (.inl options) hv.2).imp
      (by simp [elementBytes, payload, BValue.tag, wireOf, regexFlags])
      fun h => ⟨h.1, by
          simp only [BValue.wf, wireOf, decide_eq_true_eq]
          exact ⟨h.2.1, nulFree_regexFlags (.inl options) hv.2⟩,
        by simpa [BValue.textOk, wireOf] using h.2.2⟩
  case object | data | other =>
    exact Writes.freeAndRaise _ _ _
termination_by structural value

/-- The array loop over the items it reaches writes them under their indices. -/
theorem writes_writeArrayItems : (values : List RValue) → (i : Nat) → (n : Int) →
    itemsSafe values = true → i + values.length ≤ n → n < 2 ^ 31 →
    Writes (writeArrayItems values i n false) (itemsBytes i (wireItems values))
      (itemsWf (wireItems values) = true ∧ itemsTextOk (wireItems values) = true)
  | [], _, _, _, _, _ => (Writes.pure ()).imp rfl fun _ => ⟨rfl, rfl⟩
  | v :: rest, i, n, hv, hi, hn => by
    simp only [itemsSafe, Bool.and_eq_true] at hv
    simp only [List.length_cons] at hi
    rw [writeArrayItems, if_pos (by omega)]
    have hkey : (decimal i).length < 2 ^ 31 := by have := length_decimal_le i; omega
    exact ((writes_writeElement (decimal i) hkey v hv.1).bind fun _ =>
      writes_writeArrayItems rest (i + 1) n hv.2 (by omega) hn).imp
        (by simp [wireItems, itemsBytes_cons])
        fun h => ⟨by simp [wireItems, itemsWf, h.1.2.1, h.2.1],
          by simp [wireItems, itemsTextOk, h.1.2.2, h.2.2]⟩
termination_by structural values => values

/-- `rb_hash_foreach` over safe entries writes their fields. -/
theorem writes_writeEntries : (entries : List (RValue × RValue)) → entriesSafe entries = true →
    Writes (writeEntries entries false true) (fieldsBytes (wireFields entries))
      (fieldsWf (wireFields entries) = true ∧ fieldsTextOk (wireFields entries) = true)
  | [], _ => (Writes.pure ()).imp rfl fun _ => ⟨rfl, rfl⟩
  | (key, v) :: rest, hv => by
    simp only [entriesSafe, Bool.and_eq_true, decide_eq_true_eq] at hv
    have hel : Writes (writeElement key v false true) (elementBytes (keyOf key) (wireOf v))
        (ElemOk (keyOf key) (wireOf v)) := writes_element_key fun k hk => by
      have hkey : keyOf key = k := by simp [keyOf, hk]
      rw [hkey]
      exact writes_writeElement k (hkey ▸ hv.1.1) v hv.1.2
    rw [writeEntries]
    exact (hel.bind fun _ => writes_writeEntries rest hv.2).imp
      (by simp [wireFields, fieldsBytes_cons])
      fun ⟨⟨hk', h₁, h₂⟩, h₃, h₄⟩ =>
        ⟨by simp [wireFields, fieldsWf, h₁, h₃]; exact hk'.1,
          by simp [wireFields, fieldsTextOk, hk'.2, h₂, h₄]⟩
termination_by structural entries => entries

/-- `write_doc` without `move_id` on a safe hash writes its document. -/
theorem writes_writeDoc : (hash : RValue) → hash.wireSafe = true →
    Writes (writeDoc hash false false) (docBytes (scopeFields hash))
      (fieldsWf (scopeFields hash) = true ∧ fieldsTextOk (scopeFields hash) = true)
  | .hash entries, hv => by
    rw [writeDoc]
    simp only [Bool.false_eq_true, if_false]
    exact writes_writeDocFrame (writes_writeEntries entries hv)
  | .integer _, _ | .bool _, _ | .float _, _ | .nil, _ | .array _, _ | .string _, _
  | .symbol _, _ | .chars _, _ | .binary .., _ | .byteBuffer _, _ | .objectId _, _
  | .dbref .., _ | .code .., _ | .maxKey, _ | .minKey, _ | .timestamp .., _ | .time _, _
  | .bsonRegex .., _ | .regexp .., _ | .object _, _ | .data _, _ | .other .., _ => by
    intro s a s' h
    simp only [writeDoc, Enc.bind_eq_ok] at h
    obtain ⟨_, _, _, h⟩ := h
    simp at h
termination_by structural hash => hash

end

/-! ## Whole documents -/

theorem entriesSafe_iff {entries : List (RValue × RValue)} :
    entriesSafe entries = true ↔
      ∀ e ∈ entries, (keyOf e.1).length < 2 ^ 31 ∧ e.2.wireSafe = true := by
  induction entries with
  | nil => simp [entriesSafe]
  | cons e rest ih =>
    obtain ⟨k, v⟩ := e
    simp [entriesSafe, ih, and_assoc]

theorem entriesSafe_moveIdEntries {entries : List (RValue × RValue)}
    (h : entriesSafe entries = true) : entriesSafe (moveIdEntries entries) = true := by
  rw [entriesSafe_iff] at h ⊢
  have hlookup : ∀ (id : RValue) (isId : RValue → Bool), (keyOf id).length < 2 ^ 31 →
      ∀ e ∈ lookupAs id isId entries, (keyOf e.1).length < 2 ^ 31 ∧ e.2.wireSafe = true := by
    intro id isId hid e he
    simp only [lookupAs, Option.mem_toList, Option.mem_def, Option.map_eq_some'] at he
    obtain ⟨kv, hkv, rfl⟩ := he
    exact ⟨hid, (h kv (List.mem_of_find?_eq_some hkv)).2⟩
  intro e he
  rcases List.mem_append.1 he with hid | hrest
  · unfold idEntry at hid
    split_ifs at hid
    · exact hlookup _ _ (by decide) e hid
    · exact hlookup _ _ (by decide) e hid
    · cases hid
  · exact h e (List.mem_filter.1 hrest).1

/-- Without `move_id`, a successful `serialize` of a safe document writes the canonical
bytes of its fields, which are well formed and whose texts are valid. -/
theorem serialize_eq_docBytes {d : RValue} {ck : Bool} {m : Int} {capacity : Nat}
    {b : Bytes} (h : serialize d ck false m capacity = .ok b) (hd : d.wireSafe = true) :
    b = docBytes (scopeFields d) ∧ docWf (scopeFields d) = true ∧
      fieldsTextOk (scopeFields d) = true := by
  have hm := (serialize_eq_ok.1 h).1
  have h' : serialize d false false m capacity = .ok b := by
    cases ck
    · exact h
    · have hsim := sim_writeDoc (compat_eq b.length) d true false false (keySims_true_false _ _)
      rcases serialize_sim (compat_eq _) hsim h hm rfl le_rfl with h' | ⟨_, ⟨⟩, _⟩
      exact h'
  obtain ⟨-, s', hrun, rfl⟩ := serialize_eq_ok.1 h'
  obtain ⟨hb, hwf, htext⟩ := writes_writeDoc d hd _ _ _ hrun
  have hlen := serialize_length_le h
  simp only [startBuffer, List.nil_append] at hb
  refine ⟨hb, ?_, htext⟩
  simp only [docWf, hwf, Bool.true_and, decide_eq_true_eq]
  unfold FitsInt32 at hm
  rw [hb] at hlen
  omega

/-- A successful `serialize` of a safe document writes a well-formed document whose texts
are valid. -/
theorem serialize_wire {d : RValue} {ck moveId : Bool} {m : Int} {capacity : Nat} {b : Bytes}
    (h : serialize d ck moveId m capacity = .ok b) (hd : d.wireSafe = true) :
    ∃ fields, b = docBytes fields ∧ docWf fields = true ∧ fieldsTextOk fields = true := by
  cases moveId
  · exact ⟨_, serialize_eq_docBytes h hd⟩
  cases d with
  | hash entries =>
    rw [serialize, methodSerialize, writeDoc_moveId, ← methodSerialize, ← serialize] at h
    exact ⟨_, serialize_eq_docBytes h (entriesSafe_moveIdEntries hd)⟩
  | _ =>
    obtain ⟨-, s', hrun, -⟩ := serialize_eq_ok.1 h
    simp only [writeDoc, Enc.bind_eq_ok] at hrun
    obtain ⟨_, _, _, hrun⟩ := hrun
    simp at hrun

unseal List.mergeSort in
/-- A regex whose `extra_options_str` holds a NUL is written with the NUL inside its
flags, which ends the flags early: `serialize` returns bytes the BSON grammar rejects. -/
theorem serialize_regex_nul_extra :
    serialize (.hash [(.string (ascii "r"),
        .bsonRegex [] ⟨false, false, false, false, false, false⟩ (some [0]))]) false false
        (2 ^ 31 - 1) 64 = .ok [11, 0, 0, 0, 11, 114, 0, 0, 0, 0, 0] ∧
      parseDoc [11, 0, 0, 0, 11, 114, 0, 0, 0, 0, 0] = none :=
  ⟨rfl, rfl⟩

/-- A `Symbol` is written without the UTF-8 check: `:"\xFF"` serializes, and its payload
on the wire is the byte `0xFF`, which is not UTF-8. -/
theorem serialize_symbol_not_utf8 :
    serialize (.hash [(.string (ascii "s"), .symbol [0xFF])]) false false (2 ^ 31 - 1) 64 =
      .ok [14, 0, 0, 0, 14, 115, 0, 2, 0, 0, 0, 255, 0, 0] ∧
    parseDoc [14, 0, 0, 0, 14, 115, 0, 2, 0, 0, 0, 255, 0, 0] =
      some [(ascii "s", .symbol [0xFF])] ∧
    ¬Utf8Valid [0xFF] :=
  ⟨rfl, rfl, by decide⟩

end CBson
