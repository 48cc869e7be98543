import CBson.Sim

/-!
# Releasing the buffer

`method_serialize` allocates one buffer with `bson_buffer_new` and frees it after the
result string is copied.  On the way, an exception can leave `write_doc` from many sites.
Some of them free the buffer first (`bson_buffer_free(buffer); rb_raise(...)`): the key
tests, `write_utf8`, the class checks, the size check, and the 8-byte range test of an
integer.  The others do not: `SAFE_WRITE`, `bson_buffer_save_space`, `SAFE_WRITE_AT_POS`,
`has_key?` on a non-hash, and the host conversions `FIX2INT` and `NUM2UINT`.  The model
counts the frees in `Buffer.frees`.

`methodSerialize_releases` says what every run does with the buffer: a run that returns
has freed it once, after the copy; a run that raises has freed it once if the exception
is one of the first kind (`raisedAfterFree`) and not at all otherwise, so it is never
freed twice, and a failed `SAFE_WRITE` or conversion leaks it.

## Strategy

`Releases x` says this of one computation: a successful run only appends (`Grows`), and
a failed one has added one free exactly when its exception is raised after a free.  It is
closed under `>>=` and `if`, holds of every primitive, and then of the encoder's mutual
functions by the same structural recursion as `sim_writeElement`.
-/

namespace CBson

variable {α β : Type}

/-- The exceptions the encoder raises right after `bson_buffer_free(buffer)`.  The
`TypeError` and `RangeError` of `FIX2INT` and `NUM2UINT` have other messages. -/
def raisedAfterFree : RbError → Bool
  | .typeError msg => msg == "keys must be strings or symbols"
  | .invalidKeyName _ | .invalidStringEncoding _ | .invalidDocument _ => true
  | .rangeError msg => msg == "MongoDB can only handle 8-byte ints"
  | _ => false

/-- A successful run of `x` only appends to the buffer; a failed one has freed it once
more if its exception is raised after a free, and left the count alone otherwise. -/
structure Releases (x : Enc α) : Prop where
  grows : Grows x
  error : ∀ s e s', x s = .error e s' → s'.frees = s.frees + if raisedAfterFree e then 1 else 0

theorem Grows.frees_eq {x : Enc α} (hx : Grows x) {s s' : Buffer} {a : α}
    (h : x s = .ok a s') : s'.frees = s.frees := by
  rw [(hx.1 _ _ _ h).1]

/-! ## Closure -/

namespace Releases

theorem bind {x : Enc α} {f : α → Enc β} (hx : Releases x) (hf : ∀ a, Releases (f a)) :
    Releases (x >>= f) := by
  refine ⟨hx.grows.bind fun a => (hf a).grows, fun s e s'' h => ?_⟩
  cases hx' : x s with
  | ok a s' =>
    rw [Enc.bind_of_ok hx'] at h
    rw [(hf a).error _ _ _ h, hx.grows.frees_eq hx']
  | error e' s' =>
    rw [Enc.bind_of_error hx'] at h
    cases h
    exact hx.error _ _ _ hx'

theorem pure (a : α) : Releases (pure a : Enc α) :=
  ⟨.of_eq fun _ _ _ h => by cases h; rfl, fun _ _ _ h => by cases h⟩

theorem throw {e : RbError} (he : raisedAfterFree e = false) : Releases (throw e : Enc α) :=
  ⟨⟨fun _ _ _ h => by cases h⟩, fun s _ _ h => by cases h; simp [he]⟩

theorem freeAndRaise {e : RbError} (he : raisedAfterFree e = true) :
    Releases (CBson.freeAndRaise e) :=
  ⟨⟨fun _ _ _ h => by cases h⟩, fun s _ _ h => by cases h; simp [he]⟩

theorem ite {c : Prop} [Decidable c] {x y : Enc α} (hx : Releases x) (hy : Releases y) :
    Releases (if c then x else y) := by
  split <;> assumption

/-- The join point `do` makes of an `if` in the middle of a block. -/
theorem ite_bind {c : Prop} [Decidable c] {x y : Enc α} {f : α → Enc β} (hx : Releases x)
    (hy : Releases y) (hf : ∀ a, Releases (f a)) :
    Releases (if c then x >>= f else y >>= f) :=
  ite (hx.bind hf) (hy.bind hf)

/-- A primitive that fails in the state it started from, with an exception that is not
raised after a free. -/
theorem of_error_eq {x : Enc α} (hx : Grows x)
    (h : ∀ s e s', x s = .error e s' → s' = s ∧ raisedAfterFree e = false) : Releases x :=
  ⟨hx, fun s e s' he => by obtain ⟨rfl, h⟩ := h s e s' he; simp [h]⟩

end Releases

/-! ## Primitives -/

theorem fix2int_not_after_free {n : Int} {e : RbError} (h : fix2int n = .error e) :
    raisedAfterFree e = false := by
  unfold fix2int at h
  split_ifs at h <;> cases h <;> rfl

theorem num2uint_not_after_free {n : Int} {e : RbError} (h : num2uint n = .error e) :
    raisedAfterFree e = false := by
  unfold num2uint at h
  split_ifs at h <;> cases h <;> rfl

theorem raisedAfterFree_invalidDocument (msg : String) :
    raisedAfterFree (.invalidDocument msg) = true := rfl

theorem raisedAfterFree_unsupportedClass (numeric : List String) (cls : String) :
    raisedAfterFree (unsupportedClass numeric cls) = true := by
  unfold unsupportedClass
  split_ifs <;> rfl

theorem releases_liftExcept {x : Except RbError α}
    (hx : ∀ e, x = .error e → raisedAfterFree e = false) : Releases (liftExcept x) := by
  cases x with
  | error e => exact Releases.throw (hx e rfl)
  | ok a => exact Releases.pure a

theorem releases_fix2int (n : Int) : Releases (liftExcept (fix2int n)) :=
  releases_liftExcept fun _ => fix2int_not_after_free

/-- A conversion of an `RInt`: its `TypeError`s are not raised after a free either. -/
theorem releases_toInt_bind {f : Int → Except RbError β}
    (hf : ∀ n e, f n = .error e → raisedAfterFree e = false) (v : RInt) :
    Releases (liftExcept (v.toInt >>= f)) :=
  releases_liftExcept fun e h => by
    cases v with
    | integer n => exact hf n e h
    | nil | other _ => cases h; rfl

theorem releases_getPosition : Releases getPosition :=
  ⟨.of_eq fun _ _ _ h => by cases h; rfl, fun _ _ _ h => by cases h⟩

theorem releases_safeWrite (w : Bytes) : Releases (safeWrite w) :=
  .of_error_eq (grows_safeWrite w) fun s e s' h => by
    unfold safeWrite at h
    split at h <;> cases h
    exact ⟨rfl, rfl⟩

theorem releases_safeWriteN (src : Bytes) (size : Int) : Releases (safeWriteN src size) :=
  Releases.ite (releases_safeWrite _) (Releases.throw rfl)

theorem releases_saveSpace : Releases saveSpace :=
  .of_error_eq grows_saveSpace fun s e s' h => by
    unfold saveSpace at h
    split at h <;> cases h
    exact ⟨rfl, rfl⟩

theorem releases_safeWriteAtPos (p : Nat) (d : Bytes) : Releases (safeWriteAtPos p d) :=
  .of_error_eq (grows_safeWriteAtPos p d) fun s e s' h => by
    unfold safeWriteAtPos at h
    split at h <;> cases h
    exact ⟨rfl, rfl⟩

theorem releases_qsortAt (p len : Nat) : Releases (qsortAt p len) :=
  .of_error_eq (grows_qsortAt p len) fun s e s' h => by
    unfold qsortAt at h
    split at h <;> cases h
    exact ⟨rfl, rfl⟩

theorem releases_checkedLength (start : Nat) : Releases (checkedLength start) := by
  refine ⟨.of_eq fun s a s' h => ?_, fun s e s' h => ?_⟩ <;>
  · rw [checkedLength_apply] at h
    split at h <;> cases h
    rfl

theorem releases_writeUtf8 (b : Bytes) (allowNull : Bool) : Releases (writeUtf8 b allowNull) := by
  unfold writeUtf8
  cases validateUtf8Encoding b allowNull
  · exact releases_safeWriteN _ _
  · exact Releases.freeAndRaise rfl
  · exact Releases.freeAndRaise rfl

theorem releases_writeNameAndType (name : Bytes) (type : UInt8) :
    Releases (writeNameAndType name type) :=
  (releases_safeWrite _).bind fun _ => (releases_writeUtf8 _ _).bind fun _ => releases_safeWrite _

theorem releases_checkKey (k : Bytes) : Releases (checkKey k) :=
  Releases.ite_bind (Releases.freeAndRaise rfl) (Releases.pure ()) fun _ =>
    Releases.ite (Releases.freeAndRaise rfl) (Releases.pure ())

theorem releases_writeBinary (key data : Bytes) (subtype : UInt8) :
    Releases (writeBinary key data subtype) := by
  simp only [writeBinary]
  with_reducible repeat' (first | exact releases_safeWrite _ | exact releases_safeWriteN _ _ | exact releases_writeNameAndType _ _ | apply Releases.bind | apply Releases.ite_bind | apply Releases.ite | exact Releases.pure _ | intro)

theorem releases_writeObjectIdBytes (k : Nat) (data : List RInt) :
    Releases (writeObjectIdBytes k data) := by
  induction k generalizing data with
  | zero => exact Releases.pure _
  | succ k ih =>
    exact (releases_toInt_bind (fun _ _ => fix2int_not_after_free) _).bind fun _ =>
      (releases_safeWrite _).bind fun _ => ih _

theorem releases_serializeRegex (key pattern : Bytes) (flags : RegexpOptions ⊕ RegexOptions)
    (extra : Option Bytes) : Releases (serializeRegex key pattern flags extra) := by
  unfold serializeRegex
  refine (releases_writeNameAndType _ _).bind fun _ => (releases_writeUtf8 _ _).bind fun _ =>
    (releases_safeWrite _).bind fun _ => ?_
  cases flags <;> cases extra <;> simp only [pure_bind] <;>
  with_reducible repeat' (first | exact releases_safeWrite _ | exact releases_safeWriteN _ _ | exact releases_getPosition | exact releases_qsortAt _ _ | apply Releases.bind | exact Releases.pure _ | intro)

theorem releases_writeFrame {body : Enc Unit} (h : Releases body) : Releases (writeFrame body) :=
  releases_getPosition.bind fun _ => releases_saveSpace.bind fun _ => h.bind fun _ =>
    releases_getPosition.bind fun _ => releases_safeWriteAtPos _ _

theorem releases_writeDocFrame {body : Enc Unit} (h : Releases body) :
    Releases (writeDocFrame body) :=
  releases_getPosition.bind fun _ => releases_saveSpace.bind fun _ => h.bind fun _ =>
    (releases_safeWrite _).bind fun _ => (releases_checkedLength _).bind fun _ =>
      releases_safeWriteAtPos _ _

/-! ## The encoder -/

mutual

theorem releases_writeElement (key value : RValue) (checkKeys allowId : Bool) :
    Releases (writeElement key value checkKeys allowId) := by
  rw [writeElement]
  cases key.keyString? with
  | none => exact Releases.freeAndRaise rfl
  | some k =>
    dsimp only
    refine Releases.ite (Releases.pure ()) (Releases.ite_bind (releases_checkKey k)
      (Releases.pure ()) fun _ => ?_)
    cases value with
    | hash entries =>
      exact (releases_writeNameAndType _ _).bind fun _ =>
        releases_writeDocFrame (releases_writeEntries entries checkKeys true)
    | array items =>
      exact (releases_writeNameAndType _ _).bind fun _ => releases_writeFrame
        ((releases_writeArrayItems items 0 _ checkKeys).bind fun _ => releases_safeWrite _)
    | dbref ns oid =>
      exact (releases_writeNameAndType _ _).bind fun _ => releases_writeFrame
        ((releases_writeElement _ ns false true).bind fun _ =>
          (releases_writeElement _ oid false true).bind fun _ => releases_safeWrite _)
    | code code scope =>
      exact (releases_writeNameAndType _ _).bind fun _ => releases_writeFrame
        ((releases_safeWrite _).bind fun _ => (releases_safeWriteN _ _).bind fun _ =>
          (releases_safeWrite _).bind fun _ => releases_writeDoc scope false false)
    | integer n =>
      exact Releases.ite (Releases.freeAndRaise (by decide)) (Releases.ite
        ((releases_writeNameAndType _ _).bind fun _ => releases_safeWrite _)
        ((releases_writeNameAndType _ _).bind fun _ => releases_safeWrite _))
    | binary data subtype =>
      exact (releases_toInt_bind (fun _ _ => fix2int_not_after_free) _).bind fun _ =>
        releases_writeBinary _ _ _
    | timestamp seconds increment =>
      exact (releases_writeNameAndType _ _).bind fun _ =>
        (releases_toInt_bind (fun _ _ => num2uint_not_after_free) _).bind fun _ =>
          (releases_toInt_bind (fun _ _ => num2uint_not_after_free) _).bind fun _ =>
            (releases_safeWrite _).bind fun _ => releases_safeWrite _
    | _ =>
      with_reducible repeat' (first | exact Releases.freeAndRaise (raisedAfterFree_invalidDocument _) | exact Releases.freeAndRaise (raisedAfterFree_unsupportedClass _ _) | exact Releases.throw (by decide) | exact releases_safeWrite _ | exact releases_writeNameAndType _ _ | exact releases_writeUtf8 _ _ | exact releases_safeWriteN _ _ | exact releases_writeBinary _ _ _ | exact releases_writeObjectIdBytes _ _ | exact releases_serializeRegex _ _ _ _ | apply Releases.bind | apply Releases.ite | exact Releases.pure _ | intro)
termination_by structural value

theorem releases_writeArrayItems : (values : List RValue) → (i : Nat) → (items : Int) →
    (checkKeys : Bool) → Releases (writeArrayItems values i items checkKeys)
  | [], _, _, _ => Releases.pure _
  | v :: rest, i, items, checkKeys => by
    rw [writeArrayItems]
    exact Releases.ite ((releases_writeElement _ v checkKeys true).bind fun _ =>
      releases_writeArrayItems rest (i + 1) items checkKeys) (Releases.pure _)
termination_by structural values => values

theorem releases_writeEntries : (entries : List (RValue × RValue)) → (checkKeys allowId : Bool) →
    Releases (writeEntries entries checkKeys allowId)
  | [], _, _ => Releases.pure _
  | (k, v) :: rest, checkKeys, allowId => by
    rw [writeEntries]
    exact (releases_writeElement k v checkKeys allowId).bind fun _ =>
      releases_writeEntries rest checkKeys allowId
termination_by structural entries => entries

theorem releases_writeIdEntry (id : RValue) (isId : RValue → Bool) :
    (entries : List (RValue × RValue)) → (checkKeys : Bool) →
    Releases (writeIdEntry id isId entries checkKeys)
  | [], _ => Releases.pure _
  | (k, v) :: rest, checkKeys => by
    rw [writeIdEntry]
    exact Releases.ite (releases_writeElement id v checkKeys true)
      (releases_writeIdEntry id isId rest checkKeys)
termination_by structural entries => entries

theorem releases_writeDoc (hash : RValue) (checkKeys moveId : Bool) :
    Releases (writeDoc hash checkKeys moveId) := by
  match hash with
  | .hash entries =>
    rw [writeDoc]
    refine releases_writeDocFrame ?_
    dsimp only
    have hrest := fun (_ : Unit) => releases_writeEntries entries checkKeys false
    exact Releases.ite
      (Releases.ite ((releases_writeIdEntry _ _ entries checkKeys).bind hrest)
        (Releases.ite ((releases_writeIdEntry _ _ entries checkKeys).bind hrest)
          ((Releases.pure ()).bind hrest)))
      (releases_writeEntries entries checkKeys true)
  | .integer _ | .bool _ | .float _ | .nil | .array _ | .string _ | .symbol _ | .chars _
  | .binary .. | .byteBuffer _ | .objectId _ | .dbref .. | .code .. | .maxKey | .minKey
  | .timestamp .. | .time _ | .bsonRegex .. | .regexp .. | .object _ | .data _ | .other .. =>
    simp only [writeDoc]
    exact releases_saveSpace.bind fun _ => Releases.ite (Releases.throw rfl) (Releases.freeAndRaise rfl)
termination_by structural hash

end

/-! ## Whole runs of `method_serialize` -/

/-- Every run of `method_serialize` from the buffer `bson_buffer_new` returns: one that
returns the bytes has freed the buffer once, after copying them; one that raises has
freed it once if the exception is raised after a free, and never otherwise. -/
theorem methodSerialize_releases (d : RValue) (checkKeys moveId : Bool) (maxSize : Int)
    (capacity : Nat) :
    (∀ b s', methodSerialize d checkKeys moveId maxSize (Buffer.new capacity) = .ok b s' →
      s'.frees = 1 ∧ b = s'.bytes) ∧
    (∀ e s', methodSerialize d checkKeys moveId maxSize (Buffer.new capacity) = .error e s' →
      s'.frees = if raisedAfterFree e then 1 else 0) := by
  unfold methodSerialize
  have hw := releases_writeDoc d checkKeys moveId
  cases hm : fix2int maxSize with
  | error e =>
    have h1 : liftExcept (.error e : Except RbError Int) (Buffer.new capacity) =
        .error e (Buffer.new capacity) := rfl
    rw [Enc.bind_of_error h1]
    refine ⟨fun _ _ h => (by cases h), fun e' s' h => ?_⟩
    cases h
    exact ((releases_fix2int maxSize).error _ _ _ (hm ▸ h1)).trans (Nat.zero_add _)
  | ok m =>
    have h1 : liftExcept (.ok m : Except RbError Int) (Buffer.new capacity) =
        .ok m (Buffer.new capacity) := rfl
    rw [Enc.bind_of_ok h1, Enc.bind_of_ok (setMaxSize_start m capacity)]
    cases h : writeDoc d checkKeys moveId (startBuffer m capacity) with
    | ok u s' =>
      have hend : (getBuffer >>= fun result => do bsonBufferFree; pure result) s' =
          .ok s'.bytes { s' with frees := s'.frees + 1 } := rfl
      rw [Enc.bind_of_ok h, hend]
      refine ⟨fun b s'' h' => ?_, fun _ _ h' => by cases h'⟩
      cases h'
      simp [hw.grows.frees_eq h, startBuffer]
    | error e s' =>
      rw [Enc.bind_of_error h]
      refine ⟨fun _ _ h' => (by cases h'), fun e' s'' h' => ?_⟩
      cases h'
      simpa [startBuffer] using hw.error _ _ _ h

theorem methodSerialize_releases_empty :
    ∃ b s', methodSerialize (.hash []) false false (2 ^ 31 - 1) (Buffer.new 64) = .ok b s' ∧
      s'.frees = 1 ∧ b = s'.bytes := by
  have h : methodSerialize (.hash []) false false (2 ^ 31 - 1) (Buffer.new 64) =
      .ok [5, 0, 0, 0, 0] ⟨[5, 0, 0, 0, 0], 2 ^ 31 - 1, 64, 1⟩ := rfl
  exact ⟨_, _, h, (methodSerialize_releases _ _ _ _ _).1 _ _ h⟩

/-- A `Timestamp` whose seconds `NUM2UINT` refuses: `serialize` raises `RangeError` and the
buffer was never freed. -/
theorem methodSerialize_timestamp_unreleased :
    ∃ s', methodSerialize (.hash [(.string (ascii "t"), .timestamp (.integer (2 ^ 32)) (.integer 0))])
        false false (2 ^ 31 - 1) (Buffer.new 64) =
      .error (.rangeError "integer 4294967296 too big to convert to `unsigned int'") s' ∧
        s'.frees = 0 :=
  ⟨_, rfl, rfl⟩

end CBson
