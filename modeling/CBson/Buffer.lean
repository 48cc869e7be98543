import CBson.Value

/-!
# The byte buffer

`bson_buffer.c` is not part of the sources; the encoder reaches it through
`bson_buffer_new`, `bson_buffer_write`, `bson_buffer_save_space`,
`bson_buffer_write_at_position`, `bson_buffer_get_position`, the max-size accessors and
`bson_buffer_free`.  The spec (§4.1) describes it as an append-only buffer with a
reservation for a 4-byte slot patched later, every operation of which may fail with
`OutOfMemory`.  `Buffer` models exactly that.  The allocator is a `capacity`: a write
fails when the buffer would outgrow it.  `frees` counts the calls of
`bson_buffer_free`.

The encoder runs in `Enc`, a state monad over `Buffer` whose exceptions keep the state
at the point of the raise, as `rb_raise` leaves the C heap.  `SAFE_WRITE`,
`SAFE_WRITE_AT_POS` and the `save_space` checks of the source become `safeWrite`,
`safeWriteAtPos` and `saveSpace`.

Each primitive comes with the lemma that says what a successful run of it does
(`safeWrite_eq_ok`, `saveSpace_eq_ok`, ...), and `bind_eq_ok` splits a run of a
`do` block into runs of its parts; the encoder proofs use only these.
-/

namespace CBson

/-- Modelled from the spec: the state of a `bson_buffer_t` (§4.1): the bytes written so
far (the position is their length), the maximum document size set by
`bson_buffer_set_max_size`, the memory the allocator grants, and how often the buffer
has been released. -/
structure Buffer where
  bytes : Bytes
  maxSize : Int
  capacity : Nat
  frees : Nat
  deriving DecidableEq, Repr

namespace Buffer

/-- Modelled from the spec: `bson_buffer_new`, an empty buffer with the default cap of
4 MiB. -/
def new (capacity : Nat) : Buffer := ⟨[], 4 * 1024 * 1024, capacity, 0⟩

/-- The buffer after `w` is appended to it. -/
def append (s : Buffer) (w : Bytes) : Buffer := { s with bytes := s.bytes ++ w }

/-- Modelled from the spec: `bson_buffer_write`, append `data`, or fail when the
allocator cannot hold the result. -/
def write (s : Buffer) (data : Bytes) : Option Buffer :=
  if s.bytes.length + data.length ≤ s.capacity then some (s.append data) else none

/-- Modelled from the spec: `bson_buffer_write_at_position`, overwrite
`data.length` bytes at `pos`; it fails on a slot that is not inside the buffer. -/
def writeAtPosition (s : Buffer) (pos : Nat) (data : Bytes) : Option Buffer :=
  if pos + data.length ≤ s.bytes.length then
    some { s with bytes := s.bytes.take pos ++ data ++ s.bytes.drop (pos + data.length) }
  else none

@[simp] theorem append_nil (s : Buffer) : s.append [] = s := by simp [append]

@[simp] theorem append_append (s : Buffer) (u w : Bytes) :
    (s.append u).append w = s.append (u ++ w) := by simp [append]

@[simp] theorem bytes_append (s : Buffer) (w : Bytes) : (s.append w).bytes = s.bytes ++ w := rfl

@[simp] theorem maxSize_append (s : Buffer) (w : Bytes) : (s.append w).maxSize = s.maxSize := rfl

@[simp] theorem capacity_append (s : Buffer) (w : Bytes) :
    (s.append w).capacity = s.capacity := rfl

@[simp] theorem frees_append (s : Buffer) (w : Bytes) : (s.append w).frees = s.frees := rfl

theorem write_eq_some {s s' : Buffer} {data : Bytes} :
    s.write data = some s' ↔ s.bytes.length + data.length ≤ s.capacity ∧ s' = s.append data := by
  unfold write
  split <;> simp_all [eq_comm]

/-- Patching the reserved slot of a frame that was appended to `s`. -/
theorem writeAtPosition_append (s : Buffer) {slot data : Bytes} (rest : Bytes)
    (h : slot.length = data.length) :
    (s.append (slot ++ rest)).writeAtPosition s.bytes.length data =
      some (s.append (data ++ rest)) := by
  have hdrop : (s.bytes ++ (slot ++ rest)).drop (s.bytes.length + data.length) = rest := by
    rw [List.drop_append_eq_append_drop]
    simp [h, List.drop_left']
  simp only [writeAtPosition, bytes_append, List.length_append]
  rw [if_pos (by omega), hdrop]
  simp [append]

end Buffer

/-- The encoder's monad: a `Buffer` state, and Ruby exceptions that keep the state they
were raised in. -/
abbrev Enc := EStateM RbError Buffer

namespace Enc

variable {α β : Type}

theorem bind_eq_ok {x : Enc α} {f : α → Enc β} {s s'' : Buffer} {b : β} :
    (x >>= f) s = .ok b s'' ↔ ∃ a s', x s = .ok a s' ∧ f a s' = .ok b s'' := by
  show EStateM.bind x f s = _ ↔ _
  unfold EStateM.bind
  cases x s <;> simp [and_assoc]

theorem bind_of_ok {x : Enc α} {f : α → Enc β} {s s' : Buffer} {a : α} (h : x s = .ok a s') :
    (x >>= f) s = f a s' := by
  show EStateM.bind x f s = _
  unfold EStateM.bind
  rw [h]

theorem bind_of_error {x : Enc α} {f : α → Enc β} {s s' : Buffer} {e : RbError}
    (h : x s = .error e s') : (x >>= f) s = .error e s' := by
  show EStateM.bind x f s = _
  unfold EStateM.bind
  rw [h]

@[simp] theorem pure_apply (a : α) (s : Buffer) : (pure a : Enc α) s = .ok a s := rfl

@[simp] theorem throw_apply (e : RbError) (s : Buffer) : (throw e : Enc α) s = .error e s := rfl

end Enc

/-- `bson_buffer_get_position`. -/
def getPosition : Enc Nat := fun s => .ok s.bytes.length s

/-- `bson_buffer_get_max_size`. -/
def getMaxSize : Enc Int := fun s => .ok s.maxSize s

/-- `bson_buffer_set_max_size`. -/
def setMaxSize (m : Int) : Enc Unit := fun s => .ok () { s with maxSize := m }

/-- `bson_buffer_free`. -/
def bsonBufferFree : Enc Unit := fun s => .ok () { s with frees := s.frees + 1 }

/-- The idiom `bson_buffer_free(buffer); rb_raise(...)`. -/
def freeAndRaise (e : RbError) : Enc Unit := do
  bsonBufferFree
  throw e

/-- `SAFE_WRITE(buffer, data, size)` of a whole byte string. -/
def safeWrite (data : Bytes) : Enc Unit := fun s =>
  match s.write data with
  | some s' => .ok () s'
  | none => .error (.noMemError "failed to allocate memory in bson_buffer.c") s

/-- `SAFE_WRITE(buffer, src, size)` with a C `int` size: the first `size` bytes of `src`.
A negative size, or one past the end of `src`, makes the `memcpy` undefined. -/
def safeWriteN (src : Bytes) (size : Int) : Enc Unit :=
  if 0 ≤ size ∧ size ≤ src.length then safeWrite (src.take size.toNat)
  else throw (.undefinedBehavior "SAFE_WRITE of a negative or overlong size")

/-- `bson_buffer_save_space(buffer, 4)` followed by the source's check
`if (length_location == -1) rb_raise(rb_eNoMemError, ...)`: reserve a 4-byte slot and
return its position.  The slot's contents are not initialised; the model writes zeros. -/
def saveSpace : Enc Nat := fun s =>
  match s.write [0, 0, 0, 0] with
  | some s' => .ok s.bytes.length s'
  | none => .error (.noMemError "failed to allocate memory in buffer.c") s

/-- `SAFE_WRITE_AT_POS(buffer, pos, data, size)`. -/
def safeWriteAtPos (pos : Nat) (data : Bytes) : Enc Unit := fun s =>
  match s.writeAtPosition pos data with
  | some s' => .ok () s'
  | none => .error (.runtimeError "invalid write at position in bson_buffer.c") s

/-- A host conversion that may raise (`FIX2INT`, `NUM2UINT`), inside the encoder.  The
buffer is not released. -/
def liftExcept (x : Except RbError α) : Enc α := fun s =>
  match x with
  | .ok a => .ok a s
  | .error e => .error e s

/-! ## What a successful primitive does -/

section Primitives

variable {s s' : Buffer}

@[simp] theorem getPosition_apply (s : Buffer) : getPosition s = .ok s.bytes.length s := rfl

@[simp] theorem getMaxSize_apply (s : Buffer) : getMaxSize s = .ok s.maxSize s := rfl

theorem safeWrite_eq_ok {data : Bytes} {u : Unit} :
    safeWrite data s = .ok u s' ↔ s.bytes.length + data.length ≤ s.capacity ∧ s' = s.append data := by
  unfold safeWrite
  rw [← Buffer.write_eq_some]
  split <;> simp_all

theorem safeWrite_append {data : Bytes} (h : s.bytes.length + data.length ≤ s.capacity) :
    safeWrite data s = .ok () (s.append data) :=
  safeWrite_eq_ok.2 ⟨h, rfl⟩

theorem saveSpace_eq_ok {p : Nat} :
    saveSpace s = .ok p s' ↔
      s.bytes.length + 4 ≤ s.capacity ∧ p = s.bytes.length ∧ s' = s.append [0, 0, 0, 0] := by
  unfold saveSpace
  split <;> rename_i h
  · rw [Buffer.write_eq_some] at h
    simp only [EStateM.Result.ok.injEq]
    constructor
    · rintro ⟨rfl, rfl⟩; exact ⟨h.1, rfl, h.2⟩
    · rintro ⟨-, rfl, rfl⟩; exact ⟨rfl, h.2⟩
  · simp only [Buffer.write, List.length_cons, List.length_nil] at h
    split at h <;> simp_all

theorem safeWriteN_eq_ok {src : Bytes} {size : Int} {u : Unit} :
    safeWriteN src size s = .ok u s' ↔
      0 ≤ size ∧ size ≤ src.length ∧ s.bytes.length + size.toNat ≤ s.capacity ∧
        s' = s.append (src.take size.toNat) := by
  unfold safeWriteN
  split <;> rename_i h
  · rw [safeWrite_eq_ok, List.length_take]
    constructor
    · rintro ⟨h1, rfl⟩; exact ⟨h.1, h.2, by omega, rfl⟩
    · rintro ⟨-, -, h2, rfl⟩; exact ⟨by omega, rfl⟩
  · refine ⟨fun h' => (by cases h'), ?_⟩
    rintro ⟨h1, h2, -⟩
    exact absurd ⟨h1, h2⟩ h

@[simp] theorem bsonBufferFree_apply (s : Buffer) :
    bsonBufferFree s = .ok () { s with frees := s.frees + 1 } := rfl

@[simp] theorem freeAndRaise_apply (e : RbError) (s : Buffer) :
    freeAndRaise e s = .error e { s with frees := s.frees + 1 } := rfl

end Primitives

end CBson
