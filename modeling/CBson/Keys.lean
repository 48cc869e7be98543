import CBson.Encoder

/-!
# The keys `check_keys` looks at

`write_element` tests its key against `check_keys` after the `'_id'` skip and before it
writes anything, and passes `check_keys` on to the elements of a nested hash or array
but not to a DBRef's `$ref`/`$id` pair or a code scope, which it writes with `Qfalse`.
`elementKeys` and its siblings follow `writeElement` and its siblings call for call and
list the keys the tests see, in the order they see them.  `docKeys` does the same for
`write_doc`, with the `_id` entry that `move_id` puts first.
-/

namespace CBson

/-- The test of `check_keys`: a key passes when it neither starts with `$` nor contains
`.`. -/
def KeyOk (key : Bytes) : Prop := key.head? ≠ some 36 ∧ (46 : UInt8) ∉ key

instance (key : Bytes) : Decidable (KeyOk key) := inferInstanceAs (Decidable (_ ∧ _))

/-- The key `write_element(key, ...)` tests, unless it raises on the key's class or skips
an `'_id'`, followed by `rest`. -/
def keyThen (key : RValue) (allowId : Bool) (rest : List Bytes) : List Bytes :=
  match key.keyString? with
  | none => []
  | some key => if !allowId && cstr key == ascii "_id" then [] else key :: rest

mutual

/-- The keys tested by `write_element(key, value, ...)` with `check_keys` on. -/
def elementKeys (key value : RValue) (allowId : Bool) : List Bytes :=
  match value with
  | .hash entries => keyThen key allowId (entriesKeys entries true)
  | .array items => keyThen key allowId (arrayItemKeys items 0 (toInt32 items.length))
  | _ => keyThen key allowId []
termination_by structural value

/-- The keys tested by the array loop. -/
def arrayItemKeys (values : List RValue) (i : Nat) (items : Int) : List Bytes :=
  match values with
  | [] => []
  | v :: rest =>
    if (i : Int) < items then elementKeys (.string (decimal i)) v true ++ arrayItemKeys rest (i + 1) items
    else []
termination_by structural values

/-- The keys tested by `rb_hash_foreach(hash, write_function, ...)`. -/
def entriesKeys (entries : List (RValue × RValue)) (allowId : Bool) : List Bytes :=
  match entries with
  | [] => []
  | (k, v) :: rest => elementKeys k v allowId ++ entriesKeys rest allowId
termination_by structural entries

/-- The keys tested by `write_element_with_id(id, hash[id], ...)`. -/
def idEntryKeys (id : RValue) (isId : RValue → Bool) (entries : List (RValue × RValue)) :
    List Bytes :=
  match entries with
  | [] => []
  | (k, v) :: rest => if isId k then elementKeys id v true else idEntryKeys id isId rest
termination_by structural entries

end

/-- The keys below a value that `write_element` passes `check_keys` on to. -/
def nestedKeys (value : RValue) : List Bytes :=
  match value with
  | .hash entries => entriesKeys entries true
  | .array items => arrayItemKeys items 0 (toInt32 items.length)
  | _ => []

theorem elementKeys_eq (key value : RValue) (allowId : Bool) :
    elementKeys key value allowId = keyThen key allowId (nestedKeys value) := by
  cases value <;> simp only [elementKeys, nestedKeys]

/-- The keys tested by `write_doc(buffer, hash, check_keys, move_id)`. -/
def docKeys (hash : RValue) (moveId : Bool) : List Bytes :=
  match hash with
  | .hash entries =>
    if moveId then
      (if entries.any (·.1.isString (ascii "_id")) then
        idEntryKeys (.string (ascii "_id")) (·.isString (ascii "_id")) entries
      else if entries.any (·.1.isSymbol (ascii "_id")) then
        idEntryKeys (.symbol (ascii "_id")) (·.isSymbol (ascii "_id")) entries
      else []) ++ entriesKeys entries false
    else entriesKeys entries true
  | _ => []

theorem checkKey_eq_ok {key : Bytes} {s s' : Buffer} {u : Unit} :
    checkKey key s = .ok u s' ↔ KeyOk key ∧ s' = s := by
  unfold checkKey KeyOk
  by_cases h1 : key.head? = some 36
  · rw [if_pos h1, Enc.bind_of_error (freeAndRaise_apply _ _)]
    simp [h1]
  · simp only [if_neg h1, pure_bind]
    by_cases h2 : (46 : UInt8) ∈ key
    · rw [if_pos h2, freeAndRaise_apply]
      simp [h2]
    · rw [if_neg h2, Enc.pure_apply, EStateM.Result.ok.injEq]
      exact ⟨fun h => ⟨⟨h1, h2⟩, h.2.symm⟩, fun h => ⟨rfl, h.2.symm⟩⟩

/-- The exception the tests of `check_keys` raise on a key that fails them: the `$`
test comes first. -/
def keyError (key : Bytes) : RbError :=
  if key.head? = some 36 then .invalidKeyName s!"key {cText key} must not start with '$'"
  else .invalidKeyName s!"key {cText key} must not contain '.'"

theorem checkKey_of_not_keyOk {key : Bytes} (h : ¬KeyOk key) (s : Buffer) :
    checkKey key s = .error (keyError key) { s with frees := s.frees + 1 } := by
  unfold checkKey keyError
  by_cases h1 : key.head? = some 36
  · rw [if_pos h1, Enc.bind_of_error (freeAndRaise_apply _ _), if_pos h1]
  · have h2 : (46 : UInt8) ∈ key := by_contra fun h2 => h ⟨h1, h2⟩
    simp only [if_neg h1, pure_bind, if_pos h2, freeAndRaise_apply]

end CBson
