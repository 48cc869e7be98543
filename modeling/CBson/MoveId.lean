import CBson.Encoder

/-!
# `move_id` is a reordering

With `move_id`, `write_doc` writes the hash's `'_id'` entry, else its `:_id` entry, first
and under the key it looked up, and then every entry through `write_element_without_id`,
which skips a key whose C string is `"_id"`.  Without `move_id`, every entry goes through
`write_element_with_id` in order.  So a `move_id` run is the plain run of another hash,
`moveIdEntries entries`: the looked-up entry, then the entries whose key does not read
`"_id"`.  The skip compares C strings, so a key `"_id\0..."` is dropped along with the
`_id` keys.  The plain run merges no `'_id'` with a `:_id`: the test meant to do it,
`(rb_obj_classname(hash), "Hash") == 0`, is a comma expression and always false.

## Strategy

`writeElement_without_id` states the one thing `allow_id = 0` changes, the skip.  By
induction over the entries, `write_element_without_id` over all entries is
`write_element_with_id` over the kept ones (`writeEntries_without_id`), and the looked-up
entry is a run of one entry (`writeIdEntry_eq`); `writeEntries_append` joins the two.
-/

namespace CBson

/-- The keys `write_element_without_id` skips: those whose C string is `"_id"`. -/
def readsId (key : RValue) : Bool := key.keyString?.any (cstr · == ascii "_id")

/-- `write_element_with_id(id, hash[id], ...)` as entries: the value of the first entry
whose key `isId` recognises, under the key `id`. -/
def lookupAs (id : RValue) (isId : RValue → Bool) (entries : List (RValue × RValue)) :
    List (RValue × RValue) :=
  ((entries.find? (isId ·.1)).map fun kv => (id, kv.2)).toList

/-- The entry `write_doc` writes first under `move_id`. -/
def idEntry (entries : List (RValue × RValue)) : List (RValue × RValue) :=
  if entries.any (·.1.isString (ascii "_id")) then
    lookupAs (.string (ascii "_id")) (·.isString (ascii "_id")) entries
  else if entries.any (·.1.isSymbol (ascii "_id")) then
    lookupAs (.symbol (ascii "_id")) (·.isSymbol (ascii "_id")) entries
  else []

/-- The hash whose plain run a `move_id` run is. -/
def moveIdEntries (entries : List (RValue × RValue)) : List (RValue × RValue) :=
  idEntry entries ++ entries.filter (!readsId ·.1)

theorem writeElement_without_id (key value : RValue) (ck : Bool) :
    writeElement key value ck false =
      if readsId key then pure () else writeElement key value ck true := by
  rw [writeElement, writeElement, readsId]
  cases key.keyString? <;> simp

theorem writeEntries_without_id (ck : Bool) : (entries : List (RValue × RValue)) →
    writeEntries entries ck false = writeEntries (entries.filter (!readsId ·.1)) ck true
  | [] => rfl
  | (k, v) :: rest => by
    rw [writeEntries, writeElement_without_id, writeEntries_without_id ck rest]
    by_cases h : readsId k = true
    · rw [if_pos h, pure_bind, List.filter_cons_of_neg (by simp [h])]
    · rw [if_neg h, List.filter_cons_of_pos (by simpa using h), writeEntries]

theorem writeEntries_append (ck allowId : Bool) : (l₁ l₂ : List (RValue × RValue)) →
    writeEntries (l₁ ++ l₂) ck allowId =
      (do writeEntries l₁ ck allowId; writeEntries l₂ ck allowId)
  | [], _ => by rw [List.nil_append, writeEntries, pure_bind]
  | (k, v) :: rest, l₂ => by
    rw [List.cons_append, writeEntries, writeEntries, writeEntries_append ck allowId rest,
      bind_assoc]

theorem writeIdEntry_eq (id : RValue) (isId : RValue → Bool) (ck : Bool) :
    (entries : List (RValue × RValue)) →
    writeIdEntry id isId entries ck = writeEntries (lookupAs id isId entries) ck true
  | [] => rfl
  | (k, v) :: rest => by
    rw [writeIdEntry]
    by_cases h : isId k = true
    · simp [h, lookupAs, writeEntries]
    · simp only [h, if_false, Bool.false_eq_true, writeIdEntry_eq id isId ck rest]
      simp [h, lookupAs]

/-- With `move_id`, `write_doc` on a hash does what it does without on `moveIdEntries`. -/
theorem writeDoc_moveId (entries : List (RValue × RValue)) (ck : Bool) :
    writeDoc (.hash entries) ck true = writeDoc (.hash (moveIdEntries entries)) ck false := by
  simp only [writeDoc, if_true, Bool.false_eq_true, if_false]
  rw [moveIdEntries, writeEntries_append, writeEntries_without_id, idEntry]
  by_cases hs : entries.any (·.1.isString (ascii "_id")) = true
  · simp only [hs, if_true, writeIdEntry_eq]
  by_cases hy : entries.any (·.1.isSymbol (ascii "_id")) = true
  · simp only [hs, hy, if_true, Bool.false_eq_true, if_false, writeIdEntry_eq]
  · simp only [hs, hy, Bool.false_eq_true, if_false, writeEntries]

/-- `serialize` with `move_id` on a hash is `serialize` without it on `moveIdEntries`. -/
theorem serialize_moveId (entries : List (RValue × RValue)) (ck : Bool) (m : Int)
    (capacity : Nat) :
    serialize (.hash entries) ck true m capacity =
      serialize (.hash (moveIdEntries entries)) ck false m capacity := by
  rw [serialize, serialize, methodSerialize, methodSerialize, writeDoc_moveId]

/-- A key that reads `"_id"` only up to a NUL is dropped under `move_id`, and refused
without it. -/
theorem serialize_moveId_drops_nul_id :
    moveIdEntries [(.string (ascii "_id" ++ [0, 120]), .integer 1)] = [] ∧
    serialize (.hash [(.string (ascii "_id" ++ [0, 120]), .integer 1)]) false true
      (2 ^ 31 - 1) 100 = .ok [5, 0, 0, 0, 0] ∧
    serialize (.hash [(.string (ascii "_id" ++ [0, 120]), .integer 1)]) false false
      (2 ^ 31 - 1) 100 =
      .error (.invalidDocument "Key names / regex patterns must not contain the NULL byte") :=
  ⟨rfl, rfl, rfl⟩

/-- Without `move_id`, a hash with both `'_id'` and `:_id` is written with both. -/
theorem serialize_keeps_both_ids :
    serialize (.hash [(.string (ascii "_id"), .integer 1), (.symbol (ascii "_id"), .integer 2)])
      false false (2 ^ 31 - 1) 100 =
      .ok [23, 0, 0, 0, 16, 95, 105, 100, 0, 1, 0, 0, 0, 16, 95, 105, 100, 0, 2, 0, 0, 0, 0] :=
  rfl

end CBson
