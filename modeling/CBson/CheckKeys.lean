import CBson.SizeCap

/-!
# `check_keys` only filters

With `check_keys` on, `write_element` tests each key it is about to write and raises
`InvalidKeyName` on a key that starts with `$` or contains `.`; with it off, it writes
the same bytes without the tests.  The keys it tests are `docKeys d moveId`: the keys of
the document and of every hash reached through hash values and array elements, except
under a DBRef or in a code scope, which are written with `check_keys` off.  Under
`move_id`, an entry whose key reads `"_id"` as a C string is skipped before its key is
tested, and its value is never looked at.

## Strategy

Both directions of the filter are `sim_writeDoc` with equal buffers: a passing key test
is simulated by no test at all (`keySims_true_false`), and no test by a test of a key that
passes (`keySims_false_true`).  That the keys of a successful run with the tests on all
pass is a one-run property, proved by following the encoder's mutual functions
(`ensures_writeElement` and its siblings).  When a key fails, the same simulation lets the
run with the tests stop at a failing test (`keySims_false_raising`), and the one-run
property rules out that it returns.
-/

namespace CBson

variable {α β : Type}

/-- Every successful run of `x` establishes `P`. -/
def Ensures (x : Enc α) (P : Prop) : Prop := ∀ s a s', x s = .ok a s' → P

namespace Ensures

theorem bind_left {x : Enc α} {f : α → Enc β} {P : Prop} (hx : Ensures x P) :
    Ensures (x >>= f) P := fun _ _ _ h =>
  let ⟨_, _, h1, _⟩ := Enc.bind_eq_ok.1 h
  hx _ _ _ h1

theorem bind_right {x : Enc α} {f : α → Enc β} {P : Prop} (hf : ∀ a, Ensures (f a) P) :
    Ensures (x >>= f) P := fun _ _ _ h =>
  let ⟨a, _, _, h2⟩ := Enc.bind_eq_ok.1 h
  hf a _ _ _ h2

theorem of_forall_mem_nil {x : Enc α} {P : Bytes → Prop} : Ensures x (∀ k ∈ ([] : List Bytes), P k) :=
  fun _ _ _ _ _ h => absurd h (List.not_mem_nil _)

theorem forall_mem_append {x : Enc α} {P : Bytes → Prop} {l₁ l₂ : List Bytes}
    (h₁ : Ensures x (∀ k ∈ l₁, P k)) (h₂ : Ensures x (∀ k ∈ l₂, P k)) :
    Ensures x (∀ k ∈ l₁ ++ l₂, P k) := fun s a s' h k hk =>
  (List.mem_append.1 hk).elim (h₁ s a s' h k) (h₂ s a s' h k)

end Ensures

theorem ensures_checkKey (k : Bytes) : Ensures (checkKey k) (KeyOk k) :=
  fun _ _ _ h => (checkKey_eq_ok.1 h).1

theorem ensures_check_bind {k : Bytes} {f : Unit → Enc β} {l : List Bytes}
    (hf : ∀ a, Ensures (f a) (∀ k' ∈ l, KeyOk k')) :
    Ensures (checkKey k >>= f) (∀ k' ∈ k :: l, KeyOk k') := fun s a s' h k' hk' =>
  (List.mem_cons.1 hk').elim (fun e => e ▸ (ensures_checkKey k).bind_left s a s' h)
    ((Ensures.bind_right hf) s a s' h k')

theorem ensures_writeFrame {body : Enc Unit} {P : Prop} (h : Ensures body P) :
    Ensures (writeFrame body) P :=
  .bind_right fun _ => .bind_right fun _ => .bind_left h

theorem ensures_writeDocFrame {body : Enc Unit} {P : Prop} (h : Ensures body P) :
    Ensures (writeDocFrame body) P :=
  .bind_right fun _ => .bind_right fun _ => .bind_left h

mutual

theorem ensures_writeElement (key value : RValue) (allowId : Bool) :
    Ensures (writeElement key value true allowId) (∀ k ∈ elementKeys key value allowId, KeyOk k) := by
  rw [writeElement, elementKeys_eq, keyThen]
  cases key.keyString? with
  | none => exact fun _ _ _ h => by cases h
  | some k =>
    dsimp only
    by_cases hskip : (!allowId && cstr k == ascii "_id") = true
    · rw [if_pos hskip, if_pos hskip]
      exact .of_forall_mem_nil
    rw [if_neg hskip, if_neg hskip, if_pos rfl]
    refine ensures_check_bind fun _ => ?_
    cases value with
    | hash entries =>
      exact .bind_right fun _ => ensures_writeDocFrame (ensures_writeEntries entries true)
    | array items =>
      exact .bind_right fun _ => ensures_writeFrame (.bind_left (ensures_writeArrayItems items 0 _))
    | _ => exact .of_forall_mem_nil
termination_by structural value

theorem ensures_writeArrayItems : (values : List RValue) → (i : Nat) → (items : Int) →
    Ensures (writeArrayItems values i items true) (∀ k ∈ arrayItemKeys values i items, KeyOk k)
  | [], _, _ => .of_forall_mem_nil
  | v :: rest, i, items => by
    rw [writeArrayItems, arrayItemKeys]
    by_cases hi : (i : Int) < items
    · rw [if_pos hi, if_pos hi]
      exact .forall_mem_append (.bind_left (ensures_writeElement _ v true))
        (.bind_right fun _ => ensures_writeArrayItems rest (i + 1) items)
    · rw [if_neg hi, if_neg hi]
      exact .of_forall_mem_nil
termination_by structural values => values

theorem ensures_writeEntries : (entries : List (RValue × RValue)) → (allowId : Bool) →
    Ensures (writeEntries entries true allowId) (∀ k ∈ entriesKeys entries allowId, KeyOk k)
  | [], _ => .of_forall_mem_nil
  | (k, v) :: rest, allowId => by
    rw [writeEntries, entriesKeys]
    exact .forall_mem_append (.bind_left (ensures_writeElement k v allowId))
      (.bind_right fun _ => ensures_writeEntries rest allowId)
termination_by structural entries => entries

theorem ensures_writeIdEntry (id : RValue) (isId : RValue → Bool) :
    (entries : List (RValue × RValue)) →
    Ensures (writeIdEntry id isId entries true) (∀ k ∈ idEntryKeys id isId entries, KeyOk k)
  | [] => .of_forall_mem_nil
  | (k, v) :: rest => by
    rw [writeIdEntry, idEntryKeys]
    by_cases hid : isId k = true
    · rw [if_pos hid, if_pos hid]
      exact ensures_writeElement id v true
    · rw [if_neg hid, if_neg hid]
      exact ensures_writeIdEntry id isId rest
termination_by structural entries => entries

end

theorem ensures_writeDoc (hash : RValue) (moveId : Bool) :
    Ensures (writeDoc hash true moveId) (∀ k ∈ docKeys hash moveId, KeyOk k) := by
  match hash with
  | .hash entries =>
    rw [writeDoc, docKeys]
    refine ensures_writeDocFrame ?_
    by_cases hm : moveId = true
    · have hrest := ensures_writeEntries entries false
      by_cases hs : entries.any (·.1.isString (ascii "_id")) = true
      · simp only [hm, hs, if_true]
        exact .forall_mem_append (.bind_left (ensures_writeIdEntry _ _ entries)) (.bind_right fun _ => hrest)
      by_cases hy : entries.any (·.1.isSymbol (ascii "_id")) = true
      · simp only [hm, hs, hy, if_true, if_false]
        exact .forall_mem_append (.bind_left (ensures_writeIdEntry _ _ entries)) (.bind_right fun _ => hrest)
      · simp only [hm, hs, hy, if_true, if_false, pure_bind, List.nil_append]
        exact hrest
    · simp only [hm, if_false]
      exact ensures_writeEntries entries true
  | .integer _ | .bool _ | .float _ | .nil | .array _ | .string _ | .symbol _ | .chars _
  | .binary .. | .byteBuffer _ | .objectId _ | .dbref .. | .code .. | .maxKey | .minKey
  | .timestamp .. | .time _ | .bsonRegex .. | .regexp .. | .object _ | .data _ | .other .. =>
    simp only [docKeys]
    exact .of_forall_mem_nil

/-! ## The two runs -/

/-- A key test that passes is no test at all. -/
theorem keySims_true_false (n : Nat) (keys : List Bytes) :
    KeySims Eq n (fun _ => False) true false keys := by
  intro k _
  simp only [if_true, Bool.false_eq_true, if_false]
  refine ⟨.of_eq fun _ _ _ h => (checkKey_eq_ok.1 h).2, fun s t _ _ h hx _ => ?_⟩
  obtain ⟨-, rfl⟩ := checkKey_eq_ok.1 hx
  exact .inl ⟨t, rfl, h⟩

/-- No test is a test of a key that passes. -/
theorem keySims_false_true (n : Nat) {keys : List Bytes} (hk : ∀ k ∈ keys, KeyOk k) :
    KeySims Eq n (fun _ => False) false true keys := by
  intro k hmem
  simp only [if_true, Bool.false_eq_true, if_false]
  refine ⟨.of_eq fun _ _ _ h => by cases h; rfl, fun s t _ _ h hx _ => ?_⟩
  cases hx
  exact .inl ⟨t, checkKey_eq_ok.2 ⟨hk k hmem, rfl⟩, h⟩

/-- `serialize` with `check_keys` returns bytes exactly when it does without, and every key
the encoder tests passes; the bytes are the same. -/
theorem serialize_checkKeys_filter (d : RValue) (moveId : Bool) (maxSize : Int) (capacity : Nat)
    (b : Bytes) :
    serialize d true moveId maxSize capacity = .ok b ↔
      serialize d false moveId maxSize capacity = .ok b ∧ ∀ k ∈ docKeys d moveId, KeyOk k := by
  constructor
  · intro h
    obtain ⟨hm, s', hrun, -⟩ := serialize_eq_ok.1 h
    have hsim := sim_writeDoc (compat_eq b.length) d true false moveId (keySims_true_false _ _)
    rcases serialize_sim (compat_eq _) hsim h hm rfl le_rfl with h' | ⟨_, ⟨⟩, _⟩
    exact ⟨h', ensures_writeDoc d moveId _ _ _ hrun⟩
  · rintro ⟨h, hk⟩
    obtain ⟨hm, -⟩ := serialize_eq_ok.1 h
    have hsim := sim_writeDoc (compat_eq b.length) d false true moveId (keySims_false_true _ hk)
    rcases serialize_sim (compat_eq _) hsim h hm rfl le_rfl with h' | ⟨_, ⟨⟩, _⟩
    exact h'

/-! ## What the tests raise -/

/-- No test is a test that passes, or that raises `keyError` of a failing key of `keys`. -/
theorem keySims_false_raising (n : Nat) (keys : List Bytes) :
    KeySims Eq n (fun e => ∃ k ∈ keys, ¬KeyOk k ∧ e = keyError k) false true keys := by
  intro k hmem
  simp only [if_true, Bool.false_eq_true, if_false]
  refine ⟨.of_eq fun _ _ _ h => by cases h; rfl, fun s t _ _ h hx _ => ?_⟩
  cases hx
  subst h
  by_cases hk : KeyOk k
  · exact .inl ⟨s, checkKey_eq_ok.2 ⟨hk, rfl⟩, rfl⟩
  · exact .inr ⟨_, _, checkKey_of_not_keyOk hk s, k, hmem, hk, rfl⟩

/-- When `serialize` without `check_keys` returns and a key the tests would see fails
them, `serialize` with `check_keys` raises `InvalidKeyName` with the message of one of
the failing keys, and no other exception. -/
theorem serialize_checkKeys_raises (d : RValue) (moveId : Bool) (maxSize : Int)
    (capacity : Nat) {b : Bytes} (h : serialize d false moveId maxSize capacity = .ok b)
    (hbad : ∃ k ∈ docKeys d moveId, ¬KeyOk k) :
    ∃ k ∈ docKeys d moveId, ¬KeyOk k ∧
      serialize d true moveId maxSize capacity = .error (keyError k) := by
  obtain ⟨hm, -⟩ := serialize_eq_ok.1 h
  have hsim := sim_writeDoc (compat_eq_of b.length _) d false true moveId
    (keySims_false_raising _ _)
  rcases serialize_sim (compat_eq_of _ _) hsim h hm rfl le_rfl with h' | ⟨_, ⟨k, hk, hbadk, rfl⟩, he⟩
  · obtain ⟨-, s', hrun, -⟩ := serialize_eq_ok.1 h'
    obtain ⟨k, hk, hbadk⟩ := hbad
    exact absurd (ensures_writeDoc d moveId _ _ _ hrun k hk) hbadk
  · exact ⟨k, hk, hbadk, he⟩

theorem serialize_checkKeys_raises_dollar :
    serialize (.hash [(.string (ascii "$a"), .integer 1)]) false false (2 ^ 31 - 1) 64 =
        .ok [13, 0, 0, 0, 16, 36, 97, 0, 1, 0, 0, 0, 0] ∧
      (∃ k ∈ docKeys (.hash [(.string (ascii "$a"), .integer 1)]) false, ¬KeyOk k) ∧
      ∃ k ∈ docKeys (.hash [(.string (ascii "$a"), .integer 1)]) false, ¬KeyOk k ∧
        serialize (.hash [(.string (ascii "$a"), .integer 1)]) true false (2 ^ 31 - 1) 64 =
          .error (keyError k) :=
  ⟨by rfl, by decide, serialize_checkKeys_raises _ _ _ _ (by rfl) (by decide)⟩

mutual

/-- The keys of a value's hashes, reached through hash values and array elements, with
`Symbol` keys read as strings; DBRefs and code scopes are not entered. -/
def reachableKeys : RValue → List Bytes
  | .hash entries => entryKeys entries
  | .array items => itemKeys items
  | _ => []

/-- `reachableKeys` over the entries of a hash: each key, then the keys below its value. -/
def entryKeys : List (RValue × RValue) → List Bytes
  | [] => []
  | (k, v) :: rest => k.keyString?.toList ++ reachableKeys v ++ entryKeys rest

/-- `reachableKeys` over the items of an array. -/
def itemKeys : List RValue → List Bytes
  | [] => []
  | v :: rest => reachableKeys v ++ itemKeys rest

end

/-- With `move_id`, `{"_id" => 1, :_id => {"a.b" => 1}}` serializes with `check_keys` on:
the `:_id` entry is skipped before its key is tested, so the key `"a.b"` below it is
never tested. -/
theorem serialize_checkKeys_skips_symbol_id :
    serialize (.hash [(.string (ascii "_id"), .integer 1),
        (.symbol (ascii "_id"), .hash [(.string (ascii "a.b"), .integer 1)])]) true true
        (2 ^ 31 - 1) 64 = .ok [14, 0, 0, 0, 16, 95, 105, 100, 0, 1, 0, 0, 0, 0] ∧
      ascii "a.b" ∈ reachableKeys (.hash [(.string (ascii "_id"), .integer 1),
        (.symbol (ascii "_id"), .hash [(.string (ascii "a.b"), .integer 1)])]) ∧
      ¬KeyOk (ascii "a.b") :=
  ⟨rfl, by decide, by decide⟩

end CBson
