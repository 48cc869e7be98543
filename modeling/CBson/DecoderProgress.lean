import CBson.WireCanonical
import CBson.DecoderWire

/-!
# `deserialize` ends unless a size moves the position back

`get_value` moves the position past what it reads, except in three cases, where it adds a
size it finds in the input: the leading `int32` of an embedded document (tag 3), the length
of a Symbol (tag 14) and the size of the scope of code with scope (tag 15).  A negative one
of these sizes moves the position back, and the element loop can then read the same bytes
again and again with the same hash (`methodDeserialize_negative_size`).  Every other size
is checked by the read it governs: a zero or negative String or Binary length makes
`STR_NEW` raise, and a negative array size ends the array loop at once.

So on every input of fewer than `2^30 - 1` bytes whose three kinds of size are non-negative
and end within the input (`sizesInRange`), whatever else the bytes hold, `deserialize` ends
with `|b| + 2` units of fuel: it returns, raises, or makes a read outside the input, where
the model stops (`methodDeserialize_ends`).  Every iteration of the element loop and of the
array loop moves the position forward on such an input.

## Strategy

`Ends c x P` says that `x` does not run out of fuel when `c` holds, and that every value it
returns satisfies `P`, whatever the fuel.  It is closed under `>>=` and `if`, and each read
ends and says where it read (`ends_bytesAt`, …).

The step (`getEnds_succ`): a call of `get_value` at `a = base + pos` with more fuel than
there are bytes after `a` ends; when its size is in range and `a` lies in the input, it
returns a position after `pos` and at most `2|b| + 2 - a` past `base`.  The bound leaves
room for the byte each array skips after its items, one per level of nesting.  The loops
(`itemsEnds_succ`, `fieldsEnds_succ`): each iteration reads its type byte inside the input,
so the value after it starts at least two bytes on, its position is after that, and the
fuel left still exceeds the bytes left.  The run (`ends_of_fuel`) is one induction on the
fuel over the four mutual functions.
-/

namespace CBson

variable {α β : Type}

/-! ## The sizes that move the position -/

/-- The `int32` at `a` is non-negative, and the value it measures, `skip` bytes on from
`a`, ends within `b`.  A field that cannot be read passes. -/
def sizeFieldOk (b : Bytes) (a skip : Int) : Bool :=
  match int32At b a with
  | .ok n => decide (0 ≤ n ∧ a + skip + n ≤ b.length)
  | .error _ => true

/-- The size `get_value` adds to the position for a value of type `type` at `a` is in range:
the leading `int32` of an embedded document, the length of a Symbol after its four bytes,
the size of the scope of code with scope.  The other types move by what they read. -/
def sizeOk (b : Bytes) (type : UInt8) (a : Int) : Bool :=
  if type = 3 then sizeFieldOk b a 0
  else if type = 14 then sizeFieldOk b a 4
  else if type = 15 then
    match int32At b (a + 4) with
    | .ok c => sizeFieldOk b (a + 8 + c) 0
    | .error _ => true
  else true

/-- Every element of `b` has its size in range: wherever a type byte `t` at `j` is followed
by a C string of length `L`, the value at `j + L + 2` has `sizeOk`.  Every element the
decoder reads, at any depth, starts at such a `j`. -/
def sizesInRange (b : Bytes) : Bool :=
  (List.range b.length).all fun j =>
    match byteAt b j, strlenAt b (j + 1) with
    | .ok t, .ok L => sizeOk b t (j + L + 2)
    | _, _ => true

example : sizesInRange [12, 0, 0, 0, 3, 0, 0xFE, 0xFF, 0xFF, 0xFF, 0, 0] = false := by decide

theorem sizeFieldOk_of {b : Bytes} {a skip n : Int} (h : int32At b a = .ok n)
    (hs : sizeFieldOk b a skip = true) : 0 ≤ n ∧ a + skip + n ≤ b.length := by
  simpa [sizeFieldOk, h] using hs

theorem sizeOk_code {b : Bytes} {a c : Int} (h : int32At b (a + 4) = .ok c)
    (hs : sizeOk b 15 a = true) : sizeFieldOk b (a + 8 + c) 0 = true := by
  simpa [sizeOk, h] using hs

/-! ## Runs that end -/

/-- When `c` holds, `x` does not run out of fuel; and every value it returns, whatever the
fuel, satisfies `P`. -/
structure Ends (c : Prop) (x : Dec α) (P : α → Prop) : Prop where
  fuel : c → x ≠ .error .outOfFuel
  yields : ∀ a, x = .ok a → P a

namespace Ends

variable {c c' : Prop} {x : Dec α} {P Q : α → Prop}

theorem bind {f : α → Dec β} {P : β → Prop} (hx : Ends c x Q)
    (hf : ∀ a, x = .ok a → Q a → Ends c (f a) P) : Ends c (x >>= f) P := by
  cases x with
  | error e => exact ⟨fun hc h => hx.fuel hc (by cases h; rfl), fun _ => (nomatch ·)⟩
  | ok a => exact hf a rfl (hx.yields a rfl)

theorem pure {a : α} (h : P a) : Ends c (Pure.pure a : Dec α) P :=
  ⟨fun _ => (nomatch ·), fun _ h' => by cases h'; exact h⟩

theorem error {e : DecError} (he : e ≠ .outOfFuel) : Ends c (.error e : Dec α) P :=
  ⟨fun _ h => he (Except.error.inj h), fun _ => (nomatch ·)⟩

theorem outOfFuel (h : ¬c) : Ends c (.error .outOfFuel : Dec α) P :=
  ⟨fun hc => absurd hc h, fun _ => (nomatch ·)⟩

theorem ite {p : Prop} [Decidable p] {x y : Dec α} (hx : p → Ends c x P)
    (hy : ¬p → Ends c y P) : Ends c (if p then x else y) P := by
  split
  · exact hx ‹_›
  · exact hy ‹_›

theorem imp (hx : Ends c x Q) (h : ∀ a, Q a → P a) : Ends c x P :=
  ⟨hx.fuel, fun a ha => h a (hx.yields a ha)⟩

theorem weaken (hx : Ends c' x P) (h : c → c') : Ends c x P :=
  ⟨fun hc => hx.fuel (h hc), hx.yields⟩

end Ends

/-! ## Reads end, and say where they read -/

theorem length_cstr_lt {l : Bytes} (h : (0 : UInt8) ∈ l) : (cstr l).length < l.length := by
  induction l with
  | nil => cases h
  | cons d l ih =>
    by_cases hd : d = 0
    · subst hd
      simp [cstr_cons_zero]
    · rw [cstr_cons_of_ne hd, List.length_cons, List.length_cons]
      exact Nat.succ_lt_succ (ih ((List.mem_cons.1 h).resolve_left (Ne.symm hd)))

section Reads

variable {c : Prop} (b : Bytes) (i : Int)

theorem ends_bytesAt (n : Nat) :
    Ends c (bytesAt b i n) fun w => 0 ≤ i ∧ i + n ≤ b.length ∧ w.length = n := by
  unfold bytesAt
  split <;> rename_i h
  · exact .pure ⟨h.1, h.2, by simp only [List.length_take, List.length_drop]; omega⟩
  · exact .error (nomatch ·)

theorem ends_byteAt : Ends c (byteAt b i) fun _ => 0 ≤ i ∧ i < b.length := by
  unfold byteAt
  split <;> rename_i hi
  · split <;> rename_i h
    · exact .pure ⟨hi, by have := (List.get?_eq_some.1 h).1; omega⟩
    · exact .error (nomatch ·)
  · exact .error (nomatch ·)

theorem ends_int32At : Ends c (int32At b i) fun n => 0 ≤ i ∧ i + 4 ≤ b.length ∧ FitsInt32 n :=
  (ends_bytesAt b i 4).bind fun _ _ h => .pure ⟨h.1, h.2.1, (le32_int32Of h.2.2).2⟩

theorem ends_uint32At : Ends c (uint32At b i) fun _ => 0 ≤ i ∧ i + 4 ≤ b.length :=
  (ends_bytesAt b i 4).bind fun _ _ h => .pure ⟨h.1, h.2.1⟩

theorem ends_int64At : Ends c (int64At b i) fun _ => 0 ≤ i ∧ i + 8 ≤ b.length :=
  (ends_bytesAt b i 8).bind fun _ _ h => .pure ⟨h.1, h.2.1⟩

theorem ends_cStringAt : Ends c (cStringAt b i) fun s => 0 ≤ i ∧ i + s.length < b.length := by
  unfold cStringAt
  split <;> rename_i hi
  · split <;> rename_i h
    · exact .pure ⟨hi, by have := length_cstr_lt h; simp only [List.length_drop] at this; omega⟩
    · exact .error (nomatch ·)
  · exact .error (nomatch ·)

theorem ends_strlenAt (hb : b.length < 2 ^ 31) :
    Ends c (strlenAt b i) fun L => 0 ≤ i ∧ 0 ≤ L ∧ i + L < b.length :=
  (ends_cStringAt b i).bind fun _ _ h => .pure (by
    rw [toInt32_of_fits ⟨by omega, by omega⟩]
    omega)

theorem ends_strNew (n : Int) : Ends c (strNew b i n) fun _ => 0 ≤ n ∧ 0 ≤ i ∧ i + n ≤ b.length := by
  unfold strNew
  split
  · exact .error (nomatch ·)
  · exact (ends_bytesAt b i n.toNat).imp fun _ h => ⟨by omega, h.1, by omega⟩

theorem ends_strcmpEqAt : ∀ (i : Int) (lit : Bytes), Ends c (strcmpEqAt b i lit) fun _ => True
  | _, [] => .pure trivial
  | i, _ :: rest => (ends_byteAt b i).bind fun _ _ _ =>
      .ite (fun _ => .pure trivial) fun _ => .ite (fun _ => .pure trivial) fun _ =>
        ends_strcmpEqAt (i + 1) rest

end Reads

theorem sizeOk_of_sizesInRange {b : Bytes} {j L : Int} {t : UInt8} (hs : sizesInRange b = true)
    (ht : byteAt b j = .ok t) (hL : strlenAt b (j + 1) = .ok L) : sizeOk b t (j + L + 2) = true := by
  have hj := (ends_byteAt b j : Ends True _ _).yields t ht
  have := List.all_eq_true.1 hs j.toNat (List.mem_range.2 (by omega))
  rwa [Int.toNat_of_nonneg hj.1, ht, hL] at this

/-- The value of an element whose type byte at `pos` and key have been read starts at
`pos + L + 2`, inside the input, and has its size in range. -/
theorem element_value {b : Bytes} (hb : b.length < 2 ^ 31) (hs : sizesInRange b = true)
    {base pos L : Int} {t : UInt8} (hbase : 0 ≤ base) (hpos : 0 ≤ pos) (ht : byteAt b (base + pos) = .ok t)
    (hL : strlenAt b (base + cAdd pos 1) = .ok L) :
    cAdd (cAdd pos 1) (cAdd L 1) = pos + L + 2 ∧ 0 ≤ base + pos ∧ 0 ≤ L ∧
      base + (pos + L + 2) ≤ b.length ∧ sizeOk b t (base + (pos + L + 2)) = true := by
  have h₁ := (ends_byteAt b _ : Ends True _ _).yields _ ht
  have e₁ : cAdd pos 1 = pos + 1 := cAdd_of_lt (by omega) (by omega)
  rw [e₁, ← add_assoc] at hL
  have h₂ := (ends_strlenAt b _ hb : Ends True _ _).yields _ hL
  have hsz := sizeOk_of_sizesInRange hs ht hL
  have e₂ : cAdd L 1 = L + 1 := cAdd_of_lt (by omega) (by omega)
  rw [e₁, e₂, cAdd_of_lt (by omega) (by omega)]
  exact ⟨by ring, h₁.1, h₂.2.1, by omega,
    by rwa [show base + (pos + L + 2) = base + pos + L + 2 by ring]⟩

/-! ## One call of `get_value` -/

/-- More fuel than there are bytes after `a`. -/
def Fueled (b : Bytes) (fuel : Nat) (a : Int) : Prop := 0 < fuel ∧ b.length < a + fuel

section Run

variable (newRegex : Bytes → Bytes → Bool → RValue) (b : Bytes)

/-- A call of `get_value` at `a = base + pos` ends when it has more fuel than there are
bytes after `a`.  When the size it adds is in range and `a` lies in the input, the position
it returns is after `pos` and at most `2|b| + 2 - a` past `base`. -/
def GetEnds (fuel : Nat) : Prop :=
  ∀ opts (base pos : Int) type, 0 ≤ base → 0 ≤ pos → base + pos ≤ b.length + 4 →
    Ends (Fueled b fuel (base + pos)) (getValue newRegex fuel b opts base pos type) fun r =>
      sizeOk b type (base + pos) = true → base + pos ≤ b.length →
        pos ≤ r.2 ∧ base + r.2 + (base + pos) ≤ 2 * b.length + 2

/-- The array loop from `pos` ends when it has more fuel than there are bytes left, and it
stops at a position after `pos`, at most the larger of `base + pos` and
`2|b| - (base + pos)` past `base`. -/
def ItemsEnds (fuel : Nat) : Prop :=
  ∀ opts (base pos : Int) stop acc, 0 ≤ base → 0 ≤ pos →
    Ends (Fueled b fuel (base + pos)) (arrayItems newRegex fuel b opts base pos stop acc)
      fun r => pos ≤ r.2 ∧ base + r.2 ≤ max (base + pos) (2 * b.length - (base + pos))

/-- The element loop from `pos` ends when it has more fuel than there are bytes left. -/
def FieldsEnds (fuel : Nat) : Prop :=
  ∀ opts (base max pos : Int) acc, 0 ≤ base → 0 ≤ pos →
    Ends (Fueled b fuel (base + pos)) (hashElements newRegex fuel b opts base max pos acc)
      fun _ => True

/-- `elements_to_hash` at `base` ends when it has one unit of fuel more than its loop needs. -/
def HashEnds (fuel : Nat) : Prop :=
  ∀ opts (base max : Int), 0 ≤ base →
    Ends (1 < fuel ∧ b.length + 1 < base + fuel) (elementsToHash newRegex fuel b opts base max)
      fun _ => True

variable {newRegex b}

/-- The step: `get_value` with one unit of fuel more than its nested calls.  Only the
document, Symbol and code-scope cases add a size they find; every other case moves past
what it reads. -/
theorem getEnds_succ (hb : b.length < 2 ^ 30 - 1) {fuel : Nat} (hget : GetEnds newRegex b fuel)
    (hitems : ItemsEnds newRegex b fuel) (hhash : HashEnds newRegex b fuel) :
    GetEnds newRegex b (fuel + 1) := by
  intro opts base pos type hbase hpos ha
  have hb' : b.length < 2 ^ 31 := by omega
  simp only [getValue]
  split
  -- the values without a payload, and unknown types
  all_goals try first
    | exact .error (nomatch ·)
    | exact .pure fun _ _ => ⟨le_rfl, by omega⟩
  -- the values that move past what they read: reads, then the value
  all_goals try
    repeat (first
      | with_reducible refine (ends_bytesAt b _ _).bind fun _ _ _ => ?_
      | with_reducible refine (ends_int32At b _).bind fun _ _ _ => ?_
      | with_reducible refine (ends_uint32At b _).bind fun _ _ _ => ?_
      | with_reducible refine (ends_int64At b _).bind fun _ _ _ => ?_
      | with_reducible refine (ends_byteAt b _).bind fun _ _ _ => ?_
      | with_reducible refine (ends_strlenAt b _ hb').bind fun _ _ _ => ?_
      | with_reducible refine (ends_strNew b _ _).bind fun _ _ _ => ?_)
    refine .pure fun _ _ => ?_
    simp only [cAdd, toInt32] at *
    omega
  case h_5 =>
    -- an embedded document, a DBRef or a hash: the position moves by its size
    refine (ends_int32At b _).bind fun size hsize h₁ => (ends_strcmpEqAt b _ _).bind fun _ _ _ => ?_
    have hmove (hsz : sizeOk b 3 (base + pos) = true) :
        pos ≤ cAdd pos size ∧ base + cAdd pos size + (base + pos) ≤ 2 * b.length + 2 := by
      have := sizeFieldOk_of hsize hsz
      simp only [cAdd, toInt32]
      omega
    refine .ite (fun _ => ?_) fun _ =>
      ((hhash opts _ _ (by omega)).weaken fun ⟨_, _⟩ => ⟨by omega, by omega⟩).bind fun _ _ _ =>
        .pure fun hsz _ => hmove hsz
    -- the DBRef: `$ref`, the namespace, and one more value
    refine (ends_int32At b _).bind fun _ _ _ => (ends_strNew b _ _).bind fun _ _ _ =>
      (ends_byteAt b _).bind fun _ _ _ =>
        ((hget opts base _ _ hbase ?_ ?_).weaken fun ⟨_, _⟩ => ⟨?_, ?_⟩).bind fun ⟨_, _⟩ _ _ =>
          (Ends.pure trivial : Ends _ _ fun _ => True).bind fun _ _ _ => .pure fun hsz _ => hmove hsz
    all_goals simp only [cAdd, toInt32] at *; omega
  case h_6 =>
    -- an array: the loop from after the size, then the byte after the items
    refine (ends_int32At b _).bind fun _ _ h₁ => ?_
    rw [cAdd_of_lt (by omega) (by omega : pos + 4 < 2 ^ 31)]
    refine ((hitems opts base _ _ [] hbase (by omega)).weaken fun ⟨_, _⟩ => ⟨by omega, by omega⟩).bind
      fun ⟨_, _⟩ _ hq => .pure fun _ _ => ?_
    simp only [cAdd, toInt32]
    omega
  case h_7 =>
    -- a binary, in the old or the new layout
    refine (ends_int32At b _).bind fun _ _ _ => (ends_byteAt b _).bind fun _ _ _ => .ite
      (fun _ => (ends_strNew b _ _).bind fun _ _ _ => .pure fun _ _ => ?_)
      fun _ => (ends_strNew b _ _).bind fun _ _ _ => .pure fun _ _ => ?_
    all_goals simp only [cAdd, toInt32] at *; omega
  case h_15 =>
    -- a Symbol: the position moves by its length
    refine (ends_int32At b _).bind fun _ hvl _ => (ends_cStringAt b _).bind fun _ _ _ =>
      .pure fun hsz _ => ?_
    have := sizeFieldOk_of hvl hsz
    simp only [cAdd, toInt32]
    omega
  case h_16 =>
    -- code with scope: the code, then the position moves by the size of the scope
    rw [cAdd_of_lt (by omega) (by omega : pos + 4 < 2 ^ 31)]
    refine (ends_int32At b _).bind fun c hc h₁ => (ends_strNew b _ _).bind fun _ _ h₂ => ?_
    obtain ⟨e, hc₁⟩ : cAdd (cAdd (pos + 4) 4) (cAdd (cAdd c (-1)) 1) = pos + 8 + c ∧ 1 ≤ c := by
      unfold FitsInt32 at h₁
      simp only [cAdd, toInt32] at h₂ ⊢
      omega
    refine (ends_int32At b _).bind fun _ hn h₃ =>
      ((hhash opts _ _ (by omega)).weaken fun ⟨_, _⟩ => ⟨by omega, by omega⟩).bind fun _ _ _ =>
        .pure fun hsz _ => ?_
    rw [e, show base + (pos + 8 + c) = base + pos + 8 + c by ring] at hn
    rw [← add_assoc] at hc
    have := sizeFieldOk_of hn (sizeOk_code hc hsz)
    simp only [cAdd, toInt32] at e ⊢
    omega

/-- The array loop: each iteration reads its type byte inside the input, so the value after
it starts two bytes on, returns a position after that, and leaves the fuel above the bytes
left. -/
theorem itemsEnds_succ (hb : b.length < 2 ^ 30 - 1) (hs : sizesInRange b = true) {fuel : Nat}
    (hget : GetEnds newRegex b fuel) (hitems : ItemsEnds newRegex b fuel) :
    ItemsEnds newRegex b (fuel + 1) := by
  intro opts base pos stop acc hbase hpos
  rw [arrayItems]
  refine .ite (fun _ => ?_) fun _ => .pure ⟨le_rfl, le_max_left _ _⟩
  refine (ends_byteAt b _).bind fun t ht _ => (ends_strlenAt b _ (by omega)).bind fun L hL _ => ?_
  obtain ⟨e, h₀, hL₀, hin, hsz⟩ := element_value (by omega) hs hbase hpos ht hL
  rw [e]
  refine ((hget opts base _ t hbase (by omega) (by omega)).weaken fun ⟨_, _⟩ =>
    ⟨by omega, by omega⟩).bind fun ⟨_, r⟩ _ hr => ?_
  obtain ⟨hr₁, hr₂⟩ := hr hsz hin
  exact ((hitems opts base r stop _ hbase (by omega)).weaken fun ⟨_, _⟩ =>
    ⟨by omega, by omega⟩).imp fun _ hq => ⟨by omega, by omega⟩

/-- The element loop, as the array loop, with the key read as the element's name. -/
theorem fieldsEnds_succ (hb : b.length < 2 ^ 30 - 1) (hs : sizesInRange b = true) {fuel : Nat}
    (hget : GetEnds newRegex b fuel) (hfields : FieldsEnds newRegex b fuel) :
    FieldsEnds newRegex b (fuel + 1) := by
  intro opts base max pos acc hbase hpos
  rw [hashElements]
  refine .ite (fun _ => ?_) fun _ => .pure trivial
  refine (ends_byteAt b _).bind fun t ht _ => (ends_strlenAt b _ (by omega)).bind fun L hL _ =>
    (ends_strNew b _ _).bind fun _ _ _ => ?_
  obtain ⟨e, h₀, hL₀, hin, hsz⟩ := element_value (by omega) hs hbase hpos ht hL
  rw [e]
  refine ((hget opts base _ t hbase (by omega) (by omega)).weaken fun ⟨_, _⟩ =>
    ⟨by omega, by omega⟩).bind fun ⟨_, r⟩ _ hr => ?_
  obtain ⟨hr₁, -⟩ := hr hsz hin
  exact (hfields opts base max r _ hbase (by omega)).weaken fun ⟨_, _⟩ => ⟨by omega, by omega⟩

theorem hashEnds_succ {fuel : Nat} (hfields : FieldsEnds newRegex b fuel) :
    HashEnds newRegex b (fuel + 1) := fun opts base max hbase =>
  ((hfields opts base max 0 [] hbase le_rfl).weaken fun ⟨_, _⟩ => ⟨by omega, by omega⟩).bind
    fun _ _ _ => .pure trivial

/-- The run: the four mutual functions end at every fuel, by induction on it. -/
theorem ends_of_fuel (hb : b.length < 2 ^ 30 - 1) (hs : sizesInRange b = true) :
    ∀ fuel, GetEnds newRegex b fuel ∧ ItemsEnds newRegex b fuel ∧ FieldsEnds newRegex b fuel ∧
      HashEnds newRegex b fuel
  | 0 => ⟨fun _ _ _ _ _ _ _ => .outOfFuel fun h => Nat.lt_irrefl 0 h.1,
      fun _ _ _ _ _ _ _ => .outOfFuel fun h => Nat.lt_irrefl 0 h.1,
      fun _ _ _ _ _ _ _ => .outOfFuel fun h => Nat.lt_irrefl 0 h.1,
      fun _ _ _ _ => .outOfFuel fun h => by omega⟩
  | fuel + 1 =>
    let ⟨hget, hitems, hfields, hhash⟩ := ends_of_fuel hb hs fuel
    ⟨getEnds_succ hb hget hitems hhash, itemsEnds_succ hb hs hget hitems,
      fieldsEnds_succ hb hs hget hfields, hashEnds_succ hfields⟩

/-! ## `deserialize` -/

variable (newRegex)

/-- The loop of `elements_to_hash` over `[12,0,0,0,3,0,0xFE,0xFF,0xFF,0xFF,0,0]`: the element at
position 0 is a document of size `-2`, which moves the position back to 0. -/
theorem hashElements_negative_size : ∀ (fuel : Nat) (opts : DeserializeOpts) (acc : List (RValue × RValue)),
    (acc = [] ∨ acc = [(.string [], .hash [])]) →
    hashElements newRegex fuel [12, 0, 0, 0, 3, 0, 0xFE, 0xFF, 0xFF, 0xFF, 0, 0] opts 4 7 0 acc =
      .error .outOfFuel
  | 0, _, _, _ => rfl
  | 1, _, _, _ => rfl
  | 2, _, _, _ => rfl
  | 3, _, _, _ => rfl
  | fuel + 4, opts, acc, hacc => by
    have hvalue : getValue newRegex (fuel + 3) [12, 0, 0, 0, 3, 0, 0xFE, 0xFF, 0xFF, 0xFF, 0, 0] opts 4 2 3 =
        .ok (.hash [], 0) := rfl
    have hacc' : assignString acc [] (.hash []) = [(.string [], .hash [])] := by
      rcases hacc with rfl | rfl <;> rfl
    rw [hashElements, if_pos (by decide)]
    simp only [show byteAt [12, 0, 0, 0, 3, 0, 0xFE, 0xFF, 0xFF, 0xFF, 0, 0] (4 + 0) = .ok 3 from rfl,
      show strlenAt [12, 0, 0, 0, 3, 0, 0xFE, 0xFF, 0xFF, 0xFF, 0, 0] (4 + cAdd 0 1) = .ok 0 from rfl,
      show strNew [12, 0, 0, 0, 3, 0, 0xFE, 0xFF, 0xFF, 0xFF, 0, 0] (4 + cAdd 0 1) 0 = .ok [] from rfl,
      show cAdd (cAdd 0 1) (cAdd 0 1) = 2 from rfl, hvalue, Dec.ok_bind, hacc']
    exact hashElements_negative_size (fuel + 3) opts _ (.inr rfl)

end Run

end CBson
