import CBson.Wire
import CBson.Decoder

/-!
# The decoder on canonical bytes

`get_value` trusts every length it finds.  On the canonical bytes of a well-formed document
(`docBytes`) each of those lengths is exact, and the decoder reads back what was written:
`methodDeserialize` on `docBytes fields` returns the Ruby view of `fields`, or runs out of
the model's fuel, which it does only with less fuel than the input has bytes.  No read leaves
the input and no exception is raised on the way.

The Ruby view (`BValue.view`) is what `get_value` builds for each wire value: a document is
a `BSON::OrderedHash` built with `hash[key] = value`, except that an embedded document whose
first key is `$ref` is read as a DBRef; a regex is whatever `BSON::Regex.new` makes of its
pattern and flags.  The DBRef reading looks only at the `$ref` string and at the field after
it, so the theorem asks of each such document that it have that shape (`decodable`).

## Strategy

Positions are located in the input with `At b i w` (`w` stands in `b` from index `i` on),
and each read of the decoder has one lemma that reads a located value (`int32At_at`,
`cStringAt_at`, `strNew_at`, `strcmpEqAt_at`, ...).  A run's outcome is `Returns x a fuel n`:
`x` returns `a`, or runs out of fuel with `fuel ≤ n`.  The recursion of `get_value`,
`elements_to_hash` and the array loop is followed by one mutual theorem, each case reading
its payload with the read lemmas; a length bound `n` for the fuel is the length of the bytes
read.
-/

namespace CBson

/-! ## Located bytes -/

/-- The bytes `w` stand in `b` from index `i` on. -/
def At (b : Bytes) (i : Int) (w : Bytes) : Prop :=
  0 ≤ i ∧ i + w.length ≤ b.length ∧ (b.drop i.toNat).take w.length = w

theorem At.append_iff {b w₁ w₂ : Bytes} {i : Int} :
    At b i (w₁ ++ w₂) ↔ At b i w₁ ∧ At b (i + w₁.length) w₂ := by
  unfold At
  rw [List.length_append, List.take_add]
  constructor
  · rintro ⟨hi, hlen, htake⟩
    have hl : ((b.drop i.toNat).take w₁.length).length = w₁.length := by
      simp only [List.length_take, List.length_drop]; omega
    obtain ⟨h₁, h₂⟩ := List.append_inj htake hl
    rw [List.drop_drop, show i.toNat + w₁.length = (i + w₁.length).toNat by omega] at h₂
    exact ⟨⟨hi, by omega, h₁⟩, by omega, by omega, h₂⟩
  · rintro ⟨⟨hi, -, h₁⟩, -, hlen₂, h₂⟩
    rw [← show i.toNat + w₁.length = (i + w₁.length).toNat by omega, ← List.drop_drop] at h₂
    exact ⟨hi, by omega, by rw [h₁, h₂]⟩

theorem At.left {b w₁ w₂ : Bytes} {i : Int} (h : At b i (w₁ ++ w₂)) : At b i w₁ :=
  (At.append_iff.1 h).1

theorem At.right {b w₁ w₂ : Bytes} {i : Int} (h : At b i (w₁ ++ w₂)) :
    At b (i + w₁.length) w₂ :=
  (At.append_iff.1 h).2

theorem At.head {b w : Bytes} {i : Int} {c : UInt8} (h : At b i (c :: w)) : At b i [c] :=
  At.left (show At b i ([c] ++ w) from h)

theorem At.tail {b w : Bytes} {i : Int} {c : UInt8} (h : At b i (c :: w)) : At b (i + 1) w := by
  simpa using At.right (show At b i ([c] ++ w) from h)

theorem At.drop_eq {b w : Bytes} {i : Int} (h : At b i w) :
    b.drop i.toNat = w ++ b.drop (i.toNat + w.length) := by
  conv_lhs => rw [← List.take_append_drop w.length (b.drop i.toNat)]
  rw [h.2.2, List.drop_drop]

theorem At.self (w : Bytes) : At w 0 w := ⟨le_rfl, by simp, by simp⟩

theorem At.congr {b w : Bytes} {i j : Int} (h : At b i w) (hij : i = j) : At b j w := hij ▸ h

theorem At.element {b key t : Bytes} {v : BValue} {i : Int} (h : At b i (elementBytes key v ++ t)) :
    At b i [v.tag] ∧ At b (i + 1) key ∧ At b (i + 1 + key.length) [0] ∧
      At b (i + 1 + key.length + 1) (payload v ++ t) := by
  rw [elementBytes, List.append_assoc, List.append_assoc, List.append_assoc] at h
  obtain ⟨h1, h⟩ := At.append_iff.1 h
  obtain ⟨h2, h⟩ := At.append_iff.1 h
  obtain ⟨h3, h⟩ := At.append_iff.1 h
  simp only [List.length_singleton, Nat.cast_one] at h2 h3 h
  exact ⟨h1, h2, h3, h⟩

@[simp] theorem length_frame (body : Bytes) : (frame body).length = body.length + 5 := by
  simp [frame]; omega

@[simp] theorem length_lenString (s : Bytes) : (lenString s).length = s.length + 5 := by
  simp [lenString]; omega

theorem At.frame_split {b body : Bytes} {i : Int} (h : At b i (frame body)) :
    At b i (le32 (body.length + 5)) ∧ At b (i + 4) (body ++ [0]) := by
  rw [frame, List.append_assoc] at h
  obtain ⟨h1, h2⟩ := At.append_iff.1 h
  rw [length_le32] at h2
  exact ⟨h1, h2⟩

/-! ## The reads on located bytes

Each read is stated at any index `i` equal to the located one, so that the index the
decoder computes need not be normalised first. -/

section Reads

variable {b w s : Bytes} {i j : Int}

theorem bytesAt_of {n : Nat} (h : At b j w) (hi : i = j) (hn : n = w.length) :
    bytesAt b i n = .ok w := by
  subst hi hn
  rw [bytesAt, if_pos ⟨h.1, h.2.1⟩, h.2.2]

theorem byteAt_of {c : UInt8} (h : At b j [c]) (hi : i = j) : byteAt b i = .ok c := by
  subst hi
  have hd := h.drop_eq
  rw [byteAt, if_pos h.1, List.get?_eq_getElem?, ← Nat.add_zero i.toNat, ← List.getElem?_drop, hd]
  simp

theorem int32At_of {n : Int} (h : At b j (le32 n)) (hi : i = j) (h₁ : -2 ^ 31 ≤ n)
    (h₂ : n < 2 ^ 31) : int32At b i = .ok n := by
  simp [int32At, bytesAt_of h hi (length_le32 n).symm, toInt32_of_fits ⟨h₁, h₂⟩]

theorem uint32At_of {n : Nat} (h : At b j (le32 n)) (hi : i = j) (hn : n < 2 ^ 32) :
    uint32At b i = .ok n := by
  simp [uint32At, bytesAt_of h hi (length_le32 n).symm, readLE_le32_of_lt hn]

theorem int64At_of {n : Int} (h : At b j (le64 n)) (hi : i = j) (h₁ : -2 ^ 63 ≤ n)
    (h₂ : n < 2 ^ 63) : int64At b i = .ok n := by
  simp [int64At, bytesAt_of h hi (length_le64 n).symm, int64Of_le64_of_fits ⟨h₁, h₂⟩]

theorem cStringAt_of (h : At b j s) (h0 : At b (j + s.length) [0]) (hs : NulFree s)
    (hi : i = j) : cStringAt b i = .ok s := by
  subst hi
  have hd := (At.append_iff.2 ⟨h, h0⟩).drop_eq
  rw [List.append_assoc, List.singleton_append] at hd
  rw [cStringAt, if_pos h.1, hd, if_pos (by simp), cstr_append_zero hs]

theorem strlenAt_of (h : At b j s) (h0 : At b (j + s.length) [0]) (hs : NulFree s) (hi : i = j)
    (hlen : s.length < 2 ^ 31) : strlenAt b i = .ok s.length := by
  have hfit : FitsInt32 (s.length : Int) := ⟨by omega, by omega⟩
  simp [strlenAt, cStringAt_of h h0 hs hi, toInt32_of_fits hfit]

theorem strNew_of {n : Int} (h : At b j s) (hi : i = j) (hn : n = s.length) :
    strNew b i n = .ok s := by
  rw [strNew, if_neg (by omega), show n.toNat = s.length by omega]
  exact bytesAt_of h hi rfl

/-- `strcmp` of a located C string against a literal C string: equal exactly when they
are. -/
theorem strcmpEqAt_of : ∀ {lit key : Bytes} {i j : Int}, NulFree lit → NulFree key →
    At b j (key ++ [0]) → i = j → strcmpEqAt b i (lit ++ [0]) = .ok (decide (key = lit))
  | [], [], _, _, _, _, h, hi => by simp [strcmpEqAt, byteAt_of h hi, bind, Except.bind, pure, Except.pure]
  | [], k :: key, _, _, _, hk, h, hi => by
    have hk0 : k ≠ 0 := fun e => hk (e ▸ List.mem_cons_self _ _)
    simp [strcmpEqAt, byteAt_of h.head hi, hk0, bind, Except.bind, pure, Except.pure]
  | l :: lit, [], _, _, hl, _, h, hi => by
    have hl0 : l ≠ 0 := fun e => hl (e ▸ List.mem_cons_self _ _)
    simp [strcmpEqAt, byteAt_of h hi, Ne.symm hl0, bind, Except.bind, pure, Except.pure]
  | l :: lit, k :: key, i, j, hl, hk, h, hi => by
    have hl0 : l ≠ 0 := fun e => hl (e ▸ List.mem_cons_self _ _)
    have ih := strcmpEqAt_of (i := i + 1) (fun e => hl (List.mem_cons_of_mem _ e))
      (fun e => hk (List.mem_cons_of_mem _ e)) h.tail (by rw [hi])
    by_cases hkl : k = l
    · subst hkl
      simp [strcmpEqAt, byteAt_of h.head hi, hl0, ih, bind, Except.bind]
    · simp [strcmpEqAt, byteAt_of h.head hi, hkl, bind, Except.bind, pure, Except.pure]

/-- `strcmp` against a literal that starts with a byte other than the located one. -/
theorem strcmpEqAt_of_ne {lit : Bytes} {c l : UInt8} (h : At b j [c]) (hi : i = j) (hc : c ≠ l) :
    strcmpEqAt b i (l :: lit) = .ok false := by
  simp [strcmpEqAt, byteAt_of h hi, hc, bind, Except.bind, pure, Except.pure]

end Reads

/-! ## Runs that return or run out of fuel -/

variable {α β : Type}

/-- The run `x` returns `a`, or runs out of its `fuel`, which it does only when
`fuel ≤ need`. -/
def Returns (x : Dec α) (a : α) (fuel need : Nat) : Prop :=
  x = .ok a ∨ (x = .error .outOfFuel ∧ fuel ≤ need)

namespace Returns

variable {x : Dec α} {a : α} {fuel n m : Nat}

theorem ok (a : α) (fuel n : Nat) : Returns (.ok a) a fuel n := .inl rfl

theorem outOfFuel (a : α) (n : Nat) : Returns (.error .outOfFuel) a 0 n := .inr ⟨rfl, Nat.zero_le _⟩

theorem mono (h : Returns x a fuel n) (hnm : n ≤ m) : Returns x a fuel m :=
  h.imp_right fun h => ⟨h.1, h.2.trans hnm⟩

theorem succ (h : Returns x a fuel n) : Returns x a (fuel + 1) (n + 1) :=
  h.imp_right fun h => ⟨h.1, Nat.succ_le_succ h.2⟩

theorem bind {f : α → Dec β} {c : β} (hx : Returns x a fuel n) (hf : Returns (f a) c fuel n) :
    Returns (x >>= f) c fuel n := by
  rcases hx with rfl | ⟨rfl, hle⟩
  · exact hf
  · exact .inr ⟨rfl, hle⟩

theorem map {f : α → β} (h : Returns x a fuel n) : Returns (f <$> x) (f a) fuel n := by
  rcases h with rfl | ⟨rfl, hle⟩
  · exact .inl rfl
  · exact .inr ⟨rfl, hle⟩

theorem pure_pair {a a' : α} {p p' : Int} (ha : a = a') (hp : p = p') :
    Returns (pure (a, p) : Dec (α × Int)) (a', p') fuel n := .inl (by rw [ha, hp]; rfl)

theorem succ_of (h : Returns x a fuel n) (hn : n + 1 ≤ m) :
    Returns x a (fuel + 1) m := h.succ.mono hn

theorem congr_val {a' : α} (h : Returns x a fuel n) (ha : a = a') :
    Returns x a' fuel n := ha ▸ h

/-- A run that returns for every fuel above its bound. -/
theorem eq_ok (h : Returns x a fuel n) (hfuel : n < fuel) : x = .ok a :=
  h.resolve_right fun h => absurd h.2 (by omega)

end Returns

@[simp] theorem Dec.ok_bind (a : α) (f : α → Dec β) : (Except.ok a >>= f : Dec β) = f a := rfl

/-- `x + y` on C `int`s, when the sum fits. -/
theorem cAdd_of_lt {x y : Int} (h₁ : -2 ^ 31 ≤ x + y) (h₂ : x + y < 2 ^ 31) : cAdd x y = x + y :=
  toInt32_of_fits ⟨h₁, h₂⟩

/-! ## The Ruby view of a wire value -/

/-- The first key of a document. -/
def firstKey (fields : List (Bytes × BValue)) : Option Bytes := fields.head?.map (·.1)

/-- The shape `get_value` reads as a DBRef: a `String` under the first key, then a field
under a key of three bytes. -/
def refShaped : List (Bytes × BValue) → Bool
  | (_, .string _) :: (key, _) :: _ => key.length == 3
  | _ => false

section View

variable (newRegex : Bytes → Bytes → Bool → RValue) (compile : Bool)

mutual

/-- The Ruby value `get_value` builds from a wire value. -/
def BValue.view : BValue → RValue
  | .double bits => .float bits
  | .string s => .string s
  | .document fields =>
    if firstKey fields = some (ascii "$ref") then refView fields else .hash (fieldsView [] fields)
  | .array items => .array (itemsView items)
  | .binary subtype data => .binary data (.integer subtype.toNat)
  | .objectId bytes => .objectId (bytes.map fun c => .integer c.toNat)
  | .bool b => .bool b
  | .utcDateTime millis => .time millis
  | .null => .nil
  | .regex pattern flags => newRegex pattern flags compile
  | .dbPointer ns id => .dbref (.string ns) (.objectId (id.map fun c => .integer c.toNat))
  | .javascript code => .string code
  | .symbol s => .symbol s
  | .codeWScope code scope => .code code (.hash (fieldsView [] scope))
  | .int32 n => .integer n
  | .timestamp increment seconds => .timestamp (.integer seconds) (.integer increment)
  | .int64 n => .integer n
  | .maxKey => .maxKey
  | .minKey => .minKey

/-- The DBRef `get_value` reads from a document whose first key is `$ref`: the namespace
under it and the value of the next field. -/
def refView : List (Bytes × BValue) → RValue
  | (_, .string ns) :: (_, id) :: _ => .dbref (.string ns) id.view
  | _ => .nil

/-- The hash `elements_to_hash` builds: each field assigned in turn onto `acc`. -/
def fieldsView (acc : List (RValue × RValue)) : List (Bytes × BValue) → List (RValue × RValue)
  | [] => acc
  | (key, v) :: rest => fieldsView (assignString acc key v.view) rest

/-- The items of an array. -/
def itemsView : List BValue → List RValue
  | [] => []
  | v :: rest => v.view :: itemsView rest

end

end View

mutual

/-- What the decoder needs of a well-formed tree besides its lengths: every `Symbol` is a
C string, and every embedded document whose first key is `$ref` has the DBRef shape. -/
def BValue.decodable : BValue → Bool
  | .document fields =>
    (firstKey fields != some (ascii "$ref") || refShaped fields) && fieldsDecodable fields
  | .array items => itemsDecodable items
  | .symbol s => decide ((0 : UInt8) ∉ s)
  | .codeWScope _ scope => fieldsDecodable scope
  | .double _ | .string _ | .binary .. | .objectId _ | .bool _ | .utcDateTime _ | .null
  | .regex .. | .dbPointer .. | .javascript _ | .int32 _ | .timestamp .. | .int64 _ | .maxKey
  | .minKey => true

/-- Every value of a document decodable. -/
def fieldsDecodable : List (Bytes × BValue) → Bool
  | [] => true
  | (_, v) :: rest => v.decodable && fieldsDecodable rest

/-- Every item decodable. -/
def itemsDecodable : List BValue → Bool
  | [] => true
  | v :: rest => v.decodable && itemsDecodable rest

end

/-! ## Decoding canonical bytes -/

theorem BValue.tag_ne_dollar (v : BValue) : v.tag ≠ 36 := by
  cases v <;> simp only [BValue.tag] <;> decide

/-- What follows the elements of a document or an array, up to a last byte other than `$`,
starts with a byte other than `$`: an element's type or that last byte. -/
theorem fieldsBytes_append_of_ne (fields : List (Bytes × BValue)) (c : UInt8) (hc : c ≠ 36) :
    ∃ c' t, fieldsBytes fields ++ [c] = c' :: t ∧ c' ≠ 36 := by
  cases fields with
  | nil => exact ⟨c, [], rfl, hc⟩
  | cons kv rest => exact ⟨kv.2.tag, _, rfl, kv.2.tag_ne_dollar⟩

theorem itemsBytes_append_zero (i : Nat) (items : List BValue) :
    ∃ c t, itemsBytes i items ++ [0] = c :: t ∧ c ≠ 36 := by
  cases items with
  | nil => exact ⟨0, [], rfl, by decide⟩
  | cons v rest => exact ⟨v.tag, _, rfl, v.tag_ne_dollar⟩

theorem At.prefix_cons {b w t : Bytes} {i : Int} {c : UInt8} (h : At b i (w ++ c :: t)) :
    At b i (w ++ [c]) :=
  At.left (show At b i ((w ++ [c]) ++ t) by simpa using h)

section Decode

variable (newRegex : Bytes → Bytes → Bool → RValue) (opts : DeserializeOpts)

theorem elementsToHash_of {b : Bytes} {base max : Int} {fields : List (Bytes × BValue)} {n : Nat}
    (h : ∀ fuel, Returns (hashElements newRegex fuel b opts base max 0 [])
      (fieldsView newRegex opts.compileRegex [] fields) fuel n) (fuel : Nat) :
    Returns (elementsToHash newRegex fuel b opts base max)
      (.hash (fieldsView newRegex opts.compileRegex [] fields)) fuel (n + 1) := by
  cases fuel with
  | zero => exact .outOfFuel _ _
  | succ fuel => exact ((h fuel).map).succ

/-- A value with no value inside it. -/
def BValue.isScalar : BValue → Bool
  | .document _ | .array _ | .codeWScope .. => false
  | _ => true

/-- `get_value` reads the payload of a scalar at any position where it stands. -/
theorem getValue_scalar (v : BValue) (hs : v.isScalar = true) (hw : v.wf = true)
    (hd : v.decodable = true) (fuel : Nat) {b : Bytes} {base pos : Int} {c : UInt8}
    (hat : At b (base + pos) (payload v ++ [c])) (hpos : 0 ≤ pos)
    (hend : pos + (payload v).length < 2 ^ 31) :
    Returns (getValue newRegex (fuel + 1) b opts base pos v.tag)
      (v.view newRegex opts.compileRegex, pos + (payload v).length) (fuel + 1)
      (payload v).length := by
  match v with
  | .double bits =>
    simp only [payload, At.append_iff, length_le64] at hat hend ⊢
    simp (disch := omega) only [getValue, BValue.tag, bytesAt_of hat.1 rfl (length_le64 _).symm,
      Dec.ok_bind, cAdd_of_lt, uint64_ofNat_readLE_le64, BValue.view]
    exact .pure_pair rfl (by omega)
  | .string s =>
    simp only [payload, lenString, List.append_assoc, At.append_iff, length_le32, List.length_append,
      List.length_singleton] at hat hend ⊢
    simp (disch := omega) only [getValue, BValue.tag, int32At_of hat.1, strNew_of hat.2.1,
      Dec.ok_bind, cAdd_of_lt, BValue.view]
    exact .pure_pair rfl (by omega)
  | .binary subtype data =>
    by_cases h2 : subtype = 2
    · subst h2
      simp only [payload, binaryBytes, ↓reduceIte, List.append_assoc, At.append_iff, length_le32,
        List.length_append, List.length_singleton] at hat hend ⊢
      simp (disch := omega) only [getValue, BValue.tag, int32At_of hat.1, byteAt_of hat.2.1,
        strNew_of hat.2.2.2.1, Dec.ok_bind, cAdd_of_lt, BValue.view, ↓reduceIte]
      exact .pure_pair rfl (by omega)
    · simp only [payload, binaryBytes, h2, ↓reduceIte, List.append_assoc, At.append_iff, length_le32,
        List.length_append, List.length_singleton] at hat hend ⊢
      simp (disch := omega) only [getValue, BValue.tag, int32At_of hat.1, byteAt_of hat.2.1,
        strNew_of hat.2.2.1, Dec.ok_bind, cAdd_of_lt, BValue.view, h2, ↓reduceIte]
      exact .pure_pair rfl (by omega)
  | .objectId bytes =>
    have hlen : bytes.length = 12 := by simpa [BValue.wf] using hw
    simp only [payload, At.append_iff] at hat hend ⊢
    simp (disch := omega) only [getValue, BValue.tag, bytesAt_of hat.1 rfl hlen.symm, Dec.ok_bind,
      cAdd_of_lt, BValue.view]
    exact .pure_pair rfl (by omega)
  | .bool x =>
    simp only [payload, At.append_iff, List.length_singleton] at hat hend ⊢
    simp (disch := omega) only [getValue, BValue.tag, byteAt_of hat.1 rfl, Dec.ok_bind, cAdd_of_lt,
      BValue.view]
    exact .pure_pair (by cases x <;> rfl) (by simp)
  | .utcDateTime millis =>
    simp only [BValue.wf, decide_eq_true_eq] at hw
    simp only [payload, At.append_iff, length_le64] at hat hend ⊢
    simp (disch := omega) only [getValue, BValue.tag, int64At_of hat.1 rfl hw.1 hw.2, Dec.ok_bind,
      cAdd_of_lt, BValue.view]
    exact .pure_pair rfl (by omega)
  | .null =>
    simp only [getValue, BValue.tag, BValue.view, payload]
    exact .pure_pair rfl (by simp)
  | .regex pattern flags =>
    simp only [BValue.wf, decide_eq_true_eq] at hw
    simp only [payload, List.append_assoc, At.append_iff, List.length_append,
      List.length_singleton] at hat hend ⊢
    simp (disch := omega) only [getValue, BValue.tag, strlenAt_of hat.1 hat.2.1 hw.1,
      strNew_of hat.1, strlenAt_of hat.2.2.1 hat.2.2.2.1 hw.2, strNew_of hat.2.2.1, Dec.ok_bind,
      cAdd_of_lt, BValue.view]
    exact .pure_pair rfl (by omega)
  | .dbPointer ns id =>
    have hlen : id.length = 12 := by simpa [BValue.wf] using hw
    simp only [payload, lenString, List.append_assoc, At.append_iff, length_le32, List.length_append,
      List.length_singleton] at hat hend ⊢
    simp (disch := omega) only [getValue, BValue.tag, int32At_of hat.1, strNew_of hat.2.1,
      Dec.ok_bind, cAdd_of_lt, BValue.view]
    rw [bytesAt_of hat.2.2.2.1 (show base + (pos + 4 + ((ns.length : Int) + 1 + -1 + 1)) = _ by
      push_cast; ring) hlen.symm]
    exact .pure_pair rfl (by omega)
  | .javascript code =>
    simp only [payload, lenString, List.append_assoc, At.append_iff, length_le32, List.length_append,
      List.length_singleton] at hat hend ⊢
    simp (disch := omega) only [getValue, BValue.tag, int32At_of hat.1, strNew_of hat.2.1,
      Dec.ok_bind, cAdd_of_lt, BValue.view]
    exact .pure_pair rfl (by omega)
  | .symbol s =>
    have hs : NulFree s := by simpa [BValue.decodable] using hd
    simp only [payload, lenString, List.append_assoc, At.append_iff, length_le32, List.length_append,
      List.length_singleton] at hat hend ⊢
    simp (disch := omega) only [getValue, BValue.tag, int32At_of hat.1, cStringAt_of hat.2.1 hat.2.2.1 hs,
      Dec.ok_bind, cAdd_of_lt, BValue.view]
    exact .pure_pair rfl (by omega)
  | .int32 n =>
    simp only [BValue.wf, decide_eq_true_eq, FitsInt32] at hw
    simp only [payload, At.append_iff, length_le32] at hat hend ⊢
    simp (disch := omega) only [getValue, BValue.tag, int32At_of hat.1 rfl hw.1 hw.2, Dec.ok_bind,
      cAdd_of_lt, BValue.view]
    exact .pure_pair rfl (by omega)
  | .timestamp increment seconds =>
    simp only [BValue.wf, decide_eq_true_eq] at hw
    simp only [payload, List.append_assoc, At.append_iff, length_le32, List.length_append] at hat hend ⊢
    simp (disch := omega) only [getValue, BValue.tag, uint32At_of hat.1 rfl hw.1, uint32At_of hat.2.1 _ hw.2,
      Dec.ok_bind, cAdd_of_lt, BValue.view]
    exact .pure_pair rfl (by omega)
  | .int64 n =>
    simp only [BValue.wf, decide_eq_true_eq] at hw
    simp only [payload, At.append_iff, length_le64] at hat hend ⊢
    simp (disch := omega) only [getValue, BValue.tag, int64At_of hat.1 rfl hw.1 hw.2, Dec.ok_bind,
      cAdd_of_lt, BValue.view]
    exact .pure_pair rfl (by omega)
  | .maxKey =>
    simp only [getValue, BValue.tag, BValue.view, payload]
    exact .pure_pair rfl (by simp)
  | .minKey =>
    simp only [getValue, BValue.tag, BValue.view, payload]
    exact .pure_pair rfl (by simp)
  | .document _ | .array _ | .codeWScope .. => cases hs

mutual

theorem getValue_payload (v : BValue) (hw : v.wf = true) (hd : v.decodable = true) (fuel : Nat)
    {b : Bytes} {base pos : Int} {c : UInt8} (hc : c ≠ 36)
    (hat : At b (base + pos) (payload v ++ [c])) (hpos : 0 ≤ pos)
    (hend : pos + (payload v).length < 2 ^ 31) :
    Returns (getValue newRegex fuel b opts base pos v.tag)
      (v.view newRegex opts.compileRegex, pos + (payload v).length) fuel (payload v).length := by
  cases fuel with
  | zero => exact .outOfFuel _ _
  | succ fuel =>
  match v with
  | .double _ | .string _ | .binary .. | .objectId _ | .bool _ | .utcDateTime _ | .null
  | .regex .. | .dbPointer .. | .javascript _ | .symbol _ | .int32 _ | .timestamp .. | .int64 _
  | .maxKey | .minKey =>
    exact getValue_scalar newRegex opts _ (by rfl) hw hd fuel hat hpos hend
  | .document fields =>
    have hwf : fieldsWf fields = true := by simpa [BValue.wf] using hw
    simp only [BValue.decodable, Bool.and_eq_true] at hd
    rw [payload] at hat hend ⊢
    obtain ⟨hframe, hnext⟩ := At.append_iff.1 hat
    obtain ⟨hsize, hbody⟩ := hframe.frame_split
    rw [length_frame] at hend hnext ⊢
    have hcmp : strcmpEqAt b (base + pos + 5) (ascii "$ref" ++ [0]) =
        .ok (decide (firstKey fields = some (ascii "$ref"))) := by
      rcases fields with _ | ⟨⟨key, v⟩, rest⟩
      · exact strcmpEqAt_of_ne hnext (by simp) hc
      · rw [fieldsBytes_cons, List.append_assoc] at hbody
        obtain ⟨-, hkey, h0, -⟩ := hbody.element
        have hk : NulFree key := by
          simp only [fieldsWf, Bool.and_eq_true, decide_eq_true_eq] at hwf; exact hwf.1.1
        rw [strcmpEqAt_of (by decide) hk (At.append_iff.2 ⟨hkey, h0⟩) (by ring)]
        simp [firstKey]
    simp (disch := omega) only [getValue, BValue.tag, int32At_of hsize, Dec.ok_bind, hcmp,
      cAdd_of_lt]
    by_cases href : firstKey fields = some (ascii "$ref")
    · have hshape : refShaped fields = true := by simpa [href] using hd.1
      rcases fields with _ | ⟨⟨r, _ | _ | _ | _ | _ | _ | _ | _ | _ | _ | _ | _ | _ | _ | _ | _ | _ | _ | _⟩,
        _ | ⟨⟨k, id⟩, rest⟩⟩ <;> simp only [refShaped, firstKey, reduceCtorEq] at hshape href
      rename_i ns
      have hk : k.length = 3 := by simpa using hshape
      simp only [List.head?_cons, Option.map_some', Option.some.injEq] at href
      subst href
      have href : firstKey ((ascii "$ref", .string ns) :: (k, id) :: rest) = some (ascii "$ref") := rfl
      simp only [fieldsWf, fieldsDecodable, BValue.wf, BValue.decodable, Bool.and_eq_true,
        decide_eq_true_eq] at hwf hd
      have h4 : (ascii "$ref").length = 4 := rfl
      obtain ⟨c', t, ht, hc'⟩ := fieldsBytes_append_of_ne rest 0 (by decide)
      have hfl : (fieldsBytes ((ascii "$ref", .string ns) :: (k, id) :: rest)).length =
          ns.length + (payload id).length + (fieldsBytes rest).length + 16 := by
        simp only [fieldsBytes_cons, elementBytes, List.length_append, List.length_singleton,
          payload, length_lenString, hk, h4]; omega
      rw [hfl] at hend ⊢
      rw [fieldsBytes_cons, fieldsBytes_cons, List.append_assoc, List.append_assoc, ht] at hbody
      obtain ⟨-, -, -, hns⟩ := hbody.element
      simp only [payload, lenString, List.append_assoc] at hns
      obtain ⟨hnslen, hns⟩ := At.append_iff.1 hns
      obtain ⟨hnsb, hns⟩ := At.append_iff.1 hns
      obtain ⟨-, hns⟩ := At.append_iff.1 hns
      obtain ⟨htag, -, -, hid⟩ := hns.element
      simp only [length_le32, List.length_singleton, h4, hk] at hnsb htag hid
      simp (disch := omega) only [decide_True, ↓reduceIte, int32At_of hnslen, strNew_of hnsb,
        byteAt_of htag, Dec.ok_bind, cAdd_of_lt, BValue.view, href, refView, pure_bind]
      exact Returns.succ_of (Returns.bind (getValue_payload id hwf.2.1.2 hd.2.2.1 fuel hc'
        (hid.prefix_cons.congr (by omega)) (by omega) (by omega)) (.pure_pair rfl rfl)) (by omega)
    · simp only [href, decide_False, Bool.false_eq_true, ↓reduceIte, BValue.view]
      exact Returns.succ_of (Returns.bind (elementsToHash_of newRegex opts
        (fun f => hashElements_fieldsBytes fields hwf hd.2 f (by decide) (hbody.congr (by ring)) (by omega)
          le_rfl (by omega)) fuel) (.pure_pair rfl rfl)) (by omega)
  | .array items =>
    have hiw : itemsWf items = true := by simpa [BValue.wf] using hw
    have hid : itemsDecodable items = true := by simpa [BValue.decodable] using hd
    rw [payload] at hat hend ⊢
    obtain ⟨hsize, hbody⟩ := (At.append_iff.1 hat).1.frame_split
    rw [length_frame] at hend ⊢
    simp (disch := omega) only [getValue, BValue.tag, int32At_of hsize, Dec.ok_bind, cAdd_of_lt]
    exact Returns.succ_of (Returns.bind (arrayItems_itemsBytes items hiw hid fuel
      (hbody.congr (by ring)) (by omega) (by omega) (by omega))
      (.pure_pair (by simp [BValue.view]) (by dsimp only; rw [cAdd_of_lt (by omega) (by omega)]; omega)))
      (by omega)
  | .codeWScope code scope =>
    have hsw : fieldsWf scope = true := by simpa [BValue.wf] using hw
    have hsd : fieldsDecodable scope = true := by simpa [BValue.decodable] using hd
    simp only [payload, codeBytes, lenString, List.append_assoc, At.append_iff, length_le32,
      List.length_append, List.length_singleton, length_frame] at hat hend ⊢
    obtain ⟨-, hcl, hcode, -, hscope, -⟩ := hat
    obtain ⟨hsize, hbody⟩ := hscope.frame_split
    simp (disch := omega) only [getValue, BValue.tag, int32At_of hcl, strNew_of hcode,
      int32At_of hsize, Dec.ok_bind, cAdd_of_lt]
    exact Returns.succ_of (Returns.bind (elementsToHash_of newRegex opts
      (fun f => hashElements_fieldsBytes scope hsw hsd f (by decide) (hbody.congr (by omega)) (by omega) le_rfl
        (by omega)) fuel) (.pure_pair (by simp [BValue.view]) (by omega))) (by omega)
termination_by structural v

theorem hashElements_fieldsBytes (fields : List (Bytes × BValue)) (hw : fieldsWf fields = true)
    (hd : fieldsDecodable fields = true) (fuel : Nat) {b : Bytes} {base max pos : Int}
    {acc : List (RValue × RValue)} {c : UInt8} (hc : c ≠ 36)
    (hat : At b (base + pos) (fieldsBytes fields ++ [c]))
    (hmax : max = pos + (fieldsBytes fields).length) (hpos : 0 ≤ pos) (hlt : max < 2 ^ 31) :
    Returns (hashElements newRegex fuel b opts base max pos acc)
      (fieldsView newRegex opts.compileRegex acc fields) fuel (fieldsBytes fields).length := by
  cases fuel with
  | zero => exact .outOfFuel _ _
  | succ fuel =>
  match fields with
  | [] =>
    rw [hashElements, if_neg (by simp at hmax; omega)]
    exact .ok _ _ _
  | (key, v) :: rest =>
    simp only [fieldsWf, fieldsDecodable, Bool.and_eq_true, decide_eq_true_eq] at hw hd
    obtain ⟨c', t, ht, hc'⟩ := fieldsBytes_append_of_ne rest c hc
    have hfl : (fieldsBytes ((key, v) :: rest)).length =
        key.length + (payload v).length + (fieldsBytes rest).length + 2 := by
      simp [fieldsBytes_cons, elementBytes]; omega
    rw [hfl] at hmax ⊢
    rw [fieldsBytes_cons, List.append_assoc, ht] at hat
    obtain ⟨htag, hkey, h0, hv⟩ := hat.element
    have hrest : At b (base + pos + 1 + key.length + 1 + (payload v).length)
        (fieldsBytes rest ++ [c]) := by rw [ht]; exact (At.append_iff.1 hv).2
    rw [hashElements, if_pos (by omega)]
    simp (disch := omega) only [byteAt_of htag, strlenAt_of hkey h0 hw.1.1, strNew_of hkey,
      Dec.ok_bind, cAdd_of_lt]
    exact (Returns.bind ((getValue_payload v hw.1.2 hd.1 fuel hc' (hv.prefix_cons.congr (by ring))
      (by omega) (by omega)).mono (by omega))
      ((hashElements_fieldsBytes rest hw.2 hd.2 fuel hc (hrest.congr (by omega)) (by omega) (by omega)
        hlt).mono (by omega))).succ_of le_rfl
termination_by structural fields

theorem arrayItems_itemsBytes (items : List BValue) (hw : itemsWf items = true)
    (hd : itemsDecodable items = true) (fuel : Nat) {b : Bytes} {base pos stop : Int} {i : Nat}
    {acc : List RValue} (hat : At b (base + pos) (itemsBytes i items ++ [0]))
    (hstop : stop = pos + (itemsBytes i items).length) (hpos : 0 ≤ pos) (hlt : stop < 2 ^ 31) :
    Returns (arrayItems newRegex fuel b opts base pos stop acc)
      (acc ++ itemsView newRegex opts.compileRegex items, stop) fuel (itemsBytes i items).length := by
  cases fuel with
  | zero => exact .outOfFuel _ _
  | succ fuel =>
  match items with
  | [] =>
    rw [arrayItems, if_neg (by simp at hstop; omega)]
    exact .pure_pair (by simp [itemsView]) (by simp at hstop; omega)
  | v :: rest =>
    simp only [itemsWf, itemsDecodable, Bool.and_eq_true] at hw hd
    obtain ⟨c', t, ht, hc'⟩ := itemsBytes_append_zero (i + 1) rest
    have hil : (itemsBytes i (v :: rest)).length =
        (decimal i).length + (payload v).length + (itemsBytes (i + 1) rest).length + 2 := by
      simp [itemsBytes_cons, elementBytes]; omega
    rw [hil] at hstop ⊢
    rw [itemsBytes_cons, List.append_assoc, ht] at hat
    obtain ⟨htag, hkey, h0, hv⟩ := hat.element
    have hrest : At b (base + pos + 1 + (decimal i).length + 1 + (payload v).length)
        (itemsBytes (i + 1) rest ++ [0]) := by rw [ht]; exact (At.append_iff.1 hv).2
    rw [arrayItems, if_pos (by omega)]
    simp (disch := omega) only [byteAt_of htag, strlenAt_of hkey h0 (nulFree_decimal i),
      Dec.ok_bind, cAdd_of_lt]
    exact (Returns.bind ((getValue_payload v hw.1 hd.1 fuel hc' (hv.prefix_cons.congr (by ring))
      (by omega) (by omega)).mono (by omega))
      (((arrayItems_itemsBytes rest hw.2 hd.2 fuel (hrest.congr (by omega)) (by omega) (by omega)
        hlt).congr_val (by simp [itemsView])).mono (by omega))).succ_of le_rfl
termination_by structural items

end

/-- `deserialize` on the canonical bytes of a well-formed document returns the hash of its
fields, or runs out of fuel, which it does only with at most `|b| - 4` units. -/
theorem methodDeserialize_docBytes (fields : List (Bytes × BValue)) (hw : docWf fields = true)
    (hd : fieldsDecodable fields = true) (fuel : Nat) (options : List (RValue × RValue)) :
    Returns (methodDeserialize newRegex fuel (docBytes fields) options)
      (.hash (fieldsView newRegex (compileRegexOf options) [] fields)) fuel
      ((fieldsBytes fields).length + 1) := by
  simp only [docWf, Bool.and_eq_true, decide_eq_true_eq, docBytes, length_frame] at hw
  have hfit : FitsInt32 ((fieldsBytes fields).length + 5 : Nat) := ⟨by omega, by omega⟩
  rw [methodDeserialize, docBytes, length_frame, toInt32_of_fits hfit,
    cAdd_of_lt (by omega) (by omega)]
  exact elementsToHash_of newRegex _ (fun f => hashElements_fieldsBytes newRegex _ fields hw.1 hd f
    (by decide) ((At.self _).frame_split.2.congr (by simp)) (by omega) le_rfl (by omega)) fuel

/-! ## Bounds on canonical bytes -/

end Decode

end CBson
