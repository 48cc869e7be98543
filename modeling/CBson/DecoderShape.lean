import CBson.Decoder

/-!
# Every hash `deserialize` builds is an ordered hash

`elements_to_hash` builds its hash with `hash[name] = value` on a `BSON::OrderedHash`,
one element after another, and takes every name from `strlen` and `STR_NEW` at the
element.  Whatever the input, well formed or not, every run that returns gives a value
whose hashes, at every depth, hold distinct `String` keys without NUL
(`methodDeserialize_shape`), as long as the regex constructor builds such values.  The
invariant holds of the hash after every step of the loop: an assignment either replaces
the value of an existing key or appends a new one.

## Strategy

`decodedKeys` and `RValue.decodedShape` state the invariant as computable tests.  Each
assignment keeps it (`decodedShape_assignString`), and a name read by `strlen` and
`STR_NEW` has no NUL (`nulFree_strNew_strlenAt`).  `Yields x P` says that every value a
successful run of `x` returns satisfies `P`; it is closed under `>>=` and `if`.  One
induction on the fuel (`shape_of_fuel`) then covers the four mutual functions of the
decoder at once, one case per type byte.
-/

namespace CBson

variable {α β : Type}

/-! ## The invariant -/

/-- The keys of a hash the decoder builds: `String`s without NUL, none repeated later. -/
def decodedKeys : List (RValue × RValue) → Bool
  | [] => true
  | (.string k, _) :: rest => decide (NulFree k) && !rest.any (·.1.isString k) && decodedKeys rest
  | _ :: _ => false

mutual

/-- The shape of every value `deserialize` builds: each hash, at every depth, has
`decodedKeys`. -/
def RValue.decodedShape : RValue → Bool
  | .hash entries => decodedKeys entries && entriesShape entries
  | .array items => itemsShape items
  | .dbref ns id => ns.decodedShape && id.decodedShape
  | .code _ scope => scope.decodedShape
  | _ => true

/-- Every value of a hash has the shape. -/
def entriesShape : List (RValue × RValue) → Bool
  | [] => true
  | (_, v) :: rest => v.decodedShape && entriesShape rest

/-- Every item of an array has the shape. -/
def itemsShape : List RValue → Bool
  | [] => true
  | v :: rest => v.decodedShape && itemsShape rest

end

example :
    decodedKeys [(.string [97], .nil), (.string [98], .nil), (.string [97], .nil)] = false := by
  decide

/-! ## One assignment -/

theorem any_map_of_fst {acc : List (RValue × RValue)} {f : RValue × RValue → RValue × RValue}
    (hf : ∀ kv, (f kv).1 = kv.1) (p : RValue → Bool) :
    (acc.map f).any (p ·.1) = acc.any (p ·.1) := by
  simp only [List.any_map, Function.comp_def, hf]

/-- The keys test reads only the keys. -/
theorem decodedKeys_map {f : RValue × RValue → RValue × RValue} (hf : ∀ kv, (f kv).1 = kv.1) :
    (acc : List (RValue × RValue)) → decodedKeys (acc.map f) = decodedKeys acc
  | [] => rfl
  | (key, v) :: rest => by
    have hkv : f (key, v) = (key, (f (key, v)).2) := Prod.ext (hf _) rfl
    rw [List.map_cons, hkv]
    cases key <;> simp only [decodedKeys, any_map_of_fst hf, decodedKeys_map hf rest]

/-- A new key without NUL goes last. -/
theorem decodedKeys_append_new {name : Bytes} (hn : NulFree name) (value : RValue) :
    (acc : List (RValue × RValue)) → acc.any (·.1.isString name) = false →
    decodedKeys acc = true → decodedKeys (acc ++ [(.string name, value)]) = true
  | [], _, _ => by
    rw [List.nil_append, decodedKeys, decodedKeys, decide_eq_true hn]
    rfl
  | (key, v) :: rest, hnew, h => by
    simp only [List.any_cons, Bool.or_eq_false_iff] at hnew
    cases key <;> simp only [decodedKeys, Bool.false_eq_true] at h
    case string k =>
      simp only [Bool.and_eq_true, Bool.not_eq_true'] at h
      have hk : (RValue.string name).isString k = false := BEq.symm_false hnew.1
      rw [List.cons_append, decodedKeys, List.any_append, h.1.2,
        decodedKeys_append_new hn value rest hnew.2 h.2, h.1.1]
      simp [hk]

theorem entriesShape_append (acc : List (RValue × RValue)) (kv : RValue × RValue) :
    entriesShape (acc ++ [kv]) = (entriesShape acc && kv.2.decodedShape) := by
  induction acc with
  | nil => simp [entriesShape]
  | cons e rest ih => simp [entriesShape, ih, Bool.and_assoc]

theorem itemsShape_append (items : List RValue) (v : RValue) :
    itemsShape (items ++ [v]) = (itemsShape items && v.decodedShape) := by
  induction items with
  | nil => simp [itemsShape]
  | cons e rest ih => simp [itemsShape, ih, Bool.and_assoc]

/-- Replacing some values by one of the shape keeps the shape. -/
theorem entriesShape_replace {value : RValue} (hv : value.decodedShape = true)
    (p : RValue × RValue → Bool) :
    (acc : List (RValue × RValue)) → entriesShape acc = true →
    entriesShape (acc.map fun kv => if p kv then (kv.1, value) else kv) = true
  | [], _ => rfl
  | (key, v) :: rest, h => by
    simp only [entriesShape, Bool.and_eq_true] at h
    rw [List.map_cons, entriesShape, Bool.and_eq_true]
    refine ⟨?_, entriesShape_replace hv p rest h.2⟩
    by_cases hp : p (key, v) <;> simp [hp, hv, h.1]

/-- `hash[name] = value` keeps the invariant of the hash. -/
theorem decodedShape_assignString {acc : List (RValue × RValue)} {name : Bytes} {value : RValue}
    (h : (RValue.hash acc).decodedShape = true) (hn : NulFree name)
    (hv : value.decodedShape = true) :
    (RValue.hash (assignString acc name value)).decodedShape = true := by
  simp only [RValue.decodedShape, Bool.and_eq_true] at h ⊢
  unfold assignString
  split_ifs with hany
  · -- an existing key takes the value in place
    refine ⟨?_, entriesShape_replace hv _ acc h.2⟩
    rw [decodedKeys_map (fun kv => by split <;> rfl)]
    exact h.1
  · -- a new key goes last
    exact ⟨decodedKeys_append_new hn value acc (by simpa using hany) h.1,
      by rw [entriesShape_append, h.2, hv]; rfl⟩

/-! ## The names the decoder reads -/

/-- A prefix of a C string is NUL-free. -/
theorem nulFree_take_of_le_cstr {l : Bytes} {m : Nat} (hm : m ≤ (cstr l).length) :
    NulFree (l.take m) := by
  have hl : l.take m = (cstr l).take m := by
    conv_lhs => rw [← List.takeWhile_append_dropWhile (· != 0) l]
    exact List.take_append_of_le_length hm
  rw [hl]
  exact fun h0 => nulFree_cstr l (List.mem_of_mem_take h0)

/-- `STR_NEW(buffer + i, strlen(buffer + i))` has no NUL. -/
theorem nulFree_strNew_strlenAt {b name : Bytes} {i n : Int} (hn : strlenAt b i = .ok n)
    (hs : strNew b i n = .ok name) : NulFree name := by
  unfold strlenAt at hn
  cases hc : cStringAt b i with
  | error e => rw [hc] at hn; cases hn
  | ok s =>
    rw [hc] at hn
    obtain rfl : toInt32 s.length = n := Except.ok.inj hn
    unfold cStringAt at hc
    split_ifs at hc with hi h0
    obtain rfl := (Except.ok.inj hc)
    unfold strNew bytesAt at hs
    split_ifs at hs with hneg hbound
    obtain rfl := (Except.ok.inj hs)
    refine nulFree_take_of_le_cstr ?_
    unfold toInt32 at hneg ⊢
    omega

/-! ## Runs that return -/

/-- Every value a successful run of `x` returns satisfies `P`. -/
def Yields (x : Dec α) (P : α → Prop) : Prop := ∀ a, x = .ok a → P a

namespace Yields

theorem bind {x : Dec α} {f : α → Dec β} {P : β → Prop}
    (hf : ∀ a, x = .ok a → Yields (f a) P) : Yields (x >>= f) P := by
  intro c hc
  cases hx : x with
  | error e => rw [hx] at hc; cases hc
  | ok a => rw [hx] at hc; exact hf a hx c hc

theorem bind_of {x : Dec α} {f : α → Dec β} {Q : α → Prop} {P : β → Prop} (hx : Yields x Q)
    (hf : ∀ a, Q a → Yields (f a) P) : Yields (x >>= f) P :=
  bind fun a ha => hf a (hx a ha)

theorem pure {a : α} {P : α → Prop} (h : P a) : Yields (Pure.pure a : Dec α) P :=
  fun _ ha => by cases ha; exact h

theorem error (e : DecError) (P : α → Prop) : Yields (.error e : Dec α) P :=
  fun _ h => by cases h

theorem ite {c : Prop} [Decidable c] {x y : Dec α} {P : α → Prop} (hx : c → Yields x P)
    (hy : ¬c → Yields y P) : Yields (if c then x else y) P := by
  split
  · exact hx ‹_›
  · exact hy ‹_›

end Yields

/-! ## The decoder on every input -/

section Run

variable (newRegex : Bytes → Bytes → Bool → RValue)
  (hre : ∀ pattern flags compile, (newRegex pattern flags compile).decodedShape = true)
include hre

/-- The four mutual functions of the decoder, at every fuel: what they return keeps the
shape, given accumulators of the shape. -/
theorem shape_of_fuel (fuel : Nat) :
    (∀ b opts base pos type,
      Yields (getValue newRegex fuel b opts base pos type) (·.1.decodedShape = true)) ∧
    (∀ b opts base pos stop acc, itemsShape acc = true →
      Yields (arrayItems newRegex fuel b opts base pos stop acc) (itemsShape ·.1 = true)) ∧
    (∀ b opts base max pos acc, (RValue.hash acc).decodedShape = true →
      Yields (hashElements newRegex fuel b opts base max pos acc)
        fun acc' => (RValue.hash acc').decodedShape = true) ∧
    (∀ b opts base max, Yields (elementsToHash newRegex fuel b opts base max)
      (·.decodedShape = true)) := by
  induction fuel with
  | zero =>
    refine ⟨fun _ _ _ _ _ => ?_, fun _ _ _ _ _ _ _ => ?_, fun _ _ _ _ _ _ _ => ?_,
      fun _ _ _ _ => ?_⟩ <;>
      simp only [getValue, arrayItems, hashElements, elementsToHash] <;> exact .error _ _
  | succ fuel ih =>
    obtain ⟨hget, hitems, hfields, hhash⟩ := ih
    refine ⟨fun b opts base pos type => ?_, fun b opts base pos stop acc hacc => ?_,
      fun b opts base max pos acc hacc => ?_, fun b opts base max => ?_⟩
    · -- `get_value`: one case per type byte
      simp only [getValue]
      split
      -- the values without hashes: reads, then the value
      all_goals try first
        | exact .error _ _
        | exact .pure rfl
        | exact .bind fun _ _ => .pure rfl
        | exact .bind fun _ _ => .bind fun _ _ => .pure rfl
        | exact .bind fun _ _ => .bind fun _ _ => .bind fun _ _ => .pure rfl
      case h_5 =>
        -- an embedded document: a DBRef around one value, or a hash
        refine .bind fun _ _ => .bind fun _ _ =>
          .ite (fun _ => ?_) fun _ => .bind_of (hhash _ _ _ _) fun _ h => .pure h
        exact .bind fun _ _ => .bind fun _ _ => .bind fun _ _ =>
          .bind_of (hget _ _ _ _ _) fun _ h =>
            .bind fun _ hy => .pure (by cases hy; simpa [RValue.decodedShape] using h)
      case h_6 =>
        -- an array
        exact .bind fun _ _ => .bind_of (hitems _ _ _ _ _ [] rfl) fun ⟨_, _⟩ h => .pure h
      case h_7 =>
        -- a binary, in the old or the new layout
        exact .bind fun _ _ => .bind fun _ _ =>
          .ite (fun _ => .bind fun _ _ => .pure rfl) fun _ => .bind fun _ _ => .pure rfl
      case h_13 =>
        -- a regex, built by the constructor
        exact .bind fun _ _ => .bind fun _ _ => .bind fun _ _ => .bind fun _ _ => .pure (hre _ _ _)
      case h_16 =>
        -- code with a scope
        exact .bind fun _ _ => .bind fun _ _ => .bind fun _ _ =>
          .bind_of (hhash _ _ _ _) fun _ h => .pure h
    · -- the array loop appends each item
      rw [arrayItems]
      refine .ite (fun _ => ?_) fun _ => .pure hacc
      exact .bind fun _ _ => .bind fun _ _ => .bind_of (hget _ _ _ _ _) fun _ hr =>
        hitems _ _ _ _ _ _ (by rw [itemsShape_append, hacc, hr]; rfl)
    · -- the hash loop assigns each element
      rw [hashElements]
      refine .ite (fun _ => ?_) fun _ => .pure hacc
      exact .bind fun _ _ => .bind fun _ hn => .bind fun _ hname =>
        .bind_of (hget _ _ _ _ _) fun _ hr =>
          hfields _ _ _ _ _ _ (decodedShape_assignString hacc (nulFree_strNew_strlenAt hn hname) hr)
    · rw [elementsToHash]
      exact .bind_of (hfields _ _ _ _ _ [] rfl) fun _ h => .pure h

/-- Every value `deserialize` returns, on any input and with any fuel, has the shape: each
hash in it, at every depth, holds distinct `String` keys without NUL. -/
theorem methodDeserialize_shape {fuel : Nat} {b : Bytes} {options : List (RValue × RValue)}
    {v : RValue} (h : methodDeserialize newRegex fuel b options = .ok v) : v.decodedShape = true :=
  (shape_of_fuel newRegex hre fuel).2.2.2 _ _ _ _ v h

end Run

/-- A document with a size word of `0` and a repeated key. -/
theorem methodDeserialize_shape_aba :
    (∀ (pattern flags : Bytes) (compile : Bool),
      ((fun _ _ _ => RValue.nil) pattern flags compile : RValue).decodedShape = true) ∧
    methodDeserialize (fun _ _ _ => .nil) 26
        [0, 0, 0, 0, 16, 97, 0, 1, 0, 0, 0, 16, 98, 0, 2, 0, 0, 0, 16, 97, 0, 3, 0, 0, 0, 0] [] =
      .ok (.hash [(.string [97], .integer 3), (.string [98], .integer 2)]) ∧
    (RValue.hash [(.string [97], .integer 3), (.string [98], .integer 2)]).decodedShape = true :=
  (fun h => ⟨fun _ _ _ => rfl, h, methodDeserialize_shape (fun _ _ _ => .nil) (fun _ _ _ => rfl) h⟩)
    (by rfl)

end CBson
