import CBson.Keys

/-!
# Two runs of the encoder

The size cap, the allocator's grant and `check_keys` are each a statement about two runs
of `serialize` on the same document that differ in one setting.  Both runs execute the
same primitives on buffers that hold the same bytes, until the setting makes a
difference: the maximum size at a size check, the grant at a write, or `check_keys` at a
key test.  `Sim R n E x y` says this of two computations: from buffers related by `R`, a
successful run of `x` that ends within `n` bytes is matched by a run of `y` that succeeds
with the same result in related buffers, or that fails with an exception allowed by `E`.
A `Sim` also records that `x` changes nothing but the bytes and never shortens them
(`Grows`), which is what lets the bound `n` pass to the middle of a run.

## Strategy

`Compat R n E` lists what the primitives need of `R`: equal bytes, room in the second
buffer for what the first holds within the bound, stability under byte updates, and the
size check.  `Sim` is closed under `>>=` and
`if` (`Sim.bind`, `Sim.ite`, `Sim.ite_bind`), every primitive is simulated by itself,
and the encoder's mutual functions are simulated by themselves one constructor at a
time (`sim_writeElement` and its siblings), as long as the key tests of the two runs are
simulated too (`KeySims`).  Each of the three statements is this theorem at one `R`.
-/

namespace CBson

variable {α β : Type}

/-- A computation that, when it succeeds, has changed only the bytes of the buffer and
has not shortened them. -/
structure Grows (x : Enc α) : Prop where
  grows : ∀ s a s', x s = .ok a s' → s' = { s with bytes := s'.bytes } ∧
    s.bytes.length ≤ s'.bytes.length

/-- What the primitives need of a relation between the buffers of two runs: the same
bytes, stability under a change of the bytes, and two checks of the first run that pass
within the bound `n` and pass in the second, or fail there with an exception `E` allows:
the allocator's, which raises `NoMemError`, and the size check. -/
structure Compat (R : Buffer → Buffer → Prop) (n : Nat) (E : RbError → Prop) : Prop where
  bytes_eq : ∀ {s t}, R s t → t.bytes = s.bytes
  room : ∀ {s t} {ℓ : Nat}, R s t → ℓ ≤ s.capacity → ℓ ≤ n →
    ℓ ≤ t.capacity ∨ ∀ msg, E (.noMemError msg)
  update : ∀ {s t} (b : Bytes), R s t → R { s with bytes := b } { t with bytes := b }
  check : ∀ {s t} {ℓ : Int}, R s t → ℓ ≤ s.maxSize → ℓ ≤ n →
    ℓ ≤ t.maxSize ∨ E (tooLarge t.maxSize)

/-- `y` simulates `x` from `R`-related buffers, for runs of `x` that end within `n`
bytes; `y` may fail with an exception `E` allows. -/
structure Sim (R : Buffer → Buffer → Prop) (n : Nat) (E : RbError → Prop) (x y : Enc α) :
    Prop where
  grows : Grows x
  sim : ∀ s t a s', R s t → x s = .ok a s' → s'.bytes.length ≤ n →
    (∃ t', y t = .ok a t' ∧ R s' t') ∨ ∃ e t', y t = .error e t' ∧ E e

/-- The key tests of the two runs are simulated, key by key. -/
def KeySims (R : Buffer → Buffer → Prop) (n : Nat) (E : RbError → Prop) (ck₁ ck₂ : Bool)
    (keys : List Bytes) : Prop :=
  ∀ k ∈ keys, Sim R n E (if ck₁ then checkKey k else pure ()) (if ck₂ then checkKey k else pure ())

/-! ## Growing runs -/

namespace Grows

theorem bind {x : Enc α} {f : α → Enc β} (hx : Grows x) (hf : ∀ a, Grows (f a)) :
    Grows (x >>= f) := by
  refine ⟨fun s b s'' h => ?_⟩
  obtain ⟨a, s', h1, h2⟩ := Enc.bind_eq_ok.1 h
  obtain ⟨e1, l1⟩ := hx.1 _ _ _ h1
  obtain ⟨e2, l2⟩ := (hf a).1 _ _ _ h2
  exact ⟨by rw [e2, e1], l1.trans l2⟩

theorem length_le {x : Enc α} (hx : Grows x) {s s' : Buffer} {a : α} (h : x s = .ok a s') :
    s.bytes.length ≤ s'.bytes.length :=
  (hx.1 _ _ _ h).2

theorem of_eq {x : Enc α} (h : ∀ s a s', x s = .ok a s' → s' = s) : Grows x :=
  ⟨fun s a s' hx => by obtain rfl := h s a s' hx; exact ⟨rfl, le_rfl⟩⟩

end Grows

theorem grows_safeWrite (w : Bytes) : Grows (safeWrite w) := by
  refine ⟨fun s b s' h => ?_⟩
  obtain ⟨-, rfl⟩ := safeWrite_eq_ok.1 h
  simp [Buffer.append]

theorem grows_saveSpace : Grows saveSpace := by
  refine ⟨fun s b s' h => ?_⟩
  obtain ⟨-, -, rfl⟩ := saveSpace_eq_ok.1 h
  simp [Buffer.append]

theorem safeWriteAtPos_eq_ok {p : Nat} {d : Bytes} {s s' : Buffer} {u : Unit} :
    safeWriteAtPos p d s = .ok u s' ↔ s.writeAtPosition p d = some s' := by
  unfold safeWriteAtPos
  split <;> simp_all

theorem safeWriteAtPos_frame {p : Nat} {d : Bytes} {s s' : Buffer} {u : Unit}
    (h : safeWriteAtPos p d s = .ok u s') :
    s' = { s with bytes := s'.bytes } ∧ s'.bytes.length = s.bytes.length := by
  have h := safeWriteAtPos_eq_ok.1 h
  unfold Buffer.writeAtPosition at h
  split at h <;> cases h
  simp only [List.length_append, List.length_take, List.length_drop, true_and]
  omega

theorem grows_safeWriteAtPos (p : Nat) (d : Bytes) : Grows (safeWriteAtPos p d) :=
  ⟨fun _ _ _ h => ⟨(safeWriteAtPos_frame h).1, (safeWriteAtPos_frame h).2.ge⟩⟩

theorem qsortAt_eq_ok {p len : Nat} {s s' : Buffer} {u : Unit} :
    qsortAt p len s = .ok u s' ↔ p + len ≤ s.bytes.length ∧
      s' = { s with bytes := s.bytes.take p ++
        List.mergeSort ((s.bytes.drop p).take len) cmpCharLe ++ s.bytes.drop (p + len) } := by
  unfold qsortAt
  split <;> simp_all [eq_comm]

theorem grows_qsortAt (p len : Nat) : Grows (qsortAt p len) := by
  refine ⟨fun s b s' h => ?_⟩
  obtain ⟨hp, rfl⟩ := qsortAt_eq_ok.1 h
  simp only [List.length_append, List.length_take, List.length_mergeSort, List.length_drop, true_and]
  omega

theorem checkedLength_apply (start : Nat) (s : Buffer) :
    checkedLength start s =
      if ((s.bytes.length - start : Nat) : Int) > s.maxSize then
        .error (tooLarge s.maxSize) { s with frees := s.frees + 1 }
      else .ok (s.bytes.length - start) s := by
  unfold checkedLength
  rw [Enc.bind_of_ok (getPosition_apply s)]
  dsimp only
  rw [Enc.bind_of_ok (getMaxSize_apply s)]
  by_cases h : ((s.bytes.length - start : Nat) : Int) > s.maxSize
  · rw [if_pos h, if_pos h, Enc.bind_of_error (freeAndRaise_apply _ _)]
  · rw [if_neg h, if_neg h]
    rfl

/-! ## Closure of `Sim` -/

section Closure

variable {R : Buffer → Buffer → Prop} {n : Nat} {E : RbError → Prop}

namespace Sim

theorem bind {x y : Enc α} {f g : α → Enc β} (hxy : Sim R n E x y)
    (hfg : ∀ a, Sim R n E (f a) (g a)) : Sim R n E (x >>= f) (y >>= g) := by
  refine ⟨hxy.grows.bind fun a => (hfg a).grows, fun s t b s'' hR h hn => ?_⟩
  obtain ⟨a, s', h1, h2⟩ := Enc.bind_eq_ok.1 h
  have hn' := ((hfg a).grows.length_le h2).trans hn
  rcases hxy.sim s t a s' hR h1 hn' with ⟨t', hy, hR'⟩ | ⟨e, t', hy, he⟩
  · rcases (hfg a).sim s' t' b s'' hR' h2 hn with ⟨t'', hg, hR''⟩ | ⟨e, t'', hg, he⟩
    · exact .inl ⟨t'', by rw [Enc.bind_of_ok hy, hg], hR''⟩
    · exact .inr ⟨e, t'', by rw [Enc.bind_of_ok hy, hg], he⟩
  · exact .inr ⟨e, t', Enc.bind_of_error hy, he⟩

theorem pure (a : α) : Sim R n E (pure a : Enc α) (pure a) := by
  refine ⟨.of_eq fun s b s' h => ?_, fun s t b s' hR h _ => ?_⟩ <;> cases h
  · rfl
  · exact .inl ⟨t, rfl, hR⟩

theorem throw (e : RbError) (y : Enc α) : Sim R n E (throw e) y :=
  ⟨⟨fun _ _ _ h => by cases h⟩, fun _ _ _ _ _ h => by cases h⟩

theorem freeAndRaise (e : RbError) (y : Enc Unit) : Sim R n E (CBson.freeAndRaise e) y :=
  ⟨⟨fun _ _ _ h => by cases h⟩, fun _ _ _ _ _ h => by cases h⟩

theorem ite {c : Prop} [Decidable c] {x y x' y' : Enc α} (hx : Sim R n E x x')
    (hy : Sim R n E y y') : Sim R n E (if c then x else y) (if c then x' else y') := by
  split <;> assumption

/-- The join point `do` makes of an `if` in the middle of a block. -/
theorem ite_bind {c : Prop} [Decidable c] {x y x' y' : Enc α} {f g : α → Enc β}
    (hx : Sim R n E x x') (hy : Sim R n E y y') (hfg : ∀ a, Sim R n E (f a) (g a)) :
    Sim R n E (if c then x >>= f else y >>= f) (if c then x' >>= g else y' >>= g) := by
  split
  · exact hx.bind hfg
  · exact hy.bind hfg

/-- The join point of `if checkKeys then checkKey key`, whose condition differs between
the two runs. -/
theorem check_bind {c₁ c₂ : Bool} {k : Bytes} {f g : Unit → Enc β}
    (hk : Sim R n E (if c₁ then checkKey k else Pure.pure ()) (if c₂ then checkKey k else Pure.pure ()))
    (hfg : ∀ a, Sim R n E (f a) (g a)) :
    Sim R n E (if c₁ then checkKey k >>= f else Pure.pure () >>= f)
      (if c₂ then checkKey k >>= g else Pure.pure () >>= g) := by
  have e : ∀ (c : Bool) (h : Unit → Enc β),
      (if c then checkKey k >>= h else Pure.pure () >>= h) =
        (if c then checkKey k else Pure.pure ()) >>= h := by
    intro c h; cases c <;> rfl
  rw [e, e]
  exact hk.bind hfg

end Sim

theorem sim_liftExcept (x : Except RbError α) : Sim R n E (liftExcept x) (liftExcept x) := by
  cases x
  · exact Sim.throw _ _
  · exact Sim.pure _

theorem sim_checkKey (k : Bytes) : Sim R n E (checkKey k) (checkKey k) := by
  refine ⟨.of_eq fun s b s' h => (checkKey_eq_ok.1 h).2, fun s t b s' h hx _ => ?_⟩
  obtain ⟨hk, rfl⟩ := checkKey_eq_ok.1 hx
  exact .inl ⟨t, checkKey_eq_ok.2 ⟨hk, rfl⟩, h⟩

theorem KeySims.of_false (keys : List Bytes) : KeySims R n E false false keys :=
  fun _ _ => Sim.pure ()

theorem KeySims.refl (ck : Bool) (keys : List Bytes) : KeySims R n E ck ck keys :=
  fun k _ => Sim.ite (sim_checkKey k) (Sim.pure ())

theorem KeySims.append_iff {ck₁ ck₂ : Bool} {l₁ l₂ : List Bytes} :
    KeySims R n E ck₁ ck₂ (l₁ ++ l₂) ↔ KeySims R n E ck₁ ck₂ l₁ ∧ KeySims R n E ck₁ ck₂ l₂ := by
  simp only [KeySims, List.mem_append, or_imp, forall_and]

end Closure

/-! ## Primitives -/

section Primitives

variable {R : Buffer → Buffer → Prop} {n : Nat} {E : RbError → Prop} (hR : Compat R n E)
include hR

theorem Compat.append {s t : Buffer} (w : Bytes) (h : R s t) : R (s.append w) (t.append w) := by
  have := hR.update (s.bytes ++ w) h
  unfold Buffer.append
  rwa [hR.bytes_eq h]

theorem sim_getPosition : Sim R n E getPosition getPosition := by
  refine ⟨.of_eq fun s b s' h => ?_, fun s t b s' h hx _ => ?_⟩
  · cases h; rfl
  · cases hx
    exact .inl ⟨t, by rw [getPosition_apply, hR.bytes_eq h], h⟩

theorem sim_safeWrite (w : Bytes) : Sim R n E (safeWrite w) (safeWrite w) := by
  refine ⟨grows_safeWrite w, fun s t b s' h hx hn => ?_⟩
  obtain ⟨hcap, rfl⟩ := safeWrite_eq_ok.1 hx
  by_cases hroom : t.bytes.length + w.length ≤ t.capacity
  · exact .inl ⟨t.append w, safeWrite_append hroom, hR.append w h⟩
  · rcases hR.room h hcap (by simpa [Buffer.append] using hn) with hle | hmem
    · exact absurd (by rwa [hR.bytes_eq h]) hroom
    · exact .inr ⟨_, t, by simp only [safeWrite, Buffer.write, if_neg hroom],
        hmem "failed to allocate memory in bson_buffer.c"⟩

theorem sim_saveSpace : Sim R n E saveSpace saveSpace := by
  refine ⟨grows_saveSpace, fun s t b s' h hx hn => ?_⟩
  obtain ⟨hcap, rfl, rfl⟩ := saveSpace_eq_ok.1 hx
  by_cases hroom : t.bytes.length + 4 ≤ t.capacity
  · refine .inl ⟨t.append [0, 0, 0, 0], saveSpace_eq_ok.2 ⟨hroom, ?_, rfl⟩, hR.append _ h⟩
    rw [hR.bytes_eq h]
  · rcases hR.room h hcap (by simpa [Buffer.append] using hn) with hle | hmem
    · exact absurd (by rwa [hR.bytes_eq h]) hroom
    · exact .inr ⟨_, t, by simp only [saveSpace, Buffer.write, List.length_cons, List.length_nil,
        if_neg hroom], hmem "failed to allocate memory in buffer.c"⟩

theorem sim_safeWriteAtPos (p : Nat) (d : Bytes) :
    Sim R n E (safeWriteAtPos p d) (safeWriteAtPos p d) := by
  refine ⟨grows_safeWriteAtPos p d, fun s t b s' h hx _ => ?_⟩
  have hx := safeWriteAtPos_eq_ok.1 hx
  unfold Buffer.writeAtPosition at hx
  split at hx <;> cases hx
  refine .inl ⟨_, safeWriteAtPos_eq_ok.2 ?_, hR.update _ h⟩
  rw [Buffer.writeAtPosition, hR.bytes_eq h, if_pos ‹_›]

theorem sim_qsortAt (p len : Nat) : Sim R n E (qsortAt p len) (qsortAt p len) := by
  refine ⟨grows_qsortAt p len, fun s t b s' h hx _ => ?_⟩
  obtain ⟨hp, rfl⟩ := qsortAt_eq_ok.1 hx
  refine .inl ⟨_, qsortAt_eq_ok.2 ⟨?_, rfl⟩, ?_⟩
  · rwa [hR.bytes_eq h]
  · rw [hR.bytes_eq h]
    exact hR.update _ h

theorem sim_safeWriteN (src : Bytes) (size : Int) :
    Sim R n E (safeWriteN src size) (safeWriteN src size) :=
  Sim.ite (sim_safeWrite hR _) (Sim.throw _ _)

theorem sim_checkedLength (start : Nat) :
    Sim R n E (checkedLength start) (checkedLength start) := by
  refine ⟨.of_eq fun s b s' h => ?_, fun s t ℓ s' h hx hn => ?_⟩
  · rw [checkedLength_apply] at h
    split at h <;> cases h
    rfl
  · rw [checkedLength_apply] at hx
    split at hx
    · cases hx
    cases hx
    rw [checkedLength_apply, hR.bytes_eq h]
    rcases hR.check h (ℓ := ((s.bytes.length - start : Nat) : Int)) (by omega) (by omega) with hle | he
    · exact .inl ⟨t, by rw [if_neg (by omega)], h⟩
    · by_cases hgt : ((s.bytes.length - start : Nat) : Int) > t.maxSize
      · exact .inr ⟨_, _, by rw [if_pos hgt], he⟩
      · exact .inl ⟨t, by rw [if_neg hgt], h⟩

theorem sim_writeUtf8 (b : Bytes) (allowNull : Bool) :
    Sim R n E (writeUtf8 b allowNull) (writeUtf8 b allowNull) := by
  unfold writeUtf8
  cases validateUtf8Encoding b allowNull
  · exact sim_safeWriteN hR _ _
  · exact Sim.freeAndRaise _ _
  · exact Sim.freeAndRaise _ _

theorem sim_writeNameAndType (name : Bytes) (type : UInt8) :
    Sim R n E (writeNameAndType name type) (writeNameAndType name type) :=
  (sim_safeWrite hR _).bind fun _ => (sim_writeUtf8 hR _ _).bind fun _ => sim_safeWrite hR _

theorem sim_writeBinary (key data : Bytes) (subtype : UInt8) :
    Sim R n E (writeBinary key data subtype) (writeBinary key data subtype) := by
  simp only [writeBinary]
  with_reducible repeat' (first | exact sim_safeWrite hR _ | exact sim_safeWriteN hR _ _ | exact sim_writeNameAndType hR _ _ | apply Sim.bind | apply Sim.ite_bind | apply Sim.ite | exact Sim.pure _ | intro)

theorem sim_writeObjectIdBytes (k : Nat) (data : List RInt) :
    Sim R n E (writeObjectIdBytes k data) (writeObjectIdBytes k data) := by
  induction k generalizing data with
  | zero => exact Sim.pure _
  | succ k ih => exact (sim_liftExcept _).bind fun _ => (sim_safeWrite hR _).bind fun _ => ih _

theorem sim_serializeRegex (key pattern : Bytes) (flags : RegexpOptions ⊕ RegexOptions)
    (extra : Option Bytes) :
    Sim R n E (serializeRegex key pattern flags extra) (serializeRegex key pattern flags extra) := by
  unfold serializeRegex
  refine (sim_writeNameAndType hR _ _).bind fun _ => (sim_writeUtf8 hR _ _).bind fun _ =>
    (sim_safeWrite hR _).bind fun _ => ?_
  cases flags <;> cases extra <;> simp only [pure_bind] <;>
  with_reducible repeat' (first | exact sim_safeWrite hR _ | exact sim_safeWriteN hR _ _ | exact sim_getPosition hR | exact sim_qsortAt hR _ _ | apply Sim.bind | exact Sim.pure _ | intro)

theorem sim_writeFrame {body body' : Enc Unit} (h : Sim R n E body body') :
    Sim R n E (writeFrame body) (writeFrame body') :=
  (sim_getPosition hR).bind fun _ => (sim_saveSpace hR).bind fun _ => h.bind fun _ =>
    (sim_getPosition hR).bind fun _ => sim_safeWriteAtPos hR _ _

theorem sim_writeDocFrame {body body' : Enc Unit} (h : Sim R n E body body') :
    Sim R n E (writeDocFrame body) (writeDocFrame body') :=
  (sim_getPosition hR).bind fun _ => (sim_saveSpace hR).bind fun _ => h.bind fun _ =>
    (sim_safeWrite hR _).bind fun _ => (sim_checkedLength hR _).bind fun _ =>
      sim_safeWriteAtPos hR _ _

end Primitives


/-! ## The encoder -/

section Encoder

variable {R : Buffer → Buffer → Prop} {n : Nat} {E : RbError → Prop}

mutual

theorem sim_writeElement (hR : Compat R n E) (key value : RValue) (ck₁ ck₂ allowId : Bool)
    (hk : KeySims R n E ck₁ ck₂ (elementKeys key value allowId)) :
    Sim R n E (writeElement key value ck₁ allowId) (writeElement key value ck₂ allowId) := by
  revert hk
  rw [writeElement, writeElement, elementKeys_eq, keyThen]
  cases key.keyString? with
  | none => exact fun _ => Sim.freeAndRaise _ _
  | some k =>
    dsimp only
    by_cases hskip : (!allowId && cstr k == ascii "_id") = true
    · rw [if_pos hskip, if_pos hskip, if_pos hskip]
      exact fun _ => Sim.pure _
    rw [if_neg hskip, if_neg hskip, if_neg hskip]
    intro hk
    refine Sim.check_bind (hk k (List.mem_cons_self _ _)) fun _ => ?_
    have hk' := fun k' h => hk k' (List.mem_cons_of_mem k h)
    clear hk
    cases value with
    | hash entries =>
      exact (sim_writeNameAndType hR _ _).bind fun _ =>
        sim_writeDocFrame hR (sim_writeEntries hR entries ck₁ ck₂ true hk')
    | array items =>
      exact (sim_writeNameAndType hR _ _).bind fun _ => sim_writeFrame hR
        ((sim_writeArrayItems hR items 0 _ ck₁ ck₂ hk').bind fun _ => sim_safeWrite hR _)
    | dbref ns oid =>
      exact (sim_writeNameAndType hR _ _).bind fun _ => sim_writeFrame hR
        ((sim_writeElement hR _ ns false false true (KeySims.of_false _)).bind fun _ =>
          (sim_writeElement hR _ oid false false true (KeySims.of_false _)).bind fun _ =>
            sim_safeWrite hR _)
    | code code scope =>
      exact (sim_writeNameAndType hR _ _).bind fun _ => sim_writeFrame hR
        ((sim_safeWrite hR _).bind fun _ => (sim_safeWriteN hR _ _).bind fun _ =>
          (sim_safeWrite hR _).bind fun _ => sim_writeDoc hR scope false false false (KeySims.of_false _))
    | _ =>
      with_reducible repeat' (first | exact Sim.freeAndRaise _ _ | exact Sim.throw _ _ | exact sim_safeWrite hR _ | exact sim_writeNameAndType hR _ _ | exact sim_writeUtf8 hR _ _ | exact sim_safeWriteN hR _ _ | exact sim_liftExcept _ | exact sim_writeBinary hR _ _ _ | exact sim_writeObjectIdBytes hR _ _ | exact sim_serializeRegex hR _ _ _ _ | apply Sim.bind | apply Sim.ite | exact Sim.pure _ | intro)
termination_by structural value

theorem sim_writeArrayItems (hR : Compat R n E) : (values : List RValue) → (i : Nat) → (items : Int) →
    (ck₁ ck₂ : Bool) → KeySims R n E ck₁ ck₂ (arrayItemKeys values i items) →
    Sim R n E (writeArrayItems values i items ck₁) (writeArrayItems values i items ck₂)
  | [], _, _, _, _, _ => Sim.pure _
  | v :: rest, i, items, ck₁, ck₂, hk => by
    rw [arrayItemKeys] at hk
    rw [writeArrayItems, writeArrayItems]
    by_cases hi : (i : Int) < items
    · rw [if_pos hi, KeySims.append_iff] at hk
      rw [if_pos hi, if_pos hi]
      exact (sim_writeElement hR _ v ck₁ ck₂ true hk.1).bind fun _ =>
        sim_writeArrayItems hR rest (i + 1) items ck₁ ck₂ hk.2
    · rw [if_neg hi, if_neg hi]
      exact Sim.pure _
termination_by structural values => values

theorem sim_writeEntries (hR : Compat R n E) : (entries : List (RValue × RValue)) → (ck₁ ck₂ allowId : Bool) →
    KeySims R n E ck₁ ck₂ (entriesKeys entries allowId) →
    Sim R n E (writeEntries entries ck₁ allowId) (writeEntries entries ck₂ allowId)
  | [], _, _, _, _ => Sim.pure _
  | (k, v) :: rest, ck₁, ck₂, allowId, hk => by
    rw [entriesKeys, KeySims.append_iff] at hk
    rw [writeEntries, writeEntries]
    exact (sim_writeElement hR k v ck₁ ck₂ allowId hk.1).bind fun _ =>
      sim_writeEntries hR rest ck₁ ck₂ allowId hk.2
termination_by structural entries => entries

theorem sim_writeIdEntry (hR : Compat R n E) (id : RValue) (isId : RValue → Bool) :
    (entries : List (RValue × RValue)) → (ck₁ ck₂ : Bool) →
    KeySims R n E ck₁ ck₂ (idEntryKeys id isId entries) →
    Sim R n E (writeIdEntry id isId entries ck₁) (writeIdEntry id isId entries ck₂)
  | [], _, _, _ => Sim.pure _
  | (k, v) :: rest, ck₁, ck₂, hk => by
    rw [idEntryKeys] at hk
    rw [writeIdEntry, writeIdEntry]
    by_cases hid : isId k = true
    · rw [if_pos hid] at hk ⊢
      rw [if_pos hid]
      exact sim_writeElement hR id v ck₁ ck₂ true hk
    · rw [if_neg hid] at hk ⊢
      rw [if_neg hid]
      exact sim_writeIdEntry hR id isId rest ck₁ ck₂ hk
termination_by structural entries => entries

theorem sim_writeDoc (hR : Compat R n E) (hash : RValue) (ck₁ ck₂ moveId : Bool)
    (hk : KeySims R n E ck₁ ck₂ (docKeys hash moveId)) :
    Sim R n E (writeDoc hash ck₁ moveId) (writeDoc hash ck₂ moveId) := by
  match hash with
  | .hash entries =>
    rw [writeDoc, writeDoc]
    rw [docKeys] at hk
    refine sim_writeDocFrame hR ?_
    by_cases hm : moveId = true
    · rw [if_pos hm, KeySims.append_iff] at hk
      obtain ⟨hid, hrest⟩ := hk
      by_cases hs : entries.any (·.1.isString (ascii "_id")) = true
      · rw [if_pos hs] at hid
        simp only [hm, hs, if_true]
        exact (sim_writeIdEntry hR _ _ entries ck₁ ck₂ hid).bind fun _ =>
          sim_writeEntries hR entries ck₁ ck₂ false hrest
      by_cases hy : entries.any (·.1.isSymbol (ascii "_id")) = true
      · rw [if_neg hs, if_pos hy] at hid
        simp only [hm, hs, hy, if_true, if_false]
        exact (sim_writeIdEntry hR _ _ entries ck₁ ck₂ hid).bind fun _ =>
          sim_writeEntries hR entries ck₁ ck₂ false hrest
      · simp only [hm, hs, hy, if_true, if_false, pure_bind]
        exact sim_writeEntries hR entries ck₁ ck₂ false hrest
    · rw [if_neg hm] at hk
      simp only [hm, if_false]
      exact sim_writeEntries hR entries ck₁ ck₂ true hk
  | .integer _ | .bool _ | .float _ | .nil | .array _ | .string _ | .symbol _ | .chars _
  | .binary .. | .byteBuffer _ | .objectId _ | .dbref .. | .code .. | .maxKey | .minKey
  | .timestamp .. | .time _ | .bsonRegex .. | .regexp .. | .object _ | .data _ | .other .. =>
    simp only [writeDoc]
    exact (sim_saveSpace hR).bind fun _ => Sim.ite (Sim.throw _ _) (Sim.freeAndRaise _ _)
termination_by structural hash

end

end Encoder

/-! ## Whole runs of `serialize` -/

section Serialize

/-- The buffer `write_doc` starts from in `method_serialize`. -/
def startBuffer (maxSize : Int) (capacity : Nat) : Buffer := ⟨[], maxSize, capacity, 0⟩

theorem setMaxSize_start (m : Int) (capacity : Nat) :
    setMaxSize m (Buffer.new capacity) = .ok () (startBuffer m capacity) := rfl

theorem serialize_eq_ok {d : RValue} {ck mid : Bool} {m : Int} {capacity : Nat} {b : Bytes} :
    serialize d ck mid m capacity = .ok b ↔
      FitsInt32 m ∧ ∃ s', writeDoc d ck mid (startBuffer m capacity) = .ok () s' ∧ s'.bytes = b := by
  unfold serialize methodSerialize
  by_cases hm : FitsInt32 m
  · have h1 : liftExcept (fix2int m) (Buffer.new capacity) = .ok m (Buffer.new capacity) := by
      simp [liftExcept, fix2int_eq_ok.2 ⟨hm, rfl⟩]
    rw [Enc.bind_of_ok h1, Enc.bind_of_ok (setMaxSize_start m capacity)]
    cases h : writeDoc d ck mid (startBuffer m capacity) with
    | ok u s' =>
      have hend : (getBuffer >>= fun result => do bsonBufferFree; pure result) s' =
          .ok s'.bytes { s' with frees := s'.frees + 1 } := rfl
      rw [Enc.bind_of_ok h, hend]
      simp [hm, h]
    | error e s' =>
      rw [Enc.bind_of_error h]
      simp [h]
  · cases h1 : fix2int m with
    | ok y => exact absurd (fix2int_eq_ok.1 h1).1 hm
    | error e =>
      rw [Enc.bind_of_error (show liftExcept (.error e) (Buffer.new capacity) =
        .error e (Buffer.new capacity) from rfl)]
      simp [hm]

theorem serialize_of_error {d : RValue} {ck mid : Bool} {m : Int} {capacity : Nat} {e : RbError}
    {s' : Buffer} (hm : FitsInt32 m) (h : writeDoc d ck mid (startBuffer m capacity) = .error e s') :
    serialize d ck mid m capacity = .error e := by
  unfold serialize methodSerialize
  have h1 : liftExcept (fix2int m) (Buffer.new capacity) = .ok m (Buffer.new capacity) := by
    simp [liftExcept, fix2int_eq_ok.2 ⟨hm, rfl⟩]
  rw [Enc.bind_of_ok h1, Enc.bind_of_ok (setMaxSize_start m capacity), Enc.bind_of_error h]

variable {R : Buffer → Buffer → Prop} {n : Nat} {E : RbError → Prop}

/-- Two runs of `serialize`, from a simulation of their `write_doc` runs. -/
theorem serialize_sim (hR : Compat R n E) {d : RValue} {ck₁ ck₂ mid : Bool} {m₁ m₂ : Int}
    {c₁ c₂ : Nat} (hsim : Sim R n E (writeDoc d ck₁ mid) (writeDoc d ck₂ mid)) {b : Bytes}
    (h : serialize d ck₁ mid m₁ c₁ = .ok b) (hm₂ : FitsInt32 m₂)
    (h₀ : R (startBuffer m₁ c₁) (startBuffer m₂ c₂)) (hn : b.length ≤ n) :
    serialize d ck₂ mid m₂ c₂ = .ok b ∨ ∃ e, E e ∧ serialize d ck₂ mid m₂ c₂ = .error e := by
  obtain ⟨-, s', hrun, rfl⟩ := serialize_eq_ok.1 h
  rcases hsim.sim _ _ _ _ h₀ hrun hn with ⟨t', ht, hR'⟩ | ⟨e, t', ht, he⟩
  · exact .inl (serialize_eq_ok.2 ⟨hm₂, t', ht, hR.bytes_eq hR'⟩)
  · exact .inr ⟨e, he, serialize_of_error hm₂ ht⟩

end Serialize

end CBson
