import CBson.Wire

/-!
# The strict parser reads only canonical bytes

`Wire` proves that the canonical bytes of a well-formed document parse back to it.  This
module proves the other half: whatever `parseDoc` accepts is the canonical encoding of the
document it returns, and that document is well formed.  So `parseDoc` and `docBytes` are
inverse bijections between well-formed documents and the byte strings the grammar accepts
(`parseDoc_eq_some_iff`), and a document has exactly one encoding.

## Strategy

Each reader gets a soundness lemma in the rest-passing form: what it returns, printed back
with the bytes it left, is its input (`readInt32_sound`, `readCString_sound`,
`readLenString_sound`, `readFrame_sound`, `readBinary_sound`).  The four- and eight-byte
fields print back because `le32` and `le64` undo `int32Of`, `int64Of` and `readLE` on
words of their width.  `parseValue_sound` and its two siblings then follow the parser's
recursion over the fuel, one case per type byte.
-/

namespace CBson

/-! ## Words -/

theorem readLE_lt (b : Bytes) : readLE b < 256 ^ b.length := by
  induction b with
  | nil => simp [readLE]
  | cons c b ih =>
    have hc : c.toNat < 256 := c.val.isLt
    rw [readLE, List.length_cons, pow_succ]
    omega

theorem leBytes_readLE_self (w : Bytes) : leBytes w.length (readLE w) = w := by
  simpa using leBytes_readLE w 0

theorem readLE_lt_two_pow {b : Bytes} {w : Nat} (h : b.length = w) :
    (readLE b : Int) < 2 ^ (8 * w) := by
  have hlt := readLE_lt b
  rw [h, show (256 : Nat) ^ w = 2 ^ (8 * w) by rw [pow_mul]; rfl] at hlt
  exact_mod_cast hlt

/-- The `w` bytes of a field are the low `8 * w` bits of the number they read as. -/
theorem leBytes_readLE_mod {b : Bytes} {w : Nat} (h : b.length = w) :
    leBytes w ((readLE b : Int) % 2 ^ (8 * w)).toNat = b := by
  rw [Int.emod_eq_of_lt (by omega) (readLE_lt_two_pow h), Int.toNat_natCast, ← h,
    leBytes_readLE_self]

/-- The signed value of a `w`-byte field, `w > 0`, lies in the signed range, and its low
`8 * w` bits are the field. -/
theorem leBytes_signedOf {b : Bytes} {w : Nat} (hw : 0 < w) (h : b.length = w) :
    leBytes w (signedOf w (readLE b) % 2 ^ (8 * w)).toNat = b ∧
      -2 ^ (8 * w - 1) ≤ signedOf w (readLE b) ∧ signedOf w (readLE b) < 2 ^ (8 * w - 1) := by
  have hlt := readLE_lt_two_pow h
  have hM : (2 : Int) ^ (8 * w) = 2 * 2 ^ (8 * w - 1) := by
    rw [← pow_succ']
    congr 1
    omega
  have hP : (0 : Int) < 2 ^ (8 * w - 1) := by exact_mod_cast Nat.two_pow_pos (8 * w - 1)
  unfold signedOf
  split <;> rename_i hu
  · exact ⟨leBytes_readLE_mod h, by omega, by exact_mod_cast hu⟩
  · have hu' : (2 : Int) ^ (8 * w - 1) ≤ readLE b := by exact_mod_cast not_lt.1 hu
    exact ⟨by rw [Int.emod_sub_cancel]; exact leBytes_readLE_mod h, by omega, by omega⟩

theorem le32_readLE {w : Bytes} (h : w.length = 4) : le32 (readLE w) = w :=
  leBytes_readLE_mod h

theorem le64_readLE {w : Bytes} (h : w.length = 8) : le64 (readLE w) = w :=
  leBytes_readLE_mod h

theorem le32_int32Of {w : Bytes} (h : w.length = 4) : le32 (int32Of w) = w ∧ FitsInt32 (int32Of w) :=
  leBytes_signedOf (by decide) h

theorem le64_int64Of {w : Bytes} (h : w.length = 8) :
    le64 (int64Of w) = w ∧ -2 ^ 63 ≤ int64Of w ∧ int64Of w < 2 ^ 63 :=
  leBytes_signedOf (by decide) h

/-! ## The readers -/

theorem takeExact_eq_some {n : Nat} {b w r : Bytes} :
    takeExact n b = some (w, r) ↔ w.length = n ∧ b = w ++ r := by
  unfold takeExact
  split <;> rename_i h
  · simp only [Option.some.injEq, Prod.mk.injEq]
    constructor
    · rintro ⟨rfl, rfl⟩
      exact ⟨by simp; omega, (List.take_append_drop n b).symm⟩
    · rintro ⟨rfl, rfl⟩
      simp
  · simp only [reduceCtorEq, false_iff, not_and]
    rintro rfl rfl
    simp at h

theorem readInt32_sound {b r : Bytes} {n : Int} (h : readInt32 b = some (n, r)) :
    b = le32 n ++ r ∧ FitsInt32 n := by
  simp only [readInt32, Option.bind_eq_bind, Option.bind_eq_some, Option.pure_def,
    Option.some.injEq, Prod.exists, Prod.mk.injEq] at h
  obtain ⟨w, r', hw, rfl, rfl⟩ := h
  obtain ⟨hlen, rfl⟩ := takeExact_eq_some.1 hw
  obtain ⟨hle, hfit⟩ := le32_int32Of hlen
  exact ⟨by rw [hle], hfit⟩

/-- A byte string with a NUL is its C string, the NUL, and the rest. -/
theorem eq_cstr_append {b : Bytes} (h : (0 : UInt8) ∈ b) :
    b = cstr b ++ 0 :: b.drop ((cstr b).length + 1) := by
  induction b with
  | nil => cases h
  | cons c b ih =>
    by_cases hc : c = 0
    · subst hc
      rfl
    · have hb : (0 : UInt8) ∈ b := (List.mem_cons.1 h).resolve_left (Ne.symm hc)
      rw [cstr_cons_of_ne hc, List.length_cons, List.drop_succ_cons, List.cons_append, ← ih hb]

theorem readCString_sound {b s r : Bytes} (h : readCString b = some (s, r)) :
    b = s ++ 0 :: r ∧ NulFree s := by
  unfold readCString at h
  split at h <;> rename_i h0
  · simp only [Option.some.injEq, Prod.mk.injEq] at h
    obtain ⟨rfl, rfl⟩ := h
    exact ⟨eq_cstr_append (by simpa using h0), nulFree_cstr b⟩
  · cases h

/-- A list that ends in `0` is its `dropLast` followed by `0`. -/
theorem eq_dropLast_append_zero {s : Bytes} (h : s.getLast? = some 0) : s = s.dropLast ++ [0] := by
  rw [← List.dropLast_append_getLast? 0 h]
  simp [List.dropLast_append_getLast? 0 h]

theorem readLenString_sound {b s r : Bytes} (h : readLenString b = some (s, r)) :
    b = lenString s ++ r ∧ s.length + 1 < 2 ^ 31 := by
  simp only [readLenString, Option.bind_eq_bind, Option.bind_eq_some, Prod.exists] at h
  obtain ⟨n, r₀, hn, h⟩ := h
  obtain ⟨rfl, hfit⟩ := readInt32_sound hn
  split_ifs at h with h1
  simp only [Option.bind_eq_some, Prod.exists] at h
  obtain ⟨t, r₁, ht, h⟩ := h
  split_ifs at h with hz
  simp only [Option.pure_def, Option.some.injEq, Prod.mk.injEq] at h
  obtain ⟨rfl, rfl⟩ := h
  obtain ⟨hlen, rfl⟩ := takeExact_eq_some.1 ht
  have ht0 := eq_dropLast_append_zero hz
  have hs : (t.dropLast.length : Int) + 1 = n := by
    have := congrArg List.length ht0
    simp only [List.length_append, List.length_singleton] at this
    omega
  refine ⟨?_, by unfold FitsInt32 at hfit; omega⟩
  rw [lenString, hs, List.append_assoc, List.append_assoc, ← List.append_assoc t.dropLast, ← ht0]

/-- A prefix of four bytes or more of bytes that start with `le32 n` starts with it. -/
theorem take_four_eq_le32 {n : Int} {w r r₀ : Bytes} (h : le32 n ++ r₀ = w ++ r)
    (hw : 4 ≤ w.length) : w.take 4 = le32 n := by
  have := congrArg (List.take 4) h
  rw [List.take_append_of_le_length (by simp), List.take_append_of_le_length hw,
    List.take_of_length_le (by simp)] at this
  exact this.symm

theorem readFrame_sound {b body r : Bytes} (h : readFrame b = some (body, r)) :
    b = frame body ++ r ∧ body.length + 5 < 2 ^ 31 := by
  simp only [readFrame, Option.bind_eq_bind, Option.bind_eq_some, Prod.exists] at h
  obtain ⟨n, r₀, hn, h⟩ := h
  obtain ⟨hb, hfit⟩ := readInt32_sound hn
  split_ifs at h with h5
  simp only [Option.bind_eq_some, Prod.exists] at h
  obtain ⟨f, r₁, hf, h⟩ := h
  split_ifs at h with hz
  simp only [Option.pure_def, Option.some.injEq, Prod.mk.injEq] at h
  obtain ⟨rfl, rfl⟩ := h
  obtain ⟨hlen, hbf⟩ := takeExact_eq_some.1 hf
  have hhead := take_four_eq_le32 (hb.symm.trans hbf) (by omega)
  have hz' : (f.drop 4).getLast? = some 0 := by
    rwa [List.getLast?_drop, if_neg (by omega)]
  have hf0 := eq_dropLast_append_zero hz'
  have hbody : ((f.drop 4).dropLast.length : Int) + 5 = n := by
    have := congrArg List.length hf0
    simp only [List.length_append, List.length_singleton, List.length_drop] at this
    omega
  refine ⟨?_, by unfold FitsInt32 at hfit; omega⟩
  rw [hbf, frame, hbody, ← hhead]
  simp only [List.append_assoc]
  rw [← List.append_assoc (List.drop 4 f).dropLast, ← hf0, ← List.append_assoc,
    List.take_append_drop]

theorem readBinary_sound {b r : Bytes} {v : BValue} (h : readBinary b = some (v, r)) :
    ∃ subtype data, v = .binary subtype data ∧ b = binaryBytes subtype data ++ r := by
  simp only [readBinary, Option.bind_eq_bind, Option.bind_eq_some, Prod.exists] at h
  obtain ⟨n, r₀, hn, h⟩ := h
  obtain ⟨rfl, -⟩ := readInt32_sound hn
  rcases r₀ with _ | ⟨subtype, r₀⟩
  · cases h
  · dsimp only at h
    split_ifs at h with h2 hn0
    · subst h2
      simp only [Option.bind_eq_some, Prod.exists] at h
      obtain ⟨m, r₁, hm, h⟩ := h
      obtain ⟨rfl, -⟩ := readInt32_sound hm
      split_ifs at h with hmn
      simp only [Option.bind_eq_some, Prod.exists, Option.pure_def, Option.some.injEq,
        Prod.mk.injEq] at h
      obtain ⟨data, r₂, hd, rfl, rfl⟩ := h
      obtain ⟨hlen, rfl⟩ := takeExact_eq_some.1 hd
      refine ⟨2, data, rfl, ?_⟩
      rw [binaryBytes, if_pos rfl, hmn.2, show m = data.length by omega]
      simp
    · simp only [Option.bind_eq_some, Prod.exists, Option.pure_def, Option.some.injEq,
        Prod.mk.injEq] at h
      obtain ⟨data, r₂, hd, rfl, rfl⟩ := h
      obtain ⟨hlen, rfl⟩ := takeExact_eq_some.1 hd
      refine ⟨subtype, data, rfl, ?_⟩
      rw [binaryBytes, if_neg h2, show n = data.length by omega]
      simp

/-! ## The parser -/

mutual

/-- Whatever `parseValue` reads is the payload of a well-formed value of the type it was
asked for, followed by the bytes it leaves. -/
theorem parseValue_sound : (fuel : Nat) → (tag : UInt8) → (b r : Bytes) → (v : BValue) →
    parseValue fuel tag b = some (v, r) → v.tag = tag ∧ v.wf = true ∧ b = payload v ++ r
  | 0, _, _, _, _, h => by cases h
  | fuel + 1, tag, b, r, v, h => by
    unfold parseValue at h
    split at h <;>
      try simp only [Option.bind_eq_bind, Option.bind_eq_some, Prod.exists, Option.pure_def,
        Option.some.injEq, Prod.mk.injEq] at h
    · -- double
      obtain ⟨w, r', hw, rfl, rfl⟩ := h
      obtain ⟨hlen, rfl⟩ := takeExact_eq_some.1 hw
      have hlt := readLE_lt w
      rw [hlen] at hlt
      refine ⟨rfl, rfl, ?_⟩
      rw [payload, UInt64.toNat_ofNat_of_lt (by exact hlt), le64_readLE hlen]
    · -- string
      obtain ⟨s, r', hs, rfl, rfl⟩ := h
      exact ⟨rfl, rfl, (readLenString_sound hs).1⟩
    · -- document
      obtain ⟨body, r', hb, fields, hf, rfl, rfl⟩ := h
      obtain ⟨hwf, rfl⟩ := parseFields_sound fuel body fields hf
      exact ⟨rfl, hwf, (readFrame_sound hb).1⟩
    · -- array
      obtain ⟨body, r', hb, items, hi, rfl, rfl⟩ := h
      obtain ⟨hwf, rfl⟩ := parseItems_sound fuel 0 body items hi
      exact ⟨rfl, hwf, (readFrame_sound hb).1⟩
    · -- binary
      obtain ⟨subtype, data, rfl, rfl⟩ := readBinary_sound h
      exact ⟨rfl, rfl, rfl⟩
    · -- ObjectId
      obtain ⟨w, r', hw, rfl, rfl⟩ := h
      obtain ⟨hlen, rfl⟩ := takeExact_eq_some.1 hw
      exact ⟨rfl, by simp [BValue.wf, hlen], rfl⟩
    · -- boolean
      split at h <;> simp only [Option.some.injEq, Prod.mk.injEq, reduceCtorEq] at h <;>
        obtain ⟨rfl, rfl⟩ := h <;> exact ⟨rfl, rfl, rfl⟩
    · -- UTC datetime
      obtain ⟨w, r', hw, rfl, rfl⟩ := h
      obtain ⟨hlen, rfl⟩ := takeExact_eq_some.1 hw
      obtain ⟨hle, hlo, hhi⟩ := le64_int64Of hlen
      exact ⟨rfl, by simp only [BValue.wf, decide_eq_true_eq]; exact ⟨hlo, hhi⟩, by rw [payload, hle]⟩
    · -- null
      obtain ⟨rfl, rfl⟩ := h
      exact ⟨rfl, rfl, rfl⟩
    · -- regex
      obtain ⟨pattern, r₁, hp, flags, r', hfl, rfl, rfl⟩ := h
      obtain ⟨rfl, hnp⟩ := readCString_sound hp
      obtain ⟨rfl, hnf⟩ := readCString_sound hfl
      exact ⟨rfl, by simpa [BValue.wf] using ⟨hnp, hnf⟩, by simp [payload]⟩
    · -- DBPointer
      obtain ⟨ns, r₁, hs, id, r', hid, rfl, rfl⟩ := h
      obtain ⟨hlen, rfl⟩ := takeExact_eq_some.1 hid
      exact ⟨rfl, by simp [BValue.wf, hlen], by simp [(readLenString_sound hs).1, payload]⟩
    · -- JavaScript code
      obtain ⟨s, r', hs, rfl, rfl⟩ := h
      exact ⟨rfl, rfl, (readLenString_sound hs).1⟩
    · -- symbol
      obtain ⟨s, r', hs, rfl, rfl⟩ := h
      exact ⟨rfl, rfl, (readLenString_sound hs).1⟩
    · -- code with scope
      obtain ⟨n, r₀, hn, w, r', hw, h⟩ := h
      obtain ⟨hb, hfit⟩ := readInt32_sound hn
      obtain ⟨hlen, hbw⟩ := takeExact_eq_some.1 hw
      obtain ⟨code, w₁, hc, body, w₂, hbody, h⟩ := h
      split_ifs at h with hend
      simp only [Option.bind_eq_some, Option.pure_def, Option.some.injEq, Prod.mk.injEq] at h
      obtain ⟨scope, hs, rfl, rfl⟩ := h
      obtain ⟨rfl, h4⟩ := hend
      obtain ⟨hw₁, -⟩ := readLenString_sound hc
      obtain ⟨rfl, -⟩ := readFrame_sound hbody
      obtain ⟨hwf, rfl⟩ := parseFields_sound fuel body scope hs
      have hhead := take_four_eq_le32 (hb.symm.trans hbw) (by omega)
      have hn : n = (code.length + (frame (fieldsBytes scope)).length + 9 : Nat) := by
        have := congrArg List.length hw₁
        simp only [List.length_drop, List.length_append, lenString, length_le32,
          List.length_singleton, List.append_nil] at this
        omega
      refine ⟨rfl, hwf, ?_⟩
      rw [hbw, payload, codeBytes, ← List.take_append_drop 4 w, hhead, hw₁, hn]
      simp
    · -- int32
      obtain ⟨n, r', hn, rfl, rfl⟩ := h
      obtain ⟨rfl, hfit⟩ := readInt32_sound hn
      exact ⟨rfl, by simpa [BValue.wf] using hfit, rfl⟩
    · -- timestamp
      obtain ⟨w, r', hw, rfl, rfl⟩ := h
      obtain ⟨hlen, rfl⟩ := takeExact_eq_some.1 hw
      have h4 : (w.take 4).length = 4 := by simp; omega
      have h4' : (w.drop 4).length = 4 := by simp; omega
      have hlo := readLE_lt (w.take 4)
      have hhi := readLE_lt (w.drop 4)
      rw [h4] at hlo
      rw [h4'] at hhi
      refine ⟨rfl, by simp only [BValue.wf, decide_eq_true_eq]; omega, ?_⟩
      rw [payload, le32_readLE h4, le32_readLE h4', List.take_append_drop]
    · -- int64
      obtain ⟨w, r', hw, rfl, rfl⟩ := h
      obtain ⟨hlen, rfl⟩ := takeExact_eq_some.1 hw
      obtain ⟨hle, hlo, hhi⟩ := le64_int64Of hlen
      exact ⟨rfl, by simp only [BValue.wf, decide_eq_true_eq]; exact ⟨hlo, hhi⟩, by rw [payload, hle]⟩
    · -- MaxKey
      obtain ⟨rfl, rfl⟩ := h
      exact ⟨rfl, rfl, rfl⟩
    · -- MinKey
      obtain ⟨rfl, rfl⟩ := h
      exact ⟨rfl, rfl, rfl⟩
    · cases h

/-- Whatever `parseFields` reads is the element bytes of the well-formed fields it returns. -/
theorem parseFields_sound : (fuel : Nat) → (b : Bytes) → (fields : List (Bytes × BValue)) →
    parseFields fuel b = some fields → fieldsWf fields = true ∧ fieldsBytes fields = b
  | 0, _, _, h => by cases h
  | _ + 1, [], fields, h => by
    cases h
    exact ⟨rfl, rfl⟩
  | fuel + 1, tag :: b, fields, h => by
    simp only [parseFields, Option.bind_eq_bind, Option.bind_eq_some, Prod.exists,
      Option.pure_def, Option.some.injEq] at h
    obtain ⟨key, r₁, hk, v, r₂, hv, rest, hrest, rfl⟩ := h
    obtain ⟨rfl, hnul⟩ := readCString_sound hk
    obtain ⟨rfl, hwf, rfl⟩ := parseValue_sound fuel tag r₁ r₂ v hv
    obtain ⟨hwr, rfl⟩ := parseFields_sound fuel r₂ rest hrest
    refine ⟨?_, by simp [fieldsBytes]⟩
    simp only [fieldsWf, Bool.and_eq_true, decide_eq_true_eq]
    exact ⟨⟨hnul, hwf⟩, hwr⟩

/-- Whatever `parseItems` reads is the element bytes, keyed from `i`, of the well-formed
items it returns. -/
theorem parseItems_sound : (fuel i : Nat) → (b : Bytes) → (items : List BValue) →
    parseItems fuel i b = some items → itemsWf items = true ∧ itemsBytes i items = b
  | 0, _, _, _, h => by cases h
  | _ + 1, _, [], items, h => by
    cases h
    exact ⟨rfl, rfl⟩
  | fuel + 1, i, tag :: b, items, h => by
    simp only [parseItems, Option.bind_eq_bind, Option.bind_eq_some, Prod.exists] at h
    obtain ⟨key, r₁, hk, h⟩ := h
    split_ifs at h with hkey
    simp only [Option.bind_eq_some, Prod.exists, Option.pure_def, Option.some.injEq] at h
    obtain ⟨v, r₂, hv, rest, hrest, rfl⟩ := h
    obtain ⟨rfl, -⟩ := readCString_sound hk
    obtain ⟨rfl, hwf, rfl⟩ := parseValue_sound fuel tag r₁ r₂ v hv
    obtain ⟨hwr, rfl⟩ := parseItems_sound fuel (i + 1) r₂ rest hrest
    exact ⟨by simp [itemsWf, hwf, hwr], by simp [itemsBytes, hkey]⟩

end

/-! ## Documents -/

/-- A document the parser accepts is well formed and is read from its canonical bytes. -/
theorem docBytes_of_parseDoc {b : Bytes} {fields : List (Bytes × BValue)}
    (h : parseDoc b = some fields) : docWf fields = true ∧ docBytes fields = b := by
  simp only [parseDoc, Option.bind_eq_bind, Option.bind_eq_some, Prod.exists] at h
  obtain ⟨body, r, hf, h⟩ := h
  split_ifs at h with hr
  subst hr
  obtain ⟨rfl, hlen⟩ := readFrame_sound hf
  obtain ⟨hwf, rfl⟩ := parseFields_sound _ body fields h
  refine ⟨?_, (List.append_nil _).symm⟩
  simp only [docWf, docBytes, hwf, frame, List.length_append, length_le32, List.length_singleton,
    Bool.true_and, decide_eq_true_eq]
  omega

theorem parseDoc_eq_some_iff (b : Bytes) (fields : List (Bytes × BValue)) :
    parseDoc b = some fields ↔ docWf fields = true ∧ docBytes fields = b :=
  ⟨docBytes_of_parseDoc, fun ⟨hw, hb⟩ => hb ▸ parseDoc_docBytes hw⟩

end CBson
