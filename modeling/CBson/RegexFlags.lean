import CBson.EncoderWire

/-!
# Regex flags

`serialize_regex` writes the pattern, its NUL, the option letters of the value, then the
value's `extra_options_str` with `qsort`, and a closing NUL.  The option letters come in
a fixed order per class: `i`, `l`, `m`, `s`, `u`, `x` for a `BSON::Regex`, and `m`
first, then `i`, `s`, `x`, for a native `Regexp`.  Only the extra segment is sorted, by
`cmp_char` on signed `char`s, and nothing is removed from it.

So the flags are strictly increasing and drawn from `{i, l, m, s, u, x}` (`NormalFlags`)
only under conditions on the extra string: for a `BSON::Regex`, exactly when its bytes
are distinct letters of the six, all above the last option letter
(`normalFlags_bsonRegex_iff`).  For a native `Regexp` the order of the option letters
already fails when `IGNORECASE` is set: `/a/i` gets the flags `"mi"`
(`normalFlags_regexp_iff`).

## Strategy

`serializeRegex_bytes` follows one successful run; everything before the pattern's NUL
appends what `EncoderWire` says it writes, and the extra segment, when it is written at all, is written
whole and sorted (`extra_bytes`).  The order facts are about lists: the option letters
are checked over the 64 and 8 option combinations, the sorted extra is ordered by
`List.sorted_mergeSort` and is a permutation of the extra string, and on letters
`cmp_char` is the order of the bytes.
-/

namespace CBson

/-- The six flag letters of the BSON spec. -/
def flagLetters : Bytes := ascii "ilmsux"

/-- A flags string that is strictly increasing and drawn from the six flag letters. -/
def NormalFlags (w : Bytes) : Prop := w.Pairwise (· < ·) ∧ ∀ c ∈ w, c ∈ flagLetters

instance (w : Bytes) : Decidable (NormalFlags w) :=
  inferInstanceAs (Decidable (w.Pairwise (· < ·) ∧ ∀ c ∈ w, c ∈ flagLetters))

/-! ## What a successful run writes -/

/-- The `extra_options_str` segment: a run that returns has written the whole string,
sorted.  A length that `RSTRING_LENINT` wraps leaves the `qsort` running past what was
written, which the model refuses. -/
theorem extra_bytes {e : Bytes} {s s₁ s₂ : Buffer} {u v : Unit}
    (hw : safeWriteN e (toInt32 e.length) s = .ok u s₁)
    (hq : qsortAt s.bytes.length e.length s₁ = .ok v s₂) :
    s₂.bytes = s.bytes ++ List.mergeSort e cmpCharLe := by
  obtain ⟨h0, hle, -, rfl⟩ := safeWriteN_eq_ok.1 hw
  obtain ⟨hroom, rfl⟩ := qsortAt_eq_ok.1 hq
  have htake : e.take (toInt32 e.length).toNat = e := by
    simp only [Buffer.bytes_append, List.length_append, List.length_take] at hroom
    exact List.take_of_length_le (by omega)
  simp [htake]

/-- A successful `serialize_regex` ends with the pattern's NUL, the option letters, the
sorted `extra_options_str`, and the closing NUL. -/
theorem serializeRegex_bytes {key pattern : Bytes} {flags : RegexpOptions ⊕ RegexOptions}
    {extra : Option Bytes} {s s' : Buffer} {u : Unit}
    (h : serializeRegex key pattern flags extra s = .ok u s') :
    ∃ pre, s'.bytes = s.bytes ++ pre ++ [0] ++ (regexFlags flags ++ sortedExtra extra) ++ [0] := by
  unfold serializeRegex at h
  rcases extra with _ | e
  · rcases flags with o | o <;>
    · simp only [pure_bind, Enc.bind_eq_ok] at h
      obtain ⟨_, s₁, h₁, _, s₂, h₂, _, s₃, h₃, _, s₄, h₄, h₅⟩ := h
      obtain ⟨e₁, -⟩ := writes_writeNameAndType_take _ _ _ _ _ h₁
      obtain ⟨e₂, -⟩ := writes_writeUtf8_take _ _ _ _ _ h₂
      generalize key.take (toInt32 key.length).toNat = k at e₁
      generalize pattern.take (toInt32 pattern.length).toNat = p at e₂
      obtain ⟨-, rfl⟩ := safeWrite_eq_ok.1 h₃
      obtain ⟨-, rfl⟩ := safeWrite_eq_ok.1 h₄
      obtain ⟨-, rfl⟩ := safeWrite_eq_ok.1 h₅
      refine ⟨[0x0B] ++ (k ++ [0]) ++ p, ?_⟩
      simp only [Buffer.bytes_append, e₂, e₁, regexFlags, sortedExtra, List.append_nil,
        List.append_assoc]
  · rcases flags with o | o <;>
    · simp only [Enc.bind_eq_ok, getPosition_apply, EStateM.Result.ok.injEq] at h
      obtain ⟨_, s₁, h₁, _, s₂, h₂, _, s₃, h₃, _, s₄, h₄, _, _, ⟨rfl, rfl⟩, _, s₅, h₅, _, s₆, h₆,
        h₇⟩ := h
      obtain ⟨e₁, -⟩ := writes_writeNameAndType_take _ _ _ _ _ h₁
      obtain ⟨e₂, -⟩ := writes_writeUtf8_take _ _ _ _ _ h₂
      generalize key.take (toInt32 key.length).toNat = k at e₁
      generalize pattern.take (toInt32 pattern.length).toNat = p at e₂
      obtain ⟨-, rfl⟩ := safeWrite_eq_ok.1 h₃
      obtain ⟨-, rfl⟩ := safeWrite_eq_ok.1 h₄
      obtain ⟨-, rfl⟩ := safeWrite_eq_ok.1 h₇
      refine ⟨[0x0B] ++ (k ++ [0]) ++ p, ?_⟩
      simp only [Buffer.bytes_append, extra_bytes h₅ h₆, e₂, e₁, regexFlags, sortedExtra,
        List.append_assoc]

/-! ## The order of the flags -/

theorem cmpCharLe_trans (a b c : UInt8) (hab : cmpCharLe a b) (hbc : cmpCharLe b c) :
    cmpCharLe a c := by
  simp only [cmpCharLe, decide_eq_true_eq] at *
  split_ifs at * <;> omega

theorem cmpCharLe_total (a b : UInt8) : (cmpCharLe a b || cmpCharLe b a) = true := by
  simp only [cmpCharLe, Bool.or_eq_true, decide_eq_true_eq]
  omega

theorem flagLetters_lt (c : UInt8) (h : c ∈ flagLetters) : c.toNat < 128 := by
  revert c; decide

/-- On ASCII bytes `cmp_char` is the order of the bytes. -/
theorem le_of_cmpCharLe {a b : UInt8} (ha : a.toNat < 128) (hb : b.toNat < 128)
    (h : cmpCharLe a b = true) : a.toNat ≤ b.toNat := by
  simp only [cmpCharLe, ha, hb, if_true, decide_eq_true_eq] at h
  exact_mod_cast h

theorem bsonRegexFlags_normal (o : RegexOptions) : NormalFlags (bsonRegexFlags o) := by
  rcases o with ⟨_ | _, _ | _, _ | _, _ | _, _ | _, _ | _⟩ <;> decide

theorem nativeFlags_distinct (o : RegexpOptions) :
    (nativeFlags o).Nodup ∧ ∀ c ∈ nativeFlags o, c ∈ ascii "imsx" := by
  rcases o with ⟨_ | _, _ | _, _ | _⟩ <;> decide

/-- Normal option letters followed by a sorted extra string are normal exactly when the
extra bytes are distinct flag letters above every option letter. -/
theorem normalFlags_append_sorted {F e : Bytes} (hF : NormalFlags F) :
    NormalFlags (F ++ List.mergeSort e cmpCharLe) ↔
      (∀ c ∈ e, c ∈ flagLetters) ∧ e.Nodup ∧ ∀ c ∈ e, ∀ f ∈ F, f < c := by
  have hperm := List.mergeSort_perm e cmpCharLe
  simp only [NormalFlags, List.pairwise_append, List.mem_append, hperm.mem_iff]
  constructor
  · rintro ⟨⟨-, hsorted, hcross⟩, hl⟩
    refine ⟨fun c hc => hl c (.inr hc), hperm.nodup_iff.1 (hsorted.imp ?_),
      fun c hc f hf => hcross f hf c hc⟩
    rintro a _ hab rfl
    exact Nat.lt_irrefl _ hab
  · rintro ⟨hl, hnd, hcross⟩
    have hle := List.sorted_mergeSort cmpCharLe_trans cmpCharLe_total e
    have hlt : (List.mergeSort e cmpCharLe).Pairwise (· < ·) :=
      (hle.and (hperm.nodup_iff.2 hnd)).imp_of_mem fun ha hb ⟨hab, hne⟩ =>
        Nat.lt_of_le_of_ne (le_of_cmpCharLe (flagLetters_lt _ (hl _ (hperm.mem_iff.1 ha)))
          (flagLetters_lt _ (hl _ (hperm.mem_iff.1 hb))) hab) (hne ∘ UInt8.toNat.inj)
    refine ⟨⟨hF.1, hlt, fun f hf c hc => hcross c hc f hf⟩, ?_⟩
    rintro c (hc | hc)
    exacts [hF.2 c hc, hl c hc]

/-- The flags of a `BSON::Regex` are normal exactly when its extra string is made of
distinct flag letters, each above every option letter set. -/
theorem normalFlags_bsonRegex_iff (o : RegexOptions) (extra : Option Bytes) :
    NormalFlags (bsonRegexFlags o ++ sortedExtra extra) ↔
      ∀ e, extra = some e →
        (∀ c ∈ e, c ∈ flagLetters) ∧ e.Nodup ∧ ∀ c ∈ e, ∀ f ∈ bsonRegexFlags o, f < c := by
  cases extra with
  | none => simpa [sortedExtra] using bsonRegexFlags_normal o
  | some e => simpa [sortedExtra] using normalFlags_append_sorted (e := e) (bsonRegexFlags_normal o)

/-- What `serialize_regex` guarantees of the flags: they follow the pattern's NUL and are
the option letters then the sorted extra string; for a `BSON::Regex` they are normal
exactly under the condition of `normalFlags_bsonRegex_iff`, and the option letters of a
native `Regexp` are distinct letters of `imsx`. -/
theorem serializeRegex_flags :
    (∀ key pattern flags extra (s s' : Buffer) (u : Unit),
      serializeRegex key pattern flags extra s = .ok u s' →
        ∃ pre, s'.bytes = s.bytes ++ pre ++ [0] ++ (regexFlags flags ++ sortedExtra extra) ++ [0]) ∧
    (∀ o extra, NormalFlags (regexFlags (.inr o) ++ sortedExtra extra) ↔
      ∀ e, extra = some e →
        (∀ c ∈ e, c ∈ flagLetters) ∧ e.Nodup ∧ ∀ c ∈ e, ∀ f ∈ bsonRegexFlags o, f < c) ∧
    (∀ o, (regexFlags (.inl o)).Nodup ∧ ∀ c ∈ regexFlags (.inl o), c ∈ ascii "imsx") :=
  ⟨fun _ _ _ _ _ _ _ h => serializeRegex_bytes h, normalFlags_bsonRegex_iff, nativeFlags_distinct⟩

theorem serializeRegex_flags_im :
    ∃ s', serializeRegex (ascii "r") (ascii "a") (.inr ⟨true, false, true, false, false, false⟩)
        none (Buffer.new 64) = .ok () s' ∧
      s'.bytes = ascii "\x0br\x00a\x00im\x00" ∧
      ∃ pre, s'.bytes = (Buffer.new 64).bytes ++ pre ++ [0] ++
        (regexFlags (.inr ⟨true, false, true, false, false, false⟩) ++ sortedExtra none) ++ [0] :=
  ⟨_, rfl, rfl, serializeRegex_flags.1 (ascii "r") (ascii "a") _ _ _ _ _ rfl⟩

unseal List.mergeSort in
/- A `BSON::Regex` with `IGNORECASE` whose extra string is `"i"` gets the flags `"ii"`. -/
example :
    serialize (.hash [(.string (ascii "r"),
        .bsonRegex (ascii "a") ⟨true, false, false, false, false, false⟩ (some (ascii "i")))])
        false false (2 ^ 31 - 1) 64 = .ok [13, 0, 0, 0, 11, 114, 0, 97, 0, 105, 105, 0, 0] ∧
      ¬NormalFlags (ascii "ii") :=
  ⟨rfl, by decide⟩

/-- A native `Regexp`'s flags are normal exactly when `IGNORECASE` is clear and its extra
string meets the condition of the `BSON::Regex` case. -/
theorem normalFlags_regexp_iff (o : RegexpOptions) (extra : Option Bytes) :
    NormalFlags (nativeFlags o ++ sortedExtra extra) ↔ o.ignorecase = false ∧
      ∀ e, extra = some e →
        (∀ c ∈ e, c ∈ flagLetters) ∧ e.Nodup ∧ ∀ c ∈ e, ∀ f ∈ nativeFlags o, f < c := by
  rcases o with ⟨_ | _, m, x⟩
  · have hF : NormalFlags (nativeFlags ⟨false, m, x⟩) := by cases m <;> cases x <;> decide
    cases extra with
    | none => simpa [sortedExtra] using hF
    | some e => simpa [sortedExtra] using normalFlags_append_sorted (e := e) hF
  · refine iff_of_false (fun h => ?_) (by simp)
    have hp := (List.pairwise_append.1 h.1).1
    revert hp
    cases m <;> cases x <;> decide

/-- The native `/a/i` gets the flags `"mi"`: `m` is written first, before `i`. -/
theorem serialize_regexp_ignorecase :
    serialize (.hash [(.string (ascii "r"), .regexp (ascii "a") ⟨true, false, false⟩ none)])
        false false (2 ^ 31 - 1) 64 = .ok [13, 0, 0, 0, 11, 114, 0, 97, 0, 109, 105, 0, 0] ∧
      ¬NormalFlags (ascii "mi") :=
  ⟨rfl, by decide⟩

end CBson
