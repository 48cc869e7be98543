import CBson.Basic

/-!
# The UTF-8 validator

`validate_utf8_encoding` lives in `encoding_helpers.c`, which is not part of the
sources.  The spec (§4.2) fixes what it computes: a byte string is `VALID`, `HAS_NULL`
or `INVALID_UTF8`; a NUL makes it `HAS_NULL` when embedded NULs are not allowed, and any
sequence RFC 3629 rejects makes it `INVALID_UTF8`.  The model scans left to right and
the first offending byte decides, a NUL counting as offending wherever it stands.

The scan is a machine over `Utf8Scan`, one byte at a time, following the table of
RFC 3629 §4: a first byte fixes how many continuation bytes follow and the range of the
first of them.  `Utf8Valid b` is the statement that `b` is UTF-8.
-/

namespace CBson

/-- Modelled from the spec: the three answers of `validate_utf8_encoding`. -/
inductive Utf8Status where
  | valid
  | hasNull
  | invalidUtf8
  deriving DecidableEq, Repr

/-- Where the scan stands: between characters, or inside one, owing a byte in
`[lo, hi]` and then `more` bytes in `[0x80, 0xBF]`. -/
inductive Utf8Scan where
  | start
  | need (lo hi : UInt8) (more : Nat)
  deriving DecidableEq, Repr

/-- One byte of RFC 3629 §4. -/
def utf8Step : Utf8Scan → UInt8 → Option Utf8Scan
  | .start, a =>
    if a ≤ 0x7F then some .start
    else if 0xC2 ≤ a ∧ a ≤ 0xDF then some (.need 0x80 0xBF 0)
    else if a = 0xE0 then some (.need 0xA0 0xBF 1)
    else if 0xE1 ≤ a ∧ a ≤ 0xEC then some (.need 0x80 0xBF 1)
    else if a = 0xED then some (.need 0x80 0x9F 1)
    else if 0xEE ≤ a ∧ a ≤ 0xEF then some (.need 0x80 0xBF 1)
    else if a = 0xF0 then some (.need 0x90 0xBF 2)
    else if 0xF1 ≤ a ∧ a ≤ 0xF3 then some (.need 0x80 0xBF 2)
    else if a = 0xF4 then some (.need 0x80 0x8F 2)
    else none
  | .need lo hi more, b =>
    if lo ≤ b ∧ b ≤ hi then
      some (match more with
        | 0 => .start
        | m + 1 => .need 0x80 0xBF m)
    else none

/-- Modelled from the spec: the scan from a state to the end of the bytes. -/
def utf8Scan (allowNull : Bool) : Utf8Scan → Bytes → Utf8Status
  | q, [] => if q = .start then .valid else .invalidUtf8
  | q, b :: rest =>
    if b = 0 ∧ allowNull = false then .hasNull
    else match utf8Step q b with
      | some q' => utf8Scan allowNull q' rest
      | none => .invalidUtf8

/-- Modelled from the spec: `validate_utf8_encoding(p, len, allow_null)`. -/
def validateUtf8Encoding (b : Bytes) (allowNull : Bool) : Utf8Status :=
  utf8Scan allowNull .start b

/-- `b` is UTF-8 (RFC 3629); NULs are characters like any other. -/
def Utf8Valid (b : Bytes) : Prop := validateUtf8Encoding b true = .valid

instance (b : Bytes) : Decidable (Utf8Valid b) := inferInstanceAs (Decidable (_ = _))

theorem utf8Scan_true_of_false {q : Utf8Scan} {b : Bytes}
    (h : utf8Scan false q b = .valid) : utf8Scan true q b = .valid := by
  induction b generalizing q with
  | nil => exact h
  | cons c rest ih =>
    by_cases hc : c = 0
    · simp [utf8Scan, hc] at h
    · simp only [utf8Scan, hc, false_and, if_false] at h ⊢
      cases hs : utf8Step q c with
      | none => rw [hs] at h; cases h
      | some q' => rw [hs] at h; exact ih h

theorem nulFree_of_utf8Scan_false {q : Utf8Scan} {b : Bytes}
    (h : utf8Scan false q b = .valid) : NulFree b := by
  induction b generalizing q with
  | nil => exact List.not_mem_nil 0
  | cons c rest ih =>
    by_cases hc : c = 0
    · simp [utf8Scan, hc] at h
    · simp only [utf8Scan, hc, false_and, if_false] at h
      cases hs : utf8Step q c with
      | none => rw [hs] at h; cases h
      | some q' =>
        rw [hs] at h
        exact List.not_mem_cons_of_ne_of_not_mem (Ne.symm hc) (ih h)

/-- A string `write_utf8` accepts without embedded NULs is NUL-free UTF-8. -/
theorem validate_false_valid {b : Bytes} (h : validateUtf8Encoding b false = .valid) :
    NulFree b ∧ Utf8Valid b :=
  ⟨nulFree_of_utf8Scan_false h, utf8Scan_true_of_false h⟩

theorem utf8Scan_false_of_true {q : Utf8Scan} {b : Bytes} (hn : NulFree b)
    (h : utf8Scan true q b = .valid) : utf8Scan false q b = .valid := by
  induction b generalizing q with
  | nil => exact h
  | cons c rest ih =>
    have hc : c ≠ 0 := fun hc => hn (hc ▸ List.mem_cons_self c rest)
    simp only [utf8Scan, hc, false_and, if_false] at h ⊢
    cases hs : utf8Step q c with
    | none => rw [hs] at h; cases h
    | some q' =>
      rw [hs] at h
      exact ih (fun hm => hn (List.mem_cons_of_mem c hm)) h

/-- NUL-free UTF-8 is what `write_utf8` accepts without embedded NULs. -/
theorem validate_false_of_valid {b : Bytes} (hn : NulFree b) (h : Utf8Valid b) :
    validateUtf8Encoding b false = .valid :=
  utf8Scan_false_of_true hn h

/-- ASCII without NUL is UTF-8. -/
theorem validate_of_ascii {b : Bytes} (h : ∀ c ∈ b, 0 < c ∧ c ≤ 0x7F) (allowNull : Bool) :
    validateUtf8Encoding b allowNull = .valid := by
  unfold validateUtf8Encoding
  induction b with
  | nil => rfl
  | cons c rest ih =>
    have hc := h c (List.mem_cons_self c rest)
    have hc0 : c ≠ 0 := fun h0 => by simp [h0] at hc
    have hstep : utf8Step .start c = some .start := by simp [utf8Step, hc.2]
    simp only [utf8Scan, hc0, false_and, and_false, if_false, hstep]
    exact ih fun d hd => h d (List.mem_cons_of_mem c hd)

end CBson
