import CBson.ObjectId
import Mathlib.Data.Nat.Digits

/-!
# ObjectId hex strings

`ObjectId#to_s` prints the twelve entries of `@data` with `"%02x"`, and
`ObjectId.from_string` reads a string that `legal_objectid_str` accepts two digits at a
time through `hexbyte`.  For entries in `0..255` and for legal strings the two are
inverse, up to case: `to_s` prints `a`–`f` where a legal string may have `A`–`F`.

`to_s` checks none of the entries.  `"%02x"` prints at least two digits, and more for an
entry outside `0..255`: three or more above `255`, and eight for a negative `int`, which
`(unsigned)` wraps.  So with twelve `int` entries, `to_s` prints their digits when all are
in `0..255`, and otherwise `sprintf` writes past the end of `cstr[25]`
(`objectidToS_eq_of_fits`).

## Strategy

`objectid_from_string` indexes the string, `str[2*i]` and `str[2*i + 1]` for `i < 12`;
`range_map_eq_hexPairs` turns that loop into `hexPairs`, which reads the string two
bytes at a time.  `objectid_to_s` of entries in `0..255` is the concatenation of their
`hexDigits` (`objectidToS_eq`), since below `256` the print of `"%02x"` is the pair of
digits of `n / 16` and `n % 16` (`printf02x_of_lt`).  What is left are two finite tables,
the sixteen digits (`hexbyte_digitByte`) and the twenty-two hex bytes
(`digitByte_hexbyte`), and `shiftLeft_or_of_lt`, which makes `(hi << 4) | lo` the
number `16 * hi + lo`.  For the overflow, `length_toDigitsCore_ge` bounds the digits of
`n ≥ b ^ e` from below by `e + 1`.
-/

namespace CBson

/-- The byte of the lowercase hex digit `d`, as `"%x"` prints it. -/
def digitByte (d : Nat) : UInt8 := (Nat.digitChar d).toNat.toUInt8

/-- The two digits `"%02x"` prints for an entry in `0..255`. -/
def hexDigits (x : Int) : Bytes := [digitByte (x.toNat / 16), digitByte (x.toNat % 16)]

/-- The entries `objectid_from_string` reads from a string, two digits at a time. -/
def hexPairs : Bytes → List Int
  | hi :: lo :: rest => ((hexbyte hi <<< 4 ||| hexbyte lo : Nat) : Int) :: hexPairs rest
  | _ => []

/-- What `to_s` is to give back for a legal string: the string with its letters `A`–`F`
lowered to `a`–`f`. -/
def lowerHex (s : Bytes) : Bytes := s.map fun c => if 65 ≤ c ∧ c ≤ 70 then c + 32 else c

/-! ## Digits -/

/-- The sixteen digits are hex bytes, and `hexbyte` reads each back. -/
theorem hexbyte_digitByte {d : Nat} (h : d < 16) :
    isHexDigit (digitByte d) = true ∧ hexbyte (digitByte d) = d := by
  have table : ∀ d < 16, isHexDigit (digitByte d) = true ∧ hexbyte (digitByte d) = d := by
    decide
  exact table d h

set_option maxRecDepth 4000 in
/-- `hexbyte` reads a hex byte as a digit below sixteen, which prints back as the byte with
`A`–`F` lowered. -/
theorem digitByte_hexbyte {c : UInt8} (h : isHexDigit c = true) :
    hexbyte c < 16 ∧ digitByte (hexbyte c) = if 65 ≤ c ∧ c ≤ 70 then c + 32 else c := by
  have table : ∀ n < 256, isHexDigit n.toUInt8 = true → hexbyte n.toUInt8 < 16 ∧
      digitByte (hexbyte n.toUInt8) =
        if 65 ≤ n.toUInt8 ∧ n.toUInt8 ≤ 70 then n.toUInt8 + 32 else n.toUInt8 := by
    decide
  have hc : c.toNat.toUInt8 = c := by
    simpa [Nat.mod_eq_of_lt c.toNat_lt_size] using toUInt8_toNat_mod c
  simpa only [hc] using table c.toNat c.toNat_lt_size (by rwa [hc])

/-- `(hi << 4) | lo` of two digits is `16 * hi + lo`. -/
theorem shiftLeft_or_of_lt {hi lo : Nat} (hhi : hi < 16) (hlo : lo < 16) :
    hi <<< 4 ||| lo = 16 * hi + lo := by
  have table : ∀ hi < 16, ∀ lo < 16, hi <<< 4 ||| lo = 16 * hi + lo := by decide
  exact table hi hhi lo hlo

/-- Below `256`, `"%02x"` prints the two digits of `n / 16` and `n % 16`. -/
theorem printf02x_of_lt {n : Nat} (h : n < 256) :
    printf02x n = [digitByte (n / 16), digitByte (n % 16)] := by
  by_cases hn : n < 16
  · have hdigits : Nat.toDigits 16 n = [Nat.digitChar n] := by
      simp [Nat.toDigits, Nat.toDigitsCore, Nat.div_eq_of_lt hn, Nat.mod_eq_of_lt hn]
    simp [printf02x, hdigits, ascii, digitByte, Nat.div_eq_of_lt hn, Nat.mod_eq_of_lt hn,
      show Nat.digitChar 0 = '0' from rfl]
  · obtain ⟨m, rfl⟩ : ∃ m, n = m + 1 := ⟨n - 1, by omega⟩
    have hdigits : Nat.toDigits 16 (m + 1) =
        [Nat.digitChar ((m + 1) / 16), Nat.digitChar ((m + 1) % 16)] := by
      simp [Nat.toDigits, Nat.toDigitsCore, show (m + 1) / 16 ≠ 0 by omega,
        show (m + 1) / 16 / 16 = 0 by omega, Nat.mod_eq_of_lt (show (m + 1) / 16 < 16 by omega)]
    simp [printf02x, hdigits, ascii, digitByte]

/-! ## The two loops -/

/-- The indexed loop of `objectid_from_string` over a string of `2 * n` bytes reads it two
bytes at a time. -/
theorem range_map_eq_hexPairs : (n : Nat) → (s : Bytes) → s.length = 2 * n →
    (List.range n).map (fun i => ((hexbyte (s.getD (2 * i) 0) <<< 4 |||
      hexbyte (s.getD (2 * i + 1) 0) : Nat) : Int)) = hexPairs s
  | 0, [], _ => rfl
  | n + 1, hi :: lo :: rest, h => by
    rw [List.range_succ_eq_map, List.map_cons, List.map_map, hexPairs,
      ← range_map_eq_hexPairs n rest (by simp at h; omega)]
    congr 1
  | 0, _ :: _, h | n + 1, [], h | n + 1, [_], h => by simp at h <;> omega

theorem length_flatMap_hexDigits (data : List Int) :
    (data.flatMap hexDigits).length = 2 * data.length := by
  induction data with
  | nil => rfl
  | cons x rest ih => simp [hexDigits, ih]; omega

/-- `NUM2INT` of entries that fit an `int` returns them. -/
theorem mapM_fix2int_of_fits : {xs : List Int} → (∀ x ∈ xs, FitsInt32 x) → xs.mapM fix2int = .ok xs
  | [], _ => rfl
  | x :: rest, h => by
    simp only [List.mem_cons, forall_eq_or_imp] at h
    simp only [List.mapM_cons, fix2int_eq_ok.2 ⟨h.1, rfl⟩, mapM_fix2int_of_fits h.2]
    rfl

/-- The `"%02x"` prints of entries in `0..255` are their two digits. -/
theorem flatten_printf02x_of_range {xs : List Int} (h : ∀ x ∈ xs, 0 ≤ x ∧ x ≤ 255) :
    (xs.map fun x => printf02x (x % 2 ^ 32).toNat).flatten = xs.flatMap hexDigits := by
  rw [List.flatMap_def]
  congr 1
  exact List.map_congr_left fun x hx => by
    have hx := h x hx
    rw [Int.emod_eq_of_lt hx.1 (by omega), printf02x_of_lt (by omega), hexDigits]

/-- `to_s` of twelve entries in `0..255` prints the two digits of each, in order. -/
theorem objectidToS_eq {data : List Int} (hlen : data.length = 12)
    (h : ∀ x ∈ data, 0 ≤ x ∧ x ≤ 255) : objectidToS data = .ok (data.flatMap hexDigits) := by
  have hwords : data.mapM fix2int = .ok data :=
    mapM_fix2int_of_fits fun x hx => ⟨by have := h x hx; omega, by have := h x hx; omega⟩
  have hbind : ∀ {β : Type} (f : List Int → Except RbError β), (Except.ok data >>= f) = f data :=
    fun _ => rfl
  have htext : ¬(data.flatMap hexDigits).length > 24 := by
    rw [length_flatMap_hexDigits, hlen]; omega
  simp only [objectidToS, hlen, List.take_of_length_le (le_of_eq hlen), hwords, hbind,
    flatten_printf02x_of_range h, lt_self_iff_false, if_false, htext]
  rfl

/-- What `hexPairs` reads from a string of hex bytes prints back as the string with
`A`–`F` lowered; each entry it reads is in `0..255`. -/
theorem flatMap_hexPairs : (s : Bytes) → s.length % 2 = 0 → (∀ c ∈ s, isHexDigit c = true) →
    (∀ x ∈ hexPairs s, 0 ≤ x ∧ x ≤ 255) ∧ (hexPairs s).flatMap hexDigits = lowerHex s
  | [], _, _ => ⟨by simp [hexPairs], rfl⟩
  | hi :: lo :: rest, hlen, h => by
    obtain ⟨hhi, ehi⟩ := digitByte_hexbyte (h hi (by simp))
    obtain ⟨hlo, elo⟩ := digitByte_hexbyte (h lo (by simp))
    obtain ⟨ih₁, ih₂⟩ := flatMap_hexPairs rest (by simp at hlen; omega)
      fun c hc => h c (by simp [hc])
    have hx : (((hexbyte hi <<< 4 ||| hexbyte lo : Nat) : Int)).toNat = 16 * hexbyte hi + hexbyte lo := by
      rw [shiftLeft_or_of_lt hhi hlo, Int.toNat_natCast]
    refine ⟨?_, ?_⟩
    · simp only [hexPairs, List.mem_cons, forall_eq_or_imp, shiftLeft_or_of_lt hhi hlo]
      exact ⟨⟨by omega, by omega⟩, ih₁⟩
    · simp only [hexPairs, List.flatMap_cons, hexDigits, hx, ih₂, lowerHex, List.map_cons]
      rw [show (16 * hexbyte hi + hexbyte lo) / 16 = hexbyte hi by omega,
        show (16 * hexbyte hi + hexbyte lo) % 16 = hexbyte lo by omega, ehi, elo]
      rfl
  | [_], hlen, _ => by simp at hlen

/-- `hexPairs` reads the digits of entries in `0..255` back as the entries. -/
theorem hexPairs_flatMap_hexDigits : (data : List Int) → (∀ x ∈ data, 0 ≤ x ∧ x ≤ 255) →
    hexPairs (data.flatMap hexDigits) = data
  | [], _ => rfl
  | x :: rest, h => by
    have hx := h x (List.mem_cons_self x rest)
    obtain ⟨-, ehi⟩ := hexbyte_digitByte (show x.toNat / 16 < 16 by omega)
    obtain ⟨-, elo⟩ := hexbyte_digitByte (show x.toNat % 16 < 16 by omega)
    rw [List.flatMap_cons, hexDigits, List.cons_append, List.cons_append, List.nil_append, hexPairs,
      ehi, elo, shiftLeft_or_of_lt (by omega) (Nat.mod_lt _ (by omega)),
      hexPairs_flatMap_hexDigits rest fun y hy => h y (List.mem_cons_of_mem x hy)]
    congr 1
    omega

/-! ## The round trip -/

/-- `from_string` accepts every string of 24 hex bytes, and `to_s` of the id it builds is
the string with `A`–`F` lowered; `to_s` of an id of twelve entries in `0..255` is legal,
and `from_string` of it has the same entries. -/
theorem objectid_hex_round_trip :
    (∀ s : Bytes, s.length = 24 → (∀ c ∈ s, isHexDigit c = true) →
      ∃ data, objectidFromString (.string s) = .ok data ∧ objectidToS data = .ok (lowerHex s)) ∧
    (∀ data : List Int, data.length = 12 → (∀ x ∈ data, 0 ≤ x ∧ x ≤ 255) →
      ∃ t, objectidToS data = .ok t ∧ legalObjectidStr (.string t) = true ∧
        objectidFromString (.string t) = .ok data) := by
  have fromString : ∀ s : Bytes, s.length = 24 → (∀ c ∈ s, isHexDigit c = true) →
      objectidFromString (.string s) = .ok (hexPairs s) := fun s hlen h => by
    have hlegal : legalObjectidStr (.string s) = true := by
      simpa [legalObjectidStr, hlen] using h
    simp only [objectidFromString, hlegal, if_true, range_map_eq_hexPairs 12 s hlen]
  refine ⟨fun s hlen h => ?_, fun data hlen h => ?_⟩
  · obtain ⟨hrange, hprint⟩ := flatMap_hexPairs s (by omega) h
    have hpairs : (hexPairs s).length = 12 := by
      have := congrArg List.length hprint
      rw [length_flatMap_hexDigits, lowerHex, List.length_map, hlen] at this
      omega
    exact ⟨hexPairs s, fromString s hlen h, by rw [objectidToS_eq hpairs hrange, hprint]⟩
  · have hdigits : ∀ c ∈ data.flatMap hexDigits, isHexDigit c = true := by
      simp only [List.mem_flatMap, hexDigits, List.mem_cons, List.not_mem_nil, or_false]
      rintro c ⟨x, hx, rfl | rfl⟩
      · exact (hexbyte_digitByte (by have := h x hx; omega)).1
      · exact (hexbyte_digitByte (Nat.mod_lt _ (by omega))).1
    have hlen' : (data.flatMap hexDigits).length = 24 := by
      rw [length_flatMap_hexDigits, hlen]
    refine ⟨_, objectidToS_eq hlen h, ?_, ?_⟩
    · simp only [legalObjectidStr, hlen', beq_self_eq_true, Bool.true_and, List.all_eq_true]
      exact hdigits
    · rw [fromString _ hlen' hdigits, hexPairs_flatMap_hexDigits data h]

/-- A legal string with capital digits, and an id with entries at both ends of `0..255`. -/
theorem objectid_hex_round_trip_samples :
    ((ascii "4E0C8F3A9B1D2C3E4F5A6B7C").length = 24 ∧
      (∀ c ∈ ascii "4E0C8F3A9B1D2C3E4F5A6B7C", isHexDigit c = true) ∧
      ∃ data, objectidFromString (.string (ascii "4E0C8F3A9B1D2C3E4F5A6B7C")) = .ok data ∧
        objectidToS data = .ok (lowerHex (ascii "4E0C8F3A9B1D2C3E4F5A6B7C"))) ∧
    ([0, 255, 16, 15, 1, 2, 3, 4, 5, 6, 7, 8] : List Int).length = 12 ∧
      (∀ x ∈ ([0, 255, 16, 15, 1, 2, 3, 4, 5, 6, 7, 8] : List Int), 0 ≤ x ∧ x ≤ 255) ∧
      ∃ t, objectidToS [0, 255, 16, 15, 1, 2, 3, 4, 5, 6, 7, 8] = .ok t ∧
        legalObjectidStr (.string t) = true ∧
        objectidFromString (.string t) = .ok [0, 255, 16, 15, 1, 2, 3, 4, 5, 6, 7, 8] :=
  ⟨⟨by decide, by decide, objectid_hex_round_trip.1 _ (by decide) (by decide)⟩,
    by decide, by decide, objectid_hex_round_trip.2 _ (by decide) (by decide)⟩

/-! ## Entries outside `0..255` -/

/-- With enough fuel, `toDigitsCore` prints at least `e + 1` digits of `n ≥ b ^ e`, and at
least one of `0`. -/
theorem length_toDigitsCore_ge (b : Nat) (hb : 1 < b) : ∀ (f n : Nat) (l : List Char) (e : Nat),
    n < f → b ^ e ≤ max n 1 → l.length + e + 1 ≤ (Nat.toDigitsCore b f n l).length
  | 0, _, _, _, hf, _ => absurd hf (Nat.not_lt_zero _)
  | f + 1, n, l, e, hf, he => by
    rw [Nat.toDigitsCore]
    split_ifs with hn
    · -- the last digit: `n < b`, so `e = 0`
      have hlt : n < b := (Nat.div_eq_zero_iff (by omega)).1 hn
      obtain rfl : e = 0 := by
        by_contra hne
        have := Nat.le_self_pow hne b
        omega
      simp
    · -- one digit more, and `n / b ≥ b ^ (e - 1)` digits to go
      have hnb : b ≤ n := Nat.le_of_not_lt fun h => hn (Nat.div_eq_of_lt h)
      have hdiv : b ^ (e - 1) ≤ max (n / b) 1 := by
        rcases e with _ | e
        · simp
        · rw [Nat.add_sub_cancel, le_max_iff, Nat.le_div_iff_mul_le (by omega), ← pow_succ]
          omega
      have := length_toDigitsCore_ge b hb f (n / b) (Nat.digitChar (n % b) :: l) (e - 1)
        (by have := Nat.div_lt_self (show 0 < n by omega) hb; omega) hdiv
      rw [List.length_cons] at this
      omega

/-- `"%02x"` prints at least two digits, and at least three of `256` or more. -/
theorem length_printf02x_ge (n : Nat) :
    2 ≤ (printf02x n).length ∧ (256 ≤ n → 3 ≤ (printf02x n).length) := by
  have hdigits : Nat.toDigits 16 n = Nat.toDigitsCore 16 (n + 1) n [] := rfl
  have h1 := length_toDigitsCore_ge 16 (by decide) (n + 1) n [] 0 (by omega) (by simp)
  have h3 : 256 ≤ n → 3 ≤ (Nat.toDigitsCore 16 (n + 1) n []).length := fun h => by
    simpa using length_toDigitsCore_ge 16 (by decide) (n + 1) n [] 2 (by omega) (by simp; omega)
  have hmk : ∀ l : List Char, (String.mk l).toList = l := fun _ => rfl
  simp only [printf02x, ascii, List.length_map, hmk, hdigits]
  split_ifs <;> simp at h1 ⊢ <;> omega

/-- The prints of `int` entries take two bytes each, and more once an entry is outside
`0..255`. -/
theorem length_flatten_printf02x : (xs : List Int) → (∀ x ∈ xs, FitsInt32 x) →
    2 * xs.length ≤ (xs.map fun x => printf02x (x % 2 ^ 32).toNat).flatten.length ∧
      ((∃ x ∈ xs, x < 0 ∨ 255 < x) →
        2 * xs.length < (xs.map fun x => printf02x (x % 2 ^ 32).toNat).flatten.length)
  | [], _ => ⟨le_rfl, fun ⟨_, hx, _⟩ => absurd hx (List.not_mem_nil _)⟩
  | x :: rest, h => by
    simp only [List.mem_cons, forall_eq_or_imp] at h
    obtain ⟨ih₁, ih₂⟩ := length_flatten_printf02x rest h.2
    obtain ⟨hx₂, hx₃⟩ := length_printf02x_ge (x % 2 ^ 32).toNat
    have hfx := h.1
    unfold FitsInt32 at hfx
    simp only [List.map_cons, List.flatten_cons, List.length_append, List.length_cons]
    refine ⟨by omega, fun ⟨y, hy, hout⟩ => ?_⟩
    rcases List.mem_cons.1 hy with rfl | hy
    · have := hx₃ (by omega)
      omega
    · have := ih₂ ⟨y, hy, hout⟩
      omega

/-- With twelve `int` entries, `to_s` prints their digits when all are in `0..255`, and
otherwise writes past `cstr[25]`. -/
theorem objectidToS_eq_of_fits {data : List Int} (hlen : 12 ≤ data.length)
    (hfit : ∀ x ∈ data.take 12, FitsInt32 x) :
    objectidToS data = if ∀ x ∈ data.take 12, 0 ≤ x ∧ x ≤ 255 then
        .ok ((data.take 12).flatMap hexDigits)
      else .error (.undefinedBehavior "sprintf past cstr[25]") := by
  have h12 : (data.take 12).length = 12 := by simp; omega
  have hbind : ∀ {β : Type} (f : List Int → Except RbError β),
      (Except.ok (data.take 12) >>= f) = f (data.take 12) := fun _ => rfl
  simp only [objectidToS, if_neg (show ¬data.length < 12 by omega), mapM_fix2int_of_fits hfit,
    hbind]
  by_cases hin : ∀ x ∈ data.take 12, 0 ≤ x ∧ x ≤ 255
  · rw [if_pos hin, flatten_printf02x_of_range hin,
      if_neg (by rw [length_flatMap_hexDigits, h12]; omega)]
    rfl
  · obtain ⟨x, hx, hout⟩ : ∃ x ∈ data.take 12, x < 0 ∨ 255 < x := by
      simpa only [not_forall, not_and_or, not_le, exists_prop] using hin
    have hlong : ((data.take 12).map fun x => printf02x (x % 2 ^ 32).toNat).flatten.length > 24 := by
      have := (length_flatten_printf02x _ hfit).2 ⟨x, hx, hout⟩
      omega
    rw [if_neg hin, if_pos hlong]
    rfl

theorem objectidToS_eq_of_fits_256 :
    12 ≤ ([256, 0, 0, 0, 0, 0, 0, 0, 0, 0, 0, 0] : List Int).length ∧
      (∀ x ∈ ([256, 0, 0, 0, 0, 0, 0, 0, 0, 0, 0, 0] : List Int).take 12, FitsInt32 x) ∧
      objectidToS [256, 0, 0, 0, 0, 0, 0, 0, 0, 0, 0, 0] =
        if ∀ x ∈ ([256, 0, 0, 0, 0, 0, 0, 0, 0, 0, 0, 0] : List Int).take 12, 0 ≤ x ∧ x ≤ 255 then
          .ok (([256, 0, 0, 0, 0, 0, 0, 0, 0, 0, 0, 0] : List Int).take 12 |>.flatMap hexDigits)
        else .error (.undefinedBehavior "sprintf past cstr[25]") :=
  ⟨by decide, by decide, objectidToS_eq_of_fits (by decide) (by decide)⟩

/-- `256` prints as `100`: twenty-five digits in all. -/
example : objectidToS [256, 0, 0, 0, 0, 0, 0, 0, 0, 0, 0, 0] =
    .error (.undefinedBehavior "sprintf past cstr[25]") := by rfl

end CBson
