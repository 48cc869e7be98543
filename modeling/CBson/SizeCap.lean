import CBson.Sim

/-!
# The size cap filters

`write_doc` checks the length of every hash it writes, nested ones included, against
`bson_buffer_get_max_size`, and nothing else in the encoder reads the cap.  So running
`serialize` with a cap `m` is running it with the largest cap `2^31 - 1` and keeping the
result when it is at most `m` bytes long; otherwise the run with `m` raises, and when
only the size is wrong it raises `InvalidDocument` with the size message.

## Strategy

Three instances of `Sim` compare the runs, all at the relation `SameBut`, buffers that
agree in everything but the cap:

* **Smaller cap to larger cap.**  A check that passes under `m` passes under a larger
  cap (`compat_capped`, with the second cap at least the first).
* **Larger cap to smaller cap, short output.**  Every checked length is at most the
  position after it, which is at most the final length; if that is at most `m`, every
  check passes under `m` (`compat_capped`, with the bound `n = m`).
* **Larger cap to smaller cap, long output.**  The run with `m` either follows the other
  or stops at a failing check with `tooLarge m` (`compat_tooLarge`).

The top-level check of a successful run bounds its output by its own cap
(`writeDoc_length_le`), which closes the first and last cases.
-/

namespace CBson

/-- Two buffers that hold the same bytes within the same capacity; their caps may
differ. -/
def SameBut (s t : Buffer) : Prop := t.bytes = s.bytes ∧ t.capacity = s.capacity

/-- The second cap is at least the first, or at least the bound on the first run's
output. -/
theorem compat_capped (n : Nat) :
    Compat (fun s t => SameBut s t ∧ min s.maxSize n ≤ t.maxSize) n (fun _ => False) where
  bytes_eq h := h.1.1
  room h h₁ _ := .inl (h.1.2 ▸ h₁)
  update _ h := ⟨⟨rfl, h.1.2⟩, h.2⟩
  check h h₁ h₂ := .inl ((le_min h₁ h₂).trans h.2)

/-- The second run has cap `m` and may stop at a size check. -/
theorem compat_tooLarge (n : Nat) (m : Int) :
    Compat (fun s t => SameBut s t ∧ t.maxSize = m) n (· = tooLarge m) where
  bytes_eq h := h.1.1
  room h h₁ _ := .inl (h.1.2 ▸ h₁)
  update _ h := ⟨⟨rfl, h.1.2⟩, h.2⟩
  check h _ _ := .inr (by rw [h.2])

/-- Equal buffers; the second run may stop with any error of `E` the steps allow. -/
theorem compat_eq_of (n : Nat) (E : RbError → Prop) : Compat Eq n E where
  bytes_eq h := by rw [h]
  room h h₁ _ := .inl (h ▸ h₁)
  update _ h := by rw [h]
  check h h₁ _ := .inl (h ▸ h₁)

/-- Equal buffers. -/
theorem compat_eq (n : Nat) : Compat Eq n (fun _ => False) := compat_eq_of n _

theorem grows_writeDoc (hash : RValue) (ck moveId : Bool) : Grows (writeDoc hash ck moveId) :=
  (sim_writeDoc (compat_eq 0) hash ck ck moveId (KeySims.refl ck _)).grows

/-- The check at the end of a hash frame bounds the frame by the cap in force there. -/
theorem writeDocFrame_length_le {body : Enc Unit} {s s' : Buffer}
    (h : writeDocFrame body s = .ok () s') :
    ((s'.bytes.length - s.bytes.length : Nat) : Int) ≤ s'.maxSize := by
  simp only [writeDocFrame, Enc.bind_eq_ok, getPosition_apply, EStateM.Result.ok.injEq] at h
  obtain ⟨_, _, ⟨rfl, rfl⟩, _, _, -, _, _, -, _, s₃, -, ℓ, s₄, hℓ, hpatch⟩ := h
  rw [checkedLength_apply] at hℓ
  split at hℓ
  · cases hℓ
  obtain ⟨rfl, rfl⟩ : s₃.bytes.length - s.bytes.length = ℓ ∧ s₃ = s₄ := by
    simpa using hℓ
  obtain ⟨hs', hlen⟩ := safeWriteAtPos_frame hpatch
  have hmax : s'.maxSize = s₃.maxSize := by rw [hs']
  rw [hlen, hmax]
  omega

/-- A successful `write_doc` is no longer than the cap it started with. -/
theorem writeDoc_length_le {hash : RValue} {ck moveId : Bool} {s s' : Buffer}
    (h : writeDoc hash ck moveId s = .ok () s') :
    ((s'.bytes.length - s.bytes.length : Nat) : Int) ≤ s.maxSize := by
  have hmax : s'.maxSize = s.maxSize := by
    rw [((grows_writeDoc hash ck moveId).grows _ _ _ h).1]
  rw [← hmax]
  match hash with
  | .hash entries =>
    rw [writeDoc] at h
    exact writeDocFrame_length_le h
  | .integer _ | .bool _ | .float _ | .nil | .array _ | .string _ | .symbol _ | .chars _
  | .binary .. | .byteBuffer _ | .objectId _ | .dbref .. | .code .. | .maxKey | .minKey
  | .timestamp .. | .time _ | .bsonRegex .. | .regexp .. | .object _ | .data _ | .other .. =>
    simp only [writeDoc, Enc.bind_eq_ok] at h
    obtain ⟨_, _, _, h⟩ := h
    split at h <;> cases h

theorem serialize_length_le {d : RValue} {ck moveId : Bool} {m : Int} {capacity : Nat}
    {b : Bytes} (h : serialize d ck moveId m capacity = .ok b) : (b.length : Int) ≤ m := by
  obtain ⟨-, s', hrun, rfl⟩ := serialize_eq_ok.1 h
  simpa [startBuffer] using writeDoc_length_le hrun

/-- `serialize` with a cap `m` in the `int` range returns what it returns with the cap
`2^31 - 1`, when that is at most `m` bytes long, and raises otherwise; when only the size
is wrong, it raises `InvalidDocument` with the size message. -/
theorem serialize_cap_filter (d : RValue) (checkKeys moveId : Bool) (m : Int) (hm : FitsInt32 m)
    (capacity : Nat) :
    (∀ b, serialize d checkKeys moveId m capacity = .ok b ↔
      serialize d checkKeys moveId (2 ^ 31 - 1) capacity = .ok b ∧ (b.length : Int) ≤ m) ∧
    (∀ b, serialize d checkKeys moveId (2 ^ 31 - 1) capacity = .ok b → m < b.length →
      serialize d checkKeys moveId m capacity = .error (tooLarge m)) := by
  have hM : FitsInt32 (2 ^ 31 - 1) := ⟨by decide, by decide⟩
  have hm' : m ≤ 2 ^ 31 - 1 := by unfold FitsInt32 at hm; omega
  refine ⟨fun b => ⟨fun h => ⟨?_, serialize_length_le h⟩, fun ⟨h, hb⟩ => ?_⟩, fun b h hb => ?_⟩
  · have hsim := sim_writeDoc (compat_capped b.length) d checkKeys checkKeys moveId (KeySims.refl _ _)
    rcases serialize_sim (compat_capped _) hsim h hM ⟨⟨rfl, rfl⟩, (min_le_left _ _).trans hm'⟩ le_rfl
      with h' | ⟨_, ⟨⟩, _⟩
    exact h'
  · have hsim := sim_writeDoc (compat_capped b.length) d checkKeys checkKeys moveId (KeySims.refl _ _)
    rcases serialize_sim (compat_capped _) hsim h hm ⟨⟨rfl, rfl⟩, (min_le_right _ _).trans hb⟩ le_rfl
      with h' | ⟨_, ⟨⟩, _⟩
    exact h'
  · have hsim := sim_writeDoc (compat_tooLarge b.length m) d checkKeys checkKeys moveId
      (KeySims.refl _ _)
    rcases serialize_sim (compat_tooLarge _ _) hsim h hm ⟨⟨rfl, rfl⟩, rfl⟩ le_rfl
      with h' | ⟨e, rfl, he⟩
    · exact absurd (serialize_length_le h') (not_le.2 hb)
    · exact he

theorem serialize_cap_filter_empty :
    FitsInt32 16 ∧
      ((∀ b, serialize (.hash []) false false 16 64 = .ok b ↔
        serialize (.hash []) false false (2 ^ 31 - 1) 64 = .ok b ∧ (b.length : Int) ≤ 16) ∧
      (∀ b, serialize (.hash []) false false (2 ^ 31 - 1) 64 = .ok b → (16 : Int) < b.length →
        serialize (.hash []) false false 16 64 = .error (tooLarge 16))) :=
  ⟨by decide, serialize_cap_filter (.hash []) false false 16 (by decide) 64⟩

end CBson
