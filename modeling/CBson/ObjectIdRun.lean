import Mathlib.Data.List.Nodup
import CBson.ObjectId

/-!
# ObjectId runs

An ObjectId is meant to be `BE32(t) ++ digest[0..2] ++ BE16(pid) ++ BE24(c)`, where `c` is
the counter after its increment (`oidLayout`).  `objectid_generate` builds it by copying
memory out of an `unsigned long` and increments the counter in one of two ways; the layout
comes out as intended exactly on the hosts `Host.Plain`: a four-byte `unsigned int`, and an
`unsigned long` that is four bytes or little-endian.  There a run of calls from counter `c₀`
gives the ids `oidLayout proc tⱼ (c₀ + j)` and leaves the counter at `c₀ + k` modulo `2^32`
(`generateRun_eq`), and ids that carry the same seconds differ within `2^24` calls
(`generateRun_nodup`).  Elsewhere the counter wraps at `0xFFFFFF` instead of `2^24`, or the
time and counter bytes are read from the zero half of a big-endian `unsigned long`.

## Strategy

The memory bytes of `htonl(x)` and `htons(x)` are the big-endian bytes of `x`, padded with
zeros on a little-endian host (`memBytes_htonl`, `memBytes_htons`); this is
`leBytes_readLE`.  They give the step lemma `objectidGenerate_eq`, and the run lemma follows
by induction over the calls, since a counter reduced modulo `2^32` has the same low 24 bits
(`oidLayout_counter_mod`).
-/

namespace CBson

theorem beBytes_mod_of_dvd {w m : Nat} (h : 256 ^ w ∣ m) (n : Nat) :
    beBytes w (n % m) = beBytes w n := by
  rw [beBytes, beBytes, leBytes_mod_of_dvd h]

namespace Host

/-- The hosts on which `objectid_generate` lays ids out as intended. -/
def Plain (host : Host) : Prop :=
  host.uintBytes = 4 ∧ (host.ulongBytes = 4 ∨ host.bigEndian = false)

theorem memBytes_htonl {host : Host} (hh : host.Plain) (x : Nat) :
    host.memBytes host.ulongBytes (host.htonl x) =
      beBytes 4 x ++ List.replicate (host.ulongBytes - 4) 0 := by
  unfold memBytes htonl
  cases hbe : host.bigEndian
  · have h := leBytes_readLE (beBytes 4 x) (host.ulongBytes - 4)
    rw [beBytes, List.length_reverse, length_leBytes,
      Nat.add_sub_cancel' host.four_le_ulongBytes] at h
    simpa [beBytes] using h
  · have h4 : host.ulongBytes = 4 := hh.2.resolve_right (by simp [hbe])
    simp only [if_true, h4, Nat.sub_self, List.replicate_zero, List.append_nil]
    exact beBytes_mod_of_dvd (by norm_num) x

theorem take_memBytes_htonl {host : Host} (hh : host.Plain) (x : Nat) :
    (host.memBytes host.ulongBytes (host.htonl x)).take 4 = beBytes 4 x := by
  rw [memBytes_htonl hh, List.take_left' (by simp [beBytes])]

theorem counter_memBytes_htonl {host : Host} (hh : host.Plain) (x : Nat) :
    ((host.memBytes host.ulongBytes (host.htonl x)).drop 1).take 3 = beBytes 3 x := by
  rw [memBytes_htonl hh, List.drop_append_of_le_length (by simp [beBytes]),
    List.take_left' (by simp [beBytes])]
  rfl

theorem memBytes_htons (host : Host) (p : Nat) :
    host.memBytes 2 (host.htons (p % 2 ^ 16)) = beBytes 2 p := by
  have hp : beBytes 2 (p % 2 ^ 16) = beBytes 2 p := beBytes_mod_of_dvd (by norm_num) p
  unfold memBytes htons
  cases host.bigEndian
  · have h := leBytes_readLE (beBytes 2 (p % 2 ^ 16)) 0
    rw [beBytes, List.length_reverse, length_leBytes, Nat.add_zero, List.replicate_zero,
      List.append_nil] at h
    simp only [Bool.false_eq_true, if_false]
    rw [h]
    exact hp
  · simp only [if_true, Nat.mod_mod]
    exact hp

theorem nextInc_of_plain {host : Host} (hh : host.Plain) (inc : Nat) :
    nextInc host inc = (inc + 1) % 2 ^ 32 := by
  simp [nextInc, hh.1]

end Host

/-- The seconds a call puts into its id: `NUM2UINT(t.to_i)`, or `(int)time(NULL)` taken as
the `uint32_t` that `htonl` receives. -/
def GenerateCall.seconds (call : GenerateCall) : Except RbError Nat :=
  match call.time with
  | none => .ok (call.now % 2 ^ 32).toNat
  | some v => num2uint v

/-- The id with seconds `t` and counter `c`:
`BE32(t) ++ digest[0..2] ++ BE16(pid mod 2^16) ++ BE24(c mod 2^24)`. -/
def oidLayout (proc : Process) (t c : Nat) : List Int :=
  (beBytes 4 t ++ proc.digest.take 3 ++ beBytes 2 proc.pid ++ beBytes 3 c).map
    fun b => (b.toNat : Int)

theorem oidLayout_counter_mod_of_dvd (proc : Process) (t c : Nat) {m : Nat}
    (h : 2 ^ 24 ∣ m) : oidLayout proc t (c % m) = oidLayout proc t c := by
  rw [oidLayout, oidLayout, beBytes_mod_of_dvd (by simpa using h)]

/-- Ids agree in their counters only when the counters agree modulo `2^24`. -/
theorem oidLayout_inj_counter {proc : Process} {t c c' : Nat}
    (h : oidLayout proc t c = oidLayout proc t c') : c % 2 ^ 24 = c' % 2 ^ 24 := by
  have hmap : Function.Injective fun b : UInt8 => (b.toNat : Int) :=
    fun a b hab => UInt8.toNat.inj (Int.ofNat.inj hab)
  have hbe := List.append_cancel_left ((List.map_injective_iff.2 hmap) h)
  have hle := congrArg readLE (List.reverse_injective hbe)
  simpa [readLE_leBytes] using hle

/-- One call on a `Host.Plain` host: the id from the call's seconds and the incremented
counter. -/
theorem objectidGenerate_eq {host : Host} (hh : host.Plain) (proc : Process)
    (call : GenerateCall) (inc : Nat) :
    objectidGenerate host proc call inc = (do
      let t ← call.seconds
      pure (oidLayout proc t (inc + 1), (inc + 1) % 2 ^ 32)) := by
  unfold objectidGenerate GenerateCall.seconds
  rw [Host.nextInc_of_plain hh]
  cases call.time <;>
  simp only [pure_bind, Host.take_memBytes_htonl hh, Host.counter_memBytes_htonl hh,
    Host.memBytes_htons, Nat.mod_mod, beBytes_mod_of_dvd (show 256 ^ 3 ∣ 2 ^ 32 by norm_num),
    oidLayout]
  rfl

/-- A 64-bit little-endian host: four-byte `unsigned int`, eight-byte `unsigned long`. -/
def Host.lp64 : Host := ⟨4, 8, false, by decide, by decide, by decide⟩

/-- A 64-bit big-endian host: four-byte `unsigned int`, eight-byte `unsigned long`. -/
def Host.lp64BigEndian : Host := ⟨4, 8, true, by decide, by decide, by decide⟩

/-- A host with an eight-byte `unsigned int` and `unsigned long`, little-endian. -/
def Host.ilp64 : Host := ⟨8, 8, false, by decide, by decide, by decide⟩

/-- Off the `Host.Plain` hosts the layout breaks.  With an eight-byte `unsigned int` the
counter after `0xFFFFFE` becomes `0`, not `0xFFFFFF`.  On a big-endian host the time and
counter bytes are copied from the high half of an eight-byte `unsigned long`, which is
zero. -/
theorem objectidGenerate_wide_hosts :
    objectidGenerate Host.ilp64 ⟨ascii "abc", 0⟩ ⟨some 0, 0⟩ 0xFFFFFE =
      .ok ([0, 0, 0, 0, 97, 98, 99, 0, 0, 0, 0, 0], 0) ∧
    oidLayout ⟨ascii "abc", 0⟩ 0 (0xFFFFFE + 1) = [0, 0, 0, 0, 97, 98, 99, 0, 0, 255, 255, 255] ∧
    objectidGenerate Host.lp64BigEndian ⟨ascii "abc", 0⟩ ⟨some 1, 0⟩ 0 =
      .ok ([0, 0, 0, 0, 97, 98, 99, 0, 0, 0, 0, 0], 1) ∧
    oidLayout ⟨ascii "abc", 0⟩ 1 (0 + 1) = [0, 0, 0, 1, 97, 98, 99, 0, 0, 0, 0, 1] :=
  ⟨rfl, rfl, rfl, rfl⟩

theorem oidLayout_congr_counter (proc : Process) (t : Nat) {c c' : Nat}
    (h : c % 2 ^ 24 = c' % 2 ^ 24) : oidLayout proc t c = oidLayout proc t c' := by
  rw [← oidLayout_counter_mod_of_dvd proc t c (dvd_refl _), h, oidLayout_counter_mod_of_dvd]
  exact dvd_refl _

/-- A run of calls on a `Host.Plain` host from counter `inc`: the `j`-th id carries the
`j`-th call's seconds and the counter `inc + j + 1`, and the counter ends at `inc + k`
modulo `2^32`. -/
theorem generateRun_eq {host : Host} (hh : host.Plain) (proc : Process)
    (calls : List GenerateCall) {inc : Nat} (hinc : inc < 2 ^ 32) :
    generateRun host proc calls inc = (do
      let ts ← calls.mapM GenerateCall.seconds
      pure (ts.mapIdx fun j t => oidLayout proc t (inc + j + 1),
        (inc + calls.length) % 2 ^ 32)) := by
  induction calls generalizing inc with
  | nil => rw [generateRun, List.mapM_nil, List.length_nil, Nat.add_zero, Nat.mod_eq_of_lt hinc]; rfl
  | cons call calls ih =>
    rw [generateRun, objectidGenerate_eq hh, List.mapM_cons]
    cases call.seconds with
    | error e => rfl
    | ok t =>
      rw [show (Except.ok t : Except RbError Nat) = pure t from rfl]
      simp only [pure_bind, ih (Nat.mod_lt _ (by norm_num : 0 < 2 ^ 32)), bind_assoc]
      cases calls.mapM GenerateCall.seconds with
      | error e => rfl
      | ok ts =>
        show Except.ok (_, _) = Except.ok (_, _)
        have htail : (fun j t => oidLayout proc t ((inc + 1) % 2 ^ 32 + j + 1)) =
            fun j t => oidLayout proc t (inc + (j + 1) + 1) :=
          funext fun j => funext fun t => oidLayout_congr_counter proc t (by omega)
        have hcount : ((inc + 1) % 2 ^ 32 + calls.length) % 2 ^ 32 =
            (inc + (calls.length + 1)) % 2 ^ 32 := by omega
        rw [List.mapIdx_cons, List.length_cons, htail, hcount]

theorem generateRun_eq_lp64 :
    Host.lp64.Plain ∧ (0xFFFFFF : Nat) < 2 ^ 32 ∧
    generateRun Host.lp64 ⟨ascii "abc", 7⟩ [⟨none, 5⟩, ⟨some 6, 0⟩] 0xFFFFFF = (do
      let ts ← [⟨none, 5⟩, ⟨some 6, 0⟩].mapM GenerateCall.seconds
      pure (ts.mapIdx fun j t => oidLayout ⟨ascii "abc", 7⟩ t (0xFFFFFF + j + 1),
        (0xFFFFFF + [(⟨none, 5⟩ : GenerateCall), ⟨some 6, 0⟩].length) % 2 ^ 32)) :=
  ⟨⟨rfl, .inr rfl⟩, by decide, generateRun_eq ⟨rfl, .inr rfl⟩ _ _ (by decide)⟩

theorem mapM_seconds_of_forall {calls : List GenerateCall} {t : Nat}
    (ht : ∀ call ∈ calls, call.seconds = .ok t) :
    calls.mapM GenerateCall.seconds = .ok (List.replicate calls.length t) := by
  induction calls with
  | nil => rfl
  | cons call calls ih =>
    rw [List.mapM_cons, ht call (List.mem_cons_self _ _),
      ih fun c hc => ht c (List.mem_cons_of_mem _ hc)]
    rfl

/-- In a run of at most `2^24` calls on a `Host.Plain` host that all carry the same
seconds, no two ids are equal. -/
theorem generateRun_nodup {host : Host} (hh : host.Plain) {proc : Process}
    {calls : List GenerateCall} {inc : Nat} (hinc : inc < 2 ^ 32) {t : Nat}
    (ht : ∀ call ∈ calls, call.seconds = .ok t) (hk : calls.length ≤ 2 ^ 24)
    {ids : List (List Int)} {inc' : Nat}
    (hrun : generateRun host proc calls inc = .ok (ids, inc')) : ids.Nodup := by
  rw [generateRun_eq hh proc calls hinc, mapM_seconds_of_forall ht] at hrun
  cases hrun
  rw [List.nodup_iff_injective_getElem]
  intro i j hij
  have hi := i.2
  have hj := j.2
  simp only [List.getElem_mapIdx, List.getElem_replicate] at hij
  simp only [List.length_mapIdx, List.length_replicate] at hi hj
  have := oidLayout_inj_counter hij
  exact Fin.ext (by omega)

theorem generateRun_nodup_lp64 :
    Host.lp64.Plain ∧ (0xFFFFFF : Nat) < 2 ^ 32 ∧
    (∀ call ∈ [(⟨some 5, 0⟩ : GenerateCall), ⟨some 5, 0⟩], call.seconds = .ok 5) ∧
    [(⟨some 5, 0⟩ : GenerateCall), ⟨some 5, 0⟩].length ≤ 2 ^ 24 ∧
    generateRun Host.lp64 ⟨ascii "abc", 7⟩ [⟨some 5, 0⟩, ⟨some 5, 0⟩] 0xFFFFFF =
      .ok ([[0, 0, 0, 5, 97, 98, 99, 0, 7, 0, 0, 0], [0, 0, 0, 5, 97, 98, 99, 0, 7, 0, 0, 1]],
        0x1000001) ∧
    [[(0 : Int), 0, 0, 5, 97, 98, 99, 0, 7, 0, 0, 0], [0, 0, 0, 5, 97, 98, 99, 0, 7, 0, 0, 1]].Nodup :=
  have hh : Host.lp64.Plain := ⟨rfl, .inr rfl⟩
  have hinc : (0xFFFFFF : Nat) < 2 ^ 32 := by decide
  have ht : ∀ call ∈ [(⟨some 5, 0⟩ : GenerateCall), ⟨some 5, 0⟩], call.seconds = .ok 5 := by
    simp only [List.mem_cons, List.mem_singleton, List.not_mem_nil, or_false, forall_eq_or_imp,
      forall_eq]
    exact ⟨rfl, rfl⟩
  have hrun : generateRun Host.lp64 ⟨ascii "abc", 7⟩ [⟨some 5, 0⟩, ⟨some 5, 0⟩] 0xFFFFFF =
      .ok ([[0, 0, 0, 5, 97, 98, 99, 0, 7, 0, 0, 0], [0, 0, 0, 5, 97, 98, 99, 0, 7, 0, 0, 1]],
        0x1000001) := rfl
  ⟨hh, hinc, ht, by decide, hrun, generateRun_nodup hh hinc ht (by decide) hrun⟩

end CBson
