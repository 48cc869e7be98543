import CBson.Value

/-!
# ObjectId

`objectid_generate`, `legal_objectid_str`, `hexbyte`, `objectid_from_string` and
`objectid_to_s` of `cbson.c`.

`objectid_generate` builds the twelve bytes by copying memory: the first four bytes of
an `unsigned long` holding `htonl(t)`, three bytes of the hostname digest, the two
bytes of an `unsigned short` holding `htons(pid)`, and bytes 1 to 3 of an
`unsigned long` holding `htonl(object_id_inc)`.  What these copies give depends on the
machine, and so does the counter update (`sizeof(unsigned int) == 4`).  A `Host`
records the three facts that matter, and the model computes the memory bytes from
them.  The counter `object_id_inc` is the state; `generateRun` is a run of calls.
-/

namespace CBson

/-- The machine `objectid_generate` is compiled for. -/
structure Host where
  /-- `sizeof(unsigned int)`. -/
  uintBytes : Nat
  /-- `sizeof(unsigned long)`. -/
  ulongBytes : Nat
  bigEndian : Bool
  /-- C asks for at least 16 bits of `unsigned int`, at least 32 of `unsigned long`, and
  no fewer in `long` than in `int`. -/
  two_le_uintBytes : 2 ≤ uintBytes
  four_le_ulongBytes : 4 ≤ ulongBytes
  uintBytes_le_ulongBytes : uintBytes ≤ ulongBytes

namespace Host

/-- The `w` bytes in memory of a `w`-byte unsigned value `v`. -/
def memBytes (host : Host) (w v : Nat) : Bytes :=
  if host.bigEndian then (leBytes w v).reverse else leBytes w v

/-- `htonl(x)`: the `uint32_t` whose memory bytes are the big-endian bytes of `x`. -/
def htonl (host : Host) (x : Nat) : Nat :=
  if host.bigEndian then x % 2 ^ 32 else readLE (leBytes 4 x).reverse

/-- `htons(x)`, likewise on 16 bits. -/
def htons (host : Host) (x : Nat) : Nat :=
  if host.bigEndian then x % 2 ^ 16 else readLE (leBytes 2 x).reverse

end Host

/-- The big-endian `w` bytes of `n`. -/
def beBytes (w n : Nat) : Bytes := (leBytes w n).reverse

/-- The process-wide inputs of `objectid_generate`: `hostname_digest`, set once by
`Init_cbson`, and `getpid()`. -/
structure Process where
  digest : Bytes
  pid : Nat

/-- One call of `ObjectId#generate`: its argument's `to_i`, or `none` when it is called
without one or with `nil`; and what `time(NULL)` returns if it is asked. -/
structure GenerateCall where
  time : Option Int
  now : Int

/-- The counter update of `objectid_generate`: `object_id_inc++` on a four-byte
`unsigned int`, `object_id_inc = (object_id_inc + 1) % 0xFFFFFF` otherwise. -/
def nextInc (host : Host) (inc : Nat) : Nat :=
  if host.uintBytes = 4 then (inc + 1) % 2 ^ 32
  else (inc + 1) % 2 ^ (8 * host.uintBytes) % 0xFFFFFF

/-- `objectid_generate(argc, args, self)` from counter `inc`: the id's twelve entries
and the new counter.  The seconds are `htonl((int)time(NULL))` or
`htonl(NUM2UINT(t.to_i))`, and `htonl` takes a `uint32_t`. -/
def objectidGenerate (host : Host) (proc : Process) (call : GenerateCall) (inc : Nat) :
    Except RbError (List Int × Nat) := do
  let t ← match call.time with
    | none => pure (host.htonl (call.now % 2 ^ 32).toNat)
    | some v => do
      let u ← num2uint v
      pure (host.htonl u)
  let inc := nextInc host inc
  let pid := host.htons (proc.pid % 2 ^ 16)
  let oidBytes := (host.memBytes host.ulongBytes t).take 4 ++ proc.digest.take 3 ++
    host.memBytes 2 pid ++ ((host.memBytes host.ulongBytes (host.htonl (inc % 2 ^ 32))).drop 1).take 3
  pure (oidBytes.map fun c => (c.toNat : Int), inc)

/-- A run of calls from counter `inc`: the ids in order and the last counter. -/
def generateRun (host : Host) (proc : Process) : List GenerateCall → Nat →
    Except RbError (List (List Int) × Nat)
  | [], inc => pure ([], inc)
  | call :: calls, inc => do
    let (oid, inc) ← objectidGenerate host proc call inc
    let (oids, inc) ← generateRun host proc calls inc
    pure (oid :: oids, inc)

/-! ## Hex strings -/

/-- The test of `legal_objectid_str` on one byte. -/
def isHexDigit (c : UInt8) : Bool :=
  (48 ≤ c && c ≤ 57) || (65 ≤ c && c ≤ 70) || (97 ≤ c && c ≤ 102)

/-- `legal_objectid_str(str)`. -/
def legalObjectidStr : RValue → Bool
  | .string s => s.length == 24 && s.all isHexDigit
  | _ => false

/-- `hexbyte(hex)`. -/
def hexbyte (c : UInt8) : Nat :=
  if 48 ≤ c ∧ c ≤ 57 then c.toNat - 48
  else if 65 ≤ c ∧ c ≤ 70 then c.toNat - 65 + 10
  else if 97 ≤ c ∧ c ≤ 102 then c.toNat - 97 + 10
  else 0

/-- `objectid_from_string(self, str)`: the twelve entries of the new `ObjectId`.  The
message for a non-`String` prints a `VALUE` through `%s`, which is not a C string. -/
def objectidFromString (str : RValue) : Except RbError (List Int) :=
  match str with
  | .string s =>
    if legalObjectidStr str then
      .ok ((List.range 12).map fun i =>
        ((hexbyte (s.getD (2 * i) 0) <<< 4 ||| hexbyte (s.getD (2 * i + 1) 0) : Nat) : Int))
    else .error (.invalidObjectId s!"illegal ObjectId format: {cText s}")
  | _ => .error (.undefinedBehavior "a VALUE printed with %s")

/-- `"%02x"` of an `unsigned`: lowercase hex digits, at least two. -/
def printf02x (n : Nat) : Bytes :=
  let digits := Nat.toDigits 16 n
  ascii (String.mk (if digits.length < 2 then '0' :: digits else digits))

/-- `objectid_to_s(self)` on `@data`: `(unsigned)NUM2INT(x)` of the first twelve entries
printed into `char cstr[25]`, of which `rb_str_new` keeps 24 bytes.  More than 24
characters overflow the array. -/
def objectidToS (data : List Int) : Except RbError Bytes := do
  if data.length < 12 then throw (.undefinedBehavior "RARRAY_PTR read past the array")
  let words ← (data.take 12).mapM fix2int
  let text := (words.map fun x => printf02x (x % 2 ^ 32).toNat).flatten
  if text.length > 24 then throw (.undefinedBehavior "sprintf past cstr[25]")
  pure text

end CBson
