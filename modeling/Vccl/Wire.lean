import Vccl.Bootstrap
import Mathlib.Algebra.GroupWithZero.Nat

/-!
# What travels over the bootstrap connections (`bootstrap.h`, `bootstrap.cc`, `comm.cc`)

The structures the ranks exchange are sent as their bytes. Ranks are little endian, which the Hello
says in its last field, so a field of `w` bytes is its value, least significant byte first.

* `Hello`: what a rank sends to the root when it connects, 32 bytes.
* `UniqueId`: `UniqueIdInternal`, at the start of the 128 bytes of a `vcclUniqueId`.
* `SplitInfo`: a rank's color and key in `vcclCommSplit`, 8 bytes.

Each is read back as it was written (`Hello.ofBytes_toBytes`, `UniqueId.ofBytes_toBytes`,
`SplitInfo.ofBytes_toBytes`).
-/

namespace Vccl

/-! ## Fields -/

/-- The `w` bytes of a field of value `v`. -/
def leBytes : Nat → Nat → List UInt8
  | 0, _ => []
  | w + 1, v => UInt8.ofNat v :: leBytes w (v / 256)

/-- The value of the bytes of a field. -/
def leNat : List UInt8 → Nat
  | [] => 0
  | b :: bs => b.toNat + 256 * leNat bs

@[simp] theorem length_leBytes (w v : Nat) : (leBytes w v).length = w := by
  induction w generalizing v with
  | zero => rfl
  | succ w ih => simp [leBytes, ih]

theorem leNat_leBytes (w v : Nat) : leNat (leBytes w v) = v % 256 ^ w := by
  induction w generalizing v with
  | zero => simp [leBytes, leNat, Nat.mod_one]
  | succ w ih =>
    have hb : (UInt8.ofNat v).toNat = v % 256 := UInt8.toNat_ofNat'
    rw [leBytes, leNat, ih, hb, Nat.pow_succ, Nat.mul_comm (256 ^ w), Nat.mod_mul]

/-- A field of `w` bytes at `off`, as a word of `k` bits. -/
def field (k w : Nat) (bs : List UInt8) (off : Nat) : BitVec k := BitVec.ofNat k (leNat (chunk bs off w))

theorem chunk_append_skip {a b : List UInt8} {off len : Nat} (h : a.length ≤ off) :
    chunk (a ++ b) off len = chunk b (off - a.length) len := by
  unfold chunk
  rw [List.drop_append, List.drop_of_length_le h, List.nil_append]

theorem chunk_append_here {a b : List UInt8} {len : Nat} (h : a.length = len) :
    chunk (a ++ b) 0 len = a := by
  simp [chunk, ← h]

/-- A field is read back as it was written. -/
theorem field_leBytes {k w : Nat} (x : BitVec k) (hk : 2 ^ k ≤ 256 ^ w) (rest : List UInt8) :
    field k w (leBytes w x.toNat ++ rest) 0 = x := by
  rw [field, chunk_append_here (length_leBytes w _), leNat_leBytes,
    Nat.mod_eq_of_lt (Nat.lt_of_lt_of_le x.isLt hk), BitVec.ofNat_toNat, BitVec.setWidth_eq]

theorem field_leBytes_last {k w : Nat} (x : BitVec k) (hk : 2 ^ k ≤ 256 ^ w) :
    field k w (leBytes w x.toNat) 0 = x := by
  have h := field_leBytes x hk []
  rwa [List.append_nil] at h

theorem field_append_skip {k w : Nat} {a b : List UInt8} {off : Nat} (h : a.length ≤ off) :
    field k w (a ++ b) off = field k w b (off - a.length) := by
  unfold field
  rw [chunk_append_skip h]

/-! ## Hello -/

/-- `Hello`. -/
structure Hello where
  magic : BitVec 64
  salt : BitVec 64
  version : BitVec 32
  nranks : BitVec 32
  rank : BitVec 32
  pad : BitVec 32
  deriving DecidableEq, Repr

/-- `sizeof(Hello)`. -/
def helloBytes : Nat := 32

def Hello.toBytes (h : Hello) : List UInt8 :=
  leBytes 8 h.magic.toNat ++ (leBytes 8 h.salt.toNat ++ (leBytes 4 h.version.toNat ++
    (leBytes 4 h.nranks.toNat ++ (leBytes 4 h.rank.toNat ++ leBytes 4 h.pad.toNat))))

def Hello.ofBytes (bs : List UInt8) : Hello :=
  ⟨field 64 8 bs 0, field 64 8 bs 8, field 32 4 bs 16, field 32 4 bs 20, field 32 4 bs 24,
    field 32 4 bs 28⟩

theorem Hello.length_toBytes (h : Hello) : h.toBytes.length = helloBytes := by
  simp [Hello.toBytes, helloBytes]

theorem Hello.ofBytes_toBytes (h : Hello) : Hello.ofBytes h.toBytes = h := by
  simp [Hello.ofBytes, Hello.toBytes, field_append_skip, field_leBytes, field_leBytes_last]

/-! ## Unique ids -/

/-- `UniqueIdInternal`. The port is in network byte order; `addr` is the 16 bytes of the address. -/
structure UniqueId where
  magic : BitVec 64
  salt : BitVec 64
  family : BitVec 16
  port : BitVec 16
  addr : BitVec 128
  deriving DecidableEq, Repr

/-- `VCCL_UNIQUE_ID_BYTES`. -/
def uniqueIdBytes : Nat := 128

def UniqueId.toBytes (u : UniqueId) : List UInt8 :=
  leBytes 8 u.magic.toNat ++ (leBytes 8 u.salt.toNat ++ (leBytes 2 u.family.toNat ++
    (leBytes 2 u.port.toNat ++ (leBytes 16 u.addr.toNat ++ List.replicate 92 0))))

def UniqueId.ofBytes (bs : List UInt8) : UniqueId :=
  ⟨field 64 8 bs 0, field 64 8 bs 8, field 16 2 bs 16, field 16 2 bs 18, field 128 16 bs 20⟩

theorem UniqueId.length_toBytes (u : UniqueId) : u.toBytes.length = uniqueIdBytes := by
  simp [UniqueId.toBytes, uniqueIdBytes]

theorem UniqueId.ofBytes_toBytes (u : UniqueId) : UniqueId.ofBytes u.toBytes = u := by
  simp only [UniqueId.ofBytes, UniqueId.toBytes]
  simp [-List.reduceReplicate, field_append_skip, field_leBytes]

/-- `kVcclMagic`. -/
def kVcclMagic : BitVec 64 := 0x7663636c30312e30

/-- `kCommIdEnvSalt`. -/
def kCommIdEnvSalt : BitVec 64 := 0x7663636c2d656e76

/-- `VCCL_VERSION_CODE`. -/
def versionCode : BitVec 32 := 0 * 10000 + 2 * 100 + 0

/-- `hostEndiannessMarker`, on a little-endian host. -/
def hostEndiannessMarker : BitVec 32 := 1

/-! ## Colors and keys -/

/-- `SplitInfo`. -/
structure SplitInfo where
  color : BitVec 32
  key : BitVec 32
  deriving DecidableEq, Repr

/-- `sizeof(SplitInfo)`. -/
def splitInfoBytes : Nat := 8

def SplitInfo.toBytes (a : SplitInfo) : List UInt8 :=
  leBytes 4 a.color.toNat ++ leBytes 4 a.key.toNat

def SplitInfo.ofBytes (bs : List UInt8) : SplitInfo := ⟨field 32 4 bs 0, field 32 4 bs 4⟩

theorem SplitInfo.length_toBytes (a : SplitInfo) : a.toBytes.length = splitInfoBytes := by
  simp [SplitInfo.toBytes, splitInfoBytes]

theorem SplitInfo.ofBytes_toBytes (a : SplitInfo) : SplitInfo.ofBytes a.toBytes = a := by
  simp [SplitInfo.ofBytes, SplitInfo.toBytes, field_append_skip, field_leBytes, field_leBytes_last]

end Vccl
