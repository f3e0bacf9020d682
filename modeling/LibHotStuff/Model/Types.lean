import Mathlib

namespace LibHotStuff

abbrev Bytes := List UInt8

/-- `ReplicaID`: the index of a replica in the list given to `start`. -/
abbrev ReplicaID := Nat

/-- The exceptions that the consensus core and the message formats throw. -/
inductive Error
  /-- "block not delivered" -/
  | blockNotDelivered
  /-- "block referred by qc not fetched" -/
  | qcBlockNotFetched
  /-- "safety breached :( " followed by the two blocks -/
  | safetyBreached
  /-- "empty parents" -/
  | emptyParents
  /-- "encode error" -/
  | encodeError
  /-- "new block should be higher than vheight" -/
  | notHigherThanVheight
  /-- "PartCert does match the block hash" -/
  | partCertMismatch
  /-- `std::ios_base::failure`: the stream is too short -/
  | ioFailure
  /-- "ill-formed signature" -/
  | illFormedSignature
  /-- "rid %s not found" -/
  | ridNotFound
  /-- `std::out_of_range` of `at` -/
  | outOfRange
  /-- "mismatching promise value types" -/
  | promiseMismatch
  deriving DecidableEq, Repr

/-- How a call ends when it does not return. -/
inductive Fault
  | throw (e : Error)
  /-- a failed `assert` -/
  | assertion
  /-- undefined behaviour: an access outside a buffer or a vector -/
  | undefined
  /-- a loop that does not end -/
  | diverges
  deriving DecidableEq, Repr

/-- `uint256_t` where the code uses it as 32 opaque bytes (a command hash). -/
structure UInt256 where
  bytes : Bytes
  size : bytes.length = 32
  deriving DecidableEq

/-- `from_bytes` on a 32-byte chunk; a shorter one is padded to keep the function total. -/
def UInt256.ofBytes (bs : Bytes) : UInt256 :=
  ⟨(bs ++ List.replicate 32 0).take 32, by simp⟩

theorem UInt256.ofBytes_bytes (c : UInt256) : UInt256.ofBytes c.bytes = c := by
  have hs := c.size
  have h : (c.bytes ++ List.replicate 32 0).take 32 = c.bytes := by
    rw [List.take_append_of_le_length (by omega), List.take_of_length_le (by omega)]
  cases c
  simpa [UInt256.ofBytes] using h

/-- A `uint64_t` as `memcpy` lays it out on a little-endian machine. -/
def le64 (v : Nat) : Bytes :=
  (List.range 8).map fun i => UInt8.ofNat (v / 256 ^ i)

/-- Reads a little-endian number back. -/
def readLe : Bytes → Nat
  | [] => 0
  | b :: bs => b.toNat + 256 * readLe bs

end LibHotStuff
