import Mathlib.Algebra.Group.Nat.Defs
import Mathlib.Data.List.Basic

/-!
# Byte arrays, hashes and errors (`core/types.go`, `core/errors.go`)

A `core.Byte8` is only ever written by `Uint64ToByte8` and read by `Uint64`,
which are inverse to each other, so it is a `UInt64` here; its bytes are big
endian. SHA-512 is the class `Sha512`: the model runs with any hash function,
and what a result needs of it (no collision among the inputs of a run, no
all-zero digest) is a hypothesis of that result.
-/

namespace TrustNet
set_option autoImplicit false

abbrev Bytes := List UInt8

/-- `core.Byte64`, a `[64]byte` array. -/
@[ext] structure Byte64 where
  bytes : Bytes
  length_eq : bytes.length = 64
  deriving DecidableEq

/-- `core.BytesToByte64`: the first 64 bytes of the source, padded with zeros. -/
def bytesToByte64 (source : Bytes) : Byte64 :=
  ⟨(source ++ List.replicate 64 0).take 64, by simp⟩

/-- `*core.BytesToByte64(nil)`: the all-zero array (`null`, `genesisParent`). -/
def null : Byte64 := bytesToByte64 []

/-- `(*core.Byte8).Bytes` of `core.Uint64ToByte8(n)`. -/
def uint64Bytes (n : UInt64) : Bytes :=
  [(n >>> 56).toUInt8, (n >>> 48).toUInt8, (n >>> 40).toUInt8, (n >>> 32).toUInt8,
    (n >>> 24).toUInt8, (n >>> 16).toUInt8, (n >>> 8).toUInt8, n.toUInt8]

/-- `crypto/sha512`. -/
class Sha512 where
  sum512 : Bytes → Byte64

export Sha512 (sum512)

/-- The error codes of `core`, `core/trie` and `consensus`. -/
inductive ErrCode where
  | dbUninitialized | notFound
  | initializationFailed | dbCorrupted | txNotFound | txNotApplied | keyNotFound | stateIncorrect
  | blockUnhashed | duplicateTx | duplicateBlock | blockValidation | blockOrphan | notMainList | invalidArg
  deriving DecidableEq, Repr

/-- A Go `error`: a `core.CoreError`, or one that the database returned. -/
inductive Err where
  | core (code : ErrCode) (msg : String)
  | db (msg : String)
  deriving DecidableEq, Repr

/-- `err.Error()`. -/
def Err.msg : Err → String
  | .core _ msg => msg
  | .db msg => msg

/-- How a call ends: with a nil error, with an error, or in a nil-pointer panic. -/
inductive Outcome where
  | ok
  | error (e : Err)
  | panic
  deriving DecidableEq, Repr

/-- What a read returns: a value, an error, or a nil-pointer panic. -/
inductive Reply where
  | value (v : Bytes)
  | error (e : Err)
  | panic
  deriving DecidableEq, Repr

end TrustNet
