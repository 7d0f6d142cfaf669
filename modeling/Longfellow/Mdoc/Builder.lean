/-
**The encodings of an assignment** (`mdoc_zk/runtime/src/v2/inputs/builder.rs`,
`mdoc_zk/proto/src/config.rs`).

Each value of an input is written in one of three ways: its bits, groups of its bits packed as the
points of a table, or an element of the field. What a call pushes is the list of its elements.
-/

import Longfellow.Ecdsa.Concrete
import Longfellow.Sha256.Concrete

namespace Longfellow.Mdoc

open Lib Gadget

def kShaBitPlucker : ℕ := 4

def kHashV8BitPlucker : ℕ := 2

def kHashV256BitPlucker : ℕ := 2

def kSigMacBitPlucker : ℕ := 2

def kAttrLenBits : ℕ := 10

/-- The lowest bits of a number. -/
def valueBits (bitLen val : ℕ) : List Bool := (List.range bitLen).map val.testBit

section Builder

variable {K : Type} [Zero K] [One K]

def pushBit (bit : Bool) : K := if bit then 1 else 0

def pushBitsLen (val nbits : ℕ) : List K := (valueBits nbits val).map pushBit

def pushNat256Bits (nat : ℕ) : List K := (leBytes 32 nat).flatMap fun b => pushBitsLen b.toNat 8

variable [HasLookupPoints K]

/-- The number of a group of bits. -/
def packedGroup (width : ℕ) (bits : List Bool) (i : ℕ) : ℕ :=
  (List.range width).foldl (fun v j =>
    if bits.getD (i * width + j) false = true then v ||| 1 <<< j else v) 0

def packBitsToElements (width : ℕ) (bits : List Bool) : List K :=
  (List.range (divCeil bits.length width)).map fun i =>
    encodingPoint width (packedGroup width bits i)

def pushValuePlucked (width bitLen val : ℕ) : List K :=
  packBitsToElements width (valueBits bitLen val)

def pushV8 (byte : UInt8) : List K := pushValuePlucked kHashV8BitPlucker 8 byte.toNat

def pushV32 (val : Sha256.Word) : List K := pushValuePlucked kShaBitPlucker 32 val.toNat

def pushPlucked128 (val : BitVec 128) : List K := pushValuePlucked kSigMacBitPlucker 128 val.toNat

def pushNat256 (nat : ℕ) : List K :=
  packBitsToElements kHashV256BitPlucker ((leBytes 32 nat).flatMap fun b => valueBits 8 b.toNat)

def pushSha256Derived (derived : Sha256.ConcreteDerived) : List K :=
  derived.modernElements.flatMap pushV32

def pushSha256msgDerived (derived : List Sha256.ConcreteDerived) : List K :=
  derived.flatMap pushSha256Derived

end Builder

def pushU128 (val : BitVec 128) : List Gf2128Elt := [⟨val⟩]

end Longfellow.Mdoc
