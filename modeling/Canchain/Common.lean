import Canchain.Rlp

/-!
The byte arrays of `common/types.go`. A hash or an address made from a longer
slice keeps its last bytes, one made from a shorter slice is padded on the left.
-/
namespace Canchain.Common
open Rlp

/-- `SetBytes` of a byte array of the given size. -/
def setBytes (size : Nat) (b : Bytes) : Bytes := List.replicate (size - b.length) 0 ++ b.drop (b.length - size)

@[simp] theorem setBytes_length (size : Nat) (b : Bytes) : (setBytes size b).length = size := by
  simp only [setBytes,List.length_append,List.length_replicate,List.length_drop]
  omega

/-- `common.Hash`. -/
@[ext] structure Hash where
  bytes : Bytes
  size : bytes.length = 32
  deriving DecidableEq
/-- `common.Address`. -/
@[ext] structure Address where
  bytes : Bytes
  size : bytes.length = 20
  deriving DecidableEq

/-- `common.Hash{}`. -/
def Hash.zero : Hash := ⟨List.replicate 32 0,by simp⟩
/-- `common.Address{}`. -/
def Address.zero : Address := ⟨List.replicate 20 0,by simp⟩
def bytesToHash (b : Bytes) : Hash := ⟨setBytes 32 b,setBytes_length 32 b⟩
def bytesToAddress (b : Bytes) : Address := ⟨setBytes 20 b,setBytes_length 20 b⟩

end Canchain.Common
