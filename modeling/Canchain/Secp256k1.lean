import Canchain.Common

/-!
Recovery of a public key over the curve y² = x³ + 7, after `lib/crypto/secp256k1`. Points are
in Jacobian coordinates, and a sum of two multiples is computed bit by bit, where the source
uses windows.
-/
namespace Canchain.Secp256k1
open Rlp Common

/-- The order of the field. -/
def p : Nat := 2^256 - 2^32 - 977
/-- The order of the group. -/
def n : Nat := 0xfffffffffffffffffffffffffffffffebaaedce6af48a03bbfd25e8cd0364141

/-- `base^exp` modulo `m`, for an exponent of at most as many bits as there is fuel. -/
def powMod (m : Nat) : Nat → Nat → Nat → Nat
  | 0, _, _ => 1
  | fuel + 1, base, exp =>
    let rest := powMod m fuel (base*base%m) (exp/2)
    if exp%2 = 1 then base*rest%m else rest
def inverse (m a : Nat) : Nat := powMod m 256 a (m - 2)
def negate (a : Nat) : Nat := p - a%p

/-- `secp256k1_gej` -/
inductive Point where
  | infinity
  | at (x y z : Nat)
  deriving DecidableEq
/-- The generator. -/
def gx : Nat := 0x79be667ef9dcbbac55a06295ce870b07029bfcdb2dce28d959f2815b16f81798
def gy : Nat := 0x483ada7726a3c4655da4fbfc0e1108a8fd17b448a68554199c47d08ffb10d4b8

/-- `secp256k1_gej_double_var` -/
def Point.double : Point → Point
  | infinity => infinity
  | .at x y z =>
    let t1 := 3*(x*x)%p
    let t2 := t1*t1%p
    let t3 := 2*(y*y)%p
    let t4 := 2*(t3*t3)%p
    let t3 := t3*x%p
    .at ((4*negate t3 + t2)%p) ((t1*(6*t3 + negate t2) + negate t4)%p) (2*(z*y)%p)
/-- `secp256k1_gej_add_ge_var`: the second point is given by its affine coordinates. -/
def Point.add (bx by_ : Nat) : Point → Point
  | infinity => .at bx by_ 1
  | .at x y z =>
    let z12 := z*z%p
    let u2 := bx*z12%p
    let s2 := by_*z12%p*z%p
    let h := (negate x + u2)%p
    let i := (negate y + s2)%p
    if h = 0 then (if i = 0 then Point.double (.at x y z) else infinity)
    else
      let i2 := i*i%p
      let h2 := h*h%p
      let h3 := h*h2%p
      let t := x*h2%p
      let x' := (negate (2*t + h3) + i2)%p
      .at x' (((negate x' + t)*i + negate (h3*y))%p) (z*h%p)
/-- `secp256k1_ecmult`: the sum of `na` times the point and `ng` times the generator. -/
def ecmult (ax ay na ng : Nat) : Nat → Point → Point
  | 0, sum => sum
  | bit + 1, sum =>
    let sum := sum.double
    let sum := if na.testBit bit then sum.add ax ay else sum
    let sum := if ng.testBit bit then sum.add gx gy else sum
    ecmult ax ay na ng bit sum

def toNat (b : Bytes) : Nat := b.foldl (fun v x => v*256 + x.toNat) 0
def bytesOf (size v : Nat) : Bytes := (List.range size).map fun i => UInt8.ofNat (v / 256^(size - 1 - i) % 256)

/-- `secp256k1_ge_set_xo_var`: the y of the point with this x, of this parity. -/
def yOf (x : Nat) (odd : Bool) : Option Nat :=
  let square := (x*x*x + 7)%p
  let y := powMod p 256 square ((p + 1)/4)
  if y*y%p ≠ square then none
  else some (if decide (y%2 = 1) ≠ odd then negate y else y)
/-- `secp256k1_ecdsa_sig_recover` -/
def sigRecover (r s message recid : Nat) : Option (Nat × Nat) :=
  if r = 0 ∨ s = 0 then none
  else if recid/2 = 1 ∧ r ≥ p - n then none
  else
    let x := if recid/2 = 1 then r + n else r
    match yOf x (decide (recid%2 = 1)) with
    | none => none
    | some y =>
      let rn := inverse n r
      let u1 := (n - rn*message%n)%n
      let u2 := rn*s%n
      match ecmult x y u2 u1 256 .infinity with
      | .infinity => none
      | .at x y z =>
        let zi := inverse p z
        let z2 := zi*zi%p
        some (x*z2%p,y*(zi*z2%p)%p)
/-- `crypto.Ecrecover` -/
def ecrecover (hash : Hash) (sig : Bytes) : Except String Bytes :=
  if sig.length ≠ 65 then .error "invalid signature length"
  else if (sig.getD 64 0).toNat ≥ 4 then .error "invalid signature recovery id"
  else
    let r := toNat (sig.take 32)
    let s := toNat ((sig.drop 32).take 32)
    if r ≥ n ∨ s ≥ n then .error "recovery failed"
    else
      match sigRecover r s (toNat hash.bytes%n) (sig.getD 64 0).toNat with
      | none => .error "recovery failed"
      | some (x,y) => .ok (4 :: bytesOf 32 x ++ bytesOf 32 y)

end Canchain.Secp256k1
