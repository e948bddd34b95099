/- digest: C integer conversions and the MPI datatypes built by the big-count wrapper. -/

import Mathlib.Algebra.Group.Int.Defs
import Mathlib.Algebra.Group.Nat.Defs
import Mathlib.Data.Int.Init
import Mathlib.Data.List.Range

set_option autoImplicit false
set_option relaxedAutoImplicit false

namespace Lcw.Mpi

abbrev Byte := UInt8

/-- `std::numeric_limits<int>::max()`. -/
def intMax : Nat := 2147483647

/-- Conversion to a 32-bit `int`. -/
def toInt (x : Int) : Int := x.bmod (2 ^ 32)

/-- Conversion to a 64-bit `size_t`. -/
def toSize (x : Int) : Nat := (x % 2 ^ 64).toNat

/-- Conversion to a 64-bit `MPI_Aint`. -/
def toAint (x : Int) : Int := x.bmod (2 ^ 64)

theorem toInt_of_range {x : Int} (lo : -2 ^ 31 ≤ x) (hi : x < 2 ^ 31) : toInt x = x := by
  unfold toInt
  rw [Int.bmod_def]
  split <;> omega

theorem toSize_of_range {x : Int} (lo : 0 ≤ x) (hi : x < 2 ^ 64) : toSize x = x.toNat := by
  unfold toSize
  rw [Int.emod_eq_of_lt lo hi]

/-- The derived datatypes the wrapper builds. -/
inductive Datatype
  | byte
  | vector (count blocklength stride : Int) (old : Datatype)
  | contiguous (count : Int) (old : Datatype)
  | struct₂ (blocklength₀ displacement₀ : Int) (type₀ : Datatype)
      (blocklength₁ displacement₁ : Int) (type₁ : Datatype)
  deriving DecidableEq, Repr

namespace Datatype

/-- Span from the lower to the upper bound of a type. -/
def extent : Datatype → Int
  | .byte => 1
  | .vector c b s t => if c ≤ 0 ∨ b ≤ 0 then 0 else ((c - 1) * s + b) * t.extent
  | .contiguous c t => c * t.extent
  | .struct₂ b₀ d₀ t₀ b₁ d₁ t₁ => max (d₀ + b₀ * t₀.extent) (d₁ + b₁ * t₁.extent)

/-- A block of consecutive copies of a type, starting at a displacement. -/
def block (n : Nat) (start ext : Int) (map : List Int) : List Int :=
  (List.range n).flatMap fun (i : Nat) => map.map (· + (start + i * ext))

/-- Displacements of the bytes a type describes, in type-map order. -/
def typeMap : Datatype → List Int
  | .byte => [0]
  | .vector c b s t => (List.range c.toNat).flatMap fun (i : Nat) =>
      block b.toNat (i * s * t.extent) t.extent t.typeMap
  | .contiguous c t => block c.toNat 0 t.extent t.typeMap
  | .struct₂ b₀ d₀ t₀ b₁ d₁ t₁ =>
      block b₀.toNat d₀ t₀.extent t₀.typeMap ++ block b₁.toNat d₁ t₁.extent t₁.typeMap

/-- The displacements of `count` consecutive elements, as a communication call describes them. -/
def layout (count : Int) (ty : Datatype) : List Int := (Datatype.contiguous count ty).typeMap

theorem layout_byte (n : Nat) : layout n .byte = (List.range n).map Int.ofNat := by
  simp only [layout, typeMap, block, extent, Int.toNat_natCast, List.map_cons, List.map_nil,
    Int.zero_add, Int.mul_one]
  exact (List.map_eq_flatMap).symm

end Datatype

/-- The bytes a send reads from memory. -/
def gather (mem : List Byte) (layout : List Int) : List Byte :=
  layout.map fun d => mem.getD d.toNat 0

/-- Memory after a receive has stored a payload. -/
def scatter : List Byte → List Int → List Byte → List Byte
  | mem, d :: ds, b :: bs => scatter (mem.set d.toNat b) ds bs
  | mem, _, _ => mem

end Lcw.Mpi
