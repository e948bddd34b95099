/- digest: Both ways to describe a number of bytes to MPI describe the same consecutive bytes. -/

import Lcw.Mpi.Backend
import Mathlib.Tactic.Ring

set_option autoImplicit false
set_option relaxedAutoImplicit false

namespace Lcw.Mpi

open Interleave

/-- The displacements of the first `n` bytes of a buffer. -/
def consecutive (n : Nat) : List Int := (List.range n).map Int.ofNat

@[simp] theorem length_consecutive (n : Nat) : (consecutive n).length = n := by
  simp [consecutive]

theorem consecutive_add (m n : Nat) :
    consecutive (m + n) = consecutive m ++ (consecutive n).map (· + (m : Int)) := by
  unfold consecutive
  rw [List.range_add, List.map_append, List.map_map, List.map_map]
  congr 1
  refine List.map_congr_left fun i _ => ?_
  simp only [Function.comp_apply, Int.ofNat_eq_natCast]
  omega

namespace Datatype

theorem block_byte (n : Nat) (start : Int) :
    block n start 1 [0] = (consecutive n).map (· + start) := by
  unfold block consecutive
  rw [List.map_map, List.map_eq_flatMap]
  refine List.flatMap_congr fun i _ => ?_
  simp only [List.map_cons, List.map_nil, Function.comp_apply, Int.ofNat_eq_natCast]
  congr 1
  omega

theorem block_one (start ext : Int) (map : List Int) :
    block 1 start ext map = map.map (· + start) := by
  simp [block]

/-- Chunks laid end to end are consecutive bytes. -/
theorem typeMap_chunks (c m : Nat) :
    (Datatype.vector c m m .byte).typeMap = consecutive (c * m) := by
  simp only [typeMap, extent, Int.toNat_natCast, Int.mul_one]
  induction c with
  | zero => simp [consecutive]
  | succ c ih =>
    rw [List.range_succ, List.flatMap_append, ih, Nat.succ_mul, consecutive_add]
    simp only [List.flatMap_cons, List.flatMap_nil, List.append_nil, block_byte]
    push_cast
    rfl

theorem typeMap_contiguous_byte (n : Nat) :
    (Datatype.contiguous n .byte).typeMap = consecutive n := by
  simp only [typeMap, extent, Int.toNat_natCast, block_byte]
  simp

/-- The type of `c` chunks of `m` bytes and a remainder of `r` bytes. -/
def chunked (c m r : Nat) : Datatype :=
  .struct₂ 1 0 (.vector c m m .byte) 1 (c * m : Nat) (.contiguous r .byte)

theorem typeMap_chunked (c m r : Nat) : (chunked c m r).typeMap = consecutive (c * m + r) := by
  unfold chunked
  rw [typeMap, typeMap_chunks, typeMap_contiguous_byte, consecutive_add]
  simp only [Int.toNat_one, block_one]
  simp

theorem layout_chunked (c m r : Nat) : layout 1 (chunked c m r) = consecutive (c * m + r) := by
  unfold layout
  rw [typeMap, typeMap_chunked]
  simp [block_one]

theorem layout_bytes (n : Nat) : layout n .byte = consecutive n := layout_byte n

end Datatype

theorem toInt_natCast {n : Nat} (h : n ≤ intMax) : toInt n = n := by
  unfold intMax at h
  exact toInt_of_range (by omega) (by omega)

/-- The displacement of the remainder survives its conversions. -/
theorem remdisp_eq {c : Nat} (h : c < intMax) :
    toAint (toSize (toAint c * intMax)) = (c * intMax : Nat) := by
  unfold intMax at h ⊢
  have aint (x : Int) (lo : 0 ≤ x) (hi : x < 2 ^ 62) : toAint x = x := by
    unfold toAint
    rw [Int.bmod_def]
    split <;> omega
  have product : ((c : Int) * 2147483647 : Int) < 2 ^ 62 := by omega
  rw [aint c (by omega) (by omega)]
  have size : toSize ((c : Int) * (2147483647 : Nat)) = c * 2147483647 := by
    rw [toSize_of_range (by omega) (by omega)]
    omega
  rw [size, aint _ (by omega) (by push_cast; omega)]

/-- The datatype that `type_contiguous` builds for `n` bytes. -/
theorem bigcount_datatype {n : Nat} (h : n / intMax < intMax) :
    Datatype.struct₂ 1 0 (.vector (toInt (n / intMax : Nat)) intMax intMax .byte) 1
      (toAint (toSize (toAint (n / intMax : Nat) * intMax)))
      (.contiguous (toInt (n % intMax : Nat)) .byte) =
    Datatype.chunked (n / intMax) intMax (n % intMax) := by
  have remainder : n % intMax ≤ intMax := (Nat.mod_lt _ (by decide)).le
  rw [remdisp_eq h, toInt_natCast h.le, toInt_natCast remainder]
  rfl

theorem layout_bigcount (n : Nat) :
    Datatype.layout 1 (Datatype.chunked (n / intMax) intMax (n % intMax)) = consecutive n := by
  rw [Datatype.layout_chunked, Nat.div_add_mod']

section Calls

/-- The value passed for an `int` argument that MPI requires to be non-negative. -/
def FitsInt (x : Int) : Prop := 0 ≤ x ∧ x ≤ intMax

/-- Every count, block length and stride of a datatype fits a non-negative `int`. -/
def Datatype.Fits : Datatype → Prop
  | .byte => True
  | .vector c b s t => FitsInt c ∧ FitsInt b ∧ FitsInt s ∧ t.Fits
  | .contiguous c t => FitsInt c ∧ t.Fits
  | .struct₂ b₀ _ t₀ b₁ _ t₁ => FitsInt b₀ ∧ FitsInt b₁ ∧ t₀.Fits ∧ t₁.Fits

namespace Datatype

theorem extent_chunked (c m r : Nat) : (chunked c m r).extent = (c * m + r : Nat) := by
  have chunks : (Datatype.vector c m m .byte).extent = (c * m : Nat) := by
    simp only [extent]
    split
    · rename_i empty
      rcases empty with hc | hm
      · have zero : c = 0 := by omega
        simp [zero]
      · have zero : m = 0 := by omega
        simp [zero]
    · push_cast
      ring
  unfold chunked
  simp only [extent] at chunks ⊢
  rw [chunks]
  push_cast
  omega

theorem fits_chunked {c m r : Nat} (hc : c ≤ intMax) (hm : m ≤ intMax) (hr : r ≤ intMax) :
    (chunked c m r).Fits := by
  have fits {n : Nat} (h : n ≤ intMax) : FitsInt n := ⟨by omega, by exact_mod_cast h⟩
  have one : FitsInt 1 := ⟨by decide, by decide⟩
  exact ⟨one, one, ⟨fits hc, fits hm, fits hm, trivial⟩, ⟨fits hr, trivial⟩⟩

end Datatype

theorem describe_small {n : Nat} (h : n ≤ intMax) : describe n = pure ((n : Int), .byte) := by
  unfold describe
  rw [if_neg (by omega), toInt_natCast h]

theorem describe_big {n : Nat} (lo : intMax < n) (hi : n / intMax < intMax) :
    describe n = pure (1, Datatype.chunked (n / intMax) intMax (n % intMax)) := by
  have remainder : n % intMax < intMax := Nat.mod_lt _ (by decide)
  unfold describe typeContiguous lcwAssert
  rw [if_pos lo]
  simp only [hi, remainder, decide_true, if_true, Prog.pure_eq, Prog.bind_eq, Prog.ret_bind,
    bigcount_datatype hi]

theorem describe_huge {n : Nat} (h : intMax ≤ n / intMax) :
    ∃ k, describe n = .op (.abort .typeTooLarge) k := by
  have big : intMax < n := by
    unfold intMax at h ⊢
    omega
  unfold describe typeContiguous lcwAssert
  rw [if_pos big]
  simp only [show ¬ n / intMax < intMax by omega, decide_false, Bool.false_eq_true, if_false]
  exact ⟨_, rfl⟩

/-- Every length is described by its exact bytes, or stopped before MPI is called. -/
theorem bigcount_exact (length : Int) (lo : -2 ^ 63 ≤ length) (hi : length < 2 ^ 63)
    (address : Buffer) (rank tag : Int) (comm : Comm) (p : RequestPtr) :
    (0 ≤ length → length ≤ intMax →
      isend address (toSize length) rank tag comm p =
        (act (.isend address length .byte rank tag comm p) >>= mpiSafecall p) ∧
      irecv address (toSize length) rank tag comm p =
        (act (.irecv address length .byte rank tag comm p) >>= mpiSafecall p) ∧
      FitsInt length ∧ Datatype.layout length .byte = consecutive length.toNat) ∧
    (intMax < length → length < intMax * intMax →
      ∃ c r : Nat, c * intMax + r = length ∧ c * intMax < 2 ^ 63 ∧ (
        isend address (toSize length) rank tag comm p =
          (act (.isend address 1 (.chunked c intMax r) rank tag comm p) >>= mpiSafecall p) ∧
        irecv address (toSize length) rank tag comm p =
          (act (.irecv address 1 (.chunked c intMax r) rank tag comm p) >>= mpiSafecall p) ∧
        (Datatype.chunked c intMax r).Fits ∧
        (Datatype.chunked c intMax r).typeMap = consecutive length.toNat ∧
        (Datatype.chunked c intMax r).extent = length ∧
        Datatype.layout 1 (.chunked c intMax r) = consecutive length.toNat)) ∧
    (length < 0 ∨ intMax * intMax ≤ length →
      (∃ k, isend address (toSize length) rank tag comm p = .op (.abort .typeTooLarge) k) ∧
      ∃ k, irecv address (toSize length) rank tag comm p = .op (.abort .typeTooLarge) k) := by
  refine ⟨fun nonneg small => ?_, fun big admitted => ?_, fun refused => ?_⟩
  · obtain ⟨n, rfl⟩ := Int.eq_ofNat_of_zero_le nonneg
    have size : toSize n = n := by
      rw [toSize_of_range nonneg (by omega), Int.toNat_natCast]
    have fits : n ≤ intMax := by exact_mod_cast small
    refine ⟨?_, ?_, ⟨nonneg, small⟩, Datatype.layout_bytes n⟩
    · rw [size, isend, describe_small fits]
      rfl
    · rw [size, irecv, describe_small fits]
      rfl
  · obtain ⟨n, rfl⟩ := Int.eq_ofNat_of_zero_le (a := length) (by omega)
    have size : toSize n = n := by
      rw [toSize_of_range (by omega) (by omega), Int.toNat_natCast]
    have large : intMax < n := by exact_mod_cast big
    have chunks : n / intMax < intMax := by
      have bound : n < intMax * intMax := by exact_mod_cast admitted
      exact Nat.div_lt_of_lt_mul bound
    have remainder : n % intMax ≤ intMax := (Nat.mod_lt _ (by decide)).le
    have split : n / intMax * intMax + n % intMax = n := Nat.div_add_mod' n intMax
    refine ⟨n / intMax, n % intMax, by exact_mod_cast split, by omega, ?_, ?_,
      Datatype.fits_chunked chunks.le le_rfl remainder, ?_, ?_, layout_bigcount n⟩
    · rw [size, isend, describe_big large chunks]
      rfl
    · rw [size, irecv, describe_big large chunks]
      rfl
    · rw [Datatype.typeMap_chunked, split]
      rfl
    · rw [Datatype.extent_chunked, split]
  · have huge : intMax ≤ toSize length / intMax := by
      unfold toSize intMax at *
      omega
    obtain ⟨k, stops⟩ := describe_huge huge
    refine ⟨?_, ?_⟩
    · rw [isend, stops]
      exact ⟨_, rfl⟩
    · rw [irecv, stops]
      exact ⟨_, rfl⟩

/-- Three thousand million bytes go as one chunk of `INT_MAX` bytes and a remainder. -/
theorem bigcount_exact_three_billion :
    let d : Dev := ⟨0, 0⟩
    let p : RequestPtr := ⟨0, ⟨.send, d, 1, 7, .user 0, 3000000000, 0⟩, none⟩
    ∃ c r : Nat, (c * intMax + r : Int) = 3000000000 ∧
      isend (.user 0) (toSize 3000000000) 1 7 ⟨d, 0⟩ p =
        (act (.isend (.user 0) 1 (.chunked c intMax r) 1 7 ⟨d, 0⟩ p) >>= mpiSafecall p) ∧
      Datatype.layout 1 (.chunked c intMax r) = consecutive (Int.toNat 3000000000) := by
  intro d p
  obtain ⟨c, r, total, -, sends, -, -, -, -, bytes⟩ :=
    (bigcount_exact 3000000000 (by decide) (by decide) (.user 0) 1 7 ⟨d, 0⟩ p).2.1
      (by decide) (by decide)
  exact ⟨c, r, total, sends, bytes⟩

end Calls

section Bytes

/-- A send of consecutive bytes takes the front of the buffer. -/
theorem gather_consecutive {mem : List Byte} {n : Nat} (h : n ≤ mem.length) :
    gather mem (consecutive n) = mem.take n := by
  unfold gather consecutive
  apply List.ext_getElem
  · simp [h]
  · intro i h1 h2
    have bound : i < mem.length := by
      simp at h1
      omega
    simp [bound]

@[simp] theorem length_gather (mem : List Byte) (layout : List Int) :
    (gather mem layout).length = layout.length := by
  simp [gather]

@[simp] theorem length_scatter (mem : List Byte) (layout : List Int) (payload : List Byte) :
    (scatter mem layout payload).length = mem.length := by
  induction layout generalizing mem payload with
  | nil => simp [scatter]
  | cons d ds ih =>
    cases payload with
    | nil => simp [scatter]
    | cons b bs => rw [scatter, ih, List.length_set]

private theorem scatter_shifted (before mem : List Byte) (payload : List Byte) (n : Nat)
    (fits : payload.length ≤ n) (room : n ≤ mem.length) :
    scatter (before ++ mem) ((consecutive n).map (· + (before.length : Int))) payload =
      before ++ payload ++ mem.drop payload.length := by
  induction payload generalizing before mem n with
  | nil => cases n <;> simp [consecutive, scatter]
  | cons b bs ih =>
    obtain ⟨n, rfl⟩ : ∃ k, n = k + 1 := ⟨n - 1, by simp at fits; omega⟩
    cases mem with
    | nil => simp at room
    | cons x mem =>
      have front : consecutive (n + 1) = 0 :: (consecutive n).map (· + (1 : Int)) := by
        rw [Nat.add_comm, consecutive_add]
        rfl
      have set : (before ++ x :: mem).set (0 + (before.length : Int)).toNat b =
          (before ++ [b]) ++ mem := by
        simp
      have shift : ((consecutive n).map (· + (1 : Int))).map (· + (before.length : Int)) =
          (consecutive n).map (· + ((before ++ [b]).length : Int)) := by
        rw [List.map_map]
        refine List.map_congr_left fun i _ => ?_
        simp only [Function.comp_apply, List.length_append, List.length_singleton]
        omega
      rw [front, List.map_cons, scatter, set, shift, ih]
      · simp
      · simpa using fits
      · simpa using room

/-- A receive into consecutive bytes stores the payload at the front of the buffer. -/
theorem take_scatter {mem payload : List Byte} {n : Nat} (fits : payload.length ≤ n)
    (room : n ≤ mem.length) :
    (scatter mem (consecutive n) payload).take payload.length = payload := by
  have whole := scatter_shifted [] mem payload n fits room
  simp only [List.nil_append, List.length_nil, Int.natCast_zero, Int.add_zero, List.map_id'] at whole
  rw [whole]
  simp

end Bytes

end Lcw.Mpi
