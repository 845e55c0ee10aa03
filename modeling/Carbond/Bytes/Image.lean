import Mathlib.Data.List.Basic
import Mathlib.Algebra.Group.Nat.Defs

/-! Fixed-width images of numbers in memory, least significant byte first. Reversing an image
changes its byte order, so a network-order conversion is one more image read backwards. -/
namespace Carbond.Bytes

/-- The `width` bytes a little-endian machine stores for `number`; higher digits are lost. -/
def image : Nat → Nat → List UInt8
  | 0, _ => []
  | width + 1, number => UInt8.ofNat number :: image width (number / 256)

/-- The number a little-endian machine reads back from these bytes. -/
def number : List UInt8 → Nat
  | [] => 0
  | byte :: rest => byte.toNat + 256 * number rest

@[simp] theorem image_length (width n : Nat) : (image width n).length = width := by
  induction width generalizing n with
  | zero => rfl
  | succ width ih => simp [image, ih]

theorem number_lt (bytes : List UInt8) : number bytes < 256 ^ bytes.length := by
  induction bytes with
  | nil => simp [number]
  | cons byte rest ih =>
    have small : byte.toNat < 256 := byte.toNat_lt
    simp only [number, List.length_cons, Nat.pow_succ]
    omega

/-- Only the digits above the width are lost. -/
theorem number_image (width n : Nat) : number (image width n) = n % 256 ^ width := by
  induction width generalizing n with
  | zero => simp [image, number, Nat.mod_one]
  | succ width ih =>
    have low : (UInt8.ofNat n).toNat = n % 256 := by simp
    simp only [image, number, ih, low]
    rw [Nat.pow_succ, Nat.mul_comm (256 ^ width) 256, Nat.mod_mul]

theorem number_image_of_lt (fits : n < 256 ^ width) : number (image width n) = n := by
  rw [number_image, Nat.mod_eq_of_lt fits]

/-- Every byte string is the image of the number it denotes. -/
theorem image_number (bytes : List UInt8) : image bytes.length (number bytes) = bytes := by
  induction bytes with
  | nil => rfl
  | cons byte rest ih =>
    have small : byte.toNat < 256 := byte.toNat_lt
    have low : UInt8.ofNat (byte.toNat + 256 * number rest) = byte := by
      apply UInt8.toNat_inj.mp
      simp only [UInt8.toNat_ofNat', Nat.reducePow]
      omega
    have high : (byte.toNat + 256 * number rest) / 256 = number rest := by omega
    simp only [number, List.length_cons, image, low, high, ih]

theorem image_of_length {bytes : List UInt8} (sized : bytes.length = width) :
    image width (number bytes) = bytes := sized ▸ image_number bytes

theorem number_append (front back : List UInt8) :
    number (front ++ back) = number front + 256 ^ front.length * number back := by
  induction front with
  | nil => simp [number]
  | cons byte rest ih =>
    rw [List.cons_append, number, number, ih, List.length_cons, Nat.pow_succ, Nat.mul_add,
      Nat.mul_comm (256 ^ rest.length) 256, Nat.mul_assoc, Nat.add_assoc]

/-- The number whose image is that of `n` in the opposite byte order. -/
def swap (width n : Nat) : Nat := number (image width n).reverse

theorem swap_lt (width n : Nat) : swap width n < 256 ^ width := by
  simpa only [swap, List.length_reverse, image_length] using number_lt (image width n).reverse

theorem image_swap (width n : Nat) : image width (swap width n) = (image width n).reverse :=
  image_of_length (by simp)

theorem swap_number {bytes : List UInt8} (sized : bytes.length = width) :
    swap width (number bytes) = number bytes.reverse := by
  rw [swap, image_of_length sized]

/-- Converting twice gives the number back, so one conversion serves both directions. -/
theorem swap_swap (fits : n < 256 ^ width) : swap width (swap width n) = n := by
  rw [swap, image_swap, List.reverse_reverse, number_image_of_lt fits]

@[simp] theorem number_zeros (width : Nat) : number (List.replicate width 0) = 0 := by
  induction width with
  | zero => rfl
  | succ width ih => simp [List.replicate_succ, number, ih]

/-- A short byte string is read as if zeros followed. -/
theorem image_number_short {bytes : List UInt8} (short : bytes.length ≤ width) :
    image width (number bytes) = bytes ++ List.replicate (width - bytes.length) 0 := by
  have padded : (bytes ++ List.replicate (width - bytes.length) 0).length = width := by
    rw [List.length_append, List.length_replicate]
    omega
  rw [← image_of_length padded, number_append, number_zeros, Nat.mul_zero, Nat.add_zero]

theorem swap_number_short {bytes : List UInt8} (short : bytes.length ≤ width) :
    swap width (number bytes) = 256 ^ (width - bytes.length) * number bytes.reverse := by
  rw [swap, image_number_short short, List.reverse_append, List.reverse_replicate, number_append,
    number_zeros, List.length_replicate, Nat.zero_add]

/-- In the opposite byte order, bytes that are missing at the end make the number smaller. -/
theorem swap_number_take_le {bytes : List UInt8} (short : bytes.length ≤ width) (count : Nat) :
    swap width (number (bytes.take count)) ≤ swap width (number bytes) := by
  have front : (bytes.take count).length ≤ bytes.length := by
    rw [List.length_take]
    omega
  have parts : number bytes.reverse = number (bytes.drop count).reverse +
      256 ^ (bytes.length - (bytes.take count).length) * number (bytes.take count).reverse := by
    have back : (bytes.drop count).reverse.length = bytes.length - (bytes.take count).length := by
      rw [List.length_reverse, List.length_drop, List.length_take]
      omega
    rw [← back, ← number_append, ← List.reverse_append, List.take_append_drop]
  have shift : 256 ^ (width - bytes.length) * 256 ^ (bytes.length - (bytes.take count).length) =
      256 ^ (width - (bytes.take count).length) := by
    rw [← Nat.pow_add]
    congr 1
    omega
  calc swap width (number (bytes.take count))
    _ = 256 ^ (width - (bytes.take count).length) * number (bytes.take count).reverse :=
      swap_number_short (by omega)
    _ = 256 ^ (width - bytes.length) *
        (256 ^ (bytes.length - (bytes.take count).length) * number (bytes.take count).reverse) := by
      rw [← shift, Nat.mul_assoc]
    _ ≤ 256 ^ (width - bytes.length) * number bytes.reverse := by
      rw [parts]
      exact Nat.mul_le_mul_left _ (Nat.le_add_left _ _)
    _ = swap width (number bytes) := (swap_number_short short).symm

end Carbond.Bytes
