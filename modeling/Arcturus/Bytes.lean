import Mathlib.Algebra.Group.Nat.Defs
import Mathlib.Data.Nat.Basic
import Mathlib.Data.List.Basic

/-!
Byte sequences as lists: big-endian numbers of a fixed width and overwriting a
part of a buffer in place.
-/

namespace Arcturus.Bytes

/-- The low `width` bytes of a number, most significant first. -/
def putUint : ℕ → ℕ → List UInt8
  | 0, _ => []
  | width + 1, v => UInt8.ofNat (v / 256 ^ width) :: putUint width v

/-- The number that big-endian bytes stand for. -/
def getUint : List UInt8 → ℕ
  | [] => 0
  | b :: bs => b.toNat * 256 ^ bs.length + getUint bs

@[simp] theorem length_putUint (width v : ℕ) : (putUint width v).length = width := by
  induction width with
  | zero => rfl
  | succ width ih => rw [putUint, List.length_cons, ih]

theorem getUint_putUint (width v : ℕ) : getUint (putUint width v) = v % 256 ^ width := by
  induction width with
  | zero => simp [putUint, getUint, Nat.mod_one]
  | succ width ih =>
    have hbyte : (UInt8.ofNat (v / 256 ^ width)).toNat = v / 256 ^ width % 256 := by simp
    have hsplit : v % (256 ^ width * 256) =
        v % 256 ^ width + 256 ^ width * (v / 256 ^ width % 256) := Nat.mod_mul
    rw [putUint, getUint, ih, length_putUint, hbyte, Nat.pow_succ, hsplit, Nat.mul_comm,
      Nat.add_comm]

theorem getUint_lt (bs : List UInt8) : getUint bs < 256 ^ bs.length := by
  induction bs with
  | nil => simp [getUint]
  | cons b bs ih =>
    have hb := b.toNat_lt
    have hmul : b.toNat * 256 ^ bs.length ≤ 255 * 256 ^ bs.length :=
      Nat.mul_le_mul_right _ (by omega)
    unfold getUint
    rw [List.length_cons, Nat.pow_succ]
    omega

/-- Bytes of the same number stand for different numbers. -/
theorem getUint_injective {bs cs : List UInt8} (hlen : bs.length = cs.length)
    (h : getUint bs = getUint cs) : bs = cs := by
  induction bs generalizing cs with
  | nil => exact (List.length_eq_zero_iff.mp hlen.symm).symm
  | cons b bs ih =>
    cases cs with
    | nil => cases hlen
    | cons c cs =>
      have hlen' : bs.length = cs.length := Nat.succ.inj hlen
      have hbs := getUint_lt bs
      have hcs := getUint_lt cs
      unfold getUint at h
      rw [hlen'] at h hbs
      have hpos : 0 < 256 ^ cs.length := Nat.pow_pos (by decide)
      have hdiv (a g : ℕ) (hg : g < 256 ^ cs.length) :
          (a * 256 ^ cs.length + g) / 256 ^ cs.length = a := by
        rw [Nat.mul_comm, Nat.mul_add_div hpos, Nat.div_eq_of_lt hg, Nat.add_zero]
      have hbyte : b.toNat = c.toNat := by rw [← hdiv b.toNat _ hbs, h, hdiv c.toNat _ hcs]
      rw [hbyte] at h
      rw [UInt8.toNat_inj.mp hbyte, ih hlen' (by omega)]

theorem putUint_getUint (bs : List UInt8) : putUint bs.length (getUint bs) = bs := by
  refine getUint_injective (length_putUint _ _) ?_
  rw [getUint_putUint, Nat.mod_eq_of_lt (getUint_lt bs)]

/-- A number of a fixed width stands at the front of some bytes iff reading gives it. -/
theorem putUint_prefix_iff {width v : ℕ} {bs : List UInt8} (hv : v < 256 ^ width)
    (hroom : width ≤ bs.length) : putUint width v <+: bs ↔ getUint (bs.take width) = v := by
  have hwidth : (bs.take width).length = width := by rw [List.length_take, Nat.min_eq_left hroom]
  rw [List.prefix_iff_eq_take, length_putUint]
  constructor
  · intro h
    rw [← h, getUint_putUint, Nat.mod_eq_of_lt hv]
  · intro h
    have hput := putUint_getUint (bs.take width)
    rw [hwidth, h] at hput
    exact hput

/-- Write `data` over the bytes of `buf` from `off` on. -/
def splice (buf : List UInt8) (off : ℕ) (data : List UInt8) : List UInt8 :=
  buf.take off ++ data ++ buf.drop (off + data.length)

section Splice
variable {buf data : List UInt8} {off : ℕ}

theorem length_splice (h : off + data.length ≤ buf.length) :
    (splice buf off data).length = buf.length := by
  simp only [splice, List.length_append, List.length_take, List.length_drop]
  omega

theorem take_splice_end (h : off ≤ buf.length) :
    (splice buf off data).take (off + data.length) = buf.take off ++ data := by
  have hlen : (buf.take off ++ data).length = off + data.length := by
    rw [List.length_append, List.length_take, Nat.min_eq_left h]
  unfold splice
  rw [List.take_append_of_le_length (by omega), List.take_of_length_le (by omega)]

/-- Two writes, the second right behind the first, are one. -/
theorem splice_splice (data more : List UInt8) (h : off ≤ buf.length) :
    splice (splice buf off data) (off + data.length) more = splice buf off (data ++ more) := by
  have hlen : (buf.take off ++ data).length = off + data.length := by
    rw [List.length_append, List.length_take, Nat.min_eq_left h]
  have hdrop : (splice buf off data).drop (off + data.length + more.length) =
      buf.drop (off + data.length + more.length) := by
    rw [splice, List.drop_append, List.drop_of_length_le (by omega), List.nil_append,
      List.drop_drop]
    congr 1
    omega
  rw [splice, take_splice_end h, hdrop, splice, List.length_append]
  simp only [List.append_assoc, Nat.add_assoc]

end Splice

end Arcturus.Bytes
