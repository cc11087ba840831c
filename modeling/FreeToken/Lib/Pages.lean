import Mathlib.Data.List.Basic

/-!
# Pages and common prefixes

Rounding to a page size, and how far two sequences agree.
-/

namespace FreeToken.Lib

/-- `a` rounded down to a multiple of `b`. -/
def alignDown (a b : Nat) : Nat := a / b * b

theorem alignDown_le (a b : Nat) : alignDown a b ≤ a := Nat.div_mul_le_self a b

theorem dvd_alignDown (a b : Nat) : b ∣ alignDown a b := Nat.dvd_mul_left b (a / b)

theorem lt_alignDown_add {b : Nat} (a : Nat) (hb : 0 < b) : a < alignDown a b + b := by
  have h := Nat.lt_div_mul_add hb (a := a)
  exact h

theorem alignDown_eq_of_dvd {a b : Nat} (h : b ∣ a) : alignDown a b = a := Nat.div_mul_cancel h

/-- A multiple of `b` up to `a` is at most `a` rounded down. -/
theorem le_alignDown {a b c : Nat} (hc : b ∣ c) (h : c ≤ a) : c ≤ alignDown a b := by
  obtain ⟨k, rfl⟩ := hc
  rcases Nat.eq_zero_or_pos b with rfl | hb
  · simp
  · rw [alignDown, Nat.mul_comm b k]
    exact Nat.mul_le_mul_right b ((Nat.le_div_iff_mul_le hb).mpr (by rwa [Nat.mul_comm]))

/-- `a / b` rounded up. -/
def divCeil (a b : Nat) : Nat := (a + b - 1) / b

theorem divCeil_le_iff {a b k : Nat} (hb : 0 < b) : divCeil a b ≤ k ↔ a ≤ k * b := by
  rw [divCeil, Nat.div_le_iff_le_mul_add_pred hb, Nat.mul_comm]
  omega

theorem divCeil_zero {ps : Nat} (hps : 0 < ps) : divCeil 0 ps = 0 := by
  rw [divCeil, Nat.zero_add]
  exact Nat.div_eq_of_lt (Nat.sub_lt hps Nat.one_pos)

variable {α : Type*} [DecidableEq α]

/-- The length of the longest common prefix. -/
def commonPrefixLen : List α → List α → Nat
  | a :: as, b :: bs => if a = b then commonPrefixLen as bs + 1 else 0
  | _, _ => 0

theorem commonPrefixLen_le_left (as bs : List α) : commonPrefixLen as bs ≤ as.length := by
  fun_induction commonPrefixLen as bs with
  | case1 _ _ _ ih => rw [List.length_cons]; omega
  | case2 => exact Nat.zero_le _
  | case3 => exact Nat.zero_le _

theorem commonPrefixLen_le_right (as bs : List α) : commonPrefixLen as bs ≤ bs.length := by
  fun_induction commonPrefixLen as bs with
  | case1 _ _ _ ih => rw [List.length_cons]; omega
  | case2 => exact Nat.zero_le _
  | case3 => exact Nat.zero_le _

theorem take_commonPrefixLen (as bs : List α) :
    as.take (commonPrefixLen as bs) = bs.take (commonPrefixLen as bs) := by
  fun_induction commonPrefixLen as bs with
  | case1 _ _ _ ih => rw [List.take_succ_cons, List.take_succ_cons, ih]
  | case2 => rfl
  | case3 => simp

/-- Agreeing on the first `k` means a common prefix of at least `k`. -/
theorem le_commonPrefixLen {as bs : List α} {k : Nat} (hk : k ≤ as.length)
    (h : as.take k = bs.take k) : k ≤ commonPrefixLen as bs := by
  induction k generalizing as bs with
  | zero => exact Nat.zero_le _
  | succ k ih =>
    cases as with
    | nil => cases hk
    | cons a as =>
      cases bs with
      | nil => cases h
      | cons b bs =>
        rw [List.take_succ_cons, List.take_succ_cons, List.cons.injEq] at h
        obtain ⟨rfl, h⟩ := h
        rw [commonPrefixLen, if_pos rfl]
        exact Nat.succ_le_succ (ih (Nat.le_of_succ_le_succ hk) h)

theorem commonPrefixLen_self_append (as bs : List α) :
    commonPrefixLen as (as ++ bs) = as.length := by
  apply Nat.le_antisymm (commonPrefixLen_le_left _ _)
  exact le_commonPrefixLen (Nat.le_refl _) (by simp)

end FreeToken.Lib
