import FreeToken.KvCache.RadixManager

/-!
# Pages and rows

The tokens of a list of pages and back (`_page_to_token`, `[:: page_size]`), and the pieces of a
request's row of the page table that are read and written.

## Results

* `pageBases_pageToToken`, `IsPages.tokens` — one is the inverse of the other on whole pages;
* `IsPages.split` — whole pages are cut between two of them;
* `PagedReq.slice_append`, `PagedReq.slice_write` — the pieces of a row.
-/

namespace FreeToken.KvCache

open FreeToken.Lib RadixTree

-- ---------------------------------------------------------------------------
-- Pages and their tokens
-- ---------------------------------------------------------------------------

section Pages

variable {ps : Nat}

@[simp] theorem pageToToken_nil (ps : Nat) : pageToToken ps [] = [] := rfl

@[simp] theorem pageToToken_cons (ps b : Nat) (bases : List KvIndex) :
    pageToToken ps (b :: bases) = pageSlots ps b ++ pageToToken ps bases := rfl

@[simp] theorem pageToToken_append (ps : Nat) (bases bases' : List KvIndex) :
    pageToToken ps (bases ++ bases') = pageToToken ps bases ++ pageToToken ps bases' :=
  List.flatMap_append

@[simp] theorem length_pageSlots (ps b : Nat) : (pageSlots ps b).length = ps :=
  List.length_range'

theorem length_pageToToken (ps : Nat) (bases : List KvIndex) :
    (pageToToken ps bases).length = bases.length * ps := by
  induction bases with
  | nil => simp
  | cons b bases ih =>
    rw [pageToToken_cons, List.length_append, ih, length_pageSlots, List.length_cons,
      Nat.succ_mul, Nat.add_comm]

/-- A page and then `k` more. -/
theorem succ_mul_pageSlots (ps b k : Nat) :
    (k + 1) * ps = (pageSlots ps b).length + k * ps := by
  rw [length_pageSlots, Nat.succ_mul, Nat.add_comm]

theorem take_pageToToken (ps k : Nat) (bases : List KvIndex) :
    (pageToToken ps bases).take (k * ps) = pageToToken ps (bases.take k) := by
  induction bases generalizing k with
  | nil => simp
  | cons b bases ih =>
    cases k with
    | zero => simp
    | succ k =>
      rw [pageToToken_cons, succ_mul_pageSlots ps b k, List.take_length_add_append, ih]
      rfl

theorem drop_pageToToken (ps k : Nat) (bases : List KvIndex) :
    (pageToToken ps bases).drop (k * ps) = pageToToken ps (bases.drop k) := by
  induction bases generalizing k with
  | nil => simp
  | cons b bases ih =>
    cases k with
    | zero => simp
    | succ k =>
      rw [pageToToken_cons, succ_mul_pageSlots ps b k, List.drop_length_add_append, ih]
      rfl

theorem divCeil_mul {n : Nat} (hps : 0 < ps) : divCeil (n * ps) ps = n := by
  refine Nat.le_antisymm ((divCeil_le_iff hps).mpr (Nat.le_refl _)) ?_
  have h := (divCeil_le_iff (a := n * ps) hps).mp (Nat.le_refl _)
  exact Nat.le_of_mul_le_mul_right h hps

/-- The pages of their tokens. -/
theorem pageBases_pageToToken (hps : 0 < ps) (bases : List KvIndex) :
    pageBases ps (pageToToken ps bases) = bases := by
  rw [pageBases, length_pageToToken, divCeil_mul hps]
  have hget : ∀ i, (pageToToken ps bases)[i * ps]? = bases[i]? := by
    intro i
    rw [← List.head?_drop, drop_pageToToken, ← List.head?_drop]
    cases bases.drop i with
    | nil => rfl
    | cons b rest =>
      obtain ⟨n, rfl⟩ := Nat.exists_eq_succ_of_ne_zero (Nat.pos_iff_ne_zero.mp hps)
      rfl
  simp only [hget]
  clear hget
  induction bases with
  | nil => rfl
  | cons b bases ih =>
    rw [List.length_cons, List.range_succ_eq_map, List.filterMap_cons, List.filterMap_map]
    exact congrArg (b :: ·) ih

/-- Whole pages. -/
def IsPages (ps : Nat) (l : List KvIndex) : Prop :=
  ∃ bases : List KvIndex, (∀ b ∈ bases, ps ∣ b) ∧ l = pageToToken ps bases

namespace IsPages

variable {l l' : List KvIndex}

theorem nil (ps : Nat) : IsPages ps [] := ⟨[], nofun, rfl⟩

theorem of_bases {bases : List KvIndex} (h : ∀ b ∈ bases, ps ∣ b) :
    IsPages ps (pageToToken ps bases) := ⟨bases, h, rfl⟩

theorem append (h : IsPages ps l) (h' : IsPages ps l') : IsPages ps (l ++ l') := by
  obtain ⟨bases, hb, rfl⟩ := h
  obtain ⟨bases', hb', rfl⟩ := h'
  refine ⟨bases ++ bases', fun b hm => ?_, (pageToToken_append _ _ _).symm⟩
  exact (List.mem_append.mp hm).elim (hb b) (hb' b)

theorem flatten {blocks : List (List KvIndex)} (h : ∀ b ∈ blocks, IsPages ps b) :
    IsPages ps blocks.flatten := by
  induction blocks with
  | nil => exact nil ps
  | cons b blocks ih =>
    rw [List.flatten_cons]
    exact (h b List.mem_cons_self).append (ih fun b hb => h b (List.mem_cons_of_mem _ hb))

/-- Pages cut between two of them. -/
theorem split (h : IsPages ps (l ++ l')) (hl : ps ∣ l.length) : IsPages ps l ∧ IsPages ps l' := by
  obtain ⟨bases, hb, heq⟩ := h
  obtain ⟨k, hk⟩ := hl
  rw [Nat.mul_comm] at hk
  constructor
  · refine ⟨bases.take k, fun b hm => hb b (List.mem_of_mem_take hm), ?_⟩
    rw [← take_pageToToken, ← heq, ← hk, List.take_left]
  · refine ⟨bases.drop k, fun b hm => hb b (List.mem_of_mem_drop hm), ?_⟩
    rw [← drop_pageToToken, ← heq, ← hk, List.drop_left]

theorem tokens (hps : 0 < ps) (h : IsPages ps l) : pageToToken ps (pageBases ps l) = l := by
  obtain ⟨bases, -, rfl⟩ := h
  rw [pageBases_pageToToken hps]

theorem bases (hps : 0 < ps) (h : IsPages ps l) : ∀ b ∈ pageBases ps l, ps ∣ b := by
  obtain ⟨bases, hb, rfl⟩ := h
  rw [pageBases_pageToToken hps]
  exact hb

/-- One page. -/
theorem page (hps : 0 < ps) (h : IsPages ps l) (hl : l.length = ps) :
    ∃ b, ps ∣ b ∧ l = pageSlots ps b := by
  obtain ⟨bases, hb, rfl⟩ := h
  rw [length_pageToToken] at hl
  have hone : bases.length = 1 := Nat.eq_of_mul_eq_mul_right hps (hl.trans (Nat.one_mul ps).symm)
  obtain ⟨b, rfl⟩ := List.length_eq_one_iff.mp hone
  exact ⟨b, hb b List.mem_cons_self, List.append_nil _⟩

end IsPages

theorem le_pageCeil (hps : 0 < ps) (n : Nat) : n ≤ pageCeil ps n :=
  (divCeil_le_iff hps).mp (Nat.le_refl _)

theorem dvd_pageCeil (ps n : Nat) : ps ∣ pageCeil ps n := Nat.dvd_mul_left _ _

theorem pageCeil_mono (hps : 0 < ps) {n n' : Nat} (h : n ≤ n') : pageCeil ps n ≤ pageCeil ps n' :=
  Nat.mul_le_mul_right ps ((divCeil_le_iff hps).mpr (h.trans (le_pageCeil hps n')))

theorem pageCeil_of_dvd (hps : 0 < ps) {n : Nat} (h : ps ∣ n) : pageCeil ps n = n := by
  obtain ⟨k, rfl⟩ := h
  rw [pageCeil, Nat.mul_comm ps k, divCeil_mul hps]

end Pages

-- ---------------------------------------------------------------------------
-- Rows
-- ---------------------------------------------------------------------------

namespace PagedReq

variable {req req' : PagedReq} {a b d p : Nat} {l : List KvIndex}

@[simp] theorem length_slice (req : PagedReq) (a b : Nat) : (req.slice a b).length = b - a := by
  rw [slice, List.length_map, List.length_range']

theorem slice_append (req : PagedReq) (hab : a ≤ b) (hbd : b ≤ d) :
    req.slice a b ++ req.slice b d = req.slice a d := by
  rw [slice, slice, slice, ← List.map_append]
  have h := List.range'_append_1 (s := a) (m := b - a) (n := d - b)
  rw [show a + (b - a) = b by omega, show b - a + (d - b) = d - a by omega] at h
  rw [h]

/-- A piece of the row as the caller of an insert cuts it. -/
theorem slice_window (req : PagedReq) (hab : a ≤ b) (hbd : b ≤ d) :
    ((req.slice 0 d).take b).drop a = req.slice a b := by
  have hlen : ∀ n, (req.slice 0 n).length = n := fun n => by rw [length_slice, Nat.sub_zero]
  rw [← slice_append req (Nat.zero_le b) hbd, List.take_left' (hlen b),
    ← slice_append req (Nat.zero_le a) hab, List.drop_left' (hlen a)]

theorem slice_nil (req : PagedReq) (h : b ≤ a) : req.slice a b = [] := by
  rw [slice, Nat.sub_eq_zero_of_le h]
  rfl

theorem getElem?_slice (req : PagedReq) {i : Nat} (h : a + i < b) :
    (req.slice a b)[i]? = some (req.row (a + i)) := by
  rw [slice, List.getElem?_map, List.getElem?_range' (by omega), Nat.one_mul]
  rfl

theorem slice_congr (h : ∀ p, a ≤ p → p < b → req.row p = req'.row p) :
    req.slice a b = req'.slice a b := by
  refine List.map_congr_left fun p hp => ?_
  rw [List.mem_range'_1] at hp
  exact h p hp.1 (by omega)

theorem write_below (req : PagedReq) (l : List KvIndex) (h : p < a) :
    (req.write a l).row p = req.row p := if_neg (Nat.not_le_of_lt h)

theorem write_above (req : PagedReq) (h : a + l.length ≤ p) :
    (req.write a l).row p = req.row p := by
  show (if a ≤ p then _ else _) = _
  rw [List.getElem?_eq_none (by omega)]
  split <;> rfl

theorem write_nil (req : PagedReq) (a : Nat) : req.write a [] = req := by
  have hrow : (req.write a []).row = req.row := funext fun p => by
    show (if a ≤ p then _ else _) = _
    split <;> rfl
  exact (congrArg (fun row => { req with row := row }) hrow :)

theorem slice_write (req : PagedReq) (a : Nat) (l : List KvIndex) :
    (req.write a l).slice a (a + l.length) = l := by
  refine List.ext_getElem? fun i => ?_
  by_cases hi : i < l.length
  · rw [getElem?_slice _ (by omega)]
    show some (if a ≤ a + i then _ else _) = _
    rw [if_pos (Nat.le_add_right a i), Nat.add_sub_cancel_left, List.getElem?_eq_getElem hi]
    rfl
  · rw [List.getElem?_eq_none (by rw [length_slice]; omega), List.getElem?_eq_none (by omega)]

theorem write_slice_below (req : PagedReq) (l : List KvIndex) (h : b ≤ d) :
    (req.write d l).slice a b = req.slice a b :=
  slice_congr fun _ _ hp => write_below req l (by omega)

theorem write_slice_above (req : PagedReq) (h : d + l.length ≤ a) :
    (req.write d l).slice a b = req.slice a b :=
  slice_congr fun _ hp _ => write_above req (by omega)

end PagedReq

end FreeToken.KvCache
