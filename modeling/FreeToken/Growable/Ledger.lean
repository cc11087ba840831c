import FreeToken.Growable.FailedTransition

/-!
# The byte ledger

What is mapped of the arena at a number of usable slots, against what the planner prices it at.
Main results:

* `Bank.committedBytes_eq`: at a boundary, a bank has mapped what it is priced at.
* `Arena.sliceBytes_add`: the bytes that a resize gives or takes are the difference of the prices.
-/

namespace FreeToken.Growable

open Pool

/-! ## A resize moves what it is priced -/

/-- The gaps between the first `k` bounds add up to the last of them. -/
theorem sum_take_gaps (l : List Nat) : ∀ (x k : Nat), (x :: l).Pairwise (· ≤ ·) → k ≤ l.length →
    (((List.zipWith (fun s e => ((s, e - s) : Range)) (x :: l) l).take k).map Prod.snd).sum + x =
      (x :: l).getD k 0 := by
  induction l with
  | nil =>
    intro x k _ hk
    obtain rfl : k = 0 := by simpa using hk
    simp
  | cons y l ih =>
    intro x k hsorted hk
    cases k with
    | zero => simp
    | succ k =>
      obtain ⟨hx, hsorted⟩ := List.pairwise_cons.mp hsorted
      have hxy := hx y List.mem_cons_self
      have hrest := ih y k hsorted (by simpa using hk)
      simp only [List.zipWith_cons_cons, List.take_succ_cons, List.map_cons, List.sum_cons,
        List.getD_cons_succ]
      omega

/-- A boundary is a whole number of chunks, or the last one. -/
theorem dvd_of_mem_chunksFrom {capacity step : Nat} : ∀ {slots x : Nat}, step ∣ slots →
    x ∈ chunksFrom capacity step slots → step ∣ x ∨ x = capacity := by
  suffices h : ∀ k slots x, capacity - slots ≤ k → step ∣ slots →
      x ∈ chunksFrom capacity step slots → step ∣ x ∨ x = capacity from
    fun {slots x} => h _ slots x le_rfl
  intro k
  induction k with
  | zero =>
    intro slots x hk _ hx
    rw [chunksFrom, dif_neg (by omega)] at hx
    cases hx
  | succ k ih =>
    intro slots x hk hdvd hx
    rw [chunksFrom] at hx
    split at hx
    · rename_i hc
      rcases Nat.le_total capacity (slots + step) with hle | hle
      · -- the last chunk, and nothing behind it
        rw [Nat.min_eq_right hle, chunksFrom, dif_neg (by omega)] at hx
        exact Or.inr (List.mem_singleton.mp hx)
      · rw [Nat.min_eq_left hle] at hx
        have hnext : step ∣ slots + step := Nat.dvd_add hdvd (Nat.dvd_refl step)
        rcases List.mem_cons.mp hx with rfl | hx
        · exact Or.inl hnext
        · exact ih _ x (by omega) hnext hx
    · cases hx

theorem ArenaClass.boundary_eq (c : ArenaClass) (hs : 0 < c.stepSlots) {x : Nat}
    (hx : x ∈ c.boundaries) :
    min ((x + c.stepSlots - 1) / c.stepSlots * c.stepSlots) c.capacity = x := by
  unfold ArenaClass.boundaries at hx
  have hle : x ≤ c.capacity := by
    rcases List.mem_cons.mp hx with rfl | hx
    · exact Nat.zero_le _
    · exact (mem_chunksFrom hx).2
  have hcover : x ≤ (x + c.stepSlots - 1) / c.stepSlots * c.stepSlots := by
    have hdiv := Nat.div_add_mod (x + c.stepSlots - 1) c.stepSlots
    have hmod := Nat.mod_lt (x + c.stepSlots - 1) hs
    rw [Nat.mul_comm] at hdiv
    omega
  have hkind : c.stepSlots ∣ x ∨ x = c.capacity := by
    rcases List.mem_cons.mp hx with rfl | hx
    · exact Or.inl (Nat.dvd_zero _)
    · exact dvd_of_mem_chunksFrom (Nat.dvd_zero _) hx
  rcases hkind with ⟨q, rfl⟩ | rfl
  · have hq : (c.stepSlots * q + c.stepSlots - 1) / c.stepSlots = q := by
      rw [Nat.add_sub_assoc hs, Nat.mul_add_div hs, Nat.div_eq_of_lt (by omega), Nat.add_zero]
    rw [hq, Nat.mul_comm]
    exact Nat.min_eq_left hle
  · exact Nat.min_eq_right hcover

/-- The bytes of the chunks up to some slots. -/
def Bank.committedBytes (b : Bank) (usable : Nat) : Nat :=
  ((b.chunkRanges.take (b.cls.index usable)).map Prod.snd).sum

theorem roundUp_zero {g : Nat} (hg : 0 < g) : roundUp 0 g = 0 := by
  unfold roundUp
  rw [Nat.div_eq_of_lt (by omega), Nat.zero_mul]

/-- Where the chunks up to a boundary end. -/
theorem Bank.bound_index {b : Bank} {n : Nat} (hn : b.cls.share n ∈ b.cls.boundaries) :
    (b.cls.boundaries.map fun slots => roundUp (slots * b.rowBytes) b.vmm.granularity).getD
      (b.cls.index n) 0 = roundUp (b.cls.share n * b.rowBytes) b.vmm.granularity := by
  rw [List.getD_eq_getElem?_getD, List.getElem?_map]
  unfold ArenaClass.index
  rw [List.getElem?_idxOf hn]
  rfl

/-- What is mapped of a bank at a boundary of its class. -/
theorem Bank.committedBytes_of_mem {b : Bank} {n : Nat} (hg : 0 < b.vmm.granularity)
    (hn : b.cls.share n ∈ b.cls.boundaries) :
    b.committedBytes n = roundUp (b.cls.share n * b.rowBytes) b.vmm.granularity := by
  set size := fun slots : Nat => roundUp (slots * b.rowBytes) b.vmm.granularity with hsize
  have hbounds : (b.cls.boundaries.map size).Pairwise (· ≤ ·) := by
    rw [List.pairwise_map]
    exact ArenaClass.boundaries_pairwise.imp fun h => roundUp_mono (Nat.mul_le_mul_right _ h.le)
  have hindex := List.idxOf_lt_length_of_mem hn
  have hsum := sum_take_gaps ((chunksFrom b.cls.capacity b.cls.stepSlots 0).map size) (size 0)
    (b.cls.index n) hbounds (by
      rw [List.length_map]
      exact Nat.lt_succ_iff.mp hindex)
  have hzero : size 0 = 0 := by
    simp only [hsize, Nat.zero_mul, roundUp_zero hg]
  have hlast : (size 0 :: (chunksFrom b.cls.capacity b.cls.stepSlots 0).map size).getD
      (b.cls.index n) 0 = size (b.cls.share n) := Bank.bound_index hn
  have hgap : b.committedBytes n =
      (((List.zipWith (fun s e => ((s, e - s) : Range))
        (size 0 :: (chunksFrom b.cls.capacity b.cls.stepSlots 0).map size)
        ((chunksFrom b.cls.capacity b.cls.stepSlots 0).map size)).take
          (b.cls.index n)).map Prod.snd).sum := rfl
  have htotal : b.committedBytes n + 0 = size (b.cls.share n) := by
    rw [← hlast, ← hsum, hgap, hzero]
  exact htotal

/-- **What is mapped of a bank is what it is priced at.** -/
theorem Bank.committedBytes_eq {b : Bank} {n : Nat} (hs : 0 < b.cls.stepSlots)
    (hg : b.vmm.granularity = granule) (hn : b.cls.share n ∈ b.cls.boundaries) :
    b.committedBytes n = b.bytesAt n := by
  have hpos : 0 < b.vmm.granularity := hg ▸ Nat.two_pow_pos 21
  rw [Bank.committedBytes_of_mem hpos hn, Bank.bytesAt, ← hg, b.cls.boundary_eq hs hn]
  split
  · rename_i hzero
    rw [hzero, Nat.zero_mul, roundUp_zero hpos]
  · rfl

namespace Arena

variable {a : Arena} {n m : Nat}

/-- The driver maps in the granule that the prices are rounded to. -/
def Granular (a : Arena) : Prop := ∀ b ∈ a.banks, b.vmm.granularity = granule

theorem Granular.sized (h : a.Granular) : (a.sized n).Granular := by
  intro b hb
  obtain ⟨b', hb', rfl⟩ := List.mem_map.mp hb
  exact h b' hb'

@[simp] theorem sized_transitionBytes : (a.sized m).transitionBytes n = a.transitionBytes n := by
  unfold transitionBytes sized
  rw [List.map_map]
  rfl

@[simp] theorem sized_floorSlots : (a.sized m).floorSlots = a.floorSlots := rfl

/-- **The bytes between two boundaries are the difference of their prices.** -/
theorem sliceBytes_add (h : a.Sound) (hg : a.Granular) (hm : m ∈ a.boundaries)
    (hn : n ∈ a.boundaries) (hmn : m ≤ n) :
    a.sliceBytes m n + a.transitionBytes m = a.transitionBytes n := by
  unfold sliceBytes transitionBytes
  rw [← List.sum_map_add]
  refine congrArg List.sum (List.map_congr_left fun b hb => ?_)
  have hstep : 0 < b.cls.stepSlots := h.steps _ (mem_classRanges (h.banks b hb))
  have hlow := Bank.committedBytes_eq hstep (hg b hb) (share_mem h.steps hm (h.banks b hb))
  have hhigh := Bank.committedBytes_eq hstep (hg b hb) (share_mem h.steps hn (h.banks b hb))
  rw [← hlow, ← hhigh]
  unfold Bank.committedBytes
  rw [Bank.take_eq_append_slice (h.index_le hm hmn hb), List.map_append, List.sum_append,
    Nat.add_comm]

end Arena

end FreeToken.Growable
