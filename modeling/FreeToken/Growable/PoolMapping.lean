import FreeToken.Growable.Pool
import Mathlib.Algebra.BigOperators.Group.Finset.Basic
import Mathlib.Algebra.Order.Group.Nat
import Mathlib.Data.Nat.GCD.Basic

/-!
# What a growable pool maps

`MHAKVCache` from `_allocate_growable` on, over any calls of `commit_pages` and `decommit_pages`:
each tensor of the pool is a stack of slabs, and the same prefix of every slab is mapped. Main
results:

* `Entry.At.commit`: a segment lengthens the prefixes, and the driver accepts its ranges.
* `Built.call`: a call leaves a pool that was built by whole segments.
* `commit_decommit_exact`: what is mapped after any calls.
-/

namespace FreeToken.Growable

/-! ## Stripes -/

/-- A byte that is mapped. -/
def Vmm.Maps (v : Vmm) (x : Nat) : Prop := ∃ r ∈ v.mappings, r.1 ≤ x ∧ x < r.1 + r.2

/-- A byte of `[i * slabBytes, i * slabBytes + mapped)`, for one of the slabs. -/
def InStripes (slabs slabBytes mapped x : Nat) : Prop :=
  ∃ i < slabs, i * slabBytes ≤ x ∧ x < i * slabBytes + mapped

/-- The mapped ranges are apart, and together they are the stripes. -/
structure Striped (v : Vmm) (slabs slabBytes mapped : Nat) : Prop where
  size : ∀ r ∈ v.mappings, 0 < r.2
  apart : ∀ r ∈ v.mappings, ∀ q ∈ v.mappings, r ≠ q → Range.Apart r q
  bytes : ∀ x, v.Maps x ↔ InStripes slabs slabBytes mapped x
  total : v.mappings.sum Prod.snd = slabs * mapped

/-- The piece of each slab from `low` up to `high`. -/
def stripe (slabs slabBytes low high : Nat) : List Range :=
  (List.range slabs).map fun i : Nat => (i * slabBytes + low, high - low)

theorem mem_stripe {slabs slabBytes low high : Nat} {r : Range} :
    r ∈ stripe slabs slabBytes low high ↔
      ∃ i < slabs, (i * slabBytes + low, high - low) = r := by
  unfold stripe
  simp only [List.mem_map, List.mem_range]

/-- A slab ends where the next begins, or before. -/
theorem slab_le {slabBytes i j : Nat} (h : i < j) : i * slabBytes + slabBytes ≤ j * slabBytes := by
  rw [← Nat.succ_mul]
  exact Nat.mul_le_mul_right slabBytes h

theorem stripe_pairwise {slabs slabBytes low high : Nat} (hlow : low ≤ high)
    (hhigh : high ≤ slabBytes) :
    (stripe slabs slabBytes low high).Pairwise Range.Apart := by
  unfold stripe
  rw [List.pairwise_map]
  refine List.pairwise_lt_range.imp fun {i j} hij => Or.inl ?_
  have := @slab_le slabBytes i j hij
  simp only
  omega

instance : Std.Symm Range.Apart := ⟨fun _ _ h => h.symm⟩

/-- Ranges that share no byte are apart. -/
theorem apart_of_no_byte {r q : Range} (hr : 0 < r.2) (hq : 0 < q.2)
    (h : ∀ x, r.1 ≤ x → x < r.1 + r.2 → q.1 ≤ x → x < q.1 + q.2 → False) : Range.Apart r q := by
  unfold Range.Apart
  by_contra hnot
  exact h (max r.1 q.1) (by omega) (by omega) (by omega) (by omega)

/-- The next piece of each slab holds nothing that is mapped. -/
theorem Striped.apart_stripe {v : Vmm} {slabs slabBytes low high : Nat}
    (h : Striped v slabs slabBytes low) (hlow : low < high) (hhigh : high ≤ slabBytes) :
    ∀ r ∈ stripe slabs slabBytes low high, ∀ m ∈ v.mappings, Range.Apart r m := by
  intro r hr m hm
  obtain ⟨i, -, rfl⟩ := mem_stripe.mp hr
  refine apart_of_no_byte (by simp only; omega) (h.size m hm) fun x hx hx' hm1 hm2 => ?_
  obtain ⟨j, -, hj⟩ := (h.bytes x).mp ⟨m, hm, hm1, hm2⟩
  simp only at hx hx'
  rcases Nat.lt_trichotomy i j with hij | rfl | hij
  · have := @slab_le slabBytes i j hij
    omega
  · omega
  · have := @slab_le slabBytes j i hij
    omega

theorem sum_stripe {slabs slabBytes low high : Nat} (hlow : low < high)
    (hhigh : high ≤ slabBytes) :
    (stripe slabs slabBytes low high).toFinset.sum Prod.snd = slabs * (high - low) := by
  have hnodup : (stripe slabs slabBytes low high).Nodup := by
    refine (stripe_pairwise hlow.le hhigh).imp_of_mem fun {r q} hr _ hapart heq => ?_
    obtain ⟨i, -, rfl⟩ := mem_stripe.mp hr
    rw [← heq] at hapart
    unfold Range.Apart at hapart
    simp only at hapart
    omega
  rw [List.sum_toFinset _ hnodup]
  unfold stripe
  rw [List.map_map]
  show ((List.range slabs).map fun _ => high - low).sum = _
  rw [List.map_const', List.sum_replicate, List.length_range, Nat.nsmul_eq_mul]

/-- **A piece more of each slab.** -/
theorem Striped.extend {v : Vmm} {slabs slabBytes low high : Nat}
    (h : Striped v slabs slabBytes low) (hlow : low < high) (hhigh : high ≤ slabBytes) :
    Striped { v with mappings := v.mappings ∪ (stripe slabs slabBytes low high).toFinset }
      slabs slabBytes high := by
  have hapart := h.apart_stripe hlow hhigh
  have hmem : ∀ r, r ∈ v.mappings ∪ (stripe slabs slabBytes low high).toFinset ↔
      r ∈ v.mappings ∨ r ∈ stripe slabs slabBytes low high := by
    intro r
    rw [Finset.mem_union, List.mem_toFinset]
  refine ⟨fun r hr => ?_, fun r hr q hq hne => ?_, fun x => ?_, ?_⟩
  · rcases (hmem r).mp hr with hr | hr
    · exact h.size r hr
    · obtain ⟨i, -, rfl⟩ := mem_stripe.mp hr
      simp only
      omega
  · rcases (hmem r).mp hr with hr | hr <;> rcases (hmem q).mp hq with hq | hq
    · exact h.apart r hr q hq hne
    · exact (hapart q hq r hr).symm
    · exact hapart r hr q hq
    · exact (stripe_pairwise hlow.le hhigh).forall hr hq hne
  · constructor
    · rintro ⟨r, hr, hx, hx'⟩
      rcases (hmem r).mp hr with hr | hr
      · obtain ⟨i, hi, hlo, hhi⟩ := (h.bytes x).mp ⟨r, hr, hx, hx'⟩
        exact ⟨i, hi, hlo, by omega⟩
      · obtain ⟨i, hi, rfl⟩ := mem_stripe.mp hr
        simp only at hx hx'
        exact ⟨i, hi, by omega, by omega⟩
    · rintro ⟨i, hi, hlo, hhi⟩
      -- mapped before, or by the new stripe
      rcases Nat.lt_or_ge x (i * slabBytes + low) with hold | hnew
      · obtain ⟨r, hr, hx⟩ := (h.bytes x).mpr ⟨i, hi, hlo, hold⟩
        exact ⟨r, (hmem r).mpr (Or.inl hr), hx⟩
      · refine ⟨(i * slabBytes + low, high - low),
          (hmem _).mpr (Or.inr (mem_stripe.mpr ⟨i, hi, rfl⟩)), hnew, ?_⟩
        simp only
        omega
  · -- a range of both would be apart from itself
    have hdisj : Disjoint v.mappings (stripe slabs slabBytes low high).toFinset := by
      rw [Finset.disjoint_left]
      intro r hm hr
      have hpos := h.size r hm
      have hself := hapart r (List.mem_toFinset.mp hr) r hm
      unfold Range.Apart at hself
      omega
    show (v.mappings ∪ _).sum Prod.snd = _
    rw [Finset.sum_union hdisj, h.total, sum_stripe hlow hhigh, ← Nat.mul_add]
    congr 1
    omega

/-! ## The pool as it is built -/

/-- What `_allocate_growable` is given for one tensor. -/
structure EntrySpec where
  slabs : Nat
  /-- `page_row_elements` times the element size. -/
  rowBytes : Nat
  granularity : Nat
  rowBytes_pos : 0 < rowBytes
  granularity_pos : 0 < granularity

namespace EntrySpec

variable (s : EntrySpec)

def pagesPerGranule : Nat := s.granularity / Nat.gcd s.granularity s.rowBytes

def paddedPages (logicalPages : Nat) : Nat :=
  (logicalPages + s.pagesPerGranule - 1) / s.pagesPerGranule * s.pagesPerGranule

/-- `_allocate_growable`. -/
def allocateGrowable (logicalPages committedPages : Nat) : Entry :=
  let slabBytes := s.paddedPages logicalPages * s.rowBytes
  let mappedPerSlab :=
    ((committedPages + 1) * s.rowBytes + s.granularity - 1) / s.granularity * s.granularity
  { vmm :=
      { granularity := s.granularity
        reservedBytes := s.slabs * slabBytes
        mappings := ((List.range s.slabs).map fun i : Nat =>
          (i * slabBytes, mappedPerSlab)).toFinset }
    slabs := s.slabs
    rowBytes := s.rowBytes
    slabBytes := slabBytes
    mapped := mappedPerSlab }

end EntrySpec

/-- A growable pool before its first call. -/
structure PoolSpec where
  entries : List EntrySpec
  logicalNumPages : Nat
  growStepPages : Nat
  initialCommittedPages : Nat
  growStep_pos : 0 < growStepPages
  initial_lt : initialCommittedPages < logicalNumPages

def PoolSpec.pool (s : PoolSpec) : Pool where
  entries := s.entries.map fun e => e.allocateGrowable s.logicalNumPages s.initialCommittedPages
  logicalNumPages := s.logicalNumPages
  growStepPages := s.growStepPages
  initialCommittedPages := s.initialCommittedPages
  committedPages := s.initialCommittedPages
  growthSegments := []

/-! ## One entry -/

namespace Entry

variable {e : Entry} {logical pages b : Nat}

/-- The slabs begin at granules, and hold the pages. -/
structure Laid (e : Entry) (logical : Nat) : Prop where
  row : 0 < e.rowBytes
  granule : 0 < e.vmm.granularity
  slab : e.vmm.granularity ∣ e.slabBytes
  pages : logical * e.rowBytes ≤ e.slabBytes
  reserved : e.slabs * e.slabBytes ≤ e.vmm.reservedBytes

/-- The entry is mapped up to some pages in each slab. -/
structure At (e : Entry) (pages : Nat) : Prop where
  mapped : e.mapped = e.mappedPerSlab pages
  striped : Striped e.vmm e.slabs e.slabBytes e.mapped

theorem dvd_mappedPerSlab : e.vmm.granularity ∣ e.mappedPerSlab pages := Nat.dvd_mul_left _ _

theorem mappedPerSlab_mono (h : pages ≤ b) : e.mappedPerSlab pages ≤ e.mappedPerSlab b := by
  have hrows : (pages + 1) * e.rowBytes ≤ (b + 1) * e.rowBytes :=
    Nat.mul_le_mul_right _ (Nat.succ_le_succ h)
  exact Nat.mul_le_mul_right _ (Nat.div_le_div_right (by omega))

/-- The pages and the dummy page are within what is mapped. -/
theorem Laid.le_mappedPerSlab (h : e.Laid logical) :
    (pages + 1) * e.rowBytes ≤ e.mappedPerSlab pages := by
  have hdiv := Nat.div_add_mod ((pages + 1) * e.rowBytes + e.vmm.granularity - 1) e.vmm.granularity
  have hmod := Nat.mod_lt ((pages + 1) * e.rowBytes + e.vmm.granularity - 1) h.granule
  unfold mappedPerSlab
  rw [Nat.mul_comm] at hdiv
  omega

theorem Laid.mappedPerSlab_pos (h : e.Laid logical) : 0 < e.mappedPerSlab pages :=
  lt_of_lt_of_le (Nat.mul_pos (Nat.succ_pos pages) h.row) h.le_mappedPerSlab

/-- What is mapped does not reach into the next slab. -/
theorem Laid.mappedPerSlab_le (h : e.Laid logical) (hpages : pages < logical) :
    e.mappedPerSlab pages ≤ e.slabBytes := by
  obtain ⟨k, hk⟩ := h.slab
  have hrows : (pages + 1) * e.rowBytes ≤ e.slabBytes :=
    (Nat.mul_le_mul_right _ hpages).trans h.pages
  have hlt : (pages + 1) * e.rowBytes + e.vmm.granularity - 1 < e.vmm.granularity * (k + 1) := by
    have hgranule := h.granule
    rw [Nat.mul_succ, ← hk]
    omega
  have hchunks := Nat.lt_succ_iff.mp (Nat.div_lt_of_lt_mul hlt)
  unfold mappedPerSlab
  rw [hk, Nat.mul_comm e.vmm.granularity k]
  exact Nat.mul_le_mul_right _ hchunks

theorem ranges_eq_stripe (h : e.mapped < e.mappedPerSlab b) :
    e.ranges b = stripe e.slabs e.slabBytes e.mapped (e.mappedPerSlab b) := by
  unfold ranges
  simp only
  rw [if_pos h]
  rfl

/-- The driver accepts the next piece of each slab. -/
theorem Laid.request (h : e.Laid logical) (hmapped : e.mapped = e.mappedPerSlab pages)
    (hlt : e.mapped < e.mappedPerSlab b) (hb : b < logical) :
    e.vmm.Request (stripe e.slabs e.slabBytes e.mapped (e.mappedPerSlab b)) := by
  have hhigh := h.mappedPerSlab_le hb
  refine ⟨fun r hr => ?_, stripe_pairwise hlt.le hhigh⟩
  obtain ⟨i, hi, rfl⟩ := mem_stripe.mp hr
  have hlow : e.vmm.granularity ∣ e.mapped := hmapped ▸ dvd_mappedPerSlab
  refine ⟨by simp only; omega, ?_, ?_, ?_⟩
  · exact Nat.mod_eq_zero_of_dvd (Nat.dvd_add (Nat.dvd_mul_left_of_dvd h.slab i) hlow)
  · exact Nat.mod_eq_zero_of_dvd (Nat.dvd_sub dvd_mappedPerSlab hlow)
  · have hslab := @slab_le e.slabBytes i e.slabs hi
    have hreserved := h.reserved
    simp only
    omega

/-- **A segment maps the next piece of each slab**, and none of it was mapped. -/
theorem At.commit (h : e.At pages) (hlaid : e.Laid logical) (hle : pages ≤ b) (hb : b < logical) :
    ∃ v, Fault.none.commit e.vmm (e.ranges b) = some (.none, v) ∧
      ({ e with vmm := v, mapped := e.mappedPerSlab b } : Entry).At b ∧
      ({ e with vmm := v, mapped := e.mappedPerSlab b } : Entry).Laid logical := by
  have hmono : e.mapped ≤ e.mappedPerSlab b := h.mapped ▸ mappedPerSlab_mono hle
  rcases Nat.lt_or_eq_of_le hmono with hlt | heq
  · have hrequest := hlaid.request h.mapped hlt hb
    have hhigh := hlaid.mappedPerSlab_le hb
    have hcommit := Vmm.commitRanges_eq_some.mpr
      ⟨⟨hrequest, h.striped.apart_stripe hlt hhigh⟩, rfl⟩
    set rs := stripe e.slabs e.slabBytes e.mapped (e.mappedPerSlab b) with hrs
    refine ⟨{ e.vmm with mappings := e.vmm.mappings ∪ rs.toFinset }, ?_,
      ⟨rfl, h.striped.extend hlt hhigh⟩, ⟨hlaid.1, hlaid.2, hlaid.3, hlaid.4, hlaid.5⟩⟩
    rw [ranges_eq_stripe hlt, ← hrs]
    unfold Fault.commit
    split
    · next hnil => rw [hnil, List.toFinset_nil, Finset.union_empty]
    · rw [hcommit]
      rfl
  · -- the pages lie within the last granule
    have hnil : e.ranges b = [] := by
      unfold ranges
      simp only
      rw [if_neg (by omega)]
    refine ⟨e.vmm, by rw [hnil]; rfl, ⟨rfl, ?_⟩, ⟨hlaid.1, hlaid.2, hlaid.3, hlaid.4, hlaid.5⟩⟩
    show Striped e.vmm e.slabs e.slabBytes (e.mappedPerSlab b)
    rw [← heq]
    exact h.striped

end Entry

theorem EntrySpec.laid (s : EntrySpec) (logical committed : Nat) :
    (s.allocateGrowable logical committed).Laid logical := by
  have hgcd : 0 < Nat.gcd s.granularity s.rowBytes :=
    Nat.gcd_pos_of_pos_left _ s.granularity_pos
  have hdvd := Nat.gcd_dvd_left s.granularity s.rowBytes
  have hper : 0 < s.pagesPerGranule := Nat.div_pos (Nat.le_of_dvd s.granularity_pos hdvd) hgcd
  have hpadded : logical ≤ s.paddedPages logical := by
    have hdiv := Nat.div_add_mod (logical + s.pagesPerGranule - 1) s.pagesPerGranule
    have hmod := Nat.mod_lt (logical + s.pagesPerGranule - 1) hper
    unfold EntrySpec.paddedPages
    rw [Nat.mul_comm] at hdiv
    omega
  refine ⟨s.rowBytes_pos, s.granularity_pos, ?_, Nat.mul_le_mul_right _ hpadded, Nat.le_refl _⟩
  -- as many pages as make a whole number of granules
  obtain ⟨k, hk⟩ := Nat.gcd_dvd_right s.granularity s.rowBytes
  have hgranules : s.granularity ∣ s.pagesPerGranule * s.rowBytes := by
    refine ⟨k, ?_⟩
    calc s.pagesPerGranule * s.rowBytes
        = s.pagesPerGranule * (Nat.gcd s.granularity s.rowBytes * k) := by rw [← hk]
      _ = s.pagesPerGranule * Nat.gcd s.granularity s.rowBytes * k := by rw [Nat.mul_assoc]
      _ = s.granularity * k := by rw [EntrySpec.pagesPerGranule, Nat.div_mul_cancel hdvd]
  show s.granularity ∣ s.paddedPages logical * s.rowBytes
  rw [EntrySpec.paddedPages, Nat.mul_assoc]
  exact Nat.dvd_mul_left_of_dvd hgranules _

theorem EntrySpec.at (s : EntrySpec) {logical committed : Nat} (h : committed < logical) :
    (s.allocateGrowable logical committed).At committed := by
  have hlaid := s.laid logical committed
  have hhigh := hlaid.mappedPerSlab_le h
  have hpos : 0 < (s.allocateGrowable logical committed).mappedPerSlab committed :=
    hlaid.mappedPerSlab_pos
  -- the first ranges are a piece more than nothing
  have hnothing : Striped { (s.allocateGrowable logical committed).vmm with mappings := ∅ }
      s.slabs (s.allocateGrowable logical committed).slabBytes 0 := by
    refine ⟨by simp, by simp, fun x => ?_, by simp⟩
    simp only [Vmm.Maps, InStripes, Finset.notMem_empty, false_and, exists_false, false_iff,
      not_exists, not_and]
    omega
  refine ⟨rfl, ?_⟩
  have hextend := hnothing.extend hpos hhigh
  rw [Finset.empty_union] at hextend
  exact hextend

/-! ## The pool -/

namespace Pool

variable {p : Pool}

/-- Every entry is laid out for the pool's pages, and mapped up to those committed. -/
structure Mapped (p : Pool) : Prop where
  laid : ∀ e ∈ p.entries, e.Laid p.logicalNumPages
  at_committed : ∀ e ∈ p.entries, e.At p.committedPages

theorem commitEach_none {ts : List Track}
    (h : ∀ t ∈ ts, ∃ v, Fault.none.commit t.1 t.2 = some (.none, v)) :
    ∀ committed, ∃ vs, commitEach .none committed ts = .done .none vs := by
  induction ts with
  | nil =>
    intro committed
    exact ⟨_, rfl⟩
  | cons t ts ih =>
    intro committed
    obtain ⟨v, hv⟩ := h t List.mem_cons_self
    obtain ⟨vs, hvs⟩ := ih (fun t ht => h t (List.mem_cons_of_mem _ ht)) ((v, t.2) :: committed)
    refine ⟨vs, ?_⟩
    show commitEach .none committed ((t.1, t.2) :: ts) = _
    rw [commitEach, hv]
    exact hvs

/-- The entries of a segment that went through. -/
theorem mem_committed {entries : List Entry} {b : Nat} {vs : List Vmm}
    (h : List.Forall₂ Committed (entries.map fun e => (e.vmm, e.ranges b)) vs) {e' : Entry}
    (he : e' ∈ List.zipWith
      (fun e v => { e with vmm := v, mapped := e.mappedPerSlab b }) entries vs) :
    ∃ e ∈ entries, ∃ v, Fault.none.commit e.vmm (e.ranges b) = some (.none, v) ∧
      e' = { e with vmm := v, mapped := e.mappedPerSlab b } := by
  induction entries generalizing vs with
  | nil => cases he
  | cons e entries ih =>
    rcases vs with _ | ⟨v, vs⟩
    · cases h
    · obtain ⟨hv, h⟩ := List.forall₂_cons.mp h
      rcases List.mem_cons.mp he with rfl | he
      · exact ⟨e, List.mem_cons_self, v, hv, rfl⟩
      · obtain ⟨d, hd, hrest⟩ := ih h he
        exact ⟨d, List.mem_cons_of_mem _ hd, hrest⟩

theorem Mapped.commitSegment (h : p.Mapped) {b : Nat} (hle : p.committedPages ≤ b)
    (hb : b < p.logicalNumPages) :
    ∃ q, p.commitSegment .none b = .done .none q ∧ q.Mapped := by
  have htracks : ∀ t ∈ p.entries.map fun e => (e.vmm, e.ranges b),
      ∃ v, Fault.none.commit t.1 t.2 = some (.none, v) := by
    intro t ht
    obtain ⟨e, he, rfl⟩ := List.mem_map.mp ht
    obtain ⟨v, hv, -⟩ := (h.at_committed e he).commit (h.laid e he) hle hb
    exact ⟨v, hv⟩
  obtain ⟨vs, hvs⟩ := commitEach_none htracks []
  obtain ⟨ws, hws, hall, -⟩ := commitEach_done hvs
  rw [List.map_nil, List.reverse_nil, List.nil_append] at hws
  rw [hws] at hvs
  have hentry : ∀ e' ∈ List.zipWith
      (fun e v => { e with vmm := v, mapped := e.mappedPerSlab b }) p.entries ws,
      e'.At b ∧ e'.Laid p.logicalNumPages := by
    intro e' he'
    obtain ⟨e, he, v, hv, rfl⟩ := mem_committed hall he'
    obtain ⟨v', hv', hat⟩ := (h.at_committed e he).commit (h.laid e he) hle hb
    rw [hv] at hv'
    cases hv'
    exact hat
  unfold Pool.commitSegment
  rw [hvs]
  exact ⟨_, rfl, fun e he => (hentry e he).2, fun e he => (hentry e he).1⟩

/-- The same tensors, of which no less is mapped. -/
def Extends (entries entries' : List Entry) : Prop :=
  List.Forall₂ (fun e e' : Entry => (e'.slabs, e'.rowBytes, e'.slabBytes, e'.vmm.granularity) =
    (e.slabs, e.rowBytes, e.slabBytes, e.vmm.granularity) ∧ e.vmm.mappings ⊆ e'.vmm.mappings)
    entries entries'

theorem Extends.refl (entries : List Entry) : Extends entries entries :=
  List.forall₂_same.mpr fun _ _ => ⟨rfl, Finset.Subset.refl _⟩

theorem Extends.trans {es fs gs : List Entry} (h : Extends es fs) (h' : Extends fs gs) :
    Extends es gs := by
  unfold Extends at *
  induction h generalizing gs with
  | nil => exact h'
  | cons hone _ ih =>
    rcases gs with _ | ⟨g, gs⟩
    · cases h'
    · obtain ⟨hone', hrest⟩ := List.forall₂_cons.mp h'
      exact .cons ⟨hone'.1.trans hone.1, hone.2.trans hone'.2⟩ (ih hrest)

theorem extends_committed {entries : List Entry} {b : Nat} {vs : List Vmm}
    (h : List.Forall₂ Committed (entries.map fun e => (e.vmm, e.ranges b)) vs) :
    Extends entries (List.zipWith
      (fun e v => { e with vmm := v, mapped := e.mappedPerSlab b }) entries vs) := by
  induction entries generalizing vs with
  | nil => exact .nil
  | cons e entries ih =>
    rcases vs with _ | ⟨v, vs⟩
    · cases h
    · obtain ⟨hv, h⟩ := List.forall₂_cons.mp h
      have hmappings := Fault.commit_mappings hv
      refine .cons ⟨?_, ?_⟩ (ih h)
      · rw [hmappings]
      · rw [hmappings]
        exact Finset.subset_union_left

theorem commitRungs_extends {bs : List Nat} : ∀ {p q : Pool},
    commitRungs .none p bs = .done .none q → Extends p.entries q.entries := by
  induction bs with
  | nil =>
    intro p q h
    rw [commitRungs, Attempt.done.injEq] at h
    rw [h.2]
    exact Extends.refl _
  | cons b bs ih =>
    intro p q h
    rw [commitRungs] at h
    split at h
    · cases h
    · rename_i f r hseg
      refine Extends.trans ?_ (ih (commitRungs_none h))
      unfold Pool.commitSegment at hseg
      split at hseg
      · cases hseg
      · rename_i g vs hcommit
        obtain ⟨ws, hws, hall, -⟩ := commitEach_done hcommit
        rw [List.map_nil, List.reverse_nil, List.nil_append] at hws
        rw [Attempt.done.injEq] at hseg
        rw [← hseg.2, hws]
        exact extends_committed hall

theorem Mapped.commitRungs {bs : List Nat} : ∀ {p : Pool}, p.Mapped →
    (p.committedPages :: bs).Pairwise (· < ·) → (∀ b ∈ bs, b < p.logicalNumPages) →
    ∃ q, commitRungs .none p bs = .done .none q ∧ q.Mapped := by
  induction bs with
  | nil =>
    intro p h _ _
    exact ⟨p, rfl, h⟩
  | cons b bs ih =>
    intro p h hrising hbelow
    obtain ⟨hfirst, hrest⟩ := List.pairwise_cons.mp hrising
    obtain ⟨q, hq, hmapped⟩ := h.commitSegment (hfirst b List.mem_cons_self).le
      (hbelow b List.mem_cons_self)
    obtain ⟨hshape, hpages, -⟩ := commitSegment_done hq
    obtain ⟨r, hr, hmapped'⟩ := ih hmapped (by rw [hpages]; exact hrest)
      (fun c hc => by rw [hshape.1]; exact hbelow c (List.mem_cons_of_mem _ hc))
    refine ⟨r, ?_, hmapped'⟩
    rw [Pool.commitRungs, hq]
    exact hr

theorem rungs_pairwise {step u : Nat} (hs : 0 < step) : ∀ c,
    (c :: rungs step u c).Pairwise (· < ·) := by
  suffices h : ∀ k c, u - c ≤ k → (c :: rungs step u c).Pairwise (· < ·) from
    fun c => h (u - c) c le_rfl
  intro k
  induction k with
  | zero =>
    intro c hk
    rw [rungs_of_le (by omega)]
    simp
  | succ k ih =>
    intro c hk
    refine List.pairwise_cons.mpr ⟨fun b hb => (mem_rungs hs hb).1, ?_⟩
    rcases Nat.lt_or_ge c u with hc | hc
    · have hnext := lt_next (c := c) hs
      rw [rungs_of_lt hs hc]
      exact ih _ (by omega)
    · rw [rungs_of_le hc]
      exact .nil

theorem le_getLastD {l : List Nat} : ∀ {x : Nat}, (x :: l).Pairwise (· < ·) →
    ∀ a ∈ x :: l, a ≤ l.getLastD x := by
  induction l with
  | nil => simp
  | cons y l ih =>
    intro x h a ha
    obtain ⟨hx, hrest⟩ := List.pairwise_cons.mp h
    rw [List.getLastD_cons]
    rcases List.mem_cons.mp ha with rfl | ha
    · exact (hx y List.mem_cons_self).le.trans (ih hrest y List.mem_cons_self)
    · exact ih hrest a ha

/-! ## Calls -/

/-- A pool without a segment. -/
structure Unsegmented (base : Pool) : Prop where
  step : 0 < base.growStepPages
  segments : base.growthSegments = []
  initial : base.initialCommittedPages = base.committedPages

/-- What `base` becomes by whole segments, up to each of the boundaries `bs`. -/
structure Built (base : Pool) (bs : List Nat) (p : Pool) : Prop where
  rising : (base.committedPages :: bs).Pairwise (· < ·)
  below : ∀ b ∈ bs, b < base.logicalNumPages
  built : Pool.commitRungs .none base bs = .done .none p

/-- The targets that `decommit_pages` accepts. -/
def validBoundaries (p : Pool) : List Nat :=
  p.initialCommittedPages :: p.growthSegments.map Segment.boundary

variable {base r : Pool} {bs as : List Nat}

theorem Built.shape (h : Built base bs p) : SameShape base p := (commitRungs_shape h.built).1

theorem Built.pages (h : Built base bs p) : p.committedPages = bs.getLastD base.committedPages :=
  (commitRungs_shape h.built).2

theorem Built.validBoundaries_eq (hbase : Unsegmented base) (h : Built base bs p) :
    p.validBoundaries = base.committedPages :: bs.reverse := by
  unfold validBoundaries
  rw [commitRungs_segments h.built, hbase.segments, h.shape.2.2, hbase.initial, List.map_nil,
    List.append_nil]

theorem Built.mapped (hbase : base.Mapped) (h : Built base bs p) : p.Mapped := by
  obtain ⟨q, hq, hmapped⟩ := hbase.commitRungs h.rising h.below
  rw [h.built, Attempt.done.injEq] at hq
  exact hq.2 ▸ hmapped

/-- What was built on the way. -/
theorem Built.initialPart (h : Built base (bs ++ as) p) :
    ∃ r, Built base bs r ∧ Pool.commitRungs .none r as = .done .none p := by
  have hbuilt := h.built
  rw [commitRungs_append] at hbuilt
  split at hbuilt
  · cases hbuilt
  · rename_i f r hr
    have hrising : (base.committedPages :: bs).Pairwise (· < ·) :=
      h.rising.sublist ((List.sublist_append_left bs as).cons_cons _)
    exact ⟨r, ⟨hrising, fun b hb => h.below b (List.mem_append_left as hb), commitRungs_none hr⟩,
      commitRungs_none hbuilt⟩

/-- **What was committed is released exactly.** -/
theorem Built.decommitPages (hbase : Unsegmented base) (hr : Built base bs r)
    (h : Built base (bs ++ as) p) :
    p.decommitPages .none r.committedPages = .done .none r := by
  obtain ⟨r', hr', hrun⟩ := h.initialPart
  have heq : r' = r := by
    have := hr'.built
    rw [hr.built, Attempt.done.injEq] at this
    exact this.2.symm
  subst heq
  have hvalid := h.validBoundaries_eq hbase
  have hlast : ∀ b ∈ base.committedPages :: bs, b ≤ r'.committedPages := by
    rw [hr.pages]
    exact le_getLastD hr.rising
  have hmem : r'.committedPages ∈ base.committedPages :: bs := by
    rw [hr.pages]
    exact List.getLastD_mem_cons
  have habove : ∀ b ∈ as, r'.committedPages < b := by
    intro b hb
    have happend : (base.committedPages :: bs ++ as).Pairwise (· < ·) := h.rising
    exact (List.pairwise_append.mp happend).2.2 _ hmem b hb
  have hhead : ∀ seg ∈ r'.growthSegments.head?, seg.boundary ≤ r'.committedPages := by
    intro seg hseg
    refine hlast _ (List.mem_cons_of_mem _ ?_)
    have hboundaries := commitRungs_segments hr.built
    rw [hbase.segments, List.map_nil, List.append_nil] at hboundaries
    rw [← List.mem_reverse, ← hboundaries]
    exact List.mem_map.mpr ⟨seg, List.mem_of_mem_head? hseg, rfl⟩
  have hle : r'.committedPages ≤ p.committedPages := by
    rw [h.pages]
    exact le_getLastD h.rising _ (List.mem_cons.mpr ((List.mem_cons.mp hmem).imp_right
      (List.mem_append_left as)))
  have hfirst : base.committedPages ≤ r'.committedPages := hlast _ List.mem_cons_self
  obtain ⟨q, hq⟩ := (popSegments_spend hhead as .none habove hrun).2 .none rfl
  have hqr := popSegments_rungs hhead as habove hrun hq
  unfold Pool.decommitPages
  rw [if_neg (by rw [h.shape.2.1]; exact hbase.step.ne'), if_neg, if_neg, hq, hqr]
  · rw [not_not]
    show r'.committedPages ∈ p.validBoundaries
    rw [hvalid, List.mem_cons, List.mem_reverse, List.mem_append]
    exact (List.mem_cons.mp hmem).imp_right Or.inl
  · rw [not_not, h.shape.2.2, hbase.initial]
    exact ⟨hfirst, hle⟩

/-- The rungs of a commit, as far as it came. -/
theorem Built.append (hbase : Unsegmented base) (h : Built base bs p) {u : Nat}
    (hu : u < base.logicalNumPages) (has : as <+: rungs p.growStepPages u p.committedPages)
    (hrun : Pool.commitRungs .none p as = .done .none r) : Built base (bs ++ as) r := by
  have hstep : 0 < p.growStepPages := h.shape.2.1 ▸ hbase.step
  obtain ⟨after, hafter⟩ := has
  have hrungs : (p.committedPages :: (as ++ after)).Pairwise (· < ·) := by
    rw [hafter]
    exact rungs_pairwise hstep _
  have habove : ∀ b ∈ as, p.committedPages < b := fun b hb =>
    (List.pairwise_cons.mp hrungs).1 b (List.mem_append_left after hb)
  have has' : as.Pairwise (· < ·) :=
    (List.pairwise_append.mp (List.pairwise_cons.mp hrungs).2).1
  refine ⟨?_, fun b hb => ?_, ?_⟩
  · show (base.committedPages :: bs ++ as).Pairwise (· < ·)
    refine List.pairwise_append.mpr ⟨h.rising, has', fun a ha b hb => ?_⟩
    have hle := le_getLastD h.rising a ha
    rw [← h.pages] at hle
    exact lt_of_le_of_lt hle (habove b hb)
  · rcases List.mem_append.mp hb with hb | hb
    · exact h.below b hb
    · have hmem : b ∈ rungs p.growStepPages u p.committedPages := by
        rw [← hafter]
        exact List.mem_append_left after hb
      have := (mem_rungs hstep hmem).2.1
      omega
  · rw [commitRungs_append, h.built]
    exact hrun

/-- A call of `commit_pages`, some `commit_ranges` of which may fail, or of `decommit_pages`. -/
inductive PoolCall where
  | commit (f : Fault) (usablePages : Nat)
  | decommit (usablePages : Nat)

/-- What a call leaves, whether or not it raised. -/
def call (p : Pool) : PoolCall → Pool
  | .commit f usablePages =>
    match p.commitPages f usablePages with
    | .done _ q => q
    | .raised q => q
  | .decommit usablePages =>
    match p.decommitPages .none usablePages with
    | .done _ q => q
    | .raised q => q

def calls (p : Pool) (cs : List PoolCall) : Pool := cs.foldl call p

/-- A commit, as far as it came, adds boundaries. -/
theorem Built.commitPages (hbase : Unsegmented base) (h : Built base bs p) (f : Fault) (u : Nat) :
    ∃ as, Built base (bs ++ as) (p.call (.commit f u)) := by
  have hsame : ∀ q, q = p → ∃ as, Built base (bs ++ as) q :=
    fun q hq => ⟨[], by rw [hq, List.append_nil]; exact h⟩
  unfold call Pool.commitPages
  simp only
  split_ifs with hgrow hle hmax
  · exact hsame p rfl
  · exact hsame p rfl
  · exact hsame p rfl
  · rw [h.shape.1] at hmax
    cases hrun : Pool.commitRungs f p (rungs p.growStepPages u p.committedPages) with
    | done f' q => exact ⟨_, h.append hbase (by omega) List.prefix_rfl (commitRungs_none hrun)⟩
    | raised q =>
      obtain ⟨before, after, hsplit, hbefore⟩ := commitRungs_raised hrun
      exact ⟨_, h.append hbase (by omega) ⟨after, hsplit.symm⟩ hbefore⟩

/-- A target that is accepted is where some of the boundaries end. -/
theorem Built.split (hbase : Unsegmented base) (h : Built base bs p) {u : Nat}
    (hu : u ∈ p.validBoundaries) :
    ∃ before after r, bs = before ++ after ∧ Built base before r ∧ r.committedPages = u := by
  rw [h.validBoundaries_eq hbase, List.mem_cons, List.mem_reverse] at hu
  rcases hu with rfl | hu
  · exact ⟨[], bs, base, rfl, ⟨List.pairwise_singleton _ _, by simp, rfl⟩, rfl⟩
  · obtain ⟨before, after, rfl⟩ := List.append_of_mem hu
    rw [← List.singleton_append, ← List.append_assoc] at h ⊢
    obtain ⟨r, hr, -⟩ := h.initialPart
    refine ⟨before ++ [u], after, r, rfl, hr, ?_⟩
    rw [hr.pages, List.getLastD_eq_getLast?, List.getLast?_concat, Option.getD_some]

/-- **A call leaves a pool that was built by whole segments.** -/
theorem Built.call (hbase : Unsegmented base) (h : Built base bs p) (c : PoolCall) :
    ∃ bs', Built base bs' (p.call c) := by
  match c with
  | .commit f u =>
    obtain ⟨as, has⟩ := h.commitPages hbase f u
    exact ⟨_, has⟩
  | .decommit u =>
    by_cases hu : u ∈ p.validBoundaries
    · obtain ⟨before, after, r, rfl, hr, rfl⟩ := h.split hbase hu
      unfold Pool.call
      simp only
      rw [hr.decommitPages hbase h]
      exact ⟨before, hr⟩
    · -- the target is refused before anything happens
      have hrefused : p.decommitPages .none u = .raised p := by
        unfold Pool.decommitPages
        split_ifs with hgrow hrange hmem
        · rfl
        · exact (hu hmem).elim
        · rfl
        · rfl
      unfold Pool.call
      simp only
      rw [hrefused]
      exact ⟨bs, h⟩

theorem Built.calls (hbase : Unsegmented base) (cs : List PoolCall) :
    ∀ {bs p}, Built base bs p → ∃ bs', Built base bs' (p.calls cs) := by
  induction cs with
  | nil =>
    intro bs p h
    exact ⟨bs, h⟩
  | cons c cs ih =>
    intro bs p h
    obtain ⟨bs', h'⟩ := h.call hbase c
    exact ih h'

end Pool

/-! ## Any calls -/

variable (s : PoolSpec)

theorem PoolSpec.unsegmented : s.pool.Unsegmented := ⟨s.growStep_pos, rfl, rfl⟩

theorem PoolSpec.mapped : s.pool.Mapped := by
  refine ⟨fun e he => ?_, fun e he => ?_⟩
  · obtain ⟨spec, -, rfl⟩ := List.mem_map.mp he
    exact spec.laid _ _
  · obtain ⟨spec, -, rfl⟩ := List.mem_map.mp he
    exact spec.at s.initial_lt

/-- The same prefix of every slab is mapped: whole granules, with the committed pages and the
dummy page in them, and no more than the slab. -/
structure Entry.Exact (e : Entry) (committedPages : Nat) : Prop where
  apart : ∀ r ∈ e.vmm.mappings, ∀ q ∈ e.vmm.mappings, r ≠ q → Range.Apart r q
  bytes : ∀ x, e.vmm.Maps x ↔
    InStripes e.slabs e.slabBytes (e.mappedPerSlab committedPages) x
  inside : e.mappedPerSlab committedPages ≤ e.slabBytes
  pages : ∀ i < e.slabs, ∀ page ≤ committedPages, ∀ offset < e.rowBytes,
    e.vmm.Maps (i * e.slabBytes + page * e.rowBytes + offset)

theorem Entry.At.exact {e : Entry} {logical pages : Nat} (h : e.At pages) (hlaid : e.Laid logical)
    (hlt : pages < logical) : e.Exact pages := by
  have hbytes : ∀ x, e.vmm.Maps x ↔ InStripes e.slabs e.slabBytes (e.mappedPerSlab pages) x :=
    h.mapped ▸ h.striped.bytes
  refine ⟨h.striped.apart, hbytes, hlaid.mappedPerSlab_le hlt,
    fun i hi page hpage offset hoff => ?_⟩
  refine (hbytes _).mpr ⟨i, hi, by omega, ?_⟩
  have hrows : (page + 1) * e.rowBytes ≤ (pages + 1) * e.rowBytes :=
    Nat.mul_le_mul_right _ (Nat.succ_le_succ hpage)
  have hcover : (pages + 1) * e.rowBytes ≤ e.mappedPerSlab pages := hlaid.le_mappedPerSlab
  rw [Nat.succ_mul] at hrows
  omega

/-- What holds of a pool after any calls. -/
structure Pool.Exact (base p : Pool) : Prop where
  /-- The tensors are those it was built with, and none of the first ranges is gone. -/
  tensors : Pool.Extends base.entries p.entries
  entries : ∀ e ∈ p.entries, e.Exact p.committedPages
  bytes : p.mappedBytesForPages p.committedPages =
    (p.entries.map fun e => e.vmm.mappings.sum Prod.snd).sum
  /-- The pages are a target of `decommit_pages`, also after a commit that failed. -/
  boundary : p.committedPages ∈ p.validBoundaries
  /-- Nothing but the one failing call stops a commit: what it maps was not mapped. -/
  commits : ∀ u < p.logicalNumPages, ∃ q, p.commitPages .none u = .done .none q
  /-- The driver knows each range that a release names. -/
  decommits : ∀ u ∈ p.validBoundaries, ∃ q,
    p.decommitPages .none u = .done .none q ∧ q.committedPages = u
  /-- A release undoes a commit, or what of it was done. -/
  inverse : ∀ f u, (p.call (.commit f u)).decommitPages .none p.committedPages = .done .none p

theorem Pool.Built.exact {base p : Pool} {bs : List Nat} (hbase : base.Unsegmented)
    (hmapped : base.Mapped) (hpages : base.committedPages < base.logicalNumPages)
    (h : Built base bs p) : Pool.Exact base p := by
  have hp := h.mapped hmapped
  have hlt : p.committedPages < p.logicalNumPages := by
    rw [h.shape.1, h.pages]
    rcases List.mem_cons.mp (@List.getLastD_mem_cons _ bs base.committedPages) with heq | hmem
    · rw [heq]
      exact hpages
    · exact h.below _ hmem
  refine ⟨Pool.commitRungs_extends h.built, fun e he => ?_, ?_, ?_, fun u hu => ?_, fun u hu => ?_,
    fun f u => ?_⟩
  · exact (hp.at_committed e he).exact (hp.laid e he) hlt
  · refine congrArg List.sum (List.map_congr_left fun e he => ?_)
    have hat := hp.at_committed e he
    rw [hat.striped.total, hat.mapped]
    rfl
  · rw [h.validBoundaries_eq hbase, h.pages, List.mem_cons, List.mem_reverse]
    exact List.mem_cons.mp List.getLastD_mem_cons
  · have hstep : 0 < p.growStepPages := h.shape.2.1 ▸ hbase.step
    obtain ⟨q, hq, -⟩ := hp.commitRungs (Pool.rungs_pairwise hstep p.committedPages)
      (fun b hb => lt_of_le_of_lt (Pool.mem_rungs hstep hb).2.1 hu)
    unfold Pool.commitPages
    rw [if_neg hstep.ne']
    split_ifs
    · exact ⟨p, rfl⟩
    · omega
    · exact ⟨q, hq⟩
  · obtain ⟨before, after, r, rfl, hr, rfl⟩ := h.split hbase hu
    exact ⟨r, hr.decommitPages hbase h, rfl⟩
  · obtain ⟨as, has⟩ := h.commitPages hbase f u
    exact h.decommitPages hbase has

theorem PoolSpec.calls_built (cs : List Pool.PoolCall) :
    ∃ bs, Pool.Built s.pool bs (s.pool.calls cs) := by
  have hstart : Pool.Built s.pool [] s.pool := ⟨List.pairwise_singleton _ _, by simp, rfl⟩
  exact hstart.calls s.unsegmented cs

theorem PoolSpec.calls_exact (cs : List Pool.PoolCall) :
    Pool.Exact s.pool (s.pool.calls cs) := by
  obtain ⟨bs, hbs⟩ := s.calls_built cs
  exact hbs.exact s.unsegmented s.mapped s.initial_lt

/-- A pool keeps its pages over any calls. -/
theorem PoolSpec.calls_logicalNumPages (cs : List Pool.PoolCall) :
    (s.pool.calls cs).logicalNumPages = s.logicalNumPages := by
  obtain ⟨bs, hbs⟩ := s.calls_built cs
  exact hbs.shape.1

/-- **Commit and release are exact inverses on the mapping**, over any calls from a pool as it is
built: each tensor has the granules of the committed pages mapped in each slab and nothing else,
and the driver refuses nothing. -/
theorem commit_decommit_exact (cs : List Pool.PoolCall) :
    Pool.Exact s.pool (s.pool.calls cs) := s.calls_exact cs

end FreeToken.Growable
