import FreeToken.Growable.Vmm

/-!
# The growable key-value pool

`MHAKVCache.commit_pages` and `decommit_pages`: every tensor of the pool is mapped up to the same
number of pages, and grows one segment after the other. Main results:

* `commitSegment_raised`: a segment that cannot be committed leaves the pool as it was.
* `popSegments_rungs`: the segments that were committed last are released again exactly, when no
  call fails.
* `Grown.unique`: a pool is known from its committed pages.
* `Grown.decommitPages_spend`: a release fails just when the fault comes within its calls.
-/

namespace FreeToken.Growable

/-- One tensor: the allocation and its geometry. -/
structure Entry where
  vmm : Vmm
  slabs : Nat
  rowBytes : Nat
  slabBytes : Nat
  mapped : Nat
deriving DecidableEq

/-- A boundary and, for each entry, the ranges that were mapped to reach it and the bytes for
each slab before. -/
structure Segment where
  boundary : Nat
  committed : List (List Range × Nat)
deriving DecidableEq

/-- The calls of `uncommit_ranges` that a segment takes. -/
def Segment.uncommitCalls (seg : Segment) : Nat :=
  (seg.committed.filter fun c => c.1 ≠ []).length

structure Pool where
  entries : List Entry
  logicalNumPages : Nat
  growStepPages : Nat
  initialCommittedPages : Nat
  committedPages : Nat
  /-- The last one first. -/
  growthSegments : List Segment
deriving DecidableEq

namespace Entry

variable (e : Entry)

/-- `_mapped_per_slab`. -/
def mappedPerSlab (usablePages : Nat) : Nat :=
  ((usablePages + 1) * e.rowBytes + e.vmm.granularity - 1) / e.vmm.granularity * e.vmm.granularity

/-- The ranges that take the entry to a boundary, one for each slab. -/
def ranges (boundary : Nat) : List Range :=
  let newMapped := e.mappedPerSlab boundary
  if e.mapped < newMapped then
    (List.range e.slabs).map fun i : Nat => (i * e.slabBytes + e.mapped, newMapped - e.mapped)
  else []

/-- `_mapped_bytes_at`. -/
def mappedBytesAt (usablePages : Nat) : Nat := e.slabs * e.mappedPerSlab usablePages

end Entry

namespace Pool

variable (p : Pool)

/-- `mapped_bytes_for_pages` of a growable pool. -/
def mappedBytesForPages (usablePages : Nat) : Nat :=
  (p.entries.map fun e => e.mappedBytesAt usablePages).sum

def setVmms (entries : List Entry) (vmms : List Vmm) : List Entry :=
  List.zipWith (fun e v => { e with vmm := v }) entries vmms

/-- One round of the loop of `commit_pages`. -/
def commitSegment (f : Fault) (boundary : Nat) : Attempt Pool :=
  match commitEach f [] (p.entries.map fun e => (e.vmm, e.ranges boundary)) with
  | .raised vmms => .raised { p with entries := setVmms p.entries vmms }
  | .done f' vmms =>
    .done f'
      { p with
        entries := List.zipWith
          (fun e v => { e with vmm := v, mapped := e.mappedPerSlab boundary }) p.entries vmms
        growthSegments :=
          { boundary := boundary, committed := p.entries.map fun e => (e.ranges boundary, e.mapped) }
            :: p.growthSegments
        committedPages := boundary }

/-- The boundaries from `committed` pages up to `usablePages`. -/
def rungs (step usablePages committed : Nat) : List Nat :=
  if h : committed < usablePages ∧ 0 < step then
    let next := min usablePages ((committed / step + 1) * step)
    next :: rungs step usablePages next
  else []
termination_by usablePages - committed
decreasing_by
  have hlt : committed < (committed / step + 1) * step := by
    rw [Nat.mul_comm]
    exact Nat.lt_mul_div_succ committed h.2
  omega

def commitRungs (f : Fault) (p : Pool) : List Nat → Attempt Pool
  | [] => .done f p
  | boundary :: boundaries =>
    match p.commitSegment f boundary with
    | .raised p' => .raised p'
    | .done f' p' => commitRungs f' p' boundaries

/-- `commit_pages`. -/
def commitPages (f : Fault) (usablePages : Nat) : Attempt Pool :=
  if p.growStepPages = 0 then .raised p
  else if usablePages ≤ p.committedPages then .done f p
  else if p.logicalNumPages < usablePages + 1 then .raised p
  else commitRungs f p (rungs p.growStepPages usablePages p.committedPages)

/-- One round of the loop of `decommit_pages`: the segment is gone before anything of it is
unmapped, and the entries keep their geometry until all of it is. -/
def popSegment (f : Fault) (seg : Segment) (segs : List Segment) : Attempt Pool :=
  let tracks := List.zipWith (fun e c => (e.vmm, c.1)) p.entries seg.committed
  match uncommitEach f tracks.reverse with
  | .raised vmms =>
    .raised { p with entries := setVmms p.entries vmms.reverse, growthSegments := segs }
  | .done f' vmms =>
    .done f'
      { p with
        entries := List.zipWith (fun e c => { e with mapped := c.2 })
          (setVmms p.entries vmms.reverse) seg.committed
        growthSegments := segs }

def popSegments (usablePages : Nat) (f : Fault) (p : Pool) : List Segment → Attempt Pool
  | [] => .done f { p with committedPages := usablePages }
  | seg :: segs =>
    if usablePages < seg.boundary then
      match p.popSegment f seg segs with
      | .raised p' => .raised p'
      | .done f' p' => popSegments usablePages f' p' segs
    else .done f { p with committedPages := usablePages }

/-- `decommit_pages`. -/
def decommitPages (f : Fault) (usablePages : Nat) : Attempt Pool :=
  if p.growStepPages = 0 then .raised p
  else if ¬ (p.initialCommittedPages ≤ usablePages ∧ usablePages ≤ p.committedPages) then .raised p
  else if usablePages ∉ p.initialCommittedPages :: p.growthSegments.map Segment.boundary then
    .raised p
  else popSegments usablePages f p p.growthSegments

/-! ## One segment -/

variable {p}

theorem setVmms_self (entries : List Entry) :
    setVmms entries (entries.map Entry.vmm) = entries := by
  unfold setVmms
  induction entries with
  | nil => rfl
  | cons e entries ih =>
    rw [List.map_cons, List.zipWith_cons_cons, ih]

/-- A segment that cannot be committed leaves the pool as it was. -/
theorem commitSegment_raised {f : Fault} {b : Nat} {p' : Pool}
    (h : p.commitSegment f b = .raised p') : p' = p := by
  unfold commitSegment at h
  split at h
  · rename_i vmms hcommit
    have hvmms := commitEach_raised hcommit
    rw [List.map_map] at hvmms
    have hself : setVmms p.entries vmms = p.entries := by
      rw [hvmms]
      exact setVmms_self p.entries
    rw [Attempt.raised.injEq] at h
    rw [← h, hself]
  · cases h

/-- What a segment commits does not depend on what fails later. -/
theorem commitSegment_none {f f' : Fault} {b : Nat} {p' : Pool}
    (h : p.commitSegment f b = .done f' p') : p.commitSegment .none b = .done .none p' := by
  unfold commitSegment at h ⊢
  split at h
  · cases h
  · rename_i g vmms hcommit
    obtain ⟨ws, -, -, hnone⟩ := commitEach_done hcommit
    rw [hnone]
    rw [Attempt.done.injEq] at h
    rw [← h.2]

/-- The entries of a committed segment, unmapped again. -/
theorem restore_entries (b : Nat) :
    ∀ (entries : List Entry) (ws vs : List Vmm),
      List.Forall₂ Committed (entries.map fun e => (e.vmm, e.ranges b)) ws →
      List.Forall₂ (fun t v => ∃ g g', Fault.uncommit g t.1 t.2 = some (g', v))
        (List.zipWith (fun e c => (e.vmm, c.1))
          (List.zipWith (fun e v => { e with vmm := v, mapped := e.mappedPerSlab b }) entries ws)
          (entries.map fun e => (e.ranges b, e.mapped))) vs →
      List.zipWith (fun e c => { e with mapped := c.2 })
          (setVmms
            (List.zipWith (fun e v => { e with vmm := v, mapped := e.mappedPerSlab b }) entries ws)
            vs)
          (entries.map fun e => (e.ranges b, e.mapped)) = entries := by
  intro entries
  induction entries with
  | nil =>
    intro ws vs _ _
    cases ws <;> rfl
  | cons e entries ih =>
    intro ws vs hws hvs
    cases hws with
    | cons hw hws =>
      cases hvs with
      | cons hv hvs =>
        obtain ⟨g, g', hv⟩ := hv
        have hrest := ih _ _ hws hvs
        have hvmm := uncommit_of_commit hw hv
        unfold setVmms at hrest ⊢
        simp only [List.map_cons, List.zipWith_cons_cons, hrest, hvmm]

/-- The segment that was committed last is released again exactly. -/
theorem pop_commit {f f' g g' : Fault} {b : Nat} {p' q : Pool} {seg : Segment}
    {segs : List Segment} (h : p.commitSegment f b = .done f' p')
    (hsegs : p'.growthSegments = seg :: segs)
    (hpop : p'.popSegment g seg segs = .done g' q) :
    segs = p.growthSegments ∧ q = { p with committedPages := b } ∧ seg.boundary = b := by
  unfold commitSegment at h
  split at h
  · cases h
  · rename_i k ws hcommit
    obtain ⟨ws', hws, hall, -⟩ := commitEach_done hcommit
    simp only [List.map_nil, List.reverse_nil, List.nil_append] at hws
    subst hws
    rw [Attempt.done.injEq] at h
    obtain ⟨-, rfl⟩ := h
    simp only [List.cons.injEq] at hsegs
    obtain ⟨rfl, rfl⟩ := hsegs
    unfold popSegment at hpop
    simp only at hpop
    split at hpop
    · cases hpop
    · rename_i k' vs huncommit
      rw [Attempt.done.injEq] at hpop
      obtain ⟨-, rfl⟩ := hpop
      have hvs := List.forall₂_reverse_iff.mpr (uncommitEach_done huncommit)
      rw [List.reverse_reverse] at hvs
      refine ⟨rfl, ?_, rfl⟩
      rw [restore_entries b p.entries ws vs.reverse hall hvs]

/-- What stays as the pool was built. -/
def SameShape (p p' : Pool) : Prop :=
  p'.logicalNumPages = p.logicalNumPages ∧ p'.growStepPages = p.growStepPages ∧
    p'.initialCommittedPages = p.initialCommittedPages

theorem commitSegment_done {f f' : Fault} {b : Nat} {p' : Pool}
    (h : p.commitSegment f b = .done f' p') :
    SameShape p p' ∧ p'.committedPages = b ∧
      ∃ seg, p'.growthSegments = seg :: p.growthSegments ∧ seg.boundary = b := by
  unfold commitSegment at h
  split at h
  · cases h
  · rw [Attempt.done.injEq] at h
    obtain ⟨-, rfl⟩ := h
    exact ⟨⟨rfl, rfl, rfl⟩, rfl, _, rfl, rfl⟩

/-! ## Several segments -/

theorem commitRungs_append (as bs : List Nat) :
    ∀ (f : Fault) (p : Pool), commitRungs f p (as ++ bs) =
      match commitRungs f p as with
      | .raised p' => .raised p'
      | .done f' p' => commitRungs f' p' bs := by
  induction as with
  | nil =>
    intro f p
    rfl
  | cons a as ih =>
    intro f p
    simp only [List.cons_append, commitRungs]
    cases p.commitSegment f a with
    | raised p' => rfl
    | done f' p' => exact ih f' p'

theorem commitRungs_none {bs : List Nat} : ∀ {f f' : Fault} {p p' : Pool},
    commitRungs f p bs = .done f' p' → commitRungs .none p bs = .done .none p' := by
  induction bs with
  | nil =>
    intro f f' p p' h
    rw [commitRungs, Attempt.done.injEq] at h
    rw [commitRungs, h.2]
  | cons b bs ih =>
    intro f f' p p' h
    rw [commitRungs] at h ⊢
    cases hseg : p.commitSegment f b with
    | raised r =>
      rw [hseg] at h
      cases h
    | done g r =>
      rw [hseg] at h
      rw [commitSegment_none hseg]
      exact ih h

/-- A commit that fails stops after some whole segments. -/
theorem commitRungs_raised {bs : List Nat} : ∀ {f : Fault} {p p' : Pool},
    commitRungs f p bs = .raised p' →
      ∃ before after, bs = before ++ after ∧ commitRungs .none p before = .done .none p' := by
  induction bs with
  | nil =>
    intro f p p' h
    cases h
  | cons b bs ih =>
    intro f p p' h
    rw [commitRungs] at h
    cases hseg : p.commitSegment f b with
    | raised r =>
      rw [hseg, Attempt.raised.injEq] at h
      rw [← h, commitSegment_raised hseg]
      exact ⟨[], b :: bs, rfl, rfl⟩
    | done g r =>
      rw [hseg] at h
      obtain ⟨before, after, rfl, hrun⟩ := ih h
      refine ⟨b :: before, after, rfl, ?_⟩
      rw [commitRungs, commitSegment_none hseg]
      exact hrun

theorem commitRungs_shape {bs : List Nat} : ∀ {f f' : Fault} {p p' : Pool},
    commitRungs f p bs = .done f' p' →
      SameShape p p' ∧ p'.committedPages = bs.getLastD p.committedPages := by
  induction bs with
  | nil =>
    intro f f' p p' h
    rw [commitRungs, Attempt.done.injEq] at h
    rw [h.2]
    exact ⟨⟨rfl, rfl, rfl⟩, rfl⟩
  | cons b bs ih =>
    intro f f' p p' h
    rw [commitRungs] at h
    cases hseg : p.commitSegment f b with
    | raised r =>
      rw [hseg] at h
      cases h
    | done g r =>
      rw [hseg] at h
      obtain ⟨hshape, hpages, -⟩ := commitSegment_done hseg
      obtain ⟨hshape', hpages'⟩ := ih h
      refine ⟨?_, by rw [hpages', hpages, List.getLastD_cons]⟩
      unfold SameShape at *
      omega

/-- The pages are recorded when all is released, so that they do not matter before. -/
theorem popSegments_pages {u c : Nat} {segs : List Segment} : ∀ (f : Fault) (p : Pool),
    popSegments u f { p with committedPages := c } segs =
      match popSegments u f p segs with
      | .raised q => .raised { q with committedPages := c }
      | .done f' q => .done f' q := by
  induction segs with
  | nil =>
    intro f p
    rfl
  | cons seg segs ih =>
    intro f p
    unfold popSegments
    split
    · unfold popSegment
      simp only
      cases uncommitEach f
          (List.zipWith (fun e c => (e.vmm, c.1)) p.entries seg.committed).reverse with
      | raised vmms => rfl
      | done g vmms =>
        exact ih g
          { p with
            entries := List.zipWith (fun e c => { e with mapped := c.2 })
              (setVmms p.entries vmms.reverse) seg.committed
            growthSegments := segs }
    · rfl

/-- Segments that were committed above `u` are released again exactly. -/
theorem popSegments_rungs {u : Nat} (hbase : ∀ seg ∈ p.growthSegments.head?, seg.boundary ≤ u)
    (bs : List Nat) : ∀ {f f' : Fault} {p' q : Pool}, (∀ b ∈ bs, u < b) →
      commitRungs .none p bs = .done .none p' →
      popSegments u f p' p'.growthSegments = .done f' q → q = { p with committedPages := u } := by
  induction bs using List.reverseRecOn with
  | nil =>
    intro f f' p' q _ hrun hpop
    rw [commitRungs, Attempt.done.injEq] at hrun
    obtain ⟨-, rfl⟩ := hrun
    -- no segment on top is above `u`
    have hstop : popSegments u f p p.growthSegments = .done f { p with committedPages := u } := by
      cases hsegs : p.growthSegments with
      | nil =>
        rw [popSegments]
        simp only [← hsegs]
      | cons seg segs =>
        have hle := hbase seg (by rw [hsegs]; rfl)
        rw [popSegments, if_neg (by omega)]
        simp only [← hsegs]
    rw [hstop, Attempt.done.injEq] at hpop
    exact hpop.2.symm
  | append_singleton bs b ih =>
    intro f f' p' q hbs hrun hpop
    rw [commitRungs_append] at hrun
    cases hinit : commitRungs .none p bs with
    | raised r =>
      rw [hinit] at hrun
      cases hrun
    | done g r =>
      rw [hinit] at hrun
      have hinit' := commitRungs_none hinit
      simp only [commitRungs] at hrun
      cases hseg : r.commitSegment g b with
      | raised r' =>
        rw [hseg] at hrun
        cases hrun
      | done g' r' =>
        rw [hseg, Attempt.done.injEq] at hrun
        obtain ⟨-, rfl⟩ := hrun
        obtain ⟨-, -, seg, hsegs, hboundary⟩ := commitSegment_done hseg
        rw [hsegs, popSegments, if_pos (by rw [hboundary]; exact hbs b (by simp))] at hpop
        cases hone : r'.popSegment f seg r.growthSegments with
        | raised t =>
          rw [hone] at hpop
          cases hpop
        | done k t =>
          rw [hone] at hpop
          obtain ⟨-, rfl, -⟩ := pop_commit hseg hsegs hone
          simp only [popSegments_pages] at hpop
          cases hrest : popSegments u k r r.growthSegments with
          | raised t =>
            rw [hrest] at hpop
            cases hpop
          | done k' t =>
            rw [hrest, Attempt.done.injEq] at hpop
            rw [← hpop.2]
            exact ih (fun c hc => hbs c (by simp [hc])) hinit' hrest

/-! ## The calls of a release -/

/-- The calls of a release down to `usablePages`. -/
def uncommitCalls (usablePages : Nat) : List Segment → Nat
  | [] => 0
  | seg :: segs =>
    if usablePages < seg.boundary then seg.uncommitCalls + uncommitCalls usablePages segs else 0

/-- The allocations of a segment that was just committed can all be unmapped. -/
theorem tracks_commit (b : Nat) : ∀ (entries : List Entry) (ws : List Vmm),
    List.Forall₂ Committed (entries.map fun e => (e.vmm, e.ranges b)) ws →
    let tracks := List.zipWith (fun e c => (e.vmm, c.1))
      (List.zipWith (fun e v => { e with vmm := v, mapped := e.mappedPerSlab b }) entries ws)
      (entries.map fun e => (e.ranges b, e.mapped))
    (∀ t ∈ tracks, ∃ v, Fault.none.uncommit t.1 t.2 = some (.none, v)) ∧
      calls tracks = ((entries.map fun e => (e.ranges b, e.mapped)).filter
        fun c => c.1 ≠ []).length := by
  intro entries
  induction entries with
  | nil =>
    intro ws _
    exact ⟨by simp, rfl⟩
  | cons e entries ih =>
    intro ws h
    cases h with
    | cons hw h =>
      obtain ⟨hall, hcalls⟩ := ih _ h
      refine ⟨?_, ?_⟩
      · simp only [List.map_cons, List.zipWith_cons_cons, List.mem_cons, forall_eq_or_imp]
        exact ⟨⟨_, undo_commit hw⟩, hall⟩
      · simp only [List.map_cons, List.zipWith_cons_cons]
        rw [calls_cons, hcalls]
        by_cases hnil : e.ranges b = [] <;> simp [hnil, Nat.add_comm]

/-- The segment that was committed last is released unless the fault comes within it. -/
theorem popSegment_spend {f' : Fault} {b : Nat} {p' : Pool} {seg : Segment} {segs : List Segment}
    (h : p.commitSegment f' b = .done .none p') (hsegs : p'.growthSegments = seg :: segs)
    (f : Fault) :
    (f.spend seg.uncommitCalls = none →
        ∃ q, p'.popSegment f seg segs = .raised q ∧ q.growthSegments = segs) ∧
      ∀ g, f.spend seg.uncommitCalls = some g → ∃ q, p'.popSegment f seg segs = .done g q := by
  unfold commitSegment at h
  split at h
  · cases h
  · rename_i k ws hcommit
    obtain ⟨ws', hws, hall, -⟩ := commitEach_done hcommit
    simp only [List.map_nil, List.reverse_nil, List.nil_append] at hws
    subst hws
    rw [Attempt.done.injEq] at h
    obtain ⟨-, rfl⟩ := h
    simp only [List.cons.injEq] at hsegs
    obtain ⟨rfl, rfl⟩ := hsegs
    obtain ⟨htracks, hcalls⟩ := tracks_commit b p.entries ws hall
    obtain ⟨hnone, hsome⟩ := uncommitEach_spend f fun t ht => htracks t (List.mem_reverse.mp ht)
    rw [calls_reverse, hcalls] at hnone hsome
    unfold popSegment
    simp only
    refine ⟨fun hf => ?_, fun g hf => ?_⟩
    · obtain ⟨vs, hvs⟩ := hnone hf
      rw [hvs]
      exact ⟨_, rfl, rfl⟩
    · obtain ⟨vs, hvs⟩ := hsome g hf
      rw [hvs]
      exact ⟨_, rfl⟩

/-- Segments that were committed above `u` are released unless the fault comes within; then some
are lost. -/
theorem popSegments_spend {u : Nat} (hbase : ∀ seg ∈ p.growthSegments.head?, seg.boundary ≤ u)
    (bs : List Nat) : ∀ {p' : Pool} (f : Fault), (∀ b ∈ bs, u < b) →
      commitRungs .none p bs = .done .none p' →
      (f.spend (uncommitCalls u p'.growthSegments) = none →
        ∃ q, popSegments u f p' p'.growthSegments = .raised q ∧
          q.growthSegments.length < p'.growthSegments.length) ∧
      ∀ g, f.spend (uncommitCalls u p'.growthSegments) = some g →
        ∃ q, popSegments u f p' p'.growthSegments = .done g q := by
  induction bs using List.reverseRecOn with
  | nil =>
    intro p' f _ hrun
    rw [commitRungs, Attempt.done.injEq] at hrun
    obtain ⟨-, rfl⟩ := hrun
    -- no segment on top is above `u`
    have hstop : uncommitCalls u p.growthSegments = 0 ∧
        ∃ q, popSegments u f p p.growthSegments = .done f q := by
      cases hsegs : p.growthSegments with
      | nil => exact ⟨rfl, _, rfl⟩
      | cons seg segs =>
        have hle := hbase seg (by rw [hsegs]; rfl)
        unfold uncommitCalls popSegments
        rw [if_neg (by omega), if_neg (by omega)]
        exact ⟨rfl, _, rfl⟩
    obtain ⟨hcalls, q, hq⟩ := hstop
    rw [hcalls, Fault.spend_zero]
    refine ⟨fun h => (Option.some_ne_none f h).elim, fun g hg => ⟨q, ?_⟩⟩
    rw [hq, Option.some.inj hg]
  | append_singleton bs b ih =>
    intro p' f hbs hrun
    rw [commitRungs_append] at hrun
    cases hinit : commitRungs .none p bs with
    | raised r =>
      rw [hinit] at hrun
      cases hrun
    | done g r =>
      rw [hinit] at hrun
      have hinit' := commitRungs_none hinit
      simp only [commitRungs] at hrun
      cases hseg : r.commitSegment g b with
      | raised r' =>
        rw [hseg] at hrun
        cases hrun
      | done g' r' =>
        rw [hseg, Attempt.done.injEq] at hrun
        obtain ⟨rfl, rfl⟩ := hrun
        obtain ⟨-, -, seg, hsegs, hboundary⟩ := commitSegment_done hseg
        -- the segment on top is that of `b`, and the rest is what `bs` had built
        have habove : u < seg.boundary := by
          rw [hboundary]
          exact hbs b (by simp)
        obtain ⟨hnone, hsome⟩ := popSegment_spend hseg hsegs f
        rw [hsegs]
        unfold uncommitCalls popSegments
        rw [if_pos habove, if_pos habove, Fault.spend_add]
        cases hspend : f.spend seg.uncommitCalls with
        | none =>
          obtain ⟨q, hq, hlost⟩ := hnone hspend
          rw [hq]
          refine ⟨fun _ => ⟨q, rfl, by simp [hlost]⟩, fun g hg => ?_⟩
          rw [Option.bind_none] at hg
          cases hg
        | some k =>
          obtain ⟨q, hq⟩ := hsome k hspend
          obtain ⟨-, rfl, -⟩ := pop_commit hseg hsegs hq
          obtain ⟨hnone', hsome'⟩ := ih k (fun c hc => hbs c (by simp [hc])) hinit'
          rw [hq, Option.bind_some]
          simp only [popSegments_pages]
          refine ⟨fun h => ?_, fun g h => ?_⟩
          · obtain ⟨t, ht, hlost⟩ := hnone' h
            rw [ht]
            exact ⟨_, rfl, Nat.lt_succ_of_lt hlost⟩
          · obtain ⟨t, ht⟩ := hsome' g h
            rw [ht]
            exact ⟨t, rfl⟩

/-! ## A pool is known from its pages -/

theorem rungs_of_lt {step u c : Nat} (hs : 0 < step) (hc : c < u) :
    rungs step u c =
      min u ((c / step + 1) * step) :: rungs step u (min u ((c / step + 1) * step)) := by
  rw [rungs, dif_pos ⟨hc, hs⟩]

theorem rungs_of_le {step u c : Nat} (hc : u ≤ c) : rungs step u c = [] := by
  rw [rungs, dif_neg (by omega)]

theorem lt_next {step c : Nat} (hs : 0 < step) : c < (c / step + 1) * step := by
  rw [Nat.mul_comm]
  exact Nat.lt_mul_div_succ c hs

/-- A multiple of the step is not jumped over. -/
theorem next_le {step u c : Nat} (hu : step ∣ u) (hc : c < u) : (c / step + 1) * step ≤ u := by
  obtain ⟨k, rfl⟩ := hu
  have hdiv : c / step < k := Nat.div_lt_of_lt_mul hc
  rw [Nat.mul_comm]
  exact Nat.mul_le_mul_left step hdiv

/-- The boundaries above `c`, up to `u`; all but the last are multiples of the step. -/
theorem mem_rungs {step u : Nat} (hs : 0 < step) : ∀ {c b : Nat}, b ∈ rungs step u c →
    c < b ∧ b ≤ u ∧ (step ∣ b ∨ b = u) := by
  suffices h : ∀ k c b, u - c ≤ k → b ∈ rungs step u c → c < b ∧ b ≤ u ∧ (step ∣ b ∨ b = u) from
    fun {c b} => h (u - c) c b le_rfl
  intro k
  induction k with
  | zero =>
    intro c b hk hb
    rw [rungs_of_le (by omega)] at hb
    cases hb
  | succ k ih =>
    intro c b hk hb
    by_cases hc : c < u
    · have hnext := lt_next (c := c) hs
      rw [rungs_of_lt hs hc, List.mem_cons] at hb
      rcases hb with rfl | hb
      · refine ⟨by omega, by omega, ?_⟩
        rcases Nat.le_total u ((c / step + 1) * step) with h | h
        · exact Or.inr (by omega)
        · rw [Nat.min_eq_right h]
          exact Or.inl (Nat.dvd_mul_left _ _)
      · have := ih _ b (by omega) hb
        omega
    · rw [rungs_of_le (by omega)] at hb
      cases hb

/-- The way to `u` leads through each multiple of the step on it. -/
theorem rungs_append {step m u : Nat} (hs : 0 < step) (hm : step ∣ m) (hmu : m ≤ u) :
    ∀ c, c ≤ m → rungs step u c = rungs step m c ++ rungs step u m := by
  suffices h : ∀ k c, m - c ≤ k → c ≤ m → rungs step u c = rungs step m c ++ rungs step u m from
    fun c => h (m - c) c le_rfl
  intro k
  induction k with
  | zero =>
    intro c hk hc
    have hcm : c = m := by omega
    rw [hcm, rungs_of_le (Nat.le_refl m), List.nil_append]
  | succ k ih =>
    intro c hk hc
    rcases Nat.lt_or_eq_of_le hc with hlt | rfl
    · have hnext := lt_next (c := c) hs
      have hle := next_le hm hlt
      rw [rungs_of_lt hs (by omega : c < u), rungs_of_lt hs hlt, Nat.min_eq_right hle,
        Nat.min_eq_right (hle.trans hmu), ih _ (by omega) hle, List.cons_append]
    · rw [rungs_of_le (Nat.le_refl c), List.nil_append]

theorem getLastD_rungs {step u : Nat} (hs : 0 < step) :
    ∀ c, c ≤ u → (rungs step u c).getLastD c = u := by
  suffices h : ∀ k c, u - c ≤ k → c ≤ u → (rungs step u c).getLastD c = u from
    fun c => h (u - c) c le_rfl
  intro k
  induction k with
  | zero =>
    intro c hk hc
    rw [rungs_of_le (by omega)]
    simp only [List.getLastD_nil]
    omega
  | succ k ih =>
    intro c hk hc
    rcases Nat.lt_or_eq_of_le hc with hlt | rfl
    · have hnext := lt_next (c := c) hs
      rw [rungs_of_lt hs hlt, List.getLastD_cons]
      exact ih _ (by omega) (by omega)
    · rw [rungs_of_le (Nat.le_refl c), List.getLastD_nil]

/-- A pool as it is built. -/
structure Fresh (base : Pool) : Prop where
  step : 0 < base.growStepPages
  segments : base.growthSegments = []
  initial : base.initialCommittedPages = base.committedPages
  pages : base.committedPages = min (base.logicalNumPages - 1) base.growStepPages

/-- Pages the pool can stop at: whole steps, or all there are. -/
def Stop (base : Pool) (pages : Nat) : Prop :=
  base.committedPages ≤ pages ∧ pages ≤ base.logicalNumPages - 1 ∧
    (base.growStepPages ∣ pages ∨ pages = base.logicalNumPages - 1)

/-- The pool that has grown from `base` to its committed pages. -/
structure Grown (base p : Pool) : Prop where
  stop : Stop base p.committedPages
  built : commitRungs .none base
    (rungs base.growStepPages p.committedPages base.committedPages) = .done .none p

theorem Grown.shape {base : Pool} (h : Grown base p) : SameShape base p :=
  (commitRungs_shape h.built).1

theorem Fresh.grown {base : Pool} (h : Fresh base) : Grown base base where
  stop := by
    refine ⟨le_rfl, by have := h.pages; omega, ?_⟩
    rcases Nat.le_total (base.logicalNumPages - 1) base.growStepPages with hle | hle
    · exact Or.inr (by have := h.pages; omega)
    · exact Or.inl ⟨1, by have := h.pages; omega⟩
  built := by rw [rungs_of_le (Nat.le_refl _), commitRungs]

/-- **Two pools that have grown from the same one to the same pages are the same.** -/
theorem Grown.unique {base p q : Pool} (hp : Grown base p) (hq : Grown base q)
    (h : p.committedPages = q.committedPages) : p = q := by
  have hbuilt := hp.built
  rw [h, hq.built, Attempt.done.injEq] at hbuilt
  exact hbuilt.2.symm

/-- Below the last page, a stop is a whole number of steps. -/
theorem Stop.dvd {base : Pool} {m u : Nat} (hm : Stop base m) (hu : Stop base u) (h : m < u) :
    base.growStepPages ∣ m := by
  rcases hm.2.2 with hd | hd
  · exact hd
  · have := hu.2.1
    omega

/-- Growing further from a pool that has grown. -/
theorem Grown.built_append {base : Pool} (hbase : Fresh base) {u : Nat} {bs : List Nat}
    {f f' : Fault} {q : Pool} (h : Grown base p) (hu : Stop base u) (hlt : p.committedPages < u)
    (hrun : commitRungs f p bs = .done f' q) (hbs : bs = rungs base.growStepPages u p.committedPages) :
    Grown base q := by
  have hpages : q.committedPages = u := by
    rw [(commitRungs_shape hrun).2, hbs]
    exact getLastD_rungs hbase.step _ hlt.le
  refine ⟨by rw [hpages]; exact hu, ?_⟩
  rw [hpages, rungs_append hbase.step (h.stop.dvd hu hlt) hlt.le _ h.stop.1, commitRungs_append,
    h.built, ← hbs]
  exact commitRungs_none hrun

/-- A pool that has grown has grown through each stop on its way. -/
theorem Grown.through {base : Pool} (hbase : Fresh base) {m : Nat} (h : Grown base p)
    (hm : Stop base m) (hlt : m < p.committedPages) :
    ∃ q, Grown base q ∧ q.committedPages = m ∧
      commitRungs .none q (rungs base.growStepPages p.committedPages m) = .done .none p := by
  have hbuilt := h.built
  rw [rungs_append hbase.step (hm.dvd h.stop hlt) hlt.le _ hm.1, commitRungs_append] at hbuilt
  cases hq : commitRungs .none base (rungs base.growStepPages m base.committedPages) with
  | raised r =>
    rw [hq] at hbuilt
    cases hbuilt
  | done g q =>
    rw [hq] at hbuilt
    have hpages : q.committedPages = m := by
      rw [(commitRungs_shape hq).2]
      exact getLastD_rungs hbase.step _ hm.1
    have hq' := commitRungs_none hq
    exact ⟨q, ⟨by rw [hpages]; exact hm, by rw [hpages]; exact hq'⟩, hpages, commitRungs_none hbuilt⟩

/-! ## Commit and release of a pool that has grown -/

theorem commitRungs_segments {bs : List Nat} : ∀ {f f' : Fault} {p p' : Pool},
    commitRungs f p bs = .done f' p' →
      p'.growthSegments.map Segment.boundary =
        bs.reverse ++ p.growthSegments.map Segment.boundary := by
  induction bs with
  | nil =>
    intro f f' p p' h
    rw [commitRungs, Attempt.done.injEq] at h
    rw [h.2, List.reverse_nil, List.nil_append]
  | cons b bs ih =>
    intro f f' p p' h
    rw [commitRungs] at h
    cases hseg : p.commitSegment f b with
    | raised r =>
      rw [hseg] at h
      cases h
    | done g r =>
      rw [hseg] at h
      obtain ⟨-, -, seg, hsegs, hboundary⟩ := commitSegment_done hseg
      rw [ih h, hsegs, List.map_cons, hboundary]
      simp

variable {base : Pool} {u : Nat} {f f' : Fault} {q : Pool}

theorem Grown.boundaries (hbase : Fresh base) (h : Grown base p) :
    p.growthSegments.map Segment.boundary =
      (rungs base.growStepPages p.committedPages base.committedPages).reverse := by
  have := commitRungs_segments h.built
  rwa [hbase.segments, List.map_nil, List.append_nil] at this

theorem Grown.head_le (hbase : Fresh base) (h : Grown base p) :
    ∀ seg ∈ p.growthSegments.head?, seg.boundary ≤ p.committedPages := by
  intro seg hseg
  have hmem : seg.boundary ∈ p.growthSegments.map Segment.boundary :=
    List.mem_map.mpr ⟨seg, List.mem_of_mem_head? hseg, rfl⟩
  rw [h.boundaries hbase, List.mem_reverse] at hmem
  exact (mem_rungs hbase.step hmem).2.1

theorem Grown.commitPages_done (hbase : Fresh base) (h : Grown base p) (hu : Stop base u)
    (hlt : p.committedPages < u) (hrun : p.commitPages f u = .done f' q) :
    Grown base q ∧ q.committedPages = u := by
  unfold commitPages at hrun
  split_ifs at hrun
  · omega
  · rw [h.shape.2.1] at hrun
    refine ⟨h.built_append hbase hu hlt hrun rfl, ?_⟩
    rw [(commitRungs_shape hrun).2]
    exact getLastD_rungs hbase.step _ hlt.le

/-- What was committed above, when a commit fails or when what comes after it does. -/
theorem Grown.commitPages_rungs (hbase : Fresh base) (h : Grown base p)
    (hrun : p.commitPages f u = .raised q ∨ p.commitPages f u = .done f' q) :
    ∃ bs, (∀ b ∈ bs, p.committedPages < b) ∧ commitRungs .none p bs = .done .none q := by
  have hstep : 0 < p.growStepPages := h.shape.2.1 ▸ hbase.step
  have hnone : ∀ r, r = p → ∃ bs, (∀ b ∈ bs, p.committedPages < b) ∧
      commitRungs .none p bs = .done .none r :=
    fun r hr => ⟨[], by simp, by rw [hr, commitRungs]⟩
  unfold commitPages at hrun
  split_ifs at hrun
  · refine hnone q ?_
    rcases hrun with hrun | hrun
    · exact (Attempt.raised.inj hrun).symm
    · cases hrun
  · refine hnone q ?_
    rcases hrun with hrun | hrun
    · cases hrun
    · exact (Attempt.done.inj hrun).2.symm
  · refine hnone q ?_
    rcases hrun with hrun | hrun
    · exact (Attempt.raised.inj hrun).symm
    · cases hrun
  · rcases hrun with hrun | hrun
    · obtain ⟨before, after, hsplit, hbefore⟩ := commitRungs_raised hrun
      refine ⟨before, fun b hb => ?_, hbefore⟩
      exact (mem_rungs hstep (hsplit ▸ List.mem_append_left after hb)).1
    · exact ⟨_, fun b hb => (mem_rungs hstep hb).1, commitRungs_none hrun⟩

/-- A release back to where the commit began gives back the pool. -/
theorem Grown.decommit_back (hbase : Fresh base) (h : Grown base p) {bs : List Nat}
    (hbs : ∀ b ∈ bs, p.committedPages < b) (hrun : commitRungs .none p bs = .done .none q)
    {r : Pool} (hback : q.decommitPages f p.committedPages = .done f' r) : r = p := by
  unfold decommitPages at hback
  split_ifs at hback
  have := popSegments_rungs (h.head_le hbase) bs hbs hrun hback
  rw [this]

/-- Releases to a stop of the pool pass the checks. -/
theorem Grown.decommitPages_eq (hbase : Fresh base) (h : Grown base p) (hu : Stop base u)
    (hlt : u < p.committedPages) :
    p.decommitPages f u = popSegments u f p p.growthSegments := by
  have hshape := h.shape
  have hinitial := hbase.initial
  have hstep := hbase.step
  have hrange : p.initialCommittedPages ≤ u ∧ u ≤ p.committedPages := by
    rw [hshape.2.2, hinitial]
    exact ⟨hu.1, hlt.le⟩
  unfold decommitPages
  rw [if_neg (by rw [hshape.2.1]; omega), if_neg (not_not.mpr hrange), if_neg]
  rw [not_not]
  rcases Nat.lt_or_eq_of_le hu.1 with hbelow | heq
  · obtain ⟨r, hr, hpages, hrun⟩ := h.through hbase hu hlt
    refine List.mem_cons_of_mem _ ?_
    rw [commitRungs_segments hrun, hr.boundaries hbase, hpages]
    refine List.mem_append_right _ (List.mem_reverse.mpr ?_)
    -- the way to `u` ends there
    have hlast := getLastD_rungs hstep base.committedPages hu.1
    rw [rungs_of_lt hstep hbelow] at hlast ⊢
    rw [List.getLastD_cons] at hlast
    have hmem := @List.getLastD_mem_cons _ (rungs base.growStepPages u
      (min u ((base.committedPages / base.growStepPages + 1) * base.growStepPages)))
      (min u ((base.committedPages / base.growStepPages + 1) * base.growStepPages))
    rwa [hlast] at hmem
  · rw [hshape.2.2, hinitial, heq]
    exact List.mem_cons_self

theorem Grown.decommitPages_done (hbase : Fresh base) (h : Grown base p) (hu : Stop base u)
    (hlt : u < p.committedPages) (hrun : p.decommitPages f u = .done f' q) :
    Grown base q ∧ q.committedPages = u := by
  rw [h.decommitPages_eq hbase hu hlt] at hrun
  obtain ⟨r, hr, rfl, hbuilt⟩ := h.through hbase hu hlt
  have := popSegments_rungs (hr.head_le hbase) _
    (fun b hb => (mem_rungs hbase.step hb).1) hbuilt hrun
  rw [this]
  exact ⟨hr, rfl⟩

/-- A release fails just when the fault comes within its calls, and then segments are lost. -/
theorem Grown.decommitPages_spend (hbase : Fresh base) (h : Grown base p) (hu : Stop base u)
    (hlt : u < p.committedPages) (f : Fault) :
    (f.spend (uncommitCalls u p.growthSegments) = none →
        ∃ q, p.decommitPages f u = .raised q ∧
          q.growthSegments.length < p.growthSegments.length) ∧
      ∀ g, f.spend (uncommitCalls u p.growthSegments) = some g →
        ∃ q, p.decommitPages f u = .done g q := by
  rw [h.decommitPages_eq hbase hu hlt]
  obtain ⟨r, hr, rfl, hbuilt⟩ := h.through hbase hu hlt
  exact popSegments_spend (hr.head_le hbase) _ f (fun b hb => (mem_rungs hbase.step hb).1) hbuilt

end Pool

end FreeToken.Growable
