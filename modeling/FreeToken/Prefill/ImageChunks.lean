import FreeToken.Prefill.Adder
import Mathlib.Algebra.BigOperators.Group.List.Basic
import Mathlib.Algebra.GroupWithZero.Nat
import Mathlib.Data.List.Intervals
import Mathlib.Data.List.Sort

/-!
# Images in chunks

`scheduler/mm.py`: where a chunk may end so that no image is cut (`mm_chunk_end`), and which
embedding rows a chunk gathers (`plan_mm_chunk`, `plan_mm_batch`). Main results:

* `mmChunkEndLoop_cases`: how the walk over the spans ends.
* `mmChunkEnd_whole_iff`: when a chunk end leaves the images whole.
* `planMmChunk_rows`: a window gathers the rows whose tokens it holds.
* `planMm_gathers_once`: over all windows of a prompt each row comes once.
-/

namespace FreeToken.Prefill

open FreeToken.Lib

/-! ## The chunk end -/

/-- The position is strictly inside the span. -/
def Cuts (s : Nat × Nat) (p : Nat) : Prop := s.1 < p ∧ p < s.2

instance (s : Nat × Nat) (p : Nat) : Decidable (Cuts s p) := inferInstanceAs (Decidable (_ ∧ _))

/-- A chunk end that cuts no image that fits a chunk, and is aligned where it was moved. -/
structure WholeImages (items : List (List (Nat × Nat))) (chunkLo endPos align cut : Nat) :
    Prop where
  after : chunkLo < cut
  upTo : cut ≤ endPos
  whole : ∀ s ∈ items.flatten, Cuts s cut → endPos - chunkLo < s.2 - s.1
  aligned : cut ≠ endPos → align ∣ cut

/-- An aligned end before the proposed one that cuts no image. -/
def HasWholeEnd (items : List (List (Nat × Nat))) (chunkLo endPos align : Nat) : Prop :=
  ∃ m, chunkLo < m ∧ m < endPos ∧ align ∣ m ∧ ∀ s ∈ items.flatten, ¬Cuts s m

theorem mem_descendingSpans {items : List (List (Nat × Nat))} {s : Nat × Nat} :
    s ∈ descendingSpans items ↔ s ∈ items.flatten := by
  rw [descendingSpans, List.mem_mergeSort]

theorem descendingSpans_sorted (items : List (List (Nat × Nat))) :
    (descendingSpans items).Pairwise fun s t => t.1 ≤ s.1 := by
  have htrans : ∀ a b c : Nat × Nat, (b.1 < a.1 || (b.1 == a.1 && b.2 ≤ a.2)) = true →
      (c.1 < b.1 || (c.1 == b.1 && c.2 ≤ b.2)) = true →
        (c.1 < a.1 || (c.1 == a.1 && c.2 ≤ a.2)) = true := by
    intro a b c
    simp only [Bool.or_eq_true, Bool.and_eq_true, decide_eq_true_eq, beq_iff_eq]
    omega
  have htotal : ∀ a b : Nat × Nat, ((b.1 < a.1 || (b.1 == a.1 && b.2 ≤ a.2)) ||
      (a.1 < b.1 || (a.1 == b.1 && a.2 ≤ b.2))) = true := by
    intro a b
    simp only [Bool.or_eq_true, Bool.and_eq_true, decide_eq_true_eq, beq_iff_eq]
    omega
  refine (List.pairwise_mergeSort htrans htotal items.flatten).imp fun {s t} h => ?_
  simp only [Bool.or_eq_true, Bool.and_eq_true, decide_eq_true_eq, beq_iff_eq] at h
  omega

/-- The walk gives up, and then every aligned position up to where it stands is inside a span, or
it ends where no span is cut, in front of the last span it had to leave. -/
theorem mmChunkEndLoop_cases {chunkLo endPos align : Nat} {l : List (Nat × Nat)} :
    ∀ {cut : Nat}, l.Pairwise (fun s t => t.1 ≤ s.1) → chunkLo < cut →
    (mmChunkEndLoop chunkLo endPos align l cut = endPos ∧
        ∀ m, align ∣ m → chunkLo < m → m ≤ cut → ∃ s ∈ l, Cuts s m) ∨
      (chunkLo < mmChunkEndLoop chunkLo endPos align l cut ∧
        (∀ s ∈ l, ¬Cuts s (mmChunkEndLoop chunkLo endPos align l cut)) ∧
        (mmChunkEndLoop chunkLo endPos align l cut = cut ∨
          align ∣ mmChunkEndLoop chunkLo endPos align l cut ∧
            mmChunkEndLoop chunkLo endPos align l cut ≤ cut ∧
            ∃ s ∈ l, mmChunkEndLoop chunkLo endPos align l cut ≤ s.1)) := by
  induction l with
  | nil =>
    intro cut _ hcut
    exact Or.inr ⟨hcut, fun _ h => absurd h List.not_mem_nil, Or.inl rfl⟩
  | cons s l ih =>
    intro cut hdesc hcut
    obtain ⟨hfirst, hrest⟩ := List.pairwise_cons.mp hdesc
    rw [mmChunkEndLoop]
    split
    · -- the span is cut, so the end has to go in front of it
      rename_i hs
      have hback : alignDown s.1 align ≤ s.1 := alignDown_le _ _
      have hinside : ∀ m, s.1 < m → m ≤ cut → Cuts s m := fun m hm hle =>
        ⟨hm, Nat.lt_of_le_of_lt hle hs.2⟩
      split
      · -- the chunk starts inside it
        rename_i hlo
        refine Or.inl ⟨rfl, fun m _ hm hle => ⟨s, List.mem_cons_self, ?_⟩⟩
        exact hinside m (by omega) hle
      · split
        · -- the aligned position in front of it is not behind the start of the chunk
          rename_i hlow
          refine Or.inl ⟨rfl, fun m hdvd hm hle => ⟨s, List.mem_cons_self, ?_⟩⟩
          refine hinside m ?_ hle
          by_contra hnot
          have := le_alignDown hdvd (Nat.le_of_not_lt hnot)
          omega
        · -- the walk goes on from there
          rename_i hlow
          rcases ih hrest (Nat.lt_of_not_le hlow) with ⟨hend, hcuts⟩ | ⟨hafter, hfree, hmoved⟩
          · refine Or.inl ⟨hend, fun m hdvd hm hle => ?_⟩
            by_cases hin : s.1 < m
            · exact ⟨s, List.mem_cons_self, hinside m hin hle⟩
            · obtain ⟨t, ht, hcut'⟩ := hcuts m hdvd hm (le_alignDown hdvd (Nat.le_of_not_lt hin))
              exact ⟨t, List.mem_cons_of_mem s ht, hcut'⟩
          · have hle : mmChunkEndLoop chunkLo endPos align l (alignDown s.1 align) ≤
                alignDown s.1 align := by
              rcases hmoved with h | ⟨-, h, -⟩ <;> omega
            have hdvd : align ∣ mmChunkEndLoop chunkLo endPos align l (alignDown s.1 align) := by
              rcases hmoved with h | ⟨h, -, -⟩
              · rw [h]
                exact dvd_alignDown _ _
              · exact h
            refine Or.inr ⟨hafter, fun t ht => ?_,
              Or.inr ⟨hdvd, by have := hs.1; omega, s, List.mem_cons_self, by omega⟩⟩
            rcases List.mem_cons.mp ht with rfl | ht
            · exact fun hcut' => absurd hcut'.1 (by omega)
            · exact hfree t ht
    · rename_i hs
      rcases ih hrest hcut with ⟨hend, hcuts⟩ | ⟨hafter, hfree, hmoved⟩
      · refine Or.inl ⟨hend, fun m hdvd hm hle => ?_⟩
        obtain ⟨t, ht, hcut'⟩ := hcuts m hdvd hm hle
        exact ⟨t, List.mem_cons_of_mem s ht, hcut'⟩
      · refine Or.inr ⟨hafter, fun t ht => ?_, ?_⟩
        · rcases List.mem_cons.mp ht with rfl | ht
          · -- A span that was not cut starts at or behind where a later move goes.
            rcases hmoved with h | ⟨-, -, u, hu, hle⟩
            · rw [h]
              exact hs
            · exact fun hcut' => absurd hcut'.1 (by have := hfirst u hu; omega)
          · exact hfree t ht
        · rcases hmoved with h | ⟨hdvd, hle, t, ht, hlo⟩
          · exact Or.inl h
          · exact Or.inr ⟨hdvd, hle, t, List.mem_cons_of_mem s ht, hlo⟩

/-- **A chunk end leaves the images whole** exactly where there is an aligned end that does, or
every image that the proposed end cuts is too long for a chunk. -/
theorem mmChunkEnd_whole_iff (items : List (List (Nat × Nat))) (chunkLo endPos align : Nat)
    (h : chunkLo < endPos) :
    WholeImages items chunkLo endPos align (mmChunkEnd items chunkLo endPos align) ↔
      HasWholeEnd items chunkLo endPos align ∨
        ∀ s ∈ items.flatten, Cuts s endPos → endPos - chunkLo < s.2 - s.1 := by
  have hcases := @mmChunkEndLoop_cases chunkLo endPos align _ _ (descendingSpans_sorted items) h
  constructor
  · intro hwhole
    by_cases hend : mmChunkEnd items chunkLo endPos align = endPos
    · exact Or.inr fun s hs hcut => hwhole.whole s hs (by rwa [hend])
    · rcases hcases with ⟨hstay, -⟩ | ⟨hafter, hfree, -⟩
      · exact absurd hstay hend
      · exact Or.inl ⟨_, hafter, Nat.lt_of_le_of_ne hwhole.upTo hend, hwhole.aligned hend,
          fun s hs => hfree s (mem_descendingSpans.mpr hs)⟩
  · intro hcond
    rcases hcases with ⟨hstay, hcuts⟩ | ⟨hafter, hfree, hmoved⟩
    · -- the walk gave up, so there is no aligned end that cuts nothing
      have hend : mmChunkEnd items chunkLo endPos align = endPos := hstay
      rw [hend]
      refine ⟨h, Nat.le_refl _, ?_, fun hne => absurd rfl hne⟩
      rcases hcond with ⟨m, hm, hlt, hdvd, huncut⟩ | hlong
      · obtain ⟨s, hs, hcut⟩ := hcuts m hdvd hm (Nat.le_of_lt hlt)
        exact absurd hcut (huncut s (mem_descendingSpans.mp hs))
      · exact hlong
    · refine ⟨hafter, ?_, fun s hs hcut => absurd hcut (hfree s (mem_descendingSpans.mpr hs)), ?_⟩
      · rcases hmoved with hsame | ⟨-, hle, -⟩
        · exact Nat.le_of_eq hsame
        · exact hle
      · intro hne
        rcases hmoved with hsame | ⟨hdvd, -, -⟩
        · exact absurd hsame hne
        · exact hdvd

/-- Two images, the first of which the aligned end in front of the second falls into. -/
def twoImages : List (List (Nat × Nat)) := [[(0, 10)], [(12, 16)]]

theorem mmChunkEnd_whole_iff_twoImages :
    WholeImages twoImages 0 11 8 (mmChunkEnd twoImages 0 11 8) :=
  (mmChunkEnd_whole_iff twoImages 0 11 8 (by decide)).mpr (Or.inr (by decide))

/-- **A short image is cut**: the end moves in front of it and into the image before, which begins
with the chunk, and so the proposed end is taken after all. -/
theorem mmChunkEnd_twoImages : (twoImages.flatten.Pairwise fun s t => s.2 ≤ t.1) ∧
    ¬WholeImages twoImages 0 14 8 (mmChunkEnd twoImages 0 14 8) := by
  refine ⟨by decide, fun hwhole => ?_⟩
  have hafter := hwhole.after
  have hupTo := hwhole.upTo
  have haligned := hwhole.aligned
  have hlong : ¬Cuts (12, 16) (mmChunkEnd twoImages 0 14 8) := fun hcut =>
    absurd (hwhole.whole (12, 16) (by decide) hcut) (by decide)
  have hshort : ¬Cuts (0, 10) (mmChunkEnd twoImages 0 14 8) := fun hcut =>
    absurd (hwhole.whole (0, 10) (by decide) hcut) (by decide)
  simp only [Cuts] at hlong hshort
  omega

/-! ## Items -/

/-- A half-open span of tokens; `validate` refuses an empty one. -/
structure TokenSpan where
  lo : Nat
  hi : Nat
  nonempty : lo < hi

def TokenSpan.length (s : TokenSpan) : Nat := s.hi - s.lo

structure MMItem where
  hash : Int
  offsets : List TokenSpan

def MMItem.numTokens (item : MMItem) : Nat := (item.offsets.map TokenSpan.length).sum

def spans (items : List MMItem) : List TokenSpan := items.flatMap MMItem.offsets

/-! ## Gathering the rows -/

/-- A row of the gather plan. -/
structure PlanRow where
  uid : Int
  hash : Int
  rowLo : Nat
  rowHi : Nat
  numTokens : Nat
  pos : Nat

/-- What `plan_mm_chunk` has so far: the jobs, the hashes among them, and the plan. -/
structure ChunkPlan where
  jobs : List MMItem
  queued : List Int
  plan : List PlanRow

/-- One span of an item; `needsEncode` and the row of the span's first token go along. -/
def planSpan (uid : Int) (item : MMItem) (windowLo windowHi : Nat) (st : ChunkPlan × Bool × Nat)
    (s : TokenSpan) : ChunkPlan × Bool × Nat :=
  let lo := max s.lo windowLo
  let hi := min s.hi windowHi
  let rowBase := st.2.2
  if lo < hi then
    ({ jobs := if st.2.1 then st.1.jobs ++ [item] else st.1.jobs
       queued := if st.2.1 then st.1.queued ++ [item.hash] else st.1.queued
       plan := st.1.plan ++ [{
         uid := uid
         hash := item.hash
         rowLo := rowBase + lo - s.lo
         rowHi := rowBase + hi - s.lo
         numTokens := item.numTokens
         pos := lo - windowLo }] },
      false, rowBase + s.length)
  else (st.1, st.2.1, rowBase + s.length)

/-- `cached` is `encoder_cache.has`, where there is a cache. -/
def planItem (uid : Int) (windowLo windowHi : Nat) (cached : Option (Int → Bool)) (p : ChunkPlan)
    (item : MMItem) : ChunkPlan :=
  let needsEncode := !p.queued.contains item.hash && !cached.any fun has => has item.hash
  (item.offsets.foldl (planSpan uid item windowLo windowHi) (p, needsEncode, 0)).1

def planMmChunk (uid : Int) (items : List MMItem) (windowLo windowHi : Nat)
    (cached : Option (Int → Bool)) : List MMItem × List PlanRow :=
  let p := items.foldl (planItem uid windowLo windowHi cached) ⟨[], [], []⟩
  (p.jobs, p.plan)

/-- A request of a batch, which spans `[cachedLen, deviceLen)`. -/
structure MMReq where
  uid : Int
  mmItems : List MMItem
  cachedLen : Nat
  deviceLen : Nat

namespace MMReq

def extendLen (req : MMReq) : Nat := req.deviceLen - req.cachedLen

end MMReq

/-- What `plan_mm_batch` has so far, and the batch row of the next request's first token. -/
structure BatchPlan where
  jobs : List MMItem
  plan : List PlanRow
  rows : List Nat
  blockEnds : List Nat
  offset : Nat

/-- The tokens of a span that the request has in this batch end with the span. -/
def markSpan (req : MMReq) (offset : Nat) (blockEnds : List Nat) (s : TokenSpan) : List Nat :=
  let lo := max s.lo req.cachedLen
  (List.range' lo (min s.hi req.deviceLen - lo)).foldl
    (fun ends i => ends.set (offset + i - req.cachedLen) s.hi) blockEnds

def planReq (total : Nat) (cached : Option (Int → Bool)) (p : BatchPlan) (req : MMReq) :
    BatchPlan :=
  if req.mmItems = [] then { p with offset := p.offset + req.extendLen }
  else
    let chunk := planMmChunk req.uid req.mmItems req.cachedLen req.deviceLen cached
    let blockEnds := if p.blockEnds = [] then List.replicate total 0 else p.blockEnds
    { jobs := p.jobs ++ chunk.1
      plan := p.plan ++ chunk.2
      rows := p.rows ++ chunk.2.flatMap fun e => List.range' (p.offset + e.pos) (e.rowHi - e.rowLo)
      blockEnds := (spans req.mmItems).foldl (markSpan req p.offset) blockEnds
      offset := p.offset + req.extendLen }

def planMmBatch (reqs : List MMReq) (cached : Option (Int → Bool)) : BatchPlan :=
  reqs.foldl (planReq (reqs.map MMReq.extendLen).sum cached) ⟨[], [], [], [], 0⟩

/-! ## The rows of the items -/

/-- An embedding row of a request's item, with the token that it stands for. -/
structure EmbeddingRow where
  uid : Int
  hash : Int
  numTokens : Nat
  row : Nat
  token : Nat
deriving DecidableEq

/-- The rows of a span whose first token has row `base`. -/
def spanRows (uid : Int) (item : MMItem) (base : Nat) (s : TokenSpan) : List EmbeddingRow :=
  (List.Ico s.lo s.hi).map fun t => ⟨uid, item.hash, item.numTokens, base + t - s.lo, t⟩

/-- The rows of an item from its row `base` on: a span's rows follow those of the span before. -/
def rowsFrom (uid : Int) (item : MMItem) (base : Nat) : List TokenSpan → List EmbeddingRow
  | [] => []
  | s :: rest => spanRows uid item base s ++ rowsFrom uid item (base + s.length) rest

def itemRows (uid : Int) (item : MMItem) : List EmbeddingRow := rowsFrom uid item 0 item.offsets

def EmbeddingRow.source (r : EmbeddingRow) : Int × Int × Nat × Nat :=
  (r.uid, r.hash, r.numTokens, r.row)

namespace PlanRow

/-- The rows that a row of the plan names. -/
def sources (e : PlanRow) : List (Int × Int × Nat × Nat) :=
  (List.range (e.rowHi - e.rowLo)).map fun j => (e.uid, e.hash, e.numTokens, e.rowLo + j)

/-- The rows that a row of the plan gathers in a window that starts at `windowLo`: chunk position
`p` holds the token `windowLo + p`. -/
def gathered (windowLo : Nat) (e : PlanRow) : List EmbeddingRow :=
  (List.range (e.rowHi - e.rowLo)).map fun j =>
    ⟨e.uid, e.hash, e.numTokens, e.rowLo + j, windowLo + (e.pos + j)⟩

end PlanRow

/-- The windows of chunks of these lengths. -/
def windows (start : Nat) : List Nat → List (Nat × Nat)
  | [] => []
  | n :: lengths => (start, start + n) :: windows (start + n) lengths

def inWindow (lo hi : Nat) (r : EmbeddingRow) : Bool := lo ≤ r.token && r.token < hi

/-- The rows whose tokens a request has in the batch. -/
def MMReq.rows (req : MMReq) : List EmbeddingRow :=
  (req.mmItems.flatMap (itemRows req.uid)).filter (inWindow req.cachedLen req.deviceLen)

/-- The rows of a batch, each with the batch row of its token; the requests' tokens stand one
request after the other from `offset` on. -/
def placed (offset : Nat) : List MMReq → List (EmbeddingRow × Nat)
  | [] => []
  | req :: reqs =>
    req.rows.map (fun r => (r, offset + (r.token - req.cachedLen))) ++
      placed (offset + req.extendLen) reqs

section Chunk

variable (uid : Int) (item : MMItem) (lo hi : Nat)

theorem filter_Ico (a b lo hi : Nat) :
    (List.Ico a b).filter (fun t => decide (lo ≤ t) && decide (t < hi)) =
      List.Ico (max a lo) (min b hi) := by
  rw [← List.filter_filter, List.Ico.filter_lt, List.Ico.filter_le]

theorem Ico_eq_map (a b : Nat) : List.Ico a b = (List.range (b - a)).map (a + ·) := by
  rw [List.Ico, List.range_eq_range', List.map_add_range', Nat.add_zero]

/-- A window gathers the rows of the span's tokens that it holds. -/
theorem gathered_span (base : Nat) (s : TokenSpan) :
    (if max s.lo lo < min s.hi hi then
      PlanRow.gathered lo ⟨uid, item.hash, base + max s.lo lo - s.lo, base + min s.hi hi - s.lo,
        item.numTokens, max s.lo lo - lo⟩
      else []) = (spanRows uid item base s).filter (inWindow lo hi) := by
  have hfilter : (List.Ico s.lo s.hi).filter (inWindow lo hi ∘ fun t =>
      (⟨uid, item.hash, item.numTokens, base + t - s.lo, t⟩ : EmbeddingRow)) =
        List.Ico (max s.lo lo) (min s.hi hi) := filter_Ico s.lo s.hi lo hi
  rw [spanRows, List.filter_map, hfilter]
  split
  · rename_i hlt
    have hcount : base + min s.hi hi - s.lo - (base + max s.lo lo - s.lo) =
        min s.hi hi - max s.lo lo := by omega
    rw [PlanRow.gathered, Ico_eq_map, List.map_map, hcount]
    refine List.map_congr_left fun j _ => ?_
    simp only [Function.comp_apply, EmbeddingRow.mk.injEq, true_and]
    omega
  · -- the window has no token of the span
    rename_i hge
    rw [List.Ico.eq_nil_of_le (Nat.le_of_not_lt hge), List.map_nil]

theorem planSpan_rows (st : ChunkPlan × Bool × Nat) (s : TokenSpan) :
    (planSpan uid item lo hi st s).1.plan.flatMap (PlanRow.gathered lo) =
      st.1.plan.flatMap (PlanRow.gathered lo) ++
        (spanRows uid item st.2.2 s).filter (inWindow lo hi) := by
  rw [← gathered_span, planSpan]
  split
  · rw [List.flatMap_append, List.flatMap_singleton]
  · rw [List.append_nil]

theorem planSpan_base (st : ChunkPlan × Bool × Nat) (s : TokenSpan) :
    (planSpan uid item lo hi st s).2.2 = st.2.2 + s.length := by
  rw [planSpan]
  split <;> rfl

theorem planSpans_rows (l : List TokenSpan) : ∀ st : ChunkPlan × Bool × Nat,
    (l.foldl (planSpan uid item lo hi) st).1.plan.flatMap (PlanRow.gathered lo) =
      st.1.plan.flatMap (PlanRow.gathered lo) ++
        (rowsFrom uid item st.2.2 l).filter (inWindow lo hi) := by
  induction l with
  | nil => exact fun st => (List.append_nil _).symm
  | cons s l ih =>
    intro st
    rw [List.foldl_cons, ih, planSpan_rows, planSpan_base, rowsFrom, List.filter_append,
      List.append_assoc]

theorem planItem_rows (cached : Option (Int → Bool)) (p : ChunkPlan) :
    (planItem uid lo hi cached p item).plan.flatMap (PlanRow.gathered lo) =
      p.plan.flatMap (PlanRow.gathered lo) ++ (itemRows uid item).filter (inWindow lo hi) :=
  planSpans_rows uid item lo hi item.offsets _

/-- A window gathers the rows whose tokens it holds, item by item. -/
theorem planMmChunk_rows (items : List MMItem) (cached : Option (Int → Bool)) :
    (planMmChunk uid items lo hi cached).2.flatMap (PlanRow.gathered lo) =
      (items.flatMap (itemRows uid)).filter (inWindow lo hi) := by
  have hitems : ∀ (l : List MMItem) (p : ChunkPlan),
      (l.foldl (planItem uid lo hi cached) p).plan.flatMap (PlanRow.gathered lo) =
        p.plan.flatMap (PlanRow.gathered lo) ++
          (l.flatMap (itemRows uid)).filter (inWindow lo hi) := by
    intro l
    induction l with
    | nil => exact fun p => (List.append_nil _).symm
    | cons item l ih =>
      intro p
      rw [List.foldl_cons, ih, planItem_rows, List.flatMap_cons, List.filter_append,
        List.append_assoc]
  exact hitems items ⟨[], [], []⟩

end Chunk

/-! ## All windows -/

/-- Consecutive windows share the rows among them. -/
theorem windows_perm (rows : List EmbeddingRow) (lengths : List Nat) : ∀ start : Nat,
    ((windows start lengths).flatMap fun w => rows.filter (inWindow w.1 w.2)).Perm
      (rows.filter (inWindow start (start + lengths.sum))) := by
  induction lengths with
  | nil =>
    intro start
    have hnone : rows.filter (inWindow start (start + ([] : List Nat).sum)) = [] := by
      rw [List.filter_eq_nil_iff]
      intro r _ hin
      simp only [inWindow, Bool.and_eq_true, decide_eq_true_eq] at hin
      exact absurd hin.2 (Nat.not_lt.mpr hin.1)
    rw [hnone]
    exact List.Perm.refl _
  | cons n lengths ih =>
    intro start
    rw [windows, List.flatMap_cons, List.sum_cons]
    -- a row of all windows is of the first one or of a later one, by its token
    have hfirst : rows.filter (inWindow start (start + n)) =
        (rows.filter (inWindow start (start + (n + lengths.sum)))).filter
          (fun r => decide (r.token < start + n)) := by
      rw [List.filter_filter]
      refine List.filter_congr fun r _ => ?_
      rw [Bool.eq_iff_iff]
      simp only [inWindow, Bool.and_eq_true, decide_eq_true_eq]
      omega
    have hlater : rows.filter (inWindow (start + n) (start + n + lengths.sum)) =
        (rows.filter (inWindow start (start + (n + lengths.sum)))).filter
          (fun r => !decide (r.token < start + n)) := by
      rw [List.filter_filter]
      refine List.filter_congr fun r _ => ?_
      rw [Bool.eq_iff_iff]
      simp only [inWindow, Bool.and_eq_true, decide_eq_true_eq, Bool.not_eq_true',
        decide_eq_false_iff_not]
      omega
    have hrest := ih (start + n)
    rw [hlater] at hrest
    rw [hfirst]
    exact (List.Perm.append_left _ hrest).trans (List.filter_append_perm _ _)

section Items

variable (uid : Int) (item : MMItem)

theorem rowsFrom_row (l : List TokenSpan) : ∀ base : Nat,
    (rowsFrom uid item base l).map EmbeddingRow.row =
      List.range' base (l.map TokenSpan.length).sum := by
  induction l with
  | nil => exact fun base => rfl
  | cons s l ih =>
    intro base
    have hspan : (spanRows uid item base s).map EmbeddingRow.row = List.range' base s.length := by
      rw [spanRows, Ico_eq_map, List.map_map, List.map_map, List.range_eq_range']
      have hrow : ∀ j ∈ List.range' 0 (s.hi - s.lo), base + (s.lo + j) - s.lo = base + j :=
        fun j _ => by omega
      refine (List.map_congr_left hrow).trans ?_
      rw [List.map_add_range', Nat.add_zero, TokenSpan.length]
    rw [rowsFrom, List.map_append, hspan, ih, List.map_cons, List.sum_cons]
    exact List.range'_append_1

theorem rowsFrom_token (l : List TokenSpan) : ∀ base : Nat,
    (rowsFrom uid item base l).map EmbeddingRow.token =
      l.flatMap fun s => List.Ico s.lo s.hi := by
  induction l with
  | nil => exact fun base => rfl
  | cons s l ih =>
    intro base
    have hspan : (spanRows uid item base s).map EmbeddingRow.token = List.Ico s.lo s.hi := by
      rw [spanRows, List.map_map]
      exact List.map_id _
    rw [rowsFrom, List.map_append, hspan, ih, List.flatMap_cons]

/-- An item's rows are numbered through its spans. -/
theorem itemRows_row : (itemRows uid item).map EmbeddingRow.row = List.range item.numTokens := by
  rw [itemRows, rowsFrom_row, MMItem.numTokens, List.range_eq_range']

theorem itemsRows_token (items : List MMItem) :
    (items.flatMap (itemRows uid)).map EmbeddingRow.token =
      (spans items).flatMap fun s => List.Ico s.lo s.hi := by
  rw [spans, List.map_flatMap, List.flatMap_assoc]
  exact List.flatMap_congr fun item _ => rowsFrom_token uid item item.offsets 0

end Items

/-- Tokens of disjoint spans are different. -/
theorem spans_token_nodup {l : List TokenSpan}
    (h : l.Pairwise fun s t => s.hi ≤ t.lo ∨ t.hi ≤ s.lo) :
    (l.flatMap fun s => List.Ico s.lo s.hi).Nodup := by
  rw [List.nodup_flatMap]
  refine ⟨fun s _ => List.Ico.nodup s.lo s.hi, h.imp fun {s t} hst => ?_⟩
  intro i hs ht
  rw [List.Ico.mem] at hs ht
  omega

theorem itemsRows_nodup {uid : Int} {items : List MMItem}
    (h : (spans items).Pairwise fun s t => s.hi ≤ t.lo ∨ t.hi ≤ s.lo) :
    (items.flatMap (itemRows uid)).Nodup := by
  refine List.Nodup.of_map EmbeddingRow.token ?_
  rw [itemsRows_token]
  exact spans_token_nodup h

/-- A partition of the prompt has every row in one of its windows. -/
theorem itemsRows_inside {uid : Int} {items : List MMItem} {len : Nat}
    (h : ∀ s ∈ spans items, s.hi ≤ len) :
    (items.flatMap (itemRows uid)).filter (inWindow 0 (0 + len)) =
      items.flatMap (itemRows uid) := by
  rw [List.filter_eq_self]
  intro r hr
  have htoken : r.token ∈ (spans items).flatMap fun s => List.Ico s.lo s.hi := by
    rw [← itemsRows_token uid items]
    exact List.mem_map_of_mem hr
  obtain ⟨s, hs, hin⟩ := List.mem_flatMap.mp htoken
  have hhi := h s hs
  rw [List.Ico.mem] at hin
  simp only [inWindow, Bool.and_eq_true, decide_eq_true_eq]
  omega

/-! ## A batch -/

theorem gathered_source (lo : Nat) (e : PlanRow) :
    (e.gathered lo).map EmbeddingRow.source = e.sources := by
  rw [PlanRow.gathered, List.map_map]
  rfl

/-- The batch rows of a row of the plan, where its request's tokens start at `offset`. -/
theorem gathered_batchRow (lo offset : Nat) (e : PlanRow) :
    (e.gathered lo).map (fun r => offset + (r.token - lo)) =
      List.range' (offset + e.pos) (e.rowHi - e.rowLo) := by
  rw [PlanRow.gathered, List.map_map, List.range_eq_range']
  have hrow : ∀ j ∈ List.range' 0 (e.rowHi - e.rowLo),
      offset + (lo + (e.pos + j) - lo) = offset + e.pos + j := fun j _ => by omega
  refine (List.map_congr_left hrow).trans ?_
  rw [List.map_add_range', Nat.add_zero]

variable {cached : Option (Int → Bool)} {total : Nat}

theorem planReq_offset (p : BatchPlan) (req : MMReq) :
    (planReq total cached p req).offset = p.offset + req.extendLen := by
  rw [planReq]
  split <;> rfl

theorem planReq_sources (p : BatchPlan) (req : MMReq) :
    (planReq total cached p req).plan.flatMap PlanRow.sources =
      p.plan.flatMap PlanRow.sources ++ req.rows.map EmbeddingRow.source := by
  rw [planReq, MMReq.rows]
  split
  · -- a request without images plans nothing
    rename_i hnone
    rw [hnone, List.flatMap_nil, List.filter_nil, List.map_nil, List.append_nil]
  · rw [← planMmChunk_rows req.uid req.cachedLen req.deviceLen req.mmItems cached,
      List.flatMap_append, List.map_flatMap]
    simp only [gathered_source]

theorem planReq_rows (p : BatchPlan) (req : MMReq) :
    (planReq total cached p req).rows =
      p.rows ++ req.rows.map fun r => p.offset + (r.token - req.cachedLen) := by
  rw [planReq, MMReq.rows]
  split
  · rename_i hnone
    rw [hnone, List.flatMap_nil, List.filter_nil, List.map_nil, List.append_nil]
  · rw [← planMmChunk_rows req.uid req.cachedLen req.deviceLen req.mmItems cached,
      List.map_flatMap]
    simp only [gathered_batchRow]

/-- A batch gathers its requests' rows, each on the batch row of its token. -/
theorem planReqs_placed (reqs : List MMReq) : ∀ p : BatchPlan,
    (reqs.foldl (planReq total cached) p).plan.flatMap PlanRow.sources =
        p.plan.flatMap PlanRow.sources ++ (placed p.offset reqs).map (fun x => x.1.source) ∧
      (reqs.foldl (planReq total cached) p).rows =
        p.rows ++ (placed p.offset reqs).map Prod.snd := by
  induction reqs with
  | nil => exact fun p => ⟨(List.append_nil _).symm, (List.append_nil _).symm⟩
  | cons req reqs ih =>
    intro p
    obtain ⟨hsources, hrows⟩ := ih (planReq total cached p req)
    rw [List.foldl_cons, hsources, hrows, planReq_sources, planReq_rows, planReq_offset, placed,
      List.map_append, List.map_append, List.map_map, List.map_map, List.append_assoc,
      List.append_assoc]
    exact ⟨rfl, rfl⟩

/-- **Chunked image embedding gathers every row once.** Whatever windows the prompt is cut into, and
whatever the encoder cache holds at each of them, the windows' plans gather the rows of the items,
each once and at its own token; an item's rows are numbered through its spans. In a batch each row
of the plan stands on the batch row of its token. -/
theorem planMm_gathers_once (uid : Int) (items : List MMItem) (lengths : List Nat)
    (caches : Nat × Nat → Option (Int → Bool))
    (hdisjoint : (spans items).Pairwise fun s t => s.hi ≤ t.lo ∨ t.hi ≤ s.lo)
    (hprompt : ∀ s ∈ spans items, s.hi ≤ lengths.sum) :
    let gathered := (windows 0 lengths).flatMap fun w =>
      (planMmChunk uid items w.1 w.2 (caches w)).2.flatMap (PlanRow.gathered w.1)
    gathered.Perm (items.flatMap (itemRows uid)) ∧ gathered.Nodup ∧
      (∀ item ∈ items, (itemRows uid item).map EmbeddingRow.row = List.range item.numTokens) ∧
      ∀ (reqs : List MMReq) (cached : Option (Int → Bool)),
        (planMmBatch reqs cached).plan.flatMap PlanRow.sources =
            (placed 0 reqs).map (fun x => x.1.source) ∧
          (planMmBatch reqs cached).rows = (placed 0 reqs).map Prod.snd := by
  intro gathered
  have hgathered : gathered = (windows 0 lengths).flatMap fun w =>
      (items.flatMap (itemRows uid)).filter (inWindow w.1 w.2) :=
    List.flatMap_congr fun w _ => planMmChunk_rows uid w.1 w.2 items (caches w)
  have hperm : gathered.Perm (items.flatMap (itemRows uid)) := by
    have hall := windows_perm (items.flatMap (itemRows uid)) lengths 0
    rw [itemsRows_inside hprompt] at hall
    rw [hgathered]
    exact hall
  refine ⟨hperm, hperm.nodup_iff.mpr (itemsRows_nodup hdisjoint),
    fun item _ => itemRows_row uid item, fun reqs cached => ?_⟩
  exact planReqs_placed reqs ⟨[], [], [], [], 0⟩

/-- An image of two spans in three windows, which cut both of them. -/
theorem planMm_gathers_once_twoSpans :
    let item : MMItem := ⟨1, [⟨1, 4, by decide⟩, ⟨6, 9, by decide⟩]⟩
    let gathered := (windows 0 [2, 5, 3]).flatMap fun w =>
      (planMmChunk 7 [item] w.1 w.2 none).2.flatMap (PlanRow.gathered w.1)
    gathered.Perm ([item].flatMap (itemRows 7)) ∧ gathered.Nodup := by
  have h := planMm_gathers_once 7 [⟨1, [⟨1, 4, by decide⟩, ⟨6, 9, by decide⟩]⟩] [2, 5, 3]
    (fun _ => none) (by simp [spans]) (by simp [spans])
  exact ⟨h.1, h.2.1⟩

end FreeToken.Prefill
