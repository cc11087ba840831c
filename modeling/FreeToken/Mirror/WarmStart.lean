import FreeToken.Mirror.Located
import Mathlib

/-!
# The warm start

`mirror_warm_start` seats residents spread over the layers from slot 0, loads every
other expert into the pool, spends the rows above the reserve on duplicates of the
coldest residents, and publishes the rest as free rows.

* `gpuPlan_length` — the plan fills the cache, or holds every expert.
* `mirrorWarmStart_located` — every expert has a copy afterwards.
* `mirrorWarmStart_reserve` — what is left free.
-/

namespace FreeToken.Mirror

open FreeToken.Lib Function

variable {β : Type} {g : Geometry}

/-! ## Sizes -/

namespace Geometry

/-- `min_reserve_rows`. -/
def minReserveRows (g : Geometry) : Nat := g.prefillBufferSlots

/-- `MirrorExpertPool.min_gpu_slots`. -/
def minGpuSlots (g : Geometry) : Nat :=
  if g.total ≤ g.capacity then 0 else g.total - g.capacity + g.reserveRows

/-- `gpu_plan`: the residents by slot. -/
def gpuPlan (g : Geometry) : List Nat :=
  let perLayer := g.cacheSize / g.numLayers
  let extra := g.cacheSize - perLayer * g.numLayers
  ((List.range g.numLayers).flatMap fun layer =>
    (List.range (min (perLayer + if layer < extra then 1 else 0) g.numExperts)).map
      (layer * g.numExperts + ·)).take g.cacheSize

end Geometry

/-! ## Loading -/

/-- `_read_row`, and the row is the expert's. -/
def readRow (data : Nat → β) (m : Mirror β) (p : Nat × Nat) : Mirror β :=
  { m with
    pool := update m.pool p.2 (data p.1)
    poolRowOfId := update m.poolRowOfId p.1 (some p.2)
    idOfPoolRow := update m.idOfPoolRow p.2 (some p.1) }

/-- The residents' bytes enter their slots through the first rows of the pool, a chunk at
a time. -/
def stageResidents (data : Nat → β) (chunk : Nat) (plan : List Nat) (m : Mirror β) : Mirror β :=
  (List.range ((plan.length + chunk - 1) / chunk)).foldl
    (fun m b =>
      let batch := (plan.drop (b * chunk)).take chunk
      let pool := batch.zipIdx.foldl (fun pool p => update pool p.2 (data p.1)) m.pool
      { m with
        pool := pool
        gpu := copyRows pool ((List.range batch.length).map fun i => (b * chunk + i, i)) m.gpu })
    m

/-- What stops a warm start. -/
inductive WarmStartError where
  /-- A step of zero over the residents: there are none, or the pool has no rows. -/
  | noChunk
  /-- The pool cannot hold the experts absent from the GPU. -/
  | tooFewRows (missing : Nat)

/-- The experts that are not in the plan. -/
def absentees (g : Geometry) (plan : List Nat) : List Nat :=
  (List.range g.total).filter (· ∉ plan)

/-- `load_initial`. -/
def loadInitial (g : Geometry) (data : Nat → β) (plan : List Nat) (m : Mirror β) :
    Except WarmStartError (Mirror β) :=
  let missing := absentees g plan
  if g.capacity < missing.length then .error (.tooFewRows missing.length)
  else .ok (missing.zipIdx.foldl (readRow data) m)

/-- The rows without an owner, in order. -/
def unownedRows (g : Geometry) (m : Mirror β) : List Nat :=
  (List.range g.capacity).filter fun row => m.idOfPoolRow row = none

/-- `free_rows[:-reserve]`, or all of it when there is no reserve. -/
def dropReserve (reserve : Nat) (freeRows : List Nat) : List Nat :=
  if reserve = 0 then freeRows
  else if reserve < freeRows.length then freeRows.take (freeRows.length - reserve)
  else []

/-- `seed_duplicates`. -/
def seedDuplicates (g : Geometry) (data : Nat → β) (coldFirst : List Nat) (m : Mirror β) :
    Mirror β :=
  (coldFirst.zip (dropReserve g.reserveRows (unownedRows g m))).foldl
    (fun m p => if (m.poolRowOfId p.1).isSome then m else readRow data m p) m

/-- `_mirror_publish_free_rows`: the stack grows with the row numbers. -/
def mirrorPublishFreeRows (g : Geometry) (m : Mirror β) : Mirror β :=
  { m with freeRows := (unownedRows g m).reverse }

/-- `id_of_slot` and `slot_for_id` hold the plan and nothing else, and no row is owned. -/
def seatPlan (plan : List Nat) (m : Mirror β) : Mirror β :=
  { m with
    idOfSlot := copyRows some (plan.zipIdx.map Prod.swap) fun _ => none
    slotForId := copyRows some plan.zipIdx fun _ => none
    poolRowOfId := fun _ => none
    idOfPoolRow := fun _ => none }

/-- `mirror_warm_start`. -/
def mirrorWarmStart (g : Geometry) (data : Nat → β) (m : Mirror β) :
    Except WarmStartError (Mirror β) :=
  let plan := g.gpuPlan
  let chunk := min g.capacity plan.length
  if chunk = 0 then .error .noChunk
  else
    (loadInitial g data plan
        (seatPlan plan (stageResidents data chunk plan (m.drainWritebacks g)))).map fun m =>
      mirrorPublishFreeRows g (seedDuplicates g data plan.reverse m)

/-! ## The plan -/

theorem mem_gpuPlan {id : Nat} (h : id ∈ g.gpuPlan) : id < g.total := by
  obtain ⟨layer, hl, hmem⟩ := List.mem_flatMap.mp (List.mem_of_mem_take h)
  obtain ⟨e, he, rfl⟩ := List.mem_map.mp hmem
  rw [List.mem_range] at hl he
  exact id_lt_total hl (by omega)

theorem gpuPlan_nodup (g : Geometry) : g.gpuPlan.Nodup := by
  refine List.Nodup.sublist (List.take_sublist _ _) (List.nodup_flatMap.mpr ⟨fun layer _ => ?_, ?_⟩)
  · exact List.nodup_range.map fun a b heq => Nat.add_left_cancel heq
  · refine List.nodup_range.imp_of_mem fun {layer layer'} _ _ hne id hid hid' => ?_
    -- two layers share no flat id
    obtain ⟨e, he, rfl⟩ := List.mem_map.mp hid
    obtain ⟨e', he', heq⟩ := List.mem_map.mp hid'
    rw [List.mem_range] at he he'
    have hdiv : ∀ l i, i < g.numExperts → (l * g.numExperts + i) / g.numExperts = l := by
      intro l i hi
      rw [Nat.mul_comm, Nat.mul_add_div (by omega), Nat.div_eq_of_lt hi, Nat.add_zero]
    have := hdiv layer e (by omega)
    rw [← heq, hdiv layer' e' (by omega)] at this
    exact hne this.symm

/-- A layer count spread evenly adds up. -/
theorem sum_spread (n perLayer extra : Nat) :
    ((List.range n).map fun layer => perLayer + if layer < extra then 1 else 0).sum =
      n * perLayer + min n extra := by
  induction n with
  | zero => simp
  | succ n ih =>
    rw [List.range_succ, List.map_append, List.sum_append, ih, Nat.succ_mul]
    by_cases h : n < extra
    · simp [h]
      omega
    · simp [h]
      omega

/-- **The plan fills the cache, or holds every expert.** -/
theorem gpuPlan_length (hl : 0 < g.numLayers) : g.gpuPlan.length = min g.cacheSize g.total := by
  have hmod := Nat.div_add_mod g.cacheSize g.numLayers
  have hlt := Nat.mod_lt g.cacheSize hl
  rw [Geometry.gpuPlan, List.length_take, List.length_flatMap]
  simp only [List.length_map, List.length_range, Geometry.total]
  rw [Nat.mul_comm] at hmod
  have hextra : g.cacheSize - g.cacheSize / g.numLayers * g.numLayers =
      g.cacheSize % g.numLayers := by omega
  rw [hextra]
  by_cases hfull : g.numLayers * g.numExperts ≤ g.cacheSize
  · -- every layer is capped at its experts
    have hper : g.numExperts ≤ g.cacheSize / g.numLayers :=
      (Nat.le_div_iff_mul_le hl).mpr (by rwa [Nat.mul_comm])
    have hcap : (List.range g.numLayers).map (fun layer => min (g.cacheSize / g.numLayers +
        if layer < g.cacheSize % g.numLayers then 1 else 0) g.numExperts) =
        (List.range g.numLayers).map fun _ => g.numExperts :=
      List.map_congr_left fun layer _ => by omega
    rw [hcap]
    simp
  · have hper : g.cacheSize / g.numLayers < g.numExperts :=
      (Nat.div_lt_iff_lt_mul hl).mpr (by rw [Nat.mul_comm]; omega)
    have hcap : (List.range g.numLayers).map (fun layer => min (g.cacheSize / g.numLayers +
        if layer < g.cacheSize % g.numLayers then 1 else 0) g.numExperts) =
        (List.range g.numLayers).map fun layer => g.cacheSize / g.numLayers +
          if layer < g.cacheSize % g.numLayers then 1 else 0 :=
      List.map_congr_left fun layer _ => by split <;> omega
    rw [hcap, sum_spread, Nat.mul_comm]
    omega

/-! ## The maps after a warm start -/

/-- Maps made of pairs name those pairs. -/
theorem copyRows_some_iff {pairs : List (Nat × Nat)} (hnd : (pairs.map Prod.fst).Nodup)
    (i k : Nat) : copyRows some pairs (fun _ => none) i = some k ↔ (i, k) ∈ pairs := by
  constructor
  · intro h
    by_contra hnot
    by_cases hkey : ∃ k', (i, k') ∈ pairs
    · obtain ⟨k', hk'⟩ := hkey
      rw [copyRows_of_mem hnd hk', Option.some.injEq] at h
      exact hnot (h ▸ hk')
    · rw [copyRows_of_not_mem fun p hp heq => hkey ⟨p.2, by rwa [← heq]⟩] at h
      simp at h
  · exact copyRows_of_mem hnd

theorem paired_of_pairs {pairs : List (Nat × Nat)} (hfst : (pairs.map Prod.fst).Nodup)
    (hsnd : (pairs.map Prod.snd).Nodup) :
    Paired (copyRows some pairs fun _ => none)
      (copyRows some (pairs.map Prod.swap) fun _ => none) := by
  intro i k
  have hswap : ((pairs.map Prod.swap).map Prod.fst).Nodup := by
    rwa [List.map_map]
  rw [copyRows_some_iff hfst, copyRows_some_iff hswap]
  simp [Prod.swap, eq_comm]


/-- The places below `n` that a list leaves over. -/
theorem length_outside {n : Nat} {used : List Nat} (hnd : used.Nodup) (hlt : ∀ i ∈ used, i < n) :
    ((List.range n).filter (· ∉ used)).length + used.length = n := by
  have hperm : ((List.range n).filter (· ∈ used)).Perm used := by
    refine (List.perm_ext_iff_of_nodup (List.nodup_range.filter _) hnd).mpr fun i => ?_
    simp only [List.mem_filter, List.mem_range, decide_eq_true_eq]
    exact ⟨fun h => h.2, fun h => ⟨hlt i h, h⟩⟩
  have hsplit := List.length_eq_countP_add_countP (fun i => decide (i ∈ used)) (l := List.range n)
  rw [List.countP_eq_length_filter, List.countP_eq_length_filter, hperm.length_eq,
    List.length_range] at hsplit
  simp only [decide_eq_true_eq, ← decide_not] at hsplit ⊢
  omega

theorem foldl_readRow (data : Nat → β) (pairs : List (Nat × Nat)) (m : Mirror β) :
    ∃ pool, pairs.foldl (readRow data) m =
      { m with
        pool := pool
        poolRowOfId := copyRows some pairs m.poolRowOfId
        idOfPoolRow := copyRows some (pairs.map Prod.swap) m.idOfPoolRow } := by
  induction pairs generalizing m with
  | nil => exact ⟨m.pool, rfl⟩
  | cons p pairs ih =>
    obtain ⟨pool, heq⟩ := ih (readRow data m p)
    exact ⟨pool, heq⟩

/-- No resident has a row yet when its turn comes. -/
theorem foldl_seed (data : Nat → β) {pairs : List (Nat × Nat)} {m : Mirror β}
    (hnd : (pairs.map Prod.fst).Nodup) (hnone : ∀ p ∈ pairs, m.poolRowOfId p.1 = none) :
    pairs.foldl (fun m p => if (m.poolRowOfId p.1).isSome then m else readRow data m p) m =
      pairs.foldl (readRow data) m := by
  induction pairs generalizing m with
  | nil => rfl
  | cons p pairs ih =>
    obtain ⟨hnot, hnd⟩ := List.nodup_cons.mp hnd
    have hp : m.poolRowOfId p.1 = none := hnone p List.mem_cons_self
    rw [List.foldl_cons, List.foldl_cons, if_neg (by simp [hp])]
    refine ih hnd fun q hq => ?_
    have hne : q.1 ≠ p.1 := fun heq => hnot (heq ▸ List.mem_map_of_mem hq)
    simpa [readRow, hne] using hnone q (List.mem_cons_of_mem _ hq)

theorem dropReserve_eq (reserve : Nat) (rows : List Nat) :
    dropReserve reserve rows = rows.take (rows.length - reserve) := by
  unfold dropReserve
  split
  · simp [*]
  · split
    · rfl
    · rw [Nat.sub_eq_zero_of_le (by omega), List.take_zero]

/-- The duplicates that `seed_duplicates` has rows for. -/
def seedCount (g : Geometry) : Nat :=
  min g.gpuPlan.length (g.capacity - (absentees g g.gpuPlan).length - g.reserveRows)

/-- What `load_initial` and `seed_duplicates` load: `(expert, row)`. -/
def warmPairs (g : Geometry) : List (Nat × Nat) :=
  (absentees g g.gpuPlan).zipIdx ++ (g.gpuPlan.reverse.take (seedCount g)).zip
    (List.range' (absentees g g.gpuPlan).length (seedCount g))

theorem absentees_length : (absentees g g.gpuPlan).length + g.gpuPlan.length = g.total :=
  length_outside (gpuPlan_nodup g) fun _ => mem_gpuPlan

theorem seedCount_take_length : (g.gpuPlan.reverse.take (seedCount g)).length = seedCount g := by
  rw [List.length_take, List.length_reverse, seedCount]
  omega

theorem warmPairs_experts : (warmPairs g).map Prod.fst =
    absentees g g.gpuPlan ++ g.gpuPlan.reverse.take (seedCount g) := by
  have hlen : (g.gpuPlan.reverse.take (seedCount g)).length ≤
      (List.range' (absentees g g.gpuPlan).length (seedCount g)).length :=
    Nat.le_of_eq (seedCount_take_length.trans List.length_range'.symm)
  rw [warmPairs, List.map_append, List.zipIdx_map_fst, List.map_fst_zip hlen]

theorem warmPairs_rows : (warmPairs g).map Prod.snd =
    List.range ((absentees g g.gpuPlan).length + seedCount g) := by
  have hlen : (List.range' (absentees g g.gpuPlan).length (seedCount g)).length ≤
      (g.gpuPlan.reverse.take (seedCount g)).length :=
    Nat.le_of_eq (List.length_range'.trans seedCount_take_length.symm)
  rw [warmPairs, List.map_append, List.zipIdx_map_snd, List.map_snd_zip hlen, List.range_eq_range',
    ← List.range'_append_1, Nat.zero_add]

theorem warmPairs_experts_nodup : ((warmPairs g).map Prod.fst).Nodup := by
  rw [warmPairs_experts]
  refine List.Nodup.append (List.nodup_range.filter _)
    ((List.nodup_reverse.mpr (gpuPlan_nodup g)).sublist (List.take_sublist _ _)) ?_
  intro id hid hid'
  have hnot : id ∉ g.gpuPlan := by simpa using (List.mem_filter.mp hid).2
  exact hnot (List.mem_reverse.mp (List.mem_of_mem_take hid'))

theorem warmPairs_length : (warmPairs g).length =
    (absentees g g.gpuPlan).length + seedCount g := by
  rw [← List.length_map Prod.snd, warmPairs_rows, List.length_range]

theorem warmPairs_expert_lt {id : Nat} (h : id ∈ (warmPairs g).map Prod.fst) : id < g.total := by
  rw [warmPairs_experts, List.mem_append] at h
  rcases h with h | h
  · exact List.mem_range.mp (List.mem_filter.mp h).1
  · exact mem_gpuPlan (List.mem_reverse.mp (List.mem_of_mem_take h))

theorem stageResidents_maps (data : Nat → β) (chunk : Nat) (plan : List Nat) (m : Mirror β) :
    ∃ gpu pool, stageResidents data chunk plan m = { m with gpu := gpu, pool := pool } := by
  unfold stageResidents
  generalize (plan.length + chunk - 1) / chunk = n
  induction n with
  | zero => exact ⟨m.gpu, m.pool, rfl⟩
  | succ n ih =>
    obtain ⟨gpu, pool, heq⟩ := ih
    rw [List.range_succ, List.foldl_append, heq]
    exact ⟨_, _, rfl⟩

/-- Rows loaded from the bottom leave the rows above them. -/
theorem unownedRows_loaded {m : Mirror β} {pairs : List (Nat × Nat)}
    (hrows : pairs.map Prod.snd = List.range pairs.length)
    (hmap : m.idOfPoolRow = copyRows some (pairs.map Prod.swap) fun _ => none) :
    unownedRows g m = List.range' pairs.length (g.capacity - pairs.length) := by
  have hkeys : (pairs.map Prod.swap).map Prod.fst = List.range pairs.length := by
    rw [← hrows, List.map_map]
    rfl
  have howner : ∀ row, m.idOfPoolRow row = none ↔ pairs.length ≤ row := by
    intro row
    have hmem : row ∈ (pairs.map Prod.swap).map Prod.fst ↔ row < pairs.length := by
      rw [hkeys, List.mem_range]
    rw [hmap, Option.eq_none_iff_forall_not_mem, ← Nat.not_lt, ← hmem]
    simp only [Option.mem_def, copyRows_some_iff (hkeys ▸ List.nodup_range)]
    constructor
    · intro hnone hin
      obtain ⟨p, hp, rfl⟩ := List.mem_map.mp hin
      exact hnone p.2 hp
    · exact fun hnot id hid => hnot (List.mem_map_of_mem hid)
  unfold unownedRows
  by_cases hle : pairs.length ≤ g.capacity
  · have hsplit : List.range g.capacity =
        List.range pairs.length ++ List.range' pairs.length (g.capacity - pairs.length) := by
      have := List.range'_append_1 (s := 0) (m := pairs.length) (n := g.capacity - pairs.length)
      rw [Nat.zero_add, Nat.add_sub_cancel' hle] at this
      rw [List.range_eq_range', List.range_eq_range', this]
    rw [hsplit, List.filter_append, List.filter_eq_nil_iff.mpr, List.filter_eq_self.mpr,
      List.nil_append]
    · intro row hrow
      simpa [howner] using (List.mem_range'_1.mp hrow).1
    · intro row hrow
      simpa [howner] using List.mem_range.mp hrow
  · rw [List.filter_eq_nil_iff.mpr, Nat.sub_eq_zero_of_le (by omega)]
    · rfl
    · intro row hrow
      have := List.mem_range.mp hrow
      simp only [howner, decide_eq_true_eq]
      omega

/-- The rows above the reserve go to the coldest residents. -/
theorem seedDuplicates_eq {data : Nat → β} {m : Mirror β}
    (hrows : m.poolRowOfId = copyRows some (absentees g g.gpuPlan).zipIdx fun _ => none)
    (howners : m.idOfPoolRow =
      copyRows some ((absentees g g.gpuPlan).zipIdx.map Prod.swap) fun _ => none) :
    ∃ pool, seedDuplicates g data g.gpuPlan.reverse m =
      { m with
        pool := pool
        poolRowOfId := copyRows some (warmPairs g) fun _ => none
        idOfPoolRow := copyRows some ((warmPairs g).map Prod.swap) fun _ => none } := by
  have hloaded : (absentees g g.gpuPlan).zipIdx.map Prod.snd =
      List.range (absentees g g.gpuPlan).zipIdx.length := by
    rw [List.zipIdx_map_snd, List.length_zipIdx, List.range_eq_range']
  -- the rows behind those of the absentees are without an owner, less the reserve
  have hzip : g.gpuPlan.reverse.zip (dropReserve g.reserveRows (unownedRows g m)) =
      (g.gpuPlan.reverse.take (seedCount g)).zip
        (List.range' (absentees g g.gpuPlan).length (seedCount g)) := by
    have hcount : min g.gpuPlan.length (min (g.capacity - (absentees g g.gpuPlan).length - g.reserveRows)
        (g.capacity - (absentees g g.gpuPlan).length)) = seedCount g := by
      rw [seedCount]
      omega
    rw [unownedRows_loaded hloaded howners, List.length_zipIdx, dropReserve_eq, List.length_range',
      List.zip_eq_zip_take_min, List.length_take, List.length_range', List.length_reverse, hcount,
      List.take_take, List.take_range'_of_length_ge]
    · congr 2
      rw [seedCount]
      omega
    · omega
  have hnd : (((g.gpuPlan.reverse.take (seedCount g)).zip
      (List.range' (absentees g g.gpuPlan).length (seedCount g))).map Prod.fst).Nodup := by
    have := warmPairs_experts_nodup (g := g)
    rw [warmPairs, List.map_append] at this
    exact this.of_append_right
  obtain ⟨pool, heq⟩ := foldl_readRow data ((g.gpuPlan.reverse.take (seedCount g)).zip
    (List.range' (absentees g g.gpuPlan).length (seedCount g))) m
  refine ⟨pool, ?_⟩
  rw [seedDuplicates, hzip, foldl_seed data hnd, heq, hrows, howners, warmPairs, List.map_append,
    copyRows_append, copyRows_append]
  -- an expert of the plan is no absentee, so it has no row yet
  intro p hp
  have hplan : p.1 ∈ g.gpuPlan :=
    List.mem_reverse.mp (List.mem_of_mem_take (List.of_mem_zip hp).1)
  rw [hrows]
  refine copyRows_of_not_mem fun q hq heq => ?_
  have hq' : q.1 ∈ absentees g g.gpuPlan := by
    rw [← List.zipIdx_map_fst 0 (absentees g g.gpuPlan)]
    exact List.mem_map_of_mem hq
  have hnot : q.1 ∉ g.gpuPlan := by simpa using (List.mem_filter.mp hq').2
  exact hnot (heq ▸ hplan)

/-- The maps of a warm start, and the free rows. -/
theorem mirrorWarmStart_eq {data : Nat → β} {m m' : Mirror β}
    (h : mirrorWarmStart g data m = .ok m') :
    (absentees g g.gpuPlan).length ≤ g.capacity ∧ ∃ gpu pool, m' =
      { seatPlan g.gpuPlan (m.drainWritebacks g) with
        gpu := gpu
        pool := pool
        poolRowOfId := copyRows some (warmPairs g) fun _ => none
        idOfPoolRow := copyRows some ((warmPairs g).map Prod.swap) fun _ => none
        freeRows := (List.range' (warmPairs g).length
          (g.capacity - (warmPairs g).length)).reverse } := by
  unfold mirrorWarmStart loadInitial at h
  dsimp only at h
  by_cases hchunk : min g.capacity g.gpuPlan.length = 0
  · simp [hchunk] at h
  · rw [if_neg hchunk] at h
    by_cases hfew : g.capacity < (absentees g g.gpuPlan).length
    · simp [hfew, Except.map] at h
    · rw [if_neg hfew] at h
      obtain ⟨gpu, pool₀, hstage⟩ := stageResidents_maps data (min g.capacity g.gpuPlan.length)
        g.gpuPlan (m.drainWritebacks g)
      rw [hstage] at h
      obtain ⟨pool₁, hload⟩ := foldl_readRow data (absentees g g.gpuPlan).zipIdx
        (seatPlan g.gpuPlan { m.drainWritebacks g with gpu := gpu, pool := pool₀ })
      rw [hload] at h
      obtain ⟨pool, hseed⟩ := seedDuplicates_eq (g := g) (m :=
        { seatPlan g.gpuPlan { m.drainWritebacks g with gpu := gpu, pool := pool₀ } with
          pool := pool₁
          poolRowOfId := copyRows some (absentees g g.gpuPlan).zipIdx fun _ => none
          idOfPoolRow :=
            copyRows some ((absentees g g.gpuPlan).zipIdx.map Prod.swap) fun _ => none }) rfl rfl
      have hrows : (warmPairs g).map Prod.snd = List.range (warmPairs g).length := by
        rw [warmPairs_rows, warmPairs_length]
      refine ⟨Nat.le_of_not_lt hfew, gpu, pool, (Except.ok.inj h).symm.trans ?_⟩
      refine (congrArg (mirrorPublishFreeRows g) hseed).trans ?_
      rw [mirrorPublishFreeRows, unownedRows_loaded hrows rfl]
      rfl

theorem unownedRows_unowned (m : Mirror β) :
    Unowned (· < g.capacity) m.idOfPoolRow (unownedRows g m) :=
  ⟨List.nodup_range.filter _, fun row => by simp [unownedRows]⟩

theorem warmPairs_length_le (hfits : (absentees g g.gpuPlan).length ≤ g.capacity) :
    (warmPairs g).length ≤ g.capacity := by
  rw [warmPairs_length, seedCount]
  omega

/-- **After a warm start the maps agree and every expert has a copy.** -/
theorem mirrorWarmStart_located {data : Nat → β} {m m' : Mirror β}
    (h : mirrorWarmStart g data m = .ok m') (hfreed : m.freedRows = []) : Located g none m' := by
  obtain ⟨hfits, gpu, pool, rfl⟩ := mirrorWarmStart_eq h
  have hrows : (warmPairs g).map Prod.snd = List.range (warmPairs g).length := by
    rw [warmPairs_rows, warmPairs_length]
  have hkeys : (((warmPairs g).map Prod.swap).map Prod.fst).Nodup := by
    rw [List.map_map]
    exact hrows ▸ List.nodup_range
  have hplan : ((g.gpuPlan.zipIdx).map Prod.fst).Nodup := by
    rw [List.zipIdx_map_fst]
    exact gpuPlan_nodup g
  refine ⟨?_, ?_, ?_, fun row id hid => ?_, fun id hid _ => ?_⟩
  · refine paired_of_pairs hplan ?_
    rw [List.zipIdx_map_snd]
    exact List.nodup_range'
  · exact paired_of_pairs warmPairs_experts_nodup (hrows ▸ List.nodup_range)
  · have hfree := unownedRows_unowned (g := g) { m with
      idOfPoolRow := copyRows some ((warmPairs g).map Prod.swap) fun _ => none }
    rw [unownedRows_loaded hrows rfl] at hfree
    refine hfree.perm ?_
    change (m.freedRows ++ _).Perm _
    rw [hfreed]
    exact List.reverse_perm _
  · have hmem := (copyRows_some_iff hkeys row id).mp hid
    have : row ∈ (warmPairs g).map Prod.snd := by
      obtain ⟨p, hp, heq⟩ := List.mem_map.mp hmem
      exact List.mem_map.mpr ⟨p, hp, congrArg Prod.fst heq⟩
    rw [hrows, List.mem_range] at this
    exact Nat.lt_of_lt_of_le this (warmPairs_length_le hfits)
  · by_cases hin : id ∈ g.gpuPlan
    · refine Or.inl ?_
      rw [← List.zipIdx_map_fst 0 g.gpuPlan] at hin
      obtain ⟨p, hp, rfl⟩ := List.mem_map.mp hin
      exact ((copyRows_some_iff hplan p.1 p.2).mpr hp).trans_ne (Option.some_ne_none _)
    · refine Or.inr ?_
      have hmem : id ∈ (warmPairs g).map Prod.fst := by
        rw [warmPairs_experts]
        exact List.mem_append_left _ (List.mem_filter.mpr ⟨List.mem_range.mpr hid, by simpa⟩)
      obtain ⟨p, hp, rfl⟩ := List.mem_map.mp hmem
      exact ((copyRows_some_iff warmPairs_experts_nodup p.1 p.2).mpr hp).trans_ne
        (Option.some_ne_none _)

/-- The reserve is free after a warm start of an arena that is large enough. -/
theorem mirrorWarmStart_reserve {data : Nat → β} {m m' : Mirror β} (hl : 0 < g.numLayers)
    (h : mirrorWarmStart g data m = .ok m') (hcap : g.reserveRows ≤ g.capacity)
    (harena : g.total + g.reserveRows ≤ g.capacity + g.cacheSize) :
    g.reserveRows ≤ m'.freeRows.length := by
  obtain ⟨hfits, gpu, pool, rfl⟩ := mirrorWarmStart_eq h
  have hplan := gpuPlan_length hl
  have habsent := absentees_length (g := g)
  dsimp only
  rw [List.length_reverse, List.length_range', warmPairs_length, seedCount]
  omega

/-- Sole copies and mirrored experts are different experts. -/
theorem soleCopies_add_le {m : Mirror β} {slots mirrored : List Nat} (hnd : slots.Nodup)
    (hslots : Paired m.slotForId m.idOfSlot)
    (hlt : ∀ slot id, m.idOfSlot slot = some id → id < g.total)
    (hmirrored : mirrored.Nodup) (hrows : ∀ id ∈ mirrored, id < g.total ∧ m.poolRowOfId id ≠ none) :
    soleCopies m slots + mirrored.length ≤ g.total := by
  have howner : ∀ slot ∈ slots.filter (soleCopy m), ∃ id, m.idOfSlot slot = some id ∧
      m.poolRowOfId id = none := by
    intro slot hslot
    have hsole := (List.mem_filter.mp hslot).2
    cases hid : m.idOfSlot slot with
    | none => simp [soleCopy, hid] at hsole
    | some id => exact ⟨id, rfl, by simpa [soleCopy, hid] using hsole⟩
  have hnodup : ((slots.filter (soleCopy m)).map fun slot => (m.idOfSlot slot).getD 0).Nodup := by
    refine (hnd.filter _).map_on fun slot hslot slot' hslot' heq => ?_
    obtain ⟨id, hid, -⟩ := howner slot hslot
    obtain ⟨id', hid', -⟩ := howner slot' hslot'
    simp only [hid, hid', Option.getD_some] at heq
    exact hslots.symm.inj hid (heq ▸ hid')
  have hdisjoint : List.Disjoint
      ((slots.filter (soleCopy m)).map fun slot => (m.idOfSlot slot).getD 0) mirrored := by
    intro id hid hid'
    obtain ⟨slot, hslot, rfl⟩ := List.mem_map.mp hid
    obtain ⟨id, heq, hnone⟩ := howner slot hslot
    rw [heq, Option.getD_some] at hid'
    exact (hrows id hid').2 hnone
  have hsub : ((slots.filter (soleCopy m)).map fun slot => (m.idOfSlot slot).getD 0) ++ mirrored ⊆
      List.range g.total := by
    intro id hid
    rw [List.mem_range]
    rcases List.mem_append.mp hid with hid | hid
    · obtain ⟨slot, hslot, rfl⟩ := List.mem_map.mp hid
      obtain ⟨id, heq, -⟩ := howner slot hslot
      rw [heq, Option.getD_some]
      exact hlt slot id heq
    · exact (hrows id hid).1
  have := (List.subperm_of_subset (hnodup.append hmirrored hdisjoint) hsub).length_le
  rwa [List.length_append, List.length_map, List.length_range, ← List.countP_eq_length_filter]
    at this

/-- A pool that can hold every expert has a free row for every sole copy, and as many more
as it has rows to spare. -/
theorem mirrorWarmStart_whole {data : Nat → β} {m m' : Mirror β}
    (h : mirrorWarmStart g data m = .ok m') (hfreed : m.freedRows = []) {slots : List Nat}
    (hnd : slots.Nodup) :
    soleCopies m' slots + g.capacity ≤ m'.freeRows.length + g.total := by
  have hloc := mirrorWarmStart_located h hfreed
  obtain ⟨hfits, gpu, pool, rfl⟩ := mirrorWarmStart_eq h
  have hplan : (((g.gpuPlan.zipIdx).map Prod.swap).map Prod.fst).Nodup := by
    rw [List.map_map]
    exact (List.zipIdx_map_snd 0 g.gpuPlan) ▸ List.nodup_range'
  have hsole := soleCopies_add_le (g := g) hnd hloc.slots
    (fun slot id hid => ?_) warmPairs_experts_nodup fun id hid => ⟨warmPairs_expert_lt hid, ?_⟩
  · have := warmPairs_length_le hfits
    rw [List.length_map] at hsole
    dsimp only at hsole ⊢
    rw [List.length_reverse, List.length_range']
    omega
  · have hmem := (copyRows_some_iff hplan slot id).mp hid
    obtain ⟨p, hp, heq⟩ := List.mem_map.mp hmem
    have : id ∈ g.gpuPlan := by
      rw [← List.zipIdx_map_fst 0 g.gpuPlan]
      exact List.mem_map.mpr ⟨p, hp, congrArg Prod.snd heq⟩
    exact mem_gpuPlan this
  · obtain ⟨p, hp, rfl⟩ := List.mem_map.mp hid
    exact ((copyRows_some_iff warmPairs_experts_nodup p.1 p.2).mpr hp).trans_ne
      (Option.some_ne_none _)

end FreeToken.Mirror
