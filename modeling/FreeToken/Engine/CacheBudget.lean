import FreeToken.Lib.Bisect
import Mathlib.Algebra.BigOperators.Group.List.Lemmas
import Mathlib.Algebra.Order.Ring.Int
import Mathlib.Data.Fintype.Pi
import Mathlib.Data.List.FinRange
import Mathlib.Tactic.Linarith

/-!
# The cache budget

The split of the budget into expert slots and KV pages. Experts come first: they get as many slots
as the budget has room for beside the KV reserve, and the pages take what remains. With several
size classes the slots' bytes are not linear, and the number of slots is searched by bisection.
Main results:

* `ggufClassCapacities_sum`: the classes split all usable slots.
* `cost_mono_of_two`: with two classes, more slots never take less.
* `planCacheBudget_correct`: what a plan is, and why there may be none.
-/

namespace FreeToken.Engine

open FreeToken.Lib

/-- The row bytes of a layer's experts, by bank. -/
abbrev Signature (banks : Nat) := Fin banks → Nat

inductive PlanError where
  | perExpertBytes
  | cachePerPage
  | belowDecodeFloor
  | slotCap (hi lo : Nat)
  | tooSmall (moeCacheSize : Nat) (numPages total budgetBytes : Int)
  | noKvPages

def PlanError.message : PlanError → String
  | perExpertBytes => "per_expert_bytes must be positive"
  | cachePerPage => "cache_per_page must be positive (owned-KV models unsupported here)"
  | belowDecodeFloor => "mixed-size cache is below its per-class decode floor"
  | slotCap hi lo => s!"slot cap {hi} below the minimum {lo} slots"
  | tooSmall moe pages total budget =>
    s!"cache budget too small: minimum plan (moe={moe} slots, kv={pages} pages) needs {total} B > " ++
      s!"budget {budget} B (raise memory_ratio, lower kv_reserve_tokens, or free GPU memory)"
  | noKvPages => "not enough memory for KV cache after MoE allocation"

/-! ## The bytes of the experts -/

/-- The split of the usable slots by the layers of each class, the remainder one by one. -/
def ggufClassCapacities (usable : Nat) (layerCounts : List Nat) (numLayers numExperts : Nat) :
    List Nat :=
  let remaining := usable - layerCounts.length * numExperts
  let capacities := layerCounts.map fun count => numExperts + remaining * count / numLayers
  (List.range (usable - capacities.sum)).foldl
    (fun capacities i => capacities.modify (i % capacities.length) (· + 1)) capacities

section Bytes

variable {banks : Nat}

/-- The distinct signatures, in the order of their first layer. -/
def uniqueSignatures (slotSignatures : List (Signature banks)) : List (Signature banks) :=
  slotSignatures.eraseDups

def slotBytes (signature : Signature banks) : Nat := ((List.finRange banks).map signature).sum

/-- A slot that holds the rows of any class. -/
def maxSlotBytes (unique : List (Signature banks)) : Nat :=
  ((List.finRange banks).map fun i => (unique.map fun s => s i).foldl max 0).sum

/-- The bytes of a cache of several classes: the prefill's slots are of the largest. -/
def mixedCacheBytes (slotSignatures : List (Signature banks)) (numExperts reserve usable : Nat) :
    Nat :=
  let unique := uniqueSignatures slotSignatures
  let counts := unique.map fun s => slotSignatures.count s
  let capacities := ggufClassCapacities usable counts slotSignatures.length numExperts
  reserve * maxSlotBytes unique +
    (capacities.zipWith (fun capacity s => capacity * slotBytes s) unique).sum

def expertCacheBytes (cacheSize : Nat) (slotSignatures : List (Signature banks)) (numExperts : Nat)
    (prefillOverlap : Bool) (fallbackPerExpertBytes : Nat) : Except PlanError Nat :=
  let unique := uniqueSignatures slotSignatures
  if unique.length ≤ 1 then .ok (cacheSize * fallbackPerExpertBytes)
  else
    let reserve := if prefillOverlap then 2 * numExperts else 0
    let usable := cacheSize - reserve
    if usable < unique.length * numExperts then .error .belowDecodeFloor
    else .ok (mixedCacheBytes slotSignatures numExperts reserve usable)

/-! ## The plan -/

/-- The arguments of `plan_cache_budget`. -/
structure BudgetRequest (banks : Nat) where
  budgetBytes : Int
  perExpertBytes : Nat
  cachePerPage : Nat
  numExperts : Nat
  totalExperts : Nat
  prefillOverlap : Bool
  kvReservePages : Nat
  maxSlots : Nat
  expertSlotSignatures : List (Signature banks)

variable (r : BudgetRequest banks)

def BudgetRequest.hi : Nat := min r.totalExperts r.maxSlots

/-- The overlap needs slots for two whole layers. -/
def BudgetRequest.overlap : Bool := r.prefillOverlap && decide (2 * r.numExperts ≤ r.hi)

def BudgetRequest.classes : Nat := (uniqueSignatures r.expertSlotSignatures).length

def BudgetRequest.lo : Nat :=
  if 1 < r.classes then (if r.overlap then 2 * r.numExperts else 0) + r.classes * r.numExperts
  else if r.overlap then 2 * r.numExperts else r.numExperts

def BudgetRequest.cacheBytes (overlap : Bool) (size : Nat) : Except PlanError Nat :=
  expertCacheBytes size r.expertSlotSignatures r.numExperts overlap r.perExpertBytes

/-- The budget without the KV reserve. -/
def BudgetRequest.availableForExperts : Int :=
  r.budgetBytes - (r.kvReservePages * r.cachePerPage : Nat)

/-- The bisection of `plan_cache_budget`. -/
def searchSize (cacheBytes : Nat → Except PlanError Nat) (available : Int) :
    Nat → Nat → Nat → Except PlanError Nat
  | 0, low, _ => .ok low
  | fuel + 1, low, high =>
    if low < high then
      let mid := (low + high + 1) / 2
      match cacheBytes mid with
      | .ok bytes =>
        if (bytes : Int) ≤ available then searchSize cacheBytes available fuel mid high
        else searchSize cacheBytes available fuel low (mid - 1)
      | .error e => .error e
    else .ok low

def BudgetRequest.moeCacheSize : Except PlanError Nat :=
  if 1 < r.classes then
    searchSize (r.cacheBytes r.overlap) r.availableForExperts (r.hi - r.lo) r.lo r.hi
  else
    let raw := r.availableForExperts / r.perExpertBytes
    .ok (max (r.lo : Int) (min raw r.hi)).toNat

/-- The KV pages take what the experts leave. -/
def BudgetRequest.withPages (size : Nat) : Except PlanError (Nat × Int × Bool) :=
  let overlap := r.overlap && decide (2 * r.numExperts ≤ size)
  match r.cacheBytes overlap size with
  | .error e => .error e
  | .ok moeBytes =>
    let remaining := r.budgetBytes - moeBytes
    let numPages := max (remaining / r.cachePerPage) r.kvReservePages
    let total := moeBytes + numPages * r.cachePerPage
    if r.budgetBytes < total then .error (.tooSmall size numPages total r.budgetBytes)
    else if numPages ≤ 1 then .error .noKvPages
    else .ok (size, numPages, overlap)

def planCacheBudget : Except PlanError (Nat × Int × Bool) :=
  if r.perExpertBytes = 0 then .error .perExpertBytes
  else if r.cachePerPage = 0 then .error .cachePerPage
  else if r.hi < r.lo then .error (.slotCap r.hi r.lo)
  else
    match r.moeCacheSize with
    | .error e => .error e
    | .ok size => r.withPages size

end Bytes

/-! ## The split of the slots -/

section Capacities

theorem sum_modify {capacities : List Nat} {i : Nat} (hi : i < capacities.length) :
    (capacities.modify i (· + 1)).sum = capacities.sum + 1 := by
  induction capacities generalizing i with
  | nil => simp at hi
  | cons c capacities ih =>
    cases i with
    | zero =>
      rw [List.modify_zero_cons, List.sum_cons, List.sum_cons]
      omega
    | succ i =>
      rw [List.modify_succ_cons, List.sum_cons, List.sum_cons, ih (by simpa using hi)]
      omega

/-- Each step of the remainder adds one slot to some class. -/
theorem sum_remainder (n : Nat) {capacities : List Nat} (h : capacities ≠ []) :
    let all := (List.range n).foldl
      (fun capacities i => capacities.modify (i % capacities.length) (· + 1)) capacities
    all.sum = capacities.sum + n ∧ all.length = capacities.length := by
  induction n with
  | zero => exact ⟨rfl, rfl⟩
  | succ n ih =>
    simp only [List.range_succ, List.foldl_append, List.foldl_cons, List.foldl_nil]
    obtain ⟨hsum, hlength⟩ := ih
    have hpos := List.length_pos_iff.mpr h
    refine ⟨?_, by rw [List.length_modify, hlength]⟩
    rw [sum_modify (Nat.mod_lt _ (hlength ▸ hpos)), hsum]
    omega

theorem sum_floors_le (remaining numLayers numExperts : Nat) (counts : List Nat) :
    (counts.map fun count => numExperts + remaining * count / numLayers).sum ≤
      counts.length * numExperts + remaining * counts.sum / numLayers := by
  induction counts with
  | nil => simp
  | cons count counts ih =>
    rw [List.map_cons, List.sum_cons, List.length_cons, List.sum_cons, Nat.mul_add, Nat.add_mul]
    have hdiv : remaining * count / numLayers + remaining * counts.sum / numLayers ≤
        (remaining * count + remaining * counts.sum) / numLayers := Nat.div_add_div_le_add_div
    omega

/-- **The classes split all usable slots.** -/
theorem ggufClassCapacities_sum {usable numLayers numExperts : Nat} {counts : List Nat}
    (hcounts : counts.sum = numLayers) (hpos : counts ≠ [])
    (husable : counts.length * numExperts ≤ usable) :
    (ggufClassCapacities usable counts numLayers numExperts).sum = usable := by
  have hfloors := sum_floors_le (usable - counts.length * numExperts) numLayers numExperts counts
  rw [hcounts] at hfloors
  have hshare := Nat.mul_div_le_mul_div_assoc (usable - counts.length * numExperts) numLayers numLayers
  have hle : (usable - counts.length * numExperts) * numLayers / numLayers ≤
      usable - counts.length * numExperts := by
    rcases Nat.eq_zero_or_pos numLayers with hzero | hlayers
    · simp [hzero]
    · rw [Nat.mul_div_cancel _ hlayers]
  unfold ggufClassCapacities
  simp only
  rw [(sum_remainder _ (by simpa using hpos)).1]
  omega

/-- With two classes, the second gets its floor and the first all the rest. -/
theorem ggufClassCapacities_two {a b numExperts : Nat} (remaining : Nat) (hpos : 0 < a + b) :
    ggufClassCapacities (2 * numExperts + remaining) [a, b] (a + b) numExperts =
      [numExperts + (remaining - remaining * b / (a + b)),
        numExperts + remaining * b / (a + b)] := by
  have hsum : remaining * a + remaining * b = (a + b) * remaining := by
    rw [← Nat.mul_add, Nat.mul_comm]
  have hadd : remaining * a / (a + b) + remaining * b / (a + b) ≤
      (remaining * a + remaining * b) / (a + b) := Nat.div_add_div_le_add_div
  rw [hsum, Nat.mul_div_cancel_left _ hpos] at hadd
  have hamod := Nat.lt_mul_div_succ (remaining * a) hpos
  have hbmod := Nat.lt_mul_div_succ (remaining * b) hpos
  have hrest : 2 * numExperts + remaining - 2 * numExperts = remaining := by omega
  unfold ggufClassCapacities
  simp only [List.length_cons, List.length_nil, List.map_cons, List.map_nil, List.sum_cons,
    List.sum_nil, hrest]
  generalize remaining * a / (a + b) = fa at *
  generalize remaining * b / (a + b) = fb at *
  -- the two floors lose less than two
  have hlose : remaining < fa + fb + 2 := by
    refine Nat.lt_of_mul_lt_mul_left (a := a + b) ?_
    calc (a + b) * remaining < (a + b) * (fa + 1) + (a + b) * (fb + 1) :=
          hsum ▸ Nat.add_lt_add hamod hbmod
      _ = (a + b) * (fa + fb + 2) := by
          rw [← Nat.mul_add]
          congr 1
          omega
  rcases Nat.eq_or_lt_of_le hadd with heq | hlt
  · have hnone : 2 * numExperts + remaining - (numExperts + fa + (numExperts + fb + 0)) = 0 := by
      omega
    have hfirst : remaining - fb = fa := by omega
    rw [hnone, hfirst]
    rfl
  · have hone : 2 * numExperts + remaining - (numExperts + fa + (numExperts + fb + 0)) = 1 := by
      omega
    have hfirst : remaining - fb = fa + 1 := by omega
    rw [hone, hfirst]
    rfl

end Capacities

/-! ## The bytes of a size -/

section Cost

variable {banks : Nat} {r : BudgetRequest banks}

theorem eraseDups_nodup {α : Type} [DecidableEq α] (l : List α) : l.eraseDups.Nodup := by
  induction hn : l.length using Nat.strong_induction_on generalizing l with
  | _ n ih =>
    cases l with
    | nil => exact List.nodup_nil
    | cons a l =>
      rw [List.eraseDups_cons, List.nodup_cons]
      have hlt : (l.filter fun b => !b == a).length < n := by
        have := List.length_filter_le (fun b => !b == a) l
        rw [List.length_cons] at hn
        omega
      refine ⟨?_, ih _ hlt _ rfl⟩
      rw [List.mem_eraseDups, List.mem_filter]
      simp

theorem mem_uniqueSignatures {slotSignatures : List (Signature banks)} {s : Signature banks} :
    s ∈ uniqueSignatures slotSignatures ↔ s ∈ slotSignatures :=
  List.mem_eraseDups

/-- Every layer is of one class. -/
theorem sum_counts (slotSignatures : List (Signature banks)) :
    ((uniqueSignatures slotSignatures).map fun s => slotSignatures.count s).sum =
      slotSignatures.length := by
  have hperm : (uniqueSignatures slotSignatures).Perm slotSignatures.dedup := by
    refine (List.perm_ext_iff_of_nodup (eraseDups_nodup _) (List.nodup_dedup _)).mpr fun s => ?_
    exact mem_uniqueSignatures.trans List.mem_dedup.symm
  rw [(hperm.map _).sum_eq]
  exact List.sum_map_count_dedup_eq_length slotSignatures

def BudgetRequest.reserve (r : BudgetRequest banks) : Nat :=
  if r.overlap then 2 * r.numExperts else 0

/-- The bytes of a size that is not below the floor. -/
def BudgetRequest.cost (r : BudgetRequest banks) (size : Nat) : Nat :=
  if r.classes ≤ 1 then size * r.perExpertBytes
  else mixedCacheBytes r.expertSlotSignatures r.numExperts r.reserve (size - r.reserve)

theorem cacheBytes_eq {size : Nat} (h : r.lo ≤ size) :
    r.cacheBytes r.overlap size = .ok (r.cost size) := by
  unfold BudgetRequest.cacheBytes expertCacheBytes BudgetRequest.cost
  by_cases hone : r.classes ≤ 1
  · have hone' : (uniqueSignatures r.expertSlotSignatures).length ≤ 1 := hone
    simp only [hone, hone', if_true]
  · have hone' : ¬(uniqueSignatures r.expertSlotSignatures).length ≤ 1 := hone
    have husable : ¬size - r.reserve < (uniqueSignatures r.expertSlotSignatures).length *
        r.numExperts := by
      unfold BudgetRequest.lo at h
      rw [if_pos (by omega)] at h
      change r.reserve + (uniqueSignatures r.expertSlotSignatures).length * r.numExperts ≤ size at h
      omega
    simp only [hone, hone', if_false]
    exact if_neg husable

/-- One more slot is one more for one of two classes. -/
theorem share_mono {a b rest rest' : Nat} (h : rest ≤ rest') (hpos : 0 < a + b) :
    rest * b / (a + b) ≤ rest' * b / (a + b) ∧
      rest - rest * b / (a + b) ≤ rest' - rest' * b / (a + b) := by
  obtain ⟨more, rfl⟩ := Nat.exists_eq_add_of_le h
  have hgrow : (rest + more) * b / (a + b) ≤ rest * b / (a + b) + more := by
    have hle : (rest + more) * b ≤ rest * b + (a + b) * more := by
      rw [Nat.add_mul, Nat.mul_comm (a + b) more]
      exact Nat.add_le_add_left (Nat.mul_le_mul_left more (Nat.le_add_left b a)) _
    calc (rest + more) * b / (a + b) ≤ (rest * b + (a + b) * more) / (a + b) :=
          Nat.div_le_div_right hle
      _ = rest * b / (a + b) + more := Nat.add_mul_div_left _ _ hpos
  refine ⟨Nat.div_le_div_right (Nat.mul_le_mul_right b h), ?_⟩
  have hrest : rest * b / (a + b) ≤ rest := by
    calc rest * b / (a + b) ≤ rest * (a + b) / (a + b) :=
          Nat.div_le_div_right (Nat.mul_le_mul_left rest (Nat.le_add_left b a))
      _ = rest := Nat.mul_div_cancel _ hpos
  omega

/-- **With at most two classes, more slots never take less.** -/
theorem cost_mono_of_two (htwo : r.classes ≤ 2) {m s : Nat} (hlo : r.lo ≤ m) (h : m ≤ s) :
    r.cost m ≤ r.cost s := by
  unfold BudgetRequest.cost
  by_cases hone : r.classes ≤ 1
  · rw [if_pos hone, if_pos hone]
    exact Nat.mul_le_mul_right _ h
  · rw [if_neg hone, if_neg hone]
    have hlength : (uniqueSignatures r.expertSlotSignatures).length = 2 := by
      have heq : r.classes = 2 := by omega
      exact heq
    have hfloor : r.reserve + 2 * r.numExperts ≤ m := by
      unfold BudgetRequest.lo at hlo
      rw [if_pos (by omega)] at hlo
      change r.reserve + (uniqueSignatures r.expertSlotSignatures).length * r.numExperts ≤ m at hlo
      rwa [hlength] at hlo
    have hcounts := sum_counts r.expertSlotSignatures
    obtain ⟨a, b, hunique⟩ := List.length_eq_two.mp hlength
    unfold mixedCacheBytes
    simp only [hunique, List.map_cons, List.map_nil, List.sum_cons, List.sum_nil] at hcounts ⊢
    rw [Nat.add_zero] at hcounts
    have ha : a ∈ r.expertSlotSignatures := by
      rw [← mem_uniqueSignatures, hunique]
      exact List.mem_cons_self
    have hpos : 0 < r.expertSlotSignatures.count a + r.expertSlotSignatures.count b :=
      Nat.add_pos_left (List.count_pos_iff.mpr ha) _
    obtain ⟨rest, hrest⟩ := Nat.exists_eq_add_of_le hfloor
    obtain ⟨rest', hrest'⟩ := Nat.exists_eq_add_of_le (Nat.le_trans hfloor h)
    have hm : m - r.reserve = 2 * r.numExperts + rest := by omega
    have hs : s - r.reserve = 2 * r.numExperts + rest' := by omega
    rw [hm, hs, ← hcounts, ggufClassCapacities_two rest hpos, ggufClassCapacities_two rest' hpos]
    obtain ⟨hsecond, hfirst⟩ := share_mono (by omega : rest ≤ rest') hpos
    simp only [List.zipWith_cons_cons, List.zipWith_nil_left, List.sum_cons, List.sum_nil]
    gcongr

end Cost

/-! ## The plan -/

section Plan

variable {banks : Nat} {r : BudgetRequest banks}

/-- The experts of a size leave the KV reserve. -/
def BudgetRequest.Fits (r : BudgetRequest banks) (size : Nat) : Prop :=
  ∃ bytes : Nat, r.cacheBytes r.overlap size = .ok bytes ∧ (bytes : Int) ≤ r.availableForExperts

theorem fits_iff {size : Nat} (h : r.lo ≤ size) :
    r.Fits size ↔ (r.cost size : Int) ≤ r.availableForExperts := by
  unfold BudgetRequest.Fits
  rw [cacheBytes_eq h]
  constructor
  · rintro ⟨bytes, hok, hle⟩
    cases hok
    exact hle
  · exact fun hle => ⟨_, rfl, hle⟩

/-- The search is the bisection by the bytes of a size. -/
theorem searchSize_eq (fuel : Nat) {low high : Nat} (h : r.lo ≤ low) :
    searchSize (r.cacheBytes r.overlap) r.availableForExperts fuel low high =
      .ok (bisect (fun size => decide ((r.cost size : Int) ≤ r.availableForExperts)) fuel low
        high) := by
  induction fuel generalizing low high with
  | zero => rfl
  | succ fuel ih =>
    unfold searchSize bisect
    by_cases hlt : low < high
    · simp only [hlt, if_true]
      rw [cacheBytes_eq (by omega)]
      simp only [decide_eq_true_eq]
      split
      · exact ih (by omega)
      · exact ih h
    · rw [if_neg hlt, if_neg hlt]

/-- Below what fits, all sizes above the floor do. -/
def BudgetRequest.Closed (r : BudgetRequest banks) : Prop :=
  ∀ m s, r.lo < m → m ≤ s → s ≤ r.hi → r.Fits s → r.Fits m

theorem closed_of_two (htwo : r.classes ≤ 2) : r.Closed := by
  intro m s hlo hms _ hfits
  rw [fits_iff (by omega)] at hfits ⊢
  have hcost : (r.cost m : Int) ≤ r.cost s := by
    exact_mod_cast cost_mono_of_two htwo (Nat.le_of_lt hlo) hms
  exact hcost.trans hfits

/-- What the experts get. -/
structure Chosen (r : BudgetRequest banks) (size : Nat) : Prop where
  range : r.lo ≤ size ∧ size ≤ r.hi
  fits : size = r.lo ∨ r.Fits size
  next : size < r.hi → ¬r.Fits (size + 1)
  greatest : r.classes ≤ 2 ∨ r.Closed → ∀ s, size < s → s ≤ r.hi → ¬r.Fits s

theorem moeCacheSize_mixed (hmixed : 1 < r.classes) (hle : r.lo ≤ r.hi) :
    ∃ size, r.moeCacheSize = .ok size ∧ Chosen r size := by
  unfold BudgetRequest.moeCacheSize
  rw [if_pos hmixed, searchSize_eq _ (Nat.le_refl _)]
  set fits := fun size => decide ((r.cost size : Int) ≤ r.availableForExperts) with hfits
  have hiff : ∀ size, r.lo ≤ size → (fits size = true ↔ r.Fits size) := fun size hsize => by
    rw [fits_iff hsize, hfits, decide_eq_true_eq]
  obtain ⟨hlow, hhigh⟩ := bisect_mem fits (r.hi - r.lo) hle
  refine ⟨_, rfl, ⟨hlow, hhigh⟩, ?_, fun hlt => ?_, fun hclosed s hs hhi => ?_⟩
  · exact (bisect_fits fits (r.hi - r.lo)).imp id (hiff _ hlow).mp
  · rcases bisect_next fits (r.hi - r.lo) hle (Nat.le_refl _) with heq | hnext
    · omega
    · rw [← hiff _ (by omega), hnext]
      exact Bool.false_ne_true
  · have hclosed' : r.Closed := hclosed.elim closed_of_two id
    rw [← hiff s (by omega), bisect_greatest fits (r.hi - r.lo) hle (Nat.le_refl _) ?_ hs hhi]
    · exact Bool.false_ne_true
    · intro m t hlo hmt hthi ht
      rw [hiff _ (by omega)] at ht ⊢
      exact hclosed' m t hlo hmt hthi ht

theorem moeCacheSize_uniform (huniform : ¬1 < r.classes) (hper : 0 < r.perExpertBytes)
    (hle : r.lo ≤ r.hi) : ∃ size, r.moeCacheSize = .ok size ∧ Chosen r size := by
  have hiff : ∀ size, r.lo ≤ size →
      (r.Fits size ↔ (size : Int) ≤ r.availableForExperts / r.perExpertBytes) := by
    intro size hsize
    rw [fits_iff hsize, Int.le_ediv_iff_mul_le (by omega)]
    unfold BudgetRequest.cost
    rw [if_pos (by omega)]
    push_cast
    rfl
  unfold BudgetRequest.moeCacheSize
  rw [if_neg huniform]
  simp only
  generalize r.availableForExperts / r.perExpertBytes = raw at *
  have hgreatest : ∀ s, (max (r.lo : Int) (min raw r.hi)).toNat < s → s ≤ r.hi → ¬r.Fits s := by
    intro s hs hhi
    rw [hiff s (by omega)]
    omega
  refine ⟨_, rfl, ⟨by omega, by omega⟩, ?_, fun hlt => hgreatest _ (by omega) (by omega),
    fun _ => hgreatest⟩
  by_cases hlow : (max (r.lo : Int) (min raw r.hi)).toNat = r.lo
  · exact Or.inl hlow
  · right
    rw [hiff _ (by omega)]
    omega

/-- **What a plan is.** -/
structure Planned (r : BudgetRequest banks) (size : Nat) (pages : Int) (overlap : Bool) : Prop where
  chosen : Chosen r size
  kept : overlap = r.overlap
  fits : ∃ bytes : Nat, r.cacheBytes overlap size = .ok bytes ∧
    (bytes : Int) + pages * r.cachePerPage ≤ r.budgetBytes
  reserve : (r.kvReservePages : Int) ≤ pages
  pages : 1 < pages

/-- **Why there may be none**: bytes that are zero, a cap below the floor, a floor that does not fit
with the KV reserve, or a reserve of at most one page and experts that leave no more. -/
def Unplannable (r : BudgetRequest banks) : Prop :=
  r.perExpertBytes = 0 ∨ r.cachePerPage = 0 ∨ r.hi < r.lo ∨ ¬r.Fits r.lo ∨
    r.kvReservePages ≤ 1 ∧ ∃ size bytes : Nat, Chosen r size ∧
      r.cacheBytes r.overlap size = .ok bytes ∧ (bytes : Int) ≤ r.availableForExperts ∧
        (r.budgetBytes - bytes) / r.cachePerPage ≤ 1

theorem withPages_spec (hcpp : 0 < r.cachePerPage) {size : Nat} (hchosen : Chosen r size) :
    match r.withPages size with
    | .ok (size', pages, overlap) => size' = size ∧ Planned r size pages overlap
    | .error _ => Unplannable r := by
  have hoverlap : (r.overlap && decide (2 * r.numExperts ≤ size)) = r.overlap := by
    cases hover : r.overlap with
    | false => rfl
    | true =>
      have hlo := hchosen.range.1
      unfold BudgetRequest.lo at hlo
      simp only [hover, if_true] at hlo
      rw [Bool.true_and, decide_eq_true_eq]
      split at hlo <;> omega
  have hbytes := cacheBytes_eq hchosen.range.1
  have hreserve : r.availableForExperts =
      r.budgetBytes - (r.kvReservePages : Int) * r.cachePerPage := by
    unfold BudgetRequest.availableForExperts
    push_cast
    rfl
  have hcpp' : (0 : Int) < r.cachePerPage := by omega
  unfold BudgetRequest.withPages
  simp only [hoverlap, hbytes]
  set remaining := r.budgetBytes - (r.cost size : Int) with hremaining
  have hdiv : remaining / r.cachePerPage * r.cachePerPage ≤ remaining :=
    Int.ediv_mul_le _ hcpp'.ne'
  by_cases hsmall : r.budgetBytes < r.cost size + max (remaining / r.cachePerPage)
      r.kvReservePages * r.cachePerPage
  · -- what fits leaves the reserve, so that the pages are what remains
    simp only [hsmall, if_true]
    refine Or.inr (Or.inr (Or.inr (Or.inl fun hlo => ?_)))
    have hfits : r.Fits size := hchosen.fits.elim (fun heq => heq ▸ hlo) id
    rw [fits_iff hchosen.range.1, hreserve] at hfits
    have hpages : (r.kvReservePages : Int) ≤ remaining / r.cachePerPage := by
      rw [Int.le_ediv_iff_mul_le hcpp']
      omega
    rw [max_eq_left hpages] at hsmall
    omega
  · simp only [hsmall, if_false]
    have hmul : (r.kvReservePages : Int) * r.cachePerPage ≤
        max (remaining / r.cachePerPage) r.kvReservePages * r.cachePerPage :=
      Int.mul_le_mul_of_nonneg_right (le_max_right _ _) hcpp'.le
    by_cases hpages : max (remaining / r.cachePerPage) (r.kvReservePages : Int) ≤ 1
    · simp only [hpages, if_true]
      refine Or.inr (Or.inr (Or.inr (Or.inr ⟨by omega, size, _, hchosen, hbytes, ?_, ?_⟩)))
      · omega
      · exact (le_max_left _ _).trans hpages
    · simp only [hpages, if_false]
      exact ⟨trivial, hchosen, rfl, ⟨r.cost size, hbytes, by omega⟩, le_max_right _ _, by omega⟩

/-- **A plan fits and its experts are the most that do**, as far as more slots do not take less, and
there is none only where the floor or the pages do not fit. -/
theorem planCacheBudget_correct (r : BudgetRequest banks) :
    match planCacheBudget r with
    | .ok (size, pages, overlap) => Planned r size pages overlap
    | .error _ => Unplannable r := by
  unfold planCacheBudget
  by_cases hper : r.perExpertBytes = 0
  · rw [if_pos hper]
    exact Or.inl hper
  by_cases hcpp : r.cachePerPage = 0
  · rw [if_neg hper, if_pos hcpp]
    exact Or.inr (Or.inl hcpp)
  by_cases hcap : r.hi < r.lo
  · rw [if_neg hper, if_neg hcpp, if_pos hcap]
    exact Or.inr (Or.inr (Or.inl hcap))
  rw [if_neg hper, if_neg hcpp, if_neg hcap]
  obtain ⟨size, hsize, hchosen⟩ : ∃ size, r.moeCacheSize = .ok size ∧ Chosen r size := by
    by_cases hmixed : 1 < r.classes
    · exact moeCacheSize_mixed hmixed (by omega)
    · exact moeCacheSize_uniform hmixed (by omega) (by omega)
  rw [hsize]
  simp only
  have hspec := withPages_spec (Nat.pos_of_ne_zero hcpp) hchosen
  cases hpages : r.withPages size with
  | error e =>
    rw [hpages] at hspec
    exact hspec
  | ok plan =>
    rw [hpages] at hspec
    obtain ⟨rfl, hplanned⟩ := hspec
    exact hplanned

end Plan

/-- No KV reserve, and room for all experts. -/
def noReserve : BudgetRequest 0 where
  budgetBytes := 1000
  perExpertBytes := 100
  cachePerPage := 10
  numExperts := 1
  totalExperts := 10
  prefillOverlap := false
  kvReservePages := 0
  maxSlots := 10
  expertSlotSignatures := []

/-- Five layers of three classes; the only one of the second has the most bytes. -/
def threeClasses : BudgetRequest 1 where
  budgetBytes := 210
  perExpertBytes := 1
  cachePerPage := 10
  numExperts := 1
  totalExperts := 6
  prefillOverlap := false
  kvReservePages := 10
  maxSlots := 6
  expertSlotSignatures := [fun _ => 1, fun _ => 1, fun _ => 100, fun _ => 2, fun _ => 2]

/-- **The experts may take all pages where the floor leaves many**; and a class may lose a slot
where the size grows, so that a larger size fits than the one that is planned. -/
theorem plan_takes_pages :
    (planCacheBudget noReserve = .error .noKvPages ∧ noReserve.lo ≤ noReserve.hi ∧
      (∃ bytes : Nat, noReserve.cacheBytes false noReserve.lo = .ok bytes ∧
        (bytes : Int) ≤ noReserve.availableForExperts ∧
          90 ≤ (noReserve.budgetBytes - bytes) / noReserve.cachePerPage)) ∧
    planCacheBudget threeClasses = .ok (4, 10, false) ∧ 6 ≤ threeClasses.hi ∧
      threeClasses.Fits 6 := by
  refine ⟨⟨rfl, by decide, 100, rfl, by decide, by decide⟩, rfl, by decide, 107, rfl, by decide⟩

end FreeToken.Engine
