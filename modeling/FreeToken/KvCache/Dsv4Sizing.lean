import FreeToken.Lib.Bracket
import Mathlib.Algebra.Order.BigOperators.Group.List
import Mathlib.Algebra.Order.Floor.Ring
import Mathlib.Data.Rat.Floor

/-!
# The sizes of the DSV4 pools

`dsv4_solve_num_pages` finds the most pages whose pools fit a budget, byte by byte, and
`_dsv4_pool_sizes` builds the pools for them. Ratios are rationals.
Main results:

* `poolBytes_mono`: more pages, and more window pages, never take less.
* `solve_spec`: the search ends, and at the greatest that fits.
* `poolSizes_eq_solver`: without a pinned window, what is built is what was solved for.
-/

namespace FreeToken.KvCache

open FreeToken.Lib

/-! ## Geometry -/

/-- A layer's compress ratio: 0, 4 or 128. -/
inductive CompressRatio where
  | zero
  | four
  | oneTwentyEight
deriving DecidableEq

structure Dsv4Args where
  headDim : Nat
  indexHeadDim : Nat
  nLayers : Nat
  compressRatios : List CompressRatio
  /-- `P`. -/
  windowSize : Nat

namespace CompressRatio

def value : CompressRatio → Nat
  | zero => 0
  | four => 4
  | oneTwentyEight => 128

/-- `ring_size_for_ratio`, which has none for 0. -/
def ringSize : CompressRatio → Nat
  | zero => 0
  | four => 8
  | oneTwentyEight => 128

end CompressRatio

namespace Dsv4Args

variable (args : Dsv4Args)

/-- The ratios of the layers there are. -/
def ratios : List CompressRatio := args.compressRatios.take args.nLayers

def kvBytes : Nat := args.headDim * 2

def indexBytes : Nat := args.indexHeadDim * 2

def stateBytes (ratio : CompressRatio) : Nat :=
  2 * (1 + if ratio = .four then 1 else 0) * args.headDim * 4

def idxStateBytes : Nat := 2 * 2 * args.indexHeadDim * 4

end Dsv4Args

/-- Python's `round` of an exact number: to the nearest, and half to even. -/
def roundHalfEven (q : ℚ) : ℤ :=
  let d := q - ⌊q⌋
  if d < 1 / 2 then ⌊q⌋ else if 1 / 2 < d then ⌊q⌋ + 1 else if ⌊q⌋ % 2 = 0 then ⌊q⌋ else ⌊q⌋ + 1

/-- `dsv4_cache_per_page`. -/
def dsv4CachePerPage (args : Dsv4Args) (swaRatio : ℚ) (P : Nat) : Nat :=
  (args.ratios.map fun ratio =>
    (roundHalfEven (swaRatio * P)).toNat * args.kvBytes +
      if ratio = .zero then 0
      else P / ratio.value * args.kvBytes +
        (if ratio = .four then
          P / 4 * args.indexBytes +
            (roundHalfEven (swaRatio * CompressRatio.four.ringSize)).toNat * args.idxStateBytes
        else 0) +
        (roundHalfEven (swaRatio * ratio.ringSize)).toNat * args.stateBytes ratio).sum

/-! ## Sizes and bytes -/

/-- `DSV4PoolSizes`; a tier has no entry for a layer that does not have it. -/
structure DSV4PoolSizes where
  P : Nat
  swaRatio : ℚ
  fullToken : Nat
  nWinSlots : Nat
  nWinPages : Nat
  cmpBlocks : List (Option Nat)
  idxBlocks : List (Option Nat)
  stateSlots : List (Option Nat)
  ringSizes : List (Option Nat)
  idxStateSlots : List (Option Nat)
deriving DecidableEq

/-- Tokens of the full history, in whole pages of the window. -/
def windowPages (swaRatio : ℚ) (fullToken P : Nat) : Nat :=
  ((roundHalfEven (swaRatio * fullToken)).toNat + P - 1) / P

/-- `dsv4_pool_sizes`. -/
def dsv4PoolSizes (numPages : Nat) (args : Dsv4Args) (swaRatio : ℚ) (P : Nat)
    (nWinPages : Option Nat) : DSV4PoolSizes :=
  let fullToken := numPages * P
  let nWinPages := min (nWinPages.getD (windowPages swaRatio fullToken P)) numPages
  { P := P
    swaRatio := swaRatio
    fullToken := fullToken
    nWinSlots := nWinPages * P
    nWinPages := nWinPages
    cmpBlocks := args.ratios.map fun ratio =>
      if ratio = .zero then none else some (fullToken / ratio.value)
    idxBlocks := args.ratios.map fun ratio => if ratio = .four then some (fullToken / 4) else none
    stateSlots := args.ratios.map fun ratio =>
      if ratio = .zero then none else some (nWinPages * ratio.ringSize)
    ringSizes := args.ratios.map fun ratio =>
      if ratio = .zero then none else some ratio.ringSize
    idxStateSlots := args.ratios.map fun ratio =>
      if ratio = .four then some (nWinPages * CompressRatio.four.ringSize) else none }

/-- What one layer adds to `dsv4_pool_bytes`. -/
def layerBytes (sizes : DSV4PoolSizes) (args : Dsv4Args) (nScratch : Nat) (layer : Nat)
    (ratio : CompressRatio) : Nat :=
  let entry := fun (tier : List (Option Nat)) => (tier.getD layer none).getD 0
  if ratio = .zero then 0
  else (entry sizes.cmpBlocks + nScratch) * args.kvBytes +
    (entry sizes.stateSlots + 1) * args.stateBytes ratio +
    if ratio = .four then
      (entry sizes.idxBlocks + nScratch) * args.indexBytes +
        (entry sizes.idxStateSlots + 1) * args.idxStateBytes
    else 0

/-- `dsv4_pool_bytes`. -/
def dsv4PoolBytes (sizes : DSV4PoolSizes) (args : Dsv4Args) (nScratch : Nat) : Nat :=
  args.ratios.length * sizes.nWinSlots * args.kvBytes + (sizes.fullToken + 1) * 8 +
    (args.ratios.zipIdx.map fun entry => layerBytes sizes args nScratch entry.2 entry.1).sum

/-! ## The solver -/

/-- The sizes that the solver tries. -/
def solverSizes (args : Dsv4Args) (swaRatio : ℚ) (floorWinPages P num : Nat) : DSV4PoolSizes :=
  dsv4PoolSizes num args swaRatio P (some (max floorWinPages (windowPages swaRatio (num * P) P)))

def solverFits (available : Int) (args : Dsv4Args) (swaRatio : ℚ) (floorWinPages P nScratch num : Nat) :
    Bool :=
  (dsv4PoolBytes (solverSizes args swaRatio floorWinPages P num) args nScratch : Int) ≤ available

/-- The pages of the smallest pool. -/
def minimalPages (floorWinPages : Nat) : Nat := max floorWinPages 2

def tooSmall (available : Int) (lo floorWinPages : Nat) : String :=
  s!"DSV4 KV budget {available} bytes cannot fit the minimal pool ({lo} pages incl. the window " ++
    s!"working-set floor {floorWinPages}); raise memory_ratio or lower max_running_req/max_seq_len"

/-- `dsv4_solve_num_pages`; none when a loop runs out of fuel. -/
def dsv4SolveNumPages (fuel : Nat) (available : Int) (args : Dsv4Args) (swaRatio : ℚ)
    (floorWinPages P nScratch : Nat) : Option (Except String DSV4PoolSizes) :=
  let fits := solverFits available args swaRatio floorWinPages P nScratch
  let lo := minimalPages floorWinPages
  if !fits lo then some (.error (tooSmall available lo floorWinPages))
  else
    let hi := max lo (available / (max 1 (dsv4CachePerPage args 0 P) : Nat)).toNat
    (double fits fuel hi).bind fun hi => (halve fits fuel lo hi).map fun num =>
      .ok (solverSizes args swaRatio floorWinPages P num)

/-! ## What is built -/

structure Dsv4Config where
  args : Dsv4Args
  maxSeqLen : Nat
  maxRunningReq : Nat
  /-- `cache_type` is not `"naive"`. -/
  radix : Bool
  swaFullTokensRatio : ℚ
  swaNumPagesOverride : Option Int
  /-- `DSV4_FORCE_SMALL_POOL`, a test hook. -/
  forceSmallPool : Option Int

namespace Dsv4Config

variable (config : Dsv4Config)

/-- `dsv4_reserved_window_pages`. -/
def reservedWindowPages (maxRunningReq : Nat) (radix : Bool) : Nat :=
  2 * (maxRunningReq + 1) + (if radix then 3 * maxRunningReq else 0) + 1

/-- `_dsv4_window_floor_pages`. -/
def windowFloorPages (P : Nat) : Nat :=
  min ((config.maxSeqLen + P - 1) / P) 8 + reservedWindowPages config.maxRunningReq config.radix

/-- The pages of a pinned window: one more for the dummy page, floored and capped. -/
def pinnedWindow (floorPages numPages : Nat) (target : Int) : Nat :=
  min numPages (max (floorPages : Int) (target + 1)).toNat

/-- `_dsv4_pool_sizes`. -/
def poolSizes (numPages : Nat) (numSwaPages : Option Int) : DSV4PoolSizes :=
  let P := config.args.windowSize
  match config.forceSmallPool with
  | some forced =>
    dsv4PoolSizes (max 2 forced).toNat config.args config.swaFullTokensRatio P none
  | none =>
    let floorPages := config.windowFloorPages P
    let win := match numSwaPages.or config.swaNumPagesOverride with
      | some target => pinnedWindow floorPages numPages target
      | none => max floorPages (windowPages config.swaFullTokensRatio (numPages * P) P)
    dsv4PoolSizes numPages config.args config.swaFullTokensRatio P (some win)

/-- The call of the solver in `solve_num_pages`. -/
def solveNumPages (fuel : Nat) (available : Int) : Option (Except String DSV4PoolSizes) :=
  dsv4SolveNumPages fuel available config.args config.swaFullTokensRatio
    (config.windowFloorPages config.args.windowSize) config.args.windowSize
    (config.maxRunningReq + 1)

end Dsv4Config

/-! ## Rounding -/

section Rounding

theorem roundHalfEven_ge_floor (q : ℚ) : ⌊q⌋ ≤ roundHalfEven q := by
  unfold roundHalfEven
  simp only
  split_ifs <;> omega

theorem roundHalfEven_le_floor (q : ℚ) : roundHalfEven q ≤ ⌊q⌋ + 1 := by
  unfold roundHalfEven
  simp only
  split_ifs <;> omega

theorem roundHalfEven_mono {x y : ℚ} (h : x ≤ y) : roundHalfEven x ≤ roundHalfEven y := by
  rcases (Int.floor_le_floor h).lt_or_eq with hlt | heq
  · have := roundHalfEven_le_floor x
    have := roundHalfEven_ge_floor y
    omega
  · -- the same whole part, so the fractions decide
    unfold roundHalfEven
    simp only
    rw [heq]
    have hd : x - (⌊y⌋ : ℚ) ≤ y - (⌊y⌋ : ℚ) := sub_le_sub_right h _
    split_ifs with h1 h2 h3 h4 h5 h6 h7 h8 h9
    all_goals first
      | omega
      | (exfalso; linarith)

theorem windowPages_mono {swaRatio : ℚ} (hr : 0 ≤ swaRatio) {m n P : Nat} (h : m ≤ n) :
    windowPages swaRatio m P ≤ windowPages swaRatio n P := by
  have hround : roundHalfEven (swaRatio * m) ≤ roundHalfEven (swaRatio * n) :=
    roundHalfEven_mono (mul_le_mul_of_nonneg_left (by exact_mod_cast h) hr)
  exact Nat.div_le_div_right (by omega)

end Rounding

/-! ## Bytes -/

section Bytes

variable {args : Dsv4Args} {swaRatio : ℚ} {P nScratch : Nat}

/-- What one layer adds, from the full history and the window pages. -/
def layerCost (args : Dsv4Args) (nScratch fullToken nWinPages : Nat) (ratio : CompressRatio) : Nat :=
  if ratio = .zero then 0
  else (fullToken / ratio.value + nScratch) * args.kvBytes +
    (nWinPages * ratio.ringSize + 1) * args.stateBytes ratio +
    if ratio = .four then
      (fullToken / 4 + nScratch) * args.indexBytes +
        (nWinPages * CompressRatio.four.ringSize + 1) * args.idxStateBytes
    else 0

theorem getD_map_ratio {f : CompressRatio → Option Nat} {layer : Nat} {ratio : CompressRatio}
    (h : args.ratios[layer]? = some ratio) : (args.ratios.map f).getD layer none = f ratio := by
  rw [List.getD_eq_getElem?_getD, List.getElem?_map, h]
  rfl

theorem poolBytes_eq (num : Nat) (win : Nat) :
    dsv4PoolBytes (dsv4PoolSizes num args swaRatio P (some win)) args nScratch =
      args.ratios.length * (min win num * P) * args.kvBytes + (num * P + 1) * 8 +
        (args.ratios.map (layerCost args nScratch (num * P) (min win num))).sum := by
  have hlayers : args.ratios.zipIdx.map (fun entry =>
      layerBytes (dsv4PoolSizes num args swaRatio P (some win)) args nScratch entry.2 entry.1) =
      args.ratios.map (layerCost args nScratch (num * P) (min win num)) := by
    have hfst : args.ratios.map (layerCost args nScratch (num * P) (min win num)) =
        (args.ratios.zipIdx.map Prod.fst).map
          (layerCost args nScratch (num * P) (min win num)) := by
      rw [List.zipIdx_map_fst]
    rw [hfst, List.map_map]
    refine List.map_congr_left fun entry hentry => ?_
    have hget : args.ratios[entry.2]? = some entry.1 := List.mk_mem_zipIdx_iff_getElem?.mp hentry
    unfold layerBytes layerCost dsv4PoolSizes
    simp only [getD_map_ratio hget, Function.comp, Option.getD_some]
    cases entry.1 <;> rfl
  unfold dsv4PoolBytes
  rw [hlayers]
  rfl

theorem layerCost_mono {m n w v : Nat} (hn : m ≤ n) (hw : w ≤ v) (ratio : CompressRatio) :
    layerCost args nScratch m w ratio ≤ layerCost args nScratch n v ratio := by
  have hdiv : ∀ k, m / k ≤ n / k := fun k => Nat.div_le_div_right hn
  unfold layerCost
  split
  · exact Nat.le_refl _
  · have hblocks := Nat.mul_le_mul_right args.kvBytes
      (Nat.add_le_add_right (hdiv ratio.value) nScratch)
    have hstate := Nat.mul_le_mul_right (args.stateBytes ratio)
      (Nat.add_le_add_right (Nat.mul_le_mul_right ratio.ringSize hw) 1)
    have hindex := Nat.mul_le_mul_right args.indexBytes (Nat.add_le_add_right (hdiv 4) nScratch)
    have hidx := Nat.mul_le_mul_right args.idxStateBytes
      (Nat.add_le_add_right (Nat.mul_le_mul_right CompressRatio.four.ringSize hw) 1)
    split
    · omega
    · omega

/-- **More pages, and more window pages, never take less.** -/
theorem poolBytes_mono {m n w v : Nat} (hn : m ≤ n) (hw : min w m ≤ min v n) :
    dsv4PoolBytes (dsv4PoolSizes m args swaRatio P (some w)) args nScratch ≤
      dsv4PoolBytes (dsv4PoolSizes n args swaRatio P (some v)) args nScratch := by
  rw [poolBytes_eq, poolBytes_eq]
  have hfull := Nat.mul_le_mul_right P hn
  have hwindow := Nat.mul_le_mul_right args.kvBytes
    (Nat.mul_le_mul_left args.ratios.length (Nat.mul_le_mul_right P hw))
  have hlayers : (args.ratios.map (layerCost args nScratch (m * P) (min w m))).sum ≤
      (args.ratios.map (layerCost args nScratch (n * P) (min v n))).sum :=
    List.sum_le_sum fun ratio _ => layerCost_mono hfull hw ratio
  omega

/-- The map of the tokens alone takes more bytes than there are pages. -/
theorem lt_poolBytes (hP : 0 < P) (num win : Nat) :
    num < dsv4PoolBytes (dsv4PoolSizes num args swaRatio P (some win)) args nScratch := by
  rw [poolBytes_eq]
  have := Nat.le_mul_of_pos_right num hP
  omega

end Bytes

/-! ## The solver -/

section Solver

variable {args : Dsv4Args} {swaRatio : ℚ} {floorWinPages P nScratch : Nat}

theorem solverBytes_mono (hr : 0 ≤ swaRatio) {m n : Nat} (h : m ≤ n) :
    dsv4PoolBytes (solverSizes args swaRatio floorWinPages P m) args nScratch ≤
      dsv4PoolBytes (solverSizes args swaRatio floorWinPages P n) args nScratch := by
  have hwindow := windowPages_mono hr (P := P) (Nat.mul_le_mul_right P h)
  exact poolBytes_mono h (by omega)

/-- What the search comes to: the greatest page count that fits, from the smallest pool on. -/
structure Greatest (available : Int) (args : Dsv4Args) (swaRatio : ℚ)
    (floorWinPages P nScratch num : Nat) : Prop where
  least : minimalPages floorWinPages ≤ num
  fits : (dsv4PoolBytes (solverSizes args swaRatio floorWinPages P num) args nScratch : Int) ≤
    available
  greatest : ∀ n, num < n →
    available < dsv4PoolBytes (solverSizes args swaRatio floorWinPages P n) args nScratch

/-- **The search ends**: with an error when the smallest pool does not fit, and else at the
greatest that does. -/
theorem solve_spec (hr : 0 ≤ swaRatio) (hP : 0 < P) (available : Int) :
    ∃ enough, ∀ fuel, enough ≤ fuel →
      (available < dsv4PoolBytes (solverSizes args swaRatio floorWinPages P
          (minimalPages floorWinPages)) args nScratch ∧
        dsv4SolveNumPages fuel available args swaRatio floorWinPages P nScratch =
          some (.error (tooSmall available (minimalPages floorWinPages) floorWinPages))) ∨
      ∃ num, dsv4SolveNumPages fuel available args swaRatio floorWinPages P nScratch =
          some (.ok (solverSizes args swaRatio floorWinPages P num)) ∧
        Greatest available args swaRatio floorWinPages P nScratch num := by
  have hfits : ∀ num, solverFits available args swaRatio floorWinPages P nScratch num = true ↔
      (dsv4PoolBytes (solverSizes args swaRatio floorWinPages P num) args nScratch : Int) ≤
        available := fun num => decide_eq_true_iff
  have hnot : ∀ num, solverFits available args swaRatio floorWinPages P nScratch num = false ↔
      available < dsv4PoolBytes (solverSizes args swaRatio floorWinPages P num) args nScratch := by
    intro num
    rw [← Bool.not_eq_true, hfits, not_le]
  obtain ⟨hi, hhi⟩ : ∃ hi, hi = max (minimalPages floorWinPages)
    (available / (max 1 (dsv4CachePerPage args 0 P) : Nat)).toNat := ⟨_, rfl⟩
  have hlo2 : 2 ≤ minimalPages floorWinPages := Nat.le_max_right _ _
  refine ⟨max hi (available.toNat * 2) + available.toNat + 1, fun fuel hfuel => ?_⟩
  cases hmin : solverFits available args swaRatio floorWinPages P nScratch
      (minimalPages floorWinPages) with
  | false =>
    left
    refine ⟨(hnot _).mp hmin, ?_⟩
    unfold dsv4SolveNumPages
    simp only [hmin]
    rfl
  | true =>
    right
    -- a page takes a byte at least, so the doubling comes to an end
    have hbound : ∀ n, available.toNat ≤ n →
        solverFits available args swaRatio floorWinPages P nScratch n = false := by
      intro n hn
      rw [hnot]
      have hlt : n < dsv4PoolBytes (solverSizes args swaRatio floorWinPages P n) args nScratch :=
        lt_poolBytes hP n _
      omega
    obtain ⟨high, hdouble, hge, hle, hhigh⟩ :=
      double_spec hbound fuel hi (by omega) (by omega) (by omega)
    have hlohigh : minimalPages floorWinPages < high := by
      refine lt_of_le_of_ne (by omega) fun heq => ?_
      rw [← heq, hmin] at hhigh
      cases hhigh
    obtain ⟨num, hhalve, hnum, hnumfits, hnext⟩ :=
      halve_spec fuel (minimalPages floorWinPages) high hlohigh (by omega) hmin hhigh
    refine ⟨num, ?_, hnum, (hfits num).mp hnumfits, fun n hn => ?_⟩
    · unfold dsv4SolveNumPages
      simp only [← hhi, hmin, hdouble, Option.bind_some, hhalve, Option.map_some]
      rfl
    · -- more pages take more bytes, so the first that does not fit is the bound
      have hclosed : ∀ m k, minimalPages floorWinPages ≤ m → m ≤ k →
          solverFits available args swaRatio floorWinPages P nScratch k = true →
            solverFits available args swaRatio floorWinPages P nScratch m = true := by
        intro m k _ hmk hk
        rw [hfits] at hk ⊢
        have := @solverBytes_mono args swaRatio floorWinPages P nScratch hr _ _ hmk
        omega
      exact (hnot n).mp (greatest_of_next hclosed hnum hnext hn)

end Solver

/-! ## What is built of it -/

section Built

variable {config : Dsv4Config} {num : Nat}

/-- **Without a pinned window, what is built is what was solved for.** -/
theorem poolSizes_eq_solver (hforce : config.forceSmallPool = none)
    (hpin : config.swaNumPagesOverride = none) (num : Nat) :
    config.poolSizes num none = solverSizes config.args config.swaFullTokensRatio
      (config.windowFloorPages config.args.windowSize) config.args.windowSize num := by
  unfold Dsv4Config.poolSizes
  rw [hforce, hpin]
  rfl

theorem poolSizes_pinned (hforce : config.forceSmallPool = none) {target : Int}
    (hpin : config.swaNumPagesOverride = some target) (num : Nat) :
    config.poolSizes num none = dsv4PoolSizes num config.args config.swaFullTokensRatio
      config.args.windowSize (some (Dsv4Config.pinnedWindow
        (config.windowFloorPages config.args.windowSize) num target)) := by
  unfold Dsv4Config.poolSizes
  rw [hforce, hpin]
  rfl

/-- What is built has the window pages of the floor, when there are as many pages. -/
theorem floor_le_poolSizes (hforce : config.forceSmallPool = none)
    (hnum : config.windowFloorPages config.args.windowSize ≤ num) :
    config.windowFloorPages config.args.windowSize ≤ (config.poolSizes num none).nWinPages := by
  cases hpin : config.swaNumPagesOverride with
  | none =>
    rw [poolSizes_eq_solver hforce hpin]
    exact le_min (Nat.le_max_left _ _) hnum
  | some target =>
    rw [poolSizes_pinned hforce hpin]
    unfold dsv4PoolSizes Dsv4Config.pinnedWindow
    simp only [Option.getD_some]
    omega

/-- A pinned window that is no larger than the solver's fits as well. -/
theorem poolSizes_fits {available : Int} {nScratch : Nat}
    (hforce : config.forceSmallPool = none)
    (hfits : (dsv4PoolBytes (solverSizes config.args config.swaFullTokensRatio
      (config.windowFloorPages config.args.windowSize) config.args.windowSize num) config.args
      nScratch : Int) ≤ available)
    (hpin : ∀ target ∈ config.swaNumPagesOverride,
      max (config.windowFloorPages config.args.windowSize : Int) (target + 1) ≤
        (solverSizes config.args config.swaFullTokensRatio
          (config.windowFloorPages config.args.windowSize) config.args.windowSize num).nWinPages) :
    (dsv4PoolBytes (config.poolSizes num none) config.args nScratch : Int) ≤ available := by
  cases htarget : config.swaNumPagesOverride with
  | none =>
    rw [poolSizes_eq_solver hforce htarget]
    exact hfits
  | some target =>
    have hle := hpin target htarget
    rw [poolSizes_pinned hforce htarget]
    refine le_trans (Int.ofNat_le.mpr (poolBytes_mono (Nat.le_refl num) ?_)) hfits
    unfold solverSizes dsv4PoolSizes at hle
    simp only [Option.getD_some] at hle
    unfold Dsv4Config.pinnedWindow
    omega

theorem solverSizes_pages {args : Dsv4Args} {swaRatio : ℚ} {floorWinPages P : Nat} (hP : 0 < P) :
    (solverSizes args swaRatio floorWinPages P num).fullToken / P = num :=
  Nat.mul_div_cancel num hP

/-- **The sizing of the DSV4 pools.** The solver ends, with an error just when the smallest pool
does not fit, and else at the greatest page count that does. What is then built for that count has
the window pages of the floor, and fits as well, unless its window is pinned above the solver's. -/
theorem dsv4_sizing :
    (∀ (available : Int) (args : Dsv4Args) (swaRatio : ℚ) (floorWinPages P nScratch : Nat),
      0 < swaRatio ∧ swaRatio ≤ 1 → 0 < P → ∃ enough, ∀ fuel, enough ≤ fuel →
        (available < dsv4PoolBytes (solverSizes args swaRatio floorWinPages P
            (minimalPages floorWinPages)) args nScratch ∧
          dsv4SolveNumPages fuel available args swaRatio floorWinPages P nScratch =
            some (.error (tooSmall available (minimalPages floorWinPages) floorWinPages))) ∨
        ∃ num, dsv4SolveNumPages fuel available args swaRatio floorWinPages P nScratch =
            some (.ok (solverSizes args swaRatio floorWinPages P num)) ∧
          Greatest available args swaRatio floorWinPages P nScratch num) ∧
    ∀ (config : Dsv4Config) (available : Int), config.forceSmallPool = none →
      0 < config.swaFullTokensRatio ∧ config.swaFullTokensRatio ≤ 1 → 0 < config.args.windowSize →
        ∃ enough, ∀ fuel, enough ≤ fuel → ∀ sizes,
          config.solveNumPages fuel available = some (.ok sizes) →
            let floorPages := config.windowFloorPages config.args.windowSize
            let pool := config.poolSizes (sizes.fullToken / config.args.windowSize) none
            floorPages ≤ pool.nWinPages ∧
              ((∀ target ∈ config.swaNumPagesOverride,
                  max (floorPages : Int) (target + 1) ≤ sizes.nWinPages) →
                (dsv4PoolBytes pool config.args (config.maxRunningReq + 1) : Int) ≤ available) := by
  refine ⟨fun available args swaRatio floorWinPages P nScratch hr hP =>
    solve_spec hr.1.le hP available, fun config available hforce hr hP => ?_⟩
  obtain ⟨enough, henough⟩ := @solve_spec config.args _
    (config.windowFloorPages config.args.windowSize) _ (config.maxRunningReq + 1) hr.1.le hP
    available
  refine ⟨enough, fun fuel hfuel sizes hsolve => ?_⟩
  rcases henough fuel hfuel with ⟨-, herror⟩ | ⟨num, hnum, hgreatest⟩
  · rw [Dsv4Config.solveNumPages, herror] at hsolve
    cases hsolve
  · rw [Dsv4Config.solveNumPages, hnum, Option.some.injEq, Except.ok.injEq] at hsolve
    subst hsolve
    simp only
    rw [solverSizes_pages hP]
    exact ⟨floor_le_poolSizes hforce (le_trans (Nat.le_max_left _ _) hgreatest.least),
      poolSizes_fits hforce hgreatest.fits⟩

/-- A window pinned at more pages than the solver counted. -/
def pinnedConfig : Dsv4Config where
  args := ⟨1, 0, 1, [.zero], 1⟩
  maxSeqLen := 1
  maxRunningReq := 1
  radix := false
  swaFullTokensRatio := 1 / 2
  swaNumPagesOverride := some 100
  forceSmallPool := none

theorem pinned_exceeds : ¬∀ (config : Dsv4Config) (available : Int) (fuel : Nat) (sizes : DSV4PoolSizes),
    config.forceSmallPool = none →
      0 < config.swaFullTokensRatio ∧ config.swaFullTokensRatio ≤ 1 → 0 < config.args.windowSize →
        config.solveNumPages fuel available = some (.ok sizes) →
          (dsv4PoolBytes (config.poolSizes (sizes.fullToken / config.args.windowSize) none)
            config.args (config.maxRunningReq + 1) : Int) ≤ available := by
  intro h
  have hsolve : pinnedConfig.solveNumPages 50 188 = some (.ok (solverSizes pinnedConfig.args (1 / 2)
      (pinnedConfig.windowFloorPages 1) 1 20)) := by
    decide +kernel
  have hfits := h pinnedConfig 188 50 _ rfl (by decide +kernel) (by decide) hsolve
  revert hfits
  decide +kernel

end Built

end FreeToken.KvCache
