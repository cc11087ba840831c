import FreeToken.Lib.FreeList
import FreeToken.Lib.Reach
import Mathlib.Data.List.Dedup
import Mathlib.Data.List.Sort
import Mathlib.Data.Nat.ModEq

/-!
# Window pages

The window tier of the DSV4 pool: a map from full locs to window slots, written a page at a time,
and the list of the free window pages. The last page of both is the dummy, which is bound when the
pool is built. Main results:

* `allocSwa_pages`, `freeSwa_pages`: what the two do to whole pages, by their numbers.
* `step_owned`: the pages stay owned once.
* `windowPages_owned`: in all states that runs reach, so do the slots and the compress-state rings.
* `freeSwa_dummy`: nothing keeps the dummy from being freed.
-/

namespace FreeToken.KvCache

open FreeToken.Lib Function

/-! ## The pool -/

/-- What of the pool its two operations use. An entry of `-1` is `none`. -/
structure WindowPool where
  pageSize : Nat
  fullToken : Nat
  nWinSlots : Nat
  fullToWindow : Nat → Option Nat
  /-- The bases of the free window pages; the last is taken first. -/
  free : List Nat

inductive WindowError where
  | wholePages (slots : Nat)
  | contiguous
  | outOfSlots (requested available capacity unit : Nat)
  | partialPages (counts : List Nat)
  deriving DecidableEq

def WindowError.message : WindowError → String
  | wholePages n => s!"alloc_swa needs whole pages, got {n} slots"
  | contiguous => "alloc_swa pages must be contiguous ascending"
  | outOfSlots requested available capacity unit =>
    s!"FreeListAllocator out of slots: requested {requested} units, have {available} " ++
      s!"(capacity {capacity}, unit {unit})"
  | partialPages counts => s!"free_swa got partial pages (counts {counts.take 4})"

/-- `tensor[keys] = values`. -/
def scatter {α : Type} (m : Nat → α) (keys : List Nat) (values : List α) : Nat → α :=
  (keys.zip values).foldl (fun m q => update m q.1 q.2) m

/-- A page's slots. -/
def pageSlots (pageSize base : Nat) : List Nat := List.range' base pageSize

/-- `_init_paged_state`. -/
def initPagedState (pageSize fullToken nWinSlots : Nat) : WindowPool where
  pageSize := pageSize
  fullToken := fullToken
  nWinSlots := nWinSlots
  fullToWindow := scatter (fun _ => none) (pageSlots pageSize (fullToken - pageSize))
    ((pageSlots pageSize (nWinSlots - pageSize)).map some)
  free := (List.range ((nWinSlots - pageSize) / pageSize)).map (· * pageSize)

/-- `FreeListAllocator.alloc`: the units, and the list without them. -/
def allocUnits (pool : WindowPool) (nUnits : Nat) : Except WindowError (List Nat × List Nat) :=
  if pool.free.length < nUnits then
    .error (.outOfSlots nUnits pool.free.length (pool.nWinSlots - pool.pageSize) pool.pageSize)
  else .ok (pool.free.drop (pool.free.length - nUnits), pool.free.take (pool.free.length - nUnits))

/-- `view(-1, P)`. -/
def rows (pageSize : Nat) (l : List Nat) : List (List Nat) :=
  (List.range (l.length / pageSize)).map fun i => (l.drop (i * pageSize)).take pageSize

/-- `alloc_swa`. -/
def allocSwa (pool : WindowPool) (fullIndices : List Nat) : Except WindowError WindowPool :=
  if fullIndices.length = 0 then .ok pool
  else if fullIndices.length % pool.pageSize ≠ 0 then .error (.wholePages fullIndices.length)
  else
    let fi := rows pool.pageSize fullIndices
    let fbases := fi.map fun row => row.headD 0
    if fi ≠ fbases.map (pageSlots pool.pageSize) then .error .contiguous
    else
      match allocUnits pool fbases.length with
      | .error e => .error e
      | .ok (wbases, free) =>
        .ok { pool with
          fullToWindow := scatter pool.fullToWindow (fbases.flatMap (pageSlots pool.pageSize))
            ((wbases.flatMap (pageSlots pool.pageSize)).map some)
          free := free }

/-- The bases of the pages that are touched, ascending. -/
def touchedBases (pageSize : Nat) (locs : List Nat) : List Nat :=
  ((locs.map fun x => x / pageSize * pageSize).insertionSort (· ≤ ·)).dedup

/-- `free_swa`; a loc below zero is no loc. -/
def freeSwa (pool : WindowPool) (fullIndices : List Int) : Except WindowError WindowPool :=
  let fi := (fullIndices.filter (0 ≤ ·)).map Int.toNat
  if fi.length = 0 then .ok pool else
  let fbases := touchedBases pool.pageSize fi
  let counts := fbases.map fun b => fi.countP fun x => x / pool.pageSize * pool.pageSize = b
  if ∃ n ∈ counts, n ≠ pool.pageSize then
    .error (.partialPages (counts.filter (· ≠ pool.pageSize)))
  else
    let live := fbases.filterMap pool.fullToWindow
    let keys := fbases.flatMap (pageSlots pool.pageSize)
    .ok { pool with
      fullToWindow := scatter pool.fullToWindow keys (keys.map fun _ => none)
      free := pool.free ++ live.map fun w => w / pool.pageSize * pool.pageSize }

/-- `state_loc`. -/
def stateLoc (windowSlot : Option Nat) (ringSize pageSize : Nat) : Option Nat :=
  windowSlot.map fun w => w / pageSize * ringSize + w % ringSize

/-- `ring_size_for_ratio`. -/
def ringSizeForRatio (ratio : Nat) : Except String Nat :=
  if ratio = 4 then .ok 8
  else if ratio = 128 then .ok 128
  else .error s!"no ring for ratio {ratio} (only 4 / 128)"

/-! ## By pages -/

section Scatter

variable {α : Type} {m : Nat → α} {pageSize : Nat}

/-- A page that is written. -/
theorem scatter_range (a : Nat) (f : Nat → α) (n : Nat) (x : Nat) :
    scatter m (List.range' a n) ((List.range n).map f) x =
      if a ≤ x ∧ x < a + n then f (x - a) else m x := by
  induction n generalizing x with
  | zero =>
    rw [if_neg (by omega)]
    rfl
  | succ n ih =>
    have hzip : (List.range' a (n + 1)).zip ((List.range (n + 1)).map f) =
        (List.range' a n).zip ((List.range n).map f) ++ [(a + n, f n)] := by
      rw [List.range'_concat, List.range_succ, List.map_append, List.zip_append (by simp)]
      simp
    unfold scatter at ih ⊢
    rw [hzip, List.foldl_append, List.foldl_cons, List.foldl_nil]
    by_cases hx : x = a + n
    · rw [hx, update_self, if_pos (by omega), Nat.add_sub_cancel_left]
    · rw [update_of_ne hx, ih]
      by_cases hin : a ≤ x ∧ x < a + n
      · rw [if_pos hin, if_pos (by omega)]
      · rw [if_neg hin, if_neg (by omega)]

theorem scatter_append {keys keys' : List Nat} {values values' : List α}
    (h : keys.length = values.length) :
    scatter m (keys ++ keys') (values ++ values') = scatter (scatter m keys values) keys' values' := by
  unfold scatter
  rw [List.zip_append h, List.foldl_append]

end Scatter

section Tokens

variable {pageSize : Nat} {bound : Nat → Option Nat}

/-- The map of locs of a map of pages. -/
def tokens (pageSize : Nat) (bound : Nat → Option Nat) (x : Nat) : Option Nat :=
  (bound (x / pageSize)).map fun w => w * pageSize + x % pageSize

theorem mem_page (hpage : 0 < pageSize) {p x : Nat} :
    p * pageSize ≤ x ∧ x < p * pageSize + pageSize ↔ x / pageSize = p := by
  rw [Nat.div_eq_iff hpage]
  omega

/-- A write of one page. -/
theorem scatter_page (hpage : 0 < pageSize) (p : Nat) (entry : Option Nat) :
    scatter (tokens pageSize bound) (pageSlots pageSize (p * pageSize))
      ((List.range pageSize).map fun i => entry.map fun w => w * pageSize + i) =
        tokens pageSize (update bound p entry) := by
  funext x
  unfold pageSlots
  rw [scatter_range]
  unfold tokens
  by_cases hx : x / pageSize = p
  · have hin := (mem_page hpage).mpr hx
    have hoffset : x - p * pageSize = x % pageSize := by
      have hmod := Nat.div_add_mod x pageSize
      rw [hx, Nat.mul_comm] at hmod
      omega
    rw [if_pos hin, hx, update_self, hoffset]
  · rw [if_neg (fun hin => hx ((mem_page hpage).mp hin)), update_of_ne hx]

theorem pageSlots_some (w : Nat) : (pageSlots pageSize (w * pageSize)).map some =
    (List.range pageSize).map fun i => (some w).map fun w => w * pageSize + i := by
  unfold pageSlots
  rw [List.range'_eq_map_range, List.map_map]
  rfl

/-- **A write of whole pages is one of their numbers.** -/
theorem scatter_bind (hpage : 0 < pageSize) {ps ws : List Nat} (h : ps.length = ws.length) :
    scatter (tokens pageSize bound) ((ps.map (· * pageSize)).flatMap (pageSlots pageSize))
      (((ws.map (· * pageSize)).flatMap (pageSlots pageSize)).map some) =
        tokens pageSize (bindAll bound ps ws) := by
  induction ps generalizing ws bound with
  | nil =>
    cases ws with
    | nil => rfl
    | cons w ws => cases h
  | cons p ps ih =>
    cases ws with
    | nil => cases h
    | cons w ws =>
      rw [List.map_cons, List.map_cons, List.flatMap_cons, List.flatMap_cons, List.map_append,
        scatter_append (by simp [pageSlots]), pageSlots_some, scatter_page hpage,
        ih (by simpa using h)]
      rfl

/-- So is one of `-1`. -/
theorem scatter_unbind (hpage : 0 < pageSize) (ps : List Nat) :
    scatter (tokens pageSize bound) ((ps.map (· * pageSize)).flatMap (pageSlots pageSize))
      (((ps.map (· * pageSize)).flatMap (pageSlots pageSize)).map fun _ => none) =
        tokens pageSize (unbindAll bound ps) := by
  induction ps generalizing bound with
  | nil => rfl
  | cons p ps ih =>
    have hnone : (pageSlots pageSize (p * pageSize)).map (fun _ => (none : Option Nat)) =
        (List.range pageSize).map fun i => none.map fun w => w * pageSize + i := by
      unfold pageSlots
      rw [List.range'_eq_map_range, List.map_map]
      rfl
    rw [List.map_cons, List.flatMap_cons, List.map_append, scatter_append (by simp), hnone,
      scatter_page hpage, ih]
    rfl

end Tokens

/-! ## The operations, by pages -/

section Pages

variable {pool : WindowPool} {bound : Nat → Option Nat} {pages ps : List Nat}

/-- The locs of whole pages. -/
def wholeLocs (pageSize : Nat) (ps : List Nat) : List Nat :=
  (ps.map (· * pageSize)).flatMap (pageSlots pageSize)

/-- A pool is the maps of its pages, taken by slots. -/
structure Paged (pool : WindowPool) (bound : Nat → Option Nat) (pages : List Nat) : Prop where
  page : 0 < pool.pageSize
  map : pool.fullToWindow = tokens pool.pageSize bound
  free : pool.free = pages.map (· * pool.pageSize)

theorem wholeLocs_length (pageSize : Nat) (ps : List Nat) :
    (wholeLocs pageSize ps).length = ps.length * pageSize := by
  induction ps with
  | nil => simp [wholeLocs]
  | cons p ps ih =>
    unfold wholeLocs at ih ⊢
    rw [List.map_cons, List.flatMap_cons, List.length_append, ih, List.length_cons]
    unfold pageSlots
    rw [List.length_range', Nat.add_mul, Nat.one_mul, Nat.add_comm]

theorem mem_wholeLocs {pageSize x : Nat} (hpage : 0 < pageSize) :
    x ∈ wholeLocs pageSize ps ↔ x / pageSize ∈ ps := by
  unfold wholeLocs pageSlots
  rw [List.mem_flatMap]
  simp only [List.mem_map, List.mem_range'_1, exists_exists_and_eq_and]
  constructor
  · rintro ⟨p, hp, hx⟩
    exact (mem_page hpage).mp hx ▸ hp
  · exact fun hp => ⟨_, hp, (mem_page hpage).mpr rfl⟩

theorem rows_wholeLocs {pageSize : Nat} (hpage : 0 < pageSize) (ps : List Nat) :
    rows pageSize (wholeLocs pageSize ps) = (ps.map (· * pageSize)).map (pageSlots pageSize) := by
  have hgen : ∀ ps : List Nat, (List.range ps.length).map (fun i =>
      ((wholeLocs pageSize ps).drop (i * pageSize)).take pageSize) =
        (ps.map (· * pageSize)).map (pageSlots pageSize) := by
    intro ps
    induction ps with
    | nil => rfl
    | cons p ps ih =>
      have hlength : (pageSlots pageSize (p * pageSize)).length = pageSize := by simp [pageSlots]
      have hsplit : wholeLocs pageSize (p :: ps) =
          pageSlots pageSize (p * pageSize) ++ wholeLocs pageSize ps := rfl
      rw [List.length_cons, List.range_succ_eq_map, List.map_cons, List.map_map, List.map_cons,
        List.map_cons, ← ih, hsplit]
      congr 1
      · rw [Nat.zero_mul, List.drop_zero, List.take_append_of_le_length (Nat.le_of_eq hlength.symm),
          List.take_of_length_le (Nat.le_of_eq hlength)]
      · refine List.map_congr_left fun i _ => ?_
        have hdrop : (i + 1) * pageSize =
            (pageSlots pageSize (p * pageSize)).length + i * pageSize := by
          rw [hlength, Nat.add_mul, Nat.one_mul, Nat.add_comm]
        rw [Function.comp_apply, Nat.succ_eq_add_one, hdrop, List.drop_append,
          List.drop_eq_nil_of_le (Nat.le_add_right _ _), List.nil_append, Nat.add_sub_cancel_left]
  unfold rows
  rw [wholeLocs_length, Nat.mul_div_cancel _ hpage]
  exact hgen ps

/-- **An allocation binds the last free pages**, and raises where there are not as many. -/
theorem allocSwa_pages (h : Paged pool bound pages) (ps : List Nat) :
    (pages.length < ps.length ∧ ∃ e, allocSwa pool (wholeLocs pool.pageSize ps) = .error e) ∨
      ∃ rest ws pool', pages = rest ++ ws ∧ ps.length = ws.length ∧
        allocSwa pool (wholeLocs pool.pageSize ps) = .ok pool' ∧
        pool'.pageSize = pool.pageSize ∧ pool'.fullToken = pool.fullToken ∧
        pool'.nWinSlots = pool.nWinSlots ∧
        Paged pool' (bindAll bound ps ws) rest := by
  have hpage := h.page
  cases ps with
  | nil =>
    exact Or.inr ⟨pages, [], pool, (List.append_nil _).symm, rfl, rfl, rfl, rfl, rfl, h⟩
  | cons p ps =>
    have hbases : (((p :: ps).map (· * pool.pageSize)).map (pageSlots pool.pageSize)).map (fun row =>
        row.headD 0) = (p :: ps).map (· * pool.pageSize) := by
      rw [List.map_map, List.map_map]
      refine List.map_congr_left fun q _ => ?_
      obtain ⟨n, hn⟩ := Nat.exists_eq_succ_of_ne_zero hpage.ne'
      simp [pageSlots, hn, List.range'_succ]
    have hne : (wholeLocs pool.pageSize (p :: ps)).length ≠ 0 := by
      rw [wholeLocs_length, List.length_cons]
      exact Nat.mul_ne_zero (by omega) hpage.ne'
    have hwhole : (wholeLocs pool.pageSize (p :: ps)).length % pool.pageSize = 0 := by
      rw [wholeLocs_length, Nat.mul_mod_left]
    have hcount : pool.free.length = pages.length := by rw [h.free, List.length_map]
    unfold allocSwa
    simp only [hne, if_false, hwhole, ne_eq, not_true_eq_false, rows_wholeLocs hpage, hbases]
    unfold allocUnits
    simp only [List.length_map, hcount]
    by_cases hfew : pages.length < (p :: ps).length
    · exact Or.inl ⟨hfew, _, by rw [if_pos hfew]⟩
    · right
      have hws : (pages.drop (pages.length - (p :: ps).length)).length = (p :: ps).length := by
        rw [List.length_drop]
        omega
      rw [if_neg hfew]
      refine ⟨_, _, _, (List.take_append_drop (pages.length - (p :: ps).length) pages).symm,
        hws.symm, rfl, rfl, rfl, rfl, hpage, ?_, ?_⟩
      · simp only
        rw [h.map, h.free, ← List.map_drop]
        exact scatter_bind hpage hws.symm
      · simp only
        rw [h.free, List.map_take]

/-- Each loc of the page is counted, and no other. -/
theorem countP_wholeLocs {pageSize : Nat} (hpage : 0 < pageSize) (hnodup : ps.Nodup) {p : Nat}
    (hp : p ∈ ps) :
    (wholeLocs pageSize ps).countP (fun x => x / pageSize * pageSize = p * pageSize) =
      pageSize := by
  have hone : ∀ q, (pageSlots pageSize (q * pageSize)).countP
      (fun x => x / pageSize * pageSize = p * pageSize) = if q = p then pageSize else 0 := by
    intro q
    have hslots : ∀ x ∈ pageSlots pageSize (q * pageSize), x / pageSize = q := fun x hx =>
      (mem_page hpage).mp (List.mem_range'_1.mp hx)
    split
    · next heq =>
      rw [List.countP_eq_length.mpr fun x hx => by simp [hslots x hx, heq]]
      simp [pageSlots]
    · next hne =>
      refine List.countP_eq_zero.mpr fun x hx => ?_
      rw [decide_eq_true_eq, hslots x hx]
      exact fun heq => hne (Nat.eq_of_mul_eq_mul_right hpage heq)
  have hcount : (wholeLocs pageSize ps).countP (fun x => x / pageSize * pageSize = p * pageSize) =
      ps.count p * pageSize := by
    clear hnodup hp
    induction ps with
    | nil => simp [wholeLocs]
    | cons q ps ih =>
      have hsplit : wholeLocs pageSize (q :: ps) =
          pageSlots pageSize (q * pageSize) ++ wholeLocs pageSize ps := rfl
      rw [hsplit, List.countP_append, hone, ih, List.count_cons]
      by_cases hq : q = p
      · simp [hq, Nat.add_mul, Nat.add_comm]
      · simp [hq]
  rw [hcount, List.count_eq_one_of_mem hnodup hp, Nat.one_mul]

/-- The bases of whole pages, in some order. -/
theorem touchedBases_perm {pageSize : Nat} (hpage : 0 < pageSize) (hnodup : ps.Nodup)
    {fi : List Nat} (hfi : fi.Perm (wholeLocs pageSize ps)) :
    ∃ qs : List Nat, qs.Perm ps ∧ touchedBases pageSize fi = qs.map (· * pageSize) := by
  have hmem : ∀ b, b ∈ touchedBases pageSize fi ↔ ∃ p ∈ ps, b = p * pageSize := by
    intro b
    unfold touchedBases
    rw [List.mem_dedup, List.mem_insertionSort, List.mem_map]
    constructor
    · rintro ⟨x, hx, rfl⟩
      exact ⟨_, (mem_wholeLocs hpage).mp (hfi.mem_iff.mp hx), rfl⟩
    · rintro ⟨p, hp, rfl⟩
      refine ⟨p * pageSize, hfi.mem_iff.mpr ((mem_wholeLocs hpage).mpr ?_), ?_⟩
      · rwa [Nat.mul_div_cancel _ hpage]
      · rw [Nat.mul_div_cancel _ hpage]
  have hback : (touchedBases pageSize fi).map (fun b => b / pageSize * pageSize) =
      touchedBases pageSize fi := by
    refine (List.map_congr_left fun b hb => ?_).trans (List.map_id _)
    obtain ⟨p, -, rfl⟩ := (hmem b).mp hb
    rw [Nat.mul_div_cancel _ hpage, id_eq]
  refine ⟨(touchedBases pageSize fi).map (· / pageSize), ?_, ?_⟩
  · refine (List.perm_ext_iff_of_nodup ?_ hnodup).mpr fun p => ?_
    · refine (List.nodup_dedup _).map_on fun b hb b' hb' heq => ?_
      obtain ⟨p, -, rfl⟩ := (hmem b).mp hb
      obtain ⟨p', -, rfl⟩ := (hmem b').mp hb'
      rw [Nat.mul_div_cancel _ hpage, Nat.mul_div_cancel _ hpage] at heq
      rw [heq]
    · rw [List.mem_map]
      constructor
      · rintro ⟨b, hb, rfl⟩
        obtain ⟨p, hp, rfl⟩ := (hmem b).mp hb
        rwa [Nat.mul_div_cancel _ hpage]
      · intro hp
        exact ⟨p * pageSize, (hmem _).mpr ⟨p, hp, rfl⟩, Nat.mul_div_cancel _ hpage⟩
  · rw [List.map_map]
    exact hback.symm

/-- **A free of whole pages puts on the list what they are bound to.** -/
theorem freeSwa_pages (h : Paged pool bound pages) (hnodup : ps.Nodup) {locs : List Int}
    (hlocs : ((locs.filter (0 ≤ ·)).map Int.toNat).Perm (wholeLocs pool.pageSize ps)) :
    ∃ (qs : List Nat) (pool' : WindowPool), qs.Perm ps ∧ freeSwa pool locs = .ok pool' ∧
      pool'.pageSize = pool.pageSize ∧ pool'.fullToken = pool.fullToken ∧
      pool'.nWinSlots = pool.nWinSlots ∧
      Paged pool' (unbindAll bound qs) (pages ++ qs.filterMap bound) := by
  have hpage := h.page
  obtain ⟨qs, hqs, hbases⟩ := touchedBases_perm hpage hnodup hlocs
  unfold freeSwa
  simp only
  by_cases hnone : ((locs.filter (0 ≤ ·)).map Int.toNat).length = 0
  · -- no loc, no page
    have hempty : ps = [] := by
      rw [hlocs.length_eq, wholeLocs_length, Nat.mul_eq_zero] at hnone
      exact List.length_eq_zero_iff.mp (hnone.resolve_right hpage.ne')
    subst hempty
    obtain rfl := List.perm_nil.mp hqs
    rw [if_pos hnone]
    refine ⟨[], pool, List.Perm.refl _, rfl, rfl, rfl, rfl, ?_⟩
    rw [List.filterMap_nil, List.append_nil]
    exact h
  · rw [if_neg hnone, hbases]
    have hwhole : ¬∃ n ∈ (qs.map (· * pool.pageSize)).map (fun b =>
        ((locs.filter (0 ≤ ·)).map Int.toNat).countP fun x =>
          x / pool.pageSize * pool.pageSize = b), n ≠ pool.pageSize := by
      rintro ⟨n, hn, hne⟩
      rw [List.map_map, List.mem_map] at hn
      obtain ⟨p, hp, rfl⟩ := hn
      refine hne ((hlocs.countP_eq _).trans ?_)
      exact countP_wholeLocs hpage hnodup (hqs.mem_iff.mp hp)
    rw [if_neg hwhole]
    refine ⟨qs, _, hqs, rfl, rfl, rfl, rfl, hpage, ?_, ?_⟩
    · simp only
      rw [h.map]
      exact scatter_unbind hpage qs
    · simp only
      rw [h.free, List.map_append, h.map, List.filterMap_map, List.map_filterMap, List.map_filterMap]
      congr 1
      refine List.filterMap_congr fun q _ => ?_
      unfold tokens
      rw [Function.comp_apply, Nat.mul_div_cancel _ hpage, Nat.mul_mod_left]
      cases bound q with
      | none => rfl
      | some w => simp [Nat.mul_div_cancel _ hpage]

end Pages

/-! ## Runs -/

section Runs

variable {pool pool' : WindowPool} {bound : Nat → Option Nat} {pages : List Nat} {F N : Nat}

/-- The pages of a pool of `F` full and `N` window pages beside the dummies. -/
structure PagesOwned (F N : Nat) (pool : WindowPool) (bound : Nat → Option Nat)
    (pages : List Nat) : Prop where
  paged : Paged pool bound pages
  full : pool.fullToken = (F + 1) * pool.pageSize
  window : pool.nWinSlots = (N + 1) * pool.pageSize
  owns : Owns (· < N) bound pages
  dummy : bound F = some N
  range : ∀ p w, bound p = some w → w ≤ N

inductive WindowEvent where
  | alloc (fullIndices : List Nat)
  | free (fullIndices : List Int)

/-- A step; one that raises leaves the pool as it was. -/
def WindowPool.step (pool : WindowPool) : WindowEvent → Option WindowPool
  | .alloc fullIndices =>
    match allocSwa pool fullIndices with
    | .ok pool' => some pool'
    | .error _ => some pool
  | .free fullIndices =>
    match freeSwa pool fullIndices with
    | .ok pool' => some pool'
    | .error _ => some pool

/-- The page is below the dummy. -/
def BelowDummy (pool : WindowPool) (p : Nat) : Prop :=
  (p + 1) * pool.pageSize ≤ pool.fullToken - pool.pageSize

/-- Allocations are for distinct pages that are not bound, and frees for sets of whole pages; neither
for the dummy. -/
def WindowAllowed (pool : WindowPool) : WindowEvent → Prop
  | .alloc fullIndices => ∃ ps : List Nat, ps.Nodup ∧ fullIndices = wholeLocs pool.pageSize ps ∧
      ∀ p ∈ ps, BelowDummy pool p ∧ ∀ x, x / pool.pageSize = p → pool.fullToWindow x = none
  | .free fullIndices => ∃ ps : List Nat, ps.Nodup ∧
      ((fullIndices.filter (0 ≤ ·)).map Int.toNat).Perm (wholeLocs pool.pageSize ps) ∧
      ∀ p ∈ ps, BelowDummy pool p

theorem Paged.unbound (h : Paged pool bound pages) {p : Nat}
    (hp : ∀ x, x / pool.pageSize = p → pool.fullToWindow x = none) : bound p = none := by
  have hnone := hp (p * pool.pageSize) (Nat.mul_div_cancel _ h.page)
  rw [h.map, tokens, Nat.mul_div_cancel _ h.page, Option.map_eq_none_iff] at hnone
  exact hnone

theorem PagesOwned.ne_dummy (h : PagesOwned F N pool bound pages) {p : Nat}
    (hp : BelowDummy pool p) : p ≠ F := by
  rintro rfl
  have hpage := h.paged.page
  unfold BelowDummy at hp
  rw [h.full, Nat.add_mul, Nat.one_mul] at hp
  omega

/-- **The pages stay owned once.** -/
theorem step_owned (h : PagesOwned F N pool bound pages) (e : WindowEvent)
    (hallowed : WindowAllowed pool e) (hstep : pool.step e = some pool') :
    ∃ bound' pages', PagesOwned F N pool' bound' pages' := by
  cases e with
  | alloc fullIndices =>
    obtain ⟨ps, hnodup, rfl, hps⟩ := hallowed
    unfold WindowPool.step at hstep
    rcases allocSwa_pages h.paged ps with ⟨-, e, he⟩ |
      ⟨rest, ws, pool₁, rfl, hlength, hok, hpage, hfull, hwin, hpaged⟩
    · simp only [he, Option.some.injEq] at hstep
      exact ⟨bound, pages, hstep ▸ h⟩
    · simp only [hok, Option.some.injEq] at hstep
      subst hstep
      have howns := h.owns.bindAll hlength hnodup fun p hp => h.paged.unbound (hps p hp).2
      refine ⟨_, rest, hpaged, by rw [hfull, hpage, h.full], by rw [hwin, hpage, h.window], howns,
        ?_, fun p w hw => ?_⟩
      · rw [bindAll_of_not_mem ps ws fun hin => h.ne_dummy (hps F hin).1 rfl]
        exact h.dummy
      · rcases bindAll_some ps ws hw with hnew | hold
        · exact Nat.le_of_lt (h.owns.units w (List.mem_append_right _ hnew))
        · exact h.range p w hold
  | free fullIndices =>
    obtain ⟨ps, hnodup, hlocs, hps⟩ := hallowed
    obtain ⟨qs, pool₁, hqs, hok, hpage, hfull, hwin, hpaged⟩ := freeSwa_pages h.paged hnodup hlocs
    unfold WindowPool.step at hstep
    simp only [hok, Option.some.injEq] at hstep
    subst hstep
    have hunits : ∀ p ∈ qs, ∀ w, bound p = some w → w < N := by
      intro p hp w hw
      refine Nat.lt_of_le_of_ne (h.range p w hw) ?_
      rintro rfl
      exact h.ne_dummy (hps p (hqs.mem_iff.mp hp)) (h.owns.inj p F w hw h.dummy)
    refine ⟨_, _, hpaged, by rw [hfull, hpage, h.full], by rw [hwin, hpage, h.window],
      h.owns.unbindAll (hqs.nodup_iff.mpr hnodup) hunits, ?_, fun p w hw => ?_⟩
    · rw [unbindAll_apply, if_neg fun hin => h.ne_dummy (hps F (hqs.mem_iff.mp hin)) rfl]
      exact h.dummy
    · rw [unbindAll_apply] at hw
      split at hw
      · cases hw
      · exact h.range p w hw

theorem initPagedState_owned {pageSize : Nat} (hpage : 0 < pageSize) (F N : Nat) :
    PagesOwned F N (initPagedState pageSize ((F + 1) * pageSize) ((N + 1) * pageSize))
      (update (fun _ => none) F (some N)) (List.range N) := by
  have hlast : ∀ n, (n + 1) * pageSize - pageSize = n * pageSize := by
    intro n
    rw [Nat.add_mul, Nat.one_mul, Nat.add_sub_cancel]
  refine ⟨⟨hpage, ?_, ?_⟩, rfl, rfl, ⟨List.nodup_range, fun k hk => List.mem_range.mp hk,
    fun p q w hp hq => ?_, fun w hw => ?_⟩, update_self _ _ _, fun p w hw => ?_⟩
  · unfold initPagedState
    simp only [hlast]
    rw [pageSlots_some]
    exact @scatter_page pageSize (fun _ => none) hpage F (some N)
  · unfold initPagedState
    simp only [hlast]
    rw [Nat.mul_div_cancel _ hpage]
  · have hF : ∀ r, update (fun _ => none) F (some N) r = some w → r = F := by
      intro r hr
      by_contra hne
      rw [update_of_ne hne] at hr
      cases hr
    rw [hF p hp, hF q hq]
  · simp only [List.mem_range, hw, ne_eq, true_iff]
    intro p hp
    by_cases hne : p = F
    · rw [hne, update_self, Option.some.injEq] at hp
      omega
    · rw [update_of_ne hne] at hp
      cases hp
  · by_cases hne : p = F
    · rw [hne, update_self, Option.some.injEq] at hw
      omega
    · rw [update_of_ne hne] at hw
      cases hw

/-- What the pool owes its slots. -/
structure OwnedOnce (pool : WindowPool) : Prop where
  nodup : pool.free.Nodup
  bases : ∀ w ∈ pool.free, pool.pageSize ∣ w ∧ w < pool.nWinSlots - pool.pageSize
  /-- A base below the dummy is free, or the image of a full page. -/
  partition : ∀ w, pool.pageSize ∣ w → w < pool.nWinSlots - pool.pageSize →
    (w ∈ pool.free ↔ ∀ x, pool.fullToWindow x ≠ some w)
  injective : ∀ x y w, pool.fullToWindow x = some w → pool.fullToWindow y = some w → x = y
  /-- Pages are bound whole, and offsets are kept. -/
  whole : ∀ x w, pool.fullToWindow x = some w → w % pool.pageSize = x % pool.pageSize ∧
    ∀ y, y / pool.pageSize = x / pool.pageSize →
      pool.fullToWindow y = some (w / pool.pageSize * pool.pageSize + y % pool.pageSize)
  dummy : ∀ i < pool.pageSize, pool.fullToWindow (pool.fullToken - pool.pageSize + i) =
    some (pool.nWinSlots - pool.pageSize + i)
  /-- A free of pages that are not bound changes nothing. -/
  idle : ∀ (locs : List Int) (ps : List Nat), ps.Nodup →
    ((locs.filter (0 ≤ ·)).map Int.toNat).Perm (wholeLocs pool.pageSize ps) →
    (∀ p ∈ ps, ∀ x, x / pool.pageSize = p → pool.fullToWindow x = none) →
    freeSwa pool locs = .ok pool
  rings : ∀ ratio ring, ringSizeForRatio ratio = .ok ring → ∀ x y wx wy : Nat,
    pool.fullToWindow x = some wx → pool.fullToWindow y = some wy →
      (x / pool.pageSize ≠ y / pool.pageSize →
        stateLoc (some wx) ring pool.pageSize ≠ stateLoc (some wy) ring pool.pageSize) ∧
      (x / pool.pageSize = y / pool.pageSize →
        (stateLoc (some wx) ring pool.pageSize = stateLoc (some wy) ring pool.pageSize ↔
          x % ring = y % ring))

theorem Paged.some_iff (h : Paged pool bound pages) {x w : Nat} :
    pool.fullToWindow x = some w ↔
      ∃ v, bound (x / pool.pageSize) = some v ∧ w = v * pool.pageSize + x % pool.pageSize := by
  rw [h.map, tokens, Option.map_eq_some_iff]
  simp only [eq_comm]

/-- The rings of two pages are disjoint, and a page's ring is walked by its locs. -/
theorem stateLoc_rings {pageSize ring : Nat} (hpage : 0 < pageSize) (hring : 0 < ring)
    {x y v u : Nat} (hpages : x / pageSize = y / pageSize ↔ v = u) :
    (x / pageSize ≠ y / pageSize →
        stateLoc (some (v * pageSize + x % pageSize)) ring pageSize ≠
          stateLoc (some (u * pageSize + y % pageSize)) ring pageSize) ∧
      (x / pageSize = y / pageSize →
        (stateLoc (some (v * pageSize + x % pageSize)) ring pageSize =
          stateLoc (some (u * pageSize + y % pageSize)) ring pageSize ↔ x % ring = y % ring)) := by
  have hdiv : ∀ v z, (v * pageSize + z % pageSize) / pageSize = v := by
    intro v z
    rw [Nat.mul_comm, Nat.mul_add_div hpage, Nat.div_eq_of_lt (Nat.mod_lt z hpage), Nat.add_zero]
  unfold stateLoc
  simp only [Option.map_some, ne_eq, Option.some.injEq, hdiv]
  have hx := Nat.mod_lt (v * pageSize + x % pageSize) hring
  have hy := Nat.mod_lt (u * pageSize + y % pageSize) hring
  constructor
  · intro hne heq
    refine hne (hpages.mpr ?_)
    have hblock : ∀ a r, r < ring → (a * ring + r) / ring = a := by
      intro a r hr
      rw [Nat.mul_comm, Nat.mul_add_div hring, Nat.div_eq_of_lt hr, Nat.add_zero]
    rw [← hblock v _ hx, heq, hblock u _ hy]
  · intro hsame
    obtain rfl := hpages.mp hsame
    have hxsplit := Nat.div_add_mod' x pageSize
    have hysplit := Nat.div_add_mod' y pageSize
    rw [← hsame] at hysplit
    have hcancel : ∀ a b c : Nat, (a + b) % ring = (a + c) % ring ↔ b % ring = c % ring :=
      fun a b c => ⟨Nat.ModEq.add_left_cancel' a, Nat.ModEq.add_left a⟩
    rw [Nat.add_left_cancel_iff, hcancel]
    conv_rhs => rw [← hxsplit, ← hysplit]
    rw [hcancel]

/-- **What is owned by pages is owned by slots.** -/
theorem PagesOwned.slots (h : PagesOwned F N pool bound pages) : OwnedOnce pool := by
  have hpage := h.paged.page
  have hfull : pool.fullToken - pool.pageSize = F * pool.pageSize := by
    rw [h.full, Nat.add_mul, Nat.one_mul, Nat.add_sub_cancel]
  have hwindow : pool.nWinSlots - pool.pageSize = N * pool.pageSize := by
    rw [h.window, Nat.add_mul, Nat.one_mul, Nat.add_sub_cancel]
  have hmul : Function.Injective (· * pool.pageSize) := fun a b heq =>
    Nat.eq_of_mul_eq_mul_right hpage heq
  refine ⟨?_, fun w hw => ?_, fun w hdvd hlt => ?_, fun x y w hx hy => ?_, fun x w hx => ?_,
    fun i hi => ?_, fun locs ps hnodup hlocs hidle => ?_, fun ratio ring hring x y wx wy hx hy => ?_⟩
  · rw [h.paged.free]
    exact h.owns.nodup.map hmul
  · rw [h.paged.free, List.mem_map] at hw
    obtain ⟨v, hv, rfl⟩ := hw
    rw [hwindow]
    exact ⟨Nat.dvd_mul_left _ _, Nat.mul_lt_mul_of_pos_right (h.owns.units v hv) hpage⟩
  · obtain ⟨v, rfl⟩ := hdvd
    rw [Nat.mul_comm] at hlt ⊢
    rw [hwindow] at hlt
    have hv : v < N := Nat.lt_of_mul_lt_mul_right hlt
    rw [h.paged.free, List.mem_map_of_injective hmul, h.owns.split v hv]
    -- a slot is backed by the window page that its own page is bound to
    constructor
    · intro hall x hx
      obtain ⟨u, hu, heq⟩ := h.paged.some_iff.mp hx
      have hdiv := congrArg (· / pool.pageSize) heq
      simp only [Nat.mul_div_cancel _ hpage] at hdiv
      rw [Nat.mul_comm u, Nat.mul_add_div hpage, Nat.div_eq_of_lt (Nat.mod_lt x hpage),
        Nat.add_zero] at hdiv
      exact hall _ (hdiv ▸ hu)
    · intro hall p hp
      refine hall (p * pool.pageSize) (h.paged.some_iff.mpr ⟨v, ?_, ?_⟩)
      · rwa [Nat.mul_div_cancel _ hpage]
      · rw [Nat.mul_mod_left, Nat.add_zero]
  · obtain ⟨v, hv, rfl⟩ := h.paged.some_iff.mp hx
    obtain ⟨u, hu, heq⟩ := h.paged.some_iff.mp hy
    have hmod := congrArg (· % pool.pageSize) heq
    have hdiv := congrArg (· / pool.pageSize) heq
    simp only [Nat.mul_comm _ pool.pageSize, Nat.mul_add_mod, Nat.mod_mod, Nat.mul_add_div hpage,
      Nat.div_eq_of_lt (Nat.mod_lt _ hpage), Nat.add_zero] at hmod hdiv
    -- one window page has one owner, and inside it the slots stay apart
    have hpages := h.owns.inj _ _ u (hdiv ▸ hv) hu
    rw [← Nat.div_add_mod x pool.pageSize, ← Nat.div_add_mod y pool.pageSize, hmod, hpages]
  · obtain ⟨v, hv, rfl⟩ := h.paged.some_iff.mp hx
    refine ⟨by rw [Nat.mul_comm, Nat.mul_add_mod, Nat.mod_mod], fun y hy => ?_⟩
    rw [h.paged.some_iff]
    refine ⟨v, hy ▸ hv, ?_⟩
    rw [Nat.mul_comm v, Nat.mul_add_div hpage, Nat.div_eq_of_lt (Nat.mod_lt x hpage), Nat.add_zero,
      Nat.mul_comm v]
  · rw [hfull, hwindow, h.paged.some_iff]
    refine ⟨N, ?_, ?_⟩
    · rw [Nat.mul_comm, Nat.mul_add_div hpage, Nat.div_eq_of_lt hi, Nat.add_zero]
      exact h.dummy
    · rw [Nat.mul_comm F, Nat.mul_add_mod, Nat.mod_eq_of_lt hi]
  · obtain ⟨qs, pool', hqs, hok, hpage', hfull', hwin', hpaged⟩ :=
      freeSwa_pages h.paged hnodup hlocs
    -- idle pages are bound to nothing, so freeing them frees nothing
    have hunbound : ∀ q ∈ qs, bound q = none := fun q hq =>
      h.paged.unbound (hidle q (hqs.mem_iff.mp hq))
    have hsame : unbindAll bound qs = bound := by
      funext q
      rw [unbindAll_apply]
      split
      · next hq => exact (hunbound q hq).symm
      · rfl
    have hnone : qs.filterMap bound = [] := by
      rw [List.filterMap_eq_nil_iff]
      exact hunbound
    rw [hok]
    congr 1
    have hmap := hpaged.map
    have hfree := hpaged.free
    rw [hsame, hpage', ← h.paged.map] at hmap
    rw [hnone, List.append_nil, hpage', ← h.paged.free] at hfree
    cases pool'
    cases pool
    simp only at *
    subst hpage' hfull' hwin' hmap hfree
    rfl
  · obtain ⟨v, hv, rfl⟩ := h.paged.some_iff.mp hx
    obtain ⟨u, hu, rfl⟩ := h.paged.some_iff.mp hy
    have hpos : 0 < ring := by
      unfold ringSizeForRatio at hring
      split at hring
      · cases hring
        decide
      · split at hring
        · cases hring
          decide
        · cases hring
    refine stateLoc_rings hpage hpos ⟨fun heq => ?_, fun heq => ?_⟩
    · rw [heq, hu] at hv
      exact (Option.some.inj hv).symm
    · exact h.owns.inj _ _ u (heq ▸ hv) hu

/-- **In every state that a run reaches, pages, slots and rings are owned once.** -/
theorem windowPages_owned (pageSize F N : Nat) (hpage : 0 < pageSize) (pool : WindowPool)
    (hreach : Reach WindowPool.step WindowAllowed
      (initPagedState pageSize ((F + 1) * pageSize) ((N + 1) * pageSize)) pool) :
    OwnedOnce pool := by
  obtain ⟨bound, pages, h⟩ := hreach.invariant
    (P := fun pool => ∃ bound pages, PagesOwned F N pool bound pages)
    ⟨_, _, initPagedState_owned hpage F N⟩
    fun pool e pool' ⟨bound, pages, h⟩ hallowed hstep => step_owned h e hallowed hstep
  exact h.slots

/-- Of five full pages, the third and the first take two of three window pages. -/
theorem twoPages_owned :
    ∃ pool, (initPagedState 4 24 16).step (.alloc [8, 9, 10, 11, 0, 1, 2, 3]) = some pool ∧
      OwnedOnce pool ∧ pool.free = [0] := by
  have hunbound : ∀ p ∈ [2, 0], BelowDummy (initPagedState 4 24 16) p ∧
      ∀ x, x / 4 = p → (initPagedState 4 24 16).fullToWindow x = none := by
    intro p hp
    have hp' : p < 5 := by
      simp only [List.mem_cons, List.not_mem_nil, or_false] at hp
      omega
    have hbelow : (p + 1) * 4 ≤ 24 - 4 := by omega
    refine ⟨hbelow, fun x hx => ?_⟩
    rw [(initPagedState_owned (by decide : 0 < 4) 5 3).paged.map]
    change Option.map _ (update (fun _ => none) 5 (some 3) (x / 4)) = none
    rw [update_of_ne (by omega)]
    rfl
  have hallowed : WindowAllowed (initPagedState 4 24 16) (.alloc [8, 9, 10, 11, 0, 1, 2, 3]) :=
    ⟨[2, 0], by decide, rfl, hunbound⟩
  exact ⟨_, rfl, windowPages_owned 4 5 3 (by decide) _ (.step .refl hallowed rfl), by decide⟩

/-- **Nothing keeps the dummy from being freed**: its pages are put on the list like any other. -/
theorem freeSwa_dummy :
    ∃ pool, freeSwa (initPagedState 4 24 16) [20, 21, 22, 23] = .ok pool ∧
      pool.fullToWindow 20 = none ∧ pool.free = [0, 4, 8, 12] := by
  refine ⟨_, rfl, ?_, ?_⟩ <;> decide

end Runs

end FreeToken.KvCache
