import FreeToken.Lib.Exchange
import Mathlib.Algebra.Ring.Int.Defs
import Mathlib.Data.List.Dedup
import Mathlib.Data.List.Sort

/-!
# Compaction of active pages

`CacheManager.compact_active_pages` and `remove_committed_pages` of `scheduler/cache.py`: the
referenced pages above a target move into free pages below it, and every tensor that names them is
rewritten. A tensor is an object that views cells of memory; two of them may view the same cells.
Main results:

* `publish_mem`: what the tensors read after they are rewritten.
* `removeCommittedPages_ceiling`: the suffix above the returned ceiling can be removed.
* `compactActivePages_renames`: compaction is one renaming of the pages.
-/

namespace FreeToken.KvCache.PageCompaction

open FreeToken.Lib

variable {Cell : Type*}

/-! ## The manager -/

/-- The allocator, with the memory that its tensors view: `view` has the cells of a tensor object,
`pageTable` those of a row of the page table. -/
structure CacheManager (Cell : Type*) where
  pageSize : Nat
  isSwa : Bool
  swaPaged : Bool
  committedPages : Nat
  pageIndexOffset : Int
  freeSlots : List Int
  pageTable : Nat → List Cell
  view : Nat → List Cell
  mem : Cell → Int

/-- A node of the prefix tree, by the tensor of its value. -/
inductive PageNode where
  | node (value : Option Nat) (children : List PageNode)

/-- The fields of a request that are read; the index is absent where it is -1. -/
structure PageReq where
  tableIdx : Option Nat
  cachedLen : Nat
  kvIndices : Option Nat

/-- A tensor of page ids: an object that somebody holds, or a slice made now. -/
inductive Ref (Cell : Type*) where
  | object (id : Nat)
  | slice (cells : List Cell)

namespace CacheManager

variable (m : CacheManager Cell)

def cells : Ref Cell → List Cell
  | .object id => m.view id
  | .slice cells => cells

/-- `ref.tolist()`. -/
def read (r : Ref Cell) : List Int := (m.cells r).map m.mem

end CacheManager

/-! ## The references -/

mutual

/-- A node's value, and those of its descendants in the order in which the stack gives them. -/
def PageNode.values : PageNode → List (Option Nat)
  | .node value children => value :: forestValues children

def forestValues : List PageNode → List (Option Nat)
  | [] => []
  | c :: rest => forestValues rest ++ c.values

end

def objectRef (id : Option Nat) : List (Ref Cell) := id.toList.map .object

/-- The live part of a request's row, and the indices of its handle. -/
def reqRefs (m : CacheManager Cell) (req : PageReq) : List (Ref Cell) :=
  match req.tableIdx with
  | none => []
  | some row =>
    (if 0 < req.cachedLen then [.slice ((m.pageTable row).take req.cachedLen)] else []) ++
      objectRef req.kvIndices

/-- Every tensor that names a page: of the nodes of the tree below its root, of the requests and of
the retained handles. -/
def tensors (m : CacheManager Cell) (tree : List PageNode) (reqs : List PageReq)
    (retained : List (Option Nat)) : List (Ref Cell) :=
  (forestValues tree).flatMap objectRef ++ (reqs.flatMap (reqRefs m) ++ retained.flatMap objectRef)

def Ref.oid : Ref Cell → Option Nat
  | .object id => some id
  | .slice _ => none

/-- An object is added once. -/
def addReference (m : CacheManager Cell) (refs : List (Ref Cell)) (r : Ref Cell) :
    List (Ref Cell) :=
  if (m.cells r).isEmpty then refs
  else if r.oid.any fun id => (refs.filterMap Ref.oid).contains id then refs
  else refs ++ [r]

def references (m : CacheManager Cell) (tree : List PageNode) (reqs : List PageReq)
    (retained : List (Option Nat)) : List (Ref Cell) :=
  (tensors m tree reqs retained).foldl (addReference m) []

/-! ## Compaction -/

/-- `lookup[ref - first_page_id]`. -/
def remapped (sources destinations : List Int) (page : Int) : Int :=
  ((sources.zip destinations).lookup page).getD page

section Publish

variable [DecidableEq Cell]

/-- `ref.copy_(replacement)`. -/
def copyInto (mem : Cell → Int) (cells : List Cell) (values : List Int) : Cell → Int :=
  (cells.zip values).foldl (fun mem w => Function.update mem w.1 w.2) mem

/-- Every tensor gets its replacement; `rewritten` was read before the first of them was. -/
def publish (m : CacheManager Cell) (refs : List (Ref Cell)) (rewritten : List (List Int)) :
    Cell → Int :=
  (refs.zip rewritten).foldl (fun mem w => copyInto mem (m.cells w.1) w.2) m.mem

end Publish

def normalized (m : CacheManager Cell) : List Int :=
  m.freeSlots.map fun p => p / m.pageSize - m.pageIndexOffset

/-- One above the last page that is not free. -/
def required (m : CacheManager Cell) : Int :=
  let occupied := (List.range m.committedPages).filter fun i : Nat =>
    !(normalized m).contains (i : Int)
  match occupied.getLast? with
  | none => 0
  | some i => i + 1

/-- What a compaction leaves: the manager, the calls of `copy_pages`, and the ceiling or the text
of the error. -/
structure Outcome (Cell : Type*) where
  manager : CacheManager Cell
  copies : List (List Int × List Int)
  result : Except String Int

variable [DecidableEq Cell]

def compactActivePages (m : CacheManager Cell) (tree : List PageNode) (reqs : List PageReq)
    (targetPages : Int) (copyPages : List Int → List Int → Except String Unit)
    (retained : List (Option Nat)) : Outcome Cell :=
  if m.pageSize ≠ 1 then
    ⟨m, [], .error "growable KV compaction currently requires page_size=1"⟩
  else if m.isSwa || m.swaPaged then
    ⟨m, [], .error "growable KV compaction does not support SWA caches"⟩
  else if m.committedPages ≤ targetPages then ⟨m, [], .ok m.committedPages⟩
  else
    let first := m.pageIndexOffset
    let last := first + m.committedPages
    let cutoff := first + targetPages
    if ¬m.freeSlots.Nodup then ⟨m, [], .error "KV free-list contains duplicate pages"⟩
    else if m.freeSlots.any fun p => p < first || last ≤ p then
      ⟨m, [], .error "KV free-list contains a page outside the committed range"⟩
    else
      let refs := references m tree reqs retained
      let represented := refs.flatMap m.read
      if represented.any fun p => p < first || last ≤ p then
        ⟨m, [], .error "KV reference contains a page outside the committed range"⟩
      else if represented.any fun p => m.freeSlots.contains p then
        ⟨m, [], .error "KV page is both referenced and present on the free-list"⟩
      else
        let lowFree := (m.freeSlots.filter fun p => p < cutoff).mergeSort
        let highSources := (represented.dedup.filter fun p => cutoff ≤ p).mergeSort
        let count := min highSources.length lowFree.length
        if count = 0 then ⟨m, [], .ok (max targetPages (required m))⟩
        else
          let sources := highSources.take count
          let destinations := lowFree.take count
          let rewritten := refs.map fun r => (m.read r).map (remapped sources destinations)
          match copyPages sources destinations with
          | .error e => ⟨m, [(sources, destinations)], .error e⟩
          | .ok () =>
            let m' := { m with
              mem := publish m refs rewritten
              freeSlots := m.freeSlots.filter (fun p => !destinations.contains p) ++ sources }
            ⟨m', [(sources, destinations)], .ok (max targetPages (required m'))⟩

def removeCommittedPages (m : CacheManager Cell) (newTotal : Int) :
    Except String (CacheManager Cell) :=
  let committed := m.committedPages
  if ¬(0 ≤ newTotal ∧ newTotal < committed) then
    .error s!"new committed page total {newTotal} outside [0, {committed})"
  else
    let tail : Int → Bool := fun p => newTotal ≤ p / m.pageSize - m.pageIndexOffset
    let expected := (committed : Int) - newTotal
    let actual := (m.freeSlots.filter tail).length
    if (actual : Int) ≠ expected then
      .error (s!"cannot decommit through page {newTotal}: tail has {actual} free pages, " ++
        s!"expected {expected}")
    else .ok { m with
      freeSlots := m.freeSlots.filter fun p => !tail p
      committedPages := newTotal.toNat }

/-! ## What is read and written -/

variable {m : CacheManager Cell} {f : Int → Int}

omit [DecidableEq Cell] in
theorem read_map (m : CacheManager Cell) (r : Ref Cell) (f : Int → Int) :
    (m.read r).map f = (m.cells r).map fun c => f (m.mem c) := by
  rw [CacheManager.read, List.map_map]
  rfl

theorem copyInto_map (g : Cell → Int) (cells : List Cell) : ∀ mem : Cell → Int,
    ∀ c, copyInto mem cells (cells.map g) c = if c ∈ cells then g c else mem c := by
  induction cells with
  | nil => exact fun mem c => rfl
  | cons a cells ih =>
    intro mem c
    rw [copyInto, List.map_cons, List.zip_cons_cons, List.foldl_cons]
    refine (ih (Function.update mem a (g a)) c).trans ?_
    by_cases hc : c ∈ cells
    · rw [if_pos hc, if_pos (List.mem_cons_of_mem a hc)]
    · rw [if_neg hc]
      by_cases ha : c = a
      · rw [ha, Function.update_self, if_pos List.mem_cons_self]
      · rw [Function.update_of_ne ha, if_neg fun h => (List.mem_cons.mp h).elim ha hc]

/-- The replacements are of what was read before, so it does not matter that tensors share cells:
every cell of one of them is rewritten as if it were rewritten alone. -/
theorem publish_mem (m : CacheManager Cell) (refs : List (Ref Cell)) (f : Int → Int) (c : Cell) :
    publish m refs (refs.map fun r => (m.read r).map f) c =
      if c ∈ refs.flatMap m.cells then f (m.mem c) else m.mem c := by
  have hfold : ∀ (refs : List (Ref Cell)) (mem : Cell → Int),
      (refs.zip (refs.map fun r => (m.read r).map f)).foldl
          (fun mem w => copyInto mem (m.cells w.1) w.2) mem c =
        if c ∈ refs.flatMap m.cells then f (m.mem c) else mem c := by
    intro refs
    induction refs with
    | nil => exact fun mem => rfl
    | cons r refs ih =>
      intro mem
      rw [List.map_cons, List.zip_cons_cons, List.foldl_cons, ih, read_map, copyInto_map,
        List.flatMap_cons]
      by_cases hrest : c ∈ refs.flatMap m.cells
      · rw [if_pos hrest, if_pos (List.mem_append_right _ hrest)]
      · rw [if_neg hrest]
        by_cases hr : c ∈ m.cells r
        · rw [if_pos hr, if_pos (List.mem_append_left _ hr)]
        · rw [if_neg hr, if_neg fun h => (List.mem_append.mp h).elim hr hrest]
  exact hfold refs m.mem

omit [DecidableEq Cell] in
theorem addReference_cells (m : CacheManager Cell) (refs : List (Ref Cell)) (r : Ref Cell)
    (c : Cell) : c ∈ (addReference m refs r).flatMap m.cells ↔
      c ∈ refs.flatMap m.cells ∨ c ∈ m.cells r := by
  rw [addReference]
  split
  · -- an empty tensor is left out
    rename_i hempty
    rw [List.isEmpty_iff.mp hempty]
    exact ⟨Or.inl, fun h => h.elim id fun h => absurd h List.not_mem_nil⟩
  · split
    · -- so is an object that was added before
      rename_i hknown
      refine ⟨Or.inl, fun h => h.elim id fun hc => ?_⟩
      obtain ⟨id, hid, hmem⟩ := (Option.any_eq_true _ _).mp hknown
      obtain ⟨r', hr', hid'⟩ := List.mem_filterMap.mp (List.contains_iff_mem.mp hmem)
      -- The same object views the same cells.
      have hsame : r' = r := by
        cases r with
        | object i =>
          cases r' with
          | object j =>
            have hij : j = i := Option.some.inj (hid'.trans hid.symm)
            rw [hij]
          | slice _ => exact nomatch hid'
        | slice _ => exact nomatch hid
      exact List.mem_flatMap.mpr ⟨r, hsame ▸ hr', hc⟩
    · rw [List.flatMap_append, List.flatMap_singleton, List.mem_append]

omit [DecidableEq Cell] in
/-- The references view the cells of all tensors. -/
theorem references_cells (m : CacheManager Cell) (tree : List PageNode) (reqs : List PageReq)
    (retained : List (Option Nat)) (c : Cell) :
    c ∈ (references m tree reqs retained).flatMap m.cells ↔
      c ∈ (tensors m tree reqs retained).flatMap m.cells := by
  have hfold : ∀ (l acc : List (Ref Cell)),
      c ∈ (l.foldl (addReference m) acc).flatMap m.cells ↔
        c ∈ acc.flatMap m.cells ∨ c ∈ l.flatMap m.cells := by
    intro l
    induction l with
    | nil => exact fun acc => ⟨Or.inl, fun h => h.elim id fun h => absurd h List.not_mem_nil⟩
    | cons r l ih =>
      intro acc
      rw [List.foldl_cons, ih, addReference_cells, List.flatMap_cons, List.mem_append, or_assoc]
  rw [references, hfold]
  exact ⟨fun h => h.elim (fun h => absurd h List.not_mem_nil) id, Or.inr⟩

omit [DecidableEq Cell] in
theorem represented_eq (m : CacheManager Cell) (refs : List (Ref Cell)) :
    refs.flatMap m.read = (refs.flatMap m.cells).map m.mem := by
  rw [List.map_flatMap]
  rfl

/-! ## The ceiling -/

theorem le_getLast {l : List Nat} (hsorted : l.Pairwise (· < ·)) {i : Nat} (hi : i ∈ l) :
    ∃ j, l.getLast? = some j ∧ i ≤ j := by
  obtain ⟨l', j, rfl⟩ := (List.eq_nil_or_concat l).resolve_left (List.ne_nil_of_mem hi)
  refine ⟨j, by rw [List.concat_eq_append, List.getLast?_concat], ?_⟩
  rw [List.concat_eq_append] at hsorted hi
  rcases List.mem_append.mp hi with hi | hi
  · exact Nat.le_of_lt ((List.pairwise_append.mp hsorted).2.2 i hi j List.mem_cons_self)
  · exact Nat.le_of_eq (List.mem_singleton.mp hi)

omit [DecidableEq Cell] in
/-- The pages from the ceiling on are free. -/
theorem free_of_required {i : Nat} (hi : i < m.committedPages) (h : required m ≤ i) :
    (i : Int) ∈ normalized m := by
  -- a page that is not free would be below the ceiling
  by_contra hnot
  have hocc : i ∈ (List.range m.committedPages).filter
      fun i : Nat => !(normalized m).contains (i : Int) := by
    rw [List.mem_filter, List.mem_range, Bool.not_eq_true', ← Bool.not_eq_true,
      List.contains_iff_mem]
    exact ⟨hi, hnot⟩
  obtain ⟨j, hj, hle⟩ := le_getLast (List.pairwise_lt_range.filter _) hocc
  rw [required, hj] at h
  dsimp only at h
  omega

/-- The free list has no duplicates and only committed pages. -/
structure SoundFree (m : CacheManager Cell) : Prop where
  pageSize : m.pageSize = 1
  nodup : m.freeSlots.Nodup
  inside : ∀ p ∈ m.freeSlots, m.pageIndexOffset ≤ p ∧ p < m.pageIndexOffset + m.committedPages

omit [DecidableEq Cell] in
/-- The suffix above the ceiling can be removed. -/
theorem removeCommittedPages_ceiling (hm : SoundFree m) {target : Int}
    (h : max target (required m) < m.committedPages) :
    ∃ m', removeCommittedPages m (max target (required m)) = .ok m' := by
  have hreq : 0 ≤ required m := by
    rw [required]
    split <;> omega
  generalize hr : max target (required m) = r at h ⊢
  have hlow : required m ≤ r := by omega
  have hpos : 0 ≤ r := by omega
  have hfree : ∀ p, p / (m.pageSize : Int) - m.pageIndexOffset = p - m.pageIndexOffset := by
    intro p
    rw [hm.pageSize, Int.natCast_one, Int.ediv_one]
  -- the free pages from `r` on are all the pages from `r` on, so the count is as expected
  have hperm : (m.freeSlots.filter fun p => decide (r ≤ p / m.pageSize - m.pageIndexOffset)).Perm
      ((List.range' r.toNat (m.committedPages - r.toNat)).map
        fun i : Nat => (i : Int) + m.pageIndexOffset) := by
    refine (List.perm_ext_iff_of_nodup (hm.nodup.filter _) ?_).mpr fun p => ?_
    · exact List.Nodup.map (fun i j hij => by simpa using hij) List.nodup_range'
    · rw [List.mem_filter, decide_eq_true_iff, hfree, List.mem_map]
      constructor
      · rintro ⟨hp, hle⟩
        have hin := hm.inside p hp
        refine ⟨(p - m.pageIndexOffset).toNat, ?_, by omega⟩
        rw [List.mem_range'_1]
        omega
      · rintro ⟨i, hi, rfl⟩
        rw [List.mem_range'_1] at hi
        have hnorm := free_of_required (show i < m.committedPages by omega) (by omega)
        obtain ⟨q, hq, heq⟩ := List.mem_map.mp hnorm
        rw [hfree] at heq
        have hsame : q = i + m.pageIndexOffset := by omega
        exact ⟨hsame ▸ hq, by omega⟩
  have hcount := hperm.length_eq
  rw [List.length_map, List.length_range'] at hcount
  rw [removeCommittedPages]
  dsimp only
  rw [if_neg (by omega), if_neg (by rw [hcount]; omega)]
  exact ⟨_, rfl⟩

/-! ## The renaming -/

/-- The pages of these cells. -/
def pages (m : CacheManager Cell) (owned : List Cell) : List Int := owned.map m.mem

/-- The free list and the referenced pages are in order, as the checks ask. -/
structure Sound (m : CacheManager Cell) (owned : List Cell) : Prop extends SoundFree m where
  noSwa : m.isSwa = false ∧ m.swaPaged = false
  owned_inside : ∀ p ∈ pages m owned,
    m.pageIndexOffset ≤ p ∧ p < m.pageIndexOffset + m.committedPages
  disjoint : ∀ p ∈ pages m owned, p ∉ m.freeSlots

/-- Referenced pages and as many free pages, to be exchanged. -/
structure Plan (m : CacheManager Cell) (owned : List Cell) (sources destinations : List Int) :
    Prop where
  sources_nodup : sources.Nodup
  destinations_nodup : destinations.Nodup
  length_eq : sources.length = destinations.length
  referenced : ∀ p ∈ sources, p ∈ pages m owned
  free : ∀ p ∈ destinations, p ∈ m.freeSlots

/-- The manager after the pages have moved. -/
def moved (m : CacheManager Cell) (refs : List (Ref Cell)) (sources destinations : List Int) :
    CacheManager Cell :=
  { m with
    mem := publish m refs (refs.map fun r => (m.read r).map (remapped sources destinations))
    freeSlots := m.freeSlots.filter (fun p => !destinations.contains p) ++ sources }

section Compact

variable {tree : List PageNode} {reqs : List PageReq} {retained : List (Option Nat)} {target : Int}
  {copyPages : List Int → List Int → Except String Unit}

omit [DecidableEq Cell] in
theorem plan_of_sorted {refs : List (Ref Cell)} (hm : m.freeSlots.Nodup) (cutoff : Int) :
    let lowFree := (m.freeSlots.filter fun p => p < cutoff).mergeSort
    let highSources := ((refs.flatMap m.read).dedup.filter fun p => cutoff ≤ p).mergeSort
    let count := min highSources.length lowFree.length
    Plan m (refs.flatMap m.cells) (highSources.take count) (lowFree.take count) := by
  intro lowFree highSources count
  have hhigh : highSources.Nodup :=
    (List.mergeSort_perm _ _).nodup_iff.mpr ((List.nodup_dedup _).filter _)
  have hlow : lowFree.Nodup := (List.mergeSort_perm _ _).nodup_iff.mpr (hm.filter _)
  refine ⟨(List.take_sublist _ _).nodup hhigh, (List.take_sublist _ _).nodup hlow, ?_,
    fun p hp => ?_, fun p hp => ?_⟩
  · rw [List.length_take, List.length_take]
    omega
  · have hin := List.mem_mergeSort.mp (List.mem_of_mem_take hp)
    rw [pages, ← represented_eq]
    exact List.mem_dedup.mp (List.mem_filter.mp hin).1
  · exact (List.mem_filter.mp (List.mem_mergeSort.mp (List.mem_of_mem_take hp))).1

/-- What a call does: it fails and changes nothing, it has nothing to move, or it moves pages by a
plan. -/
theorem compactActivePages_cases (m : CacheManager Cell) (tree : List PageNode)
    (reqs : List PageReq) (target : Int) (copyPages : List Int → List Int → Except String Unit)
    (retained : List (Option Nat)) :
    let refs := references m tree reqs retained
    let out := compactActivePages m tree reqs target copyPages retained
    (out.manager = m ∧ (∃ e, out.result = .error e) ∧
        (Sound m (refs.flatMap m.cells) → ∃ s d e, copyPages s d = .error e)) ∨
      out = ⟨m, [], .ok m.committedPages⟩ ∨
      Sound m (refs.flatMap m.cells) ∧ out = ⟨m, [], .ok (max target (required m))⟩ ∨
      Sound m (refs.flatMap m.cells) ∧ ∃ sources destinations,
        Plan m (refs.flatMap m.cells) sources destinations ∧
        out = ⟨moved m refs sources destinations, [(sources, destinations)],
          .ok (max target (required (moved m refs sources destinations)))⟩ := by
  intro refs out
  have hout : out = compactActivePages m tree reqs target copyPages retained := rfl
  rw [compactActivePages] at hout
  by_cases hsize : m.pageSize ≠ 1
  · rw [if_pos hsize] at hout
    rw [hout]
    exact Or.inl ⟨rfl, ⟨_, rfl⟩, fun hs => absurd hs.pageSize hsize⟩
  rw [if_neg hsize] at hout
  by_cases hswa : (m.isSwa || m.swaPaged) = true
  · rw [if_pos hswa] at hout
    rw [hout]
    refine Or.inl ⟨rfl, ⟨_, rfl⟩, fun hs => ?_⟩
    rw [hs.noSwa.1, hs.noSwa.2] at hswa
    exact nomatch hswa
  rw [if_neg hswa] at hout
  by_cases hall : (m.committedPages : Int) ≤ target
  · rw [if_pos hall] at hout
    exact Or.inr (Or.inl hout)
  rw [if_neg hall] at hout
  dsimp only at hout
  by_cases hnodup : ¬m.freeSlots.Nodup
  · rw [if_pos hnodup] at hout
    rw [hout]
    exact Or.inl ⟨rfl, ⟨_, rfl⟩, fun hs => absurd hs.nodup hnodup⟩
  rw [if_neg hnodup] at hout
  rw [not_not] at hsize hnodup
  -- the three checks of the contents, each of which `Sound` rules out
  split at hout
  · rename_i hfree
    rw [hout]
    refine Or.inl ⟨rfl, ⟨_, rfl⟩, fun hs => ?_⟩
    obtain ⟨p, hp, hbad⟩ := List.any_eq_true.mp hfree
    have := hs.inside p hp
    simp only [Bool.or_eq_true, decide_eq_true_eq] at hbad
    omega
  rename_i hfree
  split at hout
  · rename_i hrefs
    rw [hout]
    refine Or.inl ⟨rfl, ⟨_, rfl⟩, fun hs => ?_⟩
    obtain ⟨p, hp, hbad⟩ := List.any_eq_true.mp hrefs
    rw [represented_eq] at hp
    have := hs.owned_inside p hp
    simp only [Bool.or_eq_true, decide_eq_true_eq] at hbad
    omega
  rename_i hrefs
  split at hout
  · rename_i hboth
    rw [hout]
    refine Or.inl ⟨rfl, ⟨_, rfl⟩, fun hs => ?_⟩
    obtain ⟨p, hp, hbad⟩ := List.any_eq_true.mp hboth
    rw [represented_eq] at hp
    exact absurd (List.contains_iff_mem.mp hbad) (hs.disjoint p hp)
  rename_i hboth
  -- past the checks the manager is sound
  have hsound : Sound m (refs.flatMap m.cells) := by
    rw [Bool.not_eq_true, List.any_eq_false] at hfree hrefs hboth
    refine ⟨⟨hsize, hnodup, fun p hp => ?_⟩, ?_, fun p hp => ?_, fun p hp => ?_⟩
    · have := hfree p hp
      simp only [Bool.or_eq_true, decide_eq_true_eq] at this
      omega
    · rwa [Bool.not_eq_true, Bool.or_eq_false_iff] at hswa
    · rw [pages, ← represented_eq] at hp
      have := hrefs p hp
      simp only [Bool.or_eq_true, decide_eq_true_eq] at this
      omega
    · rw [pages, ← represented_eq] at hp
      exact fun hin => hboth p hp (List.contains_iff_mem.mpr hin)
  split at hout
  · exact Or.inr (Or.inr (Or.inl ⟨hsound, hout⟩))
  · split at hout
    · -- the copy failed, before anything was written
      rename_i e hcopy
      rw [hout]
      exact Or.inl ⟨rfl, ⟨_, rfl⟩, fun _ => ⟨_, _, _, hcopy⟩⟩
    · exact Or.inr (Or.inr (Or.inr ⟨hsound, _, _, plan_of_sorted hnodup _, hout⟩))

/-- The cells `owned` were rewritten by one injective map of the pages, the pages that it moves were
copied, and no page was lost. -/
structure Renames (m : CacheManager Cell) (owned : List Cell) (out : Outcome Cell)
    (σ : Int → Int) : Prop where
  injective : Function.Injective σ
  rewritten : ∀ c ∈ owned, out.manager.mem c = σ (m.mem c)
  untouched : ∀ c ∉ owned, out.manager.mem c = m.mem c
  copied_once : (out.copies.flatMap Prod.fst).Nodup
  copied : ∀ p, p ∈ out.copies.flatMap Prod.fst ↔ p ∈ pages m owned ∧ σ p ≠ p
  copied_to : ∀ call ∈ out.copies, call.2 = call.1.map σ
  free_nodup : m.freeSlots.Nodup → out.manager.freeSlots.Nodup
  same_pages : ∀ p, p ∈ out.manager.freeSlots ∨ p ∈ pages out.manager owned ↔
    p ∈ m.freeSlots ∨ p ∈ pages m owned
  frame : { out.manager with mem := m.mem, freeSlots := m.freeSlots } = m

omit [DecidableEq Cell] in
/-- Where nothing moves. -/
theorem Renames.refl (m : CacheManager Cell) (owned : List Cell) (result : Except String Int) :
    Renames m owned ⟨m, [], result⟩ id where
  injective := Function.injective_id
  rewritten := fun _ _ => rfl
  untouched := fun _ _ => rfl
  copied_once := List.nodup_nil
  copied := fun _ => ⟨fun h => absurd h List.not_mem_nil, fun h => absurd rfl h.2⟩
  copied_to := fun _ h => absurd h List.not_mem_nil
  free_nodup := id
  same_pages := fun _ => Iff.rfl
  frame := rfl

section Moved

variable {refs : List (Ref Cell)} {sources destinations : List Int}

omit [DecidableEq Cell] in
theorem Plan.nodup (hm : Sound m (refs.flatMap m.cells))
    (hp : Plan m (refs.flatMap m.cells) sources destinations) :
    (sources ++ destinations).Nodup := by
  refine List.nodup_append.mpr ⟨hp.sources_nodup, hp.destinations_nodup, fun p hs q hd => ?_⟩
  rintro rfl
  exact hm.disjoint p (hp.referenced p hs) (hp.free p hd)

/-- Referenced pages go where the plan sends them. -/
theorem moved_mem (hm : Sound m (refs.flatMap m.cells))
    (hp : Plan m (refs.flatMap m.cells) sources destinations) (c : Cell) :
    (moved m refs sources destinations).mem c =
      if c ∈ refs.flatMap m.cells then exchange sources destinations (m.mem c) else m.mem c := by
  refine (publish_mem m refs (remapped sources destinations) c).trans ?_
  split
  · rename_i hc
    have hnot : m.mem c ∉ destinations := fun hd =>
      hm.disjoint _ (List.mem_map_of_mem hc) (hp.free _ hd)
    rw [exchange_of_not_mem hp.length_eq hnot, remapped]
  · rfl

theorem mem_moved_free (p : Int) : p ∈ (moved m refs sources destinations).freeSlots ↔
    (p ∈ m.freeSlots ∧ p ∉ destinations) ∨ p ∈ sources := by
  show p ∈ m.freeSlots.filter (fun p => !destinations.contains p) ++ sources ↔ _
  rw [List.mem_append, List.mem_filter, Bool.not_eq_true', ← Bool.not_eq_true,
    List.contains_iff_mem]

theorem moved_soundFree (hm : Sound m (refs.flatMap m.cells))
    (hp : Plan m (refs.flatMap m.cells) sources destinations) :
    SoundFree (moved m refs sources destinations) := by
  refine ⟨hm.pageSize, ?_, fun p hin => ?_⟩
  · refine List.nodup_append.mpr ⟨hm.nodup.filter _, hp.sources_nodup, fun p hf q hs => ?_⟩
    rintro rfl
    exact hm.disjoint p (hp.referenced p hs) (List.mem_filter.mp hf).1
  · rcases (mem_moved_free p).mp hin with hf | hs
    · exact hm.inside p hf.1
    · exact hm.owned_inside p (hp.referenced p hs)

/-- The pages that are referenced after a move. -/
theorem mem_moved_pages (hm : Sound m (refs.flatMap m.cells))
    (hp : Plan m (refs.flatMap m.cells) sources destinations) (p : Int) :
    p ∈ pages (moved m refs sources destinations) (refs.flatMap m.cells) ↔
      (p ∈ pages m (refs.flatMap m.cells) ∧ p ∉ sources) ∨ p ∈ destinations := by
  have hnodup := hp.nodup hm
  have hmem : ∀ c ∈ refs.flatMap m.cells, (moved m refs sources destinations).mem c =
      exchange sources destinations (m.mem c) := fun c hc => by rw [moved_mem hm hp, if_pos hc]
  have hfree : ∀ q ∈ pages m (refs.flatMap m.cells), q ∉ destinations := fun q hq hd =>
    hm.disjoint q hq (hp.free q hd)
  constructor
  · intro h
    obtain ⟨c, hc, rfl⟩ := List.mem_map.mp h
    rw [hmem c hc]
    have hq : m.mem c ∈ pages m (refs.flatMap m.cells) := List.mem_map_of_mem hc
    by_cases hs : m.mem c ∈ sources
    · exact Or.inr (exchange_mem hnodup hp.length_eq hs)
    · rw [exchange_other hp.length_eq hs (hfree _ hq)]
      exact Or.inl ⟨hq, hs⟩
  · -- what a cell held before, it holds exchanged
    have himage : ∀ q ∈ pages m (refs.flatMap m.cells), exchange sources destinations q ∈
        pages (moved m refs sources destinations) (refs.flatMap m.cells) := by
      intro q hq
      obtain ⟨c, hc, rfl⟩ := List.mem_map.mp hq
      rw [← hmem c hc]
      exact List.mem_map_of_mem hc
    rintro (⟨hq, hs⟩ | hd)
    · have := himage p hq
      rwa [exchange_other hp.length_eq hs (hfree p hq)] at this
    · -- a destination comes from the source in its place
      rw [← map_exchange hnodup hp.length_eq] at hd
      obtain ⟨q, hq, rfl⟩ := List.mem_map.mp hd
      exact himage q (hp.referenced q hq)

theorem renames_moved (hm : Sound m (refs.flatMap m.cells))
    (hp : Plan m (refs.flatMap m.cells) sources destinations) (result : Except String Int) :
    Renames m (refs.flatMap m.cells)
      ⟨moved m refs sources destinations, [(sources, destinations)], result⟩
      (exchange sources destinations) := by
  have hnodup := hp.nodup hm
  refine ⟨exchange_injective hnodup hp.length_eq, fun c hc => ?_, fun c hc => ?_, ?_, fun p => ?_,
    fun call hcall => ?_, fun _ => (moved_soundFree hm hp).nodup, fun p => ?_, rfl⟩
  · exact (moved_mem hm hp c).trans (if_pos hc)
  · exact (moved_mem hm hp c).trans (if_neg hc)
  · rw [List.flatMap_singleton]
    exact hp.sources_nodup
  · rw [List.flatMap_singleton]
    constructor
    · intro hs
      -- a source goes to a free page, so it does not stay
      refine ⟨hp.referenced p hs, fun hsame => ?_⟩
      have hd := exchange_mem hnodup hp.length_eq hs
      rw [hsame] at hd
      exact hm.disjoint p (hp.referenced p hs) (hp.free p hd)
    · rintro ⟨hq, hne⟩
      by_contra hs
      exact hne (exchange_other hp.length_eq hs fun hd => hm.disjoint p hq (hp.free p hd))
  · rw [List.mem_singleton.mp hcall]
    exact (map_exchange hnodup hp.length_eq).symm
  · show p ∈ (moved m refs sources destinations).freeSlots ∨ _ ↔ _
    rw [mem_moved_free, mem_moved_pages hm hp]
    have hs := hp.referenced p
    have hd := hp.free p
    tauto

end Moved

omit [DecidableEq Cell] in
theorem Renames.congr {owned owned' : List Cell} {out : Outcome Cell} {σ : Int → Int}
    (h : Renames m owned out σ) (hcells : ∀ c, c ∈ owned ↔ c ∈ owned') :
    Renames m owned' out σ := by
  have hpages : ∀ (m' : CacheManager Cell) (p : Int), p ∈ pages m' owned ↔ p ∈ pages m' owned' := by
    intro m' p
    rw [pages, pages, List.mem_map, List.mem_map]
    exact exists_congr fun c => and_congr_left fun _ => hcells c
  exact
    { injective := h.injective
      rewritten := fun c hc => h.rewritten c ((hcells c).mpr hc)
      untouched := fun c hc => h.untouched c fun hin => hc ((hcells c).mp hin)
      copied_once := h.copied_once
      copied := fun p => by rw [h.copied p, hpages]
      copied_to := h.copied_to
      free_nodup := h.free_nodup
      same_pages := fun p => by rw [← hpages, ← hpages, h.same_pages p]
      frame := h.frame }

omit [DecidableEq Cell] in
theorem Sound.congr {owned owned' : List Cell} (h : Sound m owned)
    (hcells : ∀ c, c ∈ owned' → c ∈ owned) : Sound m owned' := by
  have hpages : ∀ p ∈ pages m owned', p ∈ pages m owned := by
    intro p hp
    obtain ⟨c, hc, rfl⟩ := List.mem_map.mp hp
    exact List.mem_map_of_mem (hcells c hc)
  exact ⟨h.toSoundFree, h.noSwa, fun p hp => h.owned_inside p (hpages p hp),
    fun p hp => h.disjoint p (hpages p hp)⟩

/-- **Compaction is one renaming of the pages.** A call that raises has changed nothing. A call that
returns has applied one injective map to every tensor's cells, however the tensors share them, has
copied exactly the pages that the map moves, and keeps the free list without duplicates and the
pages together; the suffix above the returned ceiling can be removed. It does return, where the
checks hold and the copy succeeds. -/
theorem compactActivePages_renames (m : CacheManager Cell) (tree : List PageNode)
    (reqs : List PageReq) (target : Int) (copyPages : List Int → List Int → Except String Unit)
    (retained : List (Option Nat)) :
    let owned := (tensors m tree reqs retained).flatMap m.cells
    let out := compactActivePages m tree reqs target copyPages retained
    (∀ e, out.result = .error e → out.manager = m) ∧
      (∀ r, out.result = .ok r → (∃ σ, Renames m owned out σ) ∧
        (r < m.committedPages → ∃ m', removeCommittedPages out.manager r = .ok m')) ∧
      (Sound m owned → (∀ s d, copyPages s d = .ok ()) → ∃ r, out.result = .ok r) := by
  intro owned out
  have hcells : ∀ c, c ∈ (references m tree reqs retained).flatMap m.cells ↔ c ∈ owned :=
    references_cells m tree reqs retained
  have hcases := compactActivePages_cases m tree reqs target copyPages retained
  rcases hcases with ⟨hsame, ⟨e, herror⟩, hwhy⟩ | hout | ⟨hm, hout⟩ | ⟨hm, s, d, hp, hout⟩
  · -- it raised
    refine ⟨fun _ _ => hsame, fun r hr => ?_, fun hs hcopy => ?_⟩
    · exact nomatch herror.symm.trans hr
    · obtain ⟨s, d, e', hfail⟩ := hwhy (hs.congr fun c => (hcells c).mp)
      exact nomatch (hcopy s d).symm.trans hfail
  · -- the target is not below what is committed
    have hrefl : out = ⟨m, [], .ok m.committedPages⟩ := hout
    rw [hrefl]
    refine ⟨fun e he => (nomatch he), fun r hr => ⟨⟨id, Renames.refl m owned _⟩, fun hlt => ?_⟩,
      fun _ _ => ⟨_, rfl⟩⟩
    rw [← Except.ok.inj hr] at hlt
    exact absurd hlt (Int.lt_irrefl _)
  · -- there is nothing to move, or nowhere to move it
    have hrefl : out = ⟨m, [], .ok (max target (required m))⟩ := hout
    rw [hrefl]
    refine ⟨fun e he => (nomatch he), fun r hr => ⟨⟨id, Renames.refl m owned _⟩, fun hlt => ?_⟩,
      fun _ _ => ⟨_, rfl⟩⟩
    rw [← Except.ok.inj hr] at hlt ⊢
    exact removeCommittedPages_ceiling hm.toSoundFree hlt
  · -- the pages were moved
    have hmoved : out = ⟨moved m (references m tree reqs retained) s d, [(s, d)],
      .ok (max target (required (moved m (references m tree reqs retained) s d)))⟩ := hout
    rw [hmoved]
    refine ⟨fun e he => (nomatch he), fun r hr =>
      ⟨⟨exchange s d, (renames_moved hm hp _).congr hcells⟩, fun hlt => ?_⟩, fun _ _ => ⟨_, rfl⟩⟩
    rw [← Except.ok.inj hr] at hlt ⊢
    exact removeCommittedPages_ceiling (moved_soundFree hm hp) hlt

end Compact

/-- Pages 3 and 4 are named by a row, by a handle that views the same cells, and by a node. -/
def aliased : CacheManager Nat where
  pageSize := 1
  isSwa := false
  swaPaged := false
  committedPages := 4
  pageIndexOffset := 1
  freeSlots := [1, 2]
  pageTable := fun _ => [0, 1]
  view := fun id => if id = 0 then [0, 1] else [2]
  mem := fun c => if c = 0 then 3 else 4

theorem compactActivePages_renames_aliased :
    ∃ σ, Renames aliased [2, 0, 1, 0, 1]
      (compactActivePages aliased [.node (some 1) []] [⟨some 0, 2, some 0⟩] 2
        (fun _ _ => .ok ()) []) σ := by
  have h := compactActivePages_renames aliased [.node (some 1) []] [⟨some 0, 2, some 0⟩] 2
    (fun _ _ => .ok ()) []
  have hsound : Sound aliased [2, 0, 1, 0, 1] :=
    ⟨⟨rfl, by decide, by decide⟩, ⟨rfl, rfl⟩, by decide, by decide⟩
  obtain ⟨r, hr⟩ := h.2.2 hsound fun _ _ => rfl
  exact (h.2.1 r hr).1

end FreeToken.KvCache.PageCompaction
