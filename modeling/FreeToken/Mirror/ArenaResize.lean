import FreeToken.Growable.GrowRefusal
import FreeToken.Lib.Reach
import FreeToken.Mirror.Refill

/-!
# Resizing the expert arena

`OffloadMoeCache.set_usable_slots` with the experts on the slots: a shrink moves the residents worth
keeping, gives the rest a host copy, empties the slots above the new bound and only then unmaps
them; a growth maps them again. Main results:

* `Bank.row_mapped`: a row below the usable slots is mapped, wherever its granules begin.
* `ArenaCache.vacate_spec`: what a shrink does to the experts.
* `resize_exact`: mapping, maps and byte accounts after any run of resizes.
-/

namespace FreeToken.Growable

variable {n m : Nat}

/-! ## Rows are mapped -/

theorem le_roundUp {bytes granule : Nat} (hg : 0 < granule) : bytes ≤ roundUp bytes granule := by
  have hdiv := Nat.div_add_mod (bytes + granule - 1) granule
  have hmod := Nat.mod_lt (bytes + granule - 1) hg
  rw [Nat.mul_comm] at hdiv
  unfold roundUp
  omega

/-- What lies below a bound lies in one of the gaps up to it. -/
theorem exists_gap : ∀ {l : List Nat} {x k byte : Nat}, x ≤ byte → byte < (x :: l).getD k 0 →
    ∃ r ∈ (List.zipWith (fun s e => ((s, e - s) : Range)) (x :: l) l).take k,
      r.1 ≤ byte ∧ byte < r.1 + r.2 := by
  intro l
  induction l with
  | nil =>
    intro x k byte hx hbyte
    cases k with
    | zero =>
      rw [List.getD_cons_zero] at hbyte
      omega
    | succ k =>
      rw [List.getD_cons_succ, List.getD_nil] at hbyte
      omega
  | cons y l ih =>
    intro x k byte hx hbyte
    cases k with
    | zero =>
      rw [List.getD_cons_zero] at hbyte
      omega
    | succ k =>
      rw [List.getD_cons_succ] at hbyte
      rw [List.zipWith_cons_cons, List.take_succ_cons]
      rcases Nat.lt_or_ge byte y with hlt | hge
      · refine ⟨_, List.mem_cons_self, hx, ?_⟩
        show byte < x + (y - x)
        omega
      · obtain ⟨r, hr, hin⟩ := ih hge hbyte
        exact ⟨r, List.mem_cons_of_mem _ hr, hin⟩

/-- A bank maps every row below the usable slots of its class. -/
theorem Bank.row_mapped {b : Bank} (hg : 0 < b.vmm.granularity)
    (hn : b.cls.share n ∈ b.cls.boundaries) {slot byte : Nat} (hslot : slot < b.cls.share n)
    (hbyte : byte < (slot + 1) * b.rowBytes) :
    ∃ r ∈ (b.sized n).vmm.mappings, r.1 ≤ byte ∧ byte < r.1 + r.2 := by
  have hend : byte < roundUp (b.cls.share n * b.rowBytes) b.vmm.granularity :=
    hbyte.trans_le ((Nat.mul_le_mul_right _ hslot).trans (le_roundUp hg))
  rw [← Bank.bound_index hn] at hend
  have hfirst : roundUp (0 * b.rowBytes) b.vmm.granularity ≤ byte := by
    rw [Nat.zero_mul, roundUp_zero hg]
    exact Nat.zero_le _
  obtain ⟨r, hr, hlow, hhigh⟩ := exists_gap hfirst hend
  refine ⟨r, ?_, hlow, hhigh⟩
  show r ∈ (Bank.nonempty (b.chunkRanges.take (b.cls.index n))).toFinset
  rw [List.mem_toFinset]
  exact List.mem_filter.mpr ⟨hr, decide_eq_true (by omega)⟩

/-! ## A growth goes through -/

/-- Commits that all go through. -/
theorem commitEach_ok : ∀ {ts : List Track} {committed : List Track},
    (∀ t ∈ ts, ∃ v, Fault.none.commit t.1 t.2 = some (.none, v)) →
      ∃ vs, commitEach .none committed ts = .done .none vs := by
  intro ts
  induction ts with
  | nil =>
    intro committed _
    exact ⟨_, rfl⟩
  | cons t ts ih =>
    intro committed hts
    obtain ⟨v, rs⟩ := t
    obtain ⟨v', hv⟩ := hts _ List.mem_cons_self
    have hrest : ∃ vs, commitEach .none ((v', rs) :: committed) ts = .done .none vs :=
      ih fun t ht => hts t (List.mem_cons_of_mem _ ht)
    obtain ⟨vs, hvs⟩ := hrest
    refine ⟨vs, ?_⟩
    unfold commitEach
    rw [hv]
    exact hvs

namespace ArenaSpec

variable {s : ArenaSpec}

/-- The chunks of a growth are apart from what is mapped. -/
theorem track_commit (hm : m ∈ s.boundaries) (hn : n ∈ s.boundaries) (hmn : m ≤ n) {t : Track}
    (ht : t ∈ (s.arena m).tracks m n) : ∃ v, Fault.none.commit t.1 t.2 = some (.none, v) := by
  obtain ⟨b, hb, rfl⟩ := List.mem_map.mp ht
  obtain ⟨spec, hspec, rfl⟩ := mem_banks hb
  obtain ⟨hrequest, -⟩ := slice_request hm hn hmn hspec
  have hindex := (sound hm).index_le hm hmn hb
  rw [Bank.sized_cls] at hindex
  have hpair := (@Bank.chunkRanges_pairwise (bank spec)).sublist
    (List.take_sublist ((bank spec).cls.index n) _)
  rw [Bank.take_eq_append_slice hindex] at hpair
  have happart : ∀ r ∈ Bank.nonempty ((bank spec).slice m n),
      ∀ q ∈ ((bank spec).sized m).vmm.mappings, Range.Apart r q := by
    intro r hr q hq
    have hr := (List.mem_filter.mp hr).1
    have hq := (List.mem_filter.mp (List.mem_toFinset.mp hq)).1
    exact Or.inr ((List.pairwise_append.mp hpair).2.2 q hq r hr)
  have hsome := Vmm.commitRanges_eq_some.mpr
    (show (((bank spec).sized m).vmm.Request _ ∧ _) ∧ _ from ⟨⟨hrequest, happart⟩, rfl⟩)
  show ∃ v, Fault.none.commit ((bank spec).sized m).vmm
    (Bank.nonempty ((bank spec).slice m n)) = some (.none, v)
  unfold Fault.commit
  split
  · exact ⟨_, rfl⟩
  · rw [hsome]
    exact ⟨_, rfl⟩

/-- A growth to a boundary goes through, where no commit fails. -/
theorem grow_eq (hm : m ∈ s.boundaries) (hn : n ∈ s.boundaries) (hlt : m < n) :
    (s.arena m).grow .none n = .done .none (s.arena n, (s.arena m).sliceBytes m n) := by
  have hcommit : ∃ vmms, commitEach .none [] ((s.arena m).tracks m n) = .done .none vmms :=
    commitEach_ok fun t ht => track_commit hm hn hlt.le ht
  obtain ⟨vmms, hvmms⟩ := hcommit
  have hgrow : (s.arena m).grow .none n = .done .none
      ({ s.arena m with cacheSize := n, banks := (s.arena m).setVmms vmms },
        (s.arena m).sliceBytes m n) := by
    unfold Arena.grow
    rw [arena_cacheSize, hvmms]
  obtain ⟨harena, -⟩ := Arena.grow_done (sound hm) (by rwa [arena_cacheSize]) hgrow
  rwa [harena, arena_sized] at hgrow

end ArenaSpec

end FreeToken.Growable

namespace FreeToken.Mirror

open FreeToken.Lib FreeToken.Experts FreeToken.Growable Function

variable {β ρ : Type} [LinearOrder ρ] {n current : Nat}

/-! ## The cache and its arena -/

/-- The arena, and where the experts are that have no slot: the whole model is in host RAM, or a
bounded mirror covers what the GPU does not hold. A mirror has one pointer and stride per bank, and
so it is not attached to an arena of size classes. -/
inductive Residency where
  | whole
  | wholeOfClasses
  | mirror
deriving DecidableEq

/-- What is fixed once `set_bank_sources` or `attach_residency` has run. -/
structure ArenaCache (β : Type) where
  spec : ArenaSpec
  residency : Residency
  geometry : Geometry
  /-- The bytes of each expert. -/
  data : Nat → β
  layouts : residency ≠ .wholeOfClasses → spec.layouts.length = 1
  /-- The maps have an entry for each slot of the capacity. -/
  slots : geometry.cacheSize = (spec.layouts.map Prod.fst).sum

structure ArenaState (β : Type) where
  arena : Growable.Arena
  experts : Mirror β

/-- A call of `set_usable_slots`: also of `set_class_usable_slots`, to which it dispatches. -/
structure ResizeCall (ρ : Type) where
  target : Nat
  /-- Which `commit_ranges` of a growth raises, if one does. -/
  failing : Option Nat
  /-- `FREETOKEN_ARENA_COMPACTION`. -/
  compaction : Bool
  /-- `_compaction_rank`. -/
  rank : Nat → ρ
  /-- The cache is on a CUDA device. -/
  gpu : Bool

def ResizeCall.fault (call : ResizeCall ρ) : Fault :=
  match call.failing with
  | none => .none
  | some calls => .ranges calls

/-- The slots from `n` on are emptied, and the entries of their residents. -/
def invalidate (n current : Nat) (m : Mirror β) : Mirror β :=
  { m with
    slotForId := copyRows (fun _ => none)
      ((doomedSlots m n current).map fun p => (p.1, p.1)) m.slotForId
    idOfSlot := fun s => if n ≤ s ∧ s < current then none else m.idOfSlot s }

namespace ArenaCache

variable (c : ArenaCache β)

/-- `host_copy_mask`, which is `None` for the whole model. -/
def hostCopy (m : Mirror β) (flat : Nat) : Bool :=
  match c.residency with
  | .mirror => (m.poolRowOfId flat).isSome
  | .whole | .wholeOfClasses => true

/-- What a shrink does to the experts before it unmaps their slots: `compact_before_shrink`,
`before_shrink` and the invalidation, of which an arena of classes has only the last. A refill that
is short of rows raises, behind the moves. -/
def vacate (call : ResizeCall ρ) (n current : Nat) (m : Mirror β) : Except (Mirror β) (Mirror β) :=
  match c.residency with
  | .wholeOfClasses => .ok (invalidate n current m)
  | .whole =>
    let lo := min c.geometry.prefillBase n
    let m := if call.compaction then
        applyPlan (planCompaction m.idOfSlot call.rank (c.hostCopy m) lo n current) m
      else m
    .ok (invalidate n current m)
  | .mirror =>
    let m := compactBeforeShrink c.geometry call.compaction call.rank n current m
    match mirrorRefillUncovered c.geometry c.data n current call.gpu m with
    | .error _ => .error (m.drainWritebacks c.geometry)
    | .ok (_, m) => .ok (invalidate n current m)

/-- `set_usable_slots`, with the bytes that were mapped or unmapped. Only a `commit_ranges` of a
growth is made to fail. -/
def setUsableSlots (call : ResizeCall ρ) (s : ArenaState β) : Attempt (ArenaState β × Nat) :=
  let a := s.arena
  let n := call.target
  if n = a.cacheSize then .done .none (s, 0)
  else if a.total < n then .raised (s, 0)
  else if n ∉ a.boundaries then .raised (s, 0)
  else if n < a.jointFloor then .raised (s, 0)
  else if n < a.cacheSize then
    match c.vacate call n a.cacheSize s.experts with
    | .error experts => .raised ({ s with experts := experts }, 0)
    | .ok experts =>
      match a.shrink .none n with
      | .raised (a', bytes) => .raised (⟨a', experts⟩, bytes)
      | .done f (a', bytes) => .done f (⟨a', experts⟩, bytes)
  else
    match a.grow call.fault n with
    | .raised (a', bytes) => .raised ({ s with arena := a' }, bytes)
    | .done f (a', bytes) => .done f ({ s with arena := a' }, bytes)

end ArenaCache

/-! ## Emptied slots -/

section Invalidate

variable {m : Mirror β} {id s : Nat}

theorem invalidate_idOfSlot_eq : (invalidate n current m).idOfSlot s = some id ↔
    ¬(n ≤ s ∧ s < current) ∧ m.idOfSlot s = some id := by
  unfold invalidate
  simp only
  by_cases hs : n ≤ s ∧ s < current
  · simp [hs]
  · simp [hs]

/-- An expert keeps its slot just when the slot is kept. -/
theorem invalidate_slotForId_eq (hslots : Paired m.slotForId m.idOfSlot) :
    (invalidate n current m).slotForId id = some s ↔
      ¬(n ≤ s ∧ s < current) ∧ m.slotForId id = some s := by
  have hkeys : ((doomedSlots m n current).map fun p => (p.1, p.1)).map Prod.fst =
      (doomedSlots m n current).map Prod.fst := by
    rw [List.map_map]
    rfl
  by_cases hdoomed : id ∈ (doomedSlots m n current).map Prod.fst
  · have hnone : (invalidate n current m).slotForId id = none := by
      refine copyRows_const ?_
      rwa [hkeys]
    -- its slot is the one that is emptied
    obtain ⟨s', hs', hid⟩ := mem_doomed_ids.mp hdoomed
    rw [← hslots] at hid
    rw [hnone, hid]
    simp only [reduceCtorEq, Option.some.injEq, false_iff]
    rintro ⟨hs, rfl⟩
    exact hs hs'
  · have hsame : (invalidate n current m).slotForId id = m.slotForId id := by
      show copyRows (fun _ => none) ((doomedSlots m n current).map fun p => (p.1, p.1))
        m.slotForId id = m.slotForId id
      refine copyRows_of_not_mem fun q hq heq => hdoomed ?_
      rw [← hkeys, ← heq]
      exact List.mem_map_of_mem hq
    rw [hsame]
    refine ⟨fun hs => ⟨fun hin => hdoomed ?_, hs⟩, fun hs => hs.2⟩
    exact mem_doomed_ids.mpr ⟨s, hin, (hslots id s).mp hs⟩

theorem invalidate_paired (hslots : Paired m.slotForId m.idOfSlot) :
    Paired (invalidate n current m).slotForId (invalidate n current m).idOfSlot := by
  intro id s
  rw [invalidate_slotForId_eq hslots, invalidate_idOfSlot_eq, hslots]

/-- Emptying slots loses no copy where every expert without one of the others has a row. -/
theorem invalidate_covered {g : Geometry} {data : Nat → β} (hcov : Covered g data m)
    (hrows : ∀ id < g.total, (∀ s < n, m.idOfSlot s ≠ some id) → m.poolRowOfId id ≠ none) :
    Covered g data (invalidate n current m) where
  slots := invalidate_paired hcov.slots
  rows := hcov.rows
  free := hcov.free
  published := hcov.published
  covered id hid := by
    by_cases hbelow : ∃ s < n, m.idOfSlot s = some id
    · obtain ⟨s, hs, hres⟩ := hbelow
      left
      rw [(invalidate_slotForId_eq hcov.slots).mpr ⟨by omega, (hcov.slots id s).mpr hres⟩]
      exact Option.some_ne_none s
    · exact Or.inr (hrows id hid fun s hs hres => hbelow ⟨s, hs, hres⟩)
  slotBytes id slot hslot :=
    hcov.slotBytes id slot ((invalidate_slotForId_eq hcov.slots).mp hslot).2
  rowBytes := hcov.rowBytes

theorem invalidate_inArena {g : Geometry} (harena : InArena g current m) :
    InArena g n (invalidate n current m) where
  slot s id hs := by
    obtain ⟨hkept, hres⟩ := invalidate_idOfSlot_eq.mp hs
    have hin := harena.slot s id hres
    exact ⟨by omega, hin.2⟩
  row := harena.row

end Invalidate

/-! ## A refill that went through -/

section Refill

variable {g : Geometry} {data : Nat → β} {m m' : Mirror β} {gpu : Bool} {count : Nat}

theorem refilled_of_ok (hcov : Covered g data m) (harena : InArena g current m)
    (hcurrent : current ≤ g.cacheSize) (hn : n ≤ current)
    (h : mirrorRefillUncovered g data n current gpu m = .ok (count, m')) :
    Refilled g data n m m' := by
  rcases Nat.lt_or_ge (spareRows g m n current).length (uncoveredIds m n current).length
    with hshort | hle
  · -- with fewer spare rows than experts it would have raised
    have hsome : uncoveredIds (m.drainWritebacks g) n current ≠ [] := by
      intro hnil
      rw [show uncoveredIds m n current = [] from hnil] at hshort
      exact Nat.not_lt_zero _ hshort
    unfold mirrorRefillUncovered at h
    simp only at h
    rw [if_neg hsome, if_pos (show (spareRows g (m.drainWritebacks g) n current).length <
      (uncoveredIds (m.drainWritebacks g) n current).length from hshort)] at h
    cases h
  · obtain ⟨count', m'', hok, hrefilled⟩ := refill_ok hcov harena hcurrent hn gpu hle
    rw [hok, Except.ok.injEq, Prod.mk.injEq] at h
    exact h.2 ▸ hrefilled

/-- The rows of a mirror, and their owners, are its own. -/
def RowsWithin (g : Geometry) (m : Mirror β) : Prop :=
  ∀ row id, m.idOfPoolRow row = some id → row < g.capacity ∧ id < g.total

theorem giveRows_within : ∀ {pairs : List (Nat × Nat)} {m : Mirror β}, RowsWithin g m →
    (∀ p ∈ pairs, p.1 < g.total ∧ p.2 < g.capacity) →
    RowsWithin g (pairs.foldl (giveRow data gpu) m) := by
  intro pairs
  induction pairs with
  | nil =>
    intro m hm _
    exact hm
  | cons p pairs ih =>
    intro m hm hpairs
    refine ih (fun row id hrow => ?_) fun q hq => hpairs q (List.mem_cons_of_mem _ hq)
    have hp := hpairs p List.mem_cons_self
    by_cases heq : row = p.2
    · have hid : some p.1 = some id := by
        rw [← hrow, heq]
        exact (update_self p.2 (some p.1) m.idOfPoolRow).symm
      rw [Option.some.injEq] at hid
      exact ⟨heq ▸ hp.2, hid ▸ hp.1⟩
    · refine hm row id ?_
      rw [← hrow]
      exact (update_of_ne heq (some p.1) m.idOfPoolRow).symm

theorem refill_within (harena : InArena g current m)
    (h : mirrorRefillUncovered g data n current gpu m = .ok (count, m')) : RowsWithin g m' := by
  unfold mirrorRefillUncovered at h
  simp only at h
  split_ifs at h with hnil hshort hgpu
  all_goals simp only [Except.ok.injEq, Prod.mk.injEq] at h
  · rw [← h.2]
    exact harena.row
  all_goals
    rw [← h.2]
    refine giveRows_within harena.row fun p hp => ?_
    obtain ⟨hid, hrow⟩ := List.of_mem_zip hp
    obtain ⟨⟨slot, -, hres⟩, -⟩ := mem_uncoveredIds.mp hid
    refine ⟨(harena.slot slot p.1 hres).2, ?_⟩
    exact List.mem_range.mp (List.mem_filter.mp (List.mem_of_mem_take hrow)).1

end Refill

/-! ## What a shrink does to the experts -/

namespace ArenaCache

variable {c : ArenaCache β} {m m' : Mirror β} {call : ResizeCall ρ} {id : Nat}

/-- **What holds between calls**: the maps name the same pairs, nobody sits at or above the usable
slots, and a mirror covers its experts. -/
structure Seated (c : ArenaCache β) (usable : Nat) (m : Mirror β) : Prop where
  slots : Paired m.slotForId m.idOfSlot
  below : ∀ slot id, m.idOfSlot slot = some id → slot < usable
  mirror : c.residency = .mirror →
    Covered c.geometry c.data m ∧ InArena c.geometry usable m

/-- An expert is on a usable slot, or has a host copy. -/
def Held (c : ArenaCache β) (usable : Nat) (m : Mirror β) (id : Nat) : Prop :=
  (∃ slot < usable, m.slotForId id = some slot) ∨ c.hostCopy m id = true

/-- Where the whole model is in host RAM, only the slot maps matter. -/
theorem seated_invalidate_of_whole (hwhole : c.residency ≠ .mirror)
    (hslots : Paired m.slotForId m.idOfSlot)
    (hbelow : ∀ slot id, m.idOfSlot slot = some id → slot < current) :
    c.Seated n (invalidate n current m) where
  slots := invalidate_paired hslots
  below slot id hslot := by
    obtain ⟨hkept, hres⟩ := invalidate_idOfSlot_eq.mp hslot
    have := hbelow slot id hres
    omega
  mirror h := absurd h hwhole

theorem held_of_whole (hwhole : c.residency ≠ .mirror) : c.Held n m id := by
  right
  unfold hostCopy
  split
  · rename_i h
    exact absurd h hwhole
  · rfl
  · rfl

/-- The moves keep the slot maps also where the rows of a mirror play no part. -/
theorem applyPlan_seated (hslots : Paired m.slotForId m.idOfSlot)
    (hbelow : ∀ slot id, m.idOfSlot slot = some id → slot < current) (hn : n ≤ current) (lo : Nat)
    (rank : Nat → ρ) :
    let p := planCompaction m.idOfSlot rank (fun _ => true) lo n current
    Paired (applyPlan p m).slotForId (applyPlan p m).idOfSlot ∧
      ∀ slot id, (applyPlan p m).idOfSlot slot = some id → slot < current := by
  intro p
  -- as if every expert had a row
  let owned : Mirror β := { m with poolRowOfId := fun _ => some 0 }
  have hdown : MovesDown n owned p := planCompaction_movesDown owned rank lo n current
  refine ⟨applyPlan_paired (m := owned) hslots hdown, fun slot id hslot => ?_⟩
  obtain ⟨src, hsrc, hmv, -⟩ := applyPlan_resident (m := owned) hdown hslot
  rcases hmv with rfl | hmv
  · exact hbelow src id hsrc
  · have := (hdown.down _ hmv).2.1
    omega

theorem held_of_covered (hmirror : c.residency = .mirror)
    (hcov : Covered c.geometry c.data m) (harena : InArena c.geometry n m)
    (hid : id < c.geometry.total) : c.Held n m id := by
  rcases hcov.covered id hid with hslot | hrow
  · obtain ⟨slot, hslot⟩ := Option.ne_none_iff_exists'.mp hslot
    exact Or.inl ⟨slot, (harena.slot slot id ((hcov.slots id slot).mp hslot)).1, hslot⟩
  · right
    unfold hostCopy
    rw [hmirror]
    exact Option.isSome_iff_ne_none.mpr hrow

/-- What vacating leaves of the experts, whether or not it raises. -/
structure Vacated (c : ArenaCache β) (usable : Nat) (m m' : Mirror β) : Prop where
  seated : c.Seated usable m'
  held : ∀ slot id, m.idOfSlot slot = some id → c.Held usable m' id

/-- **A shrink loses no expert.** -/
theorem vacate_spec (hm : c.Seated current m) (hcurrent : current ≤ c.geometry.cacheSize)
    (hn : n ≤ current) (call : ResizeCall ρ) :
    (∀ m', c.vacate call n current m = .ok m' → c.Vacated n m m') ∧
      ∀ m', c.vacate call n current m = .error m' →
        c.residency = .mirror ∧ c.Vacated current m m' := by
  unfold vacate
  cases hres : c.residency with
  | wholeOfClasses =>
    have hwhole : c.residency ≠ .mirror := by rw [hres]; decide
    refine ⟨fun m' h => ?_, fun m' h => by cases h⟩
    simp only [Except.ok.injEq] at h
    subst h
    exact ⟨seated_invalidate_of_whole hwhole hm.slots hm.below,
      fun _ _ _ => held_of_whole hwhole⟩
  | whole =>
    have hwhole : c.residency ≠ .mirror := by rw [hres]; decide
    have hcopy : c.hostCopy m = fun _ => true := by
      funext flat
      unfold hostCopy
      rw [hres]
    refine ⟨fun m' h => ?_, fun m' h => by cases h⟩
    simp only [Except.ok.injEq, hcopy] at h
    subst h
    refine ⟨?_, fun _ _ _ => held_of_whole hwhole⟩
    split
    · obtain ⟨hslots, hbelow⟩ := applyPlan_seated hm.slots hm.below hn
        (min c.geometry.prefillBase n) call.rank
      exact seated_invalidate_of_whole hwhole hslots hbelow
    · exact seated_invalidate_of_whole hwhole hm.slots hm.below
  | mirror =>
    obtain ⟨hcov, harena⟩ := hm.mirror hres
    obtain ⟨hcov₁, harena₁, -⟩ :=
      compactBeforeShrink_covered hcov harena call.compaction call.rank hn
    have htotal : ∀ slot id, m.idOfSlot slot = some id → id < c.geometry.total :=
      fun slot id hslot => (harena.slot slot id hslot).2
    simp only
    generalize compactBeforeShrink c.geometry call.compaction call.rank n current m = m₁
      at hcov₁ harena₁
    cases hrefill : mirrorRefillUncovered c.geometry c.data n current call.gpu m₁ with
    | error short =>
      -- too few rows to refill: the pool is drained, and nothing is evicted
      refine ⟨fun m' h => (by cases h), fun m' h => ⟨trivial, ?_⟩⟩
      simp only [Except.error.injEq] at h
      subst h
      have hdrained : InArena c.geometry current (m₁.drainWritebacks c.geometry) :=
        ⟨harena₁.slot, harena₁.row⟩
      exact ⟨⟨hcov₁.slots, fun slot id h => (harena₁.slot slot id h).1,
        fun _ => ⟨hcov₁.drain, hdrained⟩⟩,
        fun slot id hslot => held_of_covered hres hcov₁.drain hdrained (htotal slot id hslot)⟩
    | ok r =>
      obtain ⟨count, m₂⟩ := r
      refine ⟨fun m' h => ?_, fun m' h => by cases h⟩
      simp only [Except.ok.injEq] at h
      subst h
      -- what lay above `n` is in the pool now, so it may be dropped from the arena
      have hrefilled := refilled_of_ok hcov₁ harena₁ hcurrent hn hrefill
      have harena₂ : InArena c.geometry current m₂ :=
        ⟨hrefilled.slots ▸ harena₁.slot, refill_within harena₁ hrefill⟩
      have hcov₃ : Covered c.geometry c.data (invalidate n current m₂) :=
        invalidate_covered hrefilled.covered hrefilled.below
      have harena₃ : InArena c.geometry n (invalidate n current m₂) := invalidate_inArena harena₂
      exact ⟨⟨hcov₃.slots, fun slot id h => (harena₃.slot slot id h).1, fun _ => ⟨hcov₃, harena₃⟩⟩,
        fun slot id hslot => held_of_covered hres hcov₃ harena₃ (htotal slot id hslot)⟩

/-! ## One call -/

/-- What the banks cost at some usable slots: `arena_bytes_for_usable`, summed over the classes. -/
def price (c : ArenaCache β) (usable : Nat) : Nat := (c.spec.arena 0).transitionBytes usable

/-- Every row below the usable slots of its class is mapped, in each bank. -/
def RowsMapped (a : Growable.Arena) : Prop :=
  ∀ b ∈ a.banks, ∀ slot < b.cls.share a.cacheSize, ∀ byte, slot * b.rowBytes ≤ byte →
    byte < (slot + 1) * b.rowBytes → ∃ r ∈ b.vmm.mappings, r.1 ≤ byte ∧ byte < r.1 + r.2

structure Coherent (c : ArenaCache β) (s : ArenaState β) : Prop where
  arena : ∃ usable ∈ c.spec.boundaries, s.arena = c.spec.arena usable
  seated : c.Seated s.arena.cacheSize s.experts

/-- What a call that went through leaves. -/
structure Resized (c : ArenaCache β) (n : Nat) (s s' : ArenaState β) (bytes : Nat) : Prop where
  arena : s'.arena = c.spec.arena n
  accepted : c.spec.Accepts s.arena.cacheSize n
  mapped : RowsMapped s'.arena
  /-- What a shrink unmaps are ranges that were mapped as they are. -/
  named : ∀ t ∈ s.arena.tracks n s.arena.cacheSize, ∀ r ∈ t.2, r ∈ t.1.mappings
  bytes : (bytes : Int) = |(c.price n : Int) - c.price s.arena.cacheSize|
  seated : c.Seated n s'.experts
  held : ∀ slot id, s.experts.idOfSlot slot = some id → c.Held n s'.experts id

/-- What a call that raised leaves: a growth leaves everything as it was. -/
structure Refused (c : ArenaCache β) (call : ResizeCall ρ) (s s' : ArenaState β) : Prop where
  arena : s'.arena = s.arena
  mapped : RowsMapped s'.arena
  seated : c.Seated s.arena.cacheSize s'.experts
  held : ∀ slot id, s.experts.idOfSlot slot = some id → c.Held s.arena.cacheSize s'.experts id
  unchanged : s' = s ∨ call.target < s.arena.cacheSize ∧ c.residency = .mirror
  /-- A target that is accepted fails by a commit of the growth, or by a mirror short of rows. -/
  cause : c.spec.Accepts s.arena.cacheSize call.target →
    s.arena.cacheSize < call.target ∧ call.failing ≠ none ∨
      call.target < s.arena.cacheSize ∧ c.residency = .mirror

theorem arena_rowsMapped {usable : Nat} (hu : usable ∈ c.spec.boundaries) :
    RowsMapped (c.spec.arena usable) := by
  intro b hb slot hslot byte _ hbyte
  obtain ⟨spec, hspec, rfl⟩ := ArenaSpec.mem_banks hb
  have hshare := Growable.Arena.share_mem c.spec.steps hu (c.spec.classes spec hspec)
  exact Bank.row_mapped (b := ArenaSpec.bank spec) (Nat.two_pow_pos 21) hshare hslot hbyte

theorem held_of_seated (hm : c.Seated current m) (hn : current ≤ n) :
    ∀ slot id, m.idOfSlot slot = some id → c.Held n m id :=
  fun slot id hslot =>
    Or.inl ⟨slot, (hm.below slot id hslot).trans_le hn, (hm.slots id slot).mpr hslot⟩

theorem Seated.mono (hm : c.Seated current m) (hn : current ≤ n) : c.Seated n m where
  slots := hm.slots
  below slot id hslot := (hm.below slot id hslot).trans_le hn
  mirror hmirror := by
    obtain ⟨hcov, harena⟩ := hm.mirror hmirror
    refine ⟨hcov, fun slot id hslot => ?_, harena.row⟩
    have hin := harena.slot slot id hslot
    exact ⟨hin.1.trans_le hn, hin.2⟩

omit [LinearOrder ρ] in
/-- A call that is turned down changes nothing. -/
theorem refused_self {s : ArenaState β} (h : c.Coherent s)
    (hrefuse : ¬c.spec.Accepts s.arena.cacheSize call.target) : c.Refused call s s where
  arena := rfl
  mapped := by
    obtain ⟨usable, hu, harena⟩ := h.arena
    rw [harena]
    exact arena_rowsMapped hu
  seated := h.seated
  held := held_of_seated h.seated (Nat.le_refl _)
  unchanged := Or.inl rfl
  cause haccepts := absurd haccepts hrefuse

/-- The bytes between two boundaries are what the prices differ by. -/
theorem sliceBytes_price (usable : Nat) {low high : Nat} (hlow : low ∈ c.spec.boundaries)
    (hhigh : high ∈ c.spec.boundaries) (hle : low ≤ high) :
    (c.spec.arena usable).sliceBytes low high + c.price low = c.price high := by
  have hslice : (c.spec.arena usable).sliceBytes low high =
      (c.spec.arena high).sliceBytes low high := by
    unfold Growable.Arena.sliceBytes
    rw [← ArenaSpec.arena_sized (s := c.spec) (n := high) (m := usable)]
    unfold Growable.Arena.sized
    rw [List.map_map]
    rfl
  have hbytes := Growable.Arena.sliceBytes_add (ArenaSpec.sound hhigh) ArenaSpec.granular hlow
    hhigh hle
  rw [ArenaSpec.transitionBytes_eq, ArenaSpec.transitionBytes_eq (m := high)] at hbytes
  rw [hslice]
  exact hbytes

/-- What a call leaves. -/
def Exact (c : ArenaCache β) (call : ResizeCall ρ) (s : ArenaState β) :
    Attempt (ArenaState β × Nat) → Prop
  | .done _ (s', bytes) => c.Resized call.target s s' bytes
  | .raised (s', _) => c.Refused call s s'

theorem shrink_exact {usable : Nat} (hu : usable ∈ c.spec.boundaries)
    (hm : c.Seated usable m) (call : ResizeCall ρ) (hn : call.target ∈ c.spec.boundaries)
    (hfloor : (c.spec.arena 0).jointFloor ≤ call.target) (hlt : call.target < usable) :
    c.Exact call ⟨c.spec.arena usable, m⟩
      (match c.vacate call call.target usable m with
      | .error experts => .raised (⟨c.spec.arena usable, experts⟩, 0)
      | .ok experts =>
        match (c.spec.arena usable).shrink .none call.target with
        | .raised (a', bytes) => .raised (⟨a', experts⟩, bytes)
        | .done f (a', bytes) => .done f (⟨a', experts⟩, bytes)) := by
  have hslots : usable ≤ c.geometry.cacheSize := c.slots ▸ ArenaSpec.boundary_le_total hu
  obtain ⟨hok, herror⟩ := vacate_spec hm hslots hlt.le call
  cases hvacate : c.vacate call call.target usable m with
  | error m' =>
    obtain ⟨hmirror, hvacated⟩ := herror m' hvacate
    exact
      { arena := rfl
        mapped := arena_rowsMapped hu
        seated := hvacated.seated
        held := hvacated.held
        unchanged := Or.inr ⟨hlt, hmirror⟩
        cause := fun _ => Or.inr ⟨hlt, hmirror⟩ }
  | ok m' =>
    have hvacated := hok m' hvacate
    simp only [ArenaSpec.shrink_eq c.spec hn hu hlt]
    have hprice := sliceBytes_price usable hn hu hlt.le
    exact
      { arena := rfl
        accepted := Or.inr ⟨hn, hfloor⟩
        mapped := arena_rowsMapped hn
        named := fun t ht => (ArenaSpec.track_mapped hn hu hlt.le ht).2
        bytes := by
          show (((c.spec.arena usable).sliceBytes call.target usable : Nat) : Int) =
            |(c.price call.target : Int) - c.price usable|
          rw [abs_of_nonpos (by omega)]
          omega
        seated := hvacated.seated
        held := hvacated.held }

omit [LinearOrder ρ] in
theorem grow_exact {usable : Nat} (hu : usable ∈ c.spec.boundaries) (hm : c.Seated usable m)
    (call : ResizeCall ρ) (hn : call.target ∈ c.spec.boundaries)
    (hfloor : (c.spec.arena 0).jointFloor ≤ call.target) (hlt : usable < call.target) :
    c.Exact call ⟨c.spec.arena usable, m⟩
      (match (c.spec.arena usable).grow call.fault call.target with
      | .raised (a', bytes) => .raised (⟨a', m⟩, bytes)
      | .done f (a', bytes) => .done f (⟨a', m⟩, bytes)) := by
  cases hgrow : (c.spec.arena usable).grow call.fault call.target with
  | raised r =>
    obtain ⟨a', bytes⟩ := r
    obtain rfl : a' = c.spec.arena usable := Growable.Arena.grow_raised hgrow
    -- without a failing commit the growth would have gone through
    have hfailing : call.failing ≠ none := by
      intro hnone
      have hfault : call.fault = .none := by
        unfold ResizeCall.fault
        rw [hnone]
      rw [hfault, ArenaSpec.grow_eq hu hn hlt] at hgrow
      cases hgrow
    exact
      { arena := rfl
        mapped := arena_rowsMapped hu
        seated := hm
        held := held_of_seated hm (Nat.le_refl _)
        unchanged := Or.inl rfl
        cause := fun _ => Or.inl ⟨hlt, hfailing⟩ }
  | done f r =>
    obtain ⟨a', bytes⟩ := r
    obtain ⟨harena, hbytes⟩ := Growable.Arena.grow_done (ArenaSpec.sound hu) hlt hgrow
    rw [ArenaSpec.arena_sized] at harena
    have hprice := sliceBytes_price usable hu hn hlt.le
    have hmapped : RowsMapped a' := by
      rw [harena]
      exact arena_rowsMapped hn
    exact
      { arena := harena
        accepted := Or.inr ⟨hn, hfloor⟩
        mapped := hmapped
        named := fun t ht r hr => by
          -- nothing is unmapped on the way up
          obtain ⟨b, hb, rfl⟩ := List.mem_map.mp ht
          have hindex := (ArenaSpec.sound hn).index_le hu hlt.le
            (by
              show b.sized call.target ∈ (c.spec.arena call.target).banks
              rw [← ArenaSpec.arena_sized (s := c.spec) (n := usable) (m := call.target)]
              exact List.mem_map_of_mem hb)
          have hnil : b.slice call.target usable = [] :=
            List.drop_eq_nil_of_le ((List.length_take_le _ _).trans hindex)
          have hr : r ∈ Bank.nonempty (b.slice call.target usable) := hr
          rw [hnil] at hr
          cases hr
        bytes := by
          show (bytes : Int) = |(c.price call.target : Int) - c.price usable|
          have hbytes : bytes = (c.spec.arena usable).sliceBytes usable call.target := hbytes
          rw [abs_of_nonneg (by omega)]
          omega
        seated := hm.mono hlt.le
        held := held_of_seated hm hlt.le }

/-- **One call**, from where the mapping and the maps agree. -/
theorem setUsableSlots_exact {s : ArenaState β} (h : c.Coherent s) (call : ResizeCall ρ) :
    c.Exact call s (c.setUsableSlots call s) := by
  have hcoherent := h
  obtain ⟨⟨usable, hu, harena⟩, hm⟩ := h
  obtain ⟨a, m⟩ := s
  simp only at harena hm
  subst harena
  have hm : c.Seated usable m := hm
  unfold setUsableSlots
  show c.Exact call _ (if call.target = usable then _
    else if (c.spec.arena usable).total < call.target then _
    else if call.target ∉ c.spec.boundaries then _
    else if call.target < (c.spec.arena usable).jointFloor then _
    else if call.target < usable then _ else _)
  by_cases hsame : call.target = usable
  · rw [if_pos hsame]
    exact
      { arena := by rw [hsame]
        accepted := Or.inl hsame
        mapped := arena_rowsMapped hu
        named := by
          rw [hsame]
          exact fun t ht => (ArenaSpec.track_mapped hu hu (Nat.le_refl _) ht).2
        bytes := by
          rw [hsame]
          simp
        seated := hm.mono (Nat.le_of_eq hsame.symm)
        held := held_of_seated hm (Nat.le_of_eq hsame.symm) }
  -- the checks, in the source's order
  rw [if_neg hsame]
  by_cases htotal : (c.spec.arena usable).total < call.target
  · rw [if_pos htotal]
    refine refused_self hcoherent fun haccepts => ?_
    rcases haccepts with heq | ⟨hmem, -⟩
    · exact hsame heq
    · have : call.target ≤ (c.spec.arena usable).total := ArenaSpec.boundary_le_total hmem
      omega
  rw [if_neg htotal]
  by_cases hn : call.target ∈ c.spec.boundaries
  · rw [if_neg (not_not.mpr hn), ArenaSpec.arena_jointFloor]
    by_cases hfloor : call.target < (c.spec.arena 0).jointFloor
    · rw [if_pos hfloor]
      refine refused_self hcoherent fun haccepts => ?_
      rcases haccepts with heq | ⟨-, hle⟩
      · exact hsame heq
      · exact Nat.not_lt.mpr hle hfloor
    · rw [if_neg hfloor]
      rcases Nat.lt_or_ge call.target usable with hlt | hge
      · rw [if_pos hlt]
        exact shrink_exact hu hm call hn (Nat.not_lt.mp hfloor) hlt
      · rw [if_neg (Nat.not_lt.mpr hge)]
        exact grow_exact hu hm call hn (Nat.not_lt.mp hfloor) (by omega)
  · rw [if_pos hn]
    refine refused_self hcoherent fun haccepts => ?_
    rcases haccepts with heq | ⟨hmem, -⟩
    · exact hsame heq
    · exact hn hmem

/-! ## Runs -/

/-- The state after a call, also after one that raised. -/
def after : Attempt (ArenaState β × Nat) → ArenaState β
  | .done _ r => r.1
  | .raised r => r.1

end ArenaCache

/-- Resizes, with anything that forwards do to the experts in between. -/
inductive ArenaEvent (β ρ : Type) where
  | resize (call : ResizeCall ρ)
  | serve (experts : Mirror β)

namespace ArenaCache

variable {c : ArenaCache β}

def step (c : ArenaCache β) (s : ArenaState β) : ArenaEvent β ρ → Option (ArenaState β)
  | .resize call => some (after (c.setUsableSlots call s))
  | .serve experts => some { s with experts := experts }

/-- Forwards keep to the usable slots, and a mirror stays covered. -/
def Serves (c : ArenaCache β) (s : ArenaState β) : ArenaEvent β ρ → Prop
  | .resize _ => True
  | .serve experts => c.Seated s.arena.cacheSize experts

theorem coherent_after {s : ArenaState β} (h : c.Coherent s) (call : ResizeCall ρ) :
    c.Coherent (after (c.setUsableSlots call s)) := by
  have hexact := setUsableSlots_exact h call
  obtain ⟨usable, hu, harena⟩ := h.arena
  have hcurrent : s.arena.cacheSize = usable := by rw [harena, ArenaSpec.arena_cacheSize]
  cases hcall : c.setUsableSlots call s with
  | raised r =>
    obtain ⟨s', bytes⟩ := r
    rw [hcall] at hexact
    have hrefused : c.Refused call s s' := hexact
    refine ⟨⟨usable, hu, hrefused.arena.trans harena⟩, ?_⟩
    show c.Seated s'.arena.cacheSize s'.experts
    rw [hrefused.arena]
    exact hrefused.seated
  | done f r =>
    obtain ⟨s', bytes⟩ := r
    rw [hcall] at hexact
    have hresized : c.Resized call.target s s' bytes := hexact
    have hn : call.target ∈ c.spec.boundaries := by
      rcases hresized.accepted with heq | ⟨hmem, -⟩
      · rwa [heq, hcurrent]
      · exact hmem
    refine ⟨⟨call.target, hn, hresized.arena⟩, ?_⟩
    show c.Seated s'.arena.cacheSize s'.experts
    rw [hresized.arena]
    exact hresized.seated

theorem step_coherent {s s' : ArenaState β} {e : ArenaEvent β ρ} (h : c.Coherent s)
    (hok : c.Serves s e) (hs : c.step s e = some s') : c.Coherent s' := by
  cases e with
  | resize call =>
    have hs : some (after (c.setUsableSlots call s)) = some s' := hs
    rw [Option.some.injEq] at hs
    exact hs ▸ coherent_after h call
  | serve experts =>
    have hs : some { s with experts := experts } = some s' := hs
    rw [Option.some.injEq] at hs
    exact hs ▸ ⟨h.arena, hok⟩

end ArenaCache

/-- **Resizes are exact**, after any run of them, whichever commits of their growths fail: mapping,
slot maps, byte accounts, and who is left where. -/
theorem resize_exact (c : ArenaCache β) {s₀ s : ArenaState β} (h₀ : c.Coherent s₀)
    (hr : @Reach _ (ArenaEvent β ρ) c.step c.Serves s₀ s) (call : ResizeCall ρ) :
    c.Exact call s (c.setUsableSlots call s) :=
  ArenaCache.setUsableSlots_exact
    (hr.invariant h₀ fun _ _ _ h hok hs => ArenaCache.step_coherent h hok hs) call

/-- Four slots in chunks of one, behind a mirror of six experts. -/
def fourSlots : ArenaCache Nat where
  spec :=
    { layouts := [(4, 1)]
      banks := [(⟨0, 4, 1⟩, 3000000)]
      numExperts := 1
      prefillOverlap := true
      minGpuSlots := 0
      steps := by decide
      classes := by decide }
  residency := .mirror
  geometry := sixExperts
  data id := id
  layouts _ := rfl
  slots := rfl

theorem fourSlots_coherent : fourSlots.Coherent ⟨fourSlots.spec.arena 4, fourSeated⟩ where
  arena := by
    refine ⟨4, List.mem_cons_of_mem _ (List.mem_append_left _ ?_), rfl⟩
    exact List.mem_map.mpr ⟨4, capacity_mem_chunksFrom (by decide) 0 (by decide), rfl⟩
  seated :=
    { slots := fourSeated_covered.slots
      below := fun slot id h => (fourSeated_inArena.slot slot id h).1
      mirror := fun _ => ⟨fourSeated_covered, fourSeated_inArena⟩ }

theorem resize_exact_fourSlots :
    fourSlots.Exact ⟨3, none, true, fun s => s, true⟩ ⟨fourSlots.spec.arena 4, fourSeated⟩
      (fourSlots.setUsableSlots ⟨3, none, true, fun s : Nat => s, true⟩
        ⟨fourSlots.spec.arena 4, fourSeated⟩) :=
  resize_exact fourSlots fourSlots_coherent .refl _

end FreeToken.Mirror
