import FreeToken.Growable.Vmm

/-!
# The expert arena

`OffloadMoeCache.set_usable_slots`: the banks of each size class are mapped in chunks, up to one
number of usable slots that sweeps over the classes; one class is the arena without classes.
Main results:

* `Arena.sized_of_done`: a resize that went through leaves the arena as its slots say.
* `Arena.torn_of_raised`: one that failed left it as it was, or torn.
* `Arena.torn_stuck`: a torn arena cannot be grown again.
-/

namespace FreeToken.Growable

/-! ## The ladder of a class -/

/-- `_arena_chunk_boundaries` behind `slots`. -/
def chunksFrom (capacity stepSlots slots : Nat) : List Nat :=
  if h : slots < capacity ∧ 0 < stepSlots then
    min (slots + stepSlots) capacity ::
      chunksFrom capacity stepSlots (min (slots + stepSlots) capacity)
  else []
termination_by capacity - slots
decreasing_by omega

/-- A size class: where its slots begin, how many it has, and the slots of a chunk. -/
structure ArenaClass where
  begin : Nat
  capacity : Nat
  stepSlots : Nat
deriving DecidableEq

namespace ArenaClass

variable (c : ArenaClass)

/-- `_arena_chunk_boundaries`. -/
def boundaries : List Nat := 0 :: chunksFrom c.capacity c.stepSlots 0

/-- The class's own share of the usable slots. -/
def share (usable : Nat) : Nat := min (usable - c.begin) c.capacity

/-- The chunks that are mapped at a number of usable slots. -/
def index (usable : Nat) : Nat := c.boundaries.idxOf (c.share usable)

end ArenaClass

/-- `_class_ranges`, from the capacities and steps. -/
def classRanges : Nat → List (Nat × Nat) → List ArenaClass
  | _, [] => []
  | start, (capacity, step) :: layouts =>
    ⟨start, capacity, step⟩ :: classRanges (start + capacity) layouts

/-! ## Banks -/

/-- One bank of one class. -/
structure Bank where
  vmm : Vmm
  cls : ArenaClass
  rowBytes : Nat
deriving DecidableEq

def roundUp (bytes granule : Nat) : Nat := (bytes + granule - 1) / granule * granule

namespace Bank

variable (b : Bank)

/-- `_arena_chunk_ranges`: where each chunk begins and its size, which may be zero. -/
def chunkRanges : List Range :=
  let bounds := b.cls.boundaries.map fun slots : Nat => roundUp (slots * b.rowBytes) b.vmm.granularity
  List.zipWith (fun s e => (s, e - s)) bounds bounds.tail

/-- The chunks between two numbers of usable slots. -/
def slice (low high : Nat) : List Range :=
  (b.chunkRanges.take (b.cls.index high)).drop (b.cls.index low)

/-- The chunks of which there is something to map. -/
def nonempty (ranges : List Range) : List Range := ranges.filter fun r => 0 < r.2

/-- The bank as its slots say. -/
def sized (usable : Nat) : Bank :=
  { b with vmm := { b.vmm with
      mappings := (nonempty (b.chunkRanges.take (b.cls.index usable))).toFinset } }

end Bank

/-! ## The arena -/

structure Arena where
  /-- `class_arena_layouts`: capacity and step slots. -/
  layouts : List (Nat × Nat)
  banks : List Bank
  numExperts : Nat
  prefillOverlap : Bool
  /-- `residency.min_gpu_slots()`. -/
  minGpuSlots : Nat
  /-- Also `usable_slots[0]`, which is set with it. -/
  cacheSize : Nat
deriving DecidableEq

namespace Arena

variable (a : Arena)

/-- `joint_arena_boundaries`. -/
def boundaries : List Nat :=
  0 :: (classRanges 0 a.layouts).flatMap fun c =>
    c.boundaries.tail.map fun slots : Nat => c.begin + slots

def total : Nat := (a.layouts.map Prod.fst).sum

/-- The floor of a class: `num_experts`, or two of them with the double buffer of prefill. -/
def classFloor : Nat := if a.prefillOverlap then 2 * a.numExperts else a.numExperts

/-- `joint_arena_floor`. -/
def jointFloor : Nat :=
  if a.layouts = [] then 0 else (a.layouts.dropLast.map Prod.fst).sum + a.classFloor

def setVmms (vmms : List Vmm) : List Bank :=
  List.zipWith (fun b v => { b with vmm := v }) a.banks vmms

def tracks (low high : Nat) : List Track :=
  a.banks.map fun b => (b.vmm, Bank.nonempty (b.slice low high))

/-- The bytes of the chunks between two numbers of usable slots. -/
def sliceBytes (low high : Nat) : Nat :=
  (a.banks.map fun b => ((b.slice low high).map Prod.snd).sum).sum

/-- `_arena_shrink`: the new bound is published before anything is unmapped. -/
def shrink (f : Fault) (n : Nat) : Attempt (Arena × Nat) :=
  match uncommitEach f (a.tracks n a.cacheSize) with
  | .raised vmms => .raised ({ a with cacheSize := n, banks := a.setVmms vmms }, 0)
  | .done f' vmms =>
    .done f' ({ a with cacheSize := n, banks := a.setVmms vmms }, a.sliceBytes n a.cacheSize)

/-- `_arena_grow`: everything is mapped before the new bound is published. -/
def grow (f : Fault) (n : Nat) : Attempt (Arena × Nat) :=
  match commitEach f [] (a.tracks a.cacheSize n) with
  | .raised vmms => .raised ({ a with banks := a.setVmms vmms }, 0)
  | .done f' vmms =>
    .done f' ({ a with cacheSize := n, banks := a.setVmms vmms }, a.sliceBytes a.cacheSize n)

/-- `set_usable_slots`, with the bytes that were mapped or unmapped. -/
def setUsableSlots (f : Fault) (n : Nat) : Attempt (Arena × Nat) :=
  match f.onSetUsableSlots with
  | none => .raised (a, 0)
  | some f =>
    if n = a.cacheSize then .done f (a, 0)
    else if a.total < n then .raised (a, 0)
    else if n ∉ a.boundaries then .raised (a, 0)
    else if n < a.jointFloor then .raised (a, 0)
    else if n < a.cacheSize then a.shrink f n
    else a.grow f n

/-- The arena as a number of usable slots says. -/
def sized (usable : Nat) : Arena :=
  { a with cacheSize := usable, banks := a.banks.map fun b => b.sized usable }

/-- What is mapped is what the usable slots say. -/
structure Sound : Prop where
  steps : ∀ layout ∈ a.layouts, 0 < layout.2
  banks : ∀ b ∈ a.banks, b.cls ∈ classRanges 0 a.layouts
  granule : ∀ b ∈ a.banks, 0 < b.vmm.granularity
  boundary : a.cacheSize ∈ a.boundaries
  mapped : a.sized a.cacheSize = a

end Arena

/-! ## Ladders -/

theorem mem_chunksFrom {capacity step : Nat} : ∀ {slots x : Nat},
    x ∈ chunksFrom capacity step slots → slots < x ∧ x ≤ capacity := by
  suffices h : ∀ k slots x, capacity - slots ≤ k → x ∈ chunksFrom capacity step slots →
      slots < x ∧ x ≤ capacity from fun {slots x} => h _ slots x le_rfl
  intro k
  induction k with
  | zero =>
    intro slots x hk hx
    rw [chunksFrom, dif_neg (by omega)] at hx
    cases hx
  | succ k ih =>
    intro slots x hk hx
    rw [chunksFrom] at hx
    split at hx
    · rename_i hc
      rcases List.mem_cons.mp hx with rfl | hx
      · omega
      · have := ih _ x (by omega) hx
        omega
    · cases hx

theorem chunksFrom_pairwise {capacity step : Nat} : ∀ slots,
    (slots :: chunksFrom capacity step slots).Pairwise (· < ·) := by
  suffices h : ∀ k slots, capacity - slots ≤ k →
      (slots :: chunksFrom capacity step slots).Pairwise (· < ·) from fun slots => h _ slots le_rfl
  intro k
  induction k with
  | zero =>
    intro slots hk
    rw [chunksFrom, dif_neg (by omega)]
    simp
  | succ k ih =>
    intro slots hk
    refine List.pairwise_cons.mpr ⟨fun x hx => (mem_chunksFrom hx).1, ?_⟩
    rw [chunksFrom]
    split
    · exact ih _ (by omega)
    · exact .nil

theorem capacity_mem_chunksFrom {capacity step : Nat} (hs : 0 < step) : ∀ slots, slots < capacity →
    capacity ∈ chunksFrom capacity step slots := by
  suffices h : ∀ k slots, capacity - slots ≤ k → slots < capacity →
      capacity ∈ chunksFrom capacity step slots from fun slots => h _ slots le_rfl
  intro k
  induction k with
  | zero => omega
  | succ k ih =>
    intro slots hk hlt
    rw [chunksFrom, dif_pos ⟨hlt, hs⟩, List.mem_cons]
    rcases Nat.lt_or_ge (slots + step) capacity with h | h
    · rw [Nat.min_eq_left h.le]
      exact Or.inr (ih _ (by omega) h)
    · exact Or.inl (by omega)

theorem idxOf_mono {l : List Nat} (hl : l.Pairwise (· < ·)) {x y : Nat} (hx : x ∈ l) (hxy : x ≤ y) :
    l.idxOf x ≤ l.idxOf y := by
  induction l with
  | nil => cases hx
  | cons z l ih =>
    obtain ⟨hz, hl⟩ := List.pairwise_cons.mp hl
    by_cases hzx : z = x
    · simp [hzx]
    · have hx' : x ∈ l := (List.mem_cons.mp hx).resolve_left fun h => hzx h.symm
      have hzy : z ≠ y := by
        have := hz x hx'
        omega
      rw [List.idxOf_cons_ne _ hzx, List.idxOf_cons_ne _ hzy]
      exact Nat.succ_le_succ (ih hl hx')

namespace ArenaClass

variable {c : ArenaClass}

theorem boundaries_pairwise : c.boundaries.Pairwise (· < ·) := chunksFrom_pairwise 0

theorem capacity_mem (hs : 0 < c.stepSlots) : c.capacity ∈ c.boundaries := by
  unfold boundaries
  rcases Nat.eq_zero_or_pos c.capacity with h | h
  · rw [h]
    exact List.mem_cons_self
  · exact List.mem_cons_of_mem _ (capacity_mem_chunksFrom hs 0 h)

end ArenaClass

/-- The classes follow one another. -/
theorem classRanges_pairwise (layouts : List (Nat × Nat)) : ∀ start,
    (classRanges start layouts).Pairwise fun c d => c.begin + c.capacity ≤ d.begin := by
  have hbegin : ∀ (layouts : List (Nat × Nat)) (start : Nat), ∀ d ∈ classRanges start layouts,
      start ≤ d.begin := by
    intro layouts
    induction layouts with
    | nil => simp [classRanges]
    | cons layout layouts ih =>
      intro start d hd
      rcases List.mem_cons.mp hd with rfl | hd
      · exact le_rfl
      · have := ih _ d hd
        omega
  induction layouts with
  | nil =>
    intro start
    exact .nil
  | cons layout layouts ih =>
    intro start
    exact List.pairwise_cons.mpr ⟨fun d hd => hbegin layouts _ d hd, ih _⟩

theorem eq_or_of_pairwise {α : Type} {R : α → α → Prop} {l : List α} (h : l.Pairwise R) {x y : α}
    (hx : x ∈ l) (hy : y ∈ l) : x = y ∨ R x y ∨ R y x := by
  induction h with
  | nil => cases hx
  | cons hz _ ih =>
    rcases List.mem_cons.mp hx with hx | hx <;> rcases List.mem_cons.mp hy with hy | hy
    · exact Or.inl (hx.trans hy.symm)
    · exact Or.inr (Or.inl (hx ▸ hz _ hy))
    · exact Or.inr (Or.inr (hy ▸ hz _ hx))
    · exact ih hx hy

theorem mem_classRanges {layouts : List (Nat × Nat)} : ∀ {start : Nat} {c : ArenaClass},
    c ∈ classRanges start layouts → (c.capacity, c.stepSlots) ∈ layouts := by
  induction layouts with
  | nil =>
    intro start c hc
    cases hc
  | cons layout layouts ih =>
    intro start c hc
    rcases List.mem_cons.mp hc with rfl | hc
    · exact List.mem_cons_self
    · exact List.mem_cons_of_mem _ (ih hc)

namespace Arena

variable {a : Arena} {n m : Nat}

/-- **Where the arena may stand, each class stands at a boundary of its own.** -/
theorem share_mem (hsteps : ∀ layout ∈ a.layouts, 0 < layout.2) (hn : n ∈ a.boundaries)
    {c : ArenaClass} (hc : c ∈ classRanges 0 a.layouts) : c.share n ∈ c.boundaries := by
  have hstep : 0 < c.stepSlots := hsteps _ (mem_classRanges hc)
  unfold ArenaClass.share
  rcases Nat.lt_or_ge c.begin n with hbegin | hbegin
  · rcases Nat.lt_or_ge n (c.begin + c.capacity) with hend | hend
    · -- the class that the cutoff lies in is the one it is a boundary of
      unfold boundaries at hn
      rcases List.mem_cons.mp hn with rfl | hn
      · omega
      · obtain ⟨d, hd, hnd⟩ := List.mem_flatMap.mp hn
        obtain ⟨x, hx, rfl⟩ := List.mem_map.mp hnd
        have hxd := mem_chunksFrom hx
        rcases eq_or_of_pairwise (classRanges_pairwise a.layouts 0) hc hd with rfl | h | h
        · rw [Nat.add_sub_cancel_left, Nat.min_eq_left hxd.2]
          exact List.mem_of_mem_tail hx
        · omega
        · omega
    · rw [Nat.min_eq_right (by omega)]
      exact ArenaClass.capacity_mem hstep
  · rw [Nat.sub_eq_zero_of_le hbegin, Nat.zero_min]
    exact List.mem_cons_self

theorem index_mono (hsteps : ∀ layout ∈ a.layouts, 0 < layout.2) (hm : m ∈ a.boundaries)
    (hmn : m ≤ n) {c : ArenaClass} (hc : c ∈ classRanges 0 a.layouts) : c.index m ≤ c.index n := by
  refine idxOf_mono ArenaClass.boundaries_pairwise (share_mem hsteps hm hc) ?_
  unfold ArenaClass.share
  omega

end Arena

/-! ## Chunks -/

namespace Bank

variable {b : Bank} {m n : Nat}

/-- Chunks between ascending bounds lie behind one another. -/
theorem zipWith_tail_pairwise {bounds : List Nat} (h : bounds.Pairwise (· ≤ ·)) :
    (List.zipWith (fun s e => ((s, e - s) : Range)) bounds bounds.tail).Pairwise
      fun r q => r.1 + r.2 ≤ q.1 := by
  have hmem : ∀ (s : Nat) (l : List Nat), (s :: l).Pairwise (· ≤ ·) →
      ∀ q ∈ List.zipWith (fun s e => ((s, e - s) : Range)) (s :: l) l, s ≤ q.1 := by
    intro s l hl q hq
    obtain ⟨i, hi, rfl⟩ := List.getElem_of_mem hq
    rw [List.getElem_zipWith]
    rcases i with _ | i
    · exact le_rfl
    · exact (List.pairwise_cons.mp hl).1 _ (List.getElem_mem _)
  induction bounds with
  | nil => exact .nil
  | cons s bounds ih =>
    cases bounds with
    | nil => exact .nil
    | cons e bounds =>
      obtain ⟨hs, htail⟩ := List.pairwise_cons.mp h
      refine List.pairwise_cons.mpr ⟨fun q hq => ?_, ih htail⟩
      have := hmem e bounds htail q hq
      have := hs e (by simp)
      simp only
      omega

theorem roundUp_mono {x y granule : Nat} (h : x ≤ y) : roundUp x granule ≤ roundUp y granule :=
  Nat.mul_le_mul_right _ (Nat.div_le_div_right (by omega))

theorem chunkRanges_pairwise : b.chunkRanges.Pairwise fun r q => r.1 + r.2 ≤ q.1 := by
  refine zipWith_tail_pairwise ?_
  rw [List.pairwise_map]
  exact ArenaClass.boundaries_pairwise.imp fun h => roundUp_mono (Nat.mul_le_mul_right _ h.le)

/-- The chunks up to the higher number are those up to the lower one and those between. -/
theorem take_eq_append_slice (h : b.cls.index m ≤ b.cls.index n) :
    b.chunkRanges.take (b.cls.index n) =
      b.chunkRanges.take (b.cls.index m) ++ b.slice m n := by
  unfold slice
  have htake : b.chunkRanges.take (b.cls.index m) =
      (b.chunkRanges.take (b.cls.index n)).take (b.cls.index m) := by
    rw [List.take_take, Nat.min_eq_left h]
  rw [htake, List.take_append_drop]

/-- None of the chunks between is one of those below. -/
theorem slice_disjoint (h : b.cls.index m ≤ b.cls.index n) {r : Range}
    (hr : r ∈ nonempty (b.chunkRanges.take (b.cls.index m))) : r ∉ nonempty (b.slice m n) := by
  intro hr'
  have hpair := (chunkRanges_pairwise (b := b)).sublist (List.take_sublist (b.cls.index n) _)
  rw [take_eq_append_slice h] at hpair
  unfold nonempty at hr hr'
  simp only [List.mem_filter, decide_eq_true_eq] at hr hr'
  have := (List.pairwise_append.mp hpair).2.2 r hr.1 r hr'.1
  omega

theorem nonempty_append (rs qs : List Range) : nonempty (rs ++ qs) = nonempty rs ++ nonempty qs :=
  List.filter_append rs qs

theorem mapped_union (h : b.cls.index m ≤ b.cls.index n) :
    (b.sized m).vmm.mappings ∪ (nonempty (b.slice m n)).toFinset = (b.sized n).vmm.mappings := by
  unfold sized
  simp only
  rw [take_eq_append_slice h, nonempty_append, List.toFinset_append]

theorem mapped_sdiff (h : b.cls.index m ≤ b.cls.index n) :
    (b.sized n).vmm.mappings \ (nonempty (b.slice m n)).toFinset = (b.sized m).vmm.mappings := by
  rw [← mapped_union h]
  refine Finset.union_sdiff_cancel_right (Finset.disjoint_left.mpr fun r hr hr' => ?_)
  unfold sized at hr
  rw [List.mem_toFinset] at hr hr'
  exact slice_disjoint h hr hr'

@[simp] theorem sized_cls : (b.sized n).cls = b.cls := rfl

@[simp] theorem sized_sized : (b.sized m).sized n = b.sized n := rfl

@[simp] theorem sized_slice {k : Nat} : (b.sized k).slice m n = b.slice m n := rfl

end Bank

/-! ## Resizes -/

namespace Arena

variable {a a' : Arena} {n m : Nat} {f f' : Fault} {bytes : Nat}

@[simp] theorem sized_sized : (a.sized m).sized n = a.sized n := by
  unfold sized
  simp only [List.map_map]
  rfl

@[simp] theorem sized_boundaries : (a.sized n).boundaries = a.boundaries := rfl

@[simp] theorem sized_cacheSize : (a.sized n).cacheSize = n := rfl

/-- A sound arena is as its slots say, at each boundary. -/
theorem Sound.sized (h : a.Sound) (hn : n ∈ a.boundaries) : (a.sized n).Sound where
  steps := h.steps
  banks b hb := by
    obtain ⟨b', hb', rfl⟩ := List.mem_map.mp hb
    exact h.banks b' hb'
  granule b hb := by
    obtain ⟨b', hb', rfl⟩ := List.mem_map.mp hb
    exact h.granule b' hb'
  boundary := hn
  mapped := sized_sized

theorem Sound.bank (h : a.Sound) {b : Bank} (hb : b ∈ a.banks) : b.sized a.cacheSize = b := by
  have hbanks : a.banks.map (fun b => b.sized a.cacheSize) = a.banks :=
    congrArg Arena.banks h.mapped
  exact List.map_inj_left.mp (hbanks.trans (List.map_id' a.banks).symm) b hb

/-- What each allocation has become, put together. -/
theorem setVmms_eq {R : Track → Vmm → Prop} {track : Bank → Track} {next : Bank → Bank} :
    ∀ {banks : List Bank} {vmms : List Vmm},
      (∀ b ∈ banks, ∀ v, R (track b) v → { b with vmm := v } = next b) →
      List.Forall₂ R (banks.map track) vmms →
      List.zipWith (fun b v => { b with vmm := v }) banks vmms = banks.map next := by
  intro banks
  induction banks with
  | nil =>
    intro vmms _ _
    rfl
  | cons b banks ih =>
    intro vmms hnext h
    cases h with
    | cons hv h =>
      have hrest := ih (fun c hc => hnext c (by simp [hc])) h
      simp only [List.zipWith_cons_cons, List.map_cons, hnext b (by simp) _ hv, hrest]

theorem Sound.index_le (h : a.Sound) (hm : m ∈ a.boundaries) (hmn : m ≤ n) {b : Bank}
    (hb : b ∈ a.banks) : b.cls.index m ≤ b.cls.index n :=
  index_mono h.steps hm hmn (h.banks b hb)

theorem shrink_done (h : a.Sound) (hn : n ∈ a.boundaries) (hlt : n < a.cacheSize)
    (hs : a.shrink f n = .done f' (a', bytes)) :
    a' = a.sized n ∧ bytes = a.sliceBytes n a.cacheSize := by
  unfold shrink at hs
  split at hs
  · cases hs
  · rename_i g vmms huncommit
    simp only [Attempt.done.injEq, Prod.mk.injEq] at hs
    obtain ⟨-, rfl, rfl⟩ := hs
    refine ⟨?_, rfl⟩
    have hbanks : a.setVmms vmms = a.banks.map fun b => b.sized n := by
      refine setVmms_eq (fun b hb v hv => ?_) (uncommitEach_done huncommit)
      obtain ⟨g, g', hv⟩ := hv
      have hmap := Bank.mapped_sdiff (h.index_le hn hlt.le hb)
      rw [h.bank hb] at hmap
      rw [Fault.uncommit_mappings hv, hmap]
      rfl
    unfold sized
    rw [hbanks]

theorem grow_done (h : a.Sound) (hlt : a.cacheSize < n)
    (hs : a.grow f n = .done f' (a', bytes)) :
    a' = a.sized n ∧ bytes = a.sliceBytes a.cacheSize n := by
  unfold grow at hs
  split at hs
  · cases hs
  · rename_i g vmms hcommit
    simp only [Attempt.done.injEq, Prod.mk.injEq] at hs
    obtain ⟨-, rfl, rfl⟩ := hs
    refine ⟨?_, rfl⟩
    obtain ⟨ws, hws, hall, -⟩ := commitEach_done hcommit
    simp only [List.map_nil, List.reverse_nil, List.nil_append] at hws
    subst hws
    have hbanks : a.setVmms vmms = a.banks.map fun b => b.sized n := by
      refine setVmms_eq (fun b hb v hv => ?_) hall
      have hmap := Bank.mapped_union (h.index_le h.boundary hlt.le hb)
      rw [h.bank hb] at hmap
      rw [Fault.commit_mappings hv, hmap]
      rfl
    unfold sized
    rw [hbanks]

theorem setVmms_self (banks : List Bank) :
    List.zipWith (fun b v => { b with vmm := v }) banks (banks.map Bank.vmm) = banks := by
  induction banks with
  | nil => rfl
  | cons b banks ih => rw [List.map_cons, List.zipWith_cons_cons, ih]

/-- A growth that fails leaves the arena as it was. -/
theorem grow_raised (hs : a.grow f n = .raised (a', bytes)) : a' = a := by
  unfold grow at hs
  split at hs
  · rename_i vmms hcommit
    simp only [Attempt.raised.injEq, Prod.mk.injEq] at hs
    have hvmms := commitEach_raised hcommit
    have hbanks : a.setVmms vmms = a.banks := by
      rw [hvmms]
      unfold tracks
      rw [List.map_map]
      exact setVmms_self a.banks
    rw [← hs.1, hbanks]
  · cases hs

/-- A shrink that failed: the bound is published, and something above it is still mapped. -/
structure Torn (a a' : Arena) : Prop where
  less : a'.cacheSize < a.cacheSize
  boundary : a'.cacheSize ∈ a.boundaries
  layouts : a'.layouts = a.layouts
  left : ∃ b ∈ a'.banks, b ∈ a.banks ∧
    ∃ r ∈ Bank.nonempty (b.slice a'.cacheSize a.cacheSize), r ∈ b.vmm.mappings

theorem shrink_raised (h : a.Sound) (hn : n ∈ a.boundaries) (hlt : n < a.cacheSize)
    (hs : a.shrink f n = .raised (a', bytes)) : Torn a a' := by
  unfold shrink at hs
  split at hs
  · rename_i vmms huncommit
    simp only [Attempt.raised.injEq, Prod.mk.injEq] at hs
    obtain ⟨rfl, -⟩ := hs
    refine ⟨hlt, hn, rfl, ?_⟩
    -- the allocation on which it failed is as it was
    obtain ⟨i, t, ht, hv, hne, hlen⟩ := uncommitEach_raised huncommit
    unfold tracks at ht
    rw [List.getElem?_map] at ht
    obtain ⟨b, hb, rfl⟩ := Option.map_eq_some_iff.mp ht
    have hmem : b ∈ a.banks := List.mem_of_getElem? hb
    have hkept : (a.setVmms vmms)[i]? = some b := by
      unfold setVmms
      rw [List.getElem?_zipWith, hb, hv]
    refine ⟨b, List.mem_of_getElem? hkept, hmem, ?_⟩
    obtain ⟨r, hr⟩ := List.exists_mem_of_ne_nil _ hne
    refine ⟨r, hr, ?_⟩
    have hmap := Bank.mapped_union (h.index_le hn hlt.le hmem)
    rw [h.bank hmem] at hmap
    rw [← hmap]
    exact Finset.mem_union_right _ (List.mem_toFinset.mpr hr)
  · cases hs

/-- A torn arena cannot be grown over the tear. -/
theorem torn_stuck (h : a.Sound) (ht : Torn a a') (hle : a.cacheSize ≤ n) {r : Arena × Nat} :
    a'.setUsableSlots f n ≠ .done f' r := by
  intro hs
  unfold setUsableSlots at hs
  have hless := ht.less
  split at hs
  · cases hs
  · rename_i g hg
    rw [if_neg (by omega)] at hs
    split_ifs at hs
    · omega
    · unfold grow at hs
      split at hs
      · cases hs
      · rename_i k vmms hcommit
        obtain ⟨b, hb, hb', r, hr, hm⟩ := ht.left
        refine commitEach_mapped (t := (b.vmm, Bank.nonempty (b.slice a'.cacheSize n))) (r := r)
          ?_ ?_ hm hcommit
        · exact List.mem_map.mpr ⟨b, hb, rfl⟩
        · unfold Bank.nonempty at hr ⊢
          rw [List.mem_filter] at hr ⊢
          refine ⟨?_, hr.2⟩
          have hindex := h.index_le h.boundary hle hb'
          unfold Bank.slice at hr ⊢
          exact List.Sublist.subset ((List.take_sublist_take_left hindex).drop _) hr.1

/-- A resize that went through leaves the arena as its slots say. -/
theorem sized_of_done (h : a.Sound) (hs : a.setUsableSlots f n = .done f' (a', bytes)) :
    a' = a.sized n ∧ n ∈ a.boundaries := by
  unfold setUsableSlots at hs
  split at hs
  · cases hs
  · split_ifs at hs with heq htotal hn hfloor hlt
    · simp only [Attempt.done.injEq, Prod.mk.injEq] at hs
      obtain ⟨-, rfl, -⟩ := hs
      rw [heq]
      exact ⟨h.mapped.symm, h.boundary⟩
    · exact ⟨(shrink_done h hn hlt hs).1, hn⟩
    · exact ⟨(grow_done h (by omega) hs).1, hn⟩

/-- One that failed left it as it was, or torn; a growth leaves it as it was. -/
theorem torn_of_raised (h : a.Sound) (hs : a.setUsableSlots f n = .raised (a', bytes)) :
    a' = a ∨ n < a.cacheSize ∧ Torn a a' := by
  unfold setUsableSlots at hs
  split at hs
  · simp only [Attempt.raised.injEq, Prod.mk.injEq] at hs
    exact Or.inl hs.1.symm
  · split_ifs at hs with heq htotal hn hfloor hlt
    · simp only [Attempt.raised.injEq, Prod.mk.injEq] at hs
      exact Or.inl hs.1.symm
    · simp only [Attempt.raised.injEq, Prod.mk.injEq] at hs
      exact Or.inl hs.1.symm
    · exact Or.inr ⟨hlt, shrink_raised h hn hlt hs⟩
    · exact Or.inl (grow_raised hs)
    · simp only [Attempt.raised.injEq, Prod.mk.injEq] at hs
      exact Or.inl hs.1.symm

end Arena

end FreeToken.Growable
