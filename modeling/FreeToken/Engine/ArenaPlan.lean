import FreeToken.Growable.Controller
import FreeToken.Lib.Argmin
import FreeToken.Lib.Bisect
import Mathlib.Data.List.Sort
import Mathlib.Order.Bounds.Basic

/-!
# Planning the expert arena

The pure half of the growable arena: what its size classes cost at a number of usable slots, where
the cutoff may stand, the floor below which a class is short, the largest cutoff a budget pays for,
and the cutoff that gives enough bytes back. The classes lie one after another in one space of
slots, and one cutoff sweeps over them. Main results:

* `meetsFloors_iff`: the floor is where every class has what it needs.
* `jointArenaBytesForUsable_mono`: a higher cutoff never costs less.
* `joint_arena_planning`: the planner and the two targets find the greatest boundary there is.
-/

namespace FreeToken.Engine

open FreeToken.Growable (chunksFrom mem_chunksFrom roundUp)
open FreeToken.Growable.Bank (roundUp_mono)

/-- A size class. The two asserted facts are fields: a chunk has a slot, and a floor is a number
of the class's own slots. -/
structure SizeClass where
  capacity : Nat
  stepSlots : Nat
  bankRowBytes : List Nat
  floor : Nat
  step_pos : 0 < stepSlots
  floor_le : floor ≤ capacity

/-! ## The planner -/

/-- `_arena_chunk_boundaries`. -/
def arenaChunkBoundaries (capacity stepSlots : Nat) : List Nat :=
  0 :: chunksFrom capacity stepSlots 0

/-- `arena_bytes_for_usable`. -/
def arenaBytesForUsable (usableSlots capacity stepSlots : Nat) (bankRowBytes : List Nat)
    (granule : Nat) : Nat :=
  if usableSlots = 0 then 0
  else
    let boundary := min ((usableSlots + stepSlots - 1) / stepSlots * stepSlots) capacity
    (bankRowBytes.map fun rowBytes => roundUp (boundary * rowBytes) granule).sum

/-- The best of the boundaries that give back enough: `max` over them, from zero. -/
def bestFreeing (bytesAt : Nat → Nat) (totalBytes targetFreeBytes : Int) (boundaries : List Nat) :
    Nat :=
  boundaries.foldl
    (fun best usable =>
      if targetFreeBytes ≤ totalBytes - bytesAt usable then max best usable else best)
    0

/-- `usable_for_target_free_bytes`. -/
def usableForTargetFreeBytes (targetFreeBytes : Int) (capacity stepSlots : Nat)
    (bankRowBytes : List Nat) (granule : Nat) : Nat :=
  bestFreeing (fun usable => arenaBytesForUsable usable capacity stepSlots bankRowBytes granule)
    (arenaBytesForUsable capacity capacity stepSlots bankRowBytes granule) targetFreeBytes
    (arenaChunkBoundaries capacity stepSlots)

/-- The boundaries of the classes that begin at `start`, and where the last of them ends. -/
def boundariesFrom : Nat → List SizeClass → List Nat
  | start, [] => [start]
  | start, c :: classes =>
    (arenaChunkBoundaries c.capacity c.stepSlots).map (fun slots : Nat => start + slots) ++
      boundariesFrom (start + c.capacity) classes

/-- `joint_arena_boundaries`: the sorted values of a set. -/
def jointArenaBoundaries (classes : List SizeClass) : List Nat :=
  (0 :: boundariesFrom 0 classes).dedup.insertionSort (· ≤ ·)

/-- `clamp(usable - begin_c, 0, capacity_c)`. -/
def SizeClass.local (c : SizeClass) (start usable : Nat) : Nat := min (usable - start) c.capacity

def bytesFrom (usable granule : Nat) : Nat → List SizeClass → Nat
  | _, [] => 0
  | start, c :: classes =>
    arenaBytesForUsable (c.local start usable) c.capacity c.stepSlots c.bankRowBytes granule +
      bytesFrom usable granule (start + c.capacity) classes

/-- `joint_arena_bytes_for_usable`. -/
def jointArenaBytesForUsable (usable : Nat) (classes : List SizeClass) (granule : Nat) : Nat :=
  bytesFrom usable granule 0 classes

/-- `joint_arena_floor`. -/
def jointArenaFloor (classes : List SizeClass) : Nat :=
  match classes.getLast? with
  | none => 0
  | some last => (classes.dropLast.map SizeClass.capacity).sum + last.floor

/-- What the planner raises. -/
inductive ArenaPlanError where
  | noBoundary
  | overBudget (floor : Nat) (needed budgetBytes : Int)
deriving DecidableEq

def ArenaPlanError.message : ArenaPlanError → String
  | noBoundary => "no joint arena boundary meets every class floor"
  | overBudget floor needed budgetBytes =>
    "joint arena floor " ++ toString floor ++ " needs " ++ toString needed ++ " B > budget " ++
      toString budgetBytes ++ " B"

/-- `plan_joint_arena_usable`, in the default granule. -/
def planJointArenaUsable (budgetBytes kvBytes : Int) (classes : List SizeClass) :
    Except ArenaPlanError Nat :=
  let candidates := (jointArenaBoundaries classes).filter fun b => jointArenaFloor classes ≤ b
  let bytesAt := fun n : Nat => (jointArenaBytesForUsable n classes Growable.granule : Int)
  match candidates with
  | [] => .error .noBoundary
  | first :: _ =>
    if budgetBytes < bytesAt first + kvBytes then
      .error (.overBudget first (bytesAt first + kvBytes) budgetBytes)
    else
      .ok (Lib.bisectBest (fun n => decide (bytesAt n + kvBytes ≤ budgetBytes)) candidates 0
        candidates.length first)

/-- `joint_usable_for_target_free_bytes`. -/
def jointUsableForTargetFreeBytes (targetFreeBytes : Int) (classes : List SizeClass)
    (granule : Nat) : Nat :=
  let boundaries := jointArenaBoundaries classes
  bestFreeing (fun usable => jointArenaBytesForUsable usable classes granule)
    (jointArenaBytesForUsable (boundaries.getLastD 0) classes granule) targetFreeBytes boundaries

/-! ## What the planner is for -/

/-- Every class has its floor when the cutoff stands at `usable`. -/
def meetsFrom (usable : Nat) : Nat → List SizeClass → Prop
  | _, [] => True
  | start, c :: classes =>
    c.floor ≤ c.local start usable ∧ meetsFrom usable (start + c.capacity) classes

def MeetsFloors (classes : List SizeClass) (usable : Nat) : Prop := meetsFrom usable 0 classes

/-- The greatest boundary that gives back enough, or zero where none does. -/
def GivesBack (bytesAt : Nat → Nat) (totalBytes targetFreeBytes : Int) (boundaries : List Nat)
    (n : Nat) : Prop :=
  IsGreatest {b | b ∈ boundaries ∧ targetFreeBytes ≤ totalBytes - bytesAt b} n ∨
    n = 0 ∧ ∀ b ∈ boundaries, ¬targetFreeBytes ≤ totalBytes - bytesAt b

/-! ## Bytes -/

theorem arenaBytesForUsable_mono {capacity stepSlots granule : Nat} {bankRowBytes : List Nat}
    {m n : Nat} (h : m ≤ n) :
    arenaBytesForUsable m capacity stepSlots bankRowBytes granule ≤
      arenaBytesForUsable n capacity stepSlots bankRowBytes granule := by
  unfold arenaBytesForUsable
  split
  · exact Nat.zero_le _
  · rw [if_neg (by omega)]
    refine List.sum_le_sum fun rowBytes _ => roundUp_mono (Nat.mul_le_mul_right _ ?_)
    -- the boundary a number of slots is rounded up to grows with it
    have hchunks : (m + stepSlots - 1) / stepSlots ≤ (n + stepSlots - 1) / stepSlots :=
      Nat.div_le_div_right (by omega)
    have hslots := Nat.mul_le_mul_right stepSlots hchunks
    omega

theorem bytesFrom_mono {m n granule : Nat} (h : m ≤ n) (classes : List SizeClass) : ∀ start,
    bytesFrom m granule start classes ≤ bytesFrom n granule start classes := by
  induction classes with
  | nil =>
    intro start
    exact Nat.le_refl _
  | cons c classes ih =>
    intro start
    have hlocal : c.local start m ≤ c.local start n := by
      unfold SizeClass.local
      omega
    exact Nat.add_le_add (arenaBytesForUsable_mono hlocal) (ih _)

/-- **A higher cutoff never costs less.** -/
theorem jointArenaBytesForUsable_mono (classes : List SizeClass) (granule : Nat) :
    Monotone fun usable => jointArenaBytesForUsable usable classes granule :=
  fun _ _ h => bytesFrom_mono h classes 0

/-! ## The floor -/

/-- The last class asks for a slot: a class asks for one for each expert at least. -/
def LastFloored (classes : List SizeClass) : Prop := ∀ last ∈ classes.getLast?, 0 < last.floor

/-- A class in front of one that is served is full. -/
theorem meetsFrom_iff {usable : Nat} (classes : List SizeClass) : ∀ start, LastFloored classes →
    (meetsFrom usable start classes ↔
      classes = [] ∨ start + jointArenaFloor classes ≤ usable) := by
  induction classes with
  | nil => simp [meetsFrom]
  | cons c classes ih =>
    intro start hlast
    have hfloor := c.floor_le
    rcases List.eq_nil_or_concat' classes with rfl | ⟨init, last, rfl⟩
    · have hpos : 0 < c.floor := hlast c rfl
      simp only [meetsFrom, jointArenaFloor, SizeClass.local, List.getLast?_singleton,
        List.dropLast_singleton, List.map_nil, List.sum_nil, and_true, List.cons_ne_nil, false_or]
      omega
    · have hrest : LastFloored (init ++ [last]) := by
        intro l hl
        refine hlast l ?_
        rw [List.getLast?_cons, hl]
        rfl
      have hpos : 0 < last.floor := hrest last (by simp)
      have hsum : jointArenaFloor (c :: (init ++ [last])) =
          c.capacity + jointArenaFloor (init ++ [last]) := by
        simp [jointArenaFloor, List.getLast?_cons, List.dropLast_cons_of_ne_nil, Nat.add_assoc]
      have hlow : last.floor ≤ jointArenaFloor (init ++ [last]) := by
        simp [jointArenaFloor]
      rw [meetsFrom, ih _ hrest, hsum]
      simp only [List.append_eq_nil_iff, List.cons_ne_nil, and_false, false_or, SizeClass.local]
      omega

/-- **Every class has its floor from `joint_arena_floor` on, and not below it.** -/
theorem meetsFloors_iff {classes : List SizeClass} (hlast : LastFloored classes) {usable : Nat} :
    MeetsFloors classes usable ↔ jointArenaFloor classes ≤ usable := by
  unfold MeetsFloors
  rw [meetsFrom_iff classes 0 hlast, Nat.zero_add]
  constructor
  · rintro (rfl | h)
    · exact Nat.zero_le _
    · exact h
  · exact Or.inr

/-! ## Targets -/

theorem bestFreeing_spec (bytesAt : Nat → Nat) (totalBytes target : Int) (boundaries : List Nat) :
    GivesBack bytesAt totalBytes target boundaries
      (bestFreeing bytesAt totalBytes target boundaries) := by
  set enough := boundaries.filter fun b => target ≤ totalBytes - bytesAt b with henough
  have hfold : bestFreeing bytesAt totalBytes target boundaries = enough.foldl max 0 := by
    unfold bestFreeing
    rw [henough, List.foldl_filter]
    simp only [decide_eq_true_eq]
  have hmem : ∀ b, b ∈ enough ↔ b ∈ boundaries ∧ target ≤ totalBytes - bytesAt b := by
    simp [henough]
  obtain ⟨-, hall, hfrom⟩ := Lib.foldl_max_spec enough 0
  rw [hfold]
  by_cases hsome : ∃ b, b ∈ enough
  · left
    refine ⟨?_, fun b hb => hall b ((hmem b).mpr hb)⟩
    rcases hfrom with hzero | hin
    · -- nothing above zero gives back enough, so what does is zero itself
      obtain ⟨b, hb⟩ := hsome
      have hle := hall b hb
      rw [hzero] at hle ⊢
      rw [Nat.le_zero.mp hle] at hb
      exact (hmem 0).mp hb
    · exact (hmem _).mp hin
  · right
    have hnil : enough = [] := List.eq_nil_iff_forall_not_mem.mpr fun b hb => hsome ⟨b, hb⟩
    rw [hnil]
    exact ⟨rfl, fun b hb hfits => hsome ⟨b, (hmem b).mpr ⟨hb, hfits⟩⟩⟩

/-! ## The planner finds the greatest -/

theorem jointArenaBoundaries_sorted (classes : List SizeClass) :
    (jointArenaBoundaries classes).Pairwise (· ≤ ·) :=
  List.pairwise_insertionSort _ _

theorem mem_jointArenaBoundaries {classes : List SizeClass} {n : Nat} :
    n ∈ jointArenaBoundaries classes ↔ n = 0 ∨ n ∈ boundariesFrom 0 classes := by
  unfold jointArenaBoundaries
  rw [List.mem_insertionSort, List.mem_dedup, List.mem_cons]

theorem boundariesFrom_bounds (classes : List SizeClass) : ∀ start,
    start + (classes.map SizeClass.capacity).sum ∈ boundariesFrom start classes ∧
      ∀ n ∈ boundariesFrom start classes,
        n ≤ start + (classes.map SizeClass.capacity).sum := by
  induction classes with
  | nil => simp [boundariesFrom]
  | cons c classes ih =>
    intro start
    obtain ⟨hlast, hall⟩ := ih (start + c.capacity)
    rw [List.map_cons, List.sum_cons, ← Nat.add_assoc]
    refine ⟨List.mem_append_right _ hlast, fun n hn => ?_⟩
    rcases List.mem_append.mp hn with hn | hn
    · obtain ⟨slots, hslots, rfl⟩ := List.mem_map.mp hn
      have hle : slots ≤ c.capacity := by
        rcases List.mem_cons.mp hslots with rfl | hslots
        · exact Nat.zero_le _
        · exact (mem_chunksFrom hslots).2
      omega
    · exact hall n hn

/-- The last boundary is the whole arena. -/
theorem jointArenaBoundaries_last (classes : List SizeClass) :
    (jointArenaBoundaries classes).getLastD 0 = (classes.map SizeClass.capacity).sum := by
  obtain ⟨hmem, hall⟩ := boundariesFrom_bounds classes 0
  rw [Nat.zero_add] at hmem hall
  have hin := mem_jointArenaBoundaries.mpr (Or.inr hmem)
  have hne : jointArenaBoundaries classes ≠ [] := List.ne_nil_of_mem hin
  rw [List.getLastD_eq_getLast?, List.getLast?_eq_some_getLast hne, Option.getD_some]
  refine Nat.le_antisymm ?_ ?_
  · rcases mem_jointArenaBoundaries.mp (List.getLast_mem hne) with hzero | hlast
    · rw [hzero]
      exact Nat.zero_le _
    · exact hall _ hlast
  · exact (jointArenaBoundaries_sorted classes).rel_getLast hin

/-- What the planner answers is the greatest boundary that meets every floor and is paid for. -/
def ArenaPlanned (budgetBytes kvBytes : Int) (classes : List SizeClass) (n : Nat) : Prop :=
  IsGreatest {b | b ∈ jointArenaBoundaries classes ∧ MeetsFloors classes b ∧
    jointArenaBytesForUsable b classes Growable.granule + kvBytes ≤ budgetBytes} n

theorem planJointArenaUsable_spec {classes : List SizeClass} (hlast : LastFloored classes)
    (budgetBytes kvBytes : Int) :
    match planJointArenaUsable budgetBytes kvBytes classes with
    | .ok n => ArenaPlanned budgetBytes kvBytes classes n
    | .error _ => ¬∃ b ∈ jointArenaBoundaries classes, MeetsFloors classes b ∧
        jointArenaBytesForUsable b classes Growable.granule + kvBytes ≤ budgetBytes := by
  have hmono := jointArenaBytesForUsable_mono classes Growable.granule
  have hsorted := (jointArenaBoundaries_sorted classes).filter
    fun b => jointArenaFloor classes ≤ b
  have hmem : ∀ b, b ∈ (jointArenaBoundaries classes).filter (fun b => jointArenaFloor classes ≤ b) ↔
      b ∈ jointArenaBoundaries classes ∧ MeetsFloors classes b := by
    intro b
    rw [meetsFloors_iff hlast, List.mem_filter, decide_eq_true_eq]
  unfold planJointArenaUsable
  cases hcons : (jointArenaBoundaries classes).filter fun b => jointArenaFloor classes ≤ b with
  | nil =>
    rintro ⟨b, hb, hmeets, -⟩
    have hin := (hmem b).mpr ⟨hb, hmeets⟩
    rw [hcons] at hin
    cases hin
  | cons first rest =>
    rw [hcons] at hsorted hmem
    simp only
    by_cases hover : budgetBytes <
        (jointArenaBytesForUsable first classes Growable.granule : Int) + kvBytes
    · rw [if_pos hover]
      rintro ⟨b, hb, hmeets, hfits⟩
      -- the first boundary costs least
      have hfirst : first ≤ b := by
        rcases List.mem_cons.mp ((hmem b).mpr ⟨hb, hmeets⟩) with rfl | hin
        · exact Nat.le_refl _
        · exact (List.pairwise_cons.mp hsorted).1 b hin
      have hcost := hmono hfirst
      simp only at hcost
      omega
    · rw [if_neg hover]
      have hgreatest := @Lib.bisectBest_greatest
        (fun n => decide ((jointArenaBytesForUsable n classes Growable.granule : Int) + kvBytes ≤
          budgetBytes)) 0 (first :: rest) hsorted ?_ (first :: rest).length first
        (Nat.le_refl _) List.mem_cons_self (by simpa using hover) (by simp) (by omega)
      · show IsGreatest _ _
        convert hgreatest using 1
        ext b
        rw [Set.mem_ofPred_eq, Set.mem_ofPred_eq, hmem, and_assoc, decide_eq_true_eq]
      · intro m s hms hs
        have hcost := hmono hms
        simp only [decide_eq_true_eq] at hs hcost ⊢
        omega

/-- **The planner and the targets are exact**: bytes never fall as the cutoff rises, a target is
answered by the greatest boundary that gives enough back (zero only where none does), and, where
the last class has a floor, `joint_arena_floor` is the least cutoff at which every class has its
own, and the plan is the greatest boundary above it that is paid for. -/
theorem joint_arena_planning (classes : List SizeClass) :
    (∀ granule, Monotone fun usable => jointArenaBytesForUsable usable classes granule) ∧
    (∀ target granule, GivesBack (fun b => jointArenaBytesForUsable b classes granule)
      (jointArenaBytesForUsable (classes.map SizeClass.capacity).sum classes granule) target
      (jointArenaBoundaries classes) (jointUsableForTargetFreeBytes target classes granule)) ∧
    (∀ c ∈ classes, ∀ target granule,
      GivesBack (fun b => arenaBytesForUsable b c.capacity c.stepSlots c.bankRowBytes granule)
        (arenaBytesForUsable c.capacity c.capacity c.stepSlots c.bankRowBytes granule) target
        (arenaChunkBoundaries c.capacity c.stepSlots)
        (usableForTargetFreeBytes target c.capacity c.stepSlots c.bankRowBytes granule)) ∧
    (LastFloored classes →
      IsLeast {usable | MeetsFloors classes usable} (jointArenaFloor classes) ∧
      ∀ budgetBytes kvBytes,
        match planJointArenaUsable budgetBytes kvBytes classes with
        | .ok n => ArenaPlanned budgetBytes kvBytes classes n
        | .error _ => ¬∃ b ∈ jointArenaBoundaries classes, MeetsFloors classes b ∧
            jointArenaBytesForUsable b classes Growable.granule + kvBytes ≤ budgetBytes) := by
  refine ⟨jointArenaBytesForUsable_mono classes, fun target granule => ?_,
    fun c _ _ _ => bestFreeing_spec _ _ _ _, fun hlast => ⟨⟨?_, fun usable h => ?_⟩,
      planJointArenaUsable_spec hlast⟩⟩
  · rw [← jointArenaBoundaries_last]
    exact bestFreeing_spec _ _ _ _
  · exact (meetsFloors_iff hlast).mpr (Nat.le_refl _)
  · exact (meetsFloors_iff hlast).mp h

def floored : List SizeClass :=
  [⟨10, 2, [1], 3, by decide, by decide⟩, ⟨5, 5, [1], 2, by decide, by decide⟩]

theorem joint_arena_planning_floored : IsLeast {usable | MeetsFloors floored usable} 12 :=
  ((joint_arena_planning floored).2.2.2 (by simp [LastFloored, floored])).1

/-- Two classes, of which the last asks for nothing. -/
def unfloored : List SizeClass :=
  [⟨10, 2, [1], 3, by decide, by decide⟩, ⟨5, 5, [1], 0, by decide, by decide⟩]

/-- **A last class without a floor puts `joint_arena_floor` above the least cutoff.** -/
theorem unfloored_not_least :
    ¬IsLeast {usable | MeetsFloors unfloored usable} (jointArenaFloor unfloored) := by
  intro h
  have hthree : MeetsFloors unfloored 3 := by
    simp [MeetsFloors, meetsFrom, unfloored, SizeClass.local]
  have hle := h.2 hthree
  have hfloor : jointArenaFloor unfloored = 10 := rfl
  omega

end FreeToken.Engine
