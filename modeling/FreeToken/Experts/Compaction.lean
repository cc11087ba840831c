import Mathlib.Data.List.Nodup
import Mathlib.Order.Defs.LinearOrder
import Mathlib.Data.List.Perm.Basic
import Mathlib.Data.List.Sort

/-!
# Arena compaction

`plan_compaction`: before the slots from `n` on are unmapped, residents worth keeping move to
slots below. A slot map is a function on slots, `none` for an empty slot; `rank` orders the
residents by their slots, larger is hotter. Main results:

* `takeTargets_src`, `takeTargets_dst`: no slot is moved twice, and none is taken twice.
* `takeTargets_hottest`: of sorted movers and sorted targets, what is dropped is at most as hot as
  what stays.
* `planCompaction_keeps_hottest`: the plan is safe, and keeps the hottest residents where all have
  a host copy.
-/

namespace FreeToken.Experts

variable {ρ : Type} [LinearOrder ρ]

/-! ## The plan -/

structure CompactionPlan where
  /-- Source and target slot. -/
  moves : List (Nat × Nat) := []
  /-- The residents that a move overwrote. -/
  displaced : List Nat := []
  doomed : Nat := 0
  droppedWithCopy : Nat := 0
  leftUncovered : Nat := 0

/-- The loop over the movers. A target with an occupant is taken only by a strictly hotter mover,
and else stays for the next one. -/
def takeTargets (idOfSlot : Nat → Option Nat) (rank : Nat → ρ) :
    List Nat → List Nat → List (Nat × Nat)
  | [], _ => []
  | _ :: _, [] => []
  | src :: movers, dst :: targets =>
    if (idOfSlot dst).isSome ∧ ¬ rank dst < rank src then
      takeTargets idOfSlot rank movers (dst :: targets)
    else (src, dst) :: takeTargets idOfSlot rank movers targets

section Plan

variable (idOfSlot : Nat → Option Nat) (rank : Nat → ρ) (hostCopy : Nat → Bool) (lo n current : Nat)

/-- The slots of a range that have a resident. -/
def residents (low high : Nat) : List Nat :=
  (List.range' low (high - low)).filter fun s => (idOfSlot s).isSome

/-- The slot's resident has a host copy. -/
def covered (s : Nat) : Bool := (idOfSlot s).any hostCopy

/-- `gpu_only` and then `covered`, each the hottest first. -/
def movers : List Nat :=
  let doomed := residents idOfSlot n current
  (doomed.filter fun s => !covered idOfSlot hostCopy s).mergeSort (fun a b => rank b ≤ rank a) ++
    (doomed.filter fun s => covered idOfSlot hostCopy s).mergeSort (fun a b => rank b ≤ rank a)

/-- The empty slots and then those that may be overwritten, the coldest first. -/
def targets : List Nat :=
  (List.range' lo (n - lo)).filter (fun s => (idOfSlot s).isNone) ++
    ((residents idOfSlot lo n).filter fun s => covered idOfSlot hostCopy s).mergeSort
      fun a b => rank a ≤ rank b

def planCompaction : CompactionPlan :=
  let doomed := residents idOfSlot n current
  let moves := takeTargets idOfSlot rank (movers idOfSlot rank hostCopy n current)
    (targets idOfSlot rank hostCopy lo n)
  let left := doomed.filter fun s => s ∉ moves.map Prod.fst
  { moves := moves
    displaced := moves.filterMap fun m => idOfSlot m.2
    doomed := doomed.length
    droppedWithCopy := (left.filter fun s => covered idOfSlot hostCopy s).length
    leftUncovered := (left.filter fun s => !covered idOfSlot hostCopy s).length }

end Plan

namespace CompactionPlan

variable (p : CompactionPlan)

/-- Where the resident of a slot comes from. -/
def origin (s : Nat) : Nat := ((p.moves.find? fun m => m.2 = s).map Prod.fst).getD s

/-- The slot map after the moves, below the sources. -/
def compacted (idOfSlot : Nat → Option Nat) (s : Nat) : Option Nat := idOfSlot (p.origin s)

end CompactionPlan

/-! ## The loop -/

section Loop

variable (idOfSlot : Nat → Option Nat) (rank : Nat → ρ)

/-- The sources are movers, in their order. -/
theorem takeTargets_src (movers : List Nat) : ∀ targets,
    ((takeTargets idOfSlot rank movers targets).map Prod.fst).Sublist movers := by
  induction movers with
  | nil =>
    intro targets
    simp [takeTargets]
  | cons src movers ih =>
    intro targets
    cases targets with
    | nil => simp [takeTargets]
    | cons dst targets =>
      unfold takeTargets
      split
      · exact (ih _).cons src
      · exact (ih targets).cons_cons src

/-- The targets are taken in their order, and none is left out on the way. -/
theorem takeTargets_dst (movers : List Nat) : ∀ targets,
    (takeTargets idOfSlot rank movers targets).map Prod.snd <+: targets := by
  induction movers with
  | nil =>
    intro targets
    simp [takeTargets]
  | cons src movers ih =>
    intro targets
    cases targets with
    | nil => simp [takeTargets]
    | cons dst targets =>
      unfold takeTargets
      split
      · exact ih _
      · exact List.cons_prefix_cons.mpr ⟨rfl, ih targets⟩

/-- An occupied target is only taken by a hotter mover. -/
theorem takeTargets_hotter (movers : List Nat) : ∀ targets,
    ∀ m ∈ takeTargets idOfSlot rank movers targets, (idOfSlot m.2).isSome → rank m.2 < rank m.1 := by
  induction movers with
  | nil =>
    intro targets m hm
    simp [takeTargets] at hm
  | cons src movers ih =>
    intro targets m hm hsome
    cases targets with
    | nil => simp [takeTargets] at hm
    | cons dst targets =>
      unfold takeTargets at hm
      split at hm
      · exact ih _ m hm hsome
      · rename_i htaken
        rcases List.mem_cons.mp hm with rfl | hm
        · exact not_not.mp fun hcold => htaken ⟨hsome, hcold⟩
        · exact ih targets m hm hsome

variable {idOfSlot rank}

/-- Movers that are all too cold for the first target leave everything as it is. -/
theorem takeTargets_cold {dst : Nat} {targets : List Nat} (hsome : (idOfSlot dst).isSome)
    {movers : List Nat} (hcold : ∀ s ∈ movers, rank s ≤ rank dst) :
    takeTargets idOfSlot rank movers (dst :: targets) = [] := by
  induction movers with
  | nil => simp [takeTargets]
  | cons src movers ih =>
    unfold takeTargets
    rw [if_pos ⟨hsome, not_lt.mpr (hcold src List.mem_cons_self)⟩]
    exact ih fun s hs => hcold s (List.mem_cons_of_mem _ hs)

/-- Nothing that is dropped is hotter than anything that stays. -/
structure Hottest (rank : Nat → ρ) (movers targets : List Nat) (moves : List (Nat × Nat)) :
    Prop where
  /-- A mover that is left behind. -/
  left : ∀ d ∈ movers, d ∉ moves.map Prod.fst →
    (∀ s ∈ moves.map Prod.fst, rank d ≤ rank s) ∧
      ∀ t ∈ targets, t ∉ moves.map Prod.snd → rank d ≤ rank t
  /-- An occupant that is overwritten. -/
  overwritten : ∀ t ∈ targets, t ∈ moves.map Prod.snd →
    (∀ s ∈ moves.map Prod.fst, rank t ≤ rank s) ∧
      ∀ u ∈ targets, u ∉ moves.map Prod.snd → rank t ≤ rank u

/-- **Sorted movers take sorted targets so that the hottest stay.** -/
theorem takeTargets_hottest {movers : List Nat}
    (hmovers : movers.Pairwise fun a b => rank b ≤ rank a) : ∀ {targets : List Nat},
    targets.Pairwise (fun a b => rank a ≤ rank b) → targets.Nodup →
      (∀ t ∈ targets, (idOfSlot t).isSome) →
      Hottest rank movers targets (takeTargets idOfSlot rank movers targets) := by
  induction movers with
  | nil =>
    intro targets _ _ _
    constructor <;> simp [takeTargets]
  | cons src movers ih =>
    intro targets htargets hnodup hsome
    obtain ⟨hsrc, hmovers⟩ := List.pairwise_cons.mp hmovers
    cases targets with
    | nil => constructor <;> simp [takeTargets]
    | cons dst targets =>
      obtain ⟨hdst, htargets'⟩ := List.pairwise_cons.mp htargets
      obtain ⟨hnot, hnodup'⟩ := List.nodup_cons.mp hnodup
      have hoccupied := hsome dst List.mem_cons_self
      unfold takeTargets
      split
      · -- too cold for the coldest target, and so is every mover behind it
        rename_i hcold
        have hle := not_lt.mp hcold.2
        rw [takeTargets_cold hoccupied fun s hs => (hsrc s hs).trans hle]
        refine ⟨fun d hd _ => ⟨by simp, fun t ht _ => ?_⟩, by simp⟩
        have hd' : rank d ≤ rank dst := by
          rcases List.mem_cons.mp hd with rfl | hd
          · exact hle
          · exact (hsrc d hd).trans hle
        rcases List.mem_cons.mp ht with rfl | ht
        · exact hd'
        · exact hd'.trans (hdst t ht)
      · rename_i htaken
        have hlt : rank dst < rank src := not_not.mp fun hcold => htaken ⟨hoccupied, hcold⟩
        have hrest := ih hmovers htargets' hnodup' fun t ht => hsome t (List.mem_cons_of_mem _ ht)
        have hsources := (takeTargets_src idOfSlot rank movers targets).subset
        have hhotter := takeTargets_hotter idOfSlot rank movers targets
        have hdsts := (takeTargets_dst idOfSlot rank movers targets).subset
        generalize takeTargets idOfSlot rank movers targets = moves at *
        have hpair : ∀ m ∈ moves, rank m.2 < rank m.1 ∧ m.1 ∈ movers ∧ m.2 ∈ targets := by
          intro m hm
          have ht := hdsts (List.mem_map_of_mem hm)
          exact ⟨hhotter m hm (hsome _ (List.mem_cons_of_mem _ ht)),
            hsources (List.mem_map_of_mem hm), ht⟩
        refine ⟨fun d hd hd' => ?_, fun t ht ht' => ?_⟩
        · rw [List.map_cons, List.mem_cons, not_or] at hd'
          have hlater := (List.mem_cons.mp hd).resolve_left hd'.1
          obtain ⟨hmoved, hkept⟩ := hrest.left d hlater hd'.2
          refine ⟨fun s hs => ?_, fun t ht ht' => ?_⟩
          · rcases List.mem_cons.mp hs with rfl | hs
            · exact hsrc d hlater
            · exact hmoved s hs
          · rw [List.map_cons, List.mem_cons, not_or] at ht'
            exact hkept t ((List.mem_cons.mp ht).resolve_left ht'.1) ht'.2
        · rcases List.mem_cons.mp ht with rfl | ht
          · refine ⟨fun s hs => ?_, fun u hu hu' => ?_⟩
            · rcases List.mem_cons.mp hs with rfl | hs
              · exact hlt.le
              · obtain ⟨m, hm, rfl⟩ := List.mem_map.mp hs
                obtain ⟨hm', -, hmt⟩ := hpair m hm
                exact (hdst _ hmt).trans hm'.le
            · rw [List.map_cons, List.mem_cons, not_or] at hu'
              exact hdst u ((List.mem_cons.mp hu).resolve_left hu'.1)
          · have hne : t ≠ dst := fun heq => hnot (heq ▸ ht)
            have htake := (List.mem_cons.mp ht').resolve_left hne
            obtain ⟨hmoved, hkept⟩ := hrest.overwritten t ht htake
            refine ⟨fun s hs => ?_, fun u hu hu' => ?_⟩
            · rcases List.mem_cons.mp hs with rfl | hs
              · obtain ⟨m, hm, rfl⟩ := List.mem_map.mp htake
                obtain ⟨hm', hms, -⟩ := hpair m hm
                exact hm'.le.trans (hsrc _ hms)
              · exact hmoved s hs
            · rw [List.map_cons, List.mem_cons, not_or] at hu'
              exact hkept u ((List.mem_cons.mp hu).resolve_left hu'.1) hu'.2

/-- Empty targets are taken first, as long as there are movers. -/
theorem takeTargets_empty {empty : List Nat} (hempty : ∀ t ∈ empty, idOfSlot t = none)
    (rank : Nat → ρ) (targets : List Nat) : ∀ movers,
    takeTargets idOfSlot rank movers (empty ++ targets) =
      movers.zip empty ++ takeTargets idOfSlot rank (movers.drop empty.length) targets := by
  induction empty with
  | nil =>
    intro movers
    simp
  | cons dst empty ih =>
    intro movers
    cases movers with
    | nil => simp [takeTargets]
    | cons src movers =>
      rw [List.cons_append, takeTargets, if_neg (by simp [hempty dst List.mem_cons_self]),
        ih (fun t ht => hempty t (List.mem_cons_of_mem _ ht))]
      rfl

/-- The same with empty targets before the occupied ones. -/
theorem takeTargets_hottest_append {empty targets : List Nat}
    (hempty : ∀ t ∈ empty, idOfSlot t = none)
    (htargets : targets.Pairwise fun a b => rank a ≤ rank b) (hnodup : targets.Nodup)
    (hsome : ∀ t ∈ targets, (idOfSlot t).isSome) : ∀ {movers : List Nat},
    movers.Pairwise (fun a b => rank b ≤ rank a) →
      Hottest rank movers targets (takeTargets idOfSlot rank movers (empty ++ targets)) := by
  induction empty with
  | nil =>
    intro movers hmovers
    exact takeTargets_hottest hmovers htargets hnodup hsome
  | cons dst empty ih =>
    intro movers hmovers
    cases movers with
    | nil => constructor <;> simp [takeTargets]
    | cons src movers =>
      obtain ⟨hsrc, hmovers⟩ := List.pairwise_cons.mp hmovers
      have hdst := hempty dst List.mem_cons_self
      have hrest := ih (fun t ht => hempty t (List.mem_cons_of_mem _ ht)) hmovers
      have hsources :=
        (takeTargets_src idOfSlot rank movers (empty ++ targets)).subset
      have hhotter :=
        takeTargets_hotter idOfSlot rank movers (empty ++ targets)
      rw [List.cons_append, takeTargets, if_neg (by simp [hdst])]
      generalize takeTargets idOfSlot rank movers (empty ++ targets) = moves at *
      refine ⟨fun d hd hd' => ?_, fun t ht ht' => ?_⟩
      · rw [List.map_cons, List.mem_cons, not_or] at hd'
        have hlater := (List.mem_cons.mp hd).resolve_left hd'.1
        obtain ⟨hmoved, hkept⟩ := hrest.left d hlater hd'.2
        refine ⟨fun s hs => ?_, fun t ht ht' => hkept t ht fun h => ht' (List.mem_cons_of_mem _ h)⟩
        rcases List.mem_cons.mp hs with rfl | hs
        · exact hsrc d hlater
        · exact hmoved s hs
      · have hne : t ≠ dst := by
          intro heq
          have := hsome t ht
          rw [heq, hdst] at this
          cases this
        have htake := (List.mem_cons.mp ht').resolve_left hne
        obtain ⟨hmoved, hkept⟩ := hrest.overwritten t ht htake
        refine ⟨fun s hs => ?_, fun u hu hu' => hkept u hu fun h => hu' (List.mem_cons_of_mem _ h)⟩
        rcases List.mem_cons.mp hs with rfl | hs
        · obtain ⟨m, hm, rfl⟩ := List.mem_map.mp htake
          exact (hhotter m hm (hsome _ ht)).le.trans (hsrc _ (hsources (List.mem_map_of_mem hm)))
        · exact hmoved s hs

end Loop

/-! ## The plan is safe -/

section Plan

variable {idOfSlot : Nat → Option Nat} {rank : Nat → ρ} {hostCopy : Nat → Bool} {lo n current : Nat}

theorem mem_residents {low high s : Nat} :
    s ∈ residents idOfSlot low high ↔ (low ≤ s ∧ s < high) ∧ (idOfSlot s).isSome := by
  unfold residents
  rw [List.mem_filter, List.mem_range'_1]
  constructor
  · intro h
    exact ⟨by omega, h.2⟩
  · intro h
    exact ⟨by omega, h.2⟩

theorem residents_nodup (low high : Nat) : (residents idOfSlot low high).Nodup :=
  (List.nodup_range' 1).filter _

theorem residents_append (hlo : lo ≤ n) (hn : n ≤ current) :
    residents idOfSlot lo n ++ residents idOfSlot n current = residents idOfSlot lo current := by
  unfold residents
  rw [← List.filter_append]
  have hmid : lo + (n - lo) = n := by omega
  have hsplit := List.range'_append_1 (s := lo) (m := n - lo) (n := current - n)
  rw [hmid] at hsplit
  rw [hsplit]
  congr 2
  omega

theorem movers_perm : (movers idOfSlot rank hostCopy n current).Perm (residents idOfSlot n current) := by
  unfold movers
  simp only
  refine ((List.mergeSort_perm _ _).append (List.mergeSort_perm _ _)).trans ?_
  refine List.perm_append_comm.trans ?_
  exact List.filter_append_perm _ _

theorem mem_movers {s : Nat} :
    s ∈ movers idOfSlot rank hostCopy n current ↔ (n ≤ s ∧ s < current) ∧ (idOfSlot s).isSome :=
  movers_perm.mem_iff.trans mem_residents

theorem mem_targets {t : Nat} :
    t ∈ targets idOfSlot rank hostCopy lo n ↔
      (lo ≤ t ∧ t < n) ∧ ∀ id, idOfSlot t = some id → hostCopy id = true := by
  unfold targets covered
  simp only [List.mem_append, List.mem_filter, List.mem_mergeSort, mem_residents,
    List.mem_range'_1]
  cases h : idOfSlot t with
  | none => simp; omega
  | some id => simp

theorem targets_nodup : (targets idOfSlot rank hostCopy lo n).Nodup := by
  unfold targets
  refine List.Nodup.append ((List.nodup_range' 1).filter _) ?_ ?_
  · exact (List.mergeSort_perm _ _).nodup_iff.mpr ((residents_nodup lo n).filter _)
  · intro t hempty hfull
    simp only [List.mem_filter, List.mem_mergeSort, mem_residents] at hempty hfull
    cases h : idOfSlot t <;> simp_all

/-- The moves of a plan. -/
def plannedMoves (idOfSlot : Nat → Option Nat) (rank : Nat → ρ) (hostCopy : Nat → Bool)
    (lo n current : Nat) : List (Nat × Nat) :=
  (planCompaction idOfSlot rank hostCopy lo n current).moves

theorem moves_src_nodup : ((plannedMoves idOfSlot rank hostCopy lo n current).map Prod.fst).Nodup :=
  (takeTargets_src _ _ _ _).nodup (movers_perm.nodup_iff.mpr (residents_nodup n current))

theorem moves_dst_nodup : ((plannedMoves idOfSlot rank hostCopy lo n current).map Prod.snd).Nodup :=
  (takeTargets_dst _ _ _ _).sublist.nodup targets_nodup

theorem moves_between {m : Nat × Nat} (hm : m ∈ plannedMoves idOfSlot rank hostCopy lo n current) :
    ((n ≤ m.1 ∧ m.1 < current) ∧ (idOfSlot m.1).isSome) ∧
      (lo ≤ m.2 ∧ m.2 < n) ∧ ∀ id, idOfSlot m.2 = some id → hostCopy id = true :=
  ⟨mem_movers.mp ((takeTargets_src _ _ _ _).subset (List.mem_map_of_mem hm)),
    mem_targets.mp ((takeTargets_dst _ _ _ _).subset (List.mem_map_of_mem hm))⟩

/-- Every doomed resident is moved, dropped with its copy, or left to be written back. -/
theorem doomed_eq :
    let p := planCompaction idOfSlot rank hostCopy lo n current
    p.doomed = p.moves.length + p.droppedWithCopy + p.leftUncovered := by
  intro p
  have hleft := List.length_eq_length_filter_add (l := (residents idOfSlot n current).filter
    fun s => s ∉ p.moves.map Prod.fst) (fun s => covered idOfSlot hostCopy s)
  have hall := List.length_eq_length_filter_add (l := residents idOfSlot n current)
    (fun s => s ∈ p.moves.map Prod.fst)
  have hmoved : ((residents idOfSlot n current).filter fun s => s ∈ p.moves.map Prod.fst).length =
      p.moves.length := by
    rw [← List.length_map Prod.fst]
    refine ((List.perm_ext_iff_of_nodup ((residents_nodup n current).filter _)
      moves_src_nodup).mpr fun s => ?_).length_eq
    rw [List.mem_filter, decide_eq_true_eq]
    refine ⟨fun h => h.2, fun h => ⟨?_, h⟩⟩
    obtain ⟨m, hm, rfl⟩ := List.mem_map.mp h
    exact mem_residents.mpr (moves_between hm).1
  have hdoomed : p.doomed = (residents idOfSlot n current).length := rfl
  have hdropped : p.droppedWithCopy = (((residents idOfSlot n current).filter
    fun s => s ∉ p.moves.map Prod.fst).filter fun s => covered idOfSlot hostCopy s).length := rfl
  have huncovered : p.leftUncovered = (((residents idOfSlot n current).filter
    fun s => s ∉ p.moves.map Prod.fst).filter fun s => !covered idOfSlot hostCopy s).length := rfl
  simp only [decide_not] at *
  omega

/-! ## The plan keeps the hottest -/

/-- What is sorted by an order is in order. -/
theorem sorted_by (r : Nat → Nat → Prop) [DecidableRel r] (htrans : ∀ a b c, r a b → r b c → r a c)
    (htotal : ∀ a b, r a b ∨ r b a) (l : List Nat) :
    (l.mergeSort fun a b => decide (r a b)).Pairwise r := by
  have htrans' : ∀ a b c, decide (r a b) = true → decide (r b c) = true → decide (r a c) = true := by
    intro a b c hab hbc
    simp only [decide_eq_true_eq] at *
    exact htrans a b c hab hbc
  have htotal' : ∀ a b, (decide (r a b) || decide (r b a)) = true := by
    intro a b
    simpa using htotal a b
  have hsorted := List.pairwise_mergeSort htrans' htotal' l
  exact hsorted.imp fun h => by simpa using h

theorem find_dst {moves : List (Nat × Nat)} (hnodup : (moves.map Prod.snd).Nodup) {m : Nat × Nat}
    (hm : m ∈ moves) : moves.find? (fun q => q.2 = m.2) = some m := by
  induction moves with
  | nil => cases hm
  | cons q moves ih =>
    obtain ⟨hnot, hnodup⟩ := List.nodup_cons.mp hnodup
    rcases List.mem_cons.mp hm with rfl | hm
    · simp
    · have hne : q.2 ≠ m.2 := fun heq => hnot (heq ▸ List.mem_map_of_mem hm)
      rw [List.find?_cons_of_neg (by simpa using hne)]
      exact ih hnodup hm

theorem origin_dst {m : Nat × Nat} (hm : m ∈ plannedMoves idOfSlot rank hostCopy lo n current) :
    (planCompaction idOfSlot rank hostCopy lo n current).origin m.2 = m.1 := by
  have hfind := find_dst moves_dst_nodup hm
  unfold plannedMoves at hfind
  unfold CompactionPlan.origin
  rw [hfind]
  rfl

theorem origin_of_not_mem {s : Nat}
    (hs : s ∉ (plannedMoves idOfSlot rank hostCopy lo n current).map Prod.snd) :
    (planCompaction idOfSlot rank hostCopy lo n current).origin s = s := by
  unfold CompactionPlan.origin
  rw [List.find?_eq_none.mpr fun m hm => by
    simp only [decide_eq_true_eq]
    exact fun heq => hs (heq ▸ List.mem_map_of_mem hm)]
  rfl

/-- The slots whose residents are left below `n` after the moves. -/
def kept (idOfSlot : Nat → Option Nat) (rank : Nat → ρ) (hostCopy : Nat → Bool)
    (lo n current : Nat) : List Nat :=
  let p := planCompaction idOfSlot rank hostCopy lo n current
  ((List.range' lo (n - lo)).filter fun s => (p.compacted idOfSlot s).isSome).map p.origin

theorem mem_kept {x : Nat} :
    x ∈ kept idOfSlot rank hostCopy lo n current ↔
      x ∈ (plannedMoves idOfSlot rank hostCopy lo n current).map Prod.fst ∨
        x ∈ residents idOfSlot lo n ∧
          x ∉ (plannedMoves idOfSlot rank hostCopy lo n current).map Prod.snd := by
  unfold kept CompactionPlan.compacted
  simp only [List.mem_map, List.mem_filter, List.mem_range'_1]
  constructor
  · rintro ⟨s, ⟨hs, hsome⟩, rfl⟩
    by_cases hdst : s ∈ (plannedMoves idOfSlot rank hostCopy lo n current).map Prod.snd
    · obtain ⟨m, hm, rfl⟩ := List.mem_map.mp hdst
      exact Or.inl ⟨m, hm, (origin_dst hm).symm⟩
    · rw [origin_of_not_mem hdst] at hsome ⊢
      refine Or.inr ⟨mem_residents.mpr ⟨by omega, hsome⟩, fun ⟨m, hm, heq⟩ => ?_⟩
      exact hdst (heq ▸ List.mem_map_of_mem hm)
  · rintro (⟨m, hm, rfl⟩ | ⟨hx, hdst⟩)
    · obtain ⟨⟨-, hsome⟩, hrange, -⟩ := moves_between hm
      refine ⟨m.2, ⟨by omega, ?_⟩, origin_dst hm⟩
      rw [origin_dst hm]
      exact hsome
    · have horigin := origin_of_not_mem (s := x) fun h => hdst (List.mem_map.mp h)
      obtain ⟨hrange, hsome⟩ := mem_residents.mp hx
      refine ⟨x, ⟨by omega, ?_⟩, horigin⟩
      rw [horigin]
      exact hsome

theorem kept_nodup : (kept idOfSlot rank hostCopy lo n current).Nodup := by
  unfold kept
  refine List.Nodup.map_on ?_ ((List.nodup_range' 1).filter _)
  intro s hs t ht heq
  have hs' : s < n := by
    have := List.mem_range'_1.mp (List.mem_filter.mp hs).1
    omega
  have ht' : t < n := by
    have := List.mem_range'_1.mp (List.mem_filter.mp ht).1
    omega
  by_cases hds : s ∈ (plannedMoves idOfSlot rank hostCopy lo n current).map Prod.snd
  · obtain ⟨m, hm, rfl⟩ := List.mem_map.mp hds
    by_cases hdt : t ∈ (plannedMoves idOfSlot rank hostCopy lo n current).map Prod.snd
    · obtain ⟨q, hq, rfl⟩ := List.mem_map.mp hdt
      rw [origin_dst hm, origin_dst hq] at heq
      rw [List.inj_on_of_nodup_map moves_src_nodup hm hq heq]
    · rw [origin_dst hm, origin_of_not_mem hdt] at heq
      have := (moves_between hm).1.1.1
      omega
  · rw [origin_of_not_mem hds] at heq
    by_cases hdt : t ∈ (plannedMoves idOfSlot rank hostCopy lo n current).map Prod.snd
    · obtain ⟨q, hq, rfl⟩ := List.mem_map.mp hdt
      rw [origin_dst hq] at heq
      have := (moves_between hq).1.1.1
      omega
    · rwa [origin_of_not_mem hdt] at heq

section Covered

variable (hcopy : ∀ s id, idOfSlot s = some id → hostCopy id = true)
include hcopy

theorem covered_of_resident {s : Nat} (hs : (idOfSlot s).isSome) :
    covered idOfSlot hostCopy s = true := by
  obtain ⟨id, hid⟩ := Option.isSome_iff_exists.mp hs
  simp [covered, hid, hcopy s id hid]

/-- With all of them covered, the movers are one sorted list. -/
theorem movers_pairwise :
    (movers idOfSlot rank hostCopy n current).Pairwise fun a b => rank b ≤ rank a := by
  have hnone : (residents idOfSlot n current).filter
      (fun s => !covered idOfSlot hostCopy s) = [] := by
    refine List.filter_eq_nil_iff.mpr fun s hs => ?_
    simp [covered_of_resident hcopy (mem_residents.mp hs).2]
  unfold movers
  simp only
  rw [hnone, List.mergeSort_nil, List.nil_append]
  exact sorted_by (fun a b => rank b ≤ rank a) (fun _ _ _ hab hbc => hbc.trans hab)
    (fun a b => le_total (rank b) (rank a)) _

theorem plan_hottest :
    Hottest rank (movers idOfSlot rank hostCopy n current) (residents idOfSlot lo n)
      (plannedMoves idOfSlot rank hostCopy lo n current) := by
  have hmem : ∀ t, t ∈ ((residents idOfSlot lo n).filter
      fun s => covered idOfSlot hostCopy s).mergeSort (fun a b => decide (rank a ≤ rank b)) ↔
        t ∈ residents idOfSlot lo n := by
    intro t
    rw [List.mem_mergeSort, List.mem_filter]
    exact ⟨fun h => h.1, fun h => ⟨h, covered_of_resident hcopy (mem_residents.mp h).2⟩⟩
  have hsorted := sorted_by (fun a b => rank a ≤ rank b) (fun _ _ _ hab hbc => hab.trans hbc)
    (fun a b => le_total (rank a) (rank b))
    ((residents idOfSlot lo n).filter fun s => covered idOfSlot hostCopy s)
  have hempty : ∀ t ∈ (List.range' lo (n - lo)).filter fun s => (idOfSlot s).isNone,
      idOfSlot t = none := by simp
  have hhot := takeTargets_hottest_append hempty hsorted
    ((List.mergeSort_perm _ _).nodup_iff.mpr ((residents_nodup lo n).filter _))
    (fun t ht => (mem_residents.mp ((hmem t).mp ht)).2)
    (movers_pairwise hcopy : (movers idOfSlot rank hostCopy n current).Pairwise _)
  refine ⟨fun d hd hd' => ?_, fun t ht ht' => ?_⟩
  · obtain ⟨hmoved, hstays⟩ := hhot.left d hd hd'
    exact ⟨hmoved, fun t ht => hstays t ((hmem t).mpr ht)⟩
  · obtain ⟨hmoved, hstays⟩ := hhot.overwritten t ((hmem t).mpr ht) ht'
    exact ⟨hmoved, fun u hu => hstays u ((hmem u).mpr hu)⟩

/-- Nothing that is lost is hotter than anything that is left. -/
theorem kept_hottest (hlo : lo ≤ n) (hn : n ≤ current) {d : Nat}
    (hd : d ∈ residents idOfSlot lo current)
    (hlost : d ∉ kept idOfSlot rank hostCopy lo n current) :
    ∀ s ∈ kept idOfSlot rank hostCopy lo n current, rank d ≤ rank s := by
  have hhot : Hottest rank (movers idOfSlot rank hostCopy n current) (residents idOfSlot lo n)
      (plannedMoves idOfSlot rank hostCopy lo n current) := plan_hottest hcopy
  rw [mem_kept, not_or] at hlost
  rw [← residents_append hlo hn, List.mem_append] at hd
  intro s hs
  rw [mem_kept] at hs
  rcases hd with hd | hd
  · -- an occupant that was overwritten
    have htaken : d ∈ (plannedMoves idOfSlot rank hostCopy lo n current).map Prod.snd :=
      not_not.mp fun h => hlost.2 ⟨hd, h⟩
    obtain ⟨hmoved, hstays⟩ := hhot.overwritten d hd htaken
    rcases hs with hs | ⟨hs, hs'⟩
    · exact hmoved s hs
    · exact hstays s hs hs'
  · -- a mover that was left behind
    have hmover : d ∈ movers idOfSlot rank hostCopy n current := movers_perm.mem_iff.mpr hd
    obtain ⟨hmoved, hstays⟩ := hhot.left d hmover hlost.1
    rcases hs with hs | ⟨hs, hs'⟩
    · exact hmoved s hs
    · exact hstays s hs hs'

end Covered

/-- As many are left as there are, or as there is room for. -/
theorem kept_length (hlo : lo ≤ n) (hn : n ≤ current) :
    (kept idOfSlot rank hostCopy lo n current).length =
      min (residents idOfSlot lo current).length (n - lo) := by
  set empty := (List.range' lo (n - lo)).filter fun s => (idOfSlot s).isNone with hempty
  have hrange := List.length_eq_length_filter_add (l := List.range' lo (n - lo))
    fun s => (idOfSlot s).isSome
  have hnone : (List.range' lo (n - lo)).filter (fun s => !(idOfSlot s).isSome) = empty := by
    rw [hempty]
    refine List.filter_congr fun s _ => ?_
    cases idOfSlot s <;> rfl
  rw [hnone, List.length_range'] at hrange
  have hres : (residents idOfSlot lo n).length =
      ((List.range' lo (n - lo)).filter fun s => (idOfSlot s).isSome).length := rfl
  have hsplit : (residents idOfSlot lo n ++ residents idOfSlot n current).length =
      (residents idOfSlot lo current).length := congrArg List.length (residents_append hlo hn)
  have hmovers : (movers idOfSlot rank hostCopy n current).length =
      (residents idOfSlot n current).length := movers_perm.length_eq
  rw [List.length_append] at hsplit
  have hisempty : ∀ t ∈ empty, idOfSlot t = none := by simp [hempty]
  have hmoves := takeTargets_empty hisempty rank (((residents idOfSlot lo n).filter
      fun s => covered idOfSlot hostCopy s).mergeSort fun a b => rank a ≤ rank b)
    (movers idOfSlot rank hostCopy n current)
  have hplanned : plannedMoves idOfSlot rank hostCopy lo n current = _ := hmoves
  rcases Nat.le_total (movers idOfSlot rank hostCopy n current).length empty.length with hle | hle
  · -- every mover finds an empty slot
    rw [List.drop_eq_nil_of_le hle, takeTargets, List.append_nil] at hplanned
    have hfst : (plannedMoves idOfSlot rank hostCopy lo n current).map Prod.fst =
        movers idOfSlot rank hostCopy n current := by
      rw [hplanned, List.map_fst_zip hle]
    have hsnd : ∀ t ∈ (plannedMoves idOfSlot rank hostCopy lo n current).map Prod.snd,
        idOfSlot t = none := by
      intro t ht
      rw [hplanned] at ht
      obtain ⟨m, hm, rfl⟩ := List.mem_map.mp ht
      have := (List.of_mem_zip hm).2
      simpa [hempty] using (List.mem_filter.mp this).2
    have hperm : (kept idOfSlot rank hostCopy lo n current).Perm
        (residents idOfSlot lo current) := by
      refine (List.perm_ext_iff_of_nodup kept_nodup (residents_nodup lo current)).mpr fun x => ?_
      rw [mem_kept, hfst, ← residents_append hlo hn, List.mem_append, movers_perm.mem_iff]
      constructor
      · rintro (hx | hx)
        · exact Or.inr hx
        · exact Or.inl hx.1
      · rintro (hx | hx)
        · refine Or.inr ⟨hx, fun ht => ?_⟩
          have := (mem_residents.mp hx).2
          simp [hsnd x ht] at this
        · exact Or.inl hx
    have := hperm.length_eq
    omega
  · -- every slot is taken
    have hfull : ∀ s ∈ List.range' lo (n - lo),
        ((planCompaction idOfSlot rank hostCopy lo n current).compacted idOfSlot s).isSome := by
      intro s hs
      unfold CompactionPlan.compacted
      by_cases hdst : s ∈ (plannedMoves idOfSlot rank hostCopy lo n current).map Prod.snd
      · obtain ⟨m, hm, rfl⟩ := List.mem_map.mp hdst
        rw [origin_dst hm]
        exact (moves_between hm).1.2
      · rw [origin_of_not_mem hdst]
        by_contra hnot
        refine hdst ?_
        rw [hplanned, List.map_append, List.map_snd_zip hle]
        refine List.mem_append_left _ (List.mem_filter.mpr ⟨hs, ?_⟩)
        rw [Option.isSome_iff_ne_none, not_not] at hnot
        rw [hnot]
        rfl
    have hlen : (kept idOfSlot rank hostCopy lo n current).length = n - lo := by
      unfold kept
      simp only
      rw [List.length_map, List.filter_eq_self.mpr hfull, List.length_range']
    omega

end Plan

/-- **A plan loses no expert, and keeps the hottest where every expert has a host copy.** Each slot
of `kept` is where a resident of `[lo, n)` comes from. -/
theorem planCompaction_keeps_hottest (idOfSlot : Nat → Option Nat) (rank : Nat → ρ)
    (hostCopy : Nat → Bool) {lo n current : Nat} (hlo : lo ≤ n) (hn : n ≤ current) :
    let p := planCompaction idOfSlot rank hostCopy lo n current
    ((p.moves.map Prod.fst).Nodup ∧ (p.moves.map Prod.snd).Nodup ∧
        ∀ m ∈ p.moves, (n ≤ m.1 ∧ m.1 < current) ∧ (lo ≤ m.2 ∧ m.2 < n) ∧
          (idOfSlot m.1).isSome) ∧
      ((∀ id, id ∈ p.displaced ↔ ∃ m ∈ p.moves, idOfSlot m.2 = some id) ∧
        ∀ id ∈ p.displaced, hostCopy id = true) ∧
      (p.doomed = (residents idOfSlot n current).length ∧
        p.doomed = p.moves.length + p.droppedWithCopy + p.leftUncovered) ∧
      ((∀ s id, idOfSlot s = some id → hostCopy id = true) →
        let left := kept idOfSlot rank hostCopy lo n current
        left.Nodup ∧ left ⊆ residents idOfSlot lo current ∧
          (∀ d ∈ residents idOfSlot lo current, d ∉ left → ∀ s ∈ left, rank d ≤ rank s) ∧
          left.length = min (residents idOfSlot lo current).length (n - lo)) := by
  intro p
  have hdisplaced : ∀ id, id ∈ p.displaced ↔ ∃ m ∈ p.moves, idOfSlot m.2 = some id :=
    fun id => List.mem_filterMap
  refine ⟨⟨moves_src_nodup, moves_dst_nodup, fun m hm => ?_⟩, ⟨hdisplaced, fun id hid => ?_⟩,
    ⟨rfl, doomed_eq⟩, fun hcopy => ⟨kept_nodup, fun x hx => ?_, fun d hd hlost => ?_, ?_⟩⟩
  · obtain ⟨⟨hsrc, hsome⟩, hdst, -⟩ := moves_between hm
    exact ⟨hsrc, hdst, hsome⟩
  · obtain ⟨m, hm, hid⟩ := (hdisplaced id).mp hid
    exact (moves_between hm).2.2 id hid
  · rw [← residents_append hlo hn, List.mem_append]
    rcases mem_kept.mp hx with hx | hx
    · obtain ⟨m, hm, rfl⟩ := List.mem_map.mp hx
      exact Or.inr (mem_residents.mpr (moves_between hm).1)
    · exact Or.inl hx.1
  · exact kept_hottest hcopy hlo hn hd hlost
  · exact kept_length hlo hn

/-- Six slots, the second of them empty; the higher the slot, the hotter its resident. -/
def sixSlots : Nat → Option Nat := fun s => ([some 4, none, some 2, some 7, some 9, some 1][s]?).join

/-- The shrink to three slots leaves two residents above the first slot, and no hotter one is
lost. -/
theorem sixSlots_keeps_hottest :
    let left := kept sixSlots (fun s => s) (fun _ => true) 1 3 6
    left.length = 2 ∧ residents sixSlots 1 6 = [2, 3, 4, 5] ∧
      ∀ d ∈ residents sixSlots 1 6, d ∉ left → ∀ s ∈ left, d ≤ s := by
  have hplan := (planCompaction_keeps_hottest sixSlots (fun s => s) (fun _ => true)
    (by decide : 1 ≤ 3) (by decide : 3 ≤ 6)).2.2.2 fun _ _ _ => rfl
  exact ⟨hplan.2.2.2.trans (by decide), by decide, hplan.2.2.1⟩

end FreeToken.Experts
