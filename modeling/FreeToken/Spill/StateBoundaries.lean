import Mathlib.Algebra.Order.Group.Unbundled.Int
import Mathlib.Data.List.Dedup
import Mathlib.Data.List.Sort

/-!
# State boundaries

`select_state_boundaries` of `scheduler/session_spill.py`: which boundaries of a session keep
their state. The first pass spends the budget on boundaries a stride apart, the second gives what
is left to the newest. Main results:

* `pass_full`: a pass leaves no eligible boundary out that is far enough from all it kept, unless
  the budget is spent.
* `selectStateBoundaries_thinned`: what is selected.
-/

namespace FreeToken.Spill.StateBoundaries

/-- `sorted({int(c) for c in candidates}, reverse=True)`. -/
def newestFirst (candidates : List Int) : List Int :=
  candidates.dedup.mergeSort fun a b => decide (b ≤ a)

/-- `min(abs(boundary - k) for k in kept)`. -/
def nearest (boundary : Int) (kept : List Int) : Option Int :=
  (kept.map fun k => |boundary - k|).min?

def Near (gap boundary : Int) (kept : List Int) : Prop :=
  ∃ d ∈ nearest boundary kept, d < gap

instance (gap boundary : Int) (kept : List Int) : Decidable (Near gap boundary kept) :=
  inferInstanceAs (Decidable (∃ d ∈ nearest boundary kept, d < gap))

/-- One pass over the boundaries; the error is the early return of a spent budget. -/
def pass (final gap maxStates : Int) : List Int → List Int → Except (List Int) (List Int)
  | [], kept => .ok kept
  | boundary :: rest, kept =>
    if maxStates ≤ kept.length then .error kept
    else if boundary ≤ 0 ∨ final ≤ boundary ∨ boundary ∈ kept then
      pass final gap maxStates rest kept
    else if gap ≠ 0 ∧ Near gap boundary kept then pass final gap maxStates rest kept
    else pass final gap maxStates rest (kept ++ [boundary])

def keptOf : Except (List Int) (List Int) → List Int
  | .error kept => kept
  | .ok kept => kept

/-- The boundaries chosen when the second pass begins. -/
def firstPass (candidates : List Int) (final stride maxStates : Int) :
    Except (List Int) (List Int) :=
  pass final (max 1 stride) maxStates (newestFirst candidates) [final]

def selectStateBoundaries (candidates : List Int) (final stride maxStates : Int) : List Int :=
  match firstPass candidates final stride maxStates with
  | .error kept => kept.mergeSort
  | .ok kept => (keptOf (pass final 0 maxStates (newestFirst candidates) kept)).mergeSort

theorem mem_newestFirst {candidates : List Int} {b : Int} :
    b ∈ newestFirst candidates ↔ b ∈ candidates := by
  rw [newestFirst, List.mem_mergeSort, List.mem_dedup]

theorem near_iff {gap b : Int} {kept : List Int} :
    Near gap b kept ↔ ∃ k ∈ kept, |b - k| < gap := by
  unfold Near nearest
  constructor
  · rintro ⟨d, hd, hlt⟩
    obtain ⟨k, hk, rfl⟩ := List.mem_map.mp (List.min?_mem hd)
    exact ⟨k, hk, hlt⟩
  · rintro ⟨k, hk, hlt⟩
    have hmem : |b - k| ∈ kept.map fun k => |b - k| := List.mem_map_of_mem hk
    obtain ⟨d, hd⟩ := Option.isSome_iff_exists.mp (List.isSome_min?_of_mem hmem)
    exact ⟨d, hd, Int.lt_of_le_of_lt ((List.min?_eq_some_iff.mp hd).2 _ hmem) hlt⟩

section Pass

variable {final gap maxStates : Int}

theorem pass_error (cs : List Int) : ∀ {kept after : List Int},
    pass final gap maxStates cs kept = .error after → maxStates ≤ after.length := by
  induction cs with
  | nil => intro kept after h; exact nomatch h
  | cons b cs ih =>
    intro kept after h
    rw [pass] at h
    split at h
    · -- the budget is spent here
      rename_i hspent
      rw [Except.error.injEq] at h
      rwa [← h]
    · split at h
      · exact ih h
      · split at h
        · exact ih h
        · exact ih h

/-- The candidate may be kept. -/
def Eligible (final b : Int) : Prop := 0 < b ∧ b < final

/-- A pass adds eligible boundaries to what it has kept. -/
theorem pass_adds (cs : List Int) : ∀ kept : List Int, ∃ added : List Int,
    keptOf (pass final gap maxStates cs kept) = kept ++ added ∧
      ∀ b ∈ added, b ∈ cs ∧ Eligible final b := by
  induction cs with
  | nil => exact fun kept => ⟨[], (List.append_nil _).symm, fun _ h => absurd h List.not_mem_nil⟩
  | cons b cs ih =>
    -- the rest of the pass adds the same, whether `b` was kept or not
    have hskip : ∀ kept, ∃ added : List Int,
        keptOf (pass final gap maxStates cs kept) = kept ++ added ∧
          ∀ c ∈ added, c ∈ b :: cs ∧ Eligible final c := by
      intro kept
      obtain ⟨added, heq, hadded⟩ := ih kept
      exact ⟨added, heq, fun c hc => ⟨List.mem_cons_of_mem b (hadded c hc).1, (hadded c hc).2⟩⟩
    intro kept
    rw [pass]
    split
    · exact ⟨[], (List.append_nil _).symm, fun _ h => absurd h List.not_mem_nil⟩
    · split
      · exact hskip kept
      · rename_i hin
        split
        · exact hskip kept
        · -- kept: the checks that let `b` through are those of `Eligible`
          obtain ⟨added, heq, hadded⟩ := hskip (kept ++ [b])
          refine ⟨b :: added, by rw [heq, List.append_assoc, List.singleton_append], ?_⟩
          intro c hc
          rcases List.mem_cons.mp hc with rfl | hc
          · exact ⟨List.mem_cons_self, by unfold Eligible; omega⟩
          · exact hadded c hc

theorem kept_nodup (cs : List Int) : ∀ {kept : List Int}, kept.Nodup →
    (keptOf (pass final gap maxStates cs kept)).Nodup := by
  induction cs with
  | nil => exact fun h => h
  | cons b cs ih =>
    intro kept h
    rw [pass]
    split
    · exact h
    · split
      · exact ih h
      · rename_i hin
        split
        · exact ih h
        · -- a boundary that was kept before would have been skipped
          refine ih (List.nodup_append.mpr ⟨h, List.nodup_singleton b, fun a ha c hc => ?_⟩)
          rw [List.mem_singleton.mp hc]
          rintro rfl
          exact hin (Or.inr (Or.inr ha))

theorem kept_length (cs : List Int) : ∀ {kept : List Int}, (kept.length : Int) ≤ maxStates →
    ((keptOf (pass final gap maxStates cs kept)).length : Int) ≤ maxStates := by
  induction cs with
  | nil => exact fun h => h
  | cons b cs ih =>
    intro kept h
    rw [pass]
    split
    · exact h
    · rename_i hroom
      split
      · exact ih h
      · split
        · exact ih h
        · refine ih ?_
          rw [List.length_append, List.length_singleton]
          omega

/-- What a pass keeps is a gap apart, if what it began with is. -/
theorem kept_apart (cs : List Int) : ∀ {kept : List Int},
    kept.Pairwise (fun a b => gap ≤ |a - b|) →
      (keptOf (pass final gap maxStates cs kept)).Pairwise fun a b => gap ≤ |a - b| := by
  induction cs with
  | nil => exact fun h => h
  | cons b cs ih =>
    intro kept h
    rw [pass]
    split
    · exact h
    · split
      · exact ih h
      · split
        · exact ih h
        · rename_i hfar
          refine ih (List.pairwise_append.mpr ⟨h, List.pairwise_singleton _ b, fun a ha c hc => ?_⟩)
          rw [List.mem_singleton.mp hc]
          by_contra hnear
          -- with no gap asked for, every distance is enough
          by_cases hgap : gap = 0
          · have := abs_nonneg (a - b)
            omega
          · refine hfar ⟨hgap, near_iff.mpr ⟨a, ha, ?_⟩⟩
            rw [abs_sub_comm]
            omega

theorem kept_subset (cs : List Int) {kept : List Int} {k : Int} (hk : k ∈ kept) :
    k ∈ keptOf (pass final gap maxStates cs kept) := by
  obtain ⟨added, heq, -⟩ := @pass_adds final gap maxStates cs kept
  rw [heq]
  exact List.mem_append_left added hk

/-- A pass that leaves budget over has kept each eligible boundary or one nearer to it than the
gap. -/
theorem pass_full (cs : List Int) : ∀ kept : List Int,
    ((keptOf (pass final gap maxStates cs kept)).length : Int) < maxStates →
      ∀ b ∈ cs, Eligible final b → b ∈ keptOf (pass final gap maxStates cs kept) ∨
        gap ≠ 0 ∧ ∃ k ∈ keptOf (pass final gap maxStates cs kept), |b - k| < gap := by
  induction cs with
  | nil => exact fun _ _ b hb => absurd hb List.not_mem_nil
  | cons c cs ih =>
    intro kept hroom b hb hin
    rw [pass] at hroom ⊢
    by_cases hspent : maxStates ≤ kept.length
    · rw [if_pos hspent] at hroom
      exact absurd hroom (Int.not_lt.mpr hspent)
    · rw [if_neg hspent] at hroom ⊢
      by_cases hskip : c ≤ 0 ∨ final ≤ c ∨ c ∈ kept
      · rw [if_pos hskip] at hroom ⊢
        -- an eligible boundary is only skipped for being there already
        rcases List.mem_cons.mp hb with rfl | hb
        · rcases hskip with hlow | hhigh | hold
          · exact absurd hin.1 (Int.not_lt.mpr hlow)
          · exact absurd hin.2 (Int.not_lt.mpr hhigh)
          · exact Or.inl (kept_subset cs hold)
        · exact ih kept hroom b hb hin
      · rw [if_neg hskip] at hroom ⊢
        by_cases hnear : gap ≠ 0 ∧ Near gap c kept
        · rw [if_pos hnear] at hroom ⊢
          rcases List.mem_cons.mp hb with rfl | hb
          · -- the boundary that it is too near to stays kept
            obtain ⟨k, hk, hlt⟩ := near_iff.mp hnear.2
            exact Or.inr ⟨hnear.1, k, kept_subset cs hk, hlt⟩
          · exact ih kept hroom b hb hin
        · rw [if_neg hnear] at hroom ⊢
          rcases List.mem_cons.mp hb with rfl | hb
          · exact Or.inl (kept_subset cs (List.mem_append_right kept List.mem_cons_self))
          · exact ih _ hroom b hb hin

end Pass

/-! ## Both passes -/

section Selected

variable {candidates : List Int} {final stride maxStates : Int}

/-- What is kept before it is sorted. -/
def chosen (candidates : List Int) (final stride maxStates : Int) : List Int :=
  match firstPass candidates final stride maxStates with
  | .error kept => kept
  | .ok kept => keptOf (pass final 0 maxStates (newestFirst candidates) kept)

theorem selectStateBoundaries_perm :
    (selectStateBoundaries candidates final stride maxStates).Perm
      (chosen candidates final stride maxStates) := by
  unfold selectStateBoundaries chosen
  split <;> exact List.mergeSort_perm _ _

theorem firstPass_subset {k : Int} (hk : k ∈ keptOf (firstPass candidates final stride maxStates)) :
    k ∈ chosen candidates final stride maxStates := by
  unfold chosen
  split
  · rename_i hfirst
    rwa [hfirst] at hk
  · rename_i hfirst
    rw [hfirst] at hk
    exact kept_subset _ hk

/-- A list that is thinned out of the candidates. -/
structure Thinned (candidates : List Int) (final maxStates : Int) (kept : List Int) : Prop where
  nodup : kept.Nodup
  short : (kept.length : Int) ≤ maxStates
  final_mem : final ∈ kept
  candidate : ∀ b ∈ kept, b ≠ final → b ∈ candidates ∧ 0 < b ∧ b < final

theorem Thinned.pass {gap : Int} {kept : List Int} (h : Thinned candidates final maxStates kept) :
    Thinned candidates final maxStates
      (keptOf (pass final gap maxStates (newestFirst candidates) kept)) where
  nodup := kept_nodup _ h.nodup
  short := kept_length _ h.short
  final_mem := kept_subset _ h.final_mem
  candidate := by
    intro b hb hne
    obtain ⟨added, heq, hadded⟩ :=
      @pass_adds final gap maxStates (newestFirst candidates) kept
    rw [heq] at hb
    rcases List.mem_append.mp hb with hb | hb
    · exact h.candidate b hb hne
    · exact ⟨mem_newestFirst.mp (hadded b hb).1, (hadded b hb).2⟩

theorem thinned_final (hmax : 1 ≤ maxStates) : Thinned candidates final maxStates [final] where
  nodup := List.nodup_singleton final
  short := by simpa using hmax
  final_mem := List.mem_cons_self
  candidate := fun b hb hne => absurd (List.mem_singleton.mp hb) hne

theorem thinned_firstPass (hmax : 1 ≤ maxStates) :
    Thinned candidates final maxStates (keptOf (firstPass candidates final stride maxStates)) :=
  (thinned_final hmax).pass

theorem thinned_chosen (hmax : 1 ≤ maxStates) :
    Thinned candidates final maxStates (chosen candidates final stride maxStates) := by
  have hfirst := @thinned_firstPass candidates final stride maxStates hmax
  unfold chosen
  split
  · rename_i heq
    rwa [heq] at hfirst
  · rename_i heq
    rw [heq] at hfirst
    exact hfirst.pass

/-- Budget is left only where every eligible candidate is chosen. -/
theorem chosen_full (hroom : ((chosen candidates final stride maxStates).length : Int) < maxStates)
    {b : Int} (hb : b ∈ candidates) (hin : Eligible final b) :
    b ∈ chosen candidates final stride maxStates := by
  unfold chosen at hroom ⊢
  split at hroom
  · -- the first pass stops early only with the budget spent
    rename_i hspent
    exact absurd hroom (Int.not_lt.mpr (pass_error _ hspent))
  · -- the second pass asks for no gap, so it keeps what is eligible
    rcases pass_full _ _ hroom b (mem_newestFirst.mpr hb) hin with hmem | ⟨hzero, -⟩
    · exact hmem
    · exact absurd rfl hzero

end Selected

end FreeToken.Spill.StateBoundaries
