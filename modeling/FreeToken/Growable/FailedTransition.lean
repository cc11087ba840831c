import FreeToken.Growable.Rollback
import FreeToken.Lib.Reach

/-!
# A growth or shrink that fails

Over any run of growths, shrinks, reserves and releases, whichever of them fail. Main results:

* `reach_fits`: the pool has grown segment by segment and the arena is mapped as its slots say,
  unless the engine is marked as failed.
* `failed_transition_iff`: a growth or shrink that fails leaves everything as it was, or has
  everything refused later, unless the fault comes within the release with which a shrink begins.
-/

namespace FreeToken.Growable

open FreeToken.Lib Pool

/-! ## The operations -/

/-- The two transitions. -/
inductive Resize where
  | grow (requiredPages : Nat)
  | shrink (targetPages : Nat)

inductive Op where
  | resize (r : Resize)
  | reserve
  | release

def Engine.operate (e : Engine) (f : Fault) (w : World) : Op → Outcome Unit
  | .resize (.grow requiredPages) =>
    (e.growRuntimeKv f w requiredPages).bind fun f w _ => .done f w ()
  | .resize (.shrink targetPages) =>
    (e.shrinkRuntimeKv f w targetPages).bind fun f w _ => .done f w ()
  | .reserve => e.reservePrefillHeadroom f w
  | .release => e.releasePrefillHeadroom f w

/-- Every later growth, shrink, reserve and release is refused. -/
def Engine.Refuses (e : Engine) (w : World) : Prop := ∀ f op, e.operate f w op = .raised w

/-- The fault comes within the release with which a shrink begins. -/
def Engine.DuringRelease (e : Engine) (f : Fault) (w : World) : Resize → Prop
  | .grow _ => False
  | .shrink targetPages =>
    w.transitionFailed = false ∧ targetPages < w.pool.committedPages ∧
      e.shrinkTarget w targetPages < w.pool.committedPages ∧
      e.planRefuses w (e.shrinkTarget w targetPages) = false ∧
      f.spend (uncommitCalls (e.shrinkTarget w targetPages) w.pool.growthSegments) = none

instance (e : Engine) (f : Fault) (w : World) : ∀ r, Decidable (e.DuringRelease f w r)
  | .grow _ => inferInstanceAs (Decidable False)
  | .shrink _ => inferInstanceAs (Decidable (_ ∧ _ ∧ _ ∧ _ ∧ _))

section Operations

variable {e : Engine} {base : Pool} {w w' : World} {f f' : Fault}

/-- Once the rollback has failed, nothing is done any more. -/
theorem refuses_of_failed (h : w.transitionFailed = true) : e.Refuses w := by
  intro f op
  cases op with
  | resize r =>
    cases r with
    | grow requiredPages => simp [Engine.operate, Engine.growRuntimeKv, h, Outcome.bind]
    | shrink targetPages => simp [Engine.operate, Engine.shrinkRuntimeKv, h, Outcome.bind]
  | reserve => simp [Engine.operate, Engine.reservePrefillHeadroom, h]
  | release => simp [Engine.operate, Engine.releasePrefillHeadroom, h]

/-- The pool and the engine agree on how many pages there are. -/
def Engine.Matches (e : Engine) (base : Pool) : Prop := e.numPages = base.logicalNumPages - 1

theorem stop_growTarget (he : e.Matches base) (hw : Fits base w) {requiredPages : Nat}
    (hlt : w.pool.committedPages < min e.numPages (Engine.stepPages w requiredPages)) :
    Stop base (min e.numPages (Engine.stepPages w requiredPages)) := by
  have hstop := hw.pool.stop
  have hmatch : e.numPages = base.logicalNumPages - 1 := he
  refine ⟨hstop.1.trans hlt.le, by omega, ?_⟩
  rcases Nat.le_total e.numPages (Engine.stepPages w requiredPages) with hle | hle
  · exact Or.inr (by omega)
  · rw [Nat.min_eq_right hle]
    unfold Engine.stepPages
    rw [hw.pool.shape.2.1]
    exact Or.inl (Nat.dvd_mul_left _ _)

theorem stop_shrinkTarget (hbase : Fresh base) (he : e.Matches base) (hw : Fits base w)
    {targetPages : Nat} (hlt : e.shrinkTarget w targetPages < w.pool.committedPages) :
    Stop base (e.shrinkTarget w targetPages) := by
  have hstop := hw.pool.stop
  have hmatch : e.numPages = base.logicalNumPages - 1 := he
  have hpages := hbase.pages
  unfold Engine.shrinkTarget Engine.stepPages at *
  rw [hw.pool.shape.2.1] at *
  have hlast := hstop.2.1
  generalize hmultiple : (targetPages + base.growStepPages - 1) / base.growStepPages *
    base.growStepPages = multiple at *
  refine ⟨by omega, by omega, Or.inl ?_⟩
  rcases Nat.le_total (min e.numPages base.growStepPages) multiple with hle | hle
  · rw [Nat.max_eq_right hle, ← hmultiple]
    exact Nat.dvd_mul_left _ _
  · exact ⟨1, by omega⟩

/-! ## What the operations leave -/

theorem plan_eq (e : Engine) (f : Fault) (w : World) (targetPages : Nat) :
    e.plan f w targetPages = .raised w ∨
      e.plan f w targetPages = .done f w () ∧ e.planRefuses w targetPages = false := by
  unfold Engine.plan
  split
  · exact Or.inl rfl
  · rename_i h
    exact Or.inr ⟨rfl, by simpa using (not_or.mp h).2⟩

/-- The levels say nothing about the memory. -/
theorem Fits.levels (hw : Fits base w) (decode : Bool) (level pending : Nat) :
    Fits base { w with decodeLevel := decode, prefillLevel := level, pendingPrefillLevel := pending } :=
  ⟨hw.pool, hw.arena, hw.config⟩

theorem growArena_spec (hbase : Fresh base) (hw : Fits base w) {u : Nat} (hu : Stop base u)
    (hlt : w.pool.committedPages < u) :
    (∀ w', e.growArena f w u = .raised w' → w' = w ∨ w'.transitionFailed = true) ∧
      ∀ f' w' r, e.growArena f w u = .done f' w' r → Fits base w' := by
  obtain ⟨hraised, hdone⟩ := growTransaction_spec (f := f) e hbase hw hu hlt
  unfold Engine.growArena
  cases hrun : e.growTransaction f w u with
  | raised w₁ =>
    refine ⟨fun w' h => ?_, fun f' w' r h => absurd h (by simp [Outcome.except, Outcome.bind])⟩
    rw [Outcome.except, Outcome.bind, Outcome.raised.injEq] at h
    exact h ▸ rollback_undoes hbase hw (hraised w₁ hrun)
  | done g w₁ r₁ =>
    refine ⟨fun w' h => absurd h (by simp [Outcome.except, Outcome.bind]), fun f' w' r h => ?_⟩
    rw [Outcome.except, Outcome.bind, Outcome.done.injEq] at h
    obtain ⟨-, rfl, -⟩ := h
    exact (hdone g w₁ r₁ hrun).1.levels false 0 w₁.pendingPrefillLevel

/-- **A growth that fails leaves the world as it was, or failed.** -/
theorem growRuntimeKv_spec (hbase : Fresh base) (he : e.Matches base) (hw : Fits base w)
    (requiredPages : Nat) :
    (∀ w', e.growRuntimeKv f w requiredPages = .raised w' → w' = w ∨ w'.transitionFailed = true) ∧
      ∀ f' w' r, e.growRuntimeKv f w requiredPages = .done f' w' r → Fits base w' := by
  have hraise : ∀ w', (Outcome.raised w : Outcome (Nat × Nat)) = .raised w' →
      w' = w ∨ w'.transitionFailed = true := by
    intro w' h
    rw [Outcome.raised.injEq] at h
    exact Or.inl h.symm
  have hkeep : ∀ r₀ f' w' r, (Outcome.done f w r₀ : Outcome (Nat × Nat)) = .done f' w' r →
      Fits base w' := by
    intro r₀ f' w' r h
    rw [Outcome.done.injEq] at h
    exact h.2.1 ▸ hw
  unfold Engine.growRuntimeKv
  simp only
  split
  · exact ⟨hraise, fun f' w' r h => absurd h (by simp)⟩
  split
  · exact ⟨fun w' h => absurd h (by simp), hkeep _⟩
  split
  · exact ⟨fun w' h => absurd h (by simp), hkeep _⟩
  rename_i hlt
  rw [not_le] at hlt
  rcases plan_eq e f w (min e.numPages (Engine.stepPages w requiredPages)) with hp | ⟨hp, -⟩
  · rw [hp]
    exact ⟨hraise, fun f' w' r h => absurd h (by simp [Outcome.except, Outcome.bind])⟩
  rw [hp, Outcome.bind]
  rcases syncAllRanks_eq e f w with hs | ⟨g, hs⟩
  · rw [hs]
    exact ⟨hraise, fun f' w' r h => absurd h (by simp [Outcome.except, Outcome.bind])⟩
  · rw [hs, Outcome.bind]
    exact growArena_spec hbase hw (stop_growTarget he hw hlt) hlt

theorem shrinkArena_spec (hbase : Fresh base) (hw : Fits base w) {u : Nat} (hu : Stop base u)
    (hlt : u < w.pool.committedPages) {g : Fault}
    (hspend : f.spend (uncommitCalls u w.pool.growthSegments) = some g) :
    (∀ w', e.shrinkArena f w u = .raised w' → w' = w ∨ w'.transitionFailed = true) ∧
      ∀ f' w' r, e.shrinkArena f w u = .done f' w' r → Fits base w' := by
  obtain ⟨hraised, hdone⟩ := shrinkTransaction_spec e hbase hw hu hlt hspend
  unfold Engine.shrinkArena
  cases hrun : e.shrinkTransaction f w u with
  | raised w₁ =>
    refine ⟨fun w' h => ?_, fun f' w' r h => absurd h (by simp [Outcome.except, Outcome.bind])⟩
    rw [Outcome.except, Outcome.bind, Outcome.raised.injEq] at h
    exact h ▸ rollback_undoes hbase hw (hraised w₁ hrun)
  | done k w₁ r₁ =>
    refine ⟨fun w' h => absurd h (by simp [Outcome.except, Outcome.bind]), fun f' w' r h => ?_⟩
    rw [Outcome.except, Outcome.bind, Outcome.done.injEq] at h
    obtain ⟨-, rfl, -⟩ := h
    exact (hdone k w₁ r₁ hrun).1

/-- A release that fails does not say so in the pages it records. -/
theorem decommitPages_raised_pages (hbase : Fresh base) {p q : Pool} (hp : Grown base p) {u : Nat}
    (hu : Stop base u) (hlt : u < p.committedPages) (h : p.decommitPages f u = .raised q) :
    q.committedPages = p.committedPages := by
  rw [hp.decommitPages_eq hbase hu hlt] at h
  have hpages : popSegments u f p p.growthSegments = _ :=
    popSegments_pages (c := p.committedPages) f p
  rw [h] at hpages
  simp only [Attempt.raised.injEq] at hpages
  rw [hpages]

/-- The rollback sees nothing to undo, and the segments that were popped are lost. -/
theorem shrinkArena_lost (hbase : Fresh base) (hw : Fits base w) {u : Nat} (hu : Stop base u)
    (hlt : u < w.pool.committedPages)
    (hspend : f.spend (uncommitCalls u w.pool.growthSegments) = none) :
    ∃ q : Pool, e.shrinkArena f w u = .raised { w with pool := q } ∧
      q.committedPages = w.pool.committedPages ∧
      q.growthSegments.length < w.pool.growthSegments.length := by
  obtain ⟨q, hq, hless⟩ := (hw.pool.decommitPages_spend hbase hu hlt f).1 hspend
  have hpages := decommitPages_raised_pages hbase hw.pool hu hlt hq
  refine ⟨q, ?_, hpages, hless⟩
  unfold Engine.shrinkArena Engine.shrinkTransaction World.decommitPages
  simp only [hq, Outcome.bind, Outcome.except]
  unfold Engine.rollback
  simp only [hpages, lt_irrefl, if_false, ne_eq, not_true_eq_false, Outcome.bind]
  rw [hw.config]

theorem spend_of_onSyncAllRanks (h : f.onSyncAllRanks = some f') (n : Nat) :
    f'.spend n = none ↔ f.spend n = none := by
  cases f with
  | syncAllRanks calls =>
    cases calls with
    | zero => cases h
    | succ calls =>
      obtain rfl := Option.some.inj h
      simp [Fault.spend]
  | _ =>
    obtain rfl := Option.some.inj h
    exact Iff.rfl

/-- A shrink is refused, or there is nothing to do, or its transaction runs. -/
theorem shrinkRuntimeKv_cases (e : Engine) (f : Fault) (w : World) (targetPages : Nat) :
    (e.shrinkRuntimeKv f w targetPages = .raised w ∨
        ∃ r, e.shrinkRuntimeKv f w targetPages = .done f w r) ∧
      ¬ e.DuringRelease f w (.shrink targetPages) ∨
      w.transitionFailed = false ∧ targetPages < w.pool.committedPages ∧
        e.shrinkTarget w targetPages < w.pool.committedPages ∧
        e.planRefuses w (e.shrinkTarget w targetPages) = false ∧
        ∃ f', (∀ n, f'.spend n = none ↔ f.spend n = none) ∧
          e.shrinkRuntimeKv f w targetPages =
            e.shrinkArena f' w (e.shrinkTarget w targetPages) := by
  unfold Engine.shrinkRuntimeKv Engine.DuringRelease
  simp only
  by_cases hfailed : w.transitionFailed = true
  · rw [if_pos hfailed]
    exact Or.inl ⟨Or.inl rfl, fun h => by simp [hfailed] at h⟩
  rw [if_neg hfailed]
  split
  · rename_i hle
    exact Or.inl ⟨Or.inr ⟨_, rfl⟩, fun h => absurd h.2.1 (not_lt.mpr hle)⟩
  split
  · rename_i hle
    exact Or.inl ⟨Or.inr ⟨_, rfl⟩, fun h => absurd h.2.2.1 (not_lt.mpr hle)⟩
  rename_i hlt hlt'
  unfold Engine.plan
  split
  · rename_i hplan
    refine Or.inl ⟨Or.inl rfl, fun h => ?_⟩
    rcases hplan with rfl | hplan
    · exact absurd h.2.2.2.2 (by simp [Fault.spend])
    · exact absurd (hplan.symm.trans h.2.2.2.1) (by simp)
  rename_i hplan
  rw [Outcome.bind]
  have hruns := (not_or.mp hplan).2
  unfold Engine.syncAllRanks
  split
  · -- the ranks may fail to agree, which is no fault of a release
    cases hsync : f.onSyncAllRanks with
    | none =>
      refine Or.inl ⟨Or.inl rfl, fun h => ?_⟩
      have hf : f = .syncAllRanks 0 := by
        unfold Fault.onSyncAllRanks at hsync
        split at hsync <;> simp_all
      exact absurd h.2.2.2.2 (by simp [hf, Fault.spend])
    | some g =>
      exact Or.inr ⟨by simpa using hfailed, not_le.mp hlt, not_le.mp hlt', by simpa using hruns, g,
        spend_of_onSyncAllRanks hsync, rfl⟩
  · exact Or.inr ⟨by simpa using hfailed, not_le.mp hlt, not_le.mp hlt', by simpa using hruns, f,
      fun _ => Iff.rfl, rfl⟩

/-- **A shrink that fails leaves the world as it was, or failed**, unless the fault comes within
the release. -/
theorem shrinkRuntimeKv_spec (hbase : Fresh base) (he : e.Matches base) (hw : Fits base w)
    {targetPages : Nat} (hok : ¬ e.DuringRelease f w (.shrink targetPages)) :
    (∀ w', e.shrinkRuntimeKv f w targetPages = .raised w' → w' = w ∨ w'.transitionFailed = true) ∧
      ∀ f' w' r, e.shrinkRuntimeKv f w targetPages = .done f' w' r → Fits base w' := by
  rcases shrinkRuntimeKv_cases e f w targetPages with
    ⟨hrun | ⟨r₀, hrun⟩, -⟩ | ⟨hfailed, hlt, hlt', hplan, g, hg, hrun⟩
  · rw [hrun]
    refine ⟨fun w' h => Or.inl (Outcome.raised.inj h).symm, fun f' w' r h => absurd h (by simp)⟩
  · rw [hrun]
    refine ⟨fun w' h => absurd h (by simp), fun f' w' r h => ?_⟩
    rw [Outcome.done.injEq] at h
    exact h.2.1 ▸ hw
  · rw [hrun]
    cases hspend : g.spend (uncommitCalls (e.shrinkTarget w targetPages) w.pool.growthSegments) with
    | none => exact absurd ⟨hfailed, hlt, hlt', hplan, (hg _).mp hspend⟩ hok
    | some k => exact shrinkArena_spec hbase hw (stop_shrinkTarget hbase he hw hlt') hlt' hspend

/-- Where the fault does come there, the world is neither as it was nor failed. -/
theorem shrinkRuntimeKv_lost (hbase : Fresh base) (he : e.Matches base) (hw : Fits base w)
    {targetPages : Nat} (h : e.DuringRelease f w (.shrink targetPages)) :
    ∃ w', e.shrinkRuntimeKv f w targetPages = .raised w' ∧ w'.transitionFailed = false ∧
      w'.pool.growthSegments.length < w.pool.growthSegments.length := by
  rcases shrinkRuntimeKv_cases e f w targetPages with ⟨-, hnot⟩ | ⟨hfailed, -, hlt, -, g, hg, hrun⟩
  · exact absurd h hnot
  · obtain ⟨q, hq, -, hless⟩ := shrinkArena_lost (e := e) hbase hw
      (stop_shrinkTarget hbase he hw hlt) hlt ((hg _).mpr h.2.2.2.2)
    exact ⟨_, hrun.trans hq, hfailed, hless⟩

/-! ## Reserve and release -/

/-- An arena of the world at some slots, of which the configuration need not know yet. -/
structure Lowered (old w : World) (n : Nat) : Prop where
  boundary : n ∈ old.arena.boundaries
  le : n ≤ old.arena.cacheSize
  eq : w = { old with arena := old.arena.sized n }

theorem Lowered.resize (hw : Fits base w) {w₁ w₂ : World} {n m bytes : Nat} (h : Lowered w w₁ n)
    (hm : m ≤ w.arena.cacheSize) (hset : w₁.setUsableSlots f m = .done f' w₂ bytes) : Lowered w w₂ m := by
  have hsound : w₁.arena.Sound := by
    rw [h.eq]
    exact hw.arena.sized h.boundary
  obtain ⟨rfl, hboundary⟩ := sized_of_setUsableSlots hsound hset
  rw [h.eq] at hboundary ⊢
  exact ⟨hboundary, hm, by simp only [Arena.sized_sized]⟩

theorem reserveTopUp_done (hw : Fits base w) (live target : Int) (rounds : Nat) :
    ∀ (f : Fault) (w₁ : World) (n released : Nat), Lowered w w₁ n → ∀ f' w' n',
      Engine.reserveTopUp w.arena.floorSlots live target rounds f w₁ n released = .done f' w' n' →
        Lowered w w' n' := by
  induction rounds with
  | zero =>
    intro f w₁ n released h f' w' n' hrun
    rw [Engine.reserveTopUp, Outcome.done.injEq] at hrun
    obtain ⟨-, rfl, rfl⟩ := hrun
    exact h
  | succ rounds ih =>
    intro f w₁ n released h f' w' n' hrun
    unfold Engine.reserveTopUp at hrun
    simp only at hrun
    split at hrun
    · rename_i hc
      have hle := (stepDown_between (a := w₁.arena) hc.2).2
      cases hset : w₁.setUsableSlots f (w₁.arena.stepDown n w.arena.floorSlots) with
      | raised w₂ =>
        rw [hset] at hrun
        cases hrun
      | done g w₂ bytes =>
        rw [hset] at hrun
        exact ih g w₂ _ _ (h.resize hw (hle.trans h.le) hset) f' w' n' hrun
    · rw [Outcome.done.injEq] at hrun
      obtain ⟨-, rfl, rfl⟩ := hrun
      exact h

theorem reserveShrink_done (hw : Fits base w) (hfloor : w.arena.floorSlots ≤ w.arena.cacheSize)
    {live target : Int} (hlt : live < target)
    (h : e.reserveShrink f w live target = .done f' w' ()) : Fits base w' := by
  unfold Engine.reserveShrink at h
  simp only at h
  -- more is asked for than was given up so far
  have hdown : w.arena.usableForTargetFreeBytes (target - live +
      ((w.arena.transitionBytes (w.arena.boundaries.getLastD 0) : Int) -
        w.arena.transitionBytes w.arena.cacheSize)) ≤ w.arena.cacheSize :=
    Arena.usableForTargetFreeBytes_le (by omega)
  generalize htarget : max (w.arena.usableForTargetFreeBytes (target - live +
    ((w.arena.transitionBytes (w.arena.boundaries.getLastD 0) : Int) -
      w.arena.transitionBytes w.arena.cacheSize))) w.arena.floorSlots = n at h
  have hself : Lowered w w w.arena.cacheSize :=
    ⟨hw.arena.boundary, le_rfl, by rw [hw.arena.mapped]⟩
  have hlast : ∀ (g : Fault) (w₁ : World) (released : Nat), Lowered w w₁ n →
      ((Engine.reserveTopUp w.arena.floorSlots live target n g w₁ n released).bind fun f w n =>
        e.syncAllRanks f { w with moeCacheSize := n }) = .done f' w' () → Fits base w' := by
    intro g w₁ released hlow hrun
    cases htop : Engine.reserveTopUp w.arena.floorSlots live target n g w₁ n released with
    | raised w₂ =>
      rw [htop] at hrun
      cases hrun
    | done k w₂ m =>
      obtain ⟨hboundary, -, rfl⟩ :=
        reserveTopUp_done hw live target n g w₁ n released hlow k w₂ m htop
      rw [htop, Outcome.bind] at hrun
      rcases syncAllRanks_eq e k
        { w with arena := w.arena.sized m, moeCacheSize := m } with hs | ⟨_, hs⟩
      · rw [hs] at hrun
        cases hrun
      · rw [hs, Outcome.done.injEq] at hrun
        obtain ⟨-, rfl, -⟩ := hrun
        exact ⟨hw.pool, hw.arena.sized hboundary, rfl⟩
  split at h
  · rename_i hless
    cases hset : w.setUsableSlots f n with
    | raised w₁ =>
      rw [hset] at h
      cases h
    | done g w₁ bytes =>
      rw [hset] at h
      exact hlast g w₁ bytes (hself.resize hw hless.le hset) h
  · rename_i hge
    have heq : n = w.arena.cacheSize := by omega
    exact hlast f w 0 (heq ▸ hself) h

theorem reservePrefillHeadroom_done (hw : Fits base w)
    (hfloor : w.arena.floorSlots ≤ w.arena.cacheSize)
    (h : e.reservePrefillHeadroom f w = .done f' w' ()) : Fits base w' := by
  unfold Engine.reservePrefillHeadroom at h
  simp only at h
  have hcleared := hw.levels w.decodeLevel w.prefillLevel 0
  generalize e.prefillFreeTargetBytes
    (if w.pendingPrefillLevel = 0 then none else some w.pendingPrefillLevel) = target at h
  split at h
  · cases h
  split at h
  · rename_i hless
    cases hshrink : e.reserveShrink f { w with pendingPrefillLevel := 0 }
        (e.freeMemory .first { w with pendingPrefillLevel := 0 } : Int) target with
    | raised w₁ =>
      rw [hshrink] at h
      cases h
    | done g w₁ r =>
      rw [hshrink, Outcome.bind, Outcome.done.injEq] at h
      obtain ⟨-, rfl, -⟩ := h
      have hfits := reserveShrink_done hcleared hfloor (by exact_mod_cast hless) hshrink
      exact hfits.levels false _ w₁.pendingPrefillLevel
  · rw [Outcome.bind, Outcome.done.injEq] at h
    obtain ⟨-, rfl, -⟩ := h
    exact hw.levels false _ 0

theorem releasePrefillHeadroom_done (hw : Fits base w)
    (h : e.releasePrefillHeadroom f w = .done f' w' ()) : Fits base w' := by
  unfold Engine.releasePrefillHeadroom at h
  simp only at h
  generalize Engine.releaseTarget w ((e.freeMemory .first w : Int) - e.decodeFreeTargetBytes) = n
    at h
  split at h
  · cases h
  split at h
  · cases hset : w.setUsableSlots f n with
    | raised w₁ =>
      rw [hset] at h
      cases h
    | done g w₁ bytes =>
      obtain ⟨rfl, hboundary⟩ := sized_of_setUsableSlots hw.arena hset
      rw [hset] at h
      simp only [Outcome.bind] at h
      rcases syncAllRanks_eq e g { w with arena := w.arena.sized n, moeCacheSize := n } with
        hs | ⟨_, hs⟩
      · rw [hs] at h
        cases h
      · rw [hs, Outcome.done.injEq] at h
        obtain ⟨-, rfl, -⟩ := h
        exact ⟨hw.pool, hw.arena.sized hboundary, rfl⟩
  · rw [Outcome.bind, Outcome.done.injEq] at h
    obtain ⟨-, rfl, -⟩ := h
    exact hw.levels true 0 w.pendingPrefillLevel

/-! ## Runs -/

/-- Where a run goes on: a growth or a shrink may fail on the way. -/
def Engine.step (e : Engine) (w : World) (s : Fault × Op) : Option World :=
  match e.operate s.1 w s.2 with
  | .done _ w' _ => some w'
  | .raised w' =>
    match s.2 with
    | .resize _ => some w'
    | _ => none

/-- No fault within a release, and no reserve by an arena that is below its own floor. -/
def Engine.Steady (e : Engine) (w : World) (s : Fault × Op) : Prop :=
  match s.2 with
  | .resize r => ¬ e.DuringRelease s.1 w r
  | .reserve => w.arena.floorSlots ≤ w.arena.cacheSize
  | .release => True

/-- What the engine starts up with: the initial pages, and an arena that is mapped as its slots
say. -/
structure Engine.Startup (e : Engine) (w : World) : Prop where
  pool : Fresh w.pool
  arena : w.arena.Sound
  config : w.moeCacheSize = w.arena.cacheSize
  pages : e.Matches w.pool

theorem Engine.Startup.fits (h : e.Startup w) : Fits w.pool w :=
  ⟨h.pool.grown, h.arena, h.config⟩

/-- **A growth or shrink that fails leaves the world as it was, or failed.** -/
theorem resize_spec (hbase : Fresh base) (he : e.Matches base) (hw : Fits base w) {r : Resize}
    (hok : ¬ e.DuringRelease f w r) :
    (∀ w', e.operate f w (.resize r) = .raised w' → w' = w ∨ w'.transitionFailed = true) ∧
      ∀ f' w' u, e.operate f w (.resize r) = .done f' w' u → Fits base w' := by
  cases r with
  | grow requiredPages =>
    obtain ⟨hraised, hdone⟩ := growRuntimeKv_spec (f := f) hbase he hw requiredPages
    cases hrun : e.growRuntimeKv f w requiredPages with
    | raised w₁ => simpa [Engine.operate, hrun, Outcome.bind] using hraised w₁ hrun
    | done g w₁ r₁ => simpa [Engine.operate, hrun, Outcome.bind] using hdone g w₁ r₁ hrun
  | shrink targetPages =>
    obtain ⟨hraised, hdone⟩ := shrinkRuntimeKv_spec hbase he hw hok
    cases hrun : e.shrinkRuntimeKv f w targetPages with
    | raised w₁ => simpa [Engine.operate, hrun, Outcome.bind] using hraised w₁ hrun
    | done g w₁ r₁ => simpa [Engine.operate, hrun, Outcome.bind] using hdone g w₁ r₁ hrun

theorem step_fits (hbase : Fresh base) (he : e.Matches base) {s : Fault × Op}
    (hw : w.transitionFailed = true ∨ Fits base w) (hok : e.Steady w s)
    (hstep : e.step w s = some w') : w'.transitionFailed = true ∨ Fits base w' := by
  obtain ⟨f, op⟩ := s
  unfold Engine.step at hstep
  rcases hw with hfailed | hw
  · -- nothing is done any more
    rw [refuses_of_failed (e := e) hfailed f op] at hstep
    cases op with
    | resize r => exact Or.inl (Option.some.inj hstep ▸ hfailed)
    | reserve => cases hstep
    | release => cases hstep
  cases op with
  | resize r =>
    obtain ⟨hraised, hdone⟩ := resize_spec hbase he hw hok
    cases hrun : e.operate f w (.resize r) with
    | raised w₁ =>
      simp only [hrun, Option.some.injEq] at hstep
      rcases hraised w₁ hrun with heq | hfailed
      · exact Or.inr (hstep ▸ heq ▸ hw)
      · exact Or.inl (hstep ▸ hfailed)
    | done g w₁ u =>
      simp only [hrun, Option.some.injEq] at hstep
      exact Or.inr (hstep ▸ hdone g w₁ u hrun)
  | reserve =>
    cases hrun : e.operate f w .reserve with
    | raised w₁ => simp [hrun] at hstep
    | done g w₁ u =>
      simp only [hrun, Option.some.injEq] at hstep
      exact Or.inr (hstep ▸ reservePrefillHeadroom_done hw hok hrun)
  | release =>
    cases hrun : e.operate f w .release with
    | raised w₁ => simp [hrun] at hstep
    | done g w₁ u =>
      simp only [hrun, Option.some.injEq] at hstep
      exact Or.inr (hstep ▸ releasePrefillHeadroom_done hw hrun)

theorem reach_fits {w₀ : World} (h₀ : e.Startup w₀) (hr : Reach e.step e.Steady w₀ w) :
    w.transitionFailed = true ∨ Fits w₀.pool w :=
  hr.invariant (P := fun w => w.transitionFailed = true ∨ Fits w₀.pool w) (Or.inr h₀.fits)
    fun _ _ _ => step_fits h₀.pool h₀.pages

end Operations

/-- **After a growth or shrink that fails, everything is as it was and fits together, or everything
is refused from there on**, unless the fault comes within the release of a shrink. -/
theorem failed_transition_iff {e : Engine} {w₀ w : World} (h₀ : e.Startup w₀)
    (hr : Reach e.step e.Steady w₀ w) (f : Fault) (r : Resize) :
    (∀ w', e.operate f w (.resize r) = .raised w' →
        w' = w ∧ Fits w₀.pool w' ∨ e.Refuses w') ↔ ¬ e.DuringRelease f w r := by
  constructor
  · intro h hduring
    have hw : Fits w₀.pool w := by
      rcases reach_fits h₀ hr with hfailed | hw
      · cases r with
        | grow requiredPages => exact absurd hduring id
        | shrink targetPages => exact absurd (hfailed.symm.trans hduring.1) (by simp)
      · exact hw
    cases r with
    | grow requiredPages => exact hduring
    | shrink targetPages =>
      obtain ⟨w', hraised, hfailed, hless⟩ := shrinkRuntimeKv_lost h₀.pool h₀.pages hw hduring
      have hrun : e.operate f w (.resize (.shrink targetPages)) = .raised w' := by
        simp only [Engine.operate, hraised, Outcome.bind]
      rcases h w' hrun with ⟨rfl, -⟩ | hrefuses
      · exact absurd hless (lt_irrefl _)
      · -- a growth to no pages is not refused
        have hgrow := hrefuses .none (.resize (.grow 0))
        simp [Engine.operate, Engine.growRuntimeKv, hfailed, Outcome.bind] at hgrow
  · intro hok w' hraised
    rcases reach_fits h₀ hr with hfailed | hw
    · have hrefuses := refuses_of_failed (e := e) hfailed
      rw [hrefuses f (.resize r), Outcome.raised.injEq] at hraised
      exact Or.inr (hraised ▸ hrefuses)
    · rcases (resize_spec h₀.pool h₀.pages hw hok).1 w' hraised with rfl | hfailed
      · exact Or.inl ⟨rfl, hw⟩
      · exact Or.inr (refuses_of_failed hfailed)

/-! ## A release that stops in the middle -/

/-- Eight pages in two steps. -/
def eightPages : Engine where
  numPages := 8
  prefillTransientBytes := 0
  growableMoeCeiling := some 8
  freeMemory := fun _ _ => 2 ^ 30
  planRefuses := fun _ _ => false

/-- Four of them, in a tensor of two slabs, and an arena of eight slots, all of them mapped. -/
def fourPages : World where
  pool :=
    { entries := [{ vmm := ⟨16, 256, {(0, 48), (128, 48)}⟩, slabs := 2, rowBytes := 8,
                    slabBytes := 128, mapped := 48 }]
      logicalNumPages := 9
      growStepPages := 4
      initialCommittedPages := 4
      committedPages := 4
      growthSegments := [] }
  arena :=
    { layouts := [(8, 2)]
      banks := [{ vmm := ⟨16, 128, {(0, 32), (32, 32), (64, 32), (96, 32)}⟩, cls := ⟨0, 8, 2⟩,
                  rowBytes := 16 }]
      numExperts := 2
      prefillOverlap := false
      minGpuSlots := 0
      cacheSize := 8 }
  moeCacheSize := 8

theorem fourPages_startup : eightPages.Startup fourPages where
  pool := by constructor <;> decide
  arena := by constructor <;> decide +kernel
  config := rfl
  pages := rfl

/-- After a growth by one step. -/
def grownPages : World :=
  (eightPages.step fourPages (.none, .resize (.grow 5))).getD fourPages

theorem grownPages_reached : Reach eightPages.step eightPages.Steady fourPages grownPages :=
  .step .refl (a := (.none, .resize (.grow 5))) id (by decide +kernel)

/-- A growth whose first mapping fails is undone; a shrink whose first unmapping fails is not. -/
theorem grownPages_failed_transition :
    (∀ w', eightPages.operate (.ranges 0) fourPages (.resize (.grow 5)) = .raised w' →
        w' = fourPages ∧ Fits fourPages.pool w' ∨ eightPages.Refuses w') ∧
      ¬ ∀ w', eightPages.operate (.ranges 0) grownPages (.resize (.shrink 4)) = .raised w' →
        w' = grownPages ∧ Fits fourPages.pool w' ∨ eightPages.Refuses w' :=
  ⟨(failed_transition_iff fourPages_startup .refl (.ranges 0) (.grow 5)).mpr (by decide),
    fun h => (failed_transition_iff fourPages_startup grownPages_reached (.ranges 0)
      (.shrink 4)).mp h (by decide +kernel)⟩

/-- The segment is lost while its pages are still mapped and recorded, and the engine goes on. -/
theorem grownPages_half_released :
    let w' := { grownPages with pool := { grownPages.pool with growthSegments := [] } }
    eightPages.operate (.ranges 0) grownPages (.resize (.shrink 4)) = .raised w' ∧
      w' ≠ grownPages ∧ w'.pool.committedPages = 8 ∧ ¬ eightPages.Refuses w' := by
  intro w'
  refine ⟨by decide +kernel, by decide +kernel, by decide +kernel, fun h => ?_⟩
  have hgrow := h .none (.resize (.grow 0))
  exact absurd hgrow (by decide +kernel)

end FreeToken.Growable
