import FreeToken.Growable.Controller

/-!
# A transition that fails

Main results:

* `rollback_undoes`: from each state that a transaction can be left in, the rollback gives back
  the world before it, or marks the engine as failed; one state is not among them, a release of
  pages that stopped in the middle.
* `growTransaction_spec`, `shrinkTransaction_spec`: the two transactions leave such a state, a
  shrink once its pages are released.
-/

namespace FreeToken.Growable

open Pool

/-! ## What a transaction leaves -/

/-- The world in which the pool has grown and the arena is as its slots say. -/
structure Fits (base : Pool) (w : World) : Prop where
  pool : Grown base w.pool
  arena : w.arena.Sound
  config : w.moeCacheSize = w.arena.cacheSize

/-- Apart from the memory, nothing has changed. -/
structure Moved (old w : World) : Prop where
  failed : w.transitionFailed = old.transitionFailed
  decode : w.decodeLevel = old.decodeLevel
  level : w.prefillLevel = old.prefillLevel
  pending : w.pendingPrefillLevel = old.pendingPrefillLevel

theorem Moved.refl (w : World) : Moved w w := ⟨rfl, rfl, rfl, rfl⟩

theorem Moved.eq {old w : World} (h : Moved old w) (hp : w.pool = old.pool)
    (ha : w.arena = old.arena) (hc : w.moeCacheSize = old.moeCacheSize) : w = old := by
  obtain ⟨hf, hd, hl, hn⟩ := h
  cases w
  cases old
  simp_all

/-- The pool has grown from the old one, or is the pool at fewer pages. -/
def PoolBack (base p p' : Pool) : Prop :=
  (∃ bs, (∀ b ∈ bs, p.committedPages < b) ∧ commitRungs .none p bs = .done .none p') ∨
    Grown base p' ∧ p'.committedPages < p.committedPages

/-- The arena was resized, or torn on the way down. -/
def ArenaBack (a a' : Arena) : Prop :=
  (∃ n ∈ a.boundaries, a' = a.sized n) ∨
    ∃ m ∈ a.boundaries, m ≤ a.cacheSize ∧ (a.sized m).Torn a'

/-- What the rollback can cope with. -/
structure Undoable (base : Pool) (old w : World) : Prop where
  moved : Moved old w
  pool : PoolBack base old.pool w.pool
  arena : ArenaBack old.arena w.arena

theorem PoolBack.refl (base p : Pool) : PoolBack base p p :=
  Or.inl ⟨[], by simp, by rw [commitRungs]⟩

theorem ArenaBack.refl {a : Arena} (h : a.Sound) : ArenaBack a a :=
  Or.inl ⟨a.cacheSize, h.boundary, h.mapped.symm⟩

/-! ## The rollback -/

section Rollback

variable {base : Pool} {old w : World}

/-- No growth, no pages above. -/
theorem PoolBack.same {p p' : Pool} (h : PoolBack base p p')
    (hge : p.committedPages ≤ p'.committedPages) (hle : ¬ p.committedPages < p'.committedPages) :
    p' = p := by
  rcases h with ⟨bs, hbs, hrun⟩ | ⟨-, hlt⟩
  · cases bs with
    | nil =>
      rw [commitRungs, Attempt.done.injEq] at hrun
      exact hrun.2.symm
    | cons b bs =>
      have hpages := (commitRungs_shape hrun).2
      rw [List.getLastD_cons] at hpages
      have hmem : p'.committedPages ∈ b :: bs := hpages ▸ List.getLastD_mem_cons
      exact absurd (hbs _ hmem) hle
  · omega

/-- First the pages that were committed are given back. -/
theorem rollback_pages (hbase : Fresh base) (hold : Fits base old) (h : Undoable base old w) :
    let given : Outcome Unit :=
      if old.pool.committedPages < w.pool.committedPages then
        w.decommitPages .none old.pool.committedPages
      else .done .none w ()
    (∃ w', given = .raised w') ∨
      ∃ f w', given = .done f w' () ∧ Moved old w' ∧ w'.arena = w.arena ∧
        (w'.pool = old.pool ∨ Grown base w'.pool ∧ w'.pool.committedPages < old.pool.committedPages) := by
  simp only
  split
  · rename_i hlt
    unfold World.decommitPages
    cases hback : w.pool.decommitPages .none old.pool.committedPages with
    | raised p => exact Or.inl ⟨_, rfl⟩
    | done f p =>
      refine Or.inr ⟨f, _, rfl, ⟨h.moved.failed, h.moved.decode, h.moved.level, h.moved.pending⟩,
        rfl, Or.inl ?_⟩
      rcases h.pool with ⟨bs, hbs, hrun⟩ | ⟨-, hless⟩
      · exact hold.pool.decommit_back hbase hbs hrun hback
      · omega
  · rename_i hge
    refine Or.inr ⟨.none, w, rfl, h.moved, rfl, ?_⟩
    rcases Nat.lt_or_ge w.pool.committedPages old.pool.committedPages with hless | hle
    · rcases h.pool with ⟨bs, hbs, hrun⟩ | hgrown
      · have hpages := (commitRungs_shape hrun).2
        have hmem : w.pool.committedPages ∈ old.pool.committedPages :: bs :=
          hpages ▸ List.getLastD_mem_cons
        rcases List.mem_cons.mp hmem with heq | hmem
        · omega
        · have := hbs _ hmem
          omega
      · exact Or.inr hgrown
    · exact Or.inl (h.pool.same hle hge)

/-- Then the arena gets its slots back. A torn one cannot. -/
theorem rollback_slots (hold : Fits base old) (hm : Moved old w)
    (ha : ArenaBack old.arena w.arena) (f : Fault) :
    let given : World :=
      { w with arena := { w.arena with prefillOverlap := old.arena.prefillOverlap } }
    let resized : Outcome Unit :=
      if given.arena.cacheSize ≠ old.arena.cacheSize then
        (given.setUsableSlots f old.arena.cacheSize).bind fun f w _ => .done f w ()
      else .done f given ()
    (∃ w', resized = .raised w') ∨
      ∃ f' w', resized = .done f' w' () ∧ Moved old w' ∧ w'.arena = old.arena ∧
        w'.pool = w.pool := by
  simp only
  have hmoved : ∀ a, Moved old { w with arena := a } :=
    fun a => ⟨hm.failed, hm.decode, hm.level, hm.pending⟩
  rcases ha with ⟨n, hn, hsized⟩ | ⟨m, hm', hle, htorn⟩
  · have hsame : { w.arena with prefillOverlap := old.arena.prefillOverlap } = w.arena := by
      rw [hsized]
      rfl
    rw [hsame]
    split
    · unfold World.setUsableSlots
      have hsound : w.arena.Sound := hsized ▸ hold.arena.sized hn
      cases hset : w.arena.setUsableSlots f old.arena.cacheSize with
      | raised r => exact Or.inl ⟨_, rfl⟩
      | done f' r =>
        refine Or.inr ⟨f', _, rfl, hmoved _, ?_, rfl⟩
        have hr : w.arena.setUsableSlots f old.arena.cacheSize = .done f' (r.1, r.2) := hset
        obtain ⟨hback, -⟩ := Arena.sized_of_done hsound hr
        simp only
        rw [hback, hsized, Arena.sized_sized, hold.arena.mapped]
    · rename_i heq
      refine Or.inr ⟨f, _, rfl, hmoved _, ?_, rfl⟩
      rw [not_not, hsized, Arena.sized_cacheSize] at heq
      rw [hsized, heq, hold.arena.mapped]
  · have hless := htorn.less
    rw [Arena.sized_cacheSize] at hless
    rw [if_pos (by omega)]
    unfold World.setUsableSlots
    have htorn' : (old.arena.sized m).Torn
        { w.arena with prefillOverlap := old.arena.prefillOverlap } :=
      ⟨htorn.less, htorn.boundary, htorn.layouts, htorn.left⟩
    simp only
    cases hset : Arena.setUsableSlots
        { w.arena with prefillOverlap := old.arena.prefillOverlap } f old.arena.cacheSize with
    | raised r => exact Or.inl ⟨_, rfl⟩
    | done f' r => exact absurd hset (Arena.torn_stuck (hold.arena.sized hm') htorn' hle)

/-- **The rollback gives back the world before, or marks the engine as failed.** -/
theorem rollback_undoes (hbase : Fresh base) (hold : Fits base old) (h : Undoable base old w) :
    Engine.rollback old w = old ∨ (Engine.rollback old w).transitionFailed = true := by
  unfold Engine.rollback
  simp only
  rcases rollback_pages hbase hold h with ⟨w₁, hw₁⟩ | ⟨f₁, w₁, hw₁, hm₁, ha₁, hp₁⟩
  · rw [hw₁]
    exact Or.inr rfl
  rw [hw₁]
  simp only [Outcome.bind]
  rcases rollback_slots hold hm₁ (ha₁ ▸ h.arena) f₁ with ⟨w₂, hw₂⟩ | ⟨f₂, w₂, hw₂, hm₂, ha₂, hp₂⟩
  · simp only [Outcome.bind] at hw₂
    rw [hw₂]
    exact Or.inr rfl
  simp only [Outcome.bind] at hw₂
  rw [hw₂]
  simp only
  rw [← hp₂] at hp₁
  have hmoved : ∀ p, Moved old { w₂ with pool := p, moeCacheSize := old.arena.cacheSize } :=
    fun p => ⟨hm₂.failed, hm₂.decode, hm₂.level, hm₂.pending⟩
  -- last the pages that were given back are committed again
  split
  · rename_i f₃ w₃ r₃ hlast
    left
    split at hlast
    · rename_i hless
      unfold World.commitPages at hlast
      cases hcommit : w₂.pool.commitPages f₂ old.pool.committedPages with
      | raised p =>
        rw [hcommit] at hlast
        cases hlast
      | done g p =>
        rw [hcommit, Outcome.done.injEq] at hlast
        obtain ⟨-, rfl, -⟩ := hlast
        rcases hp₁ with heq | ⟨hgrown, -⟩
        · rw [heq] at hless
          omega
        · obtain ⟨hp, hpages⟩ := hgrown.commitPages_done hbase hold.pool.stop hless hcommit
          exact (hmoved p).eq (hp.unique hold.pool hpages) ha₂ hold.config.symm
    · rename_i hge
      rw [Outcome.done.injEq] at hlast
      obtain ⟨-, rfl, -⟩ := hlast
      rcases hp₁ with heq | ⟨-, hless⟩
      · exact (hmoved w₂.pool).eq heq ha₂ hold.config.symm
      · exact absurd hless hge
  · exact Or.inr rfl

end Rollback

/-! ## The transactions -/

section Transactions

variable {base : Pool} {old w w' : World} {f f' : Fault} {n m : Nat}

/-- On the way down: only the arena has moved, and not up. -/
structure Shrunk (old w : World) (n : Nat) : Prop where
  moved : Moved old w
  pool : w.pool = old.pool
  boundary : n ∈ old.arena.boundaries
  le : n ≤ old.arena.cacheSize
  arena : w.arena = old.arena.sized n
  config : w.moeCacheSize = n

theorem Fits.shrunk (h : Fits base w) : Shrunk w w w.arena.cacheSize :=
  ⟨Moved.refl w, rfl, h.arena.boundary, le_rfl, h.arena.mapped.symm, h.config⟩

theorem Shrunk.undoable (h : Shrunk old w n) : Undoable base old w :=
  ⟨h.moved, h.pool ▸ PoolBack.refl base _, Or.inl ⟨n, h.boundary, h.arena⟩⟩

/-- What stands at the end of a way down fits again. -/
theorem Shrunk.fits (hold : Fits base old) (h : Shrunk old w n) : Fits base w where
  pool := h.pool ▸ hold.pool
  arena := h.arena ▸ hold.arena.sized h.boundary
  config := by
    rw [h.arena]
    exact h.config

/-- A resize that goes through leaves the arena as its slots say. -/
theorem sized_of_setUsableSlots (ha : w.arena.Sound) {bytes : Nat}
    (hset : w.setUsableSlots f m = .done f' w' bytes) :
    w' = { w with arena := w.arena.sized m } ∧ m ∈ w.arena.boundaries := by
  unfold World.setUsableSlots at hset
  split at hset
  · cases hset
  · rename_i g r hr
    rw [Outcome.done.injEq] at hset
    obtain ⟨-, rfl, -⟩ := hset
    have hr' : w.arena.setUsableSlots f m = .done g (r.1, r.2) := hr
    obtain ⟨hsized, hboundary⟩ := Arena.sized_of_done ha hr'
    exact ⟨by rw [hsized], hboundary⟩

theorem Shrunk.resize (hold : Fits base old) (h : Shrunk old w n) (hm : m ≤ old.arena.cacheSize)
    {bytes : Nat}
    (hset : w.setUsableSlots f m = .done f' w' bytes) :
    Shrunk old { w' with moeCacheSize := m } m := by
  obtain ⟨rfl, hboundary⟩ := sized_of_setUsableSlots (h.arena ▸ hold.arena.sized h.boundary) hset
  have hframe := h.arena
  refine ⟨⟨h.moved.failed, h.moved.decode, h.moved.level, h.moved.pending⟩, h.pool, ?_, hm, ?_, rfl⟩
  · rwa [hframe] at hboundary
  · simp only
    rw [hframe, Arena.sized_sized]

/-- A resize that fails, from an arena that has not moved up. -/
theorem undoable_resize (hold : Fits base old) (hm : Moved old w)
    (hp : PoolBack base old.pool w.pool) (hn : n ∈ old.arena.boundaries)
    (hle : n ≤ old.arena.cacheSize) (ha : w.arena = old.arena.sized n)
    (hset : w.setUsableSlots f m = .raised w') : Undoable base old w' := by
  unfold World.setUsableSlots at hset
  have hsound : w.arena.Sound := ha ▸ hold.arena.sized hn
  split at hset
  · rename_i r hr
    rw [Outcome.raised.injEq] at hset
    subst hset
    have hr' : w.arena.setUsableSlots f m = .raised (r.1, r.2) := hr
    refine ⟨⟨hm.failed, hm.decode, hm.level, hm.pending⟩, hp, ?_⟩
    rcases Arena.torn_of_raised hsound hr' with hsame | ⟨-, htorn⟩
    · exact Or.inl ⟨n, hn, hsame.trans ha⟩
    · rw [ha] at htorn
      exact Or.inr ⟨n, hn, hle, htorn⟩
  · cases hset

theorem Shrunk.undoable_resize (hold : Fits base old) (h : Shrunk old w n)
    (hset : w.setUsableSlots f m = .raised w') : Undoable base old w' :=
  Growable.undoable_resize hold h.moved (h.pool ▸ PoolBack.refl base _) h.boundary h.le h.arena hset

/-- A step down stays between the floor and where it begins. -/
theorem stepDown_between {a : Arena} {target floor : Nat} (h : floor < target) :
    floor ≤ a.stepDown target floor ∧ a.stepDown target floor ≤ target := by
  unfold Arena.stepDown
  split
  · omega
  · cases hmax : (a.boundaries.filter fun b => floor ≤ b ∧ b < target).max? with
    | none => exact ⟨le_rfl, h.le⟩
    | some b =>
      have hb := List.max?_mem hmax
      rw [List.mem_filter] at hb
      simp only [Bool.decide_and, Bool.and_eq_true, decide_eq_true_eq] at hb
      exact ⟨hb.2.1, hb.2.2.le⟩

theorem firstShrink_spec (hold : Fits base old) (live desired : Int) :
    (∀ w', Engine.firstShrink f old old.arena.floorSlots live desired = .raised w' →
        Undoable base old w') ∧
      ∀ f' w' r, Engine.firstShrink f old old.arena.floorSlots live desired = .done f' w' r →
        Shrunk old w' r.1 := by
  have hself := hold.shrunk
  unfold Engine.firstShrink
  simp only
  split
  · split
    · refine ⟨fun w' h => ?_, fun f' w' r h => nomatch h⟩
      rw [Outcome.raised.injEq] at h
      exact h ▸ hself.undoable
    · set target := max (old.arena.usableForTargetFreeBytes (desired - live +
        ((old.arena.transitionBytes (old.arena.boundaries.getLastD 0) : Int) -
          old.arena.transitionBytes old.arena.cacheSize))) old.arena.floorSlots
      cases hset : old.setUsableSlots f target with
      | raised w₁ =>
        refine ⟨fun w' h => ?_, fun f' w' r h => nomatch h⟩
        simp only [Outcome.bind, Outcome.raised.injEq] at h
        exact h ▸ hself.undoable_resize hold hset
      | done g w₁ bytes =>
        refine ⟨fun w' h => (nomatch h), fun f' w' r h => ?_⟩
        simp only [Outcome.bind, Outcome.done.injEq] at h
        obtain ⟨-, rfl, rfl⟩ := h
        exact hself.resize hold (by omega) hset
  · refine ⟨fun w' h => (nomatch h), fun f' w' r h => ?_⟩
    rw [Outcome.done.injEq] at h
    obtain ⟨-, rfl, rfl⟩ := h
    exact hself

theorem topUp_spec (hold : Fits base old) (before required : Int) (rounds : Nat) :
    ∀ (f : Fault) (w : World) (target released : Nat) (live : Int), Shrunk old w target →
      (∀ w', Engine.topUp old.arena.floorSlots before required rounds f w target released live =
        .raised w' → Undoable base old w') ∧
      ∀ f' w' r, Engine.topUp old.arena.floorSlots before required rounds f w target released live =
        .done f' w' r → ∃ n, Shrunk old w' n := by
  induction rounds with
  | zero =>
    intro f w target released live h
    refine ⟨fun w' hr => (nomatch hr), fun f' w' r hr => ?_⟩
    rw [Engine.topUp, Outcome.done.injEq] at hr
    exact ⟨target, hr.2.1 ▸ h⟩
  | succ rounds ih =>
    intro f w target released live h
    unfold Engine.topUp
    simp only
    split
    · rename_i hc
      have hle := (stepDown_between (a := w.arena) hc.2).2
      cases hset : w.setUsableSlots f (w.arena.stepDown target old.arena.floorSlots) with
      | raised w₁ =>
        refine ⟨fun w' hr => ?_, fun f' w' r hr => nomatch hr⟩
        simp only [Outcome.bind, Outcome.raised.injEq] at hr
        exact hr ▸ h.undoable_resize hold hset
      | done g w₁ bytes => exact ih g _ _ _ _ (h.resize hold (hle.trans h.le) hset)
    · refine ⟨fun w' hr => (nomatch hr), fun f' w' r hr => ?_⟩
      rw [Outcome.done.injEq] at hr
      exact ⟨target, hr.2.1 ▸ h⟩

/-- The last step of both transactions. -/
theorem syncAllRanks_eq (e : Engine) (f : Fault) (w : World) :
    e.syncAllRanks f w = .raised w ∨ ∃ f', e.syncAllRanks f w = .done f' w () := by
  unfold Engine.syncAllRanks
  split
  · cases f.onSyncAllRanks with
    | none => exact Or.inl rfl
    | some f' => exact Or.inr ⟨f', rfl⟩
  · exact Or.inr ⟨f, rfl⟩

/-- **A growth can be undone where it fails, and fits where it goes through.** -/
theorem growTransaction_spec (e : Engine) (hbase : Fresh base) (hold : Fits base old) {u : Nat}
    (hu : Stop base u) (hlt : old.pool.committedPages < u) :
    (∀ w', e.growTransaction f old u = .raised w' → Undoable base old w') ∧
      ∀ f' w' r, e.growTransaction f old u = .done f' w' r →
        Fits base w' ∧ Moved old w' ∧ w'.pool.committedPages = u := by
  unfold Engine.growTransaction
  simp only
  obtain ⟨hraised, hdone⟩ := firstShrink_spec (f := f) hold (e.freeMemory .first old)
    ((old.kvBytes u : Int) - old.kvBytes old.pool.committedPages + e.headroomBytes +
      PREFILL_HEADROOM_MARGIN_BYTES)
  cases hfirst : Engine.firstShrink f old old.arena.floorSlots (e.freeMemory .first old)
      ((old.kvBytes u : Int) - old.kvBytes old.pool.committedPages + e.headroomBytes +
        PREFILL_HEADROOM_MARGIN_BYTES) with
  | raised w₁ =>
    refine ⟨fun w' h => ?_, fun f' w' r h => nomatch h⟩
    rw [Outcome.bind, Outcome.raised.injEq] at h
    exact h ▸ hraised w₁ hfirst
  | done f₁ w₁ shrunk =>
    have hshrunk := hdone f₁ w₁ shrunk hfirst
    rw [Outcome.bind]
    obtain ⟨hraised, hdone⟩ := topUp_spec hold (e.freeMemory .first old)
      ((old.kvBytes u : Int) - old.kvBytes old.pool.committedPages + e.headroomBytes) shrunk.1 f₁ w₁
      shrunk.1 shrunk.2
      (max (e.freeMemory .second w₁ : Int) ((e.freeMemory .first old : Int) + shrunk.2)) hshrunk
    cases htop : Engine.topUp old.arena.floorSlots (e.freeMemory .first old)
        ((old.kvBytes u : Int) - old.kvBytes old.pool.committedPages + e.headroomBytes) shrunk.1 f₁ w₁
        shrunk.1 shrunk.2
        (max (e.freeMemory .second w₁ : Int) ((e.freeMemory .first old : Int) + shrunk.2)) with
    | raised w₂ =>
      refine ⟨fun w' h => ?_, fun f' w' r h => nomatch h⟩
      rw [Outcome.bind, Outcome.raised.injEq] at h
      exact h ▸ hraised w₂ htop
    | done f₂ w₂ live =>
      obtain ⟨n, hn⟩ := hdone f₂ w₂ live htop
      rw [Outcome.bind]
      split
      · refine ⟨fun w' h => ?_, fun f' w' r h => nomatch h⟩
        rw [Outcome.raised.injEq] at h
        exact h ▸ hn.undoable
      · -- the pages are committed over an arena that only moved down
        have hpool := hn.pool
        have hmoved : ∀ p, Moved old { w₂ with pool := p } :=
          fun p => ⟨hn.moved.failed, hn.moved.decode, hn.moved.level, hn.moved.pending⟩
        have hback : ∀ p f', w₂.pool.commitPages f₂ u = .raised p ∨
            w₂.pool.commitPages f₂ u = .done f' p → Undoable base old { w₂ with pool := p } := by
          intro p f' hp
          rw [hpool] at hp
          obtain ⟨bs, hbs, hrun⟩ := hold.pool.commitPages_rungs hbase hp
          exact ⟨hmoved p, Or.inl ⟨bs, hbs, hrun⟩, Or.inl ⟨n, hn.boundary, hn.arena⟩⟩
        unfold World.commitPages
        cases hcommit : w₂.pool.commitPages f₂ u with
        | raised p =>
          refine ⟨fun w' h => ?_, fun f' w' r h => nomatch h⟩
          simp only [Outcome.bind, Outcome.raised.injEq] at h
          exact h ▸ hback p .none (Or.inl hcommit)
        | done f₃ p =>
          simp only [Outcome.bind]
          rcases syncAllRanks_eq e f₃ { w₂ with pool := p } with hsync | ⟨f₄, hsync⟩
          · rw [hsync]
            refine ⟨fun w' h => ?_, fun f' w' r h => nomatch h⟩
            rw [Outcome.raised.injEq] at h
            exact h ▸ hback p f₃ (Or.inr hcommit)
          · rw [hsync]
            refine ⟨fun w' h => (nomatch h), fun f' w' r h => ?_⟩
            rw [Outcome.done.injEq] at h
            obtain ⟨-, rfl, -⟩ := h
            rw [hpool] at hcommit
            obtain ⟨hgrown, hpages⟩ := hold.pool.commitPages_done hbase hu hlt hcommit
            have hfits := hn.fits hold
            exact ⟨⟨hgrown, hfits.arena, hfits.config⟩, hmoved p, hpages⟩

/-- The slots that are paid for are at least those there are. -/
theorem le_regrowTarget (e : Engine) (w : World) (budget : Int) :
    w.arena.cacheSize ≤ e.regrowTarget w budget := by
  unfold Engine.regrowTarget
  simp only
  cases hlast : (List.filter (fun b => decide ((w.arena.transitionBytes b : Int) ≤ budget))
      (List.takeWhile (fun b => e.growableMoeCeiling.all fun ceiling => decide (b ≤ ceiling))
        (List.filter (fun b => decide (w.arena.cacheSize ≤ b)) w.arena.boundaries))).getLast? with
  | none => exact le_rfl
  | some b =>
    have hb := List.mem_of_getLast? hlast
    have hb' := List.takeWhile_subset _ (List.mem_filter.mp hb).1
    simpa using (List.mem_filter.mp hb').2

/-- The growth of the arena after a release goes up, or leaves everything to be undone. -/
theorem regrow_spec (hold : Fits base old) (hm : Moved old w) (hp : PoolBack base old.pool w.pool)
    (ha : w.arena = old.arena) (hc : w.moeCacheSize = old.moeCacheSize)
    (hle : old.arena.cacheSize ≤ n) :
    (∀ w', Engine.regrow f w n = .raised w' → Undoable base old w') ∧
      ∀ f' w' r, Engine.regrow f w n = .done f' w' r →
        n ∈ old.arena.boundaries ∧
          w' = { w with arena := old.arena.sized n, moeCacheSize := n } := by
  unfold Engine.regrow
  split
  · cases hset : w.setUsableSlots f n with
    | raised w₁ =>
      refine ⟨fun w' h => ?_, fun f' w' r h => nomatch h⟩
      rw [Outcome.bind, Outcome.raised.injEq] at h
      rw [← h]
      exact undoable_resize hold hm hp hold.arena.boundary le_rfl
        (ha.trans hold.arena.mapped.symm) hset
    | done g w₁ bytes =>
      refine ⟨fun w' h => (nomatch h), fun f' w' r h => ?_⟩
      rw [Outcome.bind, Outcome.done.injEq] at h
      obtain ⟨-, rfl, -⟩ := h
      obtain ⟨rfl, hboundary⟩ := sized_of_setUsableSlots (ha ▸ hold.arena) hset
      rw [ha] at hboundary ⊢
      exact ⟨hboundary, rfl⟩
  · rename_i heq
    rw [not_not, ha] at heq
    refine ⟨fun w' h => (nomatch h), fun f' w' r h => ?_⟩
    rw [Outcome.done.injEq] at h
    obtain ⟨-, rfl, -⟩ := h
    rw [heq, hold.arena.mapped, ← hold.config, ← ha, ← hc]
    exact ⟨by rw [ha, hc, hold.config]; exact hold.arena.boundary, rfl⟩

/-- **A shrink can be undone where it fails once its pages are released**, and fits where it goes
through. -/
theorem shrinkTransaction_spec (e : Engine) (hbase : Fresh base) (hold : Fits base old) {u : Nat}
    (hu : Stop base u) (hlt : u < old.pool.committedPages) {g : Fault}
    (hspend : f.spend (uncommitCalls u old.pool.growthSegments) = some g) :
    (∀ w', e.shrinkTransaction f old u = .raised w' → Undoable base old w') ∧
      ∀ f' w' r, e.shrinkTransaction f old u = .done f' w' r →
        Fits base w' ∧ Moved old w' ∧ w'.pool.committedPages = u := by
  obtain ⟨p, hp⟩ := (hold.pool.decommitPages_spend hbase hu hlt f).2 g hspend
  obtain ⟨hgrown, hpages⟩ := hold.pool.decommitPages_done hbase hu hlt hp
  have hback : PoolBack base old.pool p := Or.inr ⟨hgrown, hpages ▸ hlt⟩
  have hdecommit : old.decommitPages f u = .done g { old with pool := p } () := by
    unfold World.decommitPages
    rw [hp]
  unfold Engine.shrinkTransaction
  simp only
  rw [hdecommit, Outcome.bind]
  set target := e.regrowTarget { old with pool := p } _
  have hge : old.arena.cacheSize ≤ target := le_regrowTarget e { old with pool := p } _
  obtain ⟨hraised, hdone⟩ := regrow_spec (f := g) hold
    (⟨rfl, rfl, rfl, rfl⟩ : Moved old { old with pool := p }) hback rfl rfl hge
  cases hregrow : Engine.regrow g { old with pool := p } target with
  | raised w₁ =>
    refine ⟨fun w' h => ?_, fun f' w' r h => nomatch h⟩
    rw [Outcome.bind, Outcome.raised.injEq] at h
    exact h ▸ hraised w₁ hregrow
  | done f₁ w₁ r₁ =>
    obtain ⟨hboundary, rfl⟩ := hdone f₁ w₁ r₁ hregrow
    have hmoved : Moved old
        { old with pool := p, arena := old.arena.sized target, moeCacheSize := target } :=
      ⟨rfl, rfl, rfl, rfl⟩
    rw [Outcome.bind]
    rcases syncAllRanks_eq e f₁
        { old with pool := p, arena := old.arena.sized target, moeCacheSize := target } with
      hsync | ⟨f₂, hsync⟩
    · rw [hsync]
      refine ⟨fun w' h => ?_, fun f' w' r h => nomatch h⟩
      rw [Outcome.raised.injEq] at h
      rw [← h]
      exact ⟨hmoved, hback, Or.inl ⟨target, hboundary, rfl⟩⟩
    · rw [hsync]
      refine ⟨fun w' h => (nomatch h), fun f' w' r h => ?_⟩
      rw [Outcome.done.injEq] at h
      obtain ⟨-, rfl, -⟩ := h
      exact ⟨⟨hgrown, hold.arena.sized hboundary, rfl⟩, hmoved, hpages⟩

end Transactions

end FreeToken.Growable
