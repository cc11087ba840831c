import FreeToken.Growable.Arena
import FreeToken.Growable.Pool
import Mathlib.Algebra.Order.BigOperators.Group.List
import Mathlib.Algebra.Order.Group.Nat

/-!
# The growable-cache controller

`GrowableKvController`: memory moves between the expert arena and the key-value pool at batch
boundaries, and between the arena and the free memory that a prefill needs. `Engine` is what the
controller is given; what the driver answers for the free memory, and whether the planner
refuses a target, are functions of it.
-/

namespace FreeToken.Growable

/-! ## Prices -/

/-- The granule of `arena_bytes_for_usable`. -/
def granule : Nat := 2 * 1024 * 1024

/-- `arena_bytes_for_usable` of one bank. -/
def Bank.bytesAt (b : Bank) (usable : Nat) : Nat :=
  let share := b.cls.share usable
  let boundary :=
    min ((share + b.cls.stepSlots - 1) / b.cls.stepSlots * b.cls.stepSlots) b.cls.capacity
  if share = 0 then 0 else roundUp (boundary * b.rowBytes) granule

namespace Arena

variable (a : Arena)

/-- `_arena_transition_bytes`. -/
def transitionBytes (usable : Nat) : Nat := (a.banks.map fun b => b.bytesAt usable).sum

/-- `_growable_usable_for_target_free_bytes`. -/
def usableForTargetFreeBytes (target : Int) : Nat :=
  (a.boundaries.filter fun usable =>
    target ≤ (a.transitionBytes (a.boundaries.getLastD 0) : Int) - a.transitionBytes usable).foldl
      max 0

/-- The step to which the coverage floor is rounded up. -/
def coverageStep : Nat :=
  match a.layouts with
  | [(_, stepSlots)] => stepSlots
  | _ => a.numExperts

/-- `arena_floor_slots`. -/
def floorSlots : Nat :=
  max a.classFloor ((a.minGpuSlots + a.coverageStep - 1) / a.coverageStep * a.coverageStep)

/-- `_growable_arena_step_down`. -/
def stepDown (target floor : Nat) : Nat :=
  match a.layouts with
  | [(_, stepSlots)] => max (target - stepSlots) floor
  | _ => ((a.boundaries.filter fun b => floor ≤ b ∧ b < target).max?).getD floor

end Arena

/-! ## Prices are monotone -/

theorem ArenaClass.share_mono (c : ArenaClass) {m n : Nat} (h : m ≤ n) : c.share m ≤ c.share n := by
  unfold ArenaClass.share
  omega

theorem Bank.bytesAt_mono (b : Bank) {m n : Nat} (h : m ≤ n) : b.bytesAt m ≤ b.bytesAt n := by
  have hshare := b.cls.share_mono h
  unfold Bank.bytesAt
  simp only
  split
  · exact Nat.zero_le _
  · rw [if_neg (by omega)]
    have hchunks : (b.cls.share m + b.cls.stepSlots - 1) / b.cls.stepSlots ≤
        (b.cls.share n + b.cls.stepSlots - 1) / b.cls.stepSlots :=
      Nat.div_le_div_right (by omega)
    have hslots := Nat.mul_le_mul_right b.cls.stepSlots hchunks
    exact roundUp_mono (Nat.mul_le_mul_right _ (by omega))

namespace Arena

variable {a : Arena} {m n : Nat}

theorem transitionBytes_mono (h : m ≤ n) : a.transitionBytes m ≤ a.transitionBytes n :=
  List.sum_le_sum fun b _ => b.bytesAt_mono h

theorem foldl_max_le {l : List Nat} (hl : ∀ x ∈ l, x ≤ n) : ∀ {m : Nat}, m ≤ n →
    l.foldl max m ≤ n := by
  induction l with
  | nil =>
    intro m hm
    exact hm
  | cons x l ih =>
    intro m hm
    have hx := hl x List.mem_cons_self
    exact ih (fun y hy => hl y (List.mem_cons_of_mem _ hy)) (by omega)

/-- More bytes than were given up so far take the arena down. -/
theorem usableForTargetFreeBytes_le {target : Int}
    (h : (a.transitionBytes (a.boundaries.getLastD 0) : Int) - a.transitionBytes n < target) :
    a.usableForTargetFreeBytes target ≤ n := by
  refine foldl_max_le (fun b hb => ?_) (Nat.zero_le n)
  by_contra hlt
  have hmono := a.transitionBytes_mono (Nat.le_of_lt (not_le.mp hlt))
  have hbytes := of_decide_eq_true (List.mem_filter.mp hb).2
  omega

end Arena

/-! ## The engine and its state -/

structure World where
  pool : Pool
  arena : Arena
  /-- `config.moe_cache_size`. -/
  moeCacheSize : Nat
  transitionFailed : Bool := false
  decodeLevel : Bool := false
  prefillLevel : Nat := 0
  pendingPrefillLevel : Nat := 0
deriving DecidableEq

/-- The readings of the free memory in one transition. -/
inductive Reading where
  | first
  | second
deriving DecidableEq

structure Engine where
  numPages : Nat
  prefillTransientBytes : Nat
  prefillTransientSmall : Option (Nat × Nat) := none
  growableMoeCeiling : Option Nat
  tpSize : Nat := 1
  /-- `FREETOKEN_DYNAMIC_PREFILL_HEADROOM`. -/
  dynamicPrefillHeadroom : Bool := true
  decodeFreeTargetBytes : Nat := 128 * 1024 * 1024
  /-- `_sync_get_memory()[0]`. -/
  freeMemory : Reading → World → Nat
  /-- Whether `_plan_growable_kv` raises. -/
  planRefuses : World → Nat → Bool

/-- What a transition comes to. An exception keeps the world it leaves. -/
inductive Outcome (α : Type) where
  | done (f : Fault) (w : World) (result : α)
  | raised (w : World)
deriving DecidableEq

namespace Outcome

variable {α β : Type}

def bind (o : Outcome α) (next : Fault → World → α → Outcome β) : Outcome β :=
  match o with
  | .done f w result => next f w result
  | .raised w => .raised w

/-- Except: what is raised is handled, and raised again. -/
def except (o : Outcome α) (handle : World → World) : Outcome α :=
  match o with
  | .done f w result => .done f w result
  | .raised w => .raised (handle w)

end Outcome

namespace World

variable (w : World)

def setUsableSlots (f : Fault) (n : Nat) : Outcome Nat :=
  match w.arena.setUsableSlots f n with
  | .raised r => .raised { w with arena := r.1 }
  | .done f' r => .done f' { w with arena := r.1 } r.2

def commitPages (f : Fault) (usablePages : Nat) : Outcome Unit :=
  match w.pool.commitPages f usablePages with
  | .raised p => .raised { w with pool := p }
  | .done f' p => .done f' { w with pool := p } ()

def decommitPages (f : Fault) (usablePages : Nat) : Outcome Unit :=
  match w.pool.decommitPages f usablePages with
  | .raised p => .raised { w with pool := p }
  | .done f' p => .done f' { w with pool := p } ()

section Calls

variable {w} {f f' : Fault} {n : Nat}

theorem setUsableSlots_done {r : Arena × Nat} (h : w.arena.setUsableSlots f n = .done f' r) :
    w.setUsableSlots f n = .done f' { w with arena := r.1 } r.2 := by
  rw [setUsableSlots, h]

theorem setUsableSlots_raised {r : Arena × Nat} (h : w.arena.setUsableSlots f n = .raised r) :
    w.setUsableSlots f n = .raised { w with arena := r.1 } := by
  rw [setUsableSlots, h]

theorem commitPages_done {p : Pool} (h : w.pool.commitPages f n = .done f' p) :
    w.commitPages f n = .done f' { w with pool := p } () := by
  rw [commitPages, h]

end Calls

/-- The bytes that are mapped for pages. -/
def kvBytes (pages : Nat) : Nat := w.pool.mappedBytesForPages pages

end World

def VMM_COMMIT_CUSHION_BYTES : Nat := 256 * 1024 * 1024

def PREFILL_HEADROOM_MARGIN_BYTES : Nat := 128 * 1024 * 1024

/-- `growable_headroom_bytes`. -/
def growableHeadroomBytes (prefillTransientBytes : Nat) : Nat :=
  max VMM_COMMIT_CUSHION_BYTES prefillTransientBytes

namespace Engine

variable (e : Engine)

/-- `headroom_bytes`. -/
def headroomBytes : Nat := growableHeadroomBytes e.prefillTransientBytes

/-- `sync_all_ranks`, where there are several. -/
def syncAllRanks (f : Fault) (w : World) : Outcome Unit :=
  if 1 < e.tpSize then
    match f.onSyncAllRanks with
    | none => .raised w
    | some f => .done f w ()
  else .done f w ()

/-! ## The rollback -/

/-- `_rollback_growable_kv_transition`. Nothing is made to fail here; where it fails all the
same, the engine is not safe to resume. -/
def rollback (old w : World) : World :=
  let given : Outcome Unit :=
    if old.pool.committedPages < w.pool.committedPages then
      w.decommitPages .none old.pool.committedPages
    else .done .none w ()
  let resized : Outcome Unit := given.bind fun f w _ =>
    let w := { w with arena := { w.arena with prefillOverlap := old.arena.prefillOverlap } }
    if w.arena.cacheSize ≠ old.arena.cacheSize then
      (w.setUsableSlots f old.arena.cacheSize).bind fun f w _ => .done f w ()
    else .done f w ()
  let mapped : Outcome Unit := resized.bind fun f w _ =>
    if w.pool.committedPages < old.pool.committedPages then
      w.commitPages f old.pool.committedPages
    else .done f w ()
  match mapped with
  | .done _ w _ => { w with moeCacheSize := old.arena.cacheSize }
  | .raised w => { w with transitionFailed := true }

/-! ## Growing the pool -/

/-- The first shrink of the arena, when the free memory does not reach: the slots it goes to and
the bytes it gave. -/
def firstShrink (f : Fault) (w : World) (floor : Nat) (liveFree desiredFree : Int) :
    Outcome (Nat × Nat) :=
  let oldMoe := w.arena.cacheSize
  if liveFree < desiredFree then
    let deficit : Int := (w.arena.transitionBytes (w.arena.boundaries.getLastD 0) : Int) -
      w.arena.transitionBytes oldMoe
    let targetMoe :=
      max (w.arena.usableForTargetFreeBytes (desiredFree - liveFree + deficit)) floor
    if oldMoe ≤ targetMoe then .raised w
    else
      (w.setUsableSlots f targetMoe).bind fun f w released =>
        .done f { w with moeCacheSize := targetMoe } (targetMoe, released)
  else .done f w (oldMoe, 0)

/-- The loop that shrinks the arena further; the number bounds its rounds. -/
def topUp (floor : Nat) (liveBefore requiredFree : Int) :
    Nat → Fault → World → Nat → Nat → Int → Outcome Int
  | 0, f, w, _, _, live => .done f w live
  | rounds + 1, f, w, targetMoe, released, live =>
    if live < requiredFree ∧ floor < targetMoe then
      let next := w.arena.stepDown targetMoe floor
      (w.setUsableSlots f next).bind fun f w more =>
        topUp floor liveBefore requiredFree rounds f { w with moeCacheSize := next } next
          (released + more) (max live (liveBefore + (released + more : Nat)))
    else .done f w live

/-- The transaction of `_grow_runtime_kv_arena`. -/
def growTransaction (f : Fault) (w : World) (targetPages : Nat) : Outcome Unit :=
  let floor := w.arena.floorSlots
  let commitBytes : Int := (w.kvBytes targetPages : Int) - w.kvBytes w.pool.committedPages
  let requiredFree := commitBytes + e.headroomBytes
  let desiredFree := requiredFree + PREFILL_HEADROOM_MARGIN_BYTES
  let liveBefore : Int := e.freeMemory .first w
  (firstShrink f w floor liveBefore desiredFree).bind fun f w shrunk =>
    let live : Int := max (e.freeMemory .second w : Int) (liveBefore + shrunk.2)
    (topUp floor liveBefore requiredFree shrunk.1 f w shrunk.1 shrunk.2 live).bind fun f w live =>
      if live < requiredFree then .raised w
      else
        (w.commitPages f targetPages).bind fun f w _ => e.syncAllRanks f w

/-- `_grow_runtime_kv_arena`. -/
def growArena (f : Fault) (w : World) (targetPages : Nat) : Outcome (Nat × Nat) :=
  ((e.growTransaction f w targetPages).except (rollback w)).bind fun f w' _ =>
    .done f { w' with decodeLevel := false, prefillLevel := 0 } (w.pool.committedPages, targetPages)

/-- Pages rounded up to whole steps. -/
def stepPages (w : World) (pages : Nat) : Nat :=
  (pages + w.pool.growStepPages - 1) / w.pool.growStepPages * w.pool.growStepPages

/-- The planner, which may refuse a target. -/
def plan (f : Fault) (w : World) (targetPages : Nat) : Outcome Unit :=
  if f = .planner ∨ e.planRefuses w targetPages = true then .raised w else .done f w ()

/-- `grow_runtime_kv`: the pages before and after. -/
def growRuntimeKv (f : Fault) (w : World) (requiredPages : Nat) : Outcome (Nat × Nat) :=
  let oldPages := w.pool.committedPages
  if w.transitionFailed then .raised w
  else if requiredPages ≤ oldPages then .done f w (oldPages, oldPages)
  else
    let targetPages := min e.numPages (stepPages w requiredPages)
    if targetPages ≤ oldPages then .done f w (oldPages, oldPages)
    else
      (e.plan f w targetPages).bind fun f w _ =>
        (e.syncAllRanks f w).bind fun f w _ => e.growArena f w targetPages

/-! ## Shrinking the pool -/

/-- The largest boundary that the bytes given back pay for, up to the startup fill. -/
def regrowTarget (w : World) (budget : Int) : Nat :=
  let candidates := (w.arena.boundaries.filter fun b => w.arena.cacheSize ≤ b).takeWhile fun b =>
    e.growableMoeCeiling.all fun ceiling => b ≤ ceiling
  ((candidates.filter fun b => w.arena.transitionBytes b ≤ budget).getLast?).getD w.arena.cacheSize

/-- The growth of the arena after a release. -/
def regrow (f : Fault) (w : World) (targetMoe : Nat) : Outcome Unit :=
  if targetMoe ≠ w.arena.cacheSize then
    (w.setUsableSlots f targetMoe).bind fun f w _ => .done f { w with moeCacheSize := targetMoe } ()
  else .done f w ()

/-- The transaction of `_shrink_runtime_kv_arena`. -/
def shrinkTransaction (f : Fault) (w : World) (targetPages : Nat) : Outcome Unit :=
  let released : Int := (w.kvBytes w.pool.committedPages : Int) - w.kvBytes targetPages
  (w.decommitPages f targetPages).bind fun f w _ =>
    let targetMoe := e.regrowTarget w (w.arena.transitionBytes w.arena.cacheSize + released)
    (regrow f w targetMoe).bind fun f w _ => e.syncAllRanks f w

/-- `_shrink_runtime_kv_arena`. -/
def shrinkArena (f : Fault) (w : World) (targetPages : Nat) : Outcome (Nat × Nat) :=
  ((e.shrinkTransaction f w targetPages).except (rollback w)).bind fun f w' _ =>
    .done f w' (w.pool.committedPages, targetPages)

/-- The pages a shrink goes to: whole steps, and not below the first one. -/
def shrinkTarget (w : World) (targetPages : Nat) : Nat :=
  max (min e.numPages w.pool.growStepPages) (stepPages w targetPages)

/-- `shrink_runtime_kv`: the pages before and after. -/
def shrinkRuntimeKv (f : Fault) (w : World) (targetPages : Nat) : Outcome (Nat × Nat) :=
  let oldPages := w.pool.committedPages
  if w.transitionFailed then .raised w
  else if oldPages ≤ targetPages then .done f w (oldPages, oldPages)
  else
    let target := e.shrinkTarget w targetPages
    if oldPages ≤ target then .done f w (oldPages, oldPages)
    else
      (e.plan f w target).bind fun f w _ =>
        (e.syncAllRanks f w).bind fun f w _ => e.shrinkArena f w target

/-! ## The headroom of prefill -/

/-- `_small_prefill`. -/
def smallPrefill : Option (Nat × Nat) :=
  e.prefillTransientSmall.filter fun small => 0 < small.1 ∧ small.2 ≤ e.prefillTransientBytes

/-- The small measurement, when it covers the batch. -/
def coveredBySmall (newTokens : Option Nat) : Option (Nat × Nat) :=
  e.smallPrefill.filter fun small => newTokens.any fun n => 0 < n ∧ n ≤ small.1

/-- `_headroom_for`. -/
def headroomFor (newTokens : Option Nat) : Nat :=
  match e.coveredBySmall newTokens with
  | some small => growableHeadroomBytes small.2
  | none => e.headroomBytes

/-- `_prefill_level_tokens`. -/
def prefillLevelTokens (newTokens : Option Nat) : Nat :=
  match e.coveredBySmall newTokens with
  | some small => small.1
  | none => 0

/-- `prefill_free_target_bytes`. -/
def prefillFreeTargetBytes (newTokens : Option Nat) : Nat :=
  e.headroomFor newTokens + PREFILL_HEADROOM_MARGIN_BYTES

/-- `dynamic_enabled`. -/
def dynamicEnabled : Bool :=
  e.dynamicPrefillHeadroom && e.growableMoeCeiling.isSome &&
    e.decodeFreeTargetBytes < e.prefillFreeTargetBytes none

/-- What must be done before a batch. -/
inductive Transition where
  | reserve
  | release
deriving DecidableEq

/-- `prefill_headroom_transition`. -/
def prefillHeadroomTransition (w : World) (prefill prefillPending : Bool)
    (newTokens : Option Nat) : World × Option Transition :=
  let need := e.prefillLevelTokens newTokens
  if e.dynamicEnabled = false then (w, none)
  else if prefill ∧ (w.decodeLevel ∨ w.prefillLevel ≠ 0 ∧ (need = 0 ∨ w.prefillLevel < need)) then
    ({ w with pendingPrefillLevel := need }, some .reserve)
  else if ¬ prefill ∧ ¬ prefillPending ∧ ¬ w.decodeLevel then (w, some .release)
  else (w, none)

/-- The top-up of `reserve_prefill_headroom`, which goes by the bytes it was given. -/
def reserveTopUp (floor : Nat) (liveFree targetFree : Int) :
    Nat → Fault → World → Nat → Nat → Outcome Nat
  | 0, f, w, targetMoe, _ => .done f w targetMoe
  | rounds + 1, f, w, targetMoe, released =>
    if liveFree + released < targetFree ∧ floor < targetMoe then
      let next := w.arena.stepDown targetMoe floor
      (w.setUsableSlots f next).bind fun f w more =>
        reserveTopUp floor liveFree targetFree rounds f w next (released + more)
    else .done f w targetMoe

/-- The shrink of `reserve_prefill_headroom`. -/
def reserveShrink (f : Fault) (w : World) (liveFree targetFree : Int) : Outcome Unit :=
  let oldMoe := w.arena.cacheSize
  let floor := w.arena.floorSlots
  let deficit : Int := (w.arena.transitionBytes (w.arena.boundaries.getLastD 0) : Int) -
    w.arena.transitionBytes oldMoe
  let targetMoe := max (w.arena.usableForTargetFreeBytes (targetFree - liveFree + deficit)) floor
  let shrunk : Outcome Nat := if targetMoe < oldMoe then w.setUsableSlots f targetMoe else .done f w 0
  shrunk.bind fun f w released =>
    (reserveTopUp floor liveFree targetFree targetMoe f w targetMoe released).bind
      fun f w targetMoe => e.syncAllRanks f { w with moeCacheSize := targetMoe }

/-- `reserve_prefill_headroom`. -/
def reservePrefillHeadroom (f : Fault) (w : World) : Outcome Unit :=
  if w.transitionFailed then .raised w
  else
    let level := w.pendingPrefillLevel
    let targetFree := e.prefillFreeTargetBytes (if level = 0 then none else some level)
    let w := { w with pendingPrefillLevel := 0 }
    let liveFree := e.freeMemory .first w
    let shrunk : Outcome Unit :=
      if liveFree < targetFree then e.reserveShrink f w liveFree targetFree else .done f w ()
    shrunk.bind fun f w _ => .done f { w with decodeLevel := false, prefillLevel := level } ()

/-- The largest boundary that leaves the decode level free. -/
def releaseTarget (w : World) (spendable : Int) : Nat :=
  ((w.arena.boundaries.filter fun b => w.arena.cacheSize < b ∧
    (w.arena.transitionBytes b : Int) - w.arena.transitionBytes w.arena.cacheSize ≤
      spendable).getLast?).getD w.arena.cacheSize

/-- `release_prefill_headroom`. -/
def releasePrefillHeadroom (f : Fault) (w : World) : Outcome Unit :=
  if w.transitionFailed then .raised w
  else
    let targetMoe :=
      releaseTarget w ((e.freeMemory .first w : Int) - e.decodeFreeTargetBytes)
    let grown : Outcome Unit :=
      if targetMoe ≠ w.arena.cacheSize then
        (w.setUsableSlots f targetMoe).bind fun f w _ =>
          e.syncAllRanks f { w with moeCacheSize := targetMoe }
      else .done f w ()
    grown.bind fun f w _ => .done f { w with decodeLevel := true, prefillLevel := 0 } ()

end Engine

end FreeToken.Growable
