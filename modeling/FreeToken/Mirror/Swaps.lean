import FreeToken.Mirror.State
import Mathlib.Data.List.Perm.Basic

/-!
# Decode swaps

One layer launch of a decode step: the admission kernel seats the experts that miss
(`ensureExperts`), `_resolve_swaps_kernel` decides where the bytes of the admitted
experts come from and where those of their victims go (`resolveSwaps`), two groups of
copies run, and the freed rows are published (`copyMissingMirror`).
-/

namespace FreeToken.Mirror

open FreeToken.Lib Function

variable {β : Type}

/-! ## Admission -/

/-- One miss as the swap kernel sees it. -/
structure Miss where
  /-- The flat id of the expert that is admitted. -/
  expert : Nat
  slot : Nat
  /-- The expert that loses its GPU copy. -/
  victim : Option Nat
  /-- The slot's owner before the step. -/
  prior : Option Nat

/-- A miss takes its slot: `slot_for_id` and `id_of_slot`. -/
def seat (m : Mirror β) (expert slot : Nat) : Mirror β :=
  let slotForId :=
    match m.idOfSlot slot with
    | some old => update m.slotForId old none
    | none => m.slotForId
  { m with
    slotForId := update slotForId expert (some slot)
    idOfSlot := update m.idOfSlot slot (some expert) }

/-- The experts of a launch that miss, in the order of their ids. -/
def missing (g : Geometry) (m : Mirror β) (layerId : Nat) (active : List Nat) : List Nat :=
  ((List.range g.numExperts).filter fun e =>
    e ∈ active ∧ m.slotForId (layerId * g.numExperts + e) = none).map (layerId * g.numExperts + ·)

/-- The victim slots an LRU or LFU choice may return: usable, each once, and none of an
expert of this launch. -/
structure ValidVictims (g : Geometry) (m : Mirror β) (layerId : Nat) (active victims : List Nat) :
    Prop where
  length : victims.length = (missing g m layerId active).length
  nodup : victims.Nodup
  usable : ∀ slot ∈ victims, slot < g.cacheSize
  inactive : ∀ slot ∈ victims, ∀ e ∈ active,
    m.idOfSlot slot ≠ some (layerId * g.numExperts + e)

/-- The misses of a launch with the owners their slots had. -/
def misses (g : Geometry) (m : Mirror β) (layerId : Nat) (active victims : List Nat) : List Miss :=
  ((missing g m layerId active).zip victims).map fun p =>
    { expert := p.1, slot := p.2, victim := m.idOfSlot p.2, prior := m.idOfSlot p.2 }

/-- `ensure_experts`: every miss takes its slot. -/
def ensureExperts (m : Mirror β) (ms : List Miss) : Mirror β :=
  ms.foldl (fun m miss => seat m miss.expert miss.slot) m

/-! ## The swap kernel -/

/-- `KIND_CACHE`, `KIND_POOL` and `KIND_STAGE`. -/
inductive CopyKind where
  | cache
  | pool
  | stage
deriving DecidableEq

structure CopyDesc where
  dst : Nat
  src : Nat
  dstKind : CopyKind
  srcKind : CopyKind
deriving DecidableEq

/-- The kernel's state: the maps it writes and the descriptors it emits. -/
structure SwapState (β : Type) where
  mirror : Mirror β
  g1 : List CopyDesc := []
  g2 : List CopyDesc := []

def Mirror.bump (m : Mirror β) (f : MirrorStat → MirrorStat) : Mirror β :=
  { m with stats := f m.stats }

/-- The topmost row of the free stack that is `clean`, and the stack without it: the top
takes its place. -/
def pickFree (clean : Nat → Bool) : List Nat → Option (Nat × List Nat)
  | [] => none
  | top :: free =>
    if clean top then some (top, free)
    else
      match free.findIdx? clean with
      | none => none
      | some k => (free[k]?).map fun row => (row, free.set k top)

/-- The victim's row is its own now. -/
def ownRow (m : Mirror β) (victim row : Nat) (free : List Nat) : Mirror β :=
  { m with
    freeRows := free
    idOfPoolRow := update m.idOfPoolRow row (some victim)
    poolRowOfId := update m.poolRowOfId victim (some row)
    stats := { m.stats with writebacks := m.stats.writebacks + 1 } }

/-- The ring takes the victim's bytes, for `row`. -/
def stageRow (g : Geometry) (m : Mirror β) (row : Nat) : Mirror β :=
  { m with
    ring := { m.ring with
      head := m.ring.head + 1
      rowOf := update m.ring.rowOf (m.ring.head % g.wbStageRows) row
      pend := update m.ring.pend row (some m.ring.head) }
    stats := { m.stats with stagedWritebacks := m.stats.stagedWritebacks + 1 } }

/-- No copy of the ring is still to land in `row`. -/
def clean (done : Nat) (m : Mirror β) (row : Nat) : Bool :=
  match m.ring.pend row with
  | some idx => idx < done
  | none => true

/-- The write-back of a victim that has no pool row. `done` was read at the launch's
start. -/
def writebackVictim (g : Geometry) (done : Nat) (victim slot : Nat) (s : SwapState β) :
    SwapState β :=
  let m := s.mirror
  match m.freeRows with
  | [] => { s with mirror := m.bump fun t => { t with starved := t.starved + 1 } }
  | top :: free =>
    if g.wbStageRows = 0 then
      { s with
        mirror := ownRow m victim top free
        g1 := s.g1 ++ [{ dst := top, src := slot, dstKind := .pool, srcKind := .cache }] }
    else if m.ring.head - done < g.wbStageRows then
      { s with
        mirror := ownRow (stageRow g m top) victim top free
        g1 := s.g1 ++ [{ dst := m.ring.head % g.wbStageRows, src := slot, dstKind := .stage
                         srcKind := .cache }] }
    else
      -- ring full: a store into a row that no pending copy will overwrite later
      let m := m.bump fun t => { t with ringFull := t.ringFull + 1 }
      match pickFree (clean done m) (top :: free) with
      | none => { s with mirror := m.bump fun t => { t with starved := t.starved + 1 } }
      | some (row, free) =>
        { s with
          mirror := ownRow m victim row free
          g1 := s.g1 ++ [{ dst := row, src := slot, dstKind := .pool, srcKind := .cache }] }

/-- The row an admission read from: retained, or freed at the floor. -/
def retainRow (g : Geometry) (flatNew slot srcRow : Nat) (m : Mirror β) : Mirror β :=
  if slot < g.prefillBase ∨ g.reserveRows < m.freeRows.length then
    m.bump fun t => { t with retained := t.retained + 1 }
  else
    { m with
      poolRowOfId := update m.poolRowOfId flatNew none
      idOfPoolRow := update m.idOfPoolRow srcRow none
      freedRows := m.freedRows ++ [srcRow] }

/-- Where the bytes of an admission are: the ring, while its row waits for a copy. -/
def admissionSource (g : Geometry) (done : Nat) (m : Mirror β) (srcRow : Nat) : Nat × CopyKind :=
  match m.ring.pend srcRow with
  | some idx =>
    if g.wbStageRows ≠ 0 ∧ done ≤ idx then (idx % g.wbStageRows, .stage) else (srcRow, .pool)
  | none => (srcRow, .pool)

/-- The copy of an admission from `srcRow`. -/
def readSource (g : Geometry) (done : Nat) (slot srcRow : Nat) (s : SwapState β) : SwapState β :=
  let source := admissionSource g done s.mirror srcRow
  { s with
    mirror := s.mirror.bump fun t =>
      { t with
        swaps := t.swaps + 1
        stageRedirects := t.stageRedirects + if source.2 = .stage then 1 else 0 }
    g2 := s.g2 ++ [{ dst := slot, src := source.1, dstKind := .cache, srcKind := source.2 }] }

/-- The victim is mirrored already, or the slot was never used: nothing to write back. -/
def freeEvict (s : SwapState β) : SwapState β :=
  { s with mirror := s.mirror.bump fun t => { t with freeEvictions := t.freeEvictions + 1 } }

def evictVictim (g : Geometry) (done : Nat) (miss : Miss) (s : SwapState β) : SwapState β :=
  match miss.victim with
  | none => freeEvict s
  | some victim =>
    match s.mirror.poolRowOfId victim with
    | some _ => freeEvict s
    | none => writebackVictim g done victim miss.slot s

/-- An admission from `srcRow`. -/
def admitFrom (g : Geometry) (done : Nat) (miss : Miss) (srcRow : Nat) (s : SwapState β) :
    SwapState β :=
  let s := evictVictim g done miss (readSource g done miss.slot srcRow s)
  { s with mirror := retainRow g miss.expert miss.slot srcRow s.mirror }

/-- A GPU-resident expert moves slot to slot; a victim without a row dies here. -/
def relocate (miss : Miss) (here : Nat) (s : SwapState β) : SwapState β :=
  let lost :=
    match miss.victim with
    | some victim => (s.mirror.poolRowOfId victim).isNone
    | none => false
  { s with
    mirror := s.mirror.bump fun t =>
      { t with
        swaps := t.swaps + 1
        freeEvictions := t.freeEvictions + 1
        starved := t.starved + if lost then 1 else 0 }
    g1 := s.g1 ++ [{ dst := miss.slot, src := here, dstKind := .cache, srcKind := .cache }] }

/-- One turn of the loop of `_resolve_swaps_kernel`; `prevSlot` is the slot map from
before the step. -/
def resolveMiss (g : Geometry) (prevSlot : Nat → Option Nat) (done : Nat) (s : SwapState β)
    (miss : Miss) : SwapState β :=
  if miss.prior = some miss.expert then s
  else
    match (prevSlot miss.expert).filter (· ≠ miss.slot), s.mirror.poolRowOfId miss.expert with
    | some here, _ => relocate miss here s
    -- not on the GPU, not mirrored
    | none, none =>
      { s with mirror := s.mirror.bump fun t => { t with violations := t.violations + 1 } }
    | none, some srcRow => admitFrom g done miss srcRow s

def resolveSwaps (g : Geometry) (prevSlot : Nat → Option Nat) (m : Mirror β) (ms : List Miss) :
    SwapState β :=
  ms.foldl (resolveMiss g prevSlot m.ring.done) { mirror := m }

/-! ## Copies and publication -/

def readKind (m : Mirror β) : CopyKind → Nat → β
  | .cache, r => m.gpu r
  | .pool, r => m.pool r
  | .stage, r => m.stage r

def writeKind (m : Mirror β) (r : Nat) (b : β) : CopyKind → Mirror β
  | .cache => { m with gpu := update m.gpu r b }
  | .pool => { m with pool := update m.pool r b }
  | .stage => { m with stage := update m.stage r b }

/-- `fast_index_copy_kinds_jit`: the copies of one launch read what was there before it. -/
def copyKinds (m : Mirror β) (descs : List CopyDesc) : Mirror β :=
  descs.foldl (fun acc d => writeKind acc d.dst (readKind m d.srcKind d.src) d.dstKind) m

/-- `_publish_freed_kernel`. -/
def publishFreedRows (m : Mirror β) : Mirror β :=
  { m with freeRows := m.freedRows.reverse ++ m.freeRows, freedRows := [] }

/-- One layer launch of a decode step. -/
def decodeLayer (g : Geometry) (layerId : Nat) (active victims : List Nat) (m : Mirror β) :
    Mirror β :=
  let ms := misses g m layerId active victims
  let s := resolveSwaps g m.slotForId (ensureExperts m ms) ms
  publishFreedRows (copyKinds (copyKinds s.mirror s.g1) s.g2)

/-! ## What a swap can do -/

section Spec

variable {g : Geometry} {done : Nat}

theorem pickFree_spec {clean : Nat → Bool} {free rest : List Nat} {row : Nat}
    (h : pickFree clean free = some (row, rest)) : free.Perm (row :: rest) ∧ clean row = true := by
  cases free with
  | nil => simp [pickFree] at h
  | cons top free =>
    by_cases hc : clean top = true
    · simp only [pickFree, hc, if_true, Option.some.injEq, Prod.mk.injEq] at h
      obtain ⟨rfl, rfl⟩ := h
      exact ⟨List.Perm.refl _, hc⟩
    · cases hk : free.findIdx? clean with
      | none => simp [pickFree, hc, hk] at h
      | some k =>
        obtain ⟨hlt, hclean, -⟩ := List.findIdx?_eq_some_iff_getElem.mp hk
        simp only [pickFree, hc, hk, if_false, Bool.false_eq_true, List.getElem?_eq_getElem hlt,
          Option.map_some, Option.some.injEq, Prod.mk.injEq] at h
        obtain ⟨rfl, rfl⟩ := h
        refine ⟨?_, hclean⟩
        have hset : (free.set k top).Perm (top :: free.eraseIdx k) :=
          List.set_perm_cons_eraseIdx hlt top
        have hget : (free[k] :: free.eraseIdx k).Perm free :=
          List.getElem_cons_eraseIdx_perm hlt
        exact ((hget.symm.cons top).trans (List.Perm.swap _ _ _)).trans (hset.symm.cons _)

theorem pickFree_eq_none {clean : Nat → Bool} {free : List Nat} (h : pickFree clean free = none) :
    ∀ row ∈ free, clean row = false := by
  cases free with
  | nil => simp
  | cons top free =>
    by_cases hc : clean top = true
    · simp [pickFree, hc] at h
    · cases hk : free.findIdx? clean with
      | none =>
        intro row hrow
        rcases List.mem_cons.mp hrow with rfl | hrow
        · simpa using hc
        · simpa using List.findIdx?_eq_none_iff.mp hk row hrow
      | some k =>
        obtain ⟨hlt, -⟩ := List.findIdx?_eq_some_iff_getElem.mp hk
        simp [pickFree, hc, hk, List.getElem?_eq_getElem hlt] at h

/-- The faults that both sides have counted. -/
def SameFaults (t t' : MirrorStat) : Prop := t'.starved = t.starved ∧ t'.violations = t.violations

/-- What becomes of the victim of an admission into `slot`. -/
inductive VictimMove (g : Geometry) (done : Nat) (victim : Option Nat) (slot : Nat) (m : Mirror β) :
    Mirror β → List CopyDesc → Prop
  /-- There is none, or it has a pool row. -/
  | covered (t : MirrorStat) (hrow : ∀ v, victim = some v → m.poolRowOfId v ≠ none)
      (ht : SameFaults m.stats t) : VictimMove g done victim slot m { m with stats := t } []
  /-- Stored into a free row that no pending copy will overwrite. -/
  | stored (v row : Nat) (free : List Nat) (t : MirrorStat) (hv : victim = some v)
      (hnone : m.poolRowOfId v = none) (hfree : m.freeRows.Perm (row :: free))
      (hclean : g.wbStageRows = 0 ∨ clean done m row = true) (ht : SameFaults m.stats t) :
      VictimMove g done victim slot m (ownRow { m with stats := t } v row free)
        [{ dst := row, src := slot, dstKind := .pool, srcKind := .cache }]
  /-- Staged in the ring. -/
  | staged (v row : Nat) (free : List Nat) (hv : victim = some v)
      (hnone : m.poolRowOfId v = none) (hfree : m.freeRows.Perm (row :: free))
      (hring : m.ring.head - done < g.wbStageRows) :
      VictimMove g done victim slot m (ownRow (stageRow g m row) v row free)
        [{ dst := m.ring.head % g.wbStageRows, src := slot, dstKind := .stage, srcKind := .cache }]
  /-- Dropped: there is no free row, or each one waits for a copy and the ring is full. -/
  | starved (v : Nat) (t : MirrorStat) (hv : victim = some v) (hnone : m.poolRowOfId v = none)
      (hfull : ∀ row ∈ m.freeRows, g.wbStageRows ≠ 0 ∧ g.wbStageRows ≤ m.ring.head - done ∧
        clean done m row = false)
      (ht : t.starved = m.stats.starved + 1) :
      VictimMove g done victim slot m { m with stats := t } []

theorem writebackVictim_move {v slot : Nat} {s : SwapState β}
    (hnone : s.mirror.poolRowOfId v = none) :
    ∃ m descs, VictimMove g done (some v) slot s.mirror m descs ∧
      writebackVictim g done v slot s = { mirror := m, g1 := s.g1 ++ descs, g2 := s.g2 } := by
  obtain ⟨m, g1, g2⟩ := s
  dsimp only at hnone
  cases hfree : m.freeRows with
  | nil =>
    refine ⟨_, [], .starved v { m.stats with starved := m.stats.starved + 1 } rfl hnone
      (by simp [hfree]) rfl, ?_⟩
    conv_lhs => simp only [writebackVictim, hfree]
    rw [List.append_nil]
    rfl
  | cons top free =>
    by_cases hoff : g.wbStageRows = 0
    · refine ⟨_, _, .stored v top free m.stats rfl hnone (by rw [hfree]) (Or.inl hoff) ⟨rfl, rfl⟩,
        ?_⟩
      conv_lhs => simp only [writebackVictim, hfree, hoff, if_true]
    · by_cases hroom : m.ring.head - done < g.wbStageRows
      · refine ⟨_, _, .staged v top free rfl hnone (by rw [hfree]) hroom, ?_⟩
        conv_lhs => simp only [writebackVictim, hfree, hoff, hroom, if_true, if_false]
      · have hbump : clean done (m.bump fun t => { t with ringFull := t.ringFull + 1 }) =
            clean done m := rfl
        cases hpick : pickFree (clean done m) (top :: free) with
        | none =>
          refine ⟨_, [], .starved v { m.stats with
              ringFull := m.stats.ringFull + 1, starved := m.stats.starved + 1 } rfl hnone
            (fun row hrow => ⟨hoff, Nat.le_of_not_lt hroom, ?_⟩) rfl, ?_⟩
          · exact pickFree_eq_none hpick row (hfree ▸ hrow)
          · conv_lhs => simp only [writebackVictim, hfree, hoff, hroom, if_false, hbump, hpick]
            rw [List.append_nil]
            rfl
        | some r =>
          obtain ⟨row, rest⟩ := r
          obtain ⟨hperm, hclean⟩ := pickFree_spec hpick
          refine ⟨_, _, .stored v row rest { m.stats with ringFull := m.stats.ringFull + 1 } rfl
            hnone (hfree ▸ hperm) (Or.inr hclean) ⟨rfl, rfl⟩, ?_⟩
          conv_lhs => simp only [writebackVictim, hfree, hoff, hroom, if_false, hbump, hpick]
          rfl

theorem evictVictim_move {miss : Miss} {s : SwapState β} :
    ∃ m descs, VictimMove g done miss.victim miss.slot s.mirror m descs ∧
      evictVictim g done miss s = { mirror := m, g1 := s.g1 ++ descs, g2 := s.g2 } := by
  unfold evictVictim
  cases hv : miss.victim with
  | none =>
    refine ⟨(freeEvict s).mirror, [], .covered _ (by simp) ⟨rfl, rfl⟩, ?_⟩
    rw [List.append_nil]
    rfl
  | some victim =>
    cases hrow : s.mirror.poolRowOfId victim with
    | none => simpa only [hrow] using writebackVictim_move hrow
    | some row =>
      refine ⟨(freeEvict s).mirror, [], .covered _ (by simp [hrow]) ⟨rfl, rfl⟩, ?_⟩
      simp only [hrow, List.append_nil]
      rfl

end Spec

end FreeToken.Mirror
