import FreeToken.Mirror.Prefill
import FreeToken.Mirror.Swaps

/-!
# Where the copies are during a launch

The swap kernel neither reads nor writes the slot maps, so a launch may be read as one
admission after the other (`resolveSwaps_eq`): a miss takes its slot, its victim is
moved, and the row it came from is kept or freed.

* `Located` — the maps name the same pairs and every expert has a copy, except for the
  victim of the miss at hand.
* `admit_step` — what one admission changes, when it does not starve.
-/

namespace FreeToken.Mirror

open FreeToken.Lib Function

variable {β : Type} {g : Geometry} {m m' : Mirror β}

/-- The maps and the free rows agree, and every expert but `lost` has a copy. -/
structure Located (g : Geometry) (lost : Option Nat) (m : Mirror β) : Prop where
  slots : Paired m.slotForId m.idOfSlot
  rows : Paired m.poolRowOfId m.idOfPoolRow
  free : Unowned (· < g.capacity) m.idOfPoolRow (m.freedRows ++ m.freeRows)
  inPool : ∀ row id, m.idOfPoolRow row = some id → row < g.capacity
  covered : ∀ id < g.total, some id ≠ lost → m.slotForId id ≠ none ∨ m.poolRowOfId id ≠ none

/-- The ring names each staged row once, and no more than it can hold. -/
structure RingOk (g : Geometry) (r : Ring) : Prop where
  staged : ∀ row idx, r.pend row = some idx → idx < r.head
  inj : ∀ row row' idx, r.pend row = some idx → r.pend row' = some idx → row = row'
  done_le : r.done ≤ r.head
  bound : r.head - r.done ≤ g.wbStageRows

/-- Copies of the ring land. -/
theorem RingOk.land {r : Ring} (h : RingOk g r) {done : Nat} (hle : r.done ≤ done)
    (hge : done ≤ r.head) : RingOk g { r with done := done } :=
  ⟨h.staged, h.inj, hge, Nat.le_trans (Nat.sub_le_sub_left hle _) h.bound⟩

theorem RingOk.drain {r : Ring} (h : RingOk g r) : RingOk g { r with done := r.head } :=
  h.land h.done_le (Nat.le_refl _)

/-! ## A launch, miss by miss -/

/-- A miss takes its slot and is resolved at once. -/
def admitMiss (g : Geometry) (prevSlot : Nat → Option Nat) (done : Nat) (s : SwapState β)
    (miss : Miss) : SwapState β :=
  resolveMiss g prevSlot done { s with mirror := seat s.mirror miss.expert miss.slot } miss

/-- The slot maps replaced. -/
def SwapState.withSlots (s : SwapState β) (slotForId idOfSlot : Nat → Option Nat) : SwapState β :=
  { s with mirror := { s.mirror with slotForId := slotForId, idOfSlot := idOfSlot } }

@[simp] theorem withSlots_freeRows (s : SwapState β) (f b : Nat → Option Nat) :
    (s.withSlots f b).mirror.freeRows = s.mirror.freeRows := rfl

@[simp] theorem withSlots_poolRowOfId (s : SwapState β) (f b : Nat → Option Nat) :
    (s.withSlots f b).mirror.poolRowOfId = s.mirror.poolRowOfId := rfl

@[simp] theorem withSlots_ring (s : SwapState β) (f b : Nat → Option Nat) :
    (s.withSlots f b).mirror.ring = s.mirror.ring := rfl

theorem writebackVictim_withSlots (done victim slot : Nat) (s : SwapState β)
    (f b : Nat → Option Nat) :
    writebackVictim g done victim slot (s.withSlots f b) =
      (writebackVictim g done victim slot s).withSlots f b := by
  cases hfree : s.mirror.freeRows with
  | nil =>
    simp only [writebackVictim, withSlots_freeRows, hfree]
    rfl
  | cons top free =>
    by_cases hoff : g.wbStageRows = 0
    · simp only [writebackVictim, withSlots_freeRows, hfree, hoff, if_true]
      rfl
    · by_cases hroom : s.mirror.ring.head - done < g.wbStageRows
      · simp only [writebackVictim, withSlots_freeRows, withSlots_ring, hfree, hoff, hroom, if_true,
          if_false]
        rfl
      · have hclean : clean done ((s.withSlots f b).mirror.bump
            fun t => { t with ringFull := t.ringFull + 1 }) = clean done (s.mirror.bump
            fun t => { t with ringFull := t.ringFull + 1 }) := rfl
        simp only [writebackVictim, withSlots_freeRows, withSlots_ring, hfree, hoff, hroom, if_false,
          hclean]
        split <;> rfl

theorem evictVictim_withSlots (done : Nat) (miss : Miss) (s : SwapState β)
    (f b : Nat → Option Nat) :
    evictVictim g done miss (s.withSlots f b) = (evictVictim g done miss s).withSlots f b := by
  unfold evictVictim
  cases miss.victim with
  | none => rfl
  | some victim =>
    simp only [withSlots_poolRowOfId]
    cases s.mirror.poolRowOfId victim with
    | some row => rfl
    | none => exact writebackVictim_withSlots done victim miss.slot s f b

theorem retainRow_slots (flatNew slot srcRow : Nat) (m : Mirror β) (f b : Nat → Option Nat) :
    retainRow g flatNew slot srcRow { m with slotForId := f, idOfSlot := b } =
      { retainRow g flatNew slot srcRow m with slotForId := f, idOfSlot := b } := by
  unfold retainRow
  by_cases h : slot < g.prefillBase ∨ g.reserveRows < m.freeRows.length
  · simp only [h, if_true, Mirror.bump]
  · simp only [h, if_false]

theorem admitFrom_withSlots (done : Nat) (miss : Miss) (srcRow : Nat) (s : SwapState β)
    (f b : Nat → Option Nat) :
    admitFrom g done miss srcRow (s.withSlots f b) =
      (admitFrom g done miss srcRow s).withSlots f b := by
  have hread : readSource g done miss.slot srcRow (s.withSlots f b) =
      (readSource g done miss.slot srcRow s).withSlots f b := rfl
  simp only [admitFrom, hread, evictVictim_withSlots]
  generalize evictVictim g done miss (readSource g done miss.slot srcRow s) = s'
  simp only [SwapState.withSlots, retainRow_slots]

theorem resolveMiss_withSlots (prevSlot : Nat → Option Nat) (done : Nat) (s : SwapState β)
    (miss : Miss) (f b : Nat → Option Nat) :
    resolveMiss g prevSlot done (s.withSlots f b) miss =
      (resolveMiss g prevSlot done s miss).withSlots f b := by
  unfold resolveMiss
  by_cases hprior : miss.prior = some miss.expert
  · simp only [hprior, if_true]
  · simp only [hprior, if_false, withSlots_poolRowOfId]
    cases (prevSlot miss.expert).filter (· ≠ miss.slot) with
    | some here => rfl
    | none =>
      cases s.mirror.poolRowOfId miss.expert with
      | none => rfl
      | some srcRow => exact admitFrom_withSlots done miss srcRow s f b

/-- The kernel leaves the slot maps alone. -/
theorem resolveMiss_slots (prevSlot : Nat → Option Nat) (done : Nat) (s : SwapState β)
    (miss : Miss) :
    (resolveMiss g prevSlot done s miss).mirror.slotForId = s.mirror.slotForId ∧
      (resolveMiss g prevSlot done s miss).mirror.idOfSlot = s.mirror.idOfSlot := by
  have h := resolveMiss_withSlots (g := g) prevSlot done s miss s.mirror.slotForId s.mirror.idOfSlot
  have hs : s.withSlots s.mirror.slotForId s.mirror.idOfSlot = s := rfl
  rw [hs] at h
  rw [h]
  exact ⟨rfl, rfl⟩

/-- A later miss may take its slot before an earlier one is resolved. -/
theorem resolveMiss_seat (prevSlot : Nat → Option Nat) (done : Nat) (s : SwapState β)
    (miss : Miss) (expert slot : Nat) :
    resolveMiss g prevSlot done { s with mirror := seat s.mirror expert slot } miss =
      { resolveMiss g prevSlot done s miss with
        mirror := seat (resolveMiss g prevSlot done s miss).mirror expert slot } := by
  obtain ⟨hf, hb⟩ := resolveMiss_slots (g := g) prevSlot done s miss
  refine (resolveMiss_withSlots prevSlot done s miss _ _).trans ?_
  simp only [seat, hf, hb, SwapState.withSlots]

theorem resolveMiss_ensureExperts (prevSlot : Nat → Option Nat) (done : Nat) (s : SwapState β)
    (miss : Miss) (ms : List Miss) :
    resolveMiss g prevSlot done { s with mirror := ensureExperts s.mirror ms } miss =
      { resolveMiss g prevSlot done s miss with
        mirror := ensureExperts (resolveMiss g prevSlot done s miss).mirror ms } := by
  induction ms generalizing s with
  | nil => rfl
  | cons next ms ih =>
    refine (ih { s with mirror := seat s.mirror next.expert next.slot }).trans ?_
    rw [resolveMiss_seat]
    rfl

/-- **A launch is one admission after the other.** -/
theorem resolveSwaps_eq (prevSlot : Nat → Option Nat) (m : Mirror β) (ms : List Miss) :
    resolveSwaps g prevSlot (ensureExperts m ms) ms =
      ms.foldl (admitMiss g prevSlot m.ring.done) { mirror := m } := by
  have hring : ∀ (ms : List Miss) (m : Mirror β), (ensureExperts m ms).ring = m.ring := by
    intro ms
    induction ms with
    | nil => exact fun _ => rfl
    | cons miss ms ih => exact fun m => ih _
  have main : ∀ (ms : List Miss) (s : SwapState β),
      ms.foldl (resolveMiss g prevSlot m.ring.done) { s with mirror := ensureExperts s.mirror ms } =
        ms.foldl (admitMiss g prevSlot m.ring.done) s := by
    intro ms
    induction ms with
    | nil => exact fun _ => rfl
    | cons miss ms ih =>
      intro s
      rw [List.foldl_cons, List.foldl_cons, ← ih]
      congr 1
      exact resolveMiss_ensureExperts prevSlot m.ring.done
        { s with mirror := seat s.mirror miss.expert miss.slot } miss ms
  rw [resolveSwaps, hring]
  exact main ms { mirror := m }

/-! ## One admission -/

/-- Seating an expert that is on no slot costs the slot's owner its GPU copy. -/
theorem seat_located (h : Located g none m) {expert : Nat} (habsent : m.slotForId expert = none)
    (slot : Nat) :
    Located g (m.idOfSlot slot) (seat m expert slot) := by
  cases hold : m.idOfSlot slot with
  | none =>
    refine ⟨?_, h.rows, h.free, h.inPool, fun id hid hne => ?_⟩
    · simp only [seat, hold]
      exact h.slots.link habsent hold
    · have := h.covered id hid (by simp)
      by_cases heq : id = expert
      · exact Or.inl (by simp [seat, hold, heq])
      · simpa [seat, hold, heq] using this
  | some old =>
    have holdSlot : m.slotForId old = some slot := (h.slots _ _).mpr hold
    have hne : old ≠ expert := by
      rintro rfl
      rw [holdSlot] at habsent
      exact Option.some_ne_none _ habsent
    refine ⟨?_, h.rows, h.free, h.inPool, fun id hid hne' => ?_⟩
    · have hlink := (h.slots.unlink holdSlot).link (i := expert)
        (by rw [update_of_ne hne.symm, habsent]) (update_self ..)
      simp only [update_idem] at hlink
      simpa only [seat, hold] using hlink
    · have hid' : id ≠ old := fun heq => hne' (congrArg some heq)
      by_cases heq : id = expert
      · exact Or.inl (by simp [seat, hold, heq])
      · simpa [seat, hold, heq, hid'] using h.covered id hid (by simp)

/-- A victim that is not dropped has a copy again. -/
theorem VictimMove.located {done slot : Nat} {victim : Option Nat} {descs : List CopyDesc}
    (hmove : VictimMove g done victim slot m m' descs) (h : Located g victim m)
    (hfault : SameFaults m.stats m'.stats) : Located g none m' := by
  -- the row goes from the stack to the victim
  have hown : ∀ (v row : Nat) (free : List Nat) (t : MirrorStat), victim = some v →
      m.poolRowOfId v = none → m.freeRows.Perm (row :: free) →
      Located g none (ownRow { m with stats := t } v row free) := by
    rintro v row free t rfl hnone hperm
    have hfree : Unowned (· < g.capacity) m.idOfPoolRow (row :: (m.freedRows ++ free)) :=
      h.free.perm (List.perm_middle.symm.trans (hperm.symm.append_left _))
    have hrow := (hfree.mem_iff row).mp List.mem_cons_self
    refine ⟨h.slots, h.rows.link hnone hrow.2, hfree.pop v, fun row' id hid => ?_, fun id hid _ => ?_⟩
    · by_cases heq : row' = row
      · exact heq ▸ hrow.1
      · exact h.inPool row' id (by simpa [ownRow, heq] using hid)
    · by_cases heq : id = v
      · exact Or.inr (by simp [ownRow, heq])
      · simpa [ownRow, heq] using h.covered id hid (by simpa using heq)
  cases hmove with
  | covered t hrow =>
    refine ⟨h.slots, h.rows, h.free, h.inPool, fun id hid _ => ?_⟩
    by_cases heq : some id = victim
    · exact Or.inr (hrow id heq.symm)
    · exact h.covered id hid heq
  | stored v row free t hv hnone hfree => exact hown v row free t hv hnone hfree
  | staged v row free hv hnone hfree =>
    have := hown v row free m.stats hv hnone hfree
    exact ⟨this.slots, this.rows, this.free, this.inPool, this.covered⟩
  | starved v t hv hnone hfull ht =>
    have := hfault.1
    dsimp only at this
    omega

/-- The row of an expert on the GPU may be freed. -/
theorem retainRow_located (h : Located g none m) {expert slot srcRow : Nat}
    (hslot : m.slotForId expert ≠ none) (hrow : m.poolRowOfId expert = some srcRow) :
    Located g none (retainRow g expert slot srcRow m) := by
  unfold retainRow
  split
  · exact ⟨h.slots, h.rows, h.free, h.inPool, h.covered⟩
  · have howner : m.idOfPoolRow srcRow = some expert := (h.rows _ _).mp hrow
    refine ⟨h.slots, h.rows.unlink hrow, ?_, fun row id hid => ?_, fun id hid _ => ?_⟩
    · refine (h.free.push (h.inPool _ _ howner) howner).perm ?_
      simp
    · by_cases heq : row = srcRow
      · simp [heq] at hid
      · exact h.inPool row id (by simpa [heq] using hid)
    · by_cases heq : id = expert
      · exact Or.inl (heq ▸ hslot)
      · simpa [heq] using h.covered id hid (by simp)

/-! ### Rows for the victims -/

/-- The victim of a miss has no pool row. -/
def soleVictim (m : Mirror β) (victim : Option Nat) : Bool :=
  victim.any fun v => (m.poolRowOfId v).isNone

/-- There are no more rows with a copy to come than entries in the ring. -/
theorem RingOk.length_le (h : RingOk g m.ring) {rows : List Nat} (hnd : rows.Nodup)
    (hdirty : ∀ row ∈ rows, clean m.ring.done m row = false) :
    rows.length ≤ m.ring.head - m.ring.done := by
  have hpend : ∀ row ∈ rows, ∃ idx, m.ring.pend row = some idx ∧ m.ring.done ≤ idx := by
    intro row hrow
    have := hdirty row hrow
    unfold clean at this
    split at this
    · exact ⟨_, ‹_›, by simpa using this⟩
    · simp at this
  have hinj : (rows.map fun row => (m.ring.pend row).getD 0).Nodup := by
    refine hnd.map_on fun row hrow row' hrow' heq => ?_
    obtain ⟨idx, hidx, -⟩ := hpend row hrow
    obtain ⟨idx', hidx', -⟩ := hpend row' hrow'
    simp only [hidx, hidx', Option.getD_some] at heq
    exact h.inj row row' idx hidx (heq ▸ hidx')
  have hsub : (rows.map fun row => (m.ring.pend row).getD 0) ⊆
      List.range' m.ring.done (m.ring.head - m.ring.done) := by
    intro i hi
    obtain ⟨row, hrow, rfl⟩ := List.mem_map.mp hi
    obtain ⟨idx, hidx, hle⟩ := hpend row hrow
    have := h.staged row idx hidx
    rw [hidx, Option.getD_some, List.mem_range'_1]
    omega
  have := (List.subperm_of_subset hinj hsub).length_le
  rwa [List.length_map, List.length_range'] at this

variable {done slot : Nat} {victim : Option Nat} {descs : List CopyDesc}

/-- **A sole victim is moved when there are more free rows than ring slots.** -/
theorem VictimMove.fed (hmove : VictimMove g done victim slot m m' descs) (hring : RingOk g m.ring)
    (hdone : done = m.ring.done) (hnd : m.freeRows.Nodup)
    (hroom : soleVictim m victim = true → g.wbStageRows < m.freeRows.length) :
    SameFaults m.stats m'.stats := by
  cases hmove with
  | covered t hrow ht => exact ht
  | stored v row free t hv hnone hfree hclean ht => exact ht
  | staged v row free hv hnone hfree hroom => exact ⟨rfl, rfl⟩
  | starved v t hv hnone hfull ht =>
    have hlt := hroom (by simp [soleVictim, hv, hnone])
    have := hring.length_le hnd fun row hrow => hdone ▸ (hfull row hrow).2.2
    have := hring.bound
    omega

theorem VictimMove.ringOk (hmove : VictimMove g done victim slot m m' descs) (hring : RingOk g m.ring)
    (hdone : done = m.ring.done) : RingOk g m'.ring := by
  cases hmove with
  | covered t hrow ht => exact hring
  | stored v row free t hv hnone hfree hclean ht => exact hring
  | starved v t hv hnone hfull ht => exact hring
  | staged v row free hv hnone hfree hroom =>
    have hle := hring.done_le
    refine ⟨fun row' idx hidx => ?_, fun row₁ row₂ idx h₁ h₂ => ?_, ?_, ?_⟩
    · by_cases heq : row' = row
      · simp [ownRow, stageRow, heq] at hidx ⊢
        omega
      · have := hring.staged row' idx (by simpa [ownRow, stageRow, heq] using hidx)
        simp only [ownRow, stageRow]
        omega
    · have hlt : ∀ row', row' ≠ row → (ownRow (stageRow g m row) v row free).ring.pend row' =
          some idx → m.ring.pend row' = some idx ∧ idx < m.ring.head := by
        intro row' hne h
        have h' : m.ring.pend row' = some idx := by simpa [ownRow, stageRow, hne] using h
        exact ⟨h', hring.staged _ _ h'⟩
      by_cases he₁ : row₁ = row <;> by_cases he₂ : row₂ = row
      · rw [he₁, he₂]
      · have := (hlt _ he₂ h₂).2
        simp [ownRow, stageRow, he₁] at h₁
        omega
      · have := (hlt _ he₁ h₁).2
        simp [ownRow, stageRow, he₂] at h₂
        omega
      · exact hring.inj _ _ idx (hlt _ he₁ h₁).1 (hlt _ he₂ h₂).1
    · simp only [ownRow, stageRow]
      omega
    · simp only [ownRow, stageRow]
      omega

theorem VictimMove.frame (hmove : VictimMove g done victim slot m m' descs) :
    m'.slotForId = m.slotForId ∧ m'.idOfSlot = m.idOfSlot ∧ m'.freedRows = m.freedRows ∧
      m'.ring.done = m.ring.done ∧
      ∀ id, some id ≠ victim → m'.poolRowOfId id = m.poolRowOfId id := by
  cases hmove with
  | covered t hrow ht => exact ⟨rfl, rfl, rfl, rfl, fun _ _ => rfl⟩
  | starved v t hv hnone hfull ht => exact ⟨rfl, rfl, rfl, rfl, fun _ _ => rfl⟩
  | stored v row free t hv hnone hfree hclean ht =>
    refine ⟨rfl, rfl, rfl, rfl, fun id hid => update_of_ne ?_ _ _⟩
    rintro rfl
    exact hid hv.symm
  | staged v row free hv hnone hfree hroom =>
    refine ⟨rfl, rfl, rfl, rfl, fun id hid => update_of_ne ?_ _ _⟩
    rintro rfl
    exact hid hv.symm

/-- A sole victim takes one row. -/
theorem VictimMove.freeRows (hmove : VictimMove g done victim slot m m' descs)
    (hfault : SameFaults m.stats m'.stats) :
    m'.freeRows.length + (if soleVictim m victim then 1 else 0) = m.freeRows.length := by
  cases hmove with
  | covered t hrow ht =>
    have : soleVictim m victim = false := by
      cases victim with
      | none => rfl
      | some v => simpa [soleVictim] using Option.isSome_iff_ne_none.mpr (hrow v rfl)
    simp [this]
  | stored v row free t hv hnone hfree hclean ht =>
    simp [soleVictim, hv, hnone, ownRow, hfree.length_eq]
  | staged v row free hv hnone hfree hroom =>
    simp [soleVictim, hv, hnone, ownRow, hfree.length_eq]
  | starved v t hv hnone hfull ht =>
    have := hfault.1
    dsimp only at this
    omega

/-- **What one admission of a launch changes.** -/
structure Admitted (g : Geometry) (m : Mirror β) (expert slot : Nat) (m' : Mirror β) : Prop where
  located : Located g none m'
  ring : RingOk g m'.ring
  done : m'.ring.done = m.ring.done
  faults : SameFaults m.stats m'.stats
  seated : m'.slotForId = (seat m expert slot).slotForId
  occupants : m'.idOfSlot = update m.idOfSlot slot (some expert)
  others : ∀ slot', slot' ≠ slot → soleCopy m' slot' = soleCopy m slot'
  freeRows : m'.freeRows.length + (if soleCopy m slot then 1 else 0) = m.freeRows.length
  freed : m'.freedRows.length = m.freedRows.length + if soleCopy m' slot then 1 else 0
  retained : soleCopy m' slot = false →
    slot < g.prefillBase ∨ g.reserveRows < m'.freeRows.length

theorem soleCopy_eq_soleVictim (m : Mirror β) (slot : Nat) :
    soleCopy m slot = soleVictim m (m.idOfSlot slot) := by
  unfold soleCopy soleVictim
  cases m.idOfSlot slot <;> rfl

/-- What keeping or freeing the row of an admission changes. -/
theorem retainRow_frame (m : Mirror β) (expert slot srcRow : Nat) :
    (retainRow g expert slot srcRow m).slotForId = m.slotForId ∧
      (retainRow g expert slot srcRow m).idOfSlot = m.idOfSlot ∧
      (retainRow g expert slot srcRow m).ring = m.ring ∧
      SameFaults m.stats (retainRow g expert slot srcRow m).stats ∧
      (retainRow g expert slot srcRow m).freeRows = m.freeRows := by
  unfold retainRow
  split
  · exact ⟨rfl, rfl, rfl, ⟨rfl, rfl⟩, rfl⟩
  · exact ⟨rfl, rfl, rfl, ⟨rfl, rfl⟩, rfl⟩

/-- The row is freed with the expert's claim to it, or kept above the floor. -/
theorem retainRow_freed (m : Mirror β) {expert slot srcRow : Nat}
    (hrow : m.poolRowOfId expert = some srcRow) :
    let kept := ((retainRow g expert slot srcRow m).poolRowOfId expert).isSome
    (retainRow g expert slot srcRow m).freedRows.length =
        m.freedRows.length + (if kept then 0 else 1) ∧
      (kept → slot < g.prefillBase ∨ g.reserveRows < m.freeRows.length) := by
  unfold retainRow
  split
  · rename_i h
    simp [Mirror.bump, hrow, h]
  · simp

/-- **One admission, when there are more free rows than ring slots for a sole victim.** -/
theorem admit_step {prevSlot : Nat → Option Nat} {s : SwapState β} {miss : Miss}
    (h : Located g none s.mirror) (hring : RingOk g s.mirror.ring)
    (hdone : done = s.mirror.ring.done) (hid : miss.expert < g.total)
    (habsent : s.mirror.slotForId miss.expert = none) (hprev : prevSlot miss.expert = none)
    (hvictim : miss.victim = s.mirror.idOfSlot miss.slot)
    (hprior : miss.prior = s.mirror.idOfSlot miss.slot)
    (hroom : soleCopy s.mirror miss.slot = true → g.wbStageRows < s.mirror.freeRows.length) :
    Admitted g s.mirror miss.expert miss.slot (admitMiss g prevSlot done s miss).mirror := by
  obtain ⟨m, g1, g2⟩ := s
  dsimp only at *
  have hnot : m.idOfSlot miss.slot ≠ some miss.expert := by
    intro heq
    rw [← h.slots, habsent] at heq
    exact Option.some_ne_none _ heq.symm
  obtain ⟨srcRow, hsrc⟩ : ∃ srcRow, m.poolRowOfId miss.expert = some srcRow :=
    Option.ne_none_iff_exists'.mp ((h.covered _ hid (by simp)).resolve_left (not_not.mpr habsent))
  have hfrom : admitMiss g prevSlot done ⟨m, g1, g2⟩ miss =
      admitFrom g done miss srcRow ⟨seat m miss.expert miss.slot, g1, g2⟩ := by
    have hseat : (seat m miss.expert miss.slot).poolRowOfId = m.poolRowOfId := rfl
    simp only [admitMiss, resolveMiss, hprior, hnot, if_false, hprev, Option.filter_none, hseat, hsrc]
  obtain ⟨m₂, descs, hmove, heq⟩ := evictVictim_move (g := g)
    (s := readSource g done miss.slot srcRow ⟨seat m miss.expert miss.slot, g1, g2⟩)
  rw [hfrom, admitFrom, heq]
  have hseat := seat_located h habsent miss.slot
  have hloc₁ : Located g miss.victim
      (readSource g done miss.slot srcRow ⟨seat m miss.expert miss.slot, g1, g2⟩).mirror := by
    rw [hvictim]
    exact ⟨hseat.slots, hseat.rows, hseat.free, hseat.inPool, hseat.covered⟩
  have hsole : soleVictim
      (readSource g done miss.slot srcRow ⟨seat m miss.expert miss.slot, g1, g2⟩).mirror
      miss.victim = soleCopy m miss.slot := by
    rw [hvictim, soleCopy_eq_soleVictim]
    rfl
  have hfed := hmove.fed hring hdone h.free.nodup.of_append_right (hsole ▸ hroom)
  have hloc₂ := hmove.located hloc₁ hfed
  obtain ⟨hsf, hos, hfreed, hdone₂, hrows⟩ := hmove.frame
  have hfree := hmove.freeRows hfed
  rw [hsole] at hfree
  have hsrc₂ : m₂.poolRowOfId miss.expert = some srcRow :=
    (hrows _ (hvictim ▸ hnot.symm)).trans hsrc
  have hslot₂ : m₂.slotForId miss.expert = some miss.slot := by
    rw [hsf]
    exact update_self ..
  obtain ⟨hsf', hos', hring', hfault', hfree'⟩ :=
    retainRow_frame (g := g) m₂ miss.expert miss.slot srcRow
  have hocc : (retainRow g miss.expert miss.slot srcRow m₂).idOfSlot =
      update m.idOfSlot miss.slot (some miss.expert) := hos'.trans hos
  -- only the rows of the victim and of the admitted expert have changed
  have hkept : ∀ id, id ≠ miss.expert → some id ≠ miss.victim →
      (retainRow g miss.expert miss.slot srcRow m₂).poolRowOfId id = m.poolRowOfId id := by
    intro id hne hv
    refine Eq.trans ?_ (hrows id hv)
    unfold retainRow
    split
    · rfl
    · exact update_of_ne hne _ _
  have hmine : soleCopy (retainRow g miss.expert miss.slot srcRow m₂) miss.slot =
      !((retainRow g miss.expert miss.slot srcRow m₂).poolRowOfId miss.expert).isSome := by
    rw [soleCopy_eq_soleVictim, hocc, update_self]
    simp [soleVictim]
  refine ⟨retainRow_located hloc₂ (by simp [hslot₂]) hsrc₂, ?_, ?_, ?_, hsf'.trans hsf, hocc,
    fun slot' hne => ?_, by rw [hfree']; exact hfree, ?_, fun hkeep => ?_⟩
  · rw [hring']
    exact hmove.ringOk hring hdone
  · rw [hring', hdone₂]
    rfl
  · exact ⟨hfault'.1.trans hfed.1, hfault'.2.trans hfed.2⟩
  · rw [soleCopy_eq_soleVictim, soleCopy_eq_soleVictim, hocc, update_of_ne hne]
    cases hid' : m.idOfSlot slot' with
    | none => rfl
    | some id =>
      have hne₁ : id ≠ miss.expert := by
        rintro rfl
        rw [← h.slots, habsent] at hid'
        exact Option.some_ne_none _ hid'.symm
      have hne₂ : some id ≠ miss.victim := by
        rw [hvictim]
        intro heq
        exact hne (h.slots.symm.inj hid' heq.symm)
      simp only [soleVictim, Option.any_some, hkept id hne₁ hne₂]
  · rw [hmine, (retainRow_freed m₂ hsrc₂).1, hfreed]
    cases ((retainRow g miss.expert miss.slot srcRow m₂).poolRowOfId miss.expert).isSome <;> rfl
  · rw [hfree']
    refine (retainRow_freed m₂ hsrc₂).2 ?_
    rwa [hmine, Bool.not_eq_false'] at hkeep

/-! ## A whole launch -/

/-- The sole copies of some slots when one of them changes. -/
theorem soleCopies_change {slots : List Nat} (hnd : slots.Nodup) {slot : Nat} (hmem : slot ∈ slots)
    (hothers : ∀ slot', slot' ≠ slot → soleCopy m' slot' = soleCopy m slot') :
    soleCopies m' slots + (if soleCopy m slot then 1 else 0) =
      soleCopies m slots + if soleCopy m' slot then 1 else 0 := by
  have hperm := List.perm_cons_erase hmem
  have hrest : (slots.erase slot).countP (soleCopy m') = (slots.erase slot).countP (soleCopy m) :=
    List.countP_congr fun slot' hmem' => by
      rw [hothers slot' (hnd.mem_erase_iff.mp hmem').1]
  rw [soleCopies, soleCopies, hperm.countP_eq, hperm.countP_eq, List.countP_cons, List.countP_cons,
    hrest]
  omega

theorem soleCopies_congr {slots : List Nat} {slot : Nat} (hmem : slot ∉ slots)
    (hothers : ∀ slot', slot' ≠ slot → soleCopy m' slot' = soleCopy m slot') :
    soleCopies m' slots = soleCopies m slots :=
  List.countP_congr fun slot' hmem' => by rw [hothers slot' (ne_of_mem_of_not_mem hmem' hmem)]

/-- Misses of one launch that are still to be admitted. -/
structure Waiting (g : Geometry) (prevSlot : Nat → Option Nat) (m : Mirror β) (ms : List Miss) :
    Prop where
  experts : (ms.map Miss.expert).Nodup
  slots : (ms.map Miss.slot).Nodup
  absent : ∀ miss ∈ ms, m.slotForId miss.expert = none ∧ prevSlot miss.expert = none
  valid : ∀ miss ∈ ms, miss.expert < g.total ∧ miss.slot < g.cacheSize
  owners : ∀ miss ∈ ms, miss.victim = m.idOfSlot miss.slot ∧ miss.prior = m.idOfSlot miss.slot

theorem Waiting.tail {prevSlot : Nat → Option Nat} {miss : Miss} {ms : List Miss}
    (h : Waiting g prevSlot m (miss :: ms)) (hstep : Admitted g m miss.expert miss.slot m') :
    Waiting g prevSlot m' ms := by
  obtain ⟨hnotExpert, hexperts⟩ := List.nodup_cons.mp h.experts
  obtain ⟨hnotSlot, hslots⟩ := List.nodup_cons.mp h.slots
  refine ⟨hexperts, hslots, fun next hnext => ?_, fun next hnext => ?_, fun next hnext => ?_⟩
  · obtain ⟨habsent, hprev⟩ := h.absent next (List.mem_cons_of_mem _ hnext)
    refine ⟨?_, hprev⟩
    have hne : next.expert ≠ miss.expert := fun heq =>
      hnotExpert (heq ▸ List.mem_map_of_mem hnext)
    rw [hstep.seated]
    simp only [seat, update_of_ne hne]
    cases m.idOfSlot miss.slot with
    | none => exact habsent
    | some old =>
      by_cases heq : next.expert = old
      · simp [heq]
      · simpa [heq] using habsent
  · exact h.valid next (List.mem_cons_of_mem _ hnext)
  · have hne : next.slot ≠ miss.slot := fun heq => hnotSlot (heq ▸ List.mem_map_of_mem hnext)
    rw [hstep.occupants, update_of_ne hne]
    exact h.owners next (List.mem_cons_of_mem _ hnext)

/-- The first `region` slots and `slack` rows more: what the free rows must outnumber. -/
structure Slack (g : Geometry) (burst region slack : Nat) : Prop where
  base : g.prefillBase ≤ region
  /-- Retention leaves the rows alone that are counted on. -/
  floor : g.cacheSize ≤ region ∨ region + slack ≤ g.reserveRows
  /-- A launch finds the rows it takes. -/
  burst : g.cacheSize ≤ region ∧ g.wbStageRows ≤ slack ∨ burst + g.wbStageRows ≤ slack

/-- The rows that are free, or will be, suffice. -/
def Roomy (region slack : Nat) (m : Mirror β) : Prop :=
  soleCopies m (List.range region) + slack ≤ m.freeRows.length + m.freedRows.length

/-- An admission costs a row only where it makes a sole copy one less, or above the floor. -/
theorem Admitted.roomy {burst region slack expert slot : Nat} (hs : Slack g burst region slack)
    (h : Admitted g m expert slot m') (hslot : slot < g.cacheSize) (hroom : Roomy region slack m) :
    Roomy region slack m' := by
  unfold Roomy at hroom ⊢
  have hfree := h.freeRows
  have hfreed := h.freed
  by_cases hin : slot < region
  · have hchange := soleCopies_change (List.nodup_range (n := region)) (List.mem_range.mpr hin)
      h.others
    omega
  · have hout : slot ∉ List.range region := fun hmem => hin (List.mem_range.mp hmem)
    have hcongr := soleCopies_congr hout h.others
    cases hkept : soleCopy m' slot with
    | true =>
      rw [hkept] at hfreed
      simp only [if_true] at hfreed
      split at hfree <;> omega
    | false =>
      have hle : soleCopies m (List.range region) ≤ region := by
        simpa [soleCopies] using List.countP_le_length (p := soleCopy m) (l := List.range region)
      have := h.retained hkept
      have := hs.base
      have := hs.floor
      omega

/-- What a launch keeps, miss by miss. -/
structure Launched (g : Geometry) (region slack : Nat) (m m' : Mirror β) : Prop where
  located : Located g none m'
  ring : RingOk g m'.ring
  roomy : Roomy region slack m'
  faults : SameFaults m.stats m'.stats

theorem admitAll_keeps {burst region slack : Nat} (hs : Slack g burst region slack)
    {prevSlot : Nat → Option Nat} {ms : List Miss} {s : SwapState β}
    (h : Located g none s.mirror) (hring : RingOk g s.mirror.ring)
    (hdone : done = s.mirror.ring.done) (hwait : Waiting g prevSlot s.mirror ms)
    (hroom : Roomy region slack s.mirror)
    (hrows : soleCopies s.mirror (ms.map Miss.slot) + g.wbStageRows ≤ s.mirror.freeRows.length) :
    Launched g region slack s.mirror (ms.foldl (admitMiss g prevSlot done) s).mirror := by
  induction ms generalizing s with
  | nil => exact ⟨h, hring, hroom, rfl, rfl⟩
  | cons miss ms ih =>
    obtain ⟨habsent, hprev⟩ := hwait.absent miss List.mem_cons_self
    obtain ⟨hid, hslot⟩ := hwait.valid miss List.mem_cons_self
    obtain ⟨hvictim, hprior⟩ := hwait.owners miss List.mem_cons_self
    have hcons : soleCopies s.mirror ((miss :: ms).map Miss.slot) =
        soleCopies s.mirror (ms.map Miss.slot) + if soleCopy s.mirror miss.slot then 1 else 0 :=
      List.countP_cons
    rw [hcons] at hrows
    have hstep := admit_step h hring hdone hid habsent hprev hvictim hprior fun hsole => by
      rw [hsole, if_pos rfl] at hrows
      omega
    have hrest : soleCopies (admitMiss g prevSlot done s miss).mirror (ms.map Miss.slot) =
        soleCopies s.mirror (ms.map Miss.slot) :=
      soleCopies_congr (List.nodup_cons.mp hwait.slots).1 hstep.others
    have hfree := hstep.freeRows
    have := ih hstep.located hstep.ring (hdone.trans hstep.done.symm) (hwait.tail hstep)
      (hstep.roomy hs hslot hroom) (by rw [hrest]; omega)
    rw [List.foldl_cons]
    exact ⟨this.located, this.ring, this.roomy, this.faults.1.trans hstep.faults.1,
      this.faults.2.trans hstep.faults.2⟩

/-! ### The launch as the code runs it -/

/-- Copies move bytes only. -/
theorem copyKinds_maps (m : Mirror β) (descs : List CopyDesc) :
    ∃ gpu pool stage, copyKinds m descs = { m with gpu := gpu, pool := pool, stage := stage } := by
  have main : ∀ (descs : List CopyDesc) (acc : Mirror β), ∃ gpu pool stage,
      descs.foldl (fun acc d => writeKind acc d.dst (readKind m d.srcKind d.src) d.dstKind) acc =
        { acc with gpu := gpu, pool := pool, stage := stage } := by
    intro descs
    induction descs with
    | nil => exact fun acc => ⟨acc.gpu, acc.pool, acc.stage, rfl⟩
    | cons d descs ih =>
      intro acc
      obtain ⟨gpu, pool, stage, heq⟩ :=
        ih (writeKind acc d.dst (readKind m d.srcKind d.src) d.dstKind)
      refine ⟨gpu, pool, stage, heq.trans ?_⟩
      cases d.dstKind <;> rfl
  exact main descs m

theorem Launched.copyKinds {region slack : Nat} (h : Launched g region slack m m')
    (descs : List CopyDesc) : Launched g region slack m (copyKinds m' descs) := by
  obtain ⟨gpu, pool, stage, heq⟩ := copyKinds_maps m' descs
  rw [heq]
  exact ⟨⟨h.located.slots, h.located.rows, h.located.free, h.located.inPool, h.located.covered⟩,
    h.ring, h.roomy, h.faults⟩

theorem Launched.publish {region slack : Nat} (h : Launched g region slack m m') :
    Launched g region slack m (publishFreedRows m') := by
  refine ⟨⟨h.located.slots, h.located.rows, h.located.free.perm ?_, h.located.inPool,
    h.located.covered⟩, h.ring, ?_, h.faults⟩
  · exact (List.reverse_perm _).append_right _
  · have := h.roomy
    unfold Roomy soleCopies at this ⊢
    simp only [publishFreedRows, List.length_append, List.length_reverse, List.length_nil]
    change (List.range region).countP (soleCopy m') + slack ≤ _
    omega

/-- Each miss has the victim slot that was chosen for it. -/
theorem misses_slots {layerId : Nat} {active victims : List Nat}
    (hv : ValidVictims g m layerId active victims) :
    (misses g m layerId active victims).map Miss.slot = victims := by
  rw [misses, List.map_map]
  exact List.map_snd_zip (Nat.le_of_eq hv.length)

theorem misses_experts {layerId : Nat} {active victims : List Nat}
    (hv : ValidVictims g m layerId active victims) :
    (misses g m layerId active victims).map Miss.expert = missing g m layerId active := by
  rw [misses, List.map_map]
  exact List.map_fst_zip (Nat.le_of_eq hv.length.symm)

/-- The misses that the admission kernel seats wait to be resolved. -/
theorem misses_waiting {layerId : Nat} {active victims : List Nat} (hl : layerId < g.numLayers)
    (hv : ValidVictims g m layerId active victims) :
    Waiting g m.slotForId m (misses g m layerId active victims) := by
  have hmem : ∀ miss ∈ misses g m layerId active victims,
      miss.expert ∈ missing g m layerId active ∧ miss.slot ∈ victims := fun miss hmiss =>
    ⟨misses_experts hv ▸ List.mem_map_of_mem hmiss, misses_slots hv ▸ List.mem_map_of_mem hmiss⟩
  have hmissing : ∀ id ∈ missing g m layerId active, m.slotForId id = none ∧ id < g.total := by
    intro id hid
    obtain ⟨e, he, rfl⟩ := List.mem_map.mp hid
    simp only [List.mem_filter, List.mem_range, decide_eq_true_eq] at he
    exact ⟨he.2.2, id_lt_total hl he.1⟩
  refine ⟨?_, ?_, fun miss hmiss => ?_, fun miss hmiss => ?_, fun miss hmiss => ?_⟩
  · rw [misses_experts hv]
    exact (List.nodup_range.filter _).map fun a b heq => Nat.add_left_cancel heq
  · rw [misses_slots hv]
    exact hv.nodup
  · have := (hmissing _ (hmem miss hmiss).1).1
    exact ⟨this, this⟩
  · exact ⟨(hmissing _ (hmem miss hmiss).1).2, hv.usable _ (hmem miss hmiss).2⟩
  · obtain ⟨p, -, rfl⟩ := List.mem_map.mp hmiss
    exact ⟨rfl, rfl⟩

/-- **A launch with the misses it may have starves nothing.** -/
theorem decodeLayer_keeps {burst region slack : Nat} (hs : Slack g burst region slack)
    {layerId : Nat} {active victims : List Nat} (h : Located g none m) (hfreed : m.freedRows = [])
    (hring : RingOk g m.ring) (hroom : Roomy region slack m) (hl : layerId < g.numLayers)
    (hv : ValidVictims g m layerId active victims) (hburst : victims.length ≤ burst) :
    Launched g region slack m (decodeLayer g layerId active victims m) := by
  have hwait := misses_waiting hl hv
  have hrows : soleCopies m victims + g.wbStageRows ≤ m.freeRows.length := by
    unfold Roomy at hroom
    rw [hfreed, List.length_nil] at hroom
    rcases hs.burst with ⟨hall, hslack⟩ | hslack
    · have hsub : victims.Subperm (List.range region) :=
        List.subperm_of_subset hv.nodup fun slot hslot =>
          List.mem_range.mpr (Nat.lt_of_lt_of_le (hv.usable slot hslot) hall)
      have : soleCopies m victims ≤ soleCopies m (List.range region) := hsub.countP_le _
      omega
    · have : soleCopies m victims ≤ victims.length := List.countP_le_length
      omega
  have hlaunch := admitAll_keeps hs (s := { mirror := m }) h hring rfl hwait hroom
    (by rw [misses_slots hv]; exact hrows)
  rw [decodeLayer, resolveSwaps_eq]
  exact ((hlaunch.copyKinds _).copyKinds _).publish

end FreeToken.Mirror
