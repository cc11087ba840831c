import FreeToken.Spill.BookMoves

/-!
# Discarding, finishing and tracking, seen from the books

What the programs around a record that goes do to the store object. Their file
operations leave it alone, so that each is a function of the store it starts from,
up to whether a background write was found failed and whether a comparison raised.
-/

namespace FreeToken.Spill

open FreeToken.Lib

variable {env : Env} {α β : Type} {s : Store} {i : RecordId}

/-! ## Reading and writing the store -/

/-- The store object is `s`. -/
def Is (s : Store) (w : World) : Prop := w.store = s

theorem reading_store {k : Store → M β} {Q : β → World → Prop} {E : World → Prop}
    (h : Triple (Is s) (k s) Q E) : Triple (Is s) (getStore >>= k) Q E :=
  .bind (m := getStore) (Q := fun a w => a = s ∧ Is s w) (fun _ hw => ⟨hw, hw⟩) fun _ w hw =>
    hw.1 ▸ h w hw.2

theorem reading_record {k : SessionSpillRecord → M β} {Q : β → World → Prop} {E : World → Prop}
    (h : Triple (Is s) (k (s.record i)) Q E) : Triple (Is s) (getRecord i >>= k) Q E :=
  .bind (m := getRecord i) (Q := fun a w => a = s.record i ∧ Is s w)
    (fun _ hw => ⟨congrArg (fun t : Store => t.record i) hw, hw⟩) fun _ w hw => hw.1 ▸ h w hw.2

theorem reading_world {k : World → M β} {Q : β → World → Prop} {E : World → Prop}
    (h : ∀ w : World, w.store = s → Triple (Is s) (k w) Q E) : Triple (Is s) (get >>= k) Q E :=
  .read fun w hw => .at hw (h w hw)

/-- `modifyStore g` leaves the store object at `g s`. -/
theorem modifyStore_is (g : Store → Store) {E : World → Prop} :
    Triple (Is s) (modifyStore g) (fun _ => Is (g s)) E :=
  .modify fun _ hw => congrArg g hw

/-- After `modifyStore g` the store object is `g s`. -/
theorem updating {g : Store → Store} {k : Unit → M β} {Q : β → World → Prop}
    {E : World → Prop} (h : Triple (Is (g s)) (k ()) Q E) :
    Triple (Is s) (modifyStore g >>= k) Q E :=
  (modifyStore_is g).bind fun _ => h

theorem leaves_is {m : M α} (h : Leaves World.store m) :
    Triple (Is s) m (fun _ => Is s) (Is s) := h.triple (P := (· = s))

theorem quiet_is {m : M α} (h : Quiet World.store m) {E : World → Prop} :
    Triple (Is s) m (fun _ => Is s) E := (h s).mono (fun _ h => h) (fun _ _ h => h) fun _ h => h.elim

/-! ## A record goes -/

namespace Store

/-- The bytes of a discarded record; a copy of it still being made is called off. -/
def giveUp (i : RecordId) (s : Store) : Store :=
  match (s.record i).tier with
  | .ram => (s.giveBack i).cancelWriteBehindOf i
  | .disk => s.giveBack i

/-- `discard` of a record that owes nothing. -/
def forget (i : RecordId) (s : Store) : Store :=
  if (s.record i).valid then
    ((((s.cancelPrefetchOf i).forgetPromoted (s.record i).sessionId).untrack i).giveUp
      i).setRecord i fun r => { r with chunks := [] }
  else s

end Store

theorem dropBacking_is (i : RecordId) {E : World → Prop} :
    Triple (Is s) (dropBacking env i) (fun _ => Is (s.withoutBacking i)) E := by
  refine reading_record ?_
  rw [Store.withoutBacking]
  cases hb : (s.record i).backing with
  | none => exact .pure fun _ h => h
  | some b => exact (quiet_is (rmtree_quiet _)).bind fun _ => modifyStore_is _

theorem discardBytes_is (i : RecordId) {r : SessionSpillRecord} (ht : r.tier = (s.record i).tier)
    (hb : r.byteSize = (s.record i).byteSize) {E : World → Prop} :
    Triple (Is s) (discardBytes env i r) (fun _ => Is (s.giveUp i)) E := by
  rw [discardBytes, Store.giveUp, Store.giveBack, ht, hb]
  cases (s.record i).tier with
  | ram => exact updating ((dropBacking_is i).bind fun _ => modifyStore_is _)
  | disk => exact updating (updating (quiet_is (rmtreeAll_quiet _)))

theorem discardSettled_is (i : RecordId) {E : World → Prop} :
    Triple (Is s) (discardSettled env i) (fun _ => Is (s.forget i)) E := by
  refine reading_record (.onlyIf (fun hv => ?_) fun hv w hw => ?_)
  · rw [Store.forget, if_pos hv]
    have hrec : (((s.cancelPrefetchOf i).forgetPromoted (s.record i).sessionId).untrack i).record i =
        { s.record i with valid := false } := by
      rw [untrack_record_same, (untracked_flags s i).2]
    refine updating ((discardBytes_is i ?_ ?_).bind fun _ => modifyStore_is _)
    · rw [hrec]
    · rw [hrec]
  · rw [Store.forget, if_neg hv]
    exact hw

/-! ## What is gone -/

/-- Record `i` is not valid any more; the index has only lost entries, and the other
records are as they were. -/
structure Gone (i : RecordId) (s s' : Store) : Prop where
  invalid : (s'.record i).valid = false
  others : ∀ j, j ≠ i → s'.record j = s.record j
  index : ∀ sid j, s'.bySession sid = some j → s.bySession sid = some j
  config : s'.config = s.config

/-- `s'` differs from `s` in what record `i` holds, not in whether it is valid. -/
structure Spent (i : RecordId) (s s' : Store) : Prop where
  valid : (s'.record i).valid = (s.record i).valid
  others : ∀ j, j ≠ i → s'.record j = s.record j
  index : s'.bySession = s.bySession
  config : s'.config = s.config
  write : s'.pendingWrites = s.pendingWrites

theorem Spent.refl (i : RecordId) (s : Store) : Spent i s s :=
  ⟨rfl, fun _ _ => rfl, rfl, rfl, rfl⟩

theorem Spent.trans {s' s'' : Store} (h : Spent i s s') (h' : Spent i s' s'') : Spent i s s'' :=
  ⟨h'.valid.trans h.valid, fun j hj => (h'.others j hj).trans (h.others j hj),
    h'.index.trans h.index, h'.config.trans h.config, h'.write.trans h.write⟩

theorem spent_creditRam (n : Nat) : Spent i s (s.creditRam n) := ⟨rfl, fun _ _ => rfl, rfl, rfl, rfl⟩

theorem spent_creditDisk (n : Nat) : Spent i s (s.creditDisk n) :=
  ⟨rfl, fun _ _ => rfl, rfl, rfl, rfl⟩

theorem spent_setRecord {f : SessionSpillRecord → SessionSpillRecord}
    (h : (f (s.record i)).valid = (s.record i).valid) : Spent i s (s.setRecord i f) :=
  ⟨by rw [setRecord_same, h], fun _ hj => setRecord_of_ne hj, rfl, rfl, rfl⟩

theorem spent_dropCache : Spent i s (s.dropCache i) := by
  rw [Store.dropCache]
  split
  · exact (spent_creditRam _).trans (spent_setRecord rfl)
  · exact .refl i s

theorem spent_cancelWriteBehindOf (j : RecordId) : Spent i s (s.cancelWriteBehindOf j) := by
  rw [Store.cancelWriteBehindOf]
  split <;> exact ⟨rfl, fun _ _ => rfl, rfl, rfl, rfl⟩

theorem spent_withoutBacking : Spent i s (s.withoutBacking i) := by
  rw [Store.withoutBacking]
  split
  · exact (spent_setRecord rfl).trans (spent_creditDisk _)
  · exact .refl i s

theorem spent_giveBack : Spent i s (s.giveBack i) := by
  rw [Store.giveBack]
  split
  · exact (spent_creditRam _).trans spent_withoutBacking
  · exact (spent_creditDisk _).trans spent_dropCache

theorem spent_giveUp : Spent i s (s.giveUp i) := by
  rw [Store.giveUp]
  split
  · exact spent_giveBack.trans (spent_cancelWriteBehindOf i)
  · exact spent_giveBack

theorem Filed.of_unfile {records record nextRecord bySession} {sid : String} {j : RecordId}
    (h : Filed records record nextRecord bySession)
    (hj : unfile record bySession i sid = some j) : bySession sid = some j :=
  ((h.unfile_iff i).mp hj).1

theorem forget_gone {a b c : Int} (h : Books a b c s) (i : RecordId) : Gone i s (s.forget i) := by
  rw [Store.forget]
  split
  · have hflags := untracked_flags s i
    let t := (s.cancelPrefetchOf i).forgetPromoted (s.record i).sessionId
    have ht : Books a b c t := (h.cancelPrefetchOf i).forgetPromoted _
    have hsame : t.bySession = s.bySession ∧ t.config = s.config := by
      simp only [t]
      rw [Store.forgetPromoted, Store.cancelPrefetchOf]
      split <;> split <;> exact ⟨rfl, rfl⟩
    have hspent : Spent i (t.untrack i)
        (((t.untrack i).giveUp i).setRecord i fun r => { r with chunks := [] }) :=
      spent_giveUp.trans (spent_setRecord rfl)
    refine ⟨?_, fun j hj => ?_, fun sid j hj => ?_, ?_⟩
    · rw [hspent.valid, untrack_record_same]
    · rw [hspent.others j hj, untrack_record_of_ne hj]
      exact congrFun hflags.2 j
    · rw [hspent.index] at hj
      rw [← hsame.1]
      exact ht.filed.of_unfile hj
    · exact hspent.config.trans hsame.2
  · exact ⟨Bool.eq_false_iff.mpr ‹_›, fun _ _ => rfl, fun _ _ h => h, rfl⟩

theorem forget_pendingWrites (s : Store) (i : RecordId) :
    (s.forget i).pendingWrites = s.pendingWrites := by
  rw [Store.forget]
  split
  · refine (spent_giveUp.trans (spent_setRecord rfl)).write.trans ?_
    change ((s.cancelPrefetchOf i).forgetPromoted _).pendingWrites = _
    rw [Store.forgetPromoted, Store.cancelPrefetchOf]
    split <;> split <;> rfl
  · rfl

theorem Books.forget {a b c : Int} (h : Books a b c s) (ha : 0 ≤ a) (hb : 0 ≤ b) (i : RecordId) :
    Books a b c (s.forget i) := by
  rw [Store.forget]
  split
  · rename_i hv
    have hgive := ((h.cancelPrefetchOf i).forgetPromoted (s.record i).sessionId).giveBack ha hb
      ((untracked_flags s i).1 ▸ h.mem hv)
    rw [Store.giveUp]
    split
    · exact (hgive.cancelWriteBehindOf i).touchRecord rfl rfl rfl rfl rfl rfl rfl
    · exact hgive.touchRecord rfl rfl rfl rfl rfl rfl rfl
  · exact h

/-! ## Background writes -/

theorem waitDone_quiet (i : WriteId) : Quiet World.store (waitDone env i) :=
  fun _ => .modify fun w hw => (writerUntil_store i _ w).trans hw

theorem memberOf_spec {s : Store} {i : WriteId} {b : Bool} :
    ∀ l : List WriteId, memberOf env s i l = .ok b → (b = true ↔ i ∈ l)
  | [], h => by
    rw [memberOf, Except.ok.injEq] at h
    simp [← h]
  | j :: js, h => by
    rw [memberOf] at h
    by_cases hj : j = i
    · rw [if_pos hj, Except.ok.injEq] at h
      simp [← h, hj]
    · rw [if_neg hj] at h
      split at h
      · cases h
      · rw [memberOf_spec js h, List.mem_cons]
        exact (or_iff_right (Ne.symm hj)).symm

/-- Looking a write up raises or finds it. -/
theorem isPending_spec (i : WriteId) :
    Triple (Is s) (isPending env i) (fun b w => (b = true ↔ i ∈ s.pendingWrites) ∧ Is s w) (Is s) := by
  refine reading_store ?_
  cases h : memberOf env s i s.pendingWrites with
  | ok b => exact .pure fun _ hw => ⟨memberOf_spec _ h, hw⟩
  | error e => exact .throw fun _ hw => hw

theorem finished_write {w : WriteId} (h : (s.write w).charged = true) :
    ((s.finished w).write w).cancel = (s.write w).cancel ∧
      ((s.finished w).write w).record = (s.write w).record := by
  rw [finished_eq h]
  simp [Store.setWrite, Store.setRecord, Store.creditRam, Store.noted, Store.removePending]

/-- What a finished write leaves: the write settled, or, when it had failed or could
not be published, its record discarded as well. -/
def Settled (s : Store) (i : WriteId) (w : World) : Prop :=
  Is (s.finished i) w ∨
    (s.write i).cancel = false ∧ Is ((s.finished i).forget (s.write i).record) w

theorem finishWrite_spec (h : Balanced s) {i : WriteId} (hi : i ∈ s.pendingWrites) (wait : Bool) :
    Triple (Is s) (finishWrite env i wait)
      (fun b w => if b then Settled s i w else wait = false ∧ Is s w) (Is s) := by
  have hcharged := h.owed.charged i hi
  refine reading_world fun w _ => .ite (fun hrun => .pure fun _ hw => ?_) fun _ => ?_
  · rw [if_neg Bool.false_ne_true]
    simp only [Bool.and_eq_true, Bool.not_eq_true'] at hrun
    exact ⟨hrun.2, hw⟩
  refine (quiet_is (waitDone_quiet i)).bind fun _ => (isPending_spec i).bind fun member => ?_
  refine Triple.bind (Q := fun _ => Is (s.removePending i)) ?_ fun _ => ?_
  · intro w hw
    have hmember : member = true := hw.1.mpr hi
    rw [onlyIf, if_pos hmember]
    exact modifyStore_is (E := Is s) _ w hw.2
  refine updating (reading_world fun w hw => ?_)
  have hw' : w.store = s.finished i := hw
  simp only [hw', (finished_write hcharged).1, (finished_write hcharged).2]
  refine .ite (fun _ => .pure fun _ hw => ?_) fun hlive => ?_
  · rw [if_pos rfl]
    exact .inl hw
  have hcancel : (s.write i).cancel = false := by
    simp only [Bool.or_eq_true, not_or, Bool.not_eq_true] at hlive
    exact hlive.1
  refine Triple.bind (Q := fun _ => Settled s i) ?_ fun _ => .pure fun _ hw => ?_
  · refine .tryCatch (F := Is (s.finished i)) ?_ fun _ => ?_
    · refine (leaves_is ?_).post fun _ _ hw => .inl hw
      exact (Leaves.onlyIf (.throw _)).bind fun _ => publish_store _
    · exact (discardSettled_is _).post fun _ _ hw => .inr ⟨hcancel, hw⟩
  · rw [if_pos rfl]
    exact hw

theorem Settled.balanced (h : Balanced s) {i : WriteId} (hi : i ∈ s.pendingWrites) {w : World}
    (hw : Settled s i w) : Balanced w.store := by
  have hfin := h.finished le_rfl hi
  rcases hw with hw | ⟨-, hw⟩
  · exact hw.symm ▸ hfin
  · exact hw.symm ▸ hfin.forget le_rfl le_rfl _

theorem Settled.pendingWrites (h : Balanced s) {i : WriteId} (hi : i ∈ s.pendingWrites) {w : World}
    (hw : Settled s i w) : w.store.pendingWrites = s.pendingWrites.erase i := by
  have hfin : (s.finished i).pendingWrites = s.pendingWrites.erase i := by
    rw [finished_eq (h.owed.charged i hi)]
    rfl
  rcases hw with hw | ⟨-, hw⟩
  · exact hw.symm ▸ hfin
  · rw [show w.store = _ from hw, forget_pendingWrites, hfin]

theorem Books.cancelWrite {a b c : Int} (h : Books a b c s) (i : WriteId) :
    Books a b c (s.setWrite i fun p => { p with cancel := true }) := by
  have hproj : ∀ {β : Type} (p : PendingWrite → β),
      (∀ q : PendingWrite, p { q with cancel := true } = p q) →
      ∀ v, p ((s.setWrite i fun q => { q with cancel := true }).write v) = p (s.write v) := by
    intro β p hp v
    simp only [Store.setWrite]
    by_cases hv : v = i
    · subst hv
      rw [Function.update_self, hp]
    · rw [Function.update_of_ne hv]
  exact {
    filed := h.filed
    owed := {
      nodup := h.owed.nodup
      unborn := h.owed.unborn
      charged := fun v hv => (hproj (·.charged) (fun _ => rfl) v).trans (h.owed.charged v hv)
      owner := fun v hv => by
        rw [hproj (·.record) (fun _ => rfl) v]
        exact h.owed.owner v hv
      owes := fun j v hj => by
        rw [hproj (·.record) (fun _ => rfl) v]
        exact h.owed.owes j v hj }
    shaped := h.shaped
    ram := by
      have hram := h.ram
      rw [← holdings_congr fun v _ => hproj writeShare (fun _ => rfl) v] at hram
      exact hram
    disk := h.disk
    reserved := h.reserved
    clamped := h.clamped }

/-- A record that owes no write is forgotten; of one that does, the write is called off
and waited for first. -/
theorem discard_spec (h : Balanced s) (i : RecordId) :
    Triple (Is s) (discard env i) (fun _ w => Balanced w.store ∧ Gone i s w.store)
      fun w => Balanced w.store := by
  refine reading_record (.onlyIf (fun _ => ?_) fun hv w hw => ?_)
  · cases hp : (s.record i).pending with
    | none =>
      refine (discardSettled_is i).post fun _ w hw => ?_
      rw [show w.store = _ from hw]
      exact ⟨h.forget le_rfl le_rfl i, forget_gone h i⟩
    | some wid =>
      obtain ⟨hwid, howner⟩ := h.owed.owes i wid hp
      let s₁ := s.setWrite wid fun p => { p with cancel := true }
      have h₁ : Balanced s₁ := h.cancelWrite wid
      have hcancel : (s₁.write wid).cancel = true := by simp [s₁, Store.setWrite]
      have hrecord : (s₁.write wid).record = i := by simp [s₁, Store.setWrite, howner]
      have hfin := h₁.finished (w := wid) le_rfl hwid
      refine updating (Triple.bind (Q := fun _ => Is (s₁.finished wid)) ?_ fun _ => ?_)
      · refine (finishWrite_spec h₁ hwid true).mono (fun _ h => h) (fun b w hw => ?_)
          fun w hw => hw.symm ▸ h₁
        split at hw
        · exact hw.resolve_right fun h => by simp [hcancel] at h
        · exact absurd hw.1 (by simp)
      · refine (discardSettled_is i).post fun _ w hw => ?_
        rw [show w.store = _ from hw]
        have hgone := forget_gone hfin i
        have hcharged := h₁.owed.charged wid hwid
        refine ⟨hfin.forget le_rfl le_rfl i, hgone.invalid, fun j hj => ?_, fun sid j hj => ?_, ?_⟩
        · rw [hgone.others j hj, finished_record_of_ne hcharged (hrecord.symm ▸ hj)]
          rfl
        · have hj' := hgone.index sid j hj
          rw [finished_eq hcharged] at hj'
          exact hj'
        · rw [hgone.config, finished_eq hcharged]
          rfl
  · rw [show w.store = s from hw]
    exact ⟨h, Bool.eq_false_iff.mpr hv, fun _ _ => rfl, fun _ _ h => h, rfl⟩

end FreeToken.Spill
