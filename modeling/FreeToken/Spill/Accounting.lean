import FreeToken.Spill.Discards

/-!
# The accounting of the spill store

Every call of the store keeps its books balanced, whether it returns or raises and
whatever the threads and the file system do, so they are balanced in every run
(`accounting`).
-/

namespace FreeToken.Spill

open FreeToken.Lib

variable {env : Env} {α β : Type} {s : Store} {i : RecordId}

/-- `m` keeps the books balanced. -/
def Kept (m : M α) : Prop :=
  Triple (fun w => Balanced w.store) m (fun _ w => Balanced w.store) fun w => Balanced w.store

theorem kept_of {m : M α} (h : ∀ s, Balanced s →
    Triple (Is s) m (fun _ w => Balanced w.store) fun w => Balanced w.store) : Kept m :=
  fun w hw => h w.store hw w rfl

theorem Kept.is {m : M α} (h : Kept m) (hs : Balanced s) :
    Triple (Is s) m (fun _ w => Balanced w.store) fun w => Balanced w.store :=
  Triple.pre h fun _ hw => hw.symm ▸ hs

theorem Kept.bind {m : M α} {k : α → M β} (h : Kept m) (hk : ∀ a, Kept (k a)) : Kept (m >>= k) :=
  Triple.bind h hk

theorem Kept.pure (a : α) : Kept (pure a : M α) := Triple.pure fun _ h => h

theorem Kept.ite {c : Prop} [Decidable c] {m m' : M α} (h : c → Kept m) (h' : ¬c → Kept m') :
    Kept (if c then m else m') := Triple.ite h h'

theorem Kept.onlyIf {c : Prop} [Decidable c] {m : M Unit} (h : c → Kept m) : Kept (onlyIf c m) :=
  .ite h fun _ => .pure ()

theorem kept_leaves {m : M α} (h : Leaves World.store m) : Kept m := h.triple (P := Balanced)

theorem kept_modifyStore {g : Store → Store} (h : ∀ s, Balanced s → Balanced (g s)) :
    Kept (modifyStore g) := Triple.modify fun _ hw => h _ hw

/-- Balanced books do not depend on the flags of the threads. -/
theorem Balanced.flags (h : Balanced s) {promoted : Option String} {writeBehind : Option WriteBehind} :
    Balanced { s with promoted := promoted, writeBehind := writeBehind } :=
  ⟨h.filed, h.owed, h.shaped, h.ram, h.disk, h.reserved, h.clamped⟩

/-! ## Records -/

theorem kept_discard (i : RecordId) : Kept (discard env i) :=
  kept_of fun _ h => (discard_spec h i).post fun _ _ hw => hw.1

theorem kept_discardOption (i : Option RecordId) : Kept (discardOption env i) := by
  cases i with
  | none => exact .pure ()
  | some i => exact kept_discard i

theorem kept_finishOwed (i : RecordId) : Kept (finishOwed env i) := by
  refine kept_of fun s h => reading_record ?_
  cases hp : (s.record i).pending with
  | none => exact .pure fun _ hw => hw.symm ▸ h
  | some wid =>
    have hwid := (h.owed.owes i wid hp).1
    refine (finishWrite_spec h hwid true).bind (R := fun _ w => Balanced w.store) (fun _ => ?_)
      |>.mono (fun _ h => h) (fun _ _ h => h) fun w (hw : Is s w) => hw.symm ▸ h
    refine .pure fun w hw => ?_
    split at hw
    · exact hw.balanced h hwid
    · exact absurd hw.1 (by simp)

theorem collectEach_spec (wait : Bool) :
    ∀ (l : List WriteId) (s : Store), Balanced s → l.Nodup → (∀ v ∈ l, v ∈ s.pendingWrites) →
      Triple (Is s) (collectEach env wait l) (fun _ w => Balanced w.store) fun w => Balanced w.store
  | [], s, h, _, _ => .pure fun _ hw => hw.symm ▸ h
  | v :: vs, s, h, hnd, hl => by
    have hv := hl v List.mem_cons_self
    obtain ⟨hvs, hnd⟩ := List.nodup_cons.mp hnd
    refine ((finishWrite_spec h hv wait).mono (fun _ h => h) (fun _ _ h => h)
      fun w hw => hw.symm ▸ h).bind fun b => ?_
    refine .onlyIf (fun hb w hw => ?_) fun hb w hw => ?_
    · rw [if_pos hb] at hw
      refine collectEach_spec wait vs w.store (hw.balanced h hv) hnd (fun u hu => ?_) w rfl
      rw [hw.pendingWrites h hv]
      exact (List.mem_erase_of_ne (ne_of_mem_of_not_mem hu hvs)).mpr
        (hl u (List.mem_cons_of_mem _ hu))
    · rw [if_neg hb] at hw
      exact hw.2.symm ▸ h

theorem kept_collectWrites (wait : Bool) : Kept (collectWrites env wait) :=
  kept_of fun _ h => reading_store (collectEach_spec wait _ _ h h.owed.nodup fun _ hv => hv)

/-- After the record of a session id is discarded, no tracked record has the id. -/
theorem vacant_of_gone {s' : Store} (h' : Balanced s') {sid : String}
    (hgone : ∀ j, s.bySession sid = some j → Gone j s s')
    (hkept : s.bySession sid = none → s' = s) : Vacant s' sid := by
  intro i hi hsid
  by_contra hne
  have hfound := h'.filed.found i hi (hsid ▸ hne)
  rw [hsid] at hfound
  cases hb : s.bySession sid with
  | none =>
    rw [hkept hb, hb] at hfound
    exact Option.some_ne_none i hfound.symm
  | some j =>
    have hj := hgone j hb
    have hij : i = j := Option.some.inj ((hj.index sid i hfound).symm.trans hb)
    have hv := h'.valid hi
    rw [hij, hj.invalid] at hv
    exact Bool.false_ne_true hv

/-- `discard` of whatever is filed under a session id. -/
theorem discardFiled_spec (h : Balanced s) (sid : String) :
    Triple (Is s) (discardOption env (s.bySession sid))
      (fun _ w => Balanced w.store ∧ Vacant w.store sid ∧
        ∀ i, s.bySession sid ≠ some i → w.store.record i = s.record i)
      fun w => Balanced w.store := by
  cases hb : s.bySession sid with
  | none =>
    refine .pure fun w hw => ?_
    rw [show w.store = s from hw]
    refine ⟨h, vacant_of_gone (s := s) h (fun j hj => ?_) (fun _ => rfl), fun _ _ => rfl⟩
    rw [hb] at hj
    cases hj
  | some j =>
    refine (discard_spec h j).post fun _ w hw => ⟨hw.1, ?_, fun i hi => ?_⟩
    · refine vacant_of_gone (s := s) hw.1 (fun k hk => ?_) fun hnone => ?_
      · rw [hb] at hk
        exact Option.some.inj hk ▸ hw.2
      · rw [hb] at hnone
        cases hnone
    · exact hw.2.others i fun hij => hi (hij ▸ rfl)

theorem add_record (r : SessionSpillRecord) (s : Store) :
    (s.add r).record s.nextRecord = r ∧ s.nextRecord < (s.add r).nextRecord := by
  simp only [Store.add]
  cases r.tier with
  | ram => exact ⟨Function.update_self .., Nat.lt_succ_self _⟩
  | disk => exact ⟨Function.update_self .., Nat.lt_succ_self _⟩

theorem track_spec (h : Balanced s) {r : SessionSpillRecord} (hr : Plain r) :
    Triple (Is s) (track env r)
      (fun i w => Balanced w.store ∧ w.store.record i = r ∧ i < w.store.nextRecord)
      fun w => Balanced w.store := by
  refine reading_store ((discardFiled_spec h r.sessionId).bind fun _ w hw => ?_)
  have hadd : Triple (Is w.store) (do
      let s ← getStore
      modifyStore (·.add r)
      return s.nextRecord)
      (fun i w => Balanced w.store ∧ w.store.record i = r ∧ i < w.store.nextRecord)
      (fun w => Balanced w.store) := by
    refine reading_store (updating (.pure fun w' hw' => ?_))
    rw [show w'.store = _ from hw']
    exact ⟨hw.1.add hr hw.2.1, add_record r w.store⟩
  exact hadd w rfl

theorem kept_touch (i : Option RecordId) : Kept (touch env i) := by
  cases i with
  | none => exact .pure ()
  | some i =>
    refine (kept_leaves (getRecord_store i)).bind fun r => .onlyIf fun _ => ?_
    refine (kept_leaves (observe_store _)).bind fun now => (kept_modifyStore fun s h => ?_).bind
      fun _ => (kept_leaves (getRecord_store i)).bind fun r =>
        kept_leaves (ignoring_store (writeManifest_store r))
    exact h.touchRecord rfl rfl rfl rfl rfl rfl rfl

theorem kept_evictOneLru (excludeSession : Option String) :
    Kept (evictOneLru env excludeSession) := by
  refine (kept_leaves getStore_store).bind fun s => ?_
  cases lruVictim s excludeSession with
  | none => exact .pure _
  | some victim => exact (kept_discard victim).bind fun _ => .pure _

/-! ## Room -/

theorem chooseTier_store (n : Nat) : Leaves World.store (chooseTier env n) :=
  (ramHasRoom_store n).bind fun _ => .ite (.pure _)
    ((diskHasRoom_store n).bind fun _ => .ite (.pure _) (.pure _))

theorem fittingTier_store (n : Nat) (preferDisk : Bool) :
    Leaves World.store (fittingTier env n preferDisk) :=
  getStore_store.bind fun _ => .ite
    ((Leaves.ite (diskHasRoom_store n) (.pure _)).bind fun _ => .ite (.pure _) (chooseTier_store n))
    (.pure _)

theorem kept_reserveLoop (n : Nat) (sid : String) (preferDisk : Bool) :
    ∀ fuel, Kept (reserveLoop env n sid preferDisk fuel)
  | 0 => .pure _
  | fuel + 1 => by
    refine (kept_leaves (fittingTier_store n preferDisk)).bind fun tier => ?_
    cases tier with
    | some tier => exact .pure _
    | none =>
      exact (kept_evictOneLru _).bind fun _ =>
        .ite (fun _ => kept_reserveLoop n sid preferDisk fuel) fun _ => .pure _

theorem kept_reserveTier (n : Nat) (sid : String) (preferDisk : Bool) :
    Kept (reserveTier env n sid preferDisk) :=
  (kept_leaves getStore_store).bind fun _ => .ite (fun _ => .pure _)
    fun _ => kept_reserveLoop n sid preferDisk _

/-! ## Write-behind and demotion -/

/-- Every record is as valid as before and in the same tier, and the same promotion is
under way. -/
structure SameTier (s s' : Store) : Prop where
  valid : ∀ j, (s'.record j).valid = (s.record j).valid
  tier : ∀ j, (s'.record j).tier = (s.record j).tier
  prefetch : s'.prefetch = s.prefetch

theorem SameTier.refl (s : Store) : SameTier s s := ⟨fun _ => rfl, fun _ => rfl, rfl⟩

/-- A store after the raise of a program that leaves it alone is balanced. -/
theorem balanced_of_is (h : Balanced s) (w : World) (hw : Is s w) : Balanced w.store := hw.symm ▸ h

theorem adoptCopy_spec (h : Balanced s) (b : WriteBehind) (files : Option (List Path)) :
    Triple (Is s) (adoptCopy env b files) (fun _ w => Balanced w.store ∧ SameTier s w.store)
      fun w => Balanced w.store := by
  have hsame : ∀ w, Is s w → Balanced w.store ∧ SameTier s w.store := fun w hw => by
    rw [show w.store = s from hw]
    exact ⟨h, .refl s⟩
  refine reading_store (.ite (fun hfits => ?_) fun _ => ?_)
  · simp only [copyFits, Bool.and_eq_true, decide_eq_true_eq, Option.isNone_iff_eq_none] at hfits
    obtain ⟨⟨⟨⟨-, hv⟩, ht⟩, hk⟩, -⟩ := hfits
    refine (Triple.mono (leaves_is (s := s) (.tryCatch ((installStaging_store _ _ _).bind fun _ =>
      .pure _) fun _ => (rmtree_store _).bind fun _ => (rmtree_store _).bind fun _ => .pure _))
      (fun _ h => h) (fun _ _ h => h) (balanced_of_is h)).bind fun installed => .ite (fun _ => ?_)
        fun _ => .pure hsame
    refine updating (.pure fun w hw => ?_)
    rw [show w.store = _ from hw]
    refine ⟨h.installBacking (h.mem hv) ht hk _, ?_⟩
    exact ⟨setRecord_eq (f := fun r => { r with backing := some _ }) (p := (·.valid)) rfl,
      setRecord_eq (f := fun r => { r with backing := some _ }) (p := (·.tier)) rfl, rfl⟩
  · exact ((leaves_is (rmtree_store _)).mono (fun _ h => h) (fun _ _ h => h)
      (balanced_of_is h)).bind fun _ => .pure hsame

theorem collectWriteBehind_spec (h : Balanced s) (wait : Bool) :
    Triple (Is s) (collectWriteBehind env wait)
      (fun _ w => Balanced w.store ∧ SameTier s w.store) fun w => Balanced w.store := by
  have hsame : ∀ w, Is s w → Balanced w.store ∧ SameTier s w.store := fun w hw => by
    rw [show w.store = s from hw]
    exact ⟨h, .refl s⟩
  refine reading_world fun w hw => ?_
  rw [hw]
  cases s.writeBehind with
  | none => exact .pure hsame
  | some b =>
    refine .ite (fun _ => .pure hsame) fun _ => ?_
    have hjoin : Quiet World.store (joinCopier env) :=
      fun _ => .modify fun w hw => (copierUntil_store _ w).trans hw
    refine (quiet_is hjoin).bind fun _ => updating (reading_world fun w _ => ?_)
    have hs : Balanced { s with writeBehind := none } := h.flags
    refine (adoptCopy_spec hs b _).post fun _ w hw => ⟨hw.1, ?_⟩
    exact ⟨hw.2.valid, hw.2.tier, hw.2.prefetch⟩

theorem kept_collectWriteBehind (wait : Bool) : Kept (collectWriteBehind env wait) :=
  kept_of fun _ h => (collectWriteBehind_spec h wait).post fun _ _ hw => hw.1

theorem withoutBacking_record (s : Store) (i : RecordId) :
    (s.withoutBacking i).record i = (s.record i).unbacked := by
  rw [Store.withoutBacking]
  split
  · exact setRecord_same
  · rename_i hk
    rw [SessionSpillRecord.unbacked, ← Option.not_isSome_iff_eq_none.mp hk]

/-- A record whose tensors are dropped is on disk; otherwise it is still in RAM and
has no disk copy. -/
theorem dropToBacking_spec (h : Balanced s) (hi : i ∈ s.records) (ht : (s.record i).tier = .ram) :
    Triple (Is s) (dropToBacking env i)
      (fun b w => Balanced w.store ∧ w.store.prefetch = s.prefetch ∧
        (b = false → (w.store.record i).valid = true ∧ (w.store.record i).tier = .ram ∧
          (w.store.record i).backing = none))
      fun w => Balanced w.store := by
  refine reading_world fun w hw => ?_
  rw [hw]
  cases hk : (s.record i).backing with
  | none =>
    refine .pure fun w hw => ?_
    rw [show w.store = s from hw]
    exact ⟨h, rfl, fun _ => ⟨h.valid hi, ht, hk⟩⟩
  | some b =>
    refine .ite (fun _ => updating (.pure fun w hw => ?_)) fun _ => ?_
    · rw [show w.store = _ from hw]
      exact ⟨h.movedToBacking le_rfl hi ht hk, rfl, fun hb => nomatch hb⟩
    · refine (dropBacking_is i).bind fun _ => .pure fun w hw => ?_
      rw [show w.store = _ from hw, withoutBacking_record]
      refine ⟨h.withoutBacking le_rfl hi, ?_, fun _ => ⟨h.valid hi, ht, rfl⟩⟩
      rw [Store.withoutBacking]
      split <;> rfl

/-- Writing a RAM record without a disk copy out. -/
theorem writeOut_spec (h : Balanced s) (hi : i ∈ s.records) (ht : (s.record i).tier = .ram)
    (hk : (s.record i).backing = none) :
    Triple (Is s) (writeOut env i) (fun _ w => Balanced w.store ∧ w.store.prefetch = s.prefetch)
      fun w => Balanced w.store := by
  have hsame : ∀ w, Is s w → Balanced w.store ∧ w.store.prefetch = s.prefetch := fun w hw => by
    rw [show w.store = s from hw]
    exact ⟨h, rfl⟩
  have hleave : ∀ {α : Type} {m : M α}, Leaves World.store m →
      Triple (Is s) m (fun _ => Is s) fun w => Balanced w.store := fun hm =>
    (leaves_is hm).mono (fun _ h => h) (fun _ _ h => h) (balanced_of_is h)
  refine reading_record ((hleave (diskHasRoom_store _)).bind fun room => .ite (fun _ => ?_)
    fun _ => .pure hsame)
  refine (hleave (prepareDir_store _)).bind fun target =>
    (hleave (saveRecord_store _ _)).bind fun files => ?_
  cases files with
  | none => exact .pure hsame
  | some files =>
    have hmoved := h.movedToDisk le_rfl hi ht hk target files
    refine updating (reading_record ?_)
    refine (quiet_is (ignoring_quiet (writeManifest_store _))).bind fun _ => .pure fun w hw => ?_
    rw [show w.store = _ from hw]
    exact ⟨hmoved, rfl⟩

theorem dropCache_prefetch (s : Store) (i : RecordId) : (s.dropCache i).prefetch = s.prefetch := by
  rw [Store.dropCache]
  split <;> rfl

theorem demoteToDisk_spec (h : Balanced s) (i : RecordId) :
    Triple (Is s) (demoteToDisk env i)
      (fun _ w => Balanced w.store ∧ w.store.prefetch = s.prefetch) fun w => Balanced w.store := by
  refine reading_store (.ite (fun hcached => ?_) fun _ => .ite (fun _ => ?_) fun hram => ?_)
  · simp only [Bool.and_eq_true] at hcached
    refine updating (.pure fun w hw => ?_)
    rw [show w.store = _ from hw]
    exact ⟨h.dropCache le_rfl (h.mem hcached.1.1), dropCache_prefetch s i⟩
  · refine .pure fun w hw => ?_
    rw [show w.store = s from hw]
    exact ⟨h, rfl⟩
  · simp only [Bool.or_eq_true, Bool.not_eq_true', not_or, Bool.not_eq_false, decide_eq_true_eq,
      ne_eq, not_not] at hram
    refine Triple.bind (Q := fun _ w => Balanced w.store ∧ SameTier s w.store) ?_ fun _ w hw => ?_
    · refine .onlyIf (fun _ => ?_) fun _ w hw => ?_
      · exact (collectWriteBehind_spec h true).bind fun _ => .pure fun _ hw => hw
      · rw [show w.store = s from hw]
        exact ⟨h, .refl s⟩
    · have hv : (w.store.record i).valid = true := by rw [hw.2.valid, hram.1]
      have ht : (w.store.record i).tier = .ram := by rw [hw.2.tier, hram.2]
      have hrest : Triple (Is w.store) (do
          if ← dropToBacking env i then return true
          else writeOut env i)
          (fun _ w' => Balanced w'.store ∧ w'.store.prefetch = w.store.prefetch)
          (fun w' => Balanced w'.store) := by
        refine (dropToBacking_spec hw.1 (hw.1.mem hv) ht).bind fun b => .ite (fun _ => ?_)
          fun hb w' hw' => ?_
        · exact .pure fun _ hw' => ⟨hw'.1, hw'.2.1⟩
        · obtain ⟨hv', ht', hk'⟩ := hw'.2.2 (Bool.eq_false_iff.mpr hb)
          have hout := @writeOut_spec env _ _ hw'.1 (hw'.1.mem hv') ht' hk'
          rw [hw'.2.1] at hout
          exact hout w' rfl
      rw [hw.2.prefetch] at hrest
      exact hrest w rfl

theorem kept_demoteToDisk (i : RecordId) : Kept (demoteToDisk env i) :=
  kept_of fun _ h => (demoteToDisk_spec h i).post fun _ _ hw => hw.1

theorem kept_retire (i : Option RecordId) : Kept (retire env i) := by
  cases i with
  | none => exact .pure ()
  | some i =>
    refine kept_of fun s h => reading_record (.onlyIf (fun hv => ?_) fun _ => balanced_of_is h)
    have hi := h.mem hv
    have h₁ := h.dropCache le_rfl hi
    have hspent := spent_dropCache (s := s) (i := i)
    have htier : ((s.dropCache i).record i).tier = (s.record i).tier := by
      by_cases hc : (s.record i).cachedBytes = 0
      · rw [dropCache_of_eq hc]
      · rw [dropCache_eq hc]
        exact setRecord_eq (p := (·.tier)) (f := (·.uncached)) rfl i
    refine updating (.onlyIf (fun ht => ?_) fun _ => balanced_of_is h₁)
    have hi' : i ∈ (s.dropCache i).records := h₁.mem (hspent.valid.trans hv)
    refine (dropToBacking_spec h₁ hi' (htier.trans ht)).bind fun kept => ?_
    exact Triple.pre (Kept.onlyIf fun _ => kept_discard i) fun _ hw => hw.1

theorem kept_enforceEach : ∀ l : List RecordId, Kept (enforceEach env l)
  | [] => .pure ()
  | i :: is => (kept_leaves belowReserve_store).bind fun _ => .ite
    (fun _ => (kept_demoteToDisk i).bind fun _ => (Kept.onlyIf fun _ => kept_discard i).bind
      fun _ => kept_enforceEach is)
    fun _ => .pure ()

theorem kept_enforceHostReserve : Kept (enforceHostReserve env) :=
  (kept_leaves getStore_store).bind fun _ => kept_enforceEach _

/-! ## Another session id -/

/-- Every record is as valid as before and has the same name. -/
structure SameNames (s s' : Store) : Prop where
  records : s'.records = s.records
  valid : ∀ j, (s'.record j).valid = (s.record j).valid
  sessionId : ∀ j, (s'.record j).sessionId = (s.record j).sessionId

theorem SameNames.refl (s : Store) : SameNames s s := ⟨rfl, fun _ => rfl, fun _ => rfl⟩

theorem sameNames_setRecord {f : SessionSpillRecord → SessionSpillRecord}
    (hv : (f (s.record i)).valid = (s.record i).valid)
    (hs : (f (s.record i)).sessionId = (s.record i).sessionId) : SameNames s (s.setRecord i f) :=
  ⟨rfl, setRecord_eq hv, setRecord_eq hs⟩

theorem SameNames.vacant {s' : Store} (h : SameNames s s') {sid : String} (hs : Vacant s sid) :
    Vacant s' sid := fun j hj hsid =>
  hs j (h.records ▸ hj) ((h.sessionId j).symm.trans hsid)

theorem sameNames_withoutBacking : SameNames s (s.withoutBacking i) := by
  rw [Store.withoutBacking]
  split
  · have hset : SameNames s (s.setRecord i (·.unbacked)) := sameNames_setRecord rfl rfl
    exact ⟨hset.records, hset.valid, hset.sessionId⟩
  · exact .refl s

theorem moveFiles_spec (h : Balanced s) (hi : i ∈ s.records) (target : DirName) :
    Triple (Is s) (moveFiles env i target) (fun _ w => Balanced w.store ∧ SameNames s w.store)
      fun w => Balanced w.store := by
  have hsame : ∀ w, Is s w → Balanced w.store ∧ SameNames s w.store := fun w hw => by
    rw [show w.store = s from hw]
    exact ⟨h, .refl s⟩
  -- the record renamed, whatever it is renamed to
  have hset : ∀ (f : SessionSpillRecord → SessionSpillRecord),
      Balanced (s.setRecord i f) → (f (s.record i)).valid = (s.record i).valid →
      (f (s.record i)).sessionId = (s.record i).sessionId →
      ∀ w, Is (s.setRecord i f) w → Balanced w.store ∧ SameNames s w.store :=
    fun f hf hv hs w hw => by
      rw [show w.store = _ from hw]
      exact ⟨hf, sameNames_setRecord hv hs⟩
  refine reading_record ?_
  cases hd : (s.record i).directory with
  | some directory =>
    refine (quiet_is (rmtree_quiet _)).bind fun _ => .tryCatch ?_ fun _ => .pure hsame
    refine (leaves_is (call_store _)).bind fun _ => updating (.pure ?_)
    exact hset _ (h.touchRecord rfl rfl rfl rfl rfl rfl rfl) rfl rfl
  | none =>
    cases hk : (s.record i).backing with
    | none => exact .pure hsame
    | some b =>
      refine (quiet_is (rmtree_quiet _)).bind fun _ => Triple.bind
        (Q := fun _ w => Balanced w.store ∧ SameNames s w.store) ?_ fun _ => .pure fun _ hw => hw
      refine .tryCatch ((leaves_is (call_store _)).bind fun _ => ?_) fun _ => ?_
      · refine (modifyStore_is _).post fun _ => hset _ ?_ rfl rfl
        exact h.touchRecord rfl rfl rfl rfl rfl rfl (by rw [hk]; rfl)
      · refine (dropBacking_is i).post fun _ w hw => ?_
        rw [show w.store = _ from hw]
        exact ⟨h.withoutBacking le_rfl hi, sameNames_withoutBacking⟩

/-- Between calls, what is filed under a session id is valid. -/
theorem Books.get_eq {a b c : Int} (h : Books a b c s) (sid : String) :
    s.get sid = s.bySession sid := by
  rw [Store.get]
  cases hb : s.bySession sid with
  | none => rfl
  | some j =>
    rw [Option.filter_some, if_pos]
    exact h.valid (h.filed.filed sid j hb).1

theorem kept_rekey (i : Option RecordId) (sid : String) : Kept (rekey env i sid) := by
  cases i with
  | none => exact .pure _
  | some i =>
    refine (kept_finishOwed i).bind fun _ => kept_of fun s h => reading_record (.ite
      (fun _ => .pure (balanced_of_is h)) fun hlive => ?_)
    simp only [Bool.or_eq_true, Bool.not_eq_true', not_or, Bool.not_eq_false,
      decide_eq_true_eq] at hlive
    let t := (s.cancelPrefetchOf i).forgetPromoted (s.record i).sessionId
    have ht : Balanced t := (h.cancelPrefetchOf i).forgetPromoted _
    have hrec : t.record = s.record := (untracked_flags s i).2
    refine updating (reading_store ?_)
    rw [ht.get_eq sid]
    have hother : t.bySession sid ≠ some i := fun hfiled =>
      hlive.2 (by rw [← hrec]; exact (ht.filed.filed sid i hfiled).2)
    refine (discardFiled_spec ht sid).bind fun _ w hw => ?_
    have hwi : w.store.record i = s.record i := (hw.2.2 i hother).trans (congrFun hrec i)
    have hi : i ∈ w.store.records := hw.1.mem (by rw [hwi]; exact hlive.1)
    have hrest : Triple (Is w.store) (do
        if ← moveFiles env i (.session sid) then
          modifyStore (·.refile i sid)
          let r ← getRecord i
          ignoring (writeManifest env r)
          return true
        else return false)
        (fun _ w => Balanced w.store) (fun w => Balanced w.store) := by
      refine (moveFiles_spec hw.1 hi _).bind fun moved => .ite (fun _ w' hw' => ?_)
        fun _ => .pure fun _ hw' => hw'.1
      have hi' : i ∈ w'.store.records := hw'.2.records ▸ hi
      have hne : (w'.store.record i).sessionId ≠ sid := by
        rw [hw'.2.sessionId, hwi]
        exact hlive.2
      have hfiled := hw'.1.refile hi' (hw'.2.vacant hw.2.1) hne
      have hlast : Triple (Is w'.store) (do
          modifyStore (·.refile i sid)
          let r ← getRecord i
          ignoring (writeManifest env r)
          return true)
          (fun _ w => Balanced w.store) (fun w => Balanced w.store) :=
        updating (reading_record ((leaves_is (ignoring_store (writeManifest_store _))).mono
          (fun _ h => h) (fun _ _ h => h) (balanced_of_is hfiled) |>.bind fun _ =>
            .pure (balanced_of_is hfiled)))
      exact hlast w' rfl
    exact hrest w rfl

/-! ## Prefetch -/

theorem observe_quiet {α : Type} (look : Nat → α) : Quiet World.store (observe env look) :=
  fun _ w hw => (interfere_store w).trans hw

theorem belowReserve_quiet : Quiet World.store (belowReserve env) :=
  Quiet.bind (fun _ _ hw => hw) fun _ => (observe_quiet _).bind fun _ => .pure _

theorem joinReader_quiet : Quiet World.store (joinReader env) :=
  fun _ => .modify fun w hw => (readerUntil_store _ w).trans hw

theorem kept_takePromoted (sid : Option String) : Kept (takePromoted sid) := by
  refine kept_of fun s h => reading_store ?_
  cases s.promoted with
  | none => exact .pure (balanced_of_is h)
  | some promoted =>
    refine .ite (fun _ => .pure (balanced_of_is h)) fun _ => updating (.pure (balanced_of_is ?_))
    exact h.flags

/-- A promotion that has left the store, its reservation still charged, is installed or
given up. -/
theorem installPrefetch_spec {p : Prefetch} (h : Books 0 0 p.reservedBytes s)
    (values : Option (List Tensor)) :
    Triple (Is s) (installPrefetch env p values) (fun _ w => Balanced w.store)
      fun w => Balanced w.store := by
  have hcredit : Balanced (s.creditReserved p.reservedBytes) :=
    (h.creditReserved le_rfl).cast rfl rfl (by omega)
  refine (quiet_is belowReserve_quiet).bind fun low => reading_store ?_
  cases values with
  | none => exact updating (.pure (balanced_of_is hcredit))
  | some values =>
    refine .ite (fun hok => updating (.pure (balanced_of_is ?_)))
      fun _ => updating (.pure (balanced_of_is hcredit))
    simp only [Bool.and_eq_true, decide_eq_true_eq] at hok
    obtain ⟨⟨⟨⟨⟨⟨-, hv⟩, ht⟩, hc⟩, -⟩, -⟩, -⟩ := hok
    exact (h.promote (h.mem hv) ht hc le_rfl values).cast rfl rfl (by omega)

/-- Forgetting the promotion under way leaves its reservation owed. -/
theorem Books.takePrefetch (h : Balanced s) {p : Prefetch} (hp : s.prefetch = some p) :
    Books 0 0 p.reservedBytes { s with prefetch := none } := by
  have hres := h.reserved
  rw [hp] at hres
  exact ⟨h.filed, h.owed, h.shaped, h.ram, h.disk, hres.trans (by simp), h.clamped⟩

/-- A promotion under way accounts for the bytes reserved for it. -/
theorem Books.setPrefetch {p : Prefetch} (h : Books 0 0 p.reservedBytes s)
    (hp : s.prefetch = none) : Balanced { s with prefetch := some p } := by
  have hres := h.reserved
  rw [hp] at hres
  exact ⟨h.filed, h.owed, h.shaped, h.ram, h.disk, hres.trans (by simp), h.clamped⟩

theorem kept_collectPrefetch (sid : Option String) (wait : Bool) :
    Kept (collectPrefetch env sid wait) := by
  refine kept_of fun s h => reading_world fun w hw => ?_
  rw [hw]
  cases hp : s.prefetch with
  | none => exact (kept_takePromoted sid).is h
  | some p =>
    refine .ite (fun _ => (kept_takePromoted sid).is h) fun _ => .ite
      (fun _ => .pure (balanced_of_is h)) fun _ => ?_
    refine (quiet_is joinReader_quiet).bind fun _ => reading_world fun w _ => updating ?_
    exact installPrefetch_spec (h.takePrefetch hp) _

theorem kept_cancelPrefetch (sid : Option String) : Kept (cancelPrefetch sid) := by
  refine kept_of fun s h => reading_store ?_
  cases s.prefetch with
  | none => exact .pure (balanced_of_is h)
  | some p =>
    exact .ite (fun _ => .pure (balanced_of_is h))
      fun _ => updating (.pure (balanced_of_is h.cancelPrefetch))

/-- The books are balanced and no promotion is under way. -/
def Unpromoting (w : World) : Prop := Balanced w.store ∧ w.store.prefetch = none

/-- `m` keeps the books balanced and starts no promotion. -/
def KeptIdle (m : M α) : Prop := Triple Unpromoting m (fun _ => Unpromoting) fun w => Balanced w.store

theorem keptIdle_leaves {m : M α} (h : Leaves World.store m) : KeptIdle m :=
  (h.triple (P := fun s => Balanced s ∧ s.prefetch = none)).mono (fun _ h => h) (fun _ _ h => h)
    fun _ h => h.1

theorem keptIdle_demoteToDisk (i : RecordId) : KeptIdle (demoteToDisk env i) := fun w hw =>
  ((demoteToDisk_spec hw.1 i).mono (S := Is w.store) (fun _ h => h)
    (fun _ _ h => ⟨h.1, h.2.trans hw.2⟩) fun _ h => h) w rfl

theorem keptIdle_demoteUntil (n : Nat) : ∀ l : List RecordId, KeptIdle (demoteUntil env n l)
  | [] => keptIdle_leaves (ramHasRoom_store n)
  | i :: is => (keptIdle_demoteToDisk i).bind fun _ =>
    (keptIdle_leaves (.ite (ramHasRoom_store n) (.pure false))).bind fun _ => .ite
      (fun _ => .pure fun _ h => h) fun _ => keptIdle_demoteUntil n is

theorem keptIdle_makeRamRoom (n : Nat) (protect : List String) :
    KeptIdle (makeRamRoom env n protect) :=
  (keptIdle_leaves (ramHasRoom_store n)).bind fun _ => .ite (fun _ => .pure fun _ h => h)
    fun _ => (keptIdle_leaves getStore_store).bind fun _ => keptIdle_demoteUntil n _

theorem keptIdle_prefetchPlan (i : RecordId) (tokenIds : Option (List Int)) :
    KeptIdle (prefetchPlan env i tokenIds) := by
  refine (keptIdle_leaves Leaves.get).bind fun w => ?_
  dsimp only
  split
  · exact .pure fun _ h => h
  · refine Triple.bind (Q := fun _ => Unpromoting) (.modify fun w hw => ⟨?_, hw.2⟩)
      fun _ => .pure fun _ h => h
    exact hw.1.touchRecord (i := i) (f := fun r => { r with prefetchPlan := some _ })
      rfl rfl rfl rfl rfl rfl rfl

theorem beginPrefetch_spec (h : Balanced s) (hp : s.prefetch = none) (sid : String) (i : RecordId)
    (wanted : List Nat) (reserve : Nat) :
    Triple (Is s) (beginPrefetch env sid i wanted reserve) (fun _ w => Balanced w.store)
      fun w => Balanced w.store := by
  let p : Prefetch := ⟨sid, i, false, reserve, wanted⟩
  let t := s.charge .startPrefetch ⟨0, 0, reserve⟩
  have ht : Books 0 0 p.reservedBytes t :=
    (h.chargeReserved .startPrefetch reserve).cast rfl rfl (by simp [p])
  have hstarted : Balanced { t with prefetch := some p } := ht.setPrefetch hp
  refine reading_record (updating (updating ((quiet_is (observe_quiet _)).bind fun failed =>
    .ite (fun _ => ?_) fun _ => ?_)))
  · have hback := (hstarted.takePrefetch rfl).creditReserved (n := p.reservedBytes) le_rfl
    exact updating (updating (.pure (balanced_of_is (hback.cast rfl rfl (by omega)))))
  · exact .bind (Q := fun _ w => Balanced w.store) (.modify fun w hw => balanced_of_is hstarted w hw)
      fun _ => .pure fun _ h => h

theorem kept_startPrefetch (sid : String) (protect : List String) (tokenIds : Option (List Int)) :
    Kept (startPrefetch env sid protect tokenIds) := by
  refine (kept_collectPrefetch none false).bind fun reaped =>
    (Kept.onlyIf fun _ => kept_modifyStore fun s h => ?_).bind fun _ => kept_of fun s h =>
      reading_store (.ite (fun _ => .pure (balanced_of_is h)) fun hidle => ?_)
  · exact h.flags
  · have hp : s.prefetch = none := Option.not_isSome_iff_eq_none.mp hidle
    cases prefetchable s sid with
    | none => exact .pure (balanced_of_is h)
    | some i =>
      have hstart : Triple (Is s) (prefetchPlan env i tokenIds) (fun _ => Unpromoting)
          fun w => Balanced w.store :=
        Triple.pre (keptIdle_prefetchPlan i tokenIds) fun w hw => by
          rw [Unpromoting, show w.store = s from hw]
          exact ⟨h, hp⟩
      refine hstart.bind fun plan => ?_
      split
      · exact .pure fun _ h => h.1
      · exact .pure fun _ h => h.1
      · refine Triple.bind (keptIdle_makeRamRoom _ _) fun _ => .ite (fun _ w hw => ?_)
          fun _ => .pure fun _ h => h.1
        exact beginPrefetch_spec hw.1 hw.2 sid i _ _ w rfl

/-! ## Starting a write-behind -/

theorem kept_beginCopy (i : RecordId) (values : List Tensor) : Kept (beginCopy env i values) := by
  refine (kept_leaves (getRecord_store i)).bind fun r => (kept_leaves freshUuid_store).bind
    fun uuid => (kept_modifyStore fun s h => ?_).bind fun _ =>
      (kept_leaves (observe_store _)).bind fun failed => .ite (fun _ => ?_) fun _ => ?_
  · exact h.flags
  · exact (kept_modifyStore fun s h => Balanced.flags h).bind fun _ => .pure _
  · exact Kept.bind (Triple.modify fun _ hw => hw) fun _ => .pure _

theorem kept_startWriteBehind (protect : List String) : Kept (startWriteBehind env protect) := by
  refine (kept_collectWriteBehind false).bind fun _ => (kept_leaves getStore_store).bind fun s =>
    .ite (fun _ => .pure _) fun _ => ?_
  cases copyVictim s protect with
  | none => exact .pure _
  | some i =>
    refine (kept_leaves (ramHasRoom_store _)).bind fun _ => .ite (fun _ => .pure _) fun _ =>
      (kept_leaves (diskHasRoom_store _)).bind fun _ => .ite (fun _ => .pure _) fun _ =>
        .ite (fun _ => .pure _) fun _ => ?_
    split
    · exact .pure _
    · exact kept_beginCopy i _

end FreeToken.Spill
