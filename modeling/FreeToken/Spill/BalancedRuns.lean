import Mathlib.Data.List.Dedup
import FreeToken.Spill.Accounting

/-!
# Balanced runs

A spill, the durability barrier and the adoption of a root keep the books balanced
too, and with them every call: what the counters of a store say is what its records
hold, in every state that a run reaches (`accounting`).
-/

namespace FreeToken.Spill

open FreeToken.Lib

variable {env : Env} {α : Type} {s : Store} {i : RecordId}

/-! ## Spilling -/

theorem saveFor_store (target : Target) (path : Path) (value : Tensor) (done : Copied) :
    Leaves World.store (saveFor env target path value done) := by
  cases target with
  | ram => exact .pure _
  | foreground d => exact (save_store value path).bind fun _ => .pure _
  | background d => exact .pure _

theorem copyPart_store (target : Target) (uuid : Option Nat) (done : Copied) (p : Part) :
    Leaves World.store (copyPart env target uuid done p) := by
  cases p with
  | kept c => exact .pure _
  | fresh family layer start value =>
    simp only [copyPart]
    cases target.directory with
    | none => exact (mayRaise_store _).bind fun _ => .pure _
    | some d => exact (mayRaise_store _).bind fun _ => (saveFor_store _ _ _ _).bind fun _ => .pure _

theorem copyParts_store (target : Target) (uuid : Option Nat) :
    ∀ (ps : List Part) (done : Copied), Leaves World.store (copyParts env target uuid ps done)
  | [], _ => .pure _
  | p :: ps, done => (copyPart_store target uuid done p).bind fun done =>
    copyParts_store target uuid ps done

/-- A copy leaves the store alone and makes the record it was planned for. -/
theorem copyOut_spec (pools : Pools) (req : SpillRequest) (plan : SpillPlan) :
    Triple (Is s) (copyOut env pools req plan)
      (fun copied w => Is s w ∧ ∃ chunks, copied.1 = newRecord pools req plan.byteSize plan.now
        plan.tier (plan.target req.sessionId).directory plan.uuid chunks) (Is s) := by
  refine (leaves_is (.onlyIf ((prepareDir_store _).bind fun _ => .pure _))).bind fun _ => ?_
  -- from the chunks on, whatever was written of the tokens
  have hchunks : ∀ started : Copied, Triple (Is s) (do
      let done ← copyParts env (plan.target req.sessionId) plan.uuid plan.parts started
      let r := newRecord pools req plan.byteSize plan.now plan.tier
        (plan.target req.sessionId).directory plan.uuid done.chunks
      onlyIf (plan.tier = .disk ∧ plan.background = false) (publish env r)
      return (r, done.jobs))
      (fun copied w => Is s w ∧ ∃ chunks, copied.1 = newRecord pools req plan.byteSize plan.now
        plan.tier (plan.target req.sessionId).directory plan.uuid chunks) (Is s) := fun started =>
    (leaves_is (copyParts_store _ _ _ _)).bind fun done =>
      (leaves_is (.onlyIf (publish_store _))).bind fun _ =>
        .pure fun w hw => ⟨hw, done.chunks, rfl⟩
  dsimp only
  split
  · exact hchunks _
  · exact (leaves_is (saveFor_store _ _ _ _)).bind hchunks

theorem newRecord_plain {pools : Pools} {req : SpillRequest} {byteSize now : Nat} {tier : Tier}
    {directory : Option DirName} {uuid : Option Nat} {chunks : List SpillChunk} :
    Plain (newRecord pools req byteSize now tier directory uuid chunks) := ⟨rfl, rfl, rfl, rfl⟩

theorem kept_queueWrite (jobs : List (Path × Tensor)) :
    Triple (fun w => Balanced w.store ∧ (w.store.record i).pending = none ∧ i < w.store.nextRecord)
      (queueWrite i jobs) (fun _ w => Balanced w.store) fun w => Balanced w.store := by
  intro w hw
  have hqueued : Triple (Is w.store) (queueWrite i jobs) (fun _ w => Balanced w.store)
      (fun w => Balanced w.store) := by
    refine reading_store (updating (.modify fun w' hw' => ?_))
    have hstore : w'.store = _ := hw'
    change Balanced w'.store
    rw [hstore]
    exact hw.1.queueWrite hw.2.1 hw.2.2 jobs
  exact hqueued w rfl

theorem generation_store (base : Option IncrementalBase) : Leaves World.store (generation base) :=
  .ite (freshUuid_store.bind fun _ => .pure _) (.pure _)

theorem writesBehind_store (tier : Tier) (n : Nat) : Leaves World.store (writesBehind env tier n) :=
  getStore_store.bind fun _ => (observe_store _).bind fun _ => .pure _

theorem kept_spillTo (pools : Pools) (req : SpillRequest) (states : List (Nat × StateSource))
    (boundaries : List Nat) (byteSize : Nat) (tier : Tier) (base : Option IncrementalBase) :
    Kept (spillTo env pools req states boundaries byteSize tier base) := by
  refine (kept_leaves (observe_store _)).bind fun now => (kept_leaves (generation_store _)).bind
    fun uuid => (kept_leaves (writesBehind_store _ _)).bind fun background =>
      kept_of fun s h => ?_
  refine Triple.bind (Q := fun copied w => Is s w ∧ ∀ c ∈ copied, Plain c.1) ?_ fun copied => ?_
  · refine .tryCatch ((copyOut_spec pools req _).bind fun done => .pure fun w hw => ⟨hw.1, ?_⟩)
      fun _ => ?_
    · rintro c hc
      obtain ⟨chunks, hr⟩ := hw.2
      rw [← Option.some.inj hc, hr]
      exact newRecord_plain
    · refine (quiet_is (Quiet.onlyIf (rmtree_quiet _))).bind fun _ => .pure fun w hw =>
        ⟨hw, fun c hc => ?_⟩
      cases hc
  · cases copied with
    | none => exact .pure fun w hw => balanced_of_is h w hw.1
    | some copied =>
      obtain ⟨r, jobs⟩ := copied
      intro w hw
      have hplain : Plain r := hw.2 _ rfl
      have hrest : Triple (Is s) (do
          let i ← track env r
          onlyIf (background = true) (queueWrite i jobs)
          if ← (if tier = .ram then belowReserve env else pure false) then
            if ← demoteToDisk env i then return some i
            else
              discard env i
              return none
          else return some i)
          (fun _ w => Balanced w.store) (fun w => Balanced w.store) := by
        refine (track_spec h hplain).bind fun i => Triple.bind
          (Q := fun _ w => Balanced w.store) (.onlyIf (fun _ => ?_) fun _ w hw => hw.1)
          fun _ => ?_
        · refine (kept_queueWrite jobs).pre fun w hw => ⟨hw.1, ?_, hw.2.2⟩
          rw [hw.2.1]
          exact hplain.pending
        · refine (kept_leaves (.ite belowReserve_store (.pure false))).bind fun _ => .ite
            (fun _ => (kept_demoteToDisk i).bind fun _ => .ite (fun _ => .pure _) fun _ =>
              (kept_discard i).bind fun _ => .pure _) fun _ => .pure _
      exact hrest w hw.1

theorem kept_settledPrevious (sid : String) : Kept (settledPrevious env sid) := by
  refine kept_of fun s h => reading_store ?_
  cases s.get sid with
  | none => exact .pure (balanced_of_is h)
  | some i => exact ((kept_finishOwed i).bind fun _ => .pure _).is h

/-- Only a valid disk record lends its files. -/
theorem incrementalBase_some {pools : Pools} {k : Disk} {r : SessionSpillRecord}
    {tokens : List Int} {n : Nat} {base : IncrementalBase}
    (h : incrementalBase pools k (some r) tokens n = some base) :
    r.valid = true ∧ r.tier = .disk := by
  rw [incrementalBase] at h
  split at h
  · rename_i hok
    simp only [Bool.and_eq_true, decide_eq_true_eq] at hok
    exact hok.1.1
  · cases h

theorem kept_giveUpPrevious (h : Balanced s) {pools : Pools} {k : Disk} {tokens : List Int} {n : Nat}
    (previous : Option RecordId) :
    Triple (Is s) (giveUpPrevious env previous
        (incrementalBase pools k (previous.map s.record) tokens n))
      (fun _ w => Balanced w.store) fun w => Balanced w.store := by
  cases previous with
  | none => exact .pure (balanced_of_is h)
  | some i =>
    cases hb : incrementalBase pools k ((some i).map s.record) tokens n with
    | none => exact (kept_discardOption (some i)).is h
    | some base =>
      obtain ⟨hv, ht⟩ := incrementalBase_some hb
      exact (modifyStore_is _).post fun _ w hw =>
        balanced_of_is (h.detach le_rfl le_rfl (h.mem hv) ht) w hw

theorem keepBase_store (previous : Option RecordId) (base : Option IncrementalBase)
    (tier : Option Tier) : Leaves World.store (keepBase env previous base tier) := by
  refine .ite (.bind (getStore_store.bind fun s => ?_) fun _ => .pure _) (.pure _)
  split
  · exact .pure ()
  · exact rmtree_store _

theorem kept_spill (pools : Pools) (req : SpillRequest) : Kept (spill env pools req) := by
  refine (kept_collectWrites false).bind fun _ => (kept_settledPrevious _).bind fun previous =>
    kept_of fun s h => reading_world fun w hw => ?_
  rw [hw]
  refine (kept_giveUpPrevious h previous).bind fun _ => (kept_reserveTier _ _ _).bind fun tier =>
    (kept_leaves (keepBase_store _ _ _)).bind fun base => ?_
  cases tier with
  | none => exact .pure _
  | some tier => exact kept_spillTo _ _ _ _ _ _ _

/-! ## The barrier -/

/-- The store is as it was, or has the new generation of the session. -/
def Published (s : Store) (sid : String) (previous : Option RecordId) (w : World) : Prop :=
  Is s w ∨ ∃ r, Plain r ∧ r.tier = .disk ∧ r.sessionId = sid ∧ Is (s.installDurable r previous) w

/-- A generation that is ready is a plain disk record of its session. -/
def Staged (sid : String) (r : SessionSpillRecord) : Prop :=
  Plain r ∧ r.tier = .disk ∧ r.sessionId = sid

theorem stageGeneration_spec {r : SessionSpillRecord} {sid : String} (hr : Staged sid r)
    (d : DirName) (uuid : Nat) (parts : List DurablePart) :
    Triple (Is s) (stageGeneration env r d uuid parts)
      (fun staged w => Is s w ∧ ∀ r ∈ staged.2, Staged sid r) (Is s) := by
  have hnone : ∀ (created : List Path), Triple (Is s)
      (pure (created, none) : M (List Path × Option SessionSpillRecord))
      (fun staged w => Is s w ∧ ∀ r ∈ staged.2, Staged sid r) (Is s) := fun created =>
    .pure fun w hw => ⟨hw, fun r hr => absurd hr (Option.not_mem_none r)⟩
  refine (leaves_is (remainingBytes_store _ _)).bind fun remaining =>
    (leaves_is (succeeds_store (saveBounded_store _ _ _))).bind fun saved => .ite (fun _ => ?_)
      fun _ => hnone _
  refine (leaves_is (stageChunks_store _ _ _ _ _ _ _)).bind fun staged => ?_
  obtain ⟨created, chunks⟩ := staged
  cases chunks with
  | none => exact hnone created
  | some chunks =>
    refine (leaves_is (succeeds_store (switchManifest_store _ _ _ _ _))).bind fun switched =>
      .ite (fun _ => .pure fun w hw => ⟨hw, fun r' hr' => ?_⟩) fun _ => hnone _
    rw [← Option.some.inj hr']
    exact ⟨⟨hr.1.valid, hr.1.pending, hr.1.cached, hr.1.backing⟩, hr.2⟩

theorem succeeds_quiet {m : M Unit} (h : Leaves World.store m) : Quiet World.store (succeeds m) :=
  (h.bind fun _ => .pure true).quiet_of_caught fun _ => .pure false

theorem publishDurable_spec (pools : Pools) (sid : String) (tokenIds : List Int)
    (numPages byteSize : Nat) (parts : List DurablePart) (previous : Option RecordId) :
    Triple (Is s) (publishDurable env pools sid tokenIds numPages byteSize parts previous)
      (fun _ => Published s sid previous) (Published s sid previous) := by
  have hleft : ∀ {β : Type} {m : M β}, Leaves World.store m →
      Triple (Is s) m (fun _ => Is s) (Published s sid previous) := fun h =>
    (leaves_is h).mono (fun _ h => h) (fun _ _ h => h) fun _ h => .inl h
  refine (hleft (call_store _)).bind fun _ => (hleft freshUuid_store).bind fun uuid =>
    (hleft (observe_store _)).bind fun now => Triple.bind
      (Q := fun staged w => Is s w ∧ ∀ r ∈ staged.2, Staged sid r) ?_ fun staged => ?_
  · exact (stageGeneration_spec ⟨⟨rfl, rfl, rfl, rfl⟩, rfl, rfl⟩ _ _ _).mono (fun _ h => h)
      (fun _ _ h => h) fun _ h => .inl h
  · obtain ⟨created, staged⟩ := staged
    cases staged with
    | none =>
      refine Triple.pre ((hleft (unlinkPaths_store _)).bind fun _ => .throw fun _ h => .inl h)
        fun w hw => hw.1
    | some r =>
      intro w hw
      have hr : Staged sid r := hw.2 r rfl
      have hdone : ∀ {β : Type} {m : M β}, Leaves World.store m →
          Triple (Is (s.installDurable r previous)) m (fun _ => Is (s.installDurable r previous))
            (Published s sid previous) := fun h =>
        (leaves_is h).mono (fun _ h => h) (fun _ _ h => h)
          fun _ h => .inr ⟨r, hr.1, hr.2.1, hr.2.2, h⟩
      have hrest : Triple (Is s) (do
          let confirmed ← succeeds (confirm env pools r (.session sid))
          modifyStore (·.installDurable r previous)
          onlyIf (!confirmed) (throw .valueError)
          unlinkOthers env (.session sid) (namedFiles r)
          fsync env
          fsync env)
          (fun _ => Published s sid previous) (Published s sid previous) := by
        refine (quiet_is (succeeds_quiet (confirm_store _ _ _))).bind fun confirmed =>
          updating ((hdone (.onlyIf (.throw _))).bind fun _ => (hdone (unlinkOthers_store _ _)).bind
            fun _ => (hdone fsync_store).bind fun _ => (hdone fsync_store).post fun _ _ h => ?_)
        exact .inr ⟨r, hr.1, hr.2.1, hr.2.2, h⟩
      exact hrest w hw.1

/-- The plan of the barrier still names the tracked record of each of `sids`. -/
def Matches (plan : BarrierPlan) (sids : List String) (s : Store) : Prop :=
  ∀ sid ∈ sids,
    (∀ i, plan.existing.lookup sid = some i → i ∈ s.records ∧ (s.record i).sessionId = sid) ∧
    ∀ i ∈ s.records, (s.record i).sessionId = sid → sid = "" ∨ plan.existing.lookup sid = some i

theorem installDurable_records (r : SessionSpillRecord) (previous : Option RecordId) :
    (∀ j, j ∈ (s.installDurable r previous).records ↔
      (j ∈ s.records ∧ previous ≠ some j) ∨ j = s.nextRecord) ∧
    (s.installDurable r previous).record s.nextRecord = r ∧
    ∀ j, j ≠ s.nextRecord → previous ≠ some j →
      (s.installDurable r previous).record j = s.record j := by
  cases previous with
  | none =>
    refine ⟨fun j => ?_, Function.update_self .., fun j hj _ => Function.update_of_ne hj _ _⟩
    change j ∈ s.records ++ [s.nextRecord] ↔ _
    rw [List.mem_append, List.mem_singleton]
    exact or_congr_left (and_iff_left (Option.some_ne_none j).symm).symm
  | some i =>
    obtain ⟨hrecords, -, hnext, hother⟩ := release_same s i
    have hself : (s.installDurable r (some i)).record =
        Function.update (s.release i).record (s.release i).nextRecord r := rfl
    rw [hself, hnext]
    refine ⟨fun j => ?_, Function.update_self .., fun j hj hij => ?_⟩
    · change j ∈ (s.release i).records ++ [(s.release i).nextRecord] ↔ _
      rw [hrecords, hnext, List.mem_append, List.mem_singleton, List.mem_filter,
        decide_eq_true_eq, ne_eq, ne_eq, Option.some.injEq, eq_comm (a := i)]
    · rw [Function.update_of_ne hj]
      exact hother j fun hji => hij (hji ▸ rfl)

/-- Publishing one session leaves the tracked records of the others as they are. -/
theorem Matches.published {plan : BarrierPlan} {sid : String} {sids : List String}
    (h : Matches plan (sid :: sids) s) (hs : Balanced s) (hsid : sid ∉ sids) {w : World}
    (hw : Published s sid (plan.existing.lookup sid) w) :
    Balanced w.store ∧ Matches plan sids w.store := by
  have hrest : Matches plan sids s := fun sid' h' => h sid' (List.mem_cons_of_mem _ h')
  rcases hw with hw | ⟨r, hr, ht, hrsid, hw⟩
  · rw [show w.store = s from hw]
    exact ⟨hs, hrest⟩
  · rw [show w.store = _ from hw]
    obtain ⟨hprev, honly⟩ := h sid List.mem_cons_self
    refine ⟨hs.installDurable le_rfl le_rfl hr ht (hrsid.symm ▸ hprev) (hrsid.symm ▸ honly), ?_⟩
    obtain ⟨hmem, hnew, hold⟩ := installDurable_records (s := s) r (plan.existing.lookup sid)
    intro sid' h'
    have hne : sid' ≠ sid := ne_of_mem_of_not_mem h' hsid
    -- a tracked record of another session is not the one given up
    have hkept : ∀ i ∈ s.records, (s.record i).sessionId = sid' →
        plan.existing.lookup sid ≠ some i := fun i _ hi hprevious =>
      hne (hi.symm.trans (hprev i hprevious).2)
    have hborn : ∀ i ∈ s.records, i ≠ s.nextRecord := fun i hi =>
      ne_of_mem_of_not_mem hi hs.filed.notMem_next
    refine ⟨fun i hi => ?_, fun i hi hisid => ?_⟩
    · obtain ⟨him, hisid⟩ := (hrest sid' h').1 i hi
      rw [hmem, hold i (hborn i him) (hkept i him hisid)]
      exact ⟨.inl ⟨him, hkept i him hisid⟩, hisid⟩
    · rcases (hmem i).mp hi with ⟨him, hi'⟩ | rfl
      · rw [hold i (hborn i him) hi'] at hisid
        exact (hrest sid' h').2 i him hisid
      · rw [hnew, hrsid] at hisid
        exact absurd hisid.symm hne

theorem persistOne_spec (pools : Pools) (plan : BarrierPlan) (sid : String) :
    Triple (Is s) (persistOne env pools plan sid)
      (fun _ => Published s sid (plan.existing.lookup sid))
      (Published s sid (plan.existing.lookup sid)) := by
  have hleft : ∀ {m : M Unit}, Leaves World.store m → Triple (Is s) m (fun _ => Is s)
      (Published s sid (plan.existing.lookup sid)) := fun h =>
    (leaves_is h).mono (fun _ h => h) (fun _ _ h => h) fun _ h => .inl h
  refine reading_store ?_
  dsimp only
  split
  · exact (hleft (mayRaise_store _)).bind fun _ => publishDurable_spec _ _ _ _ _ _ _
  · refine .ite (fun _ => publishDurable_spec _ _ _ _ _ _ _) fun _ => ?_
    exact (hleft (flushRecord_store _ _ _)).post fun _ _ h => .inl h
  · exact .pure fun _ h => .inl h

theorem persistEach_spec (pools : Pools) (plan : BarrierPlan) :
    ∀ (sids durable : List String), sids.Nodup →
      Triple (fun w => Balanced w.store ∧ Matches plan sids w.store)
        (persistEach env pools plan sids durable) (fun _ w => Balanced w.store)
        fun w => Balanced w.store
  | [], durable, _ => .pure fun _ hw => hw.1
  | sid :: sids, durable, hnd => by
    obtain ⟨hsid, hnd⟩ := List.nodup_cons.mp hnd
    refine Triple.bind (Q := fun _ w => Balanced w.store ∧ Matches plan sids w.store) (fun w hw => ?_)
      fun _ => .ite (fun _ => persistEach_spec pools plan sids _ hnd) fun _ => .pure fun _ h => h.1
    have hone : Triple (Is w.store) (succeeds (persistOne env pools plan sid))
        (fun _ w' => Balanced w'.store ∧ Matches plan sids w'.store)
        (fun w' => Balanced w'.store) :=
      .tryCatch (((persistOne_spec pools plan sid).mono (fun _ h => h)
        (fun _ _ h => hw.2.published hw.1 hsid h) fun _ h => hw.2.published hw.1 hsid h).bind
          fun _ => .pure fun _ h => h) fun _ => .pure fun _ h => h
    exact hone w rfl

/-- The barrier's own list of records names the tracked one of every session. -/
theorem matches_barrierPlan (h : Balanced s) (sources : List SpillRequest) (sids : List String) :
    Matches (barrierPlan s sources) sids s := by
  have hlisted : ∀ sid i, (existingRecords s).lookup sid = some i →
      i ∈ s.records ∧ (s.record i).sessionId = sid := fun sid i hi => by
    obtain ⟨l₁, l₂, hsplit, -⟩ := List.lookup_eq_some_iff.mp hi
    have hmem : (sid, i) ∈ existingRecords s :=
      hsplit ▸ List.mem_append_right _ List.mem_cons_self
    simp only [existingRecords, List.mem_map, List.mem_reverse, Prod.mk.injEq] at hmem
    obtain ⟨j, hj, hsid, rfl⟩ := hmem
    exact ⟨List.mem_of_mem_filter hj, hsid⟩
  intro sid _
  refine ⟨hlisted sid, fun i hi hisid => ?_⟩
  by_cases hne : sid = ""
  · exact .inl hne
  · refine .inr ?_
    have hsome : ((existingRecords s).lookup sid).isSome := by
      rw [List.lookup_isSome_iff]
      refine ⟨(sid, i), List.mem_map.mpr ⟨i, List.mem_reverse.mpr ?_, by rw [hisid]⟩, beq_self_eq_true sid⟩
      exact List.mem_filter.mpr ⟨hi, h.valid hi⟩
    obtain ⟨j, hj⟩ := Option.isSome_iff_exists.mp hsome
    obtain ⟨hjm, hjsid⟩ := hlisted sid j hj
    -- both are filed under the session id
    have hi' := h.filed.found i hi (hisid ▸ hne)
    have hj' := h.filed.found j hjm (hjsid ▸ hne)
    rw [hisid] at hi'
    rw [hjsid, hi'] at hj'
    exact hj.trans (Option.some.inj hj' ▸ rfl)

theorem kept_persistDurable (pools : Pools) (sources : List SpillRequest) :
    Kept (persistDurable env pools sources) := by
  refine (kept_leaves getStore_store).bind fun s₀ => .ite (fun _ => .pure _) fun _ =>
    (kept_collectWrites true).bind fun _ => .ite (fun _ => .pure _) fun _ =>
      kept_of fun s h => reading_world fun w hw => ?_
  rw [hw]
  refine .ite (fun _ => .pure (balanced_of_is h)) fun _ => .ite
    (fun _ => .pure (balanced_of_is h)) fun _ => (quiet_is (observe_quiet _)).bind fun free => ?_
  cases free with
  | none => exact .pure (balanced_of_is h)
  | some free =>
    refine .ite (fun _ => .pure (balanced_of_is h)) fun _ => ?_
    refine (persistEach_spec pools _ _ [] ?_).pre fun w hw => ?_
    · exact (List.perm_insertionSort _ _).nodup_iff.mpr (List.nodup_dedup _)
    · rw [show w.store = s from hw]
      exact ⟨h, matches_barrierPlan h sources _⟩

/-! ## Adopting a root -/

theorem loadRecord_plain {modelId : String} {fingerprint : Nat} {k : Disk} {d : DirName}
    {r : SessionSpillRecord} (h : loadRecord env modelId fingerprint k d = some r) : Plain r := by
  rw [loadRecord] at h
  split at h
  · split at h
    · split at h
      · rw [← Option.some.inj h]
        exact ⟨rfl, rfl, rfl, rfl⟩
      · cases h
    · cases h
  · cases h

theorem kept_adoptEntry (fingerprint : Nat) (d : DirName) : Kept (adoptEntry env fingerprint d) := by
  refine (kept_leaves getStore_store).bind fun s₀ => (kept_leaves (observe_store _)).bind
    fun unreadable => kept_of fun s h => reading_world fun w hw => ?_
  dsimp only
  split
  · rename_i r hr
    have hplain : Plain r := by
      split at hr
      · exact loadRecord_plain hr
      · cases hr
    exact (track_spec h hplain).bind fun _ => .pure fun _ h => h.1
  · exact (quiet_is (rmtree_quiet d)).post fun _ => balanced_of_is h

theorem kept_adoptEach (fingerprint : Nat) : ∀ ds : List DirName, Kept (adoptEach env fingerprint ds)
  | [] => .pure ()
  | d :: ds => (kept_adoptEntry fingerprint d).bind fun _ => kept_adoptEach fingerprint ds

theorem kept_evictToLimit : ∀ n : Nat, Kept (evictToLimit env n)
  | 0 => .pure ()
  | n + 1 => (kept_leaves getStore_store).bind fun _ => .ite
    (fun _ => (kept_evictOneLru none).bind fun _ => .onlyIf fun _ => kept_evictToLimit n)
    fun _ => .pure ()

theorem kept_adoptRoot (fingerprint : Nat) : Kept (adoptRoot env fingerprint) :=
  (kept_leaves Leaves.get).bind fun _ => (kept_adoptEach fingerprint _).bind fun _ =>
    (kept_leaves getStore_store).bind fun _ => kept_evictToLimit _

theorem balanced_empty (config : Config) : Balanced (.empty config) where
  filed := {
    nodup := List.nodup_nil
    tracked := fun _ => iff_of_false List.not_mem_nil Bool.false_ne_true
    unborn := fun _ _ => ⟨rfl, rfl⟩
    filed := fun _ _ h => absurd h (Option.some_ne_none _).symm
    found := fun _ h => absurd h List.not_mem_nil }
  owed := {
    nodup := List.nodup_nil
    unborn := fun _ h => absurd h List.not_mem_nil
    charged := fun _ h => absurd h List.not_mem_nil
    owner := fun _ h => absurd h List.not_mem_nil
    owes := fun _ _ h => absurd h (Option.some_ne_none _).symm }
  shaped := fun _ h => absurd h List.not_mem_nil
  ram := rfl
  disk := rfl
  reserved := rfl
  clamped := rfl

/-! ## Runs -/

theorem kept_perform (op : Op) : Kept (perform env op) := by
  cases op with
  | spill pools req => exact (kept_spill pools req).bind fun _ => .pure ()
  | collectWrites wait => exact kept_collectWrites wait
  | touch i => exact kept_touch i
  | rekey i sid => exact (kept_rekey i sid).bind fun _ => .pure ()
  | retire i => exact kept_retire i
  | discard i => exact kept_discardOption i
  | evictOneLru ex => exact (kept_evictOneLru ex).bind fun _ => .pure ()
  | demote i => exact (kept_demoteToDisk i).bind fun _ => .pure ()
  | enforceHostReserve => exact kept_enforceHostReserve
  | startPrefetch sid protect ids =>
    exact (kept_startPrefetch sid protect ids).bind fun _ => .pure ()
  | collectPrefetch sid wait => exact (kept_collectPrefetch sid wait).bind fun _ => .pure ()
  | cancelPrefetch sid => exact (kept_cancelPrefetch sid).bind fun _ => .pure ()
  | startWriteBehind protect => exact (kept_startWriteBehind protect).bind fun _ => .pure ()
  | collectWriteBehind wait => exact (kept_collectWriteBehind wait).bind fun _ => .pure ()
  | persistDurable pools sources =>
    exact (kept_persistDurable pools sources).bind fun _ => .pure ()
  | threads steps => exact Triple.modify fun w hw => (foldl_threadStep_store steps w).symm ▸ hw

theorem balanced_of_reachable {config : Config} {fingerprint : Nat} {k : Disk} {uuid : Nat}
    {w : World} (h : Reachable env config fingerprint k uuid w) : Balanced w.store := by
  refine h.invariant (P := fun w => Balanced w.store) ?_ fun w op w' hw _ hstep => ?_
  · exact (kept_adoptRoot fingerprint).final (balanced_empty config)
  · rw [step, Option.some.injEq] at hstep
    rw [← hstep]
    exact (kept_perform op).final hw

/-- The bytes of the tracked records in a tier. -/
def bytesIn (tier : Tier) (amount : SessionSpillRecord → Nat) (s : Store) : Nat :=
  ((s.records.filter fun i => (s.record i).tier = tier).map fun i => amount (s.record i)).sum

/-- The bytes of the queued writes that are still charged. -/
def chargedWriteBytes (s : Store) : Nat :=
  ((s.pendingWrites.filter fun v => (s.write v).charged).map fun v => (s.write v).nbytes).sum

/-- The bytes of the RAM records that have a disk copy. -/
def backedBytes (s : Store) : Nat :=
  ((s.records.filter fun i => (s.record i).tier = .ram ∧ (s.record i).backing.isSome).map
    fun i => (s.record i).byteSize).sum

theorem holdings_filter {ι : Type} (keys : List ι) (p : ι → Bool) (f : ι → Nat) :
    holdings (keys.filter p) f = holdings keys fun i => if p i then f i else 0 := by
  induction keys with
  | nil => rfl
  | cons i keys ih =>
    rw [List.filter_cons]
    cases hp : p i with
    | true =>
      rw [if_pos rfl]
      simpa [holdings, hp] using ih
    | false =>
      rw [if_neg Bool.false_ne_true, ih]
      simp [holdings, hp]

theorem holdings_add {ι : Type} (keys : List ι) (f g : ι → Nat) :
    holdings keys (fun i => f i + g i) = holdings keys f + holdings keys g :=
  List.sum_map_add

theorem Books.ram_eq (h : Balanced s) :
    s.ramBytes = bytesIn .ram (·.byteSize) s + bytesIn .disk (·.cachedBytes) s +
      chargedWriteBytes s := by
  have hram := h.ram
  have hshare : holdings s.records (fun i => ramShare (s.record i)) =
      bytesIn .ram (·.byteSize) s + bytesIn .disk (·.cachedBytes) s := by
    change _ = holdings (s.records.filter _) (fun i => (s.record i).byteSize) +
      holdings (s.records.filter _) fun i => (s.record i).cachedBytes
    rw [holdings_filter, holdings_filter, ← holdings_add]
    refine holdings_congr fun i _ => ?_
    rw [ramShare]
    cases (s.record i).tier with
    | ram => rfl
    | disk => exact (Nat.zero_add _).symm
  have hwrites : holdings s.pendingWrites (fun v => writeShare (s.write v)) =
      chargedWriteBytes s :=
    (holdings_filter s.pendingWrites (fun v => (s.write v).charged) fun v => (s.write v).nbytes).symm
  omega

theorem Books.disk_eq (h : Balanced s) :
    s.diskBytes = bytesIn .disk (·.byteSize) s + backedBytes s := by
  have hdisk := h.disk
  have hshare : holdings s.records (fun i => diskShare (s.record i)) =
      bytesIn .disk (·.byteSize) s + backedBytes s := by
    change _ = holdings (s.records.filter _) (fun i => (s.record i).byteSize) +
      holdings (s.records.filter _) fun i => (s.record i).byteSize
    rw [holdings_filter, holdings_filter, ← holdings_add]
    refine holdings_congr fun i _ => ?_
    rw [diskShare]
    cases (s.record i).tier with
    | ram => cases (s.record i).backing <;> exact (Nat.zero_add _).symm
    | disk => rfl
  omega

/-- In every state of every run, whatever the root held and whatever fails: the RAM
counter is the bytes of the RAM records, of the tensors prefetched for disk records
and of the queued writes still charged; the disk counter is the bytes of the disk
records and of the disk copies of RAM records; the reservation counter is what the
promotion under way has reserved; no subtraction was ever cut off at zero; and the
records tracked are the valid ones, each once, each found under its session id. -/
theorem accounting {config : Config} {fingerprint : Nat} {k : Disk} {uuid : Nat} {w : World}
    (h : Reachable env config fingerprint k uuid w) :
    w.store.ramBytes = bytesIn .ram (·.byteSize) w.store + bytesIn .disk (·.cachedBytes) w.store +
        chargedWriteBytes w.store ∧
      w.store.diskBytes = bytesIn .disk (·.byteSize) w.store + backedBytes w.store ∧
      w.store.prefetchReservedBytes = (w.store.prefetch.map (·.reservedBytes)).getD 0 ∧
      w.store.clamped = false ∧
      w.store.records.Nodup ∧
      (∀ i, i ∈ w.store.records ↔ (w.store.record i).valid = true) ∧
      (∀ sid i, w.store.bySession sid = some i →
        i ∈ w.store.records ∧ (w.store.record i).valid = true ∧ (w.store.record i).sessionId = sid) ∧
      ∀ i ∈ w.store.records, (w.store.record i).sessionId ≠ "" →
        w.store.bySession (w.store.record i).sessionId = some i := by
  have hb := balanced_of_reachable h
  refine ⟨hb.ram_eq, hb.disk_eq, ?_, hb.clamped, hb.filed.nodup, hb.filed.tracked,
    fun sid i hi => ?_, hb.filed.found⟩
  · have := hb.reserved
    omega
  · obtain ⟨hmem, hsid⟩ := hb.filed.filed sid i hi
    exact ⟨hmem, hb.valid hmem, hsid⟩

/-- Three pages and a state of session "a" go to disk behind a queued write. -/
theorem queued_spill_accounted :
    (calmRun (smallConfig 0 100 200) [.spill smallPools (smallTurn "a" [1, 2, 3] [5, 6, 7])]).store.ramBytes
        = 44 ∧
      (calmRun (smallConfig 0 100 200)
        [.spill smallPools (smallTurn "a" [1, 2, 3] [5, 6, 7])]).store.clamped = false :=
  ⟨by decide +kernel, (accounting (calmRun_reachable _ _)).2.2.2.1⟩

end FreeToken.Spill
