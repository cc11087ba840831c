import FreeToken.Spill.BalancedRuns

/-!
# The budgets of the spill store

The store looks for room before it tracks a record, demotes one or reserves bytes for
a promotion. It charges a queued write, the tensors of a finished promotion, a
finished disk copy and a durable generation without looking again. So a run keeps to
its budgets exactly when those four charges always happen to find room
(`budgets_hold_iff`), and a run need not: the first checkpoint that goes to disk in
the background already takes RAM that the budget does not have
(`queued_write_over_budget`).
-/

namespace FreeToken.Spill

open FreeToken.Lib

def Balance.add (b amount : Balance) : Balance :=
  ⟨b.ram + amount.ram, b.disk + amount.disk, b.reserved + amount.reserved⟩

/-- A balance inside the RAM budget, the disk budget and the retention cap. -/
def Balance.Within (config : Config) (b : Balance) : Prop :=
  b.ram + b.reserved ≤ config.ramBudgetBytes ∧ b.disk ≤ config.diskBudgetBytes ∧
    b.ram + b.disk ≤ config.limitBytes

instance (config : Config) (b : Balance) : Decidable (b.Within config) :=
  inferInstanceAs (Decidable (_ ∧ _ ∧ _))

/-- The sites that look for room right before they charge. -/
def Site.checked : Site → Bool
  | .trackRam | .trackDisk | .demote | .startPrefetch => true
  | .queueWrite | .durable | .collectPrefetch | .collectWriteBehind => false

/-- There was room for the charge when it was made. -/
def Charge.Fits (config : Config) (c : Charge) : Prop := (c.before.add c.amount).Within config

/-! ## Ledgers -/

/-- What a store object says of its counters, now and so far. -/
structure Ledger where
  config : Config
  balance : Balance
  moments : List Balance
  charges : List Charge

def Store.ledger (s : Store) : Ledger := ⟨s.config, s.balance, s.moments, s.charges⟩

def Ledger.charge (site : Site) (amount : Balance) (l : Ledger) : Ledger :=
  ⟨l.config, l.balance.add amount, l.balance.add amount :: l.moments,
    ⟨site, amount, l.balance⟩ :: l.charges⟩

/-- No counter is larger. -/
structure Balance.Le (b b' : Balance) : Prop where
  ram : b.ram ≤ b'.ram
  disk : b.disk ≤ b'.disk
  reserved : b.reserved ≤ b'.reserved

theorem Balance.Le.refl (b : Balance) : b.Le b := ⟨le_rfl, le_rfl, le_rfl⟩

theorem Balance.Le.trans {a b c : Balance} (h : a.Le b) (h' : b.Le c) : a.Le c :=
  ⟨h.ram.trans h'.ram, h.disk.trans h'.disk, h.reserved.trans h'.reserved⟩

theorem Balance.Within.le {config : Config} {b b' : Balance} (h : b'.Within config)
    (hb : b.Le b') : b.Within config := by
  obtain ⟨hram, hdisk, hlimit⟩ := h
  obtain ⟨h₁, h₂, h₃⟩ := hb
  exact ⟨by omega, by omega, by omega⟩

/-- `l'` comes from `l` by giving bytes back. -/
structure Eased (l l' : Ledger) : Prop where
  config : l'.config = l.config
  charges : l'.charges = l.charges
  balance : l'.balance.Le l.balance
  moments : ∃ ms, l'.moments = ms ++ l.moments ∧ ∀ b ∈ ms, b.Le l.balance

theorem Eased.refl (l : Ledger) : Eased l l :=
  ⟨rfl, rfl, .refl _, [], rfl, fun _ h => absurd h List.not_mem_nil⟩

theorem Eased.trans {l l' l'' : Ledger} (h : Eased l l') (h' : Eased l' l'') : Eased l l'' := by
  obtain ⟨ms, hms, hle⟩ := h.moments
  obtain ⟨ms', hms', hle'⟩ := h'.moments
  refine ⟨h'.config.trans h.config, h'.charges.trans h.charges, h'.balance.trans h.balance,
    ms' ++ ms, by rw [hms', hms, List.append_assoc], fun b hb => ?_⟩
  rcases List.mem_append.mp hb with hb | hb
  · exact (hle' b hb).trans h.balance
  · exact hle b hb

/-- One credit. -/
theorem Eased.credit {l : Ledger} {b : Balance} (hb : b.Le l.balance) :
    Eased l ⟨l.config, b, b :: l.moments, l.charges⟩ :=
  ⟨rfl, rfl, hb, [b], rfl, fun _ h => List.mem_singleton.mp h ▸ hb⟩

variable {env : Env} {α β : Type} {s : Store} {i : RecordId}

theorem eased_creditRam (n : Nat) (s : Store) : Eased s.ledger (s.creditRam n).ledger :=
  .credit ⟨Nat.sub_le _ _, le_rfl, le_rfl⟩

theorem eased_creditDisk (n : Nat) (s : Store) : Eased s.ledger (s.creditDisk n).ledger :=
  .credit ⟨le_rfl, Nat.sub_le _ _, le_rfl⟩

theorem eased_creditReserved (n : Nat) (s : Store) : Eased s.ledger (s.creditReserved n).ledger :=
  .credit ⟨le_rfl, le_rfl, Nat.sub_le _ _⟩

theorem eased_dropCache (i : RecordId) (s : Store) : Eased s.ledger (s.dropCache i).ledger := by
  rw [Store.dropCache]
  split
  · exact eased_creditRam _ s
  · exact .refl _

theorem cancelPrefetchOf_ledger (i : RecordId) (s : Store) :
    (s.cancelPrefetchOf i).ledger = s.ledger := by
  rw [Store.cancelPrefetchOf]
  split <;> rfl

theorem forgetPromoted_ledger (sid : String) (s : Store) :
    (s.forgetPromoted sid).ledger = s.ledger := by
  rw [Store.forgetPromoted]
  split <;> rfl

theorem cancelWriteBehindOf_ledger (i : RecordId) (s : Store) :
    (s.cancelWriteBehindOf i).ledger = s.ledger := by
  rw [Store.cancelWriteBehindOf]
  split <;> rfl

theorem settleWrite_ledger (i : WriteId) (s : Store) : Eased s.ledger (s.settleWrite i).ledger := by
  simp only [Store.settleWrite]
  split
  · exact eased_creditRam _ s
  · exact .refl _

theorem detach_ledger (i : RecordId) (s : Store) : Eased s.ledger (s.detach i).ledger := by
  have hflags : ((s.cancelPrefetchOf i).forgetPromoted (s.record i).sessionId).ledger = s.ledger :=
    (forgetPromoted_ledger _ _).trans (cancelPrefetchOf_ledger i s)
  have hcredit := eased_creditDisk (s.record i).byteSize
    (((s.cancelPrefetchOf i).forgetPromoted (s.record i).sessionId).untrack i)
  rw [show Store.ledger (Store.untrack i _) = _ from hflags] at hcredit
  exact hcredit.trans (eased_dropCache i _)

theorem release_ledger (i : RecordId) (s : Store) : Eased s.ledger (s.release i).ledger := by
  have hram := eased_creditRam (s.record i).byteSize { s with records := s.records.filter (· ≠ i) }
  have hdisk := eased_creditDisk (s.record i).byteSize { s with records := s.records.filter (· ≠ i) }
  simp only [Store.release]
  split
  · split
    · exact hram.trans (eased_creditDisk _ _)
    · exact hram
  · exact hdisk.trans (eased_dropCache i _)

/-! ## Programs that only give bytes back -/

def Eases (m : M α) : Prop :=
  ∀ l, Triple (fun w => Eased l w.store.ledger) m (fun _ w => Eased l w.store.ledger)
    fun w => Eased l w.store.ledger

theorem Eases.bind {m : M α} {k : α → M β} (h : Eases m) (hk : ∀ a, Eases (k a)) :
    Eases (m >>= k) := fun l => (h l).bind fun a => hk a l

theorem Eases.pure (a : α) : Eases (pure a : M α) := fun _ => .pure fun _ h => h

theorem Eases.throw (e : Fault) : Eases (throw e : M α) := fun _ => .throw fun _ h => h

theorem Eases.ite {c : Prop} [Decidable c] {m m' : M α} (h : Eases m) (h' : Eases m') :
    Eases (if c then m else m') := fun l => .ite (fun _ => h l) fun _ => h' l

theorem Eases.onlyIf {c : Prop} [Decidable c] {m : M Unit} (h : Eases m) : Eases (onlyIf c m) :=
  h.ite (.pure ())

theorem Eases.tryCatch {m : M α} {h : Fault → M α} (hm : Eases m) (hh : ∀ e, Eases (h e)) :
    Eases (tryCatch m h) := fun l => .tryCatch (hm l) fun e => hh e l

theorem eases_leaves {m : M α} (h : Leaves World.store m) : Eases m :=
  fun l => h.triple (P := fun s => Eased l s.ledger)

theorem eases_modifyStore {g : Store → Store} (h : ∀ s, Eased s.ledger (g s).ledger) :
    Eases (modifyStore g) := fun _ => .modify fun _ hw => hw.trans (h _)

theorem eases_dropBacking (i : RecordId) : Eases (dropBacking env i) := by
  refine (eases_leaves (getRecord_store i)).bind fun r => ?_
  cases r.backing with
  | none => exact .pure ()
  | some b =>
    exact (eases_leaves (rmtree_store _)).bind fun _ =>
      eases_modifyStore fun s => eased_creditDisk r.byteSize _

theorem eases_discardBytes (i : RecordId) (r : SessionSpillRecord) :
    Eases (discardBytes env i r) := by
  rw [discardBytes]
  cases r.tier with
  | ram =>
    exact (eases_modifyStore (eased_creditRam _)).bind fun _ => (eases_dropBacking i).bind fun _ =>
      eases_modifyStore fun s => cancelWriteBehindOf_ledger i s ▸ .refl _
  | disk =>
    exact (eases_modifyStore (eased_creditDisk _)).bind fun _ =>
      (eases_modifyStore (eased_dropCache i)).bind fun _ =>
        eases_leaves (rmtreeAll_quiet _).leaves

theorem eases_discardSettled (i : RecordId) : Eases (discardSettled env i) := by
  refine (eases_leaves (getRecord_store i)).bind fun r => .onlyIf ?_
  refine (eases_modifyStore fun s => ?_).bind fun _ => (eases_discardBytes i r).bind fun _ =>
    eases_modifyStore fun s => by exact .refl s.ledger
  have hflags : ((s.cancelPrefetchOf i).forgetPromoted r.sessionId).ledger = s.ledger :=
    (forgetPromoted_ledger _ _).trans (cancelPrefetchOf_ledger i s)
  exact hflags ▸ Eased.refl _

theorem isPending_store (i : WriteId) : Leaves World.store (isPending env i) := by
  refine getStore_store.bind fun s => ?_
  split
  · exact .pure _
  · exact .throw _

theorem eases_finishWrite (i : WriteId) (wait : Bool) : Eases (finishWrite env i wait) := by
  refine (eases_leaves Leaves.get).bind fun w => .ite (.pure _) ?_
  refine (eases_leaves (waitDone_quiet i).leaves).bind fun _ =>
    (eases_leaves (isPending_store i)).bind fun member =>
      (Eases.onlyIf (eases_modifyStore fun s => by exact .refl s.ledger)).bind fun _ =>
        (eases_modifyStore (settleWrite_ledger i)).bind fun _ => (eases_leaves Leaves.get).bind fun w =>
          .ite (.pure _) (.bind (.tryCatch ?_ fun _ => eases_discardSettled _) fun _ => .pure _)
  exact eases_leaves ((Leaves.onlyIf (.throw _)).bind fun _ => publish_store _)

theorem eases_discard (i : RecordId) : Eases (discard env i) := by
  refine (eases_leaves (getRecord_store i)).bind fun r => .onlyIf ?_
  cases r.pending with
  | none => exact eases_discardSettled i
  | some wid =>
    exact (eases_modifyStore fun s => by exact .refl s.ledger).bind fun _ =>
      (eases_finishWrite wid true).bind fun _ => eases_discardSettled i

theorem eases_discardOption (i : Option RecordId) : Eases (discardOption env i) := by
  cases i with
  | none => exact .pure ()
  | some i => exact eases_discard i

theorem eases_collectEach (wait : Bool) : ∀ l : List WriteId, Eases (collectEach env wait l)
  | [] => .pure ()
  | i :: is => (eases_finishWrite i wait).bind fun _ => .onlyIf (eases_collectEach wait is)

theorem eases_collectWrites (wait : Bool) : Eases (collectWrites env wait) :=
  (eases_leaves getStore_store).bind fun _ => eases_collectEach wait _

theorem eases_finishOwed (i : RecordId) : Eases (finishOwed env i) := by
  refine (eases_leaves (getRecord_store i)).bind fun r => ?_
  cases r.pending with
  | none => exact .pure ()
  | some wid => exact (eases_finishWrite wid true).bind fun _ => .pure ()

theorem eases_touch (i : Option RecordId) : Eases (touch env i) := by
  cases i with
  | none => exact .pure ()
  | some i =>
    refine (eases_leaves (getRecord_store i)).bind fun _ => .onlyIf ?_
    exact (eases_leaves (observe_store _)).bind fun _ =>
      (eases_modifyStore fun s => by exact .refl s.ledger).bind fun _ =>
        (eases_leaves (getRecord_store i)).bind fun r =>
          eases_leaves (ignoring_store (writeManifest_store r))

theorem eases_evictOneLru (excludeSession : Option String) :
    Eases (evictOneLru env excludeSession) := by
  refine (eases_leaves getStore_store).bind fun s => ?_
  cases lruVictim s excludeSession with
  | none => exact .pure _
  | some victim => exact (eases_discard victim).bind fun _ => .pure _

theorem eases_dropToBacking (i : RecordId) : Eases (dropToBacking env i) := by
  refine (eases_leaves Leaves.get).bind fun w => ?_
  cases (w.store.record i).backing with
  | none => exact .pure _
  | some b =>
    exact .ite ((eases_modifyStore fun s => by exact eased_creditRam (s.record i).byteSize _).bind fun _ => .pure _)
      ((eases_dropBacking i).bind fun _ => .pure _)

theorem eases_retire (i : Option RecordId) : Eases (retire env i) := by
  cases i with
  | none => exact .pure ()
  | some i =>
    exact (eases_leaves (getRecord_store i)).bind fun _ => .onlyIf
      ((eases_modifyStore (eased_dropCache i)).bind fun _ => .onlyIf
        ((eases_dropToBacking i).bind fun _ => .onlyIf (eases_discard i)))

theorem eases_moveFiles (i : RecordId) (target : DirName) : Eases (moveFiles env i target) := by
  refine (eases_leaves (getRecord_store i)).bind fun r => ?_
  split
  · refine (eases_leaves (rmtree_store _)).bind fun _ => .tryCatch ?_ fun _ => .pure _
    exact (eases_leaves (call_store _)).bind fun _ =>
      (eases_modifyStore fun s => by exact .refl s.ledger).bind fun _ => .pure _
  · refine (eases_leaves (rmtree_store _)).bind fun _ => .bind
      (.tryCatch ?_ fun _ => eases_dropBacking i) fun _ => .pure _
    exact (eases_leaves (call_store _)).bind fun _ => eases_modifyStore fun s => by exact .refl s.ledger
  · exact .pure _

theorem eases_rekey (i : Option RecordId) (sid : String) : Eases (rekey env i sid) := by
  cases i with
  | none => exact .pure _
  | some i =>
    refine (eases_finishOwed i).bind fun _ => (eases_leaves (getRecord_store i)).bind fun r =>
      .ite (.pure _) ((eases_modifyStore fun s => ?_).bind fun _ =>
        (eases_leaves getStore_store).bind fun s => (eases_discardOption _).bind fun _ =>
          (eases_moveFiles i _).bind fun _ => .ite ((eases_modifyStore fun s => by exact .refl s.ledger).bind
            fun _ => (eases_leaves (getRecord_store i)).bind fun r =>
              (eases_leaves (ignoring_store (writeManifest_store r))).bind fun _ => .pure _) (.pure _))
    exact ((forgetPromoted_ledger _ _).trans (cancelPrefetchOf_ledger i s)) ▸ Eased.refl _

theorem eases_takePromoted (sid : Option String) : Eases (takePromoted sid) := by
  refine (eases_leaves getStore_store).bind fun s => ?_
  cases s.promoted with
  | none => exact .pure _
  | some promoted =>
    exact .ite (.pure _) ((eases_modifyStore fun s => by exact .refl s.ledger).bind fun _ => .pure _)

theorem eases_cancelPrefetch (sid : Option String) : Eases (cancelPrefetch sid) := by
  refine (eases_leaves getStore_store).bind fun s => ?_
  cases s.prefetch with
  | none => exact .pure _
  | some p => exact .ite (.pure _) ((eases_modifyStore fun s => by exact .refl s.ledger).bind fun _ => .pure _)

theorem eases_settledPrevious (sid : String) : Eases (settledPrevious env sid) := by
  refine (eases_leaves getStore_store).bind fun s => ?_
  cases s.get sid with
  | none => exact .pure _
  | some i => exact (eases_finishOwed i).bind fun _ => .pure _

theorem eases_giveUpPrevious (previous : Option RecordId) (base : Option IncrementalBase) :
    Eases (giveUpPrevious env previous base) := by
  cases previous with
  | none => cases base <;> exact .pure ()
  | some i =>
    cases base with
    | none => exact eases_discardOption (some i)
    | some base => exact eases_modifyStore (detach_ledger i)

/-! ## Room -/

/-- There is room for `n` more bytes in a tier. -/
structure RoomFor (tier : Tier) (n : Nat) (l : Ledger) : Prop where
  limit : l.balance.ram + l.balance.disk + n ≤ l.config.limitBytes
  ram : tier = .ram → l.balance.ram + l.balance.reserved + n ≤ l.config.ramBudgetBytes
  disk : tier = .disk → l.balance.disk + n ≤ l.config.diskBudgetBytes

theorem RoomFor.eased {tier : Tier} {n : Nat} {l l' : Ledger} (h : RoomFor tier n l)
    (he : Eased l l') : RoomFor tier n l' := by
  obtain ⟨hram, hdisk, hres⟩ := he.balance
  have hlimit := h.limit
  refine ⟨?_, fun ht => ?_, fun ht => ?_⟩
  · rw [he.config]
    omega
  · have := h.ram ht
    rw [he.config]
    omega
  · have := h.disk ht
    rw [he.config]
    omega

theorem ramHasRoom_spec (n : Nat) :
    Triple (Is s) (ramHasRoom env n) (fun b w => Is s w ∧
      (b = true → s.ramBytes + s.prefetchReservedBytes + n ≤ s.config.ramBudgetBytes)) (Is s) := by
  refine (quiet_is (observe_quiet _)).bind fun mem => reading_store (.pure fun w hw => ⟨hw, fun h => ?_⟩)
  rw [Bool.and_eq_true, decide_eq_true_eq] at h
  have := h.1
  omega

theorem diskHasRoom_spec (n : Nat) :
    Triple (Is s) (diskHasRoom env n) (fun b w => Is s w ∧
      (b = true → s.diskBytes + n ≤ s.config.diskBudgetBytes)) (Is s) := by
  refine (quiet_is (observe_quiet _)).bind fun free => reading_store ?_
  cases free with
  | none => exact .pure fun w hw => ⟨hw, fun h => absurd h Bool.false_ne_true⟩
  | some free =>
    refine .pure fun w hw => ⟨hw, fun h => ?_⟩
    rw [Bool.and_eq_true, decide_eq_true_eq] at h
    have := h.1
    omega

/-- The tier that fits has the room. -/
theorem fittingTier_spec (n : Nat) (preferDisk : Bool) :
    Triple (Is s) (fittingTier env n preferDisk)
      (fun tier w => Is s w ∧ ∀ t, tier = some t → RoomFor t n s.ledger) (Is s) := by
  have hnone : Triple (Is s) (pure none : M (Option Tier))
      (fun tier w => Is s w ∧ ∀ t, tier = some t → RoomFor t n s.ledger) (Is s) :=
    .pure fun w hw => ⟨hw, fun t ht => absurd ht (Option.some_ne_none t).symm⟩
  refine reading_store (.ite (fun hlimit => ?_) fun _ => hnone)
  have hram : s.ramBytes + s.prefetchReservedBytes + n ≤ s.config.ramBudgetBytes →
      RoomFor .ram n s.ledger := fun h => ⟨hlimit, fun _ => h, fun ht => absurd ht (by decide)⟩
  have hdisk : s.diskBytes + n ≤ s.config.diskBudgetBytes → RoomFor .disk n s.ledger :=
    fun h => ⟨hlimit, fun ht => absurd ht (by decide), fun _ => h⟩
  have hsome : ∀ t, RoomFor t n s.ledger → Triple (Is s) (pure (some t) : M (Option Tier))
      (fun tier w => Is s w ∧ ∀ t, tier = some t → RoomFor t n s.ledger) (Is s) := fun t ht =>
    .pure fun w hw => ⟨hw, fun t' ht' => Option.some.inj ht' ▸ ht⟩
  refine Triple.bind (Q := fun b w => Is s w ∧ (b = true → RoomFor .disk n s.ledger)) (.ite
    (fun _ => (diskHasRoom_spec n).post fun _ _ h => ⟨h.1, fun hb => hdisk (h.2 hb)⟩)
    fun _ => .pure fun w hw => ⟨hw, fun hb => absurd hb Bool.false_ne_true⟩) fun b => .ite
      (fun hb w hw => hsome _ (hw.2 hb) w hw.1) fun _ => Triple.pre ?_ fun w hw => hw.1
  refine (ramHasRoom_spec n).bind fun b => .ite (fun hb w hw => hsome _ (hram (hw.2 hb)) w hw.1)
    fun _ => Triple.pre ?_ fun w hw => hw.1
  exact (diskHasRoom_spec n).bind fun b => .ite (fun hb w hw => hsome _ (hdisk (hw.2 hb)) w hw.1)
    fun _ => hnone.pre fun w hw => hw.1

/-- What `_reserve_tier` answers has the room, after the evictions it made. -/
theorem reserveLoop_spec (l : Ledger) (n : Nat) (sid : String) (preferDisk : Bool) :
    ∀ fuel, Triple (fun w => Eased l w.store.ledger) (reserveLoop env n sid preferDisk fuel)
      (fun tier w => Eased l w.store.ledger ∧ ∀ t, tier = some t → RoomFor t n w.store.ledger)
      fun w => Eased l w.store.ledger
  | 0 => .pure fun _ h => ⟨h, fun t ht => absurd ht (Option.some_ne_none t).symm⟩
  | fuel + 1 => by
    intro w hw
    have hfit : Triple (Is w.store) (reserveLoop env n sid preferDisk (fuel + 1))
        (fun tier w => Eased l w.store.ledger ∧ ∀ t, tier = some t → RoomFor t n w.store.ledger)
        (fun w => Eased l w.store.ledger) := by
      have his : ∀ w', Is w.store w' → Eased l w'.store.ledger := fun w' hw' => hw'.symm ▸ hw
      refine ((fittingTier_spec n preferDisk).mono (fun _ h => h) (fun _ _ h => h) his).bind
        fun tier => ?_
      cases tier with
      | some tier =>
        refine .pure fun w' hw' => ⟨his w' hw'.1, fun t ht => ?_⟩
        rw [show w'.store = w.store from hw'.1]
        exact hw'.2 t ht
      | none =>
        refine Triple.pre ((eases_evictOneLru (some sid) l).bind fun evicted => .ite
          (fun _ => reserveLoop_spec l n sid preferDisk fuel) fun _ => .pure fun _ h =>
            ⟨h, fun t ht => absurd ht (Option.some_ne_none t).symm⟩) fun w' hw' => his w' hw'.1
    exact hfit w rfl

theorem reserveTier_spec (l : Ledger) (n : Nat) (sid : String) (preferDisk : Bool) :
    Triple (fun w => Eased l w.store.ledger) (reserveTier env n sid preferDisk)
      (fun tier w => Eased l w.store.ledger ∧ ∀ t, tier = some t → RoomFor t n w.store.ledger)
      fun w => Eased l w.store.ledger :=
  Triple.bind (eases_leaves getStore_store l) fun _ => .ite
    (fun _ => .pure fun _ h => ⟨h, fun t ht => absurd ht (Option.some_ne_none t).symm⟩)
    fun _ => reserveLoop_spec l n sid preferDisk _

/-! ## Bounded runs -/

/-- The ledger since `l₀`: the balances `ms` and the charges `cs` it has gone through.
While every unchecked charge found room, it has kept to the budgets. -/
structure Since (l₀ : Ledger) (ms : List Balance) (cs : List Charge) (l : Ledger) : Prop where
  config : l.config = l₀.config
  moments : l.moments = ms ++ l₀.moments
  charges : l.charges = cs ++ l₀.charges
  reached : ∀ c ∈ cs, c.before.add c.amount ∈ ms
  within : (∀ c ∈ cs, c.site.checked = false → c.Fits l₀.config) →
    l.balance.Within l₀.config ∧ ∀ b ∈ ms, b.Within l₀.config

def Bounded (l₀ l : Ledger) : Prop := ∃ ms cs, Since l₀ ms cs l

theorem bounded_refl {l : Ledger} (h : l.balance.Within l.config) : Bounded l l :=
  ⟨[], [], rfl, rfl, rfl, fun _ h => absurd h List.not_mem_nil,
    fun _ => ⟨h, fun _ h => absurd h List.not_mem_nil⟩⟩

theorem Bounded.eased {l₀ l l' : Ledger} (h : Bounded l₀ l) (he : Eased l l') : Bounded l₀ l' := by
  obtain ⟨ms, cs, h⟩ := h
  obtain ⟨ms', hms', hle⟩ := he.moments
  refine ⟨ms' ++ ms, cs, he.config.trans h.config, by rw [hms', h.moments, List.append_assoc],
    he.charges.trans h.charges, fun c hc => List.mem_append_right _ (h.reached c hc), fun hfits => ?_⟩
  obtain ⟨hbal, hms⟩ := h.within hfits
  refine ⟨hbal.le he.balance, fun b hb => ?_⟩
  rcases List.mem_append.mp hb with hb | hb
  · exact hbal.le (hle b hb)
  · exact hms b hb

/-- A charge from a ledger that has only been eased since it kept to the budgets. A
checked site has to find the room; at any other it is part of the condition. -/
theorem Bounded.charge {l₀ l l' : Ledger} (h : Bounded l₀ l) (he : Eased l l') (site : Site)
    (amount : Balance) (hfit : site.checked = true → l.balance.Within l.config →
      (l'.balance.add amount).Within l.config) : Bounded l₀ (l'.charge site amount) := by
  obtain ⟨ms, cs, hs⟩ := h.eased he
  obtain ⟨ms', cs', h⟩ := h
  have hcs : cs' = cs := by
    have := h.charges.symm.trans (he.charges.symm.trans hs.charges)
    exact List.append_cancel_right this
  subst hcs
  let b := l'.balance.add amount
  refine ⟨b :: ms, ⟨site, amount, l'.balance⟩ :: cs', hs.config, ?_, ?_, fun c hc => ?_,
    fun hfits => ?_⟩
  · change b :: l'.moments = _
    rw [hs.moments, List.cons_append]
  · change _ :: l'.charges = _
    rw [hs.charges, List.cons_append]
  · rcases List.mem_cons.mp hc with rfl | hc
    · exact List.mem_cons_self
    · exact List.mem_cons_of_mem _ (hs.reached c hc)
  · have hold : ∀ c ∈ cs', c.site.checked = false → c.Fits l₀.config :=
      fun c hc => hfits c (List.mem_cons_of_mem _ hc)
    have hb : b.Within l₀.config := by
      cases hsite : site.checked with
      | true => exact h.config ▸ hfit hsite (h.config.symm ▸ (h.within hold).1)
      | false => exact hfits _ List.mem_cons_self hsite
    refine ⟨hb, fun b' hb' => ?_⟩
    rcases List.mem_cons.mp hb' with rfl | hb'
    · exact hb
    · exact (hs.within hold).2 b' hb'

/-- The books are balanced, and the ledger is bounded since `l₀`. -/
def Sound (l₀ : Ledger) (w : World) : Prop := Balanced w.store ∧ Bounded l₀ w.store.ledger

/-- `m` keeps balanced books balanced and bounded ledgers bounded. -/
def Stays (m : M α) : Prop := ∀ l₀, Triple (Sound l₀) m (fun _ => Sound l₀) (Sound l₀)

theorem Stays.bind {m : M α} {k : α → M β} (h : Stays m) (hk : ∀ a, Stays (k a)) :
    Stays (m >>= k) := fun l₀ => (h l₀).bind fun a => hk a l₀

theorem Stays.pure (a : α) : Stays (pure a : M α) := fun _ => .pure fun _ h => h

theorem Stays.ite {c : Prop} [Decidable c] {m m' : M α} (h : Stays m) (h' : Stays m') :
    Stays (if c then m else m') := fun l₀ => .ite (fun _ => h l₀) fun _ => h' l₀

theorem Stays.onlyIf {c : Prop} [Decidable c] {m : M Unit} (h : Stays m) : Stays (onlyIf c m) :=
  h.ite (.pure ())

/-- What a program that gives bytes back reaches is still bounded. -/
theorem Kept.stays {m : M α} (hk : Kept m) (he : Eases m) : Stays m := by
  intro l₀ w hw
  refine (Triple.and (hk.is hw.1) ((he w.store.ledger).pre (S := Is w.store) fun w' hw' => ?_)).mono
    (S := Is w.store) (fun _ h => ⟨h, h⟩) (fun _ w' h => ⟨h.1, hw.2.eased h.2⟩)
    (fun w' h => ⟨h.1, hw.2.eased h.2⟩) w rfl
  rw [show w'.store = w.store from hw']
  exact .refl _

theorem stays_leaves {m : M α} (h : Leaves World.store m) : Stays m :=
  fun l₀ => h.triple (P := fun s => Balanced s ∧ Bounded l₀ s.ledger)

/-- It is enough to follow the program from one store. -/
theorem stays_of {m : M α} (h : ∀ l₀ s, Balanced s → Bounded l₀ s.ledger →
    Triple (Is s) m (fun _ => Sound l₀) (Sound l₀)) : Stays m :=
  fun l₀ w hw => h l₀ w.store hw.1 hw.2 w rfl

theorem sound_of_is {l₀ : Ledger} (hb : Balanced s) (hl : Bounded l₀ s.ledger) (w : World)
    (hw : Is s w) : Sound l₀ w := by
  rw [Sound, show w.store = s from hw]
  exact ⟨hb, hl⟩

/-! ## The charges -/

theorem add_ledger (r : SessionSpillRecord) (s : Store) :
    (s.add r).ledger = match r.tier with
      | .ram => s.ledger.charge .trackRam ⟨r.byteSize, 0, 0⟩
      | .disk => s.ledger.charge .trackDisk ⟨0, r.byteSize, 0⟩ := by
  simp only [Store.add]
  cases r.tier <;> rfl

theorem Bounded.add {l₀ l : Ledger} (h : Bounded l₀ l) (he : Eased l s.ledger)
    {r : SessionSpillRecord} (hroom : RoomFor r.tier r.byteSize s.ledger) :
    Bounded l₀ (s.add r).ledger := by
  rw [add_ledger]
  have hle := he.balance
  cases ht : r.tier with
  | ram =>
    refine h.charge he _ _ fun _ hw => ?_
    have hram := hroom.ram ht
    have hlimit := hroom.limit
    rw [he.config] at hram hlimit
    obtain ⟨h₁, h₂, h₃⟩ := hw
    obtain ⟨k₁, k₂, k₃⟩ := hle
    exact ⟨by simp only [Balance.add]; omega, by simp only [Balance.add]; omega,
      by simp only [Balance.add]; omega⟩
  | disk =>
    refine h.charge he _ _ fun _ hw => ?_
    have hdisk := hroom.disk ht
    have hlimit := hroom.limit
    rw [he.config] at hdisk hlimit
    obtain ⟨h₁, h₂, h₃⟩ := hw
    obtain ⟨k₁, k₂, k₃⟩ := hle
    exact ⟨by simp only [Balance.add]; omega, by simp only [Balance.add]; omega,
      by simp only [Balance.add]; omega⟩

/-- Tracking a record there is room for. -/
theorem bounded_track {l₀ : Ledger} {r : SessionSpillRecord} (hl : Bounded l₀ s.ledger)
    (hroom : RoomFor r.tier r.byteSize s.ledger) :
    Triple (Is s) (track env r) (fun _ w => Bounded l₀ w.store.ledger)
      fun w => Bounded l₀ w.store.ledger := by
  refine reading_store ?_
  have hdis : Triple (Is s) (discardOption env (s.bySession r.sessionId))
      (fun _ w => Eased s.ledger w.store.ledger) fun w => Bounded l₀ w.store.ledger :=
    (eases_discardOption _ s.ledger).mono (fun w hw => by rw [show w.store = s from hw]; exact .refl _)
      (fun _ _ h => h) fun w h => hl.eased h
  refine hdis.bind fun _ w hw => ?_
  have hadd : Triple (Is w.store) (do
      let s ← getStore
      modifyStore (·.add r)
      return s.nextRecord)
      (fun _ w => Bounded l₀ w.store.ledger) (fun w => Bounded l₀ w.store.ledger) := by
    refine reading_store (updating (.pure fun w' hw' => ?_))
    rw [show w'.store = _ from hw']
    exact hl.add hw (hroom.eased hw)
  exact hadd w rfl

/-- A demotion moves its bytes from one counter to the other. -/
theorem Bounded.movedToDisk {l₀ : Ledger} (h : Bounded l₀ s.ledger) {n : Nat}
    (hn : (s.record i).byteSize = n) (hram : n ≤ s.ramBytes)
    (hroom : s.diskBytes + n ≤ s.config.diskBudgetBytes) (target : DirName) (files : List Path) :
    Bounded l₀ (s.movedToDisk i target files).ledger := by
  subst hn
  let f : SessionSpillRecord → SessionSpillRecord := fun r =>
    { r with
      chunks := List.zipWith (fun c path => { c with value := none, file := some path })
        r.chunks files
      tier := .disk
      directory := some target
      tokenFile := some ⟨target, .tokens none⟩ }
  refine h.charge (eased_creditRam (s.record i).byteSize (s.setRecord i f)) _ _ fun _ hw => ?_
  obtain ⟨h₁, h₂, h₃⟩ := hw
  change (s.ramBytes - (s.record i).byteSize + 0) + (s.prefetchReservedBytes + 0) ≤ _ ∧
    s.diskBytes + (s.record i).byteSize ≤ _ ∧
    (s.ramBytes - (s.record i).byteSize + 0) + (s.diskBytes + (s.record i).byteSize) ≤ _
  change s.ramBytes + s.prefetchReservedBytes ≤ _ at h₁
  change s.ramBytes + s.diskBytes ≤ _ at h₃
  exact ⟨by omega, hroom, by omega⟩

theorem Books.byteSize_le (h : Balanced s) (hi : i ∈ s.records) (ht : (s.record i).tier = .ram) :
    (s.record i).byteSize ≤ s.ramBytes := by
  have hram := h.ram
  have hshare : ramShare (s.record i) = (s.record i).byteSize := by rw [ramShare, ht]
  have := holdings_erase hi fun j => ramShare (s.record j)
  omega

/-! ## Programs that charge -/

/-- The ledger is bounded since `l₀`. -/
def Holds (l₀ : Ledger) (w : World) : Prop := Bounded l₀ w.store.ledger

theorem holds_of_is {l₀ : Ledger} (hl : Bounded l₀ s.ledger) (w : World) (hw : Is s w) :
    Holds l₀ w := by
  rw [Holds, show w.store = s from hw]
  exact hl

theorem Kept.stays_of {m : M α} (hk : Kept m) (hb : ∀ l₀ s, Balanced s → Bounded l₀ s.ledger →
    Triple (Is s) m (fun _ => Holds l₀) (Holds l₀)) : Stays m := by
  refine Spill.stays_of fun l₀ s h hl => ?_
  exact (Triple.and (hk.is h) (hb l₀ s h hl)).pre fun _ h => ⟨h, h⟩

theorem adoptCopy_bounded {l₀ : Ledger} (hl : Bounded l₀ s.ledger) (b : WriteBehind)
    (files : Option (List Path)) :
    Triple (Is s) (adoptCopy env b files) (fun _ => Holds l₀) (Holds l₀) := by
  have hquit := holds_of_is hl
  refine reading_store (.ite (fun _ => ?_) fun _ => ?_)
  · refine (Triple.mono (leaves_is (s := s) (.tryCatch ((installStaging_store _ _ _).bind fun _ =>
      .pure _) fun _ => (rmtree_store _).bind fun _ => (rmtree_store _).bind fun _ => .pure _))
      (fun _ h => h) (fun _ _ h => h) hquit).bind fun installed => .ite (fun _ => ?_)
        fun _ => .pure hquit
    refine updating (.pure (holds_of_is ?_))
    exact hl.charge (.refl _) .collectWriteBehind _ fun h => absurd h Bool.false_ne_true
  · exact ((leaves_is (rmtree_store _)).mono (fun _ h => h) (fun _ _ h => h) hquit).bind
      fun _ => .pure hquit

theorem collectWriteBehind_bounded {l₀ : Ledger} (hl : Bounded l₀ s.ledger) (wait : Bool) :
    Triple (Is s) (collectWriteBehind env wait) (fun _ => Holds l₀) (Holds l₀) := by
  have hquit := holds_of_is hl
  refine reading_world fun w hw => ?_
  rw [hw]
  cases s.writeBehind with
  | none => exact .pure hquit
  | some b =>
    refine .ite (fun _ => .pure hquit) fun _ => ?_
    have hjoin : Quiet World.store (joinCopier env) :=
      fun _ => .modify fun w hw => (copierUntil_store _ w).trans hw
    refine (quiet_is hjoin).bind fun _ => updating (reading_world fun w _ => ?_)
    exact adoptCopy_bounded (s := { s with writeBehind := none }) hl b _

theorem stays_collectWriteBehind (wait : Bool) : Stays (collectWriteBehind env wait) :=
  (kept_collectWriteBehind wait).stays_of fun _ _ _ hl => collectWriteBehind_bounded hl wait

theorem writeOut_bounded {l₀ : Ledger} (h : Balanced s) (hl : Bounded l₀ s.ledger)
    (hi : i ∈ s.records) (ht : (s.record i).tier = .ram) :
    Triple (Is s) (writeOut env i) (fun _ => Holds l₀) (Holds l₀) := by
  have hquit := holds_of_is hl
  have hleave : ∀ {α : Type} {m : M α}, Leaves World.store m →
      Triple (Is s) m (fun _ => Is s) (Holds l₀) := fun hm =>
    (leaves_is hm).mono (fun _ h => h) (fun _ _ h => h) hquit
  refine reading_record (Triple.bind ((diskHasRoom_spec _).mono (fun _ h => h) (fun _ _ h => h) hquit)
    fun room => .given fun hroom => .ite (fun hr => ?_) fun _ => .pure hquit)
  refine (hleave (prepareDir_store _)).bind fun target =>
    (hleave (saveRecord_store _ _)).bind fun files => ?_
  cases files with
  | none => exact .pure hquit
  | some files =>
    have hmoved := hl.movedToDisk (i := i) rfl (h.byteSize_le hi ht) (hroom hr) target files
    refine updating (reading_record ?_)
    exact (quiet_is (ignoring_quiet (writeManifest_store _))).bind fun _ =>
      .pure (holds_of_is hmoved)

theorem demoteToDisk_bounded {l₀ : Ledger} (h : Balanced s) (hl : Bounded l₀ s.ledger)
    (i : RecordId) :
    Triple (Is s) (demoteToDisk env i) (fun _ => Holds l₀) (Holds l₀) := by
  refine reading_store (.ite (fun _ => updating (.pure (holds_of_is (hl.eased (eased_dropCache i s)))))
    fun _ => .ite (fun _ => .pure (holds_of_is hl)) fun hram => ?_)
  simp only [Bool.or_eq_true, Bool.not_eq_true', not_or, Bool.not_eq_false, decide_eq_true_eq,
    ne_eq, not_not] at hram
  refine Triple.bind (Q := fun _ w => (Balanced w.store ∧ SameTier s w.store) ∧ Holds l₀ w) ?_
    fun _ w hw => ?_
  · refine .onlyIf (fun _ => ?_) fun _ w hw => ?_
    · refine Triple.bind (Q := fun _ w => (Balanced w.store ∧ SameTier s w.store) ∧ Holds l₀ w) ?_
        fun _ => .pure fun _ hw => hw
      exact (Triple.and (collectWriteBehind_spec h true) (collectWriteBehind_bounded hl true)).mono
        (fun _ h => ⟨h, h⟩) (fun _ _ h => h) fun _ h => h.2
    · rw [show w.store = s from hw]
      exact ⟨⟨h, .refl s⟩, holds_of_is hl w hw⟩
  · obtain ⟨⟨hb, hsame⟩, hl'⟩ := hw
    have hv : (w.store.record i).valid = true := by rw [hsame.valid, hram.1]
    have ht : (w.store.record i).tier = .ram := by rw [hsame.tier, hram.2]
    have hrest : Triple (Is w.store) (do
        if ← dropToBacking env i then return true
        else writeOut env i)
        (fun _ => Holds l₀) (Holds l₀) := by
      have hdrop := Triple.and (@dropToBacking_spec env _ _ hb (hb.mem hv) ht)
        (@eases_dropToBacking env i w.store.ledger)
      refine (hdrop.mono (S := Is w.store) (fun w' hw' => ⟨hw', ?_⟩) (fun _ _ h => h)
        fun w' hw' => hl'.eased hw'.2).bind fun b => .ite (fun _ => .pure fun w' hw' => ?_)
          fun hb w' hw' => ?_
      · rw [show w'.store = w.store from hw']
        exact .refl _
      · exact hl'.eased hw'.2
      · obtain ⟨⟨hb', -, hfalse⟩, he⟩ := hw'
        obtain ⟨hv', ht', -⟩ := hfalse (Bool.eq_false_iff.mpr hb)
        exact writeOut_bounded hb' (hl'.eased he) (hb'.mem hv') ht' w' rfl
    exact hrest w rfl

theorem stays_demoteToDisk (i : RecordId) : Stays (demoteToDisk env i) :=
  (kept_demoteToDisk i).stays_of fun _ _ h hl => demoteToDisk_bounded h hl i

theorem stays_discard (i : RecordId) : Stays (discard env i) :=
  (kept_discard i).stays (eases_discard i)

theorem stays_enforceEach : ∀ l : List RecordId, Stays (enforceEach env l)
  | [] => .pure ()
  | i :: is => (stays_leaves belowReserve_store).bind fun _ => .ite
    ((stays_demoteToDisk i).bind fun _ => (Stays.onlyIf (stays_discard i)).bind
      fun _ => stays_enforceEach is)
    (.pure ())

theorem stays_enforceHostReserve : Stays (enforceHostReserve env) :=
  (stays_leaves getStore_store).bind fun _ => stays_enforceEach _

theorem installPrefetch_bounded {l₀ : Ledger} (hl : Bounded l₀ s.ledger) (p : Prefetch)
    (values : Option (List Tensor)) :
    Triple (Is s) (installPrefetch env p values) (fun _ => Holds l₀) (Holds l₀) := by
  have hback := hl.eased (eased_creditReserved p.reservedBytes s)
  refine (quiet_is belowReserve_quiet).bind fun low => reading_store ?_
  cases values with
  | none => exact updating (.pure (holds_of_is hback))
  | some values =>
    refine .ite (fun _ => updating (.pure (holds_of_is ?_)))
      fun _ => updating (.pure (holds_of_is hback))
    exact hl.charge (eased_creditReserved p.reservedBytes s) .collectPrefetch _ fun h =>
      absurd h Bool.false_ne_true

theorem stays_collectPrefetch (sid : Option String) (wait : Bool) :
    Stays (collectPrefetch env sid wait) := by
  refine (kept_collectPrefetch sid wait).stays_of fun l₀ s _ hl => reading_world fun w hw => ?_
  have htake : Triple (Is s) (takePromoted sid) (fun _ => Holds l₀) (Holds l₀) :=
    (eases_takePromoted sid s.ledger).mono
      (fun w hw => by rw [show w.store = s from hw]; exact .refl _)
      (fun _ _ h => hl.eased h) fun _ h => hl.eased h
  rw [hw]
  cases s.prefetch with
  | none => exact htake
  | some p =>
    refine .ite (fun _ => htake) fun _ => .ite (fun _ => .pure (holds_of_is hl)) fun _ => ?_
    refine (quiet_is joinReader_quiet).bind fun _ => reading_world fun w _ => updating ?_
    exact installPrefetch_bounded (s := { s with prefetch := none }) hl p _

/-- The RAM budget has room for `n` more bytes. -/
def HasRam (n : Nat) (w : World) : Prop :=
  w.store.ramBytes + w.store.prefetchReservedBytes + n ≤ w.store.config.ramBudgetBytes

theorem ramHasRoom_sound (l₀ : Ledger) (n : Nat) :
    Triple (Sound l₀) (ramHasRoom env n) (fun b w => Sound l₀ w ∧ (b = true → HasRam n w))
      (Sound l₀) := by
  intro w hw
  have hspec : Triple (Is w.store) (ramHasRoom env n)
      (fun b w => Sound l₀ w ∧ (b = true → HasRam n w)) (Sound l₀) := by
    refine (ramHasRoom_spec n).mono (fun _ h => h) (fun b w' hw' => ?_) (sound_of_is hw.1 hw.2)
    refine ⟨sound_of_is hw.1 hw.2 w' hw'.1, fun hb => ?_⟩
    rw [HasRam, show w'.store = w.store from hw'.1]
    exact hw'.2 hb
  exact hspec w rfl

/-- Demoting makes room, or says that it has not. -/
theorem demoteUntil_sound (l₀ : Ledger) (n : Nat) : ∀ l : List RecordId,
    Triple (Sound l₀) (demoteUntil env n l) (fun b w => Sound l₀ w ∧ (b = true → HasRam n w))
      (Sound l₀)
  | [] => ramHasRoom_sound l₀ n
  | i :: is => by
    refine Triple.bind (stays_demoteToDisk i l₀) fun demoted => Triple.bind
      (Q := fun b w => Sound l₀ w ∧ (b = true → HasRam n w)) (.ite
        (fun _ => ramHasRoom_sound l₀ n)
        fun _ => .pure fun w hw => ⟨hw, fun h => absurd h Bool.false_ne_true⟩) fun b => .ite
      (fun hb => .pure fun w hw => ⟨hw.1, fun _ => hw.2 hb⟩) fun _ => ?_
    exact (demoteUntil_sound l₀ n is).pre fun _ hw => hw.1

theorem makeRamRoom_sound (l₀ : Ledger) (n : Nat) (protect : List String) :
    Triple (Sound l₀) (makeRamRoom env n protect)
      (fun b w => Sound l₀ w ∧ (b = true → HasRam n w)) (Sound l₀) := by
  refine (ramHasRoom_sound l₀ n).bind fun b => .ite
    (fun hb => .pure fun w hw => ⟨hw.1, fun _ => hw.2 hb⟩) fun _ => ?_
  exact Triple.pre (Triple.bind (stays_leaves getStore_store l₀) fun _ => demoteUntil_sound l₀ n _)
    fun _ hw => hw.1

theorem beginPrefetch_bounded {l₀ : Ledger} {w : World} (hl : Holds l₀ w) (sid : String)
    (i : RecordId) (wanted : List Nat) {reserve : Nat} (hroom : HasRam reserve w) :
    Triple (Is w.store) (beginPrefetch env sid i wanted reserve) (fun _ => Holds l₀) (Holds l₀) := by
  have hcharged : Bounded l₀ (w.store.charge .startPrefetch ⟨0, 0, reserve⟩).ledger := by
    refine hl.charge (.refl _) _ _ fun _ hw => ?_
    obtain ⟨h₁, h₂, h₃⟩ := hw
    refine ⟨?_, h₂, h₃⟩
    change w.store.ramBytes + 0 + (w.store.prefetchReservedBytes + reserve) ≤ _
    rw [HasRam, Nat.add_assoc] at hroom
    exact hroom
  refine reading_record (updating (updating ((quiet_is (observe_quiet _)).bind fun failed =>
    .ite (fun _ => updating (updating (.pure (holds_of_is ?_)))) fun _ => ?_)))
  · exact hcharged.eased (eased_creditReserved reserve _)
  · refine .bind (Q := fun _ => Holds l₀) (.modify fun w' hw' => ?_) fun _ => .pure fun _ h => h
    have hstore : w'.store = _ := hw'
    change Bounded l₀ w'.store.ledger
    rw [hstore]
    exact hcharged

theorem stays_startPrefetch (sid : String) (protect : List String) (tokenIds : Option (List Int)) :
    Stays (startPrefetch env sid protect tokenIds) := by
  have hflag : ∀ reaped : Option String,
      Stays (modifyStore fun s => { s with promoted := reaped }) := fun reaped l₀ =>
    .modify fun w hw => ⟨hw.1.flags, hw.2⟩
  refine fun l₀ => (Triple.and (kept_startPrefetch sid protect tokenIds) (F := Holds l₀) (S := Sound l₀)
    (T := fun _ => Holds l₀) ?_).pre fun w hw => ⟨hw.1, hw⟩
  refine (stays_collectPrefetch none false l₀).mono (fun _ h => h) (fun _ _ h => h) (fun _ h => h.2)
    |>.bind fun reaped => Triple.bind (Q := fun _ => Sound l₀) ?_ fun _ => ?_
  · exact (Stays.onlyIf (hflag reaped) l₀).mono (fun _ h => h) (fun _ _ h => h) fun _ h => h.2
  · refine Triple.bind (Q := fun _ => Sound l₀) (stays_leaves getStore_store l₀ |>.mono (fun _ h => h)
      (fun _ _ h => h) fun _ h => h.2) fun s => .ite (fun _ => .pure fun _ h => h.2) fun _ => ?_
    cases prefetchable s sid with
    | none => exact .pure fun _ h => h.2
    | some i =>
      have hplan : Stays (prefetchPlan env i tokenIds) := by
        refine (stays_leaves Leaves.get).bind fun w => ?_
        dsimp only
        split
        · exact .pure _
        · refine Stays.bind (fun l => .modify fun w hw => ⟨?_, hw.2⟩) fun _ => .pure _
          exact hw.1.touchRecord (i := i) (f := fun r => { r with prefetchPlan := some _ })
            rfl rfl rfl rfl rfl rfl rfl
      refine Triple.bind ((hplan l₀).mono (fun _ h => h) (fun _ _ h => h) fun _ h => h.2)
        fun plan => ?_
      split
      · exact .pure fun _ h => h.2
      · exact .pure fun _ h => h.2
      · refine Triple.bind ((makeRamRoom_sound l₀ _ _).mono (fun _ h => h) (fun _ _ h => h)
          fun _ h => h.2) fun b => .ite (fun hb w hw => ?_) fun _ => .pure fun _ h => h.1.2
        exact beginPrefetch_bounded hw.1.2 sid i _ (hw.2 hb) w rfl

theorem stays_startWriteBehind (protect : List String) : Stays (startWriteBehind env protect) := by
  have hflag : ∀ b : Option WriteBehind,
      Stays (modifyStore fun s => { s with writeBehind := b }) := fun b l₀ =>
    .modify fun w hw => ⟨hw.1.flags, hw.2⟩
  refine (stays_collectWriteBehind false).bind fun _ => (stays_leaves getStore_store).bind fun s =>
    .ite (.pure _) ?_
  cases copyVictim s protect with
  | none => exact .pure _
  | some i =>
    refine (stays_leaves (ramHasRoom_store _)).bind fun _ => .ite (.pure _)
      ((stays_leaves (diskHasRoom_store _)).bind fun _ => .ite (.pure _) (.ite (.pure _) ?_))
    split
    · exact .pure _
    · refine (stays_leaves (getRecord_store i)).bind fun r => (stays_leaves freshUuid_store).bind
        fun uuid => (hflag _).bind fun _ => (stays_leaves (observe_store _)).bind fun failed =>
          .ite ((hflag none).bind fun _ => .pure _) (Stays.bind (fun l => ?_) fun _ => .pure _)
      exact .modify fun _ hw => hw

/-! ## Spilling and the barrier -/

theorem queueWrite_bounded {l₀ : Ledger} (hl : Bounded l₀ s.ledger) (i : RecordId)
    (jobs : List (Path × Tensor)) :
    Triple (Is s) (queueWrite i jobs) (fun _ => Holds l₀) (Holds l₀) := by
  refine reading_store (updating (.modify fun w hw => ?_))
  have hstore : w.store = _ := hw
  change Bounded l₀ w.store.ledger
  rw [hstore]
  exact hl.charge (.refl _) .queueWrite _ fun h => absurd h Bool.false_ne_true

/-- The tail of a spill that copied a record there is room for. -/
theorem spillTo_sound (l₀ : Ledger) (pools : Pools) (req : SpillRequest)
    (states : List (Nat × StateSource)) (boundaries : List Nat) (byteSize : Nat) (tier : Tier)
    (base : Option IncrementalBase) (hb : Balanced s) (hl : Bounded l₀ s.ledger)
    (hroom : RoomFor tier byteSize s.ledger) :
    Triple (Is s) (spillTo env pools req states boundaries byteSize tier base)
      (fun _ => Sound l₀) (Sound l₀) := by
  have hquit := sound_of_is hb hl
  have hleave : ∀ {α : Type} {m : M α}, Leaves World.store m →
      Triple (Is s) m (fun _ => Is s) (Sound l₀) := fun hm =>
    (leaves_is hm).mono (fun _ h => h) (fun _ _ h => h) hquit
  refine (hleave (observe_store _)).bind fun now => (hleave (generation_store _)).bind
    fun uuid => (hleave (writesBehind_store _ _)).bind fun background => ?_
  refine Triple.bind (Q := fun copied w => Is s w ∧ ∀ c ∈ copied, Plain c.1 ∧ c.1.tier = tier ∧
    c.1.byteSize = byteSize) ?_ fun copied => ?_
  · refine .tryCatch ((copyOut_spec pools req _).bind fun done => .pure fun w hw => ⟨hw.1, ?_⟩)
      fun _ => ?_
    · rintro c hc
      obtain ⟨chunks, hr⟩ := hw.2
      rw [← Option.some.inj hc, hr]
      exact ⟨newRecord_plain, rfl, rfl⟩
    · refine (quiet_is (Quiet.onlyIf (rmtree_quiet _))).bind fun _ => .pure fun w hw =>
        ⟨hw, fun c hc => ?_⟩
      cases hc
  · cases copied with
    | none => exact .pure fun w hw => hquit w hw.1
    | some copied =>
      obtain ⟨r, jobs⟩ := copied
      intro w hw
      obtain ⟨hplain, htier, hbytes⟩ := hw.2 _ rfl
      -- the copies are out: the record is tracked, queued, and demoted if memory is short
      have hrest : Triple (Is s) (do
          let i ← track env r
          onlyIf (background = true) (queueWrite i jobs)
          if ← (if tier = .ram then belowReserve env else pure false) then
            if ← demoteToDisk env i then return some i
            else
              discard env i
              return none
          else return some i)
          (fun _ => Sound l₀) (Sound l₀) := by
        have htrack := (Triple.and (@track_spec env _ hb _ hplain)
          (@bounded_track env _ _ _ hl (htier.symm ▸ hbytes.symm ▸ hroom))).pre
          (S := Is s) fun _ h => ⟨h, h⟩
        refine htrack.bind fun i => Triple.bind (Q := fun _ => Sound l₀)
          (.onlyIf (fun _ w hw => ?_) fun _ w hw => ⟨hw.1.1, hw.2⟩) fun _ => ?_
        · have hpending : (w.store.record i).pending = none := by
            rw [hw.1.2.1]
            exact hplain.pending
          have hboth : Triple (Is w.store) (queueWrite i jobs) (fun _ => Sound l₀) (Sound l₀) :=
            (Triple.and (kept_queueWrite jobs) (queueWrite_bounded hw.2 i jobs)).pre fun w' hw' => by
              refine ⟨?_, hw'⟩
              rw [show w'.store = w.store from hw']
              exact ⟨hw.1.1, hpending, hw.1.2.2⟩
          exact hboth w rfl
        · refine (stays_leaves (.ite belowReserve_store (.pure false))).bind (fun _ => Stays.ite
            ((stays_demoteToDisk i).bind fun _ => .ite (.pure _)
              ((stays_discard i).bind fun _ => .pure _)) (.pure _)) l₀
      exact hrest w hw.1

theorem reserveTier_sound (l₀ : Ledger) (n : Nat) (sid : String) (preferDisk : Bool) :
    Triple (Sound l₀) (reserveTier env n sid preferDisk)
      (fun tier w => Sound l₀ w ∧ ∀ t, tier = some t → RoomFor t n w.store.ledger) (Sound l₀) := by
  intro w hw
  have hboth : Triple (Is w.store) (reserveTier env n sid preferDisk)
      (fun tier w => Sound l₀ w ∧ ∀ t, tier = some t → RoomFor t n w.store.ledger) (Sound l₀) := by
    refine (Triple.and (kept_reserveTier _ _ _) (reserveTier_spec w.store.ledger _ _ _)).mono
      (fun w' hw' => ?_) (fun tier w' hw' => ⟨⟨hw'.1, hw.2.eased hw'.2.1⟩, hw'.2.2⟩)
      fun w' hw' => ⟨hw'.1, hw.2.eased hw'.2⟩
    rw [show w'.store = w.store from hw']
    exact ⟨hw.1, .refl _⟩
  exact hboth w rfl

theorem giveUpPrevious_sound (l₀ : Ledger) (h : Balanced s) (hl : Bounded l₀ s.ledger)
    {pools : Pools} {k : Disk} {tokens : List Int} {n : Nat} (previous : Option RecordId) :
    Triple (Is s) (giveUpPrevious env previous
        (incrementalBase pools k (previous.map s.record) tokens n))
      (fun _ => Sound l₀) (Sound l₀) := by
  refine (Triple.and (kept_giveUpPrevious h previous) (eases_giveUpPrevious previous _ s.ledger)).mono
    (fun w hw => ⟨hw, ?_⟩) (fun _ w hw => ⟨hw.1, hl.eased hw.2⟩) fun w hw => ⟨hw.1, hl.eased hw.2⟩
  rw [show w.store = s from hw]
  exact .refl _

theorem stays_spill (pools : Pools) (req : SpillRequest) : Stays (spill env pools req) := by
  refine ((kept_collectWrites false).stays (eases_collectWrites false)).bind fun _ =>
    ((kept_settledPrevious _).stays (eases_settledPrevious _)).bind fun previous =>
      stays_of fun l₀ s h hl => reading_world fun w hw => ?_
  rw [hw]
  refine (giveUpPrevious_sound l₀ h hl previous).bind fun _ =>
    (reserveTier_sound l₀ _ _ _).bind fun tier w hw => ?_
  refine Triple.bind (leaves_is (s := w.store) (keepBase_store _ _ _) |>.mono (fun _ h => h) (fun _ _ h => h)
      (sound_of_is hw.1.1 hw.1.2)) (fun base => ?_) w rfl
  cases tier with
  | none => exact .pure (sound_of_is hw.1.1 hw.1.2)
  | some tier => exact spillTo_sound l₀ _ _ _ _ _ _ _ hw.1.1 hw.1.2 (hw.2 tier rfl)

theorem Published.holds {l₀ : Ledger} (hl : Bounded l₀ s.ledger) {sid : String}
    {previous : Option RecordId} {w : World} (hw : Published s sid previous w) : Holds l₀ w := by
  rcases hw with hw | ⟨r, -, -, -, hw⟩
  · exact holds_of_is hl w hw
  · refine holds_of_is ?_ w hw
    cases previous with
    | none => exact hl.charge (.refl _) .durable _ fun h => absurd h Bool.false_ne_true
    | some i =>
      exact hl.charge (release_ledger i s) .durable _ fun h => absurd h Bool.false_ne_true

theorem persistEach_bounded (l₀ : Ledger) (pools : Pools) (plan : BarrierPlan) :
    ∀ sids durable : List String, Triple (Holds l₀) (persistEach env pools plan sids durable)
      (fun _ => Holds l₀) (Holds l₀)
  | [], _ => .pure fun _ h => h
  | sid :: sids, durable => by
    refine Triple.bind (Q := fun _ => Holds l₀) (fun w hw => ?_) fun _ => .ite
      (fun _ => persistEach_bounded l₀ pools plan sids _) fun _ => .pure fun _ h => h
    have hone : Triple (Is w.store) (succeeds (persistOne env pools plan sid))
        (fun _ => Holds l₀) (Holds l₀) :=
      .tryCatch (((persistOne_spec pools plan sid).mono (fun _ h => h) (fun _ _ h => h.holds hw)
        fun _ h => h.holds hw).bind fun _ => .pure fun _ h => h) fun _ => .pure fun _ h => h
    exact hone w rfl

theorem stays_persistDurable (pools : Pools) (sources : List SpillRequest) :
    Stays (persistDurable env pools sources) := by
  refine (kept_persistDurable pools sources).stays_of fun l₀ s _ hl => ?_
  have hleave : ∀ {α : Type} {m : M α}, Leaves World.store m →
      Triple (Holds l₀) m (fun _ => Holds l₀) (Holds l₀) := fun h =>
    h.triple (f := World.store) (P := fun s => Bounded l₀ s.ledger)
  have hcollect : Triple (Holds l₀) (collectWrites env true) (fun _ => Holds l₀) (Holds l₀) :=
    fun w hw => by
      have h : Triple (Is w.store) (collectWrites env true) (fun _ => Holds l₀) (Holds l₀) :=
        (eases_collectWrites true w.store.ledger).mono
          (fun w' hw' => by rw [show w'.store = w.store from hw']; exact .refl _)
          (fun _ _ h => Bounded.eased hw h) fun _ h => Bounded.eased hw h
      exact h w rfl
  refine Triple.pre ((hleave getStore_store).bind fun s₀ => .ite (fun _ => .pure fun _ h => h)
    fun _ => hcollect.bind fun _ => .ite (fun _ => .pure fun _ h => h) fun _ =>
      (hleave Leaves.get).bind fun w => ?_) (holds_of_is hl)
  refine .ite (fun _ => .pure fun _ h => h) fun _ => .ite (fun _ => .pure fun _ h => h) fun _ =>
    (hleave (observe_store _)).bind fun free => ?_
  cases free with
  | none => exact .pure fun _ h => h
  | some free =>
    exact .ite (fun _ => .pure fun _ h => h) fun _ => persistEach_bounded l₀ pools _ _ []

/-! ## Runs -/

theorem stays_perform (op : Op) : Stays (perform env op) := by
  cases op with
  | spill pools req => exact (stays_spill pools req).bind fun _ => .pure ()
  | collectWrites wait => exact (kept_collectWrites wait).stays (eases_collectWrites wait)
  | touch i => exact (kept_touch i).stays (eases_touch i)
  | rekey i sid => exact ((kept_rekey i sid).stays (eases_rekey i sid)).bind fun _ => .pure ()
  | retire i => exact (kept_retire i).stays (eases_retire i)
  | discard i => exact (kept_discardOption i).stays (eases_discardOption i)
  | evictOneLru ex =>
    exact ((kept_evictOneLru ex).stays (eases_evictOneLru ex)).bind fun _ => .pure ()
  | demote i => exact (stays_demoteToDisk i).bind fun _ => .pure ()
  | enforceHostReserve => exact stays_enforceHostReserve
  | startPrefetch sid protect ids =>
    exact (stays_startPrefetch sid protect ids).bind fun _ => .pure ()
  | collectPrefetch sid wait => exact (stays_collectPrefetch sid wait).bind fun _ => .pure ()
  | cancelPrefetch sid =>
    exact ((kept_cancelPrefetch sid).stays (eases_cancelPrefetch sid)).bind fun _ => .pure ()
  | startWriteBehind protect => exact (stays_startWriteBehind protect).bind fun _ => .pure ()
  | collectWriteBehind wait => exact (stays_collectWriteBehind wait).bind fun _ => .pure ()
  | persistDurable pools sources =>
    exact (stays_persistDurable pools sources).bind fun _ => .pure ()
  | threads steps =>
    exact fun l₀ => Triple.modify fun w hw => by
      rw [Sound, foldl_threadStep_store]
      exact hw

/-- Adopting a root is done under the configuration the store was made with. -/
theorem boot_config {config : Config} {fingerprint : Nat} {k : Disk} {uuid : Nat} :
    (boot env config fingerprint k uuid).store.config = config := by
  let Configured (w : World) : Prop := w.store.config = config
  have heases : ∀ {α : Type} {m : M α}, Eases m →
      Triple Configured m (fun _ => Configured) Configured := fun hm w hw => by
    have h := (hm w.store.ledger).mono (S := (· = w)) (fun w' hw' => hw'.symm ▸ Eased.refl _)
      (fun _ w' h => (h.config.trans hw : Configured w')) fun w' h => (h.config.trans hw : Configured w')
    exact h w rfl
  have hadd : ∀ r : SessionSpillRecord, Triple Configured (modifyStore (·.add r))
      (fun _ => Configured) Configured := fun r => .modify fun w hw => by
    have hledger : (w.store.add r).ledger.config = w.store.ledger.config := by
      rw [add_ledger]
      cases r.tier <;> rfl
    exact hledger.trans hw
  have hentry : ∀ d, Triple Configured (adoptEntry env fingerprint d) (fun _ => Configured)
      Configured := fun d => by
    refine (heases (eases_leaves getStore_store)).bind fun s₀ =>
      (heases (eases_leaves (observe_store _))).bind fun unreadable =>
        (heases (eases_leaves Leaves.get)).bind fun w => ?_
    dsimp only
    split
    · refine Triple.bind ?_ fun _ => .pure fun _ h => h
      exact (heases (eases_leaves getStore_store)).bind fun _ => (heases (eases_discardOption _)).bind
        fun _ => (heases (eases_leaves getStore_store)).bind fun _ => (hadd _).bind fun _ =>
          .pure fun _ h => h
    · exact heases (eases_leaves (rmtree_store d))
  have heach : ∀ ds, Triple Configured (adoptEach env fingerprint ds) (fun _ => Configured)
      Configured := fun ds => by
    induction ds with
    | nil => exact .pure fun _ h => h
    | cons d ds ih => exact (hentry d).bind fun _ => ih
  have hevict : ∀ n, Eases (evictToLimit env n) := fun n => by
    induction n with
    | zero => exact .pure ()
    | succ n ih =>
      exact (eases_leaves getStore_store).bind fun _ => .ite
        ((eases_evictOneLru none).bind fun _ => .onlyIf ih) (.pure ())
  have hroot : Triple Configured (adoptRoot env fingerprint) (fun _ => Configured) Configured :=
    (heases (eases_leaves Leaves.get)).bind fun _ => (heach _).bind fun _ =>
      (heases (eases_leaves getStore_store)).bind fun _ => heases (hevict _)
  exact hroot.final (I := Configured) rfl

/-- The balances a store has gone through since it was `s₀`, newest first. -/
def momentsSince (s₀ s : Store) : List Balance :=
  s.moments.take (s.moments.length - s₀.moments.length)

def chargesSince (s₀ s : Store) : List Charge :=
  s.charges.take (s.charges.length - s₀.charges.length)

theorem take_since {γ : Type} (l l₀ : List γ) :
    (l ++ l₀).take ((l ++ l₀).length - l₀.length) = l := by
  rw [List.length_append, Nat.add_sub_cancel, List.take_left]

/-- In a run from a store that is inside its budgets once it has adopted its root: every
balance since then is inside them if and only if each charge of a queued write, of
prefetched tensors, of a finished disk copy and of a durable generation found room
when it was made. -/
theorem budgets_hold_iff {env : Env} {config : Config} {fingerprint : Nat} {k : Disk} {uuid : Nat}
    {w : World} (hroot : (boot env config fingerprint k uuid).store.balance.Within config)
    (h : Reachable env config fingerprint k uuid w) :
    (w.store.balance.Within config ∧
        ∀ b ∈ momentsSince (boot env config fingerprint k uuid).store w.store, b.Within config) ↔
      ∀ c ∈ chargesSince (boot env config fingerprint k uuid).store w.store,
        c.site.checked = false → c.Fits config := by
  let s₀ := (boot env config fingerprint k uuid).store
  have hconfig : s₀.config = config := boot_config
  have hsound : Sound s₀.ledger w := by
    refine h.invariant (P := Sound s₀.ledger) ⟨balanced_of_reachable .refl, bounded_refl ?_⟩
      fun w op w' hw _ hstep => ?_
    · rw [show s₀.ledger.config = config from hconfig]
      exact hroot
    · rw [step, Option.some.injEq] at hstep
      rw [← hstep]
      exact (stays_perform op _).final hw
  obtain ⟨-, ms, cs, hs⟩ := hsound
  have hms : momentsSince s₀ w.store = ms := by
    have hmoments : w.store.moments = ms ++ s₀.moments := hs.moments
    rw [momentsSince, hmoments, take_since]
  have hcs : chargesSince s₀ w.store = cs := by
    have hcharges : w.store.charges = cs ++ s₀.charges := hs.charges
    rw [chargesSince, hcharges, take_since]
  have hwithin := hs.within
  rw [show s₀.ledger.config = config from hconfig] at hwithin
  rw [hms, hcs]
  exact ⟨fun hin c hc _ => hin.2 _ (hs.reached c hc), hwithin⟩

/-- A run of budgets that are never exceeded: a record goes to RAM, where it fits. -/
theorem fitting_spill_bounded :
    (calmRun (smallConfig 100 100 200) [.spill smallPools (smallTurn "a" [1, 2, 3] [5, 6, 7])]).store.ramBytes
        = 44 ∧
      ((calmRun (smallConfig 100 100 200)
          [.spill smallPools (smallTurn "a" [1, 2, 3] [5, 6, 7])]).store.balance.Within
            (smallConfig 100 100 200) ∧
        ∀ b ∈ momentsSince (boot .calm (smallConfig 100 100 200) 7 ∅ 0).store
          (calmRun (smallConfig 100 100 200)
            [.spill smallPools (smallTurn "a" [1, 2, 3] [5, 6, 7])]).store,
          b.Within (smallConfig 100 100 200)) :=
  ⟨by decide +kernel, (budgets_hold_iff (by decide +kernel) (calmRun_reachable _ _)).mpr
    (by
      unfold Charge.Fits
      decide +kernel)⟩

/-- A store with no RAM budget spills to disk in the background, and holds the files
that are still to be written in RAM. -/
theorem queued_write_over_budget :
    ¬∀ (env : Env) (config : Config) (fingerprint : Nat) (k : Disk) (uuid : Nat) (w : World),
      (boot env config fingerprint k uuid).store.balance.Within config →
      Reachable env config fingerprint k uuid w →
      ∀ b ∈ momentsSince (boot env config fingerprint k uuid).store w.store, b.Within config := by
  intro h
  have hrun := h .calm (smallConfig 0 100 200) 7 ∅ 0
    (calmRun (smallConfig 0 100 200) [.spill smallPools (smallTurn "a" [1, 2, 3] [5, 6, 7])])
    (by decide +kernel) (calmRun_reachable _ _)
  exact absurd hrun (by decide +kernel)

end FreeToken.Spill
