import FreeToken.Lib.Holdings
import FreeToken.Spill.Frames

/-!
# The books of the store

`Books ram disk reserved s` says that the index of the store is in order and that
each counter is what the records hold plus what is still owed: bytes a counter
carries for no record (positive), or that a record holds and no counter carries yet
(negative). Between two calls nothing is owed.

Every function that moves bytes has one lemma here, about what it does to the owed
amounts. None of them looks at another's definition.
-/

namespace FreeToken.Spill

open FreeToken.Lib

/-- The RAM bytes a record is charged for. -/
def ramShare (r : SessionSpillRecord) : Nat :=
  match r.tier with
  | .ram => r.byteSize
  | .disk => r.cachedBytes

/-- The disk bytes a record is charged for. -/
def diskShare (r : SessionSpillRecord) : Nat :=
  match r.tier with
  | .ram => if r.backing.isSome then r.byteSize else 0
  | .disk => r.byteSize

/-- The bytes a queued write is still charged for. -/
def writeShare (p : PendingWrite) : Nat := if p.charged then p.nbytes else 0

/-- Only a disk record has prefetched tensors, and only a RAM record a disk copy. -/
def Shaped (r : SessionSpillRecord) : Prop :=
  match r.tier with
  | .ram => r.cachedBytes = 0
  | .disk => r.backing = none

/-- The index: each valid record is tracked once, and found under its session id. -/
structure Filed (records : List RecordId) (record : RecordId → SessionSpillRecord)
    (nextRecord : RecordId) (bySession : String → Option RecordId) : Prop where
  nodup : records.Nodup
  tracked : ∀ i, i ∈ records ↔ (record i).valid = true
  unborn : ∀ i, nextRecord ≤ i → (record i).valid = false ∧ (record i).pending = none
  filed : ∀ sid i, bySession sid = some i → i ∈ records ∧ (record i).sessionId = sid
  found : ∀ i ∈ records, (record i).sessionId ≠ "" → bySession (record i).sessionId = some i

/-- The queued writes and the records that owe them name each other. -/
structure Owed (pendingWrites : List WriteId) (record : RecordId → SessionSpillRecord)
    (write : WriteId → PendingWrite) (nextWrite : WriteId) : Prop where
  nodup : pendingWrites.Nodup
  unborn : ∀ w ∈ pendingWrites, w < nextWrite
  charged : ∀ w ∈ pendingWrites, (write w).charged = true
  owner : ∀ w ∈ pendingWrites, (record (write w).record).pending = some w
  owes : ∀ i w, (record i).pending = some w → w ∈ pendingWrites ∧ (write w).record = i

structure Books (ram disk reserved : Int) (s : Store) : Prop where
  filed : Filed s.records s.record s.nextRecord s.bySession
  owed : Owed s.pendingWrites s.record s.write s.nextWrite
  shaped : ∀ i ∈ s.records, Shaped (s.record i)
  ram : (s.ramBytes : Int) = holdings s.records (fun i => ramShare (s.record i)) +
    holdings s.pendingWrites (fun w => writeShare (s.write w)) + ram
  disk : (s.diskBytes : Int) = holdings s.records (fun i => diskShare (s.record i)) + disk
  reserved : (s.prefetchReservedBytes : Int) =
    ((s.prefetch.map (·.reservedBytes)).getD 0 : Nat) + reserved
  clamped : s.clamped = false

/-- Nothing is owed. -/
abbrev Balanced (s : Store) : Prop := Books 0 0 0 s

variable {s : Store} {i j : RecordId} {r : SessionSpillRecord} {a b c : Int}
variable {f : SessionSpillRecord → SessionSpillRecord}

theorem Books.cast {a' b' c' : Int} (h : Books a b c s) (ha : a = a') (hb : b = b') (hc : c = c') :
    Books a' b' c' s := ha ▸ hb ▸ hc ▸ h

theorem Filed.same {records record nextRecord bySession} {record' : RecordId → SessionSpillRecord}
    (h : Filed records record nextRecord bySession)
    (hv : ∀ j, (record' j).valid = (record j).valid)
    (hs : ∀ j, (record' j).sessionId = (record j).sessionId)
    (hp : ∀ j, nextRecord ≤ j → (record' j).pending = (record j).pending) :
    Filed records record' nextRecord bySession where
  nodup := h.nodup
  tracked j := by rw [hv]; exact h.tracked j
  unborn j hj := by rw [hv, hp j hj]; exact h.unborn j hj
  filed sid j hj := by rw [hs]; exact h.filed sid j hj
  found j hj hne := by rw [hs] at hne ⊢; exact h.found j hj hne

theorem Owed.same {ws record write next} {record' : RecordId → SessionSpillRecord}
    (h : Owed ws record write next) (hp : ∀ j, (record' j).pending = (record j).pending) :
    Owed ws record' write next where
  nodup := h.nodup
  unborn := h.unborn
  charged := h.charged
  owner w hw := by rw [hp]; exact h.owner w hw
  owes j w hj := h.owes j w (by rw [← hp]; exact hj)

/-! ## Counters -/

theorem Books.charge (h : Books a b c s) (site : Site) (n : Balance) :
    Books (a + n.ram) (b + n.disk) (c + n.reserved) (s.charge site n) where
  filed := h.filed
  owed := h.owed
  shaped := h.shaped
  ram := by
    have := h.ram
    simp only [Store.charge, Store.noted]
    omega
  disk := by
    have := h.disk
    simp only [Store.charge, Store.noted]
    omega
  reserved := by
    have := h.reserved
    simp only [Store.charge, Store.noted]
    omega
  clamped := h.clamped

theorem Books.chargeRam (h : Books a b c s) (site : Site) (n : Nat) :
    Books (a + n) b c (s.charge site ⟨n, 0, 0⟩) :=
  (h.charge site ⟨n, 0, 0⟩).cast rfl (add_zero b) (add_zero c)

theorem Books.chargeDisk (h : Books a b c s) (site : Site) (n : Nat) :
    Books a (b + n) c (s.charge site ⟨0, n, 0⟩) :=
  (h.charge site ⟨0, n, 0⟩).cast (add_zero a) rfl (add_zero c)

theorem Books.chargeReserved (h : Books a b c s) (site : Site) (n : Nat) :
    Books a b (c + n) (s.charge site ⟨0, 0, n⟩) :=
  (h.charge site ⟨0, 0, n⟩).cast (add_zero a) (add_zero b) rfl

theorem Books.creditRam {n : Nat} (h : Books a b c s) (hn : (n : Int) ≤ a) :
    Books (a - n) b c (s.creditRam n) := by
  have hram := h.ram
  have hle : n ≤ s.ramBytes := by omega
  exact {
    filed := h.filed, owed := h.owed, shaped := h.shaped, disk := h.disk, reserved := h.reserved
    ram := by simp only [Store.creditRam, Store.noted]; omega
    clamped := by simp [Store.creditRam, Store.noted, h.clamped, hle] }

theorem Books.creditDisk {n : Nat} (h : Books a b c s) (hn : (n : Int) ≤ b) :
    Books a (b - n) c (s.creditDisk n) := by
  have hdisk := h.disk
  have hle : n ≤ s.diskBytes := by omega
  exact {
    filed := h.filed, owed := h.owed, shaped := h.shaped, ram := h.ram, reserved := h.reserved
    disk := by simp only [Store.creditDisk, Store.noted]; omega
    clamped := by simp [Store.creditDisk, Store.noted, h.clamped, hle] }

theorem Books.creditReserved {n : Nat} (h : Books a b c s) (hn : (n : Int) ≤ c) :
    Books a b (c - n) (s.creditReserved n) := by
  have hres := h.reserved
  have hle : n ≤ s.prefetchReservedBytes := by omega
  exact {
    filed := h.filed, owed := h.owed, shaped := h.shaped, ram := h.ram, disk := h.disk
    reserved := by simp only [Store.creditReserved, Store.noted]; omega
    clamped := by simp [Store.creditReserved, Store.noted, h.clamped, hle] }

/-! ## Records -/

@[simp] theorem setRecord_same : (s.setRecord i f).record i = f (s.record i) := by
  simp [Store.setRecord]

theorem setRecord_of_ne (h : j ≠ i) : (s.setRecord i f).record j = s.record j := by
  simp [Store.setRecord, h]

theorem setRecord_eq {β : Type} {p : SessionSpillRecord → β} (h : p (f (s.record i)) = p (s.record i))
    (j : RecordId) : p ((s.setRecord i f).record j) = p (s.record j) := by
  by_cases hj : j = i
  · subst hj
    rw [setRecord_same, h]
  · rw [setRecord_of_ne hj]

/-- A record that keeps its name, its validity and what it owes may change what it
holds; the difference is owed. -/
theorem Books.setRecord (h : Books a b c s) (hi : i ∈ s.records)
    (hv : (f (s.record i)).valid = (s.record i).valid)
    (hs : (f (s.record i)).sessionId = (s.record i).sessionId)
    (hp : (f (s.record i)).pending = (s.record i).pending) (hshape : Shaped (f (s.record i))) :
    Books (a + ramShare (s.record i) - ramShare (f (s.record i)))
      (b + diskShare (s.record i) - diskShare (f (s.record i))) c (s.setRecord i f) := by
  have hchange : ∀ share : SessionSpillRecord → Nat,
      holdings s.records (fun j => share ((s.setRecord i f).record j)) + share (s.record i) =
        holdings s.records (fun j => share (s.record j)) + share (f (s.record i)) := by
    intro share
    have h := holdings_change (f := fun j => share (s.record j))
      (g := fun j => share ((s.setRecord i f).record j)) h.filed.nodup hi
      fun j _ hj => by rw [setRecord_of_ne hj]
    rwa [setRecord_same] at h
  exact {
    filed := h.filed.same (setRecord_eq hv) (setRecord_eq hs) fun j _ => setRecord_eq hp j
    owed := h.owed.same (setRecord_eq hp)
    shaped := by
      intro j hj
      by_cases hji : j = i
      · subst hji
        rwa [setRecord_same]
      · rw [setRecord_of_ne hji]
        exact h.shaped j hj
    ram := by
      have hram := h.ram
      have := hchange ramShare
      change (s.ramBytes : Int) = holdings s.records (fun j => ramShare ((s.setRecord i f).record j)) +
        holdings s.pendingWrites (fun w => writeShare (s.write w)) + _
      omega
    disk := by
      have hdisk := h.disk
      have := hchange diskShare
      change (s.diskBytes : Int) = holdings s.records (fun j => diskShare ((s.setRecord i f).record j)) + _
      omega
    reserved := h.reserved
    clamped := h.clamped }

/-- The same of a record that is not tracked. -/
theorem Books.setRecord_untracked (h : Books a b c s) (hi : i ∉ s.records)
    (hv : (f (s.record i)).valid = (s.record i).valid)
    (hs : (f (s.record i)).sessionId = (s.record i).sessionId)
    (hp : (f (s.record i)).pending = (s.record i).pending) :
    Books a b c (s.setRecord i f) := by
  have hother : ∀ j ∈ s.records, (s.setRecord i f).record j = s.record j :=
    fun j hj => setRecord_of_ne (ne_of_mem_of_not_mem hj hi)
  have hheld : ∀ share : SessionSpillRecord → Nat,
      holdings s.records (fun j => share ((s.setRecord i f).record j)) =
        holdings s.records fun j => share (s.record j) :=
    fun share => holdings_congr fun j hj => congrArg share (hother j hj)
  exact {
    filed := h.filed.same (setRecord_eq hv) (setRecord_eq hs) fun j _ => setRecord_eq hp j
    owed := h.owed.same (setRecord_eq hp)
    shaped := fun j hj => (hother j hj).symm ▸ h.shaped j hj
    ram := by
      have hram := h.ram
      rw [← hheld ramShare] at hram
      exact hram
    disk := by
      have hdisk := h.disk
      rw [← hheld diskShare] at hdisk
      exact hdisk
    reserved := h.reserved
    clamped := h.clamped }

/-- Nothing a record holds, is named by or owes is changed. -/
theorem Books.touchRecord (h : Books a b c s) (hv : (f (s.record i)).valid = (s.record i).valid)
    (hs : (f (s.record i)).sessionId = (s.record i).sessionId)
    (hp : (f (s.record i)).pending = (s.record i).pending)
    (ht : (f (s.record i)).tier = (s.record i).tier)
    (hb : (f (s.record i)).byteSize = (s.record i).byteSize)
    (hc : (f (s.record i)).cachedBytes = (s.record i).cachedBytes)
    (hk : (f (s.record i)).backing.isSome = (s.record i).backing.isSome) :
    Books a b c (s.setRecord i f) := by
  by_cases hi : i ∈ s.records
  · have hshape : Shaped (f (s.record i)) := by
      have hsh := h.shaped i hi
      rw [Shaped] at hsh ⊢
      rw [ht, hc]
      cases htier : (s.record i).tier with
      | ram => rw [htier] at hsh; exact hsh
      | disk =>
        rw [htier] at hsh
        rw [hsh] at hk
        exact Option.not_isSome_iff_eq_none.mp (by rw [hk]; exact Bool.false_ne_true)
    have hram : ramShare (f (s.record i)) = ramShare (s.record i) := by
      rw [ramShare, ramShare, ht, hb, hc]
    have hdisk : diskShare (f (s.record i)) = diskShare (s.record i) := by
      rw [diskShare, diskShare, ht, hb, hk]
    exact (h.setRecord hi hv hs hp hshape).cast (by omega) (by omega) rfl
  · exact h.setRecord_untracked hi hv hs hp

/-! ## Flags of the threads -/

theorem Books.cancelPrefetch (h : Books a b c s) : Books a b c s.cancelPrefetch where
  filed := h.filed
  owed := h.owed
  shaped := h.shaped
  ram := h.ram
  disk := h.disk
  reserved := by
    have := h.reserved
    rw [Store.cancelPrefetch]
    cases hp : s.prefetch with
    | none => rwa [hp] at this
    | some p => rwa [hp] at this
  clamped := h.clamped

theorem Books.cancelPrefetchOf (h : Books a b c s) (i : RecordId) :
    Books a b c (s.cancelPrefetchOf i) := by
  rw [Store.cancelPrefetchOf]
  split
  · exact h.cancelPrefetch
  · exact h

theorem Books.forgetPromoted (h : Books a b c s) (sid : String) :
    Books a b c (s.forgetPromoted sid) := by
  rw [Store.forgetPromoted]
  split
  · exact ⟨h.filed, h.owed, h.shaped, h.ram, h.disk, h.reserved, h.clamped⟩
  · exact h

theorem Books.cancelWriteBehindOf (h : Books a b c s) (i : RecordId) :
    Books a b c (s.cancelWriteBehindOf i) := by
  rw [Store.cancelWriteBehindOf]
  split
  · exact ⟨h.filed, h.owed, h.shaped, h.ram, h.disk, h.reserved, h.clamped⟩
  · exact h

/-! ## Coming and going -/

/-- The index once record `i` is no longer filed under its session id. -/
def unfile (record : RecordId → SessionSpillRecord) (bySession : String → Option RecordId)
    (i : RecordId) : String → Option RecordId :=
  if bySession (record i).sessionId = some i then
    Function.update bySession (record i).sessionId none
  else bySession

theorem Filed.unfile_iff {records record nextRecord bySession}
    (h : Filed records record nextRecord bySession) (i : RecordId) {sid : String} :
    unfile record bySession i sid = some j ↔ bySession sid = some j ∧ j ≠ i := by
  rw [unfile]
  split
  · rename_i hpop
    by_cases hsid : sid = (record i).sessionId
    · rw [hsid, Function.update_self, hpop]
      simp only [reduceCtorEq, Option.some.injEq, false_iff, not_and, not_not]
      exact fun heq => heq.symm
    · rw [Function.update_of_ne hsid]
      have hne : bySession sid = some j → j ≠ i := fun hj hji => by
        rw [hji] at hj
        exact hsid (h.filed sid i hj).2.symm
      exact (and_iff_left_of_imp hne).symm
  · rename_i hkept
    have hne : bySession sid = some j → j ≠ i := fun hj hji => by
      rw [hji] at hj
      refine hkept ?_
      rw [(h.filed sid i hj).2, hj]
    exact (and_iff_left_of_imp hne).symm

theorem untrack_record (i : RecordId) (s : Store) :
    (s.untrack i).record = (s.setRecord i fun r => { r with valid := false }).record := rfl

theorem untrack_record_of_ne (h : j ≠ i) : (s.untrack i).record j = s.record j := by
  rw [untrack_record, setRecord_of_ne h]

theorem untrack_record_same : (s.untrack i).record i = { s.record i with valid := false } := by
  rw [untrack_record, setRecord_same]

/-- What an untracked record held is owed. -/
theorem Books.untrack (h : Books a b c s) (hi : i ∈ s.records) :
    Books (a + ramShare (s.record i)) (b + diskShare (s.record i)) c (s.untrack i) := by
  have hmem : ∀ j, j ∈ (s.untrack i).records ↔ j ∈ s.records ∧ j ≠ i := fun j => by
    simp [Store.untrack]
  have hother : ∀ j ∈ (s.untrack i).records, (s.untrack i).record j = s.record j :=
    fun j hj => untrack_record_of_ne ((hmem j).mp hj).2
  -- what the record held goes over to the debts
  have hheld : ∀ share : SessionSpillRecord → Nat,
      holdings (s.untrack i).records (fun j => share ((s.untrack i).record j)) + share (s.record i) =
        holdings s.records fun j => share (s.record j) := by
    intro share
    rw [holdings_congr fun j hj => congrArg share (hother j hj)]
    exact holdings_filter_ne h.filed.nodup hi _
  have hsid : ∀ j, ((s.untrack i).record j).sessionId = (s.record j).sessionId := fun j => by
    rw [untrack_record]
    exact setRecord_eq rfl j
  have hpending : ∀ j, ((s.untrack i).record j).pending = (s.record j).pending := fun j => by
    rw [untrack_record]
    exact setRecord_eq rfl j
  exact {
    filed := {
      nodup := h.filed.nodup.filter _
      tracked := fun j => by
        rw [hmem]
        by_cases hj : j = i
        · subst hj
          rw [untrack_record_same]
          simp
        · rw [untrack_record_of_ne hj, h.filed.tracked j]
          exact and_iff_left hj
      unborn := fun j hj => by
        rw [hpending]
        by_cases hji : j = i
        · subst hji
          rw [untrack_record_same]
          exact ⟨rfl, (h.filed.unborn j hj).2⟩
        · rw [untrack_record_of_ne hji]
          exact h.filed.unborn j hj
      filed := fun sid j hj => by
        have hold := (h.filed.unfile_iff i).mp hj
        rw [hmem, hsid]
        exact ⟨⟨(h.filed.filed sid j hold.1).1, hold.2⟩, (h.filed.filed sid j hold.1).2⟩
      found := fun j hj hne => by
        rw [hsid] at hne ⊢
        have hj' := (hmem j).mp hj
        have hfound := h.filed.found j hj'.1 hne
        exact (h.filed.unfile_iff i).mpr ⟨hfound, hj'.2⟩ }
    owed := h.owed.same hpending
    shaped := fun j hj => (hother j hj).symm ▸ h.shaped j ((hmem j).mp hj).1
    ram := by
      have hram := h.ram
      have hh := hheld ramShare
      change (s.ramBytes : Int) = _ + holdings s.pendingWrites (fun w => writeShare (s.write w)) + _
      omega
    disk := by
      have hdisk := h.disk
      have hh := hheld diskShare
      change (s.diskBytes : Int) = _
      omega
    reserved := h.reserved
    clamped := h.clamped }

/-- A new record may come under a session id that no tracked record has. -/
def Vacant (s : Store) (sid : String) : Prop :=
  ∀ i ∈ s.records, (s.record i).sessionId = sid → sid = ""

theorem Filed.notMem_next {records record nextRecord bySession}
    (h : Filed records record nextRecord bySession) : nextRecord ∉ records := fun hmem => by
  have := (h.tracked _).mp hmem
  rw [(h.unborn _ le_rfl).1] at this
  exact Bool.false_ne_true this

/-- The index with one more record, filed under its session id or, when that is
empty, perhaps not at all. -/
theorem Filed.insert {records record nextRecord bySession}
    (h : Filed records record nextRecord bySession) (hr : r.valid = true)
    (hvacant : ∀ i ∈ records, (record i).sessionId = r.sessionId → r.sessionId = "")
    {bySession' : String → Option RecordId}
    (hold : ∀ sid, sid ≠ r.sessionId → bySession' sid = bySession sid)
    (hnew : bySession' r.sessionId = some nextRecord ∨
      (r.sessionId = "" ∧ bySession' r.sessionId = bySession r.sessionId)) :
    Filed (records ++ [nextRecord]) (Function.update record nextRecord r) (nextRecord + 1)
      bySession' := by
  have hother : ∀ j ∈ records, Function.update record nextRecord r j = record j :=
    fun j hj => Function.update_of_ne (ne_of_mem_of_not_mem hj h.notMem_next) _ _
  have hself : Function.update record nextRecord r nextRecord = r := Function.update_self ..
  have hlast : nextRecord ∈ records ++ [nextRecord] :=
    List.mem_append_right _ (List.mem_singleton.mpr rfl)
  refine {
    nodup := List.nodup_append'.mpr ⟨h.nodup, List.nodup_singleton _, ?_⟩
    tracked := fun j => ?_
    unborn := fun j hj => ?_
    filed := fun sid j hj => ?_
    found := fun j hj hne => ?_ }
  · exact List.disjoint_singleton.mpr h.notMem_next
  · by_cases hj : j = nextRecord
    · subst hj
      rw [hself, hr]
      exact iff_of_true hlast rfl
    · rw [Function.update_of_ne hj, ← h.tracked j, List.mem_append, List.mem_singleton]
      exact or_iff_left hj
  · rw [Function.update_of_ne (Nat.ne_of_gt hj)]
    exact h.unborn j (Nat.le_of_succ_le hj)
  · have hkeep : bySession sid = some j → j ∈ records ++ [nextRecord] ∧
        (Function.update record nextRecord r j).sessionId = sid := fun hj => by
      have hf := h.filed sid j hj
      rw [hother j hf.1]
      exact ⟨List.mem_append_left _ hf.1, hf.2⟩
    by_cases hsid : sid = r.sessionId
    · rw [hsid] at hj hkeep ⊢
      rcases hnew with hnew | ⟨-, hnew⟩
      · rw [hnew] at hj
        rw [← Option.some.inj hj, hself]
        exact ⟨hlast, rfl⟩
      · exact hkeep (hnew ▸ hj)
    · exact hkeep (hold sid hsid ▸ hj)
  · rcases List.mem_append.mp hj with hj | hj
    · rw [hother j hj] at hne ⊢
      rw [hold _ fun heq => hne (heq.trans (hvacant j hj heq))]
      exact h.found j hj hne
    · rw [List.mem_singleton.mp hj, hself] at hne ⊢
      exact hnew.resolve_right fun h => hne h.1

/-- What a new record holds is owed. -/
theorem Books.insert (h : Books a b c s) (hp : r.pending = none)
    (hshape : Shaped r) {bySession' : String → Option RecordId}
    (hfiled : Filed (s.records ++ [s.nextRecord]) (Function.update s.record s.nextRecord r)
      (s.nextRecord + 1) bySession') :
    Books (a - ramShare r) (b - diskShare r) c { s with
      records := s.records ++ [s.nextRecord]
      record := Function.update s.record s.nextRecord r
      nextRecord := s.nextRecord + 1
      bySession := bySession' } := by
  have hother : ∀ j ∈ s.records, Function.update s.record s.nextRecord r j = s.record j :=
    fun j hj => Function.update_of_ne (ne_of_mem_of_not_mem hj h.filed.notMem_next) _ _
  have hself : Function.update s.record s.nextRecord r s.nextRecord = r := Function.update_self ..
  -- the new record holds what the debts are lowered by
  have hheld : ∀ share : SessionSpillRecord → Nat,
      holdings (s.records ++ [s.nextRecord])
          (fun j => share (Function.update s.record s.nextRecord r j)) =
        holdings s.records (fun j => share (s.record j)) + share r := by
    intro share
    rw [holdings_append, hself, holdings_congr fun j hj => congrArg share (hother j hj)]
  have howed : Owed s.pendingWrites (Function.update s.record s.nextRecord r) s.write s.nextWrite :=
    h.owed.same fun j => by
      by_cases hj : j = s.nextRecord
      · rw [hj, hself, hp, (h.filed.unborn _ le_rfl).2]
      · rw [Function.update_of_ne hj]
  have hshaped : ∀ j ∈ s.records ++ [s.nextRecord],
      Shaped (Function.update s.record s.nextRecord r j) := fun j hj => by
    rcases List.mem_append.mp hj with hj | hj
    · rw [hother j hj]
      exact h.shaped j hj
    · rw [List.mem_singleton.mp hj, hself]
      exact hshape
  exact {
    filed := hfiled
    owed := howed
    shaped := hshaped
    ram := by
      have hram := h.ram
      have hh := hheld ramShare
      have hnew : (s.ramBytes : Int) = holdings (s.records ++ [s.nextRecord])
          (fun j => ramShare (Function.update s.record s.nextRecord r j)) +
          holdings s.pendingWrites (fun w => writeShare (s.write w)) + (a - ramShare r) := by omega
      exact hnew
    disk := by
      have hdisk := h.disk
      have hh := hheld diskShare
      have hnew : (s.diskBytes : Int) = holdings (s.records ++ [s.nextRecord])
          (fun j => diskShare (Function.update s.record s.nextRecord r j)) + (b - diskShare r) := by
        omega
      exact hnew
    reserved := h.reserved
    clamped := h.clamped }

end FreeToken.Spill
