import FreeToken.Spill.Books

/-!
# What each move does to the books

One lemma for each function of the store that moves bytes between records and
counters. A move of a tracked record leaves nothing owed that was not owed before.
-/

namespace FreeToken.Spill

open FreeToken.Lib

variable {s : Store} {i j : RecordId} {r : SessionSpillRecord} {a b c : Int}

theorem Books.shape_ram (h : Books a b c s) (hi : i ∈ s.records) (ht : (s.record i).tier = .ram) :
    (s.record i).cachedBytes = 0 := by
  have hsh := h.shaped i hi
  rwa [Shaped, ht] at hsh

theorem Books.shape_disk (h : Books a b c s) (hi : i ∈ s.records)
    (ht : (s.record i).tier = .disk) : (s.record i).backing = none := by
  have hsh := h.shaped i hi
  rwa [Shaped, ht] at hsh

theorem Books.mem (h : Books a b c s) (hi : (s.record i).valid = true) : i ∈ s.records :=
  (h.filed.tracked i).mpr hi

theorem Books.valid (h : Books a b c s) (hi : i ∈ s.records) : (s.record i).valid = true :=
  (h.filed.tracked i).mp hi

/-! ## Prefetched tensors -/

/-- A disk record without its prefetched tensors. -/
def SessionSpillRecord.uncached (r : SessionSpillRecord) : SessionSpillRecord :=
  { r with
    chunks := r.chunks.map fun c => if c.file.isSome then { c with value := none } else c
    cachedBytes := 0 }

theorem dropCache_eq (h : (s.record i).cachedBytes ≠ 0) :
    s.dropCache i = (s.setRecord i (·.uncached)).creditRam (s.record i).cachedBytes := by
  rw [Store.dropCache, if_pos h]
  rfl

theorem dropCache_of_eq (h : (s.record i).cachedBytes = 0) : s.dropCache i = s :=
  if_neg (not_not_intro h)

theorem Books.dropCache (h : Books a b c s) (ha : 0 ≤ a) (hi : i ∈ s.records) :
    Books a b c (s.dropCache i) := by
  by_cases hc : (s.record i).cachedBytes = 0
  · rwa [dropCache_of_eq hc]
  · rw [dropCache_eq hc]
    have ht : (s.record i).tier = .disk := by
      cases ht : (s.record i).tier with
      | ram => exact absurd (h.shape_ram hi ht) hc
      | disk => rfl
    have hbacking := h.shape_disk hi ht
    have hram : ramShare (s.record i) = (s.record i).cachedBytes := by rw [ramShare, ht]
    have hram' : ramShare (s.record i).uncached = 0 := by
      simp only [ramShare, SessionSpillRecord.uncached, ht]
    have hdisk : diskShare (s.record i).uncached = diskShare (s.record i) := rfl
    have hshape : Shaped (s.record i).uncached := by
      simp only [Shaped, SessionSpillRecord.uncached, ht, hbacking]
    have hset := h.setRecord (f := (·.uncached)) hi rfl rfl rfl hshape
    rw [hram, hram', hdisk] at hset
    exact (hset.creditRam (by omega)).cast (by omega) (by omega) rfl

/-- The same of a record just untracked: its prefetched tensors are owed before. -/
theorem Books.dropCache_untracked (h : Books a b c s) (hi : i ∉ s.records)
    (ha : ((s.record i).cachedBytes : Int) ≤ a) :
    Books (a - (s.record i).cachedBytes) b c (s.dropCache i) := by
  by_cases hc : (s.record i).cachedBytes = 0
  · rw [dropCache_of_eq hc, hc]
    exact h.cast (by omega) rfl rfl
  · rw [dropCache_eq hc]
    exact (h.setRecord_untracked (f := (·.uncached)) hi rfl rfl rfl).creditRam ha

/-! ## Disk copies -/

def SessionSpillRecord.unbacked (r : SessionSpillRecord) : SessionSpillRecord :=
  { r with backing := none }

theorem Books.dropBacking (h : Books a b c s) (hb : 0 ≤ b) (hi : i ∈ s.records)
    (hk : (s.record i).backing.isSome = true) :
    Books a b c ((s.setRecord i (·.unbacked)).creditDisk (s.record i).byteSize) := by
  have ht : (s.record i).tier = .ram := by
    cases ht : (s.record i).tier with
    | ram => rfl
    | disk =>
      rw [h.shape_disk hi ht] at hk
      exact absurd hk Bool.false_ne_true
  have hshape : Shaped (s.record i).unbacked := by
    simp only [Shaped, SessionSpillRecord.unbacked, ht]
    exact h.shape_ram hi ht
  have hram : ramShare (s.record i).unbacked = ramShare (s.record i) := rfl
  have hdisk : diskShare (s.record i) = (s.record i).byteSize := by
    rw [diskShare, ht]
    exact if_pos hk
  have hdisk' : diskShare (s.record i).unbacked = 0 := by
    simp only [diskShare, SessionSpillRecord.unbacked, ht]
    rfl
  have hset := h.setRecord (f := (·.unbacked)) hi rfl rfl rfl hshape
  rw [hram, hdisk, hdisk'] at hset
  exact (hset.creditDisk (by omega)).cast (by omega) (by omega) rfl

theorem Books.dropBacking_untracked (h : Books a b c s) (hi : i ∉ s.records)
    (hb : ((s.record i).byteSize : Int) ≤ b) :
    Books a (b - (s.record i).byteSize) c
      ((s.setRecord i (·.unbacked)).creditDisk (s.record i).byteSize) :=
  (h.setRecord_untracked (f := (·.unbacked)) hi rfl rfl rfl).creditDisk hb

/-- A finished background copy is charged to the disk. -/
theorem Books.installBacking (h : Books a b c s) (hi : i ∈ s.records)
    (ht : (s.record i).tier = .ram) (hk : (s.record i).backing = none) (copy : Backing) :
    Books a b c (s.installBacking i copy) := by
  have hshape : Shaped { s.record i with backing := some copy } := by
    simp only [Shaped, ht]
    exact h.shape_ram hi ht
  have hram : ramShare { s.record i with backing := some copy } = ramShare (s.record i) := rfl
  have hdisk : diskShare (s.record i) = 0 := by
    rw [diskShare, ht, hk]
    rfl
  have hdisk' : diskShare { s.record i with backing := some copy } = (s.record i).byteSize := by
    simp only [diskShare, ht]
    rfl
  have hset := h.setRecord (f := fun r => { r with backing := some copy }) hi rfl rfl rfl hshape
  rw [hram, hdisk, hdisk'] at hset
  exact (hset.chargeDisk .collectWriteBehind (s.record i).byteSize).cast (by omega) (by omega) (by omega)

/-! ## Demotion -/

/-- A record that reads from the files of `directory`. -/
def SessionSpillRecord.demoted (directory : DirName) (tokenFile : Path) (files : List Path)
    (r : SessionSpillRecord) : SessionSpillRecord :=
  { r with
    chunks := List.zipWith (fun c path => { c with value := none, file := some path })
      r.chunks files
    tier := .disk
    directory := some directory
    tokenFile := some tokenFile
    backing := none }

/-- The RAM charge goes, and a disk copy, if there is one, already has its own. -/
theorem Books.demoted (h : Books a b c s) (hi : i ∈ s.records) (ht : (s.record i).tier = .ram)
    (directory : DirName) (tokenFile : Path) (files : List Path) :
    Books (a + (s.record i).byteSize) (b + diskShare (s.record i) - (s.record i).byteSize) c
      (s.setRecord i (·.demoted directory tokenFile files)) := by
  have hc := h.shape_ram hi ht
  have hram : ramShare (s.record i) = (s.record i).byteSize := by rw [ramShare, ht]
  have hram' : ramShare ((s.record i).demoted directory tokenFile files) = 0 := hc
  have hset := h.setRecord (f := (·.demoted directory tokenFile files)) hi rfl rfl rfl
    (rfl : ((s.record i).demoted directory tokenFile files).backing = none)
  rw [hram, hram'] at hset
  exact hset.cast (by omega) rfl rfl

theorem Books.movedToBacking (h : Books a b c s) (ha : 0 ≤ a) (hi : i ∈ s.records)
    (ht : (s.record i).tier = .ram) {copy : Backing} (hk : (s.record i).backing = some copy) :
    Books a b c (s.movedToBacking i copy) := by
  have hdisk : diskShare (s.record i) = (s.record i).byteSize := by
    rw [diskShare, ht, hk]
    rfl
  have hset := h.demoted hi ht copy.directory copy.tokenFile copy.files
  rw [hdisk] at hset
  exact (hset.creditRam (by omega)).cast (by omega) (by omega) rfl

theorem Books.movedToDisk (h : Books a b c s) (ha : 0 ≤ a) (hi : i ∈ s.records)
    (ht : (s.record i).tier = .ram) (hk : (s.record i).backing = none) (target : DirName)
    (files : List Path) : Books a b c (s.movedToDisk i target files) := by
  have hdisk : diskShare (s.record i) = 0 := by
    rw [diskShare, ht, hk]
    rfl
  have hset := h.demoted hi ht target ⟨target, .tokens none⟩ files
  rw [hdisk] at hset
  have heq : s.movedToDisk i target files =
      ((s.setRecord i (·.demoted target ⟨target, .tokens none⟩ files)).creditRam
        (s.record i).byteSize).charge .demote ⟨0, (s.record i).byteSize, 0⟩ := by
    have hrec : (s.record i).demoted target ⟨target, .tokens none⟩ files =
        { s.record i with
          chunks := List.zipWith (fun c path => { c with value := none, file := some path })
            (s.record i).chunks files
          tier := .disk
          directory := some target
          tokenFile := some ⟨target, .tokens none⟩ } := by
      rw [SessionSpillRecord.demoted, ← hk]
    simp only [Store.movedToDisk, Store.setRecord, hrec]
  rw [heq]
  exact ((hset.creditRam (by omega)).chargeDisk .demote (s.record i).byteSize).cast (by omega) (by omega) (by omega)

/-! ## Prefetch -/

/-- The reservation becomes the charge of the tensors read. -/
theorem Books.promote (h : Books a b c s) {p : Prefetch} (hi : p.record ∈ s.records)
    (ht : (s.record p.record).tier = .disk) (hc : (s.record p.record).cachedBytes = 0)
    (hres : (p.reservedBytes : Int) ≤ c) (values : List Tensor) :
    Books a b (c - p.reservedBytes) (s.promote p values) := by
  have hr := h.creditReserved hres
  let f : SessionSpillRecord → SessionSpillRecord := fun r =>
    { r with
      chunks := withValues p.chunks values r.chunks
      cachedBytes := (values.map (·.nbytes)).sum }
  have hbacking := h.shape_disk hi ht
  have hshape : Shaped (f (s.record p.record)) := by
    simp only [Shaped, f, ht, hbacking]
  have hram : ramShare (s.record p.record) = 0 := by rw [ramShare, ht, hc]
  have hram' : ramShare (f (s.record p.record)) = (values.map (·.nbytes)).sum := by
    simp only [ramShare, f, ht]
  have hdisk : diskShare (f (s.record p.record)) = diskShare (s.record p.record) := rfl
  have hset : Books (a + ramShare (s.record p.record) - ramShare (f (s.record p.record)))
      (b + diskShare (s.record p.record) - diskShare (f (s.record p.record))) (c - p.reservedBytes)
      ((s.creditReserved p.reservedBytes).setRecord p.record f) :=
    hr.setRecord hi rfl rfl rfl hshape
  rw [hram, hram', hdisk] at hset
  have hcharged : Books a b (c - p.reservedBytes) _ :=
    (hset.chargeRam .collectPrefetch (values.map (·.nbytes)).sum).cast (by omega) (by omega) rfl
  exact hcharged

/-! ## Background writes -/

/-- A finished write leaves the queue and its charge goes. -/
def Store.finished (w : WriteId) (s : Store) : Store := (s.removePending w).settleWrite w

/-- A record that owes nothing and reads `files` from disk. -/
def SessionSpillRecord.writtenOut (files : List Path) (r : SessionSpillRecord) :
    SessionSpillRecord :=
  { r with
    pending := none
    chunks := r.chunks.map fun c =>
      if c.file.any files.contains then { c with value := none } else c }

theorem finished_eq {w : WriteId} (h : (s.write w).charged = true) :
    s.finished w = ((((s.removePending w).creditRam (s.write w).nbytes).setWrite w fun p =>
      { p with charged := false }).setRecord (s.write w).record fun r =>
        r.writtenOut ((s.write w).jobs.map (·.1))).setWrite w fun p => { p with jobs := [] } := by
  have h' : ((s.removePending w).write w).charged = true := h
  rw [Store.finished, Store.settleWrite]
  simp only [if_pos h']
  rfl

theorem finished_record_of_ne {w : WriteId} (hw : (s.write w).charged = true)
    (h : j ≠ (s.write w).record) : (s.finished w).record j = s.record j := by
  rw [finished_eq hw]
  exact Function.update_of_ne h _ _

theorem finished_record {w : WriteId} (hw : (s.write w).charged = true) :
    (s.finished w).record (s.write w).record =
      (s.record (s.write w).record).writtenOut ((s.write w).jobs.map (·.1)) := by
  rw [finished_eq hw]
  exact Function.update_self ..

theorem Books.finished (h : Books a b c s) (ha : 0 ≤ a) {w : WriteId} (hw : w ∈ s.pendingWrites) :
    Books a b c (s.finished w) := by
  have hcharged := h.owed.charged w hw
  have hshare : writeShare (s.write w) = (s.write w).nbytes := if_pos hcharged
  have hrec := finished_record hcharged
  have hwrites : ∀ v, v ≠ w → (s.finished w).write v = s.write v := fun v hv => by
    rw [finished_eq hcharged]
    exact (Function.update_of_ne hv _ _).trans (Function.update_of_ne hv _ _)
  have hpendings : (s.finished w).pendingWrites = s.pendingWrites.erase w := by
    rw [finished_eq hcharged]
    rfl
  -- on the record only what the write brought changes
  have hproj : ∀ {β : Type} (p : SessionSpillRecord → β),
      (∀ r : SessionSpillRecord, p (r.writtenOut ((s.write w).jobs.map (·.1))) = p r) →
      ∀ j, p ((s.finished w).record j) = p (s.record j) := by
    intro β p hp j
    by_cases hj : j = (s.write w).record
    · rw [hj, hrec, hp]
    · rw [finished_record_of_ne hcharged hj]
  -- the write gives its bytes back
  have hpend : holdings s.pendingWrites (fun v => writeShare (s.write v)) =
      holdings (s.pendingWrites.erase w) (fun v => writeShare ((s.finished w).write v)) +
        (s.write w).nbytes := by
    rw [← hshare, ← holdings_erase hw]
    congr 1
    refine holdings_congr fun v hv => ?_
    rw [hwrites v fun hvw => h.owed.nodup.not_mem_erase (hvw ▸ hv)]
  have hrams : (s.finished w).ramBytes = s.ramBytes - (s.write w).nbytes := by
    rw [finished_eq hcharged]
    rfl
  have hclamp : (s.finished w).clamped =
      (s.clamped || decide (s.ramBytes < (s.write w).nbytes)) := by
    rw [finished_eq hcharged]
    rfl
  have hsame : (s.finished w).records = s.records ∧ (s.finished w).nextRecord = s.nextRecord ∧
      (s.finished w).bySession = s.bySession ∧ (s.finished w).nextWrite = s.nextWrite ∧
      (s.finished w).diskBytes = s.diskBytes ∧ (s.finished w).prefetch = s.prefetch ∧
      (s.finished w).prefetchReservedBytes = s.prefetchReservedBytes := by
    rw [finished_eq hcharged]
    exact ⟨rfl, rfl, rfl, rfl, rfl, rfl, rfl⟩
  obtain ⟨hrecords, hnext, hby, hnextw, hdisk, hpre, hres⟩ := hsame
  refine ⟨?_, ?_, ?_, ?_, ?_, ?_, ?_⟩
  · rw [hrecords, hnext, hby]
    refine h.filed.same (hproj (·.valid) fun _ => rfl) (hproj (·.sessionId) fun _ => rfl)
      fun j hj => ?_
    by_cases hjw : j = (s.write w).record
    · rw [hjw, hrec, (h.filed.unborn _ (hjw ▸ hj)).2]
      rfl
    · rw [finished_record_of_ne hcharged hjw]
  · rw [hpendings, hnextw]
    have hne : ∀ v ∈ s.pendingWrites.erase w, v ≠ w := fun v hv hvw =>
      h.owed.nodup.not_mem_erase (hvw ▸ hv)
    exact {
      nodup := h.owed.nodup.erase w
      unborn := fun v hv => h.owed.unborn v (List.mem_of_mem_erase hv)
      charged := fun v hv => by
        rw [hwrites v (hne v hv)]
        exact h.owed.charged v (List.mem_of_mem_erase hv)
      owner := fun v hv => by
        have hv' := h.owed.owner v (List.mem_of_mem_erase hv)
        rw [hwrites v (hne v hv), finished_record_of_ne hcharged, hv']
        intro heq
        rw [heq, h.owed.owner w hw] at hv'
        exact hne v hv (Option.some.inj hv').symm
      owes := fun j v hj => by
        -- the record of the write waits for nothing any more
        have hjw : j ≠ (s.write w).record := fun heq => by
          rw [heq, hrec] at hj
          exact Option.some_ne_none v hj.symm
        rw [finished_record_of_ne hcharged hjw] at hj
        obtain ⟨hv, hvj⟩ := h.owed.owes j v hj
        have hvw : v ≠ w := fun heq => hjw (heq ▸ hvj.symm)
        rw [hwrites v hvw]
        exact ⟨(List.mem_erase_of_ne hvw).mpr hv, hvj⟩ }
  · rw [hrecords]
    intro j hj
    have hsh := h.shaped j hj
    rw [Shaped] at hsh ⊢
    rwa [hproj (·.tier) (fun _ => rfl), hproj (·.cachedBytes) (fun _ => rfl),
      hproj (·.backing) (fun _ => rfl)]
  · have hram := h.ram
    rw [hrecords, hpendings, hrams, holdings_congr fun j _ => hproj ramShare (fun _ => rfl) j]
    omega
  · rw [hrecords, hdisk, holdings_congr fun j _ => hproj diskShare (fun _ => rfl) j]
    exact h.disk
  · rw [hres, hpre]
    exact h.reserved
  · have hram := h.ram
    rw [hclamp, h.clamped, Bool.false_or, decide_eq_false_iff_not]
    omega

/-- A new write is charged to RAM. -/
theorem Books.queueWrite (h : Books a b c s) (hp : (s.record i).pending = none)
    (hb : i < s.nextRecord) (jobs : List (Path × Tensor)) : Books a b c (s.queueWrite i jobs) := by
  let nbytes := (jobs.map fun job => job.2.nbytes).sum
  let new : PendingWrite := { record := i, jobs := jobs, nbytes := nbytes }
  have hfresh : ∀ v ∈ s.pendingWrites, v ≠ s.nextWrite := fun v hv =>
    Nat.ne_of_lt (h.owed.unborn v hv)
  have hold : ∀ v ∈ s.pendingWrites, Function.update s.write s.nextWrite new v = s.write v :=
    fun v hv => Function.update_of_ne (hfresh v hv) _ _
  have hself : Function.update s.write s.nextWrite new s.nextWrite = new := Function.update_self ..
  have hproj : ∀ {β : Type} (p : SessionSpillRecord → β),
      (∀ r : SessionSpillRecord, p { r with pending := some s.nextWrite } = p r) →
      ∀ j, p ((s.queueWrite i jobs).record j) = p (s.record j) := fun p hp j =>
    setRecord_eq (f := fun r => { r with pending := some s.nextWrite }) (hp _) j
  have hrec : (s.queueWrite i jobs).record i = { s.record i with pending := some s.nextWrite } :=
    Function.update_self ..
  have hne : ∀ j, j ≠ i → (s.queueWrite i jobs).record j = s.record j :=
    fun j hj => Function.update_of_ne hj _ _
  -- the new write is the only one that its record waits for
  have howed : Owed (s.pendingWrites ++ [s.nextWrite]) (s.queueWrite i jobs).record
      (Function.update s.write s.nextWrite new) (s.nextWrite + 1) := {
    nodup := List.nodup_append'.mpr ⟨h.owed.nodup, List.nodup_singleton _,
      List.disjoint_singleton.mpr fun hmem => hfresh _ hmem rfl⟩
    unborn := fun v hv => by
      rcases List.mem_append.mp hv with hv | hv
      · exact Nat.lt_succ_of_lt (h.owed.unborn v hv)
      · rw [List.mem_singleton.mp hv]
        exact Nat.lt_succ_self _
    charged := fun v hv => by
      rcases List.mem_append.mp hv with hv | hv
      · rw [hold v hv]
        exact h.owed.charged v hv
      · rw [List.mem_singleton.mp hv, hself]
    owner := fun v hv => by
      rcases List.mem_append.mp hv with hv | hv
      · rw [hold v hv, hne, h.owed.owner v hv]
        intro heq
        have := h.owed.owner v hv
        rw [heq, hp] at this
        exact Option.some_ne_none v this.symm
      · rw [List.mem_singleton.mp hv, hself, hrec]
    owes := fun j v hj => by
      by_cases hji : j = i
      · subst hji
        rw [hrec] at hj
        rw [← Option.some.inj hj, hself]
        exact ⟨List.mem_append_right _ (List.mem_singleton.mpr rfl), rfl⟩
      · rw [hne j hji] at hj
        obtain ⟨hv, hvj⟩ := h.owed.owes j v hj
        rw [hold v hv]
        exact ⟨List.mem_append_left _ hv, hvj⟩ }
  -- and it is charged with its bytes
  have hpend : holdings (s.pendingWrites ++ [s.nextWrite])
      (fun v => writeShare (Function.update s.write s.nextWrite new v)) =
      holdings s.pendingWrites (fun v => writeShare (s.write v)) + nbytes := by
    rw [holdings_append, hself, holdings_congr fun v hv => congrArg writeShare (hold v hv)]
    rfl
  have hfiled : Filed s.records (s.queueWrite i jobs).record s.nextRecord s.bySession :=
    h.filed.same (hproj (·.valid) fun _ => rfl) (hproj (·.sessionId) fun _ => rfl)
      fun j hj => by rw [hne j (Nat.ne_of_gt (hb.trans_le hj))]
  exact {
    filed := hfiled
    owed := howed
    shaped := fun j hj => by
      have hsh := h.shaped j hj
      rw [Shaped] at hsh ⊢
      rwa [hproj (·.tier) (fun _ => rfl), hproj (·.cachedBytes) (fun _ => rfl),
        hproj (·.backing) (fun _ => rfl)]
    ram := by
      have hram := h.ram
      have hnew : ((s.ramBytes + nbytes : Nat) : Int) =
          holdings s.records (fun j => ramShare ((s.queueWrite i jobs).record j)) +
          holdings (s.pendingWrites ++ [s.nextWrite])
            (fun v => writeShare (Function.update s.write s.nextWrite new v)) + a := by
        rw [hpend, holdings_congr fun j _ => hproj ramShare (fun _ => rfl) j]
        omega
      exact hnew
    disk := by
      have hnew : (s.diskBytes : Int) =
          holdings s.records (fun j => diskShare ((s.queueWrite i jobs).record j)) + b := by
        rw [holdings_congr fun j _ => hproj diskShare (fun _ => rfl) j]
        exact h.disk
      exact hnew
    reserved := h.reserved
    clamped := h.clamped }

/-! ## Tracking and filing -/

/-- A record that was just made. -/
structure Plain (r : SessionSpillRecord) : Prop where
  valid : r.valid = true
  pending : r.pending = none
  cached : r.cachedBytes = 0
  backing : r.backing = none

theorem Plain.shaped (h : Plain r) : Shaped r := by
  rw [Shaped]
  split
  · exact h.cached
  · exact h.backing

theorem Books.add (h : Books a b c s) (hr : Plain r) (hvacant : Vacant s r.sessionId) :
    Books a b c (s.add r) := by
  let bySession' := if r.sessionId ≠ "" then
    Function.update s.bySession r.sessionId (some s.nextRecord) else s.bySession
  have hfiled : Filed (s.records ++ [s.nextRecord]) (Function.update s.record s.nextRecord r)
      (s.nextRecord + 1) bySession' := by
    refine h.filed.insert hr.valid hvacant (fun sid hsid => ?_) ?_
    · simp only [bySession']
      split
      · exact Function.update_of_ne hsid _ _
      · rfl
    · simp only [bySession']
      split
      · exact .inl (Function.update_self ..)
      · exact .inr ⟨not_not.mp ‹_›, rfl⟩
  have hins := h.insert hr.pending hr.shaped hfiled
  simp only [Store.add]
  cases ht : r.tier with
  | ram =>
    have hram : ramShare r = r.byteSize := by rw [ramShare, ht]
    have hdisk : diskShare r = 0 := by
      rw [diskShare, ht, hr.backing]
      rfl
    rw [hram, hdisk] at hins
    exact (hins.chargeRam .trackRam r.byteSize).cast (by omega) (by omega) (by omega)
  | disk =>
    have hram : ramShare r = 0 := by rw [ramShare, ht, hr.cached]
    have hdisk : diskShare r = r.byteSize := by rw [diskShare, ht]
    rw [hram, hdisk] at hins
    exact (hins.chargeDisk .trackDisk r.byteSize).cast (by omega) (by omega) (by omega)

theorem refile_bySession (s : Store) (i : RecordId) (sid : String) :
    (s.refile i sid).bySession =
      Function.update (unfile s.record s.bySession i) sid (some i) := rfl

/-- A record may take a session id that no other tracked record has. -/
theorem Books.refile (h : Books a b c s) (hi : i ∈ s.records) {sid : String}
    (hvacant : Vacant s sid) (hne : (s.record i).sessionId ≠ sid) :
    Books a b c (s.refile i sid) := by
  let f : SessionSpillRecord → SessionSpillRecord := fun r => { r with sessionId := sid }
  have hproj : ∀ {β : Type} (p : SessionSpillRecord → β),
      (∀ r : SessionSpillRecord, p (f r) = p r) →
      ∀ j, p ((s.setRecord i f).record j) = p (s.record j) := fun p hp j => setRecord_eq (hp _) j
  have hself : (s.setRecord i f).record i = f (s.record i) := setRecord_same
  have hother : ∀ j, j ≠ i → (s.setRecord i f).record j = s.record j := fun j hj =>
    setRecord_of_ne hj
  have hfiled : Filed s.records (s.setRecord i f).record s.nextRecord (s.refile i sid).bySession := {
    nodup := h.filed.nodup
    tracked := fun j => by rw [hproj (·.valid) (fun _ => rfl)]; exact h.filed.tracked j
    unborn := fun j hj => by
      rw [hproj (·.valid) (fun _ => rfl), hproj (·.pending) (fun _ => rfl)]
      exact h.filed.unborn j hj
    filed := fun sid' j hj => by
      by_cases hsid : sid' = sid
      · -- the new name leads to `i`, and nothing was filed there
        subst hsid
        rw [refile_bySession, Function.update_self] at hj
        rw [← Option.some.inj hj, hself]
        exact ⟨hi, rfl⟩
      · rw [refile_bySession, Function.update_of_ne hsid] at hj
        have hold := (h.filed.unfile_iff i).mp hj
        rw [hother j hold.2]
        exact h.filed.filed sid' j hold.1
    found := fun j hj hjne => by
      by_cases hji : j = i
      · subst hji
        rw [hself, refile_bySession]
        exact Function.update_self ..
      · rw [hother j hji] at hjne ⊢
        have hfound := h.filed.found j hj hjne
        have hsid : (s.record j).sessionId ≠ sid := fun heq =>
          hjne (heq.trans (hvacant j hj heq))
        rw [refile_bySession, Function.update_of_ne hsid]
        exact (h.filed.unfile_iff i).mpr ⟨hfound, hji⟩ }
  exact {
    filed := hfiled
    owed := h.owed.same (hproj (·.pending) fun _ => rfl)
    shaped := fun j hj => by
      have hsh := h.shaped j hj
      rw [Shaped] at hsh
      have hnew : Shaped ((s.setRecord i f).record j) := by
        rw [Shaped, hproj (·.tier) (fun _ => rfl), hproj (·.cachedBytes) (fun _ => rfl),
          hproj (·.backing) (fun _ => rfl)]
        exact hsh
      exact hnew
    ram := by
      have hnew : (s.ramBytes : Int) =
          holdings s.records (fun j => ramShare ((s.setRecord i f).record j)) +
          holdings s.pendingWrites (fun w => writeShare (s.write w)) + a := by
        rw [holdings_congr fun j _ => hproj ramShare (fun _ => rfl) j]
        exact h.ram
      exact hnew
    disk := by
      have hnew : (s.diskBytes : Int) =
          holdings s.records (fun j => diskShare ((s.setRecord i f).record j)) + b := by
        rw [holdings_congr fun j _ => hproj diskShare (fun _ => rfl) j]
        exact h.disk
      exact hnew
    reserved := h.reserved
    clamped := h.clamped }

/-! ## Giving a record's bytes back -/

namespace Store

/-- A record without its disk copy. -/
def withoutBacking (i : RecordId) (s : Store) : Store :=
  if (s.record i).backing.isSome then
    (s.setRecord i (·.unbacked)).creditDisk (s.record i).byteSize
  else s

/-- The bytes of a record just untracked are given back. -/
def giveBack (i : RecordId) (s : Store) : Store :=
  match (s.record i).tier with
  | .ram => (s.creditRam (s.record i).byteSize).withoutBacking i
  | .disk => (s.creditDisk (s.record i).byteSize).dropCache i

/-- A released record that is no longer filed either. -/
def released (i : RecordId) (s : Store) : Store :=
  { s.release i with bySession := unfile s.record s.bySession i }

end Store

theorem Books.withoutBacking (h : Books a b c s) (hb : 0 ≤ b) (hi : i ∈ s.records) :
    Books a b c (s.withoutBacking i) := by
  rw [Store.withoutBacking]
  split
  · exact h.dropBacking hb hi ‹_›
  · exact h

/-- Everything a record held is given back, and nothing is owed for it. -/
theorem Books.giveBack (h : Books a b c s) (ha : 0 ≤ a) (hb : 0 ≤ b) (hi : i ∈ s.records) :
    Books a b c ((s.untrack i).giveBack i) := by
  have h1 := h.untrack hi
  have hnot : i ∉ (s.untrack i).records := by
    change i ∉ List.filter _ _
    simp
  have hrec : (s.untrack i).record i = { s.record i with valid := false } := untrack_record_same
  have htier : ((s.untrack i).record i).tier = (s.record i).tier := by rw [hrec]
  have hbytes : ((s.untrack i).record i).byteSize = (s.record i).byteSize := by rw [hrec]
  have hcached : ((s.untrack i).record i).cachedBytes = (s.record i).cachedBytes := by rw [hrec]
  have hbacking : ((s.untrack i).record i).backing = (s.record i).backing := by rw [hrec]
  rw [Store.giveBack, htier, hbytes]
  cases hti : (s.record i).tier with
  | disk =>
    rw [show ramShare (s.record i) = (s.record i).cachedBytes by rw [ramShare, hti],
      show diskShare (s.record i) = (s.record i).byteSize by rw [diskShare, hti]] at h1
    have h2 := h1.creditDisk (n := (s.record i).byteSize) (by omega)
    have h3 := h2.dropCache_untracked hnot (by
      change (((s.untrack i).record i).cachedBytes : Int) ≤ _
      rw [hcached]
      omega)
    refine h3.cast ?_ (by omega) rfl
    change a + _ - (((s.untrack i).record i).cachedBytes : Int) = a
    rw [hcached]
    omega
  | ram =>
    rw [show ramShare (s.record i) = (s.record i).byteSize by rw [ramShare, hti]] at h1
    have h2 := h1.creditRam (n := (s.record i).byteSize) (by omega)
    simp only [Store.withoutBacking]
    change Books a b c (if ((s.untrack i).record i).backing.isSome then _ else _)
    rw [hbacking]
    split
    · rename_i hk
      rw [show diskShare (s.record i) = (s.record i).byteSize by
        rw [diskShare, hti]
        exact if_pos hk] at h2
      have h3 := h2.dropBacking_untracked hnot (by
        change (((s.untrack i).record i).byteSize : Int) ≤ _
        rw [hbytes]
        omega)
      refine h3.cast (by omega) ?_ rfl
      change b + _ - (((s.untrack i).record i).byteSize : Int) = b
      rw [hbytes]
      omega
    · rename_i hk
      rw [show diskShare (s.record i) = 0 by
        rw [diskShare, hti]
        exact if_neg hk] at h2
      exact h2.cast (by omega) (by omega) rfl

theorem untracked_flags (s : Store) (i : RecordId) :
    ((s.cancelPrefetchOf i).forgetPromoted (s.record i).sessionId).records = s.records ∧
      ((s.cancelPrefetchOf i).forgetPromoted (s.record i).sessionId).record = s.record := by
  rw [Store.forgetPromoted, Store.cancelPrefetchOf]
  split <;> split <;> exact ⟨rfl, rfl⟩

theorem Books.detach (h : Books a b c s) (ha : 0 ≤ a) (hb : 0 ≤ b) (hi : i ∈ s.records)
    (ht : (s.record i).tier = .disk) : Books a b c (s.detach i) := by
  obtain ⟨hrecords, hrecord⟩ := untracked_flags s i
  have hgive := ((h.cancelPrefetchOf i).forgetPromoted (s.record i).sessionId).giveBack ha hb
    (hrecords ▸ hi)
  have hrec := untrack_record_same
    (s := (s.cancelPrefetchOf i).forgetPromoted (s.record i).sessionId) (i := i)
  rw [hrecord] at hrec
  rwa [Store.giveBack, hrec, ht] at hgive

/-! ## The durable generation -/

theorem released_eq (s : Store) (i : RecordId) :
    s.released i = ((s.untrack i).giveBack i).setRecord i fun r => { r with chunks := [] } := by
  cases ht : (s.record i).tier with
  | disk =>
    by_cases hc : (s.record i).cachedBytes = 0
    · simp [Store.released, Store.release, Store.giveBack, ht, Store.dropCache, hc, Store.untrack,
        Store.setRecord, Store.creditDisk, Store.noted, Store.balance, unfile]
    · simp [Store.released, Store.release, Store.giveBack, ht, Store.dropCache, hc, Store.untrack,
        Store.setRecord, Store.creditDisk, Store.creditRam, Store.noted, Store.balance, unfile]
  | ram =>
    cases hk : (s.record i).backing with
    | none =>
      simp [Store.released, Store.release, Store.giveBack, Store.withoutBacking, ht, hk,
        Store.untrack, Store.setRecord, Store.creditRam, Store.noted, Store.balance, unfile]
    | some copy =>
      simp [Store.released, Store.release, Store.giveBack, Store.withoutBacking, ht, hk,
        Store.untrack, Store.setRecord, Store.creditRam, Store.creditDisk, Store.noted,
        Store.balance, unfile, SessionSpillRecord.unbacked]

theorem Books.released (h : Books a b c s) (ha : 0 ≤ a) (hb : 0 ≤ b) (hi : i ∈ s.records) :
    Books a b c (s.released i) := by
  rw [released_eq]
  exact (h.giveBack ha hb hi).touchRecord rfl rfl rfl rfl rfl rfl rfl

theorem release_same (s : Store) (i : RecordId) :
    (s.release i).records = s.records.filter (· ≠ i) ∧ (s.release i).bySession = s.bySession ∧
      (s.release i).nextRecord = s.nextRecord ∧
      ∀ j, j ≠ i → (s.release i).record j = s.record j := by
  have hne : ∀ (f : RecordId → SessionSpillRecord) (v : SessionSpillRecord) (j : RecordId), j ≠ i →
      Function.update f i v j = f j := fun f v j hj => Function.update_of_ne hj v f
  simp only [Store.release]
  split
  · split
    · exact ⟨rfl, rfl, rfl, fun j hj => (hne _ _ j hj).trans (hne _ _ j hj)⟩
    · exact ⟨rfl, rfl, rfl, fun j hj => hne _ _ j hj⟩
  · simp only [Store.dropCache]
    split
    · exact ⟨rfl, rfl, rfl, fun j hj => (hne _ _ j hj).trans (hne _ _ j hj)⟩
    · exact ⟨rfl, rfl, rfl, fun j hj => hne _ _ j hj⟩

/-- The new generation of a session takes the place of the record it had, if any. -/
theorem Books.installDurable (h : Books a b c s) (ha : 0 ≤ a) (hb : 0 ≤ b) (hr : Plain r)
    (ht : r.tier = .disk) {previous : Option RecordId}
    (hprev : ∀ i, previous = some i → i ∈ s.records ∧ (s.record i).sessionId = r.sessionId)
    (honly : ∀ i ∈ s.records, (s.record i).sessionId = r.sessionId →
      r.sessionId = "" ∨ previous = some i) :
    Books a b c (s.installDurable r previous) := by
  have hram : ramShare r = 0 := by rw [ramShare, ht, hr.cached]
  have hdisk : diskShare r = r.byteSize := by rw [diskShare, ht]
  -- the insertion over a store whose index holds no other record of the session
  have hins : ∀ t : Store, Books a b c t →
      (∀ j ∈ t.records, (t.record j).sessionId = r.sessionId → r.sessionId = "") →
      ∀ bySession' : String → Option RecordId,
        (∀ sid, sid ≠ r.sessionId → bySession' sid = t.bySession sid) →
        bySession' r.sessionId = some t.nextRecord →
        Books a b c (Store.charge .durable ⟨0, r.byteSize, 0⟩ { t with
          records := t.records ++ [t.nextRecord]
          record := Function.update t.record t.nextRecord r
          nextRecord := t.nextRecord + 1
          bySession := bySession' }) := by
    intro t ht' hvacant bySession' hold hnew
    have hins := ht'.insert hr.pending hr.shaped
      (ht'.filed.insert hr.valid hvacant hold (.inl hnew))
    rw [hram, hdisk] at hins
    exact (hins.chargeDisk .durable r.byteSize).cast (by omega) (by omega) (by omega)
  cases previous with
  | none =>
    refine hins s h (fun j hj hjr => (honly j hj hjr).resolve_right (by simp)) _
      (fun sid hsid => Function.update_of_ne hsid _ _) (Function.update_self ..)
  | some i =>
    obtain ⟨hi, hisid⟩ := hprev i rfl
    obtain ⟨hrecords, hby, hnext, hother⟩ := release_same s i
    refine hins (s.released i) (h.released ha hb hi) (fun j hj hjr => ?_)
      (Function.update (s.release i).bySession r.sessionId (some (s.release i).nextRecord))
      (fun sid hsid => ?_) (Function.update_self ..)
    · have hj' : j ∈ s.records ∧ j ≠ i := by
        have : j ∈ (s.release i).records := hj
        rw [hrecords, List.mem_filter] at this
        exact ⟨this.1, of_decide_eq_true this.2⟩
      have hjr' : (s.record j).sessionId = r.sessionId := by
        rw [← hother j hj'.2]
        exact hjr
      exact (honly j hj'.1 hjr').resolve_right fun heq => hj'.2 (Option.some.inj heq).symm
    · rw [Function.update_of_ne hsid, hby]
      change s.bySession sid = unfile s.record s.bySession i sid
      rw [unfile]
      split
      · rw [Function.update_of_ne (hisid ▸ hsid)]
      · rfl

end FreeToken.Spill
