import FreeToken.Prefill.Pass
import Mathlib.Data.Int.Order.Basic
import Mathlib.Order.Basic

/-!
# Finishability in pages

The pages an admitted request still has to allocate are a page span; what a pass
charges for the set admitted before it is the standing reservation and the
in-flight tokens, both in raw tokens. A pass keeps "what is owed fits in what is
available" for every pool and queue exactly when the pages owed by the admitted
set are covered by that charge, rounded up to a page.

`PrefillOps.Lawful` is what the sizes do as a pass sees them: a match, a state-slot
reservation (which evicts or lets go of leases), a commit and an unlock never
lower `available_size`, and unlocking what was just locked restores it.

## Results

* `passLoop_inv` — the admission loop adds to what is owed exactly what it adds
  to the reservation, and no admission passes the gate beyond `available_size`;
* `passKeeps_iff` — the condition on the admitted set;
* `covered_of_page_one` — it holds for single-token pages and no running decode;
* `decode_step_oversold` — a pass that over-sells the pool by one decode step.
-/

namespace FreeToken.Prefill

open FreeToken.Lib FreeToken.KvCache

variable {σ H : Type}

-- ---------------------------------------------------------------------------
-- What is owed
-- ---------------------------------------------------------------------------

/-- An admitted request: the tokens it will hold and the ones it holds now. -/
structure Footprint where
  totalLen : Nat
  cachedLen : Nat
  deriving DecidableEq, Repr

def Footprint.pages (ps : Nat) (f : Footprint) : Nat :=
  divCeil f.totalLen ps - divCeil f.cachedLen ps

def owedPages (ps : Nat) (fs : List Footprint) : Nat := (fs.map (Footprint.pages ps)).sum

@[simp] theorem owedPages_nil (ps : Nat) : owedPages ps [] = 0 := rfl

@[simp] theorem owedPages_cons (ps : Nat) (f : Footprint) (fs : List Footprint) :
    owedPages ps (f :: fs) = f.pages ps + owedPages ps fs := by
  simp [owedPages]

@[simp] theorem owedPages_append (ps : Nat) (fs gs : List Footprint) :
    owedPages ps (fs ++ gs) = owedPages ps fs + owedPages ps gs := by
  simp [owedPages]

theorem owedPages_zero (fs : List Footprint) : owedPages 0 fs = 0 := by
  induction fs with
  | nil => rfl
  | cons f fs ih =>
    rw [owedPages_cons, ih, Footprint.pages, divCeil, divCeil, Nat.div_zero, Nat.div_zero]

def Running.footprint (r : Running) : Footprint := ⟨r.maxDeviceLen, r.cachedLen⟩

/-- A prompt mid-prefill, as the standing reservation reads it. -/
structure MidPrefill where
  inputLen : Nat
  outputLen : Nat
  cachedLen : Nat
  deriving DecidableEq, Repr

def MidPrefill.footprint (m : MidPrefill) : Footprint := ⟨m.inputLen + m.outputLen, m.cachedLen⟩

def MidPrefill.standing (m : MidPrefill) : Nat := (m.inputLen - m.cachedLen) + m.outputLen

def PendingReq.mid (r : PendingReq H) : Option MidPrefill :=
  r.chunkedReq.map fun c => ⟨r.inputLen, r.outputLen, c.cachedLen⟩

def midPrefills (pending : List (PendingReq H)) : List MidPrefill :=
  pending.filterMap PendingReq.mid

/-- A request whose last chunk is in the batch. -/
def Req.footprint (q : Req H) : Footprint := ⟨q.inputIds.length + q.outputLen, q.cachedLen⟩

def finished (reqs : List (Req H)) : List (Req H) := reqs.filter fun q => !q.isChunked

/-- The admitted set: the running decodes and the prompts mid-prefill. -/
def admittedSet (running : List Running) (mids : List MidPrefill) : List Footprint :=
  running.map Running.footprint ++ mids.map MidPrefill.footprint

/-- The set after a pass: the prompts whose last chunk it scheduled are neither in
the queue any more nor running yet. -/
def admittedAfter (running : List Running) (res : PassResult σ H) : List Footprint :=
  admittedSet running (midPrefills res.pending) ++ (finished res.reqs).map Req.footprint

/-- What the set owes fits in what the pool can give. -/
def Fits (ops : PrefillOps σ H) (s : σ) (fs : List Footprint) : Prop :=
  ((owedPages ops.pageSize fs * ops.pageSize : Nat) : Int) ≤ ops.availableSize s

instance (ops : PrefillOps σ H) (s : σ) (fs : List Footprint) : Decidable (Fits ops s fs) :=
  inferInstanceAs (Decidable (_ ≤ _))

theorem standingReservation_eq (pending : List (PendingReq H)) :
    standingReservation pending = ((midPrefills pending).map MidPrefill.standing).sum := by
  induction pending with
  | nil => rfl
  | cons r pending ih =>
    rw [standingReservation, List.map_cons, List.sum_cons]
    rw [standingReservation] at ih
    cases hc : r.chunkedReq with
    | none =>
      have hm : r.mid = none := by rw [PendingReq.mid, hc]; rfl
      rw [midPrefills, List.filterMap_cons, hm, ih, Nat.zero_add]
      rfl
    | some c =>
      have hm : r.mid = some ⟨r.inputLen, r.outputLen, c.cachedLen⟩ := by
        rw [PendingReq.mid, hc]; rfl
      rw [midPrefills, List.filterMap_cons, hm, ih]
      rfl

-- ---------------------------------------------------------------------------
-- What the pools do
-- ---------------------------------------------------------------------------

/-- `s'` has no less to give than `s`, now and after letting go of any prefix. -/
def PrefillOps.Grows (ops : PrefillOps σ H) (s s' : σ) : Prop :=
  ops.availableSize s ≤ ops.availableSize s' ∧
    ∀ h, ops.availableSize (ops.unlock s h) ≤ ops.availableSize (ops.unlock s' h)

theorem PrefillOps.Grows.trans {ops : PrefillOps σ H} {s s' s'' : σ} (h : ops.Grows s s')
    (h' : ops.Grows s' s'') : ops.Grows s s'' :=
  ⟨h.1.trans h'.1, fun k => (h.2 k).trans (h'.2 k)⟩

structure PrefillOps.Lawful (ops : PrefillOps σ H) : Prop where
  page_pos : 0 < ops.pageSize
  pages : ∀ s, (ops.pageSize : Int) ∣ ops.availableSize s
  matchReq : ∀ s r, ops.availableSize s ≤ ops.availableSize (ops.matchReq s r).1
  unlock : ∀ s h, ops.availableSize s ≤ ops.availableSize (ops.unlock (ops.lock s h) h)
  reserve : ∀ s n, ops.Grows s (ops.reserveMambaSlots s n).1
  seat : ∀ s h, ops.Grows s (ops.seat s h).1
  alloc : ∀ s n, ops.Grows s (ops.allocMamba s n).1
  freeTable : ∀ s i, ops.availableSize s ≤ ops.availableSize (ops.freeTable s i)
  freeMamba : ∀ s l, ops.availableSize s ≤ ops.availableSize (ops.freeMamba s l)
  commitChunk : ∀ s q, ops.availableSize s ≤ ops.availableSize (ops.commitChunkSnapshot s q).1
  commitBoundary : ∀ s p q b,
    ops.availableSize s ≤ ops.availableSize (ops.commitPrefixBoundary s p q b).1
  commitChunk_cachedLen : ∀ s q, (ops.commitChunkSnapshot s q).2.cachedLen = q.cachedLen
  commitBoundary_req : ∀ s p q b,
    (ops.commitPrefixBoundary s p q b).2.2.isChunked = q.isChunked ∧
      (ops.commitPrefixBoundary s p q b).2.2.footprint = q.footprint

namespace PrefillAdder

variable {ops : PrefillOps σ H} {a : PrefillAdder σ H} {r : PendingReq H}

/-- A lane that took nothing: the reservation is the same and the pool no smaller. -/
structure Kept (ops : PrefillOps σ H) (a a' : PrefillAdder σ H) : Prop where
  reservedSize : a'.reservedSize = a.reservedSize
  available : ops.availableSize a.pools ≤ ops.availableSize a'.pools

theorem matchReq_kept (hl : ops.Lawful) : Kept ops a (a.matchReq ops r).1 := by
  rw [matchReq]
  split
  · exact ⟨rfl, Int.le_refl _⟩
  · exact ⟨rfl, hl.matchReq _ _⟩

theorem reserveStates_grows (hl : ops.Lawful) (a : PrefillAdder σ H) :
    (a.reserveStates ops).1.reservedSize = a.reservedSize ∧
      ops.Grows a.pools (a.reserveStates ops).1.pools := by
  rw [reserveStates]
  split
  · dsimp only
    split
    · exact ⟨rfl, hl.reserve _ _⟩
    · exact ⟨rfl, hl.reserve _ _⟩
  · exact ⟨rfl, Int.le_refl _, fun _ => Int.le_refl _⟩

theorem takeResources_spec (hl : ops.Lawful) (a : PrefillAdder σ H) (mr : MatchResult H) :
    (a.takeResources ops mr).1.reservedSize = a.reservedSize ∧
      (a.takeResources ops mr).2.cacheHandle = mr.cudaHandle ∧
      ops.Grows a.pools (a.takeResources ops mr).1.pools := by
  rw [takeResources]
  dsimp only
  split
  · exact ⟨rfl, rfl, (hl.seat _ _).trans ((hl.alloc _ _).trans (hl.alloc _ _))⟩
  · exact ⟨rfl, rfl, hl.seat _ _⟩

/-- What a fresh admission has established before its first chunk is sized. -/
structure Admissible (ops : PrefillOps σ H) (a : PrefillAdder σ H) (r : PendingReq H)
    (a' : PrefillAdder σ H) (res : Resource H) : Prop where
  reservedSize : a'.reservedSize = a.reservedSize
  gate : ((kvReservationSize ops (r.inputLen + r.outputLen) (ops.cachedLen res.cacheHandle) +
    a.reservedSize : Nat) : Int) ≤ ops.availableSize a'.pools
  undo : ops.availableSize a.pools ≤ ops.availableSize (ops.unlock a'.pools res.cacheHandle)

theorem tryAllocateOne_spec (hl : ops.Lawful) (a : PrefillAdder σ H) (r : PendingReq H) :
    (∀ res, (a.tryAllocateOne ops r).2 = some res →
        Admissible ops a r (a.tryAllocateOne ops r).1 res) ∧
      ((a.tryAllocateOne ops r).2 = none → Kept ops a (a.tryAllocateOne ops r).1) := by
  have hm := matchReq_kept (a := a) (r := r) hl
  rw [tryAllocateOne]
  split
  · exact ⟨nofun, fun _ => ⟨rfl, Int.le_refl _⟩⟩
  dsimp only
  generalize a.matchReq ops r = m at hm
  split
  · exact ⟨nofun, fun _ => ⟨hm.reservedSize, hm.available⟩⟩
  -- the prefix is locked; letting go of it restores the budget, also after the
  -- state slots were reserved
  have hundo := hl.unlock m.1.pools m.2.cudaHandle
  generalize hlk : ({ m.1 with
      pools := ops.lock m.1.pools m.2.cudaHandle
      uses := m.1.uses ++ [(m.1.pools, m.2)] } : PrefillAdder σ H) = k
  have hkp : k.pools = ops.lock m.1.pools m.2.cudaHandle := by rw [← hlk]
  have hkr : k.reservedSize = a.reservedSize := by rw [← hlk]; exact hm.reservedSize
  rw [← hkp] at hundo
  split
  · exact ⟨nofun, fun _ => ⟨hkr, hm.available.trans hundo⟩⟩
  rename_i hgate
  rw [Bool.not_eq_true, Bool.not_eq_false', kvGateOk, decide_eq_true_iff, hkr] at hgate
  obtain ⟨hrr, hgrow⟩ := reserveStates_grows hl k
  generalize k.reserveStates ops = q at hrr hgrow
  have hundo' := hm.available.trans (hundo.trans (hgrow.2 m.2.cudaHandle))
  split
  · exact ⟨nofun, fun _ => ⟨hrr.trans hkr, hundo'⟩⟩
  split
  · exact ⟨nofun, fun _ => ⟨hrr.trans hkr, hundo'⟩⟩
  refine ⟨fun res hres => ?_, nofun⟩
  cases hres
  obtain ⟨htr, hth, htg⟩ := takeResources_spec hl (q.1.refuse .chunk) m.2
  refine ⟨htr.trans (hrr.trans hkr), ?_, ?_⟩
  · rw [hth]
    exact hgate.trans (hgrow.1.trans htg.1)
  · rw [hth]
    exact hundo'.trans (htg.2 _)

/-- `_add_one_req` touches no pool, and charges a fresh prompt its whole page span. -/
theorem addOneReq_spec {c : Carry H} {k : Option Nat} {a' : PrefillAdder σ H}
    {o : Option (Req H)} (hadd : a.addOneReq ops r c k = some (a', o)) :
    a'.pools = a.pools ∧ (o = none → a' = a) ∧
      ∀ q, o = some q →
        a'.reservedSize = (if r.chunkedReq.isNone then a.reservedSize +
            kvReservationSize ops (r.inputLen + r.outputLen) c.cachedLen else a.reservedSize) ∧
          q.cachedLen = c.cachedLen ∧ q.cacheHandle = c.cacheHandle ∧
          (q.isChunked = false → q.footprint = ⟨r.inputLen + r.outputLen, c.cachedLen⟩) := by
  rw [addOneReq] at hadd
  split at hadd
  · cases hadd
    exact ⟨rfl, fun _ => rfl, nofun⟩
  · cases hadd
  rename_i size _
  cases hadd
  refine ⟨rfl, nofun, fun q hq => ?_⟩
  cases hq
  refine ⟨rfl, rfl, rfl, fun hch => ?_⟩
  rw [decide_eq_false_iff_not] at hch
  have hlen : (r.inputIds.take (c.cachedLen + (size + 1))).length = r.inputLen := by
    rw [List.length_take, PendingReq.inputLen]
    rw [PendingReq.inputLen] at hch
    omega
  rw [Req.footprint, hlen]

/-- What one lane of the pass did. -/
inductive LaneResult (ops : PrefillOps σ H) (a : PrefillAdder σ H) (r : PendingReq H)
    (a' : PrefillAdder σ H) (r' : PendingReq H) : Option (Req H) → Prop
  /-- Nothing was admitted. -/
  | refused (hk : Kept ops a a') (hmid : r'.mid = r.mid) : LaneResult ops a r a' r' none
  /-- The next chunk of a prompt mid-prefill. -/
  | chunk (q : Req H) (m : MidPrefill) (hk : Kept ops a a') (hm : r.mid = some m)
      (hlen : r'.inputLen = r.inputLen ∧ r'.outputLen = r.outputLen)
      (hcached : q.cachedLen = m.cachedLen)
      (hfoot : q.isChunked = false → q.footprint = m.footprint) : LaneResult ops a r a' r' (some q)
  /-- A fresh prompt, charged its page span. -/
  | fresh (q : Req H) (hm : r.mid = none) (hr : r' = r)
      (hres : a'.reservedSize = a.reservedSize +
        kvReservationSize ops (r.inputLen + r.outputLen) q.cachedLen)
      (hgate : (a'.reservedSize : Int) ≤ ops.availableSize a'.pools)
      (hfoot : q.isChunked = false → q.footprint = ⟨r.inputLen + r.outputLen, q.cachedLen⟩) :
      LaneResult ops a r a' r' (some q)

theorem addChunk_spec (hl : ops.Lawful) {chunked : Req H} (hc : r.chunkedReq = some chunked)
    {k : Option Nat} {a' : PrefillAdder σ H} {r' : PendingReq H} {o : Option (Req H)}
    (hadd : a.addChunk ops r chunked k = some (a', r', o)) : LaneResult ops a r a' r' o := by
  have hmid : r.mid = some ⟨r.inputLen, r.outputLen, chunked.cachedLen⟩ := by
    rw [PendingReq.mid, hc]; rfl
  have hcl := hl.commitChunk_cachedLen a.pools chunked
  have hav := hl.commitChunk a.pools chunked
  rw [addChunk] at hadd
  dsimp only at hadd
  generalize ops.commitChunkSnapshot a.pools chunked = c at hadd hcl hav
  have hmid' : ({ r with chunkedReq := some c.2 } : PendingReq H).mid = r.mid := by
    rw [hmid, ← hcl]; rfl
  obtain ⟨⟨b, o'⟩, hone, heq⟩ := Option.map_eq_some_iff.mp hadd
  obtain ⟨hpools, hnone, hsome⟩ := addOneReq_spec hone
  dsimp only at heq
  cases o' with
  | none =>
    cases heq
    rw [hnone rfl]
    exact .refused ⟨rfl, hav⟩ hmid'
  | some q =>
    obtain ⟨hres, hcached, -, hfoot⟩ := hsome q rfl
    have hb : Kept ops a b := ⟨hres, by rw [hpools]; exact hav⟩
    dsimp only at heq
    split at heq
    · cases heq
      obtain ⟨hch, hfp⟩ := hl.commitBoundary_req b.pools c.2 q c.2.cachedLen
      refine .chunk _ _ ⟨hb.reservedSize, hb.available.trans (hl.commitBoundary _ _ _ _)⟩ hmid
        ⟨rfl, rfl⟩ ?_ fun hq => ?_
      · exact (congrArg Footprint.cachedLen hfp).trans (hcached.trans hcl)
      · rw [hch] at hq
        rw [hfp, hfoot hq, hcl]
        rfl
    · cases heq
      refine .chunk q _ hb hmid ⟨rfl, rfl⟩ (hcached.trans hcl) fun hq => ?_
      rw [hfoot hq, hcl]
      rfl

theorem addFresh_spec (hl : ops.Lawful) (hc : r.chunkedReq = none) {k : Option Nat}
    {a' : PrefillAdder σ H} {r' : PendingReq H} {o : Option (Req H)}
    (hadd : a.addFresh ops r k = some (a', r', o)) : LaneResult ops a r a' r' o := by
  have hmid : r.mid = none := by rw [PendingReq.mid, hc]; rfl
  obtain ⟨hsome, hnone⟩ := tryAllocateOne_spec hl a r
  rw [addFresh] at hadd
  generalize a.tryAllocateOne ops r = t at hadd hsome hnone
  split at hadd
  · rename_i hres
    cases hadd
    exact .refused (hnone hres) rfl
  rename_i res hres
  have hadm := hsome res hres
  obtain ⟨⟨b, o'⟩, hone, heq⟩ := Option.map_eq_some_iff.mp hadd
  obtain ⟨hpools, hnone', hsome'⟩ := addOneReq_spec hone
  dsimp only at heq
  cases o' with
  | none =>
    cases heq
    rw [hnone' rfl]
    refine .refused ⟨hadm.reservedSize, hadm.undo.trans ((hl.freeTable _ res.tableIdx).trans ?_)⟩ rfl
    rw [giveBack]
    dsimp only
    split
    · exact hl.freeMamba _ _
    · exact Int.le_refl _
  | some q =>
    cases heq
    obtain ⟨hrs, hcached, -, hfoot⟩ := hsome' q rfl
    rw [hc, Option.isNone_none, if_pos rfl] at hrs
    refine .fresh q hmid rfl ?_ ?_ ?_
    · rw [hrs, hadm.reservedSize, hcached]
    · rw [hrs, hadm.reservedSize, hpools, Nat.add_comm]
      exact hadm.gate
    · rw [hcached]
      exact hfoot

theorem tryAddOne_spec (hl : ops.Lawful) {k : Option Nat} {a' : PrefillAdder σ H}
    {r' : PendingReq H} {o : Option (Req H)} (hadd : a.tryAddOne ops r k = some (a', r', o)) :
    LaneResult ops a r a' r' o := by
  have hrefuse : ∀ {o' : Option (Req H)}, LaneResult ops (a.refuse .none) r a' r' o' →
      LaneResult ops a r a' r' o' := by
    intro o' h
    cases h with
    | refused hk hm => exact .refused ⟨hk.1, hk.2⟩ hm
    | chunk q m hk hm hl hc hf => exact .chunk q m ⟨hk.1, hk.2⟩ hm hl hc hf
    | fresh q hm hr hres hg hf => exact .fresh q hm hr hres hg hf
  rw [tryAddOne] at hadd
  split at hadd
  · cases hadd
    exact .refused ⟨rfl, Int.le_refl _⟩ rfl
  split at hadd
  · rename_i hc
    exact hrefuse (addChunk_spec hl hc hadd)
  · rename_i hc
    exact hrefuse (addFresh_spec hl hc hadd)

end PrefillAdder

-- ---------------------------------------------------------------------------
-- The pass
-- ---------------------------------------------------------------------------

def midOwed (ps : Nat) (pending : List (PendingReq H)) : Nat :=
  owedPages ps ((midPrefills pending).map MidPrefill.footprint)

def finishedOwed (ps : Nat) (reqs : List (Req H)) : Nat :=
  owedPages ps ((finished reqs).map Req.footprint)

@[simp] theorem midOwed_nil (ps : Nat) : midOwed ps ([] : List (PendingReq H)) = 0 := rfl

@[simp] theorem midOwed_append (ps : Nat) (l l' : List (PendingReq H)) :
    midOwed ps (l ++ l') = midOwed ps l + midOwed ps l' := by
  simp [midOwed, midPrefills]

@[simp] theorem finishedOwed_append (ps : Nat) (l l' : List (Req H)) :
    finishedOwed ps (l ++ l') = finishedOwed ps l + finishedOwed ps l' := by
  simp [finishedOwed, finished]

theorem midOwed_fresh (ps : Nat) {r : PendingReq H} (h : r.mid = none)
    (l : List (PendingReq H)) : midOwed ps (r :: l) = midOwed ps l := by
  rw [midOwed, midPrefills, List.filterMap_cons, h]
  rfl

theorem midOwed_mid (ps : Nat) {r : PendingReq H} {m : MidPrefill} (h : r.mid = some m)
    (l : List (PendingReq H)) :
    midOwed ps (r :: l) = m.footprint.pages ps + midOwed ps l := by
  rw [midOwed, midPrefills, List.filterMap_cons, h, List.map_cons, owedPages_cons]
  rfl

theorem midOwed_congr (ps : Nat) {r r' : PendingReq H} (h : r'.mid = r.mid)
    (l : List (PendingReq H)) : midOwed ps (r' :: l) = midOwed ps (r :: l) := by
  cases hm : r.mid with
  | none => rw [midOwed_fresh ps hm, midOwed_fresh ps (h.trans hm)]
  | some m => rw [midOwed_mid ps hm, midOwed_mid ps (h.trans hm)]

theorem finishedOwed_chunked (ps : Nat) {q : Req H} (h : q.isChunked = true) :
    finishedOwed ps [q] = 0 := by
  simp [finishedOwed, finished, h]

theorem finishedOwed_last (ps : Nat) {q : Req H} (h : q.isChunked = false) :
    finishedOwed ps [q] = q.footprint.pages ps := by
  simp [finishedOwed, finished, h]

/-- What the loop keeps, `todo` being the queue it has not reached: the reservation
has grown by exactly what the set owes more than `owed₀`, and the last admission
left it within `available_size`. -/
structure LoopInv (ops : PrefillOps σ H) (avail₀ : Int) (owed₀ reserved₀ : Nat) (p : Pass σ H)
    (todo : List (PendingReq H)) : Prop where
  owed : (midOwed ops.pageSize p.chunkedList + midOwed ops.pageSize p.remaining +
      midOwed ops.pageSize todo + finishedOwed ops.pageSize p.reqs) * ops.pageSize + reserved₀ =
    owed₀ * ops.pageSize + p.adder.reservedSize
  gate : (p.adder.reservedSize = reserved₀ ∧ avail₀ ≤ ops.availableSize p.adder.pools) ∨
    (p.adder.reservedSize : Int) ≤ ops.availableSize p.adder.pools
  lanes : p.reqs = [] → p.chunkedList = []

namespace LoopInv

variable {ops : PrefillOps σ H} {avail₀ : Int} {owed₀ reserved₀ : Nat} {p : Pass σ H}
  {r : PendingReq H} {rest : List (PendingReq H)}

/-- Passing a lane over. -/
theorem keep (h : LoopInv ops avail₀ owed₀ reserved₀ p (r :: rest)) {a' : PrefillAdder σ H}
    {r' : PendingReq H} (hk : PrefillAdder.Kept ops p.adder a') (hmid : r'.mid = r.mid) :
    LoopInv ops avail₀ owed₀ reserved₀ ({ p with adder := a' }.keep r') rest := by
  have howed := h.owed
  rw [← midOwed_congr ops.pageSize hmid, ← List.singleton_append, midOwed_append] at howed
  refine ⟨?_, h.gate.imp (fun hg => ⟨hk.reservedSize.trans hg.1, hg.2.trans hk.available⟩)
    fun hg => ?_, h.lanes⟩
  · show (_ + midOwed ops.pageSize (p.remaining ++ [r']) + _ + _) * _ + _ = _ + a'.reservedSize
    rw [hk.reservedSize, ← howed, midOwed_append]
    simp only [Nat.add_assoc]
    rfl
  · show ((a'.reservedSize : Nat) : Int) ≤ _
    rw [hk.reservedSize]
    exact hg.trans hk.available

/-- Stopping: the rest of the queue stays. -/
theorem stop (h : LoopInv ops avail₀ owed₀ reserved₀ p rest) (b : Bool) :
    LoopInv ops avail₀ owed₀ reserved₀
      { p with remaining := p.remaining ++ rest, stoppedForLaneCap := b } [] := by
  refine ⟨?_, h.gate, h.lanes⟩
  have howed := h.owed
  show (_ + midOwed ops.pageSize (p.remaining ++ rest) + _ + _) * _ + _ = _
  rw [midOwed_append, midOwed_nil, Nat.add_zero, ← Nat.add_assoc]
  exact howed

/-- The lane's footprint, mid-prefill or finished, after it was admitted as `q`. -/
theorem admitted_owed (ps : Nat) {m : MidPrefill} {r' : PendingReq H} {q : Req H}
    (hin : r'.inputLen + r'.outputLen = m.inputLen + m.outputLen) (hc : q.cachedLen = m.cachedLen)
    (hfoot : q.isChunked = false → q.footprint = m.footprint) :
    midOwed ps (if q.isChunked then [{ r' with chunkedReq := some q }] else []) +
      finishedOwed ps [q] = m.footprint.pages ps := by
  by_cases hq : q.isChunked = true
  · have hmid : ({ r' with chunkedReq := some q } : PendingReq H).mid =
        some ⟨r'.inputLen, r'.outputLen, q.cachedLen⟩ := rfl
    rw [if_pos hq, finishedOwed_chunked ps hq, midOwed_mid ps hmid, midOwed_nil,
      MidPrefill.footprint, MidPrefill.footprint, hin, hc]
    rfl
  · rw [if_neg hq, finishedOwed_last ps (Bool.eq_false_iff.mpr hq),
      hfoot (Bool.eq_false_iff.mpr hq), midOwed_nil, Nat.zero_add]

theorem admitted_chunkedList (ops : PrefillOps σ H) (p : Pass σ H) (r' : PendingReq H)
    (w : Bool) (q : Req H) : (p.admitted ops r' w q).chunkedList =
      p.chunkedList ++ if q.isChunked then [{ r' with chunkedReq := some q }] else [] := by
  rw [Pass.admitted]
  dsimp only
  split
  · rfl
  · rw [List.append_nil]

/-- Admitting a lane. -/
theorem seat (h : LoopInv ops avail₀ owed₀ reserved₀ p (r :: rest))
    {a' : PrefillAdder σ H} {r' : PendingReq H} {q : Req H}
    (hlane : PrefillAdder.LaneResult ops p.adder r a' r' (some q)) (w : Bool) :
    LoopInv ops avail₀ owed₀ reserved₀ ({ p with adder := a' }.admitted ops r' w q) rest := by
  have howed := h.owed
  have hlanes : ({ p with adder := a' }.admitted ops r' w q).reqs = [] →
      ({ p with adder := a' }.admitted ops r' w q).chunkedList = [] := fun hnil =>
    absurd hnil (List.append_ne_nil_of_right_ne_nil _ (List.cons_ne_nil _ _))
  -- with the row, the pass owes what is left of its prefill
  have hnew : ∀ m : MidPrefill, r'.inputLen + r'.outputLen = m.inputLen + m.outputLen →
      q.cachedLen = m.cachedLen → (q.isChunked = false → q.footprint = m.footprint) →
      midOwed ops.pageSize ({ p with adder := a' }.admitted ops r' w q).chunkedList +
        finishedOwed ops.pageSize ({ p with adder := a' }.admitted ops r' w q).reqs =
      midOwed ops.pageSize p.chunkedList + finishedOwed ops.pageSize p.reqs +
        m.footprint.pages ops.pageSize := by
    intro m hin hc hfoot
    rw [admitted_chunkedList, midOwed_append]
    show _ + _ + finishedOwed ops.pageSize (p.reqs ++ [q]) = _
    rw [finishedOwed_append, ← admitted_owed ops.pageSize hin hc hfoot]
    dsimp only
    omega
  cases hlane with
  | chunk _ m hk hm hlen hcached hfoot =>
    have hin : r'.inputLen + r'.outputLen = m.inputLen + m.outputLen := by
      rw [hlen.1, hlen.2]
      rw [PendingReq.mid] at hm
      obtain ⟨c, -, rfl⟩ := Option.map_eq_some_iff.mp hm
      rfl
    have hnew := hnew m hin hcached hfoot
    rw [midOwed_mid ops.pageSize hm] at howed
    refine ⟨?_, h.gate.imp (fun hg => ⟨hk.reservedSize.trans hg.1, hg.2.trans hk.available⟩)
      fun hg => ?_, hlanes⟩
    · show (_ + midOwed ops.pageSize p.remaining + _ + _) * _ + _ = _ + a'.reservedSize
      rw [hk.reservedSize, ← howed]
      congr 2
      omega
    · show ((a'.reservedSize : Nat) : Int) ≤ _
      rw [hk.reservedSize]
      exact hg.trans hk.available
  | fresh _ hm hr hres hgate hfoot =>
    subst hr
    have hnew := hnew ⟨r'.inputLen, r'.outputLen, q.cachedLen⟩ rfl rfl hfoot
    rw [midOwed_fresh ops.pageSize hm] at howed
    refine ⟨?_, .inr hgate, hlanes⟩
    show (_ + midOwed ops.pageSize p.remaining + _ + _) * _ + _ = _ + a'.reservedSize
    have hspan : (midOwed ops.pageSize ({ p with adder := a' }.admitted ops r' w q).chunkedList +
        midOwed ops.pageSize p.remaining + midOwed ops.pageSize rest +
        finishedOwed ops.pageSize ({ p with adder := a' }.admitted ops r' w q).reqs) =
        (midOwed ops.pageSize p.chunkedList + midOwed ops.pageSize p.remaining +
          midOwed ops.pageSize rest + finishedOwed ops.pageSize p.reqs) +
        (divCeil (r'.inputLen + r'.outputLen) ops.pageSize - divCeil q.cachedLen ops.pageSize) := by
      have : (⟨r'.inputLen, r'.outputLen, q.cachedLen⟩ : MidPrefill).footprint.pages ops.pageSize =
        divCeil (r'.inputLen + r'.outputLen) ops.pageSize - divCeil q.cachedLen ops.pageSize := rfl
      omega
    rw [hspan, Nat.add_mul, hres, PrefillAdder.kvReservationSize]
    omega

end LoopInv

theorem passLoop_inv {cfg : PrefillConfig} {ops : PrefillOps σ H} (hl : ops.Lawful)
    {cap seatable : Nat} {avail₀ : Int} {owed₀ reserved₀ : Nat} {todo : List (PendingReq H)}
    {p p' : Pass σ H} (h : LoopInv ops avail₀ owed₀ reserved₀ p todo)
    (hrun : passLoop cfg ops cap seatable todo p = some p') :
    LoopInv ops avail₀ owed₀ reserved₀ p' [] := by
  induction todo generalizing p with
  | nil =>
    cases hrun
    exact h
  | cons r rest ih =>
    rw [passLoop] at hrun
    split at hrun
    · have hk : PrefillAdder.Kept ops p.adder p.adder := ⟨rfl, Int.le_refl _⟩
      exact ih (h.keep hk rfl) hrun
    obtain ⟨⟨a', r', o⟩, hadd, hrun⟩ := Option.bind_eq_some_iff.mp hrun
    have hlane := PrefillAdder.tryAddOne_spec hl hadd
    dsimp only at hrun
    cases o with
    | some q =>
      have h' := h.seat hlane r.chunkedReq.isSome
      dsimp only at hrun
      split at hrun
      · cases hrun
        exact h'.stop _
      · exact ih h' hrun
    | none =>
      cases hlane with
      | refused hk hmid =>
        have h' := h.keep hk hmid
        dsimp only at hrun
        split at hrun
        · exact ih h' hrun
        · cases hrun
          have hs := h'.stop p.stoppedForLaneCap
          rw [Pass.keep] at hs
          simpa only [List.append_assoc, List.singleton_append] using hs

theorem wouldSeat_available {ops : PrefillOps σ H} (hl : ops.Lawful) (a : PrefillAdder σ H)
    (r : PendingReq H) (tableFree mambaFree : Int) :
    ops.availableSize a.pools ≤
      ops.availableSize (a.wouldSeat ops r tableFree mambaFree).1.pools := by
  have hm := (PrefillAdder.matchReq_kept (a := a) (r := r) hl).available
  rw [PrefillAdder.wouldSeat]
  split
  · split
    · exact Int.le_refl _
    · exact Int.le_refl _
  split
  · exact Int.le_refl _
  dsimp only
  generalize a.matchReq ops r = m at hm
  split
  · exact hm
  split
  · exact hm
  split
  · exact hm
  split
  · exact hm
  · exact hm

theorem seatLoop_available {cfg : PrefillConfig} {ops : PrefillOps σ H} (hl : ops.Lawful)
    {cap : Nat} (todo : List (PendingReq H)) (scan : PrefillAdder σ H)
    (tableFree mambaFree : Int) (inflight seatable : Nat) :
    ops.availableSize scan.pools ≤ ops.availableSize
      (seatLoop cfg ops cap todo scan tableFree mambaFree inflight seatable).1.pools := by
  induction todo generalizing scan tableFree mambaFree inflight seatable with
  | nil => exact Int.le_refl _
  | cons r rest ih =>
    have hw := wouldSeat_available hl scan r tableFree mambaFree
    rw [seatLoop]
    dsimp only
    split
    · exact ih _ _ _ _ _
    split
    · exact hw
    split
    · exact hw
    split
    · exact hw.trans (ih _ _ _ _ _)
    · exact hw.trans (ih _ _ _ _ _)

/-- A pass starts its loop with nothing charged beyond the set already admitted. -/
theorem start_inv {cfg : PrefillConfig} {ops : PrefillOps σ H} (s : σ) (running : List Running)
    (pending : List (PendingReq H)) (budget : Nat) {adder : PrefillAdder σ H}
    (hk : PrefillAdder.Kept ops (newAdder cfg ops s running pending budget) adder) :
    LoopInv ops (ops.availableSize s) (midOwed ops.pageSize pending)
      (inflightTokens ops.pageSize running + standingReservation pending)
      ⟨adder, chunkedCount pending, [], [], [], [], false⟩ pending := by
  refine ⟨?_, .inl ⟨hk.reservedSize, hk.available⟩, fun _ => rfl⟩
  show (0 + 0 + _ + 0) * _ + _ = _ + adder.reservedSize
  rw [hk.reservedSize, Nat.zero_add, Nat.add_zero]
  rfl

theorem schedule_inv {cfg : PrefillConfig} {ops : PrefillOps σ H} (hl : ops.Lawful) {s : σ}
    {running : List Running} {pending : List (PendingReq H)} {budget : Nat}
    {res : PassResult σ H} (hne : pending ≠ [])
    (hrun : scheduleNextBatch cfg ops s running pending budget = some res) :
    ∃ p, LoopInv ops (ops.availableSize s) (midOwed ops.pageSize pending)
        (inflightTokens ops.pageSize running + standingReservation pending) p [] ∧
      res.pools = p.adder.pools ∧
      midOwed ops.pageSize res.pending + finishedOwed ops.pageSize res.reqs =
        midOwed ops.pageSize p.chunkedList + midOwed ops.pageSize p.remaining +
          finishedOwed ops.pageSize p.reqs := by
  rw [scheduleNextBatch, if_neg hne] at hrun
  obtain ⟨p, hloop, hres⟩ := Option.map_eq_some_iff.mp hrun
  -- the seat scan walks the tree on its own reservations
  have hseat : PrefillAdder.Kept ops (newAdder cfg ops s running pending budget)
      (if cfg.interleaveChunks ∧ 1 < pending.length then
        seatableLanes cfg ops (newAdder cfg ops s running pending budget) pending
          (laneCap cfg pending budget) (chunkedCount pending)
      else (newAdder cfg ops s running pending budget, 0)).1 := by
    split
    · exact ⟨rfl, seatLoop_available hl _ _ _ _ _ _⟩
    · exact ⟨rfl, Int.le_refl _⟩
  have hinv := passLoop_inv hl (start_inv s running pending budget hseat) hloop
  refine ⟨p, hinv, by rw [← hres], ?_⟩
  rw [← hres]
  dsimp only
  split
  · rename_i hnil
    rw [hinv.lanes hnil, midOwed_nil, Nat.zero_add]
  split
  · rw [midOwed_append, Nat.add_comm (midOwed _ p.remaining)]
  · rw [midOwed_append]

-- ---------------------------------------------------------------------------
-- When a pass keeps the set finishable
-- ---------------------------------------------------------------------------

/-- A pass over any pools and any queue with these prompts mid-prefill keeps what
the admitted set owes within what is available. -/
def PassKeeps (ps : Nat) (running : List Running) (mids : List MidPrefill) : Prop :=
  ∀ (σ H : Type) (ops : PrefillOps σ H) (cfg : PrefillConfig) (s : σ)
    (pending : List (PendingReq H)) (budget : Nat) (res : PassResult σ H),
    ops.Lawful → ops.pageSize = ps → midPrefills pending = mids →
    scheduleNextBatch cfg ops s running pending budget = some res →
    Fits ops s (admittedSet running mids) → Fits ops res.pools (admittedAfter running res)

/-- What a pass charges for the set admitted before it, in tokens. -/
def charged (ps : Nat) (running : List Running) (mids : List MidPrefill) : Nat :=
  inflightTokens ps running + (mids.map MidPrefill.standing).sum

/-- The pages the set owes are no more than the pages its charge spans. -/
def Covered (ps : Nat) (running : List Running) (mids : List MidPrefill) : Prop :=
  owedPages ps (admittedSet running mids) ≤ divCeil (charged ps running mids) ps

instance (ps : Nat) (running : List Running) (mids : List MidPrefill) :
    Decidable (Covered ps running mids) := inferInstanceAs (Decidable (_ ≤ _))

theorem owedPages_after {ps : Nat} (running : List Running) (res : PassResult σ H) :
    owedPages ps (admittedAfter running res) =
      owedPages ps (running.map Running.footprint) +
        (midOwed ps res.pending + finishedOwed ps res.reqs) := by
  rw [admittedAfter, admittedSet, owedPages_append, owedPages_append, Nat.add_assoc]
  rfl

/-- If the charge before the pass covers what was owed, a reservation within the
pool means that what is owed now is within the pool. -/
theorem pages_fit {ps ro mo oe r₀ r k : Nat} (hps : 0 < ps) (howed : oe * ps + r₀ = mo * ps + r)
    (hgate : r ≤ k * ps) (hcov : ro + mo ≤ divCeil r₀ ps) : ro + oe ≤ k := by
  have hsum : oe * ps + r₀ ≤ (mo + k) * ps := by
    rw [Nat.add_mul]
    omega
  have hle : oe ≤ mo + k := by
    refine Nat.le_of_mul_le_mul_right ?_ hps
    omega
  have hr₀ : r₀ ≤ (mo + k - oe) * ps := by
    rw [Nat.sub_mul]
    omega
  have := (divCeil_le_iff hps).mpr hr₀
  omega

theorem passKeeps_of_covered {ps : Nat} {running : List Running} {mids : List MidPrefill}
    (hcov : Covered ps running mids) : PassKeeps ps running mids := by
  intro σ H ops cfg s pending budget res hl hps hmids hrun hfit
  subst hps
  by_cases hne : pending = []
  · rw [scheduleNextBatch, if_pos hne, Option.some.injEq] at hrun
    subst hrun
    have hmids' : mids = [] := by rw [← hmids, hne]; rfl
    rw [Fits, owedPages_after]
    rw [Fits, hmids', admittedSet, List.map_nil, List.append_nil] at hfit
    exact hfit
  obtain ⟨p, hinv, hpools, howed⟩ := schedule_inv hl hne hrun
  have hstand : standingReservation pending = (mids.map MidPrefill.standing).sum := by
    rw [standingReservation_eq, hmids]
  have hmid : midOwed ops.pageSize pending =
      owedPages ops.pageSize (mids.map MidPrefill.footprint) := by
    rw [midOwed, hmids]
  have hinvo := hinv.owed
  rw [midOwed_nil, Nat.add_zero, ← howed, hstand, hmid] at hinvo
  rw [Fits, owedPages_after, hpools]
  rw [Fits, admittedSet, owedPages_append] at hfit
  rw [Covered, admittedSet, owedPages_append] at hcov
  generalize midOwed ops.pageSize res.pending + finishedOwed ops.pageSize res.reqs = oe at *
  rcases hinv.gate with ⟨hsame, havail⟩ | hgate
  · -- nothing fresh was admitted, so the same pages are owed
    rw [hsame, hstand] at hinvo
    have heq := Nat.eq_of_mul_eq_mul_right hl.page_pos (Nat.add_right_cancel hinvo)
    rw [heq]
    exact hfit.trans havail
  · obtain ⟨k, hk⟩ := hl.pages p.adder.pools
    have hpos : (0 : Int) < ops.pageSize := Int.natCast_pos.mpr hl.page_pos
    have hk0 : 0 ≤ k := by
      have hnn : (0 : Int) ≤ ops.pageSize * k := by
        rw [← hk]
        exact (Int.natCast_nonneg _).trans hgate
      exact Int.nonneg_of_mul_nonneg_right hnn hpos
    obtain ⟨k, rfl⟩ := Int.eq_ofNat_of_zero_le hk0
    rw [hk, ← Int.natCast_mul, Nat.mul_comm, Int.ofNat_le] at hgate ⊢
    exact Nat.mul_le_mul_left _ (pages_fit hl.page_pos hinvo hgate hcov)

-- ---------------------------------------------------------------------------
-- A pool of constant size
-- ---------------------------------------------------------------------------

/-- A cache without reuse over a pool with `avail` tokens to give. -/
def PrefillOps.flat (ps avail : Nat) : PrefillOps Unit Unit where
  pageSize := ps
  isHybrid := false
  swaPaged := false
  slidingWindowSize := 0
  prefillChunkAlign := 1
  chunkSnapshots := false
  cachedLen := fun _ => 0
  availableSize := fun _ => avail
  matchReq := fun s _ => (s, ⟨(), none⟩)
  lock := fun s _ => s
  unlock := fun s _ => s
  tableAvailable := fun _ => 1
  seat := fun s _ => (s, 0)
  freeTable := fun s _ => s
  numFreeSlots := fun _ => 0
  mambaAvailableSize := fun _ => 0
  reserveMambaSlots := fun s _ => (s, true)
  allocMamba := fun s _ => (s, [])
  freeMamba := fun s _ => s
  swaAvailableSize := fun _ => 0
  commitChunkSnapshot := fun s q => (s, q)
  commitPrefixBoundary := fun s p q _ => (s, p, q)

theorem flat_lawful {ps : Nat} (hps : 0 < ps) (k : Nat) : (PrefillOps.flat ps (k * ps)).Lawful where
  page_pos := hps
  pages := fun _ => Int.natCast_dvd_natCast.mpr (Nat.dvd_mul_left ps k)
  matchReq := fun _ _ => Int.le_refl _
  unlock := fun _ _ => Int.le_refl _
  reserve := fun _ _ => ⟨Int.le_refl _, fun _ => Int.le_refl _⟩
  seat := fun _ _ => ⟨Int.le_refl _, fun _ => Int.le_refl _⟩
  alloc := fun _ _ => ⟨Int.le_refl _, fun _ => Int.le_refl _⟩
  freeTable := fun _ _ => Int.le_refl _
  freeMamba := fun _ _ => Int.le_refl _
  commitChunk := fun _ _ => Int.le_refl _
  commitBoundary := fun _ _ _ _ => Int.le_refl _
  commitChunk_cachedLen := fun _ _ => rfl
  commitBoundary_req := fun _ _ _ _ => ⟨rfl, rfl⟩

/-- One lane a pass, nothing grouped, no cap in the way. -/
def PrefillConfig.plain (maxChunkedPrefills : Nat) : PrefillConfig :=
  ⟨false, 0, 0, maxChunkedPrefills, false⟩

/-- A prompt of `inputLen` tokens that has not been admitted. -/
def freshPrompt (uid inputLen outputLen : Nat) : PendingReq Unit :=
  ⟨uid, List.replicate inputLen 0, outputLen, none, [], none, false, none⟩

/-- A prompt with its first `cachedLen` tokens forwarded. -/
def MidPrefill.pending (m : MidPrefill) : PendingReq Unit :=
  { freshPrompt 0 m.inputLen m.outputLen with
    chunkedReq := some
      { uid := 0, isChunked := true, inputIds := [], tableIdx := 0, cachedLen := m.cachedLen,
        outputLen := m.outputLen, cacheHandle := (), linearSlotIdx := none, mambaPingPong := [],
        mambaNextTrackIdx := 0, mambaRestoreSrc := none, mambaLastTrackSeqlen := none,
        mambaBoundaryCopy := none, swaEvictedSeqlen := 0, hiddenStates := false } }

theorem mid_pending (m : MidPrefill) : m.pending.mid = some m := by
  show some (MidPrefill.mk (List.replicate m.inputLen 0).length m.outputLen m.cachedLen) = some m
  rw [List.length_replicate]

theorem midPrefills_pending (mids : List MidPrefill) :
    midPrefills (mids.map MidPrefill.pending) = mids := by
  induction mids with
  | nil => rfl
  | cons m mids ih =>
    rw [midPrefills, List.map_cons, List.filterMap_cons, mid_pending]
    exact congrArg _ ih

/-- The request a one-token prompt is admitted as. -/
def oneToken : Req Unit :=
  { uid := 0, isChunked := false, inputIds := [0], tableIdx := 0, cachedLen := 0, outputLen := 1,
    cacheHandle := (), linearSlotIdx := none, mambaPingPong := [], mambaNextTrackIdx := 0,
    mambaRestoreSrc := none, mambaLastTrackSeqlen := none, mambaBoundaryCopy := none,
    swaEvictedSeqlen := 0, hiddenStates := false }

section flat

open PrefillAdder

theorem flat_gate {ps k : Nat} (hps : 0 < ps) {a : PrefillAdder Unit Unit}
    (hgate : divCeil 2 ps * ps + a.reservedSize ≤ k * ps) :
    a.kvGateOk (.flat ps (k * ps)) (kvReservationSize (.flat ps (k * ps)) 2 0) = true := by
  have hz : kvReservationSize (.flat ps (k * ps)) 2 0 = divCeil 2 ps * ps := by
    show (divCeil 2 ps - divCeil 0 ps) * ps = _
    rw [divCeil_zero hps, Nat.sub_zero]
  rw [kvGateOk, hz]
  exact decide_eq_true (Int.ofNat_le.mpr hgate)

theorem flat_allocates {ps k : Nat} (hps : 0 < ps) {a : PrefillAdder Unit Unit}
    (hmemo : a.matchMemo = []) (hgate : divCeil 2 ps * ps + a.reservedSize ≤ k * ps) :
    a.tryAllocateOne (.flat ps (k * ps)) (freshPrompt 0 1 1) =
      ({ a with
          refusal := .chunk
          matchMemo := [(0, ⟨(), none⟩)]
          uses := a.uses ++ [(a.pools, ⟨(), none⟩)] }, some ⟨(), 0, none, [], none⟩) := by
  have hmatch : a.matchReq (.flat ps (k * ps)) (freshPrompt 0 1 1) =
      ({ a with matchMemo := [(0, ⟨(), none⟩)] }, ⟨(), none⟩) := by
    rw [PrefillAdder.matchReq, hmemo]
    rfl
  rw [tryAllocateOne, if_neg (by exact Nat.one_ne_zero), hmatch]
  dsimp only
  have hg : ∀ b : PrefillAdder Unit Unit, b.reservedSize = a.reservedSize →
      (!b.kvGateOk (.flat ps (k * ps)) (kvReservationSize (.flat ps (k * ps))
        ((freshPrompt 0 1 1).inputLen + (freshPrompt 0 1 1).outputLen)
        ((PrefillOps.flat ps (k * ps)).cachedLen ()))) ≠ true := by
    intro b hb
    have := flat_gate (a := b) hps (by rw [hb]; exact hgate)
    rw [show kvReservationSize (.flat ps (k * ps))
        ((freshPrompt 0 1 1).inputLen + (freshPrompt 0 1 1).outputLen)
        ((PrefillOps.flat ps (k * ps)).cachedLen ()) =
      kvReservationSize (.flat ps (k * ps)) 2 0 from rfl, this]
    nofun
  rw [if_neg (hg _ ?_), if_neg (hg _ ?_)]
  · rfl
  · rfl
  · rfl

theorem flat_chunk {ps k : Nat} (hps : 0 < ps) {a : PrefillAdder Unit Unit}
    (hbudget : a.tokenBudget = 1) (hwhole : a.keepImagesWhole = false)
    (hpages : a.reservedPages ≤ a.reservedSize)
    (hgate : divCeil 2 ps * ps + a.reservedSize ≤ k * ps) :
    a.chunkSize (.flat ps (k * ps)) (freshPrompt 0 1 1) () 0 0 none = some 1 := by
  have hpage : 1 ≤ divCeil 2 ps := by
    by_contra h
    have := (divCeil_le_iff (a := 2) (k := 0) hps).mp (by omega)
    omega
  have hfree : 1 ≤ ((k * ps : Nat) - a.reservedPages : Int).toNat / ps := by
    refine (Nat.le_div_iff_mul_le hps).mpr ?_
    have := Nat.mul_le_mul_right ps hpage
    omega
  have hend : 1 ≤ a.kvChunkEnd (.flat ps (k * ps)) 0 := by
    show 1 ≤ (divCeil 0 ps + ((k * ps : Nat) - a.reservedPages : Int).toNat / ps) * ps
    rw [divCeil_zero hps, Nat.zero_add]
    exact Nat.le_trans (Nat.mul_le_mul hfree hps) (Nat.le_refl _)
  have hsize : min (min a.tokenBudget ((freshPrompt 0 1 1).inputLen - 0))
      (a.kvChunkEnd (.flat ps (k * ps)) 0 - 0) = 1 := by
    rw [hbudget, Nat.sub_zero]
    exact Nat.min_eq_left hend
  rw [chunkSize]
  rw [hsize]
  show (a.imageCap _ _ 0 1 1) = some 1
  rw [imageCap, hwhole]
  rfl

/-- The adder takes the prompt with the pass's whole budget of one token. -/
theorem flat_admits {ps k : Nat} (hps : 0 < ps) {a : PrefillAdder Unit Unit}
    (hbudget : a.tokenBudget = 1) (hwhole : a.keepImagesWhole = false) (hmemo : a.matchMemo = [])
    (hpages : a.reservedPages ≤ a.reservedSize)
    (hgate : divCeil 2 ps * ps + a.reservedSize ≤ k * ps) :
    ∃ a' : PrefillAdder Unit Unit, a'.tokenBudget = 0 ∧
      a.tryAddOne (.flat ps (k * ps)) (freshPrompt 0 1 1) none =
        some (a', freshPrompt 0 1 1, some oneToken) := by
  have hne : ¬ (a.refuse .none).tokenBudget = 0 := by
    show ¬ a.tokenBudget = 0
    omega
  have halloc := flat_allocates (a := a.refuse .none) hps hmemo hgate
  have hadd : ∀ b : PrefillAdder Unit Unit, b.tokenBudget = 1 →
      b.chunkSize (.flat ps (k * ps)) (freshPrompt 0 1 1) () 0 0 none = some 1 →
      ∃ a' : PrefillAdder Unit Unit, a'.tokenBudget = 0 ∧
        b.addOneReq (.flat ps (k * ps)) (freshPrompt 0 1 1) ⟨(), 0, 0, none, [], 0, none, 0⟩ none =
          some (a', some oneToken) := by
    intro b hb hchunk
    rw [addOneReq, hchunk]
    refine ⟨_, ?_, rfl⟩
    show b.tokenBudget - 1 = 0
    rw [hb]
  generalize ht : (a.refuse .none).tryAllocateOne (.flat ps (k * ps)) (freshPrompt 0 1 1) = t
    at halloc
  have hchunk := flat_chunk (k := k) (a := t.1) hps
  rw [halloc] at hchunk
  obtain ⟨a', hzero, hone⟩ := hadd t.1 (by rw [halloc]; exact hbudget)
    (by rw [halloc]; exact hchunk hbudget hwhole hpages hgate)
  refine ⟨a', hzero, ?_⟩
  rw [tryAddOne, if_neg hne]
  show (a.refuse .none).addFresh _ _ _ = _
  rw [halloc] at hone
  rw [addFresh, ht, halloc]
  exact Option.map_eq_some_iff.mpr ⟨(a', some oneToken), hone, rfl⟩

/-- With the budget spent, the loop leaves the continuations where they are. -/
theorem passLoop_spent (ps avail cap seatable n : Nat) (mids : List MidPrefill)
    {p : Pass Unit Unit} (hspent : p.adder.tokenBudget = 0) :
    ∃ p', passLoop (.plain n) (.flat ps avail) cap seatable (mids.map MidPrefill.pending) p =
        some p' ∧
      p'.reqs = p.reqs ∧ p'.chunkedList = p.chunkedList ∧
      p'.remaining = p.remaining ++ mids.map MidPrefill.pending := by
  cases mids with
  | nil => exact ⟨p, rfl, rfl, rfl, (List.append_nil _).symm⟩
  | cons m mids =>
    have hadd : p.adder.tryAddOne (.flat ps avail) m.pending (chunkLimit seatable p) =
        some (p.adder.refuse .none, m.pending, none) := by
      rw [tryAddOne]
      exact if_pos hspent
    refine ⟨{ p with
      adder := p.adder.refuse .none
      remaining := p.remaining ++ m.pending :: mids.map MidPrefill.pending }, ?_, rfl, rfl, rfl⟩
    rw [List.map_cons, passLoop]
    dsimp only
    rw [if_neg (by nofun), hadd]
    rfl

theorem flat_pass {ps k : Nat} (hps : 0 < ps) {running : List Running} {mids : List MidPrefill}
    (hgate : divCeil 2 ps * ps + charged ps running mids ≤ k * ps) :
    ∃ res, scheduleNextBatch (.plain (mids.length + 1)) (.flat ps (k * ps)) () running
        (freshPrompt 0 1 1 :: mids.map MidPrefill.pending) 1 = some res ∧
      res.pending = mids.map MidPrefill.pending ∧ res.reqs = [oneToken] := by
  have hcount : ¬ mids.length + 1 ≤
      chunkedCount (freshPrompt 0 1 1 :: mids.map MidPrefill.pending) := by
    have := List.countP_le_length (p := fun r : PendingReq Unit => r.chunkedReq.isSome)
      (l := mids.map MidPrefill.pending)
    rw [List.length_map] at this
    show ¬ mids.length + 1 ≤ List.countP _ (mids.map MidPrefill.pending)
    omega
  have hstand : standingReservation (freshPrompt 0 1 1 :: mids.map MidPrefill.pending) =
      (mids.map MidPrefill.standing).sum := by
    rw [standingReservation_eq]
    show ((midPrefills (mids.map MidPrefill.pending)).map MidPrefill.standing).sum = _
    rw [midPrefills_pending]
  generalize hadder : newAdder (.plain (mids.length + 1)) (.flat ps (k * ps)) () running
    (freshPrompt 0 1 1 :: mids.map MidPrefill.pending) 1 = a
  have hsize : a.reservedSize = charged ps running mids := by
    rw [← hadder, charged, ← hstand]
    rfl
  have hpages : a.reservedPages = inflightTokens ps running := by
    rw [← hadder]
    rfl
  -- the prompt of one token takes what is left of the budget
  obtain ⟨a', hzero, hadd⟩ := flat_admits (a := a) hps (by rw [← hadder]; rfl)
    (by rw [← hadder]; rfl) (by rw [← hadder]; rfl)
    (by rw [hsize, hpages]; exact Nat.le_add_right _ _) (by rw [hsize]; exact hgate)
  have hlimit : ∀ p : Pass Unit Unit, chunkLimit 0 p = none := fun _ => rfl
  generalize hp : (⟨a, chunkedCount (freshPrompt 0 1 1 :: mids.map MidPrefill.pending), [], [], [],
    [], false⟩ : Pass Unit Unit) = p
  -- so the prefills behind it stay where they are
  obtain ⟨p', hloop, hreqs, hchunked, hrem⟩ := passLoop_spent ps (k * ps) 0 0
    (mids.length + 1) mids
    (p := { p with adder := a' }.admitted (.flat ps (k * ps)) (freshPrompt 0 1 1) false oneToken)
    hzero
  have hrun : passLoop (.plain (mids.length + 1)) (.flat ps (k * ps)) 0 0
      (freshPrompt 0 1 1 :: mids.map MidPrefill.pending) p = some p' := by
    rw [passLoop]
    dsimp only
    rw [if_neg, hlimit, ← hp]
    · dsimp only
      rw [hadd, ← hloop, ← hp]
      rfl
    · rw [← hp]
      show ¬ (decide (mids.length + 1 ≤ _) = true)
      rw [decide_eq_true_iff]
      exact hcount
  have hreqs' : p'.reqs = [oneToken] := by
    rw [hreqs, ← hp]
    rfl
  rw [scheduleNextBatch, if_neg (List.cons_ne_nil _ _), hadder]
  show ∃ res, Option.map _ (passLoop _ _ 0 0 _ ⟨a, _, [], [], [], [], false⟩) = some res ∧ _
  rw [hp, hrun]
  refine ⟨_, rfl, ?_, hreqs'⟩
  dsimp only
  rw [if_neg (by rw [hreqs']; exact List.cons_ne_nil _ _), if_neg (by nofun), hchunked, hrem, ← hp]
  rfl

end flat

/-- Without the condition a pool that just holds what is owed takes one more prompt. -/
theorem covered_of_passKeeps {ps : Nat} {running : List Running} {mids : List MidPrefill}
    (hkeeps : PassKeeps ps running mids) : Covered ps running mids := by
  by_contra hcov
  rw [Covered, Nat.not_le] at hcov
  have hps : 0 < ps := by
    rcases Nat.eq_zero_or_pos ps with rfl | h
    · have := owedPages_zero (admittedSet running mids)
      omega
    · exact h
  generalize hO : owedPages ps (admittedSet running mids) = owed at hcov
  have hpage : 1 ≤ divCeil 2 ps := by
    by_contra h
    have := (divCeil_le_iff (a := 2) (k := 0) hps).mp (by omega)
    omega
  have hgate : divCeil 2 ps * ps + charged ps running mids ≤ (owed - 1 + divCeil 2 ps) * ps := by
    have := (divCeil_le_iff hps).mp (Nat.le_sub_one_of_lt hcov)
    rw [Nat.add_mul]
    omega
  have hfits : owed ≤ owed - 1 + divCeil 2 ps := by omega
  have hmids : midPrefills (freshPrompt 0 1 1 :: mids.map MidPrefill.pending) = mids :=
    midPrefills_pending mids
  obtain ⟨res, hrun, hpending, hreqs⟩ := flat_pass hps hgate
  have hafter := hkeeps Unit Unit _ _ _ _ _ res (flat_lawful hps _) rfl
    hmids hrun (by
      show ((owedPages ps (admittedSet running mids) * ps : Nat) : Int) ≤ _
      rw [hO]
      exact Int.ofNat_le.mpr (Nat.mul_le_mul_right ps hfits))
  have howed : owedPages ps (admittedAfter running res) = owed + divCeil 2 ps := by
    rw [admittedAfter, hpending, hreqs, midPrefills_pending, owedPages_append, hO]
    show owed + (divCeil 2 ps - divCeil 0 ps + 0) = _
    rw [divCeil_zero hps]
    rfl
  have hfit : ((owedPages ps (admittedAfter running res) * ps : Nat) : Int) ≤
      ((owed - 1 + divCeil 2 ps) * ps : Nat) := hafter
  rw [howed] at hfit
  have hle := Nat.le_of_mul_le_mul_right (Int.ofNat_le.mp hfit) hps
  omega

/-- A pass keeps the admitted set finishable, whatever the pools and the queue,
exactly when the pages the set owes are no more than its charge spans. -/
theorem passKeeps_iff (ps : Nat) (running : List Running) (mids : List MidPrefill) :
    PassKeeps ps running mids ↔ Covered ps running mids :=
  ⟨covered_of_passKeeps, passKeeps_of_covered⟩

/-- With single-token pages only the running decodes are short-charged. -/
theorem covered_of_page_one (mids : List MidPrefill) : Covered 1 [] mids := by
  have hone : ∀ n, divCeil n 1 = n := fun n => by simp [divCeil]
  rw [Covered, hone, charged, inflightTokens]
  show owedPages 1 (mids.map MidPrefill.footprint) ≤ 0 + (mids.map MidPrefill.standing).sum
  induction mids with
  | nil => exact Nat.le_refl _
  | cons m mids ih =>
    have hm : m.footprint.pages 1 ≤ m.standing := by
      rw [Footprint.pages, hone, hone]
      show m.inputLen + m.outputLen - m.cachedLen ≤ m.inputLen - m.cachedLen + m.outputLen
      omega
    rw [List.map_cons, List.map_cons, List.sum_cons, owedPages_cons]
    omega

/-- A decode two tokens short of its limit, whose last token has no KV yet, owes
three pages of one token and is charged two: with four to give, a prompt of one
token and one to write is taken, and five are owed. -/
theorem decode_step_oversold :
    Fits (.flat 1 4) () (admittedSet [⟨3, 4, 6⟩] []) ∧
      ∃ res, scheduleNextBatch (.plain 1) (.flat 1 4) () [⟨3, 4, 6⟩] [freshPrompt 0 1 1] 1 =
          some res ∧
        ¬ Fits (.flat 1 4) res.pools (admittedAfter [⟨3, 4, 6⟩] res) := by
  refine ⟨by decide, _, rfl, ?_⟩
  decide

end FreeToken.Prefill
