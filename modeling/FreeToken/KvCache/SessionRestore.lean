import FreeToken.KvCache.LockDeltas
import FreeToken.KvCache.SettledWalks

/-!
# What a restored session costs

`CacheManager.restore_hybrid_session_prefix` brings a checkpointed session back: it
locks the part of the prefix that is resident, allocates pages for the rest, which may
evict, takes a slot for the recurrent state, which may evict and then give idle leases
back, and inserts and locks the whole prefix. `session_restore_footprint` says before
how much of `available_size` that will take.

Pages are one token each, for other page sizes the restore raises; an exception is
`none`, and so is a donated slot that a node of the tree owns. The chunks' contents are
left out, but whether they can be read is a parameter.

## Results

* `HybridManager.restore_room` — what a restore takes, with the leases given back on its way;
* `restore_costs_footprint` — the prediction, where the leases are among the locks;
* `predicted_costs_exact` — locks and restores, in every state of the caches' runs.
-/

namespace FreeToken.KvCache

open FreeToken.Lib RadixTree LockInv

/-- A checkpoint, as far as a restore reads it. -/
structure SessionRecord where
  tokenIds : List Token
  numPages : Nat
  stateBoundaries : List Nat

/-- What a restore meets on its way. -/
structure RestoreRun where
  /-- The clocks of its walks. -/
  tic : Nat → Time
  now : Time
  ties : Nat → Nat
  /-- The idle leases that `mamba_reclaim_hook` gives back if it is called. -/
  reclaimed : List NodeId
  /-- `iter_chunks` and the copies go through. -/
  chunksRead : Bool

/-- `CacheManager` over a hybrid radix cache. -/
structure HybridManager extends PageBudget where
  cache : HybridRadixCache
  /-- The free list of the `LinearStatePool`. -/
  stateSlots : List Slot

namespace HybridManager

variable (m : HybridManager)

def availableSize : ℤ := m.toPageBudget.availableSize m.cache.pageSize m.cache.fullEvictable

def mambaAvailableSize : ℤ := m.stateSlots.length + m.cache.mambaEvictable

def lock (n : NodeId) : HybridManager := { m with cache := m.cache.incLock n }

def unlock (n : NodeId) : Option HybridManager :=
  (m.cache.decLock n).map fun c => { m with cache := c }

/-- What an eviction returned goes to the two free lists. -/
def collect (e : Evicting) : HybridManager :=
  { m with
    cache := e.cache
    freeSlots := m.freeSlots ++ e.kvIndices
    stateSlots := m.stateSlots ++ e.mambaSlots }

/-- `_allocate`. -/
def allocate (neededPages : Nat) (ties : Nat → Nat) : Option (HybridManager × List KvIndex) :=
  let m :=
    if m.freeSlots.length < neededPages then
      m.collect (m.cache.evictFull (neededPages - m.freeSlots.length) ties)
    else m
  if m.freeSlots.length < neededPages then none
  else
    some ({ m with freeSlots := m.freeSlots.drop neededPages }, m.freeSlots.take neededPages)

/-- The loop of `ensure_mamba_slots`. A round frees a slot or is the last, so `n` rounds
are enough. -/
def ensureMambaSlots (n : Nat) : Nat → HybridManager → HybridManager
  | 0, m => m
  | fuel + 1, m =>
    if n ≤ m.stateSlots.length then m
    else
      let er := m.cache.evictMamba (n - m.stateSlots.length)
      if er.mambaSlots = [] then m else ensureMambaSlots n fuel (m.collect er)

/-- `reserve_mamba_slots`. -/
def reserveMambaSlots (n : Nat) (reclaimed : List NodeId) : Option HybridManager :=
  if n ≤ m.stateSlots.length then some m
  else
    let m := ensureMambaSlots n n m
    if n ≤ m.stateSlots.length ∨ reclaimed = [] then some m
    else (reclaimed.foldlM unlock m).map (ensureMambaSlots n n)

/-- `acquire_mamba_slot`, and what a restore does without a slot. -/
def acquireMambaSlot (reclaimed : List NodeId) : Option (HybridManager × Slot) :=
  (m.reserveMambaSlots 1 reclaimed).bind fun m =>
    m.stateSlots.getLast?.map fun slot => ({ m with stateSlots := m.stateSlots.dropLast }, slot)

def matchPrefix (inputIds : List Token) (tic : Time) : HybridManager × HybridMatch :=
  let r := m.cache.matchPrefix inputIds false tic
  ({ m with cache := r.1 }, r.2)

/-- `session_restore_footprint`; its walk may split a node. -/
def sessionRestoreFootprint (tokenIds : List Token) (tic : Time) : HybridManager × Nat :=
  let w := m.cache.walk tokenIds tic
  ({ m with cache := w.1 }, (tokenIds.length - w.2.2) + w.1.lockDelta w.2.1)

/-- The end of a restore: the prefix is inserted, matched and locked. -/
def installPrefix (tokens : List Token) (length residentLen : Nat)
    (allPages allocated : List KvIndex) (slot : Slot) (run : RestoreRun) :
    Option (HybridManager × HybridMatch) :=
  if m.cache.owns slot then none
  else
    (m.cache.insert tokens allPages slot none .chunk (run.tic 2) run.now).bind fun r =>
      let duplicate := r.2.1 - residentLen
      let m : HybridManager :=
        { m with
          cache := r.1
          freeSlots := m.freeSlots ++ allocated.take duplicate
          stateSlots := if r.2.2 then m.stateSlots ++ [slot] else m.stateSlots }
      let matched := m.matchPrefix tokens (run.tic 3)
      if matched.2.cachedLen ≠ length then none
      else some (matched.1.lock matched.2.node, matched.2)

/-- `restore_hybrid_session_prefix`. -/
def restoreHybridSessionPrefix (record : SessionRecord) (numTokens : Option Nat)
    (run : RestoreRun) : Option (HybridManager × HybridMatch) :=
  let length := numTokens.getD record.numPages
  if m.cache.pageSize ≠ 1 then none
  else if length = 0 ∨ record.numPages < length ∨ length ∉ record.stateBoundaries then none
  else
    let tokens := record.tokenIds.take length
    let existing := m.matchPrefix tokens (run.tic 0)
    if existing.2.cachedLen = length then some (existing.1.lock existing.2.node, existing.2)
    else
      let w := existing.1.cache.walk tokens (run.tic 1)
      let m := { existing.1 with cache := w.1 }
      let residentPages := m.cache.collectKv w.2.1
      let m := if 0 < w.2.2 then m.lock w.2.1 else m
      (m.allocate (length - w.2.2) run.ties).bind fun a =>
        (a.1.acquireMambaSlot run.reclaimed).bind fun b =>
          if run.chunksRead = false then none
          else
            (if 0 < w.2.2 then b.1.unlock w.2.1 else some b.1).bind fun m =>
              m.installPrefix tokens length w.2.2 (residentPages ++ a.2) a.2 b.2 run

-- ---------------------------------------------------------------------------
-- The steps of a restore
-- ---------------------------------------------------------------------------

/-- What the two currencies of the page budget come to, committed pages apart. -/
def room : ℤ := m.cache.fullEvictable + m.freeSlots.length

/-- Between two steps of a restore of `toks`: they lead to `n`, which has `k` of them. -/
structure Restoring (m : HybridManager) (unbacked : ℤ) (toks : List Token) (n : NodeId) (k : Nat) :
    Prop where
  wf : m.cache.Wf
  settled : m.cache.Settled toks n k
  pageSize : m.cache.pageSize = 1
  unbacked : (m.numPages : ℤ) - m.committedPages = unbacked

variable {m} {m' : HybridManager} {u : ℤ} {toks : List Token} {n : NodeId} {k : Nat}
  {held : List NodeId}

theorem Restoring.availableSize (h : Restoring m u toks n k) : m.availableSize = m.room + u := by
  rw [HybridManager.availableSize, PageBudget.availableSize, h.pageSize, h.unbacked, room]
  omega

/-- The path of `n` is locked: `n` is held, or it is the root, above which there is nothing. -/
def Secured (m : HybridManager) (held : List NodeId) (n : NodeId) : Prop :=
  Protected m.cache.toRadixTree held ∧ (n = root ∨ n ∈ held)

theorem Secured.locked (h : Secured m held n) (hw : m.cache.Wf) :
    ∀ a ∈ m.cache.rootPath n, 0 < (m.cache.node a).refCount := by
  intro a ha
  rcases h.2 with rfl | hmem
  · rw [hw.rootPath_root] at ha
    cases ha
  · exact h.1.toRefInv.refCount_pos hw hmem ha

/-- Stamps change nothing that counts. -/
theorem Restoring.restamped (h : Restoring m u toks n k) {t : RadixTree}
    (hr : Restamped m.cache.toRadixTree t) :
    Restoring { m with cache := { m.cache with toRadixTree := t } } u toks n k where
  wf := hr.wf h.wf
  settled := h.settled.sameShape hr.toSameShape
  pageSize := hr.pageSize.trans h.pageSize
  unbacked := h.unbacked

theorem Restoring.walk (h : Restoring m u toks n k) (tic : Time) :
    ∃ t, Restamped m.cache.toRadixTree t ∧
      m.cache.walk toks tic = ({ m.cache with toRadixTree := t }, n, k) := by
  obtain ⟨t, hres, heq⟩ := h.settled.walk h.wf tic
  refine ⟨t, hres, ?_⟩
  rw [HybridRadixCache.walk, heq]

theorem Restoring.lock (h : Restoring m u toks n k) : Restoring (m.lock n) u toks n k where
  wf := (counted_incLock m.cache n).wf h.wf
  settled := h.settled.sameShape (counted_incLock m.cache n).toSameShape
  pageSize := (counted_incLock m.cache n).pageSize.trans h.pageSize
  unbacked := h.unbacked

theorem room_lock (hw : m.cache.Wf) (n : NodeId) :
    (m.lock n).room = m.room - m.cache.lockDelta n := by
  have hfull := (HybridRadixCache.incLock_gauges hw n).1
  show (m.cache.incLock n).fullEvictable + (m.freeSlots.length : ℤ) =
    m.cache.fullEvictable + m.freeSlots.length - m.cache.lockDelta n
  omega

theorem Restoring.unlock (h : Restoring m u toks n k) {a : NodeId} (hun : m.unlock a = some m') :
    Restoring m' u toks n k ∧ m'.room = m.room + m'.cache.lockDelta a := by
  obtain ⟨c, hdec, hm⟩ := Option.map_eq_some_iff.mp hun
  cases hm
  have hc := counted_decLock hdec
  refine ⟨⟨hc.wf_symm h.wf, h.settled.sameShape hc.toSameShape.symm, ?_, h.unbacked⟩, ?_⟩
  · exact hc.pageSize.symm.trans h.pageSize
  · have hfull := HybridRadixCache.decLock_full h.wf hdec
    show c.fullEvictable + (m.freeSlots.length : ℤ) =
      m.cache.fullEvictable + m.freeSlots.length + c.lockDelta a
    omega

/-- An eviction moves tokens from the gauge to the free list. -/
theorem Restoring.collect (h : Restoring m u toks n k) (hs : Secured m held n) {e : Evicting}
    (hind : ∀ {P : Evicting → Prop}, HybridRadixCache.EvictionKeeps P → P ⟨m.cache, [], [], 0⟩ →
      P e ∧ e.cache.Wf) :
    Restoring (m.collect e) u toks n k ∧ Secured (m.collect e) held n ∧
      (m.collect e).room = m.room := by
  obtain ⟨⟨hsettled, -⟩, hwf⟩ := hind (HybridRadixCache.settled_evictionKeeps toks n k)
    ⟨h.settled, hs.locked h.wf⟩
  have hpage := (hind (HybridRadixCache.evictionKeeps_pageSize 1) h.pageSize).1
  have hheld := (hind (Protected.evictionKeeps held) hs.1).1
  have htokens := (hind (HybridRadixCache.tokens_keeps m.cache.fullEvictable) (by simp)).1
  refine ⟨⟨hwf, hsettled, hpage, h.unbacked⟩, ⟨hheld, hs.2⟩, ?_⟩
  show e.cache.fullEvictable + ((m.freeSlots ++ e.kvIndices).length : ℤ) =
    m.cache.fullEvictable + m.freeSlots.length
  rw [List.length_append]
  omega

theorem Restoring.ensureMambaSlots (h : Restoring m u toks n k) (hs : Secured m held n)
    (slots fuel : Nat) : Restoring (ensureMambaSlots slots fuel m) u toks n k ∧
      Secured (ensureMambaSlots slots fuel m) held n ∧
      (ensureMambaSlots slots fuel m).room = m.room := by
  induction fuel generalizing m with
  | zero => exact ⟨h, hs, rfl⟩
  | succ fuel ih =>
    rw [HybridManager.ensureMambaSlots]
    split
    · -- there are slots enough
      exact ⟨h, hs, rfl⟩
    dsimp only
    split
    · -- the eviction freed none
      exact ⟨h, hs, rfl⟩
    · obtain ⟨h', hs', hroom⟩ := h.collect hs fun hP hc =>
        HybridRadixCache.evictMamba_induct hP (slots - m.stateSlots.length) h.wf hc
      obtain ⟨hh, hss, hr⟩ := ih h' hs'
      exact ⟨hh, hss, hr.trans hroom⟩

theorem Restoring.allocate (h : Restoring m u toks n k) (hs : Secured m held n) {needed : Nat}
    {ties : Nat → Nat} {pages : List KvIndex} (hal : m.allocate needed ties = some (m', pages)) :
    Restoring m' u toks n k ∧ Secured m' held n ∧ m'.room = m.room - needed := by
  -- taking pages off the free list
  have take : ∀ {d : HybridManager}, Restoring d u toks n k → Secured d held n →
      d.room = m.room → ¬ d.freeSlots.length < needed →
      Restoring { d with freeSlots := d.freeSlots.drop needed } u toks n k ∧
        Secured { d with freeSlots := d.freeSlots.drop needed } held n ∧
        room { d with freeSlots := d.freeSlots.drop needed } = m.room - needed := by
    intro d hd hsd hroom hlen
    refine ⟨⟨hd.wf, hd.settled, hd.pageSize, hd.unbacked⟩, hsd, ?_⟩
    show d.cache.fullEvictable + ((d.freeSlots.drop needed).length : ℤ) = m.room - needed
    rw [← hroom, room, List.length_drop]
    omega
  rw [HybridManager.allocate] at hal
  by_cases hfew : m.freeSlots.length < needed
  · rw [if_pos hfew] at hal
    obtain ⟨h', hs', hroom⟩ := h.collect hs fun hP hc =>
      HybridRadixCache.evictFull_induct hP (needed - m.freeSlots.length) ties h.wf hc
    split at hal
    · -- still too few: it raises
      cases hal
    · rename_i hlen
      cases hal
      exact take h' hs' hroom hlen
  · rw [if_neg hfew, if_neg hfew] at hal
    cases hal
    exact take h hs rfl hfew

/-- Leases that are given back raise the budget, and leave the path locked. -/
theorem Restoring.reclaim {reclaimed rest : List NodeId} (h : Restoring m u toks n k)
    (hp : Protected m.cache.toRadixTree (reclaimed ++ rest))
    (hun : reclaimed.foldlM HybridManager.unlock m = some m') :
    Restoring m' u toks n k ∧ Protected m'.cache.toRadixTree rest ∧
      ∃ gain : Nat, m'.room = m.room + gain := by
  induction reclaimed generalizing m with
  | nil =>
    cases hun
    exact ⟨h, hp, 0, (add_zero _).symm⟩
  | cons a reclaimed ih =>
    rw [List.foldlM_cons] at hun
    obtain ⟨d, hd, hun⟩ := Option.bind_eq_some_iff.mp hun
    obtain ⟨hres, hroom⟩ := h.unlock hd
    obtain ⟨c, hdec, hm⟩ := Option.map_eq_some_iff.mp hd
    have hpd : Protected d.cache.toRadixTree (reclaimed ++ rest) := by
      rw [← hm]
      exact Protected.decLock hp h.wf hdec
    obtain ⟨hres', hp', gain, hgain⟩ := ih hres hpd hun
    -- what `a` alone had locked is added to what the later leases give back
    refine ⟨hres', hp', d.cache.lockDelta a + gain, ?_⟩
    rw [hgain, hroom]
    omega

/-- A slot is found by eviction, or by giving leases back first. -/
theorem Restoring.acquireMambaSlot {reclaimed rest : List NodeId} {slot : Slot}
    (h : Restoring m u toks n k) (hp : Protected m.cache.toRadixTree (reclaimed ++ rest))
    (hn : n = root ∨ n ∈ rest) (hac : m.acquireMambaSlot reclaimed = some (m', slot)) :
    Restoring m' u toks n k ∧
      ∃ gain : Nat, (reclaimed = [] → gain = 0) ∧ m'.room = m.room + gain := by
  obtain ⟨d, hres, hslot⟩ := Option.bind_eq_some_iff.mp hac
  obtain ⟨s, -, hm⟩ := Option.map_eq_some_iff.mp hslot
  cases hm
  -- popping a slot moves neither currency of the budget
  suffices hd : Restoring d u toks n k ∧
      ∃ gain : Nat, (reclaimed = [] → gain = 0) ∧ d.room = m.room + gain by
    obtain ⟨hd, gain, hnil, hroom⟩ := hd
    exact ⟨⟨hd.wf, hd.settled, hd.pageSize, hd.unbacked⟩, gain, hnil, hroom⟩
  have hsec : Secured m (reclaimed ++ rest) n :=
    ⟨hp, hn.imp_right fun hr => List.mem_append_right _ hr⟩
  obtain ⟨he, hse, hroom⟩ := h.ensureMambaSlots hsec 1 1
  rw [reserveMambaSlots] at hres
  split at hres
  · cases hres
    exact ⟨h, 0, fun _ => rfl, (add_zero _).symm⟩
  dsimp only at hres
  split at hres
  · cases hres
    exact ⟨he, 0, fun _ => rfl, hroom.trans (add_zero _).symm⟩
  · rename_i hshort
    rw [not_or] at hshort
    obtain ⟨c, hc, hd⟩ := Option.map_eq_some_iff.mp hres
    obtain ⟨hr, hpr, gain, hgain⟩ := he.reclaim hse.1 hc
    obtain ⟨hf, -, hlast⟩ := hr.ensureMambaSlots ⟨hpr, hn⟩ 1 1
    cases hd
    refine ⟨hf, gain, fun hnil => absurd hnil hshort.2, ?_⟩
    rw [hlast, hgain, hroom]

end HybridManager

namespace HybridRadixCache

variable {c c' : HybridRadixCache} {toks : List Token} {n : NodeId} {k : Nat}

/-- The second half of an insert changes no count and no shape. -/
theorem donate_counted (c : HybridRadixCache) (n : NodeId) (slot : Slot) (sums : Option Nat)
    (kind : SnapshotKind) :
    RefCounted c.toRadixTree (c.donate n slot sums kind).1.toRadixTree (fun _ => 0) ∧
      (c.donate n slot sums kind).1.fullEvictable = c.fullEvictable := by
  rw [donate]
  split
  · exact ⟨.refl _, rfl⟩
  split
  · exact ⟨⟨.annotate (annotates_note sums kind) _ n, fun m =>
      modify_field c.toRadixTree n m Node.refCount (annotates_note sums kind).refCount⟩, rfl⟩
  · exact ⟨⟨.attach c.toRadixTree n slot kind sums, fun m =>
      modify_field c.toRadixTree n m Node.refCount (f := attached slot kind sums) fun _ => rfl⟩,
      rfl⟩

/-- The first half of an insert of settled tokens adds what is missing below their node. -/
theorem extendPath_settled (hw : c.Wf) (hs : c.Settled toks n k) (hpages : c.pageSize ∣ toks.length)
    {pages : List KvIndex} {tic now : Time} {b : NodeId} {len : Nat}
    (hext : c.extendPath toks pages tic now = some (c', b, len)) :
    len = k ∧ c'.pageSize = c.pageSize ∧ c'.Settled toks b toks.length ∧
      c'.fullEvictable = c.fullEvictable + ((toks.length - k : ℕ) : ℤ) ∧
      c'.lockDelta b = (toks.length - k) + c.lockDelta n := by
  obtain ⟨t, hres, hwalk⟩ := hs.walk hw tic
  have hwt := hres.wf hw
  have hst := hs.sameShape hres.toSameShape
  have hdelta : t.lockDelta n = c.lockDelta n :=
    lockDelta_congr hres.toSameShape fun m _ => hres.refCount m
  have hcw : c.walk toks tic = ({ c with toRadixTree := t }, n, k) := by
    rw [HybridRadixCache.walk, hwalk]
  rw [extendPath, hcw] at hext
  dsimp only at hext
  by_cases hall : k = toks.length
  · rw [if_pos hall] at hext
    cases hext
    subst hall
    refine ⟨rfl, hres.pageSize, hst, ?_, ?_⟩
    · rw [Nat.sub_self]
      exact (add_zero _).symm
    · rw [Nat.sub_self, Nat.zero_add]
      exact hdelta
  rw [if_neg hall] at hext
  split at hext
  · cases hext
  rename_i hvalue
  rw [not_not] at hvalue
  cases hext
  have hlen : (toks.drop k).length = toks.length - k := List.length_drop
  have hle := hs.le
  have hdvd : c.pageSize ∣ k := by
    have hk := dvd_pathTokens hw hs.inTree
    rwa [hs.tokens, List.length_take_of_le hle] at hk
  have hok : t.LeafOk n (toks.drop k) (pages.drop k) := by
    refine ⟨hst.inTree, by omega, ?_, hvalue, hst.stuck.resolve_left hall⟩
    rw [hlen, hres.pageSize]
    exact Nat.dvd_sub hpages hdvd
  have hwl : (t.addLeaf n (toks.drop k) (pages.drop k) now).1.Wf := hwt.addLeaf hok
  have hpar : ((t.addLeaf n (toks.drop k) (pages.drop k) now).1.node t.next).parent = some n := by
    rw [addLeaf_new]
  have hpath := hwl.rootPath_cons hpar
  rw [hwt.rootPath_addLeaf hok (Nat.ne_of_lt (hwt.inTree_lt hst.inTree))] at hpath
  refine ⟨rfl, hres.pageSize, ⟨.inr ?_, ?_, Nat.le_refl _, .inl rfl⟩, ?_, ?_⟩
  · show ((t.addLeaf n (toks.drop k) (pages.drop k) now).1.node t.next).linked = true
    rw [addLeaf_new]
  · refine (concat_addLeaf_new hwt hok Node.key).trans ?_
    rw [addLeaf_new, show t.concat Node.key n = toks.take k from hst.tokens,
      List.take_append_drop, List.take_length]
  · rw [hlen]
  · show (t.addLeaf n (toks.drop k) (pages.drop k) now).1.lockDelta t.next = _
    rw [lockDelta, hpath, List.map_cons, List.sum_cons, ← hdelta, lockDelta]
    congr 1
    · rw [unlockedLen, addLeaf_new]
      exact hlen
    · -- the nodes above are those of before
      refine congrArg List.sum (List.map_congr_left fun a ha => ?_)
      have hold := addLeaf_old t n a (toks.drop k) (pages.drop k) now
        (Nat.ne_of_lt (hwt.mem_rootPath_lt ha).1)
      rw [unlockedLen, unlockedLen, hold]

/-- An insert of settled tokens. -/
theorem insert_settled (hw : c.Wf) (hs : c.Settled toks n k) (hpages : c.pageSize ∣ toks.length)
    {pages : List KvIndex} {slot : Slot} (hslot : c.SlotFree slot) {kind : SnapshotKind}
    {tic now : Time} {len : Nat} {exist : Bool}
    (hins : c.insert toks pages slot none kind tic now = some (c', len, exist)) :
    len = k ∧ c'.Wf ∧ c'.pageSize = c.pageSize ∧ ∃ b, c'.Settled toks b toks.length ∧
      c'.fullEvictable = c.fullEvictable + ((toks.length - k : ℕ) : ℤ) ∧
      c'.lockDelta b = (toks.length - k) + c.lockDelta n := by
  have hwf := (insert_induct (insertKeeps_true pages slot) hw hslot hins trivial).2
  simp only [insert] at hins
  split at hins
  · cases hins
  obtain ⟨⟨d, b, len'⟩, hext, hd⟩ := Option.map_eq_some_iff.mp hins
  cases hd
  rw [alignDown_eq_of_dvd hpages, List.take_length] at hext
  obtain ⟨hlen, hps, hsd, hfull, hdelta⟩ := extendPath_settled hw hs hpages hext
  obtain ⟨hc, hsame⟩ := donate_counted d b slot none kind
  refine ⟨hlen, hwf, hc.pageSize.trans hps, b, hsd.sameShape hc.toSameShape,
    hsame.trans hfull, ?_⟩
  exact (lockDelta_congr hc.toSameShape fun m _ => hc.refCount m).trans hdelta

theorem matchUp_le (c : HybridRadixCache) (path : List NodeId) (endLen : Nat)
    (sumless : Option Nat) : (c.matchUp false path endLen sumless).cachedLen ≤ endLen := by
  induction path generalizing endLen with
  | nil => exact Nat.zero_le _
  | cons a path ih =>
    cases hv : (c.node a).mambaValue with
    | none =>
      rw [matchUp, hv]
      exact (ih _).trans (Nat.sub_le _ _)
    | some slot =>
      rw [matchUp_of_live c path hv]

/-- A match of the whole path found the snapshot of its end. -/
theorem matchUp_whole {a : NodeId} {path : List NodeId} {endLen : Nat} {sumless : Option Nat}
    (hlen : 0 < (c.node a).length) (hend : 0 < endLen)
    (h : endLen ≤ (c.matchUp false (a :: path) endLen sumless).cachedLen) :
    (c.matchUp false (a :: path) endLen sumless).node = a := by
  cases hv : (c.node a).mambaValue with
  | none =>
    rw [matchUp, hv] at h
    have hle := matchUp_le c path (endLen - (c.node a).length) sumless
    exact absurd (h.trans hle) (by omega)
  | some slot =>
    rw [matchUp_of_live c path hv]

/-- Settled tokens are matched as a whole at their node or not at all. -/
theorem matchUp_settled (hw : c.Wf) (hs : c.Settled toks n k) {length : Nat} (hpos : 0 < length)
    (hle : k ≤ length)
    (h : (c.matchUp false (c.rootPath n) (c.pathLen n) none).cachedLen = length) :
    k = length ∧ (c.matchUp false (c.rootPath n) (c.pathLen n) none).node = n := by
  have hup := matchUp_le c (c.rootPath n) (c.pathLen n) none
  rw [hs.pathLen] at hup h ⊢
  have hk : k = length := by omega
  have hroot := (hs.pos_iff hw).mp (hk ▸ hpos)
  have hl := hs.inTree.resolve_left hroot
  obtain ⟨p, hp, -⟩ := hw.linked_parent n hl
  rw [hw.rootPath_cons hp] at h ⊢
  exact ⟨hk, matchUp_whole (hw.key_pages n hl).1 (hk ▸ hpos) (by omega)⟩

end HybridRadixCache

namespace HybridManager

variable {m m' : HybridManager} {u : ℤ} {toks : List Token} {n : NodeId} {k : Nat}
  {run : RestoreRun}

/-- A match stamps. -/
theorem Restoring.matchPrefix (h : Restoring m u toks n k) (tic : Time) :
    ∃ d : HybridManager, (m.matchPrefix toks tic).1 = d ∧ Restoring d u toks n k ∧
      Restamped m.cache.toRadixTree d.cache.toRadixTree ∧ d.room = m.room ∧
      d.cache.lockDelta n = m.cache.lockDelta n ∧
      (m.matchPrefix toks tic).2 =
        d.cache.matchUp false (d.cache.rootPath n) (d.cache.pathLen n) none := by
  obtain ⟨t, hres, hwalk⟩ := h.walk tic
  refine ⟨_, rfl, ?_⟩
  rw [HybridManager.matchPrefix, HybridRadixCache.matchPrefix, hwalk]
  exact ⟨h.restamped hres, hres, rfl,
    lockDelta_congr hres.toSameShape fun a _ => hres.refCount a, rfl⟩

/-- The end of a restore gives back what is missing, and locks it with the rest. -/
theorem Restoring.installPrefix (h : Restoring m u toks n k) {length : Nat} (hpos : 0 < length)
    (hle : toks.length ≤ length) {allPages allocated : List KvIndex} {slot : Slot}
    {r : HybridMatch}
    (hin : m.installPrefix toks length k allPages allocated slot run = some (m', r)) :
    toks.length = length ∧ m'.availableSize = m.room + u - m.cache.lockDelta n := by
  rw [HybridManager.installPrefix] at hin
  split at hin
  · cases hin
  rename_i howns
  obtain ⟨⟨c, len, exist⟩, hins, hin⟩ := Option.bind_eq_some_iff.mp hin
  have hpages : m.cache.pageSize ∣ toks.length := by
    rw [h.pageSize]
    exact Nat.one_dvd _
  have hslot := HybridRadixCache.slotFree_of_owns h.wf howns
  obtain ⟨hlen, hwf, hps, b, hsb, hfull, hdelta⟩ :=
    HybridRadixCache.insert_settled h.wf h.settled hpages hslot hins
  subst hlen
  -- nothing was inserted meanwhile, so no page is a duplicate
  simp only [Nat.sub_self, List.take_zero, List.append_nil] at hin
  obtain ⟨inserted, hinserted⟩ : ∃ d : HybridManager, d = { m with
      cache := c
      stateSlots := if exist then m.stateSlots ++ [slot] else m.stateSlots } := ⟨_, rfl⟩
  rw [← hinserted] at hin
  have hb : Restoring inserted u toks b toks.length := by
    rw [hinserted]
    exact ⟨hwf, hsb, hps.trans h.pageSize, h.unbacked⟩
  have hroomb : inserted.room = m.room + ((toks.length - len : ℕ) : ℤ) := by
    rw [hinserted]
    show c.fullEvictable + (m.freeSlots.length : ℤ) = m.cache.fullEvictable + m.freeSlots.length + _
    omega
  have hdeltab : inserted.cache.lockDelta b = (toks.length - len) + m.cache.lockDelta n := by
    rw [hinserted]
    exact hdelta
  obtain ⟨d, hd, hres, -, hroom, hsame, hmatch⟩ := hb.matchPrefix (run.tic 3)
  by_cases hcached : (inserted.matchPrefix toks (run.tic 3)).2.cachedLen = length
  · rw [if_neg (not_not.mpr hcached), hd, hmatch] at hin
    rw [hmatch] at hcached
    obtain ⟨hall, hnode⟩ :=
      HybridRadixCache.matchUp_settled hres.wf hres.settled hpos hle hcached
    rw [hnode] at hin
    cases hin
    refine ⟨hall, ?_⟩
    rw [hres.lock.availableSize, room_lock hres.wf, hroom, hsame, hroomb, hdeltab]
    omega
  · rw [if_pos hcached] at hin
    cases hin

theorem Restoring.lockDelta_root (h : Restoring m u toks n k) (hk : ¬ 0 < k) :
    n = root ∧ m.cache.lockDelta n = 0 := by
  have hn : n = root := not_not.mp fun hne => hk ((h.settled.pos_iff h.wf).mpr hne)
  refine ⟨hn, ?_⟩
  rw [lockDelta, hn, h.wf.rootPath_root]
  rfl

/-- What is resident is locked while the rest is brought in. -/
theorem Restoring.lockResident (h : Restoring m u toks n k) {reclaimed rest : List NodeId}
    (hp : Protected m.cache.toRadixTree (reclaimed ++ rest)) :
    ∃ d : HybridManager, (if 0 < k then m.lock n else m) = d ∧ Restoring d u toks n k ∧
      (∃ rest', Protected d.cache.toRadixTree (reclaimed ++ rest') ∧ (n = root ∨ n ∈ rest')) ∧
      d.room = m.room - m.cache.lockDelta n := by
  refine ⟨_, rfl, ?_⟩
  by_cases hk : 0 < k
  · rw [if_pos hk]
    have hlock := (Protected.incLock hp h.wf h.settled.inTree).perm List.perm_middle
    exact ⟨h.lock, ⟨n :: rest, hlock, .inr List.mem_cons_self⟩, room_lock h.wf n⟩
  · obtain ⟨hn, hzero⟩ := h.lockDelta_root hk
    rw [if_neg hk, hzero]
    exact ⟨h, ⟨rest, hp, .inl hn⟩, (sub_zero _).symm⟩

theorem Restoring.unlockResident (h : Restoring m u toks n k)
    (hun : (if 0 < k then m.unlock n else some m) = some m') :
    Restoring m' u toks n k ∧ m'.room = m.room + m'.cache.lockDelta n := by
  by_cases hk : 0 < k
  · rw [if_pos hk] at hun
    exact h.unlock hun
  · rw [if_neg hk] at hun
    cases hun
    rw [(h.lockDelta_root hk).2]
    exact ⟨h, (add_zero _).symm⟩

theorem protected_restamped {t t' : RadixTree} {held : List NodeId} (hp : Protected t held)
    (hr : Restamped t t') : Protected t' held :=
  hp.congr hr.toSameShape hr.refCount hr.mambaRefCount fun a _ ha => by
    rwa [hr.mambaValue]

/-- What a restore takes out of `available_size`: what is missing and what was unlocked,
less what the leases give back. -/
theorem restore_room {record : SessionRecord} {numTokens : Option Nat} {rest : List NodeId}
    (h : Restoring m u (record.tokenIds.take (numTokens.getD record.numPages)) n k)
    (hp : Protected m.cache.toRadixTree (run.reclaimed ++ rest)) {r : HybridMatch}
    (hrun : m.restoreHybridSessionPrefix record numTokens run = some (m', r)) :
    ∃ gain : Nat, (run.reclaimed = [] → gain = 0) ∧
      m.availableSize - m'.availableSize =
        ((record.tokenIds.take (numTokens.getD record.numPages)).length - k +
          m.cache.lockDelta n : ℕ) - (gain : ℤ) := by
  rw [restoreHybridSessionPrefix] at hrun
  dsimp only at hrun
  generalize hlength : numTokens.getD record.numPages = length at h hrun ⊢
  have hle : (record.tokenIds.take length).length ≤ length := List.length_take_le _ _
  generalize record.tokenIds.take length = toks at h hrun hle ⊢
  rw [if_neg (not_not.mpr h.pageSize)] at hrun
  -- a length without a checkpoint raises
  split at hrun
  · cases hrun
  rename_i hvalid
  have hpos : 0 < length := Nat.pos_of_ne_zero fun hz => hvalid (.inl hz)
  have hk := h.settled.le
  rw [h.availableSize]
  obtain ⟨d, hd, hres, hstamp, hroom, hsame, hmatch⟩ := h.matchPrefix (run.tic 0)
  rw [hd, hmatch] at hrun
  split at hrun
  · -- the whole prefix and its snapshot are resident
    rename_i hcached
    obtain ⟨hall, hnode⟩ := HybridRadixCache.matchUp_settled hres.wf hres.settled hpos
      (hk.trans hle) hcached
    rw [hnode] at hrun
    cases hrun
    refine ⟨0, fun _ => rfl, ?_⟩
    rw [hres.lock.availableSize, room_lock hres.wf, hroom, hsame]
    omega
  obtain ⟨t, hstamp', hwalk⟩ := hres.walk (run.tic 1)
  rw [hwalk] at hrun
  dsimp only at hrun
  have hp' := protected_restamped (protected_restamped hp hstamp) hstamp'
  have hdelta : t.lockDelta n = m.cache.lockDelta n :=
    (lockDelta_congr hstamp'.toSameShape fun a _ => hstamp'.refCount a).trans hsame
  obtain ⟨locked, hlocked, hres, ⟨rest', hsec, hn⟩, hlockRoom⟩ :=
    (hres.restamped hstamp').lockResident hp'
  rw [hlocked] at hrun
  obtain ⟨⟨e, allocated⟩, hal, hrun⟩ := Option.bind_eq_some_iff.mp hrun
  obtain ⟨hres, hsec, hallocRoom⟩ := hres.allocate ⟨hsec, hn.imp_right
    fun hr => List.mem_append_right _ hr⟩ hal
  obtain ⟨⟨f, slot⟩, hac, hrun⟩ := Option.bind_eq_some_iff.mp hrun
  obtain ⟨hres, gain, hnil, hgain⟩ := hres.acquireMambaSlot hsec.1 hn hac
  split at hrun
  · cases hrun
  obtain ⟨g, hun, hrun⟩ := Option.bind_eq_some_iff.mp hrun
  obtain ⟨hres, hunlockRoom⟩ := hres.unlockResident hun
  obtain ⟨hall, havail⟩ := hres.installPrefix hpos hle hrun
  -- the temporary lock and the final one cancel, and so do the leaf and its lock
  have hstart : room { d with cache := { d.cache with toRadixTree := t } } = m.room := hroom
  have hbefore : locked.room = m.room - m.cache.lockDelta n := by
    rw [hlockRoom, hstart]
    exact congrArg (fun x : Nat => m.room - (x : ℤ)) hdelta
  refine ⟨gain, hnil, ?_⟩
  rw [havail, hunlockRoom, hgain, hallocRoom, hbefore]
  omega

/-- The walk of the prediction settles the tokens. -/
theorem restoring_footprint (hw : m.cache.Wf) (hps : m.cache.pageSize = 1) (toks : List Token)
    (tic : Time) :
    Restoring (m.sessionRestoreFootprint toks tic).1 ((m.numPages : ℤ) - m.committedPages) toks
      (m.cache.walk toks tic).2.1 (m.cache.walk toks tic).2.2 where
  wf := walk_wf toks tic hw
  settled := walk_settles hw toks tic
  pageSize := WalkKeeps.walk (P := fun t => t.pageSize = 1)
    ⟨fun _ _ _ _ _ h => h, fun _ _ _ _ _ h => h⟩ hw hps toks tic
  unbacked := rfl

theorem lock_unlock (hw : m.cache.Wf) (n : NodeId) :
    m.availableSize - (m.lock n).availableSize = m.cache.lockDelta n ∧
      m.mambaAvailableSize - (m.lock n).mambaAvailableSize = m.cache.mambaLockDelta n ∧
      ∃ back, (m.lock n).unlock n = some back ∧ back.availableSize = m.availableSize ∧
        back.mambaAvailableSize = m.mambaAvailableSize := by
  obtain ⟨hfull, hmamba, d, hd, hdf, hdm⟩ := HybridRadixCache.lock_unlock hw n
  have hpl := (counted_incLock m.cache n).pageSize
  have hpd := (counted_decLock hd).pageSize
  have hsize : (m.lock n).availableSize =
      m.toPageBudget.availableSize m.cache.pageSize (m.cache.incLock n).fullEvictable := by
    rw [availableSize, ← hpl]
    rfl
  refine ⟨?_, ?_, { m with cache := d }, ?_, ?_, ?_⟩
  · rw [hsize, availableSize, PageBudget.availableSize_sub, hfull]
  · show (m.stateSlots.length + m.cache.mambaEvictable : ℤ) -
      (m.stateSlots.length + (m.cache.incLock n).mambaEvictable) = _
    omega
  · show ((m.cache.incLock n).decLock n).map _ = _
    rw [hd]
    rfl
  · show m.toPageBudget.availableSize d.pageSize d.fullEvictable = _
    rw [hdf, ← hpd, hpl]
    rfl
  · show (m.stateSlots.length + d.mambaEvictable : ℤ) = m.stateSlots.length + m.cache.mambaEvictable
    rw [hdm]

end HybridManager

-- ---------------------------------------------------------------------------
-- The predictions
-- ---------------------------------------------------------------------------

instance (s : LockState) (a : CacheOp) : Decidable (s.LockInTree a) :=
  match a with
  | .incLock n => inferInstanceAs (Decidable (n = root ∨ (s.cache.node n).linked = true))
  | .matchPrefix .. | .insert .. | .decLock _ | .evictFull .. | .evictMamba _ =>
    inferInstanceAs (Decidable True)

/-- What a successful restore takes is what was predicted, and less only by what leases gave
back on its way. -/
theorem restore_costs_footprint {m m' : HybridManager} {held : List NodeId}
    (hw : m.cache.Wf) (hp : Protected m.cache.toRadixTree held) {record : SessionRecord}
    {numTokens : Option Nat} {run : RestoreRun} (hleases : run.reclaimed.Subperm held) {tic : Time}
    {r : HybridMatch}
    (hrun : (m.sessionRestoreFootprint
        (record.tokenIds.take (numTokens.getD record.numPages)) tic).1.restoreHybridSessionPrefix
      record numTokens run = some (m', r)) :
    ∃ gain : Nat, (run.reclaimed = [] → gain = 0) ∧ m.availableSize - m'.availableSize =
      ((m.sessionRestoreFootprint
        (record.tokenIds.take (numTokens.getD record.numPages)) tic).2 : ℤ) - gain := by
  generalize htoks : record.tokenIds.take (numTokens.getD record.numPages) = toks at hrun ⊢
  obtain ⟨rest, hperm⟩ : ∃ rest, (run.reclaimed ++ rest).Perm held := by
    obtain ⟨l, hl, hsub⟩ := hleases
    obtain ⟨rest, hrest⟩ := hsub.exists_perm_append
    exact ⟨rest, (hl.symm.append_right rest).trans hrest.symm⟩
  have hpw : Protected (m.cache.walk toks tic).1.toRadixTree (run.reclaimed ++ rest) :=
    ((Protected.walkKeeps held).walk hw hp toks tic).perm hperm
  -- a restore with pages of another size raises
  by_cases hps : m.cache.pageSize = 1
  · have h := HybridManager.restoring_footprint hw hps toks tic
    subst htoks
    obtain ⟨gain, hnil, hcost⟩ := HybridManager.restore_room h hpw hrun
    refine ⟨gain, hnil, ?_⟩
    have hsame : (m.sessionRestoreFootprint
        (record.tokenIds.take (numTokens.getD record.numPages)) tic).1.availableSize =
          m.availableSize := by
      rw [h.availableSize, HybridManager.availableSize, PageBudget.availableSize, hps]
      show m.cache.fullEvictable + (m.freeSlots.length : ℤ) + _ = _
      omega
    rw [← hsame, hcost]
    rfl
  · have hpsw : (m.sessionRestoreFootprint toks tic).1.cache.pageSize ≠ 1 := by
      have hkeep := WalkKeeps.walk (P := fun t => t.pageSize = m.cache.pageSize)
        ⟨fun _ _ _ _ _ h => h, fun _ _ _ _ _ h => h⟩ hw rfl toks tic
      exact fun he => hps (hkeep.symm.trans he)
    rw [HybridManager.restoreHybridSessionPrefix] at hrun
    dsimp only at hrun
    rw [if_pos hpsw] at hrun
    cases hrun

/-- In every state of the runs of the three caches: a lock takes what `lock_delta` and
`mamba_lock_delta` say and an unlock right after gives it back, and a restore takes what
`session_restore_footprint` says, unless it had to give back leases for its slot. -/
theorem predicted_costs_exact {ps window : Nat} (hps : 0 < ps) (hwindow : 0 < window)
    {log : List (PrefixCall × PrefixAnswer)} {a : PrefixState} {b : LockState} {c : SwaLockState}
    (ha : Trace PrefixState.call PrefixState.CallerOk (.init ps) log a)
    (hb : Reach LockState.step LockState.LockInTree (.init ps) b)
    (hc : Reach SwaLockState.step SwaLockState.CallerOk (.init ps window) c) :
    (∀ (budget : PageBudget) (handle : RadixCacheHandle), ∃ locked back,
      a.cache.lockHandle handle false = some locked ∧
      budget.availableSize ps a.cache.evictableSize -
        budget.availableSize ps locked.evictableSize = a.cache.lockDelta handle.node ∧
      locked.lockHandle handle true = some back ∧
      budget.availableSize ps back.evictableSize =
        budget.availableSize ps a.cache.evictableSize) ∧
    (∀ (budget : PageBudget) (n : NodeId), ∃ back,
      budget.availableSize ps c.cache.fullEvictable -
        budget.availableSize ps (c.cache.incLock n).1.fullEvictable = c.cache.lockDelta n ∧
      (c.cache.incLock n).1.decLock n (c.cache.incLock n).2 false = some back ∧
      budget.availableSize ps back.fullEvictable =
        budget.availableSize ps c.cache.fullEvictable) ∧
    ∀ m : HybridManager, m.cache = b.cache →
      (∀ n, m.availableSize - (m.lock n).availableSize = m.cache.lockDelta n ∧
        m.mambaAvailableSize - (m.lock n).mambaAvailableSize = m.cache.mambaLockDelta n ∧
        ∃ back, (m.lock n).unlock n = some back ∧ back.availableSize = m.availableSize ∧
          back.mambaAvailableSize = m.mambaAvailableSize) ∧
      ∀ (record : SessionRecord) (numTokens : Option Nat) (run : RestoreRun) (tic : Time)
        (predicted m' : HybridManager) (footprint : Nat) (r : HybridMatch),
        run.reclaimed.Subperm (b.locks.map Prod.fst) →
        m.sessionRestoreFootprint (record.tokenIds.take (numTokens.getD record.numPages)) tic =
          (predicted, footprint) →
        predicted.restoreHybridSessionPrefix record numTokens run = some (m', r) →
        ∃ gain : Nat, (run.reclaimed = [] → gain = 0) ∧
          m.availableSize - m'.availableSize = (footprint : ℤ) - gain := by
  have hwa := (PrefixState.HandleInv.run hps ha).inv.wf
  have hheld := hb.invariant (LockState.heldInv_init hps) fun _ _ _ h hok hst => h.step hok hst
  have hwc := (hc.invariant (SwaLockState.inv_init hps hwindow)
    fun _ _ _ h hok hst => h.step hok hst).ok.toSwaWf
  refine ⟨fun budget handle => ?_, fun budget n => ?_, fun m hm => ⟨fun n => ?_, ?_⟩⟩
  · obtain ⟨locked, hlock, hdelta, back, hback, hsame⟩ :=
      RadixPrefixCache.lock_unlock hwa handle
    exact ⟨locked, back, hlock, (budget.availableSize_sub ps _ _).trans hdelta, hback,
      by rw [hsame]⟩
  · obtain ⟨hdelta, back, hback, hsame⟩ := SWARadixCache.lock_unlock hwc n
    exact ⟨back, (budget.availableSize_sub ps _ _).trans hdelta, hback, by rw [hsame]⟩
  · exact HybridManager.lock_unlock (hm ▸ hheld.wf) n
  · intro record numTokens run tic predicted m' footprint r hleases hfoot hrun
    have hp : Protected m.cache.toRadixTree (b.locks.map Prod.fst) := hm ▸ hheld.held
    have hrun' : (m.sessionRestoreFootprint (record.tokenIds.take
        (numTokens.getD record.numPages)) tic).1.restoreHybridSessionPrefix record numTokens run =
          some (m', r) := by
      rw [hfoot]
      exact hrun
    have h := restore_costs_footprint (hm ▸ hheld.wf) hp hleases hrun'
    rw [hfoot] at h
    exact h

/-- A session of three tokens, two of them resident and unlocked. -/
def threeTokens : SessionRecord := ⟨[1, 2, 3], 3, [3]⟩

/-- Clocks after those of the runs below, and no lease to give back. -/
def undisturbed : RestoreRun := ⟨fun i => 6 + i, 9, id, [], true⟩

theorem resident_prefix_predicted : ∃ log a b c, ∃ m predicted m' : HybridManager, ∃ r,
    Trace PrefixState.call PrefixState.CallerOk (.init 1) log a ∧
      Reach LockState.step LockState.LockInTree (.init 1) b ∧
      Reach SwaLockState.step SwaLockState.CallerOk (.init 1 1) c ∧
      m.cache = b.cache ∧ m.availableSize - (m.lock 1).availableSize = m.cache.lockDelta 1 ∧
      m.sessionRestoreFootprint [1, 2, 3] 5 = (predicted, 3) ∧
      predicted.restoreHybridSessionPrefix threeTokens none undisturbed = some (m', r) ∧
      m.availableSize - m'.availableSize = 3 := by
  have ha : (traceRun PrefixState.call PrefixState.CallerOk (.init 1) []
      [.insertPrefix [1, 2] [10, 11] 1 1]).map (fun t => t.1.cache.lockDelta 1) = some 2 := by
    decide
  have hb : (guardedRun LockState.step LockState.LockInTree (.init 1)
      [.insert [1, 2] [10, 11] 7 none .chunk 1 1]).map (fun s =>
        let f := HybridManager.sessionRestoreFootprint ⟨⟨[12, 13], 4, 4⟩, s.cache, [8]⟩ [1, 2, 3] 5
        (f.2, (f.1.restoreHybridSessionPrefix threeTokens none undisturbed).map
          fun x => x.2.cachedLen)) = some (3, some 3) := by decide +kernel
  have hc : (guardedRun SwaLockState.step SwaLockState.CallerOk (.init 1 1)
      [.insert [1, 2] [10, 11] 0 0]).map (fun s => s.cache.lockDelta 1) = some 2 := by
    decide +kernel
  obtain ⟨⟨a, log⟩, ha, -⟩ := Option.map_eq_some_iff.mp ha
  obtain ⟨b, hb, hvalues⟩ := Option.map_eq_some_iff.mp hb
  obtain ⟨c, hc, -⟩ := Option.map_eq_some_iff.mp hc
  have ha := trace_of_traceRun ha
  have hb := reach_of_guardedRun _ hb
  have hc := reach_of_guardedRun _ hc
  dsimp only at hvalues
  generalize hm : (⟨⟨[12, 13], 4, 4⟩, b.cache, [8]⟩ : HybridManager) = m at hvalues
  have hcache : m.cache = b.cache := hm ▸ rfl
  generalize hfoot : m.sessionRestoreFootprint [1, 2, 3] 5 = f at hvalues
  obtain ⟨predicted, footprint⟩ := f
  obtain ⟨rfl, hvalues⟩ := Prod.mk.inj hvalues
  obtain ⟨⟨m', r⟩, hrun, -⟩ := Option.map_eq_some_iff.mp hvalues
  obtain ⟨hlock, hrestore⟩ :=
    (predicted_costs_exact Nat.one_pos Nat.one_pos ha hb hc).2.2 m hcache
  obtain ⟨gain, hnil, hcost⟩ := hrestore threeTokens none undisturbed 5 predicted m' 3 r
    List.nil_subperm hfoot hrun
  refine ⟨log, a, b, c, m, predicted, m', r, ha, hb, hc, hcache, (hlock 1).1, hfoot, hrun, ?_⟩
  rw [hcost, hnil rfl]
  rfl

/-- The pool has no state slot left, and the only snapshot is that of an idle lease. -/
def reclaiming : RestoreRun := ⟨fun i => 6 + i, 9, id, [1], true⟩

/-- A restore that gives a lease back for its slot: a token was predicted, and none is gone. -/
theorem reclaimed_lease_lowers_cost : ∃ b : LockState, ∃ m predicted m' : HybridManager, ∃ r,
    Reach LockState.step LockState.LockInTree (.init 1) b ∧ m.cache = b.cache ∧
      b.locks.map Prod.fst = reclaiming.reclaimed ∧
      m.sessionRestoreFootprint [2] 5 = (predicted, 1) ∧
      predicted.restoreHybridSessionPrefix ⟨[2], 1, [1]⟩ none reclaiming = some (m', r) ∧
      m.availableSize - m'.availableSize = 0 := by
  have hb : (guardedRun LockState.step LockState.LockInTree (.init 1)
      [.insert [1] [10] 7 none .chunk 1 1, .incLock 1]).map (fun s =>
        let m : HybridManager := ⟨⟨[11], 2, 2⟩, s.cache, []⟩
        let f := m.sessionRestoreFootprint [2] 5
        (s.locks.map Prod.fst, f.2, m.availableSize,
          (f.1.restoreHybridSessionPrefix ⟨[2], 1, [1]⟩ none reclaiming).map
            fun x => x.1.availableSize)) = some ([1], 1, 1, some 1) := by decide +kernel
  obtain ⟨b, hb, hvalues⟩ := Option.map_eq_some_iff.mp hb
  dsimp only at hvalues
  generalize hm : (⟨⟨[11], 2, 2⟩, b.cache, []⟩ : HybridManager) = m at hvalues
  have hcache : m.cache = b.cache := hm ▸ rfl
  generalize hfoot : m.sessionRestoreFootprint [2] 5 = f at hvalues
  obtain ⟨predicted, footprint⟩ := f
  obtain ⟨hlocks, hvalues⟩ := Prod.mk.inj hvalues
  obtain ⟨rfl, hvalues⟩ := Prod.mk.inj hvalues
  obtain ⟨havail, hvalues⟩ := Prod.mk.inj hvalues
  obtain ⟨⟨m', r⟩, hrun, hafter⟩ := Option.map_eq_some_iff.mp hvalues
  dsimp only at hafter
  refine ⟨b, m, predicted, m', r, reach_of_guardedRun _ hb, hcache, hlocks, hfoot, hrun, ?_⟩
  rw [havail, hafter]
  rfl

end FreeToken.KvCache
