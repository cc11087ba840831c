import FreeToken.KvCache.PrefixEviction
import FreeToken.KvCache.PrefixRuns
import FreeToken.Lib.Trace

/-!
# The prefix cache as a map

Runs of the prefix cache with the handles it has handed out and the locks that are
held. A caller locks a handle before an eviction could take its node, ends the locks
it took, and evicts no more than `evictable_size`.

Every such run is a run of the map from whole-page prefixes to their pages: a match
returns the longest stored prefix, an insert fills in what is missing, and an eviction
takes the pages of some prefixes away.

## Results

* `walk_longest`, `insertPrefix_spec`, `evict_spec` — one lemma a call;
* `prefix_cache_refines_map` — the runs, the counters and what an eviction delivers.
-/

namespace FreeToken.KvCache

open FreeToken.Lib RadixTree LockInv

/-- A lock that is held: its handle, and the pages the handle stood for when it was
taken. -/
structure PrefixLock where
  handle : RadixCacheHandle
  indices : List KvIndex
  deriving DecidableEq, Repr

structure PrefixState where
  cache : RadixPrefixCache
  handles : List RadixCacheHandle
  locks : List PrefixLock

inductive PrefixCall
  | matchPrefix (inputIds : List Token) (tic : Time)
  | insertPrefix (inputIds : List Token) (indices : List KvIndex) (tic now : Time)
  /-- Lock the `i`-th handle handed out. -/
  | lock (i : Nat)
  /-- End the `i`-th lock held. -/
  | unlock (i : Nat)
  | evict (size : Nat) (ties : Nat → Nat)

inductive PrefixAnswer
  | matched (cachedLen : Nat) (indices : Option (List KvIndex))
  | inserted (cachedLen : Nat)
  | counted
  | evicted (indices : List KvIndex)
  deriving DecidableEq, Repr

namespace PrefixState

def init (pageSize : Nat) : PrefixState := ⟨.empty pageSize, [], []⟩

def call (s : PrefixState) : PrefixCall → Option (PrefixState × PrefixAnswer)
  | .matchPrefix inputIds tic =>
    let r := s.cache.matchPrefix inputIds tic
    some ({ s with cache := r.1, handles := s.handles ++ [r.2] },
      .matched r.2.cachedLen (r.1.getMatchedIndices r.2))
  | .insertPrefix inputIds indices tic now =>
    (s.cache.insertPrefix inputIds indices tic now).map fun r =>
      ({ s with cache := r.1, handles := s.handles ++ [r.2.2] }, .inserted r.2.1)
  | .lock i =>
    s.handles[i]?.bind fun handle =>
      (s.cache.lockHandle handle false).map fun c =>
        ({ s with cache := c, locks := ⟨handle, s.cache.collectKv handle.node⟩ :: s.locks },
          .counted)
  | .unlock i =>
    s.locks[i]?.bind fun lock =>
      (s.cache.lockHandle lock.handle true).map fun c =>
        ({ s with cache := c, locks := s.locks.eraseIdx i }, .counted)
  | .evict size ties =>
    (s.cache.evict size ties).map fun r => ({ s with cache := r.1 }, .evicted r.2)

/-- The caller's side: a handle is locked while its node is in the tree, and no more
is evicted than there is. -/
def CallerOk (s : PrefixState) : PrefixCall → Prop
  | .lock i => ∀ handle ∈ s.handles[i]?, s.cache.InTree handle.node
  | .evict size _ => size ≤ s.cache.evictableSize
  | _ => True

instance (s : PrefixState) (a : PrefixCall) : Decidable (s.CallerOk a) :=
  match a with
  | .lock i => inferInstanceAs (Decidable (∀ handle ∈ s.handles[i]?,
      handle.node = root ∨ (s.cache.node handle.node).linked = true))
  | .evict size _ => inferInstanceAs (Decidable ((size : Int) ≤ s.cache.evictableSize))
  | .matchPrefix .. | .insertPrefix .. | .unlock _ => inferInstanceAs (Decidable True)

/-- The nodes that are locked, one entry a lock. -/
def held (s : PrefixState) : List NodeId := s.locks.map fun k => k.handle.node

end PrefixState

namespace PrefixMap

/-- `len` is the longest whole-page prefix of `ids` that the map stores. -/
structure Longest (m : PrefixMap) (ps : Nat) (ids : List Token) (len : Nat) : Prop where
  le : len ≤ ids.length
  aligned : ps ∣ len
  stored : ∀ k ≤ len, k ≠ 0 → ps ∣ k → (m.page (ids.take k)).isSome
  longest : ∀ k ≤ ids.length, k ≠ 0 → ps ∣ k → (m.page (ids.take k)).isSome → k ≤ len

/-- What a call of the prefix cache may answer, and the map it leaves. -/
def Answers (ps : Nat) (m : PrefixMap) : PrefixCall → PrefixAnswer → PrefixMap → Prop
  | .matchPrefix ids _, .matched len indices, m' =>
    m' = m ∧ m.Longest ps ids len ∧ (indices = none ↔ len = 0) ∧
      ∀ kv ∈ indices, kv.length = len ∧
        ∀ i < len, ∃ b, m.page (ids.take ((i / ps + 1) * ps)) = some b ∧ b[i % ps]? = kv[i]?
  | .insertPrefix ids kv _ _, .inserted len, m' =>
    m' = m.addPages ps (ids.take (alignDown ids.length ps)) kv ∧ m.Longest ps ids len
  | .lock _, .counted, m' => m' = m
  | .unlock _, .counted, m' => m' = m
  | .evict size _, .evicted kv, m' => size ≤ kv.length ∧ m.Evicts kv [] m'
  | _, _, _ => False

end PrefixMap

namespace RadixPrefixCache

variable {c c' : RadixPrefixCache} {m : PrefixMap} {held : List NodeId} {ids : List Token}
  {tic : Time}

theorem walk_pageSize (hw : c.Wf) (ids : List Token) (tic : Time) :
    (c.walk ids tic).1.pageSize = c.pageSize :=
  WalkKeeps.walk (P := fun u => u.pageSize = c.pageSize)
    ⟨fun _ _ _ _ _ h => h, fun _ _ _ _ _ h => h⟩ hw rfl ids tic

/-- A walk takes the longest stored prefix. -/
theorem walk_longest (hw : c.Wf) (h : c.Refines m) (ids : List Token) (tic : Time) :
    m.Longest c.pageSize ids (c.walk ids tic).2.2 := by
  have hend := walk_end ids tic hw
  have hwalk := walk_wf ids tic hw
  have href := Refines.walk hw h ids tic
  have htok := walk_tokens hw ids tic
  have hps := walk_pageSize hw ids tic
  have hbound := hend.bound
  have hpages := hend.pages
  rw [Nat.zero_add] at hbound
  rw [Nat.sub_zero] at hpages
  refine ⟨hbound, hpages, fun k hk hk0 hdvd => ?_, fun k hk hk0 hdvd hstored => ?_⟩
  · have hlen : (ids.take k).length = k := List.length_take_of_le (hk.trans hbound)
    have hq : (c.walk ids tic).1.WholePages (ids.take k) := by
      refine ⟨List.ne_nil_of_length_pos ?_, ?_⟩
      · rw [hlen]
        exact Nat.pos_of_ne_zero hk0
      · rw [hlen, hps]
        exact hdvd
    have hpre : ids.take k <+: (c.walk ids tic).1.pathTokens (c.walk ids tic).2.1 := by
      rw [htok]
      exact List.take_prefix_take_left hk
    rw [(href.page _ _).mpr (blockAt_of_inTree hwalk hend.inTree hq hpre)]
    rfl
  · obtain ⟨b, hb⟩ := Option.isSome_iff_exists.mp hstored
    obtain ⟨-, a, ha, -⟩ := (href.page _ _).mp hb
    have hlen : (ids.take k).length = k := List.length_take_of_le hk
    have hle := le_walk hw (.inr ha.linked) ha.le (List.take_prefix _ _) (by rw [hlen, hps]; exact hdvd)
    rwa [hlen] at hle

/-- An insert takes whole pages only, and so does a match. -/
theorem longest_of_whole {ps len : Nat}
    (h : m.Longest ps (ids.take (alignDown ids.length ps)) len) : m.Longest ps ids len := by
  have htake : ∀ {k}, k ≤ alignDown ids.length ps →
      (ids.take (alignDown ids.length ps)).take k = ids.take k := fun hk => by
    rw [List.take_take, Nat.min_eq_left hk]
  have hle := h.le
  rw [List.length_take_of_le (alignDown_le _ _)] at hle
  refine ⟨hle.trans (alignDown_le _ _), h.aligned, fun k hk hk0 hdvd => ?_,
    fun k hk hk0 hdvd hstored => ?_⟩
  · rw [← htake (hk.trans hle)]
    exact h.stored k hk hk0 hdvd
  · have hwhole := le_alignDown hdvd hk
    refine h.longest k ?_ hk0 hdvd ?_
    · rwa [List.length_take_of_le (alignDown_le _ _)]
    · rwa [htake hwhole]

/-- A handle whose node stands for the tokens it was given for. -/
structure Stands (c : RadixPrefixCache) (handle : RadixCacheHandle) (toks : List Token) : Prop where
  inTree : c.InTree handle.node
  pathTokens : c.pathTokens handle.node = toks
  cachedLen : handle.cachedLen = toks.length

theorem matchPrefix_stands (hw : c.Wf) (ids : List Token) (tic : Time) :
    Stands (c.matchPrefix ids tic).1 (c.matchPrefix ids tic).2 (ids.take (c.walk ids tic).2.2) := by
  have hbound := (walk_end ids tic hw).bound
  rw [Nat.zero_add] at hbound
  exact ⟨(walk_end ids tic hw).inTree, walk_tokens hw ids tic, (List.length_take_of_le hbound).symm⟩

/-- The pages a handle gives, position by position. -/
theorem Stands.indices {handle : RadixCacheHandle} {len : Nat} (hs : Stands c handle (ids.take len))
    (hw : c.Wf) (h : c.Refines m) (hlen : len ≤ ids.length) :
    (c.getMatchedIndices handle = none ↔ len = 0) ∧
      ∀ kv ∈ c.getMatchedIndices handle, kv.length = len ∧ ∀ i < len,
        ∃ b, m.page (ids.take ((i / c.pageSize + 1) * c.pageSize)) = some b ∧
          b[i % c.pageSize]? = kv[i]? := by
  have hlength : (ids.take len).length = len := List.length_take_of_le hlen
  have hroot : c.rootPath handle.node = [] ↔ len = 0 := by
    constructor
    · intro hpath
      have htok := hs.pathTokens
      rw [RadixTree.pathTokens, hpath] at htok
      rw [← hlength, ← htok]
      rfl
    · rintro rfl
      rcases hs.inTree with hr | hl
      · rw [hr, hw.rootPath_root]
      · exfalso
        obtain ⟨p, hp, -⟩ := hw.linked_parent _ hl
        have htok := congrArg List.length hs.pathTokens
        have hkey := (hw.key_pages _ hl).1
        rw [pathTokens_child hw hp, List.length_append, List.take_zero, List.length_nil] at htok
        omega
  rw [getMatchedIndices]
  split
  · rename_i hpath
    refine ⟨⟨fun _ => hroot.mp hpath, fun _ => rfl⟩, fun kv hkv => ?_⟩
    cases hkv
  · rename_i hpath
    refine ⟨⟨fun hn => (Option.some_ne_none _ hn).elim, fun h0 => absurd (hroot.mpr h0) hpath⟩,
      fun kv hkv => ?_⟩
    cases hkv
    refine ⟨?_, fun i hi => ?_⟩
    · rw [length_collectKv hw hs.inTree, hs.pathTokens, hlength]
    · refine h.pages_at hw hs.inTree ?_ ?_
      · rw [hs.pathTokens]
        exact List.take_prefix _ _
      · rwa [hs.pathTokens, hlength]

variable {indices : List KvIndex} {now : Time} {len : Nat} {handle : RadixCacheHandle}

/-- An insert adds the missing pages to the map and gives a handle on all of them. -/
theorem insertPrefix_spec (hinv : PrefixInv c held) (h : c.Refines m)
    (hins : c.insertPrefix ids indices tic now = some (c', len, handle)) :
    PrefixInv c' held ∧ c'.pageSize = c.pageSize ∧ m.Longest c.pageSize ids len ∧
      c'.Refines (m.addPages c.pageSize (ids.take (alignDown ids.length c.pageSize)) indices) ∧
      Stands c' handle (ids.take (alignDown ids.length c.pageSize)) := by
  have hlen : (ids.take (alignDown ids.length c.pageSize)).length =
      alignDown ids.length c.pageSize := List.length_take_of_le (alignDown_le _ _)
  have hpages : c.pageSize ∣ (ids.take (alignDown ids.length c.pageSize)).length :=
    hlen.symm ▸ dvd_alignDown _ _
  simp only [insertPrefix] at hins
  rw [← PrefixMap.addPages_take _ _ _ _ hlen.le]
  have hlongest := fun tic => longest_of_whole (walk_longest hinv.wf h
    (ids.take (alignDown ids.length c.pageSize)) tic)
  generalize ids.take (alignDown ids.length c.pageSize) = whole at hins hlen hpages hlongest ⊢
  have hw := hinv.wf
  have hend := walk_end whole tic hw
  have hwalk := hinv.walk whole tic
  have href := Refines.walk hw h whole tic
  have htok := walk_tokens hw whole tic
  have hps := walk_pageSize hw whole tic
  have hbound := hend.bound
  rw [Nat.zero_add] at hbound
  split at hins
  · -- all of it is in the tree
    rename_i hdone
    cases hins
    rw [← hlen] at hdone
    rw [hdone, List.take_length] at htok
    have hadd := href.addPages_of_inTree hwalk.wf hend.inTree
      (indices.take (alignDown ids.length c.pageSize))
    rw [htok, hps] at hadd
    exact ⟨hwalk, hps, hlongest tic, hadd, hend.inTree, htok, hlen.symm⟩
  -- the rest becomes a new leaf
  rename_i hshort
  split at hins
  · cases hins
  rename_i hvalue
  rw [not_not] at hvalue
  cases hins
  have hok := HybridRadixCache.leafOk_of_walk hw hpages (by rwa [hlen]) hvalue
  have hplen : ((c.walk whole tic).1.pathTokens (c.walk whole tic).2.1).length =
      (c.walk whole tic).2.2 := by
    rw [htok, List.length_take_of_le hbound]
  have hall : (c.walk whole tic).1.pathTokens (c.walk whole tic).2.1 ++
      whole.drop (c.walk whole tic).2.2 = whole := by
    rw [htok, List.take_append_drop]
  refine ⟨hwalk.addLeaf now hok, hps, hlongest tic, ?_, .inr ?_, ?_, hlen.symm⟩
  · rw [← hplen] at hok
    have hleaf := href.addLeaf hwalk.wf now hok fun q b hb hq => by
      obtain ⟨⟨-, hdvd⟩, k, hk, -⟩ := hb
      rw [hplen] at hq ⊢
      rw [hall] at hq
      exact le_walk hw (.inr hk.linked) hk.le hq hdvd
    rw [hplen, hall, hps] at hleaf
    exact hleaf
  · exact congrArg Node.linked (addLeaf_new _ _ _ _ _)
  · refine (concat_addLeaf_new hwalk.wf hok Node.key).trans ?_
    rw [addLeaf_new]
    exact hall

/-- Enough pages for the prompt, and an insert succeeds. -/
theorem insertPrefix_isSome (c : RadixPrefixCache) (tic now : Time)
    (hlen : ids.length ≤ indices.length) : (c.insertPrefix ids indices tic now).isSome := by
  simp only [insertPrefix]
  split
  · rfl
  rw [if_neg]
  · rfl
  rw [not_not, List.length_drop, List.length_drop, List.length_take, List.length_take,
    Nat.min_eq_left (alignDown_le _ _), Nat.min_eq_left ((alignDown_le _ _).trans hlen)]

-- ---------------------------------------------------------------------------
-- Eviction
-- ---------------------------------------------------------------------------

/-- An eviction of `c` left `c'` and returned `indices`, the pages of `nodes`. -/
structure Returned (c c' : RadixPrefixCache) (indices : List KvIndex) (nodes : List NodeId) :
    Prop where
  nodup : nodes.Nodup
  unlocked : ∀ n ∈ nodes, (c.node n).linked = true ∧ (c.node n).refCount = 0
  values : indices = nodes.flatMap fun n => (c.node n).value
  linked : ∀ n, (c'.node n).linked = true ↔ (c.node n).linked = true ∧ n ∉ nodes
  refCount : ∀ n, (c'.node n).refCount = (c.node n).refCount
  value : ∀ n, (c'.node n).value = (c.node n).value
  pages : (indices : Multiset KvIndex) + c'.total Node.pages = c.total Node.pages

theorem returned_refl (c : RadixPrefixCache) : Returned c c [] [] where
  nodup := List.nodup_nil
  unlocked := fun _ hn => absurd hn List.not_mem_nil
  values := rfl
  linked := fun _ => ⟨fun hl => ⟨hl, List.not_mem_nil⟩, fun hl => hl.1⟩
  refCount := fun _ => rfl
  value := fun _ => rfl
  pages := zero_add _

/-- Where no page is in the tree twice, none is returned twice. -/
theorem Returned.once {nodes : List NodeId} (h : Returned c c' indices nodes)
    (hnd : (c.total Node.pages).Nodup) : indices.Nodup := by
  rw [← h.pages, Multiset.nodup_add] at hnd
  exact Multiset.coe_nodup.mp hnd.1

theorem returned_takeLeaf {e : PrefixEvicting} {nodes : List NodeId} {n : NodeId}
    (h : Returned c e.cache e.evictedIndices nodes) (hw : e.cache.Wf)
    (hn : (e.cache.node n).linked = true) (href : (e.cache.node n).refCount = 0) :
    Returned c (takeLeaf e n).cache (takeLeaf e n).evictedIndices (nodes ++ [n]) := by
  obtain ⟨hl, hnew⟩ := (h.linked n).mp hn
  refine ⟨?_, fun m hm => ?_, ?_, fun m => ?_, fun m => ?_, fun m => ?_, ?_⟩
  · rw [List.nodup_append]
    refine ⟨h.nodup, List.nodup_singleton n, fun a ha b hb hab => hnew ?_⟩
    rw [← List.mem_singleton.mp hb, ← hab]
    exact ha
  · rcases List.mem_append.mp hm with hm | hm
    · exact h.unlocked m hm
    · rw [List.mem_singleton.mp hm]
      exact ⟨hl, (h.refCount n).symm.trans href⟩
  · rw [List.flatMap_append, List.flatMap_singleton, ← h.values, ← h.value]
    rfl
  · show ((e.cache.unlink n).node m).linked = true ↔ _
    rw [unlink_node, List.mem_append, List.mem_singleton]
    split
    · rename_i hmn
      simp [hmn]
    · rename_i hmn
      rw [h.linked, or_iff_left hmn]
  · exact (unlink_field _ n m Node.refCount fun _ => rfl).trans (h.refCount m)
  · exact (unlink_field _ n m Node.value fun _ => rfl).trans (h.value m)
  · have htot := total_unlink Node.pages hw hn
    rw [← h.pages, ← htot]
    show ((e.evictedIndices ++ (e.cache.node n).value : List KvIndex) : Multiset KvIndex) + _ = _
    rw [← Multiset.coe_add, add_assoc, add_comm ((e.cache.node n).value : Multiset KvIndex)]
    rfl

/-- What an eviction has taken from the map so far. -/
def Lost (m : PrefixMap) (e : PrefixEvicting) : Prop :=
  ∃ gone : List (List Token), ∃ blocks : List (List KvIndex),
    gone.Nodup ∧ gone.map m.page = blocks.map some ∧ e.evictedIndices = blocks.flatten ∧
      e.cache.Refines (m.erase gone [])

theorem lost_takeLeaf {e : PrefixEvicting} {n : NodeId} (h : Lost m e) (hw : e.cache.Wf)
    (hn : (e.cache.node n).linked = true) : Lost m (takeLeaf e n) := by
  obtain ⟨gone, blocks, hgone, hpages, hkv, href⟩ := h
  obtain ⟨own, more, hown, hmap, hflat, hdrop⟩ := HybridRadixCache.unlink_pages hw href hn
  obtain ⟨hnd, hall, hrefines⟩ := HybridRadixCache.erase_append hgone hpages hown hmap hdrop
  refine ⟨gone ++ own, blocks ++ more, hnd, hall, ?_, hrefines⟩
  rw [List.flatten_append, hflat, ← hkv]
  rfl

/-- What `evict` keeps: the books of what it returned. -/
structure Books (c : RadixPrefixCache) (m : PrefixMap) (e : PrefixEvicting) : Prop where
  size : e.evictedSize = e.evictedIndices.length
  pageSize : e.cache.pageSize = c.pageSize
  returned : ∃ nodes, Returned c e.cache e.evictedIndices nodes
  lost : Lost m e

theorem evictKeeps_books (c : RadixPrefixCache) (m : PrefixMap) (held : List NodeId) :
    EvictKeeps held (Books c m) := by
  intro e n hinv hn _ href h
  obtain ⟨nodes, hret⟩ := h.returned
  refine ⟨?_, h.pageSize, ⟨_, returned_takeLeaf hret hinv.wf hn href⟩,
    lost_takeLeaf h.lost hinv.wf hn⟩
  show e.evictedSize + (e.cache.node n).length = (e.evictedIndices ++ (e.cache.node n).value).length
  rw [List.length_append, ← h.size, hinv.wf.key_value n hn]
  rfl

theorem evict_returns (hinv : PrefixInv c held) (h : c.Refines m) {size : Nat}
    (ties : Nat → Nat) (hsize : size ≤ c.evictableSize) :
    ∃ e, c.evict size ties = some (e.cache, e.evictedIndices) ∧ size ≤ e.evictedIndices.length ∧
      PrefixInv e.cache held ∧ Books c m e := by
  obtain ⟨e, he, hmore, hinv', hb⟩ := evict_spec (evictKeeps_books c m held) ties hinv hsize
    ⟨rfl, rfl, ⟨[], returned_refl c⟩, [], [], List.nodup_nil, rfl, rfl, m.erase_nil.symm ▸ h⟩
  exact ⟨e, he, hb.size ▸ hmore, hinv', hb⟩

theorem Lost.evicts {e : PrefixEvicting} (h : Lost m e) :
    ∃ m', m.Evicts e.evictedIndices [] m' ∧ e.cache.Refines m' := by
  obtain ⟨gone, blocks, hgone, hpages, hkv, href⟩ := h
  exact ⟨_, ⟨gone, [], blocks, hgone, List.nodup_nil, hpages, hkv, rfl, rfl⟩, href⟩

theorem refines_lock (h : c.Refines m) {unlock : Bool}
    (hlock : c.lockHandle handle unlock = some c') :
    c'.pageSize = c.pageSize ∧ c'.Refines m := by
  cases unlock with
  | false =>
    have hc := counted_lock hlock
    exact ⟨hc.pageSize, h.of_unmoved ⟨hc.toSameShape, hc.mambaValue, hc.pooledSums⟩⟩
  | true =>
    have hc := counted_unlock hlock
    exact ⟨hc.pageSize.symm, h.of_unmoved ⟨⟨hc.pageSize.symm, hc.next.symm,
      fun m => (hc.parent m).symm, fun m => (hc.linked m).symm, fun m => (hc.key m).symm,
      fun m => (hc.value m).symm⟩, fun m => (hc.mambaValue m).symm,
      fun m => (hc.pooledSums m).symm⟩⟩

end RadixPrefixCache

namespace PrefixState

open RadixPrefixCache

variable {s s' : PrefixState} {m : PrefixMap}

/-- The counters are the lengths they stand for, and no call fails that should not. -/
structure Delivers (s : PrefixState) : Prop where
  evictableSize : s.cache.evictableSize =
    s.cache.total fun x => if x.refCount = 0 then (x.length : ℤ) else 0
  protectedSize : s.cache.protectedSize =
    s.cache.total fun x => if x.refCount = 0 then 0 else (x.length : ℤ)
  inserts : ∀ inputIds indices tic now, inputIds.length ≤ indices.length →
    (s.cache.insertPrefix inputIds indices tic now).isSome
  unlocks : ∀ k ∈ s.locks, (s.cache.lockHandle k.handle true).isSome
  evicts : ∀ (size : Nat) ties, size ≤ s.cache.evictableSize → ∃ c indices nodes,
    s.cache.evict size ties = some (c, indices) ∧ size ≤ indices.length ∧
      Returned s.cache c indices nodes ∧ ((s.cache.total Node.pages).Nodup → indices.Nodup)

theorem delivers (hinv : PrefixInv s.cache s.held) (h : s.cache.Refines m) : s.Delivers where
  evictableSize := hinv.sized.evictable
  protectedSize := hinv.sized.protected
  inserts := fun _ _ tic now hlen => insertPrefix_isSome s.cache tic now hlen
  unlocks := fun k hk => unlock_isSome hinv.refs hinv.wf (List.mem_map_of_mem hk)
  evicts := fun size ties hsize => by
    obtain ⟨e, he, hmore, -, hb⟩ := evict_returns hinv h ties hsize
    obtain ⟨nodes, hret⟩ := hb.returned
    exact ⟨e.cache, e.evictedIndices, nodes, he, hmore, hret, hret.once⟩

/-- One call is one step of the map. -/
theorem call_answers {ps : Nat} {a : PrefixCall} {r : PrefixAnswer}
    (hinv : PrefixInv s.cache s.held) (hps : s.cache.pageSize = ps) (h : s.cache.Refines m)
    (hok : s.CallerOk a) (hcall : s.call a = some (s', r)) :
    PrefixInv s'.cache s'.held ∧ s'.cache.pageSize = ps ∧
      ∃ m', m.Answers ps a r m' ∧ s'.cache.Refines m' := by
  subst hps
  cases a with
  | matchPrefix inputIds tic =>
    cases hcall
    have href := Refines.walk hinv.wf h inputIds tic
    have hwalk := hinv.walk inputIds tic
    have hps := walk_pageSize hinv.wf inputIds tic
    have hlongest := walk_longest hinv.wf h inputIds tic
    have hpages := (matchPrefix_stands hinv.wf inputIds tic).indices hwalk.wf href hlongest.le
    rw [show (s.cache.matchPrefix inputIds tic).1.pageSize = s.cache.pageSize from hps] at hpages
    exact ⟨hwalk, hps, m, ⟨rfl, hlongest, hpages⟩, href⟩
  | insertPrefix inputIds indices tic now =>
    obtain ⟨⟨c, len, handle⟩, hins, hs'⟩ := Option.map_eq_some_iff.mp hcall
    cases hs'
    obtain ⟨hinv', hps, hlongest, href, -⟩ := insertPrefix_spec hinv h hins
    exact ⟨hinv', hps, _, ⟨rfl, hlongest⟩, href⟩
  | lock i =>
    obtain ⟨handle, hi, hcall⟩ := Option.bind_eq_some_iff.mp hcall
    obtain ⟨c, hlock, hs'⟩ := Option.map_eq_some_iff.mp hcall
    cases hs'
    obtain ⟨hps, href⟩ := refines_lock h hlock
    exact ⟨hinv.lock (hok handle hi) hlock, hps, m, rfl, href⟩
  | unlock i =>
    obtain ⟨k, hk, hcall⟩ := Option.bind_eq_some_iff.mp hcall
    obtain ⟨c, hun, hs'⟩ := Option.map_eq_some_iff.mp hcall
    cases hs'
    obtain ⟨hi, hki⟩ := List.getElem?_eq_some_iff.mp hk
    have hperm : (k :: s.locks.eraseIdx i).Perm s.locks := by
      rw [← hki]
      exact List.getElem_cons_eraseIdx_perm hi
    obtain ⟨hps, href⟩ := refines_lock h hun
    exact ⟨(hinv.perm (hperm.map fun k => k.handle.node)).unlock hun, hps, m, rfl, href⟩
  | evict size ties =>
    obtain ⟨e, he, hmore, hinv', hb⟩ := evict_returns hinv h ties hok
    rw [call, he] at hcall
    cases hcall
    obtain ⟨m', hev, href⟩ := hb.lost.evicts
    exact ⟨hinv', hb.pageSize, m', ⟨hmore, hev⟩, href⟩

/-- Every run of the cache answers as the map does, and in the state it ends in the
counters are the lengths of the unlocked and the locked nodes, and an eviction of no
more than there is returns that much: the pages of unlocked nodes, each once. -/
theorem prefix_cache_refines_map {ps : Nat} (hps : 0 < ps) {log : List (PrefixCall × PrefixAnswer)}
    (hs : Trace call CallerOk (init ps) log s) :
    ∃ m, Allows (PrefixMap.Answers ps) .empty log m ∧ s.cache.Refines m ∧ s.Delivers := by
  obtain ⟨m, hm, hinv, -, href⟩ := hs.refines
    (R := fun s m => PrefixInv s.cache s.held ∧ s.cache.pageSize = ps ∧ s.cache.Refines m)
    ⟨prefixInv_empty hps, rfl, refines_empty ps⟩ fun s m a s' r hr hok hcall => by
      obtain ⟨hinv, hps, m', hstep, href⟩ := call_answers hr.1 hr.2.1 hr.2.2 hok hcall
      exact ⟨m', hstep, hinv, hps, href⟩
  exact ⟨m, hm, href, delivers hinv href⟩

/-- Two prompts share a page; the second is locked and the rest of the first evicted. -/
theorem shared_page_refines : ∃ s log,
    Trace call CallerOk (init 2) log s ∧
      log.map Prod.snd = [.inserted 0, .inserted 2, .counted, .evicted [12, 13],
        .matched 2 (some [10, 11])] ∧
      ∃ m, Allows (PrefixMap.Answers 2) .empty log m ∧ s.cache.Refines m ∧ s.Delivers := by
  have hrun : (traceRun call CallerOk (init 2) []
      [.insertPrefix [1, 2, 3, 4, 9] [10, 11, 12, 13, 19] 1 1,
        .insertPrefix [1, 2, 5, 6] [20, 21, 22, 23] 2 2, .lock 1, .evict 1 fun _ => 0,
        .matchPrefix [1, 2, 3, 4] 3]).map (fun t => t.2.map Prod.snd) =
      some [.inserted 0, .inserted 2, .counted, .evicted [12, 13],
        .matched 2 (some [10, 11])] := by decide
  obtain ⟨⟨s, log⟩, ht, hlog⟩ := Option.map_eq_some_iff.mp hrun
  have htrace := trace_of_traceRun ht
  exact ⟨s, log, htrace, hlog, prefix_cache_refines_map Nat.two_pos htrace⟩

end PrefixState

end FreeToken.KvCache
