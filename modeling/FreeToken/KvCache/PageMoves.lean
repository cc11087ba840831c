import FreeToken.KvCache.GaugeRuns
import FreeToken.KvCache.RequestRows
import Mathlib.Tactic.Abel

/-!
# Where the pages are

The committed pages are on the free list, in the tree, or owned by one live request. A forward,
an admission, a fallback, an eviction and a growth move them between the three places.

## Results

* `RadixManager.InvOut` — the invariant, with pages that are in hand;
* `Inv.evict`, `allocate_spec`, `forwardRows_spec` — from the tree and the list to a batch;
* `Inv.locked` — a match and a lock, which move nothing;
* `forward_spec`, `matchReq_spec`, `retainPrefix_spec`, `release_spec`, `appendHost_spec`,
  `freeSpecTail_spec`, `evictAllUnlockedPrefixes_spec`, `addCommittedPages_spec` — one a call.
-/

namespace FreeToken.KvCache

open FreeToken.Lib RadixTree RadixPrefixCache

-- ---------------------------------------------------------------------------
-- The invariant
-- ---------------------------------------------------------------------------

/-- A live request: the tokens of its handle are the first of its own, its row has their pages,
and what follows in the row is whole pages. -/
structure ReqOk (c : RadixPrefixCache) (req : PagedReq) : Prop where
  aligned : c.pageSize ∣ req.cacheHandle.cachedLen
  handle_le : req.cacheHandle.cachedLen ≤ req.cachedLen
  stands : Stands c req.cacheHandle (req.inputIds.take req.cacheHandle.cachedLen)
  canonical : req.slice 0 req.cacheHandle.cachedLen = c.collectKv req.cacheHandle.node
  owned : IsPages c.pageSize (req.owned c.pageSize)

/-- The tokens of the pages some requests own. -/
def ownedBy (ps : Nat) (reqs : List PagedReq) : Multiset KvIndex :=
  (reqs.map fun req => (req.owned ps : Multiset KvIndex)).sum

namespace RadixManager

/-- The tokens of all committed pages. -/
def committed (s : RadixManager) : Multiset KvIndex :=
  pageToToken s.pageSize (pageRange s.pageSize s.pageIndexOffset 0 s.committedPages)

/-- The invariant, where `out` is in hand: it is in none of the three places. -/
structure InvOut (s : RadixManager) (m : PrefixMap) (out : Multiset KvIndex) : Prop where
  inv : PrefixInv s.prefixCache s.held
  refines : s.prefixCache.Refines m
  paged : ∀ q block, m.page q = some block → IsPages s.pageSize block
  aligned : ∀ b ∈ s.freeSlots, s.pageSize ∣ b
  reqs : ∀ req ∈ s.reqs, ReqOk s.prefixCache req
  conserved : (pageToToken s.pageSize s.freeSlots : Multiset KvIndex) +
    s.prefixCache.total Node.pages + ownedBy s.pageSize s.reqs + out = s.committed

def Inv (s : RadixManager) (m : PrefixMap) : Prop := s.InvOut m 0

end RadixManager

variable {c c' : RadixPrefixCache} {req req' : PagedReq} {m : PrefixMap} {held : List NodeId}
  {ps : Nat}

/-- A request is fine while its node stands for what it stood for. -/
theorem ReqOk.extends (h : ReqOk c req) (hw : c.Wf) (he : Extends c.toRadixTree c'.toRadixTree)
    (hps : c'.pageSize = c.pageSize) (hin : c'.InTree req.cacheHandle.node) : ReqOk c' req := by
  have hlt := hw.inTree_lt h.stands.inTree
  refine ⟨hps ▸ h.aligned, h.handle_le, ⟨hin, ?_, h.stands.cachedLen⟩, ?_, hps ▸ h.owned⟩
  · rw [he.pathTokens _ hlt, h.stands.pathTokens]
  · rw [he.collectKv _ hlt, h.canonical]

theorem ReqOk.le_input (h : ReqOk c req) : req.cacheHandle.cachedLen ≤ req.inputIds.length := by
  have hlen := h.stands.cachedLen
  rw [List.length_take] at hlen
  omega

/-- The pages of a handle are in the tree. -/
theorem collectKv_mem_total {t : RadixTree} (hw : t.Wf) {n : NodeId} (hn : t.InTree n)
    {x : KvIndex} (hx : x ∈ t.collectKv n) : x ∈ t.total Node.pages := by
  obtain ⟨k, hk, hkx⟩ := List.mem_flatMap.mp hx
  exact (mem_total hw).mpr
    ⟨k, hw.linked_of_mem_rootPath hn k (List.mem_reverse.mp hk), Multiset.mem_coe.mpr hkx⟩

/-- What `get_matched_indices` gives, the root's handle aside. -/
theorem getMatchedIndices_getD (t : RadixTree) (handle : RadixCacheHandle) :
    (t.getMatchedIndices handle).getD [] = t.collectKv handle.node := by
  rw [getMatchedIndices]
  split
  · rename_i hroot
    rw [Option.getD_none, collectKv, hroot]
    rfl
  · rfl

-- ---------------------------------------------------------------------------
-- One request among the others
-- ---------------------------------------------------------------------------

section Requests

variable {reqs : List PagedReq} {i : Nat}

theorem ownedBy_append (ps : Nat) (reqs reqs' : List PagedReq) :
    ownedBy ps (reqs ++ reqs') = ownedBy ps reqs + ownedBy ps reqs' := by
  rw [ownedBy, List.map_append, List.sum_append]
  rfl

/-- What one request owns, and what the others do. -/
theorem ownedBy_eraseIdx (hi : reqs[i]? = some req) :
    (req.owned ps : Multiset KvIndex) + ownedBy ps (reqs.eraseIdx i) = ownedBy ps reqs := by
  obtain ⟨hlt, rfl⟩ := List.getElem?_eq_some_iff.mp hi
  have hperm := (List.getElem_cons_eraseIdx_perm hlt).map
    fun req : PagedReq => (req.owned ps : Multiset KvIndex)
  exact (List.sum_cons.symm.trans hperm.sum_eq :)

theorem ownedBy_set (hlt : i < reqs.length) :
    ownedBy ps (reqs.set i req') =
      (req'.owned ps : Multiset KvIndex) + ownedBy ps (reqs.eraseIdx i) := by
  have hget : (reqs.set i req')[i]? = some req' := by
    rw [List.getElem?_set_self hlt]
  rw [← ownedBy_eraseIdx hget, List.eraseIdx_set_eq]

/-- A request that keeps its handle keeps the locks. -/
theorem map_node_set (hi : reqs[i]? = some req)
    (hnode : req'.cacheHandle.node = req.cacheHandle.node) :
    (reqs.set i req').map (fun req => req.cacheHandle.node) =
      reqs.map fun req => req.cacheHandle.node := by
  obtain ⟨hlt, rfl⟩ := List.getElem?_eq_some_iff.mp hi
  have hself := congrArg (List.map fun req => req.cacheHandle.node) (List.set_getElem_self hlt)
  rw [List.map_set] at hself
  rw [List.map_set, hnode]
  exact hself

theorem lt_of_getElem? (hi : reqs[i]? = some req) : i < reqs.length :=
  (List.getElem?_eq_some_iff.mp hi).1

end Requests

namespace RadixManager

variable {s s' : RadixManager} {out out' : Multiset KvIndex}

theorem InvOut.pos (h : s.InvOut m out) : 0 < s.pageSize := h.inv.wf.page_pos

theorem mem_held (hr : req ∈ s.reqs) : req.cacheHandle.node ∈ s.held :=
  List.mem_append_left _ (List.mem_map_of_mem hr)

/-- Other requests, on the same locks, that own what was in hand. -/
theorem InvOut.withReqs (h : s.InvOut m out) {reqs : List PagedReq}
    (hheld : reqs.map (fun req => req.cacheHandle.node) =
      s.reqs.map fun req => req.cacheHandle.node)
    (hreqs : ∀ req ∈ reqs, ReqOk s.prefixCache req)
    (hown : ownedBy s.pageSize reqs + out' = ownedBy s.pageSize s.reqs + out) :
    ({ s with reqs := reqs } : RadixManager).InvOut m out' where
  inv := by
    have hinv := h.inv
    rw [held, ← hheld] at hinv
    exact hinv
  refines := h.refines
  paged := h.paged
  aligned := h.aligned
  reqs := hreqs
  conserved := by
    have hall := h.conserved
    rw [add_assoc, ← hown, ← add_assoc] at hall
    exact hall

/-- Pages in hand are put on the list. -/
theorem InvOut.free (h : s.InvOut m out) {indices : List KvIndex}
    (hpages : IsPages s.pageSize indices) (hout : (indices : Multiset KvIndex) + out' = out) :
    (s.free indices).InvOut m out' where
  inv := h.inv
  refines := h.refines
  paged := h.paged
  aligned := fun b hb =>
    (List.mem_append.mp hb).elim (h.aligned b) (hpages.bases h.pos b)
  reqs := h.reqs
  conserved := by
    refine Eq.trans ?_ h.conserved
    show (pageToToken s.pageSize (s.freeSlots ++ pageBases s.pageSize indices) :
      Multiset KvIndex) + s.prefixCache.total Node.pages + ownedBy s.pageSize s.reqs + out' = _
    rw [pageToToken_append, hpages.tokens h.pos, ← Multiset.coe_add, ← hout]
    abel

end RadixManager

-- ---------------------------------------------------------------------------
-- Allocation
-- ---------------------------------------------------------------------------

/-- A request with the pages of its next tokens. -/
theorem forward_req (h : ReqOk c req) (n : Nat) {pages : List KvIndex}
    (hlen : pages.length =
      ({ req with deviceLen := req.cachedLen + n } : PagedReq).newPages c.pageSize)
    (hpos : 0 < c.pageSize) (hb : ∀ b ∈ pages, c.pageSize ∣ b)
    (hreq' : req' = (({ req with deviceLen := req.cachedLen + n } : PagedReq).write
      (pageCeil c.pageSize req.cachedLen) (pageToToken c.pageSize pages)).completeOne) :
    ReqOk c req' ∧ req'.owned c.pageSize = req.owned c.pageSize ++ pageToToken c.pageSize pages := by
  subst hreq'
  have hstart := le_pageCeil hpos req.cachedLen
  have hstop : pageCeil c.pageSize (req.cachedLen + n) =
      pageCeil c.pageSize req.cachedLen + (pageToToken c.pageSize pages).length := by
    have hmono := pageCeil_mono hpos (Nat.le_add_right req.cachedLen n)
    rw [length_pageToToken, hlen]
    show _ = _ + (divCeil (req.cachedLen + n) c.pageSize - divCeil req.cachedLen c.pageSize) * _
    rw [Nat.sub_mul]
    exact (Nat.add_sub_cancel' hmono).symm
  have howned : ((({ req with deviceLen := req.cachedLen + n } : PagedReq).write
      (pageCeil c.pageSize req.cachedLen)
        (pageToToken c.pageSize pages)).completeOne).owned c.pageSize =
      req.owned c.pageSize ++ pageToToken c.pageSize pages := by
    show PagedReq.slice _ req.cacheHandle.cachedLen (pageCeil c.pageSize (req.cachedLen + n)) = _
    rw [hstop, ← PagedReq.slice_append _ (h.handle_le.trans hstart) (Nat.le_add_right _ _)]
    exact congrArg₂ _ (PagedReq.write_slice_below _ _ (Nat.le_refl _))
      (PagedReq.slice_write _ _ _)
  refine ⟨⟨h.aligned, h.handle_le.trans (Nat.le_add_right _ _), h.stands, ?_, ?_⟩, howned⟩
  · exact (PagedReq.write_slice_below _ _ (h.handle_le.trans hstart)).trans h.canonical
  · rw [howned]
    exact h.owned.append (.of_bases hb)

namespace RadixManager

variable {s s' : RadixManager} {out out' : Multiset KvIndex}

/-- Other requests of a batch do not change what one of it needs. -/
theorem neededPages_set {reqs : List PagedReq} {i : Nat} {batch : List (Nat × Nat)}
    (hi : i ∉ batch.map Prod.fst) (req' : PagedReq) :
    neededPages ps (reqs.set i req') batch = neededPages ps reqs batch := by
  rw [neededPages, neededPages]
  congr 1
  refine List.map_congr_left fun a ha => ?_
  have hne : i ≠ a.1 := fun heq => hi (heq ▸ List.mem_map_of_mem ha)
  rw [scheduled, scheduled, List.getElem?_set_ne hne]

/-- A batch shares out what was allocated for it. -/
theorem forwardRows_spec (hpos : 0 < c.pageSize) {batch : List (Nat × Nat)} :
    ∀ {reqs : List PagedReq} {pages : List KvIndex}, (batch.map Prod.fst).Nodup →
      (∀ a ∈ batch, a.1 < reqs.length) → (∀ req ∈ reqs, ReqOk c req) →
      pages.length = neededPages c.pageSize reqs batch → (∀ b ∈ pages, c.pageSize ∣ b) →
      (∀ req ∈ forwardRows c.pageSize reqs batch pages, ReqOk c req) ∧
        (forwardRows c.pageSize reqs batch pages).map (fun req => req.cacheHandle.node) =
          reqs.map (fun req => req.cacheHandle.node) ∧
        ownedBy c.pageSize (forwardRows c.pageSize reqs batch pages) =
          ownedBy c.pageSize reqs + pageToToken c.pageSize pages := by
  induction batch with
  | nil =>
    intro reqs pages _ _ hreqs hlen _
    have hnil : pages = [] := List.length_eq_zero_iff.mp hlen
    refine ⟨hreqs, rfl, ?_⟩
    rw [forwardRows, hnil]
    exact (add_zero _).symm
  | cons a batch ih =>
    intro reqs pages hnodup hlt hreqs hlen hb
    obtain ⟨i, n⟩ := a
    obtain ⟨hfresh, hnodup⟩ := List.nodup_cons.mp hnodup
    have hi : i < reqs.length := hlt (i, n) List.mem_cons_self
    have hget : reqs[i]? = some reqs[i] := List.getElem?_eq_getElem hi
    have hok := hreqs _ (List.getElem_mem hi)
    generalize reqs[i] = req at hget hok
    have hsched : scheduled reqs i n = some { req with deviceLen := req.cachedLen + n } := by
      rw [scheduled, hget, Option.map_some]
    -- its share of the pages, and the rest
    generalize hk : ({ req with deviceLen := req.cachedLen + n } : PagedReq).newPages c.pageSize = k
    have hneed : neededPages c.pageSize reqs ((i, n) :: batch) =
        k + neededPages c.pageSize reqs batch := by
      rw [neededPages, List.map_cons, List.sum_cons, hsched, Option.map_some, Option.getD_some, hk]
      rfl
    rw [hneed] at hlen
    have htake : (pages.take k).length = k := List.length_take_of_le (by omega)
    obtain ⟨hok', howned⟩ := forward_req hok n (htake.trans hk.symm) hpos
      (fun b hm => hb b (List.mem_of_mem_take hm)) rfl
    rw [forwardRows, hsched]
    simp only [hk]
    generalize hreq' : (PagedReq.write { req with deviceLen := req.cachedLen + n }
      (pageCeil c.pageSize req.cachedLen)
        (pageToToken c.pageSize (pages.take k))).completeOne = req' at hok' howned ⊢
    have hnode : req'.cacheHandle.node = req.cacheHandle.node := by rw [← hreq']; rfl
    have hrest : (pages.drop k).length = neededPages c.pageSize (reqs.set i req') batch := by
      rw [List.length_drop, hlen, neededPages_set hfresh]
      omega
    have hlt' : ∀ a ∈ batch, a.1 < (reqs.set i req').length := fun a ha => by
      rw [List.length_set]
      exact hlt a (List.mem_cons_of_mem _ ha)
    have hset : ∀ r ∈ reqs.set i req', ReqOk c r := fun r hr =>
      (List.mem_or_eq_of_mem_set hr).elim (hreqs r) fun heq => heq ▸ hok'
    obtain ⟨hreqs', hheld, hown⟩ := ih hnodup hlt' hset hrest
      fun b hm => hb b (List.mem_of_mem_drop hm)
    refine ⟨hreqs', hheld.trans (map_node_set hget hnode), ?_⟩
    rw [hown, ownedBy_set hi, howned, ← ownedBy_eraseIdx hget, ← Multiset.coe_add]
    conv_rhs => rw [← List.take_append_drop k pages, pageToToken_append, ← Multiset.coe_add]
    abel

/-- Some free pages are taken off the list. -/
theorem Inv.take (h : s.Inv m) (k : Nat) :
    ({ s with freeSlots := s.freeSlots.drop k } : RadixManager).InvOut m
      (pageToToken s.pageSize (s.freeSlots.take k)) where
  inv := h.inv
  refines := h.refines
  paged := h.paged
  aligned := fun b hb => h.aligned b (List.mem_of_mem_drop hb)
  reqs := h.reqs
  conserved := by
    have hall := h.conserved
    rw [← List.take_append_drop k s.freeSlots, pageToToken_append, ← Multiset.coe_add,
      add_zero] at hall
    refine Eq.trans ?_ hall
    show (pageToToken s.pageSize (s.freeSlots.drop k) : Multiset KvIndex) +
      s.prefixCache.total Node.pages + ownedBy s.pageSize s.reqs +
        (pageToToken s.pageSize (s.freeSlots.take k) : Multiset KvIndex) = _
    abel

/-- What an eviction returns is free. -/
theorem Inv.evict (h : s.Inv m) {size : Nat} (ties : Nat → Nat)
    (hsize : size ≤ s.prefixCache.evictableSize) :
    ∃ c indices m', s.prefixCache.evict size ties = some (c, indices) ∧ size ≤ indices.length ∧
      IsPages s.pageSize indices ∧ c.pageSize = s.pageSize ∧
        ({ s with
          prefixCache := c
          freeSlots := s.freeSlots ++ pageBases s.pageSize indices } : RadixManager).Inv m' := by
  have hkeeps : EvictKeeps s.held fun e =>
      Books s.prefixCache m e ∧ Extends s.prefixCache.toRadixTree e.cache.toRadixTree :=
    fun e n hinv hn hleaf href hp =>
      ⟨evictKeeps_books _ m _ e n hinv hn hleaf href hp.1, hp.2.trans (.unlink _ n)⟩
  obtain ⟨e, he, hmore, hinv, hbooks, hext⟩ := evict_spec hkeeps ties h.inv hsize
    ⟨⟨rfl, rfl, ⟨[], returned_refl _⟩, [], [], List.nodup_nil, rfl, rfl,
      m.erase_nil.symm ▸ h.refines⟩, .refl _⟩
  obtain ⟨nodes, hret⟩ := hbooks.returned
  obtain ⟨gone, blocks, -, hpages, hkv, href⟩ := hbooks.lost
  have hwhole : IsPages s.pageSize e.evictedIndices := by
    rw [hkv]
    refine .flatten fun block hb => ?_
    have hmem : some block ∈ gone.map m.page := hpages ▸ List.mem_map_of_mem hb
    obtain ⟨q, -, hq⟩ := List.mem_map.mp hmem
    exact h.paged q block hq
  have hps : e.cache.pageSize = s.pageSize := hbooks.pageSize
  refine ⟨e.cache, e.evictedIndices, m.erase gone [], he, hbooks.size ▸ hmore, hwhole, hps, hinv,
    href, fun q block hq => ?_, fun b hb => ?_, fun req hr => ?_, ?_⟩
  · rw [pageSize, hps]
    exact h.paged q block (PrefixMap.erase_page_iff.mp hq).2
  · rw [pageSize, hps]
    exact (List.mem_append.mp hb).elim (h.aligned b) (hwhole.bases h.pos b)
  · exact (h.reqs req hr).extends h.inv.wf hext hps (hinv.inTree _ (mem_held hr))
  · have hall := h.conserved
    rw [← hret.pages] at hall
    rw [committed, pageSize, hps]
    refine Eq.trans ?_ hall
    show (pageToToken s.pageSize (s.freeSlots ++ pageBases s.pageSize e.evictedIndices) :
      Multiset KvIndex) + e.cache.total Node.pages + ownedBy s.pageSize s.reqs + 0 = _
    rw [pageToToken_append, hwhole.tokens h.pos, ← Multiset.coe_add]
    abel

theorem allocate_spec (h : s.Inv m) (needed : Nat) (ties : Nat → Nat)
    (hroom : ((needed * s.pageSize : Nat) : Int) ≤
      s.freeSlots.length * s.pageSize + s.prefixCache.evictableSize) :
    ∃ s' pages m', s.allocate needed ties = some (s', pages) ∧ pages.length = needed ∧
      (∀ b ∈ pages, s.pageSize ∣ b) ∧ s'.reqs = s.reqs ∧ s'.pageSize = s.pageSize ∧
        s'.InvOut m' (pageToToken s.pageSize pages) := by
  unfold allocate
  by_cases hfew : s.freeSlots.length < needed
  · -- the tree gives what is missing
    rw [if_pos hfew]
    have hsize : (((needed - s.freeSlots.length) * s.pageSize : Nat) : Int) ≤
        s.prefixCache.evictableSize := by
      rw [Nat.sub_mul]
      push_cast [Nat.mul_le_mul_right s.pageSize hfew.le] at hroom ⊢
      omega
    obtain ⟨c, indices, m', he, hmore, hwhole, hps, hinv⟩ := h.evict ties hsize
    have hcount : needed ≤ (s.freeSlots ++ pageBases s.pageSize indices).length := by
      rw [List.length_append]
      have hlen := congrArg List.length (hwhole.tokens h.pos)
      rw [length_pageToToken] at hlen
      rw [← hlen] at hmore
      have := Nat.le_of_mul_le_mul_right hmore h.pos
      omega
    rw [he, Option.bind_some, if_neg (Nat.not_lt.mpr hcount)]
    refine ⟨_, _, m', rfl, List.length_take_of_le hcount, fun b hb => ?_, rfl, hps, ?_⟩
    · have hal := hinv.aligned b (List.mem_of_mem_take hb)
      rwa [pageSize, hps] at hal
    · have htake := hinv.take needed
      rw [show ({ s with
        prefixCache := c
        freeSlots := s.freeSlots ++ pageBases s.pageSize indices } : RadixManager).pageSize =
          s.pageSize from hps] at htake
      exact htake
  · rw [if_neg hfew]
    exact ⟨_, _, m, rfl, List.length_take_of_le (Nat.not_lt.mp hfew),
      fun b hb => h.aligned b (List.mem_of_mem_take hb), rfl, rfl, h.take needed⟩

/-- The pages of a batch move from the list, and from the tree, to its requests. -/
theorem forward_spec (h : s.Inv m) {batch : List (Nat × Nat)} {ties : Nat → Nat}
    (hok : s.CallerOk (.forward batch ties)) :
    ∃ s' m', s.forward batch ties = some s' ∧ s'.Inv m' := by
  obtain ⟨hnodup, hlt, hroom⟩ := hok
  obtain ⟨a, pages, m', ha, hlen, hb, hreqs, hps, hout⟩ := allocate_spec h _ ties hroom
  have hsize : a.prefixCache.pageSize = s.pageSize := hps
  rw [← hsize] at hlen hb
  have hrows := forwardRows_spec hout.pos hnodup hlt (fun req hr => hout.reqs req (hreqs ▸ hr))
    hlen hb
  rw [hsize] at hrows
  obtain ⟨hok, hheld, hown⟩ := hrows
  rw [forward, ha, Option.map_some]
  refine ⟨_, m', rfl, hout.withReqs (hheld.trans ?_) hok ?_⟩
  · rw [hreqs]
  · rw [hps, hown, hreqs, add_zero]

-- ---------------------------------------------------------------------------
-- Admission
-- ---------------------------------------------------------------------------

/-- A match of `ids` and a lock of its handle, which move no page. -/
structure Locked (s : RadixManager) (m : PrefixMap) (ids : List Token) (c : RadixPrefixCache)
    (handle : RadixCacheHandle) : Prop where
  inv : PrefixInv c (handle.node :: s.held)
  refines : c.Refines m
  pageSize : c.pageSize = s.pageSize
  reqs : ∀ req ∈ s.reqs, ReqOk c req
  total : c.total Node.pages = s.prefixCache.total Node.pages
  le : handle.cachedLen ≤ ids.length
  aligned : s.pageSize ∣ handle.cachedLen
  stands : Stands c handle (ids.take handle.cachedLen)

theorem Inv.locked (h : s.Inv m) (ids : List Token) (tic : Time) :
    ∃ c, (s.prefixCache.matchPrefix ids tic).1.lockHandle (s.prefixCache.matchPrefix ids tic).2
        false = some c ∧ Locked s m ids c (s.prefixCache.matchPrefix ids tic).2 ∧
      c.collectKv (s.prefixCache.matchPrefix ids tic).2.node =
        (s.prefixCache.matchPrefix ids tic).1.collectKv
          (s.prefixCache.matchPrefix ids tic).2.node := by
  have hw := h.inv.wf
  have hstands := matchPrefix_stands hw ids tic
  have hlongest := walk_longest hw h.refines ids tic
  have hext := (Extends.insertKeeps s.prefixCache.toRadixTree [] 0).toWalkKeeps.walk hw
    (.refl _) ids tic
  have hpages := (HybridRadixCache.walkKeeps_pages _).walk hw rfl ids tic
  obtain ⟨c, hlock⟩ : ∃ c, (s.prefixCache.matchPrefix ids tic).1.lockHandle
    (s.prefixCache.matchPrefix ids tic).2 false = some c := ⟨_, rfl⟩
  have hshape := (counted_lock hlock).toSameShape
  have hrefines : (s.prefixCache.matchPrefix ids tic).1.Refines m :=
    Refines.walk hw h.refines ids tic
  obtain ⟨hps, href⟩ := refines_lock hrefines hlock
  have hinv : PrefixInv c (_ :: s.held) := (h.inv.walk ids tic).lock hstands.inTree hlock
  have hsize : c.pageSize = s.pageSize := hps.trans (walk_pageSize hw ids tic)
  refine ⟨c, hlock, ⟨hinv, href, hsize, fun req hr => ?_,
    (HybridRadixCache.total_pages_of_sameShape hshape).trans hpages, hlongest.le,
    hlongest.aligned, ?_⟩, hshape.collectKv_eq _⟩
  · exact (h.reqs req hr).extends hw (hext.trans (.of_sameShape hshape)) hsize
      (hinv.inTree _ (List.mem_cons_of_mem _ (mem_held hr)))
  · exact ⟨(hshape.inTree_iff _).mpr hstands.inTree,
      (hshape.pathTokens_eq _).trans hstands.pathTokens, hstands.cachedLen⟩

/-- A session's lock keeps what it stands for, and nothing else changes. -/
theorem retainPrefix_spec (h : s.Inv m) (inputIds : List Token) (cachedLen : Nat) (tic : Time) :
    ∃ s', s.retainPrefix inputIds cachedLen tic = some s' ∧ s'.Inv m := by
  obtain ⟨c, hlock, hl, -⟩ := h.locked (inputIds.take cachedLen) tic
  simp only [retainPrefix, hlock]
  refine ⟨_, rfl, hl.inv.perm ?_, hl.refines, fun q block hq => ?_, fun b hb => ?_, hl.reqs, ?_⟩
  · show List.Perm (_ ++ (s.leases ++ [_]).map RadixCacheHandle.node) _
    rw [List.map_append, ← List.append_assoc]
    exact List.perm_append_singleton _ _
  · rw [RadixManager.pageSize, hl.pageSize]
    exact h.paged q block hq
  · rw [RadixManager.pageSize, hl.pageSize]
    exact h.aligned b hb
  · have hall := h.conserved
    rw [← hl.total] at hall
    rw [committed, RadixManager.pageSize, hl.pageSize]
    exact hall

theorem release_spec (h : s.Inv m) {i : Nat} (hi : i < s.leases.length) :
    ∃ s', s.release i = some s' ∧ s'.Inv m := by
  have hget : s.leases[i]? = some s.leases[i] := List.getElem?_eq_getElem hi
  have hlease := (List.getElem_cons_eraseIdx_perm hi).map RadixCacheHandle.node
  generalize s.leases[i] = handle at hget hlease
  have hperm : (handle.node :: (s.reqs.map (fun req => req.cacheHandle.node) ++
      (s.leases.eraseIdx i).map RadixCacheHandle.node)).Perm s.held :=
    List.perm_middle.symm.trans (List.Perm.append_left _ hlease)
  have hinv := h.inv.perm hperm
  obtain ⟨c, hun⟩ := Option.isSome_iff_exists.mp
    (unlock_isSome hinv.refs h.inv.wf List.mem_cons_self)
  have hshape := (counted_unlock hun).toSameShape.symm
  obtain ⟨hps, href⟩ := refines_lock h.refines hun
  have hinv' := hinv.unlock hun
  have hsize : c.pageSize = s.pageSize := hps
  rw [release, hget, Option.bind_some, hun]
  refine ⟨_, rfl, hinv', href, fun q block hq => ?_, fun b hb => ?_, fun req hr => ?_, ?_⟩
  · rw [pageSize, hsize]
    exact h.paged q block hq
  · rw [pageSize, hsize]
    exact h.aligned b hb
  · exact (h.reqs req hr).extends h.inv.wf (.of_sameShape hshape) hsize
      (hinv'.inTree _ (List.mem_append_left _ (List.mem_map_of_mem hr)))
  · have hall := h.conserved
    rw [← HybridRadixCache.total_pages_of_sameShape hshape] at hall
    rw [committed, pageSize, hsize]
    exact hall

theorem matched_take (inputIds : List Token) (noPrefixCache : Bool) (len : Nat)
    (hlen : len ≤ (if noPrefixCache then [] else inputIds.take (inputIds.length - 1)).length) :
    (if noPrefixCache then [] else inputIds.take (inputIds.length - 1)).take len =
      inputIds.take len := by
  cases noPrefixCache with
  | true =>
    obtain rfl := Nat.le_zero.mp hlen
    rfl
  | false =>
    have hle : len ≤ inputIds.length - 1 := hlen.trans (List.length_take_le _ _)
    show (inputIds.take _).take len = _
    rw [List.take_take, Nat.min_eq_left hle]

/-- A request comes in on the pages of the longest prefix that is cached, and owns none. -/
theorem matchReq_spec (h : s.Inv m) {inputIds : List Token} (hne : inputIds ≠ [])
    (noPrefixCache : Bool) (stale : Nat → KvIndex) (tic : Time) :
    ∃ s', s.matchReq inputIds noPrefixCache stale tic = some s' ∧ s'.Inv m := by
  simp only [matchReq]
  rw [if_neg hne]
  have htake := matched_take inputIds noPrefixCache
  generalize (if noPrefixCache then [] else inputIds.take (inputIds.length - 1)) = ids at htake ⊢
  obtain ⟨c, hlock, hl, hkv⟩ := h.locked ids tic
  have hstands := hl.stands
  rw [htake _ hl.le] at hstands
  rw [hlock, Option.map_some, getMatchedIndices_getD, ← hkv]
  generalize (s.prefixCache.matchPrefix ids tic).2 = handle at hl hstands
  refine ⟨_, rfl, ?_⟩
  -- the row begins with the pages of the handle
  generalize hreq : (PagedReq.mk inputIds handle.cachedLen handle.cachedLen handle stale).write 0
    (c.collectKv handle.node) = req
  have hhandle : req.cacheHandle = handle := by rw [← hreq]; rfl
  have hlen : (c.collectKv handle.node).length = handle.cachedLen := by
    rw [length_collectKv hl.inv.wf hstands.inTree, hstands.pathTokens, ← hstands.cachedLen]
  have hcanon : req.slice 0 handle.cachedLen = c.collectKv handle.node := by
    have hslice := PagedReq.slice_write
      (PagedReq.mk inputIds handle.cachedLen handle.cachedLen handle stale) 0
        (c.collectKv handle.node)
    rw [Nat.zero_add, hlen, hreq] at hslice
    exact hslice
  have howned : req.owned s.pageSize = [] := by
    have hceil : pageCeil s.pageSize req.cachedLen = handle.cachedLen := by
      rw [← hreq]
      exact pageCeil_of_dvd h.pos hl.aligned
    rw [PagedReq.owned, PagedReq.paddedTail, hceil, hhandle]
    exact PagedReq.slice_nil _ (Nat.le_refl _)
  have hok : ReqOk c req := by
    refine ⟨?_, ?_, ?_, ?_, ?_⟩
    · rw [hhandle, hl.pageSize]
      exact hl.aligned
    · rw [← hreq]
      exact Nat.le_refl _
    · rw [hhandle, ← hreq]
      exact hstands
    · rw [hhandle, hcanon]
    · rw [hl.pageSize, howned]
      exact .nil _
  refine ⟨hl.inv.perm ?_, hl.refines, fun q block hq => ?_, fun b hb => ?_, fun r hr => ?_, ?_⟩
  · show List.Perm ((s.reqs ++ [req]).map _ ++ _) _
    rw [List.map_append, List.map_singleton, hhandle, List.append_assoc]
    exact List.perm_middle
  · rw [RadixManager.pageSize, hl.pageSize]
    exact h.paged q block hq
  · rw [RadixManager.pageSize, hl.pageSize]
    exact h.aligned b hb
  · rcases List.mem_append.mp hr with hr | hr
    · exact hl.reqs r hr
    · exact List.mem_singleton.mp hr ▸ hok
  · have hall := h.conserved
    rw [← hl.total] at hall
    rw [committed, RadixManager.pageSize, hl.pageSize]
    refine Eq.trans ?_ hall
    show _ + _ + ownedBy s.pageSize (s.reqs ++ [req]) + _ = _
    rw [ownedBy_append, ownedBy, ownedBy, List.map_singleton, List.sum_singleton, howned]
    simp only [Multiset.coe_nil, add_zero]

theorem appendHost_spec (h : s.Inv m) {i : Nat} (hi : i < s.reqs.length) (token : Token) :
    ∃ s', s.appendHost i token = some s' ∧ s'.Inv m := by
  have hget : s.reqs[i]? = some s.reqs[i] := List.getElem?_eq_getElem hi
  have hok := h.reqs _ (List.getElem_mem hi)
  generalize s.reqs[i] = req at hget hok
  rw [appendHost, hget, Option.map_some]
  refine ⟨_, rfl, h.withReqs (map_node_set hget rfl) (fun r hr => ?_) ?_⟩
  · rcases List.mem_or_eq_of_mem_set hr with hr | rfl
    · exact h.reqs r hr
    · refine ⟨hok.aligned, hok.handle_le, ?_, hok.canonical, hok.owned⟩
      show Stands _ _ ((req.inputIds ++ [token]).take _)
      rw [List.take_append_of_le_length hok.le_input]
      exact hok.stands
  · rw [ownedBy_set hi, ← ownedBy_eraseIdx hget]
    rfl

/-- The pages above the accepted tokens go back. -/
theorem freeSpecTail_spec (h : s.Inv m) {i keepLen : Nat}
    (hok : s.CallerOk (.freeSpecTail i keepLen)) :
    ∃ s', s.freeSpecTail i keepLen = some s' ∧ s'.Inv m := by
  obtain ⟨req, hget, hkeep, hle⟩ := hok
  have hreq := h.reqs req (List.mem_of_getElem? hget)
  have hkeep' := hkeep.trans (le_pageCeil h.pos keepLen)
  have hsplit := req.slice_append hkeep' (pageCeil_mono h.pos hle)
  have howned := hreq.owned
  rw [PagedReq.owned, PagedReq.paddedTail, show s.prefixCache.pageSize = s.pageSize from rfl,
    ← hsplit] at howned
  obtain ⟨hkept, htail⟩ := howned.split (by
    rw [PagedReq.length_slice]
    exact Nat.dvd_sub (dvd_pageCeil _ _) hreq.aligned)
  rw [freeSpecTail, hget, Option.map_some]
  generalize hreq' : ({ req with cachedLen := keepLen, deviceLen := keepLen + 1 } : PagedReq) = req'
  have howned' : req'.owned s.pageSize =
      req.slice req.cacheHandle.cachedLen (pageCeil s.pageSize keepLen) := by
    rw [← hreq']
    rfl
  have hnode : req'.cacheHandle.node = req.cacheHandle.node := by rw [← hreq']
  have hout : ({ s with reqs := s.reqs.set i req' } : RadixManager).InvOut m
      (req.slice (pageCeil s.pageSize keepLen) (pageCeil s.pageSize req.cachedLen)) := by
    refine h.withReqs (map_node_set hget hnode) (fun r hr => ?_) ?_
    · rcases List.mem_or_eq_of_mem_set hr with hr | rfl
      · exact h.reqs r hr
      · refine ⟨?_, ?_, ?_, ?_, ?_⟩
        · rw [← hreq']
          exact hreq.aligned
        · rw [← hreq']
          exact hkeep
        · rw [← hreq']
          exact hreq.stands
        · rw [← hreq']
          exact hreq.canonical
        · exact howned' ▸ hkept
    · rw [ownedBy_set (lt_of_getElem? hget), ← ownedBy_eraseIdx hget, howned', add_right_comm,
        Multiset.coe_add, hsplit, add_zero]
      rfl
  exact ⟨_, rfl, hout.free htail (add_zero _)⟩

-- ---------------------------------------------------------------------------
-- Eviction and growth
-- ---------------------------------------------------------------------------

theorem evictableSize_nonneg (h : PrefixInv c held) : 0 ≤ c.evictableSize := by
  have hcast := map_total (Nat.castAddMonoidHom ℤ) c.toRadixTree
    fun x => if x.refCount = 0 then x.length else 0
  have heq : c.evictableSize = ((c.total fun x => if x.refCount = 0 then x.length else 0 : ℕ) : ℤ) := by
    rw [h.sized.evictable]
    refine Eq.trans (congrArg (fun w => c.total w) (funext fun x => ?_)) hcast.symm
    show _ = ((if x.refCount = 0 then x.length else 0 : ℕ) : ℤ)
    split
    · rfl
    · rfl
  rw [heq]
  exact Int.natCast_nonneg _

theorem evictAllUnlockedPrefixes_spec (h : s.Inv m) (ties : Nat → Nat) :
    ∃ s' m', s.evictAllUnlockedPrefixes ties = some s' ∧ s'.Inv m' := by
  obtain ⟨c, indices, m', he, -, -, -, hinv⟩ := h.evict ties
    (Int.toNat_of_nonneg (evictableSize_nonneg h.inv)).le
  rw [evictAllUnlockedPrefixes, he]
  exact ⟨_, m', rfl, hinv⟩

theorem pageRange_append (ps offset : Nat) {a b d : Nat} (hab : a ≤ b) (hbd : b ≤ d) :
    pageRange ps offset a b ++ pageRange ps offset b d = pageRange ps offset a d := by
  rw [pageRange, pageRange, pageRange, ← List.map_append]
  have h := List.range'_append_1 (s := a) (m := b - a) (n := d - b)
  rw [show a + (b - a) = b by omega, show b - a + (d - b) = d - a by omega] at h
  rw [h]

theorem addCommittedPages_spec (h : s.Inv m) {newTotal : Nat}
    (hok : s.CallerOk (.addCommittedPages newTotal)) :
    ∃ s', s.addCommittedPages newTotal = some s' ∧ s'.Inv m := by
  obtain ⟨hmore, hle⟩ := hok
  rw [addCommittedPages, if_pos ⟨hmore, hle⟩]
  refine ⟨_, rfl, h.inv, h.refines, h.paged, fun b hb => ?_, h.reqs, ?_⟩
  · rcases List.mem_append.mp hb with hb | hb
    · exact h.aligned b hb
    · obtain ⟨k, -, rfl⟩ := List.mem_map.mp hb
      exact Nat.dvd_mul_left _ _
  · have hall := h.conserved
    show (pageToToken s.pageSize (s.freeSlots ++ pageRange s.pageSize s.pageIndexOffset
      s.committedPages newTotal) : Multiset KvIndex) + _ + _ + 0 =
        (pageToToken s.pageSize (pageRange s.pageSize s.pageIndexOffset 0 newTotal) : Multiset _)
    rw [← pageRange_append _ _ (Nat.zero_le _) hmore.le, pageToToken_append, pageToToken_append,
      ← Multiset.coe_add, ← Multiset.coe_add]
    rw [committed] at hall
    rw [← hall]
    show _ + s.prefixCache.total Node.pages + ownedBy s.pageSize s.reqs + 0 = _
    abel

end RadixManager

end FreeToken.KvCache
