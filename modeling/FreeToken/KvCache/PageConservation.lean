import FreeToken.KvCache.PageMoves

/-!
# No page is lost, and none is in two places

A request hands the tokens it has computed to the tree: of its own pages, those the tree has
already go back, those of the new leaf are the tree's, and the rest stay with it until it
finishes. With the other calls this keeps every committed token in one place over all runs, with
requests that share prefixes, are extended, fall back and finish in any order while the tree
evicts. What a request reads is then never free, and no call of a scheduler that keeps to its
side fails an assertion.

## Results

* `insertPrefix_moves`, `Handed` — what an insert takes of a request's row;
* `cacheReq_spec`, `call_inv` — every call keeps the invariant;
* `pages_conserved` — the runs.
-/

namespace FreeToken.KvCache

open FreeToken.Lib RadixTree RadixPrefixCache

variable {c c' : RadixPrefixCache} {req req' : PagedReq} {m : PrefixMap} {held : List NodeId}
  {ps : Nat}

-- ---------------------------------------------------------------------------
-- What an insert takes
-- ---------------------------------------------------------------------------

/-- An insert adds the pages that were missing to the tree, and the handle ends with them. -/
theorem insertPrefix_moves {ids : List Token} {indices : List KvIndex} {tic now : Time} {len : Nat}
    {handle : RadixCacheHandle} (hw : c.Wf)
    (hins : c.insertPrefix ids indices tic now = some (c', len, handle)) :
    c'.total Node.pages = c.total Node.pages +
        ((indices.take (alignDown ids.length c.pageSize)).drop len : List KvIndex) ∧
      (c'.collectKv handle.node).drop len =
        (indices.take (alignDown ids.length c.pageSize)).drop len ∧
      handle.cachedLen = alignDown ids.length c.pageSize := by
  have hlen : (ids.take (alignDown ids.length c.pageSize)).length =
      alignDown ids.length c.pageSize := List.length_take_of_le (alignDown_le _ _)
  have hdvd := dvd_alignDown ids.length c.pageSize
  simp only [insertPrefix] at hins
  generalize alignDown ids.length c.pageSize = whole at hins hlen hdvd ⊢
  generalize ids.take whole = toks at hins hlen
  have hwalk := walk_wf toks tic hw
  have hend := walk_end toks tic hw
  have hpages := (HybridRadixCache.walkKeeps_pages _).walk hw rfl toks tic
  have hkv := length_collectKv hwalk hend.inTree
  have hbound := hend.bound
  rw [Nat.zero_add] at hbound
  rw [walk_tokens hw toks tic, List.length_take_of_le hbound] at hkv
  split at hins
  · -- nothing was missing
    rename_i hdone
    cases hins
    have hnil : (indices.take whole).drop (c.walk toks tic).2.2 = [] :=
      List.drop_eq_nil_of_le (hdone ▸ List.length_take_le _ _)
    rw [hnil]
    exact ⟨hpages.trans (add_zero _).symm, List.drop_eq_nil_of_le (Nat.le_of_eq hkv), rfl⟩
  rename_i hshort
  split at hins
  · cases hins
  rename_i hvalue
  rw [not_not] at hvalue
  cases hins
  have hok := HybridRadixCache.leafOk_of_walk hw (hlen.symm ▸ hdvd) (by rwa [hlen]) hvalue
  refine ⟨?_, ?_, rfl⟩
  · show (RadixTree.addLeaf _ _ _ _ _).1.total Node.pages = _
    rw [total_addLeaf, hpages]
    rfl
  · show (RadixTree.collectKv (RadixTree.addLeaf _ _ _ _ _).1 _).drop _ = _
    refine (congrArg (List.drop (c.walk toks tic).2.2)
      (concat_addLeaf_new hwalk hok Node.value)).trans ?_
    rw [addLeaf_new]
    exact List.drop_left' hkv

/-- What a handle stands for is stored, so an insert of its tokens and more finds it. -/
theorem ReqOk.handle_le_longest (h : ReqOk c req) (hw : c.Wf) (href : c.Refines m) {len : Nat}
    (hlongest : m.Longest c.pageSize (req.inputIds.take req.cachedLen) len) :
    req.cacheHandle.cachedLen ≤ len := by
  by_cases h0 : req.cacheHandle.cachedLen = 0
  · omega
  have hlen := List.length_take_of_le h.le_input
  refine hlongest.longest _ ?_ h0 h.aligned ?_
  · rw [List.length_take]
    exact Nat.le_min.mpr ⟨h.handle_le, h.le_input⟩
  · rw [List.take_take, Nat.min_eq_left h.handle_le]
    have hq : c.WholePages (req.inputIds.take req.cacheHandle.cachedLen) := by
      refine ⟨List.ne_nil_of_length_pos ?_, ?_⟩
      · rw [hlen]
        exact Nat.pos_of_ne_zero h0
      · rw [hlen]
        exact h.aligned
    have hblock := blockAt_of_inTree hw h.stands.inTree hq
      (by rw [h.stands.pathTokens])
    rw [(href.page _ _).mpr hblock]
    rfl

/-- Of two handles on one prompt, the longer reads the pages of the shorter and more. -/
theorem collectKv_take (hw : c.Wf) {ids : List Token} {old new : RadixCacheHandle}
    (ho : Stands c old (ids.take old.cachedLen)) (hn : Stands c new (ids.take new.cachedLen))
    (hle : old.cachedLen ≤ new.cachedLen) :
    (c.collectKv new.node).take old.cachedLen = c.collectKv old.node := by
  have hlen := length_collectKv hw ho.inTree
  rw [ho.pathTokens, ← ho.cachedLen] at hlen
  have hpre : c.pathTokens old.node <+: ids := ho.pathTokens ▸ List.take_prefix _ _
  have habove := comparable hw ho.inTree hn.inTree hpre (hn.pathTokens ▸ List.take_prefix _ _)
    (by rw [ho.pathTokens, hn.pathTokens, ← ho.cachedLen, ← hn.cachedLen]; exact hle)
  rcases habove with hroot | hmem
  · -- the handle on the root has no pages
    rw [hroot, collectKv, hw.rootPath_root] at hlen
    rw [hroot, show c.collectKv root = [] by rw [collectKv, hw.rootPath_root]; rfl, ← hlen]
    rfl
  · have hpre := List.prefix_iff_eq_take.mp (collectKv_grows hw hmem)
    rw [hlen] at hpre
    exact hpre.symm

/-- What a request's row becomes: `[0, old)` it has from the tree, `[old, len)` the tree has
already, `[len, new)` is what the new leaf takes, and the rest stays with the request. -/
structure Handed (c c' : RadixPrefixCache) (req : PagedReq) (len : Nat)
    (new : RadixCacheHandle) : Prop where
  old_le : req.cacheHandle.cachedLen ≤ len
  le_new : len ≤ new.cachedLen
  new_le : new.cachedLen ≤ req.cachedLen
  aligned : c.pageSize ∣ new.cachedLen
  total : c'.total Node.pages = c.total Node.pages + (req.slice len new.cachedLen : List KvIndex)
  take : (c'.collectKv new.node).take req.cacheHandle.cachedLen =
    req.slice 0 req.cacheHandle.cachedLen
  drop : (c'.collectKv new.node).drop len = req.slice len new.cachedLen
  stored : IsPages c.pageSize (req.slice req.cacheHandle.cachedLen len)
  leaf : IsPages c.pageSize (req.slice len new.cachedLen)
  kept : IsPages c.pageSize (req.paddedTail c.pageSize new.cachedLen)
  length : (c'.collectKv new.node).length = new.cachedLen

/-- The pieces of what a request owns. -/
theorem Handed.owned {len : Nat} {new : RadixCacheHandle} (h : Handed c c' req len new)
    (hpos : 0 < c.pageSize) :
    req.owned c.pageSize = req.slice req.cacheHandle.cachedLen len ++
      (req.slice len new.cachedLen ++ req.paddedTail c.pageSize new.cachedLen) := by
  have hend := h.new_le.trans (le_pageCeil hpos req.cachedLen)
  rw [PagedReq.paddedTail, req.slice_append h.le_new hend,
    req.slice_append h.old_le (h.le_new.trans hend)]
  rfl

/-- An insert of what a request has computed. -/
theorem insert_handed (hok : ReqOk c req) (hinv : PrefixInv c held)
    (hheld : req.cacheHandle.node ∈ held) (href : c.Refines m)
    (hpaged : ∀ q block, m.page q = some block → IsPages c.pageSize block) {tic now : Time}
    {len : Nat} {new : RadixCacheHandle}
    (hins : c.insertPrefix (req.inputIds.take req.cachedLen) (req.slice 0 req.cachedLen) tic now =
      some (c', len, new)) :
    Handed c c' req len new ∧ Stands c' new (req.inputIds.take new.cachedLen) ∧
      ∃ m', c'.Refines m' ∧ ∀ q block, m'.page q = some block → IsPages c.pageSize block := by
  have hw := hinv.wf
  have hpos : 0 < c.pageSize := hw.page_pos
  obtain ⟨hinv', hps, hlongest, href', hstands⟩ := insertPrefix_spec hinv href hins
  obtain ⟨htotal, hdrop, hnew⟩ := insertPrefix_moves hw hins
  have hext := PrefixState.extends_insertPrefix hw hins
  rw [← hnew] at htotal hdrop href' hstands
  have hnew_ids : new.cachedLen ≤ (req.inputIds.take req.cachedLen).length :=
    hnew ▸ alignDown_le _ _
  have hnew_le : new.cachedLen ≤ req.cachedLen := hnew_ids.trans (List.length_take_le _ _)
  have hdvd : c.pageSize ∣ new.cachedLen := hnew ▸ dvd_alignDown _ _
  have hold := hok.handle_le_longest hw href hlongest
  have hle_new : len ≤ new.cachedLen := hnew ▸ le_alignDown hlongest.aligned hlongest.le
  rw [List.take_take, Nat.min_eq_left hnew_le] at href' hstands
  -- the inserted pages are a piece of the row
  rw [req.slice_window hle_new hnew_le] at htotal hdrop
  have hend := hnew_le.trans (le_pageCeil hpos req.cachedLen)
  have howned := hok.owned
  rw [PagedReq.owned, PagedReq.paddedTail, ← req.slice_append hold (hle_new.trans hend),
    ← req.slice_append hle_new hend] at howned
  obtain ⟨hstored, hrest⟩ := howned.split (by
    rw [PagedReq.length_slice]
    exact Nat.dvd_sub hlongest.aligned hok.aligned)
  obtain ⟨hleaf, hkept⟩ := hrest.split (by
    rw [PagedReq.length_slice]
    exact Nat.dvd_sub hdvd hlongest.aligned)
  have hlt := hw.inTree_lt hok.stands.inTree
  have hthere : Stands c' req.cacheHandle (req.inputIds.take req.cacheHandle.cachedLen) :=
    ⟨hinv'.inTree _ hheld, (hext.pathTokens _ hlt).trans hok.stands.pathTokens,
      hok.stands.cachedLen⟩
  have hlength := length_collectKv hinv'.wf hstands.inTree
  rw [hstands.pathTokens, ← hstands.cachedLen] at hlength
  refine ⟨⟨hold, hle_new, hnew_le, hdvd, htotal, ?_, hdrop, hstored, hleaf, hkept, hlength⟩,
    hstands, _, href', fun q block hq => ?_⟩
  · rw [collectKv_take hinv'.wf hthere hstands (hold.trans hle_new), hext.collectKv _ hlt,
      hok.canonical]
  -- a page of the map is an old one, or in the leaf
  rw [PrefixMap.addPages] at hq
  dsimp only at hq
  split at hq
  swap
  · exact hpaged q block hq
  rename_i hwhole
  obtain ⟨⟨hne, hqdvd⟩, hpre⟩ := hwhole
  cases hpage : m.page q with
  | some old =>
    rw [hpage, Option.some_or] at hq
    exact hpaged q block (hpage.trans hq)
  | none =>
    rw [hpage, Option.none_or, Option.some.injEq] at hq
    have hqle : q.length ≤ new.cachedLen := hpre.length_le.trans (List.length_take_le _ _)
    have hq0 : q.length ≠ 0 := fun h0 => hne (List.length_eq_zero_iff.mp h0)
    have hqpage := Nat.le_of_dvd (Nat.pos_of_ne_zero hq0) hqdvd
    have hqtake : (req.inputIds.take req.cachedLen).take q.length = q :=
      (List.prefix_iff_eq_take.mp (hpre.trans (List.take_prefix_take_left hnew_le))).symm
    have hbeyond : len + c.pageSize ≤ q.length := by
      have hlt : len < q.length := by
        by_contra hle
        have hin := hlongest.stored q.length (Nat.not_lt.mp hle) hq0 hqdvd
        rw [hqtake, hpage] at hin
        cases hin
      have hgap := Nat.le_of_dvd (Nat.sub_pos_of_lt hlt) (Nat.dvd_sub hqdvd hlongest.aligned)
      omega
    have hblock : block = req.slice (q.length - c.pageSize) q.length := by
      rw [← hq, ← req.slice_window (Nat.sub_le _ _) (hqle.trans hnew_le), List.drop_take,
        Nat.sub_sub_self hqpage]
    rw [hblock]
    rw [← req.slice_append (b := q.length - c.pageSize) (by omega) (by omega)] at hleaf
    have hafter := (hleaf.split (by
      rw [PagedReq.length_slice]
      exact Nat.dvd_sub (Nat.dvd_sub hqdvd (Nat.dvd_refl _)) hlongest.aligned)).2
    rw [← req.slice_append (Nat.sub_le q.length c.pageSize) hqle] at hafter
    exact (hafter.split (by
      rw [PagedReq.length_slice, Nat.sub_sub_self hqpage])).1

-- ---------------------------------------------------------------------------
-- A request and the tree
-- ---------------------------------------------------------------------------

/-- The row is pointed at the pages of the tree, and the rest is the request's own. -/
theorem Handed.repoint {len : Nat} {new : RadixCacheHandle} (h : Handed c c' req len new)
    (hstands : Stands c' new (req.inputIds.take new.cachedLen)) (hps : c'.pageSize = c.pageSize)
    (hreq' : req' = { req.write req.cacheHandle.cachedLen
      (((c'.collectKv new.node).take len).drop req.cacheHandle.cachedLen) with
        cacheHandle := new }) :
    ReqOk c' req' ∧ req'.owned c.pageSize = req.paddedTail c.pageSize new.cachedLen := by
  have hmid : (((c'.collectKv new.node).take len).drop req.cacheHandle.cachedLen).length =
      len - req.cacheHandle.cachedLen := by
    rw [List.length_drop, List.length_take_of_le (h.length ▸ h.le_new)]
  generalize hwritten : ((c'.collectKv new.node).take len).drop req.cacheHandle.cachedLen = mid
    at hreq' hmid
  have hold := h.old_le
  -- the three pieces of the row, which are those of the tree
  have hlow : req'.slice 0 req.cacheHandle.cachedLen = req.slice 0 req.cacheHandle.cachedLen := by
    rw [hreq']
    exact PagedReq.write_slice_below req mid (Nat.le_refl _)
  have hwrite : req'.slice req.cacheHandle.cachedLen len = mid := by
    have hslice := PagedReq.slice_write req req.cacheHandle.cachedLen mid
    rw [hmid, Nat.add_sub_cancel' hold] at hslice
    rw [hreq']
    exact hslice
  have hhigh : ∀ b, req'.slice len b = req.slice len b := fun b => by
    rw [hreq']
    exact PagedReq.write_slice_above req (by omega)
  have howned : req'.owned c.pageSize = req.paddedTail c.pageSize new.cachedLen := by
    subst hreq'
    refine PagedReq.write_slice_above req ?_
    rw [hmid, Nat.add_sub_cancel' hold]
    exact h.le_new
  have hhandle : req'.cacheHandle = new := by rw [hreq']
  refine ⟨⟨?_, ?_, ?_, ?_, ?_⟩, howned⟩
  · rw [hhandle, hps]
    exact h.aligned
  · rw [hhandle, hreq']
    exact h.new_le
  · rw [hhandle, hreq']
    exact hstands
  · rw [hhandle, ← req'.slice_append (Nat.zero_le len) h.le_new,
      ← req'.slice_append (Nat.zero_le _) hold, hlow, hwrite, hhigh, ← h.take, ← h.drop,
      ← hwritten]
    have htake : (c'.collectKv new.node).take req.cacheHandle.cachedLen =
        ((c'.collectKv new.node).take len).take req.cacheHandle.cachedLen := by
      rw [List.take_take, Nat.min_eq_left hold]
    rw [htake, List.take_append_drop, List.take_append_drop]
  · rw [hps, howned]
    exact h.kept

namespace RadixManager

variable {s s' : RadixManager} {out : Multiset KvIndex} {i : Nat}

/-- A request that comes back in another's place, with what was in hand. -/
theorem InvOut.attach (h : s.InvOut m out) {reqs : List PagedReq} {new : RadixCacheHandle}
    (hreqs : s.reqs = reqs.eraseIdx i) (hi : i < reqs.length)
    (hlock : s.prefixCache.lockHandle new false = some c') (hnew : req'.cacheHandle = new)
    (hok : ReqOk s.prefixCache req') (hown : (req'.owned s.pageSize : Multiset KvIndex) = out) :
    ({ s with prefixCache := c', reqs := reqs.set i req' } : RadixManager).Inv m := by
  have hshape := (counted_lock hlock).toSameShape
  have hext : Extends s.prefixCache.toRadixTree c'.toRadixTree := .of_sameShape hshape
  obtain ⟨hps, href⟩ := refines_lock h.refines hlock
  have hinv := h.inv.lock (hnew ▸ hok.stands.inTree) hlock
  have hget : (reqs.set i req')[i]? = some req' := by rw [List.getElem?_set_self hi]
  have herase : (reqs.set i req').eraseIdx i = s.reqs := by rw [List.eraseIdx_set_eq, hreqs]
  obtain ⟨hlt, hgot⟩ := List.getElem?_eq_some_iff.mp hget
  have hperm := (List.getElem_cons_eraseIdx_perm hlt).map fun req => req.cacheHandle.node
  rw [hgot, herase, List.map_cons, hnew] at hperm
  have hinv' := hinv.perm (hperm.symm.append_right (s.leases.map RadixCacheHandle.node))
  have hin : ∀ r ∈ reqs.set i req', c'.InTree r.cacheHandle.node := fun r hr =>
    hinv'.inTree _ (List.mem_append_left _ (List.mem_map_of_mem hr))
  refine ⟨hinv', href, fun q block hq => ?_, fun b hb => ?_, fun r hr => ?_, ?_⟩
  · rw [pageSize, hps]
    exact h.paged q block hq
  · rw [pageSize, hps]
    exact h.aligned b hb
  · have hr' : r = req' ∨ r ∈ s.reqs := by
      have hmem := (List.getElem_cons_eraseIdx_perm hlt).mem_iff.mpr hr
      rw [hgot, herase] at hmem
      exact List.mem_cons.mp hmem
    have hrok : ReqOk s.prefixCache r := hr'.elim (fun heq => heq ▸ hok) (h.reqs r)
    exact hrok.extends h.inv.wf hext hps (hin r hr)
  · have hall := h.conserved
    rw [← hown, ← HybridRadixCache.total_pages_of_sameShape hshape] at hall
    rw [committed, pageSize, hps]
    refine Eq.trans ?_ hall
    show _ + _ + ownedBy s.pageSize (reqs.set i req') + 0 = _
    rw [← ownedBy_eraseIdx hget, herase]
    show (pageToToken s.pageSize s.freeSlots : Multiset KvIndex) + c'.total Node.pages + _ + 0 = _
    abel

/-- A request hands over what it has computed. -/
theorem cacheReq_spec (h : s.Inv m) (hi : i < s.reqs.length) (finished : Bool) (tic now : Time) :
    ∃ s' m', s.cacheReq i finished tic now = some s' ∧ s'.Inv m' := by
  have hget : s.reqs[i]? = some s.reqs[i] := List.getElem?_eq_getElem hi
  have hok := h.reqs _ (List.getElem_mem hi)
  have hperm := (List.getElem_cons_eraseIdx_perm hi).map fun req : PagedReq => req.cacheHandle.node
  have hheld := mem_held (List.getElem_mem hi)
  generalize s.reqs[i] = req at hget hok hperm hheld
  have hroom : (req.inputIds.take req.cachedLen).length ≤ (req.slice 0 req.cachedLen).length := by
    rw [PagedReq.length_slice, Nat.sub_zero]
    exact List.length_take_le _ _
  obtain ⟨⟨c₁, len, new⟩, hins⟩ := Option.isSome_iff_exists.mp
    (insertPrefix_isSome s.prefixCache tic now hroom)
  obtain ⟨hinv₁, hps₁, -⟩ := insertPrefix_spec h.inv h.refines hins
  obtain ⟨hhanded, hstands, m', href₁, hpaged⟩ :=
    insert_handed hok h.inv hheld h.refines h.paged hins
  have hext₁ := PrefixState.extends_insertPrefix h.inv.wf hins
  have howned := hhanded.owned h.pos
  -- the lock of the old handle is given up
  rw [List.map_cons] at hperm
  have hheld₁ : PrefixInv c₁ (req.cacheHandle.node :: (_ ++ _)) :=
    hinv₁.perm (hperm.append_right (s.leases.map RadixCacheHandle.node))
  obtain ⟨c₂, hun⟩ : ∃ c₂, c₁.lockHandle req.cacheHandle true = some c₂ :=
    Option.isSome_iff_exists.mp (unlock_isSome hheld₁.refs hinv₁.wf List.mem_cons_self)
  have hinv₂ := hheld₁.unlock hun
  have hshape := (counted_unlock hun).toSameShape.symm
  obtain ⟨hps₂, href₂⟩ := refines_lock href₁ hun
  have hsize : c₂.pageSize = s.pageSize := hps₂.trans hps₁
  -- without the request: its duplicates and its tail are in hand
  have hbase : ({ s with prefixCache := c₂, reqs := s.reqs.eraseIdx i } : RadixManager).InvOut m'
      ((req.slice req.cacheHandle.cachedLen len : Multiset KvIndex) +
        req.paddedTail s.pageSize new.cachedLen) := by
    refine ⟨hinv₂, href₂, fun q block hq => ?_, fun b hb => ?_, fun r hr => ?_, ?_⟩
    · rw [pageSize, hsize]
      exact hpaged q block hq
    · rw [pageSize, hsize]
      exact h.aligned b hb
    · exact (h.reqs r (List.mem_of_mem_eraseIdx hr)).extends h.inv.wf
        (hext₁.trans (.of_sameShape hshape)) hsize
        (hinv₂.inTree _ (List.mem_append_left _ (List.mem_map_of_mem hr)))
    · have hall := h.conserved
      rw [← ownedBy_eraseIdx hget, show req.owned s.pageSize = _ from howned, ← Multiset.coe_add,
        ← Multiset.coe_add] at hall
      rw [committed, pageSize, hsize]
      refine Eq.trans ?_ hall
      show (pageToToken s.pageSize s.freeSlots : Multiset KvIndex) + c₂.total Node.pages +
        ownedBy s.pageSize (s.reqs.eraseIdx i) + _ = _
      rw [HybridRadixCache.total_pages_of_sameShape hshape, hhanded.total]
      show _ + _ + _ + (_ + (req.paddedTail s.pageSize new.cachedLen : Multiset KvIndex)) = _
      abel
  have hstored : IsPages c₂.pageSize (req.slice req.cacheHandle.cachedLen len) :=
    hsize ▸ hhanded.stored
  have hfreed := hbase.free hstored rfl
  rw [cacheReq, hget, Option.bind_some]
  simp only [hins, Option.bind_some, hun]
  cases finished with
  | true =>
    rw [if_pos rfl]
    have hkept : IsPages c₂.pageSize (req.paddedTail s.pageSize new.cachedLen) := by
      rw [hsize]
      exact hhanded.kept
    exact ⟨_, m', rfl, hfreed.free hkept (add_zero _)⟩
  | false =>
    rw [if_neg Bool.false_ne_true]
    obtain ⟨c₃, hlock⟩ : ∃ c₃, c₂.lockHandle new false = some c₃ := ⟨_, rfl⟩
    rw [hlock, Option.map_some, getMatchedIndices_getD, hshape.collectKv_eq]
    -- nothing is written when the tree had no more
    have hrow : (if req.cacheHandle.cachedLen < len then
        req.write req.cacheHandle.cachedLen
          (((c₁.collectKv new.node).take len).drop req.cacheHandle.cachedLen) else req) =
        req.write req.cacheHandle.cachedLen
          (((c₁.collectKv new.node).take len).drop req.cacheHandle.cachedLen) := by
      split
      · rfl
      · rename_i hge
        rw [List.drop_eq_nil_of_le ((List.length_take_le _ _).trans (Nat.not_lt.mp hge)),
          PagedReq.write_nil]
    rw [hrow]
    obtain ⟨hok', howned'⟩ := hhanded.repoint hstands hps₁ rfl
    have hok₂ := hok'.extends hinv₁.wf (.of_sameShape hshape) hps₂
      ((hshape.inTree_iff _).mpr hstands.inTree)
    refine ⟨_, m', rfl, hfreed.attach rfl hi hlock rfl hok₂ ?_⟩
    show (PagedReq.owned _ c₂.pageSize : Multiset KvIndex) = _
    rw [hsize]
    exact congrArg _ howned'

-- ---------------------------------------------------------------------------
-- The runs
-- ---------------------------------------------------------------------------

theorem init_inv (hps : 0 < ps) (committedPages numPages pageIndexOffset : Nat) :
    (init ps committedPages numPages pageIndexOffset).Inv .empty where
  inv := prefixInv_empty hps
  refines := refines_empty ps
  paged := nofun
  aligned := fun b hb => by
    obtain ⟨k, -, rfl⟩ := List.mem_map.mp hb
    exact Nat.dvd_mul_left _ _
  reqs := nofun
  conserved := by
    show _ + (RadixTree.empty ps).total Node.pages + ownedBy ps [] + 0 = _
    rw [total_empty, add_zero, add_zero]
    exact add_zero _

/-- No call of a caller that keeps to its side raises, and each keeps the invariant. -/
theorem call_inv (h : s.Inv m) {a : ManagerCall} (hok : s.CallerOk a) :
    ∃ s' m', s.step a = some s' ∧ s'.Inv m' := by
  cases a with
  | matchReq inputIds noPrefixCache stale tic =>
    obtain ⟨s', hs', hinv⟩ := matchReq_spec h hok noPrefixCache stale tic
    exact ⟨s', m, hs', hinv⟩
  | retainPrefix inputIds cachedLen tic =>
    obtain ⟨s', hs', hinv⟩ := retainPrefix_spec h inputIds cachedLen tic
    exact ⟨s', m, hs', hinv⟩
  | release i =>
    obtain ⟨s', hs', hinv⟩ := release_spec h hok
    exact ⟨s', m, hs', hinv⟩
  | forward batch ties => exact forward_spec h hok
  | appendHost i token =>
    obtain ⟨s', hs', hinv⟩ := appendHost_spec h hok token
    exact ⟨s', m, hs', hinv⟩
  | freeSpecTail i keepLen =>
    obtain ⟨s', hs', hinv⟩ := freeSpecTail_spec h hok
    exact ⟨s', m, hs', hinv⟩
  | cacheReq i finished tic now => exact cacheReq_spec h hok finished tic now
  | evictAllUnlockedPrefixes ties => exact evictAllUnlockedPrefixes_spec h ties
  | addCommittedPages newTotal =>
    obtain ⟨s', hs', hinv⟩ := addCommittedPages_spec h hok
    exact ⟨s', m, hs', hinv⟩
  | rebuild numPages => exact ⟨_, _, rfl, init_inv h.pos numPages numPages 0⟩

/-- The tokens of a range of pages follow each other. -/
theorem pageToToken_pageRange (ps offset n : Nat) :
    pageToToken ps (pageRange ps offset 0 n) = List.range' (offset * ps) (n * ps) := by
  induction n with
  | zero =>
    rw [Nat.zero_mul]
    rfl
  | succ n ih =>
    have hlast : pageToToken ps (pageRange ps offset n (n + 1)) =
        List.range' (offset * ps + n * ps) ps := by
      rw [pageRange, Nat.add_sub_cancel_left, Nat.add_comm (offset * ps), ← Nat.add_mul]
      exact List.append_nil _
    rw [← pageRange_append ps offset (Nat.zero_le n) (Nat.le_succ n), pageToToken_append, ih, hlast,
      Nat.succ_mul, ← List.range'_append_1]

/-- The pages of the tree are as many as its two gauges say. -/
theorem card_pages (h : PrefixInv c held) :
    c.evictableSize + c.protectedSize = (c.total Node.pages).card := by
  have hsum := map_total (AddMonoidHom.fst ℤ ℤ + AddMonoidHom.snd ℤ ℤ) c.toRadixTree Node.sizes
  rw [← h.sized] at hsum
  have hcard := map_total ((Nat.castAddMonoidHom ℤ).comp Multiset.cardHom) c.toRadixTree Node.pages
  refine hsum.trans (Eq.trans ?_ hcard.symm)
  refine tally_congr fun n _ => ?_
  rw [Node.weight, Node.weight]
  split
  · rename_i hl
    have hkv := h.wf.key_value n hl
    show (c.node n).sizes.1 + (c.node n).sizes.2 = (((c.node n).value.length : ℕ) : ℤ)
    rw [hkv, Node.sizes]
    split
    · exact add_zero _
    · exact zero_add _
  · rfl

/-- What a reader of the page table relies on. -/
structure PagesKept (s : RadixManager) : Prop where
  /-- Every committed token is in one of the three places, once. -/
  conserved : (pageToToken s.pageSize s.freeSlots : Multiset KvIndex) +
    s.prefixCache.total Node.pages + ownedBy s.pageSize s.reqs = s.committed
  nodup : s.committed.Nodup
  /-- The cached part of a row has the pages of the node that stands for these tokens. -/
  canonical : ∀ req ∈ s.reqs, s.prefixCache.InTree req.cacheHandle.node ∧
    s.prefixCache.pathTokens req.cacheHandle.node = req.inputIds.take req.cacheHandle.cachedLen ∧
    req.slice 0 req.cacheHandle.cachedLen = s.prefixCache.collectKv req.cacheHandle.node
  /-- What a request or a session can read is not free. -/
  live : ∀ req ∈ s.reqs, ∀ p < pageCeil s.pageSize req.cachedLen,
    req.row p ∉ pageToToken s.pageSize s.freeSlots
  leased : ∀ handle ∈ s.leases, ∀ x ∈ s.prefixCache.collectKv handle.node,
    x ∉ pageToToken s.pageSize s.freeSlots
  /-- What a request has above its handle no other request has. -/
  apart : ∀ (i j : Nat) (req req' : PagedReq), s.reqs[i]? = some req → s.reqs[j]? = some req' → i ≠ j →
    ∀ p, req.cacheHandle.cachedLen ≤ p → p < pageCeil s.pageSize req.cachedLen →
      ∀ q < pageCeil s.pageSize req'.cachedLen, req.row p ≠ req'.row q
  integrity : s.reqs = [] → s.checkIntegrity = true
  /-- No assertion fails, and a batch has its pages once the pool has grown for it. -/
  progress : ∀ a, s.CallerOk a → (s.step a).isSome
  grows : ∀ batch ties n, (batch.map Prod.fst).Nodup → (∀ a ∈ batch, a.1 < s.reqs.length) →
    s.committedPagesRequired batch = some n →
      ∃ s₁ s₂, (if s.committedPages < n then s.addCommittedPages n else some s) = some s₁ ∧
        s₁.forward batch ties = some s₂

/-- A position of a row that is the request's own. -/
theorem row_mem_owned {p : Nat} (hp : req.cacheHandle.cachedLen ≤ p)
    (hend : p < pageCeil ps req.cachedLen) : req.row p ∈ req.owned ps := by
  rw [PagedReq.owned, PagedReq.paddedTail, PagedReq.slice, List.mem_map]
  refine ⟨p, ?_, rfl⟩
  rw [List.mem_range'_1]
  omega

/-- A position of a row is the tree's or the request's own. -/
theorem row_mem (h : s.Inv m) (hr : req ∈ s.reqs) {p : Nat}
    (hend : p < pageCeil s.pageSize req.cachedLen) :
    req.row p ∈ s.prefixCache.total Node.pages ∨ req.row p ∈ req.owned s.pageSize := by
  have hok := h.reqs req hr
  rcases Nat.lt_or_ge p req.cacheHandle.cachedLen with hlt | hge
  · refine .inl (collectKv_mem_total h.inv.wf hok.stands.inTree ?_)
    rw [← hok.canonical, PagedReq.slice, List.mem_map]
    refine ⟨p, ?_, rfl⟩
    rw [List.mem_range'_1]
    omega
  · exact .inr (row_mem_owned hge hend)

theorem mem_ownedBy {reqs : List PagedReq} (hr : req ∈ reqs) {x : KvIndex}
    (hx : x ∈ req.owned ps) : x ∈ ownedBy ps reqs := by
  obtain ⟨i, hi⟩ := List.mem_iff_getElem?.mp hr
  rw [← ownedBy_eraseIdx hi]
  exact Multiset.mem_add.mpr (.inl hx)

theorem committed_nodup (s : RadixManager) : s.committed.Nodup := by
  rw [committed, pageToToken_pageRange]
  exact Multiset.coe_nodup.mpr List.nodup_range'

/-- The three places have no token in common, and no two requests have. -/
theorem Inv.places (h : s.Inv m) :
    Disjoint (pageToToken s.pageSize s.freeSlots : Multiset KvIndex)
        (s.prefixCache.total Node.pages + ownedBy s.pageSize s.reqs) ∧
      Disjoint (s.prefixCache.total Node.pages) (ownedBy s.pageSize s.reqs) ∧
      (ownedBy s.pageSize s.reqs).Nodup := by
  have hnodup := committed_nodup s
  rw [← h.conserved, add_zero, add_assoc, Multiset.nodup_add] at hnodup
  obtain ⟨-, hrest, hfree⟩ := hnodup
  obtain ⟨-, howned, htree⟩ := Multiset.nodup_add.mp hrest
  exact ⟨hfree, htree, howned⟩

theorem Inv.integrity (h : s.Inv m) (hidle : s.reqs = []) : s.checkIntegrity = true := by
  have hcount := congrArg Multiset.card h.conserved
  rw [hidle, add_zero, Multiset.card_add, Multiset.card_add, Multiset.coe_card,
    length_pageToToken, committed, Multiset.coe_card, length_pageToToken] at hcount
  have hlen : (pageRange s.pageSize s.pageIndexOffset 0 s.committedPages).length =
      s.committedPages := by rw [pageRange, List.length_map, List.length_range', Nat.sub_zero]
  have hnone : (ownedBy s.pageSize []).card = 0 := rfl
  rw [hlen, hnone, Nat.add_zero] at hcount
  have hpos := h.pos
  have htree := card_pages h.inv
  -- the tree holds what the list does not
  obtain ⟨k, hk⟩ : ∃ k, s.committedPages = s.freeSlots.length + k :=
    Nat.exists_eq_add_of_le (Nat.le_of_mul_le_mul_right (Nat.le.intro hcount) hpos)
  have hpages : (s.prefixCache.total Node.pages).card = k * s.pageSize := by
    rw [hk, Nat.add_mul] at hcount
    omega
  rw [checkIntegrity, Bool.and_eq_true, decide_eq_true_eq]
  refine ⟨?_, ?_⟩
  · rw [htree, hpages, hk, Nat.cast_mul, Int.mul_ediv_cancel _ (by omega), Nat.cast_add]
  · rw [Bool.or_eq_true, List.all_eq_true]
    exact .inr fun b hb => beq_iff_eq.mpr (Nat.mod_eq_zero_of_dvd (h.aligned b hb))

/-- Growing as `committed_pages_required` says makes the room. -/
theorem Inv.grows (h : s.Inv m) {batch : List (Nat × Nat)} (ties : Nat → Nat) {n : Nat}
    (hnodup : (batch.map Prod.fst).Nodup) (hlt : ∀ a ∈ batch, a.1 < s.reqs.length)
    (hn : s.committedPagesRequired batch = some n) :
    ∃ s₁ s₂, (if s.committedPages < n then s.addCommittedPages n else some s) = some s₁ ∧
      s₁.forward batch ties = some s₂ := by
  rw [committedPagesRequired] at hn
  split at hn
  · cases hn
  rename_i hmax
  cases hn
  have hpos := h.pos
  have hdiv := Int.ediv_mul_le s.prefixCache.evictableSize
    (show (s.pageSize : ℤ) ≠ 0 by omega)
  generalize hneed : neededPages s.pageSize s.reqs batch = needed at *
  generalize s.prefixCache.evictableSize / (s.pageSize : ℤ) = evictable at *
  -- the pages that are free after the growth
  have hroom : ∀ free : ℕ, (needed : ℤ) ≤ free + evictable →
      ((needed * s.pageSize : ℕ) : ℤ) ≤ free * s.pageSize + s.prefixCache.evictableSize := by
    intro free hle
    have hmul := Int.mul_le_mul_of_nonneg_right hle (Int.natCast_nonneg s.pageSize)
    rw [Int.add_mul] at hmul
    push_cast
    omega
  split
  · rename_i hmore
    have hgrow : s.CallerOk (.addCommittedPages _) := ⟨hmore, Nat.not_lt.mp hmax⟩
    obtain ⟨s₁, hs₁, hinv₁⟩ := addCommittedPages_spec h hgrow
    rw [addCommittedPages, if_pos ⟨hmore, Nat.not_lt.mp hmax⟩] at hs₁
    have hbatch : s₁.CallerOk (.forward batch ties) := by
      cases hs₁
      refine ⟨hnodup, hlt, ?_⟩
      show ((neededPages s.pageSize s.reqs batch * s.pageSize : ℕ) : ℤ) ≤ _
      rw [hneed]
      refine hroom _ ?_
      rw [List.length_append, pageRange, List.length_map, List.length_range']
      omega
    obtain ⟨s₂, m', hs₂, -⟩ := forward_spec hinv₁ hbatch
    refine ⟨s₁, s₂, ?_, hs₂⟩
    rw [addCommittedPages, if_pos ⟨hmore, Nat.not_lt.mp hmax⟩]
    exact hs₁
  · have hbatch : s.CallerOk (.forward batch ties) :=
      ⟨hnodup, hlt, by rw [hneed]; exact hroom _ (by omega)⟩
    obtain ⟨s₂, m', hs₂, -⟩ := forward_spec h hbatch
    exact ⟨s, s₂, rfl, hs₂⟩

theorem Inv.kept (h : s.Inv m) : s.PagesKept := by
  obtain ⟨hfree, htree, howned⟩ := h.places
  have hlive : ∀ x, x ∈ s.prefixCache.total Node.pages ∨ x ∈ ownedBy s.pageSize s.reqs →
      x ∉ pageToToken s.pageSize s.freeSlots := fun x hx hin =>
    Multiset.disjoint_left.mp hfree (Multiset.mem_coe.mpr hin) (Multiset.mem_add.mpr hx)
  refine ⟨(add_zero _).symm.trans h.conserved, committed_nodup s, fun req hr => ?_,
    fun req hr p hp => ?_, fun handle hh x hx => ?_, ?_, h.integrity, fun a hok => ?_,
    fun batch ties n hnodup hlt hn => h.grows ties hnodup hlt hn⟩
  · have hok := h.reqs req hr
    exact ⟨hok.stands.inTree, hok.stands.pathTokens, hok.canonical⟩
  · exact hlive _ ((row_mem h hr hp).imp_right (mem_ownedBy hr))
  · have hin := h.inv.inTree handle.node
      (List.mem_append_right _ (List.mem_map_of_mem hh))
    exact hlive x (.inl (collectKv_mem_total h.inv.wf hin hx))
  · intro i j req req' hi hj hne p hge hp q hq heq
    have hmine : req.row p ∈ req.owned s.pageSize := row_mem_owned hge hp
    rw [heq] at hmine
    rcases row_mem h (List.mem_of_getElem? hj) hq with htok | hother
    · exact Multiset.disjoint_left.mp htree htok (mem_ownedBy (List.mem_of_getElem? hi) hmine)
    · -- the other request is among the rest
      rw [← ownedBy_eraseIdx hi, Multiset.nodup_add] at howned
      have hrest : req' ∈ s.reqs.eraseIdx i :=
        List.mem_eraseIdx_iff_getElem?.mpr ⟨j, fun hji => hne hji.symm, hj⟩
      exact Multiset.disjoint_left.mp howned.2.2 (Multiset.mem_coe.mpr hmine)
        (mem_ownedBy hrest hother)
  · obtain ⟨s', -, hs', -⟩ := call_inv h hok
    rw [hs']
    rfl

/-- **In every state that a run of the manager reaches, no page is lost or in two places, what is
read is not free, and no assertion fails.** -/
theorem pages_conserved {ps committedPages numPages pageIndexOffset : Nat} (hps : 0 < ps)
    (hreach : Reach step CallerOk (init ps committedPages numPages pageIndexOffset) s) :
    s.PagesKept := by
  obtain ⟨m, h⟩ := hreach.invariant (P := fun s => ∃ m, s.Inv m)
    ⟨_, init_inv hps committedPages numPages pageIndexOffset⟩
    fun s a s' ⟨m, h⟩ hok hst => by
      obtain ⟨s'', m', hs'', hinv⟩ := call_inv h hok
      rw [hst, Option.some.injEq] at hs''
      exact ⟨m', hs''.symm ▸ hinv⟩
  exact h.kept

/-- Two requests compute one prefix; the second reads the first's pages from then on, falls back
from a draft, and both finish while a session keeps the first page of the prompt. -/
theorem shared_prompt_pages : ∃ s, Reach step CallerOk (init 2 6 8 1) s ∧
    s.freeSlots = [10, 14, 8, 12, 6, 4] ∧ s.leases = [⟨2, 2⟩] ∧ s.PagesKept := by
  have hrun : (guardedRun step CallerOk (init 2 6 8 1)
      [.matchReq [1, 2, 3, 4, 5] false (fun _ => 0) 1,
        .matchReq [1, 2, 3, 4, 6] false (fun _ => 0) 2, .forward [(0, 5), (1, 5)] id,
        .cacheReq 0 false 3 3, .cacheReq 1 false 4 4, .appendHost 0 7, .addCommittedPages 7,
        .forward [(1, 3), (0, 1)] id, .freeSpecTail 1 6, .retainPrefix [1, 2, 3, 9] 4 5,
        .cacheReq 0 true 6 6, .cacheReq 0 true 7 7,
        .evictAllUnlockedPrefixes id]).map (fun s => (s.freeSlots, s.leases)) =
      some ([10, 14, 8, 12, 6, 4], [⟨2, 2⟩]) := by decide
  obtain ⟨s, hs, hval⟩ := Option.map_eq_some_iff.mp hrun
  have hreach := reach_of_guardedRun _ hs
  rw [Prod.mk.injEq] at hval
  exact ⟨s, hreach, hval.1, hval.2, pages_conserved Nat.two_pos hreach⟩

end RadixManager

end FreeToken.KvCache
