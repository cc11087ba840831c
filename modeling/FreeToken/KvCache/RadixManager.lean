import FreeToken.KvCache.HandleRuns
import FreeToken.KvCache.WindowPages

/-!
# The cache manager over the prefix cache

`CacheManager` of `scheduler/cache.py` where the cache is a `RadixPrefixCache`: a list of free
pages, the tree, and the live requests with their rows of the page table. A request is admitted
on the longest cached prefix of its prompt, is given whole pages before each forward, hands what
it has computed to the tree, and gives back what the tree has already and what is left over.

An assertion that fails, and an exception, is `none`. `PageConservation` has the invariant.
-/

namespace FreeToken.KvCache

open FreeToken.Lib RadixTree

/-- `indices[:: page_size]`. -/
def pageBases (pageSize : Nat) (indices : List KvIndex) : List KvIndex :=
  (List.range (divCeil indices.length pageSize)).filterMap fun i => indices[i * pageSize]?

/-- `_page_to_token`. -/
def pageToToken (pageSize : Nat) (pages : List KvIndex) : List KvIndex :=
  pages.flatMap (pageSlots pageSize)

/-- `n` rounded up to whole pages. -/
def pageCeil (pageSize n : Nat) : Nat := divCeil n pageSize * pageSize

/-- What the manager reads of a `Req`, with its row of the page table. -/
structure PagedReq where
  inputIds : List Token
  cachedLen : Nat
  deviceLen : Nat
  cacheHandle : RadixCacheHandle
  row : Nat → KvIndex

namespace PagedReq

variable (req : PagedReq)

/-- `page_table[table_idx, start:stop]`. -/
def slice (start stop : Nat) : List KvIndex := (List.range' start (stop - start)).map req.row

/-- `page_table[table_idx, start:...] = indices`. -/
def write (start : Nat) (indices : List KvIndex) : PagedReq :=
  { req with
    row := fun p => if start ≤ p then (indices[p - start]?).getD (req.row p) else req.row p }

/-- The pages that `allocate_paged` adds. -/
def newPages (pageSize : Nat) : Nat :=
  divCeil req.deviceLen pageSize - divCeil req.cachedLen pageSize

/-- `Req.complete_one`. -/
def completeOne : PagedReq :=
  { req with cachedLen := req.deviceLen, deviceLen := req.deviceLen + 1 }

/-- `_padded_tail`. -/
def paddedTail (pageSize start : Nat) : List KvIndex :=
  req.slice start (pageCeil pageSize req.cachedLen)

/-- The pages of its own, up to the end of the last one. -/
def owned (pageSize : Nat) : List KvIndex := req.paddedTail pageSize req.cacheHandle.cachedLen

end PagedReq

structure RadixManager where
  prefixCache : RadixPrefixCache
  freeSlots : List KvIndex
  committedPages : Nat
  numPages : Nat
  pageIndexOffset : Nat
  reqs : List PagedReq
  /-- The handles that are locked for no live request: those of sessions between turns. -/
  leases : List RadixCacheHandle

namespace RadixManager

/-- The pages of a range of the committed ones. -/
def pageRange (pageSize pageIndexOffset start stop : Nat) : List KvIndex :=
  (List.range' start (stop - start)).map fun i => (i + pageIndexOffset) * pageSize

def init (pageSize committedPages numPages pageIndexOffset : Nat) : RadixManager where
  prefixCache := .empty pageSize
  freeSlots := pageRange pageSize pageIndexOffset 0 committedPages
  committedPages := committedPages
  numPages := numPages
  pageIndexOffset := pageIndexOffset
  reqs := []
  leases := []

variable (s : RadixManager)

def pageSize : Nat := s.prefixCache.pageSize

/-- The nodes that are locked, one entry a lock. -/
def held : List NodeId :=
  s.reqs.map (fun req => req.cacheHandle.node) ++ s.leases.map RadixCacheHandle.node

/-- `_free`. -/
def free (indices : List KvIndex) : RadixManager :=
  { s with freeSlots := s.freeSlots ++ pageBases s.pageSize indices }

/-- `_allocate`, which evicts what is missing. -/
def allocate (neededPages : Nat) (ties : Nat → Nat) : Option (RadixManager × List KvIndex) :=
  if s.freeSlots.length < neededPages then
    (s.prefixCache.evict ((neededPages - s.freeSlots.length) * s.pageSize) ties).bind fun r =>
      let freeSlots := s.freeSlots ++ pageBases s.pageSize r.2
      if freeSlots.length < neededPages then none
      else some ({ s with prefixCache := r.1, freeSlots := freeSlots.drop neededPages },
        freeSlots.take neededPages)
  else some ({ s with freeSlots := s.freeSlots.drop neededPages }, s.freeSlots.take neededPages)

/-- `match_req`, `lock` and the copy of the matched indices into a row that has been used
before. -/
def matchReq (inputIds : List Token) (noPrefixCache : Bool) (stale : Nat → KvIndex) (tic : Time) :
    Option RadixManager :=
  if inputIds = [] then none
  else
    let ids := if noPrefixCache then [] else inputIds.take (inputIds.length - 1)
    let r := s.prefixCache.matchPrefix ids tic
    (r.1.lockHandle r.2 false).map fun c =>
      let req : PagedReq :=
        { inputIds, cachedLen := r.2.cachedLen, deviceLen := r.2.cachedLen, cacheHandle := r.2,
          row := stale }
      { s with
        prefixCache := c
        reqs := s.reqs ++ [req.write 0 ((r.1.getMatchedIndices r.2).getD [])] }

/-- `retain_prefix`, for a session. -/
def retainPrefix (inputIds : List Token) (cachedLen : Nat) (tic : Time) : Option RadixManager :=
  let r := s.prefixCache.matchPrefix (inputIds.take cachedLen) tic
  (r.1.lockHandle r.2 false).map fun c => { s with prefixCache := c, leases := s.leases ++ [r.2] }

/-- `unlock` of a session's handle. -/
def release (i : Nat) : Option RadixManager :=
  s.leases[i]?.bind fun handle =>
    (s.prefixCache.lockHandle handle true).map fun c =>
      { s with prefixCache := c, leases := s.leases.eraseIdx i }

/-- A request of the batch with its next `n` tokens to compute. -/
def scheduled (reqs : List PagedReq) (i n : Nat) : Option PagedReq :=
  reqs[i]?.map fun req => { req with deviceLen := req.cachedLen + n }

/-- The pages a batch needs, of all its requests together. -/
def neededPages (pageSize : Nat) (reqs : List PagedReq) (batch : List (Nat × Nat)) : Nat :=
  (batch.map fun a => ((scheduled reqs a.1 a.2).map fun req => req.newPages pageSize).getD 0).sum

/-- `_write_page_table` for the requests of a batch, and `complete_one` after the forward. -/
def forwardRows (pageSize : Nat) : List PagedReq → List (Nat × Nat) → List KvIndex → List PagedReq
  | reqs, [], _ => reqs
  | reqs, (i, n) :: batch, pages =>
    match scheduled reqs i n with
    | none => reqs
    | some req =>
      let k := req.newPages pageSize
      let written := req.write (pageCeil pageSize req.cachedLen)
        (pageToToken pageSize (pages.take k))
      forwardRows pageSize (reqs.set i written.completeOne) batch (pages.drop k)

/-- `committed_pages_required`. -/
def committedPagesRequired (batch : List (Nat × Nat)) : Option Nat :=
  let allocatablePages : Int := s.freeSlots.length + s.prefixCache.evictableSize / s.pageSize
  let shortage := max 0 (neededPages s.pageSize s.reqs batch - allocatablePages)
  let required := s.committedPages + shortage.toNat
  if s.numPages < required then none else some required

/-- `allocate_paged` for a batch and its forward. -/
def forward (batch : List (Nat × Nat)) (ties : Nat → Nat) : Option RadixManager :=
  (s.allocate (neededPages s.pageSize s.reqs batch) ties).map fun r =>
    { r.1 with reqs := forwardRows s.pageSize s.reqs batch r.2 }

/-- `append_host`. -/
def appendHost (i : Nat) (token : Token) : Option RadixManager :=
  s.reqs[i]?.map fun req =>
    { s with reqs := s.reqs.set i { req with inputIds := req.inputIds ++ [token] } }

/-- The length falls back to `keepLen` and `free_spec_tail` returns the pages above it. -/
def freeSpecTail (i keepLen : Nat) : Option RadixManager :=
  s.reqs[i]?.map fun req =>
    { s.free (req.slice (pageCeil s.pageSize keepLen) (pageCeil s.pageSize req.cachedLen)) with
      reqs := s.reqs.set i { req with cachedLen := keepLen, deviceLen := keepLen + 1 } }

/-- `cache_req`. -/
def cacheReq (i : Nat) (finished : Bool) (tic now : Time) : Option RadixManager :=
  s.reqs[i]?.bind fun req =>
    let old := req.cacheHandle
    (s.prefixCache.insertPrefix (req.inputIds.take req.cachedLen) (req.slice 0 req.cachedLen) tic
        now).bind fun r =>
      let cachedLen := r.2.1
      let new := r.2.2
      (r.1.lockHandle old true).bind fun c =>
        -- the tree has these already
        let freed := { s with prefixCache := c }.free (req.slice old.cachedLen cachedLen)
        if finished then
          some { freed.free (req.paddedTail s.pageSize new.cachedLen) with
            reqs := s.reqs.eraseIdx i }
        else
          let row := if old.cachedLen < cachedLen then
              req.write old.cachedLen
                ((((c.getMatchedIndices new).getD []).take cachedLen).drop old.cachedLen)
            else req
          (c.lockHandle new false).map fun c' =>
            { freed with
              prefixCache := c'
              reqs := s.reqs.set i { row with cacheHandle := new } }

/-- `evict_all_unlocked_prefixes`. -/
def evictAllUnlockedPrefixes (ties : Nat → Nat) : Option RadixManager :=
  (s.prefixCache.evict s.prefixCache.evictableSize.toNat ties).map fun r =>
    { s with prefixCache := r.1, freeSlots := s.freeSlots ++ pageBases s.pageSize r.2 }

/-- `add_committed_pages`. -/
def addCommittedPages (newTotal : Nat) : Option RadixManager :=
  if s.committedPages < newTotal ∧ newTotal ≤ s.numPages then
    some { s with
      freeSlots := s.freeSlots ++
        pageRange s.pageSize s.pageIndexOffset s.committedPages newTotal
      committedPages := newTotal }
  else none

/-- `rebuild`: everything anew, while nothing is live. -/
def rebuild (numPages : Nat) : RadixManager := init s.pageSize numPages numPages 0

/-- `check_integrity`, for when nothing is live. -/
def checkIntegrity : Bool :=
  let cachePages := (s.prefixCache.evictableSize + s.prefixCache.protectedSize) / s.pageSize
  decide (s.freeSlots.length + cachePages = s.committedPages) &&
    (s.pageSize ≤ 1 || s.freeSlots.all fun b => b % s.pageSize == 0)

end RadixManager

/-- The calls of the scheduler. -/
inductive ManagerCall where
  | matchReq (inputIds : List Token) (noPrefixCache : Bool) (stale : Nat → KvIndex) (tic : Time)
  | retainPrefix (inputIds : List Token) (cachedLen : Nat) (tic : Time)
  | release (i : Nat)
  | forward (batch : List (Nat × Nat)) (ties : Nat → Nat)
  | appendHost (i : Nat) (token : Token)
  | freeSpecTail (i keepLen : Nat)
  | cacheReq (i : Nat) (finished : Bool) (tic now : Time)
  | evictAllUnlockedPrefixes (ties : Nat → Nat)
  | addCommittedPages (newTotal : Nat)
  | rebuild (numPages : Nat)

namespace RadixManager

def step (s : RadixManager) : ManagerCall → Option RadixManager
  | .matchReq inputIds noPrefixCache stale tic => s.matchReq inputIds noPrefixCache stale tic
  | .retainPrefix inputIds cachedLen tic => s.retainPrefix inputIds cachedLen tic
  | .release i => s.release i
  | .forward batch ties => s.forward batch ties
  | .appendHost i token => s.appendHost i token
  | .freeSpecTail i keepLen => s.freeSpecTail i keepLen
  | .cacheReq i finished tic now => s.cacheReq i finished tic now
  | .evictAllUnlockedPrefixes ties => s.evictAllUnlockedPrefixes ties
  | .addCommittedPages newTotal => s.addCommittedPages newTotal
  | .rebuild numPages => some (s.rebuild numPages)

/-- A batch is of different live requests, and needs no more pages than are free or evictable. -/
def BatchOk (s : RadixManager) (batch : List (Nat × Nat)) : Prop :=
  (batch.map Prod.fst).Nodup ∧ (∀ a ∈ batch, a.1 < s.reqs.length) ∧
    ((neededPages s.pageSize s.reqs batch * s.pageSize : Nat) : Int) ≤
      s.freeSlots.length * s.pageSize + s.prefixCache.evictableSize

instance (s : RadixManager) (batch : List (Nat × Nat)) : Decidable (s.BatchOk batch) :=
  inferInstanceAs (Decidable (_ ∧ _ ∧ _))

/-- The caller's side: a prompt has a token, a draft falls back to no less than the cached
prefix, and everything is rebuilt only while nothing is live. -/
def CallerOk (s : RadixManager) : ManagerCall → Prop
  | .matchReq inputIds _ _ _ => inputIds ≠ []
  | .retainPrefix .. => True
  | .release i => i < s.leases.length
  | .forward batch _ => s.BatchOk batch
  | .appendHost i _ => i < s.reqs.length
  | .freeSpecTail i keepLen => ∃ req ∈ s.reqs[i]?,
      req.cacheHandle.cachedLen ≤ keepLen ∧ keepLen ≤ req.cachedLen
  | .cacheReq i _ _ _ => i < s.reqs.length
  | .evictAllUnlockedPrefixes _ => True
  | .addCommittedPages newTotal => s.committedPages < newTotal ∧ newTotal ≤ s.numPages
  | .rebuild _ => s.reqs = [] ∧ s.leases = []

instance (s : RadixManager) (a : ManagerCall) : Decidable (s.CallerOk a) :=
  match a with
  | .matchReq inputIds _ _ _ => inferInstanceAs (Decidable (inputIds ≠ []))
  | .retainPrefix .. | .evictAllUnlockedPrefixes _ => inferInstanceAs (Decidable True)
  | .release i => inferInstanceAs (Decidable (i < s.leases.length))
  | .forward batch _ => inferInstanceAs (Decidable (s.BatchOk batch))
  | .appendHost i _ | .cacheReq i _ _ _ => inferInstanceAs (Decidable (i < s.reqs.length))
  | .freeSpecTail i keepLen => inferInstanceAs (Decidable (∃ req ∈ s.reqs[i]?,
      req.cacheHandle.cachedLen ≤ keepLen ∧ keepLen ≤ req.cachedLen))
  | .addCommittedPages newTotal =>
    inferInstanceAs (Decidable (s.committedPages < newTotal ∧ newTotal ≤ s.numPages))
  | .rebuild _ => inferInstanceAs (Decidable (s.reqs = [] ∧ s.leases = []))

end RadixManager

end FreeToken.KvCache
