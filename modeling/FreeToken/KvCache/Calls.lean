import FreeToken.KvCache.LockCounts
import FreeToken.Lib.Reach

/-!
# Calls of the hybrid cache

The cache's interface as one step function, whatever node a lock or an unlock
names; what a call returns stands beside the cache it leaves.
-/

namespace FreeToken.KvCache

open FreeToken.Lib RadixTree

inductive CacheCall
  | matchPrefix (inputIds : List Token) (pooled : Bool) (tic : Time)
  | insert (inputIds : List Token) (kvIndices : List KvIndex) (mambaValue : Slot)
      (pooledSums : Option Nat) (kind : SnapshotKind) (tic now : Time)
  | incLock (node : NodeId)
  | decLock (node : NodeId)
  | evictFull (numTokens : Nat) (ties : Nat → Nat)
  | evictMamba (num : Nat)

inductive CallResult
  | matched (m : HybridMatch)
  | inserted (matchedLen : Nat) (mambaExist : Bool)
  | locked
  | evicted (kvIndices : List KvIndex) (mambaSlots : List Slot)
  deriving DecidableEq, Repr

namespace HybridRadixCache

/-- One call; `none` when it raises. A donated slot is the caller's, so not one the
tree owns, and a lock names a node object that exists. -/
def call (c : HybridRadixCache) : CacheCall → Option (HybridRadixCache × CallResult)
  | .matchPrefix inputIds pooled tic =>
    let m := c.matchPrefix inputIds pooled tic
    some (m.1, .matched m.2)
  | .insert inputIds kvIndices mambaValue pooledSums kind tic now =>
    if c.owns mambaValue then none
    else
      (c.insert inputIds kvIndices mambaValue pooledSums kind tic now).map fun r =>
        (r.1, .inserted r.2.1 r.2.2)
  | .incLock node => if node < c.next then some (c.incLock node, .locked) else none
  | .decLock node => (c.decLock node).map fun c => (c, .locked)
  | .evictFull numTokens ties =>
    let e := c.evictFull numTokens ties
    some (e.cache, .evicted e.kvIndices e.mambaSlots)
  | .evictMamba num =>
    let e := c.evictMamba num
    some (e.cache, .evicted e.kvIndices e.mambaSlots)

def step (c : HybridRadixCache) (a : CacheCall) : Option HybridRadixCache := (c.call a).map Prod.fst

end HybridRadixCache

end FreeToken.KvCache
