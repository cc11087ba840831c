import FreeToken.KvCache.SnapshotLock
import Mathlib.Data.List.MinMax

/-!
# Prefix pins

The pins of `scheduler/cache.py`: `pin_prefix` holds the root path of a node with locks
of the tree's own, within a budget of tokens and one of state slots; `_release_pin`,
`release_pins_for_admission` and `unpin_all` end them. The other owners' calls and
locks are those of `LockState`.

`_pin_locked` maps a node to whether its lock took a snapshot reference; here it is the
list of the locks themselves, each with the snapshot it found. A Python exception is
`none`. The logs and the counters that nothing reads are left out.
-/

namespace FreeToken.KvCache

open FreeToken.Lib RadixTree

/-- `_PrefixPin`. -/
structure PrefixPin where
  node : NodeId
  lastMatch : Time
  /-- The snapshot nodes a pin of `session` scope chose; `none` is every one on its path. -/
  snapshots : Option (List NodeId)
  deriving DecidableEq, Repr

/-- The budgets, fixed while the cache is; `pinPrefixMaxTokens = 0` is not set. -/
structure PinConfig where
  sessionScope : Bool
  pinSlotBudget : Nat
  pinPrefixMaxTokens : Nat
  deriving DecidableEq, Repr

def pinSessionSlotShare : Nat := 2

/-- `_session_pin_slot_cap`. -/
def PinConfig.sessionPinSlotCap (cfg : PinConfig) : Option Nat :=
  if cfg.sessionScope then some (max 1 (cfg.pinSlotBudget / pinSessionSlotShare)) else none

/-- The cache, the other owners' locks, and the pins with their counters. -/
structure PinState extends LockState where
  pins : List PrefixPin
  pinLocked : List Lock
  pinnedPrefixes : Nat
  pinnedTokens : Nat
  pinnedSlots : Nat

namespace PinState

def init (pageSize : Nat) : PinState := ⟨.init pageSize, [], [], 0, 0, 0⟩

variable (cfg : PinConfig) (s : PinState)

-- ---------------------------------------------------------------------------
-- Coverage
-- ---------------------------------------------------------------------------

/-- `n in _pin_covered_nodes()`. -/
def covered (n : NodeId) : Bool := s.pins.any fun p => decide (n ∈ s.cache.rootPath p.node)

/-- `sum(n.length for n in _pin_covered_nodes())`. -/
def coveredTokens : Nat :=
  (((List.range s.cache.next).filter s.covered).map fun n => (s.cache.node n).length).sum

/-- `_recount_pins`. -/
def recount : PinState :=
  { s with
    pinnedPrefixes := s.pins.length
    pinnedTokens := s.coveredTokens
    pinnedSlots := s.pinLocked.countP fun k => k.2.isSome }

-- ---------------------------------------------------------------------------
-- Releases
-- ---------------------------------------------------------------------------

/-- The nodes a pin needs locked: its own, and the snapshots it holds. -/
def needs (p : PrefixPin) : List NodeId :=
  p.node :: match p.snapshots with
    | some snaps => snaps
    | none => (s.cache.rootPath p.node).tail.filter fun n => (s.cache.node n).mambaValue.isSome

/-- The nodes the pins other than the one on `node` need. -/
def neededWithout (node : NodeId) : List NodeId :=
  (s.pins.filter fun p => p.node ≠ node).flatMap s.needs

/-- The locks that end with the pin on `node`. -/
def dropped (node : NodeId) : List Lock :=
  s.pinLocked.filter fun k => k.1 ∉ s.neededWithout node

/-- `_release_pin`. -/
def releasePin (node : NodeId) : Option PinState :=
  (((s.dropped node).map Prod.fst).foldlM HybridRadixCache.decLock s.cache).map fun cache =>
    recount { s with
      cache := cache
      pins := s.pins.filter fun p => p.node ≠ node
      pinLocked := s.pinLocked.filter fun k => k.1 ∈ s.neededWithout node }

/-- The pin matched longest ago, the first of several. -/
def oldest (pins : List PrefixPin) : Option PrefixPin := pins.argmin PrefixPin.lastMatch

/-- A loop that releases pins one at a time: `victim` ends it (`none`), raises
(`some none`) or names the next one. Every round ends a pin, so one more than there
are pins is fuel enough. -/
def releaseWhile (victim : PinState → Option (Option PrefixPin)) :
    Nat → PinState → Option PinState
  | 0, s => some s
  | fuel + 1, s =>
    match victim s with
    | none => some s
    | some none => none
    | some (some p) => (s.releasePin p.node).bind (releaseWhile victim fuel)

-- ---------------------------------------------------------------------------
-- Pinning
-- ---------------------------------------------------------------------------

/-- The snapshot nodes on the path that a new pin on `node` holds. -/
def snapsToHold (node : NodeId) : List NodeId :=
  let snaps := (s.cache.rootPath node).filter fun n => (s.cache.node n).mambaValue.isSome
  match cfg.sessionPinSlotCap with
  | some cap => snaps.take cap
  | none => snaps

/-- Not even an empty ledger has room for the pin. -/
def tooLarge (node : NodeId) : Prop :=
  cfg.pinSlotBudget < (s.snapsToHold cfg node).length ∨
    (cfg.pinPrefixMaxTokens ≠ 0 ∧ cfg.pinPrefixMaxTokens < s.cache.pathLen node)

instance (node : NodeId) : Decidable (s.tooLarge cfg node) :=
  inferInstanceAs (Decidable (_ ∨ _))

/-- The nodes of `path` a pin on `node` that holds `held` has yet to lock. -/
def toLock (path held : List NodeId) (node : NodeId) : List NodeId :=
  path.filter fun n => (n = node ∨ n ∈ held) ∧ n ∉ s.pinLocked.map Prod.fst

def newSlots (need : List NodeId) : Nat := need.countP fun n => (s.cache.node n).mambaValue.isSome

def newTokens (path : List NodeId) : Nat :=
  ((path.filter fun n => !s.covered n).map fun n => (s.cache.node n).length).sum

/-- `_pin_over_budget`. -/
def pinOverBudget (newTokens newSlots : Nat) : Prop :=
  (newSlots ≠ 0 ∧ cfg.pinSlotBudget < s.pinnedSlots + newSlots) ∨
    (cfg.pinPrefixMaxTokens ≠ 0 ∧ cfg.pinPrefixMaxTokens < s.pinnedTokens + newTokens)

instance (newTokens newSlots : Nat) : Decidable (s.pinOverBudget cfg newTokens newSlots) :=
  inferInstanceAs (Decidable (_ ∨ _))

/-- The pin adds nothing to what is held. -/
def addsNothing (path held : List NodeId) (node : NodeId) : Prop :=
  s.newTokens path = 0 ∧ s.newSlots (s.toLock path held node) = 0

instance (path held : List NodeId) (node : NodeId) : Decidable (s.addsNothing path held node) :=
  inferInstanceAs (Decidable (_ ∧ _))

/-- The pin that makes room next; `min` of no pin raises. -/
def pinVictim (path held : List NodeId) (node : NodeId) : Option (Option PrefixPin) :=
  if s.addsNothing path held node then none
  else if s.pinOverBudget cfg (s.newTokens path) (s.newSlots (s.toLock path held node)) then
    some (oldest s.pins)
  else none

def lockForPin (n : NodeId) : PinState :=
  { s with
    cache := s.cache.incLock n
    pinLocked := s.pinLocked ++ [(n, (s.cache.node n).mambaValue)] }

/-- `pin_prefix`. -/
def pinPrefix (node : NodeId) (now : Time) : Option (PinState × Bool) :=
  if node = root then some (s, true)
  else if s.pins.any fun p => p.node == node then
    some ({ s with
      pins := s.pins.map fun p => if p.node = node then { p with lastMatch := now } else p }, true)
  else if s.tooLarge cfg node then some (s, false)
  else
    let path := s.cache.rootPath node
    let held := s.snapsToHold cfg node
    (releaseWhile (fun s => s.pinVictim cfg path held node) (s.pins.length + 1) s).map fun s =>
      if s.addsNothing path held node then (s, true)
      else
        let locked := (s.toLock path held node).foldl lockForPin s
        (recount { locked with
          pins := locked.pins ++ [⟨node, now, cfg.sessionPinSlotCap.map fun _ => held⟩] }, true)

/-- `_touch_pins_through`. -/
def touchPinsThrough (node : NodeId) (now : Time) : PinState :=
  { s with
    pins := s.pins.map fun p =>
      if p.node ∈ s.cache.rootPath node ∨ node ∈ s.cache.rootPath p.node then
        { p with lastMatch := now }
      else p }

-- ---------------------------------------------------------------------------
-- Releases for an admission, and of all pins
-- ---------------------------------------------------------------------------

/-- What a release for admission compares: `available_size` without the evictable part,
and the free state slots. -/
structure Demand where
  needed : Int
  mambaNeeded : Int
  uncached : Int
  freeStates : Int

def kvShort (d : Demand) : Prop := d.uncached + s.cache.fullEvictable < d.needed

instance (d : Demand) : Decidable (s.kvShort d) := inferInstanceAs (Decidable (_ < _))

def statesShort (d : Demand) : Prop := d.freeStates + s.cache.mambaEvictable < d.mambaNeeded

instance (d : Demand) : Decidable (s.statesShort d) := inferInstanceAs (Decidable (_ < _))

/-- The pin holds a state slot. -/
def holdsSlot (p : PrefixPin) : Bool :=
  (p.snapshots.getD (s.cache.rootPath p.node)).any fun n =>
    s.pinLocked.any fun k => k.1 == n && k.2.isSome

def admissionVictim (d : Demand) : Option (Option PrefixPin) :=
  if s.kvShort d ∨ s.statesShort d then
    -- a pin of KV alone cannot buy a state slot
    (oldest (if s.kvShort d then s.pins else s.pins.filter s.holdsSlot)).map some
  else none

/-- `release_pins_for_admission`. -/
def releasePinsForAdmission (d : Demand) : Option (PinState × Bool) :=
  (releaseWhile (fun s => s.admissionVictim d) (s.pins.length + 1) s).map fun t =>
    (t, decide (t.pins.length < s.pins.length))

/-- `unpin_all`. -/
def unpinAll : Option PinState :=
  ((s.pinLocked.map Prod.fst).foldlM HybridRadixCache.decLock s.cache).map fun cache =>
    { s with
      cache := cache
      pins := []
      pinLocked := []
      pinnedPrefixes := 0
      pinnedTokens := 0
      pinnedSlots := 0 }

end PinState

/-- A call on the pins, or another owner's call on the cache. -/
inductive PinCall
  | other (a : CacheOp)
  | pinPrefix (node : NodeId) (now : Time)
  | touchPinsThrough (node : NodeId) (now : Time)
  | releasePin (node : NodeId)
  | releasePinsForAdmission (d : PinState.Demand)
  | unpinAll

namespace PinState

/-- One call; `none` when it raises. A pin is asked for the root or a node of the tree. -/
def step (cfg : PinConfig) (s : PinState) : PinCall → Option PinState
  | .other a => (s.toLockState.step a).map fun t => { s with toLockState := t }
  | .pinPrefix node now =>
    if node = root ∨ (s.cache.node node).linked = true then
      (s.pinPrefix cfg node now).map Prod.fst
    else none
  | .touchPinsThrough node now => some (s.touchPinsThrough node now)
  | .releasePin node => s.releasePin node
  | .releasePinsForAdmission d => (s.releasePinsForAdmission d).map Prod.fst
  | .unpinAll => s.unpinAll

end PinState

end FreeToken.KvCache
