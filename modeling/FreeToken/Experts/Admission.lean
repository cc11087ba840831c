import FreeToken.Lib.Argmin
import FreeToken.Lib.Pairing
import Mathlib.Data.Prod.Lex

/-!
# Expert admission

One launch of a layer: every routed expert gets a slot of the layer's class, in place of the least
used resident (LRU) or the least frequent one (LFU), and the routed ids are rewritten to slots. The
three implementations are the kernel with its bounds on the device (`ensureExpertsSizedKernelV2`),
the kernel with host scalars (`ensureExpertsSizedKernel`) and the reference on the CPU
(`ensureExpertsSizedCpu`). A map entry of `-1` is `none`.
-/

namespace FreeToken.Experts

open FreeToken.Lib Function

/-! ## The state -/

/-- The largest int64, where a lane of `usage` is masked. -/
def maxUsage : Nat := 9223372036854775807

/-- The largest int32, where a lane of the frequencies is masked. -/
def maxFrequency : Int := 2147483647

/-- int32 arithmetic. -/
def wrap32 (x : Int) : Int := (x + 2147483648) % 4294967296 - 2147483648

/-- The tensors of `OffloadMoeCache` that an admission reads and writes. -/
structure SlotCache where
  /-- By flat id, `layer * num_experts + expert`. -/
  slotForId : Nat → Option Nat
  idOfSlot : Nat → Option Nat
  usage : Nat → Nat
  step : Nat
  expertFrequency : Nat → Int
  policySteps : Nat → Nat
  evictSlots : Nat → Int
  srcIndices : Nat → Nat
  numIndices : Nat
  victimIds : Nat → Option Nat
  priorIds : Nat → Option Nat
  prevSlotOfId : Nat → Option Nat
  /-- Active, missing and calls, by layer. -/
  lruStats : Nat → Nat × Nat × Nat

structure AdmissionConfig where
  numExperts : Nat
  policyLfu : Bool
  /-- `recency_tokens * num_layers`. -/
  lfuRecencyCalls : Nat
  lfuRecencyBonus : Nat
  /-- `FREETOKEN_LFU_HALVE_STEPS - 1`. -/
  lfuHalveMask : Nat
  collectStats : Bool
  hasMirror : Bool := false
  mirrorBook : Bool := false
  dupBand : Bool := false
  /-- The length of `victim_ids` and `prior_ids`. -/
  plan : Nat := 0

/-! ## The kernel -/

section Kernel

variable (cfg : AdmissionConfig) (layerId : Nat) (expertIds : List Nat)

def flatId (e : Nat) : Nat := layerId * cfg.numExperts + e

/-- The distinct routed experts, in the order of their ids. -/
def activeExperts : List Nat := (List.range cfg.numExperts).filter (· ∈ expertIds)

/-- `MIRROR_BOOK`: the bookkeeping that the swap kernel finds. -/
def mirrorBookkeeping (c : SlotCache) : SlotCache :=
  if cfg.mirrorBook then
    { c with
      victimIds := fun i => if i < cfg.plan then none else c.victimIds i
      priorIds := fun i => if i < cfg.plan then none else c.priorIds i
      prevSlotOfId := fun id =>
        if layerId * cfg.numExperts ≤ id ∧ id < layerId * cfg.numExperts + cfg.numExperts then
          c.slotForId id
        else c.prevSlotOfId id }
  else c

/-- The counts of the layer's experts: halved now and then, and one up for each time an expert is
routed. -/
def countRouted (c : SlotCache) : SlotCache :=
  if cfg.policyLfu then
    let policyStep := c.policySteps layerId + 1
    { c with
      policySteps := update c.policySteps layerId policyStep
      expertFrequency := fun id =>
        if layerId * cfg.numExperts ≤ id ∧ id < layerId * cfg.numExperts + cfg.numExperts then
          wrap32 ((if policyStep &&& cfg.lfuHalveMask = 0 then (c.expertFrequency id).shiftRight 1
            else c.expertFrequency id) + expertIds.count (id - layerId * cfg.numExperts))
        else c.expertFrequency id }
  else c

/-- The residents of a list of experts are used now. -/
def touch (experts : List Nat) (c : SlotCache) : SlotCache :=
  { c with
    usage := experts.foldl
      (fun usage e => match c.slotForId (flatId cfg layerId e) with
        | some slot => update usage slot c.step
        | none => usage) c.usage }

/-- `is_missing`, by rank. -/
def missingExperts (c : SlotCache) : List Nat :=
  (activeExperts cfg expertIds).filter fun e => c.slotForId (flatId cfg layerId e) = none

def countStats (missing : Nat) (c : SlotCache) : SlotCache :=
  if cfg.collectStats then
    let s := c.lruStats layerId
    { c with
      lruStats := update c.lruStats layerId
        (s.1 + (activeExperts cfg expertIds).length, s.2.1 + missing, s.2.2 + 1) }
  else c

/-- What the victim search keeps in registers: a lane for each slot. -/
structure Lanes where
  usage : Nat → Nat
  frequency : Nat → Int

/-- The lane of a victim is masked. -/
def Lanes.mask (lanes : Lanes) (victim : Nat) : Lanes where
  usage := update lanes.usage victim maxUsage
  frequency := update lanes.frequency victim maxFrequency

/-- The slot's owner is routed in this launch. -/
def ownerActive (oid : Nat → Option Nat) (s : Nat) : Bool :=
  expertIds.any fun e => oid s = some (flatId cfg layerId e)

/-- The count of a slot's owner, `-1` where the slot is empty, with the bonus of a recent use. -/
def lfuFrequency (usage : Nat → Nat) (c : SlotCache) (s : Nat) : Int :=
  let f := match c.idOfSlot s with
    | some owner => c.expertFrequency owner
    | none => -1
  if 0 < cfg.lfuRecencyCalls then
    wrap32 (f + if c.step - usage s ≤ cfg.lfuRecencyCalls then (cfg.lfuRecencyBonus : Int) else 0)
  else f

/-- The frequency of a candidate: one more without a pool row, where a mirror is attached. -/
def ownerFrequency (hasCopy : Nat → Bool) (usage : Nat → Nat) (c : SlotCache) (s : Nat) : Int :=
  let f := lfuFrequency cfg usage c s
  if cfg.hasMirror ∧ ¬cfg.dupBand then wrap32 (f + if hasCopy s then 0 else 1) else f

/-- The lanes before the first victim; `allowed` are the slots of the class that are usable. -/
def initialLanes (allowed hasCopy : Nat → Bool) (c : SlotCache) : Lanes :=
  let usage := fun s =>
    if ownerActive cfg layerId expertIds c.idOfSlot s ∨ ¬allowed s then maxUsage else c.usage s
  { usage := usage
    frequency := fun s =>
      if ownerActive cfg layerId expertIds c.idOfSlot s ∨ ¬allowed s then maxFrequency
      else ownerFrequency cfg hasCopy usage c s }

/-- `min_frequency`. -/
def minFrequency (blockC : Nat) (lanes : Lanes) : Int :=
  lanes.frequency (argmin lanes.frequency blockC)

/-- The duplicates that the band prefers. `band` is its width above the least count, in the
kernel's float arithmetic. -/
def inBand (band : Int → Int) (hasCopy : Nat → Bool) (blockC : Nat) (lanes : Lanes) (s : Nat) :
    Bool :=
  hasCopy s ∧ lanes.frequency s < maxFrequency ∧
    lanes.frequency s ≤ minFrequency blockC lanes + band (minFrequency blockC lanes)

def dupFrequency (band : Int → Int) (hasCopy : Nat → Bool) (blockC : Nat) (lanes : Lanes)
    (s : Nat) : Int :=
  if inBand band hasCopy blockC lanes s then lanes.frequency s else maxFrequency

/-- The lanes that may be picked. -/
def picked (band : Int → Int) (hasCopy : Nat → Bool) (blockC : Nat) (lanes : Lanes) (s : Nat) :
    Bool :=
  if cfg.dupBand then
    let dupFrequency := dupFrequency band hasCopy blockC lanes
    let dupMin := dupFrequency (argmin dupFrequency blockC)
    if dupMin < maxFrequency then
      inBand band hasCopy blockC lanes s ∧ lanes.frequency s = dupMin
    else lanes.frequency s = minFrequency blockC lanes
  else lanes.frequency s = minFrequency blockC lanes

/-- The next victim. -/
def pickVictim (band : Int → Int) (hasCopy : Nat → Bool) (blockC : Nat) (lanes : Lanes) : Nat :=
  if cfg.policyLfu then
    argmin (fun s => if picked cfg band hasCopy blockC lanes s then lanes.usage s else maxUsage)
      blockC
  else argmin lanes.usage blockC

/-- Expert `e` takes the slot of its owner `old`, as the `i`-th of the launch. -/
def install (classBegin i e victim : Nat) (old : Option Nat) (c : SlotCache) : SlotCache :=
  let slotForId := match old with
    | some old => update c.slotForId old none
    | none => c.slotForId
  { c with
    idOfSlot := update c.idOfSlot victim (some (flatId cfg layerId e))
    slotForId := update slotForId (flatId cfg layerId e) (some victim)
    usage := update c.usage victim c.step
    evictSlots := update c.evictSlots i ((victim : Int) - classBegin)
    srcIndices := update c.srcIndices i e }

/-- The victim loop, from the `i`-th miss on. `oid` is read before it. -/
def admitMissing (band : Int → Int) (hasCopy : Nat → Bool) (blockC classBegin : Nat)
    (publish : Bool) (oid : Nat → Option Nat) : Nat → List Nat → Lanes → SlotCache → SlotCache
  | _, [], _, c => c
  | i, e :: missing, lanes, c =>
    let victim := pickVictim cfg band hasCopy blockC lanes
    let c := if publish then
        { c with
          victimIds := update c.victimIds i (oid victim)
          priorIds := update c.priorIds i (oid victim) }
      else c
    admitMissing band hasCopy blockC classBegin publish oid (i + 1) missing (lanes.mask victim)
      (install cfg layerId classBegin i e victim (oid victim) c)

/-- The slot of an entry of the map, relative to the class. -/
def classLocal (classBegin : Nat) (slot : Option Nat) : Int :=
  match slot with
  | some slot => (slot : Int) - classBegin
  | none => -1 - classBegin

/-- A launch of either kernel, up to the victims. -/
def beforeVictims (c : SlotCache) : SlotCache :=
  let c := mirrorBookkeeping cfg layerId c
  let c := countRouted cfg layerId expertIds { c with step := c.step + 1 }
  let missing := missingExperts cfg layerId expertIds c
  let c := touch cfg layerId (activeExperts cfg expertIds) { c with numIndices := missing.length }
  countStats cfg layerId expertIds missing.length c

/-- A launch of either kernel: `usable` is the bound of the slots beside `classEnd`. -/
def admissionKernel (band : Int → Int) (poolRowOfId : Nat → Option Nat) (blockC : Nat)
    (publish : Bool) (classBegin classEnd usable : Nat) (c : SlotCache) : SlotCache × List Int :=
  let c := beforeVictims cfg layerId expertIds c
  let missing := missingExperts cfg layerId expertIds c
  let allowed := fun s => classBegin ≤ s ∧ s < classEnd ∧ s < usable
  let hasCopy := fun s => (c.idOfSlot s).any fun owner => (poolRowOfId owner).isSome
  let c := admitMissing cfg layerId band hasCopy blockC classBegin publish c.idOfSlot 0 missing
    (initialLanes cfg layerId expertIds (fun s => allowed s) hasCopy c) c
  (c, expertIds.map fun e => classLocal classBegin (c.slotForId (flatId cfg layerId e)))

/-- `_ensure_experts_sized_kernel_v2`. -/
def ensureExpertsSizedKernelV2 (band : Int → Int) (poolRowOfId : Nat → Option Nat) (blockC : Nat)
    (classBegin classEnd usable : Nat) (c : SlotCache) : SlotCache × List Int :=
  admissionKernel cfg layerId expertIds band poolRowOfId blockC true classBegin classEnd usable c

/-- `_ensure_experts_sized_kernel`, which knows no mirror and publishes no victims. -/
def ensureExpertsSizedKernel (blockC classBegin classEnd cacheSize : Nat) (c : SlotCache) :
    SlotCache × List Int :=
  admissionKernel { cfg with hasMirror := false, mirrorBook := false, dupBand := false } layerId
    expertIds (fun _ => 0) (fun _ => none) blockC false classBegin classEnd cacheSize c

end Kernel

/-! ## The reference -/

section Reference

variable (cfg : AdmissionConfig) (layerId : Nat) (expertIds : List Nat)

/-- The distinct routed experts, in the order of their first appearance. -/
def seenExperts : List Nat :=
  expertIds.foldl (fun seen e => if e ∈ seen then seen else seen ++ [e]) []

/-- The layer's counts, with one addition for each routed id. -/
def countRoutedCpu (c : SlotCache) : SlotCache :=
  let policyStep := c.policySteps layerId + 1
  let c := { c with policySteps := update c.policySteps layerId policyStep }
  if cfg.policyLfu then
    let halved : Nat → Int := fun id =>
      if layerId * cfg.numExperts ≤ id ∧ id < layerId * cfg.numExperts + cfg.numExperts then
        (c.expertFrequency id).shiftRight 1
      else c.expertFrequency id
    { c with
      expertFrequency := expertIds.foldl
        (fun freq e =>
          update freq (flatId cfg layerId e) (wrap32 (freq (flatId cfg layerId e) + 1)))
        (if policyStep % (cfg.lfuHalveMask + 1) = 0 then halved else c.expertFrequency) }
  else c

/-- The tuples of `victim_key` under LFU, in Python's order. -/
def VictimKey : Type := Int ×ₗ Nat ×ₗ Nat

instance : LinearOrder VictimKey := inferInstanceAs (LinearOrder (Int ×ₗ Nat ×ₗ Nat))

/-- `victim_key` under LFU. -/
def lfuKey (c : SlotCache) (s : Nat) : VictimKey :=
  let freq := match c.idOfSlot s with
    | some owner => c.expertFrequency owner
    | none => -1
  let recent : Int :=
    if 0 < cfg.lfuRecencyCalls ∧ c.step - c.usage s ≤ cfg.lfuRecencyCalls then cfg.lfuRecencyBonus
    else 0
  toLex (freq + recent, toLex (c.usage s, s))

/-- The victim loop; `none` where `min` has no candidate. -/
def admitMissingCpu (begin stop : Nat) : Nat → List Nat → SlotCache → Option SlotCache
  | _, [], c => some c
  | i, e :: missing, c =>
    let candidates := (List.range' begin (stop - begin)).filter fun s =>
      ¬ownerActive cfg layerId expertIds c.idOfSlot s
    let victim := if cfg.policyLfu then candidates.argmin (lfuKey cfg c)
      else candidates.argmin fun s => (toLex (c.usage s, s) : Nat ×ₗ Nat)
    match victim with
    | some victim =>
      admitMissingCpu begin stop (i + 1) missing
        (install cfg layerId begin i e victim (c.idOfSlot victim) c)
    | none => none

/-- `_ensure_experts_sized_cpu`. -/
def ensureExpertsSizedCpu (begin stop : Nat) (c : SlotCache) : Option (SlotCache × List Int) :=
  let seen := seenExperts expertIds
  let c := countRoutedCpu cfg layerId expertIds { c with step := c.step + 1 }
  let c := touch cfg layerId seen c
  let missing := seen.filter fun e => c.slotForId (flatId cfg layerId e) = none
  (admitMissingCpu cfg layerId expertIds begin stop 0 missing c).map fun c =>
    let c := { c with numIndices := missing.length }
    let s := c.lruStats layerId
    let c := if cfg.collectStats then
        { c with
          lruStats := update c.lruStats layerId
            (s.1 + seen.length, s.2.1 + missing.length, s.2.2 + 1) }
      else c
    (c, expertIds.map fun e => classLocal begin (c.slotForId (flatId cfg layerId e)))

end Reference

end FreeToken.Experts
