import FreeToken.Experts.AdmissionMaps

/-!
# Runs of admissions

Launches of any implementation for any layer, between which slots lose their residents (a reset, a
prefill buffer that is filled) and the arena shrinks and grows. Main results:

* `step_ok`: every step keeps what holds between launches.
* `launch_serves`: in every state a run reaches, a launch with room serves its layer.
-/

namespace FreeToken.Experts

open FreeToken.Lib Function

/-- The implementations; the kernel with its bounds on the device sees the mirror. -/
inductive Implementation where
  | sizedV2 (poolRowOfId : Nat → Option Nat)
  | sized
  | cpu

structure Arena where
  cache : SlotCache
  usable : Nat

/-- What a cache is built with. -/
structure Setup where
  cfg : AdmissionConfig
  numLayers : Nat
  /-- `_class_ranges`, by layer. -/
  classRange : Nat → Nat × Nat
  /-- The lanes of a kernel's block. -/
  blockC : Nat
  /-- The width of the duplicate band. -/
  band : Int → Int

/-- `ensure_experts`. -/
def Setup.launch (g : Setup) (impl : Implementation) (layerId : Nat) (expertIds : List Nat)
    (a : Arena) : Option (SlotCache × List Int) :=
  let begin := (g.classRange layerId).1
  let stop := (g.classRange layerId).2
  match impl with
  | .sizedV2 poolRowOfId => some (ensureExpertsSizedKernelV2 g.cfg layerId expertIds g.band
      poolRowOfId g.blockC begin stop a.usable a.cache)
  | .sized =>
    some (ensureExpertsSizedKernel g.cfg layerId expertIds g.blockC begin stop a.usable a.cache)
  | .cpu => ensureExpertsSizedCpu g.cfg layerId expertIds begin stop a.cache

/-- A slot loses its resident. -/
def invalidateSlot (c : SlotCache) (s : Nat) : SlotCache :=
  { c with
    slotForId := match c.idOfSlot s with
      | some old => update c.slotForId old none
      | none => c.slotForId
    idOfSlot := update c.idOfSlot s none
    usage := update c.usage s 0 }

/-- `reset_cache`. -/
def resetCache (c : SlotCache) : SlotCache :=
  { c with
    slotForId := fun _ => none
    idOfSlot := fun _ => none
    usage := fun _ => 0
    step := 0
    numIndices := 0 }

inductive Event where
  | launch (impl : Implementation) (layerId : Nat) (expertIds : List Nat)
  | invalidate (slots : List Nat)
  | setUsable (n : Nat)
  | reset

/-- A step; the slots that an arena gives up are invalidated first. -/
def Setup.step (g : Setup) (a : Arena) : Event → Option Arena
  | .launch impl layerId expertIds =>
    (g.launch impl layerId expertIds a).map fun r => { a with cache := r.1 }
  | .invalidate slots => some { a with cache := slots.foldl invalidateSlot a.cache }
  | .setUsable n =>
    some { cache := (List.range' n (a.usable - n)).foldl invalidateSlot a.cache, usable := n }
  | .reset => some { a with cache := resetCache a.cache }

/-- A launch for routed experts of a layer whose class has as many usable slots as distinct ones of
them. The reference has no bound beside the class's own: it runs where there is no arena. -/
structure HasRoom (g : Setup) (a : Arena) (impl : Implementation) (layerId : Nat)
    (expertIds : List Nat) : Prop where
  layer : layerId < g.numLayers
  routed : ∀ e ∈ expertIds, e < g.cfg.numExperts
  room : (activeExperts g.cfg expertIds).length ≤
    min (g.classRange layerId).2 a.usable - (g.classRange layerId).1
  steps : a.cache.step + 1 < maxUsage
  whole : impl = .cpu → (g.classRange layerId).2 ≤ a.usable

def Allowed (g : Setup) (a : Arena) : Event → Prop
  | .launch impl layerId expertIds => HasRoom g a impl layerId expertIds
  | .invalidate _ => True
  | .setUsable n => n ≤ g.blockC
  | .reset => True

section Runs

variable {g : Setup} {a a' : Arena}

/-- The state of an arena between steps. -/
structure Arena.Ok (g : Setup) (a : Arena) : Prop where
  sound : Sound g.cfg g.numLayers g.classRange a.usable a.cache
  usable : a.usable ≤ g.blockC

/-- Of a configuration, only the number of experts says where a resident is. -/
theorem Sound.configured {cfg : AdmissionConfig} {numLayers usable : Nat}
    {classRange : Nat → Nat × Nat} {c : SlotCache} (h : Sound cfg numLayers classRange usable c)
    (cfg' : AdmissionConfig) (hexperts : cfg'.numExperts = cfg.numExperts) :
    Sound cfg' numLayers classRange usable c := by
  refine ⟨h.inverse, fun layer hl e he s hs => h.inClass layer hl e (hexperts ▸ he) s ?_, h.used,
    h.int32⟩
  unfold flatId at *
  rwa [← hexperts]

/-- **A launch with room serves its layer.** -/
theorem launch_served (h : a.Ok g) {impl : Implementation} {layerId : Nat} {expertIds : List Nat}
    (hroom : HasRoom g a impl layerId expertIds) :
    ∃ r, g.launch impl layerId expertIds a = some r ∧
      Sound g.cfg g.numLayers g.classRange a.usable r.1 ∧
      Served g.cfg layerId expertIds (g.classRange layerId).1
        (min (g.classRange layerId).2 a.usable) a.cache r.1 r.2 := by
  cases impl with
  | sizedV2 poolRowOfId =>
    exact ⟨_, rfl, admissionKernel_served h.sound hroom.layer hroom.routed hroom.room h.usable
      hroom.steps g.band poolRowOfId true⟩
  | sized =>
    -- the kernel's configuration has no mirror, and the same experts
    let cfg : AdmissionConfig :=
      { g.cfg with hasMirror := false, mirrorBook := false, dupBand := false }
    have hconfigured : Sound cfg g.numLayers g.classRange a.usable a.cache :=
      h.sound.configured cfg rfl
    obtain ⟨hsound, hserved⟩ := admissionKernel_served hconfigured hroom.layer hroom.routed
      hroom.room h.usable hroom.steps (fun _ => 0) (fun _ => none) false
    exact ⟨_, rfl, hsound.configured _ rfl, hserved.inverse, hserved.resident, hserved.hits,
      hserved.named, hserved.once, hserved.untouched, hserved.rewritten⟩
  | cpu =>
    exact ensureExpertsSizedCpu_served h.sound hroom.layer hroom.routed hroom.room (hroom.whole rfl)

theorem invalidateSlot_spec {c : SlotCache} (hinv : Paired c.slotForId c.idOfSlot) (s : Nat) :
    Paired (invalidateSlot c s).slotForId (invalidateSlot c s).idOfSlot ∧
      ∀ id t, (invalidateSlot c s).slotForId id = some t → c.slotForId id = some t ∧ t ≠ s := by
  have hpaired : Paired (invalidateSlot c s).slotForId (invalidateSlot c s).idOfSlot :=
    unlinked hinv s
  refine ⟨hpaired, fun id t ht => ?_⟩
  rw [hpaired] at ht
  have hne : t ≠ s := by
    rintro rfl
    have hnone : (invalidateSlot c t).idOfSlot t = none := update_self _ _ _
    rw [hnone] at ht
    cases ht
  have hsame : (invalidateSlot c s).idOfSlot t = c.idOfSlot t := update_of_ne hne _ _
  exact ⟨(hinv id t).mpr (hsame ▸ ht), hne⟩

/-- Slots that lose their residents leave the others where they are. -/
theorem invalidate_spec (slots : List Nat) : ∀ {c : SlotCache},
    Paired c.slotForId c.idOfSlot → (∀ s, c.usage s ≤ c.step) →
      let c' := slots.foldl invalidateSlot c
      Paired c'.slotForId c'.idOfSlot ∧
        (∀ id t, c'.slotForId id = some t → c.slotForId id = some t ∧ t ∉ slots) ∧
        (∀ s, c'.usage s ≤ c'.step) ∧ c'.expertFrequency = c.expertFrequency ∧ c'.step = c.step := by
  induction slots with
  | nil =>
    intro c hinv hused
    exact ⟨hinv, fun id t ht => ⟨ht, List.not_mem_nil⟩, hused, rfl, rfl⟩
  | cons s slots ih =>
    intro c hinv hused
    obtain ⟨hinv', hkept⟩ := invalidateSlot_spec hinv s
    have hused' : ∀ t, (invalidateSlot c s).usage t ≤ (invalidateSlot c s).step := by
      intro t
      change update c.usage s 0 t ≤ c.step
      by_cases ht : t = s
      · rw [ht, update_self]
        exact Nat.zero_le _
      · rw [update_of_ne ht]
        exact hused t
    obtain ⟨hinv'', hkept', hused'', hfreq, hstep⟩ := ih hinv' hused'
    refine ⟨hinv'', fun id t ht => ?_, hused'', hfreq, hstep⟩
    obtain ⟨ht', hnot⟩ := hkept' id t ht
    obtain ⟨ht'', hne⟩ := hkept id t ht'
    refine ⟨ht'', ?_⟩
    rw [List.mem_cons, not_or]
    exact ⟨hne, hnot⟩

/-- **Every step keeps what holds between launches.** -/
theorem step_ok (h : a.Ok g) (e : Event) (hallowed : Allowed g a e) (hstep : g.step a e = some a') :
    a'.Ok g := by
  cases e with
  | launch impl layerId expertIds =>
    obtain ⟨r, hr, hsound, -⟩ := launch_served h hallowed
    unfold Setup.step at hstep
    simp only [hr, Option.map_some, Option.some.injEq] at hstep
    subst hstep
    exact ⟨hsound, h.usable⟩
  | invalidate slots =>
    unfold Setup.step at hstep
    simp only [Option.some.injEq] at hstep
    subst hstep
    obtain ⟨hinv, hkept, hused, hfreq, -⟩ := invalidate_spec slots h.sound.inverse h.sound.used
    refine ⟨⟨hinv, fun layer hl e he s hs => ?_, hused, fun id => ?_⟩, h.usable⟩
    · exact h.sound.inClass layer hl e he s (hkept _ s hs).1
    · rw [hfreq]
      exact h.sound.int32 id
  | setUsable n =>
    unfold Setup.step at hstep
    simp only [Option.some.injEq] at hstep
    subst hstep
    obtain ⟨hinv, hkept, hused, hfreq, -⟩ :=
      invalidate_spec (List.range' n (a.usable - n)) h.sound.inverse h.sound.used
    refine ⟨⟨hinv, fun layer hl e he s hs => ?_, hused, fun id => ?_⟩, hallowed⟩
    · obtain ⟨hs', hnot⟩ := hkept _ s hs
      have hrange := h.sound.inClass layer hl e he s hs'
      rw [List.mem_range'_1] at hnot
      simp only
      omega
    · rw [hfreq]
      exact h.sound.int32 id
  | reset =>
    unfold Setup.step at hstep
    simp only [Option.some.injEq] at hstep
    subst hstep
    refine ⟨⟨fun id s => by simp [resetCache], fun layer _ e _ s hs => ?_, fun s => Nat.le_refl _,
      h.sound.int32⟩, h.usable⟩
    cases hs

/-- A cache when it is built: no residents, and nothing counted. -/
def emptyCache : SlotCache where
  slotForId _ := none
  idOfSlot _ := none
  usage _ := 0
  step := 0
  expertFrequency _ := 0
  policySteps _ := 0
  evictSlots _ := 0
  srcIndices _ := 0
  numIndices := 0
  victimIds _ := none
  priorIds _ := none
  prevSlotOfId _ := none
  lruStats _ := (0, 0, 0)

theorem emptyCache_ok {usable : Nat} (h : usable ≤ g.blockC) :
    Arena.Ok g { cache := emptyCache, usable := usable } := by
  refine ⟨⟨fun id s => by simp [emptyCache], fun layer _ e _ s hs => ?_, fun s => Nat.le_refl _,
    fun id => ?_⟩, h⟩
  · cases hs
  · change (0 : Int) ≤ maxFrequency
    decide

end Runs

/-- One layer of three experts, and two slots. -/
def twoSlots : Setup where
  cfg :=
    { numExperts := 3, policyLfu := true, lfuRecencyCalls := 4, lfuRecencyBonus := 1
      lfuHalveMask := 63, collectStats := true, hasMirror := true, mirrorBook := true, plan := 3 }
  numLayers := 1
  classRange _ := (0, 2)
  blockC := 2
  band _ := 1

end FreeToken.Experts
