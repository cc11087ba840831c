import FreeToken.Experts.AdmissionRuns
import FreeToken.Experts.Compaction

/-!
# Hybrid admission

A launch that fetches only some of the missing experts, those used most recently or those with the
lowest ids; the others stay where they are and their routed ids become `-1`. The kernel
(`hybridKernel`) selects by the greatest of packed scores and searches its victims among masked
lanes, the reference (`hybridCpu`) sorts and takes minima over all slots of the class. Main results:

* `victims_equal`: masked lanes and all slots of the class have the same least.
* `fetch_loops_equal`: the two loops fetch the same experts into the same slots.
-/

namespace FreeToken.Experts

open FreeToken.Lib Function

/-! ## The state -/

structure HybridCache extends SlotCache where
  activeMask : Nat → Bool
  /-- `num_indices`, the misses that are fetched. -/
  numFetched : Int
  numMissingFull : Nat
  /-- The last step of each expert, `-1` at first. -/
  expertRecency : Nat → Int

structure HybridSetup where
  cfg : AdmissionConfig
  /-- `_HYBRID_FETCH_BY_RECENCY`. -/
  byRecency : Bool
  cacheSize : Nat
  blockC : Nat
  numLayers : Nat
  classRange : Nat → Nat × Nat

/-- int64 arithmetic. -/
def wrap64 (x : Int) : Int :=
  (x + 9223372036854775808) % 18446744073709551616 - 9223372036854775808

/-- Where the score of an expert that is not missing is masked. -/
def noScore : Int := -1152921504606846976

/-- How many misses may be fetched: `max_fetch`, or with a fraction the count that balances the
transfer of the fetched against the computation of the others. `arith` is the arithmetic of the
products. -/
def fetchCap (arith : Int → Int) (missing fracQ16 maxFetch : Int) : Int :=
  if 0 < fracQ16 then
    let lo := arith (missing * fracQ16) / 65536
    let cost := fun f => max (arith (f * (65536 - fracQ16))) (arith ((missing - f) * fracQ16))
    if cost lo ≤ cost (lo + 1) then lo else lo + 1
  else maxFetch

section Launch

variable (g : HybridSetup) (layerId : Nat) (expertIds : List Nat)

/-- The slot of a routed expert, or `-1`. -/
def slotOrMiss (classBegin : Nat) : Option Nat → Int
  | some slot => (slot : Int) - classBegin
  | none => -1

/-! ## The kernel -/

/-- The fetch loop, from the `i`-th miss on: `u` are the lanes of the victims, `score` those of the
experts. -/
def fetchMissing (classBegin : Nat) (missing : List Nat) (oid : Nat → Option Nat) :
    Nat → Nat → (Nat → Nat) → (Nat → Int) → SlotCache → SlotCache
  | 0, _, _, _, c => c
  | n + 1, i, u, score, c =>
    let victim := argmin u g.blockC
    let e := if g.byRecency then argmax score g.cfg.numExperts else (missing[i]?).getD 0
    fetchMissing classBegin missing oid n (i + 1) (update u victim maxUsage)
      (update score e noScore) (install g.cfg layerId classBegin i e victim (oid victim) c)

/-- `_ensure_experts_hybrid_kernel`. -/
def hybridKernel (maxFetch fracQ16 : Int) (c : HybridCache) : HybridCache × List Int :=
  let classBegin := (g.classRange layerId).1
  let classEnd := (g.classRange layerId).2
  let missing := missingExperts g.cfg layerId expertIds c.toSlotCache
  let numFetch := min (missing.length : Int) (fetchCap wrap32 missing.length fracQ16 maxFetch)
  let s := touch g.cfg layerId (activeExperts g.cfg expertIds)
    { c.toSlotCache with step := c.step + 1 }
  let u := fun slot =>
    if ownerActive g.cfg layerId expertIds s.idOfSlot slot ∨
        ¬(slot < g.cacheSize ∧ classBegin ≤ slot ∧ slot < classEnd) then maxUsage
    else s.usage slot
  let score := fun e =>
    if e ∈ missing then
      wrap64 (c.expertRecency (flatId g.cfg layerId e) * g.cfg.numExperts +
        (g.cfg.numExperts - 1 - e))
    else noScore
  let s := fetchMissing g layerId classBegin missing s.idOfSlot numFetch.toNat 0 u score s
  ({ toSlotCache := s
     activeMask := fun e => if e < g.cfg.numExperts then e ∈ expertIds else c.activeMask e
     numFetched := numFetch
     numMissingFull := missing.length
     -- an expert that the CPU computes counts as used, too
     expertRecency := if g.byRecency then fun id =>
         if ∃ e ∈ activeExperts g.cfg expertIds, id = flatId g.cfg layerId e then (s.step : Int)
         else c.expertRecency id
       else c.expertRecency },
    expertIds.map fun e => slotOrMiss classBegin (s.slotForId (flatId g.cfg layerId e)))

/-! ## The reference -/

/-- The misses by recency, the latest first, and by id where it is the same. -/
def orderMissing (recency : Nat → Int) (missing : List Nat) : List Nat :=
  if g.byRecency then
    missing.mergeSort fun a b => decide (recency b < recency a ∨ recency a = recency b ∧ a ≤ b)
  else missing.mergeSort fun a b => decide (a ≤ b)

/-- The fetch loop; `none` where `min` has no slot. -/
def fetchMissingCpu (classBegin classEnd : Nat) : Nat → List Nat → SlotCache → Option SlotCache
  | _, [], c => some c
  | i, e :: missing, c =>
    match (List.range' classBegin (classEnd - classBegin)).argmin
        fun s => (toLex (c.usage s, s) : Nat ×ₗ Nat) with
    | some victim =>
      fetchMissingCpu classBegin classEnd (i + 1) missing
        (install g.cfg layerId classBegin i e victim (c.idOfSlot victim) c)
    | none => none

/-- `_ensure_experts_hybrid_cpu`. -/
def hybridCpu (maxFetch fracQ16 : Int) (c : HybridCache) : Option (HybridCache × List Int) :=
  let classBegin := (g.classRange layerId).1
  let classEnd := (g.classRange layerId).2
  let seen := seenExperts expertIds
  let s := touch g.cfg layerId seen { c.toSlotCache with step := c.step + 1 }
  let missing := orderMissing g (fun e => c.expertRecency (flatId g.cfg layerId e))
    (seen.filter fun e => s.slotForId (flatId g.cfg layerId e) = none)
  let numFetch := min (missing.length : Int) (fetchCap (fun x => x) missing.length fracQ16 maxFetch)
  (fetchMissingCpu g layerId classBegin classEnd 0 (missing.take numFetch.toNat) s).map fun s =>
    ({ toSlotCache := s
       activeMask := seen.foldl (fun mask e => update mask e true) fun e =>
         if e < g.cfg.numExperts then false else c.activeMask e
       numFetched := numFetch
       numMissingFull := missing.length
       expertRecency := if g.byRecency then
           seen.foldl (fun rec e => update rec (flatId g.cfg layerId e) (s.step : Int))
             c.expertRecency
         else c.expertRecency },
      expertIds.map fun e => slotOrMiss classBegin (s.slotForId (flatId g.cfg layerId e)))

end Launch

/-! ## The same victim -/

section Victim

variable {g : HybridSetup} {layerId : Nat} {expertIds : List Nat} {c₀ c : SlotCache}
  {done taken : List Nat} {classBegin classEnd : Nat} {u : Nat → Nat}

/-- Where a launch's fetches start: the slots of routed experts were used now, and all others of the
class before. -/
structure Touched (cfg : AdmissionConfig) (layerId : Nat) (expertIds : List Nat)
    (classBegin classEnd : Nat) (c₀ : SlotCache) : Prop where
  cold : ∀ s, OpenSlot cfg layerId expertIds c₀.idOfSlot classBegin classEnd s →
    c₀.usage s < c₀.step
  hot : ∀ s, classBegin ≤ s ∧ s < classEnd →
    ¬OpenSlot cfg layerId expertIds c₀.idOfSlot classBegin classEnd s → c₀.usage s = c₀.step
  steps : c₀.step < maxUsage

/-- The victims' lanes after `taken`. -/
def VictimLanes (cfg : AdmissionConfig) (layerId : Nat) (expertIds : List Nat)
    (classBegin classEnd : Nat) (c₀ : SlotCache) (taken : List Nat) (u : Nat → Nat) : Prop :=
  (∀ s, OpenSlot cfg layerId expertIds c₀.idOfSlot classBegin classEnd s ∧ s ∉ taken →
      u s = c₀.usage s) ∧
    ∀ s, ¬(OpenSlot cfg layerId expertIds c₀.idOfSlot classBegin classEnd s ∧ s ∉ taken) →
      u s = maxUsage

theorem VictimLanes.mask {cfg : AdmissionConfig}
    (h : VictimLanes cfg layerId expertIds classBegin classEnd c₀ taken u) (victim : Nat) :
    VictimLanes cfg layerId expertIds classBegin classEnd c₀ (taken ++ [victim])
      (update u victim maxUsage) := by
  refine ⟨fun s hs => ?_, fun s hs => ?_⟩
  · rw [List.mem_append, List.mem_singleton, not_or] at hs
    rw [update_of_ne hs.2.2]
    exact h.1 s ⟨hs.1, hs.2.1⟩
  · by_cases heq : s = victim
    · rw [heq, update_self]
    · rw [update_of_ne heq]
      refine h.2 s fun hin => hs ⟨hin.1, ?_⟩
      rw [List.mem_append, List.mem_singleton, not_or]
      exact ⟨hin.2, heq⟩

/-- **Masked lanes and all slots of the class have the same least.** -/
theorem victims_equal (hstart : Touched g.cfg layerId expertIds classBegin classEnd c₀)
    (h : Installed g.cfg layerId classBegin
      (OpenSlot g.cfg layerId expertIds c₀.idOfSlot classBegin classEnd) c₀ done taken c)
    (hlanes : VictimLanes g.cfg layerId expertIds classBegin classEnd c₀ taken u)
    (hblock : classEnd ≤ g.blockC)
    (hopen : ∃ s, OpenSlot g.cfg layerId expertIds c₀.idOfSlot classBegin classEnd s ∧ s ∉ taken) :
    let v := argmin u g.blockC
    (OpenSlot g.cfg layerId expertIds c₀.idOfSlot classBegin classEnd v ∧ v ∉ taken) ∧
      (List.range' classBegin (classEnd - classBegin)).argmin
        (fun s => (toLex (c.usage s, s) : Nat ×ₗ Nat)) = some v := by
  intro v
  obtain ⟨o, ho, hofree⟩ := hopen
  have hoblock : o < g.blockC := Nat.lt_of_lt_of_le ho.1.2 hblock
  have hpos : 0 < g.blockC := by omega
  have hvo : u v ≤ u o := argmin_le hoblock
  have hocold := hstart.cold o ho
  have hsteps := hstart.steps
  have hv : OpenSlot g.cfg layerId expertIds c₀.idOfSlot classBegin classEnd v ∧ v ∉ taken := by
    by_contra hnot
    rw [hlanes.2 v hnot, hlanes.1 o ⟨ho, hofree⟩] at hvo
    omega
  refine ⟨hv, ?_⟩
  have hmem : ∀ s, s ∈ List.range' classBegin (classEnd - classBegin) ↔
      classBegin ≤ s ∧ s < classEnd := by
    intro s
    rw [List.mem_range'_1]
    omega
  cases hmin : (List.range' classBegin (classEnd - classBegin)).argmin
      (fun s => (toLex (c.usage s, s) : Nat ×ₗ Nat)) with
  | none =>
    rw [List.argmin_eq_none] at hmin
    have := (hmem v).mpr hv.1.1
    rw [hmin] at this
    cases this
  | some w =>
    -- its least slot is older than this step, so it is open and not taken
    have hwmem := (hmem w).mp (List.argmin_mem hmin)
    have hle := List.le_of_mem_argmin ((hmem v).mpr hv.1.1) hmin
    rw [Prod.Lex.toLex_le_toLex] at hle
    have husev : c.usage v = c₀.usage v := (h.slots v hv.2).2
    have hvcold := hstart.cold v hv.1
    have hw : OpenSlot g.cfg layerId expertIds c₀.idOfSlot classBegin classEnd w ∧ w ∉ taken := by
      by_cases htaken : w ∈ taken
      · have := h.used w htaken
        simp only at hle
        omega
      · refine ⟨?_, htaken⟩
        by_contra hclosed
        have hhot := hstart.hot w hwmem hclosed
        have husew := (h.slots w htaken).2
        simp only at hle
        omega
    have husew : c.usage w = c₀.usage w := (h.slots w hw.2).2
    have hvw : u v ≤ u w := argmin_le (Nat.lt_of_lt_of_le hwmem.2 hblock)
    rw [hlanes.1 v hv, hlanes.1 w hw] at hvw
    simp only at hle
    have hwv : w ≤ v := by omega
    rcases Nat.lt_or_ge w v with hlt | hge
    · have hless : u v < u w := lt_of_lt_argmin hpos hlt
      rw [hlanes.1 v hv, hlanes.1 w hw] at hless
      omega
    · rw [Nat.le_antisymm hwv hge]

end Victim

/-! ## The same experts -/

section Order

variable {g : HybridSetup} {missing done rest : List Nat} {score : Nat → Int} {e : Nat}

/-- The experts' lanes before the fetches of `rest`. -/
structure ScoreLanes (g : HybridSetup) (missing done rest : List Nat) (score : Nat → Int) : Prop where
  experts : ∀ e ∈ rest, e < g.cfg.numExperts
  ranked : g.byRecency = false → missing = done ++ rest
  scored : g.byRecency = true → (∀ e ∈ rest, noScore < score e) ∧
    (∀ e, e ∉ rest → score e = noScore) ∧ rest.Pairwise fun a b => score b < score a

/-- The kernel selects the head. -/
theorem ScoreLanes.next (h : ScoreLanes g missing done (e :: rest) score) :
    (if g.byRecency then argmax score g.cfg.numExperts else (missing[done.length]?).getD 0) = e := by
  cases hrec : g.byRecency with
  | false =>
    rw [h.ranked hrec, List.getElem?_append_right (Nat.le_refl _)]
    simp
  | true =>
    obtain ⟨habove, hmask, hsorted⟩ := h.scored hrec
    rw [List.pairwise_cons] at hsorted
    rw [if_pos rfl]
    refine argmax_eq (h.experts e List.mem_cons_self) fun s _ hne => ?_
    by_cases hs : s ∈ rest
    · exact hsorted.1 s hs
    · rw [hmask s (by simp [hne, hs])]
      exact habove e List.mem_cons_self

theorem ScoreLanes.tail (h : ScoreLanes g missing done (e :: rest) score) (hnew : e ∉ rest) :
    ScoreLanes g missing (done ++ [e]) rest (update score e noScore) := by
  refine ⟨fun e' he' => h.experts e' (List.mem_cons_of_mem _ he'), fun hrec => ?_, fun hrec => ?_⟩
  · rw [h.ranked hrec]
    simp
  · obtain ⟨habove, hmask, hsorted⟩ := h.scored hrec
    have hne : ∀ e' ∈ rest, e' ≠ e := fun e' he' heq => hnew (heq ▸ he')
    refine ⟨fun e' he' => ?_, fun e' he' => ?_, ?_⟩
    · rw [update_of_ne (hne e' he')]
      exact habove e' (List.mem_cons_of_mem _ he')
    · by_cases heq : e' = e
      · rw [heq, update_self]
      · rw [update_of_ne heq]
        exact hmask e' (by simp [heq, he'])
    · refine (List.pairwise_cons.mp hsorted).2.imp_of_mem fun ha hb hlt => ?_
      rwa [update_of_ne (hne _ ha), update_of_ne (hne _ hb)]

end Order

/-! ## The same fetches -/

section Loops

variable {g : HybridSetup} {layerId : Nat} {expertIds missing order : List Nat} {c₀ : SlotCache}
  {classBegin classEnd : Nat}

/-- **The two loops fetch the same experts into the same slots.** -/
theorem fetch_loops_equal (hstart : Touched g.cfg layerId expertIds classBegin classEnd c₀)
    (hblock : classEnd ≤ g.blockC) (hnodup : order.Nodup)
    (hnone : ∀ e ∈ order, c₀.slotForId (flatId g.cfg layerId e) = none)
    (hroom : Roomy (OpenSlot g.cfg layerId expertIds c₀.idOfSlot classBegin classEnd) order.length) :
    ∀ (n : Nat) {rest done taken : List Nat} {c : SlotCache} {u : Nat → Nat} {score : Nat → Int},
      order = done ++ rest → n ≤ rest.length →
      Installed g.cfg layerId classBegin
        (OpenSlot g.cfg layerId expertIds c₀.idOfSlot classBegin classEnd) c₀ done taken c →
      VictimLanes g.cfg layerId expertIds classBegin classEnd c₀ taken u →
      ScoreLanes g missing done rest score →
      ∃ c' taken', fetchMissing g layerId classBegin missing c₀.idOfSlot n done.length u score c = c' ∧
        fetchMissingCpu g layerId classBegin classEnd done.length (rest.take n) c = some c' ∧
        Installed g.cfg layerId classBegin
          (OpenSlot g.cfg layerId expertIds c₀.idOfSlot classBegin classEnd) c₀
          (done ++ rest.take n) taken' c' := by
  intro n
  induction n with
  | zero =>
    intro rest done taken c u score _ _ h _ _
    refine ⟨c, taken, rfl, rfl, ?_⟩
    rwa [List.take_zero, List.append_nil]
  | succ n ih =>
    intro rest done taken c u score horder hn h hlanes hscore
    cases rest with
    | nil => simp at hn
    | cons e rest =>
      have hfree : taken.length < order.length := by
        rw [h.length, horder, List.length_append, List.length_cons]
        omega
      -- both loops take the same expert, and the same victim for it
      obtain ⟨⟨hopen, hnew⟩, hcpu⟩ := victims_equal hstart h hlanes hblock (hroom taken hfree)
      unfold fetchMissing
      rw [List.take_succ_cons, fetchMissingCpu, hcpu]
      simp only [hscore.next]
      generalize argmin u g.blockC = victim at hopen hnew
      rw [horder] at hnodup
      have he : e ∉ done := by
        rw [List.nodup_append] at hnodup
        exact fun hin => hnodup.2.2 e hin e List.mem_cons_self rfl
      have he' : e ∉ rest := (List.nodup_cons.mp (List.nodup_append.mp hnodup).2.1).1
      have hold : c₀.idOfSlot victim = c.idOfSlot victim := ((h.slots victim hnew).1).symm
      have hlen : done.length + 1 = (done ++ [e]).length := by simp
      have hinstalled := h.install he (hnone e (by simp [horder])) hopen hnew
      rw [hold, hlen]
      obtain ⟨c', taken', hkernel, hreference, hall⟩ := ih (by simpa using horder)
        (by simpa using hn) hinstalled (hlanes.mask victim) (hscore.tail he')
      refine ⟨c', taken', hkernel, hreference, ?_⟩
      rwa [List.append_assoc, List.singleton_append] at hall

end Loops

end FreeToken.Experts
