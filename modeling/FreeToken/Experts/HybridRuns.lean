import FreeToken.Experts.Hybrid
import Mathlib.Tactic.Linarith

/-!
# Runs of hybrid admissions

A launch of the kernel is one of the reference as long as its integers hold the products of the cap
and the packed scores, and so are all launches of a run. Main results:

* `fetchCap_wrap32`: the caps agree while the misses times the fraction fit an int32.
* `hybrid_step`: what the two do in one launch.
* `hybrid_traces_equal`: in a run.
* `hybrid_overflows`: the kernel's cap of 32768 misses that are all to be fetched is negative.
-/

namespace FreeToken.Experts

open FreeToken.Lib Function

/-! ## The cap -/

section Cap

variable {missing : Nat} {fracQ16 : Int}

theorem wrap32_of_fits {x : Int} (hlow : -2147483648 ≤ x) (hhigh : x < 2147483648) :
    wrap32 x = x := by
  unfold wrap32
  omega

theorem wrap64_of_fits {x : Int} (hlow : -9223372036854775808 ≤ x)
    (hhigh : x < 9223372036854775808) : wrap64 x = x := by
  unfold wrap64
  omega

/-- The kernel's products do not overflow. -/
theorem fetchCap_wrap32 (maxFetch : Int) (hfrac : 0 ≤ fracQ16 ∧ fracQ16 ≤ 65536)
    (hfits : missing * fracQ16 < 2147483648) :
    fetchCap wrap32 missing fracQ16 maxFetch = fetchCap (fun x => x) missing fracQ16 maxFetch := by
  unfold fetchCap
  by_cases hpos : 0 < fracQ16
  · have hmissing : (0 : Int) ≤ missing := Int.natCast_nonneg _
    have hprod : 0 ≤ missing * fracQ16 := Int.mul_nonneg hmissing hfrac.1
    simp only [hpos, if_true]
    rw [wrap32_of_fits (by omega) hfits]
    generalize hlo : missing * fracQ16 / 65536 = lo
    have hle : 65536 * lo ≤ missing * fracQ16 := by omega
    have hlo₀ : 0 ≤ lo := by omega
    have hlo₁ : lo ≤ 32767 := by omega
    have hlom : lo ≤ missing := by nlinarith
    -- a product for the transfer, and one for the computation
    have htransfer : ∀ f : Int, 0 ≤ f → f ≤ 32768 →
        wrap32 (f * (65536 - fracQ16)) = f * (65536 - fracQ16) := fun f hf₀ hf₁ =>
      wrap32_of_fits (by nlinarith) (by nlinarith)
    have hcompute : ∀ f : Int, 0 ≤ f → f ≤ missing + 1 →
        wrap32 ((missing - f) * fracQ16) = (missing - f) * fracQ16 := fun f hf₀ hf₁ =>
      wrap32_of_fits (by nlinarith) (by nlinarith)
    simp only [htransfer lo hlo₀ (by omega), htransfer (lo + 1) (by omega) (by omega),
      hcompute lo hlo₀ (by omega), hcompute (lo + 1) (by omega) (by omega)]
  · rw [if_neg hpos, if_neg hpos]

end Cap

/-! ## The order of the misses -/

section Order

variable {g : HybridSetup} {recency : Nat → Int} {missing missing' : List Nat}

theorem orderMissing_perm : (orderMissing g recency missing).Perm missing := by
  unfold orderMissing
  split
  · exact List.mergeSort_perm _ _
  · exact List.mergeSort_perm _ _

/-- By ids, the order does not depend on how the misses were found. -/
theorem orderMissing_ids (hrec : g.byRecency = false) (hperm : missing'.Perm missing)
    (hsorted : missing.Pairwise fun a b => a ≤ b) : orderMissing g recency missing' = missing := by
  have horder := sorted_by (fun a b => a ≤ b) (fun _ _ _ hab hbc => Nat.le_trans hab hbc)
    Nat.le_total missing'
  unfold orderMissing
  simp only [hrec, Bool.false_eq_true, if_false]
  refine List.Perm.eq_of_pairwise (fun a b _ _ hab hba => Nat.le_antisymm hab hba) horder hsorted ?_
  exact (List.mergeSort_perm _ _).trans hperm

/-- The packed score is above the mask, and fits an int64. -/
theorem score_fits {numExperts step : Nat} {e : Nat} {r : Int} (he : e < numExperts)
    (hexperts : numExperts ≤ 2147483648) (hrec : -1 ≤ r ∧ r ≤ step)
    (hfits : (step + 1) * numExperts ≤ 9223372036854775808) :
    wrap64 (r * numExperts + (numExperts - 1 - e)) = r * numExperts + (numExperts - 1 - e) ∧
      noScore < wrap64 (r * numExperts + (numExperts - 1 - e)) := by
  have hfits' : ((step : Int) + 1) * numExperts ≤ 9223372036854775808 := by exact_mod_cast hfits
  have hpos : (0 : Int) ≤ numExperts := Int.natCast_nonneg _
  have hlow : -(numExperts : Int) ≤ r * numExperts := by nlinarith
  have hhigh : r * numExperts ≤ step * numExperts := Int.mul_le_mul_of_nonneg_right hrec.2 hpos
  have hnext : ((step : Int) + 1) * numExperts = step * numExperts + numExperts := by
    rw [Int.add_mul, Int.one_mul]
  have hsame := wrap64_of_fits (x := r * numExperts + (numExperts - 1 - e)) (by omega) (by omega)
  refine ⟨hsame, ?_⟩
  rw [hsame]
  unfold noScore
  omega

/-- **The packed scores are the order by recency and id.** -/
theorem score_lt {numExperts : Nat} {a b : Nat} {ra rb : Int} (ha : a < numExperts)
    (h : rb < ra ∨ ra = rb ∧ a < b) :
    rb * numExperts + (numExperts - 1 - b) < ra * numExperts + (numExperts - 1 - a) := by
  rcases h with hlt | ⟨rfl, hlt⟩
  · have hpos : (0 : Int) ≤ numExperts := Int.natCast_nonneg _
    have hstep : (rb + 1) * numExperts ≤ ra * numExperts :=
      Int.mul_le_mul_of_nonneg_right (by omega) hpos
    rw [Int.add_mul, Int.one_mul] at hstep
    omega
  · omega

/-- The lanes before the first fetch. -/
theorem scoreLanes_start (recency : Nat → Int) (step : Nat) {score : Nat → Int}
    (hexperts : g.cfg.numExperts ≤ 2147483648)
    (hids : ∀ e ∈ missing, e < g.cfg.numExperts) (hsorted : missing.Pairwise fun a b => a < b)
    (hperm : missing'.Perm missing) (hrec : ∀ e ∈ missing, -1 ≤ recency e ∧ recency e ≤ step)
    (hfits : g.byRecency = true → (step + 1) * g.cfg.numExperts ≤ 9223372036854775808)
    (hscore : ∀ e, score e = if e ∈ missing then
      wrap64 (recency e * g.cfg.numExperts + (g.cfg.numExperts - 1 - e)) else noScore) :
    ScoreLanes g missing [] (orderMissing g recency missing') score := by
  have hmem : ∀ e, e ∈ orderMissing g recency missing' ↔ e ∈ missing := fun e =>
    (orderMissing_perm.trans hperm).mem_iff
  refine ⟨fun e he => hids e ((hmem e).mp he), fun hby => ?_, fun hby => ⟨fun e he => ?_,
    fun e he => ?_, ?_⟩⟩
  · rw [orderMissing_ids hby hperm (hsorted.imp Nat.le_of_lt), List.nil_append]
  · have he' := (hmem e).mp he
    rw [hscore, if_pos he']
    exact (score_fits (hids e he') hexperts (hrec e he') (hfits hby)).2
  · rw [hscore, if_neg (mt (hmem e).mpr he)]
  · have horder : (orderMissing g recency missing').Pairwise fun a b =>
        recency b < recency a ∨ recency a = recency b ∧ a ≤ b := by
      unfold orderMissing
      rw [if_pos hby]
      exact sorted_by (fun a b => recency b < recency a ∨ recency a = recency b ∧ a ≤ b)
        (fun a b c hab hbc => by omega) (fun a b => by omega) missing'
    have hnodup : (orderMissing g recency missing').Pairwise fun a b => a ≠ b :=
      (orderMissing_perm.trans hperm).nodup_iff.mpr (hsorted.imp Nat.ne_of_lt)
    refine (horder.and hnodup).imp_of_mem fun {a b} ha hb hab => ?_
    have ha' := (hmem a).mp ha
    have hb' := (hmem b).mp hb
    rw [hscore, hscore, if_pos ha', if_pos hb',
      (score_fits (hids a ha') hexperts (hrec a ha') (hfits hby)).1,
      (score_fits (hids b hb') hexperts (hrec b hb') (hfits hby)).1]
    refine score_lt (hids a ha') ?_
    omega

end Order

/-! ## One launch -/

structure HybridCall where
  layerId : Nat
  expertIds : List Nat
  maxFetch : Int
  fracQ16 : Int

/-- The classes are in the cache and the cache in a block, and the flat ids are int32. -/
structure HybridSetup.Ok (g : HybridSetup) : Prop where
  inCache : ∀ layer < g.numLayers, (g.classRange layer).2 ≤ g.cacheSize
  block : g.cacheSize ≤ g.blockC
  experts : g.cfg.numExperts ≤ 2147483648

/-- What holds between launches. -/
structure HybridCache.Ok (g : HybridSetup) (c : HybridCache) : Prop where
  sound : Sound g.cfg g.numLayers g.classRange g.cacheSize c.toSlotCache
  recency : ∀ id, -1 ≤ c.expertRecency id ∧ c.expertRecency id ≤ c.step

/-- A call whose class has a slot for each distinct routed expert, and whose numbers fit the
kernel's: with a fraction, the misses times it an int32, and the scores an int64. -/
structure Fits (g : HybridSetup) (c : HybridCache) (call : HybridCall) : Prop where
  layer : call.layerId < g.numLayers
  routed : ∀ e ∈ call.expertIds, e < g.cfg.numExperts
  room : (activeExperts g.cfg call.expertIds).length ≤
    (g.classRange call.layerId).2 - (g.classRange call.layerId).1
  fraction : 0 ≤ call.fracQ16 ∧ call.fracQ16 ≤ 65536
  steps : c.step + 1 < maxUsage
  products : (missingExperts g.cfg call.layerId call.expertIds c.toSlotCache).length * call.fracQ16 <
    2147483648
  scores : g.byRecency = true → (c.step + 1) * g.cfg.numExperts ≤ 9223372036854775808

def HybridCall.kernel (call : HybridCall) (g : HybridSetup) (c : HybridCache) :
    HybridCache × List Int :=
  hybridKernel g call.layerId call.expertIds call.maxFetch call.fracQ16 c

def HybridCall.cpu (call : HybridCall) (g : HybridSetup) (c : HybridCache) :
    Option (HybridCache × List Int) :=
  hybridCpu g call.layerId call.expertIds call.maxFetch call.fracQ16 c

/-- The misses in the order they are fetched. -/
def HybridCall.fetchOrder (call : HybridCall) (g : HybridSetup) (c : HybridCache) : List Nat :=
  orderMissing g (fun e => c.expertRecency (flatId g.cfg call.layerId e))
    ((seenExperts call.expertIds).filter fun e =>
      c.slotForId (flatId g.cfg call.layerId e) = none)

/-- The rewritten ids are `-1` for the misses beyond the fetch count, and for no others. -/
def MissesMarked (g : HybridSetup) (c : HybridCache) (call : HybridCall)
    (r : HybridCache × List Int) : Prop :=
  List.Forall₂ (fun e (out : Int) => out = -1 ↔
    e ∈ (call.fetchOrder g c).drop r.1.numFetched.toNat) call.expertIds r.2

section Step

variable {g : HybridSetup} {c : HybridCache} {call : HybridCall}

theorem touch_congr {cfg : AdmissionConfig} {layerId : Nat} {experts experts' : List Nat}
    (h : ∀ e, e ∈ experts ↔ e ∈ experts') (c : SlotCache) :
    touch cfg layerId experts c = touch cfg layerId experts' c := by
  have husage : (touch cfg layerId experts c).usage = (touch cfg layerId experts' c).usage := by
    funext s
    rw [touch_usage, touch_usage]
    simp only [h]
  unfold touch at *
  simp only at husage
  rw [husage]

/-- **Where the fetches start.** -/
theorem touched_start {cfg : AdmissionConfig} {numLayers usable layerId : Nat}
    {classRange : Nat → Nat × Nat} {expertIds : List Nat} {c : SlotCache}
    (hsound : Sound cfg numLayers classRange usable c)
    (hids : ∀ e ∈ expertIds, e < cfg.numExperts) (hsteps : c.step + 1 < maxUsage)
    (classBegin classEnd : Nat) :
    Touched cfg layerId expertIds classBegin classEnd
      (touch cfg layerId (activeExperts cfg expertIds) { c with step := c.step + 1 }) := by
  have husage : ∀ s, (touch cfg layerId (activeExperts cfg expertIds)
      { c with step := c.step + 1 }).usage s =
        if ∃ e ∈ expertIds, c.slotForId (flatId cfg layerId e) = some s then c.step + 1
        else c.usage s := by
    intro s
    rw [touch_usage]
    simp only [mem_activeExperts hids]
  refine ⟨fun s hs => ?_, fun s hrange hs => ?_, hsteps⟩
  · have hnot : ¬∃ e ∈ expertIds, c.slotForId (flatId cfg layerId e) = some s := by
      rintro ⟨e, he, hslot⟩
      exact hs.2 e he ((hsound.inverse _ _).mp hslot)
    rw [husage, if_neg hnot]
    exact Nat.lt_succ_of_le (hsound.used s)
  · have hactive : ∃ e ∈ expertIds, c.slotForId (flatId cfg layerId e) = some s := by
      unfold OpenSlot at hs
      push Not at hs
      obtain ⟨e, he, howner⟩ := hs hrange
      exact ⟨e, he, (hsound.inverse _ _).mpr howner⟩
    rw [husage, if_pos hactive]
    rfl

/-- The lanes that a fold of one value reaches. -/
theorem foldl_update {α : Type} (key : Nat → Nat) (v : α) (keys : List Nat) (f : Nat → α) (x : Nat) :
    keys.foldl (fun f e => update f (key e) v) f x = if ∃ e ∈ keys, x = key e then v else f x := by
  induction keys generalizing f with
  | nil => simp
  | cons e keys ih =>
    rw [List.foldl_cons, ih]
    by_cases hx : x = key e
    · simp [hx]
    · simp [hx]

/-- The misses are found by the ids in one, and by the routed list in the other. -/
theorem seen_perm (hids : ∀ e ∈ call.expertIds, e < g.cfg.numExperts) :
    ((seenExperts call.expertIds).filter fun e =>
      decide (c.slotForId (flatId g.cfg call.layerId e) = none)).Perm
      (missingExperts g.cfg call.layerId call.expertIds c.toSlotCache) := by
  obtain ⟨hseen, hmem⟩ := seenExperts_spec call.expertIds
  refine (List.perm_ext_iff_of_nodup (hseen.filter _) (activeExperts_nodup.filter _)).mpr fun e => ?_
  rw [List.mem_filter, hmem, decide_eq_true_eq]
  exact (mem_missingExperts hids).symm

theorem missingExperts_lt (cfg : AdmissionConfig) (layerId : Nat) (expertIds : List Nat)
    (c : SlotCache) : (missingExperts cfg layerId expertIds c).Pairwise fun a b => a < b :=
  (List.pairwise_lt_range.filter _).filter _

/-- The fetches of a launch, by either implementation. -/
theorem fetches_equal (hg : g.Ok) (hc : c.Ok g) (hfits : Fits g c call) {n : Nat}
    (hn : n ≤ (call.fetchOrder g c).length) :
    let classBegin := (g.classRange call.layerId).1
    let classEnd := (g.classRange call.layerId).2
    let missing := missingExperts g.cfg call.layerId call.expertIds c.toSlotCache
    let s := touch g.cfg call.layerId (activeExperts g.cfg call.expertIds)
      { c.toSlotCache with step := c.step + 1 }
    ∃ c' taken, fetchMissing g call.layerId classBegin missing s.idOfSlot n 0
        (fun slot => if ownerActive g.cfg call.layerId call.expertIds s.idOfSlot slot ∨
            ¬(slot < g.cacheSize ∧ classBegin ≤ slot ∧ slot < classEnd) then maxUsage
          else s.usage slot)
        (fun e => if e ∈ missing then
            wrap64 (c.expertRecency (flatId g.cfg call.layerId e) * g.cfg.numExperts +
              (g.cfg.numExperts - 1 - e))
          else noScore) s = c' ∧
      fetchMissingCpu g call.layerId classBegin classEnd 0 ((call.fetchOrder g c).take n) s =
        some c' ∧
      Installed g.cfg call.layerId classBegin
        (OpenSlot g.cfg call.layerId call.expertIds s.idOfSlot classBegin classEnd) s
        ((call.fetchOrder g c).take n) taken c' := by
  intro classBegin classEnd missing s
  have hinv : Paired s.slotForId s.idOfSlot := hc.sound.inverse
  have hclass : classEnd ≤ g.cacheSize := hg.inCache _ hfits.layer
  have hperm : (call.fetchOrder g c).Perm missing :=
    orderMissing_perm.trans (seen_perm hfits.routed)
  have hmem : ∀ e, e ∈ missing ↔ e ∈ call.expertIds ∧
      s.slotForId (flatId g.cfg call.layerId e) = none := fun e => mem_missingExperts hfits.routed
  have hsorted := missingExperts_lt g.cfg call.layerId call.expertIds c.toSlotCache
  have hnodup : missing.Nodup := hsorted.imp Nat.ne_of_lt
  have hroomy : Roomy (OpenSlot g.cfg call.layerId call.expertIds s.idOfSlot classBegin classEnd)
      (call.fetchOrder g c).length := fun taken htaken =>
    exists_open hinv activeExperts_nodup (fun e => mem_activeExperts hfits.routed) hfits.room hnodup
      hmem (hperm.length_eq ▸ htaken)
  -- a lane is at its maximum just where the other loop does not look
  have hlanes : VictimLanes g.cfg call.layerId call.expertIds classBegin classEnd s []
      (fun slot => if ownerActive g.cfg call.layerId call.expertIds s.idOfSlot slot ∨
          ¬(slot < g.cacheSize ∧ classBegin ≤ slot ∧ slot < classEnd) then maxUsage
        else s.usage slot) := by
    have hclosed : ∀ slot, (ownerActive g.cfg call.layerId call.expertIds s.idOfSlot slot = true ∨
        ¬(slot < g.cacheSize ∧ classBegin ≤ slot ∧ slot < classEnd)) ↔
          ¬OpenSlot g.cfg call.layerId call.expertIds s.idOfSlot classBegin classEnd slot := by
      intro slot
      have hiff : (ownerActive g.cfg call.layerId call.expertIds s.idOfSlot slot = true ∨
          ¬decide (classBegin ≤ slot ∧ slot < classEnd ∧ slot < g.cacheSize) = true) ↔
            ¬OpenSlot g.cfg call.layerId call.expertIds s.idOfSlot classBegin
              (min classEnd g.cacheSize) slot := closed_iff _ _ _ _ _
      rw [decide_eq_true_eq, Nat.min_eq_left hclass] at hiff
      rw [← hiff]
      refine or_congr_right (not_congr ?_)
      omega
    refine ⟨fun slot hs => ?_, fun slot hs => ?_⟩
    · exact if_neg fun hin => (hclosed slot).mp hin hs.1
    · exact if_pos ((hclosed slot).mpr fun hopen => hs ⟨hopen, List.not_mem_nil⟩)
  have hscore := scoreLanes_start (fun e => c.expertRecency (flatId g.cfg call.layerId e)) c.step
    hg.experts (fun e he => hfits.routed e ((hmem e).mp he).1) hsorted
    (seen_perm hfits.routed) (fun e _ => hc.recency _) hfits.scores fun e => rfl
  obtain ⟨c', taken, hkernel, hcpu, hinstalled⟩ := fetch_loops_equal
    (touched_start hc.sound hfits.routed hfits.steps classBegin classEnd)
    (Nat.le_trans hclass hg.block) (hperm.nodup_iff.mpr hnodup)
    (fun e he => ((hmem e).mp (hperm.mem_iff.mp he)).2) hroomy n (List.nil_append _).symm hn
    (Installed.refl hinv) hlanes hscore
  exact ⟨c', taken, hkernel, hcpu, hinstalled⟩


/-- What a launch returns when it fetches `numFetch` experts and these leave `s`. -/
def HybridCall.result (call : HybridCall) (g : HybridSetup) (c : HybridCache) (numFetch : Int)
    (s : SlotCache) : HybridCache × List Int :=
  ({ toSlotCache := s
     activeMask := fun e =>
       if e < g.cfg.numExperts then decide (e ∈ call.expertIds) else c.activeMask e
     numFetched := numFetch
     numMissingFull := (call.fetchOrder g c).length
     expertRecency := if g.byRecency then fun id =>
         if ∃ e ∈ activeExperts g.cfg call.expertIds, id = flatId g.cfg call.layerId e then
           (s.step : Int)
         else c.expertRecency id
       else c.expertRecency },
    call.expertIds.map fun e => slotOrMiss (g.classRange call.layerId).1
      (s.slotForId (flatId g.cfg call.layerId e)))

/-- **Both return the same.** -/
theorem launches_equal (hg : g.Ok) (hc : c.Ok g) (hfits : Fits g c call) :
    ∃ (numFetch : Int) (s : SlotCache) (taken : List Nat),
      call.kernel g c = call.result g c numFetch s ∧
      call.cpu g c = some (call.result g c numFetch s) ∧
      Installed g.cfg call.layerId (g.classRange call.layerId).1
        (OpenSlot g.cfg call.layerId call.expertIds c.idOfSlot (g.classRange call.layerId).1
          (g.classRange call.layerId).2)
        (touch g.cfg call.layerId (activeExperts g.cfg call.expertIds)
          { c.toSlotCache with step := c.step + 1 })
        ((call.fetchOrder g c).take numFetch.toNat) taken s := by
  obtain ⟨hseen, hmemSeen⟩ := seenExperts_spec call.expertIds
  have hactive : ∀ e, e ∈ activeExperts g.cfg call.expertIds ↔ e ∈ call.expertIds := fun e =>
    mem_activeExperts hfits.routed
  have htouch : touch g.cfg call.layerId (seenExperts call.expertIds)
      { c.toSlotCache with step := c.step + 1 } =
        touch g.cfg call.layerId (activeExperts g.cfg call.expertIds)
          { c.toSlotCache with step := c.step + 1 } :=
    touch_congr (fun e => (hmemSeen e).trans (hactive e).symm) _
  have hlength : (call.fetchOrder g c).length =
      (missingExperts g.cfg call.layerId call.expertIds c.toSlotCache).length :=
    (orderMissing_perm.trans (seen_perm hfits.routed)).length_eq
  have hcap := fetchCap_wrap32 call.maxFetch hfits.fraction hfits.products
  -- what the loops over the experts set one by one, the kernel sets at once
  have hmask : (seenExperts call.expertIds).foldl (fun mask e => update mask e true)
      (fun e => if e < g.cfg.numExperts then false else c.activeMask e) =
        fun e => if e < g.cfg.numExperts then decide (e ∈ call.expertIds) else c.activeMask e := by
    funext e
    rw [foldl_update (fun e => e)]
    simp only [exists_eq_right', hmemSeen]
    by_cases he : e ∈ call.expertIds
    · simp [he, hfits.routed e he]
    · simp [he]
  have hrecency : ∀ step : Int, (seenExperts call.expertIds).foldl
      (fun rec e => update rec (flatId g.cfg call.layerId e) step) c.expertRecency =
        fun id => if ∃ e ∈ activeExperts g.cfg call.expertIds, id = flatId g.cfg call.layerId e then
          step else c.expertRecency id := by
    intro step
    funext id
    rw [foldl_update]
    simp only [hmemSeen, hactive]
  set numFetch := min ((call.fetchOrder g c).length : Int)
    (fetchCap (fun x => x) (call.fetchOrder g c).length call.fracQ16 call.maxFetch) with hnum
  have hn : numFetch.toNat ≤ (call.fetchOrder g c).length := by omega
  obtain ⟨s, taken, hkernel, hcpu, hinstalled⟩ := fetches_equal hg hc hfits hn
  refine ⟨numFetch, s, taken, ?_, ?_, hinstalled⟩
  · unfold HybridCall.kernel hybridKernel
    simp only
    rw [hcap, ← hlength, ← hnum, hkernel]
    rfl
  · unfold HybridCall.cpu hybridCpu
    simp only
    rw [htouch]
    change (fetchMissingCpu g call.layerId (g.classRange call.layerId).1
      (g.classRange call.layerId).2 0 ((call.fetchOrder g c).take numFetch.toNat) _).map _ = _
    rw [hcpu, Option.map_some]
    simp only [hmask, hrecency]
    rfl

theorem mem_fetchOrder {e : Nat} : e ∈ call.fetchOrder g c ↔
    e ∈ call.expertIds ∧ c.slotForId (flatId g.cfg call.layerId e) = none := by
  unfold HybridCall.fetchOrder
  rw [orderMissing_perm.mem_iff, List.mem_filter, (seenExperts_spec _).2, decide_eq_true_eq]

theorem fetchOrder_nodup : (call.fetchOrder g c).Nodup :=
  orderMissing_perm.nodup_iff.mpr ((seenExperts_spec _).1.filter _)

section Installed

variable {numFetch : Int} {s : SlotCache} {taken : List Nat}
  (h : Installed g.cfg call.layerId (g.classRange call.layerId).1
    (OpenSlot g.cfg call.layerId call.expertIds c.idOfSlot (g.classRange call.layerId).1
      (g.classRange call.layerId).2)
    (touch g.cfg call.layerId (activeExperts g.cfg call.expertIds)
      { c.toSlotCache with step := c.step + 1 })
    ((call.fetchOrder g c).take numFetch.toNat) taken s)
include h

/-- A launch keeps what holds between launches. -/
theorem result_ok (hg : g.Ok) (hc : c.Ok g) (hfits : Fits g c call) :
    (call.result g c numFetch s).1.Ok g := by
  have husage : ∀ slot, (touch g.cfg call.layerId (activeExperts g.cfg call.expertIds)
      { c.toSlotCache with step := c.step + 1 }).usage slot =
        if ∃ e ∈ call.expertIds, c.slotForId (flatId g.cfg call.layerId e) = some slot then
          c.step + 1
        else c.usage slot := by
    intro slot
    rw [touch_usage]
    simp only [mem_activeExperts hfits.routed]
  have hclass := Nat.min_eq_left (hg.inCache _ hfits.layer)
  rw [← hclass] at h
  have hsound := sound_of_installed hc.sound hfits.routed (by exact ⟨rfl, rfl⟩) (by exact rfl) husage
    hc.sound.int32 (fun e he => (mem_fetchOrder.mp (List.mem_of_mem_take he)).1) h
  refine ⟨hsound, fun id => ?_⟩
  have hstep : s.step = c.step + 1 := h.step
  obtain ⟨hlow, hhigh⟩ := hc.recency id
  unfold HybridCall.result
  simp only
  by_cases hby : g.byRecency = true
  · simp only [hby, if_true]
    split <;> omega
  · simp only [hby, Bool.false_eq_true, if_false]
    omega

/-- **The misses beyond the fetch count are left out, and no others.** -/
theorem result_marked (hg : g.Ok) (hc : c.Ok g) (hfits : Fits g c call) :
    MissesMarked g c call (call.result g c numFetch s) := by
  have hok := (result_ok h hg hc hfits).sound
  refine List.forall₂_map_right_iff.mpr (List.forall₂_same.mpr fun e he => ?_)
  have hsplit := List.take_append_drop numFetch.toNat (call.fetchOrder g c)
  have hnodup : (call.fetchOrder g c).Nodup := fetchOrder_nodup
  rw [← hsplit, List.nodup_append] at hnodup
  cases hs : s.slotForId (flatId g.cfg call.layerId e) with
  | some slot =>
    have hclass := hok.inClass call.layerId hfits.layer e (hfits.routed e he) slot hs
    have hout : e ∉ (call.fetchOrder g c).drop numFetch.toNat := by
      intro hdrop
      rcases h.ids _ slot hs with hold | ⟨-, e', he', heq⟩
      · -- a hit is no miss
        have hmiss := (mem_fetchOrder.mp (List.mem_of_mem_drop hdrop)).2
        have hold' : c.slotForId (flatId g.cfg call.layerId e) = some slot := hold
        rw [hmiss] at hold'
        cases hold'
      · exact hnodup.2.2 e' he' e hdrop (flatId_inj.mp heq).symm
    unfold slotOrMiss
    simp only
    constructor
    · intro heq
      omega
    · exact fun hdrop => absurd hdrop hout
  | none =>
    refine ⟨fun _ => ?_, fun _ => rfl⟩
    have hmiss : e ∈ call.fetchOrder g c := by
      rw [mem_fetchOrder]
      refine ⟨he, ?_⟩
      cases hold : c.slotForId (flatId g.cfg call.layerId e) with
      | none => rfl
      | some slot =>
        have hkept := h.kept _ slot hold fun htaken => (h.taken_open slot htaken).2 e he
          ((hc.sound.inverse _ _).mp hold)
        rw [hs] at hkept
        cases hkept
    rw [← hsplit, List.mem_append] at hmiss
    rcases hmiss with hfetched | hdrop
    · obtain ⟨i, hi⟩ := List.mem_iff_getElem?.mp hfetched
      have hlt := (List.getElem?_eq_some_iff.mp hi).1
      have hslot := (h.listed i e _ hi (List.getElem?_eq_getElem (h.length ▸ hlt))).2.2
      rw [hs] at hslot
      cases hslot
    · exact hdrop

end Installed

/-- **What the two do in one launch.** -/
theorem hybrid_step (hg : g.Ok) (hc : c.Ok g) (hfits : Fits g c call) :
    call.cpu g c = some (call.kernel g c) ∧ (call.kernel g c).1.Ok g ∧
      MissesMarked g c call (call.kernel g c) := by
  obtain ⟨numFetch, s, taken, hkernel, hcpu, h⟩ := launches_equal hg hc hfits
  rw [hcpu, hkernel]
  exact ⟨rfl, result_ok h hg hc hfits, result_marked h hg hc hfits⟩

end Step

/-! ## Runs -/

/-- What the kernel leaves after each call. -/
def kernelRun (g : HybridSetup) : HybridCache → List HybridCall → List (HybridCache × List Int)
  | _, [] => []
  | c, call :: calls => call.kernel g c :: kernelRun g (call.kernel g c).1 calls

/-- What the reference leaves after each call. -/
def cpuRun (g : HybridSetup) : HybridCache → List HybridCall → Option (List (HybridCache × List Int))
  | _, [] => some []
  | c, call :: calls =>
    match call.cpu g c with
    | some r => (cpuRun g r.1 calls).map fun rest => r :: rest
    | none => none

/-- Every call of the kernel's run fits. -/
def FitsAll (g : HybridSetup) : HybridCache → List HybridCall → Prop
  | _, [] => True
  | c, call :: calls => Fits g c call ∧ FitsAll g (call.kernel g c).1 calls

/-- Every call of the kernel's run marks the misses beyond its fetch count. -/
def MarkedAll (g : HybridSetup) : HybridCache → List HybridCall → Prop
  | _, [] => True
  | c, call :: calls =>
    MissesMarked g c call (call.kernel g c) ∧ MarkedAll g (call.kernel g c).1 calls

/-- **All launches of a run are the reference's**, on every cache and for every sequence of calls
whose numbers fit the kernel's. -/
theorem hybrid_traces_equal (g : HybridSetup) (hg : g.Ok) (calls : List HybridCall) :
    ∀ c : HybridCache, c.Ok g → FitsAll g c calls →
      cpuRun g c calls = some (kernelRun g c calls) ∧ MarkedAll g c calls := by
  induction calls with
  | nil => exact fun _ _ _ => ⟨rfl, trivial⟩
  | cons call calls ih =>
    intro c hc hfits
    obtain ⟨hequal, hok, hmarked⟩ := hybrid_step hg hc hfits.1
    obtain ⟨hrest, hmarkedRest⟩ := ih _ hok hfits.2
    unfold cpuRun kernelRun
    rw [hequal]
    simp only [hrest, Option.map_some]
    exact ⟨trivial, hmarked, hmarkedRest⟩

/-- A cache when it is built. -/
def emptyHybrid : HybridCache where
  toSlotCache := emptyCache
  activeMask _ := false
  numFetched := 0
  numMissingFull := 0
  expertRecency _ := -1

theorem emptyHybrid_ok (g : HybridSetup) : emptyHybrid.Ok g := by
  refine ⟨⟨fun id s => by simp [emptyHybrid, emptyCache], fun layer _ e _ s hs => ?_,
    fun s => Nat.le_refl _, fun id => ?_⟩, fun id => ?_⟩
  · cases hs
  · change (0 : Int) ≤ maxFrequency
    decide
  · change (-1 : Int) ≤ -1 ∧ (-1 : Int) ≤ 0
    decide

/-- One layer of four experts, and three slots. -/
def threeSlots : HybridSetup where
  cfg :=
    { numExperts := 4, policyLfu := false, lfuRecencyCalls := 0, lfuRecencyBonus := 0
      lfuHalveMask := 63, collectStats := false }
  byRecency := true
  cacheSize := 3
  blockC := 4
  numLayers := 1
  classRange _ := (0, 3)

/-- The first call fetches one of two misses; at the second, half of three are one or two, and the
one left out before is among them. -/
theorem threeSlots_equal :
    cpuRun threeSlots emptyHybrid [⟨0, [3, 1, 3], 1, 0⟩, ⟨0, [3, 0, 2], 0, 32768⟩] =
      some (kernelRun threeSlots emptyHybrid [⟨0, [3, 1, 3], 1, 0⟩, ⟨0, [3, 0, 2], 0, 32768⟩]) :=
  (hybrid_traces_equal threeSlots ⟨by decide, by decide, by decide⟩
    [⟨0, [3, 1, 3], 1, 0⟩, ⟨0, [3, 0, 2], 0, 32768⟩] emptyHybrid (emptyHybrid_ok threeSlots)
    ⟨⟨by decide, by decide, by decide, by decide, by decide, by decide, by decide⟩,
      ⟨by decide, by decide, by decide, by decide, by decide, by decide, by decide⟩, trivial⟩).1

/-! ## The products overflow -/

/-- One layer with a slot for each expert. -/
def slotForEach (n : Nat) : HybridSetup where
  cfg :=
    { numExperts := n, policyLfu := false, lfuRecencyCalls := 0, lfuRecencyBonus := 0
      lfuHalveMask := 63, collectStats := false }
  byRecency := true
  cacheSize := n
  blockC := n
  numLayers := 1
  classRange _ := (0, n)

theorem slotForEach_missing (n : Nat) :
    (missingExperts (slotForEach n).cfg 0 (List.range n) emptyHybrid.toSlotCache).length = n := by
  have hall : missingExperts (slotForEach n).cfg 0 (List.range n) emptyHybrid.toSlotCache =
      List.range n := by
    unfold missingExperts activeExperts
    rw [List.filter_filter]
    refine List.filter_eq_self.mpr fun e he => ?_
    have hlt : e < n := List.mem_range.mp he
    simp [emptyHybrid, emptyCache, hlt]
  rw [hall, List.length_range]

theorem cpu_numFetched {g : HybridSetup} {c : HybridCache} {call : HybridCall}
    {r : HybridCache × List Int} (h : call.cpu g c = some r) :
    r.1.numFetched = min ((call.fetchOrder g c).length : Int)
      (fetchCap (fun x => x) (call.fetchOrder g c).length call.fracQ16 call.maxFetch) := by
  unfold HybridCall.cpu hybridCpu at h
  simp only [Option.map_eq_some_iff] at h
  obtain ⟨s, -, rfl⟩ := h
  rfl

/-- Every expert is routed, and all misses are to be fetched. -/
def fetchAll (n : Nat) : HybridCall where
  layerId := 0
  expertIds := List.range n
  maxFetch := 0
  fracQ16 := 65536

theorem fetchAll_kernel (n : Nat) :
    ((fetchAll n).kernel (slotForEach n) emptyHybrid).1.numFetched =
      min (n : Int) (fetchCap wrap32 n 65536 0) := by
  have hmissing := slotForEach_missing n
  unfold HybridCall.kernel hybridKernel
  simp only
  change min ((missingExperts (slotForEach n).cfg 0 (List.range n) emptyHybrid.toSlotCache).length :
    Int) (fetchCap wrap32 (missingExperts (slotForEach n).cfg 0 (List.range n)
      emptyHybrid.toSlotCache).length 65536 0) = _
  rw [hmissing]

theorem fetchAll_cpu (n : Nat) {r : HybridCache × List Int}
    (h : (fetchAll n).cpu (slotForEach n) emptyHybrid = some r) :
    r.1.numFetched = min (n : Int) (fetchCap (fun x => x) n 65536 0) := by
  have hlength : ((fetchAll n).fetchOrder (slotForEach n) emptyHybrid).length = n :=
    (orderMissing_perm.trans (seen_perm fun e he => List.mem_range.mp he)).length_eq.trans
      (slotForEach_missing n)
  rw [cpu_numFetched h, hlength]
  rfl

/-- A call where the caps differ. -/
theorem fetchAll_differs (n : Nat) (hint32 : n ≤ 2147483648)
    (hcap : min (n : Int) (fetchCap wrap32 n 65536 0) ≠ min (n : Int) (fetchCap (fun x => x) n 65536 0)) :
    (slotForEach n).Ok ∧ emptyHybrid.Ok (slotForEach n) ∧
      (∀ e ∈ (fetchAll n).expertIds, e < (slotForEach n).cfg.numExperts) ∧
      (activeExperts (slotForEach n).cfg (fetchAll n).expertIds).length ≤
        ((slotForEach n).classRange 0).2 - ((slotForEach n).classRange 0).1 ∧
      (fetchAll n).cpu (slotForEach n) emptyHybrid ≠
        some ((fetchAll n).kernel (slotForEach n) emptyHybrid) := by
  refine ⟨⟨fun _ _ => Nat.le_refl _, Nat.le_refl _, hint32⟩, emptyHybrid_ok _,
    fun e he => List.mem_range.mp he, ?_, fun heq => ?_⟩
  · have hlen := List.length_filter_le (fun e => decide (e ∈ (fetchAll n).expertIds))
      (List.range (slotForEach n).cfg.numExperts)
    rwa [List.length_range] at hlen
  · have hcpu := fetchAll_cpu n heq
    rw [fetchAll_kernel] at hcpu
    exact hcap hcpu

/-- **The kernel's cap of 32768 misses that are all to be fetched is -32768**, where the reference
fetches them all. -/
theorem hybrid_overflows :
    (slotForEach 32768).Ok ∧ emptyHybrid.Ok (slotForEach 32768) ∧
      (∀ e ∈ (fetchAll 32768).expertIds, e < (slotForEach 32768).cfg.numExperts) ∧
      (activeExperts (slotForEach 32768).cfg (fetchAll 32768).expertIds).length ≤
        ((slotForEach 32768).classRange 0).2 - ((slotForEach 32768).classRange 0).1 ∧
      (fetchAll 32768).cpu (slotForEach 32768) emptyHybrid ≠
        some ((fetchAll 32768).kernel (slotForEach 32768) emptyHybrid) :=
  fetchAll_differs 32768 (by omega) (by decide)

end FreeToken.Experts
