import FreeToken.Experts.AdmissionRuns

/-!
# The mirror's tie-break

With a mirror attached and the duplicate band off, a candidate without a pool row counts one more.
That is meant to break ties among the coldest; it also lifts the coldest candidates without a row,
and the empty slots, to where the next count begins, and there the older use decides. Main results:

* `pickVictim_least`: the victim is the first by lifted count, use and slot.
* `tieBreakOnly_iff`: when the lift is no more than a tie-break, for one victim.
* `tieBreak_iff`: the same, for each victim of a launch.
-/

namespace FreeToken.Experts

open FreeToken.Lib Function

/-! ## The victims of a launch -/

section Victims

variable (cfg : AdmissionConfig) (layerId : Nat) (expertIds : List Nat)

/-- The next `n` victims. -/
def victimsFrom (band : Int → Int) (hasCopy : Nat → Bool) (blockC : Nat) :
    Nat → Lanes → List Nat
  | 0, _ => []
  | n + 1, lanes =>
    let victim := pickVictim cfg band hasCopy blockC lanes
    victim :: victimsFrom band hasCopy blockC n (lanes.mask victim)

/-- The slot's owner has a pool row. -/
def ownerHasRow (poolRowOfId : Nat → Option Nat) (c : SlotCache) (s : Nat) : Bool :=
  (c.idOfSlot s).any fun owner => (poolRowOfId owner).isSome

/-- The victims of a launch, in order; `c` is what the loop starts from. -/
def launchVictims (band : Int → Int) (poolRowOfId : Nat → Option Nat)
    (blockC classBegin classEnd usable : Nat) (c : SlotCache) : List Nat :=
  victimsFrom cfg band (ownerHasRow poolRowOfId c) blockC
    (missingExperts cfg layerId expertIds c).length
    (initialLanes cfg layerId expertIds
      (fun s => decide (classBegin ≤ s ∧ s < classEnd ∧ s < usable)) (ownerHasRow poolRowOfId c) c)

end Victims

section Loop

variable {cfg : AdmissionConfig} {layerId : Nat} {expertIds : List Nat} {band : Int → Int}
  {hasCopy : Nat → Bool} {blockC : Nat}

/-- Each victim is picked with the lanes of the earlier ones masked. -/
theorem victimsFrom_get (n : Nat) : ∀ {lanes : Lanes} {i v : Nat},
    (victimsFrom cfg band hasCopy blockC n lanes)[i]? = some v →
      v = pickVictim cfg band hasCopy blockC
        (((victimsFrom cfg band hasCopy blockC n lanes).take i).foldl Lanes.mask lanes) := by
  induction n with
  | zero =>
    intro lanes i v hv
    simp [victimsFrom] at hv
  | succ n ih =>
    intro lanes i v hv
    cases i with
    | zero =>
      rw [victimsFrom, List.getElem?_cons_zero, Option.some.injEq] at hv
      exact hv.symm
    | succ i =>
      rw [victimsFrom, List.getElem?_cons_succ] at hv
      rw [victimsFrom, List.take_succ_cons, List.foldl_cons]
      exact ih hv

/-- The loop writes their slots, in order. -/
theorem admitMissing_evictSlots (cfg : AdmissionConfig) (layerId : Nat) (band : Int → Int)
    (hasCopy : Nat → Bool) (blockC classBegin : Nat) (publish : Bool) (oid : Nat → Option Nat)
    (missing : List Nat) : ∀ (k : Nat) (lanes : Lanes) (c : SlotCache),
      let c' := admitMissing cfg layerId band hasCopy blockC classBegin publish oid k missing lanes c
      (∀ j < k, c'.evictSlots j = c.evictSlots j) ∧
        ∀ i v : Nat, (victimsFrom cfg band hasCopy blockC missing.length lanes)[i]? = some v →
          c'.evictSlots (k + i) = (v : Int) - classBegin := by
  induction missing with
  | nil =>
    intro k lanes c
    exact ⟨fun j _ => rfl, by simp [victimsFrom]⟩
  | cons e missing ih =>
    intro k lanes c
    unfold admitMissing
    simp only
    generalize hv : pickVictim cfg band hasCopy blockC lanes = victim
    set c₁ := install cfg layerId classBegin k e victim (oid victim) (if publish = true then
      { c with
        victimIds := update c.victimIds k (oid victim)
        priorIds := update c.priorIds k (oid victim) }
      else c) with hc₁
    have hevict : c₁.evictSlots = update c.evictSlots k ((victim : Int) - classBegin) := by
      rw [hc₁]
      cases publish <;> rfl
    obtain ⟨hkept, hrest⟩ := ih (k + 1) (lanes.mask victim) c₁
    refine ⟨fun j hj => ?_, fun i v hi => ?_⟩
    · rw [hkept j (by omega), hevict, update_of_ne (by omega)]
    · rw [List.length_cons, victimsFrom] at hi
      simp only [hv] at hi
      cases i with
      | zero =>
        rw [List.getElem?_cons_zero, Option.some.injEq] at hi
        refine (hkept k (by omega)).trans ?_
        rw [hevict, update_self, hi]
      | succ i =>
        rw [List.getElem?_cons_succ] at hi
        have := hrest i v hi
        rwa [Nat.add_assoc, Nat.add_comm 1 i] at this

/-- Victims that are masked leave the other open slots open. -/
theorem Masked.maskAll (taken : List Nat) : ∀ {isOpen : Nat → Prop} {lanes : Lanes},
    Masked isOpen lanes →
      Masked (fun s => isOpen s ∧ s ∉ taken) (taken.foldl Lanes.mask lanes) := by
  induction taken with
  | nil =>
    intro isOpen lanes h
    exact ⟨fun s hs => h.below s hs.1,
      fun s hs => h.masked s fun hopen => hs ⟨hopen, List.not_mem_nil⟩⟩
  | cons v taken ih =>
    intro isOpen lanes h
    have hnext := ih (h.mask v)
    have hsame : ∀ s, (isOpen s ∧ s ∉ v :: taken) ↔ (isOpen s ∧ s ≠ v) ∧ s ∉ taken := by
      intro s
      rw [List.mem_cons, not_or, and_assoc]
    exact ⟨fun s hs => hnext.below s ((hsame s).mp hs),
      fun s hs => hnext.masked s fun hopen => hs ((hsame s).mpr hopen)⟩

/-- A lane that is not masked is as it was. -/
theorem maskAll_of_not_mem (taken : List Nat) : ∀ {lanes : Lanes} {s : Nat}, s ∉ taken →
    (taken.foldl Lanes.mask lanes).usage s = lanes.usage s ∧
      (taken.foldl Lanes.mask lanes).frequency s = lanes.frequency s := by
  induction taken with
  | nil => exact fun _ => ⟨rfl, rfl⟩
  | cons v taken ih =>
    intro lanes s hs
    rw [List.mem_cons, not_or] at hs
    obtain ⟨husage, hfreq⟩ := @ih (lanes.mask v) s hs.2
    exact ⟨husage.trans (update_of_ne hs.1 _ _), hfreq.trans (update_of_ne hs.1 _ _)⟩

end Loop

/-! ## One victim -/

section OneVictim

variable {cfg : AdmissionConfig} {blockC : Nat} {lanes : Lanes} {isOpen : Nat → Prop}

/-- **The victim is the first by frequency, use and slot.** -/
theorem pickVictim_least (band : Int → Int) (hasCopy : Nat → Bool) (hlfu : cfg.policyLfu = true)
    (hband : cfg.dupBand = false) (h : Masked isOpen lanes) (hbound : ∀ s, isOpen s → s < blockC) (hopen : ∃ s, isOpen s) :
    let v := pickVictim cfg band hasCopy blockC lanes
    isOpen v ∧ ∀ s, isOpen s → lanes.frequency v < lanes.frequency s ∨
      lanes.frequency v = lanes.frequency s ∧
        (lanes.usage v < lanes.usage s ∨ lanes.usage v = lanes.usage s ∧ v ≤ s) := by
  obtain ⟨o, ho⟩ := hopen
  have hpos : 0 < blockC := by
    have := hbound o ho
    omega
  have hv := pickVictim_open cfg band hasCopy h ⟨o, hbound o ho, ho⟩
  refine ⟨hv, fun s hs => ?_⟩
  have hpicked : ∀ t, picked cfg band hasCopy blockC lanes t = true ↔
      lanes.frequency t = minFrequency blockC lanes := by
    intro t
    unfold picked
    simp [hband]
  -- the lane that is picked has the least frequency
  set f := fun t => if picked cfg band hasCopy blockC lanes t = true then lanes.usage t else maxUsage
    with hf
  have hvalue : ∀ t, picked cfg band hasCopy blockC lanes t = true → f t = lanes.usage t := by
    intro t ht
    rw [hf]
    exact if_pos ht
  have hpick : pickVictim cfg band hasCopy blockC lanes = argmin f blockC := by
    unfold pickVictim
    rw [if_pos hlfu]
  rw [hpick] at hv ⊢
  obtain ⟨t, ht, htpicked, htopen⟩ := exists_picked cfg band hasCopy h ⟨o, hbound o ho, ho⟩
  have hleast : picked cfg band hasCopy blockC lanes (argmin f blockC) = true := by
    by_contra hnot
    have hmask : f (argmin f blockC) = maxUsage := by
      rw [hf]
      exact if_neg hnot
    have hle : f (argmin f blockC) ≤ f t := argmin_le ht
    rw [hmask, hvalue t htpicked] at hle
    have := (h.below t htopen).1
    omega
  have hmin : lanes.frequency (argmin f blockC) = minFrequency blockC lanes := (hpicked _).mp hleast
  have hfv := hvalue _ hleast
  have hle : minFrequency blockC lanes ≤ lanes.frequency s := argmin_le (hbound s hs)
  rcases lt_or_eq_of_le hle with hlt | heq
  · exact Or.inl (hmin ▸ hlt)
  · refine Or.inr ⟨hmin.trans heq, ?_⟩
    have hs' : picked cfg band hasCopy blockC lanes s = true := (hpicked s).mpr heq.symm
    have hfs := hvalue s hs'
    have huse : f (argmin f blockC) ≤ f s := argmin_le (hbound s hs)
    rw [hfv, hfs] at huse
    rcases Nat.lt_or_ge (lanes.usage (argmin f blockC)) (lanes.usage s) with hlt | hge
    · exact Or.inl hlt
    · refine Or.inr ⟨Nat.le_antisymm huse hge, ?_⟩
      by_contra hnot
      have hlt : f (argmin f blockC) < f s := lt_of_lt_argmin hpos (Nat.not_le.mp hnot)
      rw [hfv, hfs] at hlt
      omega

end OneVictim

/-! ## No more than a tie-break -/

/-- What the tie-break promises of a victim: an empty slot before any resident, then the coldest
resident, and among the coldest one with a pool row. -/
structure TieBreakOnly (cfg : AdmissionConfig) (hasCopy : Nat → Bool) (c : SlotCache)
    (candidate : Nat → Prop) (v : Nat) : Prop where
  mem : candidate v
  emptyFirst : (∃ s, candidate s ∧ c.idOfSlot s = none) → c.idOfSlot v = none
  coldest : c.idOfSlot v ≠ none → ∀ s, candidate s →
    lfuFrequency cfg c.usage c v ≤ lfuFrequency cfg c.usage c s
  copyPreferred : c.idOfSlot v ≠ none →
    (∃ s, candidate s ∧ lfuFrequency cfg c.usage c s = lfuFrequency cfg c.usage c v ∧
      hasCopy s = true) → hasCopy v = true

/-- `s` was used before `t`, or with it and in a lower slot. -/
def UsedBefore (c : SlotCache) (s t : Nat) : Prop :=
  c.usage s < c.usage t ∨ c.usage s = c.usage t ∧ s < t

/-- Where the lift decides nothing but ties. -/
structure LiftHarmless (cfg : AdmissionConfig) (hasCopy : Nat → Bool) (c : SlotCache)
    (candidate : Nat → Prop) : Prop where
  /-- Beside an empty slot, no resident is colder than every empty one with the lift, or as cold and
  used before. -/
  empties : (∃ e, candidate e ∧ c.idOfSlot e = none) →
    ∀ s, candidate s → c.idOfSlot s ≠ none → ∃ e, candidate e ∧ c.idOfSlot e = none ∧
      (lfuFrequency cfg c.usage c e + 1 <
          lfuFrequency cfg c.usage c s + (if hasCopy s then 0 else 1) ∨
        lfuFrequency cfg c.usage c e + 1 =
          lfuFrequency cfg c.usage c s + (if hasCopy s then 0 else 1) ∧ UsedBefore c e s)
  /-- Without one, a resident with a row and one count above the coldest is used after one of these,
  or one of these has a row. -/
  residents : (∀ e, candidate e → c.idOfSlot e ≠ none) → ∀ s, candidate s → hasCopy s = true →
    (∀ b, candidate b → lfuFrequency cfg c.usage c s ≤ lfuFrequency cfg c.usage c b + 1) →
    (∃ b, candidate b ∧ lfuFrequency cfg c.usage c b + 1 = lfuFrequency cfg c.usage c s) →
      ∃ b, candidate b ∧ lfuFrequency cfg c.usage c b + 1 = lfuFrequency cfg c.usage c s ∧
        (hasCopy b = true ∨ UsedBefore c b s)

section TieBreak

variable {cfg : AdmissionConfig} {hasCopy : Nat → Bool} {c : SlotCache} {candidate : Nat → Prop}
  {v : Nat}

/-- A choice by lifted count, use and slot is a tie-break exactly where the lift is harmless. -/
theorem tieBreakOnly_iff (hempty : ∀ s, c.idOfSlot s = none → hasCopy s = false)
    (hv : candidate v)
    (hleast : ∀ s, candidate s →
      lfuFrequency cfg c.usage c v + (if hasCopy v then 0 else 1) <
          lfuFrequency cfg c.usage c s + (if hasCopy s then 0 else 1) ∨
        lfuFrequency cfg c.usage c v + (if hasCopy v then 0 else 1) =
          lfuFrequency cfg c.usage c s + (if hasCopy s then 0 else 1) ∧
            (c.usage v < c.usage s ∨ c.usage v = c.usage s ∧ v ≤ s)) :
    TieBreakOnly cfg hasCopy c candidate v ↔ LiftHarmless cfg hasCopy c candidate := by
  constructor
  · intro h
    refine ⟨fun hex s hs hres => ?_, fun hnone s hs hcopy hmin hone => ?_⟩
    · -- the victim is an empty slot that comes first
      have hvnone := h.emptyFirst hex
      have hne : v ≠ s := fun heq => hres (heq ▸ hvnone)
      have hl := hleast s hs
      rw [hempty v hvnone] at hl
      refine ⟨v, hv, hvnone, ?_⟩
      unfold UsedBefore
      simp only [Bool.false_eq_true, if_false] at hl
      omega
    · -- the victim is one of the coldest
      obtain ⟨b, hb, hbone⟩ := hone
      have hvres := hnone v hv
      have hcold := h.coldest hvres b hb
      have hvmin := hmin v hv
      have hl := hleast s hs
      refine ⟨v, hv, by omega, ?_⟩
      by_cases hvcopy : hasCopy v = true
      · exact Or.inl hvcopy
      · right
        unfold UsedBefore
        have hne : v ≠ s := fun heq => hvcopy (heq ▸ hcopy)
        simp only [hvcopy, hcopy, Bool.false_eq_true, if_false, if_true] at hl
        omega
  · intro h
    have hfirst : (∃ s, candidate s ∧ c.idOfSlot s = none) → c.idOfSlot v = none := by
      intro hex
      by_contra hres
      obtain ⟨e, he, henone, hbefore⟩ := h.empties hex v hv hres
      have hl := hleast e he
      rw [hempty e henone] at hl
      unfold UsedBefore at hbefore
      simp only [Bool.false_eq_true, if_false] at hl
      omega
    refine ⟨hv, hfirst, fun hres s hs => ?_, fun hres ⟨s, hs, hsame, hcopy⟩ => ?_⟩
    · by_contra hlt
      have hnone : ∀ e, candidate e → c.idOfSlot e ≠ none :=
        fun e he henone => hres (hfirst ⟨e, he, henone⟩)
      -- then the victim has a row, and its count is one above the coldest
      have hvcopy : hasCopy v = true := by
        by_contra hnot
        have hl := hleast s hs
        simp only [hnot, Bool.false_eq_true, if_false] at hl
        split at hl <;> omega
      have hmin : ∀ b, candidate b →
          lfuFrequency cfg c.usage c v ≤ lfuFrequency cfg c.usage c b + 1 := by
        intro b hb
        have hl := hleast b hb
        simp only [hvcopy, if_true] at hl
        split at hl <;> omega
      have hsone := hmin s hs
      obtain ⟨b, hb, hbone, hbetter⟩ := h.residents hnone v hv hvcopy hmin ⟨s, hs, by omega⟩
      have hl := hleast b hb
      unfold UsedBefore at hbetter
      rcases hbetter with hbcopy | hbefore
      · simp only [hvcopy, hbcopy, if_true] at hl
        omega
      · simp only [hvcopy, if_true] at hl
        split at hl <;> omega
    · by_contra hnot
      have hl := hleast s hs
      simp only [hnot, hcopy, Bool.false_eq_true, if_false, if_true] at hl
      omega

end TieBreak

/-! ## Every victim of a launch -/

section Launch

variable {cfg : AdmissionConfig} {layerId : Nat} {expertIds : List Nat} {c : SlotCache}

theorem wrap32_of_range {x : Int} (hlow : -2147483648 ≤ x) (hhigh : x ≤ maxFrequency) :
    wrap32 x = x := by
  unfold wrap32
  unfold maxFrequency at hhigh
  omega

/-- The slots that may be picked after `taken`. -/
def Candidate (cfg : AdmissionConfig) (layerId : Nat) (expertIds : List Nat) (c : SlotCache)
    (classBegin stop : Nat) (taken : List Nat) (s : Nat) : Prop :=
  OpenSlot cfg layerId expertIds c.idOfSlot classBegin stop s ∧ s ∉ taken

/-- A victim of a launch, with the lanes of the earlier ones masked. -/
theorem sizedV2_victim_iff (hlfu : cfg.policyLfu = true) (hmirror : cfg.hasMirror = true)
    (hband : cfg.dupBand = false) (band : Int → Int) (poolRowOfId : Nat → Option Nat)
    {blockC classBegin classEnd usable : Nat} (hblock : usable ≤ blockC) {c₁ : SlotCache}
    (hstart : c₁ = beforeVictims cfg layerId expertIds c) (hused : ∀ s, c₁.usage s < maxUsage)
    (hint32 : ∀ id, c₁.expertFrequency id ≤ maxFrequency)
    (hkeys : ∀ s, -2147483648 ≤ lfuFrequency cfg c₁.usage c₁ s ∧
      lfuFrequency cfg c₁.usage c₁ s < maxFrequency)
    {i v : Nat} (hv : (launchVictims cfg layerId expertIds band poolRowOfId blockC classBegin classEnd
      usable c₁)[i]? = some v)
    (hcandidate : ∃ s, Candidate cfg layerId expertIds c₁ classBegin (min classEnd usable)
      ((launchVictims cfg layerId expertIds band poolRowOfId blockC classBegin classEnd usable
        c₁).take i) s) :
    let candidate := Candidate cfg layerId expertIds c₁ classBegin (min classEnd usable)
      ((launchVictims cfg layerId expertIds band poolRowOfId blockC classBegin classEnd usable
        c₁).take i)
    (ensureExpertsSizedKernelV2 cfg layerId expertIds band poolRowOfId blockC classBegin classEnd
        usable c).1.evictSlots i = (v : Int) - classBegin ∧
      (TieBreakOnly cfg (ownerHasRow poolRowOfId c₁) c₁ candidate v ↔
        LiftHarmless cfg (ownerHasRow poolRowOfId c₁) c₁ candidate) := by
  intro candidate
  constructor
  · have hevict := (admitMissing_evictSlots cfg layerId band (ownerHasRow poolRowOfId c₁) blockC
      classBegin true c₁.idOfSlot (missingExperts cfg layerId expertIds c₁) 0 _ c₁).2 i v hv
    rw [Nat.zero_add] at hevict
    unfold ensureExpertsSizedKernelV2 admissionKernel
    simp only
    rw [← hstart]
    exact hevict
  · -- the lanes of the candidates are as the loop found them
    set taken := (launchVictims cfg layerId expertIds band poolRowOfId blockC classBegin classEnd
      usable c₁).take i with htaken
    have hmasked := (initialLanes_masked cfg layerId expertIds (ownerHasRow poolRowOfId c₁) classBegin
      classEnd usable hused hint32).maskAll taken
    have hpick := victimsFrom_get _ hv
    rw [← launchVictims, ← htaken] at hpick
    obtain ⟨hopen, hleast⟩ := pickVictim_least band (ownerHasRow poolRowOfId c₁) hlfu hband
      hmasked (fun s hs => Nat.lt_of_lt_of_le hs.1.1.2 (by omega : min classEnd usable ≤ blockC))
      hcandidate
    rw [← hpick] at hopen hleast
    have hlane : ∀ s, candidate s → (taken.foldl Lanes.mask (initialLanes cfg layerId expertIds
        (fun s => decide (classBegin ≤ s ∧ s < classEnd ∧ s < usable)) (ownerHasRow poolRowOfId c₁)
          c₁)).usage s = c₁.usage s ∧
        (taken.foldl Lanes.mask (initialLanes cfg layerId expertIds
          (fun s => decide (classBegin ≤ s ∧ s < classEnd ∧ s < usable)) (ownerHasRow poolRowOfId c₁)
            c₁)).frequency s = lfuFrequency cfg c₁.usage c₁ s +
              if ownerHasRow poolRowOfId c₁ s then 0 else 1 := by
      intro s hs
      obtain ⟨husage, hfreq⟩ := initialLanes_open (ownerHasRow poolRowOfId c₁) hs.1
      obtain ⟨husage', hfreq'⟩ := maskAll_of_not_mem taken hs.2
      refine ⟨husage'.trans husage, (hfreq'.trans hfreq).trans ?_⟩
      obtain ⟨hlow, hhigh⟩ := hkeys s
      unfold ownerFrequency
      simp only [hmirror, hband, Bool.false_eq_true, not_false_iff, and_self, if_true]
      refine wrap32_of_range ?_ ?_
      · split <;> omega
      · split <;> omega
    refine tieBreakOnly_iff (fun s hs => by simp [ownerHasRow, hs]) hopen fun s hs => ?_
    have hfirst := hleast s hs
    rwa [(hlane v hopen).1, (hlane v hopen).2, (hlane s hs).1, (hlane s hs).2] at hfirst

theorem victimsFrom_length (cfg : AdmissionConfig) (band : Int → Int) (hasCopy : Nat → Bool)
    (blockC n : Nat) : ∀ lanes, (victimsFrom cfg band hasCopy blockC n lanes).length = n := by
  induction n with
  | zero => exact fun _ => rfl
  | succ n ih =>
    intro lanes
    rw [victimsFrom, List.length_cons, ih]

end Launch

/-- One layer of three experts on two slots, with a mirror. -/
def mirrored : Setup where
  cfg :=
    { numExperts := 3, policyLfu := true, lfuRecencyCalls := 0, lfuRecencyBonus := 1
      lfuHalveMask := 63, collectStats := false, hasMirror := true }
  numLayers := 1
  classRange _ := (0, 2)
  blockC := 2
  band _ := 1

/-- Only the first expert has a pool row. -/
def firstHasRow (id : Nat) : Option Nat := if id = 0 then some 0 else none

/-- The first expert was routed twice, and then the second one once. -/
def hotThenCold : Option Arena :=
  run mirrored.step { cache := emptyCache, usable := 2 }
    [.launch (.sizedV2 firstHasRow) 0 [0, 0], .launch (.sizedV2 firstHasRow) 0 [1]]

end FreeToken.Experts
