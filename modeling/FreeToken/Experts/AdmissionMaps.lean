import FreeToken.Experts.Admission
import FreeToken.Lib.Reach
import Mathlib.Data.List.Nodup
import Mathlib.Data.List.Perm.Subperm

/-!
# Admission keeps the maps inverse

However the victims are picked: as long as each is a usable slot of the class, has no owner that is
routed, and is picked once. Main results:

* `Installed.install`: one expert takes its slot.
* `exists_open`: as long as an expert is missing, there is a slot to take.
* `pickVictim_open`: the kernel takes one, whatever the policy and the counts.
* `admissionKernel_served`, `ensureExpertsSizedCpu_served`: what a launch leaves.
-/

namespace FreeToken.Experts

open FreeToken.Lib Function

variable {cfg : AdmissionConfig} {layerId : Nat} {expertIds : List Nat}

theorem flatId_inj {e e' : Nat} : flatId cfg layerId e = flatId cfg layerId e' ↔ e = e' := by
  unfold flatId
  omega

/-! ## One slot after the other -/

/-- After the experts `done` took the slots `taken`, of those that are open. -/
structure Installed (cfg : AdmissionConfig) (layerId classBegin : Nat) (isOpen : Nat → Prop)
    (c₀ : SlotCache) (done taken : List Nat) (c : SlotCache) : Prop where
  inverse : Paired c.slotForId c.idOfSlot
  length : taken.length = done.length
  nodup : taken.Nodup
  taken_open : ∀ s ∈ taken, isOpen s
  listed : ∀ i e s : Nat, done[i]? = some e → taken[i]? = some s → c.srcIndices i = e ∧
    c.evictSlots i = (s : Int) - classBegin ∧ c.slotForId (flatId cfg layerId e) = some s
  slots : ∀ s, s ∉ taken → c.idOfSlot s = c₀.idOfSlot s ∧ c.usage s = c₀.usage s
  used : ∀ s ∈ taken, c.usage s = c₀.step
  kept : ∀ id s, c₀.slotForId id = some s → s ∉ taken → c.slotForId id = some s
  ids : ∀ id s, c.slotForId id = some s →
    c₀.slotForId id = some s ∨ s ∈ taken ∧ ∃ e ∈ done, id = flatId cfg layerId e
  step : c.step = c₀.step
  rest : c.expertFrequency = c₀.expertFrequency ∧ c.numIndices = c₀.numIndices

section Install

variable {classBegin : Nat} {isOpen : Nat → Prop} {c₀ c : SlotCache} {done taken : List Nat}

theorem Installed.refl (h : Paired c₀.slotForId c₀.idOfSlot) :
    Installed cfg layerId classBegin isOpen c₀ [] [] c₀ := by
  refine ⟨h, rfl, List.nodup_nil, ?_, ?_, ?_, ?_, ?_, ?_, rfl, rfl, rfl⟩
  · simp
  · simp
  · exact fun s _ => ⟨rfl, rfl⟩
  · simp
  · exact fun id s hs _ => hs
  · exact fun id s hs => Or.inl hs

/-- An expert that is not installed is on no slot. -/
theorem Installed.absent (h : Installed cfg layerId classBegin isOpen c₀ done taken c) {e : Nat}
    (he : e ∉ done) (hnone : c₀.slotForId (flatId cfg layerId e) = none) :
    c.slotForId (flatId cfg layerId e) = none := by
  cases hs : c.slotForId (flatId cfg layerId e) with
  | none => rfl
  | some s =>
    rcases h.ids _ s hs with h₀ | ⟨-, e', he', heq⟩
    · rw [hnone] at h₀
      cases h₀
    · exact absurd (flatId_inj.mp heq ▸ he') he

/-- The map without the victim's owner, and the slot without it. -/
theorem unlinked (hinv : Paired c.slotForId c.idOfSlot) (victim : Nat) :
    Paired (match c.idOfSlot victim with
      | some old => update c.slotForId old none
      | none => c.slotForId) (update c.idOfSlot victim none) := by
  cases hold : c.idOfSlot victim with
  | some old => exact hinv.unlink ((hinv old victim).mpr hold)
  | none =>
    have hsame : update c.idOfSlot victim none = c.idOfSlot := by
      rw [← hold]
      exact update_eq_self _ _
    rw [hsame]
    exact hinv

theorem install_inverse (hinv : Paired c.slotForId c.idOfSlot) {i e victim : Nat}
    (hnone : c.slotForId (flatId cfg layerId e) = none) :
    Paired (install cfg layerId classBegin i e victim (c.idOfSlot victim) c).slotForId
      (install cfg layerId classBegin i e victim (c.idOfSlot victim) c).idOfSlot := by
  have hbase := unlinked hinv victim
  have hfree : (match c.idOfSlot victim with
      | some old => update c.slotForId old none
      | none => c.slotForId) (flatId cfg layerId e) = none := by
    cases hold : c.idOfSlot victim with
    | none => exact hnone
    | some old =>
      by_cases heq : flatId cfg layerId e = old
      · simp only [heq, update_self]
      · simp only [update_of_ne heq, hnone]
  have hlink := hbase.link hfree (update_self victim none c.idOfSlot)
  rw [update_idem] at hlink
  exact hlink

/-- An expert that is neither installed nor thrown out stays where it is. -/
theorem install_other (hinv : Paired c.slotForId c.idOfSlot) {i e victim id : Nat}
    (hid : id ≠ flatId cfg layerId e) :
    (install cfg layerId classBegin i e victim (c.idOfSlot victim) c).slotForId id =
      if c.slotForId id = some victim then none else c.slotForId id := by
  unfold install
  simp only [update_of_ne hid]
  cases hold : c.idOfSlot victim with
  | none =>
    rw [if_neg]
    intro hs
    rw [hinv, hold] at hs
    cases hs
  | some old =>
    by_cases heq : id = old
    · subst heq
      rw [if_pos ((hinv id victim).mpr hold)]
      simp only [update_self]
    · simp only [update_of_ne heq]
      rw [if_neg]
      intro hs
      rw [hinv, hold] at hs
      exact heq (Option.some.inj hs).symm

/-- **One expert takes its slot.** -/
theorem Installed.install (h : Installed cfg layerId classBegin isOpen c₀ done taken c)
    {e victim : Nat} (he : e ∉ done) (hnone : c₀.slotForId (flatId cfg layerId e) = none)
    (hopen : isOpen victim) (hnew : victim ∉ taken) :
    Installed cfg layerId classBegin isOpen c₀ (done ++ [e]) (taken ++ [victim])
      (install cfg layerId classBegin done.length e victim (c.idOfSlot victim) c) := by
  have habsent := h.absent he hnone
  have hself : (Experts.install cfg layerId classBegin done.length e victim (c.idOfSlot victim)
      c).slotForId (flatId cfg layerId e) = some victim := update_self _ _ _
  refine ⟨install_inverse h.inverse habsent, by simp [h.length], ?_, fun s hs => ?_,
    fun i e' s hi hs => ?_, fun s hs => ?_, fun s hs => ?_, fun id s hs hnot => ?_,
    fun id s hs => ?_, h.step, h.rest⟩
  · exact List.nodup_append.mpr ⟨h.nodup, List.nodup_singleton _, by
      intro a ha b hb
      rw [List.mem_singleton] at hb
      exact fun heq => hnew (hb ▸ heq ▸ ha)⟩
  · rcases List.mem_append.mp hs with hs | hs
    · exact h.taken_open s hs
    · exact List.mem_singleton.mp hs ▸ hopen
  · rcases Nat.lt_trichotomy i done.length with hlt | rfl | hgt
    · rw [List.getElem?_append_left hlt] at hi
      rw [List.getElem?_append_left (h.length ▸ hlt)] at hs
      obtain ⟨hsrc, hevict, hslot⟩ := h.listed i e' s hi hs
      have hne : e' ≠ e := fun heq => he (heq ▸ List.mem_of_getElem? hi)
      have hsne : s ≠ victim := fun heq => hnew (heq ▸ List.mem_of_getElem? hs)
      refine ⟨(update_of_ne (Nat.ne_of_lt hlt) _ _).trans hsrc,
        (update_of_ne (Nat.ne_of_lt hlt) _ _).trans hevict, ?_⟩
      rw [install_other h.inverse (fun heq => hne (flatId_inj.mp heq)), hslot, if_neg]
      simpa using hsne
    · rw [List.getElem?_append_right (Nat.le_refl _)] at hi
      rw [List.getElem?_append_right (Nat.le_of_eq h.length), h.length] at hs
      simp only [Nat.sub_self, List.getElem?_cons_zero, Option.some.injEq] at hi hs
      subst hi hs
      exact ⟨update_self _ _ _, update_self _ _ _, hself⟩
    · rw [List.getElem?_eq_none (by simp; omega)] at hi
      cases hi
  · rw [List.mem_append, List.mem_singleton, not_or] at hs
    obtain ⟨hid, huse⟩ := h.slots s hs.1
    exact ⟨(update_of_ne hs.2 _ _).trans hid, (update_of_ne hs.2 _ _).trans huse⟩
  · by_cases heq : s = victim
    · rw [heq]
      exact (update_self _ _ _).trans h.step
    · refine (update_of_ne heq _ _).trans (h.used s ?_)
      simpa [heq] using hs
  · rw [List.mem_append, List.mem_singleton, not_or] at hnot
    have hne : id ≠ flatId cfg layerId e := by
      rintro rfl
      rw [hnone] at hs
      cases hs
    rw [install_other h.inverse hne, h.kept id s hs hnot.1, if_neg]
    simpa using hnot.2
  · by_cases hne : id = flatId cfg layerId e
    · subst hne
      obtain rfl : victim = s := by simpa [hself] using hs
      exact Or.inr ⟨by simp, e, by simp, rfl⟩
    · rw [install_other h.inverse hne] at hs
      split at hs
      · cases hs
      · rcases h.ids id s hs with h₀ | ⟨htaken, e', he', heq⟩
        · exact Or.inl h₀
        · exact Or.inr ⟨List.mem_append_left _ htaken, e', List.mem_append_left _ he', heq⟩

/-- A slot that was taken belongs to one of the installed experts. -/
theorem Installed.owner (h : Installed cfg layerId classBegin isOpen c₀ done taken c) {s : Nat}
    (hs : s ∈ taken) : ∃ e ∈ done, c.idOfSlot s = some (flatId cfg layerId e) := by
  obtain ⟨i, hi, rfl⟩ := List.mem_iff_getElem.mp hs
  have hlt : i < done.length := h.length ▸ hi
  obtain ⟨-, -, hslot⟩ := h.listed i done[i] taken[i] (List.getElem?_eq_getElem hlt)
    (List.getElem?_eq_getElem hi)
  exact ⟨done[i], List.getElem_mem hlt, (h.inverse _ _).mp hslot⟩

/-- The published owners are no part of it. -/
theorem Installed.publish (h : Installed cfg layerId classBegin isOpen c₀ done taken c)
    (victimIds priorIds : Nat → Option Nat) :
    Installed cfg layerId classBegin isOpen c₀ done taken
      { c with victimIds := victimIds, priorIds := priorIds } :=
  ⟨h.inverse, h.length, h.nodup, h.taken_open, h.listed, h.slots, h.used, h.kept, h.ids, h.step,
    h.rest⟩

end Install

/-! ## There is a slot to take -/

/-- The slot may be picked: it is one of the class, and its owner is not routed. -/
def OpenSlot (cfg : AdmissionConfig) (layerId : Nat) (expertIds : List Nat)
    (oid : Nat → Option Nat) (classBegin stop s : Nat) : Prop :=
  (classBegin ≤ s ∧ s < stop) ∧ ∀ e ∈ expertIds, oid s ≠ some (flatId cfg layerId e)

section Room

variable {c : SlotCache} {classBegin stop : Nat} {active missing taken : List Nat}

/-- **As long as an expert is missing, there is a slot to take.** -/
theorem exists_open (hinv : Paired c.slotForId c.idOfSlot) (hactive : active.Nodup)
    (hmem : ∀ e, e ∈ active ↔ e ∈ expertIds) (hroom : active.length ≤ stop - classBegin)
    (hmissing : missing.Nodup)
    (hmiss : ∀ e, e ∈ missing ↔ e ∈ expertIds ∧ c.slotForId (flatId cfg layerId e) = none)
    (htaken : taken.length < missing.length) :
    ∃ s, OpenSlot cfg layerId expertIds c.idOfSlot classBegin stop s ∧ s ∉ taken := by
  by_contra hnone
  push Not at hnone
  -- the owners of the class's slots are hits, each on one slot
  set hits := active.filter fun e => e ∉ missing with hhits
  have hcount : active.length = missing.length + hits.length := by
    have hperm : (active.filter fun e => e ∈ missing).Perm missing := by
      refine (List.perm_ext_iff_of_nodup (hactive.filter _) hmissing).mpr fun e => ?_
      simp only [List.mem_filter, decide_eq_true_eq, hmem, hmiss]
      exact ⟨fun h => h.2, fun h => ⟨h.1, h⟩⟩
    have hsplit := List.length_eq_length_filter_add (l := active) fun e => decide (e ∈ missing)
    rw [hperm.length_eq] at hsplit
    simpa [hhits] using hsplit
  have hsub : List.range' classBegin (stop - classBegin) ⊆
      taken ++ hits.filterMap fun e => c.slotForId (flatId cfg layerId e) := by
    intro s hs
    have hrange : classBegin ≤ s ∧ s < stop := by
      have := List.mem_range'_1.mp hs
      omega
    rw [List.mem_append]
    by_cases hopen : OpenSlot cfg layerId expertIds c.idOfSlot classBegin stop s
    · exact Or.inl (hnone s hopen)
    · right
      unfold OpenSlot at hopen
      push Not at hopen
      obtain ⟨e, he, howner⟩ := hopen hrange
      have hslot := (hinv _ s).mpr howner
      refine List.mem_filterMap.mpr ⟨e, List.mem_filter.mpr ⟨(hmem e).mpr he, ?_⟩, hslot⟩
      rw [decide_eq_true_eq, hmiss, hslot]
      simp
  have hle := (List.subperm_of_subset (List.nodup_range' 1) hsub).length_le
  have hfm := List.length_filterMap_le (fun e => c.slotForId (flatId cfg layerId e)) hits
  rw [List.length_append, List.length_range'] at hle
  omega

end Room

/-! ## The kernel's choice -/

theorem wrap32_le (x : Int) : wrap32 x ≤ maxFrequency := by
  unfold wrap32 maxFrequency
  omega

/-- The lanes of open slots are below the masks, and the others are masked. -/
structure Masked (isOpen : Nat → Prop) (lanes : Lanes) : Prop where
  below : ∀ s, isOpen s → lanes.usage s < maxUsage ∧ lanes.frequency s ≤ maxFrequency
  masked : ∀ s, ¬isOpen s → lanes.usage s = maxUsage ∧ lanes.frequency s = maxFrequency

section Pick

variable {isOpen : Nat → Prop} {lanes : Lanes} {blockC : Nat} {band : Int → Int}
  {hasCopy : Nat → Bool}

theorem Masked.open_of_usage (h : Masked isOpen lanes) {s : Nat} (hs : lanes.usage s < maxUsage) :
    isOpen s := by
  by_contra hnot
  rw [(h.masked s hnot).1] at hs
  exact Nat.lt_irrefl _ hs

theorem Masked.open_of_frequency (h : Masked isOpen lanes) {s : Nat}
    (hs : lanes.frequency s < maxFrequency) : isOpen s := by
  by_contra hnot
  rw [(h.masked s hnot).2] at hs
  exact absurd hs (lt_irrefl _)

/-- Some open slot is among those that may be picked, even where a count is as large as the mask. -/
theorem exists_picked (cfg : AdmissionConfig) (band : Int → Int) (hasCopy : Nat → Bool)
    (h : Masked isOpen lanes) (hopen : ∃ s < blockC, isOpen s) :
    ∃ s < blockC, picked cfg band hasCopy blockC lanes s = true ∧ isOpen s := by
  obtain ⟨o, ho, hopen⟩ := hopen
  have hpos : 0 < blockC := by omega
  have hplain : ∃ s < blockC, lanes.frequency s = minFrequency blockC lanes ∧ isOpen s := by
    unfold minFrequency
    by_cases hleast : isOpen (argmin lanes.frequency blockC)
    · exact ⟨_, argmin_lt hpos, rfl, hleast⟩
    · refine ⟨o, ho, ?_, hopen⟩
      have hle : lanes.frequency (argmin lanes.frequency blockC) ≤ lanes.frequency o := argmin_le ho
      rw [(h.masked _ hleast).2] at hle ⊢
      exact le_antisymm (h.below o hopen).2 hle
  obtain ⟨s, hs, heq, hopen⟩ := hplain
  unfold picked
  by_cases hband : cfg.dupBand
  · simp only [hband, if_true]
    set f := dupFrequency band hasCopy blockC lanes with hf
    by_cases hdup : f (argmin f blockC) < maxFrequency
    · -- the coldest duplicate of the band
      simp only [hdup, if_true]
      have hin : inBand band hasCopy blockC lanes (argmin f blockC) = true := by
        by_contra hnot
        rw [hf, dupFrequency, if_neg hnot] at hdup
        exact absurd hdup (lt_irrefl _)
      have hval : f (argmin f blockC) = lanes.frequency (argmin f blockC) := by
        rw [hf, dupFrequency, if_pos hin]
      refine ⟨argmin f blockC, argmin_lt hpos, by simp [hin, hval], ?_⟩
      exact h.open_of_frequency (hval ▸ hdup)
    · simp only [hdup, if_false]
      exact ⟨s, hs, by simpa using heq, hopen⟩
  · simp only [hband, Bool.false_eq_true, if_false]
    exact ⟨s, hs, by simpa using heq, hopen⟩

/-- **The kernel picks an open slot**, whatever the policy, the counts and the copies. -/
theorem pickVictim_open (cfg : AdmissionConfig) (band : Int → Int) (hasCopy : Nat → Bool)
    (h : Masked isOpen lanes) (hopen : ∃ s < blockC, isOpen s) :
    isOpen (pickVictim cfg band hasCopy blockC lanes) := by
  unfold pickVictim
  split
  · obtain ⟨s, hs, hpicked, hopen⟩ := exists_picked cfg band hasCopy h hopen
    have hle := argmin_le (f := fun s =>
      if picked cfg band hasCopy blockC lanes s = true then lanes.usage s else maxUsage) hs
    simp only [hpicked, if_true] at hle
    have hlt := Nat.lt_of_le_of_lt hle (h.below s hopen).1
    refine h.open_of_usage ?_
    split at hlt
    · exact hlt
    · exact absurd hlt (Nat.lt_irrefl _)
  · obtain ⟨s, hs, hopen⟩ := hopen
    exact h.open_of_usage (Nat.lt_of_le_of_lt (argmin_le hs) (h.below s hopen).1)

/-- A slot that was picked is masked from then on. -/
theorem Masked.mask (h : Masked isOpen lanes) (victim : Nat) :
    Masked (fun s => isOpen s ∧ s ≠ victim) (lanes.mask victim) := by
  unfold Lanes.mask
  constructor
  · intro s hs
    simp only [update_of_ne hs.2]
    exact h.below s hs.1
  · intro s hs
    by_cases heq : s = victim
    · subst heq
      simp only [update_self, and_self]
    · simp only [update_of_ne heq]
      exact h.masked s fun hopen => hs ⟨hopen, heq⟩

end Pick

/-! ## The loops -/

section Loops

variable {isOpen : Nat → Prop} {classBegin : Nat} {c₀ : SlotCache} {all : List Nat}

/-- There is an open slot for each of the missing experts. -/
def Roomy (isOpen : Nat → Prop) (n : Nat) : Prop :=
  ∀ taken : List Nat, taken.length < n → ∃ s, isOpen s ∧ s ∉ taken

/-- **The kernel's loop installs every missing expert.** -/
theorem admitMissing_installed (band : Int → Int) (hasCopy : Nat → Bool) {blockC : Nat}
    (publish : Bool) (hnodup : all.Nodup)
    (hnone : ∀ e ∈ all, c₀.slotForId (flatId cfg layerId e) = none)
    (hroom : Roomy isOpen all.length) (hlanes : ∀ s, isOpen s → s < blockC) :
    ∀ {rest done taken : List Nat} {c : SlotCache} {lanes : Lanes}, all = done ++ rest →
      Installed cfg layerId classBegin isOpen c₀ done taken c →
      Masked (fun s => isOpen s ∧ s ∉ taken) lanes →
      ∃ taken', Installed cfg layerId classBegin isOpen c₀ all taken'
        (admitMissing cfg layerId band hasCopy blockC classBegin publish c₀.idOfSlot done.length rest
          lanes c) := by
  intro rest
  induction rest with
  | nil =>
    intro done taken c lanes hall h _
    rw [List.append_nil] at hall
    exact ⟨taken, hall ▸ h⟩
  | cons e rest ih =>
    intro done taken c lanes hall h hmasked
    have hfree : taken.length < all.length := by
      rw [h.length, hall, List.length_append, List.length_cons]
      omega
    obtain ⟨s, hs, hnot⟩ := hroom taken hfree
    obtain ⟨hopen, hnew⟩ := pickVictim_open cfg band hasCopy hmasked ⟨s, hlanes s hs, hs, hnot⟩
    unfold admitMissing
    simp only
    generalize pickVictim cfg band hasCopy blockC lanes = victim at hopen hnew
    have hall' : all = (done ++ [e]) ++ rest := by simpa using hall
    have he : e ∉ done := by
      rw [hall, List.nodup_append] at hnodup
      exact fun hin => hnodup.2.2 e hin e List.mem_cons_self rfl
    have he₀ := hnone e (by simp [hall])
    have hmasked' := hmasked.mask victim
    -- the victim was not taken yet, so its owner is still the one from the start
    have hold : c₀.idOfSlot victim = c.idOfSlot victim := ((h.slots victim hnew).1).symm
    have hlen : done.length + 1 = (done ++ [e]).length := by simp
    rw [hold, hlen]
    have hinstalled : Installed cfg layerId classBegin isOpen c₀ (done ++ [e]) (taken ++ [victim])
        (install cfg layerId classBegin done.length e victim (c.idOfSlot victim) (if publish then
          { c with
            victimIds := update c.victimIds done.length (c.idOfSlot victim)
            priorIds := update c.priorIds done.length (c.idOfSlot victim) }
          else c)) := by
      cases publish with
      | false => exact h.install he he₀ hopen hnew
      | true =>
        exact (h.publish (update c.victimIds done.length (c.idOfSlot victim))
          (update c.priorIds done.length (c.idOfSlot victim))).install he he₀ hopen hnew
    refine ih hall' hinstalled ⟨fun s hs => hmasked'.below s ?_,
      fun s hs => hmasked'.masked s fun hin => hs ?_⟩
    · simp only [List.mem_append, List.mem_singleton, not_or] at hs
      exact ⟨⟨hs.1, hs.2.1⟩, hs.2.2⟩
    · simp only [List.mem_append, List.mem_singleton, not_or]
      exact ⟨hin.1.1, hin.1.2, hin.2⟩

/-- The reference's candidates are the open slots that are left. -/
theorem mem_candidates {begin stop : Nat} {done taken : List Nat} {c : SlotCache}
    (h : Installed cfg layerId begin (OpenSlot cfg layerId expertIds c₀.idOfSlot begin stop) c₀ done
      taken c) (hdone : ∀ e ∈ done, e ∈ expertIds) {s : Nat} :
    s ∈ (List.range' begin (stop - begin)).filter (fun s =>
      ¬ownerActive cfg layerId expertIds c.idOfSlot s) ↔
      OpenSlot cfg layerId expertIds c₀.idOfSlot begin stop s ∧ s ∉ taken := by
  have hactive : ownerActive cfg layerId expertIds c.idOfSlot s = true ↔
      ∃ e ∈ expertIds, c.idOfSlot s = some (flatId cfg layerId e) := by
    simp [ownerActive]
  rw [List.mem_filter, List.mem_range'_1, decide_eq_true_eq, hactive]
  unfold OpenSlot
  constructor
  · rintro ⟨hrange, hnot⟩
    have hnew : s ∉ taken := by
      intro hs
      obtain ⟨e, he, howner⟩ := h.owner hs
      exact hnot ⟨e, hdone e he, howner⟩
    refine ⟨⟨by omega, fun e he howner => hnot ⟨e, he, ?_⟩⟩, hnew⟩
    rw [(h.slots s hnew).1, howner]
  · rintro ⟨⟨hrange, hopen⟩, hnew⟩
    refine ⟨by omega, ?_⟩
    rintro ⟨e, he, howner⟩
    rw [(h.slots s hnew).1] at howner
    exact hopen e he howner

/-- **So does the reference's, and no `min` is empty.** -/
theorem admitMissingCpu_installed {begin stop : Nat} (hnodup : all.Nodup)
    (hall : ∀ e ∈ all, e ∈ expertIds)
    (hnone : ∀ e ∈ all, c₀.slotForId (flatId cfg layerId e) = none)
    (hroom : Roomy (OpenSlot cfg layerId expertIds c₀.idOfSlot begin stop) all.length) :
    ∀ {rest done taken : List Nat} {c : SlotCache}, all = done ++ rest →
      Installed cfg layerId begin (OpenSlot cfg layerId expertIds c₀.idOfSlot begin stop) c₀ done
        taken c →
      ∃ c' taken', admitMissingCpu cfg layerId expertIds begin stop done.length rest c = some c' ∧
        Installed cfg layerId begin (OpenSlot cfg layerId expertIds c₀.idOfSlot begin stop) c₀ all
          taken' c' := by
  intro rest
  induction rest with
  | nil =>
    intro done taken c heq h
    rw [List.append_nil] at heq
    exact ⟨c, taken, rfl, heq ▸ h⟩
  | cons e rest ih =>
    intro done taken c heq h
    have hfree : taken.length < all.length := by
      rw [h.length, heq, List.length_append, List.length_cons]
      omega
    have hmem := fun s => mem_candidates h (fun e he => hall e (by simp [heq, he])) (s := s)
    obtain ⟨s, hs, hnot⟩ := hroom taken hfree
    unfold admitMissingCpu
    simp only
    generalize (List.range' begin (stop - begin)).filter (fun s =>
      ¬ownerActive cfg layerId expertIds c.idOfSlot s) = candidates at hmem
    have hsome : ∀ {α : Type} [LinearOrder α] (key : Nat → α), ∃ victim,
        candidates.argmin key = some victim ∧
          OpenSlot cfg layerId expertIds c₀.idOfSlot begin stop victim ∧ victim ∉ taken := by
      intro α _ key
      cases hmin : candidates.argmin key with
      | none =>
        rw [List.argmin_eq_none] at hmin
        have := (hmem s).mpr ⟨hs, hnot⟩
        rw [hmin] at this
        cases this
      | some victim => exact ⟨victim, rfl, (hmem victim).mp (List.argmin_mem hmin)⟩
    have hvictim : ∃ victim, (if cfg.policyLfu = true then candidates.argmin (lfuKey cfg c)
        else candidates.argmin fun s => (toLex (c.usage s, s) : Nat ×ₗ Nat)) = some victim ∧
          OpenSlot cfg layerId expertIds c₀.idOfSlot begin stop victim ∧ victim ∉ taken := by
      split
      · exact hsome _
      · exact hsome _
    obtain ⟨victim, hpick, hopen, hnew⟩ := hvictim
    rw [hpick]
    have he : e ∉ done := by
      rw [heq, List.nodup_append] at hnodup
      exact fun hin => hnodup.2.2 e hin e List.mem_cons_self rfl
    have hlen : done.length + 1 = (done ++ [e]).length := by simp
    rw [hlen]
    exact ih (by simpa using heq) (h.install he (hnone e (by simp [heq])) hopen hnew)

end Loops

/-! ## What a launch leaves -/

/-- What holds between launches: the maps name the same pairs, every resident is on a usable slot
of its layer's class, and no slot was used later than now. -/
structure Sound (cfg : AdmissionConfig) (numLayers : Nat) (classRange : Nat → Nat × Nat)
    (usable : Nat) (c : SlotCache) : Prop where
  inverse : Paired c.slotForId c.idOfSlot
  inClass : ∀ layer < numLayers, ∀ e < cfg.numExperts, ∀ s,
    c.slotForId (flatId cfg layer e) = some s →
      (classRange layer).1 ≤ s ∧ s < min (classRange layer).2 usable
  used : ∀ s, c.usage s ≤ c.step
  int32 : ∀ id, c.expertFrequency id ≤ maxFrequency

/-- What a launch owes the layer. -/
structure Served (cfg : AdmissionConfig) (layerId : Nat) (expertIds : List Nat)
    (classBegin stop : Nat) (c c' : SlotCache) (out : List Int) : Prop where
  inverse : Paired c'.slotForId c'.idOfSlot
  resident : ∀ e ∈ expertIds, ∃ s, c'.slotForId (flatId cfg layerId e) = some s ∧
    classBegin ≤ s ∧ s < stop
  /-- No routed expert is evicted. -/
  hits : ∀ e ∈ expertIds, ∀ s, c.slotForId (flatId cfg layerId e) = some s →
    c'.slotForId (flatId cfg layerId e) = some s
  /-- Every entry names a newly installed expert and its slot. -/
  named : ∀ i < c'.numIndices, c'.srcIndices i ∈ expertIds ∧
    c.slotForId (flatId cfg layerId (c'.srcIndices i)) = none ∧
      ∃ s : Nat, c'.slotForId (flatId cfg layerId (c'.srcIndices i)) = some s ∧
        c'.evictSlots i = (s : Int) - classBegin
  /-- And each is named once. -/
  once : ∀ e ∈ expertIds, c.slotForId (flatId cfg layerId e) = none →
    ∃! i, i < c'.numIndices ∧ c'.srcIndices i = e
  untouched : ∀ s, ¬(classBegin ≤ s ∧ s < stop) →
    c'.idOfSlot s = c.idOfSlot s ∧ c'.usage s = c.usage s
  rewritten : List.Forall₂ (fun e r => ∃ s : Nat, c'.slotForId (flatId cfg layerId e) = some s ∧
    r = (s : Int) - classBegin) expertIds out

section Launch

variable {numLayers usable : Nat} {classRange : Nat → Nat × Nat} {c c₁ c' : SlotCache}
  {all taken : List Nat}

theorem touch_usage (experts : List Nat) (c : SlotCache) (s : Nat) :
    (touch cfg layerId experts c).usage s =
      if ∃ e ∈ experts, c.slotForId (flatId cfg layerId e) = some s then c.step else c.usage s := by
  unfold touch
  simp only
  generalize c.usage = usage
  induction experts generalizing usage with
  | nil => simp
  | cons e experts ih =>
    rw [List.foldl_cons, ih]
    cases he : c.slotForId (flatId cfg layerId e) with
    | none => simp [he]
    | some slot =>
      by_cases hs : slot = s
      · subst hs
        simp [he]
      · simp [he, hs, update_of_ne (Ne.symm hs)]

theorem flatId_layer {layer layer' e e' : Nat} (he : e < cfg.numExperts) (he' : e' < cfg.numExperts)
    (h : flatId cfg layer e = flatId cfg layer' e') : layer = layer' ∧ e = e' := by
  unfold flatId at h
  have hdiv : ∀ l i, i < cfg.numExperts → (l * cfg.numExperts + i) / cfg.numExperts = l := by
    intro l i hi
    rw [Nat.mul_comm, Nat.mul_add_div (by omega), Nat.div_eq_of_lt hi, Nat.add_zero]
  have hlayer := hdiv layer e he
  rw [h, hdiv layer' e' he'] at hlayer
  subst hlayer
  omega

/-- A launch that installs some of the routed experts keeps what holds between launches. -/
theorem sound_of_installed (hsound : Sound cfg numLayers classRange usable c)
    (hids : ∀ e ∈ expertIds, e < cfg.numExperts)
    (hmaps : c₁.slotForId = c.slotForId ∧ c₁.idOfSlot = c.idOfSlot) (hstep : c₁.step = c.step + 1)
    (husage : ∀ s, c₁.usage s = if ∃ e ∈ expertIds, c.slotForId (flatId cfg layerId e) = some s then
      c.step + 1 else c.usage s)
    (hint32 : ∀ id, c₁.expertFrequency id ≤ maxFrequency) (hall : ∀ e ∈ all, e ∈ expertIds)
    (h : Installed cfg layerId (classRange layerId).1 (OpenSlot cfg layerId expertIds c₁.idOfSlot
      (classRange layerId).1 (min (classRange layerId).2 usable)) c₁ all taken c') :
    Sound cfg numLayers classRange usable c' := by
  refine ⟨h.inverse, fun layer hl e he s hs => ?_, fun s => ?_, fun id => ?_⟩
  · rcases h.ids _ s hs with hold | ⟨htaken, e', he', heq⟩
    · exact hsound.inClass layer hl e he s (hmaps.1 ▸ hold)
    · obtain ⟨rfl, -⟩ := flatId_layer he (hids e' (hall e' he')) heq
      exact (h.taken_open s htaken).1
  · rw [h.step, hstep]
    by_cases htaken : s ∈ taken
    · exact (h.used s htaken).le.trans hstep.le
    · rw [(h.slots s htaken).2, husage]
      split
      · exact Nat.le_refl _
      · exact (hsound.used s).trans (Nat.le_succ _)
  · rw [h.rest.1]
    exact hint32 id

/-- **What the victim loop leaves is what the layer is owed.** -/
theorem served_of_installed (hsound : Sound cfg numLayers classRange usable c)
    (hlayer : layerId < numLayers) (hids : ∀ e ∈ expertIds, e < cfg.numExperts)
    (hmaps : c₁.slotForId = c.slotForId ∧ c₁.idOfSlot = c.idOfSlot) (hstep : c₁.step = c.step + 1)
    (husage : ∀ s, c₁.usage s = if ∃ e ∈ expertIds, c.slotForId (flatId cfg layerId e) = some s then
      c.step + 1 else c.usage s)
    (hint32 : ∀ id, c₁.expertFrequency id ≤ maxFrequency)
    (hall : ∀ e, e ∈ all ↔ e ∈ expertIds ∧ c.slotForId (flatId cfg layerId e) = none)
    (hnodup : all.Nodup)
    (h : Installed cfg layerId (classRange layerId).1 (OpenSlot cfg layerId expertIds c₁.idOfSlot
      (classRange layerId).1 (min (classRange layerId).2 usable)) c₁ all taken c')
    (hcount : c'.numIndices = all.length) :
    Sound cfg numLayers classRange usable c' ∧
      Served cfg layerId expertIds (classRange layerId).1 (min (classRange layerId).2 usable) c c'
        (expertIds.map fun e => classLocal (classRange layerId).1
          (c'.slotForId (flatId cfg layerId e))) := by
  set classBegin := (classRange layerId).1
  set stop := min (classRange layerId).2 usable
  -- a resident expert that is called keeps its slot, since its slot is not open
  have hhits : ∀ e ∈ expertIds, ∀ s, c.slotForId (flatId cfg layerId e) = some s →
      c'.slotForId (flatId cfg layerId e) = some s := by
    intro e he s hs
    refine h.kept _ s (hmaps.1.symm ▸ hs) fun htaken => ?_
    refine (h.taken_open s htaken).2 e he ?_
    rw [hmaps.2, ← hsound.inverse]
    exact hs
  -- a missing one gets a slot that was taken for it, and is listed with it
  have hnew : ∀ i e : Nat, all[i]? = some e → ∃ s, taken[i]? = some s ∧
      c'.slotForId (flatId cfg layerId e) = some s ∧ (classBegin ≤ s ∧ s < stop) ∧
        c'.srcIndices i = e ∧ c'.evictSlots i = (s : Int) - classBegin := by
    intro i e hi
    have hlt : i < taken.length := by
      have := (List.getElem?_eq_some_iff.mp hi).1
      rwa [h.length]
    have htaken := List.getElem?_eq_getElem hlt
    obtain ⟨hsrc, hevict, hslot⟩ := h.listed i e _ hi htaken
    exact ⟨_, htaken, hslot, (h.taken_open _ (List.getElem_mem hlt)).1, hsrc, hevict⟩
  have hresident : ∀ e ∈ expertIds, ∃ s, c'.slotForId (flatId cfg layerId e) = some s ∧
      classBegin ≤ s ∧ s < stop := by
    intro e he
    cases hs : c.slotForId (flatId cfg layerId e) with
    | some s => exact ⟨s, hhits e he s hs, hsound.inClass layerId hlayer e (hids e he) s hs⟩
    | none =>
      obtain ⟨i, hi⟩ := List.mem_iff_getElem?.mp ((hall e).mpr ⟨he, hs⟩)
      obtain ⟨s, -, hslot, hrange, -⟩ := hnew i e hi
      exact ⟨s, hslot, hrange⟩
  have hindex : ∀ i < c'.numIndices, ∃ e, all[i]? = some e ∧ c'.srcIndices i = e := by
    intro i hi
    have hlt : i < all.length := hcount ▸ hi
    obtain ⟨s, -, -, -, hsrc, -⟩ := hnew i _ (List.getElem?_eq_getElem hlt)
    exact ⟨_, List.getElem?_eq_getElem hlt, hsrc⟩
  refine ⟨sound_of_installed hsound hids hmaps hstep husage hint32 (fun e he => ((hall e).mp he).1) h,
    h.inverse, hresident, hhits, fun i hi => ?_, fun e he hs => ?_, fun s hs => ?_, ?_⟩
  · obtain ⟨e, he, hsrc⟩ := hindex i hi
    obtain ⟨s, -, hslot, -, -, hevict⟩ := hnew i e he
    have hmem := (hall e).mp (List.mem_of_getElem? he)
    rw [hsrc]
    exact ⟨hmem.1, hmem.2, s, hslot, hevict⟩
  · obtain ⟨i, hi⟩ := List.mem_iff_getElem?.mp ((hall e).mpr ⟨he, hs⟩)
    obtain ⟨s, -, -, -, hsrc, -⟩ := hnew i e hi
    have hlt := (List.getElem?_eq_some_iff.mp hi).1
    refine ⟨i, ⟨hcount ▸ hlt, hsrc⟩, ?_⟩
    rintro j ⟨hj, hjsrc⟩
    obtain ⟨e', he', hsrc'⟩ := hindex j hj
    have heq : e' = e := hsrc'.symm.trans hjsrc
    exact (List.getElem?_inj (hcount ▸ hj) hnodup).mp (he'.trans (heq ▸ hi.symm))
  · have hout : s ∉ taken := fun htaken => hs (h.taken_open s htaken).1
    obtain ⟨hid, huse⟩ := h.slots s hout
    refine ⟨hid.trans (congrFun hmaps.2 s), huse.trans ?_⟩
    rw [husage, if_neg]
    rintro ⟨e, he, hslot⟩
    exact hs (hsound.inClass layerId hlayer e (hids e he) s hslot)
  · refine List.forall₂_map_right_iff.mpr (List.forall₂_same.mpr fun e he => ?_)
    obtain ⟨s, hslot, -⟩ := hresident e he
    exact ⟨s, hslot, by rw [hslot]; rfl⟩

end Launch

/-! ## The kernels -/

section Kernels

variable {numLayers usable blockC : Nat} {classRange : Nat → Nat × Nat} {c : SlotCache}

theorem mem_activeExperts (hids : ∀ e ∈ expertIds, e < cfg.numExperts) {e : Nat} :
    e ∈ activeExperts cfg expertIds ↔ e ∈ expertIds := by
  rw [activeExperts, List.mem_filter, List.mem_range, decide_eq_true_eq]
  exact ⟨fun h => h.2, fun h => ⟨hids e h, h⟩⟩

theorem activeExperts_nodup : (activeExperts cfg expertIds).Nodup := List.nodup_range.filter _

theorem mem_missingExperts (hids : ∀ e ∈ expertIds, e < cfg.numExperts) {e : Nat} :
    e ∈ missingExperts cfg layerId expertIds c ↔
      e ∈ expertIds ∧ c.slotForId (flatId cfg layerId e) = none := by
  rw [missingExperts, List.mem_filter, mem_activeExperts hids, decide_eq_true_eq]

theorem mirrorBookkeeping_same (cfg : AdmissionConfig) (layerId : Nat) (c : SlotCache) :
    ∃ v p s, mirrorBookkeeping cfg layerId c =
      { c with victimIds := v, priorIds := p, prevSlotOfId := s } := by
  unfold mirrorBookkeeping
  split
  · exact ⟨_, _, _, rfl⟩
  · exact ⟨_, _, _, rfl⟩

theorem countRouted_same (cfg : AdmissionConfig) (layerId : Nat) (expertIds : List Nat)
    (c : SlotCache) (h : ∀ id, c.expertFrequency id ≤ maxFrequency) :
    ∃ p f, countRouted cfg layerId expertIds c = { c with policySteps := p, expertFrequency := f } ∧
      ∀ id, f id ≤ maxFrequency := by
  unfold countRouted
  split
  · refine ⟨_, _, rfl, fun id => ?_⟩
    split
    · exact wrap32_le _
    · exact h id
  · exact ⟨_, _, rfl, h⟩

theorem countStats_same (cfg : AdmissionConfig) (layerId : Nat) (expertIds : List Nat)
    (missing : Nat) (c : SlotCache) :
    ∃ s, countStats cfg layerId expertIds missing c = { c with lruStats := s } := by
  unfold countStats
  split
  · exact ⟨_, rfl⟩
  · exact ⟨_, rfl⟩

/-- What the victim loop starts from. -/
theorem beforeVictims_spec (layerId : Nat) (hids : ∀ e ∈ expertIds, e < cfg.numExperts)
    (hint32 : ∀ id, c.expertFrequency id ≤ maxFrequency) :
    let c₁ := beforeVictims cfg layerId expertIds c
    (c₁.slotForId = c.slotForId ∧ c₁.idOfSlot = c.idOfSlot) ∧ c₁.step = c.step + 1 ∧
      (∀ s, c₁.usage s = if ∃ e ∈ expertIds, c.slotForId (flatId cfg layerId e) = some s then
        c.step + 1 else c.usage s) ∧
      (∀ id, c₁.expertFrequency id ≤ maxFrequency) ∧
      c₁.numIndices = (missingExperts cfg layerId expertIds c₁).length := by
  unfold beforeVictims
  obtain ⟨v, p, s, hbook⟩ := mirrorBookkeeping_same cfg layerId c
  obtain ⟨q, f, hcount, hf⟩ := countRouted_same cfg layerId expertIds
    { c with victimIds := v, priorIds := p, prevSlotOfId := s, step := c.step + 1 } hint32
  simp only [hbook]
  rw [hcount]
  set k := (missingExperts cfg layerId expertIds _).length with hk
  obtain ⟨t, hstats⟩ := countStats_same cfg layerId expertIds k
    (touch cfg layerId (activeExperts cfg expertIds)
      { c with
        victimIds := v, priorIds := p, prevSlotOfId := s, step := c.step + 1, policySteps := q
        expertFrequency := f, numIndices := k })
  rw [hstats]
  refine ⟨⟨rfl, rfl⟩, rfl, fun s => ?_, hf, hk⟩
  refine (touch_usage _ _ s).trans ?_
  simp only [mem_activeExperts hids]

theorem lfuFrequency_le (cfg : AdmissionConfig) (usage : Nat → Nat)
    (hint32 : ∀ id, c.expertFrequency id ≤ maxFrequency) (s : Nat) :
    lfuFrequency cfg usage c s ≤ maxFrequency := by
  unfold lfuFrequency
  simp only
  split
  · exact wrap32_le _
  · cases c.idOfSlot s with
    | none =>
      unfold maxFrequency
      simp
    | some owner => exact hint32 owner

theorem ownerFrequency_le (cfg : AdmissionConfig) (hasCopy : Nat → Bool) (usage : Nat → Nat)
    (hint32 : ∀ id, c.expertFrequency id ≤ maxFrequency) (s : Nat) :
    ownerFrequency cfg hasCopy usage c s ≤ maxFrequency := by
  unfold ownerFrequency
  simp only
  split
  · exact wrap32_le _
  · exact lfuFrequency_le cfg usage hint32 s

/-- A lane is masked where the slot is not open. -/
theorem closed_iff (oid : Nat → Option Nat) (classBegin classEnd usable s : Nat) :
    (ownerActive cfg layerId expertIds oid s = true ∨
        ¬decide (classBegin ≤ s ∧ s < classEnd ∧ s < usable) = true) ↔
      ¬OpenSlot cfg layerId expertIds oid classBegin (min classEnd usable) s := by
  have hactive : ownerActive cfg layerId expertIds oid s = true ↔
      ¬∀ e ∈ expertIds, oid s ≠ some (flatId cfg layerId e) := by
    simp [ownerActive]
  have hrange : (classBegin ≤ s ∧ s < classEnd ∧ s < usable) ↔
      classBegin ≤ s ∧ s < min classEnd usable := by omega
  rw [hactive, decide_eq_true_eq, hrange]
  unfold OpenSlot
  rw [← not_and_or, and_comm]

/-- The lane of an open slot. -/
theorem initialLanes_open (hasCopy : Nat → Bool) {classBegin classEnd s : Nat}
    (hs : OpenSlot cfg layerId expertIds c.idOfSlot classBegin (min classEnd usable) s) :
    let lanes := initialLanes cfg layerId expertIds
      (fun s => decide (classBegin ≤ s ∧ s < classEnd ∧ s < usable)) hasCopy c
    lanes.usage s = c.usage s ∧ lanes.frequency s = ownerFrequency cfg hasCopy c.usage c s := by
  have hopen : ¬(ownerActive cfg layerId expertIds c.idOfSlot s = true ∨
      ¬decide (classBegin ≤ s ∧ s < classEnd ∧ s < usable) = true) :=
    fun h => (closed_iff _ _ _ _ _).mp h hs
  refine ⟨if_neg hopen, (if_neg hopen).trans ?_⟩
  unfold ownerFrequency lfuFrequency
  simp only [hopen, if_false]

/-- The first lanes mask all but the open slots. -/
theorem initialLanes_masked (cfg : AdmissionConfig) (layerId : Nat) (expertIds : List Nat)
    (hasCopy : Nat → Bool) (classBegin classEnd usable : Nat)
    (hused : ∀ s, c.usage s < maxUsage) (hint32 : ∀ id, c.expertFrequency id ≤ maxFrequency) :
    Masked (OpenSlot cfg layerId expertIds c.idOfSlot classBegin (min classEnd usable))
      (initialLanes cfg layerId expertIds
        (fun s => decide (classBegin ≤ s ∧ s < classEnd ∧ s < usable)) hasCopy c) := by
  constructor
  · intro s hs
    obtain ⟨husage, hfreq⟩ := initialLanes_open hasCopy hs
    rw [husage, hfreq]
    exact ⟨hused s, ownerFrequency_le cfg hasCopy _ hint32 s⟩
  · intro s hs
    have hclosed := (closed_iff c.idOfSlot classBegin classEnd usable s).mpr hs
    exact ⟨if_pos hclosed, if_pos hclosed⟩

theorem admitMissing_numIndices (band : Int → Int) (hasCopy : Nat → Bool) (blockC classBegin : Nat)
    (publish : Bool) (oid : Nat → Option Nat) (missing : List Nat) :
    ∀ (i : Nat) (lanes : Lanes) (c : SlotCache),
      (admitMissing cfg layerId band hasCopy blockC classBegin publish oid i missing lanes
        c).numIndices = c.numIndices := by
  induction missing with
  | nil => exact fun _ _ _ => rfl
  | cons e missing ih =>
    intro i lanes c
    unfold admitMissing
    rw [ih]
    cases publish <;> rfl

/-- **Both kernels serve the layer.** -/
theorem admissionKernel_served (hsound : Sound cfg numLayers classRange usable c)
    (hlayer : layerId < numLayers) (hids : ∀ e ∈ expertIds, e < cfg.numExperts)
    (hroom : (activeExperts cfg expertIds).length ≤
      min (classRange layerId).2 usable - (classRange layerId).1)
    (hblock : usable ≤ blockC) (hstep : c.step + 1 < maxUsage) (band : Int → Int)
    (poolRowOfId : Nat → Option Nat) (publish : Bool) :
    let r := admissionKernel cfg layerId expertIds band poolRowOfId blockC publish
      (classRange layerId).1 (classRange layerId).2 usable c
    Sound cfg numLayers classRange usable r.1 ∧ Served cfg layerId expertIds (classRange layerId).1
      (min (classRange layerId).2 usable) c r.1 r.2 := by
  obtain ⟨hmaps, hstep₁, husage, hint32, hcount⟩ := beforeVictims_spec layerId hids
    hsound.int32
  unfold admissionKernel
  generalize beforeVictims cfg layerId expertIds c = c₁ at hmaps hstep₁ husage hint32 hcount
  set all := missingExperts cfg layerId expertIds c₁ with hall
  have hmem : ∀ e, e ∈ all ↔ e ∈ expertIds ∧ c₁.slotForId (flatId cfg layerId e) = none :=
    fun e => mem_missingExperts hids
  have hnodup : all.Nodup := (activeExperts_nodup).filter _
  have hinv : Paired c₁.slotForId c₁.idOfSlot := by
    rw [hmaps.1, hmaps.2]
    exact hsound.inverse
  -- no usage comes up to the mask
  have hused : ∀ s, c₁.usage s < maxUsage := by
    intro s
    have := hsound.used s
    rw [husage]
    split <;> omega
  have hroomy : Roomy (OpenSlot cfg layerId expertIds c₁.idOfSlot (classRange layerId).1
      (min (classRange layerId).2 usable)) all.length := fun taken htaken =>
    exists_open hinv activeExperts_nodup (fun e => mem_activeExperts hids) hroom hnodup hmem htaken
  have hlanes : ∀ s, OpenSlot cfg layerId expertIds c₁.idOfSlot (classRange layerId).1
      (min (classRange layerId).2 usable) s → s < blockC := by
    intro s hs
    have := hs.1.2
    omega
  have hmasked := initialLanes_masked cfg layerId expertIds
    (fun s => (c₁.idOfSlot s).any fun owner => (poolRowOfId owner).isSome) (classRange layerId).1
    (classRange layerId).2 usable hused hint32
  obtain ⟨taken, hinstalled⟩ := admitMissing_installed band (fun s => (c₁.idOfSlot s).any fun owner =>
      (poolRowOfId owner).isSome) publish hnodup (fun e he => ((hmem e).mp he).2) hroomy hlanes
    (List.nil_append _).symm (Installed.refl hinv)
    ⟨fun s hs => hmasked.below s hs.1, fun s hs => hmasked.masked s fun hopen =>
      hs ⟨hopen, List.not_mem_nil⟩⟩
  simp only
  refine served_of_installed hsound hlayer hids hmaps hstep₁ husage hint32 (fun e => ?_) hnodup
    hinstalled ?_
  · rw [← hmaps.1]
    exact hmem e
  · exact (admitMissing_numIndices _ _ _ _ _ _ _ _ _ _).trans hcount

end Kernels

/-! ## The reference -/

section Reference

variable {numLayers usable : Nat} {classRange : Nat → Nat × Nat} {c : SlotCache}

theorem seenExperts_spec (expertIds : List Nat) :
    (seenExperts expertIds).Nodup ∧ ∀ e, e ∈ seenExperts expertIds ↔ e ∈ expertIds := by
  have hgen : ∀ (ids seen : List Nat), seen.Nodup →
      (ids.foldl (fun seen e => if e ∈ seen then seen else seen ++ [e]) seen).Nodup ∧
        ∀ e, e ∈ ids.foldl (fun seen e => if e ∈ seen then seen else seen ++ [e]) seen ↔
          e ∈ seen ∨ e ∈ ids := by
    intro ids
    induction ids with
    | nil =>
      intro seen hnodup
      exact ⟨hnodup, by simp⟩
    | cons a ids ih =>
      intro seen hnodup
      rw [List.foldl_cons]
      by_cases ha : a ∈ seen
      · rw [if_pos ha]
        obtain ⟨hnd, hmem⟩ := ih seen hnodup
        refine ⟨hnd, fun e => ?_⟩
        rw [hmem, List.mem_cons]
        constructor
        · rintro (h | h)
          · exact Or.inl h
          · exact Or.inr (Or.inr h)
        · rintro (h | rfl | h)
          · exact Or.inl h
          · exact Or.inl ha
          · exact Or.inr h
      · rw [if_neg ha]
        obtain ⟨hnd, hmem⟩ := ih (seen ++ [a]) (List.nodup_append.mpr ⟨hnodup,
          List.nodup_singleton a, by
            intro x hx y hy
            rw [List.mem_singleton] at hy
            exact fun heq => ha (hy ▸ heq ▸ hx)⟩)
        refine ⟨hnd, fun e => ?_⟩
        rw [hmem, List.mem_append, List.mem_singleton, List.mem_cons, or_assoc]
  obtain ⟨hnd, hmem⟩ := hgen expertIds [] List.nodup_nil
  exact ⟨hnd, fun e => (hmem e).trans (by simp)⟩

theorem countRoutedCpu_same (cfg : AdmissionConfig) (layerId : Nat) (expertIds : List Nat)
    (c : SlotCache) (h : ∀ id, c.expertFrequency id ≤ maxFrequency) :
    ∃ p f, countRoutedCpu cfg layerId expertIds c =
      { c with policySteps := p, expertFrequency := f } ∧ ∀ id, f id ≤ maxFrequency := by
  have hfold : ∀ (ids : List Nat) (freq : Nat → Int), (∀ id, freq id ≤ maxFrequency) →
      ∀ id, ids.foldl (fun freq e =>
        update freq (flatId cfg layerId e) (wrap32 (freq (flatId cfg layerId e) + 1))) freq id ≤
          maxFrequency := by
    intro ids
    induction ids with
    | nil => exact fun freq hfreq => hfreq
    | cons e ids ih =>
      intro freq hfreq
      refine ih _ fun id => ?_
      simp only
      by_cases hid : id = flatId cfg layerId e
      · rw [hid, update_self]
        exact wrap32_le _
      · rw [update_of_ne hid]
        exact hfreq id
  unfold countRoutedCpu
  simp only
  split
  · refine ⟨_, _, rfl, hfold _ _ fun id => ?_⟩
    split
    · simp only
      split
      · have := h id
        change Int.shiftRight (c.expertFrequency id) 1 ≤ maxFrequency
        have hdiv : Int.shiftRight (c.expertFrequency id) 1 = c.expertFrequency id / 2 :=
          Int.shiftRight_eq_div_pow (c.expertFrequency id) 1
        rw [hdiv]
        unfold maxFrequency at *
        omega
      · exact h id
    · exact h id
  · exact ⟨_, _, rfl, h⟩

/-- **The reference serves the layer, and finds a victim for every missing expert.** -/
theorem ensureExpertsSizedCpu_served (hsound : Sound cfg numLayers classRange usable c)
    (hlayer : layerId < numLayers) (hids : ∀ e ∈ expertIds, e < cfg.numExperts)
    (hroom : (activeExperts cfg expertIds).length ≤
      min (classRange layerId).2 usable - (classRange layerId).1)
    (husable : (classRange layerId).2 ≤ usable) :
    ∃ r, ensureExpertsSizedCpu cfg layerId expertIds (classRange layerId).1 (classRange layerId).2
        c = some r ∧ Sound cfg numLayers classRange usable r.1 ∧
      Served cfg layerId expertIds (classRange layerId).1 (min (classRange layerId).2 usable) c r.1
        r.2 := by
  obtain ⟨p, f, hcount, hf⟩ := countRoutedCpu_same cfg layerId expertIds
    { c with step := c.step + 1 } hsound.int32
  obtain ⟨hseen, hmemSeen⟩ := seenExperts_spec expertIds
  unfold ensureExpertsSizedCpu
  simp only
  rw [hcount]
  set c₁ := touch cfg layerId (seenExperts expertIds)
    { c with step := c.step + 1, policySteps := p, expertFrequency := f } with hc₁
  have hmaps : c₁.slotForId = c.slotForId ∧ c₁.idOfSlot = c.idOfSlot := ⟨rfl, rfl⟩
  have husage : ∀ s, c₁.usage s = if ∃ e ∈ expertIds, c.slotForId (flatId cfg layerId e) = some s
      then c.step + 1 else c.usage s := by
    intro s
    refine (touch_usage _ _ s).trans ?_
    simp only [hmemSeen]
  set all := (seenExperts expertIds).filter fun e =>
    decide (c₁.slotForId (flatId cfg layerId e) = none) with hall
  have hmem : ∀ e, e ∈ all ↔ e ∈ expertIds ∧ c₁.slotForId (flatId cfg layerId e) = none := by
    intro e
    rw [hall, List.mem_filter, hmemSeen, decide_eq_true_eq]
  have hnodup : all.Nodup := hseen.filter _
  have hmin : min (classRange layerId).2 usable = (classRange layerId).2 := by omega
  -- the experts seen are the active ones, in another order
  have hlength : (seenExperts expertIds).length = (activeExperts cfg expertIds).length := by
    refine ((List.perm_ext_iff_of_nodup hseen activeExperts_nodup).mpr fun e => ?_).length_eq
    rw [hmemSeen, mem_activeExperts hids]
  have hroomy : Roomy (OpenSlot cfg layerId expertIds c₁.idOfSlot (classRange layerId).1
      (classRange layerId).2) all.length := fun taken htaken =>
    exists_open hsound.inverse hseen hmemSeen (hlength ▸ hmin ▸ hroom) hnodup hmem htaken
  obtain ⟨c', taken, hok, hinstalled⟩ := admitMissingCpu_installed hnodup
    (fun e he => ((hmem e).mp he).1) (fun e he => ((hmem e).mp he).2) hroomy
    (List.nil_append _).symm (Installed.refl hsound.inverse)
  have hok' : admitMissingCpu cfg layerId expertIds (classRange layerId).1 (classRange layerId).2 0
      all c₁ = some c' := hok
  rw [hok']
  refine ⟨_, rfl, ?_⟩
  simp only
  have hdone : ∀ c'' : SlotCache, (∃ s, c'' = { c' with numIndices := all.length, lruStats := s }) →
      Sound cfg numLayers classRange usable c'' ∧ Served cfg layerId expertIds
        (classRange layerId).1 (min (classRange layerId).2 usable) c c'' (expertIds.map fun e =>
          classLocal (classRange layerId).1 (c''.slotForId (flatId cfg layerId e))) := by
    rintro _ ⟨s, rfl⟩
    let c₂ : SlotCache := { c₁ with numIndices := all.length }
    have hmaps₂ : c₂.slotForId = c.slotForId ∧ c₂.idOfSlot = c.idOfSlot := hmaps
    have hfinal : Installed cfg layerId (classRange layerId).1 (OpenSlot cfg layerId expertIds
        c₂.idOfSlot (classRange layerId).1 (min (classRange layerId).2 usable)) c₂ all taken
          { c' with numIndices := all.length, lruStats := s } := by
      rw [hmin]
      exact ⟨hinstalled.inverse, hinstalled.length, hinstalled.nodup, hinstalled.taken_open,
        hinstalled.listed, hinstalled.slots, hinstalled.used, hinstalled.kept, hinstalled.ids,
        hinstalled.step, hinstalled.rest.1, rfl⟩
    exact served_of_installed hsound hlayer hids hmaps₂ rfl husage hf hmem hnodup hfinal rfl
  refine hdone _ ?_
  split
  · exact ⟨_, rfl⟩
  · exact ⟨_, rfl⟩

end Reference

end FreeToken.Experts
