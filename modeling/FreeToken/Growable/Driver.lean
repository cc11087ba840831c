import FreeToken.Growable.Vmm
import Mathlib.Data.List.Sort

/-!
# The driver under the mapped ranges

`VMMAllocation::commit_ranges` and `uncommit_ranges` call by call of the driver, any of which may
fail without effect, and `_retry_while_not_ready` over them.
Main results:

* `mapEach_spec`, `unmapEach_spec`: what the loops over the ranges leave mapped.
* `attempt_spec`: a call is that of `Vmm`, or changes nothing.
* `retry_spec`: so is one that is repeated.
-/

namespace FreeToken.Growable

/-! ## The driver -/

inductive CuResult where
  | success
  | notReady
  | other
deriving DecidableEq

structure Device where
  mapped : Finset Range
  /-- What makes the calls to come fail, one a call; nothing does when they are over. -/
  answers : List CuResult := []
deriving DecidableEq

namespace Device

variable (d : Device) (r : Range)

def answer : CuResult := d.answers.getD 0 .success

def pass : Device := { d with answers := d.answers.drop 1 }

def cuMemCreate : CuResult × Device := (d.answer, d.pass)

def cuMemRelease : CuResult × Device := (d.answer, d.pass)

def cuMemMap : CuResult × Device :=
  if d.answer ≠ .success then (d.answer, d.pass)
  else if ∀ m ∈ d.mapped, Range.Apart r m then
    (.success, { d.pass with mapped := insert r d.mapped })
  else (.other, d.pass)

def cuMemSetAccess : CuResult × Device :=
  if d.answer ≠ .success then (d.answer, d.pass)
  else if r ∈ d.mapped then (.success, d.pass)
  else (.other, d.pass)

def cuMemUnmap : CuResult × Device :=
  if d.answer ≠ .success then (d.answer, d.pass)
  else if r ∈ d.mapped then (.success, { d.pass with mapped := d.mapped.erase r })
  else (.other, d.pass)

end Device

/-! ## The allocation -/

structure VMMState where
  granularity : Nat
  reservedBytes : Nat
  mappings : List Range
deriving DecidableEq

/-- What a call throws: a check of its arguments, or what the driver answered. -/
inductive Raised where
  | check
  | cuda (result : CuResult)
deriving DecidableEq

/-- The allocation and the device it is on. -/
structure Machine where
  state : VMMState
  device : Device
deriving DecidableEq

namespace VMMState

variable (s : VMMState)

/-- What the mappings say, whatever their order. -/
def view : Vmm := ⟨s.granularity, s.reservedBytes, s.mappings.toFinset⟩

/-- What both calls check first: the ranges, sorted by their offsets. -/
def request (ranges : List (Int × Int)) : Option (List Range) :=
  if ∀ range ∈ ranges, 0 ≤ range.1 ∧ 0 < range.2 ∧ s.view.Valid (range.1.toNat, range.2.toNat) then
    let requested := (ranges.map fun range => ((range.1.toNat, range.2.toNat) : Range)).insertionSort
      fun a b => a.1 ≤ b.1
    if requested.IsChain fun a b => a.1 + a.2 ≤ b.1 then some requested else none
  else none

end VMMState

/-- One range of a commit; the answer that it throws. -/
def mapRange (d : Device) (r : Range) : Option CuResult × Device :=
  let created := d.cuMemCreate
  if created.1 ≠ .success then (some created.1, created.2)
  else
    let mapped := created.2.cuMemMap r
    if mapped.1 ≠ .success then (some mapped.1, (mapped.2.cuMemUnmap r).2.cuMemRelease.2)
    else
      let access := mapped.2.cuMemSetAccess r
      if access.1 ≠ .success then (some access.1, (access.2.cuMemUnmap r).2.cuMemRelease.2)
      else
        let released := access.2.cuMemRelease
        if released.1 ≠ .success then (some released.1, released.2) else (none, released.2)

/-- Nobody looks at the answers of a rollback. -/
def rollBack (d : Device) (added : List Range) : Device :=
  added.reverse.foldl (fun d r => (d.cuMemUnmap r).2) d

/-- The ranges of a commit, of which `added` are mapped. -/
def mapEach (added : List Range) : Device → List Range → Option CuResult × Device
  | d, [] => (none, d)
  | d, r :: rest =>
    match mapRange d r with
    | (none, d') => mapEach (added ++ [r]) d' rest
    | (some thrown, d') => (some thrown, rollBack d' added)

/-- The ranges of an uncommit. -/
def unmapEach : Device → List Range → Option CuResult × Device
  | d, [] => (none, d)
  | d, r :: rest =>
    let unmapped := d.cuMemUnmap r
    if unmapped.1 ≠ .success then (some unmapped.1, unmapped.2) else unmapEach unmapped.2 rest

namespace Machine

variable (m : Machine)

/-- `commit_ranges`. -/
def commitRanges (ranges : List (Int × Int)) : Option Raised × Machine :=
  match m.state.request ranges with
  | none => (some .check, m)
  | some requested =>
    if ∀ r ∈ requested, ∀ mapped ∈ m.state.mappings, Range.Apart r mapped then
      match mapEach [] m.device requested with
      | (none, d) =>
        (none, ⟨{ m.state with mappings := m.state.mappings ++ requested }, d⟩)
      | (some thrown, d) => (some (.cuda thrown), { m with device := d })
    else (some .check, m)

/-- `uncommit_ranges`. -/
def uncommitRanges (ranges : List (Int × Int)) : Option Raised × Machine :=
  match m.state.request ranges with
  | none => (some .check, m)
  | some requested =>
    if ∀ r ∈ requested, r ∈ m.state.mappings then
      match unmapEach m.device requested with
      | (none, d) =>
        (none, ⟨{ m.state with mappings := m.state.mappings.filter (· ∉ requested) }, d⟩)
      | (some thrown, d) => (some (.cuda thrown), { m with device := d })
    else (some .check, m)

end Machine

/-! ## Calls and their repetition -/

inductive VmmCall where
  | commit
  | uncommit
deriving DecidableEq

/-- One call. -/
def Machine.attempt (m : Machine) (call : VmmCall) (ranges : List (Int × Int)) :
    Option Raised × Machine :=
  match call with
  | .commit => m.commitRanges ranges
  | .uncommit => m.uncommitRanges ranges

/-- The device as a call finds it. -/
def Machine.facing (m : Machine) (answers : List CuResult) : Machine :=
  { m with device := { m.device with answers := answers } }

/-- `_retry_while_not_ready`, with the answers of each attempt; without retries it is the call. -/
def retryWhileNotReady (fn : Machine → Option Raised × Machine) :
    Nat → List (List CuResult) → Machine → Option Raised × Machine
  | 0, answers, m => fn (m.facing (answers.headD []))
  | retries + 1, answers, m =>
    let result := fn (m.facing (answers.headD []))
    if result.1 = some (.cuda .notReady) then
      retryWhileNotReady fn retries answers.tail result.2
    else result

/-- `_VMM_RETRIES`, the first attempt included. -/
def VMM_RETRIES : Nat := 6

/-- A call, how often it may be repeated, and the answers of each attempt. -/
structure VmmOp where
  call : VmmCall
  ranges : List (Int × Int)
  /-- None for a call of the allocation itself. -/
  retries : Nat
  answers : List (List CuResult)
deriving DecidableEq

/-- A call of the tensor. -/
def VmmOp.tensor (call : VmmCall) (ranges : List (Int × Int)) (answers : List (List CuResult)) :
    VmmOp := ⟨call, ranges, VMM_RETRIES - 1, answers⟩

def Machine.exec (m : Machine) (op : VmmOp) : Option Raised × Machine :=
  retryWhileNotReady (fun m => m.attempt op.call op.ranges) op.retries op.answers m

/-- What the calls leave, one after the other. -/
def Machine.run (m : Machine) (ops : List VmmOp) : Machine := ops.foldl (fun m op => (m.exec op).2) m

/-- A reservation of which nothing is mapped. -/
def Machine.fresh (granularity reservedBytes : Nat) : Machine :=
  ⟨⟨granularity, reservedBytes, []⟩, { mapped := ∅ }⟩

/-! ## Where the calls are all or nothing -/

/-- The next `n` calls succeed. -/
def allSucceed (n : Nat) (answers : List CuResult) : Bool :=
  (answers.take n).all (· = .success)

/-- The failures that a commit can take back: those before the range is mapped, and that of the
access when it is then unmapped; and every range before it is unmapped. -/
def commitSafe (added : Nat) : Nat → List CuResult → Bool
  | 0, _ => true
  | todo + 1, answers =>
    if answers.getD 0 .success ≠ .success then allSucceed added (answers.drop 1)
    else if answers.getD 1 .success ≠ .success then allSucceed added (answers.drop 4)
    else if answers.getD 2 .success ≠ .success then
      answers.getD 3 .success = .success && allSucceed added (answers.drop 5)
    else if answers.getD 3 .success ≠ .success then false
    else commitSafe (added + 1) todo (answers.drop 4)

/-- The failure that an uncommit can take back: that of its first range. -/
def uncommitSafe (todo : Nat) (answers : List CuResult) : Bool :=
  answers.getD 0 .success ≠ .success || allSucceed todo answers

def VmmCall.safe (call : VmmCall) (todo : Nat) (answers : List CuResult) : Bool :=
  match call with
  | .commit => commitSafe 0 todo answers
  | .uncommit => uncommitSafe todo answers

/-- No attempt fails where it cannot be taken back. -/
def VmmOp.Safe (op : VmmOp) : Prop :=
  ∀ answers ∈ op.answers, op.call.safe op.ranges.length answers = true

instance (op : VmmOp) : Decidable op.Safe :=
  inferInstanceAs (Decidable (∀ answers ∈ op.answers, _))

/-- What a successful call is. -/
def VmmCall.effect (call : VmmCall) (v : Vmm) (ranges : List (Int × Int)) : Option Vmm :=
  let requested : List Range := ranges.map fun range => (range.1.toNat, range.2.toNat)
  match call with
  | .commit => v.commitRanges requested
  | .uncommit => v.uncommitRanges requested

/-- The mappings are the driver's map. -/
structure Machine.Synced (m : Machine) : Prop where
  mapped : m.device.mapped = m.state.mappings.toFinset
  nodup : m.state.mappings.Nodup
  apart : m.state.mappings.Pairwise Range.Apart
  valid : ∀ r ∈ m.state.mappings, m.state.view.Valid r

/-! ## One range -/

section Range

variable {d : Device} {r : Range} {base : Finset Range}

theorem not_mem_of_apart (hr : 0 < r.2) (h : ∀ m ∈ base, Range.Apart r m) : r ∉ base := by
  intro hmem
  have := h r hmem
  unfold Range.Apart at this
  omega

@[simp] theorem Device.pass_mapped : d.pass.mapped = d.mapped := rfl

@[simp] theorem Device.pass_answers : d.pass.answers = d.answers.drop 1 := rfl

/-- An unmap that nothing fails. -/
theorem cuMemUnmap_mem (hanswer : d.answer = .success) (hr : r ∈ d.mapped) :
    d.cuMemUnmap r = (.success, { d.pass with mapped := d.mapped.erase r }) := by
  simp [Device.cuMemUnmap, hanswer, hr]

/-- What one range of a commit comes to, by the answers of its calls. -/
theorem mapRange_spec (hr : 0 < r.2) (hapart : ∀ m ∈ d.mapped, Range.Apart r m) :
    (d.answers.getD 0 .success ≠ .success ∧
        mapRange d r = (some (d.answers.getD 0 .success),
          { mapped := d.mapped, answers := d.answers.drop 1 })) ∨
      (d.answers.getD 0 .success = .success ∧ d.answers.getD 1 .success ≠ .success ∧
        mapRange d r = (some (d.answers.getD 1 .success),
          { mapped := d.mapped, answers := d.answers.drop 4 })) ∨
      (d.answers.getD 0 .success = .success ∧ d.answers.getD 1 .success = .success ∧
        d.answers.getD 2 .success ≠ .success ∧
        (d.answers.getD 3 .success = .success →
          mapRange d r = (some (d.answers.getD 2 .success),
            { mapped := d.mapped, answers := d.answers.drop 5 }))) ∨
      (d.answers.getD 0 .success = .success ∧ d.answers.getD 1 .success = .success ∧
        d.answers.getD 2 .success = .success ∧
        (d.answers.getD 3 .success = .success →
          mapRange d r = (none, { mapped := insert r d.mapped, answers := d.answers.drop 4 }))) := by
  have hnew := not_mem_of_apart hr hapart
  by_cases h0 : d.answers.getD 0 .success = .success
  · by_cases h1 : d.answers.getD 1 .success = .success
    · by_cases h2 : d.answers.getD 2 .success = .success
      · refine Or.inr (Or.inr (Or.inr ⟨h0, h1, h2, fun h3 => ?_⟩))
        simp_all [mapRange, Device.cuMemCreate, Device.cuMemMap, Device.cuMemSetAccess,
          Device.cuMemRelease, Device.answer, Device.pass]
      · refine Or.inr (Or.inr (Or.inl ⟨h0, h1, h2, fun h3 => ?_⟩))
        simp_all [mapRange, Device.cuMemCreate, Device.cuMemMap, Device.cuMemSetAccess,
          Device.cuMemRelease, Device.cuMemUnmap, Device.answer, Device.pass]
    · refine Or.inr (Or.inl ⟨h0, h1, ?_⟩)
      simp_all [mapRange, Device.cuMemCreate, Device.cuMemMap, Device.cuMemRelease,
        Device.cuMemUnmap, Device.answer, Device.pass]
      split_ifs <;> simp
  · refine Or.inl ⟨h0, ?_⟩
    simp_all [mapRange, Device.cuMemCreate, Device.answer, Device.pass]

end Range

/-! ## The loops -/

section Loops

theorem Range.Apart.symm {r q : Range} (h : Range.Apart r q) : Range.Apart q r := Or.symm h

theorem allSucceed_succ {n : Nat} {answers : List CuResult}
    (h : allSucceed (n + 1) answers = true) :
    answers.getD 0 .success = .success ∧ allSucceed n (answers.drop 1) = true := by
  cases answers with
  | nil => exact ⟨rfl, by simp [allSucceed]⟩
  | cons a answers => simpa [allSucceed] using h

/-- A rollback that nothing fails unmaps each range. -/
theorem unmapAll_mapped (rs : List Range) : ∀ {d : Device}, rs.Nodup → (∀ r ∈ rs, r ∈ d.mapped) →
    allSucceed rs.length d.answers = true →
    (rs.foldl (fun d r => (d.cuMemUnmap r).2) d).mapped = d.mapped \ rs.toFinset := by
  induction rs with
  | nil => simp
  | cons r rs ih =>
    intro d hnodup hmem hanswers
    obtain ⟨hr, hnodup⟩ := List.nodup_cons.mp hnodup
    obtain ⟨hanswer, hrest⟩ := allSucceed_succ hanswers
    rw [List.foldl_cons, cuMemUnmap_mem hanswer (hmem r List.mem_cons_self), ih hnodup ?_ hrest]
    · ext x
      simp only [Finset.mem_sdiff, Finset.mem_erase, List.toFinset_cons, Finset.mem_insert]
      tauto
    · intro q hq
      refine Finset.mem_erase.mpr ⟨?_, hmem q (List.mem_cons_of_mem r hq)⟩
      rintro rfl
      exact hr hq

/-- The ranges of a request, against what is mapped. -/
structure Placeable (base : Finset Range) (rs : List Range) : Prop where
  pairwise : rs.Pairwise Range.Apart
  positive : ∀ r ∈ rs, 0 < r.2
  apart : ∀ r ∈ rs, ∀ m ∈ base, Range.Apart r m

theorem Placeable.nodup {base : Finset Range} {rs : List Range} (h : Placeable base rs) : rs.Nodup := by
  refine List.Pairwise.imp_of_mem (fun {r q} hr _ hapart heq => ?_) h.pairwise
  have := h.positive r hr
  rw [← heq] at hapart
  unfold Range.Apart at hapart
  omega

theorem Placeable.disjoint {base : Finset Range} {rs : List Range} (h : Placeable base rs) :
    Disjoint base rs.toFinset := by
  refine Finset.disjoint_right.mpr fun r hr => ?_
  rw [List.mem_toFinset] at hr
  exact not_mem_of_apart (h.positive r hr) (h.apart r hr)

theorem rollBack_mapped {base : Finset Range} {added : List Range} {d : Device}
    (hplace : Placeable base added) (hmapped : d.mapped = base ∪ added.toFinset)
    (hanswers : allSucceed added.length d.answers = true) : (rollBack d added).mapped = base := by
  unfold rollBack
  rw [unmapAll_mapped added.reverse (List.nodup_reverse.mpr hplace.nodup), hmapped,
    List.toFinset_reverse, Finset.union_sdiff_cancel_right hplace.disjoint]
  · intro r hr
    rw [hmapped]
    exact Finset.mem_union_right _ (List.mem_toFinset.mpr (List.mem_reverse.mp hr))
  · rwa [List.length_reverse]

/-- **A commit maps all ranges or none.** -/
theorem mapEach_spec {base : Finset Range} (rest : List Range) :
    ∀ {added : List Range} {d : Device}, Placeable base (added ++ rest) →
      d.mapped = base ∪ added.toFinset → commitSafe added.length rest.length d.answers = true →
      (∀ d', mapEach added d rest = (none, d') → d'.mapped = base ∪ (added ++ rest).toFinset) ∧
        ∀ thrown d', mapEach added d rest = (some thrown, d') → d'.mapped = base := by
  induction rest with
  | nil =>
    intro added d _ hmapped _
    rw [mapEach, List.append_nil]
    refine ⟨fun d' h => ?_, fun thrown d' h => by cases h⟩
    rw [← (Prod.mk.inj h).2]
    exact hmapped
  | cons r rest ih =>
    intro added d hplace hmapped hsafe
    have hadded : Placeable base added :=
      ⟨(List.pairwise_append.mp hplace.pairwise).1,
        fun q hq => hplace.positive q (List.mem_append_left _ hq),
        fun q hq => hplace.apart q (List.mem_append_left _ hq)⟩
    have hmem : r ∈ added ++ r :: rest := by simp
    have hapart : ∀ m ∈ d.mapped, Range.Apart r m := by
      intro m hm
      rw [hmapped, Finset.mem_union, List.mem_toFinset] at hm
      rcases hm with hm | hm
      · exact hplace.apart r hmem m hm
      · exact ((List.pairwise_append.mp hplace.pairwise).2.2 m hm r List.mem_cons_self).symm
    -- a failure is taken back, together with the ranges before it
    have hfailed : ∀ {thrown answers}, mapRange d r =
          (some thrown, { mapped := d.mapped, answers := answers }) →
        allSucceed added.length answers = true →
        (∀ d', mapEach added d (r :: rest) = (none, d') →
            d'.mapped = base ∪ (added ++ r :: rest).toFinset) ∧
          ∀ thrown d', mapEach added d (r :: rest) = (some thrown, d') → d'.mapped = base := by
      intro thrown answers hrange hanswers
      have hrun : mapEach added d (r :: rest) =
          (some thrown, rollBack { mapped := d.mapped, answers := answers } added) := by
        rw [mapEach, hrange]
      rw [hrun]
      refine ⟨fun d' h => absurd (Prod.mk.inj h).1 (by simp), fun thrown d' h => ?_⟩
      rw [← (Prod.mk.inj h).2]
      exact rollBack_mapped hadded hmapped hanswers
    rw [List.length_cons, commitSafe] at hsafe
    rcases mapRange_spec (hplace.positive r hmem) hapart with
      ⟨h0, hrange⟩ | ⟨h0, h1, hrange⟩ | ⟨h0, h1, h2, hrange⟩ | ⟨h0, h1, h2, hrange⟩
    · rw [if_pos h0] at hsafe
      exact hfailed hrange hsafe
    · rw [if_neg (not_not.mpr h0), if_pos h1] at hsafe
      exact hfailed hrange hsafe
    · rw [if_neg (not_not.mpr h0), if_neg (not_not.mpr h1), if_pos h2, Bool.and_eq_true,
        decide_eq_true_eq] at hsafe
      exact hfailed (hrange hsafe.1) hsafe.2
    · rw [if_neg (not_not.mpr h0), if_neg (not_not.mpr h1), if_neg (not_not.mpr h2)] at hsafe
      split_ifs at hsafe with h3
      have hnext := @ih (added ++ [r]) { mapped := insert r d.mapped, answers := d.answers.drop 4 }
        (by simpa using hplace)
        (by rw [hmapped, List.toFinset_append]; ext x; simp)
        (by simpa using hsafe)
      have hrun : mapEach added d (r :: rest) =
          mapEach (added ++ [r]) { mapped := insert r d.mapped, answers := d.answers.drop 4 } rest := by
        rw [mapEach, hrange (not_not.mp h3)]
      rw [hrun]
      rw [List.append_assoc] at hnext
      exact hnext

/-- **An uncommit unmaps all ranges or none.** -/
theorem unmapEach_spec (rs : List Range) : ∀ {d : Device}, rs.Nodup → (∀ r ∈ rs, r ∈ d.mapped) →
    uncommitSafe rs.length d.answers = true →
    (∀ d', unmapEach d rs = (none, d') → d'.mapped = d.mapped \ rs.toFinset) ∧
      ∀ thrown d', unmapEach d rs = (some thrown, d') → d'.mapped = d.mapped := by
  -- once one is unmapped, none fails
  have hall : ∀ (rs : List Range) {d : Device}, rs.Nodup → (∀ r ∈ rs, r ∈ d.mapped) →
      allSucceed rs.length d.answers = true →
      ∃ d', unmapEach d rs = (none, d') ∧ d'.mapped = d.mapped \ rs.toFinset := by
    intro rs
    induction rs with
    | nil =>
      intro d _ _ _
      exact ⟨d, rfl, by simp⟩
    | cons r rs ih =>
      intro d hnodup hmem hanswers
      obtain ⟨hr, hnodup⟩ := List.nodup_cons.mp hnodup
      obtain ⟨hanswer, hrest⟩ := allSucceed_succ hanswers
      have hunmap := cuMemUnmap_mem hanswer (hmem r List.mem_cons_self)
      obtain ⟨d', hd', hmapped⟩ := @ih { d.pass with mapped := d.mapped.erase r } hnodup
        (fun q hq => Finset.mem_erase.mpr
          ⟨fun heq => hr (heq ▸ hq), hmem q (List.mem_cons_of_mem r hq)⟩) hrest
      refine ⟨d', ?_, ?_⟩
      · rw [unmapEach, hunmap, if_neg (by simp)]
        exact hd'
      · rw [hmapped]
        ext x
        simp only [Finset.mem_sdiff, Finset.mem_erase, List.toFinset_cons, Finset.mem_insert]
        tauto
  intro d hnodup hmem hsafe
  unfold uncommitSafe at hsafe
  rw [Bool.or_eq_true, decide_eq_true_eq] at hsafe
  rcases hsafe with hfirst | hanswers
  · cases rs with
    | nil =>
      rw [unmapEach]
      refine ⟨fun d' h => ?_, fun thrown d' h => by cases h⟩
      rw [← (Prod.mk.inj h).2]
      simp
    | cons r rs =>
      have hfirst : d.answer ≠ .success := hfirst
      have hunmap : d.cuMemUnmap r = (d.answer, d.pass) := by
        rw [Device.cuMemUnmap, if_pos hfirst]
      have hrun : unmapEach d (r :: rs) = (some d.answer, d.pass) := by
        rw [unmapEach, hunmap, if_pos hfirst]
      rw [hrun]
      refine ⟨fun d' h => absurd (Prod.mk.inj h).1 (by simp), fun thrown d' h => ?_⟩
      rw [← (Prod.mk.inj h).2]
      rfl
  · obtain ⟨d', hd', hmapped⟩ := hall rs hnodup hmem hanswers
    rw [hd']
    refine ⟨fun d'' h => ?_, fun thrown d'' h => by cases h⟩
    rw [← (Prod.mk.inj h).2]
    exact hmapped

end Loops

/-! ## One call -/

section Attempt

variable {m : Machine} {ranges : List (Int × Int)} {requested : List Range}

/-- The ranges as the allocation counts them. -/
def toRanges (ranges : List (Int × Int)) : List Range :=
  ranges.map fun range => (range.1.toNat, range.2.toNat)

theorem request_perm {s : VMMState} (h : s.request ranges = some requested) :
    requested.Perm (toRanges ranges) := by
  unfold VMMState.request at h
  simp only at h
  split_ifs at h
  rw [← Option.some.inj h]
  exact List.perm_insertionSort _ _

theorem request_valid {s : VMMState} (h : s.request ranges = some requested) :
    ∀ r ∈ requested, s.view.Valid r := by
  intro r hr
  rw [(request_perm h).mem_iff] at hr
  obtain ⟨range, hrange, rfl⟩ := List.mem_map.mp hr
  unfold VMMState.request at h
  split_ifs at h with hall
  exact (hall range hrange).2.2

theorem request_apart {s : VMMState} (h : s.request ranges = some requested) :
    requested.Pairwise Range.Apart := by
  unfold VMMState.request at h
  simp only at h
  split_ifs at h with hall hchain
  rw [← Option.some.inj h]
  have htrans : IsTrans Range fun a b => a.1 + a.2 ≤ b.1 := ⟨fun a b c hab hbc => by omega⟩
  exact (List.isChain_iff_pairwise.mp hchain).imp fun h => Or.inl h

theorem request_length {s : VMMState} (h : s.request ranges = some requested) :
    requested.length = ranges.length := by
  rw [(request_perm h).length_eq, toRanges, List.length_map]

/-- What is checked is what `Vmm` asks for. -/
theorem request_request {s : VMMState} (h : s.request ranges = some requested) :
    s.view.Request (toRanges ranges) := by
  refine ⟨fun r hr => request_valid h r ((request_perm h).mem_iff.mpr hr), ?_⟩
  exact (List.Perm.pairwise_iff (fun {a b} hab => Range.Apart.symm hab) (request_perm h)).mp
    (request_apart h)

/-- Nothing is changed when the call throws, and what it returns is one call of `Vmm`. -/
def Machine.AllOrNothing (m : Machine) (call : VmmCall) (ranges : List (Int × Int))
    (result : Option Raised × Machine) : Prop :=
  match result.1 with
  | some _ => result.2.state = m.state ∧ result.2.device.mapped = m.device.mapped
  | none => call.effect m.state.view ranges = some result.2.state.view

theorem Machine.Synced.commit (h : m.Synced)
    (hsafe : commitSafe 0 ranges.length m.device.answers = true) :
    (m.commitRanges ranges).2.Synced ∧ m.AllOrNothing .commit ranges (m.commitRanges ranges) := by
  unfold Machine.commitRanges
  cases hreq : m.state.request ranges with
  | none => exact ⟨h, rfl, rfl⟩
  | some requested =>
    simp only
    split_ifs with hapart
    · have hplace : Placeable m.state.mappings.toFinset requested :=
        ⟨request_apart hreq, fun r hr => (request_valid hreq r hr).1,
          fun r hr q hq => hapart r hr q (List.mem_toFinset.mp hq)⟩
      have hspec := @mapEach_spec _ requested [] m.device hplace
        (by rw [h.mapped]; simp) (by rw [request_length hreq]; exact hsafe)
      cases hrun : mapEach [] m.device requested with
      | mk thrown d =>
        cases thrown with
        | none =>
          have hmapped := hspec.1 d hrun
          rw [List.nil_append] at hmapped
          refine ⟨⟨?_, ?_, ?_, ?_⟩, ?_⟩
          · simp only [hmapped, List.toFinset_append]
          · refine List.nodup_append.mpr ⟨h.nodup, hplace.nodup, ?_⟩
            rintro r hr q hq rfl
            exact Finset.disjoint_left.mp hplace.disjoint (List.mem_toFinset.mpr hr)
              (List.mem_toFinset.mpr hq)
          · exact List.pairwise_append.mpr ⟨h.apart, hplace.pairwise,
              fun r hr q hq => (hapart q hq r hr).symm⟩
          · intro r hr
            rcases List.mem_append.mp hr with hr | hr
            · exact h.valid r hr
            · exact request_valid hreq r hr
          · refine Vmm.commitRanges_eq_some.mpr ⟨⟨request_request hreq, fun r hr q hq => ?_⟩, ?_⟩
            · exact hapart r ((request_perm hreq).mem_iff.mpr hr) q (List.mem_toFinset.mp hq)
            · simp only [VMMState.view, List.toFinset_append]
              rw [List.toFinset_eq_of_perm _ _ (request_perm hreq)]
              rfl
        | some thrown =>
          have hmapped := hspec.2 thrown d hrun
          refine ⟨⟨hmapped, h.nodup, h.apart, h.valid⟩, rfl, ?_⟩
          rw [h.mapped]
          exact hmapped
    · exact ⟨h, rfl, rfl⟩

theorem Machine.Synced.uncommit (h : m.Synced)
    (hsafe : uncommitSafe ranges.length m.device.answers = true) :
    (m.uncommitRanges ranges).2.Synced ∧
      m.AllOrNothing .uncommit ranges (m.uncommitRanges ranges) := by
  unfold Machine.uncommitRanges
  cases hreq : m.state.request ranges with
  | none => exact ⟨h, rfl, rfl⟩
  | some requested =>
    simp only
    split_ifs with hmem
    · have hplace : Placeable ∅ requested :=
        ⟨request_apart hreq, fun r hr => (request_valid hreq r hr).1, by simp⟩
      have hspec := unmapEach_spec requested (d := m.device) hplace.nodup
        (fun r hr => by rw [h.mapped]; exact List.mem_toFinset.mpr (hmem r hr))
        (by rw [request_length hreq]; exact hsafe)
      cases hrun : unmapEach m.device requested with
      | mk thrown d =>
        cases thrown with
        | none =>
          have hmapped := hspec.1 d hrun
          have hleft : (m.state.mappings.filter (· ∉ requested)).toFinset =
              m.state.mappings.toFinset \ requested.toFinset := by
            ext r
            simp [Finset.mem_sdiff]
          refine ⟨⟨?_, h.nodup.filter _, h.apart.filter _, fun r hr =>
            h.valid r (List.mem_of_mem_filter hr)⟩, ?_⟩
          · rw [hmapped, h.mapped, hleft]
          · refine Vmm.uncommitRanges_eq_some.mpr ⟨⟨request_request hreq, fun r hr => ?_⟩, ?_⟩
            · exact List.mem_toFinset.mpr (hmem r ((request_perm hreq).mem_iff.mpr hr))
            · simp only [VMMState.view, hleft]
              rw [List.toFinset_eq_of_perm _ _ (request_perm hreq)]
              rfl
        | some thrown =>
          have hmapped := hspec.2 thrown d hrun
          exact ⟨⟨hmapped.trans h.mapped, h.nodup, h.apart, h.valid⟩, rfl, hmapped⟩
    · exact ⟨h, rfl, rfl⟩

/-- **One call is all or nothing**, where no failure is one that it cannot take back. -/
theorem attempt_spec (h : m.Synced) {call : VmmCall}
    (hsafe : call.safe ranges.length m.device.answers = true) :
    (m.attempt call ranges).2.Synced ∧ m.AllOrNothing call ranges (m.attempt call ranges) := by
  cases call with
  | commit => exact h.commit hsafe
  | uncommit => exact h.uncommit hsafe

end Attempt

/-! ## Repeated calls, and runs of them -/

section Runs

theorem commitSafe_nil (todo : Nat) : ∀ added, commitSafe added todo [] = true := by
  induction todo with
  | zero =>
    intro added
    rfl
  | succ todo ih =>
    intro added
    exact ih (added + 1)

theorem VmmCall.safe_nil (call : VmmCall) (todo : Nat) : call.safe todo [] = true := by
  cases call with
  | commit => exact commitSafe_nil todo 0
  | uncommit => simp [VmmCall.safe, uncommitSafe, allSucceed]

/-- **A call that is repeated is all or nothing too.** -/
theorem retry_spec {call : VmmCall} {ranges : List (Int × Int)} (retries : Nat) :
    ∀ {answers : List (List CuResult)} {m : Machine}, m.Synced →
      (∀ as ∈ answers, call.safe ranges.length as = true) →
      let result := retryWhileNotReady (fun m => m.attempt call ranges) retries answers m
      result.2.Synced ∧ m.AllOrNothing call ranges result := by
  -- the first attempt, of which nothing is seen but its answers
  have hfirst : ∀ {answers : List (List CuResult)} {m : Machine}, m.Synced →
      (∀ as ∈ answers, call.safe ranges.length as = true) →
      let result := (m.facing (answers.headD [])).attempt call ranges
      result.2.Synced ∧ m.AllOrNothing call ranges result := by
    intro answers m h hsafe
    refine attempt_spec (m := m.facing (answers.headD [])) ⟨h.mapped, h.nodup, h.apart, h.valid⟩ ?_
    cases answers with
    | nil => exact call.safe_nil _
    | cons as answers => exact hsafe as List.mem_cons_self
  induction retries with
  | zero => exact hfirst
  | succ retries ih =>
    intro answers m h hsafe
    obtain ⟨hsynced, hall⟩ := hfirst h hsafe
    rw [retryWhileNotReady]
    simp only
    split_ifs with hretry
    · -- it threw, so it changed nothing, and is repeated from there
      unfold Machine.AllOrNothing at hall
      rw [hretry] at hall
      obtain ⟨hsynced', hall'⟩ := ih hsynced fun as has => hsafe as (List.mem_of_mem_tail has)
      refine ⟨hsynced', ?_⟩
      unfold Machine.AllOrNothing at hall' ⊢
      rw [hall.1, hall.2] at hall'
      exact hall'
    · exact ⟨hsynced, hall⟩

theorem exec_spec {m : Machine} (h : m.Synced) {op : VmmOp} (hop : op.Safe) :
    (m.exec op).2.Synced ∧ m.AllOrNothing op.call op.ranges (m.exec op) :=
  retry_spec op.retries h hop

theorem fresh_synced (granularity reservedBytes : Nat) :
    (Machine.fresh granularity reservedBytes).Synced where
  mapped := rfl
  nodup := List.nodup_nil
  apart := List.Pairwise.nil
  valid := by simp [Machine.fresh]

theorem run_synced {ops : List VmmOp} : ∀ {m : Machine}, m.Synced → (∀ op ∈ ops, op.Safe) →
    (m.run ops).Synced := by
  induction ops with
  | nil =>
    intro m h _
    exact h
  | cons op ops ih =>
    intro m h hops
    exact ih (exec_spec h (hops op List.mem_cons_self)).1
      fun op' hop' => hops op' (List.mem_cons_of_mem op hop')

/-- **Every run of calls is all or nothing**, call by call, where no failure is one that its call
cannot take back. -/
theorem vmm_run {granularity reservedBytes : Nat} {ops : List VmmOp} (hops : ∀ op ∈ ops, op.Safe) :
    let m := (Machine.fresh granularity reservedBytes).run ops
    m.Synced ∧ ∀ op : VmmOp, op.Safe → m.AllOrNothing op.call op.ranges (m.exec op) :=
  have h := run_synced (fresh_synced granularity reservedBytes) hops
  ⟨h, fun _ hop => (exec_spec h hop).2⟩

/-- A commit whose second range cannot be mapped, and which is repeated. -/
theorem vmm_run_retried :
    let m := (Machine.fresh 2 8).run
      [.tensor .commit [(0, 2), (2, 2)]
        [[.success, .success, .success, .success, .success, .notReady]]]
    m.Synced ∧ ∀ op : VmmOp, op.Safe → m.AllOrNothing op.call op.ranges (m.exec op) :=
  vmm_run (by decide)

/-- An uncommit whose second range is not ready: the first is gone, and its repetition fails. -/
theorem uncommit_loses_range : ¬∀ ops : List VmmOp, ((Machine.fresh 2 8).run ops).Synced := by
  intro h
  have hmapped := (h [.tensor .commit [(0, 2), (2, 2)] [],
    .tensor .uncommit [(0, 2), (2, 2)] [[.success, .notReady]]]).mapped
  revert hmapped
  decide

end Runs

end FreeToken.Growable
