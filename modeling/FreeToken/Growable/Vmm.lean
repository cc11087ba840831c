import Mathlib.Algebra.Ring.Nat
import Mathlib.Data.Finset.Basic
import Mathlib.Data.List.Pairwise
import Mathlib.Data.Finset.Lattice.Lemmas
import Mathlib.Data.Finset.SDiff
import Mathlib.Data.List.Forall2

/-!
# Mapped ranges

`VMMAllocation`: a reserved address range of which parts are mapped. Main results:

* `uncommit_commit`, `commit_uncommit`: mapping and unmapping are exact inverses.
* `commitEach_raised`: a commit over several allocations that fails in the middle leaves each
  as it was.
-/

namespace FreeToken.Growable

/-- Offset and size, in bytes. -/
abbrev Range := Nat × Nat

/-- The first ends before the second begins, or the other way around. -/
def Range.Apart (a b : Range) : Prop := a.1 + a.2 ≤ b.1 ∨ b.1 + b.2 ≤ a.1

instance (a b : Range) : Decidable (Range.Apart a b) :=
  inferInstanceAs (Decidable (_ ∨ _))

/-- `VMMAllocation`. -/
structure Vmm where
  granularity : Nat
  reservedBytes : Nat
  mappings : Finset Range
deriving DecidableEq

namespace Vmm

variable {v v' : Vmm} {rs : List Range}

/-- A range that may be asked for. -/
def Valid (v : Vmm) (r : Range) : Prop :=
  0 < r.2 ∧ r.1 % v.granularity = 0 ∧ r.2 % v.granularity = 0 ∧ r.1 + r.2 ≤ v.reservedBytes

instance (v : Vmm) (r : Range) : Decidable (v.Valid r) :=
  inferInstanceAs (Decidable (_ ∧ _ ∧ _ ∧ _))

/-- What both directions check first. The source sorts by offset and compares neighbours. -/
def Request (v : Vmm) (rs : List Range) : Prop :=
  (∀ r ∈ rs, v.Valid r) ∧ rs.Pairwise Range.Apart

instance (v : Vmm) (rs : List Range) : Decidable (v.Request rs) :=
  inferInstanceAs (Decidable (_ ∧ _))

/-- `commit_ranges`; `none` is a raised exception, which has no effect. -/
def commitRanges (v : Vmm) (rs : List Range) : Option Vmm :=
  if v.Request rs ∧ ∀ r ∈ rs, ∀ m ∈ v.mappings, Range.Apart r m then
    some { v with mappings := v.mappings ∪ rs.toFinset }
  else none

/-- `uncommit_ranges`: every range must be one that is mapped. -/
def uncommitRanges (v : Vmm) (rs : List Range) : Option Vmm :=
  if v.Request rs ∧ ∀ r ∈ rs, r ∈ v.mappings then
    some { v with mappings := v.mappings \ rs.toFinset }
  else none

theorem commitRanges_eq_some :
    v.commitRanges rs = some v' ↔
      (v.Request rs ∧ ∀ r ∈ rs, ∀ m ∈ v.mappings, Range.Apart r m) ∧
        v' = { v with mappings := v.mappings ∪ rs.toFinset } := by
  unfold commitRanges
  split <;> simp_all [eq_comm]

theorem uncommitRanges_eq_some :
    v.uncommitRanges rs = some v' ↔
      (v.Request rs ∧ ∀ r ∈ rs, r ∈ v.mappings) ∧
        v' = { v with mappings := v.mappings \ rs.toFinset } := by
  unfold uncommitRanges
  split <;> simp_all [eq_comm]

/-- A range that is there cannot be mapped again. -/
theorem commitRanges_mapped {r : Range} (hr : r ∈ rs) (hm : r ∈ v.mappings) :
    v.commitRanges rs = none := by
  unfold commitRanges
  rw [if_neg]
  rintro ⟨⟨hvalid, -⟩, hapart⟩
  have hpos := (hvalid r hr).1
  have := hapart r hr r hm
  unfold Range.Apart at this
  omega

/-- Unmapping what was just mapped succeeds and gives back the allocation. -/
theorem uncommit_commit (h : v.commitRanges rs = some v') : v'.uncommitRanges rs = some v := by
  obtain ⟨⟨hreq, hapart⟩, rfl⟩ := commitRanges_eq_some.mp h
  rw [uncommitRanges_eq_some]
  refine ⟨⟨hreq, fun r hr => by simp [hr]⟩, ?_⟩
  have hdisj : Disjoint v.mappings rs.toFinset := by
    rw [Finset.disjoint_left]
    intro r hm hr
    rw [List.mem_toFinset] at hr
    have hpos := (hreq.1 r hr).1
    have := hapart r hr r hm
    unfold Range.Apart at this
    omega
  cases v
  simp_all [Finset.union_sdiff_cancel_right]

/-- Mapping again what was unmapped gives back the allocation, when it succeeds. -/
theorem commit_uncommit {w : Vmm} (h : v.uncommitRanges rs = some v')
    (h' : v'.commitRanges rs = some w) : w = v := by
  obtain ⟨⟨-, hmem⟩, rfl⟩ := uncommitRanges_eq_some.mp h
  obtain ⟨-, rfl⟩ := commitRanges_eq_some.mp h'
  have hsub : rs.toFinset ⊆ v.mappings := fun r hr => hmem r (List.mem_toFinset.mp hr)
  cases v
  simp_all [Finset.sdiff_union_of_subset]

end Vmm

/-! ## The one thing that fails -/

/-- Which call of a transition raises, counted from where it stands; nothing else is made to
fail, and nothing at all after an exception. -/
inductive Fault where
  | none
  | planner
  | setUsableSlots (calls : Nat)
  | ranges (calls : Nat)
  | syncAllRanks (calls : Nat)
deriving DecidableEq

namespace Fault

/-- One call of `commit_ranges` or `uncommit_ranges`; `none` when it raises. -/
def onRanges : Fault → Option Fault
  | .ranges 0 => Option.none
  | .ranges (calls + 1) => some (.ranges calls)
  | f => some f

/-- One call of `set_usable_slots`. -/
def onSetUsableSlots : Fault → Option Fault
  | .setUsableSlots 0 => Option.none
  | .setUsableSlots (calls + 1) => some (.setUsableSlots calls)
  | f => some f

/-- One call of `sync_all_ranks`. -/
def onSyncAllRanks : Fault → Option Fault
  | .syncAllRanks 0 => Option.none
  | .syncAllRanks (calls + 1) => some (.syncAllRanks calls)
  | f => some f

/-- Several calls of `commit_ranges` or `uncommit_ranges`. -/
def spend : Fault → Nat → Option Fault
  | .ranges calls, n => if calls < n then Option.none else some (.ranges (calls - n))
  | f, _ => some f

theorem spend_zero (f : Fault) : f.spend 0 = some f := by
  cases f <;> simp [spend]

theorem onRanges_eq_spend (f : Fault) : f.onRanges = f.spend 1 := by
  cases f with
  | ranges calls => cases calls <;> simp [spend, onRanges]
  | _ => rfl

theorem spend_add (f : Fault) (m n : Nat) :
    f.spend (m + n) = (f.spend m).bind fun f' => f'.spend n := by
  cases f with
  | ranges calls =>
    by_cases hm : calls < m
    · simp [spend, hm, Nat.lt_add_right n hm]
    · by_cases hn : calls < m + n
      · have : calls - m < n := by omega
        simp [spend, hm, hn, this]
      · have : ¬ calls - m < n := by omega
        simp [spend, hm, hn, this, Nat.sub_add_eq]
  | _ => rfl

/-- Mapping, skipped for no ranges. -/
def commit (f : Fault) (v : Vmm) (rs : List Range) : Option (Fault × Vmm) :=
  if rs = [] then some (f, v)
  else f.onRanges.bind fun f' => (v.commitRanges rs).map fun v' => (f', v')

def uncommit (f : Fault) (v : Vmm) (rs : List Range) : Option (Fault × Vmm) :=
  if rs = [] then some (f, v)
  else f.onRanges.bind fun f' => (v.uncommitRanges rs).map fun v' => (f', v')

end Fault

/-- What a call that may fail in the middle leaves: an exception keeps what was done before. -/
inductive Attempt (σ : Type) where
  | done (f : Fault) (s : σ)
  | raised (s : σ)

/-! ## Several allocations -/

/-- An allocation and the ranges of it that are asked for. -/
abbrev Track := Vmm × List Range

/-- The undo of a failed commit, over what was committed, last one first. A second exception
leaves the rest. -/
def undoEach : List Track → List Vmm
  | [] => []
  | (v, rs) :: rest =>
    match Fault.none.uncommit v rs with
    | some (_, v') => v' :: undoEach rest
    | none => v :: rest.map Prod.fst

/-- Commits one after the other; `committed` are those that are done, last one first. -/
def commitEach (f : Fault) (committed : List Track) : List Track → Attempt (List Vmm)
  | [] => .done f (committed.map Prod.fst).reverse
  | (v, rs) :: rest =>
    match f.commit v rs with
    | some (f', v') => commitEach f' ((v', rs) :: committed) rest
    | none => .raised ((undoEach committed).reverse ++ v :: rest.map Prod.fst)

/-- Uncommits one after the other, without an undo. -/
def uncommitEach (f : Fault) : List Track → Attempt (List Vmm)
  | [] => .done f []
  | (v, rs) :: rest =>
    match f.uncommit v rs with
    | none => .raised (v :: rest.map Prod.fst)
    | some (f', v') =>
      match uncommitEach f' rest with
      | .done f'' vs => .done f'' (v' :: vs)
      | .raised vs => .raised (v' :: vs)

/-! ## What the calls do -/

section Calls

variable {f f' : Fault} {v v' : Vmm} {rs : List Range}

theorem Fault.commit_eq_some (h : f.commit v rs = some (f', v')) :
    if rs = [] then v' = v else v.commitRanges rs = some v' := by
  unfold Fault.commit at h
  split at h
  · simp_all
  · obtain ⟨g, -, h⟩ := Option.bind_eq_some_iff.mp h
    obtain ⟨w, hw, h⟩ := Option.map_eq_some_iff.mp h
    simp_all

theorem Fault.uncommit_eq_some (h : f.uncommit v rs = some (f', v')) :
    if rs = [] then v' = v else v.uncommitRanges rs = some v' := by
  unfold Fault.uncommit at h
  split at h
  · simp_all
  · obtain ⟨g, -, h⟩ := Option.bind_eq_some_iff.mp h
    obtain ⟨w, hw, h⟩ := Option.map_eq_some_iff.mp h
    simp_all

theorem Fault.commit_mappings (h : f.commit v rs = some (f', v')) :
    v' = { v with mappings := v.mappings ∪ rs.toFinset } := by
  have hsome := Fault.commit_eq_some h
  split at hsome
  · rename_i hrs
    rw [hsome, hrs, List.toFinset_nil, Finset.union_empty]
  · exact (Vmm.commitRanges_eq_some.mp hsome).2

theorem Fault.uncommit_mappings (h : f.uncommit v rs = some (f', v')) :
    v' = { v with mappings := v.mappings \ rs.toFinset } := by
  have hsome := Fault.uncommit_eq_some h
  split at hsome
  · rename_i hrs
    rw [hsome, hrs, List.toFinset_nil, Finset.sdiff_empty]
  · exact (Vmm.uncommitRanges_eq_some.mp hsome).2

/-- What is done does not depend on what fails later. -/
theorem Fault.commit_none (h : f.commit v rs = some (f', v')) :
    Fault.none.commit v rs = some (.none, v') := by
  have hsome := Fault.commit_eq_some h
  unfold Fault.commit
  split
  · simp_all
  · simp_all [Fault.onRanges]

/-- The undo of a commit. -/
theorem undo_commit (h : f.commit v rs = some (f', v')) :
    Fault.none.uncommit v' rs = some (.none, v) := by
  have hsome := Fault.commit_eq_some h
  unfold Fault.uncommit
  split
  · simp_all
  · simp_all [Fault.onRanges]
    exact Vmm.uncommit_commit hsome

/-- Undoing a commit, whatever fails elsewhere, gives back the allocation. -/
theorem uncommit_of_commit {g g' : Fault} {w : Vmm} (h : f.commit v rs = some (f', v'))
    (hu : g.uncommit v' rs = some (g', w)) : w = v := by
  have hcommit := Fault.commit_eq_some h
  have huncommit := Fault.uncommit_eq_some hu
  split at huncommit
  · simp_all
  · simp_all only [if_false]
    rw [Vmm.uncommit_commit hcommit, Option.some.injEq] at huncommit
    exact huncommit.symm

/-- What was committed is not there to be committed again. -/
theorem commit_mapped {r : Range} (hr : r ∈ rs) (hm : r ∈ v.mappings) : f.commit v rs = none := by
  unfold Fault.commit
  rw [if_neg (List.ne_nil_of_mem hr), Vmm.commitRanges_mapped hr hm]
  cases f.onRanges <;> rfl

end Calls

/-- An allocation after its ranges were committed. -/
def Committed (t : Track) (v : Vmm) : Prop := Fault.none.commit t.1 t.2 = some (.none, v)

theorem undoEach_committed {ts : List Track} {vs : List Vmm}
    (h : List.Forall₂ Committed ts vs) :
    undoEach (List.zipWith (fun t v => (v, t.2)) ts vs) = ts.map Prod.fst := by
  induction h with
  | nil => rfl
  | cons hc _ ih => simp [undoEach, undo_commit hc, ih]

/-- A commit that went through has committed each. -/
theorem commitEach_done {f f' : Fault} {ts committed : List Track} {vs : List Vmm}
    (h : commitEach f committed ts = .done f' vs) :
    ∃ ws, vs = (committed.map Prod.fst).reverse ++ ws ∧ List.Forall₂ Committed ts ws ∧
      commitEach .none committed ts = .done .none vs := by
  induction ts generalizing f committed with
  | nil =>
    simp only [commitEach, Attempt.done.injEq] at h
    exact ⟨[], by simp [h.2], .nil, by simp [commitEach, h.2]⟩
  | cons t ts ih =>
    obtain ⟨v, rs⟩ := t
    simp only [commitEach] at h
    cases hc : f.commit v rs with
    | none => simp [hc] at h
    | some r =>
      simp only [hc] at h
      obtain ⟨ws, hvs, hall, hnone⟩ := ih h
      have hc' := Fault.commit_none hc
      exact ⟨r.2 :: ws, by simp [hvs], .cons hc' hall, by simp [commitEach, hc', hnone]⟩

/-- A commit that failed left each allocation as it was. -/
theorem commitEach_raised_of {f : Fault} {ts before : List Track} {after vs : List Vmm}
    (hbefore : List.Forall₂ Committed before after)
    (h : commitEach f (List.zipWith (fun t v => (v, t.2)) before after) ts = .raised vs) :
    vs = (before.map Prod.fst).reverse ++ ts.map Prod.fst := by
  induction ts generalizing f before after with
  | nil => simp [commitEach] at h
  | cons t ts ih =>
    obtain ⟨v, rs⟩ := t
    simp only [commitEach] at h
    cases hc : f.commit v rs with
    | none =>
      simp only [hc, Attempt.raised.injEq] at h
      rw [undoEach_committed hbefore] at h
      simp [← h]
    | some r =>
      simp only [hc] at h
      have hcons : List.Forall₂ Committed ((v, rs) :: before) (r.2 :: after) :=
        .cons (Fault.commit_none hc) hbefore
      rw [ih hcons h]
      simp

theorem commitEach_raised {f : Fault} {ts : List Track} {vs : List Vmm}
    (h : commitEach f [] ts = .raised vs) : vs = ts.map Prod.fst := by
  have hnil : List.Forall₂ Committed [] [] := .nil
  simpa using commitEach_raised_of hnil h

theorem exists_of_forall₂ {α β : Type} {R : α → β → Prop} {xs : List α} {ys : List β} {x : α}
    (h : List.Forall₂ R xs ys) (hx : x ∈ xs) : ∃ y ∈ ys, R x y := by
  induction h with
  | nil => cases hx
  | cons hr _ ih =>
    rcases List.mem_cons.mp hx with rfl | hx
    · exact ⟨_, by simp, hr⟩
    · obtain ⟨y, hy, hxy⟩ := ih hx
      exact ⟨y, by simp [hy], hxy⟩

/-- An allocation of which a wanted range is mapped stops the commit. -/
theorem commitEach_mapped {f f' : Fault} {ts : List Track} {vs : List Vmm} {t : Track}
    {r : Range} (ht : t ∈ ts) (hr : r ∈ t.2) (hm : r ∈ t.1.mappings) :
    commitEach f [] ts ≠ .done f' vs := by
  intro h
  obtain ⟨ws, -, hall, -⟩ := commitEach_done h
  obtain ⟨v, -, hv⟩ := exists_of_forall₂ hall ht
  unfold Committed at hv
  rw [commit_mapped hr hm] at hv
  cases hv

/-- An uncommit that went through has uncommitted each. -/
theorem uncommitEach_done {f f' : Fault} {ts : List Track} {vs : List Vmm}
    (h : uncommitEach f ts = .done f' vs) :
    List.Forall₂ (fun t v => ∃ g g', Fault.uncommit g t.1 t.2 = some (g', v)) ts vs := by
  induction ts generalizing f f' vs with
  | nil =>
    simp only [uncommitEach, Attempt.done.injEq] at h
    rw [← h.2]
    exact .nil
  | cons t ts ih =>
    obtain ⟨v, rs⟩ := t
    simp only [uncommitEach] at h
    cases hc : f.uncommit v rs with
    | none => simp [hc] at h
    | some r =>
      simp only [hc] at h
      cases hrest : uncommitEach r.1 ts with
      | raised ws => simp [hrest] at h
      | done g ws =>
        simp only [hrest, Attempt.done.injEq] at h
        rw [h.1] at hrest
        rw [← h.2]
        exact .cons ⟨f, r.1, hc⟩ (ih hrest)

/-- The calls for some tracks: none where there are no ranges. -/
def calls (ts : List Track) : Nat := (ts.filter fun t => t.2 ≠ []).length

theorem calls_cons (t : Track) (ts : List Track) :
    calls (t :: ts) = (if t.2 = [] then 0 else 1) + calls ts := by
  unfold calls
  by_cases h : t.2 = [] <;> simp [h, Nat.add_comm]

theorem calls_reverse (ts : List Track) : calls ts.reverse = calls ts := by
  unfold calls
  rw [List.filter_reverse, List.length_reverse]

/-- Ranges that are mapped can be unmapped; only the fault stops it. -/
theorem Fault.uncommit_spend {t : Track} {v : Vmm}
    (h : Fault.none.uncommit t.1 t.2 = some (.none, v)) (f : Fault) :
    f.uncommit t.1 t.2 = (f.spend (if t.2 = [] then 0 else 1)).map fun f' => (f', v) := by
  have hsome := Fault.uncommit_eq_some h
  unfold Fault.uncommit
  by_cases hrs : t.2 = []
  · rw [if_pos hrs] at hsome
    simp [hrs, hsome, Fault.spend_zero]
  · rw [if_neg hrs] at hsome
    simp only [hrs, if_false, hsome, Option.map_some, Fault.onRanges_eq_spend]
    cases f.spend 1 <;> rfl

/-- Mapped ranges are unmapped when the fault comes later, and not when it comes within. -/
theorem uncommitEach_spend : ∀ {ts : List Track} (f : Fault),
    (∀ t ∈ ts, ∃ v, Fault.none.uncommit t.1 t.2 = some (.none, v)) →
      (f.spend (calls ts) = none → ∃ vs, uncommitEach f ts = .raised vs) ∧
        ∀ f', f.spend (calls ts) = some f' → ∃ vs, uncommitEach f ts = .done f' vs := by
  intro ts
  induction ts with
  | nil =>
    intro f _
    have hzero : f.spend (calls []) = some f := f.spend_zero
    rw [hzero]
    refine ⟨fun h => (Option.some_ne_none f h).elim, fun f' h => ⟨[], ?_⟩⟩
    rw [uncommitEach, Option.some.inj h]
  | cons t ts ih =>
    intro f hts
    obtain ⟨v, rs⟩ := t
    obtain ⟨v', hv⟩ := hts (v, rs) (by simp)
    have hone := Fault.uncommit_spend hv f
    simp only at hone
    rw [calls_cons, Fault.spend_add, uncommitEach, hone]
    simp only
    cases hspend : f.spend (if rs = [] then 0 else 1) with
    | none =>
      refine ⟨fun _ => ⟨v :: ts.map Prod.fst, rfl⟩, fun f' h => ?_⟩
      rw [Option.bind_none] at h
      cases h
    | some g =>
      simp only [Option.bind_some, Option.map_some]
      obtain ⟨hnone, hsome⟩ := ih g fun t ht => hts t (by simp [ht])
      refine ⟨fun h => ?_, fun f' h => ?_⟩
      · obtain ⟨vs, hvs⟩ := hnone h
        exact ⟨v' :: vs, by rw [hvs]⟩
      · obtain ⟨vs, hvs⟩ := hsome f' h
        exact ⟨v' :: vs, by rw [hvs]⟩

/-- An uncommit that failed left the allocation it failed on, and those behind it. -/
theorem uncommitEach_raised {f : Fault} {ts : List Track} {vs : List Vmm}
    (h : uncommitEach f ts = .raised vs) :
    ∃ (i : Nat) (t : Track), ts[i]? = some t ∧ vs[i]? = some t.1 ∧ t.2 ≠ [] ∧ vs.length = ts.length := by
  induction ts generalizing f vs with
  | nil => simp [uncommitEach] at h
  | cons t ts ih =>
    obtain ⟨v, rs⟩ := t
    simp only [uncommitEach] at h
    cases hc : f.uncommit v rs with
    | none =>
      simp only [hc, Attempt.raised.injEq] at h
      refine ⟨0, (v, rs), rfl, by simp [← h], ?_, by simp [← h]⟩
      intro hrs
      simp only at hrs
      simp [Fault.uncommit, hrs] at hc
    | some r =>
      simp only [hc] at h
      cases hrest : uncommitEach r.1 ts with
      | done g ws => simp [hrest] at h
      | raised ws =>
        simp only [hrest, Attempt.raised.injEq] at h
        obtain ⟨i, t, hts, hvs, hne, hlen⟩ := ih hrest
        exact ⟨i + 1, t, by simpa using hts, by simpa [← h] using hvs, hne, by simp [← h, hlen]⟩

end FreeToken.Growable
