import Mathlib.Data.List.Basic
import Mathlib.Data.List.Nodup
import Mathlib.Data.List.Perm.Subperm

/-!
# Parent pointers

A forest given by a parent function: a root has none, and `UpPath parent a l`
says that following the pointers from `a` visits exactly `l` (nearest first, `a`
itself included) before it stops at a root. The relation is inductive, so a node
that has an `UpPath` lies on no cycle.

Two mutations keep the paths of the nodes already there:

* a pointer that changes only outside the path (`UpPath.congr`);
* a node `s` put in the middle of the edge above `n` (`UpPath.splice`), after
  which every path through `n` visits `s` right after it.

`climb` computes the path; `climb_eq` says that a bound on the number of nodes is
fuel enough. `upTo` is the front of a path, up to its first marked node; a splice
whose new node takes over the mark splices the front too (`upTo_spliced`).
-/

namespace FreeToken.Lib

variable {α : Type*}

/-- `l` is `a` and its ancestors up to, but without, the root. -/
inductive UpPath (parent : α → Option α) : α → List α → Prop
  | root {r : α} (h : parent r = none) : UpPath parent r []
  | cons {a p : α} {l : List α} (h : parent a = some p) (hp : UpPath parent p l) :
      UpPath parent a (a :: l)

namespace UpPath

variable {parent parent' : α → Option α} {a b n s : α} {l l' : List α}

theorem unique (h : UpPath parent a l) (h' : UpPath parent a l') : l = l' := by
  induction h generalizing l' with
  | root hr =>
    cases h' with
    | root _ => rfl
    | cons hp _ => rw [hr] at hp; cases hp
  | cons ha _ ih =>
    cases h' with
    | root hr => rw [hr] at ha; cases ha
    | cons ha' hp' =>
      rw [ha, Option.some.injEq] at ha'
      subst ha'
      rw [ih hp']

/-- The path of an ancestor is the rest of the path. -/
theorem of_mem (h : UpPath parent a l) (hb : b ∈ l) : ∃ l', UpPath parent b l' ∧ l' <:+ l := by
  induction h with
  | root _ => cases hb
  | cons ha hp ih =>
    rcases List.mem_cons.mp hb with rfl | hb
    · exact ⟨_, .cons ha hp, List.suffix_refl _⟩
    · obtain ⟨l', hl', hsuf⟩ := ih hb
      exact ⟨l', hl', hsuf.trans (List.suffix_cons _ _)⟩

theorem parent_ne_none_of_mem (h : UpPath parent a l) (hb : b ∈ l) : parent b ≠ none := by
  induction h with
  | root _ => cases hb
  | cons ha _ ih =>
    rcases List.mem_cons.mp hb with rfl | hb
    · rw [ha]
      nofun
    · exact ih hb

theorem mem_self (h : UpPath parent a l) (ha : parent a ≠ none) : a ∈ l := by
  cases h with
  | root hr => exact absurd hr ha
  | cons _ _ => exact List.mem_cons_self

theorem nodup (h : UpPath parent a l) : l.Nodup := by
  induction h with
  | root _ => exact List.nodup_nil
  | @cons a p l ha hp ih =>
    refine List.nodup_cons.mpr ⟨fun hmem => ?_, ih⟩
    -- the path of `a` would be a suffix of the shorter path of its parent
    obtain ⟨l', hl', hsuf⟩ := hp.of_mem hmem
    have hlen := hsuf.length_le
    rw [← (cons ha hp).unique hl', List.length_cons] at hlen
    omega

/-- Whoever has `b` above it has everything above `b` above it. -/
theorem mem_trans (h : UpPath parent a l) (hb : b ∈ l) (h' : UpPath parent b l') {c : α}
    (hc : c ∈ l') : c ∈ l := by
  obtain ⟨lb, hlb, hsuf⟩ := h.of_mem hb
  rw [h'.unique hlb] at hc
  exact hsuf.subset hc

/-- A property that passes from a node to its parent holds on the whole path. -/
theorem forall_mem {P : α → Prop} (h : UpPath parent a l) (ha : parent a ≠ none → P a)
    (hstep : ∀ c p, P c → parent c = some p → parent p ≠ none → P p) : ∀ c ∈ l, P c := by
  induction h with
  | root _ => exact fun c hc => absurd hc List.not_mem_nil
  | @cons a p l hap hp ih =>
    have hPa : P a := ha (by rw [hap]; nofun)
    intro c hc
    rcases List.mem_cons.mp hc with rfl | hc
    · exact hPa
    · exact ih (fun hne => hstep a p hPa hap hne) c hc

theorem length_le {N : Nat} {a : Nat} {parent : Nat → Option Nat} {l : List Nat}
    (h : UpPath parent a l) (hlt : ∀ c ∈ l, c < N) : l.length ≤ N := by
  have hsub : l ⊆ List.range N := fun c hc => List.mem_range.mpr (hlt c hc)
  have hle := (List.subperm_of_subset h.nodup hsub).length_le
  rwa [List.length_range] at hle

theorem congr (h : UpPath parent a l) (hroot : ∀ r, parent r = none → parent' r = none)
    (hsame : ∀ c ∈ l, parent' c = parent c) : UpPath parent' a l := by
  induction h with
  | root hr => exact .root (hroot _ hr)
  | @cons a p l ha _ ih =>
    refine .cons (p := p) ?_ (ih fun c hc => hsame c (List.mem_cons_of_mem _ hc))
    rw [hsame a List.mem_cons_self, ha]

/-- `s` put between `n` and its parent: the paths through `n` gain `s`. -/
theorem splice [DecidableEq α] (h : UpPath parent a l) (hs : s ≠ a) (hsp : ∀ c ∈ l, parent c ≠ some s)
    (hs' : parent' s = parent n) (hn' : parent' n = some s)
    (hother : ∀ c, c ≠ s → c ≠ n → parent' c = parent c) (hn : parent n ≠ none) :
    UpPath parent' a (l.flatMap fun c => if c = n then [n, s] else [c]) := by
  induction h with
  | @root r hr =>
    have hrn : r ≠ n := fun he => hn (he ▸ hr)
    exact .root ((hother r hs.symm hrn).trans hr)
  | @cons a p l ha hp ih =>
    have hps : s ≠ p := fun he => hsp a List.mem_cons_self (he ▸ ha)
    have ih := ih hps fun c hc => hsp c (List.mem_cons_of_mem _ hc)
    rw [List.flatMap_cons]
    by_cases han : a = n
    · subst han
      rw [if_pos rfl]
      exact .cons hn' (.cons (hs'.trans ha) ih)
    · rw [if_neg han]
      exact .cons ((hother a hs.symm han).trans ha) ih

end UpPath

theorem mem_spliced [DecidableEq α] {l : List α} {n s b : α} :
    b ∈ (l.flatMap fun c => if c = n then [n, s] else [c]) ↔ b ∈ l ∨ (b = s ∧ n ∈ l) := by
  rw [List.mem_flatMap]
  constructor
  · rintro ⟨c, hc, hb⟩
    split at hb
    · rename_i hcn
      subst hcn
      rcases List.mem_cons.mp hb with rfl | hb
      · exact .inl hc
      · exact .inr ⟨List.mem_singleton.mp hb, hc⟩
    · rw [List.mem_singleton.mp hb]
      exact .inl hc
  · rintro (hb | ⟨rfl, hn⟩)
    · refine ⟨b, hb, ?_⟩
      split
      · rename_i hbn
        rw [hbn]
        exact List.mem_cons_self
      · exact List.mem_singleton_self b
    · exact ⟨n, hn, by simp⟩

/-- A splice divides what `n` stands for between `s`, which comes first from the root, and `n`. -/
theorem flatMap_spliced [DecidableEq α] {β : Type*} {l : List α} {n s : α} {g g' : α → List β}
    (hn : n ∈ l → g' s ++ g' n = g n) (hother : ∀ c ∈ l, c ≠ n → g' c = g c) :
    (l.flatMap fun c => if c = n then [n, s] else [c]).reverse.flatMap g' =
      l.reverse.flatMap g := by
  induction l with
  | nil => rfl
  | cons c l ih =>
    have ih := ih (fun h => hn (List.mem_cons_of_mem _ h))
      fun d hd => hother d (List.mem_cons_of_mem _ hd)
    rw [List.flatMap_cons, List.reverse_append, List.flatMap_append, ih, List.reverse_cons,
      List.flatMap_append, List.flatMap_singleton]
    congr 1
    by_cases hcn : c = n
    · subst hcn
      rw [if_pos rfl, List.reverse_cons, List.reverse_singleton, List.flatMap_append,
        List.flatMap_singleton, List.flatMap_singleton]
      exact hn List.mem_cons_self
    · rw [if_neg hcn, List.reverse_singleton, List.flatMap_singleton,
        hother c List.mem_cons_self hcn]

-- ---------------------------------------------------------------------------
-- The front of a path
-- ---------------------------------------------------------------------------

/-- The front of a list up to, and with, the first entry that `p` marks. -/
def upTo (p : α → Bool) : List α → List α
  | [] => []
  | a :: l => if p a then [a] else a :: upTo p l

section upTo

variable {p p' : α → Bool} {l l' : List α} {a b : α}

theorem upTo_prefixed (p : α → Bool) (l : List α) : upTo p l <+: l := by
  induction l with
  | nil => exact List.prefix_refl _
  | cons a l ih =>
    rw [upTo]
    split
    · exact ⟨l, rfl⟩
    · exact (List.prefix_cons_inj a).mpr ih

theorem mem_of_mem_upTo (h : a ∈ upTo p l) : a ∈ l := (upTo_prefixed p l).subset h

theorem upTo_congr (h : ∀ a ∈ l, p' a = p a) : upTo p' l = upTo p l := by
  induction l with
  | nil => rfl
  | cons a l ih =>
    rw [upTo, upTo, h a List.mem_cons_self, ih fun b hb => h b (List.mem_cons_of_mem _ hb)]

theorem upTo_eq_self (h : ∀ a ∈ l, p a = false) : upTo p l = l := by
  induction l with
  | nil => rfl
  | cons a l ih =>
    rw [upTo, h a List.mem_cons_self, if_neg Bool.false_ne_true,
      ih fun b hb => h b (List.mem_cons_of_mem _ hb)]

/-- The front ends at `b` when nothing before `b` is marked. -/
theorem upTo_append_cons (h : ∀ a ∈ l, p a = false) (hb : p b = true) :
    upTo p (l ++ b :: l') = l ++ [b] := by
  induction l with
  | nil => rw [List.nil_append, upTo, if_pos hb, List.nil_append]
  | cons a l ih =>
    rw [List.cons_append, upTo, h a List.mem_cons_self, if_neg Bool.false_ne_true,
      ih fun c hc => h c (List.mem_cons_of_mem _ hc), List.cons_append]

/-- The only marked entry is in the front. -/
theorem mem_upTo_of_unique (hb : b ∈ l) (h : ∀ a ∈ l, p a = true → a = b) : b ∈ upTo p l := by
  induction l with
  | nil => cases hb
  | cons a l ih =>
    rw [upTo]
    split
    · rename_i ha
      rw [h a List.mem_cons_self ha]
      exact List.mem_singleton_self b
    · rcases List.mem_cons.mp hb with rfl | hb
      · exact List.mem_cons_self
      · exact List.mem_cons_of_mem _ (ih hb fun c hc => h c (List.mem_cons_of_mem _ hc))

/-- A node `s` put right after `n` takes over its mark. -/
theorem upTo_spliced [DecidableEq α] {n s : α} (hn : p' n = false) (hs : p' s = p n)
    (hother : ∀ a ∈ l, a ≠ n → p' a = p a) :
    upTo p' (l.flatMap fun c => if c = n then [n, s] else [c]) =
      (upTo p l).flatMap fun c => if c = n then [n, s] else [c] := by
  induction l with
  | nil => rfl
  | cons a l ih =>
    have ih := ih fun b hb => hother b (List.mem_cons_of_mem _ hb)
    rw [List.flatMap_cons]
    by_cases ha : a = n
    · subst ha
      rw [if_pos rfl, List.cons_append, List.singleton_append, upTo, hn,
        if_neg Bool.false_ne_true, upTo, upTo, hs]
      split
      · rw [List.flatMap_singleton, if_pos rfl]
      · rw [ih, List.flatMap_cons, if_pos rfl]
        rfl
    · rw [if_neg ha, List.singleton_append, upTo, upTo, hother a List.mem_cons_self ha]
      split
      · rw [List.flatMap_singleton, if_neg ha]
      · rw [ih, List.flatMap_cons, if_neg ha]
        rfl

end upTo

/-- Follow the parent pointers for at most `fuel` nodes. -/
def climb (parent : α → Option α) : Nat → α → List α
  | 0, _ => []
  | fuel + 1, a =>
    match parent a with
    | none => []
    | some p => a :: climb parent fuel p

theorem climb_eq {parent : α → Option α} {a : α} {l : List α} (h : UpPath parent a l) :
    ∀ {fuel : Nat}, l.length ≤ fuel → climb parent fuel a = l := by
  induction h with
  | root hr =>
    intro fuel _
    cases fuel with
    | zero => rfl
    | succ f => rw [climb, hr]
  | cons ha _ ih =>
    intro fuel hf
    cases fuel with
    | zero => cases hf
    | succ f =>
      rw [climb, ha]
      show _ :: climb parent f _ = _
      rw [ih (Nat.le_of_succ_le_succ hf)]

end FreeToken.Lib
