import FreeToken.KvCache.RadixTree

/-!
# The tree invariant

`RadixTree.Wf` says what every operation of the prefix caches keeps: the nodes
hang below the root, siblings differ in their first page, keys are whole pages,
and a snapshot slot belongs to one linked node.

## Results

* `wf_empty`, `Wf.congr`, `Wf.splitAt`, `Wf.addLeaf`, `Wf.unlink` — the mutations
  keep it;
* `mem_rootPath_splitAt` — after a split, whoever has the old node on its way to
  the root has the new one there too.
-/

namespace FreeToken.KvCache

open FreeToken.Lib

namespace RadixTree

def InTree (t : RadixTree) (n : NodeId) : Prop := n = root ∨ (t.node n).linked = true

structure Wf (t : RadixTree) : Prop where
  page_pos : 0 < t.pageSize
  root_lt : root < t.next
  root_parent : (t.node root).parent = none
  orphan : ∀ n < t.next, (t.node n).parent = none → n = root
  parent_lt : ∀ n p, (t.node n).parent = some p → n < t.next ∧ p < t.next
  path : ∀ n, ∃ l, UpPath (fun m => (t.node m).parent) n l
  linked_parent : ∀ n, (t.node n).linked = true →
    ∃ p, (t.node n).parent = some p ∧ t.InTree p
  key_pages : ∀ n, (t.node n).linked = true →
    0 < (t.node n).key.length ∧ t.pageSize ∣ (t.node n).key.length
  key_value : ∀ n, (t.node n).linked = true → (t.node n).value.length = (t.node n).key.length
  child_unique : ∀ a b, (t.node a).linked = true → (t.node b).linked = true →
    (t.node a).parent = (t.node b).parent →
    (t.node a).key.take t.pageSize = (t.node b).key.take t.pageSize → a = b
  snapshot_linked : ∀ n s, (t.node n).mambaValue = some s → (t.node n).linked = true
  snapshot_inj : ∀ a b s, (t.node a).mambaValue = some s → (t.node b).mambaValue = some s → a = b

theorem empty_node (ps : Nat) (n : NodeId) :
    (empty ps).node n = if n = 0 then { refCount := 1 } else {} := rfl

theorem wf_empty {ps : Nat} (hps : 0 < ps) : (empty ps).Wf := by
  have hparent : ∀ n, ((empty ps).node n).parent = none := fun n => by
    rw [empty_node]; split <;> rfl
  have hlinked : ∀ n, ((empty ps).node n).linked = false := fun n => by
    rw [empty_node]; split <;> rfl
  have hsnap : ∀ n, ((empty ps).node n).mambaValue = none := fun n => by
    rw [empty_node]; split <;> rfl
  have unlinked : ∀ {P : Prop} n, ((empty ps).node n).linked = true → P := fun n h => by
    rw [hlinked] at h; cases h
  refine
    { page_pos := hps, root_lt := Nat.one_pos, root_parent := hparent _,
      orphan := fun n hn _ => Nat.lt_one_iff.mp hn,
      parent_lt := fun n p h => ?_, path := fun n => ⟨[], .root (hparent n)⟩,
      linked_parent := fun n h => unlinked n h, key_pages := fun n h => unlinked n h,
      key_value := fun n h => unlinked n h, child_unique := fun a _ h => unlinked a h,
      snapshot_linked := fun n s h => ?_, snapshot_inj := fun a _ s h => ?_ }
  · rw [hparent] at h; cases h
  · rw [hsnap] at h; cases h
  · rw [hsnap] at h; cases h

-- ---------------------------------------------------------------------------
-- Mutations that leave the shape alone
-- ---------------------------------------------------------------------------

/-- The two trees hold the same keys and pages at the same places. -/
structure SameShape (t t' : RadixTree) : Prop where
  pageSize : t'.pageSize = t.pageSize
  next : t'.next = t.next
  parent : ∀ n, (t'.node n).parent = (t.node n).parent
  linked : ∀ n, (t'.node n).linked = (t.node n).linked
  key : ∀ n, (t'.node n).key = (t.node n).key
  value : ∀ n, (t'.node n).value = (t.node n).value

namespace SameShape

variable {t t' t'' : RadixTree}

theorem refl (t : RadixTree) : SameShape t t :=
  ⟨rfl, rfl, fun _ => rfl, fun _ => rfl, fun _ => rfl, fun _ => rfl⟩

theorem symm (h : SameShape t t') : SameShape t' t :=
  ⟨h.pageSize.symm, h.next.symm, fun n => (h.parent n).symm, fun n => (h.linked n).symm,
    fun n => (h.key n).symm, fun n => (h.value n).symm⟩

theorem trans (h : SameShape t t') (h' : SameShape t' t'') : SameShape t t'' where
  pageSize := h'.pageSize.trans h.pageSize
  next := h'.next.trans h.next
  parent := fun n => (h'.parent n).trans (h.parent n)
  linked := fun n => (h'.linked n).trans (h.linked n)
  key := fun n => (h'.key n).trans (h.key n)
  value := fun n => (h'.value n).trans (h.value n)

theorem modify (t : RadixTree) (n : NodeId) {f : Node → Node}
    (hp : ∀ x, (f x).parent = x.parent) (hl : ∀ x, (f x).linked = x.linked)
    (hk : ∀ x, (f x).key = x.key) (hv : ∀ x, (f x).value = x.value) :
    SameShape t (t.modify n f) :=
  ⟨rfl, rfl, fun m => modify_field t n m _ hp, fun m => modify_field t n m _ hl,
    fun m => modify_field t n m _ hk, fun m => modify_field t n m _ hv⟩

theorem stamp (t : RadixTree) (n : NodeId) (tic : Time) : SameShape t (t.stamp n tic) :=
  modify t n (fun _ => rfl) (fun _ => rfl) (fun _ => rfl) fun _ => rfl

theorem childOf_eq (h : SameShape t t') (p : NodeId) (toks : List Token) :
    t'.childOf p toks = t.childOf p toks := by
  simp only [childOf, h.next, h.linked, h.parent, h.key, h.pageSize]

theorem isLeaf_eq (h : SameShape t t') (n : NodeId) : t'.isLeaf n = t.isLeaf n := by
  simp only [isLeaf, h.next, h.linked, h.parent]

theorem rootPath_eq (h : SameShape t t') (n : NodeId) : t'.rootPath n = t.rootPath n := by
  simp only [rootPath, h.next, h.parent]

theorem pathLen_eq (h : SameShape t t') (n : NodeId) : t'.pathLen n = t.pathLen n := by
  simp only [pathLen, Node.length, h.rootPath_eq, h.key]

theorem collectKv_eq (h : SameShape t t') (n : NodeId) : t'.collectKv n = t.collectKv n := by
  simp only [collectKv, h.rootPath_eq, h.value]

theorem pathTokens_eq (h : SameShape t t') (n : NodeId) : t'.pathTokens n = t.pathTokens n := by
  simp only [pathTokens, h.rootPath_eq, h.key]

theorem inTree_iff (h : SameShape t t') (n : NodeId) : t'.InTree n ↔ t.InTree n := by
  rw [InTree, InTree, h.linked]

end SameShape

/-- A mutation that leaves the keys where they are only has to keep the snapshots in order. -/
theorem Wf.of_sameKeys {t t' : RadixTree} (h : t.Wf) (hps : t'.pageSize = t.pageSize)
    (hnext : t'.next = t.next) (hparent : ∀ n, (t'.node n).parent = (t.node n).parent)
    (hlink : ∀ n, (t'.node n).linked = (t.node n).linked)
    (hkey : ∀ n, (t'.node n).key = (t.node n).key)
    (hvalue : ∀ n, (t'.node n).value.length = (t.node n).value.length)
    (hlinked : ∀ n s, (t'.node n).mambaValue = some s → (t.node n).linked = true)
    (hinj : ∀ a b s, (t'.node a).mambaValue = some s → (t'.node b).mambaValue = some s → a = b) :
    t'.Wf where
  page_pos := by rw [hps]; exact h.page_pos
  root_lt := by rw [hnext]; exact h.root_lt
  root_parent := by rw [hparent]; exact h.root_parent
  orphan := by
    intro n hn hp
    rw [hnext] at hn
    rw [hparent] at hp
    exact h.orphan n hn hp
  parent_lt := by
    intro n p hp
    rw [hparent] at hp
    rw [hnext]
    exact h.parent_lt n p hp
  path := by
    intro n
    simp only [hparent]
    exact h.path n
  linked_parent := by
    intro n hn
    rw [hlink] at hn
    obtain ⟨p, hp, ht⟩ := h.linked_parent n hn
    refine ⟨p, by rw [hparent, hp], ?_⟩
    rw [InTree, hlink]
    exact ht
  key_pages := by
    intro n hn
    rw [hlink] at hn
    rw [hkey, hps]
    exact h.key_pages n hn
  key_value := by
    intro n hn
    rw [hlink] at hn
    rw [hkey, hvalue]
    exact h.key_value n hn
  child_unique := by
    intro a b ha hb hp hk
    rw [hlink] at ha hb
    rw [hparent, hparent] at hp
    rw [hkey, hkey, hps] at hk
    exact h.child_unique a b ha hb hp hk
  snapshot_linked := by
    intro n s hn
    rw [hlink]
    exact hlinked n s hn
  snapshot_inj := hinj

theorem Wf.of_sameShape {t t' : RadixTree} (h : t.Wf) (hs : SameShape t t')
    (hlinked : ∀ n s, (t'.node n).mambaValue = some s → (t.node n).linked = true)
    (hinj : ∀ a b s, (t'.node a).mambaValue = some s → (t'.node b).mambaValue = some s → a = b) :
    t'.Wf :=
  h.of_sameKeys hs.pageSize hs.next hs.parent hs.linked hs.key
    (fun n => congrArg List.length (hs.value n)) hlinked hinj

/-- A mutation that keeps the shape and attaches no snapshot keeps the invariant. -/
theorem Wf.congr {t t' : RadixTree} (h : t.Wf) (hs : SameShape t t')
    (hsnap : ∀ n s, (t'.node n).mambaValue = some s → (t.node n).mambaValue = some s) : t'.Wf :=
  h.of_sameShape hs (fun n s hn => h.snapshot_linked n s (hsnap n s hn))
    fun a b s ha hb => h.snapshot_inj a b s (hsnap a s ha) (hsnap b s hb)

theorem Wf.stamp {t : RadixTree} (h : t.Wf) (n : NodeId) (tic : Time) : (t.stamp n tic).Wf :=
  h.congr (.stamp t n tic) fun m _ hm => by
    have heq : ((t.stamp n tic).node m).mambaValue = (t.node m).mambaValue :=
      modify_field t n m Node.mambaValue fun _ => rfl
    rwa [heq] at hm

-- ---------------------------------------------------------------------------
-- Paths
-- ---------------------------------------------------------------------------

section paths

variable {t : RadixTree} {n p b : NodeId}

theorem Wf.linked_lt (h : t.Wf) (hn : (t.node n).linked = true) : n < t.next := by
  obtain ⟨p, hp, -⟩ := h.linked_parent n hn
  exact (h.parent_lt n p hp).1

theorem Wf.inTree_lt (h : t.Wf) (hn : t.InTree n) : n < t.next := by
  rcases hn with rfl | hn
  · exact h.root_lt
  · exact h.linked_lt hn

theorem Wf.root_not_linked (h : t.Wf) : (t.node root).linked ≠ true := by
  intro hl
  obtain ⟨p, hp, -⟩ := h.linked_parent root hl
  rw [h.root_parent] at hp
  cases hp

theorem Wf.linked_ne_root (h : t.Wf) (hn : (t.node n).linked = true) : n ≠ root := by
  rintro rfl
  exact h.root_not_linked hn

theorem Wf.upPath (h : t.Wf) (n : NodeId) :
    UpPath (fun m => (t.node m).parent) n (t.rootPath n) := by
  obtain ⟨l, hl⟩ := h.path n
  have hlt : ∀ c ∈ l, c < t.next := by
    intro c hc
    have hne := hl.parent_ne_none_of_mem hc
    obtain ⟨p, hp⟩ := Option.ne_none_iff_exists'.mp hne
    exact (h.parent_lt c p hp).1
  rw [rootPath, climb_eq hl (hl.length_le hlt)]
  exact hl

theorem Wf.rootPath_root (h : t.Wf) : t.rootPath root = [] :=
  (h.upPath root).unique (.root h.root_parent)

theorem Wf.rootPath_cons (h : t.Wf) (hp : (t.node n).parent = some p) :
    t.rootPath n = n :: t.rootPath p :=
  (h.upPath n).unique (.cons hp (h.upPath p))

theorem Wf.parent_ne_self (h : t.Wf) (n : NodeId) : (t.node n).parent ≠ some n := by
  intro hp
  have hlen := congrArg List.length (h.rootPath_cons hp)
  rw [List.length_cons] at hlen
  omega

theorem Wf.mem_rootPath_self (h : t.Wf) (hn : n < t.next) (hr : n ≠ root) : n ∈ t.rootPath n :=
  (h.upPath n).mem_self fun hp => hr (h.orphan n hn hp)

theorem Wf.mem_rootPath_lt (h : t.Wf) (hb : b ∈ t.rootPath n) : b < t.next ∧ b ≠ root := by
  have hne := (h.upPath n).parent_ne_none_of_mem hb
  obtain ⟨p, hp⟩ := Option.ne_none_iff_exists'.mp hne
  refine ⟨(h.parent_lt b p hp).1, ?_⟩
  rintro rfl
  exact hne h.root_parent

/-- Whatever is above a linked node is linked. -/
theorem Wf.linked_of_mem_rootPath (h : t.Wf) (hn : t.InTree n) :
    ∀ b ∈ t.rootPath n, (t.node b).linked = true := by
  have key : ∀ c q, (t.node c).linked = true → (t.node c).parent = some q →
      (t.node q).parent ≠ none → (t.node q).linked = true := by
    intro c q hc hq hne
    obtain ⟨q', hq', ht⟩ := h.linked_parent c hc
    rw [hq, Option.some.injEq] at hq'
    subst hq'
    rcases ht with rfl | ht
    · exact absurd h.root_parent hne
    · exact ht
  refine (h.upPath n).forall_mem (fun hne => ?_) key
  rcases hn with rfl | hn
  · exact absurd h.root_parent hne
  · exact hn

theorem Wf.childOf_eq_some_iff (h : t.Wf) {toks : List Token} {c : NodeId} :
    t.childOf p toks = some c ↔ (t.node c).linked = true ∧ (t.node c).parent = some p ∧
      (t.node c).key.take t.pageSize = toks.take t.pageSize := by
  constructor
  · intro hc
    have hspec := List.find?_some hc
    simp only [Bool.and_eq_true, beq_iff_eq] at hspec
    exact ⟨hspec.1.1, hspec.1.2, hspec.2⟩
  · rintro ⟨hl, hp, hk⟩
    have hmem : c ∈ List.range t.next := List.mem_range.mpr (h.linked_lt hl)
    have hsat : ((t.node c).linked && (t.node c).parent == some p &&
        (t.node c).key.take t.pageSize == toks.take t.pageSize) = true := by
      simp [hl, hp, hk]
    obtain ⟨d, hd⟩ := Option.isSome_iff_exists.mp
      (List.find?_isSome (p := fun c => (t.node c).linked && (t.node c).parent == some p &&
        (t.node c).key.take t.pageSize == toks.take t.pageSize) |>.mpr ⟨c, hmem, hsat⟩)
    have hspec := List.find?_some hd
    simp only [Bool.and_eq_true, beq_iff_eq] at hspec
    have hdc : d = c := h.child_unique d c hspec.1.1 hl (hspec.1.2.trans hp.symm)
      (hspec.2.trans hk.symm)
    rw [childOf, hd, hdc]

theorem isLeaf_iff : t.isLeaf n = true ↔
    ∀ c < t.next, (t.node c).linked = true → (t.node c).parent ≠ some n := by
  simp only [isLeaf, List.all_eq_true, List.mem_range, Bool.not_eq_true', Bool.and_eq_false_iff,
    beq_eq_false_iff_ne]
  constructor
  · intro hall c hc hl hp
    rcases hall c hc with h | h
    · rw [hl] at h; cases h
    · exact h hp
  · intro hall c hc
    by_cases hl : (t.node c).linked = true
    · exact .inr (hall c hc hl)
    · exact .inl (Bool.eq_false_iff.mpr hl)

/-- A node with a linked node below it is no leaf. -/
theorem Wf.not_leaf_of_above (h : t.Wf) (hn : (t.node n).linked = true) {m : NodeId}
    (hm : m ∈ t.rootPath n) (hne : m ≠ n) : t.isLeaf m = false := by
  have hlinked := h.linked_of_mem_rootPath (.inr hn)
  have hup := h.upPath n
  generalize t.rootPath n = l at hm hup hlinked
  induction hup with
  | root _ => cases hm
  | @cons a p l ha hp ih =>
    have hal := hlinked a List.mem_cons_self
    have hml := (List.mem_cons.mp hm).resolve_left hne
    by_cases hmp : m = p
    · rw [hmp]
      refine Bool.eq_false_iff.mpr fun hleaf => ?_
      exact isLeaf_iff.mp hleaf a (h.linked_lt hal) hal ha
    · have hpl : (t.node p).linked = true := by
        refine hlinked p (List.mem_cons_of_mem _ (hp.mem_self ?_))
        intro hnone
        cases hp with
        | root _ => cases hml
        | cons hq _ => exact absurd (hnone.symm.trans hq) (by nofun)
      exact ih hpl hmp hml fun b hb => hlinked b (List.mem_cons_of_mem _ hb)

end paths

-- ---------------------------------------------------------------------------
-- Splits, leaves, unlinking
-- ---------------------------------------------------------------------------

section mutations

variable {t : RadixTree} {n p : NodeId}

/-- What a split needs: an inner page boundary of a linked node. -/
structure SplitOk (t : RadixTree) (n : NodeId) (pos : Nat) : Prop where
  linked : (t.node n).linked = true
  pos_pos : 0 < pos
  pos_lt : pos < (t.node n).key.length
  pages : t.pageSize ∣ pos

theorem splitAt_linked (t : RadixTree) (n : NodeId) (pos : Nat) (hn : n ≠ t.next) (c : NodeId) :
    ((t.splitAt n pos).1.node c).linked = true ↔ c = t.next ∨ (t.node c).linked = true := by
  by_cases hs : c = t.next
  · subst hs
    rw [splitAt_prefixLen]
    exact ⟨fun _ => .inl rfl, fun _ => rfl⟩
  · by_cases hc : c = n
    · subst hc
      rw [splitAt_suffix t c pos hn]
      exact ⟨.inr, fun h => h.resolve_left hs⟩
    · rw [splitAt_old t n c pos hc hs]
      exact ⟨.inr, fun h => h.resolve_left hs⟩

theorem splitAt_parent (t : RadixTree) (n : NodeId) (pos : Nat) (hn : n ≠ t.next) (c : NodeId) :
    ((t.splitAt n pos).1.node c).parent =
      if c = t.next then (t.node n).parent else if c = n then some t.next
      else (t.node c).parent := by
  by_cases hs : c = t.next
  · subst hs
    rw [splitAt_prefixLen, if_pos rfl]
  · rw [if_neg hs]
    by_cases hc : c = n
    · subst hc
      rw [splitAt_suffix t c pos hn, if_pos rfl]
    · rw [splitAt_old t n c pos hc hs, if_neg hc]

theorem splitAt_mambaValue (t : RadixTree) (n : NodeId) (pos : Nat) (hn : n ≠ t.next) (c : NodeId) :
    ((t.splitAt n pos).1.node c).mambaValue =
      if c = t.next then none else (t.node c).mambaValue := by
  by_cases hs : c = t.next
  · subst hs
    rw [splitAt_prefixLen, if_pos rfl]
  · rw [if_neg hs]
    by_cases hc : c = n
    · subst hc
      rw [splitAt_suffix t c pos hn]
    · rw [splitAt_old t n c pos hc hs]

/-- The paths after a split: those through `n` gain the new node. -/
theorem Wf.upPath_splitAt (h : t.Wf) {pos : Nat} (hsp : t.SplitOk n pos) {a : NodeId}
    (ha : a ≠ t.next) :
    UpPath (fun m => ((t.splitAt n pos).1.node m).parent) a
      ((t.rootPath a).flatMap fun c => if c = n then [n, t.next] else [c]) := by
  have hlt := h.linked_lt hsp.linked
  have hn : n ≠ t.next := Nat.ne_of_lt hlt
  refine (h.upPath a).splice ha.symm (fun c _ hc => ?_) ?_ ?_ ?_ ?_
  · exact absurd (h.parent_lt c _ hc).2 (Nat.lt_irrefl _)
  · show ((t.splitAt n pos).1.node t.next).parent = (t.node n).parent
    rw [splitAt_parent t n pos hn, if_pos rfl]
  · show ((t.splitAt n pos).1.node n).parent = some t.next
    rw [splitAt_parent t n pos hn, if_neg hn, if_pos rfl]
  · intro c hcs hcn
    show ((t.splitAt n pos).1.node c).parent = (t.node c).parent
    rw [splitAt_parent t n pos hn, if_neg hcs, if_neg hcn]
  · obtain ⟨q, hq, -⟩ := h.linked_parent n hsp.linked
    show (t.node n).parent ≠ none
    rw [hq]
    nofun

theorem take_take_of_dvd {l : List Token} {ps pos : Nat} (hpos : 0 < pos) (hd : ps ∣ pos) :
    (l.take pos).take ps = l.take ps := by
  rw [List.take_take, Nat.min_eq_left (Nat.le_of_dvd hpos hd)]

theorem Wf.splitAt (h : t.Wf) {pos : Nat} (hsp : t.SplitOk n pos) : (t.splitAt n pos).1.Wf := by
  have hlt := h.linked_lt hsp.linked
  have hn : n ≠ t.next := Nat.ne_of_lt hlt
  have hold : ∀ {c}, c < t.next → c ≠ t.next := fun hc => Nat.ne_of_lt hc
  have hlinked := splitAt_linked t n pos hn
  have hparent := splitAt_parent t n pos hn
  have hmamba := splitAt_mambaValue t n pos hn
  obtain ⟨q, hq, hqt⟩ := h.linked_parent n hsp.linked
  have hqlt := (h.parent_lt n q hq).2
  have inTree_old : ∀ c, t.InTree c → (t.splitAt n pos).1.InTree c := by
    rintro c (hc | hc)
    · exact .inl hc
    · exact .inr ((hlinked c).mpr (.inr hc))
  -- the first page of every node but the shortened one is what it was
  have hkey : ∀ c, c ≠ n → ((t.splitAt n pos).1.node c).key.take t.pageSize =
      (t.node (if c = t.next then n else c)).key.take t.pageSize := by
    intro c hc
    by_cases hs : c = t.next
    · subst hs
      rw [splitAt_prefixLen, if_pos rfl]
      exact take_take_of_dvd hsp.pos_pos hsp.pages
    · rw [splitAt_old t n c pos hc hs, if_neg hs]
  -- and its place among its siblings is the one of the node it was cut from
  have hplace : ∀ c, c ≠ n → ((t.splitAt n pos).1.node c).linked = true →
      (t.node (if c = t.next then n else c)).linked = true ∧
      ((t.splitAt n pos).1.node c).parent = (t.node (if c = t.next then n else c)).parent := by
    intro c hc hl
    rw [hparent c, if_neg hc]
    by_cases hs : c = t.next
    · rw [if_pos hs, if_pos hs]
      exact ⟨hsp.linked, rfl⟩
    · rw [if_neg hs, if_neg hs]
      exact ⟨((hlinked c).mp hl).resolve_left hs, rfl⟩
  have below : ∀ c, c ≠ n → ((t.splitAt n pos).1.node c).linked = true →
      ((t.splitAt n pos).1.node c).parent ≠ some t.next := by
    intro c hc hl hp
    rw [(hplace c hc hl).2] at hp
    exact absurd (h.parent_lt _ _ hp).2 (Nat.lt_irrefl _)
  refine
    { page_pos := h.page_pos, root_lt := Nat.lt_succ_of_lt h.root_lt, root_parent := ?_,
      orphan := ?_, parent_lt := ?_, path := ?_, linked_parent := ?_, key_pages := ?_,
      key_value := ?_, child_unique := ?_, snapshot_linked := ?_, snapshot_inj := ?_ }
  · rw [hparent, if_neg (hold h.root_lt), if_neg (h.linked_ne_root hsp.linked).symm]
    exact h.root_parent
  · intro c hc hp
    rw [hparent] at hp
    split at hp
    · rw [hq] at hp; cases hp
    · split at hp
      · cases hp
      · refine h.orphan c ?_ hp
        exact Nat.lt_of_le_of_ne (Nat.le_of_lt_succ hc) ‹_›
  · intro c p hp
    show c < t.next + 1 ∧ p < t.next + 1
    rw [hparent] at hp
    split at hp
    · rename_i hs
      exact ⟨hs ▸ Nat.lt_succ_self _, Nat.lt_succ_of_lt (h.parent_lt n p hp).2⟩
    · split at hp
      · rename_i hc
        cases hp
        exact ⟨hc ▸ Nat.lt_succ_of_lt hlt, Nat.lt_succ_self _⟩
      · have hcp := h.parent_lt c p hp
        exact ⟨Nat.lt_succ_of_lt hcp.1, Nat.lt_succ_of_lt hcp.2⟩
  · intro c
    by_cases hs : c = t.next
    · subst hs
      have hpath := h.upPath_splitAt hsp (hold hqlt)
      refine ⟨_, .cons ?_ hpath⟩
      show ((t.splitAt n pos).1.node t.next).parent = some q
      rw [hparent, if_pos rfl, hq]
    · exact ⟨_, h.upPath_splitAt hsp hs⟩
  · intro c hl
    rw [hparent]
    split
    · exact ⟨q, hq, inTree_old q hqt⟩
    · rename_i hs
      split
      · exact ⟨t.next, rfl, .inr ((hlinked _).mpr (.inl rfl))⟩
      · obtain ⟨p, hp, hpt⟩ := h.linked_parent c (((hlinked c).mp hl).resolve_left hs)
        exact ⟨p, hp, inTree_old p hpt⟩
  · intro c hl
    have hkp := h.key_pages n hsp.linked
    have hposlt := hsp.pos_lt
    rw [splitAt_pageSize]
    by_cases hs : c = t.next
    · subst hs
      rw [splitAt_prefixLen, List.length_take, Nat.min_eq_left (Nat.le_of_lt hposlt)]
      exact ⟨hsp.pos_pos, hsp.pages⟩
    · by_cases hc : c = n
      · subst hc
        rw [splitAt_suffix t c pos hn, List.length_drop]
        exact ⟨Nat.sub_pos_of_lt hposlt, Nat.dvd_sub hkp.2 hsp.pages⟩
      · rw [splitAt_old t n c pos hc hs]
        exact h.key_pages c (((hlinked c).mp hl).resolve_left hs)
  · intro c hl
    have hkv := h.key_value n hsp.linked
    by_cases hs : c = t.next
    · subst hs
      rw [splitAt_prefixLen, List.length_take, List.length_take, hkv]
    · by_cases hc : c = n
      · subst hc
        rw [splitAt_suffix t c pos hn, List.length_drop, List.length_drop, hkv]
      · rw [splitAt_old t n c pos hc hs]
        exact h.key_value c (((hlinked c).mp hl).resolve_left hs)
  · intro a b ha hb hp hk
    rw [splitAt_pageSize] at hk
    by_cases han : a = n
    · by_cases hbn : b = n
      · rw [han, hbn]
      · subst han
        rw [hparent a, if_neg hn, if_pos rfl] at hp
        exact absurd hp.symm (below b hbn hb)
    · by_cases hbn : b = n
      · subst hbn
        rw [hparent b, if_neg hn, if_pos rfl] at hp
        exact absurd hp (below a han ha)
      · obtain ⟨hla, hpa⟩ := hplace a han ha
        obtain ⟨hlb, hpb⟩ := hplace b hbn hb
        rw [hkey a han, hkey b hbn] at hk
        rw [hpa, hpb] at hp
        have hab := h.child_unique _ _ hla hlb hp hk
        by_cases has : a = t.next
        · by_cases hbs : b = t.next
          · rw [has, hbs]
          · rw [if_pos has, if_neg hbs] at hab
            exact absurd hab.symm hbn
        · by_cases hbs : b = t.next
          · rw [if_neg has, if_pos hbs] at hab
            exact absurd hab han
          · rwa [if_neg has, if_neg hbs] at hab
  · intro c s hm
    rw [hmamba] at hm
    split at hm
    · cases hm
    · exact (hlinked c).mpr (.inr (h.snapshot_linked c s hm))
  · intro a b s ha hb
    rw [hmamba] at ha hb
    split at ha
    · cases ha
    · split at hb
      · cases hb
      · exact h.snapshot_inj a b s ha hb

/-- A split puts the new node above whoever was at or below the old one. -/
theorem Wf.mem_rootPath_splitAt (h : t.Wf) {pos : Nat} (hsp : t.SplitOk n pos) {a b : NodeId}
    (ha : a ≠ t.next) : b ∈ (t.splitAt n pos).1.rootPath a ↔
      b ∈ t.rootPath a ∨ (b = t.next ∧ n ∈ t.rootPath a) := by
  rw [((h.splitAt hsp).upPath a).unique (h.upPath_splitAt hsp ha)]
  exact mem_spliced

/-- What a new leaf needs: a parent in the tree without a child for its first page. -/
structure LeafOk (t : RadixTree) (p : NodeId) (key : List Token) (value : List KvIndex) : Prop where
  parent : t.InTree p
  key_pos : 0 < key.length
  pages : t.pageSize ∣ key.length
  value : value.length = key.length
  fresh : t.childOf p key = none

theorem Wf.upPath_addLeaf (h : t.Wf) {key : List Token} {value : List KvIndex} {now : Time}
    {a : NodeId} (ha : a ≠ t.next) :
    UpPath (fun m => ((t.addLeaf p key value now).1.node m).parent) a (t.rootPath a) := by
  have hold : ∀ c, c ≠ t.next →
      ((t.addLeaf p key value now).1.node c).parent = (t.node c).parent :=
    fun c hc => by rw [addLeaf_old t p c key value now hc]
  have hup := h.upPath a
  -- the new node is no one's ancestor
  have hne : ∀ c ∈ t.rootPath a, c ≠ t.next := fun c hc => Nat.ne_of_lt (h.mem_rootPath_lt hc).1
  generalize t.rootPath a = l at hup hne
  induction hup with
  | root hr => exact .root ((hold _ ha).trans hr)
  | @cons a q l hq _ ih =>
    refine .cons ((hold a ha).trans hq) (ih ?_ fun c hc => hne c (List.mem_cons_of_mem _ hc))
    exact Nat.ne_of_lt (h.parent_lt a q hq).2

theorem Wf.addLeaf (h : t.Wf) {key : List Token} {value : List KvIndex} {now : Time}
    (hok : t.LeafOk p key value) : (t.addLeaf p key value now).1.Wf := by
  have hplt := h.inTree_lt hok.parent
  have hold : ∀ c, c ≠ t.next → (t.addLeaf p key value now).1.node c = t.node c :=
    fun c hc => addLeaf_old t p c key value now hc
  have hnew := addLeaf_new t p key value now
  have unlinked : (t.node t.next).linked ≠ true := fun hl =>
    absurd (h.linked_lt hl) (Nat.lt_irrefl _)
  have hlinked : ∀ c, ((t.addLeaf p key value now).1.node c).linked = true →
      c = t.next ∨ (t.node c).linked = true := by
    intro c hl
    by_cases hc : c = t.next
    · exact .inl hc
    · rw [hold c hc] at hl
      exact .inr hl
  have inTree_old : ∀ c, t.InTree c → (t.addLeaf p key value now).1.InTree c := by
    intro c hc
    rcases hc with hr | hl
    · exact .inl hr
    · refine .inr ?_
      rw [hold c (Nat.ne_of_lt (h.linked_lt hl))]
      exact hl
  -- no linked sibling of the new leaf has its first page
  have hsib : ∀ c, c ≠ t.next → ((t.addLeaf p key value now).1.node c).linked = true →
      ((t.addLeaf p key value now).1.node c).parent = some p →
      ((t.addLeaf p key value now).1.node c).key.take t.pageSize ≠ key.take t.pageSize := by
    intro c hc hl hp hk
    rw [hold c hc] at hl hp hk
    have hsome := h.childOf_eq_some_iff.mpr ⟨hl, hp, hk⟩
    rw [hok.fresh] at hsome
    cases hsome
  refine
    { page_pos := h.page_pos, root_lt := Nat.lt_succ_of_lt h.root_lt, root_parent := ?_,
      orphan := ?_, parent_lt := ?_, path := ?_, linked_parent := ?_, key_pages := ?_,
      key_value := ?_, child_unique := ?_, snapshot_linked := ?_, snapshot_inj := ?_ }
  · rw [hold root (Nat.ne_of_lt h.root_lt)]
    exact h.root_parent
  · intro c hc hp
    by_cases hs : c = t.next
    · rw [hs, hnew] at hp
      cases hp
    · rw [hold c hs] at hp
      exact h.orphan c (Nat.lt_of_le_of_ne (Nat.le_of_lt_succ hc) hs) hp
  · intro c q hq
    show c < t.next + 1 ∧ q < t.next + 1
    by_cases hs : c = t.next
    · rw [hs, hnew] at hq
      cases hq
      exact ⟨hs ▸ Nat.lt_succ_self _, Nat.lt_succ_of_lt hplt⟩
    · rw [hold c hs] at hq
      have hcq := h.parent_lt c q hq
      exact ⟨Nat.lt_succ_of_lt hcq.1, Nat.lt_succ_of_lt hcq.2⟩
  · intro c
    by_cases hs : c = t.next
    · refine ⟨_, .cons (p := p) ?_ (h.upPath_addLeaf (Nat.ne_of_lt hplt))⟩
      rw [hs, hnew]
    · exact ⟨_, h.upPath_addLeaf hs⟩
  · intro c hl
    by_cases hs : c = t.next
    · rw [hs, hnew]
      exact ⟨p, rfl, inTree_old p hok.parent⟩
    · rw [hold c hs] at hl ⊢
      obtain ⟨q, hq, hqt⟩ := h.linked_parent c hl
      exact ⟨q, hq, inTree_old q hqt⟩
  · intro c hl
    rw [addLeaf_pageSize]
    by_cases hs : c = t.next
    · rw [hs, hnew]
      exact ⟨hok.key_pos, hok.pages⟩
    · rw [hold c hs] at hl ⊢
      exact h.key_pages c hl
  · intro c hl
    by_cases hs : c = t.next
    · rw [hs, hnew]
      exact hok.value
    · rw [hold c hs] at hl ⊢
      exact h.key_value c hl
  · intro a b ha hb hp hk
    rw [addLeaf_pageSize] at hk
    by_cases has : a = t.next
    · by_cases hbs : b = t.next
      · rw [has, hbs]
      · rw [has, hnew] at hp hk
        exact absurd hk.symm (hsib b hbs hb hp.symm)
    · by_cases hbs : b = t.next
      · rw [hbs, hnew] at hp hk
        exact absurd hk (hsib a has ha hp)
      · rw [hold a has] at ha hp hk
        rw [hold b hbs] at hb hp hk
        exact h.child_unique a b ha hb hp hk
  · intro c s hm
    by_cases hs : c = t.next
    · rw [hs, hnew] at hm
      cases hm
    · rw [hold c hs] at hm ⊢
      exact h.snapshot_linked c s hm
  · intro a b s ha hb
    by_cases has : a = t.next
    · rw [has, hnew] at ha
      cases ha
    · by_cases hbs : b = t.next
      · rw [hbs, hnew] at hb
        cases hb
      · rw [hold a has] at ha
        rw [hold b hbs] at hb
        exact h.snapshot_inj a b s ha hb

theorem Wf.rootPath_addLeaf (h : t.Wf) {key : List Token} {value : List KvIndex} {now : Time}
    (hok : t.LeafOk p key value) {a : NodeId} (ha : a ≠ t.next) :
    (t.addLeaf p key value now).1.rootPath a = t.rootPath a :=
  ((h.addLeaf hok).upPath a).unique (h.upPath_addLeaf ha)

theorem unlink_node (t : RadixTree) (n m : NodeId) :
    (t.unlink n).node m = if m = n then { t.node m with linked := false } else t.node m :=
  modify_node t n m _

/-- A field other than `linked` reads as before. -/
theorem unlink_field {β : Type*} (t : RadixTree) (n m : NodeId) (g : Node → β)
    (hg : ∀ x : Node, g { x with linked := false } = g x) :
    g ((t.unlink n).node m) = g (t.node m) :=
  modify_field t n m g hg

theorem rootPath_unlink (t : RadixTree) (n m : NodeId) : (t.unlink n).rootPath m = t.rootPath m := by
  have hparent : ∀ c, ((t.unlink n).node c).parent = (t.node c).parent :=
    fun c => modify_field t n c Node.parent fun _ => rfl
  simp only [rootPath, unlink_next, hparent]

/-- A leaf without a snapshot may leave the tree. -/
theorem Wf.unlink (h : t.Wf) (hleaf : t.isLeaf n = true) (hsnap : (t.node n).mambaValue = none) :
    (t.unlink n).Wf := by
  have hparent : ∀ c, ((t.unlink n).node c).parent = (t.node c).parent :=
    fun c => modify_field t n c Node.parent fun _ => rfl
  have hkey : ∀ c, ((t.unlink n).node c).key = (t.node c).key :=
    fun c => modify_field t n c Node.key fun _ => rfl
  have hvalue : ∀ c, ((t.unlink n).node c).value = (t.node c).value :=
    fun c => modify_field t n c Node.value fun _ => rfl
  have hmamba : ∀ c, ((t.unlink n).node c).mambaValue = (t.node c).mambaValue :=
    fun c => modify_field t n c Node.mambaValue fun _ => rfl
  have hlinked : ∀ c, ((t.unlink n).node c).linked = true ↔ c ≠ n ∧ (t.node c).linked = true := by
    intro c
    rw [unlink_node]
    split
    · rename_i hc
      simp [hc]
    · rename_i hc
      simp [hc]
  refine
    { page_pos := h.page_pos, root_lt := h.root_lt, root_parent := ?_, orphan := ?_,
      parent_lt := ?_, path := ?_, linked_parent := ?_, key_pages := ?_, key_value := ?_,
      child_unique := ?_, snapshot_linked := ?_, snapshot_inj := ?_ }
  · rw [hparent]
    exact h.root_parent
  · intro c hc hp
    rw [hparent] at hp
    exact h.orphan c hc hp
  · intro c p hp
    rw [hparent] at hp
    exact h.parent_lt c p hp
  · intro c
    simp only [hparent]
    exact h.path c
  · intro c hc
    obtain ⟨-, hl⟩ := (hlinked c).mp hc
    obtain ⟨p, hp, hpt⟩ := h.linked_parent c hl
    refine ⟨p, by rw [hparent, hp], ?_⟩
    rcases hpt with hr | hpl
    · exact .inl hr
    · -- a parent is no leaf
      have hpn : p ≠ n := by
        rintro rfl
        exact isLeaf_iff.mp hleaf c (h.linked_lt hl) hl hp
      exact .inr ((hlinked p).mpr ⟨hpn, hpl⟩)
  · intro c hl
    rw [hkey]
    exact h.key_pages c ((hlinked c).mp hl).2
  · intro c hl
    rw [hkey, hvalue]
    exact h.key_value c ((hlinked c).mp hl).2
  · intro a b ha hb hp hk
    rw [hparent, hparent] at hp
    rw [hkey, hkey] at hk
    exact h.child_unique a b ((hlinked a).mp ha).2 ((hlinked b).mp hb).2 hp hk
  · intro c s hm
    rw [hmamba] at hm
    refine (hlinked c).mpr ⟨?_, h.snapshot_linked c s hm⟩
    rintro rfl
    rw [hsnap] at hm
    cases hm
  · intro a b s ha hb
    rw [hmamba] at ha hb
    exact h.snapshot_inj a b s ha hb

end mutations

end RadixTree

end FreeToken.KvCache
