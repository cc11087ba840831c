import FreeToken.KvCache.TreeInvariant
import FreeToken.KvCache.HybridRadixCache

/-!
# What an eviction does

Both evictions are sequences of two moves: a linked, unlocked leaf leaves the
tree with its snapshot, or a snapshot without a reference is freed in place.

## Results

* `evictFull_induct`, `evictMamba_induct` — what the two moves keep, an eviction
  keeps;
* `evictFull_branches`, `evictMamba_branches` — so is what holds between branches,
  a dropped leaf with the snapshotless ancestors it exposes;
* `HeapOk.dropBranch` — the heap of `evict_full` stays the unlocked leaves.
-/

namespace FreeToken.KvCache

open FreeToken.Lib RadixTree

namespace HybridRadixCache

variable {c : HybridRadixCache} {n m : NodeId}

-- ---------------------------------------------------------------------------
-- The two moves
-- ---------------------------------------------------------------------------

theorem freeNodeMamba_none (h : (c.node n).mambaValue = none) (out : List Slot) :
    c.freeNodeMamba n out = (c, out) := by
  rw [freeNodeMamba, h]

theorem freeNodeMamba_some {slot : Slot} (h : (c.node n).mambaValue = some slot)
    (out : List Slot) :
    (c.freeNodeMamba n out).1.toRadixTree = c.modify n (fun x =>
        { x with snapshotKind := .chunk, mambaValue := none, pooledSums := none }) ∧
      (c.freeNodeMamba n out).2 = out ++ [slot] := by
  rw [freeNodeMamba, h]
  exact ⟨rfl, rfl⟩

theorem freeNodeMamba_sameShape (c : HybridRadixCache) (n : NodeId) (out : List Slot) :
    SameShape c.toRadixTree (c.freeNodeMamba n out).1.toRadixTree := by
  cases h : (c.node n).mambaValue with
  | none =>
    rw [freeNodeMamba_none h]
    exact .refl _
  | some slot =>
    rw [(freeNodeMamba_some h out).1]
    exact .modify _ _ (fun _ => rfl) (fun _ => rfl) (fun _ => rfl) fun _ => rfl

theorem freeNodeMamba_mambaValue (c : HybridRadixCache) (n m : NodeId) (out : List Slot) :
    ((c.freeNodeMamba n out).1.node m).mambaValue =
      if m = n then none else (c.node m).mambaValue := by
  cases h : (c.node n).mambaValue with
  | none =>
    rw [freeNodeMamba_none h]
    split
    · rename_i hm
      rw [hm, h]
    · rfl
  | some slot =>
    rw [(freeNodeMamba_some h out).1, modify_node]
    split
    · rfl
    · rfl

/-- Freeing a snapshot changes no count. -/
theorem freeNodeMamba_counts (c : HybridRadixCache) (n m : NodeId) (out : List Slot) :
    ((c.freeNodeMamba n out).1.node m).refCount = (c.node m).refCount ∧
      ((c.freeNodeMamba n out).1.node m).mambaRefCount = (c.node m).mambaRefCount := by
  cases h : (c.node n).mambaValue with
  | none =>
    rw [freeNodeMamba_none h]
    exact ⟨rfl, rfl⟩
  | some slot =>
    rw [(freeNodeMamba_some h out).1]
    exact ⟨modify_field _ n m Node.refCount fun _ => rfl,
      modify_field _ n m Node.mambaRefCount fun _ => rfl⟩

theorem freeNodeMamba_wf (h : c.Wf) (n : NodeId) (out : List Slot) :
    (c.freeNodeMamba n out).1.Wf := by
  refine h.congr (freeNodeMamba_sameShape c n out) fun m s hm => ?_
  rw [freeNodeMamba_mambaValue] at hm
  split at hm
  · cases hm
  · exact hm

theorem dropLeaf_tree (e : Evicting) (n : NodeId) :
    (dropLeaf e n).cache.toRadixTree = (e.cache.freeNodeMamba n e.mambaSlots).1.unlink n := rfl

theorem dropLeaf_wf {e : Evicting} (h : e.cache.Wf) (hleaf : e.cache.isLeaf n = true) :
    (dropLeaf e n).cache.Wf := by
  rw [dropLeaf_tree]
  refine (freeNodeMamba_wf h n e.mambaSlots).unlink ?_ ?_
  · rw [(freeNodeMamba_sameShape e.cache n e.mambaSlots).isLeaf_eq]
    exact hleaf
  · rw [freeNodeMamba_mambaValue, if_pos rfl]

theorem dropLeaf_linked (e : Evicting) (n m : NodeId) :
    ((dropLeaf e n).cache.node m).linked = true ↔ m ≠ n ∧ (e.cache.node m).linked = true := by
  rw [dropLeaf_tree, unlink_node]
  have hl := (freeNodeMamba_sameShape e.cache n e.mambaSlots).linked m
  split
  · rename_i hm
    simp [hm]
  · rename_i hm
    rw [hl]
    simp [hm]

theorem dropLeaf_parent (e : Evicting) (n m : NodeId) :
    ((dropLeaf e n).cache.node m).parent = (e.cache.node m).parent := by
  rw [dropLeaf_tree, ← (freeNodeMamba_sameShape e.cache n e.mambaSlots).parent m]
  exact modify_field _ n m Node.parent fun _ => rfl

/-- Dropping a leaf changes no count. -/
theorem dropLeaf_refCount (e : Evicting) (n m : NodeId) :
    ((dropLeaf e n).cache.node m).refCount = (e.cache.node m).refCount := by
  rw [dropLeaf_tree, ← (freeNodeMamba_counts e.cache n m e.mambaSlots).1]
  exact modify_field _ n m Node.refCount fun _ => rfl

theorem dropLeaf_key (e : Evicting) (n m : NodeId) :
    ((dropLeaf e n).cache.node m).key = (e.cache.node m).key := by
  rw [dropLeaf_tree, ← (freeNodeMamba_sameShape e.cache n e.mambaSlots).key m]
  exact modify_field _ n m Node.key fun _ => rfl

theorem dropLeaf_value (e : Evicting) (n m : NodeId) :
    ((dropLeaf e n).cache.node m).value = (e.cache.node m).value := by
  rw [dropLeaf_tree, ← (freeNodeMamba_sameShape e.cache n e.mambaSlots).value m]
  exact modify_field _ n m Node.value fun _ => rfl

theorem dropLeaf_mambaRefCount (e : Evicting) (n m : NodeId) :
    ((dropLeaf e n).cache.node m).mambaRefCount = (e.cache.node m).mambaRefCount := by
  rw [dropLeaf_tree, ← (freeNodeMamba_counts e.cache n m e.mambaSlots).2]
  exact modify_field _ n m Node.mambaRefCount fun _ => rfl

theorem dropLeaf_mambaValue (e : Evicting) (n m : NodeId) :
    ((dropLeaf e n).cache.node m).mambaValue =
      if m = n then none else (e.cache.node m).mambaValue := by
  rw [dropLeaf_tree, ← freeNodeMamba_mambaValue e.cache n m e.mambaSlots]
  exact modify_field _ n m Node.mambaValue fun _ => rfl

theorem dropLeaf_mambaSlots (e : Evicting) (n : NodeId) :
    (dropLeaf e n).mambaSlots = e.mambaSlots ++ (e.cache.node n).mambaValue.toList := by
  show (e.cache.freeNodeMamba n e.mambaSlots).2 = _
  cases hv : (e.cache.node n).mambaValue with
  | none => rw [freeNodeMamba_none hv]; simp
  | some s => rw [(freeNodeMamba_some hv e.mambaSlots).2]; rfl

theorem dropLeaf_next (e : Evicting) (n : NodeId) :
    (dropLeaf e n).cache.next = e.cache.next :=
  (freeNodeMamba_sameShape e.cache n e.mambaSlots).next

theorem isLeaf_dropLeaf {e : Evicting} (h : e.cache.isLeaf m = true) (n : NodeId) :
    (dropLeaf e n).cache.isLeaf m = true := by
  rw [isLeaf_iff] at h ⊢
  intro d hd hl
  rw [dropLeaf_next] at hd
  rw [dropLeaf_parent]
  exact h d hd ((dropLeaf_linked e n d).mp hl).2

/-- Only the parent of what was dropped may have become a leaf. -/
theorem isLeaf_of_dropLeaf {e : Evicting} {p : NodeId} (hp : (e.cache.node n).parent = some p)
    (hmp : m ≠ p) (h : (dropLeaf e n).cache.isLeaf m = true) : e.cache.isLeaf m = true := by
  rw [isLeaf_iff] at h ⊢
  intro d hd hl hdm
  by_cases hdn : d = n
  · rw [hdn, hp, Option.some.injEq] at hdm
    exact hmp hdm.symm
  · refine h d (by rw [dropLeaf_next]; exact hd) ((dropLeaf_linked e n d).mpr ⟨hdn, hl⟩) ?_
    rw [dropLeaf_parent]
    exact hdm

-- ---------------------------------------------------------------------------
-- The evictions
-- ---------------------------------------------------------------------------

/-- The moves an eviction is made of keep `P`. -/
structure EvictionKeeps (P : Evicting → Prop) : Prop where
  drop : ∀ e n, e.cache.Wf → (e.cache.node n).linked = true → e.cache.isLeaf n = true →
    (e.cache.node n).refCount = 0 → P e → P (dropLeaf e n)
  free : ∀ e n k, e.cache.Wf → (e.cache.node n).mambaValue ≠ none →
    (e.cache.node n).mambaRefCount = 0 → P e →
    P { cache := (e.cache.freeNodeMamba n e.mambaSlots).1, kvIndices := e.kvIndices,
        mambaSlots := (e.cache.freeNodeMamba n e.mambaSlots).2, freed := k }
  freed : ∀ e k, P e → P { e with freed := k }

/-- What a cascade up `path`, from `p` on, leaves: the nodes off the path, the
counts, the leaves, and of the inner nodes at most `top` as a new leaf. -/
structure CascadeResult (e : Evicting) (p : NodeId) (path : List NodeId) (e' : Evicting)
    (top : NodeId) : Prop where
  wf : e'.cache.Wf
  next : e'.cache.next = e.cache.next
  off_path : ∀ m, m ∉ path → (e'.cache.node m).linked = (e.cache.node m).linked
  unlinked : ∀ m, (e'.cache.node m).linked = true → (e.cache.node m).linked = true
  refCount : ∀ m, (e'.cache.node m).refCount = (e.cache.node m).refCount
  leaf : ∀ m, e.cache.isLeaf m = true → e'.cache.isLeaf m = true
  leaf_new : ∀ m, e'.cache.InTree m → e'.cache.isLeaf m = true →
    m = top ∨ (m ≠ p ∧ e.cache.isLeaf m = true)
  top : top = root ∨ (top ∈ path ∧ (e'.cache.node top).linked = true)

theorem cascade_induct {P : Evicting → Prop} (hP : EvictionKeeps P) {e : Evicting} {p : NodeId}
    {path : List NodeId} (h : e.cache.Wf) (hp : e.cache.InTree p)
    (hup : UpPath (fun m => (e.cache.node m).parent) p path)
    (hlinked : ∀ m ∈ path, (e.cache.node m).linked = true) (he : P e) (freed : Nat) :
    P (cascadeTombstoneLeaves e path freed).1 ∧
      CascadeResult e p path (cascadeTombstoneLeaves e path freed).1
        (cascadeTombstoneLeaves e path freed).2.1 := by
  induction path generalizing e p freed with
  | nil =>
    refine ⟨he, h, rfl, fun _ _ => rfl, fun _ hm => hm, fun _ => rfl, fun _ hm => hm,
      fun m _ hm => ?_, .inl rfl⟩
    have hpr : p = root := by
      cases hup with
      | root hr => exact h.orphan p (h.inTree_lt hp) hr
    by_cases hmp : m = p
    · exact .inl (hmp.trans hpr)
    · exact .inr ⟨hmp, hm⟩
  | cons a path ih =>
    have hal := hlinked a List.mem_cons_self
    obtain ⟨q, hq, hup'⟩ : ∃ q, (e.cache.node a).parent = some q ∧
        UpPath (fun m => (e.cache.node m).parent) q path := by
      cases hup with
      | cons ha hq => exact ⟨_, ha, hq⟩
    have hap : p = a := by
      cases hup with
      | cons _ _ => rfl
    subst hap
    rw [cascadeTombstoneLeaves]
    split
    · -- `p` goes, and its parent is looked at next
      rename_i hcond
      obtain ⟨-, hleaf, href⟩ := hcond
      have hnd := List.nodup_cons.mp hup.nodup
      have hrest : ∀ m ∈ path, ((dropLeaf e p).cache.node m).linked = true := by
        intro m hm
        refine (dropLeaf_linked e p m).mpr ⟨?_, hlinked m (List.mem_cons_of_mem _ hm)⟩
        rintro rfl
        exact hnd.1 hm
      have hqt : (dropLeaf e p).cache.InTree q := by
        obtain ⟨q', hq', hqt⟩ := h.linked_parent p hal
        rw [hq, Option.some.injEq] at hq'
        subst hq'
        refine hqt.imp_right fun hql => (dropLeaf_linked e p q).mpr ⟨?_, hql⟩
        rintro rfl
        exact isLeaf_iff.mp hleaf q (h.linked_lt hal) hal hq
      obtain ⟨hPe, hr⟩ := ih (dropLeaf_wf h hleaf) hqt
        (hup'.congr (fun r hr => by rw [dropLeaf_parent]; exact hr) fun c _ => dropLeaf_parent e p c)
        hrest (hP.drop e p h hal hleaf href he) (freed + (e.cache.node p).length)
      have hgone : ((dropLeaf e p).cache.node p).linked ≠ true := fun hl =>
        ((dropLeaf_linked e p p).mp hl).1 rfl
      refine ⟨hPe, hr.wf, hr.next.trans (dropLeaf_next e p), fun m hm => ?_,
        fun m hm => ((dropLeaf_linked e p m).mp (hr.unlinked m hm)).2,
        fun m => (hr.refCount m).trans (dropLeaf_refCount e p m),
        fun m hm => hr.leaf m (isLeaf_dropLeaf hm p), fun m hmt hm => ?_, ?_⟩
      · rw [List.mem_cons, not_or] at hm
        rw [hr.off_path m hm.2, Bool.eq_iff_iff, dropLeaf_linked]
        exact ⟨fun hl => hl.2, fun hl => ⟨hm.1, hl⟩⟩
      · refine (hr.leaf_new m hmt hm).imp_right fun ⟨hmq, hml⟩ => ?_
        refine ⟨?_, isLeaf_of_dropLeaf hq hmq hml⟩
        rintro rfl
        rcases hmt with hroot | hl
        · exact h.linked_ne_root hal hroot
        · exact hgone (hr.unlinked m hl)
      · exact hr.top.imp_right fun ht => ⟨List.mem_cons_of_mem _ ht.1, ht.2⟩
    · -- `p` stays, and so does all above it
      refine ⟨he, h, rfl, fun _ _ => rfl, fun _ hm => hm, fun _ => rfl, fun _ hm => hm,
        fun m _ hm => ?_, .inr ⟨List.mem_cons_self, hal⟩⟩
      by_cases hmp : m = p
      · exact .inl hmp
      · exact .inr ⟨hmp, hm⟩

/-- A leaf is dropped and what it exposes is cleared away. -/
def dropBranch (e : Evicting) (n : NodeId) : Evicting × NodeId × Nat :=
  cascadeTombstoneLeaves (dropLeaf e n) (e.cache.rootPath n).tail 0

/-- What dropping a branch leaves: of the inner nodes at most `top` as a new leaf. -/
structure BranchResult (e : Evicting) (n : NodeId) (e' : Evicting) (top : NodeId) : Prop where
  wf : e'.cache.Wf
  next : e'.cache.next = e.cache.next
  off_path : ∀ m, m ∉ e.cache.rootPath n →
    (e'.cache.node m).linked = (e.cache.node m).linked
  unlinked : ∀ m, (e'.cache.node m).linked = true → m ≠ n ∧ (e.cache.node m).linked = true
  refCount : ∀ m, (e'.cache.node m).refCount = (e.cache.node m).refCount
  leaf : ∀ m, e.cache.isLeaf m = true → e'.cache.isLeaf m = true
  leaf_new : ∀ m, e'.cache.InTree m → e'.cache.isLeaf m = true →
    m = top ∨ e.cache.isLeaf m = true
  top : top = root ∨ (top ∈ (e.cache.rootPath n).tail ∧ (e'.cache.node top).linked = true)

theorem dropBranch_induct {P : Evicting → Prop} (hP : EvictionKeeps P) {e : Evicting}
    (h : e.cache.Wf) (hn : (e.cache.node n).linked = true) (hleaf : e.cache.isLeaf n = true)
    (href : (e.cache.node n).refCount = 0) (he : P e) :
    P (dropBranch e n).1 ∧ BranchResult e n (dropBranch e n).1 (dropBranch e n).2.1 := by
  obtain ⟨p, hp, hpt⟩ := h.linked_parent n hn
  have hpath := h.rootPath_cons hp
  have hnd := (h.upPath n).nodup
  rw [hpath, List.nodup_cons] at hnd
  have htree : (dropLeaf e n).cache.InTree p := by
    refine hpt.imp_right fun hpl => (dropLeaf_linked e n p).mpr ⟨?_, hpl⟩
    rintro rfl
    exact isLeaf_iff.mp hleaf p (h.linked_lt hn) hn hp
  have hrest : ∀ m ∈ e.cache.rootPath p, ((dropLeaf e n).cache.node m).linked = true := by
    intro m hm
    refine (dropLeaf_linked e n m).mpr ⟨?_, ?_⟩
    · rintro rfl
      exact hnd.1 hm
    · exact h.linked_of_mem_rootPath (.inr hn) m (by rw [hpath]; exact List.mem_cons_of_mem _ hm)
  have hup : UpPath (fun m => ((dropLeaf e n).cache.node m).parent) p (e.cache.rootPath p) :=
    (h.upPath p).congr (fun r hr => by rw [dropLeaf_parent]; exact hr) fun c _ =>
      dropLeaf_parent e n c
  obtain ⟨hPe, hr⟩ := cascade_induct hP (dropLeaf_wf h hleaf) htree hup hrest
    (hP.drop e n h hn hleaf href he) 0
  rw [dropBranch, hpath, List.tail_cons]
  refine ⟨hPe, hr.wf, hr.next.trans (dropLeaf_next e n), fun m hm => ?_,
    fun m hm => (dropLeaf_linked e n m).mp (hr.unlinked m hm),
    fun m => (hr.refCount m).trans (dropLeaf_refCount e n m),
    fun m hm => hr.leaf m (isLeaf_dropLeaf hm n), fun m hmt hm => ?_, ?_⟩
  · rw [hpath, List.mem_cons, not_or] at hm
    rw [hr.off_path m hm.2, Bool.eq_iff_iff, dropLeaf_linked]
    exact ⟨fun hl => hl.2, fun hl => ⟨hm.1, hl⟩⟩
  · exact (hr.leaf_new m hmt hm).imp_right fun ⟨hmp, hml⟩ => isLeaf_of_dropLeaf hp hmp hml
  · rw [hpath, List.tail_cons]
    exact hr.top

/-- What an eviction does at the level of branches keeps `P`. -/
structure BranchKeeps (P : Evicting → Prop) : Prop where
  branch : ∀ e n, e.cache.Wf → (e.cache.node n).linked = true → e.cache.isLeaf n = true →
    (e.cache.node n).refCount = 0 → P e → P (dropBranch e n).1
  free : ∀ e n k, e.cache.Wf → (e.cache.node n).mambaValue ≠ none →
    (e.cache.node n).mambaRefCount = 0 →
    ¬ (e.cache.isLeaf n = true ∧ (e.cache.node n).refCount = 0) → P e →
    P { cache := (e.cache.freeNodeMamba n e.mambaSlots).1, kvIndices := e.kvIndices,
        mambaSlots := (e.cache.freeNodeMamba n e.mambaSlots).2, freed := k }
  freed : ∀ e k, P e → P { e with freed := k }

theorem EvictionKeeps.branches {P : Evicting → Prop} (hP : EvictionKeeps P) : BranchKeeps P where
  branch := fun _ _ hw hn hleaf href he => (dropBranch_induct hP hw hn hleaf href he).1
  free := fun e n k hw hv href _ he => hP.free e n k hw hv href he
  freed := hP.freed

theorem evictionKeeps_true : EvictionKeeps fun _ => True :=
  ⟨fun _ _ _ _ _ _ _ => trivial, fun _ _ _ _ _ _ _ => trivial, fun _ _ _ => trivial⟩

theorem branchResult {e : Evicting} (h : e.cache.Wf) (hn : (e.cache.node n).linked = true)
    (hleaf : e.cache.isLeaf n = true) (href : (e.cache.node n).refCount = 0) :
    BranchResult e n (dropBranch e n).1 (dropBranch e n).2.1 :=
  (dropBranch_induct evictionKeeps_true h hn hleaf href trivial).2

/-- The heap of an `evict_full` is the unlocked leaves. -/
structure HeapOk (e : Evicting) (heap : List NodeId) : Prop where
  nodup : heap.Nodup
  mem_iff : ∀ m, m ∈ heap ↔ (e.cache.node m).linked = true ∧ e.cache.isLeaf m = true ∧
    (e.cache.node m).refCount = 0

/-- The heap after a branch was dropped from `n` on. -/
theorem HeapOk.dropBranch {e : Evicting} {heap : List NodeId} (hh : HeapOk e heap) (h : e.cache.Wf)
    (hn : n ∈ heap) (k : Nat) : HeapOk { (dropBranch e n).1 with freed := k }
      (if (dropBranch e n).1.cache.isLeaf (dropBranch e n).2.1 = true ∧
          ((dropBranch e n).1.cache.node (dropBranch e n).2.1).refCount = 0 ∧
          (dropBranch e n).2.1 ≠ root
        then (dropBranch e n).2.1 :: heap.erase n else heap.erase n) := by
  obtain ⟨hnl, hnleaf, href⟩ := (hh.mem_iff n).mp hn
  have hr := branchResult h hnl hnleaf href
  generalize HybridRadixCache.dropBranch e n = b at hr ⊢
  obtain ⟨p, hp, -⟩ := h.linked_parent n hnl
  have hpath := h.rootPath_cons hp
  have hnd := (h.upPath n).nodup
  rw [hpath, List.nodup_cons] at hnd
  -- what lies above the dropped leaf was no leaf, so it is not in the heap
  have habove : ∀ m ∈ (e.cache.rootPath n).tail, m ∉ heap := by
    intro m hm hmh
    rw [hpath, List.tail_cons] at hm
    have hmn : m ≠ n := by
      rintro rfl
      exact hnd.1 hm
    have hnot := h.not_leaf_of_above hnl (m := m) (by rw [hpath]; exact List.mem_cons_of_mem _ hm) hmn
    rw [((hh.mem_iff m).mp hmh).2.1] at hnot
    cases hnot
  have htop : b.2.1 ∉ heap.erase n := by
    intro hm
    rcases hr.top with hroot | ⟨htail, -⟩
    · have hl := ((hh.mem_iff _).mp (List.mem_of_mem_erase hm)).1
      exact h.linked_ne_root hl hroot
    · exact habove _ htail (List.mem_of_mem_erase hm)
  -- the leaves that were there stay, but for `n`
  have hold : ∀ m, m ≠ b.2.1 → (m ∈ heap.erase n ↔ (b.1.cache.node m).linked = true ∧
      b.1.cache.isLeaf m = true ∧ (b.1.cache.node m).refCount = 0) := by
    intro m hmt
    rw [List.Nodup.mem_erase_iff hh.nodup, hh.mem_iff, hr.refCount]
    constructor
    · rintro ⟨hmn, hml, hleaf, hm0⟩
      refine ⟨?_, hr.leaf m hleaf, hm0⟩
      rw [hr.off_path m fun hmp => ?_]
      · exact hml
      rw [hpath] at hmp
      refine habove m ?_ ((hh.mem_iff m).mpr ⟨hml, hleaf, hm0⟩)
      rw [hpath, List.tail_cons]
      exact (List.mem_cons.mp hmp).resolve_left hmn
    · rintro ⟨hml, hleaf, hm0⟩
      have hm := hr.unlinked m hml
      exact ⟨hm.1, hm.2, (hr.leaf_new m (.inr hml) hleaf).resolve_left hmt, hm0⟩
  constructor
  · split
    · exact List.nodup_cons.mpr ⟨htop, hh.nodup.erase n⟩
    · exact hh.nodup.erase n
  intro m
  show _ ↔ (b.1.cache.node m).linked = true ∧ b.1.cache.isLeaf m = true ∧
    (b.1.cache.node m).refCount = 0
  by_cases hmt : m = b.2.1
  · subst hmt
    split
    · rename_i hcond
      refine ⟨fun _ => ⟨?_, hcond.1, hcond.2.1⟩, fun _ => List.mem_cons_self⟩
      exact (hr.top.resolve_left hcond.2.2).2
    · rename_i hcond
      refine ⟨fun hm => absurd hm htop, fun ⟨hl, hleaf, h0⟩ => absurd ⟨hleaf, h0, ?_⟩ hcond⟩
      exact hr.wf.linked_ne_root hl
  · rw [← hold m hmt]
    split
    · rw [List.mem_cons, or_iff_right hmt]
    · rfl

theorem heapPop_mem {tie : Nat} {heap : List NodeId} (h : c.heapPop tie heap = some n) :
    n ∈ heap := popOldest_mem h

theorem evictFullLoop_branches {P : Evicting → Prop} (hP : BranchKeeps P) (numTokens : Nat)
    (ties : Nat → Nat) (fuel : Nat) {e : Evicting} {heap : List NodeId} (h : e.cache.Wf)
    (hh : HeapOk e heap) (he : P e) :
    P (evictFullLoop numTokens ties fuel e heap) ∧
      (evictFullLoop numTokens ties fuel e heap).cache.Wf := by
  induction fuel generalizing e heap with
  | zero => exact ⟨he, h⟩
  | succ fuel ih =>
    rw [evictFullLoop]
    split
    · exact ⟨he, h⟩
    split
    · exact ⟨he, h⟩
    rename_i n hpop
    have hmem := heapPop_mem hpop
    obtain ⟨hnl, hnleaf, href⟩ := (hh.mem_iff n).mp hmem
    dsimp only
    rw [if_neg (by simp [href, hnleaf, h.linked_ne_root hnl])]
    exact ih (branchResult h hnl hnleaf href).wf (hh.dropBranch h hmem _)
      (hP.freed _ _ (hP.branch e n h hnl hnleaf href he))

theorem heapOk_leaves (h : c.Wf) (k : Nat) :
    HeapOk ⟨c, [], [], k⟩ (c.leaves.filter fun n => (c.node n).refCount = 0) := by
  refine ⟨(List.nodup_range.filter _).filter _, fun m => ?_⟩
  rw [List.mem_filter, leaves, List.mem_filter, List.mem_range, Bool.and_eq_true, decide_eq_true_iff]
  exact ⟨fun hm => ⟨hm.1.2.1, hm.1.2.2, hm.2⟩,
    fun hm => ⟨⟨h.linked_lt hm.1, hm.1, hm.2.1⟩, hm.2.2⟩⟩

theorem evictFull_branches {P : Evicting → Prop} (hP : BranchKeeps P) (numTokens : Nat)
    (ties : Nat → Nat) (h : c.Wf) (hc : P ⟨c, [], [], 0⟩) :
    P (c.evictFull numTokens ties) ∧ (c.evictFull numTokens ties).cache.Wf :=
  evictFullLoop_branches hP numTokens ties _ h (heapOk_leaves h 0) hc

theorem evictFull_induct {P : Evicting → Prop} (hP : EvictionKeeps P) (numTokens : Nat)
    (ties : Nat → Nat) (h : c.Wf) (hc : P ⟨c, [], [], 0⟩) :
    P (c.evictFull numTokens ties) ∧ (c.evictFull numTokens ties).cache.Wf :=
  evictFull_branches hP.branches numTokens ties h hc

theorem evictMambaLoop_branches {P : Evicting → Prop} (hP : BranchKeeps P) (num : Nat)
    {order : List NodeId} {e : Evicting} (h : e.cache.Wf) (he : P e) :
    P (evictMambaLoop num e order) ∧ (evictMambaLoop num e order).cache.Wf := by
  induction order generalizing e with
  | nil => exact ⟨he, h⟩
  | cons n order ih =>
    rw [evictMambaLoop]
    split
    · exact ⟨he, h⟩
    split
    · exact ih h he
    rename_i hcond
    rw [not_or, not_or, not_not] at hcond
    obtain ⟨s, hs⟩ := Option.ne_none_iff_exists'.mp hcond.1
    split
    · rename_i hleaf
      have hl := h.snapshot_linked n s hs
      exact ih (branchResult h hl hleaf.1 hleaf.2).wf
        (hP.freed _ _ (hP.branch e n h hl hleaf.1 hleaf.2 he))
    · rename_i hinner
      exact ih (freeNodeMamba_wf h n _) (hP.free e n _ h hcond.1 hcond.2.1 hinner he)

theorem evictMamba_branches {P : Evicting → Prop} (hP : BranchKeeps P) (num : Nat) (h : c.Wf)
    (hc : P ⟨c, [], [], 0⟩) : P (c.evictMamba num) ∧ (c.evictMamba num).cache.Wf :=
  evictMambaLoop_branches hP num h hc

theorem evictMamba_induct {P : Evicting → Prop} (hP : EvictionKeeps P) (num : Nat) (h : c.Wf)
    (hc : P ⟨c, [], [], 0⟩) : P (c.evictMamba num) ∧ (c.evictMamba num).cache.Wf :=
  evictMamba_branches hP.branches num h hc

end HybridRadixCache

end FreeToken.KvCache
