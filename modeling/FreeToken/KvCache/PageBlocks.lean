import FreeToken.KvCache.Prefixes

/-!
# The pages of a stored prefix

A whole-page prefix that the tree holds ends inside exactly one node, its cover,
and the pages of its last page of tokens are that node's. Whoever stands for a
longer prefix reads the same pages there.

## Results

* `cover_unique`, `blockAt_of_inTree` — the last page of a stored prefix, from any
  node below it;
* `blockAt_splitAt`, `blockAt_addLeaf`, `blockAt_unlink` — how the mutations change it.
-/

namespace FreeToken.Lib

variable {α : Type*}

/-- Two lists with a common prefix agree on every window inside it. -/
theorem window_of_isPrefix {l l' : List α} (h : l <+: l') {a k : Nat} (hle : a + k ≤ l.length) :
    (l.drop a).take k = (l'.drop a).take k := by
  obtain ⟨tail, rfl⟩ := h
  rw [List.drop_append_of_le_length (by omega), List.take_append_of_le_length]
  rw [List.length_drop]
  omega

/-- The windows of a list, one after the other. -/
theorem flatMap_windows (l : List α) (k count : Nat) :
    ((List.range count).flatMap fun j => (l.drop (j * k)).take k) = l.take (count * k) := by
  induction count with
  | zero => simp
  | succ count ih =>
    rw [List.range_succ, List.flatMap_append, ih, List.flatMap_singleton, Nat.succ_mul,
      List.take_add]

end FreeToken.Lib

namespace FreeToken.KvCache

open FreeToken.Lib

namespace RadixTree

variable {t t' : RadixTree} {n p k k' : NodeId} {q toks rest : List Token} {b : List KvIndex}
  {tic : Time}

/-- A prefix of whole pages that is not empty. -/
def WholePages (t : RadixTree) (q : List Token) : Prop := q ≠ [] ∧ t.pageSize ∣ q.length

/-- `q` ends inside the tokens of the node `k`. -/
structure Covers (t : RadixTree) (k : NodeId) (q : List Token) : Prop where
  linked : (t.node k).linked = true
  le : q <+: t.pathTokens k
  lt : ∀ p, (t.node k).parent = some p → (t.pathTokens p).length < q.length

/-- The pages of the last page of tokens of `q`. -/
def BlockAt (t : RadixTree) (q : List Token) (b : List KvIndex) : Prop :=
  t.WholePages q ∧ ∃ k, t.Covers k q ∧ b = ((t.collectKv k).drop (q.length - t.pageSize)).take t.pageSize

theorem WholePages.page_le (hq : t.WholePages q) : t.pageSize ≤ q.length :=
  Nat.le_of_dvd (List.length_pos_iff.mpr hq.1) hq.2

theorem exists_cover (h : t.Wf) (hn : t.InTree n) (hq : q <+: t.pathTokens n) (hne : q ≠ []) :
    ∃ k ∈ t.rootPath n, t.Covers k q := by
  have hlinked := h.linked_of_mem_rootPath hn
  have hlt := h.inTree_lt hn
  have hup := h.upPath n
  generalize t.rootPath n = l at hup hlinked
  induction hup with
  | @root r hr =>
    obtain rfl := h.orphan r hlt hr
    rw [pathTokens_root h] at hq
    exact absurd (List.prefix_nil.mp hq) hne
  | @cons a p l ha _ ih =>
    have hal := hlinked a List.mem_cons_self
    have hpre : t.pathTokens p <+: t.pathTokens a :=
      pathTokens_child h ha ▸ List.prefix_append _ _
    by_cases hle : q.length ≤ (t.pathTokens p).length
    · obtain ⟨k, hk, hcov⟩ := ih (inTree_parent h hal ha)
        (List.prefix_of_prefix_length_le hq hpre hle) (h.parent_lt a p ha).2
        fun m hm => hlinked m (List.mem_cons_of_mem _ hm)
      exact ⟨k, List.mem_cons_of_mem _ hk, hcov⟩
    · refine ⟨a, List.mem_cons_self, hal, hq, fun p' hp' => ?_⟩
      rw [ha, Option.some.injEq] at hp'
      rw [← hp']
      exact Nat.lt_of_not_le hle

theorem Covers.parent_prefix (h : t.Wf) (hk : t.Covers k q) (hp : (t.node k).parent = some p) :
    t.pathTokens p <+: q :=
  List.prefix_of_prefix_length_le (pathTokens_child h hp ▸ List.prefix_append _ _) hk.le
    (Nat.le_of_lt (hk.lt p hp))

/-- The first page of a cover is the page of `q` after the cover's parent. -/
theorem Covers.key_page (h : t.Wf) (hk : t.Covers k q) (hq : t.pageSize ∣ q.length)
    (hp : (t.node k).parent = some p) :
    (t.node k).key.take t.pageSize = (q.drop (t.pathTokens p).length).take t.pageSize := by
  have hlt := hk.lt p hp
  have hdvd := Nat.dvd_sub hq (dvd_pathTokens h (inTree_parent h hk.linked hp))
  have hpage := Nat.le_of_dvd (Nat.sub_pos_of_lt hlt) hdvd
  rw [RadixTree.key_page h hk.linked hp (List.prefix_refl _)]
  exact (window_of_isPrefix hk.le (by omega)).symm

theorem Covers.parent_le (h : t.Wf) (hk : t.Covers k q) (hk' : t.Covers k' q)
    (hq : t.pageSize ∣ q.length) {p' : NodeId} (hp : (t.node k).parent = some p)
    (hp' : (t.node k').parent = some p')
    (hle : (t.pathTokens p).length ≤ (t.pathTokens p').length) : p = p' := by
  have hpt := inTree_parent h hk.linked hp
  have hpt' := inTree_parent h hk'.linked hp'
  by_contra hne
  obtain ⟨d, hd, hdl, hdp⟩ := exists_child_toward h hpt'
    (comparable h hpt hpt' (hk.parent_prefix h hp) (hk'.parent_prefix h hp') hle) hne
  have hdq := (pathTokens_grows h hd).trans (hk'.parent_prefix h hp')
  have hpage := (hk.key_page h hq hp).trans (RadixTree.key_page h hdl hdp hdq).symm
  obtain rfl := h.child_unique k d hk.linked hdl (hp.trans hdp.symm) hpage
  -- the cover would be above the other cover's parent
  have h1 := hk.le.length_le
  have h2 := (pathTokens_grows h hd).length_le
  have h3 := hk'.lt p' hp'
  omega

theorem cover_unique (h : t.Wf) (hk : t.Covers k q) (hk' : t.Covers k' q)
    (hq : t.pageSize ∣ q.length) : k = k' := by
  obtain ⟨p, hp, -⟩ := h.linked_parent k hk.linked
  obtain ⟨p', hp', -⟩ := h.linked_parent k' hk'.linked
  have hpp : p = p' := by
    rcases Nat.le_total (t.pathTokens p).length (t.pathTokens p').length with hle | hle
    · exact hk.parent_le h hk' hq hp hp' hle
    · exact (hk'.parent_le h hk hq hp' hp hle).symm
  subst hpp
  exact h.child_unique k k' hk.linked hk'.linked (hp.trans hp'.symm)
    ((hk.key_page h hq hp).trans (hk'.key_page h hq hp').symm)

theorem blockAt_unique {b' : List KvIndex} (h : t.Wf) (hb : t.BlockAt q b) (hb' : t.BlockAt q b') :
    b = b' := by
  obtain ⟨hq, k, hk, rfl⟩ := hb
  obtain ⟨-, k', hk', rfl⟩ := hb'
  rw [cover_unique h hk hk' hq.2]

theorem length_collectKv (h : t.Wf) (hn : t.InTree n) :
    (t.collectKv n).length = (t.pathTokens n).length :=
  length_concat_eq h hn h.key_value

theorem collectKv_grows (h : t.Wf) (hk : k ∈ t.rootPath n) : t.collectKv k <+: t.collectKv n := by
  obtain ⟨l, hl, hsuf⟩ := (h.upPath n).of_mem hk
  obtain ⟨l', hl'⟩ := hsuf
  rw [collectKv, collectKv, (h.upPath k).unique hl, ← hl', List.reverse_append,
    List.flatMap_append]
  exact List.prefix_append _ _

/-- Any node that stands for `q` or more reads the block of `q`. -/
theorem blockAt_of_inTree (h : t.Wf) (hn : t.InTree n) (hq : t.WholePages q)
    (hqn : q <+: t.pathTokens n) :
    t.BlockAt q (((t.collectKv n).drop (q.length - t.pageSize)).take t.pageSize) := by
  obtain ⟨k, hk, hcov⟩ := exists_cover h hn hqn hq.1
  refine ⟨hq, k, hcov, ?_⟩
  have hlen := length_collectKv h (.inr hcov.linked)
  have hle := hcov.le.length_le
  have hpage := hq.page_le
  exact (window_of_isPrefix (collectKv_grows h hk) (by omega)).symm

theorem blockAt_iff (h : t.Wf) (hn : t.InTree n) (hq : t.WholePages q)
    (hqn : q <+: t.pathTokens n) :
    t.BlockAt q b ↔ b = ((t.collectKv n).drop (q.length - t.pageSize)).take t.pageSize := by
  have hblock := blockAt_of_inTree h hn hq hqn
  exact ⟨fun hb => blockAt_unique h hb hblock, fun hb => hb ▸ hblock⟩

-- ---------------------------------------------------------------------------
-- The mutations
-- ---------------------------------------------------------------------------

theorem blockAt_of_sameShape (hs : SameShape t t') : t'.BlockAt q b ↔ t.BlockAt q b := by
  have hcov : ∀ k, t'.Covers k q ↔ t.Covers k q := fun k => by
    constructor
    · rintro ⟨hl, hle, hlt⟩
      simp only [hs.linked, hs.pathTokens_eq, hs.parent] at hl hle hlt
      exact ⟨hl, hle, hlt⟩
    · rintro ⟨hl, hle, hlt⟩
      refine ⟨(hs.linked k).trans hl, hs.pathTokens_eq k ▸ hle, fun p hp => ?_⟩
      rw [hs.pathTokens_eq]
      exact hlt p ((hs.parent k).symm.trans hp)
  simp only [BlockAt, WholePages, hcov, hs.collectKv_eq, hs.pageSize]

theorem blockAt_splitAt (h : t.Wf) {pos : Nat} (hok : t.SplitOk n pos) :
    (t.splitAt n pos).1.BlockAt q b ↔ t.BlockAt q b := by
  have hw := h.splitAt hok
  have hn : n ≠ t.next := Nat.ne_of_lt (h.linked_lt hok.linked)
  have hlinked := splitAt_linked t n pos hn
  have htoks : ∀ {a}, a ≠ t.next → (t.splitAt n pos).1.pathTokens a = t.pathTokens a :=
    fun ha => concat_splitAt h hok cuts_key ha
  have hkv : ∀ {a}, a ≠ t.next → (t.splitAt n pos).1.collectKv a = t.collectKv a :=
    fun ha => concat_splitAt h hok cuts_value ha
  -- what a node of the new tree reads, an old one does
  have hback : ∀ {k}, (t.splitAt n pos).1.Covers k q → ∃ a, (t.node a).linked = true ∧
      k ∈ (t.splitAt n pos).1.rootPath a := by
    intro k hk
    by_cases hks : k = t.next
    · refine ⟨n, hok.linked, ?_⟩
      rw [hks, (hw.upPath n).unique (h.upPath_splitAt hok hn)]
      exact mem_spliced.mpr (.inr ⟨rfl, h.mem_rootPath_self (h.linked_lt hok.linked)
        (h.linked_ne_root hok.linked)⟩)
    · have hkl := ((hlinked k).mp hk.linked).resolve_left hks
      exact ⟨k, hkl, hw.mem_rootPath_self (hw.linked_lt hk.linked) (hw.linked_ne_root hk.linked)⟩
  constructor
  · rintro ⟨hq, k, hk, rfl⟩
    obtain ⟨a, hal, hka⟩ := hback hk
    have ha : a ≠ t.next := Nat.ne_of_lt (h.linked_lt hal)
    have hqa := hk.le.trans (pathTokens_grows hw hka)
    have hblock := (blockAt_iff hw (.inr ((hlinked a).mpr (.inr hal))) hq hqa).mp
      ⟨hq, k, hk, rfl⟩
    rw [hblock, hkv ha]
    rw [htoks ha] at hqa
    exact blockAt_of_inTree h (.inr hal) hq hqa
  · rintro ⟨hq, k, hk, rfl⟩
    have hks : k ≠ t.next := Nat.ne_of_lt (h.linked_lt hk.linked)
    have hblock := blockAt_of_inTree hw (.inr ((hlinked k).mpr (.inr hk.linked))) hq
      (by rw [htoks hks]; exact hk.le)
    rwa [hkv hks] at hblock

/-- A leaf brings the blocks of its own tokens. -/
theorem blockAt_addLeaf (h : t.Wf) {key : List Token} {value : List KvIndex} {now : Time}
    (hok : t.LeafOk p key value) : (t.addLeaf p key value now).1.BlockAt q b ↔
      t.BlockAt q b ∨ (t.WholePages q ∧ q <+: t.pathTokens p ++ key ∧
        (t.pathTokens p).length < q.length ∧
        b = ((t.collectKv p ++ value).drop (q.length - t.pageSize)).take t.pageSize) := by
  have hw : (t.addLeaf p key value now).1.Wf := h.addLeaf hok
  have hnew := addLeaf_new t p key value now
  have hpne : p ≠ t.next := Nat.ne_of_lt (h.inTree_lt hok.parent)
  have hlinked : ∀ {a}, a ≠ t.next →
      ((t.addLeaf p key value now).1.node a).linked = (t.node a).linked := fun ha => by
    rw [addLeaf_old t p _ key value now ha]
  have hparent : ∀ {a}, a ≠ t.next →
      ((t.addLeaf p key value now).1.node a).parent = (t.node a).parent := fun ha => by
    rw [addLeaf_old t p _ key value now ha]
  have htoks : ∀ {a}, a ≠ t.next →
      (t.addLeaf p key value now).1.pathTokens a = t.pathTokens a :=
    fun ha => concat_addLeaf h hok Node.key ha
  have hkv : ∀ {a}, a ≠ t.next →
      (t.addLeaf p key value now).1.collectKv a = t.collectKv a :=
    fun ha => concat_addLeaf h hok Node.value ha
  have hleafToks : (t.addLeaf p key value now).1.pathTokens t.next = t.pathTokens p ++ key := by
    refine (concat_addLeaf_new h hok Node.key).trans ?_
    rw [hnew]
    rfl
  have hleafKv : (t.addLeaf p key value now).1.collectKv t.next = t.collectKv p ++ value := by
    refine (concat_addLeaf_new h hok Node.value).trans ?_
    rw [hnew]
    rfl
  -- the new leaf is above no other node
  have hcov : ∀ {a}, a ≠ t.next → ((t.addLeaf p key value now).1.Covers a q ↔ t.Covers a q) := by
    intro a ha
    constructor
    · rintro ⟨hl, hle, hlt⟩
      refine ⟨hlinked ha ▸ hl, htoks ha ▸ hle, fun r hr => ?_⟩
      have hrne : r ≠ t.next := Nat.ne_of_lt (h.parent_lt a r hr).2
      rw [← htoks hrne]
      exact hlt r ((hparent ha).trans hr)
    · rintro ⟨hl, hle, hlt⟩
      refine ⟨(hlinked ha).trans hl, (htoks ha).symm ▸ hle, fun r hr => ?_⟩
      rw [hparent ha] at hr
      rw [htoks (Nat.ne_of_lt (h.parent_lt a r hr).2)]
      exact hlt r hr
  constructor
  · rintro ⟨hq, k, hk, rfl⟩
    by_cases hks : k = t.next
    · refine .inr ⟨hq, ?_, ?_, ?_⟩
      · rw [← hleafToks, ← hks]
        exact hk.le
      · rw [← htoks hpne]
        exact hk.lt p (by rw [hks, hnew])
      · rw [hks, hleafKv]
        rfl
    · refine .inl ⟨hq, k, (hcov hks).mp hk, ?_⟩
      rw [hkv hks]
      rfl
  · rintro (⟨hq, k, hk, rfl⟩ | ⟨hq, hle, hlt, rfl⟩)
    · have hks : k ≠ t.next := Nat.ne_of_lt (h.linked_lt hk.linked)
      refine ⟨hq, k, (hcov hks).mpr hk, ?_⟩
      rw [hkv hks]
      rfl
    · refine ⟨hq, t.next, ⟨by rw [hnew], hleafToks ▸ hle, fun r hr => ?_⟩, ?_⟩
      · rw [hnew, Option.some.injEq] at hr
        rw [← hr, htoks hpne]
        exact hlt
      · rw [hleafKv]
        rfl

/-- A node that leaves the tree takes along the blocks it covers. -/
theorem blockAt_unlink (h : t.Wf) :
    (t.unlink n).BlockAt q b ↔ t.BlockAt q b ∧ ¬ t.Covers n q := by
  have hlinked : ∀ a, ((t.unlink n).node a).linked = true ↔ a ≠ n ∧ (t.node a).linked = true := by
    intro a
    rw [unlink_node]
    split
    · rename_i ha
      simp [ha]
    · rename_i ha
      simp [ha]
  have hparent : ∀ a, ((t.unlink n).node a).parent = (t.node a).parent :=
    fun a => modify_field t n a Node.parent fun _ => rfl
  have htoks : ∀ a, (t.unlink n).pathTokens a = t.pathTokens a :=
    fun a => concat_unlink (f := Node.key) (fun _ => rfl) n a
  have hkv : ∀ a, (t.unlink n).collectKv a = t.collectKv a :=
    fun a => concat_unlink (f := Node.value) (fun _ => rfl) n a
  have hcov : ∀ a, (t.unlink n).Covers a q ↔ a ≠ n ∧ t.Covers a q := by
    intro a
    constructor
    · rintro ⟨hl, hle, hlt⟩
      obtain ⟨han, hl⟩ := (hlinked a).mp hl
      refine ⟨han, hl, htoks a ▸ hle, fun r hr => ?_⟩
      rw [← htoks]
      exact hlt r ((hparent a).trans hr)
    · rintro ⟨han, hl, hle, hlt⟩
      refine ⟨(hlinked a).mpr ⟨han, hl⟩, (htoks a).symm ▸ hle, fun r hr => ?_⟩
      rw [htoks]
      exact hlt r ((hparent a).symm.trans hr)
  constructor
  · rintro ⟨hq, k, hk, rfl⟩
    obtain ⟨hkn, hk⟩ := (hcov k).mp hk
    refine ⟨⟨hq, k, hk, by rw [hkv]; rfl⟩, fun hcn => ?_⟩
    exact hkn (cover_unique h hk hcn hq.2)
  · rintro ⟨⟨hq, k, hk, rfl⟩, hcn⟩
    refine ⟨hq, k, (hcov k).mpr ⟨?_, hk⟩, by rw [hkv]; rfl⟩
    rintro rfl
    exact hcn hk

end RadixTree

end FreeToken.KvCache
