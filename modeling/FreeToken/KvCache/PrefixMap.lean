import FreeToken.KvCache.Calls
import FreeToken.KvCache.Insert
import FreeToken.KvCache.PageBlocks

/-!
# The cache as a map from prefixes

What the hybrid cache is for, without a tree: a map from token prefixes to the
snapshots taken there, and a map from whole-page prefixes to the pages of their last
page of tokens. A match looks up the longest prefix with a snapshot.

`PrefixMap.Step` says what each call returns and how it changes the maps; `Refines`
is what connects them to the tree.

## Results

* `Refines.splitAt`, `Refines.of_unmoved` — splits, stamps and locks do not show;
* `Refines.addLeaf` — a leaf brings the pages of its tokens;
* `Refines.of_movesAt` — a snapshot that comes or goes is a change at one prefix.
-/

namespace FreeToken.KvCache

open FreeToken.Lib RadixTree

structure PrefixMap where
  /-- The snapshot at the end of a prefix, with its sums. -/
  snap : List Token → Option (Slot × Option Nat)
  /-- The pages of the last page of tokens of a whole-page prefix. -/
  page : List Token → Option (List KvIndex)

namespace PrefixMap

def empty : PrefixMap := ⟨fun _ => none, fun _ => none⟩

/-- The whole-page prefixes of `ids` that have no pages yet get the inserted ones. -/
def addPages (m : PrefixMap) (ps : Nat) (ids : List Token) (kv : List KvIndex) : PrefixMap :=
  { m with
    page := fun q =>
      if (q ≠ [] ∧ ps ∣ q.length) ∧ q <+: ids then
        (m.page q).or (some ((kv.drop (q.length - ps)).take ps))
      else m.page q }

/-- The first slot donated at a prefix stays; sums come with it or after it. -/
def donate (m : PrefixMap) (ids : List Token) (slot : Slot) (sums : Option Nat) : PrefixMap :=
  { m with
    snap := fun q =>
      if q = ids ∧ q ≠ [] then
        some (match m.snap q with
          | none => (slot, sums)
          | some s => (s.1, s.2.or sums))
      else m.snap q }

def erase (m : PrefixMap) (gone freed : List (List Token)) : PrefixMap where
  page := fun q => if q ∈ gone then none else m.page q
  snap := fun q => if q ∈ freed then none else m.snap q

/-- A match may end at `q`. -/
def Usable (m : PrefixMap) (pooled : Bool) (q : List Token) : Prop :=
  ∃ s u, m.snap q = some (s, u) ∧ (pooled = true → u.isSome = true)

/-- What a match of `ids` returns: the longest usable prefix with its slot, and for
each position the page of its prefix; or nothing. -/
structure Returns (m : PrefixMap) (ps : Nat) (ids : List Token) (pooled : Bool)
    (r : HybridMatch) : Prop where
  le : r.cachedLen ≤ ids.length
  longest : ∀ len ≤ ids.length, m.Usable pooled (ids.take len) → len ≤ r.cachedLen
  slot : (r.mambaValue = none ∧ r.cachedLen = 0) ∨
    ∃ s u, r.mambaValue = some s ∧ 0 < r.cachedLen ∧
      m.snap (ids.take r.cachedLen) = some (s, u) ∧ (pooled = true → u.isSome = true)
  length : r.kvIndices.length = r.cachedLen
  pages : ∀ i < r.cachedLen, ∃ b, m.page (ids.take ((i / ps + 1) * ps)) = some b ∧
    b[i % ps]? = r.kvIndices[i]?
  sumlessLen : (∀ len ≤ ids.length, m.Usable false (ids.take len) → len ≤ r.sumlessLen) ∧
    (r.sumlessLen = 0 ∨ m.Usable false (ids.take r.sumlessLen))

/-- An eviction takes snapshots and pages of some prefixes and returns just these. -/
def Evicts (m : PrefixMap) (kv : List KvIndex) (slots : List Slot) (m' : PrefixMap) : Prop :=
  ∃ gone freed : List (List Token), ∃ blocks : List (List KvIndex),
    gone.Nodup ∧ freed.Nodup ∧ gone.map m.page = blocks.map some ∧ kv = blocks.flatten ∧
      (freed.map fun q => (m.snap q).map Prod.fst) = slots.map some ∧ m' = m.erase gone freed

def Step (ps : Nat) (m : PrefixMap) : CacheCall → CallResult → PrefixMap → Prop
  | .matchPrefix ids pooled _, .matched r, m' => m' = m ∧ m.Returns ps ids pooled r
  | .insert ids kv slot sums _ _ _, .inserted _ mambaExist, m' =>
    let whole := ids.take (alignDown ids.length ps)
    m' = (m.addPages ps whole kv).donate whole slot sums ∧
      (mambaExist = true ↔ whole = [] ∨ (m.snap whole).isSome = true)
  | .incLock _, .locked, m' => m' = m
  | .decLock _, .locked, m' => m' = m
  | .evictFull _ _, .evicted kv slots, m' => m.Evicts kv slots m'
  | .evictMamba _, .evicted kv slots, m' => m.Evicts kv slots m'
  | _, _, _ => False

theorem donate_snap_none {m : PrefixMap} {q : List Token} (hq : q ≠ []) (hm : m.snap q = none)
    (slot : Slot) (sums : Option Nat) : (m.donate q slot sums).snap q = some (slot, sums) := by
  refine (if_pos ⟨rfl, hq⟩).trans ?_
  rw [hm]

theorem donate_snap_some {m : PrefixMap} {q : List Token} {s : Slot × Option Nat} (hq : q ≠ [])
    (hm : m.snap q = some s) (slot : Slot) (sums : Option Nat) :
    (m.donate q slot sums).snap q = some (s.1, s.2.or sums) := by
  refine (if_pos ⟨rfl, hq⟩).trans ?_
  rw [hm]

theorem erase_snap_iff {m : PrefixMap} {gone freed : List (List Token)} {q : List Token}
    {x : Slot × Option Nat} :
    (m.erase gone freed).snap q = some x ↔ q ∉ freed ∧ m.snap q = some x := by
  show (if q ∈ freed then none else m.snap q) = some x ↔ _
  split
  · rename_i hq
    exact ⟨nofun, fun h => absurd hq h.1⟩
  · rename_i hq
    exact ⟨fun h => ⟨hq, h⟩, fun h => h.2⟩

theorem erase_page_iff {m : PrefixMap} {gone freed : List (List Token)} {q : List Token}
    {b : List KvIndex} :
    (m.erase gone freed).page q = some b ↔ q ∉ gone ∧ m.page q = some b := by
  show (if q ∈ gone then none else m.page q) = some b ↔ _
  split
  · rename_i hq
    exact ⟨nofun, fun h => absurd hq h.1⟩
  · rename_i hq
    exact ⟨fun h => ⟨hq, h⟩, fun h => h.2⟩

theorem erase_erase (m : PrefixMap) (gone freed gone' freed' : List (List Token)) :
    (m.erase gone freed).erase gone' freed' = m.erase (gone ++ gone') (freed ++ freed') := by
  rw [erase, erase, erase]
  congr 1
  · funext q
    by_cases h : q ∈ freed <;> by_cases h' : q ∈ freed' <;> simp [h, h']
  · funext q
    by_cases h : q ∈ gone <;> by_cases h' : q ∈ gone' <;> simp [h, h']

theorem erase_nil (m : PrefixMap) : m.erase [] [] = m := by
  rw [erase]
  simp

end PrefixMap

namespace RadixTree

variable {t t' : RadixTree} {m : PrefixMap} {n p : NodeId} {q : List Token} {b : List KvIndex}
  {s : Slot} {u : Option Nat}

/-- The node at the end of `q` owns the snapshot. -/
def SnapAt (t : RadixTree) (q : List Token) (s : Slot) (u : Option Nat) : Prop :=
  ∃ n, (t.node n).mambaValue = some s ∧ (t.node n).pooledSums = u ∧ t.pathTokens n = q

/-- The tree implements the maps. -/
structure Refines (t : RadixTree) (m : PrefixMap) : Prop where
  sums : ∀ n, (t.node n).mambaValue = none → (t.node n).pooledSums = none
  snap : ∀ q s u, m.snap q = some (s, u) ↔ t.SnapAt q s u
  page : ∀ q b, m.page q = some b ↔ t.BlockAt q b

theorem refines_empty (ps : Nat) : (empty ps).Refines .empty where
  sums := by
    intro n _
    rw [empty_node]
    split
    · rfl
    · rfl
  snap := by
    intro q s u
    refine ⟨nofun, ?_⟩
    rintro ⟨n, hn, -⟩
    rw [empty_node] at hn
    split at hn
    · cases hn
    · cases hn
  page := by
    intro q b
    refine ⟨nofun, ?_⟩
    rintro ⟨-, k, hk, -⟩
    have hl := hk.linked
    rw [empty_node] at hl
    split at hl
    · cases hl
    · cases hl

/-- Two nodes of the tree do not stand for the same tokens. -/
theorem pathTokens_inj {a c : NodeId} (h : t.Wf) (ha : t.InTree a) (hc : t.InTree c)
    (heq : t.pathTokens a = t.pathTokens c) : a = c := by
  by_contra hne
  have habove := comparable h ha hc (heq ▸ List.prefix_refl _) (List.prefix_refl _)
    (Nat.le_of_eq (congrArg List.length heq))
  obtain ⟨d, hd, hdl, hdp⟩ := exists_child_toward h hc habove hne
  have hlen := (pathTokens_grows h hd).length_le
  have hkey := (h.key_pages d hdl).1
  rw [pathTokens_child h hdp, heq, List.length_append] at hlen
  omega

theorem SnapAt.node (h : t.Wf) (hn : t.InTree n) (hs : t.SnapAt (t.pathTokens n) s u) :
    (t.node n).mambaValue = some s ∧ (t.node n).pooledSums = u := by
  obtain ⟨a, ha, hu, htok⟩ := hs
  obtain rfl := pathTokens_inj h (.inr (h.snapshot_linked a s ha)) hn htok
  exact ⟨ha, hu⟩

-- ---------------------------------------------------------------------------
-- What does not show
-- ---------------------------------------------------------------------------

/-- The trees hold the same tokens, pages, snapshots and sums. -/
structure Unmoved (t t' : RadixTree) : Prop extends SameShape t t' where
  mambaValue : ∀ n, (t'.node n).mambaValue = (t.node n).mambaValue
  pooledSums : ∀ n, (t'.node n).pooledSums = (t.node n).pooledSums

theorem Refines.of_unmoved (h : t.Refines m) (hu : Unmoved t t') : t'.Refines m where
  sums := fun n hn => (hu.pooledSums n).trans (h.sums n ((hu.mambaValue n).symm.trans hn))
  snap := fun q s u => by
    rw [h.snap, SnapAt, SnapAt]
    simp only [hu.mambaValue, hu.pooledSums, hu.pathTokens_eq]
  page := fun q b => (h.page q b).trans (blockAt_of_sameShape hu.toSameShape).symm

theorem Unmoved.stamp (t : RadixTree) (n : NodeId) (tic : Time) : Unmoved t (t.stamp n tic) where
  toSameShape := .stamp t n tic
  mambaValue := fun k => modify_field t n k Node.mambaValue fun _ => rfl
  pooledSums := fun k => modify_field t n k Node.pooledSums fun _ => rfl

theorem Refines.splitAt (hw : t.Wf) (h : t.Refines m) {pos : Nat} (hok : t.SplitOk n pos) :
    (t.splitAt n pos).1.Refines m := by
  have hn : n ≠ t.next := Nat.ne_of_lt (hw.linked_lt hok.linked)
  have hmamba := splitAt_mambaValue t n pos hn
  have hsums : ∀ k, k ≠ t.next →
      ((t.splitAt n pos).1.node k).pooledSums = (t.node k).pooledSums := by
    intro k hk
    by_cases hkn : k = n
    · subst hkn
      rw [splitAt_suffix t k pos hn]
    · rw [splitAt_old t n k pos hkn hk]
  refine ⟨fun k hk => ?_, fun q s u => (h.snap q s u).trans ?_,
    fun q b => (h.page q b).trans (blockAt_splitAt hw hok).symm⟩
  · by_cases hks : k = t.next
    · rw [hks, splitAt_prefixLen]
    · rw [hmamba, if_neg hks] at hk
      rw [hsums k hks]
      exact h.sums k hk
  · constructor
    · rintro ⟨k, hk, hu, htok⟩
      have hks : k ≠ t.next := Nat.ne_of_lt (hw.linked_lt (hw.snapshot_linked k s hk))
      refine ⟨k, ?_, (hsums k hks).trans hu, (concat_splitAt hw hok cuts_key hks).trans htok⟩
      rw [hmamba, if_neg hks]
      exact hk
    · rintro ⟨k, hk, hu, htok⟩
      rw [hmamba] at hk
      split at hk
      · cases hk
      · rename_i hks
        exact ⟨k, hk, (hsums k hks).symm.trans hu, (concat_splitAt hw hok cuts_key hks).symm.trans
          htok⟩

theorem Refines.walk (hw : t.Wf) (h : t.Refines m) (toks : List Token) (tic : Time) :
    (t.walk toks tic).1.Refines m :=
  walk_induct (P := fun t => t.Refines m) (fun t n tic _ h => h.of_unmoved (.stamp t n tic))
    (fun _ _ _ hw hok h => h.splitAt hw hok) toks tic hw h

-- ---------------------------------------------------------------------------
-- A new leaf
-- ---------------------------------------------------------------------------

theorem snapAt_addLeaf (hw : t.Wf) {key : List Token} {value : List KvIndex} {now : Time}
    (hok : t.LeafOk p key value) :
    (t.addLeaf p key value now).1.SnapAt q s u ↔ t.SnapAt q s u := by
  constructor
  · rintro ⟨k, hk, hu, htok⟩
    by_cases hks : k = t.next
    · rw [hks, addLeaf_new] at hk
      cases hk
    · rw [addLeaf_old t p k key value now hks] at hk hu
      exact ⟨k, hk, hu, (concat_addLeaf hw hok Node.key hks).symm.trans htok⟩
  · rintro ⟨k, hk, hu, htok⟩
    have hks : k ≠ t.next := Nat.ne_of_lt (hw.linked_lt (hw.snapshot_linked k s hk))
    refine ⟨k, ?_, ?_, (concat_addLeaf hw hok Node.key hks).trans htok⟩
    · rw [addLeaf_old t p k key value now hks]
      exact hk
    · rw [addLeaf_old t p k key value now hks]
      exact hu

theorem sums_addLeaf (h : t.Refines m) (p : NodeId) (key : List Token) (value : List KvIndex)
    (now : Time) (k : NodeId) (hk : ((t.addLeaf p key value now).1.node k).mambaValue = none) :
    ((t.addLeaf p key value now).1.node k).pooledSums = none := by
  by_cases hks : k = t.next
  · rw [hks, addLeaf_new]
  · rw [addLeaf_old t p k key value now hks] at hk ⊢
    exact h.sums k hk

/-- A node that stands for all of `ids` has the pages of every whole-page prefix. -/
theorem Refines.addPages_of_inTree (hw : t.Wf) (h : t.Refines m) (hn : t.InTree n)
    (kv : List KvIndex) : t.Refines (m.addPages t.pageSize (t.pathTokens n) kv) := by
  refine ⟨h.sums, h.snap, fun q b => ?_⟩
  rw [← h.page, PrefixMap.addPages]
  dsimp only
  split
  · rename_i hq
    rw [(h.page q _).mpr (blockAt_of_inTree hw hn hq.1 hq.2)]
    rfl
  · rfl

/-- The page of a position of a node's path is that of the prefix that ends with it. -/
theorem Refines.pages_at (hw : t.Wf) (h : t.Refines m) (hn : t.InTree n) {ids : List Token}
    (hpre : t.pathTokens n <+: ids) {i : Nat} (hi : i < (t.pathTokens n).length) :
    ∃ b, m.page (ids.take ((i / t.pageSize + 1) * t.pageSize)) = some b ∧
      b[i % t.pageSize]? = (t.collectKv n)[i]? := by
  have hpos := hw.page_pos
  -- the page that holds position `i` ends inside the prefix
  have hin : (i / t.pageSize + 1) * t.pageSize ≤ (t.pathTokens n).length := by
    obtain ⟨j, hj⟩ := dvd_pathTokens hw hn
    rw [hj] at hi ⊢
    rw [Nat.mul_comm t.pageSize j]
    exact Nat.mul_le_mul_right _ (Nat.div_lt_of_lt_mul hi)
  have hqlen : (ids.take ((i / t.pageSize + 1) * t.pageSize)).length =
      (i / t.pageSize + 1) * t.pageSize :=
    List.length_take_of_le (Nat.le_trans hin hpre.length_le)
  have hq : t.WholePages (ids.take ((i / t.pageSize + 1) * t.pageSize)) := by
    refine ⟨List.ne_nil_of_length_pos ?_, ?_⟩
    · rw [hqlen]
      exact Nat.mul_pos (Nat.succ_pos _) hpos
    · rw [hqlen]
      exact Nat.dvd_mul_left _ _
  have hqn : ids.take ((i / t.pageSize + 1) * t.pageSize) <+: t.pathTokens n :=
    List.prefix_of_prefix_length_le (List.take_prefix _ _) hpre (hqlen.le.trans hin)
  refine ⟨_, (h.page _ _).mpr (blockAt_of_inTree hw hn hq hqn), ?_⟩
  have hstart : (i / t.pageSize + 1) * t.pageSize - t.pageSize = i / t.pageSize * t.pageSize := by
    rw [Nat.succ_mul, Nat.add_sub_cancel]
  rw [hqlen, hstart, List.getElem?_take_of_lt (Nat.mod_lt i hpos), List.getElem?_drop]
  congr 1
  rw [Nat.mul_comm]
  exact Nat.div_add_mod i t.pageSize

/-- A leaf below the end of the longest stored prefix of `ids` brings the rest. -/
theorem Refines.addLeaf (hw : t.Wf) (h : t.Refines m) {key : List Token} {kv : List KvIndex}
    (now : Time) (hok : t.LeafOk p key (kv.drop (t.pathTokens p).length))
    (hlongest : ∀ q b, t.BlockAt q b → q <+: t.pathTokens p ++ key →
      q.length ≤ (t.pathTokens p).length) :
    (t.addLeaf p key (kv.drop (t.pathTokens p).length) now).1.Refines
      (m.addPages t.pageSize (t.pathTokens p ++ key) kv) := by
  have hp := hok.parent
  refine ⟨sums_addLeaf h p key _ now, fun q s u => (h.snap q s u).trans (snapAt_addLeaf hw hok).symm,
    fun q b => ?_⟩
  rw [blockAt_addLeaf hw hok, PrefixMap.addPages]
  dsimp only
  split
  swap
  · rename_i hq
    rw [h.page]
    refine ⟨.inl, fun hb => hb.resolve_right fun hb => hq ⟨hb.1, hb.2.1⟩⟩
  rename_i hq
  cases hpage : m.page q with
  | some b₀ =>
    have hb₀ := (h.page q b₀).mp hpage
    rw [Option.some_or, ← hpage, h.page]
    refine ⟨.inl, fun hb => hb.resolve_right fun hb => ?_⟩
    exact absurd hb.2.2.1 (Nat.not_lt.mpr (hlongest q b₀ hb₀ hq.2))
  | none =>
    have hnone : ∀ b, ¬ t.BlockAt q b := fun b hb => by
      rw [(h.page q b).mpr hb] at hpage
      cases hpage
    have hlt : (t.pathTokens p).length < q.length := by
      by_contra hle
      have hqp := List.prefix_of_prefix_length_le hq.2 (List.prefix_append _ _) (Nat.not_lt.mp hle)
      exact hnone _ (blockAt_of_inTree hw hp hq.1 hqp)
    -- the last page of `q` lies in the new part
    have hpages := Nat.le_of_dvd (Nat.sub_pos_of_lt hlt)
      (Nat.dvd_sub hq.1.2 (dvd_pathTokens hw hp))
    have hlen := length_collectKv hw hp
    have hwindow : (t.collectKv p ++ kv.drop (t.pathTokens p).length).drop
        (q.length - t.pageSize) = kv.drop (q.length - t.pageSize) := by
      rw [List.drop_append, List.drop_eq_nil_of_le (by omega), List.nil_append, List.drop_drop, hlen]
      congr 1
      omega
    rw [Option.none_or, Option.some.injEq, hwindow]
    exact ⟨fun hb => .inr ⟨hq.1, hq.2, hlt, hb.symm⟩, fun hb => (hb.resolve_left (hnone b)).2.2.2.symm⟩

-- ---------------------------------------------------------------------------
-- A snapshot comes or goes
-- ---------------------------------------------------------------------------

/-- The trees differ in the snapshot and the sums of `n` alone. -/
structure MovesAt (t t' : RadixTree) (n : NodeId) : Prop extends SameShape t t' where
  mambaValue : ∀ k, k ≠ n → (t'.node k).mambaValue = (t.node k).mambaValue
  pooledSums : ∀ k, k ≠ n → (t'.node k).pooledSums = (t.node k).pooledSums

theorem MovesAt.of_modify (t : RadixTree) (n : NodeId) {f : Node → Node}
    (hp : ∀ x, (f x).parent = x.parent) (hl : ∀ x, (f x).linked = x.linked)
    (hk : ∀ x, (f x).key = x.key) (hv : ∀ x, (f x).value = x.value) : MovesAt t (t.modify n f) n where
  toSameShape := .modify t n hp hl hk hv
  mambaValue := fun k hk => by rw [modify_node, if_neg hk]
  pooledSums := fun k hk => by rw [modify_node, if_neg hk]

theorem MovesAt.snapAt (hw : t.Wf) (hm : MovesAt t t' n) (hn : t.InTree n) :
    t'.SnapAt q s u ↔
      (q = t.pathTokens n ∧ (t'.node n).mambaValue = some s ∧ (t'.node n).pooledSums = u) ∨
        (q ≠ t.pathTokens n ∧ t.SnapAt q s u) := by
  constructor
  · rintro ⟨k, hk, hu, htok⟩
    rw [hm.pathTokens_eq] at htok
    by_cases hkn : k = n
    · subst hkn
      exact .inl ⟨htok.symm, hk, hu⟩
    · rw [hm.mambaValue k hkn] at hk
      rw [hm.pooledSums k hkn] at hu
      refine .inr ⟨fun hq => hkn ?_, k, hk, hu, htok⟩
      exact pathTokens_inj hw (.inr (hw.snapshot_linked k s hk)) hn (htok.trans hq)
  · rintro (⟨hq, hk, hu⟩ | ⟨hq, k, hk, hu, htok⟩)
    · exact ⟨n, hk, hu, (hm.pathTokens_eq n).trans hq.symm⟩
    · have hkn : k ≠ n := by
        rintro rfl
        exact hq htok.symm
      exact ⟨k, (hm.mambaValue k hkn).trans hk, (hm.pooledSums k hkn).trans hu,
        (hm.pathTokens_eq k).trans htok⟩

/-- A snapshot change at `n` is a change of the map at `n`'s prefix. -/
theorem Refines.of_movesAt {m' : PrefixMap} (hw : t.Wf) (h : t.Refines m) (hm : MovesAt t t' n)
    (hn : t.InTree n)
    (hsums : (t'.node n).mambaValue = none → (t'.node n).pooledSums = none)
    (hpage : m'.page = m.page)
    (hold : ∀ q, q ≠ t.pathTokens n → m'.snap q = m.snap q)
    (hnew : ∀ s u, m'.snap (t.pathTokens n) = some (s, u) ↔
      (t'.node n).mambaValue = some s ∧ (t'.node n).pooledSums = u) : t'.Refines m' where
  sums := fun k hk => by
    by_cases hkn : k = n
    · subst hkn
      exact hsums hk
    · rw [hm.pooledSums k hkn]
      rw [hm.mambaValue k hkn] at hk
      exact h.sums k hk
  snap := fun q s u => by
    rw [hm.snapAt hw hn]
    by_cases hq : q = t.pathTokens n
    · subst hq
      rw [hnew]
      exact ⟨fun hv => .inl ⟨rfl, hv⟩, fun hv => (hv.resolve_right fun hr => hr.1 rfl).2⟩
    · rw [hold q hq, h.snap]
      exact ⟨fun hv => .inr ⟨hq, hv⟩, fun hv => (hv.resolve_left fun hl => hq hl.1).2⟩
  page := fun q b => by
    rw [hpage, h.page]
    exact (blockAt_of_sameShape hm.toSameShape).symm

end RadixTree

end FreeToken.KvCache
