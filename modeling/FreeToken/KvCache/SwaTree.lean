import FreeToken.KvCache.Prefixes
import FreeToken.KvCache.SwaRadixCache

/-!
# The window cache keeps its tree

What the matches and inserts of the sliding-window cache keep: the tree invariant, and
no window lock on a tombstone, which is the assertion of `insert`. The keys are whole
pages as long as an insert's `swa_evicted_seqlen` cuts no page.

## Results

* `matchLoop_tree` — a match splits at most one node;
* `insert_ok`, `insert_isSome` — an insert keeps it, and does not raise when it is
  given a page index for each token;
* `matchPrefix_keeps`, `insert_keeps` — so is whatever their moves keep.
-/

namespace FreeToken.KvCache

open FreeToken.Lib RadixTree

namespace RadixTree

structure SwaWf (t : RadixTree) : Prop extends Wf t where
  unlocked : ∀ n, (t.node n).swaTombstone = true → (t.node n).swaRefCount = 0
  no_snapshot : ∀ n, (t.node n).mambaValue = none

/-- `y` is `x` with other pages, marks and counts. -/
structure Recolors (x y : Node) : Prop where
  parent : y.parent = x.parent
  linked : y.linked = x.linked
  key : y.key = x.key
  value : y.value.length = x.value.length
  mambaValue : y.mambaValue = x.mambaValue
  unlocked : (x.swaTombstone = true → x.swaRefCount = 0) →
    y.swaTombstone = true → y.swaRefCount = 0

variable {t t' : RadixTree} {n p child : NodeId} {f : Node → Node} {rest : List Token}

theorem modify_field_at {β : Type*} (g : Node → β) (h : g (f (t.node n)) = g (t.node n))
    (m : NodeId) : g ((t.modify n f).node m) = g (t.node m) := by
  rw [modify_node]
  split
  · rename_i hm
    rw [hm, h]
  · rfl

theorem swaWf_empty {ps : Nat} (hps : 0 < ps) : (empty ps).SwaWf where
  toWf := wf_empty hps
  unlocked := by
    intro n h
    rw [empty_node] at h
    split at h
    · cases h
    · cases h
  no_snapshot := by
    intro n
    rw [empty_node]
    split
    · rfl
    · rfl

theorem SwaWf.recolor (h : t.SwaWf) (hf : Recolors (t.node n) (f (t.node n))) :
    (t.modify n f).SwaWf where
  toWf := by
    have hsnap := modify_field_at Node.mambaValue hf.mambaValue
    refine h.toWf.of_sameKeys rfl rfl (modify_field_at Node.parent hf.parent)
      (modify_field_at Node.linked hf.linked) (modify_field_at Node.key hf.key)
      (modify_field_at (fun x => x.value.length) hf.value) (fun m s hm => ?_)
      fun a _ s ha => ?_
    · rw [hsnap, h.no_snapshot] at hm
      cases hm
    · rw [hsnap, h.no_snapshot] at ha
      cases ha
  unlocked := by
    intro m hm
    rw [modify_node] at hm ⊢
    split
    · rename_i hmn
      rw [if_pos hmn, hmn] at hm
      rw [hmn]
      exact hf.unlocked (h.unlocked n) hm
    · rename_i hmn
      rw [if_neg hmn] at hm
      exact h.unlocked m hm
  no_snapshot := by
    intro m
    rw [modify_field_at Node.mambaValue hf.mambaValue]
    exact h.no_snapshot m

theorem SwaWf.stamp (h : t.SwaWf) (n : NodeId) (tic : Time) : (t.stamp n tic).SwaWf :=
  h.recolor ⟨rfl, rfl, rfl, rfl, rfl, id⟩

theorem SwaWf.stampPath (h : t.SwaWf) (n : NodeId) (base : Time) : (t.stampPath n base).SwaWf := by
  rw [RadixTree.stampPath]
  generalize (t.rootPath n).zipIdx = l
  induction l generalizing t with
  | nil => exact h
  | cons cur l ih => exact ih (h.stamp cur.1 _)

theorem SwaWf.splitAt (h : t.SwaWf) {pos : Nat} (hok : t.SplitOk n pos) :
    (t.splitAt n pos).1.SwaWf := by
  have hn : n ≠ t.next := Nat.ne_of_lt (h.linked_lt hok.linked)
  refine { toWf := h.toWf.splitAt hok, unlocked := fun m hm => ?_, no_snapshot := fun m => ?_ }
  · by_cases hs : m = t.next
    · subst hs
      rw [splitAt_prefixLen] at hm ⊢
      exact h.unlocked n hm
    · by_cases hmn : m = n
      · subst hmn
        rw [splitAt_suffix t m pos hn] at hm ⊢
        exact h.unlocked m hm
      · rw [splitAt_old t n m pos hmn hs] at hm ⊢
        exact h.unlocked m hm
  · rw [splitAt_mambaValue t n pos hn]
    split
    · rfl
    · exact h.no_snapshot m

theorem SwaWf.addLeaf (h : t.SwaWf) {key : List Token} {value : List KvIndex} {now : Time}
    (hok : t.LeafOk p key value) : (t.addLeaf p key value now).1.SwaWf := by
  refine { toWf := h.toWf.addLeaf hok, unlocked := fun m hm => ?_, no_snapshot := fun m => ?_ }
  · by_cases hs : m = t.next
    · rw [hs, addLeaf_new] at hm
      cases hm
    · rw [addLeaf_old t p m key value now hs] at hm ⊢
      exact h.unlocked m hm
  · by_cases hs : m = t.next
    · rw [hs, addLeaf_new]
    · rw [addLeaf_old t p m key value now hs]
      exact h.no_snapshot m

theorem SwaWf.unlink (h : t.SwaWf) (hleaf : t.isLeaf n = true) : (t.unlink n).SwaWf where
  toWf := h.toWf.unlink hleaf (h.no_snapshot n)
  unlocked := by
    intro m hm
    have htomb : ((t.unlink n).node m).swaTombstone = (t.node m).swaTombstone :=
      modify_field t n m Node.swaTombstone fun _ => rfl
    have href : ((t.unlink n).node m).swaRefCount = (t.node m).swaRefCount :=
      modify_field t n m Node.swaRefCount fun _ => rfl
    rw [htomb] at hm
    rw [href]
    exact h.unlocked m hm
  no_snapshot := by
    intro m
    have hsnap : ((t.unlink n).node m).mambaValue = (t.node m).mambaValue :=
      modify_field t n m Node.mambaValue fun _ => rfl
    rw [hsnap]
    exact h.no_snapshot m

-- ---------------------------------------------------------------------------
-- The match loop's tree
-- ---------------------------------------------------------------------------

/-- A match splits at most one node. -/
theorem matchLoop_tree (window fuel : Nat) (h : t.Wf) (m : Matching) (rest : List Token) :
    (matchLoop window fuel t m rest).1 = t ∨
      ∃ c k, t.SplitOk c k ∧ (matchLoop window fuel t m rest).1 = (t.splitAt c k).1 := by
  induction fuel generalizing m rest with
  | zero => exact .inl rfl
  | succ fuel ih =>
    rw [matchLoop]
    split
    · exact .inl rfl
    · split
      · exact .inl rfl
      · rename_i c hc
        have hent := h.enters hc
        dsimp only
        split
        · exact .inl rfl
        · split
          · rename_i hlt
            exact .inr ⟨c, _, hent.splitOk (Nat.ne_of_lt hlt), rfl⟩
          · exact ih _ _

theorem SwaWf.matchLoop (h : t.SwaWf) (window fuel : Nat) (m : Matching) (rest : List Token) :
    (matchLoop window fuel t m rest).1.SwaWf := by
  rcases matchLoop_tree window fuel h.toWf m rest with heq | ⟨c, k, hok, heq⟩
  · rwa [heq]
  · rw [heq]
    exact h.splitAt hok

-- ---------------------------------------------------------------------------
-- Children
-- ---------------------------------------------------------------------------

theorem childOf_eq_none_iff (h : t.Wf) : t.childOf n rest = none ↔
    ∀ d, (t.node d).linked = true → (t.node d).parent = some n →
      (t.node d).key.take t.pageSize ≠ rest.take t.pageSize := by
  rw [Option.eq_none_iff_forall_ne_some]
  constructor
  · intro hnone d hl hp hk
    exact hnone d (h.childOf_eq_some_iff.mpr ⟨hl, hp, hk⟩)
  · intro hall d hd
    obtain ⟨hl, hp, hk⟩ := h.childOf_eq_some_iff.mp hd
    exact hall d hl hp hk

theorem childOf_recolor (hf : Recolors (t.node n) (f (t.node n))) (p : NodeId) :
    (t.modify n f).childOf p rest = t.childOf p rest := by
  have hparent := modify_field_at Node.parent hf.parent
  have hlinked := modify_field_at Node.linked hf.linked
  have hkey := modify_field_at Node.key hf.key
  simp only [childOf, hparent, hlinked, hkey, modify_next, modify_pageSize]

theorem inTree_recolor (hf : Recolors (t.node n) (f (t.node n))) (p : NodeId) :
    (t.modify n f).InTree p ↔ t.InTree p := by
  rw [InTree, InTree, modify_field_at Node.linked hf.linked]

theorem childOf_addLeaf_new (h : t.Wf) {key : List Token} {value : List KvIndex} {now : Time}
    (hok : t.LeafOk p key value) :
    (t.addLeaf p key value now).1.childOf t.next rest = none := by
  refine (childOf_eq_none_iff (h.addLeaf hok)).mpr fun d _ hp => ?_
  by_cases hd : d = t.next
  · rw [hd, addLeaf_new, Option.some.injEq] at hp
    exact absurd (hp ▸ h.inTree_lt hok.parent) (Nat.lt_irrefl _)
  · rw [addLeaf_old t p d key value now hd] at hp
    exact absurd (h.parent_lt d _ hp).2 (Nat.lt_irrefl _)

/-- A split leaves the children of the node it shortens. -/
theorem childOf_splitAt_self (h : t.Wf) {pos : Nat} (hok : t.SplitOk n pos)
    (hnone : t.childOf n rest = none) : (t.splitAt n pos).1.childOf n rest = none := by
  have hn : n ≠ t.next := Nat.ne_of_lt (h.linked_lt hok.linked)
  refine (childOf_eq_none_iff (h.splitAt hok)).mpr fun d hl hp => ?_
  rw [splitAt_parent t n pos hn] at hp
  split at hp
  · exact absurd hp (h.parent_ne_self n)
  · rename_i hds
    split at hp
    · exact absurd (Option.some.inj hp).symm hn
    · rename_i hdn
      rw [splitAt_old t n d pos hdn hds] at hl ⊢
      exact (childOf_eq_none_iff h).mp hnone d hl hp

end RadixTree

namespace SWARadixCache

/-- What holds of the cache between two calls. -/
structure Ok (c : SWARadixCache) : Prop extends SwaWf c.toRadixTree where
  window_pos : 0 < c.slidingWindowSize

variable {c c' d : SWARadixCache} {node child : NodeId}

theorem ok_empty {ps window : Nat} (hps : 0 < ps) (hw : 0 < window) : (empty ps window).Ok :=
  ⟨swaWf_empty hps, hw⟩

-- ---------------------------------------------------------------------------
-- The moves of a match and of an insert
-- ---------------------------------------------------------------------------

/-- What a new child needs: a parent in the tree without a child for its first page. -/
structure ChildOk (c : SWARadixCache) (parent : NodeId) (ids : List Token) : Prop where
  inTree : c.InTree parent
  pos : 0 < ids.length
  pages : c.pageSize ∣ ids.length
  fresh : c.childOf parent ids = none

/-- The moves of a match keep `P`. -/
structure MatchKeeps (P : SWARadixCache → Prop) : Prop where
  stamp : ∀ (c : SWARadixCache) n tic, c.Ok → P c → P { c with toRadixTree := c.stamp n tic }
  clock : ∀ (c : SWARadixCache) k, P c → P { c with clk := k }
  split : ∀ (c : SWARadixCache) n pos, c.Ok → c.SplitOk n pos → P c →
    P { c with toRadixTree := (c.splitAt n pos).1 }

/-- The moves of an insert keep `P`. -/
structure InsertKeeps (P : SWARadixCache → Prop) : Prop extends MatchKeeps P where
  child : ∀ (c : SWARadixCache) parent ids kv tombstone r, c.Ok → c.ChildOk parent ids →
    c.addChild parent ids kv tombstone = some r → P c → P r.1
  revive : ∀ (c : SWARadixCache) child kv d, c.Ok → (c.node child).linked = true →
    (c.node child).swaTombstone = true → (c.node child).refCount = 0 →
    c.revive child kv = some d → P c → P d

theorem insertKeeps_true : InsertKeeps fun _ => True :=
  ⟨⟨fun _ _ _ _ _ => trivial, fun _ _ _ => trivial, fun _ _ _ _ _ _ => trivial⟩,
    fun _ _ _ _ _ _ _ _ _ _ => trivial, fun _ _ _ _ _ _ _ _ _ _ => trivial⟩

variable {P : SWARadixCache → Prop}

theorem MatchKeeps.stampPath (hP : MatchKeeps P) (h : c.Ok) (hc : P c) (n : NodeId)
    (base : Time) : P { c with toRadixTree := c.stampPath n base } := by
  rw [RadixTree.stampPath]
  generalize (c.rootPath n).zipIdx = l
  induction l generalizing c with
  | nil => exact hc
  | cons cur l ih =>
    exact ih (c := { c with toRadixTree := c.stamp cur.1 (base - cur.2) })
      ⟨h.toSwaWf.stamp cur.1 _, h.window_pos⟩ (hP.stamp c cur.1 _ h hc)

theorem matchPrefix_ok (h : c.Ok) (inputIds : List Token) : (c.matchPrefix inputIds).1.Ok :=
  ⟨(h.toSwaWf.matchLoop _ _ _ _).stampPath _ _, h.window_pos⟩

theorem matchPrefix_keeps (hP : MatchKeeps P) (h : c.Ok) (hc : P c) (inputIds : List Token) :
    P (c.matchPrefix inputIds).1 := by
  let split : SWARadixCache := { c with toRadixTree :=
    (c.toRadixTree.matchLoop c.slidingWindowSize inputIds.length .init inputIds).1 }
  have hok : split.Ok := ⟨h.toSwaWf.matchLoop _ _ _ _, h.window_pos⟩
  have hsplit : P split := by
    show P { c with toRadixTree := _ }
    rcases matchLoop_tree c.slidingWindowSize inputIds.length h.toWf .init inputIds with
      heq | ⟨n, k, hok, heq⟩
    · rw [heq]
      exact hc
    · rw [heq]
      exact hP.split c n k h hok hc
  exact hP.clock _ _ (hP.stampPath hok hsplit _ _)

-- ---------------------------------------------------------------------------
-- Insert
-- ---------------------------------------------------------------------------

/-- `d` is `c` with another tree of the same page size, for which `P` holds. -/
structure Continues (P : SWARadixCache → Prop) (c d : SWARadixCache) : Prop where
  ok : d.Ok
  pageSize : d.pageSize = c.pageSize
  keeps : P d

theorem addChild_ok {parent : NodeId} {ids : List Token} {kv : List KvIndex} {tombstone : Bool}
    {r : SWARadixCache × NodeId} (hP : InsertKeeps P) (h : c.Ok) (hp : P c)
    (hc : c.ChildOk parent ids) (hadd : c.addChild parent ids kv tombstone = some r) :
    Continues P c r.1 ∧ r.1.InTree r.2 ∧ ∀ toks, r.1.childOf r.2 toks = none := by
  have hkeeps := hP.child c parent ids kv tombstone r h hc hadd hp
  rw [addChild] at hadd
  by_cases hlen : kv.length = ids.length
  swap
  · rw [if_pos hlen] at hadd
    cases hadd
  rw [if_neg (not_not.mpr hlen), Option.some.injEq] at hadd
  have hleaf : c.LeafOk parent ids kv := ⟨hc.inTree, hc.pos, hc.pages, hlen, hc.fresh⟩
  have hnew := addLeaf_new c.toRadixTree parent ids kv ((c.clk + 1) * eventStride)
  have hcolor : Recolors ((c.addLeaf parent ids kv ((c.clk + 1) * eventStride)).1.node c.next)
      (((c.addLeaf parent ids kv ((c.clk + 1) * eventStride)).1.node c.next).setTombstone
        tombstone) :=
    ⟨rfl, rfl, rfl, rfl, rfl, fun _ _ => by rw [hnew]; rfl⟩
  subst hadd
  refine ⟨⟨⟨(h.toSwaWf.addLeaf hleaf).recolor hcolor, h.window_pos⟩, rfl, hkeeps⟩, ?_,
    fun toks => ?_⟩
  · refine (inTree_recolor hcolor _).mpr (.inr ?_)
    rw [addLeaf_snd, addLeaf_new]
  · exact (childOf_recolor hcolor _).trans (childOf_addLeaf_new h.toWf hleaf)

/-- A revive keeps everything but the pages and marks of its node. -/
theorem revive_ok {kv : List KvIndex} (h : c.Ok) (hl : (c.node child).linked = true)
    (hrev : c.revive child kv = some d) :
    (d.Ok ∧ d.pageSize = c.pageSize) ∧ (∀ m, d.InTree m ↔ c.InTree m) ∧
      ∀ m toks, d.childOf m toks = c.childOf m toks := by
  rw [revive] at hrev
  by_cases hlen : kv.length = (c.node child).length
  swap
  · rw [if_pos hlen] at hrev
    cases hrev
  rw [if_neg (not_not.mpr hlen), Option.some.injEq] at hrev
  subst hrev
  have hcolor : Recolors (c.node child)
      ((c.node child).adopt kv ((c.clk + 1) * eventStride)) :=
    ⟨rfl, rfl, rfl, hlen.trans (h.key_value child hl).symm, rfl, fun _ hf => by cases hf⟩
  exact ⟨⟨⟨h.toSwaWf.recolor hcolor, h.window_pos⟩, rfl⟩, inTree_recolor hcolor,
    fun m _ => childOf_recolor hcolor m⟩

theorem reconcile_ok {segKv : List KvIndex} {total matchLen ev upd : Nat}
    {r : SWARadixCache × List KvIndex} (hP : InsertKeeps P) (h : c.Ok) (hp : P c)
    (hl : (c.node child).linked = true) (hmatch : matchLen = (c.node child).length)
    (hpages : ev < total + matchLen → c.pageSize ∣ ev - total)
    (hrec : c.reconcile child segKv total matchLen ev upd = some r) :
    Continues P c r.1 ∧ r.1.InTree child ∧
      ∀ toks, c.childOf child toks = none → r.1.childOf child toks = none := by
  have same : Continues P c c ∧ c.InTree child ∧
      ∀ toks, c.childOf child toks = none → c.childOf child toks = none :=
    ⟨⟨h, rfl, hp⟩, .inr hl, fun _ => id⟩
  rw [reconcile] at hrec
  split at hrec
  swap
  · cases hrec
    exact same
  split at hrec
  swap
  · cases hrec
    exact same
  rename_i htomb
  split at hrec
  · cases hrec
  split at hrec
  · cases hrec
    exact same
  rename_i href
  rw [Nat.pos_iff_ne_zero, not_not] at href
  split at hrec
  · obtain ⟨d, hrev, rfl⟩ := Option.map_eq_some_iff.mp hrec
    obtain ⟨⟨hok, hps⟩, htree, hchild⟩ := revive_ok h hl hrev
    exact ⟨⟨hok, hps, hP.revive c child segKv d h hl htomb href hrev hp⟩,
      (htree child).mpr (.inr hl), fun toks hnone => (hchild _ toks).trans hnone⟩
  split at hrec
  · rename_i hgt hlt
    obtain ⟨d, hrev, rfl⟩ := Option.map_eq_some_iff.mp hrec
    -- the frontier falls inside the node: the head stays a tombstone
    have hsplit : c.SplitOk child (ev - total) := by
      refine ⟨hl, by omega, ?_, hpages hlt⟩
      show ev - total < (c.node child).length
      omega
    have hs : ({ c with toRadixTree := (c.splitAt child (ev - total)).1 } : SWARadixCache).Ok :=
      ⟨h.toSwaWf.splitAt hsplit, h.window_pos⟩
    have hls : ((c.splitAt child (ev - total)).1.node child).linked = true :=
      (splitAt_linked c.toRadixTree child _ (Nat.ne_of_lt (h.linked_lt hl)) child).mpr (.inr hl)
    have hsuffix := splitAt_suffix c.toRadixTree child (ev - total)
      (Nat.ne_of_lt (h.linked_lt hl))
    obtain ⟨⟨hok, hps⟩, htree, hchild⟩ := revive_ok hs hls hrev
    have hkeeps : P d := by
      refine hP.revive _ child _ d hs hls ?_ ?_ hrev (hP.split c child _ h hsplit hp)
      · exact (congrArg Node.swaTombstone hsuffix).trans htomb
      · exact (congrArg Node.refCount hsuffix).trans href
    refine ⟨⟨hok, hps, hkeeps⟩, (htree child).mpr (.inr hls), fun toks hnone => ?_⟩
    exact (hchild _ toks).trans (childOf_splitAt_self h.toWf hsplit hnone)
  · cases hrec
    exact same

theorem reconcile_isSome {segKv : List KvIndex} {total matchLen ev upd : Nat} (h : c.Ok)
    (hl : (c.node child).linked = true) (hmatch : matchLen = (c.node child).length)
    (hseg : segKv.length = matchLen) :
    (c.reconcile child segKv total matchLen ev upd).isSome = true := by
  rw [reconcile]
  split
  swap
  · rfl
  split
  swap
  · rfl
  rename_i htomb
  rw [if_neg (not_not.mpr (h.unlocked child htomb))]
  split
  · rfl
  split
  · rw [revive, if_neg (not_not.mpr (hseg.trans hmatch))]
    rfl
  split
  · have hlen : (segKv.drop (ev - total)).length =
        ((c.splitAt child (ev - total)).1.node child).length := by
      rw [splitAt_suffix c.toRadixTree child _ (Nat.ne_of_lt (h.linked_lt hl)), Node.length,
        List.length_drop, List.length_drop, hseg, hmatch]
      rfl
    dsimp only
    rw [revive, if_neg (not_not.mpr hlen)]
    rfl
  · rfl

/-- The loop of `insert` between two rounds. -/
structure Reached (ps : Nat) (ids : List Token) (e : Inserting) : Prop where
  ok : e.cache.Ok
  pageSize : e.cache.pageSize = ps
  inTree : e.cache.InTree e.node
  pages : ps ∣ e.total
  le : e.total ≤ ids.length

/-- After its last round. -/
structure Stuck (ps : Nat) (ids : List Token) (e : Inserting) : Prop extends Reached ps ids e where
  stuck : e.total = ids.length ∨ e.cache.childOf e.node (ids.drop e.total) = none

/-- No page of the inserted tokens is cut by the frontier of the freed window. -/
def Aligned (ps : Nat) (ids : List Token) (ev : Nat) : Prop := ps ∣ min ev ids.length

variable {ps : Nat} {ids : List Token} {kv : List KvIndex} {ev upd : Nat} {e : Inserting}

theorem Aligned.dvd_sub (hal : Aligned ps ids ev) {total : Nat} (hpages : ps ∣ total)
    (hlt : ev < ids.length) : ps ∣ ev - total := by
  rw [Aligned, Nat.min_eq_left (Nat.le_of_lt hlt)] at hal
  exact Nat.dvd_sub hal hpages

/-- What a round finds: a child that the tokens enter. -/
theorem Reached.enters (h : Reached ps ids e)
    (hc : e.cache.childOf e.node (ids.drop e.total) = some child) :
    e.cache.Enters child (ids.drop e.total)
        (alignDown (commonPrefixLen (e.cache.node child).key (ids.drop e.total)) e.cache.pageSize) ∧
      e.total + alignDown (commonPrefixLen (e.cache.node child).key (ids.drop e.total))
        e.cache.pageSize ≤ ids.length := by
  have hent := h.ok.enters hc
  refine ⟨hent, ?_⟩
  have hle := hent.le_rest
  have htotal := h.le
  rw [List.length_drop] at hle
  omega

theorem insertLoop_ok (hP : InsertKeeps P) (fuel : Nat) (hal : Aligned ps ids ev)
    (h : Reached ps ids e) (hp : P e.cache) (hfuel : ids.length - e.total ≤ fuel) {e' : Inserting}
    (hrun : insertLoop ids kv ev upd fuel e = some e') : Stuck ps ids e' ∧ P e'.cache := by
  induction fuel generalizing e with
  | zero =>
    rw [insertLoop, Option.some.injEq] at hrun
    subst hrun
    have hle := h.le
    exact ⟨⟨h, .inl (by omega)⟩, hp⟩
  | succ fuel ih =>
    rw [insertLoop] at hrun
    split at hrun
    · rename_i hdone
      rw [Option.some.injEq] at hrun
      subst hrun
      exact ⟨⟨h, .inl (Nat.le_antisymm h.le hdone)⟩, hp⟩
    split at hrun
    · rename_i hnone
      rw [Option.some.injEq] at hrun
      subst hrun
      exact ⟨⟨h, .inr hnone⟩, hp⟩
    rename_i c hc
    obtain ⟨hent, hbound⟩ := h.enters hc
    have hps := h.pageSize
    have hpages : ps ∣ e.total + alignDown
        (commonPrefixLen (e.cache.node c).key (ids.drop e.total)) e.cache.pageSize :=
      Nat.dvd_add h.pages (hps ▸ hent.pages)
    have hfront : ∀ {k}, e.total + k ≤ ids.length → ev < e.total + k → ps ∣ ev - e.total :=
      fun hk hlt => hal.dvd_sub h.pages (Nat.lt_of_lt_of_le hlt hk)
    have hchild := h.ok.toWf.childOf_splitAt_none hent
    dsimp only at hrun
    generalize alignDown (commonPrefixLen (e.cache.node c).key (ids.drop e.total))
      e.cache.pageSize = k at *
    have hpos := hent.pos
    rw [if_neg (Nat.ne_of_gt hpos)] at hrun
    split at hrun
    · -- the node is left in the middle, so it is split and the loop ends
      rename_i hlt
      obtain ⟨r, hrec, rfl⟩ := Option.map_eq_some_iff.mp hrun
      have hsplit := hent.splitOk (Nat.ne_of_lt hlt)
      have hlen : k = ((e.cache.splitAt c k).1.node e.cache.next).length := by
        rw [splitAt_prefixLen, Node.length, List.length_take, Nat.min_eq_left hent.le_key]
      have hs : ({ e.cache with toRadixTree := (e.cache.splitAt c k).1 } : SWARadixCache).Ok :=
        ⟨h.ok.toSwaWf.splitAt hsplit, h.ok.window_pos⟩
      have hls : ((e.cache.splitAt c k).1.node e.cache.next).linked = true := by
        rw [splitAt_prefixLen]
      obtain ⟨hcont, htree, hnone⟩ := reconcile_ok hP hs (hP.split _ c k h.ok hsplit hp) hls hlen
        (fun hlt => hps.symm ▸ hfront hbound hlt) hrec
      refine ⟨⟨⟨hcont.ok, hcont.pageSize.trans hps, htree, hpages, hbound⟩, .inr ?_⟩, hcont.keeps⟩
      refine hnone _ ?_
      rw [← List.drop_drop]
      exact hchild (Nat.ne_of_lt hlt)
    · -- the whole node is passed
      rename_i hge
      obtain ⟨r, hrec, hrun⟩ := Option.bind_eq_some_iff.mp hrun
      have hlen : k = (e.cache.node c).length :=
        Nat.le_antisymm hent.le_key (Nat.le_of_not_lt hge)
      obtain ⟨hcont, htree, -⟩ := reconcile_ok hP h.ok hp hent.linked hlen
        (fun hlt => hps.symm ▸ hfront hbound hlt) hrec
      refine ih ⟨hcont.ok, hcont.pageSize.trans hps, htree, hpages, hbound⟩ hcont.keeps ?_ hrun
      show ids.length - (e.total + k) ≤ fuel
      omega

theorem addSuffix_ok {boundary : Nat} {suffix : List Token} (hP : InsertKeeps P) (h : c.Ok)
    (hp : P c) (hc : c.ChildOk node suffix) (hpages : c.pageSize ∣ boundary)
    (hlt : boundary < suffix.length) (hadd : c.addSuffix node suffix kv boundary = some d) :
    d.Ok ∧ P d := by
  rw [addSuffix] at hadd
  split at hadd
  swap
  · obtain ⟨r, hr, rfl⟩ := Option.map_eq_some_iff.mp hadd
    have hcont := (addChild_ok hP h hp hc hr).1
    exact ⟨hcont.ok, hcont.keeps⟩
  rename_i hpos
  obtain ⟨head, hhead, hadd⟩ := Option.bind_eq_some_iff.mp hadd
  have hlen : (suffix.take boundary).length = boundary := List.length_take_of_le (Nat.le_of_lt hlt)
  have hfirst : c.ChildOk node (suffix.take boundary) := by
    refine ⟨hc.inTree, hlen.symm ▸ hpos, hlen.symm ▸ hpages, ?_⟩
    rw [← hc.fresh]
    simp only [childOf, take_take_of_dvd hpos hpages]
  obtain ⟨hcont, htree, hnone⟩ := addChild_ok hP h hp hfirst hhead
  split at hadd
  · cases hadd
    exact ⟨hcont.ok, hcont.keeps⟩
  · obtain ⟨r, hr, rfl⟩ := Option.map_eq_some_iff.mp hadd
    have htail : head.1.ChildOk head.2 (suffix.drop boundary) := by
      refine ⟨htree, ?_, ?_, hnone _⟩
      · rw [List.length_drop]
        omega
      · rw [List.length_drop, hcont.pageSize]
        exact Nat.dvd_sub hc.pages hpages
    have hlast := (addChild_ok hP hcont.ok hcont.keeps htail hr).1
    exact ⟨hlast.ok, hlast.keeps⟩

/-- The loop of `insert` starts at the root. -/
theorem reached_root (h : c.Ok) (ids : List Token) :
    Reached c.pageSize ids ⟨c, root, 0, []⟩ :=
  ⟨h, rfl, .inl rfl, Nat.dvd_zero _, Nat.zero_le _⟩

theorem length_take_alignDown {α : Type*} (l : List α) (ps : Nat) :
    (l.take (alignDown l.length ps)).length = alignDown l.length ps :=
  List.length_take_of_le (alignDown_le _ _)

theorem insert_keeps {inputIds : List Token} {r : Nat × List KvIndex} (hP : InsertKeeps P)
    (h : c.Ok) (hp : P c) (hal : c.pageSize ∣ min ev (alignDown inputIds.length c.pageSize))
    (hins : c.insert inputIds kv ev upd = some (d, r)) : d.Ok ∧ P d := by
  have hlen := length_take_alignDown inputIds c.pageSize
  have hdvd := dvd_alignDown inputIds.length c.pageSize
  simp only [insert] at hins
  generalize alignDown inputIds.length c.pageSize = len at *
  generalize inputIds.take len = ids at *
  subst hlen
  obtain ⟨e, hloop, hins⟩ := Option.bind_eq_some_iff.mp hins
  obtain ⟨⟨hreach, hstuck⟩, hloopP⟩ :=
    insertLoop_ok hP _ hal (reached_root h ids) hp (Nat.sub_le _ _) hloop
  split at hins
  swap
  · cases hins
    exact ⟨hreach.ok, hloopP⟩
  rename_i hlt
  obtain ⟨d', hadd, hd⟩ := Option.map_eq_some_iff.mp hins
  cases hd
  have hps := hreach.pageSize
  have hsuffix : (ids.drop e.total).length = ids.length - e.total := List.length_drop
  have hpages : e.cache.pageSize ∣ (ids.drop e.total).length := by
    rw [hsuffix, hps]
    exact Nat.dvd_sub hdvd hreach.pages
  have hpos : 0 < (ids.drop e.total).length := by omega
  have hpage_pos := h.page_pos
  refine addSuffix_ok hP hreach.ok hloopP ⟨hreach.inTree, hpos, hpages, ?_⟩ ?_ ?_ hadd
  · exact hstuck.resolve_left (Nat.ne_of_lt hlt)
  · have hone : e.cache.pageSize ∣ min ev ids.length - e.total := by
      rw [hps]
      exact Nat.dvd_sub hal hreach.pages
    have htwo : e.cache.pageSize ∣ (ids.drop e.total).length - c.pageSize :=
      Nat.dvd_sub hpages (hps ▸ Nat.dvd_refl _)
    rcases Nat.le_total (min ev ids.length - e.total) ((ids.drop e.total).length - c.pageSize)
      with hle | hle
    · rwa [Nat.min_eq_left hle]
    · rwa [Nat.min_eq_right hle]
  · refine Nat.lt_of_le_of_lt (Nat.min_le_right _ _) ?_
    exact Nat.sub_lt hpos hpage_pos

theorem insert_ok {inputIds : List Token} {r : Nat × List KvIndex} (h : c.Ok)
    (hal : c.pageSize ∣ min ev (alignDown inputIds.length c.pageSize))
    (hins : c.insert inputIds kv ev upd = some (d, r)) : d.Ok :=
  (insert_keeps insertKeeps_true h trivial hal hins).1

theorem insertLoop_isSome (fuel : Nat) (hal : Aligned ps ids ev) (h : Reached ps ids e)
    (hkv : kv.length = ids.length) : (insertLoop ids kv ev upd fuel e).isSome = true := by
  induction fuel generalizing e with
  | zero => rfl
  | succ fuel ih =>
    rw [insertLoop]
    split
    · rfl
    split
    · rfl
    rename_i c hc
    obtain ⟨hent, hbound⟩ := h.enters hc
    have hps := h.pageSize
    have hpages : ps ∣ e.total + alignDown
        (commonPrefixLen (e.cache.node c).key (ids.drop e.total)) e.cache.pageSize :=
      Nat.dvd_add h.pages (hps ▸ hent.pages)
    dsimp only
    generalize alignDown (commonPrefixLen (e.cache.node c).key (ids.drop e.total))
      e.cache.pageSize = k at *
    have hseg : ((kv.drop e.total).take k).length = k := by
      rw [List.length_take, List.length_drop, hkv]
      omega
    rw [if_neg (Nat.ne_of_gt hent.pos)]
    split
    · rename_i hlt
      have hsplit := hent.splitOk (Nat.ne_of_lt hlt)
      rw [Option.isSome_map]
      refine reconcile_isSome ⟨h.ok.toSwaWf.splitAt hsplit, h.ok.window_pos⟩ ?_ ?_ hseg
      · show ((e.cache.splitAt c k).1.node e.cache.next).linked = true
        rw [splitAt_prefixLen]
      · show k = ((e.cache.splitAt c k).1.node e.cache.next).length
        rw [splitAt_prefixLen, Node.length, List.length_take, Nat.min_eq_left hent.le_key]
    · rename_i hge
      have hlen : k = (e.cache.node c).length :=
        Nat.le_antisymm hent.le_key (Nat.le_of_not_lt hge)
      obtain ⟨r, hrec⟩ := Option.isSome_iff_exists.mp
        (reconcile_isSome h.ok hent.linked hlen hseg)
      rw [hrec, Option.bind_some]
      have hfront : ev < e.total + k → e.cache.pageSize ∣ ev - e.total := fun hlt =>
        hps.symm ▸ hal.dvd_sub h.pages (Nat.lt_of_lt_of_le hlt hbound)
      obtain ⟨hcont, htree, -⟩ :=
        reconcile_ok insertKeeps_true h.ok trivial hent.linked hlen hfront hrec
      exact ih ⟨hcont.ok, hcont.pageSize.trans hps, htree, hpages, hbound⟩

theorem addChild_isSome {ids : List Token} {tombstone : Bool} (c : SWARadixCache) (node : NodeId)
    (hlen : kv.length = ids.length) : (c.addChild node ids kv tombstone).isSome = true := by
  rw [addChild, if_neg (not_not.mpr hlen)]
  rfl

theorem addSuffix_isSome {suffix : List Token} (c : SWARadixCache) (node : NodeId)
    (boundary : Nat) (hlen : kv.length = suffix.length) :
    (c.addSuffix node suffix kv boundary).isSome = true := by
  rw [addSuffix]
  split
  · have hhead : (kv.take boundary).length = (suffix.take boundary).length := by
      rw [List.length_take, List.length_take, hlen]
    obtain ⟨head, hhead⟩ : ∃ head, c.addChild node (suffix.take boundary) (kv.take boundary)
        true = some head := Option.isSome_iff_exists.mp (addChild_isSome c node hhead)
    rw [hhead, Option.bind_some]
    split
    · rfl
    · rw [Option.isSome_map]
      refine addChild_isSome _ _ ?_
      rw [List.length_drop, List.length_drop, hlen]
  · rw [Option.isSome_map]
    exact addChild_isSome _ _ hlen

/-- With a page index for each token an insert does not raise. -/
theorem insert_isSome {inputIds : List Token} (h : c.Ok)
    (hal : c.pageSize ∣ min ev (alignDown inputIds.length c.pageSize))
    (hkv : alignDown inputIds.length c.pageSize ≤ kv.length) (upd : Nat) :
    (c.insert inputIds kv ev upd).isSome = true := by
  have hlen := length_take_alignDown inputIds c.pageSize
  have hkvlen : (kv.take (alignDown inputIds.length c.pageSize)).length =
      alignDown inputIds.length c.pageSize := List.length_take_of_le hkv
  simp only [insert]
  generalize alignDown inputIds.length c.pageSize = len at *
  generalize inputIds.take len = ids at *
  generalize kv.take len = pages at *
  subst hlen
  have hloop : (insertLoop ids pages ev upd ids.length ⟨c, root, 0, []⟩).isSome = true :=
    insertLoop_isSome ids.length hal (reached_root h ids) hkvlen
  obtain ⟨e, he⟩ := Option.isSome_iff_exists.mp hloop
  rw [he, Option.bind_some]
  split
  · rw [Option.isSome_map]
    refine addSuffix_isSome _ _ _ ?_
    rw [List.length_drop, List.length_drop, hkvlen]
  · rfl

end SWARadixCache

end FreeToken.KvCache
