import FreeToken.KvCache.Walk
import Mathlib.Data.List.Infix

/-!
# Nodes as token prefixes

A node of the tree stands for the tokens on its way from the root. Whatever the
nodes carry token by token (the tokens, the pages, a mark per token) is read off
along that way, and splits do not show in it.

## Results

* `concat_splitAt`, `concat_addLeaf` — what is read along a path is the same after
  a split and after a new leaf;
* `comparable` — of two nodes that stand for prefixes of one sequence, the shorter
  is on the way to the longer;
* `le_of_stuck` — where no child continues the input, no stored prefix of the
  input is longer;
* `walk_tokens` — a walk ends at the node of the prefix it took.
-/

namespace FreeToken.KvCache

open FreeToken.Lib

/-- A share of `f` for each token: cutting a node cuts its share. -/
def Cuts {β : Type*} (f : Node → List β) : Prop :=
  ∀ (x : Node) (pos : Nat) (s : NodeId),
    f { parent := x.parent, linked := true, key := x.key.take pos, value := x.value.take pos,
        refCount := x.refCount, timestamp := x.timestamp, swaTombstone := x.swaTombstone,
        swaRefCount := x.swaRefCount, swaUuid := x.swaUuid } ++
      f { x with
          parent := some s, key := x.key.drop pos, value := x.value.drop pos
          swaUuid := none } = f x

namespace RadixTree

variable {β : Type*} {f : Node → List β} {t t' : RadixTree} {n p a b e : NodeId}
  {toks q : List Token}

/-- What the nodes from the root to `n` carry, in order. -/
def concat (t : RadixTree) (f : Node → List β) (n : NodeId) : List β :=
  (t.rootPath n).reverse.flatMap fun m => f (t.node m)

theorem cuts_key : Cuts Node.key := fun x pos _ => List.take_append_drop pos x.key

theorem cuts_value : Cuts Node.value := fun x pos _ => List.take_append_drop pos x.value

theorem concat_root (h : t.Wf) (f : Node → List β) : t.concat f root = [] := by
  rw [concat, h.rootPath_root]
  rfl

theorem concat_child (h : t.Wf) (hp : (t.node n).parent = some p) (f : Node → List β) :
    t.concat f n = t.concat f p ++ f (t.node n) := by
  rw [concat, concat, h.rootPath_cons hp, List.reverse_cons, List.flatMap_append,
    List.flatMap_singleton]

theorem concat_congr (hn : t'.next = t.next) (hp : ∀ m, (t'.node m).parent = (t.node m).parent)
    (hf : ∀ m ∈ t.rootPath n, f (t'.node m) = f (t.node m)) : t'.concat f n = t.concat f n := by
  have hpath : t'.rootPath n = t.rootPath n := by simp only [rootPath, hn, hp]
  rw [concat, concat, hpath]
  refine List.flatMap_congr fun m hm => ?_
  exact hf m (List.mem_reverse.mp hm)

/-- The nodes that were there carry along their paths what they carried. -/
theorem concat_splitAt (h : t.Wf) {pos : Nat} (hok : t.SplitOk n pos) (hf : Cuts f)
    (ha : a ≠ t.next) : (t.splitAt n pos).1.concat f a = t.concat f a := by
  have hn : n ≠ t.next := Nat.ne_of_lt (h.linked_lt hok.linked)
  rw [concat, concat, ((h.splitAt hok).upPath a).unique (h.upPath_splitAt hok ha)]
  refine flatMap_spliced (fun _ => ?_) fun c hc hcn => ?_
  · rw [splitAt_prefixLen, splitAt_suffix t n pos hn]
    exact hf (t.node n) pos t.next
  · rw [splitAt_old t n c pos hcn (Nat.ne_of_lt (h.mem_rootPath_lt hc).1)]

/-- The new node carries what its parent does and the front share. -/
theorem concat_splitAt_new (h : t.Wf) {pos : Nat} (hok : t.SplitOk n pos) (hf : Cuts f)
    (hp : (t.node n).parent = some p) : (t.splitAt n pos).1.concat f t.next =
      t.concat f p ++ f ((t.splitAt n pos).1.node t.next) := by
  have hparent : ((t.splitAt n pos).1.node t.next).parent = some p := by
    rw [splitAt_prefixLen, hp]
  rw [concat_child (h.splitAt hok) hparent, concat_splitAt h hok hf]
  exact Nat.ne_of_lt (h.parent_lt n p hp).2

theorem concat_addLeaf (h : t.Wf) {key : List Token} {value : List KvIndex} {now : Time}
    (hok : t.LeafOk p key value) (f : Node → List β) (ha : a ≠ t.next) :
    (t.addLeaf p key value now).1.concat f a = t.concat f a := by
  rw [concat, concat, h.rootPath_addLeaf hok ha]
  refine List.flatMap_congr fun m hm => ?_
  have hlt := (h.mem_rootPath_lt (List.mem_reverse.mp hm)).1
  rw [addLeaf_old t p m key value now (Nat.ne_of_lt hlt)]

theorem concat_addLeaf_new (h : t.Wf) {key : List Token} {value : List KvIndex} {now : Time}
    (hok : t.LeafOk p key value) (f : Node → List β) :
    (t.addLeaf p key value now).1.concat f t.next =
      t.concat f p ++ f ((t.addLeaf p key value now).1.node t.next) := by
  have hparent : ((t.addLeaf p key value now).1.node t.next).parent = some p := by
    rw [addLeaf_new]
  rw [concat_child (h.addLeaf hok) hparent, concat_addLeaf h hok f]
  exact Nat.ne_of_lt (h.inTree_lt hok.parent)

theorem concat_unlink (hf : ∀ x : Node, f { x with linked := false } = f x) (n a : NodeId) :
    (t.unlink n).concat f a = t.concat f a :=
  concat_congr rfl (fun m => modify_field t n m Node.parent fun _ => rfl) fun m _ =>
    modify_field t n m f hf

-- ---------------------------------------------------------------------------
-- Prefixes
-- ---------------------------------------------------------------------------

theorem pathTokens_root (h : t.Wf) : t.pathTokens root = [] := concat_root h Node.key

theorem pathTokens_child (h : t.Wf) (hp : (t.node n).parent = some p) :
    t.pathTokens n = t.pathTokens p ++ (t.node n).key := concat_child h hp Node.key

theorem pathLen_eq_length (t : RadixTree) (n : NodeId) :
    t.pathLen n = (t.pathTokens n).length := by
  rw [pathLen, pathTokens, List.length_flatMap, List.map_reverse, List.sum_reverse]
  rfl

/-- At every node of the tree there are as many pages as tokens. -/
theorem length_concat_eq (h : t.Wf) (hn : t.InTree n)
    (hf : ∀ m, (t.node m).linked = true → (f (t.node m)).length = (t.node m).key.length) :
    (t.concat f n).length = (t.pathTokens n).length := by
  have hlinked := h.linked_of_mem_rootPath hn
  rw [concat, pathTokens, List.length_flatMap, List.length_flatMap]
  refine congrArg List.sum (List.map_congr_left fun m hm => ?_)
  exact hf m (hlinked m (List.mem_reverse.mp hm))

theorem dvd_pathTokens (h : t.Wf) (hn : t.InTree n) : t.pageSize ∣ (t.pathTokens n).length := by
  have hlinked := h.linked_of_mem_rootPath hn
  rw [← pathLen_eq_length, pathLen]
  generalize t.rootPath n = l at hlinked
  induction l with
  | nil => exact Nat.dvd_zero _
  | cons m l ih =>
    rw [List.map_cons, List.sum_cons]
    have hm := (h.key_pages m (hlinked m List.mem_cons_self)).2
    exact Nat.dvd_add hm (ih fun c hc => hlinked c (List.mem_cons_of_mem _ hc))

theorem inTree_of_mem_rootPath (h : t.Wf) (hn : t.InTree n) (ha : a ∈ t.rootPath n) :
    t.InTree a := .inr (h.linked_of_mem_rootPath hn a ha)

theorem inTree_parent (h : t.Wf) (hn : (t.node n).linked = true)
    (hp : (t.node n).parent = some p) : t.InTree p := by
  obtain ⟨p', hp', ht⟩ := h.linked_parent n hn
  rw [hp, Option.some.injEq] at hp'
  rwa [hp']

/-- Whoever is above `b`, or the root, is `b` itself or has a child on the way to `b`. -/
theorem exists_child_toward (h : t.Wf) (hb : t.InTree b) (ha : a = root ∨ a ∈ t.rootPath b)
    (hne : a ≠ b) : ∃ d ∈ t.rootPath b, (t.node d).linked = true ∧ (t.node d).parent = some a := by
  have hlinked := h.linked_of_mem_rootPath hb
  have hlt := h.inTree_lt hb
  have hup := h.upPath b
  generalize t.rootPath b = l at hup hlinked ha
  induction hup with
  | root hr =>
    rcases ha with rfl | ha
    · exact absurd (h.orphan _ hlt hr).symm hne
    · cases ha
  | @cons c p l hc _ ih =>
    have hcl := hlinked c List.mem_cons_self
    by_cases hap : a = p
    · exact ⟨c, List.mem_cons_self, hcl, hap ▸ hc⟩
    · have ha' : a = root ∨ a ∈ l := ha.imp_right fun ha => (List.mem_cons.mp ha).resolve_left hne
      obtain ⟨d, hd, hdl, hdp⟩ := ih (inTree_parent h hcl hc) hap (h.parent_lt c p hc).2
        (fun m hm => hlinked m (List.mem_cons_of_mem _ hm)) ha'
      exact ⟨d, List.mem_cons_of_mem _ hd, hdl, hdp⟩

theorem pathTokens_grows (h : t.Wf) (ha : a ∈ t.rootPath n) :
    t.pathTokens a <+: t.pathTokens n := by
  obtain ⟨l, hl, hsuf⟩ := (h.upPath n).of_mem ha
  obtain ⟨l', hl'⟩ := hsuf
  rw [pathTokens, pathTokens, (h.upPath a).unique hl, ← hl', List.reverse_append,
    List.flatMap_append]
  exact List.prefix_append _ _

theorem pathTokens_prefix_of_above (h : t.Wf) (ha : a = root ∨ a ∈ t.rootPath n) :
    t.pathTokens a <+: t.pathTokens n := by
  rcases ha with rfl | ha
  · rw [pathTokens_root h]
    exact List.nil_prefix
  · exact pathTokens_grows h ha

/-- The first page of a child that stands for a prefix of the tokens. -/
theorem key_page (h : t.Wf) (hl : (t.node n).linked = true) (hp : (t.node n).parent = some p)
    (hpre : t.pathTokens n <+: toks) :
    (t.node n).key.take t.pageSize = (toks.drop (t.pathTokens p).length).take t.pageSize := by
  obtain ⟨tail, rfl⟩ := hpre
  rw [pathTokens_child h hp, List.append_assoc, List.drop_left,
    List.take_append_of_le_length (h.page_le_key hl)]

/-- Of two nodes that stand for prefixes of one sequence, the shorter is on the way
to the longer. -/
theorem comparable (h : t.Wf) (ha : t.InTree a) (hb : t.InTree b) (hpa : t.pathTokens a <+: toks)
    (hpb : t.pathTokens b <+: toks) (hle : (t.pathTokens a).length ≤ (t.pathTokens b).length) :
    a = root ∨ a ∈ t.rootPath b := by
  have hup := h.upPath a
  generalize t.rootPath a = l at hup
  induction hup with
  | @root r hr => exact .inl (h.orphan r (h.inTree_lt ha) hr)
  | @cons c p l hc _ ih =>
    have hcr : c ≠ root := by
      rintro rfl
      rw [h.root_parent] at hc
      cases hc
    have hcl := ha.resolve_left hcr
    have hp := inTree_parent h hcl hc
    have hkey := (h.key_pages c hcl).1
    have htok := pathTokens_child h hc
    have hlen : (t.pathTokens c).length = (t.pathTokens p).length + (t.node c).key.length := by
      rw [htok, List.length_append]
    have hpc : t.pathTokens p <+: t.pathTokens c := htok ▸ List.prefix_append _ _
    have hpb' := ih hp (hpc.trans hpa) (by omega)
    have hne : p ≠ b := by
      rintro rfl
      omega
    obtain ⟨d, hd, hdl, hdp⟩ := exists_child_toward h hb hpb' hne
    -- both children of `p` start with the next page of the sequence
    have hpage := (key_page h hcl hc hpa).trans
      (key_page h hdl hdp ((pathTokens_grows h hd).trans hpb)).symm
    exact .inr (h.child_unique c d hcl hdl (hc.trans hdp.symm) hpage ▸ hd)

/-- Where no child continues the input, no stored prefix of it is longer. -/
theorem le_of_stuck (h : t.Wf) (he : t.InTree e) (hpe : t.pathTokens e <+: toks)
    (hstuck : t.childOf e (toks.drop (t.pathTokens e).length) = none) (hn : t.InTree n)
    (hqn : q <+: t.pathTokens n) (hq : q <+: toks) (hpages : t.pageSize ∣ q.length) :
    q.length ≤ (t.pathTokens e).length := by
  by_contra hlt
  rw [Nat.not_le] at hlt
  have heq : t.pathTokens e <+: q := List.prefix_of_prefix_length_le hpe hq (Nat.le_of_lt hlt)
  have hen := heq.trans hqn
  have habove := comparable h he hn hen (List.prefix_refl _) hen.length_le
  have hne : e ≠ n := by
    rintro rfl
    exact Nat.lt_irrefl _ (Nat.lt_of_lt_of_le hlt hqn.length_le)
  obtain ⟨d, hd, hdl, hdp⟩ := exists_child_toward h hn habove hne
  have hroom : t.pageSize ≤ (q.drop (t.pathTokens e).length).length := by
    rw [List.length_drop]
    exact Nat.le_of_dvd (Nat.sub_pos_of_lt hlt) (Nat.dvd_sub hpages (dvd_pathTokens h he))
  have hpage : ∀ {l}, q <+: l →
      (l.drop (t.pathTokens e).length).take t.pageSize =
        (q.drop (t.pathTokens e).length).take t.pageSize := by
    rintro l ⟨tail, rfl⟩
    rw [List.drop_append_of_le_length (Nat.le_of_lt hlt), List.take_append_of_le_length hroom]
  have hkey := key_page h hdl hdp (pathTokens_grows h hd)
  rw [hpage hqn, ← hpage hq] at hkey
  rw [h.childOf_eq_some_iff.mpr ⟨hdl, hdp, hkey⟩] at hstuck
  cases hstuck

-- ---------------------------------------------------------------------------
-- Where a walk ends
-- ---------------------------------------------------------------------------

theorem walkLoop_tokens (tic : Time) (fuel prefixLen : Nat) (rest : List Token) (h : t.Wf) :
    (walkLoop tic fuel t n rest prefixLen).1.pathTokens (walkLoop tic fuel t n rest prefixLen).2.1 =
      t.pathTokens n ++
        rest.take ((walkLoop tic fuel t n rest prefixLen).2.2 - prefixLen) ∧
      prefixLen ≤ (walkLoop tic fuel t n rest prefixLen).2.2 := by
  induction fuel generalizing t n rest prefixLen with
  | zero =>
    rw [walkLoop, Nat.sub_self, List.take_zero, List.append_nil]
    exact ⟨rfl, Nat.le_refl _⟩
  | succ fuel ih =>
    rw [walkLoop]
    split
    · rw [Nat.sub_self, List.take_zero, List.append_nil]
      exact ⟨rfl, Nat.le_refl _⟩
    split
    · rw [Nat.sub_self, List.take_zero, List.append_nil]
      exact ⟨rfl, Nat.le_refl _⟩
    rename_i c hc
    have hent := h.enters hc
    obtain ⟨hl, hp, -⟩ := h.childOf_eq_some_iff.mp hc
    dsimp only
    generalize alignDown (commonPrefixLen (t.node c).key rest) t.pageSize = k at *
    split
    · rename_i hne
      have hok := hent.splitOk hne
      refine ⟨?_, Nat.le_add_right _ _⟩
      rw [(SameShape.stamp _ _ _).pathTokens_eq, Nat.add_sub_cancel_left]
      refine (concat_splitAt_new h hok cuts_key hp).trans ?_
      rw [splitAt_prefixLen]
      exact congrArg _ hent.agree
    · rename_i heq
      rw [not_not] at heq
      obtain ⟨htok, hle⟩ := ih (n := c) (prefixLen + k) (rest.drop k) (h.stamp c tic)
      refine ⟨?_, by omega⟩
      have hkey : (t.node c).key = rest.take k := by
        rw [← hent.agree, heq]
        exact List.take_length.symm
      rw [htok, (SameShape.stamp t c tic).pathTokens_eq, pathTokens_child h hp, hkey,
        List.append_assoc]
      congr 1
      rw [← List.take_add]
      congr 1
      omega

variable {tic : Time}

/-- A walk ends at the node of the prefix it took. -/
theorem walk_tokens (h : t.Wf) (toks : List Token) (tic : Time) :
    (t.walk toks tic).1.pathTokens (t.walk toks tic).2.1 = toks.take (t.walk toks tic).2.2 := by
  have htok := (walkLoop_tokens (n := root) tic toks.length 0 toks h).1
  rwa [pathTokens_root h, List.nil_append, Nat.sub_zero] at htok

/-- No stored whole-page prefix of the input is longer than what the walk took. -/
theorem le_walk (h : t.Wf) (hn : (t.walk toks tic).1.InTree n)
    (hqn : q <+: (t.walk toks tic).1.pathTokens n) (hq : q <+: toks)
    (hpages : (t.walk toks tic).1.pageSize ∣ q.length) : q.length ≤ (t.walk toks tic).2.2 := by
  have hend := walk_end toks tic h
  have htok := walk_tokens h toks tic
  have hbound := hend.bound
  rw [Nat.zero_add] at hbound
  have hlen : ((t.walk toks tic).1.pathTokens (t.walk toks tic).2.1).length =
      (t.walk toks tic).2.2 := by
    rw [htok, List.length_take_of_le hbound]
  rcases hend.stuck with hall | hnone
  · rw [Nat.zero_add] at hall
    rw [hall]
    exact hq.length_le
  · rw [← hlen]
    rw [Nat.sub_zero, ← hlen] at hnone
    exact le_of_stuck (walk_wf toks tic h) hend.inTree (htok ▸ List.take_prefix _ _) hnone hn hqn
      hq hpages

end RadixTree

end FreeToken.KvCache
