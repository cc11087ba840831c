import FreeToken.KvCache.SwaEviction
import FreeToken.Lib.Reach

/-!
# Windowed reuse

A match of the sliding-window cache may be used up to a node from which the last
window of tokens is live. The loop of `match_prefix` carries how many live tokens
lie behind it since the last tombstone; at the end it has the deepest such node on
the longest stored prefix.

An insert whose `swa_evicted_seqlen` falls inside a page leaves a node that is no
whole number of pages, and no match gets past it. The callers round that frontier
down to a page, and then every node is whole pages.

## Results

* `covers_iff` — the running length tells whether the last window is live;
* `matchPrefix_windowed` — what a match returns on any tree that is in order;
* `windowed_reuse` — in every state the calls reach;
* `unaligned_frontier_hides_suffix` — a frontier inside a page.
-/

namespace FreeToken.KvCache

open FreeToken.Lib RadixTree

/-- For each token of a node, whether its window page is live. -/
def Node.swaLive (x : Node) : List Bool := List.replicate x.length (!x.swaTombstone)

/-- The last `min window length` marks are all true. -/
def WindowLive (window : Nat) (marks : List Bool) : Prop :=
  ∀ i < marks.length, marks.length ≤ i + window → marks[i]? = some true

/-- The live tokens at the end, since the last token that is not; `none` when there
is no such token. -/
def liveSince (marks : List Bool) : Option Nat :=
  marks.foldl (fun s live => if live then s.map (· + 1) else some 0) none

theorem liveSince_concat (marks : List Bool) (live : Bool) : liveSince (marks ++ [live]) =
    if live then (liveSince marks).map (· + 1) else some 0 := by
  rw [liveSince, List.foldl_append]
  rfl

theorem liveSince_append_live (marks : List Bool) (k : Nat) :
    liveSince (marks ++ List.replicate k true) = (liveSince marks).map (· + k) := by
  induction k with
  | zero => simp
  | succ k ih =>
    rw [List.replicate_succ', ← List.append_assoc, liveSince_concat, ih, if_pos rfl,
      Option.map_map]
    rfl

theorem liveSince_append_dead (marks : List Bool) {k : Nat} (hk : 0 < k) :
    liveSince (marks ++ List.replicate k false) = some 0 := by
  obtain ⟨k, rfl⟩ := Nat.exists_eq_succ_of_ne_zero (Nat.ne_of_gt hk)
  rw [List.replicate_succ', ← List.append_assoc, liveSince_concat]
  rfl

theorem windowLive_concat (window : Nat) (marks : List Bool) (live : Bool) :
    WindowLive (window + 1) (marks ++ [live]) ↔ WindowLive window marks ∧ live = true := by
  rw [WindowLive, WindowLive, List.length_append, List.length_singleton]
  constructor
  · intro h
    refine ⟨fun i hi hle => ?_, ?_⟩
    · have hlive := h i (Nat.lt_succ_of_lt hi) (by omega)
      rwa [List.getElem?_append_left hi] at hlive
    · have hlast := h marks.length (Nat.lt_succ_self _) (by omega)
      rwa [List.getElem?_append_right (Nat.le_refl _), Nat.sub_self, List.getElem?_cons_zero,
        Option.some.injEq] at hlast
  · rintro ⟨h, rfl⟩ i hi hle
    rcases Nat.lt_succ_iff_lt_or_eq.mp hi with hlt | rfl
    · rw [List.getElem?_append_left hlt]
      exact h i hlt (by omega)
    · rw [List.getElem?_append_right (Nat.le_refl _), Nat.sub_self, List.getElem?_cons_zero]

/-- The running length tells whether the last window is live. -/
theorem liveSince_covers_iff (window : Nat) (marks : List Bool) :
    (liveSince marks).all (window ≤ ·) = true ↔ WindowLive window marks := by
  induction marks using List.reverseRecOn generalizing window with
  | nil => exact ⟨fun _ i hi => absurd hi (Nat.not_lt_zero i), fun _ => rfl⟩
  | append_singleton marks live ih =>
    cases window with
    | zero =>
      refine ⟨fun _ i hi hle => absurd hi (Nat.not_lt.mpr hle), fun _ => ?_⟩
      cases liveSince (marks ++ [live]) with
      | none => rfl
      | some k => rfl
    | succ window =>
      rw [windowLive_concat, ← ih, liveSince_concat]
      cases live with
      | false => simp
      | true => cases liveSince marks <;> simp

namespace RadixTree

variable {t t' : RadixTree} {n p child a : NodeId} {toks rest : List Token} {window : Nat}
  {m : Matching}

theorem cuts_swaLive : Cuts Node.swaLive := by
  intro x pos s
  simp only [Node.swaLive, Node.length]
  rw [← List.replicate_add, List.length_take, List.length_drop]
  congr 1
  omega

/-- The marks of the tokens a node stands for. -/
def pathLive (t : RadixTree) (n : NodeId) : List Bool := t.concat Node.swaLive n

theorem rootPath_suffix (h : t.Wf) (ha : a = root ∨ a ∈ t.rootPath n) :
    t.rootPath a <:+ t.rootPath n := by
  rcases ha with rfl | ha
  · rw [h.rootPath_root]
    exact List.nil_suffix
  · obtain ⟨l, hl, hsuf⟩ := (h.upPath n).of_mem ha
    rwa [(h.upPath a).unique hl]

-- ---------------------------------------------------------------------------
-- One round of the match loop
-- ---------------------------------------------------------------------------

/-- What the loop has gathered at its node. -/
structure Gathered (t : RadixTree) (window : Nat) (toks : List Token) (m : Matching)
    (rest : List Token) : Prop where
  inTree : t.InTree m.node
  tokens : t.pathTokens m.node ++ rest = toks
  value : m.value = (t.rootPath m.node).reverse.map fun n => (t.node n).value
  best : m.bestNode = root ∨ m.bestNode ∈ t.rootPath m.node
  bestLen : m.bestValueLen = (t.rootPath m.bestNode).length
  bestLive : WindowLive window (t.pathLive m.bestNode)

/-- The running length is the one of its node, and a usable node on the way that is
deeper than the best so far means that the node itself is usable. -/
structure Along (t : RadixTree) (window : Nat) (toks : List Token) (m : Matching)
    (rest : List Token) : Prop extends Gathered t window toks m rest where
  since : m.matchSinceTomb = liveSince (t.pathLive m.node)
  greatest : ∀ a, (a = root ∨ a ∈ t.rootPath m.node) → WindowLive window (t.pathLive a) →
    (t.pathTokens a).length ≤ (t.pathTokens m.bestNode).length ∨ m.covers window = true

theorem Along.covers_iff (h : t.Along window toks m rest) :
    m.covers window = true ↔ WindowLive window (t.pathLive m.node) := by
  rw [Matching.covers, h.since]
  exact liveSince_covers_iff window _

theorem above_self (h : t.Wf) (hn : t.InTree n) : n = root ∨ n ∈ t.rootPath n := by
  by_cases hr : n = root
  · exact .inl hr
  · exact .inr (h.mem_rootPath_self (h.inTree_lt hn) hr)

theorem Along.init (h : t.Wf) (window : Nat) (toks : List Token) :
    t.Along window toks .init toks where
  inTree := .inl rfl
  tokens := by
    rw [Matching.init, pathTokens_root h]
    rfl
  value := by
    rw [Matching.init, h.rootPath_root]
    rfl
  best := .inl rfl
  bestLen := by
    rw [Matching.init, h.rootPath_root]
    rfl
  bestLive := by
    rw [Matching.init, pathLive, concat_root h]
    exact fun i hi => absurd hi (Nat.not_lt_zero i)
  since := by
    rw [Matching.init, pathLive, concat_root h]
    rfl
  greatest := fun _ _ _ => .inr rfl

/-- After a commit the best node is the deepest usable one on the way. -/
theorem Along.commit (h : t.Wf) (ha : t.Along window toks m rest) :
    t.Gathered window toks (m.commit window) rest ∧ (m.commit window).node = m.node ∧
      ∀ a, (a = root ∨ a ∈ t.rootPath m.node) → WindowLive window (t.pathLive a) →
        (t.pathTokens a).length ≤ (t.pathTokens (m.commit window).bestNode).length := by
  rw [Matching.commit]
  split
  · rename_i hcov
    refine ⟨⟨ha.inTree, ha.tokens, ha.value, above_self h ha.inTree, ?_, ha.covers_iff.mp hcov⟩,
      rfl, fun a habove _ => (pathTokens_prefix_of_above h habove).length_le⟩
    show m.value.length = _
    rw [ha.value, List.length_map, List.length_reverse]
  · rename_i hcov
    exact ⟨ha.toGathered, rfl, fun a habove hlive =>
      (ha.greatest a habove hlive).resolve_right hcov⟩

theorem Gathered.enter (h : t.Wf) (hg : t.Gathered window toks m rest)
    (hl : (t.node child).linked = true) (hp : (t.node child).parent = some m.node)
    (hk : (t.node child).key <+: rest) :
    t.Gathered window toks (m.enter t child) (rest.drop (t.node child).key.length) where
  inTree := .inr hl
  tokens := by
    obtain ⟨tail, rfl⟩ := hk
    show t.pathTokens child ++ _ = toks
    rw [pathTokens_child h hp, List.drop_left, List.append_assoc, hg.tokens]
  value := by
    show m.value ++ [(t.node child).value] = _
    rw [hg.value]
    show _ = (t.rootPath child).reverse.map _
    rw [h.rootPath_cons hp, List.reverse_cons, List.map_append]
    rfl
  best := by
    show m.bestNode = root ∨ m.bestNode ∈ t.rootPath child
    rw [h.rootPath_cons hp]
    exact hg.best.imp_right (List.mem_cons_of_mem _)
  bestLen := hg.bestLen
  bestLive := hg.bestLive


theorem above_child (h : t.Wf) (hp : (t.node child).parent = some p)
    (ha : a = root ∨ a ∈ t.rootPath child) : a = child ∨ (a = root ∨ a ∈ t.rootPath p) := by
  rw [h.rootPath_cons hp, List.mem_cons] at ha
  rcases ha with hr | hc | hp
  · exact .inr (.inl hr)
  · exact .inl hc
  · exact .inr (.inr hp)

theorem pathLive_child (h : t.Wf) (hp : (t.node child).parent = some p) :
    t.pathLive child = t.pathLive p ++
      List.replicate (t.node child).length (!(t.node child).swaTombstone) :=
  concat_child h hp Node.swaLive

theorem covers_enter (t : RadixTree) (child : NodeId) (hcov : m.covers window = true) :
    (m.enter t child).covers window = true := by
  rw [Matching.covers] at hcov
  rw [Matching.covers, Matching.enter]
  dsimp only
  split
  · exact hcov
  · cases hs : m.matchSinceTomb with
    | none => rfl
    | some k =>
      rw [hs] at hcov
      simp only [Option.all_some, decide_eq_true_eq] at hcov
      simp only [Option.map_some, Option.all_some, decide_eq_true_eq]
      exact Nat.le_trans hcov (Nat.le_add_right _ _)

/-- A round of the loop, into a live child and into a tombstone. -/
theorem Along.enter (h : t.Wf) (ha : t.Along window toks m rest)
    (hl : (t.node child).linked = true) (hp : (t.node child).parent = some m.node)
    (hk : (t.node child).key <+: rest) :
    t.Along window toks
      ((if (t.node child).swaTombstone then { m.commit window with matchSinceTomb := some 0 }
        else m).enter t child)
      (rest.drop (t.node child).key.length) := by
  have hlive := pathLive_child h hp
  -- the child itself is usable exactly when the new running length covers the window
  have hself : ∀ {m' : Matching}, (m'.enter t child).matchSinceTomb = liveSince (t.pathLive child) →
      WindowLive window (t.pathLive child) → (m'.enter t child).covers window = true := by
    intro m' hsince hw
    rw [Matching.covers, hsince]
    exact (liveSince_covers_iff window _).mpr hw
  by_cases htomb : (t.node child).swaTombstone = true
  · rw [if_pos htomb]
    obtain ⟨hg, hnode, hgreatest⟩ := ha.commit h
    have hg0 : t.Gathered window toks { m.commit window with matchSinceTomb := some 0 } rest :=
      ⟨hg.inTree, hg.tokens, hg.value, hg.best, hg.bestLen, hg.bestLive⟩
    have hsince : (({ m.commit window with matchSinceTomb := some 0 } : Matching).enter t
        child).matchSinceTomb = liveSince (t.pathLive child) := by
      have hpos : 0 < (t.node child).length := (h.key_pages child hl).1
      rw [hlive, htomb, Bool.not_true, liveSince_append_dead _ hpos, Matching.enter]
      dsimp only
      rw [if_pos htomb]
    refine ⟨hg0.enter h hl (hp.trans (congrArg some hnode.symm)) hk, hsince, fun a habove hw => ?_⟩
    rcases above_child h hp habove with rfl | habove
    · exact .inr (hself hsince hw)
    · exact .inl (hgreatest a habove hw)
  · rw [if_neg htomb]
    rw [Bool.not_eq_true] at htomb
    have hsince : (m.enter t child).matchSinceTomb = liveSince (t.pathLive child) := by
      rw [hlive, htomb, Bool.not_false, liveSince_append_live, ← ha.since, Matching.enter]
      dsimp only
      rw [htomb, if_neg Bool.false_ne_true]
    refine ⟨ha.toGathered.enter h hl hp hk, hsince, fun a habove hw => ?_⟩
    rcases above_child h hp habove with rfl | habove
    · exact .inr (hself hsince hw)
    · exact (ha.greatest a habove hw).imp_right (covers_enter t child)

/-- A split below the node changes nothing the loop has gathered. -/
theorem Along.splitAt (h : t.Wf) (ha : t.Along window toks m rest) {pos : Nat}
    (hok : t.SplitOk child pos) (hp : (t.node child).parent = some m.node) :
    (t.splitAt child pos).1.Along window toks m rest := by
  have hw := h.splitAt hok
  have hnew : ∀ {n}, n = root ∨ n ∈ t.rootPath m.node → n ≠ t.next := by
    rintro n (rfl | hn)
    · exact Nat.ne_of_lt h.root_lt
    · exact Nat.ne_of_lt (h.mem_rootPath_lt hn).1
  -- the child is not on the way to its parent
  have hchild : child ∉ t.rootPath m.node := by
    have hnd := (h.upPath child).nodup
    rw [h.rootPath_cons hp] at hnd
    exact (List.nodup_cons.mp hnd).1
  have hpath : ∀ {n}, n = root ∨ n ∈ t.rootPath m.node →
      (t.splitAt child pos).1.rootPath n = t.rootPath n := by
    intro n hn
    rw [(hw.upPath n).unique (h.upPath_splitAt hok (hnew hn))]
    have hsub := (rootPath_suffix h hn).subset
    refine (List.flatMap_congr fun c hc => ?_).trans (List.flatMap_singleton' _)
    rw [if_neg]
    rintro rfl
    exact hchild (hsub hc)
  have hself := above_self h ha.inTree
  have hconcat : ∀ {β : Type} {f : Node → List β} {n}, Cuts f → (n = root ∨ n ∈ t.rootPath m.node) →
      (t.splitAt child pos).1.concat f n = t.concat f n :=
    fun hf hn => concat_splitAt h hok hf (hnew hn)
  have hlive : ∀ {n}, (n = root ∨ n ∈ t.rootPath m.node) →
      (t.splitAt child pos).1.pathLive n = t.pathLive n := fun hn => hconcat cuts_swaLive hn
  have htoks : ∀ {n}, (n = root ∨ n ∈ t.rootPath m.node) →
      (t.splitAt child pos).1.pathTokens n = t.pathTokens n := fun hn => hconcat cuts_key hn
  have hchildlt : child ≠ t.next := Nat.ne_of_lt (h.linked_lt hok.linked)
  refine
    { inTree := ?_, tokens := ?_, value := ?_, best := ?_, bestLen := ?_, bestLive := ?_,
      since := ?_, greatest := ?_ }
  · exact ha.inTree.imp_right fun hl =>
      (splitAt_linked t child pos hchildlt m.node).mpr (.inr hl)
  · rw [htoks hself]
    exact ha.tokens
  · rw [hpath hself, ha.value]
    refine List.map_congr_left fun n hn => ?_
    have hn := List.mem_reverse.mp hn
    rw [splitAt_old t child n pos (fun he => hchild (he ▸ hn)) (hnew (.inr hn))]
  · rw [hpath hself]
    exact ha.best
  · rw [hpath ha.best]
    exact ha.bestLen
  · rw [hlive ha.best]
    exact ha.bestLive
  · rw [hlive hself]
    exact ha.since
  · intro a habove hwin
    rw [hpath hself] at habove
    rw [hlive habove] at hwin
    rw [htoks habove, htoks ha.best]
    exact ha.greatest a habove hwin

/-- The loop ends where the input does or where no child continues it. -/
theorem matchLoop_along (fuel : Nat) (h : t.Wf) (ha : t.Along window toks m rest)
    (hfuel : rest.length ≤ fuel) :
    ∃ rest', (matchLoop window fuel t m rest).1.Along window toks
        (matchLoop window fuel t m rest).2 rest' ∧
      (rest' = [] ∨ (matchLoop window fuel t m rest).1.childOf
        (matchLoop window fuel t m rest).2.node rest' = none) := by
  induction fuel generalizing m rest with
  | zero => exact ⟨rest, ha, .inl (List.length_eq_zero_iff.mp (Nat.le_zero.mp hfuel))⟩
  | succ fuel ih =>
    rw [matchLoop]
    split
    · rename_i hnil
      exact ⟨rest, ha, .inl hnil⟩
    split
    · rename_i hnone
      exact ⟨rest, ha, .inr hnone⟩
    rename_i c hc
    have hent := h.enters hc
    obtain ⟨hl, hp, -⟩ := h.childOf_eq_some_iff.mp hc
    have hstuck := h.childOf_splitAt_none hent
    dsimp only
    generalize alignDown (commonPrefixLen (t.node c).key rest) t.pageSize = k at *
    have hpos := hent.pos
    rw [if_neg (Nat.ne_of_gt hpos)]
    split
    · rename_i hlt
      -- the new node is the part of the child that the input enters
      have hok := hent.splitOk (Nat.ne_of_lt hlt)
      have hcn : c ≠ t.next := Nat.ne_of_lt (h.linked_lt hl)
      have hnew := splitAt_prefixLen t c k
      have hkey : ((t.splitAt c k).1.node t.next).key = rest.take k := by
        rw [hnew, ← hent.agree]
      have hlen : ((t.splitAt c k).1.node t.next).key.length = k := by
        rw [hkey, List.length_take_of_le hent.le_rest]
      have htomb : ((t.splitAt c k).1.node t.next).swaTombstone = (t.node c).swaTombstone := by
        rw [hnew]
      have hlinked : ((t.splitAt c k).1.node t.next).linked = true := by rw [hnew]
      have hstep := (ha.splitAt h hok hp).enter (h.splitAt hok) hlinked
        (by rw [hnew, hp]) (hkey ▸ List.take_prefix k rest)
      rw [htomb, hlen] at hstep
      exact ⟨rest.drop k, hstep, .inr (hstuck (Nat.ne_of_lt hlt))⟩
    · rename_i hge
      have hlen : (t.node c).key.length = k := Nat.le_antisymm (Nat.le_of_not_lt hge) hent.le_key
      have hkey : (t.node c).key <+: rest := by
        rw [← List.take_length (l := (t.node c).key), hlen, hent.agree]
        exact List.take_prefix k rest
      have hstep := ha.enter h hl hp hkey
      rw [hlen] at hstep
      refine ih hstep ?_
      rw [List.length_drop]
      omega

-- ---------------------------------------------------------------------------
-- What the match leaves alone
-- ---------------------------------------------------------------------------

/-- The nodes that were there stand for the same tokens, pages and marks. -/
structure Kept (t t' : RadixTree) : Prop where
  inTree : ∀ n, t.InTree n → t'.InTree n
  pathTokens : ∀ n, t.InTree n → t'.pathTokens n = t.pathTokens n
  collectKv : ∀ n, t.InTree n → t'.collectKv n = t.collectKv n
  pathLive : ∀ n, t.InTree n → t'.pathLive n = t.pathLive n

theorem Kept.refl (t : RadixTree) : Kept t t :=
  ⟨fun _ h => h, fun _ _ => rfl, fun _ _ => rfl, fun _ _ => rfl⟩

theorem Kept.trans {t'' : RadixTree} (h : Kept t t') (h' : Kept t' t'') : Kept t t'' where
  inTree := fun n hn => h'.inTree n (h.inTree n hn)
  pathTokens := fun n hn => (h'.pathTokens n (h.inTree n hn)).trans (h.pathTokens n hn)
  collectKv := fun n hn => (h'.collectKv n (h.inTree n hn)).trans (h.collectKv n hn)
  pathLive := fun n hn => (h'.pathLive n (h.inTree n hn)).trans (h.pathLive n hn)

theorem Kept.splitAt (h : t.Wf) {pos : Nat} (hok : t.SplitOk n pos) :
    Kept t (t.splitAt n pos).1 where
  inTree := fun a ha => ha.imp_right fun hl =>
    (splitAt_linked t n pos (Nat.ne_of_lt (h.linked_lt hok.linked)) a).mpr (.inr hl)
  pathTokens := fun _ ha => concat_splitAt h hok cuts_key (Nat.ne_of_lt (h.inTree_lt ha))
  collectKv := fun _ ha => concat_splitAt h hok cuts_value (Nat.ne_of_lt (h.inTree_lt ha))
  pathLive := fun _ ha => concat_splitAt h hok cuts_swaLive (Nat.ne_of_lt (h.inTree_lt ha))

/-- The two trees differ in timestamps. -/
structure Timed (t t' : RadixTree) : Prop extends SameShape t t' where
  swaLive : ∀ n, (t'.node n).swaLive = (t.node n).swaLive

theorem Timed.stampPath (t : RadixTree) (n : NodeId) (base : Time) :
    Timed t (t.stampPath n base) := by
  rw [RadixTree.stampPath]
  generalize (t.rootPath n).zipIdx = l
  induction l generalizing t with
  | nil => exact ⟨.refl t, fun _ => rfl⟩
  | cons cur l ih =>
    obtain ⟨hshape, hlive⟩ := ih (t.stamp cur.1 (base - cur.2))
    refine ⟨(SameShape.stamp t _ _).trans hshape, fun m => (hlive m).trans ?_⟩
    exact modify_field t cur.1 m Node.swaLive fun _ => rfl

theorem Timed.pathLive_eq (h : Timed t t') (n : NodeId) : t'.pathLive n = t.pathLive n :=
  concat_congr h.next h.parent fun m _ => h.swaLive m

theorem Timed.kept (h : Timed t t') : Kept t t' where
  inTree := fun n => (h.inTree_iff n).mpr
  pathTokens := fun n _ => h.pathTokens_eq n
  collectKv := fun n _ => h.collectKv_eq n
  pathLive := fun n _ => h.pathLive_eq n

theorem Kept.matchLoop (h : t.Wf) (window fuel : Nat) (m : Matching) (rest : List Token) :
    Kept t (matchLoop window fuel t m rest).1 := by
  rcases matchLoop_tree window fuel h m rest with heq | ⟨c, k, hok, heq⟩
  · rw [heq]
    exact .refl t
  · rw [heq]
    exact .splitAt h hok

/-- The pages of the best node are the ones the loop has gathered up to it. -/
theorem Gathered.pages (h : t.Wf) (hg : t.Gathered window toks m rest) :
    (m.value.take m.bestValueLen).flatten = t.collectKv m.bestNode := by
  obtain ⟨l, hl⟩ := rootPath_suffix h hg.best
  rw [hg.value, hg.bestLen, ← hl, List.reverse_append, List.map_append, List.take_left',
    collectKv, List.flatMap_def]
  rw [List.length_map, List.length_reverse]

/-- No stored prefix of the input is longer than where the loop ends. -/
theorem Gathered.longest (h : t.Wf) (hg : t.Gathered window toks m rest)
    (hstuck : rest = [] ∨ t.childOf m.node rest = none) {q : List Token}
    (hdvd : t.pageSize ∣ q.length) (hn : t.InTree n) (hqn : q <+: t.pathTokens n)
    (hq : q <+: toks) : q.length ≤ (t.pathTokens m.node).length := by
  have htoks := hg.tokens
  rcases hstuck with hnil | hnone
  · rw [hnil, List.append_nil] at htoks
    rw [htoks]
    exact hq.length_le
  · have hdrop : toks.drop (t.pathTokens m.node).length = rest := by
      rw [← htoks, List.drop_left]
    exact le_of_stuck h hg.inTree (htoks ▸ List.prefix_append _ _) (hdrop.symm ▸ hnone) hn hqn hq
      hdvd

end RadixTree

namespace SWARadixCache

variable {c d : SWARadixCache} {ids : List Token}

/-- `q` is a whole number of pages of tokens that the tree holds. -/
def Stored (c : SWARadixCache) (q : List Token) : Prop :=
  c.pageSize ∣ q.length ∧ ∃ n, c.InTree n ∧ q <+: c.pathTokens n

/-- A match of `ids` leaves `d` and returns `m`. The node boundaries of `ids` are the
nodes of the tree that stand for one of its prefixes; the deepest of them stands for
the longest stored prefix. -/
structure WindowedMatch (c d : SWARadixCache) (ids : List Token) (m : SWAMatch) : Prop where
  kept : Kept c.toRadixTree d.toRadixTree
  inTree : d.InTree m.node
  tokens : d.pathTokens m.node = ids.take m.cachedLen
  cachedLen : (d.pathTokens m.node).length = m.cachedLen
  pages : m.kvIndices = d.collectKv m.node
  live : WindowLive c.slidingWindowSize (d.pathLive m.node)
  longest : ∃ e, d.InTree e ∧ d.pathTokens m.node <+: d.pathTokens e ∧ d.pathTokens e <+: ids ∧
    ∀ q, c.Stored q → q <+: ids → q.length ≤ (d.pathTokens e).length
  greatest : ∀ n, d.InTree n → d.pathTokens n <+: ids →
    WindowLive c.slidingWindowSize (d.pathLive n) → (d.pathTokens n).length ≤ m.cachedLen

theorem matchPrefix_windowed (h : c.Ok) (ids : List Token) :
    WindowedMatch c (c.matchPrefix ids).1 ids (c.matchPrefix ids).2 := by
  obtain ⟨rest, halong, hstuck⟩ := matchLoop_along ids.length h.toWf
    (Along.init h.toWf c.slidingWindowSize ids) (Nat.le_refl _)
  have hw := (h.toSwaWf.matchLoop c.slidingWindowSize ids.length .init ids).toWf
  have hkept := Kept.matchLoop h.toWf c.slidingWindowSize ids.length .init ids
  have hps : (c.toRadixTree.matchLoop c.slidingWindowSize ids.length .init ids).1.pageSize =
      c.pageSize := by
    rcases matchLoop_tree c.slidingWindowSize ids.length h.toWf .init ids with heq | ⟨_, _, -, heq⟩
    · rw [heq]
    · rw [heq]
      rfl
  obtain ⟨hg, hnode, hgreatest⟩ := halong.commit hw
  rw [matchPrefix]
  dsimp only
  have htimed := Timed.stampPath
    (c.toRadixTree.matchLoop c.slidingWindowSize ids.length .init ids).1
    (((c.toRadixTree.matchLoop c.slidingWindowSize ids.length .init ids).2.commit
      c.slidingWindowSize).bestNode) ((c.clk + 1) * eventStride)
  have hpages := hg.pages hw
  generalize c.toRadixTree.matchLoop c.slidingWindowSize ids.length .init ids = r at *
  generalize r.2.commit c.slidingWindowSize = m at *
  generalize r.1.stampPath m.bestNode ((c.clk + 1) * eventStride) = t' at *
  have hbest : r.1.InTree m.bestNode := hg.best.imp_right fun hb =>
    hw.linked_of_mem_rootPath hg.inTree _ hb
  have hend : r.1.pathTokens r.2.node <+: ids := halong.tokens ▸ List.prefix_append _ _
  -- the match ends at or above the node where the walk did
  have hbestpre : r.1.pathTokens m.bestNode <+: r.1.pathTokens r.2.node :=
    hnode ▸ pathTokens_prefix_of_above hw hg.best
  have hlen : (r.1.collectKv m.bestNode).length = (r.1.pathTokens m.bestNode).length :=
    length_concat_eq hw hbest hw.key_value
  have hkept' := hkept.trans htimed.kept
  have hwin : ∀ n, t'.InTree n → r.1.InTree n := fun n => (htimed.inTree_iff n).mp
  refine
    { kept := hkept', inTree := (htimed.inTree_iff _).mpr hbest, tokens := ?_, cachedLen := ?_,
      pages := ?_, live := ?_, longest := ?_, greatest := ?_ }
  · show t'.pathTokens m.bestNode = ids.take (m.value.take m.bestValueLen).flatten.length
    rw [hpages, hlen, htimed.pathTokens_eq]
    exact List.prefix_iff_eq_take.mp (hbestpre.trans hend)
  · show (t'.pathTokens m.bestNode).length = (m.value.take m.bestValueLen).flatten.length
    rw [hpages, hlen, htimed.pathTokens_eq]
  · show (m.value.take m.bestValueLen).flatten = t'.collectKv m.bestNode
    rw [hpages, htimed.collectKv_eq]
  · show WindowLive c.slidingWindowSize (t'.pathLive m.bestNode)
    rw [htimed.pathLive_eq]
    exact hg.bestLive
  · refine ⟨r.2.node, (htimed.inTree_iff _).mpr halong.inTree, ?_, ?_, ?_⟩
    · show t'.pathTokens m.bestNode <+: t'.pathTokens r.2.node
      rw [htimed.pathTokens_eq, htimed.pathTokens_eq]
      exact hbestpre
    · show t'.pathTokens r.2.node <+: ids
      rw [htimed.pathTokens_eq]
      exact hend
    · rintro q ⟨hdvd, n, hn, hqn⟩ hq
      show q.length ≤ (t'.pathTokens r.2.node).length
      rw [htimed.pathTokens_eq]
      exact halong.longest hw hstuck (hps.symm ▸ hdvd) (hkept.inTree n hn)
        ((hkept.pathTokens n hn).symm ▸ hqn) hq
  · intro n hn hpre hlive
    replace hpre : t'.pathTokens n <+: ids := hpre
    replace hlive : WindowLive c.slidingWindowSize (t'.pathLive n) := hlive
    show (t'.pathTokens n).length ≤ (m.value.take m.bestValueLen).flatten.length
    rw [htimed.pathTokens_eq] at hpre ⊢
    rw [htimed.pathLive_eq] at hlive
    rw [hpages, hlen]
    have hn := hwin n hn
    have hle := halong.longest hw hstuck (dvd_pathTokens hw hn) hn (List.prefix_refl _) hpre
    -- a node that stands for a prefix of the input is above the end of the walk
    exact hgreatest n (comparable hw hn halong.inTree hpre hend hle) hlive

-- ---------------------------------------------------------------------------
-- Runs
-- ---------------------------------------------------------------------------

end SWARadixCache

inductive SWACall
  | matchPrefix (inputIds : List Token)
  | insert (inputIds : List Token) (kvIndices : List KvIndex)
      (swaEvictedSeqlen updateKvAfterLen : Nat)
  | incLock (node : NodeId)
  | decLock (node : NodeId) (swaUuidForLock : Option Nat) (skipSwa : Bool)
  | evictFull (numTokens : Nat) (ties : Nat → Nat)
  | evictSwa (numTokens : Nat) (ties : Nat → Nat)
  | trimHeadSwa (inputIds : List Token) (keepFrom : Nat)

namespace SWARadixCache

variable {c c' : SWARadixCache}

/-- One call; `none` when it raises. A lock names a node object that exists. -/
def step (c : SWARadixCache) : SWACall → Option SWARadixCache
  | .matchPrefix inputIds => some (c.matchPrefix inputIds).1
  | .insert inputIds kvIndices ev upd => (c.insert inputIds kvIndices ev upd).map Prod.fst
  | .incLock node => if node < c.next then some (c.incLock node).1 else none
  | .decLock node uuid skipSwa => c.decLock node uuid skipSwa
  | .evictFull numTokens ties => some (c.evictFull numTokens ties).1
  | .evictSwa numTokens ties => some (c.evictSwa numTokens ties).1
  | .trimHeadSwa inputIds keepFrom => some (c.trimHeadSwa inputIds keepFrom).1

/-- The freed frontier of an insert lies at a page boundary or past what is inserted. -/
def FrontierAligned (c : SWARadixCache) : SWACall → Prop
  | .insert inputIds _ ev _ => c.pageSize ∣ min ev (alignDown inputIds.length c.pageSize)
  | _ => True

instance (c : SWARadixCache) (a : SWACall) : Decidable (c.FrontierAligned a) :=
  match a with
  | .insert inputIds _ ev _ =>
    inferInstanceAs (Decidable (c.pageSize ∣ min ev (alignDown inputIds.length c.pageSize)))
  | .matchPrefix _ | .incLock _ | .decLock .. | .evictFull .. | .evictSwa .. | .trimHeadSwa .. =>
    inferInstanceAs (Decidable True)

theorem Ok.step {a : SWACall} (h : c.Ok) (hal : c.FrontierAligned a) (hst : c.step a = some c') :
    c'.Ok := by
  cases a with
  | matchPrefix inputIds =>
    cases hst
    exact matchPrefix_ok h inputIds
  | insert inputIds kvIndices ev upd =>
    obtain ⟨⟨d, r⟩, hins, rfl⟩ := Option.map_eq_some_iff.mp hst
    exact insert_ok h hal hins
  | incLock node =>
    rw [SWARadixCache.step] at hst
    split at hst
    · cases hst
      exact incLock_ok h node
    · cases hst
  | decLock node uuid skipSwa => exact decLock_ok h hst
  | evictFull numTokens ties =>
    cases hst
    exact evictFull_ok h numTokens ties
  | evictSwa numTokens ties =>
    cases hst
    exact evictSwa_ok h numTokens ties
  | trimHeadSwa inputIds keepFrom =>
    cases hst
    exact trimHeadSwa_ok h inputIds keepFrom

theorem windowed_reuse {ps window : Nat} (hps : 0 < ps) (hwindow : 0 < window)
    (hs : Reach SWARadixCache.step FrontierAligned (empty ps window) c) (ids : List Token) :
    WindowedMatch c (c.matchPrefix ids).1 ids (c.matchPrefix ids).2 :=
  matchPrefix_windowed
    (hs.invariant (ok_empty hps hwindow) fun _ _ _ h hal hst => h.step hal hst) ids

/-- Three pages, the first of them slid out of the window of 3: the match cuts the
tombstone and ends behind the live tail. -/
theorem tombstone_then_live_tail :
    ∃ c, guardedRun SWARadixCache.step FrontierAligned (empty 2 3)
        [.insert [1, 2, 3, 4, 5, 6] [10, 11, 12, 13, 14, 15] 2 0] = some c ∧
      (c.matchPrefix [1, 2, 3, 4, 5, 6]).2.cachedLen = 6 ∧
      WindowedMatch c (c.matchPrefix [1, 2, 3, 4, 5, 6]).1 [1, 2, 3, 4, 5, 6]
        (c.matchPrefix [1, 2, 3, 4, 5, 6]).2 := by
  have hrun : (guardedRun SWARadixCache.step FrontierAligned (empty 2 3)
      [.insert [1, 2, 3, 4, 5, 6] [10, 11, 12, 13, 14, 15] 2 0]).map
        (fun c => (c.matchPrefix [1, 2, 3, 4, 5, 6]).2.cachedLen) = some 6 := by
    decide
  obtain ⟨c, hs, hlen⟩ := Option.map_eq_some_iff.mp hrun
  exact ⟨c, hs, hlen, windowed_reuse Nat.two_pos (by decide) (reach_of_guardedRun _ hs) _⟩

/-- A frontier inside a page: the tombstone is one page and a half, and the match of
the very tokens inserted stops before the live tail of three. -/
theorem unaligned_frontier_hides_suffix :
    ∃ c, Reach SWARadixCache.step (fun _ _ => True) (empty 2 3) c ∧
      ¬ WindowedMatch c (c.matchPrefix [1, 2, 3, 4, 5, 6]).1 [1, 2, 3, 4, 5, 6]
        (c.matchPrefix [1, 2, 3, 4, 5, 6]).2 := by
  have hrun : (run SWARadixCache.step (empty 2 3)
      [.insert [1, 2, 3, 4, 5, 6] [10, 11, 12, 13, 14, 15] 3 0]).map
        (fun c => (c.slidingWindowSize, (c.matchPrefix [1, 2, 3, 4, 5, 6]).2.cachedLen,
          ((c.matchPrefix [1, 2, 3, 4, 5, 6]).1.node 2).linked,
          (c.matchPrefix [1, 2, 3, 4, 5, 6]).1.pathTokens 2,
          (c.matchPrefix [1, 2, 3, 4, 5, 6]).1.pathLive 2)) =
      some (3, 0, true, [1, 2, 3, 4, 5, 6], [false, false, false, true, true, true]) := by
    decide
  obtain ⟨c, hs, hv⟩ := Option.map_eq_some_iff.mp hrun
  simp only [Prod.mk.injEq] at hv
  obtain ⟨hwindow, hlen, hlinked, htoks, hlive⟩ := hv
  refine ⟨c, reach_of_run _ hs, fun hmatch => ?_⟩
  have hgreatest := hmatch.greatest 2 (.inr hlinked) (by rw [htoks])
  rw [htoks, hlive, hlen, hwindow] at hgreatest
  exact absurd (hgreatest ((liveSince_covers_iff 3 _).mp rfl)) (by decide)

end SWARadixCache

end FreeToken.KvCache
