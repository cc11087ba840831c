import FreeToken.KvCache.TreeInvariant

/-!
# Walking the tree

`_walk` follows the input page by page, stamps the nodes it passes and splits the
node it leaves in the middle.

## Results

* `walk_induct` — what stamps and splits keep, a walk keeps (`walk_wf`);
* `walk_end` — a walk ends at a node of the tree, and unless it took the whole
  input no child of that node continues it;
* `walk_pathTokens` — a walk over a linked node's own tokens ends at that node and
  only stamps.
-/

namespace FreeToken.KvCache

open FreeToken.Lib

namespace RadixTree

variable {t : RadixTree} {n c : NodeId} {rest : List Token} {tic : Time}

/-- How far a walk may enter the child it found: at least one page, whole pages,
and the key and the input agree there. -/
structure Enters (t : RadixTree) (c : NodeId) (rest : List Token) (k : Nat) : Prop where
  linked : (t.node c).linked = true
  pos : 0 < k
  le_key : k ≤ (t.node c).key.length
  le_rest : k ≤ rest.length
  pages : t.pageSize ∣ k
  agree : (t.node c).key.take k = rest.take k

theorem Wf.page_le_key (h : t.Wf) (hl : (t.node c).linked = true) :
    t.pageSize ≤ (t.node c).key.length :=
  Nat.le_of_dvd (h.key_pages c hl).1 (h.key_pages c hl).2

theorem Wf.enters (h : t.Wf) (hc : t.childOf n rest = some c) :
    t.Enters c rest (alignDown (commonPrefixLen (t.node c).key rest) t.pageSize) := by
  obtain ⟨hl, -, hk⟩ := h.childOf_eq_some_iff.mp hc
  have hpage : t.pageSize ≤ commonPrefixLen (t.node c).key rest :=
    le_commonPrefixLen (h.page_le_key hl) hk
  have hle := alignDown_le (commonPrefixLen (t.node c).key rest) t.pageSize
  refine ⟨hl, ?_, ?_, ?_, dvd_alignDown _ _, ?_⟩
  · exact Nat.lt_of_lt_of_le h.page_pos (le_alignDown (Nat.dvd_refl _) hpage)
  · exact Nat.le_trans hle (commonPrefixLen_le_left _ _)
  · exact Nat.le_trans hle (commonPrefixLen_le_right _ _)
  · have hagree := congrArg (List.take (alignDown (commonPrefixLen (t.node c).key rest) t.pageSize))
      (take_commonPrefixLen (t.node c).key rest)
    rwa [List.take_take, List.take_take, Nat.min_eq_left hle] at hagree

theorem Enters.splitOk {k : Nat} (h : t.Enters c rest k) (hne : k ≠ (t.node c).length) :
    t.SplitOk c k :=
  ⟨h.linked, h.pos, Nat.lt_of_le_of_ne h.le_key hne, h.pages⟩

/-- A walk stamps and splits, so it keeps what those two keep. -/
theorem walkLoop_induct {P : RadixTree → Prop}
    (hstamp : ∀ t n tic, t.Wf → P t → P (t.stamp n tic))
    (hsplit : ∀ t n pos, t.Wf → t.SplitOk n pos → P t → P (t.splitAt n pos).1)
    (fuel prefixLen : Nat) (h : t.Wf) (hP : P t) :
    (walkLoop tic fuel t n rest prefixLen).1.Wf ∧ P (walkLoop tic fuel t n rest prefixLen).1 := by
  induction fuel generalizing t n rest prefixLen with
  | zero => exact ⟨h, hP⟩
  | succ fuel ih =>
    rw [walkLoop]
    split
    · exact ⟨h, hP⟩
    · split
      · exact ⟨h, hP⟩
      · rename_i c hc
        have henter := h.enters hc
        dsimp only
        split
        · rename_i hne
          have hok := henter.splitOk hne
          exact ⟨(h.splitAt hok).stamp _ _,
            hstamp _ _ _ (h.splitAt hok) (hsplit _ _ _ h hok hP)⟩
        · exact ih _ (h.stamp _ _) (hstamp _ _ _ h hP)

theorem walk_induct {P : RadixTree → Prop}
    (hstamp : ∀ t n tic, t.Wf → P t → P (t.stamp n tic))
    (hsplit : ∀ t n pos, t.Wf → t.SplitOk n pos → P t → P (t.splitAt n pos).1)
    (toks : List Token) (tic : Time) (h : t.Wf) (hP : P t) : P (t.walk toks tic).1 :=
  (walkLoop_induct hstamp hsplit _ _ h hP).2

theorem walk_wf (toks : List Token) (tic : Time) (h : t.Wf) : (t.walk toks tic).1.Wf :=
  (walkLoop_induct (P := fun _ => True) (fun _ _ _ _ _ => trivial) (fun _ _ _ _ _ _ => trivial)
    _ _ h trivial).1

-- ---------------------------------------------------------------------------
-- Where a walk stops
-- ---------------------------------------------------------------------------

/-- Below the node a split has made hangs only the rest of the old one, and its
first page is where the input left the key. -/
theorem Wf.childOf_splitAt_none (h : t.Wf)
    (hent : t.Enters c rest (alignDown (commonPrefixLen (t.node c).key rest) t.pageSize))
    (hne : alignDown (commonPrefixLen (t.node c).key rest) t.pageSize ≠ (t.node c).length) :
    (t.splitAt c (alignDown (commonPrefixLen (t.node c).key rest) t.pageSize)).1.childOf t.next
      (rest.drop (alignDown (commonPrefixLen (t.node c).key rest) t.pageSize)) = none := by
  have hlt := lt_alignDown_add (commonPrefixLen (t.node c).key rest) h.page_pos
  generalize hm : alignDown (commonPrefixLen (t.node c).key rest) t.pageSize = m at *
  have hok := hent.splitOk hne
  have hc : c ≠ t.next := Nat.ne_of_lt (h.linked_lt hent.linked)
  rw [Option.eq_none_iff_forall_ne_some]
  intro d hd
  obtain ⟨hdl, hdp, hdk⟩ := (h.splitAt hok).childOf_eq_some_iff.mp hd
  -- the only child of the new node is the old one
  have hdc : d = c := by
    by_contra hdc
    rw [splitAt_parent t c m hc, if_neg hdc] at hdp
    split at hdp
    · exact absurd (h.parent_lt c _ hdp).2 (Nat.lt_irrefl _)
    · exact absurd (h.parent_lt d _ hdp).2 (Nat.lt_irrefl _)
  subst hdc
  rw [splitAt_suffix t d m hc, splitAt_pageSize] at hdk
  -- one more agreeing page would make the common prefix longer
  have hdiv : t.pageSize ∣ (t.node d).key.length - m :=
    Nat.dvd_sub (h.key_pages d hent.linked).2 hent.pages
  have hroom : m + t.pageSize ≤ (t.node d).key.length := by
    have hposlt := hok.pos_lt
    have := Nat.le_of_dvd (Nat.sub_pos_of_lt hposlt) hdiv
    omega
  have hagree : (t.node d).key.take (m + t.pageSize) = rest.take (m + t.pageSize) := by
    rw [List.take_add, List.take_add, hent.agree]
    exact congrArg _ hdk
  have := le_commonPrefixLen hroom hagree
  omega

/-- Where a walk stops, seen from `n` with `rest` still to go. -/
structure StopsAt (t t' : RadixTree) (rest : List Token) (prefixLen : Nat) (n' : NodeId)
    (prefixLen' : Nat) : Prop where
  inTree : t'.InTree n'
  le : prefixLen ≤ prefixLen'
  bound : prefixLen' ≤ prefixLen + rest.length
  pages : t.pageSize ∣ prefixLen' - prefixLen
  stuck : prefixLen' = prefixLen + rest.length ∨
    t'.childOf n' (rest.drop (prefixLen' - prefixLen)) = none

theorem walkLoop_end (fuel prefixLen : Nat) (h : t.Wf) (hn : t.InTree n)
    (hfuel : rest.length ≤ fuel) :
    StopsAt t (walkLoop tic fuel t n rest prefixLen).1 rest prefixLen
      (walkLoop tic fuel t n rest prefixLen).2.1 (walkLoop tic fuel t n rest prefixLen).2.2 := by
  induction fuel generalizing t n rest prefixLen with
  | zero =>
    have hnil : rest.length = 0 := Nat.le_zero.mp hfuel
    exact ⟨hn, Nat.le_refl _, Nat.le_add_right _ _, by simp [walkLoop], .inl (by rw [hnil]; rfl)⟩
  | succ fuel ih =>
    have here : ∀ {P : Prop}, (prefixLen = prefixLen + rest.length ∨ P) →
        (P → t.childOf n rest = none) → StopsAt t t rest prefixLen n prefixLen := by
      intro P hor hP
      refine ⟨hn, Nat.le_refl _, Nat.le_add_right _ _, by simp, hor.imp_right fun p => ?_⟩
      rw [Nat.sub_self, List.drop_zero]
      exact hP p
    rw [walkLoop]
    split
    · rename_i hrest
      exact here (P := False) (.inl (by simp [hrest])) False.elim
    · split
      · rename_i hnone
        exact here (.inr hnone) id
      · rename_i c hc
        have hent := h.enters hc
        dsimp only
        split
        · -- the key is left in the middle: the walk ends at the upper half
          rename_i hne
          have hok := hent.splitOk hne
          have hbound := hent.le_rest
          refine ⟨?_, Nat.le_add_right _ _, Nat.add_le_add_left hbound _, ?_, .inr ?_⟩
          · rw [(SameShape.stamp _ _ _).inTree_iff]
            exact .inr ((splitAt_linked t c _ (Nat.ne_of_lt (h.linked_lt hent.linked)) _).mpr
              (.inl rfl))
          · rw [Nat.add_sub_cancel_left]
            exact hent.pages
          · rw [(SameShape.stamp _ _ _).childOf_eq, Nat.add_sub_cancel_left]
            exact h.childOf_splitAt_none hent hne
        · -- the whole key is passed
          generalize alignDown (commonPrefixLen (t.node c).key rest) t.pageSize = m at *
          have hbound := hent.le_rest
          have hpos := hent.pos
          have hshape := SameShape.stamp t c tic
          have hlen : (rest.drop m).length = rest.length - m := List.length_drop
          have hin : (t.stamp c tic).InTree c := (hshape.inTree_iff c).mpr (.inr hent.linked)
          have hfuel' : (rest.drop m).length ≤ fuel := by omega
          have hih := ih (prefixLen + m) (h.stamp c tic) hin hfuel'
          obtain ⟨htree, hle, hbd, hpg, hstuck⟩ := hih
          rw [hlen] at hbd hstuck
          rw [stamp_pageSize] at hpg
          refine ⟨htree, by omega, by omega, ?_, hstuck.imp (fun he => by omega) fun he => ?_⟩
          · have heq : ∀ x, prefixLen + m ≤ x → x - prefixLen = (x - (prefixLen + m)) + m :=
              fun x hx => by omega
            rw [heq _ hle]
            exact Nat.dvd_add hpg hent.pages
          · rw [List.drop_drop] at he
            have heq : ∀ x, prefixLen + m ≤ x → m + (x - (prefixLen + m)) = x - prefixLen :=
              fun x hx => by omega
            rwa [heq _ hle] at he

theorem walk_end (toks : List Token) (tic : Time) (h : t.Wf) :
    StopsAt t (t.walk toks tic).1 toks 0 (t.walk toks tic).2.1 (t.walk toks tic).2.2 :=
  walkLoop_end _ _ h (.inl rfl) (Nat.le_refl _)

-- ---------------------------------------------------------------------------
-- Walking to a linked node
-- ---------------------------------------------------------------------------

/-- `t'` is `t` with other timestamps. -/
structure Restamped (t t' : RadixTree) : Prop extends SameShape t t' where
  refCount : ∀ n, (t'.node n).refCount = (t.node n).refCount
  mambaValue : ∀ n, (t'.node n).mambaValue = (t.node n).mambaValue
  mambaRefCount : ∀ n, (t'.node n).mambaRefCount = (t.node n).mambaRefCount
  snapshotKind : ∀ n, (t'.node n).snapshotKind = (t.node n).snapshotKind
  pooledSums : ∀ n, (t'.node n).pooledSums = (t.node n).pooledSums

theorem Restamped.refl (t : RadixTree) : Restamped t t :=
  ⟨.refl t, fun _ => rfl, fun _ => rfl, fun _ => rfl, fun _ => rfl, fun _ => rfl⟩

theorem Restamped.of_stamp (t : RadixTree) (n : NodeId) (tic : Time) :
    Restamped t (t.stamp n tic) where
  toSameShape := .stamp t n tic
  refCount := fun m => modify_field t n m Node.refCount fun _ => rfl
  mambaValue := fun m => modify_field t n m Node.mambaValue fun _ => rfl
  mambaRefCount := fun m => modify_field t n m Node.mambaRefCount fun _ => rfl
  snapshotKind := fun m => modify_field t n m Node.snapshotKind fun _ => rfl
  pooledSums := fun m => modify_field t n m Node.pooledSums fun _ => rfl

theorem Restamped.trans {t t' t'' : RadixTree} (h : Restamped t t') (h' : Restamped t' t'') :
    Restamped t t'' where
  toSameShape := h.toSameShape.trans h'.toSameShape
  refCount := fun m => (h'.refCount m).trans (h.refCount m)
  mambaValue := fun m => (h'.mambaValue m).trans (h.mambaValue m)
  mambaRefCount := fun m => (h'.mambaRefCount m).trans (h.mambaRefCount m)
  snapshotKind := fun m => (h'.snapshotKind m).trans (h.snapshotKind m)
  pooledSums := fun m => (h'.pooledSums m).trans (h.pooledSums m)

theorem Restamped.wf {t t' : RadixTree} (h : Restamped t t') (hw : t.Wf) : t'.Wf :=
  hw.congr h.toSameShape fun n s hs => by rwa [h.mambaValue] at hs

/-- From the root, the tokens of `n` followed by `rest` lead to `n` with `rest` to go. -/
theorem walkLoop_path (tic : Time) (h : t.Wf) (hn : t.InTree n) (fuel : Nat) (rest : List Token) :
    ∃ t', Restamped t t' ∧
      walkLoop tic (fuel + (t.rootPath n).length) t root (t.pathTokens n ++ rest) 0 =
        walkLoop tic fuel t' n rest (t.pathLen n) := by
  have hlinked := h.linked_of_mem_rootPath hn
  rw [pathTokens, pathLen]
  have hup := h.upPath n
  generalize t.rootPath n = l at hup hlinked
  induction hup generalizing fuel rest with
  | @root r hr =>
    obtain rfl : r = root := h.orphan r (h.inTree_lt hn) hr
    exact ⟨t, .refl t, rfl⟩
  | @cons a p l ha _ ih =>
    have hal : (t.node a).linked = true := hlinked a List.mem_cons_self
    have hp : t.InTree p := by
      obtain ⟨p', hp', hpt⟩ := h.linked_parent a hal
      rw [ha, Option.some.injEq] at hp'
      rwa [hp']
    obtain ⟨t', hres, heq⟩ := ih hp (fuel + 1) ((t.node a).key ++ rest)
      fun c hc => hlinked c (List.mem_cons_of_mem _ hc)
    refine ⟨t'.stamp a tic, hres.trans (.of_stamp t' a tic), ?_⟩
    have hlen : fuel + (a :: l).length = fuel + 1 + l.length := by
      rw [List.length_cons]; omega
    rw [hlen, List.reverse_cons, List.flatMap_append, List.flatMap_singleton, List.append_assoc,
      heq, walkLoop]
    -- the child found is `a`, and its whole key matches
    have hkey : 0 < (t.node a).key.length := (h.key_pages a hal).1
    have hchild : t'.childOf p ((t.node a).key ++ rest) = some a := by
      rw [hres.childOf_eq]
      refine h.childOf_eq_some_iff.mpr ⟨hal, ha, ?_⟩
      rw [List.take_append_of_le_length (h.page_le_key hal)]
    have hne : (t.node a).key ++ rest ≠ [] := by
      intro hnil
      rw [(List.append_eq_nil_iff.mp hnil).1] at hkey
      cases hkey
    rw [if_neg hne, hchild]
    have hm : alignDown (commonPrefixLen (t'.node a).key ((t.node a).key ++ rest)) t'.pageSize =
        (t'.node a).length := by
      rw [hres.key, hres.pageSize, commonPrefixLen_self_append, Node.length, hres.key]
      exact alignDown_eq_of_dvd (h.key_pages a hal).2
    dsimp only
    rw [hm, if_neg (fun hh => hh rfl), Node.length, hres.key, List.drop_left, List.map_cons,
      List.sum_cons, Nat.add_comm, Node.length]

theorem length_le_pathLen (h : t.Wf) (hn : t.InTree n) :
    (t.rootPath n).length ≤ (t.pathTokens n).length := by
  have hlinked := h.linked_of_mem_rootPath hn
  rw [pathTokens]
  generalize t.rootPath n = l at hlinked
  induction l with
  | nil => exact Nat.zero_le _
  | cons a l ih =>
    have hpos := (h.key_pages a (hlinked a List.mem_cons_self)).1
    have ih := ih fun c hc => hlinked c (List.mem_cons_of_mem _ hc)
    rw [List.reverse_cons, List.flatMap_append, List.flatMap_singleton, List.length_append,
      List.length_cons]
    omega

theorem walk_pathTokens (h : t.Wf) (hn : t.InTree n) (tic : Time) :
    ∃ t', Restamped t t' ∧ t.walk (t.pathTokens n) tic = (t', n, t.pathLen n) := by
  have hle := length_le_pathLen h hn
  obtain ⟨t', hres, heq⟩ := walkLoop_path tic h hn
    ((t.pathTokens n).length - (t.rootPath n).length) []
  refine ⟨t', hres, ?_⟩
  rw [Nat.sub_add_cancel hle, List.append_nil] at heq
  rw [walk, heq]
  cases (t.pathTokens n).length - (t.rootPath n).length with
  | zero => rfl
  | succ k => rw [walkLoop, if_pos rfl]

end RadixTree

end FreeToken.KvCache
