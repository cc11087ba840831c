import FreeToken.KvCache.Eviction
import FreeToken.KvCache.PrefixMap

/-!
# The cache refines its map

Each call of the hybrid cache is a step of the prefix map, and so is every run of
calls. What a match returns is what the map has: a split made for another prompt
moves no snapshot.

An insert keeps whole pages only, so a snapshot donated with a prompt that ends
inside a page is found under the prompt's whole pages.

## Results

* `insert_step`, `match_step`, `call_step` — one lemma a call;
* `refines_prefix_map` — every run of calls is a run of the map;
* `unaligned_insert_matched` — a match ends where no insert of just these tokens was.
-/

namespace FreeToken.KvCache

open FreeToken.Lib RadixTree

theorem PrefixMap.addPages_take (m : PrefixMap) (ps : Nat) (ids : List Token) (kv : List KvIndex)
    {len : Nat} (hlen : ids.length ≤ len) : m.addPages ps ids (kv.take len) = m.addPages ps ids kv := by
  rw [addPages, addPages]
  congr 1
  funext q
  split
  · rename_i hq
    have hpage := Nat.le_of_dvd (List.length_pos_iff.mpr hq.1.1) hq.1.2
    have hle := hq.2.length_le
    rw [List.drop_take, List.take_take, Nat.min_eq_left (by omega)]
  · rfl

namespace HybridRadixCache

variable {c c' d : HybridRadixCache} {m : PrefixMap} {ids : List Token} {kv : List KvIndex}
  {slot : Slot} {sums : Option Nat} {kind : SnapshotKind} {tic now : Time} {node n : NodeId}

-- ---------------------------------------------------------------------------
-- Insert
-- ---------------------------------------------------------------------------

/-- The first half of an insert is the pages' half of the map's. -/
theorem extendPath_refines (hw : c.Wf) (h : c.Refines m) (hpages : c.pageSize ∣ ids.length)
    {len : Nat} (hext : c.extendPath ids kv tic now = some (d, node, len)) :
    d.Wf ∧ d.Refines (m.addPages c.pageSize ids kv) ∧ d.InTree node ∧ d.pathTokens node = ids := by
  have hend := walk_end ids tic hw
  have hwalk := walk_wf ids tic hw
  have href := Refines.walk hw h ids tic
  have htok := walk_tokens hw ids tic
  have hps : (c.toRadixTree.walk ids tic).1.pageSize = c.pageSize :=
    WalkKeeps.walk (P := fun u => u.pageSize = c.pageSize)
      ⟨fun _ _ _ _ _ h => h, fun _ _ _ _ _ h => h⟩ hw rfl ids tic
  simp only [extendPath] at hext
  -- either all is in the tree, or the rest becomes a leaf below the end of the walk
  by_cases hdone : (c.walk ids tic).2.2 = ids.length
  · rw [if_pos hdone] at hext
    cases hext
    replace hdone : (c.toRadixTree.walk ids tic).2.2 = ids.length := hdone
    rw [hdone, List.take_length] at htok
    have hpage := href.addPages_of_inTree hwalk hend.inTree kv
    rw [htok, hps] at hpage
    exact ⟨hwalk, hpage, hend.inTree, htok⟩
  rw [if_neg hdone] at hext
  by_cases hvalue : (kv.drop (c.walk ids tic).2.2).length = (ids.drop (c.walk ids tic).2.2).length
  swap
  · rw [if_pos hvalue] at hext
    cases hext
  rw [if_neg (not_not.mpr hvalue)] at hext
  cases hext
  have hok := leafOk_of_walk hw hpages hdone hvalue
  have hbound := hend.bound
  rw [Nat.zero_add] at hbound
  have hlen : ((c.toRadixTree.walk ids tic).1.pathTokens (c.toRadixTree.walk ids tic).2.1).length =
      (c.toRadixTree.walk ids tic).2.2 := by
    rw [htok, List.length_take_of_le hbound]
  have hall : (c.toRadixTree.walk ids tic).1.pathTokens (c.toRadixTree.walk ids tic).2.1 ++
      ids.drop (c.toRadixTree.walk ids tic).2.2 = ids := by
    rw [htok, List.take_append_drop]
  refine ⟨hwalk.addLeaf hok, ?_, .inr ?_, ?_⟩
  · rw [← hlen] at hok
    have hleaf := href.addLeaf hwalk now hok fun q b hb hq => by
      obtain ⟨⟨-, hdvd⟩, k, hk, -⟩ := hb
      rw [hlen] at hq ⊢
      rw [hall] at hq
      exact le_walk hw (.inr hk.linked) hk.le hq hdvd
    rw [hlen, hall, hps] at hleaf
    exact hleaf
  · rw [addLeaf_snd, addLeaf_new]
  · refine (concat_addLeaf_new hwalk hok Node.key).trans ?_
    rw [addLeaf_new]
    exact hall

theorem snap_eq_none_iff (hw : c.Wf) (h : c.Refines m) (hn : c.InTree n) :
    m.snap (c.pathTokens n) = none ↔ (c.node n).mambaValue = none := by
  constructor
  · intro hnone
    cases hv : (c.node n).mambaValue with
    | none => rfl
    | some s =>
      have hsnap := (h.snap _ s (c.node n).pooledSums).mpr ⟨n, hv, rfl, rfl⟩
      rw [hnone] at hsnap
      cases hsnap
  · intro hv
    rw [Option.eq_none_iff_forall_ne_some]
    rintro ⟨s, u⟩ hsnap
    have hat := ((h.snap _ s u).mp hsnap).node hw hn
    rw [hv] at hat
    cases hat.1

/-- The second half of an insert is the snapshot's half of the map's. -/
theorem donate_refines (hw : c.Wf) (h : c.Refines m) (hn : c.InTree node) (slot : Slot)
    (sums : Option Nat) (kind : SnapshotKind) :
    (c.donate node slot sums kind).1.Refines (m.donate (c.pathTokens node) slot sums) ∧
      ((c.donate node slot sums kind).2 = true ↔
        c.pathTokens node = [] ∨ (m.snap (c.pathTokens node)).isSome = true) := by
  have hnone := snap_eq_none_iff hw h hn
  rw [donate]
  split
  · -- the root takes no snapshot
    rename_i hroot
    subst hroot
    have hnil := pathTokens_root hw
    rw [hnil]
    refine ⟨⟨h.sums, fun q s u => ?_, h.page⟩, fun _ => .inl rfl, fun _ => rfl⟩
    rw [PrefixMap.donate]
    dsimp only
    rw [if_neg fun hq => hq.2 hq.1]
    exact h.snap q s u
  rename_i hroot
  have hne : c.pathTokens node ≠ [] := by
    intro hnil
    exact hroot (pathTokens_inj hw hn (.inl rfl) (hnil.trans (pathTokens_root hw).symm))
  have hold : ∀ q, q ≠ c.pathTokens node →
      (m.donate (c.pathTokens node) slot sums).snap q = m.snap q := fun q hq => by
    rw [PrefixMap.donate]
    exact if_neg fun h => hq h.1
  split
  · rename_i hsome
    obtain ⟨s, hs⟩ := Option.isSome_iff_exists.mp hsome
    have hsnap := (h.snap _ s (c.node node).pooledSums).mpr ⟨node, hs, rfl, rfl⟩
    refine ⟨?_, fun _ => .inr (by rw [hsnap]; rfl), fun _ => rfl⟩
    have hmoves : MovesAt c.toRadixTree (c.modify node fun x =>
        { x with
          pooledSums := x.pooledSums.or sums
          snapshotKind := if kind = .chunk then x.snapshotKind else kind }) node :=
      .of_modify _ _ (fun _ => rfl) (fun _ => rfl) (fun _ => rfl) fun _ => rfl
    refine h.of_movesAt hw hmoves hn (fun hv => ?_) rfl hold fun s' u => ?_
    · rw [modify_node, if_pos rfl] at hv
      rw [hs] at hv
      cases hv
    · rw [PrefixMap.donate_snap_some hne hsnap, modify_node, if_pos rfl, hs]
      simp only [Option.some.injEq, Prod.mk.injEq]
  · rename_i hnotsome
    rw [Bool.not_eq_true, Option.isSome_eq_false_iff, Option.isNone_iff_eq_none] at hnotsome
    refine ⟨?_, fun hf => absurd hf Bool.false_ne_true, fun hor => ?_⟩
    · have hmoves : MovesAt c.toRadixTree (c.modify node (attached slot kind sums)) node :=
        .of_modify _ _ (fun _ => rfl) (fun _ => rfl) (fun _ => rfl) fun _ => rfl
      refine h.of_movesAt hw hmoves hn (fun hv => ?_) rfl hold fun s' u => ?_
      · rw [modify_node, if_pos rfl] at hv
        cases hv
      · rw [PrefixMap.donate_snap_none hne (hnone.mpr hnotsome), modify_node, if_pos rfl]
        dsimp only
        rw [h.sums node hnotsome, Option.or_none, Option.some.injEq, Prod.mk.injEq,
          Option.some.injEq]
    · rw [hnone.mpr hnotsome] at hor
      rcases hor with hnil | hsome
      · exact absurd hnil hne
      · cases hsome

theorem insert_step (hw : c.Wf) (h : c.Refines m) {r : Nat × Bool}
    (hins : c.insert ids kv slot sums kind tic now = some (c', r)) :
    ∃ m', m.Step c.pageSize (.insert ids kv slot sums kind tic now) (.inserted r.1 r.2) m' ∧
      c'.Refines m' := by
  simp only [insert] at hins
  split at hins
  · cases hins
  obtain ⟨⟨d, node, len⟩, hext, hd⟩ := Option.map_eq_some_iff.mp hins
  cases hd
  have hlen : (ids.take (alignDown ids.length c.pageSize)).length =
      alignDown ids.length c.pageSize := List.length_take_of_le (alignDown_le _ _)
  have hpages : c.pageSize ∣ (ids.take (alignDown ids.length c.pageSize)).length :=
    hlen.symm ▸ dvd_alignDown _ _
  obtain ⟨hdw, hdr, hdn, hdt⟩ := extendPath_refines hw h hpages hext
  rw [PrefixMap.addPages_take _ _ _ _ (Nat.le_of_eq hlen)] at hdr
  obtain ⟨hdon, hexist⟩ := donate_refines hdw hdr hdn slot sums kind
  rw [hdt] at hdon hexist
  exact ⟨_, ⟨rfl, hexist⟩, hdon⟩

-- ---------------------------------------------------------------------------
-- Match
-- ---------------------------------------------------------------------------

/-- A match may end at the node `n`. -/
def UsableAt (c : HybridRadixCache) (pooled : Bool) (n : NodeId) : Prop :=
  ∃ s, (c.node n).mambaValue = some s ∧ (pooled = true → (c.node n).pooledSums.isSome = true)

/-- What the walk up from `path`'s first node returns. -/
structure Found (c : HybridRadixCache) (pooled : Bool) (path : List NodeId) (seen : Option Nat)
    (r : HybridMatch) : Prop where
  deepest : ∀ k ∈ path, c.UsableAt pooled k → c.pathLen k ≤ r.cachedLen
  hit : (r.mambaValue = none ∧ r.cachedLen = 0 ∧ r.kvIndices = []) ∨
    ∃ k ∈ path, ∃ s, (c.node k).mambaValue = some s ∧ r.mambaValue = some s ∧
      r.cachedLen = c.pathLen k ∧ r.kvIndices = c.collectKv k ∧
      (pooled = true → (c.node k).pooledSums.isSome = true)
  seen_some : ∀ len, seen = some len → r.sumlessLen = len
  seen_none : seen = none → (∀ k ∈ path, c.UsableAt false k → c.pathLen k ≤ r.sumlessLen) ∧
    (r.sumlessLen = 0 ∨ ∃ k ∈ path, c.UsableAt false k ∧ r.sumlessLen = c.pathLen k)

theorem pathLen_le (hw : c.Wf) {k : NodeId} (hk : k ∈ c.rootPath n) : c.pathLen k ≤ c.pathLen n := by
  rw [pathLen_eq_length, pathLen_eq_length]
  exact (pathTokens_grows hw hk).length_le

theorem matchUp_found (hw : c.Wf) (pooled : Bool) (n : NodeId) (seen : Option Nat) :
    c.Found pooled (c.rootPath n) seen (c.matchUp pooled (c.rootPath n) (c.pathLen n) seen) := by
  have hup := hw.upPath n
  generalize hpath : c.rootPath n = path at hup
  induction hup generalizing seen with
  | root _ =>
    refine ⟨nofun, .inl ⟨rfl, rfl, rfl⟩, fun len hs => ?_, fun hs => ⟨nofun, .inl ?_⟩⟩
    · rw [hs]
      rfl
    · rw [hs]
      rfl
  | @cons a p l ha _ ih =>
    have hpar := hw.rootPath_cons ha
    rw [hpath, List.cons.injEq] at hpar
    have hlen : c.pathLen a - (c.node a).length = c.pathLen p := by
      rw [pathLen_eq_length, pathLen_eq_length, pathTokens_child hw ha, List.length_append,
        Node.length, Nat.add_sub_cancel]
    have hbelow : ∀ k ∈ a :: l, c.pathLen k ≤ c.pathLen a := fun k hk =>
      pathLen_le hw (hpath.symm ▸ hk)
    rw [matchUp]
    cases hv : (c.node a).mambaValue with
    | none =>
      dsimp only
      rw [hlen]
      have hf := ih seen hpar.2.symm
      have hskip : ∀ {pooled'} k, k ∈ a :: l → c.UsableAt pooled' k → k ∈ l := by
        rintro pooled' k hk ⟨s, hs, -⟩
        refine (List.mem_cons.mp hk).resolve_left ?_
        rintro rfl
        rw [hv] at hs
        cases hs
      refine ⟨fun k hk hu => hf.deepest k (hskip k hk hu) hu, hf.hit.imp_right ?_, hf.seen_some,
        fun hs => ⟨fun k hk hu => (hf.seen_none hs).1 k (hskip k hk hu) hu,
          (hf.seen_none hs).2.imp_right ?_⟩⟩
      · rintro ⟨k, hk, rest⟩
        exact ⟨k, List.mem_cons_of_mem _ hk, rest⟩
      · rintro ⟨k, hk, rest⟩
        exact ⟨k, List.mem_cons_of_mem _ hk, rest⟩
    | some slot =>
      have hua : c.UsableAt false a := ⟨slot, hv, fun hf => by cases hf⟩
      dsimp only
      split
      · rename_i hok
        -- the deepest snapshot is usable
        have hsums : pooled = true → (c.node a).pooledSums.isSome = true := by
          intro hp
          rw [hp] at hok
          exact hok
        refine ⟨fun k hk _ => hbelow k hk,
          .inr ⟨a, List.mem_cons_self, slot, hv, rfl, rfl, rfl, hsums⟩, fun len hs => by rw [hs]; rfl,
          fun hs => ⟨fun k hk _ => ?_, .inr ⟨a, List.mem_cons_self, hua, by rw [hs]; rfl⟩⟩⟩
        rw [hs]
        exact hbelow k hk
      · rename_i hno
        rw [hlen]
        have hf := ih (some (seen.getD (c.pathLen a))) hpar.2.symm
        have hlast := hf.seen_some _ rfl
        refine ⟨fun k hk hu => ?_, hf.hit.imp_right ?_, fun len hs => ?_, fun hs => ⟨fun k hk _ => ?_,
          .inr ⟨a, List.mem_cons_self, hua, ?_⟩⟩⟩
        · rcases List.mem_cons.mp hk with rfl | hk
          · obtain ⟨s, -, hu⟩ := hu
            exfalso
            cases pooled with
            | false => exact hno rfl
            | true => exact hno (hu rfl)
          · exact hf.deepest k hk hu
        · rintro ⟨k, hk, rest⟩
          exact ⟨k, List.mem_cons_of_mem _ hk, rest⟩
        · rw [hlast, hs]
          rfl
        · rw [hlast, hs]
          exact hbelow k hk
        · rw [hlast, hs]
          rfl

theorem usableAt_iff (hw : c.Wf) (h : c.Refines m) (hn : c.InTree n) (pooled : Bool) :
    c.UsableAt pooled n ↔ m.Usable pooled (c.pathTokens n) := by
  constructor
  · rintro ⟨s, hs, hu⟩
    exact ⟨s, _, (h.snap _ s _).mpr ⟨n, hs, rfl, rfl⟩, hu⟩
  · rintro ⟨s, u, hsnap, hu⟩
    obtain ⟨hs, rfl⟩ := ((h.snap _ s u).mp hsnap).node hw hn
    exact ⟨s, hs, hu⟩

/-- The way up from the end of the longest stored prefix of `ids` finds what the map has. -/
theorem matchUp_returns (hw : c.Wf) (h : c.Refines m) (hn : c.InTree n)
    (hend : c.pathTokens n <+: ids)
    (hlongest : ∀ k, c.InTree k → c.pathTokens k <+: ids →
      (c.pathTokens k).length ≤ (c.pathTokens n).length) (pooled : Bool) :
    m.Returns c.pageSize ids pooled
      (c.matchUp pooled (c.rootPath n) (c.pathLen n) none) := by
  have hfound := matchUp_found hw pooled n none
  generalize c.matchUp pooled (c.rootPath n) (c.pathLen n) none = r at *
  have hpre : ∀ k ∈ c.rootPath n, c.pathTokens k <+: ids := fun k hk =>
    (pathTokens_grows hw hk).trans hend
  have hinTree : ∀ k ∈ c.rootPath n, c.InTree k := fun k hk =>
    inTree_of_mem_rootPath hw hn hk
  -- the snapshots of the input's prefixes are on the way up from the walk's end
  have hpath : ∀ {pooled'} len, len ≤ ids.length → m.Usable pooled' (ids.take len) →
      ∃ k ∈ c.rootPath n, c.UsableAt pooled' k ∧ c.pathLen k = len := by
    intro pooled' len hlen hu
    obtain ⟨s, u, hsnap, hpool⟩ := hu
    obtain ⟨k, hk, hku, hkt⟩ := (h.snap _ s u).mp hsnap
    have hkl := hw.snapshot_linked k s hk
    have hkpre : c.pathTokens k <+: ids := hkt ▸ List.take_prefix _ _
    have habove := comparable hw (.inr hkl) hn hkpre hend (hlongest k (.inr hkl) hkpre)
    refine ⟨k, habove.resolve_left (hw.linked_ne_root hkl), ⟨s, hk, hku.symm ▸ hpool⟩, ?_⟩
    rw [pathLen_eq_length, hkt, List.length_take_of_le hlen]
  have htake : ∀ k ∈ c.rootPath n, ids.take (c.pathLen k) = c.pathTokens k := fun k hk => by
    rw [pathLen_eq_length]
    exact (List.prefix_iff_eq_take.mp (hpre k hk)).symm
  have hkpos : ∀ k ∈ c.rootPath n, 0 < c.pathLen k := by
    intro k hk
    have hkl := hw.linked_of_mem_rootPath hn k hk
    obtain ⟨p, hp, -⟩ := hw.linked_parent k hkl
    have hkey := (hw.key_pages k hkl).1
    rw [pathLen_eq_length, pathTokens_child hw hp, List.length_append]
    omega
  have hkle : ∀ k ∈ c.rootPath n, c.pathLen k ≤ ids.length := fun k hk => by
    rw [pathLen_eq_length]
    exact (hpre k hk).length_le
  obtain ⟨hseen, hsumless⟩ := hfound.seen_none rfl
  refine ⟨?_, fun len hlen hu => ?_, ?_, ?_, ?_, ⟨fun len hlen hu => ?_, hsumless.imp_right ?_⟩⟩
  · rcases hfound.hit with ⟨-, hz, -⟩ | ⟨k, hk, s, -, -, hl, -⟩
    · rw [hz]
      exact Nat.zero_le _
    · rw [hl]
      exact hkle k hk
  · obtain ⟨k, hk, hku, rfl⟩ := hpath len hlen hu
    exact hfound.deepest k hk hku
  · refine hfound.hit.imp (fun hz => ⟨hz.1, hz.2.1⟩) ?_
    rintro ⟨k, hk, s, hs, hr, hl, -, hpool⟩
    refine ⟨s, (c.node k).pooledSums, hr, hl ▸ hkpos k hk, ?_, hpool⟩
    rw [hl, htake k hk]
    exact (h.snap _ s _).mpr ⟨k, hs, rfl, rfl⟩
  · rcases hfound.hit with ⟨-, hz, hkv⟩ | ⟨k, hk, s, -, -, hl, hkv, -⟩
    · rw [hz, hkv]
      rfl
    · rw [hl, hkv, length_collectKv hw (hinTree k hk), pathLen_eq_length]
  · intro i hi
    rcases hfound.hit with ⟨-, hz, -⟩ | ⟨k, hk, s, -, -, hl, hkv, -⟩
    · rw [hz] at hi
      exact absurd hi (Nat.not_lt_zero i)
    rw [hl, pathLen_eq_length] at hi
    rw [hkv]
    exact h.pages_at hw (hinTree k hk) (hpre k hk) hi
  · obtain ⟨k, hk, hku, rfl⟩ := hpath len hlen hu
    exact hseen k hk hku
  · rintro ⟨k, hk, hku, hl⟩
    rw [hl, htake k hk]
    exact (usableAt_iff hw h (hinTree k hk) false).mp hku

theorem match_step (hw : c.Wf) (h : c.Refines m) (ids : List Token) (pooled : Bool) (tic : Time) :
    m.Returns c.pageSize ids pooled (c.matchPrefix ids pooled tic).2 := by
  have hend := walk_end ids tic hw
  have hwalk := walk_wf ids tic hw
  have htok := walk_tokens hw ids tic
  have hbound := hend.bound
  rw [Nat.zero_add] at hbound
  have hps : (c.walk ids tic).1.pageSize = c.pageSize :=
    WalkKeeps.walk (P := fun u => u.pageSize = c.pageSize)
      ⟨fun _ _ _ _ _ h => h, fun _ _ _ _ _ h => h⟩ hw rfl ids tic
  rw [← hps, matchPrefix]
  refine matchUp_returns hwalk (Refines.walk hw h ids tic) hend.inTree
    (htok ▸ List.take_prefix _ _) (fun k hk hpre => ?_) pooled
  show _ ≤ ((c.toRadixTree.walk ids tic).1.pathTokens (c.toRadixTree.walk ids tic).2.1).length
  rw [htok, List.length_take_of_le hbound]
  exact le_walk hw hk (List.prefix_refl _) hpre (dvd_pathTokens hwalk hk)

-- ---------------------------------------------------------------------------
-- Eviction
-- ---------------------------------------------------------------------------

/-- The whole-page prefixes that end inside `n`. -/
def ownPages (c : HybridRadixCache) (n : NodeId) : List (List Token) :=
  (List.range ((c.node n).key.length / c.pageSize)).map fun j =>
    (c.pathTokens n).take ((c.pathTokens n).length - (c.node n).key.length + (j + 1) * c.pageSize)

def ownBlocks (c : HybridRadixCache) (n : NodeId) : List (List KvIndex) :=
  (List.range ((c.node n).key.length / c.pageSize)).map fun j =>
    ((c.node n).value.drop (j * c.pageSize)).take c.pageSize

/-- The lengths at hand when `n` is a node of the tree. -/
theorem base_length (hw : c.Wf) (hl : (c.node n).linked = true) {p : NodeId}
    (hp : (c.node n).parent = some p) :
    (c.pathTokens n).length - (c.node n).key.length = (c.pathTokens p).length ∧
      (c.pathTokens n).length = (c.pathTokens p).length + (c.node n).key.length ∧
      (c.node n).key.length / c.pageSize * c.pageSize = (c.node n).key.length := by
  have hlen : (c.pathTokens n).length = (c.pathTokens p).length + (c.node n).key.length := by
    rw [pathTokens_child hw hp, List.length_append]
  exact ⟨by omega, hlen, Nat.div_mul_cancel (hw.key_pages n hl).2⟩

theorem ownBlocks_flatten (hw : c.Wf) (hl : (c.node n).linked = true) :
    (c.ownBlocks n).flatten = (c.node n).value := by
  rw [ownBlocks, ← List.flatMap_def, flatMap_windows,
    Nat.div_mul_cancel (hw.key_pages n hl).2, ← hw.key_value n hl, List.take_length]

theorem mem_ownPages (hw : c.Wf) (hl : (c.node n).linked = true) {q : List Token} :
    q ∈ c.ownPages n ↔ c.WholePages q ∧ c.Covers n q := by
  obtain ⟨p, hp, -⟩ := hw.linked_parent n hl
  obtain ⟨hbase, hlen, hdiv⟩ := base_length hw hl hp
  have hpdvd := dvd_pathTokens hw (inTree_parent hw hl hp)
  have hpos := hw.page_pos
  rw [ownPages, hbase, List.mem_map]
  constructor
  · rintro ⟨j, hj, rfl⟩
    have hj := List.mem_range.mp hj
    have hle : (j + 1) * c.pageSize ≤ (c.node n).key.length := by
      rw [← hdiv]
      exact Nat.mul_le_mul_right _ hj
    have hstep : 0 < (j + 1) * c.pageSize := Nat.mul_pos (Nat.succ_pos _) hpos
    have htake : ((c.pathTokens n).take ((c.pathTokens p).length + (j + 1) * c.pageSize)).length =
        (c.pathTokens p).length + (j + 1) * c.pageSize := List.length_take_of_le (by omega)
    refine ⟨⟨List.ne_nil_of_length_pos (by omega), ?_⟩, hl, List.take_prefix _ _, fun p' hp' => ?_⟩
    · rw [htake]
      exact Nat.dvd_add hpdvd (Nat.dvd_mul_left _ _)
    · rw [hp, Option.some.injEq] at hp'
      rw [htake, ← hp']
      omega
  · rintro ⟨⟨-, hdvd⟩, hcov⟩
    have hlt := hcov.lt p hp
    have hqle := hcov.le.length_le
    obtain ⟨k, hk⟩ := Nat.dvd_sub hdvd hpdvd
    have hk0 : k ≠ 0 := by
      rintro rfl
      omega
    obtain ⟨j, rfl⟩ := Nat.exists_eq_succ_of_ne_zero hk0
    refine ⟨j, List.mem_range.mpr ?_, ?_⟩
    · rw [Nat.lt_div_iff_mul_lt hpos]
      have hsucc : c.pageSize * j.succ = c.pageSize * j + c.pageSize := Nat.mul_succ _ _
      have hcomm : j * c.pageSize = c.pageSize * j := Nat.mul_comm _ _
      have hpage := Nat.pos_of_ne_zero (Nat.ne_of_gt hpos)
      omega
    · rw [Nat.mul_comm, ← hk, Nat.add_sub_cancel' (Nat.le_of_lt hlt)]
      exact (List.prefix_iff_eq_take.mp hcov.le).symm

theorem nodup_ownPages (hw : c.Wf) (hl : (c.node n).linked = true) : (c.ownPages n).Nodup := by
  obtain ⟨p, hp, -⟩ := hw.linked_parent n hl
  obtain ⟨hbase, hlen, hdiv⟩ := base_length hw hl hp
  refine List.Nodup.of_map List.length ?_
  rw [ownPages, hbase, List.map_map]
  have hcongr : (List.range ((c.node n).key.length / c.pageSize)).map (List.length ∘ fun j =>
      (c.pathTokens n).take ((c.pathTokens p).length + (j + 1) * c.pageSize)) =
      (List.range ((c.node n).key.length / c.pageSize)).map fun j =>
        (c.pathTokens p).length + (j + 1) * c.pageSize := by
    refine List.map_congr_left fun j hj => List.length_take_of_le ?_
    have hle := Nat.mul_le_mul_right c.pageSize (List.mem_range.mp hj)
    rw [hdiv] at hle
    rw [hlen]
    exact Nat.add_le_add_left hle _
  rw [hcongr]
  refine List.nodup_range.map fun i j hij => ?_
  have hmul := Nat.add_left_cancel hij
  exact Nat.succ.inj (Nat.eq_of_mul_eq_mul_right hw.page_pos hmul)

/-- The pages of the prefixes that end inside `n` are `n`'s, block by block. -/
theorem map_ownPages (hw : c.Wf) (h : c.Refines m) (hl : (c.node n).linked = true) :
    (c.ownPages n).map m.page = (c.ownBlocks n).map some := by
  obtain ⟨p, hp, -⟩ := hw.linked_parent n hl
  obtain ⟨hbase, hlen, hdiv⟩ := base_length hw hl hp
  have hkv : c.collectKv n = c.collectKv p ++ (c.node n).value := concat_child hw hp Node.value
  have hplen := length_collectKv hw (inTree_parent hw hl hp)
  rw [ownPages, ownBlocks, hbase, List.map_map, List.map_map]
  refine List.map_congr_left fun j hj => ?_
  have hmem : (c.pathTokens n).take ((c.pathTokens p).length + (j + 1) * c.pageSize) ∈
      c.ownPages n := by
    rw [ownPages, hbase]
    exact List.mem_map.mpr ⟨j, hj, rfl⟩
  obtain ⟨hq, hcov⟩ := (mem_ownPages hw hl).mp hmem
  have hle := Nat.mul_le_mul_right c.pageSize (List.mem_range.mp hj)
  rw [hdiv] at hle
  have hqlen : ((c.pathTokens n).take ((c.pathTokens p).length + (j + 1) * c.pageSize)).length -
      c.pageSize = (c.pathTokens p).length + j * c.pageSize := by
    rw [List.length_take_of_le (hlen ▸ Nat.add_le_add_left hle _), Nat.succ_mul]
    omega
  have hblock := (h.page _ _).mpr (blockAt_of_inTree hw (.inr hl) hq hcov.le)
  rw [hqlen, hkv, ← hplen, List.drop_append, List.drop_eq_nil_of_le (Nat.le_add_right _ _),
    List.nil_append, Nat.add_sub_cancel_left, hplen] at hblock
  exact hblock

/-- What an eviction has taken from the map so far. -/
def Taken (m : PrefixMap) (e : Evicting) : Prop :=
  ∃ gone freed : List (List Token), ∃ blocks : List (List KvIndex),
    gone.Nodup ∧ freed.Nodup ∧ gone.map m.page = blocks.map some ∧
      e.kvIndices = blocks.flatten ∧
      (freed.map fun q => (m.snap q).map Prod.fst) = e.mambaSlots.map some ∧
      e.cache.Refines (m.erase gone freed)

/-- A snapshot is freed in place. -/
theorem freeNodeMamba_taken {e : Evicting} (hw : e.cache.Wf) (h : Taken m e) (n : NodeId)
    (k : Nat) :
    Taken m ⟨(e.cache.freeNodeMamba n e.mambaSlots).1, e.kvIndices,
      (e.cache.freeNodeMamba n e.mambaSlots).2, k⟩ := by
  obtain ⟨gone, freed, blocks, hgone, hfreed, hpages, hkv, hslots, href⟩ := h
  cases hv : (e.cache.node n).mambaValue with
  | none =>
    rw [freeNodeMamba_none hv]
    exact ⟨gone, freed, blocks, hgone, hfreed, hpages, hkv, hslots, href⟩
  | some s =>
    obtain ⟨htree, hout⟩ := freeNodeMamba_some hv e.mambaSlots
    have hn : e.cache.InTree n := .inr (hw.snapshot_linked n s hv)
    obtain ⟨hnew, hsnap⟩ := PrefixMap.erase_snap_iff.mp
      ((href.snap (e.cache.pathTokens n) s _).mpr ⟨n, hv, rfl, rfl⟩)
    refine ⟨gone, freed ++ [e.cache.pathTokens n], blocks, hgone, ?_, hpages, hkv, ?_, ?_⟩
    · rw [List.nodup_append]
      refine ⟨hfreed, List.nodup_singleton _, fun a ha b hb hab => hnew ?_⟩
      rw [← List.mem_singleton.mp hb, ← hab]
      exact ha
    · rw [hout, List.map_append, List.map_append, hslots, List.map_singleton, hsnap]
      rfl
    · have hmoves : MovesAt e.cache.toRadixTree (e.cache.freeNodeMamba n e.mambaSlots).1.toRadixTree
          n := htree ▸ .of_modify _ _ (fun _ => rfl) (fun _ => rfl) (fun _ => rfl) fun _ => rfl
      have hnode : ((e.cache.freeNodeMamba n e.mambaSlots).1.node n).mambaValue = none ∧
          ((e.cache.freeNodeMamba n e.mambaSlots).1.node n).pooledSums = none := by
        rw [htree, modify_node, if_pos rfl]
        exact ⟨rfl, rfl⟩
      have hmap : m.erase gone (freed ++ [e.cache.pathTokens n]) =
          (m.erase gone freed).erase [] [e.cache.pathTokens n] := by
        rw [PrefixMap.erase_erase, List.append_nil]
      rw [hmap]
      refine href.of_movesAt hw hmoves hn (fun _ => hnode.2) ?_ (fun q hq => ?_) fun s' u => ?_
      · funext q
        show (if q ∈ [] then none else (m.erase gone freed).page q) = _
        exact if_neg List.not_mem_nil
      · exact if_neg fun hmem => hq (List.mem_singleton.mp hmem)
      · rw [PrefixMap.erase_snap_iff, hnode.1]
        exact ⟨fun hs => absurd (List.mem_singleton_self _) hs.1, fun hs => by cases hs.1⟩

theorem unlink_refines {t : RadixTree} (hw : t.Wf) (h : t.Refines m) {own : List (List Token)}
    (hown : ∀ q, q ∈ own ↔ t.WholePages q ∧ t.Covers n q) :
    (t.unlink n).Refines (m.erase own []) where
  sums := fun k hk => by
    have hmamba : ((t.unlink n).node k).mambaValue = (t.node k).mambaValue :=
      modify_field t n k Node.mambaValue fun _ => rfl
    have hsums : ((t.unlink n).node k).pooledSums = (t.node k).pooledSums :=
      modify_field t n k Node.pooledSums fun _ => rfl
    rw [hmamba] at hk
    rw [hsums]
    exact h.sums k hk
  snap := fun q s u => by
    have hmamba : ∀ k, ((t.unlink n).node k).mambaValue = (t.node k).mambaValue :=
      fun k => modify_field t n k Node.mambaValue fun _ => rfl
    have hsums : ∀ k, ((t.unlink n).node k).pooledSums = (t.node k).pooledSums :=
      fun k => modify_field t n k Node.pooledSums fun _ => rfl
    have htoks : ∀ k, (t.unlink n).pathTokens k = t.pathTokens k :=
      fun k => concat_unlink (f := Node.key) (fun _ => rfl) n k
    rw [PrefixMap.erase_snap_iff, h.snap, SnapAt, SnapAt]
    simp only [hmamba, hsums, htoks, List.not_mem_nil, not_false_iff, true_and]
  page := fun q b => by
    rw [PrefixMap.erase_page_iff, h.page, blockAt_unlink hw, hown]
    constructor
    · rintro ⟨hno, hb⟩
      exact ⟨hb, fun hc => hno ⟨hb.1, hc⟩⟩
    · rintro ⟨hb, hc⟩
      exact ⟨fun hq => hc hq.2, hb⟩

/-- A leaf takes the pages of the prefixes it covers from the map, each once. -/
theorem unlink_pages {t : RadixTree} (hw : t.Wf) (h : t.Refines m)
    (hl : (t.node n).linked = true) : ∃ own : List (List Token), ∃ blocks : List (List KvIndex),
      own.Nodup ∧ own.map m.page = blocks.map some ∧ blocks.flatten = (t.node n).value ∧
        (t.unlink n).Refines (m.erase own []) := by
  let c : HybridRadixCache := ⟨t, 0, 0, 0, 0⟩
  exact ⟨c.ownPages n, c.ownBlocks n, nodup_ownPages (c := c) hw hl, map_ownPages (c := c) hw h hl,
    ownBlocks_flatten (c := c) hw hl, unlink_refines hw h fun _ => mem_ownPages (c := c) hw hl⟩

/-- What has gone already is not among the pages that go next. -/
theorem erase_append {t : RadixTree} {gone freed own : List (List Token)}
    {blocks more : List (List KvIndex)} (hgone : gone.Nodup)
    (hpages : gone.map m.page = blocks.map some) (hown : own.Nodup)
    (hmap : own.map (m.erase gone freed).page = more.map some)
    (href : t.Refines ((m.erase gone freed).erase own [])) :
    (gone ++ own).Nodup ∧ (gone ++ own).map m.page = (blocks ++ more).map some ∧
      t.Refines (m.erase (gone ++ own) freed) := by
  -- what the leaf's prefixes have now they had before the eviction
  have hstored : ∀ q ∈ own, q ∉ gone ∧ m.page q = (m.erase gone freed).page q := by
    intro q hq
    have hmem := List.mem_map_of_mem (f := (m.erase gone freed).page) hq
    rw [hmap] at hmem
    obtain ⟨b, -, hb⟩ := List.mem_map.mp hmem
    obtain ⟨hno, hm⟩ := PrefixMap.erase_page_iff.mp hb.symm
    exact ⟨hno, hm.trans hb⟩
  refine ⟨?_, ?_, ?_⟩
  · rw [List.nodup_append]
    exact ⟨hgone, hown, fun a ha b hb hab => (hstored b hb).1 (hab ▸ ha)⟩
  · rw [List.map_append, List.map_append, hpages, ← hmap]
    exact congrArg _ (List.map_congr_left fun q hq => (hstored q hq).2)
  · rw [PrefixMap.erase_erase, List.append_nil] at href
    exact href

/-- A leaf leaves the tree with its snapshot. -/
theorem dropLeaf_taken {e : Evicting} (hw : e.cache.Wf) (hl : (e.cache.node n).linked = true)
    (h : Taken m e) : Taken m (dropLeaf e n) := by
  have hfw := freeNodeMamba_wf hw n e.mambaSlots
  have hshape := freeNodeMamba_sameShape e.cache n e.mambaSlots
  obtain ⟨gone, freed, blocks, hgone, hfreed, hpages, hkv, hslots, href⟩ :=
    freeNodeMamba_taken hw h n e.freed
  obtain ⟨own, more, hown, hmap, hflat, hdrop⟩ := unlink_pages hfw href ((hshape.linked n).trans hl)
  obtain ⟨hnd, hall, hrefines⟩ := erase_append hgone hpages hown hmap hdrop
  refine ⟨gone ++ own, freed, blocks ++ more, hnd, hfreed, hall, ?_, hslots, hrefines⟩
  rw [List.flatten_append, hflat, ← hkv, hshape.value]
  rfl

theorem evictionKeeps_taken (m : PrefixMap) : EvictionKeeps (Taken m) where
  drop := fun _ _ hw hl _ _ h => dropLeaf_taken hw hl h
  free := fun _ n k hw _ _ h => freeNodeMamba_taken hw h n k
  freed := fun _ _ h => h

theorem evictionKeeps_pageSize (k : Nat) : EvictionKeeps fun e => e.cache.pageSize = k where
  drop := fun e n _ _ _ _ h => (freeNodeMamba_sameShape e.cache n e.mambaSlots).pageSize.trans h
  free := fun e n _ _ _ _ h => (freeNodeMamba_sameShape e.cache n e.mambaSlots).pageSize.trans h
  freed := fun _ _ h => h

theorem taken_start (h : c.Refines m) : Taken m ⟨c, [], [], 0⟩ :=
  ⟨[], [], [], List.nodup_nil, List.nodup_nil, rfl, rfl, rfl, m.erase_nil.symm ▸ h⟩

theorem Taken.evicts {e : Evicting} (h : Taken m e) :
    ∃ m', m.Evicts e.kvIndices e.mambaSlots m' ∧ e.cache.Refines m' := by
  obtain ⟨gone, freed, blocks, hgone, hfreed, hpages, hkv, hslots, href⟩ := h
  exact ⟨_, ⟨gone, freed, blocks, hgone, hfreed, hpages, hkv, hslots, rfl⟩, href⟩

-- ---------------------------------------------------------------------------
-- Runs
-- ---------------------------------------------------------------------------

theorem unmoved_incLock (c : HybridRadixCache) (n : NodeId) :
    Unmoved c.toRadixTree (c.incLock n).toRadixTree := by
  have hc := LockInv.counted_incLock c n
  exact ⟨hc.toSameShape, hc.mambaValue, hc.pooledSums⟩

theorem unmoved_decLock (hdec : c.decLock n = some c') : Unmoved c.toRadixTree c'.toRadixTree := by
  have hc := LockInv.counted_decLock hdec
  exact ⟨⟨hc.pageSize.symm, hc.next.symm, fun m => (hc.parent m).symm, fun m => (hc.linked m).symm,
    fun m => (hc.key m).symm, fun m => (hc.value m).symm⟩, fun m => (hc.mambaValue m).symm,
    fun m => (hc.pooledSums m).symm⟩

/-- One call is one step of the map. -/
theorem call_step {a : CacheCall} {r : CallResult} (hw : c.Wf) (h : c.Refines m)
    (hcall : c.call a = some (c', r)) :
    c'.Wf ∧ c'.pageSize = c.pageSize ∧ ∃ m', m.Step c.pageSize a r m' ∧ c'.Refines m' := by
  cases a with
  | matchPrefix inputIds pooled tic =>
    cases hcall
    exact ⟨walk_wf inputIds tic hw, WalkKeeps.walk (P := fun u => u.pageSize = c.pageSize)
      ⟨fun _ _ _ _ _ h => h, fun _ _ _ _ _ h => h⟩ hw rfl inputIds tic,
      m, ⟨rfl, match_step hw h inputIds pooled tic⟩, Refines.walk hw h inputIds tic⟩
  | insert inputIds kvIndices slot sums kind tic now =>
    rw [call] at hcall
    split at hcall
    · cases hcall
    rename_i ho
    obtain ⟨⟨d, r⟩, hins, hd⟩ := Option.map_eq_some_iff.mp hcall
    cases hd
    have hps : InsertKeeps kvIndices slot fun u => u.pageSize = c.pageSize :=
      ⟨⟨fun _ _ _ _ _ h => h, fun _ _ _ _ _ h => h⟩, fun _ _ _ _ _ _ _ _ h => h,
        fun _ _ _ _ _ _ _ _ h => h⟩
    obtain ⟨hpage, hwf⟩ := insert_induct hps hw (slotFree_of_owns hw ho) hins rfl
    exact ⟨hwf, hpage, insert_step hw h hins⟩
  | incLock n =>
    rw [call] at hcall
    split at hcall
    · cases hcall
      have hu := unmoved_incLock c n
      exact ⟨(LockInv.counted_incLock c n).wf hw, hu.pageSize, m, rfl, h.of_unmoved hu⟩
    · cases hcall
  | decLock n =>
    obtain ⟨d, hdec, hd⟩ := Option.map_eq_some_iff.mp hcall
    cases hd
    have hu := unmoved_decLock hdec
    exact ⟨(LockInv.counted_decLock hdec).wf_symm hw, hu.pageSize, m, rfl, h.of_unmoved hu⟩
  | evictFull numTokens ties =>
    cases hcall
    obtain ⟨htaken, hwf⟩ := evictFull_induct (evictionKeeps_taken m) numTokens ties hw (taken_start h)
    exact ⟨hwf, (evictFull_induct (evictionKeeps_pageSize _) numTokens ties hw rfl).1, htaken.evicts⟩
  | evictMamba num =>
    cases hcall
    obtain ⟨htaken, hwf⟩ := evictMamba_induct (evictionKeeps_taken m) num hw (taken_start h)
    exact ⟨hwf, (evictMamba_induct (evictionKeeps_pageSize _) num hw rfl).1, htaken.evicts⟩

/-- The cache after the calls, and what each of them returned. -/
def trace : HybridRadixCache → List CacheCall →
    Option (HybridRadixCache × List (CacheCall × CallResult))
  | c, [] => some (c, [])
  | c, a :: calls =>
    (c.call a).bind fun r => (trace r.1 calls).map fun t => (t.1, (a, r.2) :: t.2)

end HybridRadixCache

/-- A run of the map over calls and what they returned. -/
inductive PrefixMap.Run (ps : Nat) :
    PrefixMap → List (CacheCall × CallResult) → PrefixMap → Prop
  | nil (m : PrefixMap) : Run ps m [] m
  | cons {m m' m'' : PrefixMap} {a : CacheCall} {r : CallResult}
      {calls : List (CacheCall × CallResult)} (h : m.Step ps a r m') (hrest : Run ps m' calls m'') :
      Run ps m ((a, r) :: calls) m''

namespace HybridRadixCache

variable {c c' : HybridRadixCache} {m : PrefixMap}

theorem trace_calls {calls : List CacheCall} {results : List (CacheCall × CallResult)}
    (ht : c.trace calls = some (c', results)) : results.map Prod.fst = calls := by
  induction calls generalizing c results with
  | nil =>
    cases ht
    rfl
  | cons a calls ih =>
    rw [trace] at ht
    obtain ⟨⟨d, r⟩, -, ht⟩ := Option.bind_eq_some_iff.mp ht
    obtain ⟨⟨d', rest⟩, hrest, hd⟩ := Option.map_eq_some_iff.mp ht
    cases hd
    rw [List.map_cons, ih hrest]

theorem trace_run {calls : List CacheCall} {results : List (CacheCall × CallResult)} (hw : c.Wf)
    (h : c.Refines m) (ht : c.trace calls = some (c', results)) :
    ∃ m', PrefixMap.Run c.pageSize m results m' ∧ c'.Refines m' := by
  induction calls generalizing c m results with
  | nil =>
    cases ht
    exact ⟨m, .nil m, h⟩
  | cons a calls ih =>
    rw [trace] at ht
    obtain ⟨⟨d, r⟩, hcall, ht⟩ := Option.bind_eq_some_iff.mp ht
    obtain ⟨⟨d', rest⟩, hrest, hd⟩ := Option.map_eq_some_iff.mp ht
    cases hd
    obtain ⟨hdw, hps, m', hstep, hd⟩ := call_step hw h hcall
    obtain ⟨m'', hrun, hc'⟩ := ih hdw hd hrest
    exact ⟨m'', .cons hstep (hps ▸ hrun), hc'⟩

/-- Every run of calls on an empty cache is a run of the map. -/
theorem refines_prefix_map {ps : Nat} (hps : 0 < ps) {calls : List CacheCall}
    {results : List (CacheCall × CallResult)} (ht : (empty ps).trace calls = some (c, results)) :
    ∃ m, PrefixMap.Run ps .empty results m ∧ c.Refines m :=
  trace_run (wf_empty hps) (refines_empty ps) ht

/-- Two prompts with a common first page: the second splits the first one's node. -/
theorem split_prompts_run :
    ∃ c results, (empty 2).trace
        [.insert [1, 2, 3, 4] [10, 11, 12, 13] 7 none .chunk 1 1,
          .insert [1, 2, 5, 6] [20, 21, 22, 23] 8 none .chunk 2 2,
          .matchPrefix [1, 2, 3, 4, 9] false 3] = some (c, results) ∧
      results.map Prod.snd = [.inserted 0 false, .inserted 2 false,
        .matched ⟨[10, 11, 12, 13], 4, some 7, 1, 4⟩] ∧
      ∃ m, PrefixMap.Run 2 .empty results m ∧ c.Refines m := by
  have hrun : ((empty 2).trace
      [.insert [1, 2, 3, 4] [10, 11, 12, 13] 7 none .chunk 1 1,
        .insert [1, 2, 5, 6] [20, 21, 22, 23] 8 none .chunk 2 2,
        .matchPrefix [1, 2, 3, 4, 9] false 3]).map (fun t => t.2.map Prod.snd) =
      some [.inserted 0 false, .inserted 2 false,
        .matched ⟨[10, 11, 12, 13], 4, some 7, 1, 4⟩] := by
    decide
  obtain ⟨⟨c, results⟩, ht, hres⟩ := Option.map_eq_some_iff.mp hrun
  exact ⟨c, results, ht, hres, refines_prefix_map Nat.two_pos ht⟩

/-- A prompt of three tokens is kept as its whole page: a match of that page's two
tokens returns the slot, and no insert was of these two tokens. -/
theorem unaligned_insert_matched :
    ∃ calls c results r, (empty 2).trace calls = some (c, results) ∧
      (CacheCall.matchPrefix [1, 2] false 2, CallResult.matched r) ∈ results ∧
      r.cachedLen = 2 ∧ r.mambaValue = some 7 ∧
      ∀ kv slot sums kind tic now, CacheCall.insert [1, 2] kv slot sums kind tic now ∉ calls := by
  have hrun : ((empty 2).trace [.insert [1, 2, 3] [10, 11, 12] 7 none .final 1 1,
      .matchPrefix [1, 2] false 2]).map (fun t => t.2.map Prod.snd) =
      some [.inserted 0 false, .matched ⟨[10, 11], 2, some 7, 1, 2⟩] := by
    decide
  obtain ⟨⟨c, results⟩, ht, hres⟩ := Option.map_eq_some_iff.mp hrun
  have hzip := List.zip_unzip results
  rw [List.unzip_fst, List.unzip_snd, trace_calls ht, hres] at hzip
  refine ⟨_, c, results, ⟨[10, 11], 2, some 7, 1, 2⟩, ht, ?_, rfl, rfl,
    fun kv slot sums kind tic now hmem => ?_⟩
  · rw [← hzip]
    exact List.mem_cons_of_mem _ List.mem_cons_self
  · simp at hmem

end HybridRadixCache

end FreeToken.KvCache
