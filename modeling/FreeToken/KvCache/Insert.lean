import FreeToken.KvCache.Walk
import FreeToken.KvCache.HybridRadixCache

/-!
# What an insert does

`HybridRadixCache.insert` is a walk, at most one new leaf, and then either a
snapshot attached to a node that had none or a note on the one that is there.

## Results

* `Wf.attach` — attaching a slot no node owns keeps the tree invariant;
* `insert_induct` — what these moves keep, an insert keeps.
-/

namespace FreeToken.KvCache

open FreeToken.Lib RadixTree

/-- `f` changes nothing but a node's timestamp, snapshot kind and sums. -/
structure Annotates (f : Node → Node) : Prop where
  parent : ∀ x, (f x).parent = x.parent
  linked : ∀ x, (f x).linked = x.linked
  key : ∀ x, (f x).key = x.key
  value : ∀ x, (f x).value = x.value
  refCount : ∀ x, (f x).refCount = x.refCount
  mambaValue : ∀ x, (f x).mambaValue = x.mambaValue
  mambaRefCount : ∀ x, (f x).mambaRefCount = x.mambaRefCount

/-- The node fields an attach writes. -/
def attached (s : Slot) (kind : SnapshotKind) (sums : Option Nat) (x : Node) : Node :=
  { x with mambaValue := some s, snapshotKind := kind, pooledSums := sums.or x.pooledSums }

namespace RadixTree

variable {t : RadixTree} {n : NodeId}

theorem SameShape.annotate {f : Node → Node} (hf : Annotates f) (t : RadixTree) (n : NodeId) :
    SameShape t (t.modify n f) :=
  .modify t n hf.parent hf.linked hf.key hf.value

theorem Wf.annotate (h : t.Wf) {f : Node → Node} (hf : Annotates f) (n : NodeId) :
    (t.modify n f).Wf :=
  h.congr (.annotate hf t n) fun m s hs => by
    rwa [modify_field t n m Node.mambaValue hf.mambaValue] at hs

theorem annotates_stamp (tic : Time) : Annotates fun x => { x with timestamp := tic } :=
  ⟨fun _ => rfl, fun _ => rfl, fun _ => rfl, fun _ => rfl, fun _ => rfl, fun _ => rfl, fun _ => rfl⟩

theorem annotates_note (sums : Option Nat) (kind : SnapshotKind) : Annotates fun x =>
    { x with
      pooledSums := x.pooledSums.or sums
      snapshotKind := if kind = .chunk then x.snapshotKind else kind } :=
  ⟨fun _ => rfl, fun _ => rfl, fun _ => rfl, fun _ => rfl, fun _ => rfl, fun _ => rfl, fun _ => rfl⟩

theorem SameShape.attach (t : RadixTree) (n : NodeId) (s : Slot) (kind : SnapshotKind)
    (sums : Option Nat) : SameShape t (t.modify n (attached s kind sums)) :=
  .modify t n (fun _ => rfl) (fun _ => rfl) (fun _ => rfl) fun _ => rfl

theorem attach_mambaValue (t : RadixTree) (n m : NodeId) (s : Slot) (kind : SnapshotKind)
    (sums : Option Nat) : ((t.modify n (attached s kind sums)).node m).mambaValue =
      if m = n then some s else (t.node m).mambaValue := by
  rw [modify_node]
  split
  · rfl
  · rfl

/-- No node owns the slot. -/
def SlotFree (t : RadixTree) (s : Slot) : Prop := ∀ m, (t.node m).mambaValue ≠ some s

theorem Wf.attach (h : t.Wf) {s : Slot} (hn : (t.node n).linked = true) (hs : t.SlotFree s)
    (kind : SnapshotKind) (sums : Option Nat) : (t.modify n (attached s kind sums)).Wf := by
  -- a snapshot of the new tree is the attached one or an old one elsewhere
  have hold : ∀ a r, ((t.modify n (attached s kind sums)).node a).mambaValue = some r →
      (a = n ∧ r = s) ∨ (t.node a).mambaValue = some r := by
    intro a r ha
    rw [attach_mambaValue] at ha
    split at ha
    · rename_i han
      exact .inl ⟨han, (Option.some.inj ha).symm⟩
    · exact .inr ha
  refine h.of_sameShape (.attach t n s kind sums) (fun a r ha => ?_) fun a b r ha hb => ?_
  · rcases hold a r ha with ⟨rfl, -⟩ | ha
    · exact hn
    · exact h.snapshot_linked a r ha
  · rcases hold a r ha with ⟨han, hr⟩ | hoa
    · rcases hold b r hb with ⟨hbn, -⟩ | hob
      · rw [han, hbn]
      · exact absurd (hr ▸ hob) (hs b)
    · rcases hold b r hb with ⟨-, hr⟩ | hob
      · exact absurd (hr ▸ hoa) (hs a)
      · exact h.snapshot_inj a b r hoa hob

theorem SlotFree.congr {t t' : RadixTree} {s : Slot} (h : t.SlotFree s)
    (hsnap : ∀ n, (t'.node n).mambaValue = (t.node n).mambaValue) : t'.SlotFree s := by
  intro m
  rw [hsnap]
  exact h m

theorem SlotFree.splitAt {s : Slot} (h : t.SlotFree s) {pos : Nat} (hw : t.Wf)
    (hok : t.SplitOk n pos) : (t.splitAt n pos).1.SlotFree s := by
  intro m
  rw [splitAt_mambaValue t n pos (Nat.ne_of_lt (hw.linked_lt hok.linked))]
  split
  · nofun
  · exact h m

theorem SlotFree.addLeaf {s : Slot} (h : t.SlotFree s) (p : NodeId) (key : List Token)
    (value : List KvIndex) (now : Time) : (t.addLeaf p key value now).1.SlotFree s := by
  intro m
  by_cases hm : m = t.next
  · rw [hm, addLeaf_new]
    nofun
  · rw [addLeaf_old t p m key value now hm]
    exact h m

end RadixTree

-- ---------------------------------------------------------------------------
-- The moves of a walk and of an insert
-- ---------------------------------------------------------------------------

/-- The moves of a walk keep `P`. -/
structure WalkKeeps (P : RadixTree → Prop) : Prop where
  annotate : ∀ (t : RadixTree) n f, t.Wf → Annotates f → P t → P (t.modify n f)
  split : ∀ (t : RadixTree) n pos, t.Wf → t.SplitOk n pos → P t → P (t.splitAt n pos).1

theorem WalkKeeps.walk {P : RadixTree → Prop} (hP : WalkKeeps P) {t : RadixTree} (h : t.Wf)
    (ht : P t) (toks : List Token) (tic : Time) : P (t.walk toks tic).1 :=
  walk_induct (fun t n tic hw hp => hP.annotate t n _ hw (annotates_stamp tic) hp) hP.split
    toks tic h ht

/-- The moves of an insert of these pages and this slot keep `P`. -/
structure InsertKeeps (kvIndices : List KvIndex) (slot : Slot) (P : RadixTree → Prop) : Prop
    extends WalkKeeps P where
  leaf : ∀ (t : RadixTree) p key value now, t.Wf → t.LeafOk p key value → value <:+: kvIndices →
    P t → P (t.addLeaf p key value now).1
  attach : ∀ (t : RadixTree) n kind sums, t.Wf → (t.node n).linked = true →
    (t.node n).mambaValue = none → t.SlotFree slot → P t →
    P (t.modify n (attached slot kind sums))

theorem insertKeeps_true (kvIndices : List KvIndex) (slot : Slot) :
    InsertKeeps kvIndices slot fun _ => True :=
  ⟨⟨fun _ _ _ _ _ _ => trivial, fun _ _ _ _ _ _ => trivial⟩,
    fun _ _ _ _ _ _ _ _ _ => trivial, fun _ _ _ _ _ _ _ _ _ => trivial⟩

namespace HybridRadixCache

variable {c c' : HybridRadixCache} {inputIds : List Token} {kvIndices : List KvIndex}
  {slot : Slot} {sums : Option Nat} {kind : SnapshotKind} {tic now : Time} {r : Nat × Bool}

/-- A node of the tree owns the slot. -/
def owns (c : HybridRadixCache) (slot : Slot) : Bool :=
  (List.range c.next).any fun n => (c.node n).mambaValue == some slot

theorem slotFree_of_owns (h : c.Wf) (ho : c.owns slot ≠ true) : c.SlotFree slot := by
  intro n hn
  refine ho (List.any_eq_true.mpr ⟨n, List.mem_range.mpr ?_, beq_iff_eq.mpr hn⟩)
  exact h.linked_lt (h.snapshot_linked n slot hn)

theorem walkKeeps_slotFree (slot : Slot) : WalkKeeps fun t => t.SlotFree slot where
  annotate := fun t n _ _ hf hs => hs.congr fun m => modify_field t n m Node.mambaValue hf.mambaValue
  split := fun _ _ _ hw hok hs => hs.splitAt hw hok

/-- A walk that stopped short of a whole-page input leaves room for a leaf. -/
theorem leafOk_of_walk {t : RadixTree} {toks : List Token} (h : t.Wf)
    (hpages : t.pageSize ∣ toks.length) (hshort : (t.walk toks tic).2.2 ≠ toks.length)
    (hvalue : (kvIndices.drop (t.walk toks tic).2.2).length =
      (toks.drop (t.walk toks tic).2.2).length) :
    (t.walk toks tic).1.LeafOk (t.walk toks tic).2.1 (toks.drop (t.walk toks tic).2.2)
      (kvIndices.drop (t.walk toks tic).2.2) := by
  have hend := walk_end toks tic h
  have hps : (t.walk toks tic).1.pageSize = t.pageSize :=
    WalkKeeps.walk (P := fun u => u.pageSize = t.pageSize)
      ⟨fun _ _ _ _ _ h => h, fun _ _ _ _ _ h => h⟩ h rfl toks tic
  have hbound := hend.bound
  have hdiv := hend.pages
  rw [Nat.zero_add] at hbound
  rw [Nat.sub_zero] at hdiv
  refine ⟨hend.inTree, ?_, ?_, hvalue, ?_⟩
  · rw [List.length_drop]
    omega
  · rw [List.length_drop, hps]
    exact Nat.dvd_sub hpages hdiv
  · have hstuck := hend.stuck
    rw [Nat.zero_add] at hstuck
    exact hstuck.resolve_left hshort

/-- What the first half of an insert leaves for the second. -/
structure Extended (slot : Slot) (c : HybridRadixCache) (node : NodeId) : Prop where
  wf : c.Wf
  inTree : c.InTree node
  slotFree : c.SlotFree slot

theorem extendPath_induct {P : RadixTree → Prop} (hP : InsertKeeps kvIndices slot P) (h : c.Wf)
    (hslot : c.SlotFree slot) (hpages : c.pageSize ∣ inputIds.length) {node : NodeId} {len k : Nat}
    (hext : c.extendPath inputIds (kvIndices.take k) tic now = some (c', node, len))
    (hc : P c.toRadixTree) : P c'.toRadixTree ∧ Extended slot c' node := by
  have hend := walk_end inputIds tic h
  have hwf := walk_wf inputIds tic h
  have hPw := hP.walk h hc inputIds tic
  have hfree := (walkKeeps_slotFree slot).walk h hslot inputIds tic
  simp only [extendPath] at hext
  by_cases hdone : (c.walk inputIds tic).2.2 = inputIds.length
  · rw [if_pos hdone] at hext
    cases hext
    exact ⟨hPw, hwf, hend.inTree, hfree⟩
  rw [if_neg hdone] at hext
  by_cases hvalue : ((kvIndices.take k).drop (c.walk inputIds tic).2.2).length =
      (inputIds.drop (c.walk inputIds tic).2.2).length
  swap
  · rw [if_pos hvalue] at hext
    cases hext
  rw [if_neg (not_not.mpr hvalue)] at hext
  cases hext
  have hok := leafOk_of_walk h hpages hdone hvalue
  have hinfix : (kvIndices.take k).drop (c.toRadixTree.walk inputIds tic).2.2 <:+: kvIndices :=
    (List.drop_suffix _ _).isInfix.trans (List.take_prefix _ _).isInfix
  refine ⟨hP.leaf _ _ _ _ now hwf hok hinfix hPw, hwf.addLeaf hok, .inr ?_,
    hfree.addLeaf _ _ _ _⟩
  rw [addLeaf_snd, addLeaf_new]

theorem donate_induct {P : RadixTree → Prop} (hP : InsertKeeps kvIndices slot P) {node : NodeId}
    (h : Extended slot c node) (hc : P c.toRadixTree) :
    P (c.donate node slot sums kind).1.toRadixTree ∧ (c.donate node slot sums kind).1.Wf := by
  rw [donate]
  split
  · exact ⟨hc, h.wf⟩
  rename_i hroot
  have hlinked := h.inTree.resolve_left hroot
  split
  · exact ⟨hP.annotate _ _ _ h.wf (annotates_note sums kind) hc,
      h.wf.annotate (annotates_note sums kind) node⟩
  · rename_i hnone
    rw [Bool.not_eq_true, Option.isSome_eq_false_iff, Option.isNone_iff_eq_none] at hnone
    exact ⟨hP.attach _ _ kind sums h.wf hlinked hnone h.slotFree hc,
      h.wf.attach hlinked h.slotFree kind sums⟩

theorem insert_induct {P : RadixTree → Prop} (hP : InsertKeeps kvIndices slot P) (h : c.Wf)
    (hslot : c.SlotFree slot)
    (hins : c.insert inputIds kvIndices slot sums kind tic now = some (c', r))
    (hc : P c.toRadixTree) : P c'.toRadixTree ∧ c'.Wf := by
  simp only [insert] at hins
  split at hins
  · cases hins
  obtain ⟨⟨d, node, len⟩, hext, hd⟩ := Option.map_eq_some_iff.mp hins
  cases hd
  have hpages : c.pageSize ∣ (inputIds.take (alignDown inputIds.length c.pageSize)).length := by
    rw [List.length_take, Nat.min_eq_left (alignDown_le _ _)]
    exact dvd_alignDown _ _
  obtain ⟨hPd, hd⟩ := extendPath_induct hP h hslot hpages hext hc
  exact donate_induct hP hd hPd

end HybridRadixCache

end FreeToken.KvCache
