import FreeToken.Lib.Reach
import FreeToken.Server.Generation

/-!
# The tool events of a stream are bracketed

`bracket` reads the events of a stream one at a time: call `k` is started with a name, has its
argument fragments, and is closed by its complete item before anything else of a call or of the
content may come. Main results:

* `Sim`, `sim_each`: what the assembly puts out is read without an error, and ends where the
  assembly stands, just when each step of it was in order.
* `bracketed_iff`: so a finished stream is well bracketed just when no fragment without a name
  found no call open, and no call that ended with fragments that are no JSON was given
  arguments that do not extend them.
* `truncated_not_bracketed`: a call that is cut off inside a string breaks it.
-/

namespace FreeToken.Server

open FreeToken.Lib

/-! ## Reading the events -/

/-- What has been read: the calls so far, and the one that is open. -/
inductive Bracket where
  | between (calls : Nat)
  | inside (calls : Nat) (name : Text) (stable : Bool) (fragments : Text)
  | closed (calls : Nat) (done : GenDone)

/-- The next event, when it may come here. -/
def bracket : Bracket → GenEvent → Option Bracket
  | .between n, .toolCallStart i (some name) stable =>
    if i = n then some (.inside n name stable []) else none
  | .between n, .contentDelta _ => some (.between n)
  | .between n, .genDone done => some (.closed n done)
  | .between n, .reasoningDelta _ => some (.between n)
  | .between n, .pooledReady _ _ => some (.between n)
  | .inside n name stable fragments, .toolCallArgsDelta i fragment =>
    if i = n then some (.inside n name stable (fragments ++ fragment)) else none
  | .inside n name stable fragments, .toolCallsDelta [call] =>
    if call.toolIndex = n ∧ call.name = some name ∧
        (stable = true → fragments <+: call.parameters) then
      some (.between (n + 1))
    else none
  | .inside n name stable fragments, .reasoningDelta _ => some (.inside n name stable fragments)
  | .inside n name stable fragments, .pooledReady _ _ => some (.inside n name stable fragments)
  | _, _ => none

/-- Read from `b` on, the events end with the one `GenDone`, whose reason says whether there was
a call. -/
def Ends (engine : Option EngineReason) (b : Bracket) (events : List GenEvent) : Prop :=
  ∃ n done, run bracket b events = some (.closed n done) ∧
    (done.finishReason = .toolCalls ↔ 0 < n ∧ engine ≠ some .length)

/-- The events of a finished stream are in order: calls `0, 1, …` one after the other, exactly
one `GenDone`, at the end, and its reason says whether there was a call. -/
def WellBracketed (engine : Option EngineReason) (events : List GenEvent) : Prop :=
  Ends engine (.between 0) events

/-! ## Steps in order -/

/-- Each step meets the condition in the state it finds. -/
def Assembly.Each {α : Type} (f : Assembly → α → Assembly × List GenEvent)
    (ok : Assembly → α → Prop) : Assembly → List α → Prop
  | _, [] => True
  | a, x :: xs => ok a x ∧ Assembly.Each f ok (f a x).1 xs

namespace Generation

variable {σ ρ : Type} (g : Generation σ ρ)

/-- The open call may end: its fragments are JSON, or the arguments as parsed so far extend
them. This is asked only where the fragments are announced as stable. -/
def CloseOk (stable : Bool) (ledger : Int → Option Text) (a : Assembly) : Prop :=
  ∀ oc, a.openCall = some oc → stable = true → g.validJson oc.params = false →
    ∀ t, ledger oc.detectorIndex = some t → t = [] ∨ oc.params <+: t

/-- A fragment without a name belongs to an open call. -/
def FragmentOk (stable : Bool) (ledger : Int → Option Text) (a : Assembly)
    (frag : ToolCallItem) : Prop :=
  (startsNew a frag = true → g.CloseOk stable ledger a) ∧
    (a.openCall.isNone = true → frag.name.isSome = true)

def SegmentOk (stable : Bool) (ledger : Int → Option Text) (a : Assembly) :
    StreamSegment → Prop
  | .text _ => g.CloseOk stable ledger a
  | .calls items =>
    a.Each (g.routeFragment stable ledger) (g.FragmentOk stable ledger) items

def PieceOk (parser : ToolParser σ) (s : σ) (a : Assembly) (piece : Text) : Prop :=
  piece ≠ [] →
    let parsed := parser.parseStreamEvents s piece
    let ledger := parser.unstreamedArguments parsed.1
    a.Each (g.routeSegment parser.argsFragmentsPrefixStable ledger)
      (g.SegmentOk parser.argsFragmentsPrefixStable ledger) parsed.2

/-- The parser's last word on the call that is still open, and on the one that is cut off. -/
def DrainOk (parser : ToolParser σ) (s : σ) (a : Assembly) : Prop :=
  let finalized := parser.finalizeStream s
  g.CloseOk parser.argsFragmentsPrefixStable (parser.unstreamedArguments finalized.1)
      (a.each finalizeFragment finalized.2).1 ∧
    ∀ item ∈ (parser.recoverTruncatedCall finalized.1).2, item.name.isSome = true

def ContentOk (s : GenState σ ρ) (content : Text) : Prop :=
  match g.tools, s.parser with
  | .streaming parser, some p => g.PieceOk parser p s.assembly content
  | _, _ => True

def AckOk (s : GenState σ ρ) (ack : Ack) : Prop :=
  let split := g.splitAck (countAck s ack).1 ack
  g.ContentOk split.1 split.2.1

/-- A buffered answer has its calls in one event, which nothing starts. -/
def ToolsOk (s : GenState σ ρ) : Prop :=
  match g.tools, s.parser with
  | .streaming parser, some p => g.DrainOk parser p s.assembly
  | .buffered parse, _ => parse s.pending = none
  | _, _ => True

def EndOk (s : GenState σ ρ) : Prop :=
  let content := (g.residue s).normalText
  g.ContentOk s content ∧ g.ToolsOk (g.routeContent s content).1

/-- Every step of the stream is in order, up to its last reply. -/
def InOrder (s : GenState σ ρ) : List Ack → Prop
  | [] => True
  | ack :: acks =>
    g.AckOk s ack ∧
      if ack.finished then g.EndOk (g.onAck s ack).1 else InOrder (g.onAck s ack).1 acks

/-! The condition can be checked. -/

instance instDecidableEach {α : Type} (f : Assembly → α → Assembly × List GenEvent)
    (ok : Assembly → α → Prop) [∀ a x, Decidable (ok a x)] :
    ∀ a xs, Decidable (Assembly.Each f ok a xs)
  | _, [] => isTrue trivial
  | a, x :: xs =>
    have := instDecidableEach f ok (f a x).1 xs
    inferInstanceAs (Decidable (ok a x ∧ Assembly.Each f ok (f a x).1 xs))

instance (stable : Bool) (ledger : Int → Option Text) (a : Assembly) :
    Decidable (g.CloseOk stable ledger a) :=
  inferInstanceAs (Decidable (∀ oc ∈ a.openCall, stable = true → g.validJson oc.params = false →
    ∀ t ∈ ledger oc.detectorIndex, t = [] ∨ oc.params <+: t))

instance (stable : Bool) (ledger : Int → Option Text) (a : Assembly) (frag : ToolCallItem) :
    Decidable (g.FragmentOk stable ledger a frag) :=
  inferInstanceAs (Decidable ((startsNew a frag = true → g.CloseOk stable ledger a) ∧
    (a.openCall.isNone = true → frag.name.isSome = true)))

instance (stable : Bool) (ledger : Int → Option Text) (a : Assembly) :
    ∀ seg, Decidable (g.SegmentOk stable ledger a seg)
  | .text _ => inferInstanceAs (Decidable (g.CloseOk stable ledger a))
  | .calls items =>
    inferInstanceAs (Decidable
      (a.Each (g.routeFragment stable ledger) (g.FragmentOk stable ledger) items))

instance (parser : ToolParser σ) (s : σ) (a : Assembly) (piece : Text) :
    Decidable (g.PieceOk parser s a piece) :=
  inferInstanceAs (Decidable (piece ≠ [] →
    a.Each
      (g.routeSegment parser.argsFragmentsPrefixStable
        (parser.unstreamedArguments (parser.parseStreamEvents s piece).1))
      (g.SegmentOk parser.argsFragmentsPrefixStable
        (parser.unstreamedArguments (parser.parseStreamEvents s piece).1))
      (parser.parseStreamEvents s piece).2))

instance (parser : ToolParser σ) (s : σ) (a : Assembly) : Decidable (g.DrainOk parser s a) :=
  inferInstanceAs (Decidable (_ ∧ ∀ item ∈ _, _))

instance (s : GenState σ ρ) (content : Text) : Decidable (g.ContentOk s content) :=
  match htools : g.tools, hp : s.parser with
  | .streaming parser, some p =>
    decidable_of_iff (g.PieceOk parser p s.assembly content) (by simp [ContentOk, htools, hp])
  | .streaming _, none => isTrue (by simp [ContentOk, htools, hp])
  | .buffered _, _ => isTrue (by simp [ContentOk, htools])
  | .off, _ => isTrue (by simp [ContentOk, htools])

instance (s : GenState σ ρ) : Decidable (g.ToolsOk s) :=
  match htools : g.tools, hp : s.parser with
  | .streaming parser, some p =>
    decidable_of_iff (g.DrainOk parser p s.assembly) (by simp [ToolsOk, htools, hp])
  | .streaming _, none => isTrue (by simp [ToolsOk, htools, hp])
  | .buffered parse, _ =>
    decidable_of_iff ((parse s.pending).isNone = true) (by simp [ToolsOk, htools])
  | .off, _ => isTrue (by simp [ToolsOk, htools])

instance instDecidableInOrder : ∀ (s : GenState σ ρ) (acks : List Ack), Decidable (g.InOrder s acks)
  | _, [] => isTrue trivial
  | s, ack :: acks =>
    have := instDecidableInOrder (g.onAck s ack).1 acks
    inferInstanceAs (Decidable (g.ContentOk _ _ ∧
      if ack.finished then g.ContentOk _ _ ∧ g.ToolsOk _ else g.InOrder (g.onAck s ack).1 acks))

end Generation

/-- The reason the engine gives with its last reply. -/
def engineReason (acks : List Ack) : Option EngineReason :=
  (acks.find? Ack.finished).bind Ack.finishReason

/-! ## The reader follows the assembly -/

section Sim

/-- The reader stands where the assembly does. -/
def Matches (stable : Bool) (a : Assembly) : Bracket → Prop
  | .between n => a.openCall = none ∧ n = a.callsEmitted
  | .inside n name st fragments =>
    st = stable ∧ n = a.callsEmitted ∧ ∃ oc, a.openCall = some oc ∧ oc.ordinal = n ∧
      oc.name = some name ∧ oc.params = fragments
  | .closed _ _ => False

/-- What was put out can be read from `b` on just when `ok`, and then the reader follows. -/
def Sim (stable : Bool) (b : Bracket) (r : Assembly × List GenEvent) (ok : Prop) : Prop :=
  (ok → ∃ b', run bracket b r.2 = some b' ∧ Matches stable r.1 b') ∧
    (¬ ok → run bracket b r.2 = none)

variable {stable : Bool} {b : Bracket}

theorem Sim.congr {r : Assembly × List GenEvent} {ok ok' : Prop} (h : Sim stable b r ok)
    (hiff : ok ↔ ok') : Sim stable b r ok' :=
  propext hiff ▸ h

/-- Nothing put out. -/
theorem Sim.skip {a : Assembly} (hm : Matches stable a b) : Sim stable b (a, []) True :=
  ⟨fun _ => ⟨b, rfl, hm⟩, fun h => absurd trivial h⟩

/-- One thing after the other. -/
theorem Sim.seq {a₁ a₂ : Assembly} {e₁ e₂ : List GenEvent} {ok₁ ok₂ : Prop}
    (h₁ : Sim stable b (a₁, e₁) ok₁)
    (h₂ : ok₁ → ∀ b', Matches stable a₁ b' → Sim stable b' (a₂, e₂) ok₂) :
    Sim stable b (a₂, e₁ ++ e₂) (ok₁ ∧ ok₂) := by
  unfold Sim
  rw [run_append]
  by_cases hok : ok₁
  · obtain ⟨b', hb', hm⟩ := h₁.1 hok
    have hrest := h₂ hok b' hm
    rw [hb']
    simp only [hok, true_and]
    exact hrest
  · rw [h₁.2 hok]
    exact ⟨fun h => absurd h.1 hok, fun _ => rfl⟩

/-- A run over a list, step by step. -/
theorem sim_each {α : Type} {f : Assembly → α → Assembly × List GenEvent}
    {ok : Assembly → α → Prop} (xs : List α)
    (hstep : ∀ x ∈ xs, ∀ a b, Matches stable a b → Sim stable b (f a x) (ok a x)) :
    ∀ a b, Matches stable a b → Sim stable b (a.each f xs) (a.Each f ok xs) := by
  induction xs with
  | nil =>
    intro a b hm
    exact Sim.skip hm
  | cons x xs ih =>
    intro a b hm
    refine Sim.seq (hstep x (by simp) a b hm) fun _ b' hm' => ?_
    exact ih (fun y hy => hstep y (by simp [hy])) _ b' hm'

end Sim

/-! ## The steps of the assembly -/

namespace Generation

variable {σ ρ : Type} (g : Generation σ ρ) {stable : Bool} {ledger : Int → Option Text}
  {a : Assembly} {b : Bracket}

theorem finalParams_some {oc : OpenCall} {t : Text} (hv : g.validJson oc.params = false)
    (ht : ledger oc.detectorIndex = some t) :
    g.finalParams ledger oc = if t = [] then oc.params else t := by
  unfold finalParams
  rw [hv, ht]
  by_cases hempty : t = [] <;> simp [hempty, Option.filter]

/-- The arguments a call ends with extend its fragments just when it may end. -/
theorem finalParams_prefix_iff (stable : Bool) (ledger : Int → Option Text) {oc : OpenCall}
    (ho : a.openCall = some oc) :
    (stable = true → oc.params <+:
        if g.finalParams ledger oc = [] then "\x7b\x7d".toList else g.finalParams ledger oc) ↔
      g.CloseOk stable ledger a := by
  have hkeep : g.finalParams ledger oc = oc.params →
      oc.params <+:
        if g.finalParams ledger oc = [] then "\x7b\x7d".toList else g.finalParams ledger oc := by
    intro h
    rw [h]
    split
    · rename_i hempty
      rw [hempty]
      exact List.nil_prefix
    · exact List.prefix_rfl
  constructor
  · intro h oc' ho' hs hv t ht
    rw [ho, Option.some.injEq] at ho'
    subst ho'
    have hp := h hs
    rw [g.finalParams_some hv ht] at hp
    by_cases hempty : t = []
    · exact Or.inl hempty
    · rw [if_neg hempty, if_neg hempty] at hp
      exact Or.inr hp
  · intro h hs
    cases hv : g.validJson oc.params with
    | true => exact hkeep (by simp [finalParams, hv])
    | false =>
      cases ht : ledger oc.detectorIndex with
      | none => exact hkeep (by simp [finalParams, hv, ht])
      | some t =>
        have hfinal := g.finalParams_some hv ht
        by_cases hempty : t = []
        · rw [if_pos hempty] at hfinal
          exact hkeep hfinal
        · rw [if_neg hempty] at hfinal
          rw [hfinal, if_neg hempty]
          exact (h oc ho hs hv t ht).resolve_left hempty

/-- The end of a call. -/
theorem sim_close (ledger : Int → Option Text) (hm : Matches stable a b) :
    Sim stable b (g.closeOpenCall ledger a) (g.CloseOk stable ledger a) := by
  unfold closeOpenCall
  cases ho : a.openCall with
  | none =>
    refine (Sim.skip hm).congr ⟨fun _ oc h => ?_, fun _ => trivial⟩
    rw [ho] at h
    cases h
  | some oc =>
    cases b with
    | between n => simp [Matches, ho] at hm
    | closed n done => exact hm.elim
    | inside n name st fragments =>
      obtain ⟨rfl, hn, oc', ho', hord, hname, hparams⟩ := hm
      rw [ho, Option.some.injEq] at ho'
      subst ho'
      have hiff := g.finalParams_prefix_iff st ledger ho
      constructor
      · intro hok
        refine ⟨.between (n + 1), ?_, rfl, by rw [hn]⟩
        simp only [run_cons, run_nil, bracket]
        rw [if_pos ⟨by rw [hord], hname, by rw [← hparams]; exact hiff.mpr hok⟩]
        rfl
      · intro hbad
        simp only [run_cons, run_nil, bracket]
        rw [if_neg fun h => hbad (hiff.mp (by rw [hparams]; exact h.2.2))]
        rfl

/-- After a close no call is open. -/
theorem close_openCall : (g.closeOpenCall ledger a).1.openCall = none := by
  unfold closeOpenCall
  cases ho : a.openCall with
  | none => exact ho
  | some oc => rfl

/-- Text outside of a call. -/
theorem sim_content (payload : Text) (ho : a.openCall = none) (hm : Matches stable a b) :
    Sim stable b (g.contentEvents a payload) True := by
  unfold contentEvents
  simp only
  split
  · exact Sim.skip hm
  · cases b with
    | between n => exact ⟨fun _ => ⟨.between n, rfl, hm⟩, fun h => absurd trivial h⟩
    | closed n done => exact hm.elim
    | inside n name st fragments =>
      obtain ⟨-, -, oc, hoc, -⟩ := hm
      rw [ho] at hoc
      cases hoc

/-- A fragment of the open call. -/
theorem sim_add {oc : OpenCall} (fragment : Text) (ho : a.openCall = some oc)
    (hm : Matches stable a b) : Sim stable b (addFragment a oc fragment) True := by
  unfold addFragment
  split
  · have hsame : { a with openCall := some oc } = a := by
      rw [← ho]
    rw [hsame]
    exact Sim.skip hm
  · cases b with
    | between n => simp [Matches, ho] at hm
    | closed n done => exact hm.elim
    | inside n name st fragments =>
      obtain ⟨hst, hn, oc', ho', hord, hname, hparams⟩ := hm
      rw [ho, Option.some.injEq] at ho'
      subst ho'
      refine ⟨fun _ => ⟨.inside n name st (fragments ++ fragment), ?_, ?_⟩,
        fun h => absurd trivial h⟩
      · simp [run_cons, bracket, hord]
      · exact ⟨hst, hn, _, rfl, hord, hname, by rw [← hparams]⟩

/-- A fragment where no call is open: it begins one, and must have the name. -/
theorem sim_begin (frag : ToolCallItem) (ho : a.openCall = none) (hm : Matches stable a b) :
    Sim stable b
      ((addFragment a (ensureOpen stable a frag).1 frag.parameters).1,
        (ensureOpen stable a frag).2 ++
          (addFragment a (ensureOpen stable a frag).1 frag.parameters).2)
      (frag.name.isSome = true) := by
  obtain ⟨n, rfl, hn⟩ : ∃ n, b = .between n ∧ n = a.callsEmitted := by
    cases b with
    | between n => exact ⟨n, rfl, hm.2⟩
    | closed n done => exact hm.elim
    | inside n name st fragments =>
      obtain ⟨-, -, oc, hoc, -⟩ := hm
      rw [ho] at hoc
      cases hoc
  unfold ensureOpen
  rw [ho]
  cases hname : frag.name with
  | none => exact ⟨fun h => by simp at h, fun _ => rfl⟩
  | some name =>
    let oc : OpenCall := ⟨frag.toolIndex, some name, [], a.callsEmitted⟩
    have hstart : Sim stable (.between n) ({ a with openCall := some oc },
        [.toolCallStart a.callsEmitted (some name) stable]) True := by
      refine ⟨fun _ => ⟨.inside n name stable [], ?_, rfl, hn, oc, rfl, hn.symm, rfl, rfl⟩,
        fun h => absurd trivial h⟩
      simp [run_cons, bracket, hn]
    -- the fragment is added as to a call that is open already
    have hadd : addFragment a oc frag.parameters =
        addFragment { a with openCall := some oc } oc frag.parameters := by
      unfold addFragment
      split <;> rfl
    have hseq := Sim.seq hstart fun _ b' hm' => sim_add frag.parameters rfl hm'
    simp only [oc] at hadd hseq
    rw [hadd]
    exact hseq.congr (by simp)

theorem sim_fragment (frag : ToolCallItem) (hm : Matches stable a b) :
    Sim stable b (g.routeFragment stable ledger a frag) (g.FragmentOk stable ledger a frag) := by
  unfold routeFragment
  simp only
  cases hnew : startsNew a frag with
  | true =>
    -- another call: the open one ends first
    have hname : frag.name.isSome = true := (Bool.and_eq_true_iff.mp hnew).1
    simp only [if_true]
    refine (Sim.seq (g.sim_close _ hm) fun _ b' hm' =>
      sim_begin frag g.close_openCall hm').congr ?_
    simp [FragmentOk, hnew, hname]
  | false =>
    simp only [Bool.false_eq_true, if_false, List.nil_append]
    cases ho : a.openCall with
    | none =>
      have hbegin := sim_begin frag ho hm
      rw [ensureOpen, ho] at hbegin ⊢
      exact hbegin.congr (by simp [FragmentOk, hnew, ho])
    | some oc =>
      have hadd := sim_add frag.parameters ho hm
      rw [ensureOpen, ho]
      exact hadd.congr (by simp [FragmentOk, hnew, ho])

theorem sim_segment (seg : StreamSegment) (hm : Matches stable a b) :
    Sim stable b (g.routeSegment stable ledger a seg) (g.SegmentOk stable ledger a seg) := by
  cases seg with
  | text payload =>
    refine (Sim.seq (g.sim_close _ hm) fun _ b' hm' =>
      g.sim_content payload g.close_openCall hm').congr ?_
    simp [SegmentOk]
  | calls items =>
    exact sim_each items (fun frag _ a b hm => g.sim_fragment frag hm) a b hm

/-! ## The end of the stream -/

theorem sim_finalize (frag : ToolCallItem) (hm : Matches stable a b) :
    Sim stable b (finalizeFragment a frag) True := by
  unfold finalizeFragment
  cases ho : a.openCall with
  | none => exact Sim.skip hm
  | some oc => exact sim_add frag.parameters ho hm

/-- A recovered call is started and closed at once. -/
theorem sim_recover (item : ToolCallItem) (hm : Matches stable a b) :
    Sim stable b (recoverItem a item) (a.openCall = none ∧ item.name.isSome = true) := by
  unfold recoverItem
  cases b with
  | closed n done => exact hm.elim
  | inside n name st fragments =>
    obtain ⟨-, -, oc, ho, -⟩ := hm
    refine ⟨fun h => ?_, fun _ => rfl⟩
    rw [ho] at h
    cases h.1
  | between n =>
    obtain ⟨ho, rfl⟩ := hm
    cases hname : item.name with
    | none => exact ⟨fun h => by simp at h, fun _ => rfl⟩
    | some name =>
      refine ⟨fun _ => ⟨.between (a.callsEmitted + 1), ?_, ho, rfl⟩, fun h => ?_⟩
      · simp [bracket]
      · simp [ho] at h

theorem each_recover_openCall (items : List ToolCallItem) :
    ∀ a : Assembly, (a.each recoverItem items).1.openCall = a.openCall := by
  induction items with
  | nil =>
    intro a
    rfl
  | cons item items ih =>
    intro a
    exact ih _

theorem each_recover_iff (items : List ToolCallItem) :
    ∀ a : Assembly, a.openCall = none →
      (a.Each recoverItem (fun a item => a.openCall = none ∧ item.name.isSome = true) items ↔
        ∀ item ∈ items, item.name.isSome = true) := by
  induction items with
  | nil =>
    intro a _
    simp [Assembly.Each]
  | cons item items ih =>
    intro a ho
    have hrest := ih (recoverItem a item).1 ho
    simp [Assembly.Each, ho, hrest]

theorem each_true {α : Type} {f : Assembly → α → Assembly × List GenEvent} (xs : List α) :
    ∀ a : Assembly, a.Each f (fun _ _ => True) xs := by
  induction xs with
  | nil =>
    intro a
    trivial
  | cons x xs ih =>
    intro a
    exact ⟨trivial, ih _⟩

/-- The text that is released at the end; whether it swallows whitespace no longer matters. -/
theorem sim_residual (payload : Text) (ho : a.openCall = none) (hm : Matches stable a b) :
    Sim stable b (a, (g.contentEvents a payload).2) True := by
  have hcontent := g.sim_content payload ho hm
  refine ⟨fun h => ?_, fun h => absurd trivial h⟩
  obtain ⟨b', hrun, hm'⟩ := hcontent.1 h
  refine ⟨b', hrun, ?_⟩
  have ho' : (g.contentEvents a payload).1.openCall = a.openCall := by
    unfold contentEvents
    simp only
    split <;> rfl
  have hn' : (g.contentEvents a payload).1.callsEmitted = a.callsEmitted := by
    unfold contentEvents
    simp only
    split <;> rfl
  cases b' with
  | closed n done => exact hm'.elim
  | between n => exact ⟨ho, hm'.2.trans hn'⟩
  | inside n name st fragments =>
    obtain ⟨-, -, oc, hoc, -⟩ := hm'
    rw [ho', ho] at hoc
    cases hoc

theorem drain_openCall (parser : ToolParser σ) (s : σ) :
    (g.drainParser parser s a).1.openCall = none := by
  unfold drainParser
  simp only
  rw [each_recover_openCall]
  exact g.close_openCall

/-- The four drains: finalizing fragments, the close, recovered calls, the held text. -/
theorem sim_drain (parser : ToolParser σ) (s : σ)
    (hm : Matches parser.argsFragmentsPrefixStable a b) :
    Sim parser.argsFragmentsPrefixStable b (g.drainParser parser s a) (g.DrainOk parser s a) := by
  set finalized := parser.finalizeStream s with hfinalized
  set completed := a.each finalizeFragment finalized.2 with hcompleted
  set closed := g.closeOpenCall (parser.unstreamedArguments finalized.1) completed.1 with hclosed
  set recovered := parser.recoverTruncatedCall finalized.1 with hrecovered
  have hnone : closed.1.openCall = none := g.close_openCall
  have hafter := (each_recover_openCall recovered.2 closed.1).trans hnone
  have hall : Sim parser.argsFragmentsPrefixStable b completed
      (a.Each finalizeFragment (fun _ _ => True) finalized.2) :=
    sim_each (f := finalizeFragment) finalized.2 (fun frag _ a b hm => sim_finalize frag hm) a b hm
  have hsim := Sim.seq hall fun _ b₁ hm₁ =>
    Sim.seq (g.sim_close (parser.unstreamedArguments finalized.1) hm₁) fun _ b₂ hm₂ =>
      Sim.seq (sim_each (f := recoverItem) recovered.2 (fun item _ a b hm => sim_recover item hm)
        closed.1 b₂ hm₂) fun _ b₃ hm₃ => g.sim_residual (parser.finishStream recovered.1) hafter hm₃
  refine hsim.congr ?_
  rw [and_iff_right (each_true finalized.2 a), and_true]
  exact and_congr_right fun _ => each_recover_iff recovered.2 closed.1 hnone

/-! ## The state of the stream -/

/-- A streaming parser has a state; without one no call is ever put together. -/
def Ready (s : GenState σ ρ) : Prop :=
  match g.tools with
  | .streaming _ => s.parser.isSome = true
  | _ => s.assembly.openCall = none ∧ s.assembly.callsEmitted = 0

theorem ready_start : g.Ready g.start := by
  unfold Ready start
  cases g.tools <;> simp

theorem sim_piece (parser : ToolParser σ) (s : σ) (piece : Text)
    (hm : Matches parser.argsFragmentsPrefixStable a b) :
    Sim parser.argsFragmentsPrefixStable b (g.routeToolText parser s a piece).2
      (g.PieceOk parser s a piece) := by
  unfold routeToolText PieceOk
  by_cases hpiece : piece = []
  · simp only [hpiece, if_true]
    exact (Sim.skip hm).congr (by simp)
  · simp only [hpiece, if_false]
    have hsim := sim_each
      (f := g.routeSegment parser.argsFragmentsPrefixStable
        (parser.unstreamedArguments (parser.parseStreamEvents s piece).1))
      (parser.parseStreamEvents s piece).2 (fun seg _ a b hm => g.sim_segment seg hm) a b hm
    exact hsim.congr ⟨fun h _ => h, fun h => h hpiece⟩

/-- A state that differs in nothing that the assembly of calls reads. -/
theorem ready_congr {s s' : GenState σ ρ} (hr : g.Ready s) (hp : s'.parser = s.parser)
    (ha : s'.assembly = s.assembly) : g.Ready s' := by
  unfold Ready at *
  rw [hp, ha]
  exact hr

theorem sim_route (s : GenState σ ρ) (content : Text) (hr : g.Ready s)
    (hm : Matches g.fragStable s.assembly b) :
    Sim g.fragStable b ((g.routeContent s content).1.assembly, (g.routeContent s content).2)
      (g.ContentOk s content) := by
  by_cases hcontent : content = []
  · simp only [routeContent, hcontent, if_true]
    refine (Sim.skip hm).congr ⟨fun _ => ?_, fun _ => trivial⟩
    unfold ContentOk
    split
    · exact fun h => absurd rfl h
    · trivial
  · unfold routeContent ContentOk Ready fragStable at *
    simp only [hcontent, if_false]
    cases htools : g.tools with
    | streaming parser =>
      simp only [htools] at hr hm ⊢
      obtain ⟨p, hp⟩ := Option.isSome_iff_exists.mp hr
      rw [hp]
      exact g.sim_piece parser p content hm
    | buffered parse => exact Sim.skip (by simpa only [htools] using hm)
    | off =>
      simp only [htools] at hr hm ⊢
      cases b with
      | between n => exact ⟨fun _ => ⟨.between n, rfl, hm⟩, fun h => absurd trivial h⟩
      | closed n done => exact hm.elim
      | inside n name st fragments =>
        obtain ⟨-, -, oc, ho, -⟩ := hm
        rw [hr.1] at ho
        cases ho

theorem ready_route (s : GenState σ ρ) (content : Text) (hr : g.Ready s) :
    g.Ready (g.routeContent s content).1 := by
  by_cases hcontent : content = []
  · simpa only [routeContent, hcontent, if_true] using hr
  · unfold routeContent Ready at *
    simp only [hcontent, if_false]
    cases htools : g.tools with
    | streaming parser =>
      simp only [htools] at hr ⊢
      obtain ⟨p, hp⟩ := Option.isSome_iff_exists.mp hr
      rw [hp]
      rfl
    | buffered parse => simpa only [htools] using hr
    | off => simpa only [htools] using hr

theorem route_engine (s : GenState σ ρ) (content : Text) :
    (g.routeContent s content).1.engineFinishReason = s.engineFinishReason := by
  unfold routeContent
  split
  · rfl
  · split <;> rfl

/-- Reasoning and the probe's payload are read wherever a call may be. -/
theorem sim_reasoning (text : Text) (hm : Matches stable a b) :
    Sim stable b (a, g.reasoningEvents text) True := by
  unfold reasoningEvents
  simp only
  split
  · exact Sim.skip hm
  · cases b with
    | between n => exact ⟨fun _ => ⟨_, rfl, hm⟩, fun h => absurd trivial h⟩
    | inside n name st fragments => exact ⟨fun _ => ⟨_, rfl, hm⟩, fun h => absurd trivial h⟩
    | closed n done => exact hm.elim

theorem count_keeps (s : GenState σ ρ) (ack : Ack) :
    (countAck s ack).1.parser = s.parser ∧ (countAck s ack).1.assembly = s.assembly := by
  unfold countAck
  simp only
  split
  · split <;> exact ⟨rfl, rfl⟩
  · exact ⟨rfl, rfl⟩

theorem sim_count (s : GenState σ ρ) (ack : Ack) (hm : Matches stable s.assembly b) :
    Sim stable b (s.assembly, (countAck s ack).2) True := by
  unfold countAck
  simp only
  split
  · split
    · exact Sim.skip hm
    · cases b with
      | between n => exact ⟨fun _ => ⟨_, rfl, hm⟩, fun h => absurd trivial h⟩
      | inside n name st fragments => exact ⟨fun _ => ⟨_, rfl, hm⟩, fun h => absurd trivial h⟩
      | closed n done => exact hm.elim
  · exact Sim.skip hm

theorem split_keeps (s : GenState σ ρ) (ack : Ack) :
    (g.splitAck s ack).1.parser = s.parser ∧ (g.splitAck s ack).1.assembly = s.assembly := by
  unfold splitAck
  split
  · split <;> exact ⟨rfl, rfl⟩
  · exact ⟨rfl, rfl⟩

theorem sim_split (s : GenState σ ρ) (ack : Ack) (hm : Matches stable s.assembly b) :
    Sim stable b (s.assembly, (g.splitAck s ack).2.2) True := by
  unfold splitAck
  split
  · split
    · exact Sim.skip hm
    · exact g.sim_reasoning _ hm
  · exact Sim.skip hm

/-- One reply. -/
theorem sim_ack (s : GenState σ ρ) (ack : Ack) (hr : g.Ready s)
    (hm : Matches g.fragStable s.assembly b) :
    Sim g.fragStable b ((g.onAck s ack).1.assembly, (g.onAck s ack).2) (g.AckOk s ack) ∧
      g.Ready (g.onAck s ack).1 := by
  set counted := countAck s ack with hcounted
  set parts := g.splitAck counted.1 ack with hparts
  set routed := g.routeContent parts.1 parts.2.1 with hrouted
  have hcount := count_keeps s ack
  have hsplit := g.split_keeps counted.1 ack
  have ha : parts.1.assembly = s.assembly := hsplit.2.trans hcount.2
  have hready : g.Ready parts.1 := g.ready_congr hr (hsplit.1.trans hcount.1) ha
  -- the engine's reason, which comes with the last reply, has no part in the assembly
  have hend : (g.onAck s ack).1.assembly = routed.1.assembly ∧
      (g.onAck s ack).1.parser = routed.1.parser := by
    unfold onAck
    simp only
    split <;> exact ⟨rfl, rfl⟩
  refine ⟨?_, g.ready_congr (g.ready_route parts.1 parts.2.1 hready) hend.2 hend.1⟩
  rw [hend.1]
  have hreason : ∀ b', Matches g.fragStable s.assembly b' →
      Sim g.fragStable b' (s.assembly, parts.2.2) True := by
    intro b' hm'
    rw [← hcount.2] at hm' ⊢
    exact g.sim_split counted.1 ack hm'
  refine (Sim.seq (sim_count s ack hm) fun _ b₁ hm₁ => Sim.seq (hreason b₁ hm₁) fun _ b₂ hm₂ =>
    g.sim_route parts.1 parts.2.1 hready (ha ▸ hm₂)).congr ?_
  rw [true_and, true_and]
  exact Iff.rfl

/-! ## The whole stream -/

/-- What comes before, then the rest. -/
theorem ends_append {engine : Option EngineReason} {e₁ e₂ : List GenEvent} {ok₁ ok₂ : Prop}
    (h₁ : Sim stable b (a, e₁) ok₁)
    (h₂ : ok₁ → ∀ b', Matches stable a b' → (Ends engine b' e₂ ↔ ok₂)) :
    Ends engine b (e₁ ++ e₂) ↔ ok₁ ∧ ok₂ := by
  unfold Ends at *
  simp only [run_append]
  by_cases hok : ok₁
  · obtain ⟨b', hb', hm⟩ := h₁.1 hok
    rw [hb']
    simp only [hok, true_and]
    exact h₂ hok b' hm
  · rw [h₁.2 hok]
    simp [hok]

/-- The reason given at the end says whether there was a call. -/
theorem finishReason_toolCalls (engine : Option EngineReason) (called : Bool) :
    finishReason engine called = .toolCalls ↔ called = true ∧ engine ≠ some .length := by
  unfold finishReason
  cases called <;> rcases engine with _ | _ | _ <;> simp

theorem ends_done (engine : Option EngineReason) (n : Nat) (done : GenDone) :
    Ends engine (.between n) [.genDone done] ↔
      (done.finishReason = .toolCalls ↔ 0 < n ∧ engine ≠ some .length) := by
  unfold Ends
  simp [bracket]

theorem ends_content (engine : Option EngineReason) (n : Nat) (text : Text)
    (rest : List GenEvent) :
    Ends engine (.between n) (.contentDelta text :: rest) ↔ Ends engine (.between n) rest :=
  Iff.rfl

/-- The end of an answer whose text was buffered: a call in it is never started. -/
theorem ends_buffered (parse : Text → Option (Text × List ToolCallItem)) (s : GenState σ ρ)
    (done : Bool → GenDone) (htools : g.tools = .buffered parse)
    (hdone : ∀ called, (done called).finishReason = finishReason s.engineFinishReason called) :
    Ends s.engineFinishReason (.between 0)
        ((g.drainTools s).2 ++ [.genDone (done (g.drainTools s).1)]) ↔
      parse s.pending = none := by
  unfold drainTools
  simp only [htools]
  cases hparse : parse s.pending with
  | none =>
    have hfinal : Ends s.engineFinishReason (.between 0) [.genDone (done false)] := by
      rw [ends_done, hdone, finishReason_toolCalls]
      simp
    simp only
    split <;> simpa [ends_content] using hfinal
  | some answer =>
    simp only [reduceCtorEq, iff_false]
    rintro ⟨n, d, hrun, -⟩
    split at hrun <;> simp [bracket] at hrun

theorem matches_none (ho : a.openCall = none) (hn : a.callsEmitted = 0)
    (hm : Matches stable a b) : b = .between 0 := by
  cases b with
  | between n => rw [hm.2, hn]
  | closed n done => exact hm.elim
  | inside n name st fragments =>
    obtain ⟨-, -, oc, hoc, -⟩ := hm
    rw [ho] at hoc
    cases hoc

/-- The end, where the tools have their say. -/
theorem ends_tools (s : GenState σ ρ) (done : Bool → GenDone) (hr : g.Ready s)
    (hdone : ∀ called, (done called).finishReason = finishReason s.engineFinishReason called)
    (hm : Matches g.fragStable s.assembly b) :
    Ends s.engineFinishReason b
        ((g.drainTools s).2 ++ [.genDone (done (g.drainTools s).1)]) ↔ g.ToolsOk s := by
  unfold Ready at hr
  cases htools : g.tools with
  | streaming parser =>
    simp only [htools] at hr
    obtain ⟨p, hp⟩ := Option.isSome_iff_exists.mp hr
    have hstable : g.fragStable = parser.argsFragmentsPrefixStable := by
      simp only [fragStable, htools]
    rw [hstable] at hm
    simp only [drainTools, ToolsOk, htools, hp]
    have hdrain : Sim parser.argsFragmentsPrefixStable b
        ((g.drainParser parser p s.assembly).1, (g.drainParser parser p s.assembly).2)
        (g.DrainOk parser p s.assembly) := g.sim_drain parser p hm
    refine (ends_append hdrain fun _ b' hm' => ?_).trans (and_true _).to_iff
    cases b' with
    | closed n d => exact hm'.elim
    | inside n name st fragments =>
      obtain ⟨-, -, oc, ho, -⟩ := hm'
      rw [g.drain_openCall parser p] at ho
      cases ho
    | between n =>
      obtain ⟨-, rfl⟩ := hm'
      rw [ends_done, hdone, finishReason_toolCalls]
      simp [Nat.pos_iff_ne_zero]
  | buffered parse =>
    simp only [htools] at hr
    have hb : b = .between 0 := matches_none hr.1 hr.2 hm
    rw [hb, g.ends_buffered parse s done htools hdone]
    simp only [ToolsOk, htools]
  | off =>
    simp only [htools] at hr
    have hb : b = .between 0 := matches_none hr.1 hr.2 hm
    rw [hb]
    simp only [drainTools, ToolsOk, htools, List.nil_append, iff_true]
    rw [ends_done, hdone, finishReason_toolCalls]
    simp

/-- All that comes after the last reply. -/
theorem ends_drain (s : GenState σ ρ) (hr : g.Ready s)
    (hm : Matches g.fragStable s.assembly b) :
    Ends s.engineFinishReason b (g.drain s) ↔ g.EndOk s := by
  unfold drain EndOk
  simp only
  set content := (g.residue s).normalText with hcontent
  set routed := g.routeContent s content with hrouted
  have hengine : routed.1.engineFinishReason = s.engineFinishReason :=
    g.route_engine s content
  refine (ends_append (g.sim_reasoning _ hm) fun _ b₁ hm₁ =>
    ends_append (g.sim_route s content hr hm₁) fun _ b₂ hm₂ => ?_).trans (true_and _).to_iff
  rw [← hengine]
  exact g.ends_tools routed.1 (fun called =>
    { finishReason := finishReason routed.1.engineFinishReason called
      promptTokens := routed.1.promptTokens
      completionTokens := routed.1.completionTokens
      matchedStop := routed.1.engineMatchedStop
      cachedTokens := routed.1.cachedTokens
      reasoningTokens := routed.1.reasoningTokens
      kvTransferParams := routed.1.kvTransferParams
      firstLogprobs := routed.1.firstLogprobs })
    (g.ready_route s content hr) (fun _ => rfl) hm₂

theorem ends_events (acks : List Ack) :
    ∀ (s : GenState σ ρ) (b : Bracket), g.Ready s → Matches g.fragStable s.assembly b →
      (g.events s acks).1 = .finished →
      (Ends (engineReason acks) b (g.events s acks).2 ↔ g.InOrder s acks) := by
  induction acks with
  | nil =>
    intro s b _ _ h
    cases h
  | cons ack acks ih =>
    intro s b hr hm h
    obtain ⟨hsim, hready⟩ := g.sim_ack s ack hr hm
    unfold events at h ⊢
    unfold InOrder
    cases herror : ack.error.filter fun e => e ≠ [] with
    | some message =>
      rw [herror] at h
      cases h
    | none =>
      simp only [herror] at h ⊢
      cases hfinished : ack.finished with
      | true =>
        have hreason : engineReason (ack :: acks) = (g.onAck s ack).1.engineFinishReason := by
          simp [engineReason, onAck, hfinished]
        rw [hreason]
        simp only [if_true]
        exact ends_append hsim fun _ b' hm' => g.ends_drain (g.onAck s ack).1 hready hm'
      | false =>
        have hreason : engineReason (ack :: acks) = engineReason acks := by
          simp [engineReason, hfinished]
        rw [hreason]
        simp only [hfinished, Bool.false_eq_true, if_false] at h ⊢
        exact ends_append hsim fun _ b' hm' => ih (g.onAck s ack).1 b' hready hm' h

/-- The events of a finished stream are well bracketed just when each of its steps is in
order. -/
theorem bracketed_iff (acks : List Ack) (h : (g.generateEventsCore acks).1 = .finished) :
    WellBracketed (engineReason acks) (g.generateEventsCore acks).2 ↔ g.InOrder g.start acks :=
  g.ends_events acks g.start (.between 0) g.ready_start ⟨rfl, rfl⟩ h

/-! ## A call that is cut off -/

/-- What a parser gives for one piece of text that begins a call of `read`, and what it has
parsed of the arguments by then. -/
def readParser (fragments : List Text) (parsed : Text) : ToolParser Unit where
  fresh := ()
  parseStreamEvents _ _ :=
    ((), [.calls ({ toolIndex := 0, name := some "read".toList, parameters := [] } ::
      fragments.map fun fragment => { toolIndex := 0, name := none, parameters := fragment })])
  unstreamedArguments _ index := if index = 0 then some parsed else none
  finalizeStream _ := ((), [])
  recoverTruncatedCall _ := ((), [])
  finishStream _ := []
  argsFragmentsPrefixStable := true

/-- The arguments here are objects with one string, which are JSON once they are closed. -/
def reading (fragments : List Text) (parsed : Text) : Generation Unit Unit where
  reasoning := none
  tools := .streaming (readParser fragments parsed)
  specials := []
  validJson text := "\"\x7d".toList.isSuffixOf text

/-- The engine's one reply, which ends for the given reason. -/
def lastAck (reason : EngineReason) : List Ack :=
  [{ incrementalOutput := "<tool_call>".toList, finished := true, finishReason := some reason }]

/-- A call whose arguments are complete. -/
def readWhole : Generation Unit Unit :=
  reading ["\x7b\"path\":\"".toList, "src/a\"\x7d".toList] "\x7b\"path\": \"src/a\"\x7d".toList

theorem readWhole_bracketed :
    WellBracketed (engineReason (lastAck .stop)) (readWhole.generateEventsCore (lastAck .stop)).2 := by
  exact (bracketed_iff readWhole (lastAck .stop) rfl).mpr (by decide +kernel)

/-- The parameter `path` was not closed when the answer was cut off, and is not in the arguments
as parsed so far. -/
def cutShort : Generation Unit Unit :=
  reading ["\x7b\"path\":\"".toList, "src/a".toList] "\x7b\x7d".toList

/-- `{}` replaces the fragments, which it does not extend. -/
theorem truncated_not_bracketed :
    ¬ WellBracketed (engineReason (lastAck .length))
      (cutShort.generateEventsCore (lastAck .length)).2 := by
  rintro ⟨n, done, hrun, -⟩
  have hnone : (run bracket (.between 0)
      (cutShort.generateEventsCore (lastAck .length)).2).isNone = true := by decide +kernel
  rw [hrun] at hnone
  cases hnone

end Generation

end FreeToken.Server
