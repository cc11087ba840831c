import Mathlib.Data.List.Basic
import Mathlib.Tactic.Common

/-!
# Triples for programs that may raise

A program over a state `σ` is a state transformer that returns a value or raises,
and keeps the state it had reached either way, as a method of an object does.

## Results

* `Triple P m Q E` — run from a state in `P`, `m` returns in `Q` or raises in `E`;
* `Leaves f m` — `m` changes nothing of the state that `f` reads;
* `Leaves.triple` — the frame rule: an assertion about `f` survives such a program.
-/

namespace FreeToken.Lib

/-- A program that may raise; a raise does not undo what was done before it. -/
abbrev Prog (σ ε α : Type) := EStateM ε σ α

variable {σ ε α β γ : Type}

/-- Run the body only when the condition holds. -/
def onlyIf (c : Prop) [Decidable c] (m : Prog σ ε Unit) : Prog σ ε Unit :=
  if c then m else pure ()

/-- The state a program ends in, whether it returns or raises. -/
def final (m : Prog σ ε α) (s : σ) : σ :=
  match m s with
  | .ok _ s' => s'
  | .error _ s' => s'

def Triple (P : σ → Prop) (m : Prog σ ε α) (Q : α → σ → Prop) (E : σ → Prop) : Prop :=
  ∀ s, P s → match m s with
    | .ok a s' => Q a s'
    | .error _ s' => E s'

variable {P S : σ → Prop} {Q T : α → σ → Prop} {R : β → σ → Prop} {E F : σ → Prop}
variable {m : Prog σ ε α} {k : α → Prog σ ε β}

theorem Triple.mono (h : Triple P m Q E) (hP : ∀ s, S s → P s) (hQ : ∀ a s, Q a s → T a s)
    (hE : ∀ s, E s → F s) : Triple S m T F := by
  intro s hs
  have h' := h s (hP s hs)
  cases hm : m s with
  | ok a s' => rw [hm] at h'; exact hQ a s' h'
  | error e s' => rw [hm] at h'; exact hE s' h'

theorem Triple.pre (h : Triple P m Q E) (hP : ∀ s, S s → P s) : Triple S m Q E :=
  h.mono hP (fun _ _ h => h) fun _ h => h

theorem Triple.post (h : Triple P m Q E) (hQ : ∀ a s, Q a s → T a s) : Triple P m T E :=
  h.mono (fun _ h => h) hQ fun _ h => h

theorem Triple.pure {a : α} (h : ∀ s, P s → Q a s) :
    Triple P (pure a : Prog σ ε α) Q E := h

theorem Triple.throw {e : ε} (h : ∀ s, P s → E s) :
    Triple P (throw e : Prog σ ε α) Q E := h

theorem Triple.bind (h : Triple P m Q E) (hk : ∀ a, Triple (Q a) (k a) R E) :
    Triple P (m >>= k) R E := by
  intro s hs
  have h' := h s hs
  simp only [Bind.bind, EStateM.bind]
  cases hm : m s with
  | ok a s' => rw [hm] at h'; exact hk a s' h'
  | error e s' => rw [hm] at h'; exact h'

/-- After `get`, the rest is run from the very state that was read. -/
theorem Triple.read {k : σ → Prog σ ε β} (h : ∀ s, P s → Triple (· = s) (k s) R E) :
    Triple P (get >>= k) R E :=
  fun s hs => h s hs s rfl

/-- What does not depend on the state may be assumed. -/
theorem Triple.given {c : Prop} (h : c → Triple P m Q E) : Triple (fun s => P s ∧ c) m Q E :=
  fun s hs => h hs.2 s hs.1

theorem Triple.set {s' : σ} {Q : Unit → σ → Prop} (h : ∀ s, P s → Q ⟨⟩ s') :
    Triple P (set s' : Prog σ ε PUnit) Q E := h

theorem Triple.modify {g : σ → σ} {Q : Unit → σ → Prop} (h : ∀ s, P s → Q () (g s)) :
    Triple P (modify g : Prog σ ε Unit) Q E := h

theorem Triple.ite {c : Prop} [Decidable c] {m' : Prog σ ε α} (ht : c → Triple P m Q E)
    (hf : ¬c → Triple P m' Q E) : Triple P (if c then m else m') Q E := by
  split
  · exact ht ‹_›
  · exact hf ‹_›

theorem Triple.onlyIf {c : Prop} [Decidable c] {m : Prog σ ε Unit} {Q : Unit → σ → Prop}
    (ht : c → Triple P m Q E) (hf : ¬c → ∀ s, P s → Q () s) : Triple P (onlyIf c m) Q E :=
  .ite ht fun hc => .pure (hf hc)

theorem Triple.tryCatch {h : ε → Prog σ ε α} (hm : Triple P m Q F)
    (hh : ∀ e, Triple F (h e) Q E) : Triple P (tryCatch m h) Q E := by
  intro s hs
  have h' := hm s hs
  simp only [MonadExcept.tryCatch, tryCatchThe, MonadExceptOf.tryCatch, EStateM.tryCatch,
    EStateM.Backtrackable.restore, EStateM.dummyRestore]
  cases hm : m s with
  | ok a s' => rw [hm] at h'; exact h'
  | error e s' => rw [hm] at h'; exact hh e s' h'

/-- Two specifications of one program. -/
theorem Triple.and (h : Triple P m Q E) (h' : Triple S m T F) :
    Triple (fun s => P s ∧ S s) m (fun a s => Q a s ∧ T a s) fun s => E s ∧ F s := by
  intro s hs
  have h₁ := h s hs.1
  have h₂ := h' s hs.2
  cases hm : m s with
  | ok a s' =>
    rw [hm] at h₁ h₂
    exact ⟨h₁, h₂⟩
  | error e s' =>
    rw [hm] at h₁ h₂
    exact ⟨h₁, h₂⟩

/-- The precondition holds of one known state. -/
theorem Triple.at {s : σ} (h : P s) (ht : Triple P m Q E) : Triple (· = s) m Q E :=
  ht.pre fun _ hs => hs ▸ h

/-! ## Frames -/

/-- `m` changes nothing that `f` reads. -/
def Leaves (f : σ → γ) (m : Prog σ ε α) : Prop :=
  ∀ s, f (final m s) = f s

variable {f : σ → γ}

theorem Leaves.of_triple (h : ∀ c, Triple (fun s => f s = c) m (fun _ s => f s = c) fun s => f s = c) :
    Leaves f m := by
  intro s
  have h' := h (f s) s rfl
  rw [final]
  cases hm : m s with
  | ok a s' => rw [hm] at h'; exact h'
  | error e s' => rw [hm] at h'; exact h'

theorem Leaves.pure (a : α) : Leaves f (pure a : Prog σ ε α) := fun _ => rfl

theorem Leaves.throw (e : ε) : Leaves f (throw e : Prog σ ε α) := fun _ => rfl

theorem Leaves.get : Leaves f (get : Prog σ ε σ) := fun _ => rfl

theorem Leaves.modify {g : σ → σ} (h : ∀ s, f (g s) = f s) :
    Leaves f (modify g : Prog σ ε Unit) := h

theorem Leaves.bind (h : Leaves f m) (hk : ∀ a, Leaves f (k a)) : Leaves f (m >>= k) := by
  intro s
  have h' := h s
  simp only [final, Bind.bind, EStateM.bind] at h' ⊢
  cases hm : m s with
  | ok a s' => rw [hm] at h'; exact (hk a s').trans h'
  | error e s' => rw [hm] at h'; exact h'

theorem Leaves.ite {c : Prop} [Decidable c] {m' : Prog σ ε α} (h : Leaves f m)
    (h' : Leaves f m') : Leaves f (if c then m else m') := by
  split
  · exact h
  · exact h'

theorem Leaves.onlyIf {c : Prop} [Decidable c] {m : Prog σ ε Unit} (h : Leaves f m) :
    Leaves f (onlyIf c m) :=
  h.ite (.pure ())

theorem Leaves.tryCatch {h : ε → Prog σ ε α} (hm : Leaves f m) (hh : ∀ e, Leaves f (h e)) :
    Leaves f (tryCatch m h) := by
  intro s
  have h' := hm s
  simp only [final, MonadExcept.tryCatch, tryCatchThe, MonadExceptOf.tryCatch,
    EStateM.tryCatch, EStateM.Backtrackable.restore, EStateM.dummyRestore] at h' ⊢
  cases hm : m s with
  | ok a s' => rw [hm] at h'; exact h'
  | error e s' => rw [hm] at h'; exact (hh e s').trans h'

/-- An assertion about what `m` leaves alone holds after it. -/
theorem Leaves.triple {P : γ → Prop} (h : Leaves f m) :
    Triple (fun s => P (f s)) m (fun _ s => P (f s)) fun s => P (f s) := by
  intro s hs
  have h' := h s
  rw [final] at h'
  cases hm : m s with
  | ok a s' =>
    rw [hm] at h'
    exact (congrArg P h').mpr hs
  | error e s' =>
    rw [hm] at h'
    exact (congrArg P h').mpr hs

/-- `m` returns, and changes nothing that `f` reads. -/
def Quiet (f : σ → γ) (m : Prog σ ε α) : Prop :=
  ∀ c, Triple (fun s => f s = c) m (fun _ s => f s = c) fun _ => False

theorem Quiet.pure (a : α) : Quiet f (pure a : Prog σ ε α) := fun _ => .pure fun _ h => h

theorem Quiet.bind (h : Quiet f m) (hk : ∀ a, Quiet f (k a)) : Quiet f (m >>= k) :=
  fun c => (h c).bind fun a => hk a c

theorem Quiet.get : Quiet f (get : Prog σ ε σ) := fun _ _ h => h

theorem Quiet.onlyIf {c : Prop} [Decidable c] {m : Prog σ ε Unit} (h : Quiet f m) :
    Quiet f (onlyIf c m) :=
  fun d => .onlyIf (fun _ => h d) fun _ _ hs => hs

/-- A program whose raise is swallowed. -/
theorem Leaves.quiet_of_caught (h : Leaves f m) {g : ε → Prog σ ε α} (hg : ∀ e, Quiet f (g e)) :
    Quiet f (MonadExcept.tryCatch m g) :=
  fun c => .tryCatch (h.triple (P := (· = c))) fun e => hg e c

/-- The triple read on the final state alone. -/
theorem Triple.final {I : σ → Prop} (h : Triple P m (fun _ => I) I) {s : σ} (hs : P s) :
    I (final m s) := by
  have h' := h s hs
  rw [Lib.final]
  cases hm : m s with
  | ok a s' => rw [hm] at h'; exact h'
  | error e s' => rw [hm] at h'; exact h'

theorem Quiet.leaves (h : Quiet f m) : Leaves f m := fun s =>
  ((h (f s)).mono (fun _ h => h) (fun _ _ h => h) fun _ h => h.elim).final (I := fun s' => f s' = f s)
    rfl

end FreeToken.Lib
