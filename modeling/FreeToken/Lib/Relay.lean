import FreeToken.Lib.Reach

/-!
# Relays

A relay turns each input into some output and passes on to a new state; a reader takes the
output piece by piece, and refuses what may not come next. Main results:

* `relay_reads`: where the output of every single input can be read, so can that of all of them.
* `relay_append`: the output of a list is that of its parts.
-/

namespace FreeToken.Lib

variable {σ τ α β : Type*}

/-- One input after the other, with all their output. -/
def relay (step : σ → α → σ × List β) : σ → List α → σ × List β
  | s, [] => (s, [])
  | s, a :: as =>
    let r := step s a
    let r' := relay step r.1 as
    (r'.1, r.2 ++ r'.2)

variable {step : σ → α → σ × List β} {read : τ → β → Option τ}

@[simp] theorem relay_nil (s : σ) : relay step s [] = (s, []) := rfl

theorem relay_cons (s : σ) (a : α) (as : List α) :
    relay step s (a :: as) =
      ((relay step (step s a).1 as).1, (step s a).2 ++ (relay step (step s a).1 as).2) := rfl

theorem relay_append (as bs : List α) :
    ∀ s : σ, relay step s (as ++ bs) =
      ((relay step (relay step s as).1 bs).1,
        (relay step s as).2 ++ (relay step (relay step s as).1 bs).2) := by
  induction as with
  | nil =>
    intro s
    rfl
  | cons a as ih =>
    intro s
    rw [List.cons_append, relay_cons, relay_cons, ih, List.append_assoc]

/-- A run that ends with one more step. -/
theorem run_concat_some {t t' : τ} {as : List β} {b : β} (h : run read t (as ++ [b]) = some t') :
    ∃ m, run read t as = some m ∧ read m b = some t' := by
  rw [run_append, Option.bind_eq_some_iff] at h
  obtain ⟨m, hm, h⟩ := h
  rw [run_cons, Option.bind_eq_some_iff] at h
  obtain ⟨m', hm', h⟩ := h
  rw [run_nil, Option.some.injEq] at h
  exact ⟨m, hm, h ▸ hm'⟩

/-- From `t` the reader gets through `out` to a place that meets `Q`. -/
def Reads (read : τ → β → Option τ) (t : τ) (out : List β) (Q : τ → Prop) : Prop :=
  ∃ t', run read t out = some t' ∧ Q t'

theorem Reads.nil {t : τ} {Q : τ → Prop} (h : Q t) : Reads read t [] Q := ⟨t, rfl, h⟩

theorem Reads.mono {t : τ} {out : List β} {Q Q' : τ → Prop} (h : Reads read t out Q)
    (hq : ∀ t', Q t' → Q' t') : Reads read t out Q' := by
  obtain ⟨t', hr, hQ⟩ := h
  exact ⟨t', hr, hq t' hQ⟩

/-- One piece of output after another. -/
theorem Reads.append {t : τ} {out out' : List β} {Q Q' : τ → Prop} (h : Reads read t out Q)
    (h' : ∀ t', Q t' → Reads read t' out' Q') : Reads read t (out ++ out') Q' := by
  obtain ⟨t', hr, hQ⟩ := h
  obtain ⟨t'', hr', hQ'⟩ := h' t' hQ
  refine ⟨t'', ?_, hQ'⟩
  rw [run_append, hr]
  exact hr'

/-- What holds between the inputs so far, the relay and its reader is kept by a whole list of
inputs when it is kept by each. -/
theorem relay_reads (step : σ → α → σ × List β) (read : τ → β → Option τ)
    (M : List α → σ → τ → Prop) (ok : List α → α → Prop)
    (hstep : ∀ past s t a, M past s t → ok past a →
      Reads read t (step s a).2 (M (past ++ [a]) (step s a).1)) :
    ∀ (as past : List α) (s : σ) (t : τ), M past s t →
      (∀ pre a post, as = pre ++ a :: post → ok (past ++ pre) a) →
      Reads read t (relay step s as).2 (M (past ++ as) (relay step s as).1) := by
  intro as
  induction as with
  | nil =>
    intro past s t h _
    exact .nil (by rwa [List.append_nil])
  | cons a as ih =>
    intro past s t h hok
    have hfirst := hstep past s t a h (by simpa using hok [] a as rfl)
    refine hfirst.append fun t' h' => ?_
    have hrest := ih (past ++ [a]) (step s a).1 t' h' fun pre b post hb => by
      rw [List.append_assoc]
      exact hok (a :: pre) b post (by rw [hb]; rfl)
    rwa [List.append_assoc] at hrest

end FreeToken.Lib
