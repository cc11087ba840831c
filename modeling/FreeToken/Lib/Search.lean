import Mathlib.Data.List.Infix
import Mathlib.Data.List.Induction
import Mathlib.Data.List.TakeDrop

/-!
# Searching a text that is still arriving

`find pat text` is the first position where `pat` starts. A reader that sees its
text piece by piece may let go of a prefix once no occurrence can start in it,
whatever comes next (`Free`); it holds back the longest end of the text that is
the beginning of a pattern (`partialSuffix`).

* `find_append` — a found occurrence stays the first one.
* `find_skip` — a free prefix does not matter to the search.
* `free_of_partialSuffix`, `free_of_endsWithPartial` — what is before the held end
  is free.
* `earliest_append` — the first of several markers stays the first.
-/

namespace FreeToken.Lib

variable {α : Type*} [DecidableEq α]

/-! ## The first occurrence -/

def find (pat : List α) : List α → Option Nat
  | [] => if pat <+: [] then some 0 else none
  | c :: cs => if pat <+: c :: cs then some 0 else (find pat cs).map (· + 1)

theorem find_eq_some_iff {pat text : List α} {i : Nat} :
    find pat text = some i ↔
      i ≤ text.length ∧ pat <+: text.drop i ∧ ∀ j < i, ¬pat <+: text.drop j := by
  induction text generalizing i with
  | nil =>
    rw [find]
    by_cases h : pat <+: ([] : List α)
    · simp only [if_pos h, Option.some.injEq, List.length_nil, List.drop_nil]
      constructor
      · rintro rfl
        exact ⟨Nat.le_refl 0, h, by simp⟩
      · intro hi
        omega
    · simp [h]
  | cons c cs ih =>
    rw [find]
    by_cases h : pat <+: c :: cs
    · simp only [if_pos h, Option.some.injEq]
      constructor
      · rintro rfl
        exact ⟨Nat.zero_le _, by simpa using h, by simp⟩
      · intro hi
        by_contra hne
        exact hi.2.2 0 (by omega) (by simpa using h)
    · simp only [if_neg h, Option.map_eq_some_iff]
      constructor
      · rintro ⟨k, hk, rfl⟩
        obtain ⟨hle, hpat, hmin⟩ := ih.mp hk
        refine ⟨by simpa using hle, by simpa using hpat, ?_⟩
        intro j hj
        cases j with
        | zero => simpa using h
        | succ j => simpa using hmin j (by omega)
      · intro ⟨hle, hpat, hmin⟩
        cases i with
        | zero => exact absurd (by simpa using hpat) h
        | succ i =>
          refine ⟨i, ih.mpr ⟨by simpa using hle, by simpa using hpat, ?_⟩, rfl⟩
          intro j hj
          simpa using hmin (j + 1) (by omega)

theorem find_eq_none_iff {pat text : List α} :
    find pat text = none ↔ ∀ j, ¬pat <+: text.drop j := by
  induction text with
  | nil => simp [find]
  | cons c cs ih =>
    rw [find]
    by_cases h : pat <+: c :: cs
    · simp only [if_pos h, reduceCtorEq, false_iff, not_forall, not_not]
      exact ⟨0, by simpa using h⟩
    · simp only [if_neg h, Option.map_eq_none_iff, ih]
      constructor
      · intro hcs j
        cases j with
        | zero => simpa using h
        | succ j => simpa using hcs j
      · intro hall j
        simpa using hall (j + 1)

theorem find_nil {pat : List α} (h : pat ≠ []) : find pat [] = none := by
  rw [find, if_neg]
  rwa [List.prefix_nil]

theorem find_isSome_of_start {pat text : List α} {j : Nat} (h : pat <+: text.drop j) :
    (find pat text).isSome := by
  rw [Option.isSome_iff_ne_none]
  intro hnone
  exact find_eq_none_iff.mp hnone j h

theorem prefix_of_find {pat text : List α} {i : Nat} (h : find pat text = some i) :
    pat <+: text.drop i := (find_eq_some_iff.mp h).2.1

theorem find_add_length_le {pat text : List α} {i : Nat} (h : find pat text = some i) :
    i + pat.length ≤ text.length := by
  obtain ⟨hle, hpat, -⟩ := find_eq_some_iff.mp h
  have := hpat.length_le
  rw [List.length_drop] at this
  omega

/-- The text around its first occurrence of `pat`. -/
theorem find_split {pat text : List α} {i : Nat} (h : find pat text = some i) :
    text = text.take i ++ (pat ++ text.drop (i + pat.length)) := by
  obtain ⟨rest, hrest⟩ := prefix_of_find h
  have hdrop : text.drop (i + pat.length) = rest := by
    rw [← List.drop_drop, ← hrest, List.drop_left]
  rw [hdrop, hrest, List.take_append_drop]

omit [DecidableEq α] in
theorem prefix_drop_append {pat a b : List α} {i : Nat} (h : pat <+: a.drop i) :
    pat <+: (a ++ b).drop i := by
  rw [List.drop_append]
  exact h.trans (List.prefix_append _ _)

omit [DecidableEq α] in
theorem prefix_drop_of_append {pat a b : List α} {i : Nat} (h : pat <+: (a ++ b).drop i)
    (hle : i + pat.length ≤ a.length) : pat <+: a.drop i := by
  rw [List.drop_append_of_le_length (by omega)] at h
  exact List.prefix_of_prefix_length_le h (List.prefix_append _ _) (by rw [List.length_drop]; omega)

theorem find_append {pat a : List α} {i : Nat} (h : find pat a = some i) (b : List α) :
    find pat (a ++ b) = some i := by
  obtain ⟨hle, hpat, hmin⟩ := find_eq_some_iff.mp h
  refine find_eq_some_iff.mpr ⟨by simp; omega, prefix_drop_append hpat, ?_⟩
  intro j hj hj'
  have := hpat.length_le
  rw [List.length_drop] at this
  exact hmin j hj (prefix_drop_of_append hj' (by omega))

/-- The beginning of a text that still has the first occurrence. -/
theorem find_take {pat text : List α} {i n : Nat} (h : find pat text = some i)
    (hn : i + pat.length ≤ n) : find pat (text.take n) = some i := by
  obtain ⟨hle, hpat, hmin⟩ := find_eq_some_iff.mp h
  have hend := find_add_length_le h
  refine find_eq_some_iff.mpr ⟨by rw [List.length_take]; omega, ?_, fun j hj hj' => ?_⟩
  · rw [← List.take_append_drop n text] at hpat
    exact prefix_drop_of_append hpat (by rw [List.length_take]; omega)
  · rw [← List.take_append_drop n text] at hmin
    exact hmin j hj (prefix_drop_append hj')

/-- An occurrence that only the longer text has ends in what was added. -/
theorem find_append_of_none {pat a b : List α} {i : Nat} (ha : find pat a = none)
    (h : find pat (a ++ b) = some i) : a.length < i + pat.length := by
  by_contra hle
  exact find_eq_none_iff.mp ha i (prefix_drop_of_append (prefix_of_find h) (by omega))

/-- Searching a longer text either finds the same occurrence or one that ends later. -/
theorem find_none_of_append {pat a b : List α} (h : find pat (a ++ b) = none) :
    find pat a = none := by
  cases ha : find pat a with
  | none => rfl
  | some i => rw [find_append ha b] at h; exact absurd h (by simp)

theorem find_none_of_suffix {pat a b : List α} (h : find pat (a ++ b) = none) :
    find pat b = none := by
  refine find_eq_none_iff.mpr fun j hj => find_eq_none_iff.mp h (a.length + j) ?_
  rwa [← List.drop_drop, List.drop_left]

/-! ## Prefixes no occurrence can start in -/

/-- Whatever follows, no occurrence of `pat` starts in `s` when the text so far
is `s ++ held`. -/
def Free (pat s held : List α) : Prop :=
  ∀ rest i, i < s.length → ¬pat <+: (s ++ held ++ rest).drop i

theorem find_skip {pat s x : List α} (h : ∀ i < s.length, ¬pat <+: (s ++ x).drop i) :
    find pat (s ++ x) = (find pat x).map (· + s.length) := by
  induction s with
  | nil => simp
  | cons c s ih =>
    have h0 : ¬pat <+: c :: (s ++ x) := by simpa using h 0 (by simp)
    have hs := ih fun i hi => by simpa using h (i + 1) (by simpa using hi)
    rw [List.cons_append, find, if_neg h0, hs, Option.map_map]
    congr 1

theorem Free.find_append {pat s held : List α} (h : Free pat s held) (rest : List α) :
    find pat (s ++ held ++ rest) = (find pat (held ++ rest)).map (· + s.length) := by
  rw [List.append_assoc]
  exact find_skip fun i hi => by simpa using h rest i hi

omit [DecidableEq α] in
/-- No end of `s` agrees with the beginning of `pat` over the length they share. -/
theorem free_of_no_overlap {pat s : List α}
    (h : ∀ i < s.length, ¬pat.take (s.length - i) <+: s.drop i) : Free pat s [] := by
  intro rest i hi hpat
  rw [List.append_nil, List.drop_append_of_le_length hi.le] at hpat
  refine h i hi (List.prefix_of_prefix_length_le ((List.take_prefix _ _).trans hpat)
    (List.prefix_append _ _) ?_)
  rw [List.length_take, List.length_drop]
  omega

omit [DecidableEq α] in
/-- `pat` and the end of the text from each position of `s` disagree. -/
theorem free_of_incomparable {pat s held : List α}
    (h : ∀ i < s.length, ¬pat <+: (s ++ held).drop i ∧ ¬(s ++ held).drop i <+: pat) :
    Free pat s held := by
  intro rest i hi hpat
  rw [List.drop_append_of_le_length (by simp; omega)] at hpat
  rcases List.prefix_or_prefix_of_prefix hpat (List.prefix_append _ _) with h' | h'
  · exact (h i hi).1 h'
  · exact (h i hi).2 h'

/-! ## Held ends -/

/-- The loop over `k`: the longest beginning of `tok`, of length at most `k` and
more than `best`, that `text` ends with. -/
def partialFrom (tok text : List α) (best : Nat) : Nat → Nat
  | 0 => best
  | k + 1 =>
    if k + 1 ≤ best then best
    else if tok.take (k + 1) <:+ text then k + 1
    else partialFrom tok text best k

/-- The length of the longest end of `text` that is a proper beginning of one of
the tokens. -/
def partialSuffix (toks : List (List α)) (text : List α) : Nat :=
  toks.foldl (fun best tok => partialFrom tok text best (min (tok.length - 1) text.length)) 0

theorem best_le_partialFrom (tok text : List α) (best k : Nat) :
    best ≤ partialFrom tok text best k := by
  induction k with
  | zero => exact Nat.le_refl _
  | succ k ih =>
    rw [partialFrom]
    split
    · exact Nat.le_refl _
    · split
      · omega
      · exact ih

theorem le_partialFrom {tok text : List α} {best k j : Nat} (hj : j ≤ k)
    (h : tok.take j <:+ text) : j ≤ partialFrom tok text best k := by
  induction k with
  | zero => omega
  | succ k ih =>
    rw [partialFrom]
    split
    · omega
    · split
      · exact hj
      · rename_i hne
        refine ih ?_
        rcases Nat.lt_or_ge j (k + 1) with hlt | hge
        · omega
        · obtain rfl : j = k + 1 := by omega
          exact absurd h hne

theorem partialFrom_le {tok text : List α} {best k n : Nat} (hbest : best ≤ n) (hk : k ≤ n) :
    partialFrom tok text best k ≤ n := by
  induction k with
  | zero => exact hbest
  | succ k ih =>
    rw [partialFrom]
    split
    · exact hbest
    · split
      · exact hk
      · exact ih (by omega)

theorem foldl_partial_le {toks : List (List α)} {text : List α} {best : Nat}
    (hbest : best ≤ text.length) :
    toks.foldl (fun best tok => partialFrom tok text best (min (tok.length - 1) text.length))
      best ≤ text.length := by
  induction toks generalizing best with
  | nil => exact hbest
  | cons tok toks ih =>
    rw [List.foldl_cons]
    exact ih (partialFrom_le hbest (Nat.min_le_right _ _))

theorem partialSuffix_le (toks : List (List α)) (text : List α) :
    partialSuffix toks text ≤ text.length := foldl_partial_le (Nat.zero_le _)

theorem le_foldl_partial {toks : List (List α)} {text : List α} {best : Nat} :
    best ≤ toks.foldl
      (fun best tok => partialFrom tok text best (min (tok.length - 1) text.length)) best := by
  induction toks generalizing best with
  | nil => exact Nat.le_refl _
  | cons tok toks ih =>
    rw [List.foldl_cons]
    exact Nat.le_trans (best_le_partialFrom _ _ _ _) ih

theorem le_partialSuffix {toks : List (List α)} {tok text : List α} {j : Nat} (hmem : tok ∈ toks)
    (hj : j < tok.length) (h : tok.take j <:+ text) : j ≤ partialSuffix toks text := by
  have hlen := h.length_le
  rw [List.length_take] at hlen
  rw [partialSuffix]
  generalize (0 : Nat) = best
  induction toks generalizing best with
  | nil => simp at hmem
  | cons t toks ih =>
    rw [List.foldl_cons]
    rcases List.mem_cons.mp hmem with rfl | hmem
    · exact Nat.le_trans (le_partialFrom (by omega) h) le_foldl_partial
    · exact ih hmem _

theorem partialFrom_spec (tok text : List α) (best k : Nat) (hk : k < tok.length ∨ k = 0) :
    partialFrom tok text best k = best ∨
      (partialFrom tok text best k < tok.length ∧
        tok.take (partialFrom tok text best k) <:+ text) := by
  induction k with
  | zero => exact Or.inl rfl
  | succ k ih =>
    rw [partialFrom]
    split
    · exact Or.inl rfl
    · split
      · rename_i h
        exact Or.inr ⟨by omega, h⟩
      · exact ih (by omega)

/-- The held end is a proper beginning of a token. -/
theorem partialSuffix_spec (toks : List (List α)) (text : List α) :
    partialSuffix toks text = 0 ∨ ∃ tok ∈ toks, partialSuffix toks text < tok.length ∧
      tok.take (partialSuffix toks text) <:+ text := by
  rw [partialSuffix]
  induction toks using List.reverseRecOn with
  | nil => exact Or.inl rfl
  | append_singleton toks tok ih =>
    rw [List.foldl_append, List.foldl_cons, List.foldl_nil]
    rcases partialFrom_spec tok text (toks.foldl (fun best tok =>
        partialFrom tok text best (min (tok.length - 1) text.length)) 0)
        (min (tok.length - 1) text.length) (by omega) with h | h
    · rw [h]
      rcases ih with h0 | ⟨t, ht, hlt, hsuf⟩
      · exact Or.inl h0
      · exact Or.inr ⟨t, by simp [ht], hlt, hsuf⟩
    · exact Or.inr ⟨tok, by simp, h⟩

/-- A longer text holds at most what was held and what was added. -/
theorem partialSuffix_append_le (toks : List (List α)) (a b : List α) :
    partialSuffix toks (a ++ b) ≤ partialSuffix toks a + b.length := by
  by_contra hlt
  rcases partialSuffix_spec toks (a ++ b) with h0 | ⟨tok, htok, hk, hsuf⟩
  · omega
  · generalize hK : partialSuffix toks (a ++ b) = k at hk hsuf hlt
    have hle : tok.take (k - b.length) <:+ a := by
      obtain ⟨pre, hpre⟩ := hsuf
      have hlen : (tok.take k).length = k := by
        rw [List.length_take]
        omega
      have hcat := congrArg List.length hpre
      rw [List.length_append, List.length_append, hlen] at hcat
      refine ⟨pre, ?_⟩
      have htake := congrArg (List.take a.length) hpre
      rw [List.take_left, List.take_append, List.take_of_length_le (by omega)] at htake
      rw [← htake, List.take_take]
      congr 2
      omega
    have := le_partialSuffix htok (by omega) hle
    omega

omit [DecidableEq α] in
/-- An end of the text that is a beginning of `tok` shorter than `tok` is one of
its proper beginnings. -/
theorem prefix_take_suffix {tok text : List α} {i : Nat} (h : text.drop i <+: tok) :
    tok.take (text.length - i) <:+ text := by
  have hlen : (text.drop i).length = text.length - i := List.length_drop
  rw [← hlen, ← List.prefix_iff_eq_take.mp h]
  exact List.drop_suffix i text

/-- Before the held end nothing can become an occurrence, when there is none yet. -/
theorem free_of_partialSuffix {toks : List (List α)} {tok text : List α} (hmem : tok ∈ toks)
    (hnone : find tok text = none) :
    Free tok (text.take (text.length - partialSuffix toks text))
      (text.drop (text.length - partialSuffix toks text)) := by
  refine free_of_incomparable fun i hi => ?_
  rw [List.take_append_drop]
  rw [List.length_take] at hi
  refine ⟨find_eq_none_iff.mp hnone i, fun hpre => ?_⟩
  have hne : (text.drop i).length < tok.length := by
    rcases Nat.lt_or_ge (text.drop i).length tok.length with h | h
    · exact h
    · exact absurd (hpre.eq_of_length_le h ▸ List.prefix_refl _) (find_eq_none_iff.mp hnone i)
  rw [List.length_drop] at hne
  have := le_partialSuffix hmem hne (prefix_take_suffix hpre)
  omega

/-! ## Tokens whose first element does not come back -/

/-- The first element of `tok` occurs only there, so two occurrences never overlap. -/
def Headed (tok : List α) : Prop := ∃ c rest, tok = c :: rest ∧ c ∉ rest

instance (tok : List α) : Decidable (Headed tok) :=
  match tok with
  | [] => isFalse (by rintro ⟨c, rest, h, -⟩; simp at h)
  | c :: rest =>
    if h : c ∈ rest then isFalse (by rintro ⟨c', rest', he, hn⟩; simp_all)
    else isTrue ⟨c, rest, rfl, h⟩

/-- The scan for the shortest end of `text` that `tok` starts with: `i` counts up
from 1 while `n` positions remain. -/
def shortestPartial (tok text : List α) (i : Nat) : Nat → Nat
  | 0 => 0
  | n + 1 =>
    if text.drop (text.length - i) <+: tok then i else shortestPartial tok text (i + 1) n

/-- `for i in range(1, min(len(buffer) + 1, len(tok)))`. -/
def endsWithPartial (tok text : List α) : Nat :=
  shortestPartial tok text 1 (min (text.length + 1) tok.length - 1)

theorem shortestPartial_spec (tok text : List α) (i n : Nat) :
    (shortestPartial tok text i n = 0 ∧
        ∀ k, i ≤ k → k < i + n → ¬text.drop (text.length - k) <+: tok) ∨
      (i ≤ shortestPartial tok text i n ∧ shortestPartial tok text i n < i + n ∧
        text.drop (text.length - shortestPartial tok text i n) <+: tok) := by
  induction n generalizing i with
  | zero => exact Or.inl ⟨rfl, fun k hk hk' => absurd hk' (by omega)⟩
  | succ n ih =>
    rw [shortestPartial]
    split
    · rename_i h
      exact Or.inr ⟨Nat.le_refl i, by omega, h⟩
    · rename_i h
      rcases ih (i + 1) with ⟨h0, hall⟩ | ⟨hle, hlt, hpre⟩
      · refine Or.inl ⟨h0, fun k hk hk' => ?_⟩
        rcases Nat.lt_or_ge i k with hik | hik
        · exact hall k hik (by omega)
        · obtain rfl : k = i := by omega
          exact h
      · exact Or.inr ⟨by omega, by omega, hpre⟩

theorem endsWithPartial_le (tok text : List α) : endsWithPartial tok text ≤ text.length := by
  rcases shortestPartial_spec tok text 1 (min (text.length + 1) tok.length - 1) with h | h
  · rw [endsWithPartial, h.1]
    exact Nat.zero_le _
  · rw [endsWithPartial]
    omega

omit [DecidableEq α] in
/-- Of two ends of a text that a headed token starts with, none is longer. -/
theorem Headed.ends_eq {tok text : List α} {i j : Nat} (hd : Headed tok) (hij : i < j)
    (hj : j < text.length) (hi' : text.drop i <+: tok) (hj' : text.drop j <+: tok) : False := by
  obtain ⟨c, rest, rfl, hc⟩ := hd
  have hji : text.drop j = (text.drop i).drop (j - i) := by
    rw [List.drop_drop]
    congr 1
    omega
  have hcj : c ∈ text.drop j := by
    have hne : text.drop j ≠ [] := by simpa using hj
    obtain ⟨x, xs, hx⟩ := List.exists_cons_of_ne_nil hne
    rw [hx] at hj' ⊢
    rw [(List.cons_prefix_cons.mp hj').1]
    exact List.mem_cons_self
  have hrest : (text.drop i).drop (j - i) <:+: rest := by
    obtain ⟨k, hk⟩ : ∃ k, j - i = k + 1 := ⟨j - i - 1, by omega⟩
    have hne : text.drop i ≠ [] := by
      simp only [ne_eq, List.drop_eq_nil_iff, not_le]
      omega
    obtain ⟨x, xs, hx⟩ := List.exists_cons_of_ne_nil hne
    rw [hx] at hi' ⊢
    rw [hk, List.drop_succ_cons]
    exact (List.drop_suffix k xs).isInfix.trans (List.cons_prefix_cons.mp hi').2.isInfix
  rw [hji] at hcj
  exact hc (hrest.subset hcj)

/-- The shortest partial of a headed token is its only one: nothing before it can
become an occurrence. -/
theorem free_of_endsWithPartial {tok text : List α} (hd : Headed tok)
    (hnone : find tok text = none) :
    Free tok (text.take (text.length - endsWithPartial tok text))
      (text.drop (text.length - endsWithPartial tok text)) := by
  refine free_of_incomparable fun i hi => ?_
  rw [List.take_append_drop]
  rw [List.length_take] at hi
  refine ⟨find_eq_none_iff.mp hnone i, fun hpre => ?_⟩
  have hne : (text.drop i).length < tok.length := by
    rcases Nat.lt_or_ge (text.drop i).length tok.length with h | h
    · exact h
    · exact absurd (hpre.eq_of_length_le h ▸ List.prefix_refl _) (find_eq_none_iff.mp hnone i)
  rw [List.length_drop] at hne
  have hback : text.length - (text.length - i) = i := by omega
  rcases shortestPartial_spec tok text 1 (min (text.length + 1) tok.length - 1) with h | h
  · exact h.2 (text.length - i) (by omega) (by omega) (by rwa [hback])
  · rw [← endsWithPartial] at h
    exact hd.ends_eq (by omega) (by omega) hpre h.2.2

/-- The last `k` elements of `text` are a proper beginning of `tok`. -/
def Ends (tok text : List α) (k : Nat) : Prop :=
  0 < k ∧ k < tok.length ∧ k ≤ text.length ∧ text.drop (text.length - k) <+: tok

theorem endsWithPartial_spec (tok text : List α) :
    (endsWithPartial tok text = 0 ∧ ∀ k, ¬Ends tok text k) ∨
      Ends tok text (endsWithPartial tok text) := by
  rcases shortestPartial_spec tok text 1 (min (text.length + 1) tok.length - 1) with h | h
  · refine Or.inl ⟨h.1, ?_⟩
    intro k ⟨hk, hk', hk'', hpre⟩
    exact h.2 k (by omega) (by omega) hpre
  · rw [← endsWithPartial] at h
    exact Or.inr ⟨by omega, by omega, by omega, h.2.2⟩

theorem Headed.endsWithPartial_eq {tok text : List α} {k : Nat} (hd : Headed tok)
    (h : Ends tok text k) : endsWithPartial tok text = k := by
  rcases endsWithPartial_spec tok text with ⟨-, hnone⟩ | ⟨hj, -, hj', hpre'⟩
  · exact absurd h (hnone k)
  · obtain ⟨hk, -, hk', hpre⟩ := h
    generalize endsWithPartial tok text = j at hj hj' hpre' ⊢
    rcases Nat.lt_trichotomy j k with hlt | heq | hlt
    · exact absurd (hd.ends_eq (by omega) (by omega) hpre hpre') id
    · exact heq
    · exact absurd (hd.ends_eq (by omega) (by omega) hpre' hpre) id

/-- What is held back does not depend on a free prefix. -/
theorem Headed.endsWithPartial_skip {tok s held : List α} (hd : Headed tok)
    (hf : Free tok s held) (y : List α) :
    endsWithPartial tok (s ++ held ++ y) = endsWithPartial tok (held ++ y) := by
  have hlen : (s ++ held ++ y).length = s.length + (held ++ y).length := by
    simp only [List.length_append]
    omega
  have hdrop : ∀ k ≤ (held ++ y).length, (s ++ held ++ y).drop ((s ++ held ++ y).length - k) =
      (held ++ y).drop ((held ++ y).length - k) := by
    intro k hk
    rw [hlen, List.append_assoc, List.drop_append, List.drop_eq_nil_of_le (by omega),
      List.nil_append]
    congr 1
    omega
  rcases endsWithPartial_spec tok (held ++ y) with ⟨h0, hnone⟩ | h
  · rw [h0]
    rcases endsWithPartial_spec tok (s ++ held ++ y) with ⟨h1, -⟩ | ⟨hk, hk', hk'', hpre⟩
    · exact h1
    · generalize endsWithPartial tok (s ++ held ++ y) = k at hk hk' hk'' hpre ⊢
      rcases Nat.lt_or_ge (held ++ y).length k with hlt | hge
      · -- the partial reaches into `s`: completing it would be an occurrence there
        obtain ⟨rest, hrest⟩ := hpre
        refine absurd ?_ (hf (y ++ rest) ((s ++ held ++ y).length - k) (by omega))
        rw [← List.append_assoc, List.drop_append_of_le_length (by omega), hrest]
      · rw [hdrop k hge] at hpre
        exact absurd ⟨hk, hk', hge, hpre⟩ (hnone k)
  · refine hd.endsWithPartial_eq ⟨h.1, h.2.1, by rw [hlen]; exact Nat.le_add_left_of_le h.2.2.1, ?_⟩
    rw [hdrop _ h.2.2.1]
    exact h.2.2.2

omit [DecidableEq α] in
/-- A shorter prefix of a free one is free. -/
theorem Free.shorten {pat text : List α} {m n : Nat} (h : Free pat (text.take n) (text.drop n))
    (hmn : m ≤ n) : Free pat (text.take m) (text.drop m) := by
  intro rest i hi
  have hrest := h rest i (by rw [List.length_take] at hi ⊢; omega)
  rwa [List.take_append_drop] at hrest ⊢

/-! ## The first of two tokens -/

/-- Neither token can start inside the other, or with it. -/
structure Apart (tok tok' : List α) : Prop where
  left : ∀ c ∈ tok'.head?, c ∉ tok.tail
  right : ∀ c ∈ tok.head?, c ∉ tok'.tail
  distinct : ¬tok <+: tok' ∧ ¬tok' <+: tok

instance (tok tok' : List α) : Decidable (Apart tok tok') :=
  decidable_of_iff
    ((∀ c ∈ tok'.head?, c ∉ tok.tail) ∧ (∀ c ∈ tok.head?, c ∉ tok'.tail) ∧
      ¬tok <+: tok' ∧ ¬tok' <+: tok)
    ⟨fun h => ⟨h.1, h.2.1, h.2.2⟩, fun h => ⟨h.left, h.right, h.distinct⟩⟩

omit [DecidableEq α] in
theorem Apart.symm {tok tok' : List α} (h : Apart tok tok') : Apart tok' tok :=
  ⟨h.right, h.left, h.distinct.symm⟩

omit [DecidableEq α] in
/-- An occurrence of `tok'` is not inside one of `tok` that starts no later. -/
theorem Apart.end_le {tok tok' text : List α} {p q : Nat} (h : Apart tok tok')
    (hp : tok <+: text.drop p) (hq : tok' <+: text.drop q) (hpq : p ≤ q) : p + tok.length ≤ q := by
  by_contra hlt
  rcases Nat.eq_or_lt_of_le hpq with rfl | hpq
  · rcases List.prefix_or_prefix_of_prefix hp hq with hpre | hpre
    · exact h.distinct.1 hpre
    · exact h.distinct.2 hpre
  · cases htok' : tok' with
    | nil => exact h.distinct.2 (htok' ▸ List.nil_prefix)
    | cons c rest =>
      obtain ⟨r, hr⟩ := hp
      obtain ⟨r', hr'⟩ := hq
      have hat : text[q]? = some c := by
        have h0 : (text.drop q)[0]? = some c := by rw [← hr', htok']; rfl
        simpa [List.getElem?_drop] using h0
      have hin : tok[q - p]? = some c := by
        have h1 : (text.drop p)[q - p]? = some c := by
          rw [List.getElem?_drop]
          rwa [show p + (q - p) = q by omega]
        rw [← hr, List.getElem?_append_left (by omega)] at h1
        exact h1
      obtain ⟨k, hk⟩ : ∃ k, q - p = k + 1 := ⟨q - p - 1, by omega⟩
      rw [hk, ← List.getElem?_tail] at hin
      exact h.left c (by rw [htok']; rfl) (List.mem_of_getElem? hin)

/-- `e` is found, and before `p` when that is found too. -/
def comesFirst (e p : Option Nat) : Bool :=
  match e, p with
  | none, _ => false
  | some _, none => true
  | some e, some p => e < p

/-- The first of two tokens that are apart stays the first. -/
theorem comesFirst_append {tok tok' a : List α} (h : Apart tok tok')
    (hfirst : comesFirst (find tok a) (find tok' a) = true) (b : List α) :
    comesFirst (find tok (a ++ b)) (find tok' (a ++ b)) = true := by
  cases he : find tok a with
  | none => rw [he] at hfirst; simp [comesFirst] at hfirst
  | some e =>
    rw [find_append he b]
    cases hp : find tok' (a ++ b) with
    | none => rfl
    | some p =>
      simp only [comesFirst, decide_eq_true_eq]
      by_contra hle
      cases hpa : find tok' a with
      | some p' =>
        rw [find_append hpa b, Option.some.injEq] at hp
        rw [he, hpa] at hfirst
        simp only [comesFirst, decide_eq_true_eq] at hfirst
        omega
      | none =>
        have hend := find_append_of_none hpa hp
        have := h.symm.end_le (prefix_of_find hp) (prefix_drop_append (prefix_of_find he)) (by omega)
        have := find_add_length_le he
        omega

/-- The other token, found and not after `tok`, stays so. -/
theorem not_comesFirst_append {tok tok' a : List α} {p : Nat} (h : Apart tok tok')
    (hp : find tok' a = some p) (hfirst : comesFirst (find tok a) (find tok' a) = false)
    (b : List α) : comesFirst (find tok (a ++ b)) (find tok' (a ++ b)) = false := by
  rw [find_append hp b]
  cases he : find tok (a ++ b) with
  | none => rfl
  | some e =>
    simp only [comesFirst, decide_eq_false_iff_not, not_lt]
    by_contra hlt
    cases hea : find tok a with
    | some e' =>
      rw [find_append hea b, Option.some.injEq] at he
      rw [hea, hp] at hfirst
      simp only [comesFirst, decide_eq_false_iff_not] at hfirst
      omega
    | none =>
      have hend := find_append_of_none hea he
      have := h.end_le (prefix_of_find he) (prefix_drop_append (prefix_of_find hp)) (by omega)
      have := find_add_length_le hp
      omega

theorem comesFirst_map (e p : Option Nat) (n : Nat) :
    comesFirst (e.map (· + n)) (p.map (· + n)) = comesFirst e p := by
  cases e with
  | none => rfl
  | some e =>
    cases p with
    | none => rfl
    | some p => simp [comesFirst]

/-! ## The earliest of several tokens -/

/-- One round of the loop over the tokens: an earlier position replaces the best. -/
def earlier (text : List α) (best : Option (Nat × List α)) (tok : List α) :
    Option (Nat × List α) :=
  match find tok text, best with
  | none, _ => best
  | some pos, none => some (pos, tok)
  | some pos, some (b, t) => if pos < b then some (pos, tok) else some (b, t)

def earliest (toks : List (List α)) (text : List α) : Option (Nat × List α) :=
  toks.foldl (earlier text) none

/-- What the loop has after some of the tokens. -/
def IsEarliest (toks : List (List α)) (text : List α) : Option (Nat × List α) → Prop
  | none => ∀ tok ∈ toks, find tok text = none
  | some (pos, tok) => tok ∈ toks ∧ find tok text = some pos ∧
      ∀ t ∈ toks, ∀ q, find t text = some q → pos ≤ q

theorem earliest_spec (toks : List (List α)) (text : List α) :
    IsEarliest toks text (earliest toks text) := by
  rw [earliest]
  induction toks using List.reverseRecOn with
  | nil => intro tok h; simp at h
  | append_singleton toks tok ih =>
    rw [List.foldl_append, List.foldl_cons, List.foldl_nil]
    generalize toks.foldl (earlier text) none = best at ih ⊢
    unfold earlier
    cases hf : find tok text with
    | none =>
      cases best with
      | none =>
        intro t ht
        rcases List.mem_append.mp ht with ht | ht
        · exact ih t ht
        · simp only [List.mem_singleton] at ht
          rw [ht, hf]
      | some b =>
        refine ⟨by simp [ih.1], ih.2.1, fun t ht q hq => ?_⟩
        rcases List.mem_append.mp ht with ht | ht
        · exact ih.2.2 t ht q hq
        · simp only [List.mem_singleton] at ht
          rw [ht, hf] at hq
          simp at hq
    | some pos =>
      cases best with
      | none =>
        refine ⟨by simp, hf, fun t ht q hq => ?_⟩
        rcases List.mem_append.mp ht with ht | ht
        · rw [ih t ht] at hq
          simp at hq
        · simp only [List.mem_singleton] at ht
          rw [ht, hf, Option.some.injEq] at hq
          omega
      | some b =>
        obtain ⟨b, t₀⟩ := b
        -- the later token wins only where it comes first
        by_cases hlt : pos < b
        · simp only [if_pos hlt]
          refine ⟨by simp, hf, fun t ht q hq => ?_⟩
          rcases List.mem_append.mp ht with ht | ht
          · have := ih.2.2 t ht q hq
            omega
          · simp only [List.mem_singleton] at ht
            rw [ht, hf, Option.some.injEq] at hq
            omega
        · simp only [if_neg hlt]
          refine ⟨by simp [ih.1], ih.2.1, fun t ht q hq => ?_⟩
          rcases List.mem_append.mp ht with ht | ht
          · exact ih.2.2 t ht q hq
          · simp only [List.mem_singleton] at ht
            rw [ht, hf, Option.some.injEq] at hq
            omega

theorem earliest_eq_none_iff {toks : List (List α)} {text : List α} :
    earliest toks text = none ↔ ∀ tok ∈ toks, find tok text = none := by
  have h := earliest_spec toks text
  constructor
  · intro hn
    rwa [hn] at h
  · intro hall
    cases he : earliest toks text with
    | none => rfl
    | some b =>
      rw [he] at h
      have := hall b.2 h.1
      rw [h.2.1] at this
      simp at this

/-- Tokens that all start with `c`, have it nowhere else, and none of which begins
another: the markers of a wire format. -/
structure Markers (c : α) (toks : List (List α)) : Prop where
  headed : ∀ tok ∈ toks, tok.head? = some c ∧ c ∉ tok.tail
  distinct : ∀ tok ∈ toks, ∀ tok' ∈ toks, tok <+: tok' → tok = tok'

instance (c : α) (toks : List (List α)) : Decidable (Markers c toks) :=
  decidable_of_iff
    ((∀ tok ∈ toks, tok.head? = some c ∧ c ∉ tok.tail) ∧
      ∀ tok ∈ toks, ∀ tok' ∈ toks, tok <+: tok' → tok = tok')
    ⟨fun h => ⟨h.1, h.2⟩, fun h => ⟨h.headed, h.distinct⟩⟩

omit [DecidableEq α] in
/-- A marker that starts inside an occurrence of another does not exist. -/
theorem Markers.no_overlap {c : α} {toks : List (List α)} (hm : Markers c toks)
    {tok tok' text : List α} {p q : Nat} (htok : tok ∈ toks) (htok' : tok' ∈ toks)
    (hp : tok <+: text.drop p) (hq : tok' <+: text.drop q) (hpq : p < q) :
    p + tok.length ≤ q := by
  by_contra hlt
  obtain ⟨hhead, htail⟩ := hm.headed tok htok
  obtain ⟨hhead', -⟩ := hm.headed tok' htok'
  have hc : text[q]? = some c := by
    obtain ⟨r, hr⟩ := hq
    have h0 : (text.drop q)[0]? = some c := by
      rw [← hr, ← List.head?_eq_getElem?, List.head?_append, hhead']
      rfl
    simpa [List.getElem?_drop] using h0
  obtain ⟨r, hr⟩ := hp
  have hin : tok[q - p]? = some c := by
    have : (text.drop p)[q - p]? = some c := by
      rw [List.getElem?_drop]
      rwa [show p + (q - p) = q by omega]
    rw [← hr, List.getElem?_append_left (by omega)] at this
    exact this
  obtain ⟨k, hk⟩ : ∃ k, q - p = k + 1 := ⟨q - p - 1, by omega⟩
  rw [hk, ← List.getElem?_tail] at hin
  exact htail (List.mem_of_getElem? hin)

/-- **The first marker of a text stays its first marker.** -/
theorem earliest_append {c : α} {toks : List (List α)} (hm : Markers c toks) {a : List α}
    {p : Nat} {tok : List α} (h : earliest toks a = some (p, tok)) (b : List α) :
    earliest toks (a ++ b) = some (p, tok) := by
  have ha := earliest_spec toks a
  rw [h] at ha
  obtain ⟨hmem, hfind, hmin⟩ := ha
  have hfind' := find_append hfind b
  have hend := find_add_length_le hfind
  have hab := earliest_spec toks (a ++ b)
  cases he : earliest toks (a ++ b) with
  | none =>
    rw [he] at hab
    rw [hab tok hmem] at hfind'
    simp at hfind'
  | some best =>
    obtain ⟨p', tok'⟩ := best
    rw [he] at hab
    obtain ⟨hmem', hf', hmin'⟩ := hab
    have hle : p' ≤ p := hmin' tok hmem p hfind'
    cases hfa : find tok' a with
    | some q =>
      have hq : q = p' := by
        have := find_append hfa b
        rw [hf', Option.some.injEq] at this
        exact this.symm
      have hpq := hmin tok' hmem' q hfa
      obtain rfl : p' = p := by omega
      have heq : tok' = tok := by
        rcases List.prefix_or_prefix_of_prefix (prefix_of_find hf') (prefix_of_find hfind') with hpre | hpre
        · exact hm.distinct tok' hmem' tok hmem hpre
        · exact (hm.distinct tok hmem tok' hmem' hpre).symm
      rw [heq]
    | none =>
      have hlate := find_append_of_none hfa hf'
      rcases Nat.lt_or_ge p' p with hlt | hge
      · have := hm.no_overlap hmem' hmem (prefix_of_find hf') (prefix_of_find hfind') hlt
        omega
      · obtain rfl : p' = p := by omega
        have heq : tok' = tok := by
          rcases List.prefix_or_prefix_of_prefix (prefix_of_find hf') (prefix_of_find hfind')
            with hpre | hpre
          · exact hm.distinct tok' hmem' tok hmem hpre
          · exact (hm.distinct tok hmem tok' hmem' hpre).symm
        rw [heq, hfind] at hfa
        simp at hfa

/-- The beginning of a text that still has the first marker. -/
theorem earliest_take {c : α} {toks : List (List α)} (hm : Markers c toks) {text : List α}
    {p n : Nat} {tok : List α} (h : earliest toks text = some (p, tok))
    (hn : p + tok.length ≤ n) : earliest toks (text.take n) = some (p, tok) := by
  have hspec := earliest_spec toks text
  rw [h] at hspec
  have hfind := find_take hspec.2.1 hn
  cases he : earliest toks (text.take n) with
  | none =>
    rw [earliest_eq_none_iff.mp he tok hspec.1] at hfind
    simp at hfind
  | some best =>
    have hall := earliest_append hm he (text.drop n)
    rw [List.take_append_drop, h] at hall
    exact hall.symm

/-- A beginning of the text that cuts the first marker has none. -/
theorem earliest_take_of_lt {c : α} {toks : List (List α)} (hm : Markers c toks) {text : List α}
    {p n : Nat} {tok : List α} (h : earliest toks text = some (p, tok))
    (hn : n < p + tok.length) : earliest toks (text.take n) = none := by
  cases he : earliest toks (text.take n) with
  | none => rfl
  | some best =>
    have hall := earliest_append hm he (text.drop n)
    rw [List.take_append_drop, h, Option.some.injEq] at hall
    have hspec := earliest_spec toks (text.take n)
    rw [he, show best = (p, tok) from hall.symm] at hspec
    have := find_add_length_le hspec.2.1
    rw [List.length_take] at this
    omega

end FreeToken.Lib
