import FreeToken.Lib.Reach
import FreeToken.Speculation.Decoder

/-!
# What the drafter's index knows

`observe` indexes the `n`-grams that end before the last position, `sync` grows and cuts the token
list, and `could_match` asks for a match one token ahead. Main results:

* `observe_index`: what an entry of the index stands for.
* `couldMatch_sound_iff`: when the question asked one token ahead misses no match.
* `drafts_of_reach`: a run whose cuts are safe drafts from the most recent occurrence.
-/

namespace FreeToken.Speculation

open FreeToken.Scheduler FreeToken.Lib

variable {n : Nat} {tokens tokens' key : List Token} {h : Nat}

/-- The `n`-gram ends at `h`, before the end of the tokens. -/
def Occurs (n : Nat) (tokens key : List Token) (h : Nat) : Prop :=
  n ≤ h ∧ h < tokens.length ∧ gram n tokens (h - n) = key

/-- The most recent occurrence. -/
def Latest (n : Nat) (tokens key : List Token) (h : Nat) : Prop :=
  Occurs n tokens key h ∧ ∀ h', Occurs n tokens key h' → h' ≤ h

/-- The last `n` tokens. -/
def lastGram (n : Nat) (tokens : List Token) : List Token := gram n tokens (tokens.length - n)

-- ---------------------------------------------------------------------------
-- Occurrences
-- ---------------------------------------------------------------------------

theorem gram_append {i : Nat} (hi : i + n ≤ tokens.length) (rest : List Token) :
    gram n (tokens ++ rest) i = gram n tokens i := by
  have hlen : n ≤ (tokens.drop i).length := by
    rw [List.length_drop]
    omega
  rw [gram, gram, List.drop_append_of_le_length (by omega), List.take_append_of_le_length hlen]

theorem gram_take {i len : Nat} (hi : i + n ≤ len) :
    gram n (tokens.take len) i = gram n tokens i := by
  rw [gram, gram, List.drop_take, List.take_take, Nat.min_eq_left (by omega)]

theorem dropLast_gram {i : Nat} (hi : i + n ≤ tokens.length) :
    (gram n tokens i).dropLast = gram (n - 1) tokens i := by
  have hlen : ((tokens.drop i).take n).length = n := by
    rw [List.length_take, List.length_drop]
    omega
  rw [gram, gram, List.dropLast_eq_take, hlen, List.take_take, Nat.min_eq_left (Nat.sub_le n 1)]

theorem occurs_grown (hpre : tokens <+: tokens') (hh : h < tokens.length) :
    Occurs n tokens' key h ↔ Occurs n tokens key h := by
  obtain ⟨rest, rfl⟩ := hpre
  unfold Occurs
  constructor
  · rintro ⟨hn, -, hkey⟩
    exact ⟨hn, hh, by rwa [gram_append (by omega)] at hkey⟩
  · rintro ⟨hn, -, hkey⟩
    exact ⟨hn, by rw [List.length_append]; omega, by rwa [gram_append (by omega)]⟩

/-- An `n`-gram that occurs has a most recent occurrence. -/
theorem exists_latest (ho : Occurs n tokens key h) : ∃ h', Latest n tokens key h' := by
  classical
  have hbound : ∀ h', Occurs n tokens key h' → h' ≤ tokens.length := fun h' ho' =>
    Nat.le_of_lt ho'.2.1
  exact ⟨Nat.findGreatest (Occurs n tokens key) tokens.length,
    Nat.findGreatest_spec (hbound h ho) ho, fun h' ho' => Nat.le_findGreatest (hbound h' ho') ho'⟩

theorem Latest.unique {h' : Nat} (hl : Latest n tokens key h) (hl' : Latest n tokens key h') :
    h = h' :=
  Nat.le_antisymm (hl'.2 h hl.1) (hl.2 h' hl'.1)

-- ---------------------------------------------------------------------------
-- The index
-- ---------------------------------------------------------------------------

variable {hash : List Token → Int} {d : NgramDrafter}

namespace NgramDrafter

/-- The drafter after the `n`-grams that begin in `[cursor, cursor + count)`. -/
def observed (hash : List Token → Int) (tokens : List Token) (d : NgramDrafter) (count : Nat) :
    NgramDrafter :=
  (List.range' d.cursor count).foldl (observeAt hash tokens) d

theorem observed_succ (tokens : List Token) (d : NgramDrafter) (count : Nat) :
    observed hash tokens d (count + 1) =
      observeAt hash tokens (observed hash tokens d count) (d.cursor + count) := by
  rw [observed, List.range'_concat, List.foldl_append, Nat.one_mul]
  rfl

theorem observed_n (tokens : List Token) (d : NgramDrafter) (count : Nat) :
    (observed hash tokens d count).n = d.n := by
  induction count with
  | zero => rfl
  | succ count ih => rw [observed_succ]; exact ih

theorem observed_cursor (tokens : List Token) (d : NgramDrafter) (count : Nat) :
    (observed hash tokens d count).cursor = d.cursor + count := by
  induction count with
  | zero => rfl
  | succ count ih => rw [observed_succ]; rfl

theorem observed_index (tokens : List Token) (d : NgramDrafter) (key : List Token) (h : Nat)
    (count : Nat) : (observed hash tokens d count).index key = some h ↔
      (∃ i, d.cursor ≤ i ∧ i < d.cursor + count ∧ h = i + d.n ∧ gram d.n tokens i = key ∧
        ∀ j, i < j → j < d.cursor + count → gram d.n tokens j ≠ key) ∨
      d.index key = some h ∧
        ∀ j, d.cursor ≤ j → j < d.cursor + count → gram d.n tokens j ≠ key := by
  induction count with
  | zero =>
    refine ⟨fun hsome => Or.inr ⟨hsome, fun j hle hlt => by omega⟩, ?_⟩
    rintro (⟨i, hle, hlt, -⟩ | ⟨hsome, -⟩)
    · omega
    · exact hsome
  | succ count ih =>
    rw [observed_succ]
    show Function.update (observed hash tokens d count).index
      (gram (observed hash tokens d count).n tokens (d.cursor + count))
      (some (d.cursor + count + (observed hash tokens d count).n)) key = some h ↔ _
    rw [observed_n]
    by_cases hkey : key = gram d.n tokens (d.cursor + count)
    · -- The last of them is this `n`-gram.
      rw [hkey, Function.update_self]
      constructor
      · intro hsome
        rw [Option.some.injEq] at hsome
        exact Or.inl ⟨d.cursor + count, by omega, by omega, by omega, rfl, fun j _ _ => by omega⟩
      · rintro (⟨i, hle, hlt, rfl, heq, hlater⟩ | ⟨-, hnone⟩)
        · by_cases hi : i = d.cursor + count
          · rw [hi]
          · exact absurd rfl (hlater (d.cursor + count) (by omega) (by omega))
        · exact absurd rfl (hnone (d.cursor + count) (by omega) (by omega))
    · rw [Function.update_of_ne hkey, ih]
      constructor
      · rintro (⟨i, hle, hlt, hh, heq, hlater⟩ | ⟨hsome, hnone⟩)
        · refine Or.inl ⟨i, hle, by omega, hh, heq, fun j hij hj => ?_⟩
          by_cases hlast : j = d.cursor + count
          · exact hlast ▸ fun h => hkey h.symm
          · exact hlater j hij (by omega)
        · refine Or.inr ⟨hsome, fun j hle hj => ?_⟩
          by_cases hlast : j = d.cursor + count
          · exact hlast ▸ fun h => hkey h.symm
          · exact hnone j hle (by omega)
      · rintro (⟨i, hle, hlt, hh, heq, hlater⟩ | ⟨hsome, hnone⟩)
        · have hi : i ≠ d.cursor + count := by
            rintro rfl
            exact hkey heq.symm
          exact Or.inl ⟨i, hle, by omega, hh, heq, fun j hij hj => hlater j hij (by omega)⟩
        · exact Or.inr ⟨hsome, fun j hle hj => hnone j hle (by omega)⟩

theorem observed_prefixHashes (tokens : List Token) (d : NgramDrafter) (x : Int) (count : Nat) :
    x ∈ (observed hash tokens d count).prefixHashes ↔ x ∈ d.prefixHashes ∨
      ∃ i, d.cursor ≤ i ∧ i < d.cursor + count ∧ hash (gram d.n tokens i).dropLast = x := by
  induction count with
  | zero =>
    refine ⟨Or.inl, ?_⟩
    rintro (hx | ⟨i, hle, hlt, -⟩)
    · exact hx
    · omega
  | succ count ih =>
    rw [observed_succ]
    show x ∈ hash (gram (observed hash tokens d count).n tokens (d.cursor + count)).dropLast ::
      (observed hash tokens d count).prefixHashes ↔ _
    rw [List.mem_cons, ih, observed_n]
    constructor
    · rintro (rfl | hx | ⟨i, hle, hlt, hx⟩)
      · exact Or.inr ⟨d.cursor + count, by omega, by omega, rfl⟩
      · exact Or.inl hx
      · exact Or.inr ⟨i, hle, by omega, hx⟩
    · rintro (hx | ⟨i, hle, hlt, hx⟩)
      · exact Or.inr (Or.inl hx)
      · by_cases hi : i = d.cursor + count
        · exact Or.inl (by rw [← hx, hi])
        · exact Or.inr (Or.inr ⟨i, hle, by omega, hx⟩)

theorem observe_eq (tokens : List Token) (d : NgramDrafter) :
    d.observe hash tokens = observed hash tokens d (tokens.length - d.n - d.cursor) := rfl

theorem observe_n (tokens : List Token) (d : NgramDrafter) : (d.observe hash tokens).n = d.n :=
  observed_n tokens d _

theorem observe_cursor (tokens : List Token) (d : NgramDrafter) :
    (d.observe hash tokens).cursor = d.cursor + (tokens.length - d.n - d.cursor) :=
  observed_cursor tokens d _

/-- An entry is the most recent occurrence of those observed now, and where there is none, what it
was before. -/
theorem observe_index (tokens : List Token) (d : NgramDrafter) (key : List Token) (h : Nat) :
    (d.observe hash tokens).index key = some h ↔
      (Latest d.n tokens key h ∧ d.cursor + d.n ≤ h) ∨
        d.index key = some h ∧ ∀ h', d.cursor + d.n ≤ h' → ¬Occurs d.n tokens key h' := by
  rw [observe_eq, observed_index]
  constructor
  · rintro (⟨i, hle, hlt, rfl, hkey, hlater⟩ | ⟨hsome, hnone⟩)
    · refine Or.inl ⟨⟨⟨by omega, by omega, by rwa [Nat.add_sub_cancel]⟩, fun h' ho => ?_⟩, by omega⟩
      by_contra hlt'
      exact hlater (h' - d.n) (by omega) (by have := ho.2.1; omega) ho.2.2
    · exact Or.inr ⟨hsome, fun h' hle ho =>
        hnone (h' - d.n) (by omega) (by have := ho.2.1; omega) ho.2.2⟩
  · rintro (⟨⟨ho, hlast⟩, hle⟩ | ⟨hsome, hnone⟩)
    · refine Or.inl ⟨h - d.n, by omega, by have := ho.2.1; omega, by omega, ho.2.2, ?_⟩
      intro j hlt hj hkey
      have := hlast (j + d.n) ⟨by omega, by omega, by rwa [Nat.add_sub_cancel]⟩
      omega
    · refine Or.inr ⟨hsome, fun j hle hj hkey => ?_⟩
      exact hnone (j + d.n) (by omega) ⟨by omega, by omega, by rwa [Nat.add_sub_cancel]⟩

theorem observe_prefixHashes (tokens : List Token) (d : NgramDrafter) (x : Int) :
    x ∈ (d.observe hash tokens).prefixHashes ↔ x ∈ d.prefixHashes ∨
      ∃ h, d.cursor + d.n ≤ h ∧ h < tokens.length ∧
        hash (gram d.n tokens (h - d.n)).dropLast = x := by
  rw [observe_eq, observed_prefixHashes]
  refine or_congr_right ⟨?_, ?_⟩
  · rintro ⟨i, hle, hlt, hx⟩
    exact ⟨i + d.n, by omega, by omega, by rwa [Nat.add_sub_cancel]⟩
  · rintro ⟨h, hle, hlt, hx⟩
    exact ⟨h - d.n, by omega, by omega, hx⟩

/-- The index has the most recent occurrences. An entry behind the end of the tokens is of an
`n`-gram that was cut off: the last one, which occurs nowhere before. -/
structure Indexed (d : NgramDrafter) (tokens : List Token) : Prop where
  cursor : d.cursor = tokens.length - d.n
  entry : ∀ key h, h < tokens.length → (d.index key = some h ↔ Latest d.n tokens key h)
  beyond : ∀ key h, d.index key = some h → tokens.length ≤ h →
    d.n ≤ tokens.length ∧ key = lastGram d.n tokens ∧ ∀ h', ¬Occurs d.n tokens key h'

theorem indexed_new (n : Nat) (hn : 1 ≤ n) : Indexed (new n hn) [] where
  cursor := (Nat.zero_sub n).symm
  entry := fun _ h hlt => absurd hlt (Nat.not_lt_zero h)
  beyond := fun _ _ hsome => nomatch hsome

/-- Growing the tokens indexes what ends behind the old end and before the new one. -/
theorem Indexed.observe (hd : Indexed d tokens) (hpre : tokens <+: tokens') :
    Indexed (d.observe hash tokens') tokens' := by
  have hlen := hpre.length_le
  have hcursor := hd.cursor
  have hlatest : ∀ key h, Latest d.n tokens' key h → h < tokens.length →
      Latest d.n tokens key h := by
    intro key h hl hlt
    refine ⟨(occurs_grown hpre hlt).mp hl.1, fun h' ho => hl.2 h' ?_⟩
    exact (occurs_grown hpre ho.2.1).mpr ho
  -- An `n`-gram that ended before the old end and does not occur since keeps its entry.
  have hold : ∀ key h, (∀ h', d.cursor + d.n ≤ h' → ¬Occurs d.n tokens' key h') →
      (Latest d.n tokens key h ↔ Latest d.n tokens' key h) := by
    intro key h hnone
    have hbefore : ∀ h', Occurs d.n tokens' key h' → h' < tokens.length := fun h' ho => by
      by_contra hge
      exact hnone h' (by have := ho.1; omega) ho
    constructor
    · rintro ⟨ho, hlast⟩
      refine ⟨(occurs_grown hpre ho.2.1).mpr ho, fun h' ho' => hlast h' ?_⟩
      exact (occurs_grown hpre (hbefore h' ho')).mp ho'
    · exact fun hl => hlatest key h hl (hbefore h hl.1)
  refine ⟨by rw [observe_cursor, observe_n]; omega, fun key h hlt => ?_, fun key h hsome hge => ?_⟩
  · rw [observe_index, observe_n]
    constructor
    · rintro (⟨hl, -⟩ | ⟨hsome, hnone⟩)
      · exact hl
      · by_cases hbefore : h < tokens.length
        · exact (hold key h hnone).mp ((hd.entry key h hbefore).mp hsome)
        · -- The last `n`-gram of the old tokens occurs in the longer ones.
          obtain ⟨hn, hkey, -⟩ := hd.beyond key h hsome (Nat.le_of_not_lt hbefore)
          refine absurd ?_ (hnone tokens.length (by omega))
          refine ⟨hn, by omega, ?_⟩
          obtain ⟨rest, rfl⟩ := hpre
          rw [gram_append (by omega), hkey, lastGram]
    · intro hl
      by_cases hnew : d.cursor + d.n ≤ h
      · exact Or.inl ⟨hl, hnew⟩
      · have hnone : ∀ h', d.cursor + d.n ≤ h' → ¬Occurs d.n tokens' key h' := fun h' hle ho => by
          have := hl.2 h' ho
          omega
        have hbefore : h < tokens.length := by have := hl.1.1; omega
        exact Or.inr ⟨(hd.entry key h hbefore).mpr (hlatest key h hl hbefore), hnone⟩
  · rw [observe_index] at hsome
    rw [observe_n]
    rcases hsome with ⟨hl, -⟩ | ⟨hsome, hnone⟩
    · exact absurd hl.1.2.1 (Nat.not_lt.mpr hge)
    · obtain ⟨hn, hkey, hnowhere⟩ := hd.beyond key h hsome (by omega)
      obtain ⟨rest, rfl⟩ := hpre
      -- Nothing was added: else the old last `n`-gram would occur.
      have hrest : rest = [] := by
        by_contra hne
        have hpos := List.length_pos_iff.mpr hne
        rw [List.length_append] at hge
        refine hnone tokens.length (by omega) ⟨hn, by rw [List.length_append]; omega, ?_⟩
        rw [gram_append (by omega), hkey, lastGram]
      subst hrest
      rw [List.append_nil]
      exact ⟨hn, hkey, hnowhere⟩

/-- The exact test looks the last `n`-gram up. -/
theorem Indexed.hit_some (hd : Indexed d tokens) :
    d.hit tokens = some h ↔ Latest d.n tokens (lastGram d.n tokens) h := by
  rw [hit]
  split
  · rename_i hshort
    refine ⟨fun hsome => (nomatch hsome), fun hl => ?_⟩
    have := hl.1.1
    have := hl.1.2.1
    omega
  · split
    · rename_i hnone
      refine ⟨fun hsome => (nomatch hsome), fun hl => ?_⟩
      rw [← hd.entry _ _ hl.1.2.1] at hl
      exact nomatch hnone.symm.trans hl
    · rename_i h' hentry
      split
      · rename_i hge
        refine ⟨fun hsome => (nomatch hsome), fun hl => ?_⟩
        exact absurd hl.1 ((hd.beyond _ _ hentry hge).2.2 h)
      · rename_i hlt
        have hl' := (hd.entry _ _ (Nat.lt_of_not_le hlt)).mp hentry
        constructor
        · intro hsome
          rw [← Option.some.inj hsome]
          exact hl'
        · intro hl
          rw [hl'.unique hl]

end NgramDrafter

-- ---------------------------------------------------------------------------
-- One token ahead
-- ---------------------------------------------------------------------------

/-- The drafter has observed the tokens, which only grew. -/
inductive Observed (hash : List Token → Int) (n : Nat) (hn : 1 ≤ n) :
    List Token → NgramDrafter → Prop
  | new : Observed hash n hn [] (.new n hn)
  | observe {tokens tokens' : List Token} {d : NgramDrafter} (hd : Observed hash n hn tokens d)
      (hpre : tokens <+: tokens') : Observed hash n hn tokens' (d.observe hash tokens')

namespace Observed

variable {hn : 1 ≤ n}

theorem size (hd : Observed hash n hn tokens d) : d.n = n := by
  induction hd with
  | new => rfl
  | observe _ _ ih => rw [NgramDrafter.observe_n, ih]

theorem indexed (hd : Observed hash n hn tokens d) : d.Indexed tokens := by
  induction hd with
  | new => exact NgramDrafter.indexed_new n hn
  | observe _ hpre ih => exact ih.observe hpre

/-- The hashes are those of the indexed `n`-grams without their last token. -/
theorem hashed (hd : Observed hash n hn tokens d) (x : Int) :
    x ∈ d.prefixHashes ↔
      ∃ h, n ≤ h ∧ h < tokens.length ∧ hash (gram n tokens (h - n)).dropLast = x := by
  induction hd with
  | new => exact ⟨fun hx => absurd hx List.not_mem_nil, fun ⟨h, _, hlt, _⟩ =>
      absurd hlt (Nat.not_lt_zero h)⟩
  | @observe tokens tokens' d hd hpre ih =>
    have hcursor := hd.indexed.cursor
    have hlen := hpre.length_le
    rw [NgramDrafter.observe_prefixHashes, ih, hd.size]
    rw [hd.size] at hcursor
    obtain ⟨rest, rfl⟩ := hpre
    constructor
    · rintro (⟨h, hle, hlt, hx⟩ | ⟨h, hle, hlt, hx⟩)
      · exact ⟨h, hle, by omega, by rwa [gram_append (by omega)]⟩
      · exact ⟨h, by omega, hlt, hx⟩
    · rintro ⟨h, hle, hlt, hx⟩
      by_cases hnew : d.cursor + n ≤ h
      · exact Or.inr ⟨h, hnew, hlt, hx⟩
      · exact Or.inl ⟨h, hle, by omega, by rwa [gram_append (by omega)] at hx⟩

/-- What the question asked one token ahead looks for. -/
theorem couldMatch_iff (hd : Observed hash n hn tokens d) : d.couldMatch hash tokens = true ↔
    n - 1 ≤ tokens.length ∧ ∃ i, i + n < tokens.length ∧
      hash (gram (n - 1) tokens i) = hash (lastGram (n - 1) tokens) := by
  rw [NgramDrafter.couldMatch, hd.size]
  split
  · rename_i hshort
    exact ⟨fun h => (nomatch h), fun h => absurd h.1 (Nat.not_le.mpr hshort)⟩
  · rename_i hlong
    rw [decide_eq_true_iff, hd.hashed]
    refine ⟨?_, ?_⟩
    · rintro ⟨h, hle, hlt, hx⟩
      rw [dropLast_gram (by omega)] at hx
      exact ⟨Nat.le_of_not_lt hlong, h - n, by omega, hx⟩
    · rintro ⟨-, i, hlt, hx⟩
      refine ⟨i + n, by omega, hlt, ?_⟩
      rw [Nat.add_sub_cancel, dropLast_gram (by omega)]
      exact hx

/-- The exact test, one token later. -/
theorem hasMatch_next (hd : Observed hash n hn tokens d) (t : Token) :
    (d.observe hash (tokens ++ [t])).hasMatch (tokens ++ [t]) = true ↔
      ∃ i, i + n ≤ tokens.length ∧ gram n tokens i = lastGram n (tokens ++ [t]) := by
  have hnext := hd.observe (List.prefix_append tokens [t])
  have hsize := hnext.size
  rw [NgramDrafter.hasMatch, Option.isSome_iff_exists]
  constructor
  · rintro ⟨h, hhit⟩
    have ho := (hnext.indexed.hit_some.mp hhit).1
    rw [hsize] at ho
    obtain ⟨hle, hlt, hkey⟩ := ho
    rw [List.length_append, List.length_singleton] at hlt
    refine ⟨h - n, by omega, ?_⟩
    rwa [gram_append (by omega)] at hkey
  · rintro ⟨i, hle, hkey⟩
    have ho : Occurs n (tokens ++ [t]) (lastGram n (tokens ++ [t])) (i + n) := by
      refine ⟨by omega, by rw [List.length_append, List.length_singleton]; omega, ?_⟩
      rwa [Nat.add_sub_cancel, gram_append hle]
    obtain ⟨h, hlast⟩ := exists_latest ho
    refine ⟨h, hnext.indexed.hit_some.mpr ?_⟩
    rwa [hsize]

end Observed

/-- The tokens end with a run of `n` equal ones. -/
def EndsInRun (n : Nat) (tokens : List Token) : Prop :=
  n ≤ tokens.length ∧ ∃ x, lastGram n tokens = List.replicate n x

/-- A list that is its own shift is of one token. -/
theorem eq_replicate_of_shift (l : List Token) : ∀ a, (a :: l).dropLast = l →
    a :: l = List.replicate (l.length + 1) a := by
  induction l with
  | nil => exact fun a _ => rfl
  | cons b l ih =>
    intro a h
    rw [List.dropLast_cons_of_ne_nil (List.cons_ne_nil b l), List.cons.injEq] at h
    obtain ⟨rfl, hrest⟩ := h
    rw [List.length_cons, List.replicate_succ, ← ih a hrest]

theorem lastGram_append (hn : 1 ≤ n) (hlen : n - 1 ≤ tokens.length) (t : Token) :
    lastGram n (tokens ++ [t]) = lastGram (n - 1) tokens ++ [t] := by
  have hfrom : (tokens ++ [t]).length - n = tokens.length - (n - 1) := by
    rw [List.length_append, List.length_singleton]
    omega
  have hfull : (tokens.drop (tokens.length - (n - 1))).length = n - 1 := by
    rw [List.length_drop]
    omega
  rw [lastGram, lastGram, hfrom, gram, gram, List.drop_append_of_le_length (by omega),
    List.take_of_length_le (by rw [List.length_append, hfull, List.length_singleton]; omega),
    List.take_of_length_le (by omega)]

theorem lastGram_eq_drop (n : Nat) (tokens : List Token) :
    lastGram n tokens = tokens.drop (tokens.length - n) := by
  rw [lastGram, gram, List.take_of_length_le]
  rw [List.length_drop]
  omega

theorem tail_lastGram (hn : 1 ≤ n) (hlen : n ≤ tokens.length) :
    (lastGram n tokens).tail = lastGram (n - 1) tokens := by
  rw [lastGram_eq_drop, lastGram_eq_drop, List.tail_drop]
  congr 1
  omega

theorem length_lastGram (hlen : n ≤ tokens.length) : (lastGram n tokens).length = n := by
  rw [lastGram_eq_drop, List.length_drop]
  omega

/-- The `n` last tokens come again, moved by one, only in a run. -/
theorem endsInRun_iff (hn : 1 ≤ n) : EndsInRun n tokens ↔
    n ≤ tokens.length ∧ ∃ t, lastGram n tokens = lastGram n (tokens ++ [t]) := by
  refine and_congr_right fun hlen => ⟨?_, ?_⟩
  · rintro ⟨x, hx⟩
    refine ⟨x, ?_⟩
    rw [lastGram_append hn (by omega), ← tail_lastGram hn hlen, hx, List.tail_replicate,
      ← List.replicate_succ', Nat.sub_add_cancel hn]
  · rintro ⟨t, ht⟩
    have hshift : (lastGram n tokens).dropLast = (lastGram n tokens).tail := by
      rw [tail_lastGram hn hlen]
      nth_rewrite 1 [ht]
      rw [lastGram_append hn (by omega), List.dropLast_concat]
    have hlength := length_lastGram hlen
    match hgram : lastGram n tokens with
    | [] =>
      rw [hgram, List.length_nil] at hlength
      omega
    | a :: l =>
      rw [hgram] at hshift hlength
      refine ⟨a, ?_⟩
      rw [eq_replicate_of_shift l a hshift]
      congr 1

/-- **The question asked one token ahead misses no match** exactly where the tokens do not end with
a run of `n` equal ones, or an earlier `n`-gram begins, to the hash, with the last `n - 1`
tokens. -/
theorem couldMatch_sound_iff (hash : List Token → Int) (n : Nat) (hn : 1 ≤ n) (tokens : List Token)
    (d : NgramDrafter) (hd : Observed hash n hn tokens d) :
    (d.couldMatch hash tokens = false →
        ∀ t, (d.observe hash (tokens ++ [t])).hasMatch (tokens ++ [t]) = false) ↔
      ¬EndsInRun n tokens ∨ ∃ i, i + n < tokens.length ∧
        hash (gram (n - 1) tokens i) = hash (lastGram (n - 1) tokens) := by
  constructor
  · intro hsound
    by_contra hnot
    rw [not_or, not_not] at hnot
    obtain ⟨hlen, t, hrun⟩ := (endsInRun_iff hn).mp hnot.1
    have hcould : d.couldMatch hash tokens = false := by
      rw [← Bool.not_eq_true, hd.couldMatch_iff]
      exact fun h => hnot.2 h.2
    have hnext := hsound hcould t
    rw [← Bool.not_eq_true, hd.hasMatch_next] at hnext
    exact hnext ⟨tokens.length - n, by omega, hrun⟩
  · intro hcond hcould t
    rw [← Bool.not_eq_true, hd.couldMatch_iff] at hcould
    rw [← Bool.not_eq_true, hd.hasMatch_next]
    rintro ⟨i, hle, hkey⟩
    have hlen : n - 1 ≤ tokens.length := by omega
    have hfree := fun h => hcould ⟨hlen, h⟩
    by_cases hlast : i + n = tokens.length
    · -- The match is the last `n`-gram itself, which is a run.
      have hrun : EndsInRun n tokens := by
        refine (endsInRun_iff hn).mpr ⟨by omega, t, ?_⟩
        rw [← hkey, lastGram]
        congr 1
        omega
      rcases hcond with hnot | hearlier
      · exact hnot hrun
      · exact hfree hearlier
    · refine hfree ⟨i, by omega, ?_⟩
      rw [← dropLast_gram hle, hkey, lastGram_append hn hlen, List.dropLast_concat]

theorem pair_size : 1 ≤ 2 := by decide

/-- A drafter of pairs that has observed these tokens. -/
def pairsOf (tokens : List Token) : NgramDrafter :=
  (NgramDrafter.new 2 pair_size).observe (fun _ => 0) tokens

theorem observed_pairsOf (tokens : List Token) :
    Observed (fun _ => 0) 2 pair_size tokens (pairsOf tokens) :=
  .observe .new List.nil_prefix

theorem couldMatch_sound_iff_pair :
    ((pairsOf [1, 2]).observe (fun _ => 0) ([1, 2] ++ [1])).hasMatch ([1, 2] ++ [1]) = false := by
  refine (couldMatch_sound_iff (fun _ => 0) 2 pair_size [1, 2] _
    (observed_pairsOf [1, 2])).mpr (Or.inl ?_) (by decide) 1
  rintro ⟨-, x, hx⟩
  have heq : [1, 2] = [x, x] := hx
  simp only [List.cons.injEq] at heq
  exact absurd (heq.1.trans heq.2.1.symm) (by decide)

/-- **A run is missed**: two equal tokens, and a third. -/
theorem couldMatch_misses_run :
    Observed (fun _ => 0) 2 pair_size [1, 1] (pairsOf [1, 1]) ∧
      (pairsOf [1, 1]).couldMatch (fun _ => 0) [1, 1] = false ∧
      ((pairsOf [1, 1]).observe (fun _ => 0) [1, 1, 1]).hasMatch [1, 1, 1] = true :=
  ⟨observed_pairsOf [1, 1], by decide, by decide⟩

-- ---------------------------------------------------------------------------
-- Runs of a request
-- ---------------------------------------------------------------------------

/-- The draft continues the most recent earlier occurrence of the last `n` tokens, and is empty
where there is none. -/
def DraftsLatest (n : Nat) (d : NgramDrafter) (tokens : List Token) (k : Nat) : Prop :=
  (∃ h, Latest n tokens (lastGram n tokens) h ∧ d.draft tokens k = (tokens.drop h).take k) ∨
    (∀ h, ¬Occurs n tokens (lastGram n tokens) h) ∧ d.draft tokens k = []

/-- Cutting the tokens to `want` is safe: no indexed `n`-gram ends behind the cut but one that also
ends at it, and the one that ends at the cut has no earlier occurrence. -/
def SafeCut (d : NgramDrafter) (tokens : List Token) (want : Nat) : Prop :=
  (∀ key h, d.index key = some h → want < h →
      d.n ≤ want ∧ key = gram d.n tokens (want - d.n)) ∧
    (d.n ≤ want → ∀ h, h < want → ¬Occurs d.n tokens (gram d.n tokens (want - d.n)) h)

def SafeSync (st : SpecState) (inputIds : List Token) : Prop :=
  inputIds.length < st.tokens.length → SafeCut st.drafter st.tokens inputIds.length

theorem NgramDrafter.Indexed.drafts (hd : d.Indexed tokens) (k : Nat) :
    DraftsLatest d.n d tokens k := by
  unfold DraftsLatest NgramDrafter.draft
  by_cases hocc : ∃ h, Occurs d.n tokens (lastGram d.n tokens) h
  · obtain ⟨h, ho⟩ := hocc
    obtain ⟨h', hlast⟩ := exists_latest ho
    refine Or.inl ⟨h', hlast, ?_⟩
    rw [hd.hit_some.mpr hlast]
    split
    · rename_i hzero
      rw [hzero, List.take_zero]
    · rfl
  · rw [not_exists] at hocc
    refine Or.inr ⟨hocc, ?_⟩
    have hmiss : d.hit tokens = none := by
      rw [Option.eq_none_iff_forall_ne_some]
      exact fun h hsome => hocc h (hd.hit_some.mp hsome).1
    rw [hmiss]
    split <;> rfl

theorem occurs_take {want : Nat} (hwant : want ≤ tokens.length) :
    Occurs n (tokens.take want) key h ↔ Occurs n tokens key h ∧ h < want := by
  unfold Occurs
  rw [List.length_take, Nat.min_eq_left hwant]
  constructor
  · rintro ⟨hn, hlt, hkey⟩
    rw [gram_take (by omega)] at hkey
    exact ⟨⟨hn, by omega, hkey⟩, hlt⟩
  · rintro ⟨⟨hn, -, hkey⟩, hlt⟩
    exact ⟨hn, hlt, by rwa [gram_take (by omega)]⟩

theorem NgramDrafter.Indexed.cut {want : Nat} (hd : d.Indexed tokens)
    (hwant : want < tokens.length) (hsafe : SafeCut d tokens want) :
    NgramDrafter.Indexed { d with cursor := min d.cursor (want - d.n) } (tokens.take want) := by
  have hle : want ≤ tokens.length := Nat.le_of_lt hwant
  have hlen : (tokens.take want).length = want := by rw [List.length_take, Nat.min_eq_left hle]
  have hcursor := hd.cursor
  -- What still occurs has its entry in front of the cut.
  have hfront : ∀ key h' h, Occurs d.n (tokens.take want) key h' → d.index key = some h →
      h < want := by
    intro key h' h hcutOcc hsome
    obtain ⟨ho, hlt⟩ := (occurs_take hle).mp hcutOcc
    by_contra hge
    by_cases hcut : want < h
    · obtain ⟨hn, rfl⟩ := hsafe.1 key h hsome hcut
      exact hsafe.2 hn h' hlt ho
    · have hat : h = want := by omega
      subst hat
      have hl := (hd.entry key h hwant).mp hsome
      rw [← hl.1.2.2] at ho
      exact hsafe.2 hl.1.1 h' hlt ho
  refine ⟨?_, fun key h hlt => ?_, fun key h hsome hge => ?_⟩
  · rw [hlen]
    show min d.cursor (want - d.n) = want - d.n
    omega
  · rw [hlen] at hlt
    show d.index key = some h ↔ Latest d.n (tokens.take want) key h
    rw [hd.entry key h (by omega)]
    constructor
    · rintro ⟨ho, hlast⟩
      exact ⟨(occurs_take hle).mpr ⟨ho, hlt⟩, fun h' ho' => hlast h' ((occurs_take hle).mp ho').1⟩
    · intro hl
      obtain ⟨h', hlast⟩ := exists_latest ((occurs_take hle).mp hl.1).1
      have hbefore := hfront key h h' hl.1 ((hd.entry key h' hlast.1.2.1).mpr hlast)
      have hsame := hl.2 h' ((occurs_take hle).mpr ⟨hlast.1, hbefore⟩)
      have hbound := hlast.2 h ((occurs_take hle).mp hl.1).1
      rwa [show h = h' by omega]
  · rw [hlen] at hge
    show d.n ≤ (tokens.take want).length ∧ key = lastGram d.n (tokens.take want) ∧
      ∀ h', ¬Occurs d.n (tokens.take want) key h'
    have hkey : d.n ≤ want ∧ key = gram d.n tokens (want - d.n) := by
      by_cases hcut : want < h
      · exact hsafe.1 key h hsome hcut
      · have hat : h = want := by omega
        subst hat
        have hl := (hd.entry key h hwant).mp hsome
        exact ⟨hl.1.1, hl.1.2.2.symm⟩
    rw [hlen]
    refine ⟨hkey.1, ?_, fun h' ho => ?_⟩
    · rw [lastGram, hlen, gram_take (by omega)]
      exact hkey.2
    · exact absurd (hfront key h' h ho hsome) (Nat.not_lt.mpr hge)

theorem sync_indexed {st : SpecState} {ids : List Token} (hd : st.drafter.Indexed st.tokens)
    (hsafe : SafeSync st ids) :
    (st.sync hash ids).drafter.Indexed (st.sync hash ids).tokens := by
  unfold SpecState.sync
  dsimp only
  split
  · exact hd.observe (List.prefix_append _ _)
  · split
    · rename_i hcut
      exact (hd.cut hcut (hsafe hcut)).observe (List.prefix_refl _)
    · exact hd.observe (List.prefix_refl _)

theorem sync_n (st : SpecState) (ids : List Token) :
    (st.sync hash ids).drafter.n = st.drafter.n := by
  unfold SpecState.sync
  dsimp only
  split
  · exact NgramDrafter.observe_n _ _
  · split
    · exact NgramDrafter.observe_n _ _
    · exact NgramDrafter.observe_n _ _

/-- **A run whose cuts are safe drafts from the most recent occurrence**, in every state that it
reaches. -/
theorem drafts_of_reach (hash : List Token → Int) (spec : SpecConfig) {st : SpecState}
    (hrun : Reach (fun st ids => some (st.sync hash ids)) SafeSync (.new spec) st) (k : Nat) :
    DraftsLatest spec.n st.drafter st.tokens k := by
  have hinv : st.drafter.n = spec.n ∧ st.drafter.Indexed st.tokens := by
    refine Reach.invariant (P := fun st => st.drafter.n = spec.n ∧ st.drafter.Indexed st.tokens)
      ⟨rfl, NgramDrafter.indexed_new spec.n spec.nPos⟩ ?_ hrun
    rintro st ids st' ⟨hn, hd⟩ hsafe hstep
    rw [← Option.some.inj hstep]
    exact ⟨(sync_n st ids).trans hn, sync_indexed hd hsafe⟩
  rw [← hinv.1]
  exact hinv.2.drafts k

/-- A decoder that drafts by pairs of tokens. -/
def pairsConfig : SpecConfig :=
  ⟨2, 4, false, true, false, fun _ => 0, false, 1, pair_size⟩

/-- The request's state after these lists of tokens, one after the other. -/
def synced (lists : List (List Token)) : SpecState :=
  lists.foldl (fun st ids => st.sync pairsConfig.hash ids) (.new pairsConfig)

theorem drafts_of_reach_cut :
    DraftsLatest 2 (synced [[1, 2, 3], [1, 2], [1, 2, 4, 1, 2]]).drafter
      (synced [[1, 2, 3], [1, 2], [1, 2, 4, 1, 2]]).tokens 4 := by
  have hgrow : ∀ st ids, st.tokens.length ≤ ids.length → SafeSync st ids :=
    fun st ids hle hlt => absurd hlt (Nat.not_lt.mpr hle)
  have hcut : SafeSync (synced [[1, 2, 3]]) [1, 2] := by
    refine fun _ => ⟨fun key h hsome hlt => ?_, fun _ h hlt ho => ?_⟩
    · by_cases hkey : key = [1, 2]
      · subst hkey
        have hat : h = 2 := Option.some.inj (hsome.symm.trans rfl)
        exact absurd hlt (by rw [hat]; decide)
      · exact absurd (hsome.symm.trans (Function.update_of_ne hkey _ _)) (nomatch ·)
    · have hle : 2 ≤ h := ho.1
      have hlt' : h < 2 := hlt
      omega
  refine drafts_of_reach pairsConfig.hash pairsConfig ?_ 4
  exact .step (.step (.step .refl (hgrow _ _ (by decide)) rfl) hcut rfl) (hgrow _ _ (by decide)) rfl

/-- **A cut leaves entries behind**: the pair `5, 6` was cut off and comes again, and the draft
continues what now stands where it was, though the pair does not occur before. -/
theorem drafts_after_cut :
    Reach (fun st ids => some (st.sync pairsConfig.hash ids)) (fun _ _ => True) (.new pairsConfig)
        (synced [[1, 5, 6, 7], [1, 5], [1, 5, 9, 8, 5, 6]]) ∧
      ¬DraftsLatest 2 (synced [[1, 5, 6, 7], [1, 5], [1, 5, 9, 8, 5, 6]]).drafter
        (synced [[1, 5, 6, 7], [1, 5], [1, 5, 9, 8, 5, 6]]).tokens 2 := by
  refine ⟨.step (.step (.step .refl trivial rfl) trivial rfl) trivial rfl, ?_⟩
  have hdraft : (synced [[1, 5, 6, 7], [1, 5], [1, 5, 9, 8, 5, 6]]).drafter.draft
      (synced [[1, 5, 6, 7], [1, 5], [1, 5, 9, 8, 5, 6]]).tokens 2 = [8, 5] := by decide
  rintro (⟨h, ⟨⟨hn, hlt, hkey⟩, -⟩, -⟩ | ⟨-, hnone⟩)
  · have hlt' : h < 6 := hlt
    have hcases : h = 2 ∨ h = 3 ∨ h = 4 ∨ h = 5 := by omega
    rcases hcases with rfl | rfl | rfl | rfl <;> exact absurd hkey (by decide)
  · rw [hdraft] at hnone
    exact nomatch hnone

end FreeToken.Speculation
