import FreeToken.Lib.Chain
import FreeToken.Scheduler.Types

/-!
# The n-gram drafter

`NgramDrafter` of `scheduler/spec_ngram.py`: an index from the `n`-grams of a
request's own tokens to the position after their most recent occurrence, and
`accepted_count`, which compares a draft with the model's own tokens. `hash` is
Python's hash of a tuple; the drafter keeps hashes of the indexed `n`-grams
without their last token, for the test made while a token is still in flight.
-/

namespace FreeToken.Speculation

open FreeToken.Scheduler FreeToken.Lib

/-- `n` is positive: the constructor asserts it. -/
structure NgramDrafter where
  n : Nat
  index : List Token → Option Nat
  prefixHashes : List Int
  cursor : Nat
  nPos : 1 ≤ n

/-- `tokens[i : i + n]`. -/
def gram (n : Nat) (tokens : List Token) (i : Nat) : List Token := (tokens.drop i).take n

namespace NgramDrafter

def new (n : Nat) (hn : 1 ≤ n) : NgramDrafter := ⟨n, fun _ => none, [], 0, hn⟩

variable (hash : List Token → Int)

def observeAt (tokens : List Token) (d : NgramDrafter) (i : Nat) : NgramDrafter :=
  let key := gram d.n tokens i
  { d with
    index := Function.update d.index key (some (i + d.n))
    prefixHashes := hash key.dropLast :: d.prefixHashes
    cursor := i + 1 }

/-- The `n`-grams from the cursor on that end strictly before the last position. -/
def observe (d : NgramDrafter) (tokens : List Token) : NgramDrafter :=
  (List.range' d.cursor (tokens.length - d.n - d.cursor)).foldl (observeAt hash tokens) d

def hit (d : NgramDrafter) (tokens : List Token) : Option Nat :=
  let pos := tokens.length
  if pos < d.n then none
  else
    match d.index (gram d.n tokens (pos - d.n)) with
    | none => none
    | some h => if pos ≤ h then none else some h

def hasMatch (d : NgramDrafter) (tokens : List Token) : Bool := (d.hit tokens).isSome

/-- Could the drafter fire once one more token is known? -/
def couldMatch (d : NgramDrafter) (tokens : List Token) : Bool :=
  let n1 := d.n - 1
  let pos := tokens.length
  if pos < n1 then false else decide (hash (gram n1 tokens (pos - n1)) ∈ d.prefixHashes)

def draft (d : NgramDrafter) (tokens : List Token) (k : Nat) : List Token :=
  if k = 0 then []
  else
    match d.hit tokens with
    | none => []
    | some h => (tokens.drop h).take k

theorem length_draft_le (d : NgramDrafter) (tokens : List Token) (k : Nat) :
    (d.draft tokens k).length ≤ k := by
  rw [draft]
  split
  · exact Nat.zero_le k
  · split
    · exact Nat.zero_le k
    · exact List.length_take_le k _

end NgramDrafter

/-- The longest prefix of the draft that the greedy tokens agree with; the last
greedy token is compared with nothing. -/
def acceptedCount : List Token → List Token → Nat
  | d :: draft, g :: g' :: greedy =>
    if g = d then acceptedCount draft (g' :: greedy) + 1 else 0
  | _, _ => 0

theorem acceptedCount_le (draft greedy : List Token) : acceptedCount draft greedy ≤ draft.length := by
  induction draft, greedy using acceptedCount.induct with
  | case1 draft g g' greedy ih =>
    rw [acceptedCount, if_pos rfl, List.length_cons]
    exact Nat.succ_le_succ ih
  | case2 d draft g g' greedy hne =>
    rw [acceptedCount, if_neg hne]
    exact Nat.zero_le _
  | case3 draft greedy hshort =>
    rw [acceptedCount]
    · exact Nat.zero_le _
    · exact hshort

/-- The accepted drafts are the greedy tokens. -/
theorem take_acceptedCount (draft greedy : List Token) :
    draft.take (acceptedCount draft greedy) = greedy.take (acceptedCount draft greedy) := by
  induction draft, greedy using acceptedCount.induct with
  | case1 draft g g' greedy ih =>
    rw [acceptedCount, if_pos rfl, List.take_succ_cons, List.take_succ_cons, ih]
  | case2 d draft g g' greedy hne =>
    rw [acceptedCount, if_neg hne, List.take_zero, List.take_zero]
  | case3 draft greedy hshort =>
    rw [acceptedCount]
    · rw [List.take_zero, List.take_zero]
    · exact hshort

/-- **What a verify step emits is what greedy decoding would have.** Whatever the
draft, the greedy rows up to the first disagreement and the row there continue
the tokens as `next` does one token at a time. -/
theorem emitted_eq_chain (next : List Token → Token) (ids draft : List Token) :
    ids ++ (rows next ids draft).take (acceptedCount draft (rows next ids draft) + 1) =
      chain next ids (acceptedCount draft (rows next ids draft) + 1) :=
  append_rows next (acceptedCount_le _ _) (take_acceptedCount _ _)

end FreeToken.Speculation
