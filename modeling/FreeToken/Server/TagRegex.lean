import FreeToken.Lib.Leftmost
import FreeToken.Server.Types

/-!
# The opening tags of invokes and parameters

The two shapes of `_ps_invoke_open_re` and `_ps_param_open_re` as matchers: the name
inside the tag up to `>` (`<function=([^>]*)>`), and the name in a quoted attribute
(`<invoke\s+name="([^"]+)"\s*>`). In both a match holds no shorter match, so the
leftmost one is stable while the text streams.
-/

namespace FreeToken.Server

open FreeToken.Lib

/-! ## The name inside the tag -/

/-- `tag([^>]*)>` at the front of a text. -/
def plainTag (tag text : Text) : Option (Text × Text) :=
  if tag <+: text then
    match (text.drop tag.length).dropWhile (· != '>') with
    | [] => none
    | _ :: rest => some ((text.drop tag.length).takeWhile (· != '>'), rest)
  else none

/-- What is behind the first element that `p` refuses. -/
theorem takeWhile_split {p : Char → Bool} {a : Text} {c : Char} (rest : Text)
    (ha : ∀ x ∈ a, p x = true) (hc : p c = false) :
    (a ++ c :: rest).takeWhile p = a ∧ (a ++ c :: rest).dropWhile p = c :: rest := by
  rw [List.takeWhile_append_of_pos ha, List.dropWhile_append_of_pos ha]
  simp [hc]

theorem drop_tag {tag text : Text} (h : tag <+: text) : text = tag ++ text.drop tag.length := by
  obtain ⟨rest, rfl⟩ := h
  rw [List.drop_left]

theorem plainTag_iff {tag text group rest : Text} :
    plainTag tag text = some (group, rest) ↔
      ∃ w, text = w ++ rest ∧ w = tag ++ (group ++ ['>']) ∧ '>' ∉ group := by
  rw [plainTag]
  constructor
  · intro h
    split at h
    · rename_i htag
      generalize hbody : text.drop tag.length = body at h
      have hsplit := List.takeWhile_append_dropWhile (p := (· != '>')) (l := body)
      cases hd : body.dropWhile (· != '>') with
      | nil => simp [hd] at h
      | cons c cs =>
        simp only [hd, Option.some.injEq, Prod.mk.injEq] at h
        obtain ⟨rfl, rfl⟩ := h
        have hc : c = '>' := by
          have := List.head?_dropWhile_not (· != '>') body
          rw [hd] at this
          simpa using this
        refine ⟨tag ++ (body.takeWhile (· != '>') ++ ['>']), ?_, rfl, fun hmem => ?_⟩
        · rw [hd, hc] at hsplit
          rw [drop_tag htag, hbody, List.append_assoc, List.append_assoc]
          exact congrArg _ hsplit.symm
        · simpa using List.mem_takeWhile_imp hmem
    · simp at h
  · rintro ⟨w, rfl, rfl, hmem⟩
    have hne : ∀ x ∈ group, (x != '>') = true := by
      intro x hx
      simp only [bne_iff_ne, ne_eq]
      rintro rfl
      exact hmem hx
    have hsplit := takeWhile_split rest hne (c := '>') (by simp)
    simp only [List.append_assoc, List.singleton_append, List.drop_left, hsplit,
      List.prefix_append, if_true]

/-- The matcher of `tag([^>]*)>`. -/
def plainMatcher (tag : Text) (htag : '>' ∉ tag) : Matcher Char Text where
  run := plainTag tag
  Matches w group := w = tag ++ (group ++ ['>']) ∧ '>' ∉ group
  run_iff := plainTag_iff
  nonempty := by
    rintro w group ⟨rfl, -⟩
    simp
  inner := by
    rintro w w' g g' j ⟨rfl, hg⟩ ⟨rfl, -⟩ - hpre hlt
    -- the `>` that ends the inner match would be in the tag or its name
    have hmem : '>' ∈ tag ++ g := by
      obtain ⟨rest, hrest⟩ := hpre
      have hat : (tag ++ (g' ++ ['>']))[(tag ++ g').length]? = some '>' := by
        rw [← List.append_assoc, List.getElem?_append_right (Nat.le_refl _)]
        simp
      have hin : (tag ++ (g ++ ['>']))[j + (tag ++ g').length]? = some '>' := by
        rw [← List.getElem?_drop, ← hrest, List.getElem?_append_left (by simp), hat]
      rw [← List.append_assoc, List.getElem?_append_left (by simp at hlt ⊢; omega)] at hin
      exact List.mem_of_getElem? hin
    rcases List.mem_append.mp hmem with h | h
    · exact htag h
    · exact hg h

/-! ## The name in an attribute -/

def nameAttr : Text := "name=\"".toList

/-- How much a tag may vary: `\s+name="([^"]+)"\s*>`, or ` name="([^"]*)">`. -/
def spacingOk (loose : Bool) (gap group close : Text) : Bool :=
  if loose then gap != [] && group != [] else gap == [' '] && close == []

/-- The quoted attribute behind the tag. -/
def attrBody (loose : Bool) (text : Text) : Option (Text × Text) :=
  let named := text.dropWhile isSpace
  if nameAttr <+: named then
    let quoted := named.drop nameAttr.length
    match quoted.dropWhile (· != '"') with
    | [] => none
    | _ :: closing =>
      match closing.dropWhile isSpace with
      | '>' :: rest =>
        if spacingOk loose (text.takeWhile isSpace) (quoted.takeWhile (· != '"'))
            (closing.takeWhile isSpace) then
          some (quoted.takeWhile (· != '"'), rest)
        else none
      | _ => none
  else none

def attrTag (loose : Bool) (tag text : Text) : Option (Text × Text) :=
  if tag <+: text then attrBody loose (text.drop tag.length) else none

/-- The text of a match behind its tag. -/
def IsAttr (loose : Bool) (w group : Text) : Prop :=
  ∃ gap close, w = gap ++ (nameAttr ++ (group ++ ('"' :: (close ++ ['>'])))) ∧
    (∀ c ∈ gap, isSpace c = true) ∧ (∀ c ∈ close, isSpace c = true) ∧ '"' ∉ group ∧
    spacingOk loose gap group close = true

theorem attrBody_iff {loose : Bool} {text group rest : Text} :
    attrBody loose text = some (group, rest) ↔ ∃ w, text = w ++ rest ∧ IsAttr loose w group := by
  rw [attrBody]
  constructor
  · intro h
    dsimp only at h
    split at h
    · rename_i hname
      have hgap := List.takeWhile_append_dropWhile (p := isSpace) (l := text)
      have hnamed := drop_tag hname
      generalize (text.dropWhile isSpace).drop nameAttr.length = quoted at h hnamed
      -- the group ends at the first quote
      have hquoted := List.takeWhile_append_dropWhile (p := (· != '"')) (l := quoted)
      cases hd : quoted.dropWhile (· != '"') with
      | nil => simp [hd] at h
      | cons c closing =>
        have hc : c = '"' := by
          have := List.head?_dropWhile_not (· != '"') quoted
          rw [hd] at this
          simpa using this
        simp only [hd] at h
        have hclosing := List.takeWhile_append_dropWhile (p := isSpace) (l := closing)
        split at h
        · rename_i rest' hrest
          split at h
          · rename_i hok
            simp only [Option.some.injEq, Prod.mk.injEq] at h
            obtain ⟨rfl, rfl⟩ := h
            refine ⟨_, ?_, text.takeWhile isSpace, closing.takeWhile isSpace, rfl, ?_, ?_, ?_, hok⟩
            · rw [hrest] at hclosing
              rw [hd, hc, ← hclosing] at hquoted
              rw [← hquoted] at hnamed
              rw [hnamed] at hgap
              refine hgap.symm.trans ?_
              rw [hquoted]
              simp only [List.append_assoc, List.cons_append, List.nil_append, hquoted]
            · exact fun x hx => List.mem_takeWhile_imp hx
            · exact fun x hx => List.mem_takeWhile_imp hx
            · exact fun hmem => by simpa using List.mem_takeWhile_imp hmem
          · simp at h
        · simp at h
    · simp at h
  · rintro ⟨w, rfl, gap, close, rfl, hgap, hclose, hgroup, hok⟩
    -- the group has no quote, so the scan for one ends behind it
    have hne : ∀ x ∈ group, (x != '"') = true := by
      intro x hx
      simp only [bne_iff_ne, ne_eq]
      rintro rfl
      exact hgroup hx
    have hn : isSpace 'n' = false := by decide
    have hsplit := takeWhile_split ("ame=\"".toList ++ (group ++ ('"' :: (close ++
      ('>' :: rest))))) hgap hn
    have hname : 'n' :: ("ame=\"".toList ++ (group ++ ('"' :: (close ++ ('>' :: rest))))) =
        nameAttr ++ (group ++ ('"' :: (close ++ ('>' :: rest)))) := rfl
    rw [hname] at hsplit
    have hq := takeWhile_split (close ++ ('>' :: rest)) hne (c := '"') (by simp)
    have hcl := takeWhile_split rest hclose (c := '>') (by decide)
    have hshape : gap ++ (nameAttr ++ (group ++ ('"' :: (close ++ ['>'])))) ++ rest =
        gap ++ (nameAttr ++ (group ++ ('"' :: (close ++ ('>' :: rest))))) := by
      simp [List.append_assoc]
    rw [hshape]
    simp only [hsplit, List.prefix_append, if_true, List.drop_left, hq, hcl, hok]

theorem attrTag_iff {loose : Bool} {tag text group rest : Text} :
    attrTag loose tag text = some (group, rest) ↔
      ∃ w, text = w ++ rest ∧ ∃ a, w = tag ++ a ∧ IsAttr loose a group := by
  rw [attrTag]
  constructor
  · intro h
    split at h
    · rename_i htag
      obtain ⟨a, ha, hattr⟩ := attrBody_iff.mp h
      refine ⟨tag ++ a, ?_, a, rfl, hattr⟩
      rw [List.append_assoc, ← ha]
      exact drop_tag htag
    · simp at h
  · rintro ⟨w, rfl, a, rfl, hattr⟩
    rw [List.append_assoc, if_pos (List.prefix_append _ _), List.drop_left]
    exact attrBody_iff.mpr ⟨a, rfl, hattr⟩

/-- A tag that starts with `<`, has it nowhere else, and no quote. -/
def TagName (tag : Text) : Prop := tag.head? = some '<' ∧ '<' ∉ tag.tail ∧ '"' ∉ tag

instance (tag : Text) : Decidable (TagName tag) := inferInstanceAs (Decidable (_ ∧ _ ∧ _))

/-- The matcher of the tag with its name in an attribute. -/
def attrMatcher (loose : Bool) (tag : Text) (htag : TagName tag) : Matcher Char Text where
  run := attrTag loose tag
  Matches w group := ∃ a, w = tag ++ a ∧ IsAttr loose a group
  run_iff := attrTag_iff
  nonempty := by
    rintro w g ⟨a, rfl, -⟩ h
    rw [(List.append_eq_nil_iff.mp h).1] at htag
    simp [TagName] at htag
  inner := by
    rintro w w' g g' j ⟨a, rfl, gap, close, rfl, hgap, hclose, hg, -⟩
      ⟨a', rfl, gap', close', rfl, -, -, -, -⟩ hj ⟨rest, hrest⟩ -
    obtain ⟨hhead, htail, hquote⟩ := htag
    obtain ⟨c, tag', rfl⟩ : ∃ c tag', tag = c :: tag' := by
      cases tag with
      | nil => simp at hhead
      | cons c tag' => exact ⟨c, tag', rfl⟩
    obtain rfl : c = '<' := by simpa using hhead
    -- the inner match starts with `<`, which is only in the name: one quote is left
    have hspace : ∀ x, isSpace x = true → x ≠ '<' ∧ x ≠ '"' := by
      rintro x hx
      constructor <;> rintro rfl <;> exact absurd hx (by decide)
    have hcount : List.count '"' (g ++ ('"' :: (close ++ ['>']))) = 1 := by
      have h0 : List.count '"' close = 0 :=
        List.count_eq_zero.mpr fun h => (hspace _ (hclose _ h)).2 rfl
      have h1 : List.count '"' g = 0 := List.count_eq_zero.mpr hg
      simp [List.count_append, h0, h1]
    have hshape : '<' :: tag' ++ (gap ++ (nameAttr ++ (g ++ ('"' :: (close ++ ['>']))))) =
        ('<' :: (tag' ++ (gap ++ nameAttr))) ++ (g ++ ('"' :: (close ++ ['>']))) := by
      simp [List.append_assoc]
    rw [hshape] at hrest
    rcases Nat.lt_or_ge j ('<' :: (tag' ++ (gap ++ nameAttr))).length with hlt | hge
    · -- its first character would be in the tag, the gap or `name="`
      obtain ⟨k, rfl⟩ : ∃ k, j = k + 1 := ⟨j - 1, by omega⟩
      have hat := congrArg List.head? hrest
      rw [List.head?_drop, List.getElem?_append_left hlt, List.getElem?_cons_succ] at hat
      have hmem := List.mem_of_getElem? hat.symm
      rcases List.mem_append.mp hmem with h | h
      · exact htail h
      · rcases List.mem_append.mp h with h | h
        · exact (hspace _ (hgap _ h)).1 rfl
        · exact absurd h (by decide)
    · rw [List.drop_append, List.drop_eq_nil_of_le hge, List.nil_append] at hrest
      have hle := (List.drop_sublist (j - ('<' :: (tag' ++ (gap ++ nameAttr))).length)
        (g ++ ('"' :: (close ++ ['>'])))).count_le '"'
      rw [hcount, ← hrest] at hle
      have : List.count '"' nameAttr = 1 := by decide
      simp [List.count_append, this] at hle
      omega

end FreeToken.Server
